import Milo.Foundation.BoundedMap
import Milo.Foundation.LinkChain
import Milo.Memory.Ownership
import Milo.Memory.Resizing
import Milo.Memory.SelfMap
import Milo.Memory.PageRun
import Milo.Hwrpb.MemMap
import Milo.Boot.Ramdisk
import Milo.Boot.Staging
import Milo.Boot.ElfLoading
import Milo.Boot.MemorySize
import Milo.Boot.RebootBlock
import Milo.Boot.PageTableRefinement
import Milo.Boot.KernelArguments
import Milo.Boot.RamdiskPages
import Milo.Boot.KernelPages
import Milo.Env.Environ
import Milo.Env.Validity
import Milo.Flash.EbEnvironment
import Milo.Flash.EbProgram
import Milo.Flash.Noname
import Milo.Console.Keyboard
import Milo.Console.Pager
import Milo.Console.SerialReader
import Milo.Devices.BlockRead
import Milo.Devices.BlockBuffer
import Milo.Fs.BlockReader
import Milo.Fs.Dos
import Milo.Fs.DosVolume
import Milo.Fs.DosSafety
import Milo.Fs.Ext2
import Milo.Fs.Ext2Lookup
import Milo.Fs.Ext2Caches
import Milo.Fs.Ext2Slots
import Milo.Fs.Ext2Scan
import Milo.Fs.Ext2Resolve
import Milo.Fs.Isofs
import Milo.Fs.ReaderContract
import Milo.Fs.DosSlots
import Milo.Fs.DosResolve
import Milo.Fs.IsoResolve
import Milo.Fs.IsoRecord
import Milo.Fs.IsoSearch
import Milo.Rom.InputFiles
import Milo.Rom.Sysgen
import Milo.Rom.StackIndices
import Milo.Shell.CommandString
import Milo.Shell.ConfigLoad
import Milo.Shell.RepeatedBoot
import Milo.Shell.WorkingDir
import Milo.Shell.BootString
import Milo.Shell.OptionMerge
import Milo.Shell.ConfigForm
import Milo.Timers.ModTimer
import Milo.Tools.DataImage
import Milo.Tools.FatEntry
import Milo.Tools.FatExtent
import Milo.Tools.TextSection
import Milo.Tools.Miloctl
import Milo.Tools.SplitLong
import Milo.Zip.InputEnd
import Milo.Zip.InflateSafety
import Milo.Zip.Unzip
import Milo.Foundation.CarryChain
import Milo.X86.Arith
import Milo.X86.Calls
import Milo.X86.Jumps
