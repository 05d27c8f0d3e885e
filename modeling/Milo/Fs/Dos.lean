import Mathlib.Logic.Function.Basic
import Milo.Fs.BlockReader

/-! # The msdos reader

The boot sector, the translation of the file allocation table, the block list
of an open file and the reading of its blocks. Block lists are arrays of 16-bit
words that the code reads as signed and writes as unsigned or signed numbers;
an array from `malloc` holds what its memory held before.
-/

namespace Milo.Fs.Dos

open Foundation

/-- `SECTOR_SIZE`, which is also the `blocksize` of every mounted volume. -/
def sectorSize : Nat := 512

/-- `MSDOS_FAT12` -/
def msdosFat12 : Nat := 4078

/-- `MSDOS_MAX_EXTRA` -/
def msdosMaxExtra : Nat := 3

/-- `struct msdos_boot_sector`, the fields that are read. -/
structure BootSector where
  sectorSize : Nat
  clusterSize : Nat
  reserved : Nat
  fats : Nat
  dirEntries : Nat
  sectors : Nat
  fatLength : Nat
  secsTrack : Nat
  heads : Nat
  totalSect : Nat

/-- The boot sector as it lies on the device. -/
def bootSectorAt (contents : ByteMemory) : BootSector where
  sectorSize := readLe contents 11 2
  clusterSize := readLe contents 13 1
  reserved := readLe contents 14 2
  fats := readLe contents 16 1
  dirEntries := readLe contents 17 2
  sectors := readLe contents 19 2
  fatLength := readLe contents 22 2
  secsTrack := readLe contents 24 2
  heads := readLe contents 26 2
  totalSect := readLe contents 32 4

/-- `struct msdos_sb` -/
structure MsdosSb where
  clusterSize : Nat
  fats : Nat
  fatBits : Nat
  fatStart : Nat
  fatLength : Nat
  dirStart : Nat
  dirEntries : Nat
  dataStart : Nat
  clusters : Nat
  deriving DecidableEq

/-- The value a 16-bit unsigned variable keeps. -/
def u16 (n : Int) : Nat := (n % 2 ^ 16).toNat

/-- `ROUND_TO_MULTIPLE` -/
def roundToMultiple (n m : Nat) : Nat :=
  if n ≠ 0 ∧ m ≠ 0 then n + m - 1 - (n - 1) % m else 0

/-- The number of clusters, an `unsigned long` made of quotients of `int` values. -/
def countClusters (b : BootSector) (sectorMult dataStart : Nat) : Nat :=
  let total := if b.sectors ≠ 0 then b.sectors else b.totalSect
  let dataSectors := s32 (sub32 (u32 (total * sectorMult)) dataStart)
  (((dataSectors.tdiv b.clusterSize).tdiv sectorMult) % 2 ^ 64).toNat

/-- The super block before it is checked. -/
def superOf (b : BootSector) (sectorMult : Nat) : MsdosSb :=
  let dirStart := u16 ((b.reserved + b.fats * b.fatLength) * sectorMult)
  let dataStart := u16 (dirStart + roundToMultiple (b.dirEntries <<< 5 >>> 9) sectorMult)
  let clusters := countClusters b sectorMult dataStart
  { clusterSize := u16 (b.clusterSize * sectorMult)
    fats := b.fats
    fatBits := if clusters > msdosFat12 then 16 else 12
    fatStart := u16 (b.reserved * sectorMult)
    fatLength := u16 (b.fatLength * sectorMult)
    dirStart := dirStart
    dirEntries := b.dirEntries
    dataStart := dataStart
    clusters := clusters }

/-- How many clusters the table has entries for. -/
def MsdosSb.fatClusters (sb : MsdosSb) : Nat := sb.fatLength * sectorSize * 8 / sb.fatBits

/-- `msdos_read_super`, from the boot sector to the checked super block. -/
def readSuper (b : BootSector) : Option MsdosSb :=
  let sectorMult := b.sectorSize >>> 9
  if b.clusterSize = 0 ∨ sectorMult = 0 then none
  else
    let sb := superOf b sectorMult
    if sb.fats = 0 ∨ sb.dirEntries % 16 ≠ 0 ∨
        u64 (sb.clusters + 2) > sb.fatClusters + msdosMaxExtra ∨
        b.sectorSize % sectorSize ≠ 0 ∨ b.secsTrack = 0 ∨ b.heads = 0 then none
    else if u64 (sb.clusters + 2) > sb.fatClusters then
      some { sb with clusters := sub64 sb.fatClusters 2 }
    else some sb

/-- `read_fat`: an entry of the table that lies at `tfat`. -/
def readFat (fatBits : Nat) (tfat : ByteMemory) (offset : Nat) : Nat :=
  let index := if fatBits = 16 then offset * 2 else offset * 3 / 2
  let mask := if fatBits = 16 then 0xffff else 0xfff
  let value := readLe tfat index 2
  let value := if fatBits = 12 ∧ offset &&& 1 ≠ 0 then value >>> 4 else value
  value &&& mask

/-- `translate_fat` -/
def translateFat (device : Device) (sb : MsdosSb) : Option (List Nat) :=
  let size := sectorSize * sb.fatLength
  let bytesRead := device.count (sb.fatStart * sectorSize) size
  if bytesRead ≠ size then none
  else
    let sizeInWords := if sb.fatBits = 16 then bytesRead / 2 else bytesRead * 2 / 3
    let tfat := fun i => device.contents (sb.fatStart * sectorSize + i)
    some ((List.range sizeInWords).map (readFat sb.fatBits tfat))

/-- `msdos_mount`, with the super block and the table that it leaves. -/
def msdosMount (device : Device) : Option (MsdosSb × List Nat) :=
  if device.count 0 36 ≠ 36 then none
  else
    (readSuper (bootSectorAt device.contents)).bind fun sb =>
      (translateFat device sb).map fun fat => (sb, fat)

/-! ## Opening a file -/

/-- The directory entry of a file, the fields that are read. -/
structure DirEntry where
  start : Nat
  size : Nat

/-- An entry of the inode table: a block list and how many blocks it has. -/
structure Inode where
  entry : DirEntry
  blockList : Nat → Nat
  blocks : Int

/-- The value is one of those that end a chain. -/
def isEof (fatBits index : Nat) : Bool :=
  let eofMask := if fatBits = 12 then 0xff8 else 0xfff8
  index &&& eofMask == eofMask

/-- The loop of `fill_block_list` that reads the clusters of a chain into the
list. It stops at the end of the chain or at an invalid cluster, after at most
`clusters` rounds. -/
def fillLoop (sb : MsdosSb) (fat : List Nat) (list : Nat → Nat) (block index : Nat) :
    Nat → Option ((Nat → Nat) × Nat)
  | 0 => none
  | n + 1 =>
      if sub64 index 2 ≥ sb.clusters ∨ block ≥ sb.clusters then none
      else
        let list := Function.update list block (u16 index)
        let index := fat[index]?.getD 0
        if isEof sb.fatBits index then some (list, block + 1)
        else fillLoop sb fat list (block + 1) index n

/-- The sectors of a cluster after its first one. -/
def fillCluster (list : Nat → Nat) (base : Nat) : Nat → Nat → Nat
  | 0 => list
  | j + 1 =>
      let list := fillCluster list base j
      Function.update list (base + (j + 1)) (u16 (list (base + j) + 1))

/-- The clusters of the list as device blocks in a new list. -/
def convertClusters (sb : MsdosSb) (clusters newList : Nat → Nat) : Nat → Nat → Nat
  | 0 => newList
  | i + 1 =>
      let newList := convertClusters sb clusters newList i
      let base := i * sb.clusterSize
      let first := u16 ((s16 (clusters i) - 2) * sb.clusterSize + sb.dataStart)
      fillCluster (Function.update newList base first) base (sb.clusterSize - 1)

/-- The clusters of the list as device blocks, for clusters of one sector. -/
def convertSectors (sb : MsdosSb) (list : Nat → Nat) : Nat → Nat → Nat
  | 0 => list
  | i + 1 =>
      let list := convertSectors sb list i
      Function.update list i (u16 (s16 (list i) - 2 + sb.dataStart))

/-- `__convert_block_list`; `newList` is what `malloc` yields. -/
def convertBlockList (sb : MsdosSb) (newList : Nat → Nat) (inode : Inode) : Inode :=
  if sb.clusterSize > 1 then
    { inode with
      blockList := convertClusters sb inode.blockList newList inode.blocks.toNat
      blocks := s16 (u32 (inode.entry.size + sectorSize) / sectorSize) }
  else
    { inode with blockList := convertSectors sb inode.blockList inode.blocks.toNat }

/-- `fill_block_list` with `alloc`; `list` and `newList` are what `malloc` yields. -/
def fillBlockList (sb : MsdosSb) (fat : List Nat) (list newList : Nat → Nat) (entry : DirEntry) :
    Option Inode :=
  (fillLoop sb fat list 0 entry.start (sb.clusters + 1)).map fun (list, block) =>
    convertBlockList sb newList ⟨entry, list, s16 block⟩

/-! ## Reading -/

/-- The offset of a device block that is kept in a `long`. -/
def blockOffset (devBlkno : Int) : Nat := ((devBlkno * 512) % 2 ^ 64).toNat

/-- `msdos_bread` -/
def msdosBread (inode : Inode) (device : Device) (blkno : Nat) (mem : ByteMemory)
    (buffer : Nat) : Int × ByteMemory :=
  let blkno := blkno * 2
  if (blkno : Int) ≥ inode.blocks then (-1, mem)
  else
    let (count, mem) := deviceRead device mem buffer 512 (blockOffset (s16 (inode.blockList blkno)))
    if count ≠ 512 then (-1, mem)
    else
      let blkno := blkno + 1
      if (blkno : Int) ≥ inode.blocks then (0, mem)
      else
        -- a second half that cannot be read is not reported
        (0, (deviceRead device mem (buffer + 512) 512
          (blockOffset (s16 (inode.blockList blkno)))).2)

end Milo.Fs.Dos
