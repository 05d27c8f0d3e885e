import Milo.Foundation.ByteMemory
import Milo.Foundation.Traced
import Milo.Memory.Sizing

/-! # Loading an ELF image from memory

`extract_header_info` accepts a staged image by its header and computes where
its one segment goes; `load_image_from_memory` copies the segment. The header
fields are taken as they are, so the arithmetic on them is traced.
-/

namespace Milo.Boot

open Foundation Milo.Memory

/-! ## The header -/

def iobufSize : Nat := 1024

/-- `sizeof(struct elf_phdr)` -/
def phdrSize : Nat := 56

/-- `ET_EXEC` -/
def etExec : Nat := 2

/-- The fields of `struct elfhdr` that are read, at their places in ELF64. -/
def eType (mem : ByteMemory) (header : Nat) : Nat := readLe mem (header + 16) 2
def eMachine (mem : ByteMemory) (header : Nat) : Nat := readLe mem (header + 18) 2
def eEntry (mem : ByteMemory) (header : Nat) : Nat := readLe mem (header + 24) 8
def ePhoff (mem : ByteMemory) (header : Nat) : Nat := readLe mem (header + 32) 8
def ePhnum (mem : ByteMemory) (header : Nat) : Nat := readLe mem (header + 56) 2

/-- `e_ident` starts with 0x7f and "ELF". -/
def identOk (mem : ByteMemory) (header : Nat) : Bool :=
  mem header == 0x7f && mem (header + 1) == 0x45 && mem (header + 2) == 0x4c &&
    mem (header + 3) == 0x46

/-- The address of the program header. -/
def phdrAt (mem : ByteMemory) (header : Nat) : Nat := u64 (header + ePhoff mem header)

/-- The fields of `struct elf_phdr` that are read. -/
def pOffset (mem : ByteMemory) (header : Nat) : Nat := readLe mem (u64 (phdrAt mem header + 8)) 8
def pVaddr (mem : ByteMemory) (header : Nat) : Nat := readLe mem (u64 (phdrAt mem header + 16)) 8
def pFilesz (mem : ByteMemory) (header : Nat) : Nat := readLe mem (u64 (phdrAt mem header + 32)) 8
def pMemsz (mem : ByteMemory) (header : Nat) : Nat := readLe mem (u64 (phdrAt mem header + 40)) 8

/-! ## Loading -/

/-- The globals that describe the kernel. -/
structure KernelInfo where
  kernelAt : Nat
  kernelEntry : Nat
  kernelPages : Nat
  kernelFilesize : Nat
  kernelMemsize : Nat

/-- `-1` as a `long`; offsets from `2 ^ 63` on are negative. -/
def minusOne : Nat := 2 ^ 64 - 1

section
variable (elfCheckArch : Nat → Bool)

/-- `extract_header_info` -/
def extractHeaderInfo (mem : ByteMemory) (header : Nat) (k : KernelInfo) :
    Traced (Nat × KernelInfo) :=
  if identOk mem header = false then pure (minusOne, k)
  else if eType mem header ≠ etExec then pure (minusOne, k)
  else if elfCheckArch (eMachine mem header) = false then pure (minusOne, k)
  else if ePhnum mem header ≠ 1 then pure (minusOne, k)
  else do
    let phend ← Traced.add (ePhoff mem header) phdrSize
    if phend > iobufSize then pure (minusOne, k)
    else do
      let _phdr ← Traced.add header (ePhoff mem header)
      if pVaddr mem header < eEntry mem header then do
        let delta ← Traced.sub (eEntry mem header) (pVaddr mem header)
        let offset ← Traced.add (pOffset mem header) delta
        let filesize ← Traced.sub (pFilesz mem header) delta
        let memsize ← Traced.sub (pMemsz mem header) delta
        pure (offset,
          { k with
            kernelAt := eEntry mem header
            kernelEntry := eEntry mem header
            kernelFilesize := filesize
            kernelMemsize := memsize })
      else
        pure (pOffset mem header,
          { k with
            kernelAt := pVaddr mem header
            kernelEntry := eEntry mem header
            kernelFilesize := pFilesz mem header
            kernelMemsize := pMemsz mem header })

/-- What a call of `load_image_from_memory` leaves; `source` is where it copied
from, if it got that far. -/
structure LoadResult where
  entry : Nat
  kernel : KernelInfo
  mem : ByteMemory
  source : Option Nat

/-- `load_image_from_memory`. Its argument `pages` is not used. -/
def loadImageFromMemory (mem : ByteMemory) (address : Nat) (k : KernelInfo) :
    Traced LoadResult := do
  let (offset, k) ← extractHeaderInfo elfCheckArch mem address k
  if 2 ^ 63 ≤ offset then pure { entry := 0, kernel := k, mem, source := none }
  else do
    let a ← Traced.add k.kernelMemsize pageSize
    let a ← Traced.sub a 1
    let b ← Traced.sub k.kernelEntry kernelStart
    let b ← Traced.add b pageSize
    let b ← Traced.sub b 1
    let pages ← Traced.add (a >>> pageShift) (b >>> pageShift)
    let source ← Traced.add address offset
    pure
      { entry := k.kernelEntry
        kernel := { k with kernelPages := pages }
        mem := memcpy mem k.kernelAt source k.kernelFilesize
        source := some source }

end

/-! ## Images -/

/-- Byte `i` of a word. -/
def leByte (n i : Nat) : UInt8 := UInt8.ofNat (n / 256 ^ i)

/-- A memory of `old` bytes with an Alpha ELF header at `address`, followed by
its program header and zeros. -/
def elfImage (old : UInt8) (address entry offset vaddr filesz memsz : Nat) : ByteMemory := fun a =>
  let i := a - address
  if a < address then old
  else if i < 4 then [0x7f, 0x45, 0x4c, 0x46].getD i 0
  else if i < 18 then leByte etExec (i - 16)
  else if i < 20 then leByte 0x9026 (i - 18)
  else if i < 24 then 0
  else if i < 32 then leByte entry (i - 24)
  else if i < 40 then leByte 64 (i - 32)
  else if i < 56 then 0
  else if i < 72 then leByte 1 (i - 56)
  else if i < 80 then leByte offset (i - 72)
  else if i < 88 then leByte vaddr (i - 80)
  else if i < 96 then 0
  else if i < 104 then leByte filesz (i - 96)
  else if i < 112 then leByte memsz (i - 104)
  else 0

/-- Where the images below are staged. -/
def stagedAt : Nat := 0xfffffc0001000200

/-- `elf_check_arch`, for EM_ALPHA. -/
def alphaOnly (machine : Nat) : Bool := machine == 0x9026

/-- Nothing is known about the kernel before an image is loaded. -/
def noKernel : KernelInfo := ⟨0, 0, 0, 0, 0⟩

end Milo.Boot
