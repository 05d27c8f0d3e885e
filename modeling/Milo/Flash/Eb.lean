import Milo.Boot.Atoi
import Milo.Env.Environ
import Milo.Foundation.Overlay

/-! # The flash of the evaluation boards

The flash update utility keeps a label for each of the 16 blocks: the firmware
id of the image that the scan found there, or -1. A command looks only at the
labels to decide which blocks it may erase.
-/

namespace Milo.Flash

open Foundation
open Milo.Boot (atoi)
open Milo.Env (environId)

def flashBlockSize : Nat := 64 * 1024

def flashBlocks : Nat := 16

/-- The labels, as `char`s in memory. -/
abbrev Labels := Nat → Int

/-- The label of a block that is not in use. -/
def unused : Int := -1

/-! ## Headers -/

/-- A byte kept in a `char`. -/
def toChar (b : UInt8) : Int := (b.toNat : Int).bmod 256

/-- The fields of `romheader_t` that the utility looks at. -/
structure RomHeader where
  signature : Nat
  csignature : Nat
  hsize : Nat
  fwId : Int
  rimageSize : Nat

def romHSignature : Nat := 0x5A5AC3C3

/-- `read_flash_header` -/
def readFlashHeader (flash : ByteMemory) (offset : Nat) : RomHeader where
  signature := readLe flash offset 4
  csignature := readLe flash (offset + 4) 4
  hsize := readLe flash (offset + 8) 4
  fwId := toChar (flash (offset + 0x21))
  rimageSize := readLe flash (offset + 0x24) 4

/-- `valid_flash_header` -/
def validFlashHeader (header : RomHeader) : Bool :=
  header.signature == romHSignature && header.csignature == sub32 (2 ^ 32 - 1) romHSignature

/-- The number of blocks that an image is taken to have. -/
def RomHeader.blocks (header : RomHeader) : Nat :=
  u32 (header.rimageSize + header.hsize) / flashBlockSize + 1

/-- The header at the start of a block. -/
def headerAt (flash : ByteMemory) (blockno : Nat) : RomHeader :=
  readFlashHeader flash (blockno * flashBlockSize)

/-! ## The scan -/

/-- The labels with one more for `count` blocks. -/
def labelRange (blocks : Labels) (first count : Nat) (label : Int) : Labels := fun i =>
  if first ≤ i ∧ i < first + count then label else blocks i

/-- `find_image`; no block is found for a result of -1. -/
def findImage (blocks : Labels) (imageno : Int) : Option Nat :=
  (List.range (flashBlocks - 1)).find? fun i => blocks i = imageno ∧ blocks (i + 1) = imageno

/-- The bytes at an offset are those of a string. -/
def holdsString (flash : ByteMemory) (offset : Nat) : List UInt8 → Bool
  | [] => true
  | c :: string => flash offset == c && holdsString flash (offset + 1) string

/-- `find_nvram` -/
def findNvram (flash : ByteMemory) : Option Nat :=
  (List.range flashBlocks).find? fun block =>
    holdsString flash (block * flashBlockSize) environId.chars

/-- One round of the loop over the blocks: the labels of an image that starts
there. -/
def labelImage (flash : ByteMemory) (blocks : Labels) (blockno : Nat) : Labels :=
  let header := headerAt flash blockno
  if validFlashHeader header then labelRange blocks blockno header.blocks header.fwId else blocks

/-- The indices of the labels that the loop writes. -/
def scanWrites (flash : ByteMemory) : List Nat :=
  (List.range flashBlocks).flatMap fun blockno =>
    let header := headerAt flash blockno
    if validFlashHeader header then List.range' blockno header.blocks else []

/-- The block that an image keeps its environment in. -/
def labelFixed (imageno : Int) (blockno : Nat) (blocks : Labels) : Labels :=
  if (findImage blocks imageno).isSome then Function.update blocks blockno imageno else blocks

/-- The block of the environment, unless it is the first one. -/
def labelNvram (flash : ByteMemory) (blocks : Labels) : Labels :=
  match findNvram flash with
  | some i => if 0 < i then Function.update blocks i 7 else blocks
  | none => blocks

/-- The labels when the loop over the blocks has ended. -/
def labelImages (flash : ByteMemory) (blocks : Labels) : Labels :=
  (List.range flashBlocks).foldl (labelImage flash) (labelRange blocks 0 flashBlocks unused)

/-- `scan_blocks` -/
def scanLabels (flash : ByteMemory) (blocks : Labels) : Labels :=
  -- Windows NT, VMS and Digital Unix
  labelNvram flash (labelFixed 3 14 (labelFixed 2 14 (labelFixed 1 15 (labelImages flash blocks))))

/-! ## The state of the utility -/

/-- What a flash chip does. Erasing a block and writing a byte may fail, and they
may leave anything in that block, but not in another one. -/
structure FlashChip (σ : Type _) where
  /-- `read_flash_byte` -/
  read : σ → ByteMemory
  /-- `write_flash_byte` -/
  write : σ → UInt8 → Nat → Bool × σ
  /-- `delete_flash_block` -/
  erase : σ → Nat → σ
  read_write : ∀ c data offset i, i / flashBlockSize ≠ offset / flashBlockSize →
    read (write c data offset).2 i = read c i
  read_erase : ∀ c blockno i, i / flashBlockSize ≠ blockno →
    read (erase c blockno) i = read c i

/-- The bytes that `kmalloc` gives for the labels. -/
def labelRoom : Nat := flashBlocks + (8 - flashBlocks % 8)

structure Fmu (σ : Type _) where
  chip : σ
  blocks : Labels
  /-- A scan has written behind the memory of the labels. -/
  overrun : Bool
  /-- The labels as the last scan left them. -/
  scanned : Labels
  /-- The blocks erased or written so far, with their labels at the last scan. -/
  touched : List (Nat × Int)

/-- How a command ends. -/
inductive Report
  | invalidImage
  | invalidBlock
  | notEnoughRoom
  | wouldOverwrite
  | declined
  | writeFailed (flashOffset : Nat)
  | readMismatch (imageOffset : Nat)
  | debugMonitor
  | noSuchImage
  | alreadyThere (blockno : Nat)
  | inUse
  | done
deriving DecidableEq

section
variable {σ : Type _} (chip : FlashChip σ)

def scanBlocks (st : Fmu σ) : Fmu σ :=
  let flash := chip.read st.chip
  let blocks := scanLabels flash st.blocks
  { st with
    blocks := blocks
    overrun := st.overrun || (scanWrites flash).any fun i => decide (labelRoom ≤ i)
    scanned := blocks }

def deleteFlashBlock (blockno : Nat) (st : Fmu σ) : Fmu σ :=
  { st with
    chip := chip.erase st.chip blockno
    touched := (blockno, st.scanned blockno) :: st.touched }

def writeFlashByte (data : UInt8) (offset : Nat) (st : Fmu σ) : Bool × Fmu σ :=
  ((chip.write st.chip data offset).1,
    { st with
      chip := (chip.write st.chip data offset).2
      touched := (offset / flashBlockSize, st.scanned (offset / flashBlockSize)) :: st.touched })

def Fmu.label (st : Fmu σ) (blockno : Nat) (label : Int) : Fmu σ :=
  { st with blocks := Function.update st.blocks blockno label }

/-- `eb_init`, when the chip has been found. -/
def ebInit (c : σ) (memory : Labels) : Fmu σ :=
  let st := scanBlocks chip ⟨c, memory, false, memory, []⟩
  match findNvram (chip.read st.chip) with
  | some block => st.label block 7
  | none => st

/-! ## Deleting -/

/-- `eb_delete_block`, with the answer to its question. -/
def ebDeleteBlock (blockno : Int) (really : Bool) (st : Fmu σ) : Report × Fmu σ :=
  if blockno < 0 ∨ (flashBlocks : Int) ≤ blockno then (.invalidBlock, st)
  else if st.blocks blockno.toNat = 0 then (.debugMonitor, st)
  else if really = false then (.declined, st)
  else (.done, scanBlocks chip (deleteFlashBlock chip blockno.toNat st))

/-- The number that `eb_delete_image` takes for a name. -/
def imageNumber (image : List UInt8) : Int :=
  if image = [0x6d, 0x69, 0x6c, 0x6f] then 7
  else if image = [0x77, 0x6e, 0x74] then 1
  else if image = [0x64, 0x62, 0x6d] then 0
  else (atoi image).value

/-- The loop that erases the blocks of an image up to one with another label. -/
def deleteStretch (imageno : Int) : Nat → Nat → Fmu σ → Fmu σ
  | 0, _, st => st
  | n + 1, blockno, st =>
      if st.blocks blockno = imageno then
        deleteStretch imageno n (blockno + 1) (deleteFlashBlock chip blockno st)
      else st

/-- `eb_delete_image`, with the answer to its question. -/
def ebDeleteImage (image : List UInt8) (really : Bool) (st : Fmu σ) : Report × Fmu σ :=
  let imageno := imageNumber image
  if imageno = 0 then (.debugMonitor, st)
  else
    match findImage st.blocks imageno with
    | none => (.noSuchImage, st)
    | some blockno =>
        if really = false then (.declined, st)
        else
          (.done, scanBlocks chip (deleteStretch chip imageno (flashBlocks - blockno) blockno st))

/-! ## Programming -/

/-- The loop over the bytes of a block; a report says that it ended early. -/
def programBytes (image : ByteMemory) : Nat → Nat → Nat → Fmu σ → Option Report × Fmu σ
  | 0, _, _, st => (none, st)
  | n + 1, flashOffset, imageOffset, st =>
      let (status, st) := writeFlashByte chip (image imageOffset) flashOffset st
      if status = false then (some (.writeFailed flashOffset), st)
      else if chip.read st.chip flashOffset ≠ image imageOffset then
        (some (.readMismatch imageOffset), st)
      else programBytes image n (flashOffset + 1) (imageOffset + 1) st

/-- The loop over the blocks of an image. -/
def programBlocks (image : ByteMemory) : Nat → Nat → Nat → Fmu σ → Report × Fmu σ
  | 0, _, _, st => (.done, st)
  | n + 1, blockno, imageOffset, st =>
      let st := (deleteFlashBlock chip blockno st).label blockno unused
      match programBytes chip image flashBlockSize (blockno * flashBlockSize) imageOffset st with
      | (some report, st) => (report, st)
      | (none, st) => programBlocks image n (blockno + 1) (imageOffset + flashBlockSize) st

/-- The answers that `eb_program` asks for. -/
structure ProgramAnswers where
  overwrite : Bool
  ibuff : List UInt8
  really : Bool

/-- The labels when those of an image have been set free. -/
def freeImage (blocks : Labels) (imageno : Int) : Labels := fun i =>
  if i < flashBlocks ∧ blocks i = imageno then unused else blocks i

/-- The block that an image goes to and the labels then: those of an existing
image that is overwritten, or else a block number typed in. -/
def programTarget (blocks : Labels) (header : RomHeader) (answers : ProgramAnswers) :
    Int × Labels :=
  match if answers.overwrite then findImage blocks header.fwId else none with
  | some blockno => (blockno, freeImage blocks header.fwId)
  | none => ((atoi answers.ibuff).value, blocks)

/-- `eb_program`, when the block is known that the image goes to. -/
def programAt (image : ByteMemory) (imageBlocks : Nat) (blockno : Int) (really : Bool)
    (st : Fmu σ) : Report × Fmu σ :=
  if blockno < 0 ∨ (flashBlocks : Int) ≤ blockno then (.invalidBlock, st)
  else if flashBlocks < blockno.toNat + imageBlocks then (.notEnoughRoom, scanBlocks chip st)
  else if (List.range' blockno.toNat imageBlocks).any fun i => st.blocks i != unused then
    (.wouldOverwrite, st)
  else if really = false then (.declined, scanBlocks chip st)
  else
    match programBlocks chip image imageBlocks blockno.toNat 0 st with
    | (.readMismatch imageOffset, st) => (.readMismatch imageOffset, st)
    | (report, st) => (report, scanBlocks chip st)

/-- `eb_program` -/
def ebProgram (image : ByteMemory) (answers : ProgramAnswers) (st : Fmu σ) : Report × Fmu σ :=
  let header := readFlashHeader image 0
  if validFlashHeader header = false then (.invalidImage, st)
  else
    let (blockno, blocks) := programTarget st.blocks header answers
    programAt chip image header.blocks blockno answers.really { st with blocks := blocks }

/-! ## The environment -/

/-- The loop that writes the marker; it ends early where a byte cannot be
written. -/
def writeMarker : List UInt8 → Nat → Fmu σ → Option Report × Fmu σ
  | [], _, st => (none, st)
  | c :: marker, offset, st =>
      let (status, st) := writeFlashByte chip c offset st
      if status = false then (some (.writeFailed offset), st)
      else writeMarker marker (offset + 1) st

/-- `create_environment` -/
def createEnvironment (blockno : Nat) (st : Fmu σ) : Report × Fmu σ :=
  match writeMarker chip environId.chars (blockno * flashBlockSize)
      (deleteFlashBlock chip blockno st) with
  | (some report, st) => (report, scanBlocks chip st)
  | (none, st) => (.done, st.label blockno 7)

/-- `eb_env` -/
def ebEnv (blockno : Int) (st : Fmu σ) : Report × Fmu σ :=
  if blockno < 0 ∨ (flashBlocks : Int) ≤ blockno then (.invalidBlock, st)
  else
    match findNvram (chip.read st.chip) with
    | some i => (.alreadyThere i, st)
    | none =>
        if st.blocks blockno.toNat ≠ unused then (.inUse, st)
        else createEnvironment chip blockno.toNat st

/-! ## Commands -/

inductive Command
  | program (image : ByteMemory) (answers : ProgramAnswers)
  | deleteImage (image : List UInt8) (really : Bool)
  | deleteBlock (blockno : Int) (really : Bool)
  | env (blockno : Int)

def execute : Command → Fmu σ → Report × Fmu σ
  | .program image answers => ebProgram chip image answers
  | .deleteImage image really => ebDeleteImage chip image really
  | .deleteBlock blockno really => ebDeleteBlock chip blockno really
  | .env blockno => ebEnv chip blockno

/-- Nothing can be said about the utility any more after a scan has written
behind the labels. -/
def fmuStep (st : Fmu σ) (command : Command) : Option (Fmu σ) :=
  if st.overrun then none else some (execute chip command st).2

end

end Milo.Flash
