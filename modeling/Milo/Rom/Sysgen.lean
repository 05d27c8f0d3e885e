import Milo.Foundation.Layout
import Milo.Foundation.Words

/-! # System images

`sysgen` writes images one behind the other, with zeros between them up to the
address of the next. The running address `offset` starts with the low half of
the first address; an address that was given with `-e` has no high half, and one
from a header has both.
-/

namespace Milo.Rom

open Foundation

/-! ## The files -/

/-- `FHDR`, the fields that are read. -/
structure FileHeader where
  magic : UInt16
  nscns : UInt16

/-- `AHDR`, the fields that are read. -/
structure AoutHeader where
  magic : UInt16
  vstamp : UInt16
  tsize : UInt64
  dsize : UInt64
  entry : UInt64

/-- The type of an input file; `unknown` without an option for it. -/
inductive FileType where
  | coff
  | stripped
  | unknown
  deriving DecidableEq

/-- An input file with its options: the number after `-e`, the contents unless it
cannot be opened, and the headers as they are read from its start. -/
structure SysgenFile where
  type : FileType
  given : Option UInt64
  contents : Option (List UInt8)
  fhdr : FileHeader
  ahdr : AoutHeader

/-- `struct fileinfo`, the fields that are used. -/
structure SysgenInfo where
  type : FileType
  entrypointGiven : Bool
  contents : List UInt8
  entry : Nat
  tbase : Nat
  tsize : Nat
  dbase : Nat
  dsize : Nat
  size : Nat

/-- `NFHDR + NAHDR`, in front of the section headers. -/
def headersSize : Nat := 24 + 80

/-- `NSHDR` -/
def sectionHeaderSize : Nat := 64

/-- Where the text of a coff file starts: `SROUND` is 16. -/
def textBase (nscns : Nat) : Nat := (headersSize + nscns * sectionHeaderSize + 15) / 16 * 16

namespace SysgenFile

/-- `newentry`: `sscanf` stores an `unsigned int`. -/
def newentry (f : SysgenFile) : Option Nat := f.given.map fun n => u32 n.toNat

/-- What `parse_filehead` fills in. -/
def info (f : SysgenFile) : SysgenInfo :=
  let contents := f.contents.getD []
  match f.type with
  | .coff =>
      let tbase := textBase f.fhdr.nscns.toNat
      { type := f.type
        entrypointGiven := f.given.isSome
        contents := contents
        entry := f.newentry.getD f.ahdr.entry.toNat
        tbase := tbase
        tsize := f.ahdr.tsize.toNat
        dbase := u64 (tbase + f.ahdr.tsize.toNat)
        dsize := f.ahdr.dsize.toNat
        size := u64 (f.ahdr.tsize.toNat + f.ahdr.dsize.toNat) }
  | _ =>
      { type := f.type
        entrypointGiven := f.given.isSome
        contents := contents
        entry := f.newentry.getD 0
        tbase := 0
        tsize := 0
        dbase := 0
        dsize := 0
        size := u64 contents.length }

/-- `FMAGIC`, `AMAGIC` and `ASTAMP` -/
def headersAccepted (f : SysgenFile) : Bool :=
  f.fhdr.magic == 0x183 && f.ahdr.magic == 0x107 && decide (23 ≤ f.ahdr.vstamp)

/-- `parse_filehead`; `none` where it ends the program. -/
def parseFilehead (f : SysgenFile) : Option SysgenInfo :=
  match f.type, f.contents with
  | .stripped, some _ => if f.given.isSome then some f.info else none
  | .coff, some contents =>
      if headersSize ≤ contents.length ∧ f.headersAccepted then some f.info else none
  | _, _ => none

end SysgenFile

/-! ## The output -/

/-- How often a loop goes round that counts an `int` up to `n`. -/
def rounds (n : Nat) : Nat :=
  if n ≤ 2 ^ 31 then n else if n ≤ 2 ^ 64 - 2 ^ 31 then 2 ^ 31 else n + 2 ^ 32 - 2 ^ 64

/-- One segment of a coff file; `none` when it is not in the file. -/
def outputSegment (contents : List UInt8) (base n : Nat) : Option (List UInt8) :=
  if 2 ^ 63 ≤ base then none
  else if rounds n = 0 ∨ base + rounds n ≤ contents.length then
    some ((contents.drop base).take (rounds n))
  else none

/-- `output_file` -/
def outputFile (f : SysgenInfo) : Option (List UInt8) :=
  if f.type ≠ .stripped then
    (outputSegment f.contents f.tbase f.tsize).bind fun text =>
      (outputSegment f.contents f.dbase f.dsize).map fun data => text ++ data
  else some f.contents

namespace SysgenFile

/-- The address of the image: the one that was given, or else the one in the
header. -/
def address (f : SysgenFile) : Nat := (f.given.getD f.ahdr.entry).toNat

/-- The bytes of the image. -/
def bytes (f : SysgenFile) : List UInt8 :=
  let contents := f.contents.getD []
  match f.type with
  | .coff =>
      (contents.drop (textBase f.fhdr.nscns.toNat)).take
        (f.ahdr.tsize.toNat + f.ahdr.dsize.toNat)
  | _ => contents

def piece (f : SysgenFile) : Piece UInt8 := ⟨f.address, f.bytes⟩

/-- The program does not end because of the file itself. -/
def Readable (f : SysgenFile) : Prop := ∃ info, f.parseFilehead = some info ∧ (outputFile info).isSome

/-- The address as it is kept. -/
def kept (f : SysgenFile) : Nat := f.info.entry

end SysgenFile

/-- Every image starts where the one before ends, or behind. -/
def ImagesAscend (files : List SysgenFile) : Prop := Piece.Ascending 0 (files.map SysgenFile.piece)

namespace SysgenFile

end SysgenFile

/-! ## The whole output -/

/-- The check for overlaps fails at an image, the first of which comes after
`offset`. -/
def BelowFrom (offset : Nat) : List SysgenFile → Prop
  | [] => False
  | f :: rest =>
      (f.given.isSome ∧ f.kept < offset) ∨ BelowFrom (u64 (f.kept + f.bytes.length)) rest

/-- An address from `-e` is below the end of the image before it. -/
def Below : List SysgenFile → Prop
  | [] => False
  | f :: rest => BelowFrom (u64 (u32 f.kept + f.bytes.length)) rest

/-- What is written from `offset` on. -/
def written (offset : Nat) : List SysgenFile → List UInt8
  | [] => []
  | f :: rest =>
      List.replicate (sub64 f.kept offset) 0 ++ f.bytes ++
        written (u64 (f.kept + f.bytes.length)) rest

/-- The images ascend. Those behind the first have the same upper half of the
address as the first when the address was given, and else the first one's upper
half is zero. -/
structure Sound (files : List SysgenFile) : Prop where
  ascend : ImagesAscend files
  halves : ∀ first ∈ files.head?, ∀ f ∈ files.tail, f.bytes ≠ [] →
    if f.given.isSome then f.address / 2 ^ 32 = first.address / 2 ^ 32
    else first.address < 2 ^ 32

end Milo.Rom
