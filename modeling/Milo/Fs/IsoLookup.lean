import Milo.Foundation.PathName
import Milo.Fs.Isofs

/-! # Looking up paths on iso9660

`isofs_lookup` goes from directory to directory with two inodes of the table. A
directory is scanned record by record through `data_block`; a record that does
not end in the block that it starts in is put together in `big_data_block`.
Names are mapped to lower case where they lie.
-/

namespace Milo.Fs.Isofs

open Foundation

/-- The reader with its device; `t` counts the reads. -/
structure Reader extends State where
  drive : Drive
  t : Nat

/-- `isofs_bread` into `data_block`. -/
def readBlock (r : Reader) (block : Nat) : Bool × Reader :=
  let (ok, dataBlock) := isofsBread (r.drive.device r.t) block r.dataBlock 0
  (ok, { r with dataBlock := dataBlock, t := r.t + 1 })

/-- `isofs_iget`; it is not defined for a record that cannot be put together. -/
def iget (r : Reader) (ino : Nat) : Option (Option Nat × Reader) :=
  (isofsIget r.drive r.t r.toState ino).map fun (slot, s) =>
    (slot, { r with toState := s, t := r.t + 2 })

/-- `isofs_iput` -/
def isofsIput (r : Reader) (ip : Nat) : Reader :=
  { r with table := Function.update r.table ip { r.table ip with inumber := 0, free := true } }

/-! ## Names -/

def toLower (c : UInt8) : UInt8 := if 0x41 ≤ c ∧ c ≤ 0x5a then c ||| 0x20 else c

/-- The loop that maps the `n` characters of a name from its `i`-th on: the
length that is left of the name, and the buffer. -/
def mapName (buf : ByteMemory) (dpnt dlen i : Nat) : Nat → Nat × ByteMemory
  | 0 => (dlen, buf)
  | n + 1 =>
      let c := toLower (buf (dpnt + i))
      if c = 0x3b ∧ i + 2 = dlen ∧ buf (dpnt + (i + 1)) = 0x31 then (dlen - 2, buf)
      else
        let c := if c = 0x3b then 0x2e else c
        mapName (Function.update buf (dpnt + i) c) dpnt dlen (i + 1) n

/-- A name matches with and without a trailing period. -/
def dropPeriod (buf : ByteMemory) (dpnt dlen namelen : Nat) : Nat :=
  if dlen ≠ 0 ∧ buf (dpnt + (dlen - 1)) = 0x2e ∧ namelen + 1 = dlen then dlen - 1 else dlen

def bytesAt (buf : ByteMemory) (a n : Nat) : List UInt8 := (List.range n).map fun i => buf (a + i)

/-- `isofs_match` -/
def isofsMatch (name : List UInt8) (buf : ByteMemory) (compare dlen : Nat) : Bool :=
  if dlen = 1 ∧ buf compare = 0 then name == [] || name == [0x2e]
  else if dlen = 1 ∧ buf compare = 1 then name == [0x2e, 0x2e]
  else name == bytesAt buf compare dlen

/-! ## Directories -/

/-- The record lies at `de` of one of the two buffers. -/
structure Place where
  big : Bool
  de : Nat

def Reader.buffer (r : Reader) (big : Bool) : ByteMemory :=
  if big then r.bigDataBlock else r.dataBlock

def Reader.setBuffer (r : Reader) (big : Bool) (buf : ByteMemory) : Reader :=
  if big then { r with bigDataBlock := buf } else { r with dataBlock := buf }

/-- A call that goes on, or the inode number and the number for `..` of the entry
that was found, if one was. -/
inductive Check where
  | next
  | found (entry : Option (Nat × Nat))

/-- Whether a record has the name. The inode number is that of the place where it
starts, or for the first two records that of the directory or of its parent. -/
def checkRecord (r : Reader) (itp : InodeEntry) (place : Place) (inodeNumber : Nat)
    (name : List UInt8) : Check × Reader :=
  let buf := r.buffer place.big
  let dpnt := place.de + recName
  let dlen := (buf (place.de + recNameLen)).toNat
  let dot := dlen == 1 && buf dpnt == 0
  let dotdot := dlen == 1 && buf dpnt == 1
  let inodeNumber :=
    if dot then itp.inumber
    else if dotdot then if r.sb.rootInode ≠ itp.inumber then itp.backlink else itp.inumber
    else inodeNumber
  let backlink := if dot ∨ dotdot then 0 else itp.inumber
  let (dlen, buf) := mapName buf dpnt dlen 0 dlen
  let r := r.setBuffer place.big buf
  let dlen := dropPeriod buf dpnt dlen name.length
  let hidden := recordFlags r.sb (fun i => buf (place.de + i)) &&& 5 ≠ 0
  if ¬ hidden ∧ isofsMatch name buf dpnt dlen then
    (.found (if inodeNumber = 0xffffffff then none else some (inodeNumber, backlink)), r)
  else (.next, r)

/-- `ISOFS_BLOCK_SIZE` -/
def isofsBlockSize : Nat := 2048

/-- The start of the next sector of the disc. -/
def nextSector (fPos : Nat) : Nat := fPos / isofsBlockSize * isofsBlockSize + isofsBlockSize

/-- The bytes of a record in its first block are put into `big_data_block`. -/
def copyFirst (r : Reader) (offset : Nat) : Reader :=
  { r with
    bigDataBlock := fill r.bigDataBlock 0 (fun i => r.dataBlock (offset + i)) (blocksize - offset) }

/-- The rest of the record, from the block that was read after it. -/
def copyRest (r : Reader) (frag1 offset : Nat) : Reader :=
  { r with bigDataBlock := fill r.bigDataBlock frag1 r.dataBlock offset }

/-- The loop of `isofs_find_entry`, for at most `n` records. A second block that
cannot be read counts as success, with the inode number 0. -/
def findLoop (r : Reader) (itp : InodeEntry) (name : List UInt8) (inoBack fPos offset block : Nat) :
    Nat → Option (Nat × Nat) × Reader
  | 0 => (none, r)
  | n + 1 =>
      if itp.size ≤ fPos then (none, r)
      else
        let length := (r.dataBlock offset).toNat
        let inodeNumber := u32 (block <<< 10 + offset % blocksize)
        if length = 0 then
          let fPos := nextSector fPos
          let block := isofsBmap itp (fPos / blocksize : Nat)
          if block = 0 then (none, r)
          else
            let (ok, r) := readBlock r block
            if ok then findLoop r itp name inoBack fPos 0 block n else (none, r)
        else
          let fPos := fPos + length
          if blocksize ≤ offset + length then
            let frag1 := blocksize - offset
            let r := copyFirst r offset
            let offset := fPos % blocksize
            let block := isofsBmap itp (fPos / blocksize : Nat)
            if block = 0 then (none, r)
            else
              let (ok, r) := readBlock r block
              if ok = false then (some (0, inoBack), r)
              else
                match checkRecord (copyRest r frag1 offset) itp ⟨true, 0⟩ inodeNumber name with
                | (.next, r) => findLoop r itp name inoBack fPos offset block n
                | (.found entry, r) => (entry, r)
          else
            match checkRecord r itp ⟨false, offset⟩ inodeNumber name with
            | (.next, r) => findLoop r itp name inoBack fPos (offset + length) block n
            | (.found entry, r) => (entry, r)

/-- `isofs_find_entry`, with the inode number and the number for `..` of the
entry. Every turn of the loop moves on by at least one byte. -/
def isofsFindEntry (r : Reader) (dir : Nat) (name : List UInt8) (inoBack : Nat) :
    Option (Nat × Nat) × Reader :=
  let itp := r.table dir
  if itp.firstExtent = 0 then (none, r)
  else
    let block := isofsBmap itp 0
    if block = 0 then (none, r)
    else
      let (ok, r) := readBlock r block
      if ok then findLoop r itp name inoBack 0 0 block (itp.size.toNat + 1) else (none, r)

/-! ## Paths -/

def setBacklink (r : Reader) (ip backlink : Nat) : Reader :=
  { r with table := Function.update r.table ip { r.table ip with backlink := backlink } }

/-- The loop of `isofs_lookup` and what follows it. -/
def lookupFrom (r : Reader) (dir inoBack : Nat) : List (List UInt8) → Option (Option Nat × Reader)
  | [] => none
  | [name] =>
      match isofsFindEntry r dir name inoBack with
      | (none, r) => some (none, isofsIput r dir)
      | (some (ino, inoBack), r) =>
          match iget r ino with
          | none => none
          | some (none, r) => some (none, isofsIput r dir)
          | some (some result, r) =>
              some (some result, isofsIput (setBacklink r result inoBack) dir)
  | name :: rest =>
      match isofsFindEntry r dir name inoBack with
      | (none, r) => some (none, r)
      | (some (ino, inoBack), r) =>
          match iget (isofsIput r dir) ino with
          | none => none
          | some (none, r) => some (none, r)
          | some (some dir, r) => lookupFrom r dir inoBack rest

/-- `isofs_lookup`. The number for `..` is not initialised; here it starts as 0. -/
def isofsLookup (r : Reader) (dir : Nat) (name : List UInt8) : Option (Option Nat × Reader) :=
  if isDir (r.table dir).mode = false then some (none, isofsIput r dir)
  else lookupFrom r dir 0 (fields name)

/-! ## Opening, closing and listing -/

/-- `iso9660_open` -/
def iso9660Open (r : Reader) (filename : List UInt8) : Option (Option Nat × Reader) :=
  match iget r r.sb.rootInode with
  | none => none
  | some (none, r) => some (none, r)
  | some (some root, r) => isofsLookup r root filename

/-- The loop of `isofs_list_entry`, without what it prints: the names are mapped
where they lie, and a second block that cannot be read is ignored. -/
def listLoop (r : Reader) (itp : InodeEntry) (fPos offset block : Nat) : Nat → Reader
  | 0 => r
  | n + 1 =>
      if itp.size ≤ fPos then r
      else
        let length := (r.dataBlock offset).toNat
        if length = 0 then
          let fPos := nextSector fPos
          let block := isofsBmap itp (fPos / blocksize : Nat)
          if block = 0 then r
          else
            let (ok, r) := readBlock r block
            if ok then listLoop r itp fPos 0 block n else r
        else
          let fPos := fPos + length
          if blocksize ≤ offset + length then
            let frag1 := blocksize - offset
            let r := copyFirst r offset
            let offset := fPos % blocksize
            let block := isofsBmap itp (fPos / blocksize : Nat)
            if block = 0 then r
            else
              let r := copyRest (readBlock r block).2 frag1 offset
              let dlen := (r.bigDataBlock recNameLen).toNat
              let big := (mapName r.bigDataBlock recName dlen 0 dlen).2
              listLoop { r with bigDataBlock := big } itp fPos offset block n
          else
            let dlen := (r.dataBlock (offset + recNameLen)).toNat
            let data := (mapName r.dataBlock (offset + recName) dlen 0 dlen).2
            listLoop { r with dataBlock := data } itp fPos (offset + length) block n

/-- `isofs_list_entry` -/
def isofsListEntry (r : Reader) (dir : Nat) : Reader :=
  let itp := r.table dir
  if itp.firstExtent = 0 then r
  else
    let block := isofsBmap itp 0
    if block = 0 then r
    else
      let (ok, r) := readBlock r block
      if ok then listLoop r itp 0 0 block (itp.size.toNat + 1) else r

/-- `iso9660_ls`. The inode is not given back. -/
def iso9660Ls (r : Reader) (dirname : List UInt8) : Option Reader :=
  match iget r r.sb.rootInode with
  | none => none
  | some (none, r) => some r
  | some (some root, r) =>
      let dirname := if dirname.head? = some slash then dirname.tail else dirname
      match isofsLookup r root dirname with
      | none => none
      | some (none, r) => some r
      | some (some result, r) =>
          if isDir (r.table result).mode then some (isofsListEntry r result) else some r

/-- `iso9660_close` closes the device and leaves the table alone. -/
def iso9660Close (r : Reader) (_fd : Nat) : Reader := r

end Milo.Fs.Isofs
