import Milo.Foundation.PathName
import Milo.Foundation.SlotTable
import Milo.Fs.Dos

/-! # Looking up paths on FAT

`msdos_find` goes from directory to directory with one inode of the table. A
directory is read whole: the root from its own region, any other by the chain of
its first cluster. Every call of `malloc` and every read of the device has a
number, so that each may fail.
-/

namespace Milo.Fs.Dos

open Foundation

/-! ## The reader -/

/-- `MAX_OPEN_FILES` -/
def maxOpenFiles : Nat := 5

/-- `struct msdos_dir_entry`; the name and the extension follow each other. -/
structure MsdosDirEntry extends DirEntry where
  name : List UInt8
  attr : Nat

/-- The directory entry at a byte of a buffer. -/
def dirEntryAt (buf : ByteMemory) (a : Nat) : MsdosDirEntry where
  name := (List.range 11).map fun i => buf (a + i)
  attr := readLe buf (a + 11) 1
  start := readLe buf (a + 26) 2
  size := readLe buf (a + 28) 4

/-- An entry of `inode_table`. -/
structure Slot where
  entry : MsdosDirEntry
  blockList : Nat → Nat
  blocks : Int
  free : Bool

/-- The reader with a mounted volume. The `n`-th call of `malloc` yields an array
with what its memory held before, or NULL; `t` counts calls and reads. -/
structure Reader where
  drive : Drive
  malloc : Nat → Option (Nat → Nat)
  t : Nat
  sb : MsdosSb
  fat : List Nat
  table : Nat → Slot

/-! ## Inodes -/

/-- `allocate_inode` -/
def allocateInode (r : Reader) (entry : MsdosDirEntry) : Option Nat × Reader :=
  match firstFree Slot.free r.table 0 maxOpenFiles with
  | none => (none, r)
  | some i => (some i, { r with table := Function.update r.table i ⟨entry, fun _ => 0, 0, false⟩ })

/-- `free_inode`; giving back the memory of the block list has no effect. -/
def freeInode (r : Reader) (ino : Nat) : Reader :=
  { r with table := Function.update r.table ino { r.table ino with free := true } }

/-- `ATTR_VOLUME` and `ATTR_DIR` -/
def attrVolume : Nat := 8
def attrDir : Nat := 16

/-- `entry->attr & ATTR_DIR` -/
def MsdosDirEntry.isDir (entry : MsdosDirEntry) : Bool := entry.attr &&& attrDir != 0

/-- The entry that stands for the root directory. -/
def rootEntry (sb : MsdosSb) : MsdosDirEntry where
  name := [0]
  attr := attrDir
  start := sb.dirStart
  size := sb.dirEntries * 32

/-- `msdos_build_root_inode`. Without a free slot it writes before the table. -/
def msdosBuildRootInode (r : Reader) : Option (Option Nat × Reader) :=
  match allocateInode r (rootEntry r.sb) with
  | (none, _) => none
  | (some ino, r) =>
      let nbblock := (r.sb.dirEntries * 32 + sectorSize - 1) / sectorSize
      match r.malloc r.t with
      | none => some (none, { r with t := r.t + 1 })
      | some list =>
          let blockList := fun i => if i < nbblock then u16 (r.sb.dirStart + i) else list i
          some (some ino,
            { r with
              t := r.t + 1
              table := Function.update r.table ino { r.table ino with blockList := blockList } })

/-! ## Directories -/

/-- `fill_block_list` without `alloc`: the number of clusters of the chain. -/
def countBlocks (sb : MsdosSb) (fat : List Nat) (entry : DirEntry) : Option Nat :=
  (fillLoop sb fat (fun _ => 0) 0 entry.start (sb.clusters + 1)).map (·.2)

/-- `fill_block_list` with `alloc`, for a slot. A list that was not completed is
not kept: nothing reads it. -/
def fillSlot (r : Reader) (ino : Nat) : Bool × Reader :=
  let filled :=
    (r.malloc r.t).bind fun list =>
      (if r.sb.clusterSize > 1 then r.malloc (r.t + 1) else some list).bind fun newList =>
        fillBlockList r.sb r.fat list newList (r.table ino).entry.toDirEntry
  match filled with
  | none => (false, { r with t := r.t + 2 })
  | some inode =>
      (true,
        { r with
          t := r.t + 2
          table := Function.update r.table ino
            { r.table ino with blockList := inode.blockList, blocks := inode.blocks } })

def setSize (r : Reader) (ino size : Nat) : Reader :=
  { r with
    table := Function.update r.table ino
      { r.table ino with entry := { (r.table ino).entry with size := size } } }

/-- The size of a directory that has none is found by browsing the FAT. -/
def sizeDirectory (r : Reader) (ino : Nat) : Bool × Reader :=
  if (r.table ino).entry.size = 0 then
    match countBlocks r.sb r.fat (r.table ino).entry.toDirEntry with
    | none => (false, r)
    | some count =>
        let r := setSize r ino (u32 (count * sectorSize * r.sb.clusterSize))
        let (ok, r) := fillSlot r ino
        if ok then (true, r) else (false, setSize r ino 0)
  else (true, r)

/-- The loop of `msdos_readdir` over `n` blocks from block `k` on. -/
def readDirBlocks (drive : Drive) (t : Nat) (blockList : Nat → Nat) (size : Nat)
    (buf : ByteMemory) (k : Nat) : Nat → Option ByteMemory
  | 0 => some buf
  | n + 1 =>
      let length := min sectorSize (size - sectorSize * k)
      let offset := ((s16 (blockList k) * sectorSize) % 2 ^ 32).toNat
      let (count, buf) := deviceRead (drive.device t) buf (sectorSize * k) length offset
      if count ≠ length then none
      else readDirBlocks drive (t + 1) blockList size buf (k + 1) n

/-- `msdos_readdir` -/
def msdosReaddir (r : Reader) (ino : Nat) : Option ByteMemory × Reader :=
  let (ok, r) := sizeDirectory r ino
  if ok = false then (none, r)
  else
    let size := (r.table ino).entry.size
    let n := (size + sectorSize - 1) / sectorSize
    match r.malloc r.t with
    | none => (none, { r with t := r.t + 1 })
    | some _ =>
        (readDirBlocks r.drive (r.t + 1) (r.table ino).blockList size (fun _ => 0) 0 n,
          { r with t := r.t + 1 + n })

/-! ## Names -/

/-- `DELETED_FLAG` -/
def deletedFlag : UInt8 := 0xe5

/-- `IS_FREE` -/
def isFreeName (c : UInt8) : Bool := c == 0 || c == deletedFlag || c == 0xf6

/-- `valid_entry` -/
def validEntry (entry : MsdosDirEntry) : Bool :=
  let first := entry.name.headD 0
  first != 5 && !isFreeName first && entry.attr &&& attrVolume == 0

def tolower (c : UInt8) : UInt8 := if 0x41 ≤ c ∧ c ≤ 0x5a then c + 0x20 else c

/-- The characters of an array but its blanks, in lower case. -/
def convertPart (array : List UInt8) : List UInt8 := (array.filter (· != 0x20)).map tolower

/-- `__convert_name` -/
def convertName (array : List UInt8) : List UInt8 :=
  let suffix := (array.drop 8).any (· != 0x20)
  convertPart (array.take 8) ++
    if suffix then 0x2e :: convertPart (array.drop 8) else []

/-- `strcmp(entryname, name) == 0`, for what `__convert_name` puts in `name`. -/
def nameMatches (entryname : List UInt8) (entry : MsdosDirEntry) : Bool :=
  entryname == (convertName entry.name).takeWhile (· != 0)

/-! ## The search -/

/-- The entry that matches among `n` from the `i`-th on. A name that is NULL is
compared with that of the first valid entry, which is not defined. -/
def scanEntries (buf : ByteMemory) (entryname : Option (List UInt8)) (i : Nat) :
    Nat → Option (Option MsdosDirEntry)
  | 0 => some none
  | n + 1 =>
      let entry := dirEntryAt buf (32 * i)
      if validEntry entry then
        match entryname with
        | none => none
        | some name =>
            if nameMatches name entry then some (some entry)
            else scanEntries buf entryname (i + 1) n
      else scanEntries buf entryname (i + 1) n

/-- The part of `msdos_search_directory` that finds the entry. -/
def findEntry (r : Reader) (ino : Nat) (entryname : Option (List UInt8)) :
    Option (Option MsdosDirEntry × Reader) :=
  if (r.table ino).entry.isDir = false then some (none, r)
  else
    match msdosReaddir r ino with
    | (none, r) => some (none, r)
    | (some buf, r) =>
        (scanEntries buf entryname 0 ((r.table ino).entry.size / 32)).map fun entry => (entry, r)

/-- `msdos_search_directory`. An inode that was allocated for a directory with a
size is not given back. -/
def msdosSearchDirectory (r : Reader) (ino : Nat) (entryname : Option (List UInt8)) :
    Option (Option Nat × Reader) :=
  match findEntry r ino entryname with
  | none => none
  | some (none, r) => some (none, r)
  | some (some entry, r) =>
      match allocateInode r entry with
      | (none, r) => some (none, r)
      | (some new, r) =>
          if entry.isDir ∧ entry.size ≠ 0 then some (none, r) else some (some new, r)

/-- The loop of `msdos_find`: each component is searched in the inode before it,
which is given back. -/
def findFrom (r : Reader) (ino : Nat) : List (List UInt8) → Option (Option Nat × Reader)
  | [] => some (some ino, r)
  | current :: rest =>
      match msdosSearchDirectory r ino (some current) with
      | none => none
      | some (none, r) => some (none, freeInode r ino)
      | some (some newino, r) => findFrom (freeInode r ino) newino rest

/-- `msdos_find` -/
def msdosFind (r : Reader) (entryname : List UInt8) : Option (Option Nat × Reader) :=
  if entryname = [] ∨ entryname = [slash] then msdosBuildRootInode r
  else if 256 ≤ entryname.length then none
  else
    match msdosBuildRootInode r with
    | none => none
    | some (none, r) => some (none, r)
    | some (some ino, r) =>
        match components entryname with
        | [] =>
            match msdosSearchDirectory r ino none with
            | none => none
            | some (newino, r) => some (newino, freeInode r ino)
        | current :: rest => findFrom r ino (current :: rest)

/-! ## Opening, closing and listing -/

/-- `msdos_open` -/
def msdosOpen (r : Reader) (filename : List UInt8) : Option (Option Nat × Reader) :=
  match msdosFind r filename with
  | none => none
  | some (none, r) => some (none, r)
  | some (some ino, r) =>
      match fillSlot r ino with
      | (false, r) => some (none, freeInode r ino)
      | (true, r) => some (some ino, r)

/-- `msdos_ls`, without what it prints. -/
def msdosLs (r : Reader) (dirname : List UInt8) : Option Reader :=
  match msdosFind r dirname with
  | none => none
  | some (none, r) => some r
  | some (some ino, r) =>
      if (r.table ino).entry.isDir then some (freeInode (msdosReaddir r ino).2 ino)
      else some (freeInode r ino)

/-- `msdos_close` -/
def msdosClose (r : Reader) (fd : Int) : Reader :=
  if fd < 0 ∨ fd ≥ maxOpenFiles ∨ (r.table fd.toNat).free then r else freeInode r fd.toNat

end Milo.Fs.Dos
