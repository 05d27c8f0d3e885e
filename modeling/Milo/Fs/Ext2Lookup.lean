import Milo.Foundation.CString
import Milo.Foundation.PathName
import Milo.Foundation.SlotTable
import Milo.Fs.Ext2

/-! # Looking up paths on ext2

`ext2_namei` walks a path with two inodes of a small table: the directory a
component was found in and the inode that was found. A symbolic link replaces
the path by its text and restarts the walk, from the root or from the directory.
The walk is given step by step, one step for each component or link, as the
build with MILO_SYMLINK_DIRS does it.
-/

namespace Milo.Fs.Ext2

open Foundation

/-! ## The reader -/

/-- `MAX_OPEN_FILES` -/
def maxOpenFiles : Nat := 4

/-- `EXT2_ROOT_INO` -/
def rootIno : Nat := 2

/-- `sizeof(struct ext2_inode)` -/
def inodeSize : Nat := 128

/-- An entry of `inode_table`. -/
structure Slot where
  inode : Inode
  free : Bool

/-- The reader with a mounted volume; `t` counts the reads of the device. -/
structure Reader where
  drive : Drive
  t : Nat
  vol : Volume
  slots : Nat → Slot
  caches : Caches
  blkbuf : ByteMemory

def Reader.inode (r : Reader) (i : Nat) : Inode := (r.slots i).inode

/-- `ext2_iget`, with the slot of the inode. -/
def ext2Iget (r : Reader) (ino : Nat) : Option Nat × Reader :=
  match firstFree Slot.free r.slots 0 maxOpenFiles with
  | none => (none, r)
  | some i =>
      let (count, inode) :=
        deviceRead (r.drive.device r.t) (r.inode i) 0 inodeSize (inodeOffset r.vol ino)
      let ok := count == inodeSize
      (if ok then some i else none,
        { r with t := r.t + 1, slots := Function.update r.slots i ⟨inode, !ok⟩ })

/-- `ext2_iput` -/
def ext2Iput (r : Reader) (i : Nat) : Reader :=
  { r with slots := Function.update r.slots i { r.slots i with free := true } }

/-- `if (ip) ext2_iput(ip)` -/
def putIfAny (r : Reader) : Option Nat → Reader
  | some i => ext2Iput r i
  | none => r

/-- `ext2_breadi` into `blkbuf`. -/
def readBlkbuf (r : Reader) (i blk : Nat) : Reader :=
  let (blkbuf, caches) := ext2Breadi r.drive r.t r.vol r.caches (r.inode i) blk r.blkbuf 0
  { r with t := r.t + 3, blkbuf := blkbuf, caches := caches }

/-! ## Modes -/

/-- `S_ISDIR` -/
def isDir (mode : Nat) : Bool := mode &&& 0o170000 == 0o040000

/-- `S_ISLNK` -/
def isLink (mode : Nat) : Bool := mode &&& 0o170000 == 0o120000

/-! ## Directories -/

/-- The fields of `struct ext2_dir_entry`, for an entry at `a` of the buffer. -/
def entryInode (buf : ByteMemory) (a : Nat) : Int := s32 (readLe buf a 4)
def entryRecLen (buf : ByteMemory) (a : Nat) : Nat := readLe buf (a + 4) 2
def entryNameLen (buf : ByteMemory) (a : Nat) : Nat := (buf (a + 6)).toNat

def entryMatches (buf : ByteMemory) (a : Nat) (component : List UInt8) : Bool :=
  entryNameLen buf a == component.length &&
    strncmp buf (a + 8) component component.length == 0

/-- The scan of a block for a component, over at most `n` entries: the inode
number of the entry that matches, if one does. A scan that comes to an entry
of length zero never ends. -/
def scanBlock (buf : ByteMemory) (blocksize : Nat) (component : List UInt8) :
    Nat → Nat → Option (Option Int)
  | 0, _ => none
  | n + 1, blockoffset =>
      if blockoffset < blocksize then
        if entryMatches buf blockoffset component then some (some (entryInode buf blockoffset))
        else scanBlock buf blocksize component n (blockoffset + entryRecLen buf blockoffset)
      else some none

/-- The scan of `n` blocks of a directory from block `blk` on. -/
def scanBlocks (r : Reader) (dir : Nat) (component : List UInt8) (blk : Nat) :
    Nat → Option (Option Nat × Reader)
  | 0 => some (none, r)
  | n + 1 =>
      let r := readBlkbuf r dir blk
      match scanBlock r.blkbuf r.vol.blocksize component (r.vol.blocksize + 1) 0 with
      | none => none
      | some (some (.ofNat ino)) => some (some ino, r)
      | some _ => scanBlocks r dir component (blk + 1) n

/-- The number of blocks of a directory. -/
def dirBlocks (r : Reader) (dir : Nat) : Nat :=
  ((r.inode dir).size + r.vol.blocksize - 1) / r.vol.blocksize

/-- The search of a directory for a component. -/
def searchDir (r : Reader) (dir : Nat) (component : List UInt8) : Option (Option Nat × Reader) :=
  if r.vol.blocksize = 0 then none else scanBlocks r dir component 0 (dirBlocks r dir)

/-! ## One step of the walk -/

/-- The variables of `ext2_namei`; `todo` is what `strtok` still has to return. -/
structure Walk where
  dir : Option Nat
  file : Option Nat
  todo : List (List UInt8)
  links : Nat

/-- A call that goes on, one that has returned, or one whose behaviour is not
defined: it goes through a null pointer, over the end of a buffer, or never ends. -/
inductive Progress where
  | running (w : Walk) (r : Reader)
  | returned (result : Option Nat) (r : Reader)
  | undefined

/-- `sizeof(namebuf)` -/
def namebufSize : Nat := 256

/-- The label `rel`. -/
def rel (r : Reader) (dir file : Option Nat) (path : List UInt8) (links : Nat) : Progress :=
  if file.isNone then .returned none r
  else .running ⟨dir, file, components path, links⟩ r

/-- The label `abs`. -/
def abs (r : Reader) (dir : Option Nat) (path : List UInt8) (links : Nat) : Progress :=
  let (file, r) := ext2Iget r rootIno
  rel r dir file path links

/-- The inode becomes the directory, the component is searched in it and its
inode is read. -/
def descend (r : Reader) (w : Walk) (file : Nat) (component : List UInt8)
    (rest : List (List UInt8)) : Progress :=
  let r := putIfAny r w.dir
  if isDir (r.inode file).mode = false then .returned none (ext2Iput r file)
  else
    match searchDir r file component with
    | none => .undefined
    | some (none, r) => .returned none (ext2Iput r file)
    | some (some ino, r) =>
        let (next, r) := ext2Iget r ino
        .running ⟨some file, next, rest, w.links⟩ r

/-- The text of a link on the way is put into `blkbuf`. -/
def loadLink (r : Reader) (file : Nat) : Reader × List UInt8 :=
  if (r.inode file).blocks ≠ 0 then
    let r := readBlkbuf r file 0
    (r, stringAt r.blkbuf 0)
  else (r, stringAt (r.inode file) 40)

/-- A link on the way: its text and the rest of the path become the new path. -/
def followOnWay (r : Reader) (w : Walk) (file : Nat) (todo : List (List UInt8)) : Progress :=
  let (r, text) := loadLink r file
  let path := extendPath text todo
  if namebufSize ≤ path.length then .undefined
  else
    let r := { r with blkbuf := store r.blkbuf (storesAt 0 (path ++ [0])) }
    if path.head? = some slash then
      abs (ext2Iput (putIfAny r w.dir) file) w.dir path (w.links + 1)
    else rel (ext2Iput r file) w.dir w.dir path (w.links + 1)

/-- The text of a link at the end of the path. One that lies in a block is read
from the block of `dir_inode`. -/
def loadLastLink (r : Reader) (w : Walk) (file : Nat) : Option (Reader × List UInt8) :=
  if (r.inode file).blocks ≠ 0 then
    w.dir.map fun dir =>
      let r := readBlkbuf r dir 0
      (r, stringAt r.blkbuf 0)
  else some (r, stringAt (r.inode file) 40)

/-- A link at the end of the path: its text becomes the new path. -/
def followLast (r : Reader) (w : Walk) (file : Nat) : Progress :=
  match loadLastLink r w file with
  | none => .undefined
  | some (r, text) =>
      -- `strncpy` leaves a longer text without its end.
      if namebufSize - 1 ≤ text.length then .undefined
      else
        let r := ext2Iput r file
        if text.head? = some slash then
          match w.dir with
          | none => .undefined
          | some dir => abs (ext2Iput r dir) w.dir text (w.links + 1)
        else rel r w.dir w.dir text (w.links + 1)

/-- One turn of the loop over the components, or what follows the loop. -/
def walkStep (w : Walk) (r : Reader) : Progress :=
  match w.file, w.todo with
  | none, _ :: _ => .undefined
  | none, [] => .returned none (putIfAny r w.dir)
  | some file, component :: rest =>
      if isLink (r.inode file).mode then
        if w.links + 1 > 10 then descend r { w with links := w.links + 1 } file component rest
        else followOnWay r w file (component :: rest)
      else descend r w file component rest
  | some file, [] =>
      if isLink (r.inode file).mode then
        if w.links + 1 > 5 then .returned (some file) (putIfAny r w.dir)
        else followLast r w file
      else .returned (some file) (putIfAny r w.dir)

/-! ## The walk -/

/-- At most `n` steps of a call. -/
def walkFrom : Nat → Progress → Progress
  | n + 1, .running w r => walkFrom n (walkStep w r)
  | _, p => p

/-- No call takes this many steps. -/
def walkLimit : Nat := 12 * (namebufSize + 1)

/-- The start of `ext2_namei`. -/
def startWalk (r : Reader) (name : List UInt8) : Progress :=
  if namebufSize ≤ name.length then .undefined else abs r none name 0

/-- `ext2_namei` -/
def ext2Namei (r : Reader) (name : List UInt8) : Progress := walkFrom walkLimit (startWalk r name)

/-- `ext2_close` -/
def ext2Close (r : Reader) (fd : Nat) : Reader := ext2Iput r fd

end Milo.Fs.Ext2
