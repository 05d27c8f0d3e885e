import Mathlib.Logic.Function.Basic
import Milo.Foundation.CString
import Milo.Fs.BlockReader

/-! # The iso9660 reader

The super block, the reading of a directory record into an inode slot, and the
blocks of a file. The buffers `data_block` and `big_data_block` are memories
that start at address 0.
-/

namespace Milo.Fs.Isofs

open Foundation

/-- `s_blocksize` of every mounted volume. -/
def blocksize : Nat := 1024

/-- `MAX_OPEN_FILES` -/
def maxOpenFiles : Nat := 5

/-- `struct isofs_super_block`, the fields that differ between volumes. -/
structure IsofsSb where
  highSierra : Bool
  logZoneSize : Nat
  cruft : Bool
  rootInode : Nat

/-- An entry of the inode table with its `iso_inode`. -/
structure InodeEntry where
  firstExtent : Nat
  backlink : Nat
  inumber : Nat
  size : Int
  mode : Nat
  free : Bool

/-- The variables of the reader. -/
structure State where
  sb : IsofsSb
  dataBlock : ByteMemory
  bigDataBlock : ByteMemory
  table : Nat → InodeEntry

/-- `isonum_711` -/
def isonum711 (p : ByteMemory) (a : Nat) : Nat := (p a).toNat

/-- `isonum_723`, which is `isonum_721` -/
def isonum723 (p : ByteMemory) (a : Nat) : Nat := readLe p a 2

/-- `isonum_733`, which is `isonum_731`, as an unsigned number. -/
def isonum733 (p : ByteMemory) (a : Nat) : Nat := readLe p a 4

/-- `isofs_bread`, with the buffer that it leaves. -/
def isofsBread (device : Device) (blkno : Int) (mem : ByteMemory) (buffer : Nat) :
    Bool × ByteMemory :=
  let offset := ((blkno * blocksize) % 2 ^ 64).toNat
  let (count, mem) := deviceRead device mem buffer blocksize offset
  (count == blocksize, mem)

/-! ## Mounting -/

/-- `"CDROM"` -/
def hsStandardId : List UInt8 := [0x43, 0x44, 0x52, 0x4f, 0x4d]

/-- `"CD001"` -/
def isoStandardId : List UInt8 := [0x43, 0x44, 0x30, 0x30, 0x31]

/-- The search for a volume descriptor over `n` blocks of the disc from block
`isoBlknum` on: whether it is in High Sierra format, and its block. -/
def findDescriptor (drive : Drive) (t : Nat) (isoBlknum : Nat) : Nat → Option (Bool × ByteMemory)
  | 0 => none
  | n + 1 =>
      let (ok, vdp) := isofsBread (drive.device t) (2 * isoBlknum) (fun _ => 0) 0
      if ok = false then none
      else if strncmp vdp 9 hsStandardId 5 = 0 then
        if isonum711 vdp 8 ≠ 1 then none else some (true, vdp)
      else if strncmp vdp 1 isoStandardId 5 = 0 then
        if isonum711 vdp 0 ≠ 1 then none else some (false, vdp)
      else findDescriptor drive (t + 1) (isoBlknum + 1) n

/-- `isofs_read_super`. The two formats keep the same fields at other places. -/
def isofsReadSuper (drive : Drive) (t : Nat) : Option IsofsSb :=
  (findDescriptor drive t 16 84).bind fun (highSierra, pri) =>
    let volumeSetSize := if highSierra then 128 else 120
    let logicalBlockSize := if highSierra then 136 else 128
    let rootp := if highSierra then 180 else 156
    if isonum723 pri volumeSetSize ≠ 1 then none
    else
      let logZoneSize :=
        match isonum723 pri logicalBlockSize with
        | 512 => some 9
        | 1024 => some 10
        | 2048 => some 11
        | _ => none
      logZoneSize.map fun bits =>
        { highSierra := highSierra
          logZoneSize := bits
          cruft := false
          rootInode := u32 (isonum733 pri (rootp + 2) <<< bits) }

/-! ## Directory records -/

/-- Where the fields of `struct iso_directory_record` are. -/
def recExtAttrLength : Nat := 1
def recExtent : Nat := 2
def recSize : Nat := 10
def recFlags : Nat := 25
def recInterleave : Nat := 27
def recNameLen : Nat := 32
def recName : Nat := 33

/-- The flags; High Sierra has a date that is one byte shorter. -/
def recordFlags (sb : IsofsSb) (raw : ByteMemory) : Nat :=
  (raw (recFlags - if sb.highSierra then 1 else 0)).toNat

/-- `S_IRUGO`, `S_IXUGO`, `S_IFDIR` and `S_IFREG` -/
def sIrugo : Nat := 0o444
def sIxugo : Nat := 0o111
def sIfdir : Nat := 0o040000
def sIfreg : Nat := 0o100000

/-- `S_ISDIR` -/
def isDir (mode : Nat) : Bool := mode &&& 0o170000 == sIfdir

/-- The first `.` or `;` among `n` characters of a name from its `i`-th on. -/
def findDot (raw : ByteMemory) (i : Nat) : Nat → Nat
  | 0 => i
  | n + 1 =>
      if raw (recName + i) = 0x2e ∨ raw (recName + i) = 0x3b then i else findDot raw (i + 1) n

/-- The mode of a record: a file whose name has no period may be executed. -/
def recordMode (sb : IsofsSb) (raw : ByteMemory) : Nat :=
  if recordFlags sb raw &&& 2 ≠ 0 then sIrugo ||| sIxugo ||| sIfdir
  else
    let len := (raw recNameLen).toNat
    let i := findDot raw 0 len
    let mode := sIrugo ||| sIfreg
    if i = len ∨ raw (recName + i) = 0x3b then mode ||| sIxugo else mode

/-- The size of a record, and whether its disc counts as defective from then on. -/
def recordSize (sb : IsofsSb) (raw : ByteMemory) : Int × Bool :=
  let size := isonum733 raw recSize
  let cruft := sb.cruft || decide (s32 size < 0 ∨ s32 size > 700000000)
  let size := if cruft = true ∧ size &&& 0xff000000 ≠ 0 then size &&& 0x00ffffff else size
  (if raw recInterleave ≠ 0 then 0 else s32 size, cruft)

/-- The extent of a record in bytes, an `unsigned int`. -/
def recordExtent (sb : IsofsSb) (raw : ByteMemory) : Nat :=
  u32 ((isonum733 raw recExtent + isonum711 raw recExtAttrLength) <<< sb.logZoneSize)

/-- The record at a byte of the device, put together in `big_data_block` if it
does not end in the block that it starts in. How much of the second block belongs
to it is computed from the length at its place in `data_block`, which holds the
second block by then; a negative number of bytes cannot be copied. -/
def rawInode (drive : Drive) (t : Nat) (s : State) (ino : Int) :
    Option (Option ByteMemory × State) :=
  let block := ino / blocksize
  let offset := (ino % blocksize).toNat
  let (ok, dataBlock) := isofsBread (drive.device t) block s.dataBlock 0
  let s := { s with dataBlock := dataBlock }
  if ok = false then some (none, s)
  else if offset + (dataBlock offset).toNat > blocksize then
    let frag1 := blocksize - offset
    let big := fill s.bigDataBlock 0 (fun i => dataBlock (offset + i)) frag1
    let (ok, dataBlock) := isofsBread (drive.device (t + 1)) (block + 1) s.dataBlock 0
    let s := { s with dataBlock := dataBlock }
    if ok = false then some (none, { s with bigDataBlock := big })
    else
      let length := (dataBlock offset).toNat
      if offset + length < blocksize then none
      else
        let big := fill big frag1 dataBlock (offset + length - blocksize)
        some (some big, { s with bigDataBlock := big })
  else some (some fun i => dataBlock (offset + i), s)

/-- The first free slot of the table, from slot `i` on. -/
def freeSlot (table : Nat → InodeEntry) (i : Nat) : Nat → Option Nat
  | 0 => none
  | n + 1 => if (table i).free then some i else freeSlot table (i + 1) n

/-- `isofs_iget`, with the slot of the inode. -/
def isofsIget (drive : Drive) (t : Nat) (s : State) (ino : Nat) : Option (Option Nat × State) :=
  match freeSlot s.table 0 maxOpenFiles with
  | none => some (none, s)
  | some slot =>
      match rawInode drive t s (s32 ino) with
      | none => none
      | some (none, s) => some (none, s)
      | some (some raw, s) =>
          let (size, cruft) := recordSize s.sb raw
          let entry : InodeEntry :=
            { firstExtent := recordExtent s.sb raw
              backlink := 0xffffffff
              inumber := u32 ino
              size := size
              mode := recordMode s.sb raw
              free := false }
          some (some slot,
            { s with
              sb := { s.sb with cruft := cruft }
              table := Function.update s.table slot entry })

/-! ## Reading -/

/-- `isofs_bmap` -/
def isofsBmap (inode : InodeEntry) (block : Int) : Nat :=
  if block < 0 then 0 else u32 (inode.firstExtent >>> 10 + block.toNat)

/-- `iso9660_bread` -/
def iso9660Bread (inode : InodeEntry) (device : Device) (blkno : Nat) (mem : ByteMemory)
    (buffer : Nat) : Int × ByteMemory :=
  if inode.firstExtent = 0 then (-1, mem)
  else
    let block := isofsBmap inode (s32 blkno)
    if block = 0 then (-1, mem)
    else
      let (ok, mem) := isofsBread device block mem buffer
      (if ok then 0 else -1, mem)

/-! ## The format -/

/-- Where the bytes of a file are whose record lies at byte `ino` of the volume:
in the blocks behind its extended attributes. -/
def layout (contents : ByteMemory) (logZoneSize ino : Nat) : FileLayout where
  size := readLe contents (ino + recSize) 4
  addr pos :=
    some ((readLe contents (ino + recExtent) 4 + (contents (ino + recExtAttrLength)).toNat) *
      2 ^ logZoneSize + pos)

end Milo.Fs.Isofs
