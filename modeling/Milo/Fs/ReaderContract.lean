import Milo.Fs.DosVolume
import Milo.Fs.Ext2
import Milo.Fs.Isofs

/-! # The contract of the three readers

The block reader of each file system against what its callers rely on: for an
open file on a mounted volume, when exactly the reader delivers the file.
-/

namespace Milo.Fs

open Foundation

/-! ## msdos -/

namespace Dos

theorem blockOffset_natCast {n : Nat} (h : n < 2 ^ 15) : blockOffset n = n * 512 := by
  rw [blockOffset]
  omega

/-- The bytes of the device sector that the list names for sector `i`. -/
def listed (inode : Inode) (device : Device) (i j : Nat) : UInt8 :=
  device.contents (blockOffset (s16 (inode.blockList i)) + j)

theorem msdosBread_half {inode : Inode} {device : Device} (hdevice : device.Succeeds) {k : Nat}
    {mem : ByteMemory} {buffer : Nat} (hk : ((k * 2 : Nat) : Int) < inode.blocks)
    (hhalf : inode.blocks ≤ ((k * 2 + 1 : Nat) : Int)) :
    msdosBread inode device k mem buffer =
      (0, fill mem buffer (listed inode device (k * 2)) 512) := by
  simp only [msdosBread, deviceRead, hdevice _ _]
  rw [if_neg (by omega), if_neg (by simp), if_pos (by omega)]
  rfl

theorem msdosBread_full {inode : Inode} {device : Device} (hdevice : device.Succeeds) {k : Nat}
    {mem : ByteMemory} {buffer : Nat} (hk : ((k * 2 + 1 : Nat) : Int) < inode.blocks) :
    msdosBread inode device k mem buffer =
      (0, fill (fill mem buffer (listed inode device (k * 2)) 512) (buffer + 512)
        (listed inode device (k * 2 + 1)) 512) := by
  simp only [msdosBread, deviceRead, hdevice _ _]
  rw [if_neg (by omega), if_neg (by simp), if_neg (by omega)]
  rfl

/-- Both halves of a block come from the device sectors of the list. -/
theorem msdosBread_bytes {inode : Inode} {device : Device} (hdevice : device.Succeeds) {k : Nat}
    (mem : ByteMemory) (buffer : Nat) (hk : ((k * 2 : Nat) : Int) < inode.blocks) :
    (msdosBread inode device k mem buffer).1 = 0 ∧
      (∀ j < 512, (msdosBread inode device k mem buffer).2 (buffer + j) =
        listed inode device (k * 2) j) ∧
      (((k * 2 + 1 : Nat) : Int) < inode.blocks → ∀ j < 512,
        (msdosBread inode device k mem buffer).2 (buffer + 512 + j) =
          listed inode device (k * 2 + 1) j) ∧
      ∀ a ∉ (⟨buffer, iobufSize⟩ : Span), (msdosBread inode device k mem buffer).2 a = mem a := by
  by_cases hhalf : inode.blocks ≤ ((k * 2 + 1 : Nat) : Int)
  · rw [msdosBread_half hdevice hk hhalf]
    refine ⟨rfl, fun j hj => ?_, fun hmore => absurd hmore (by omega), fun a ha => ?_⟩
    · exact fill_inside hj
    · rw [Span.mem_mk, iobufSize] at ha
      exact fill_outside (by rw [Span.mem_mk]; omega)
  · rw [msdosBread_full hdevice (by omega)]
    refine ⟨rfl, fun j hj => ?_, fun _ j hj => ?_, fun a ha => ?_⟩
    · dsimp only
      rw [fill_outside (by rw [Span.mem_mk]; omega), fill_inside hj]
    · dsimp only
      rw [fill_inside hj]
    · rw [Span.mem_mk, iobufSize] at ha
      dsimp only
      rw [fill_outside (by rw [Span.mem_mk]; omega), fill_outside (by rw [Span.mem_mk]; omega)]

theorem msdosBread_eof {inode : Inode} {device : Device} {k : Nat} {mem : ByteMemory} {buffer : Nat}
    (hk : inode.blocks ≤ ((k * 2 : Nat) : Int)) :
    msdosBread inode device k mem buffer = (-1, mem) := by
  rw [msdosBread, if_pos hk]

/-- A file whose bytes lie in the given device sectors, one after the other. -/
def sectorLayout (size : Nat) (sector : Nat → Nat) : FileLayout where
  size := size
  addr pos := some (sector (pos / 512) * 512 + pos % 512)

theorem sectorLayout_byte (size : Nat) (sector : Nat → Nat) (contents : ByteMemory) {i j : Nat}
    (hj : j < 512) :
    (sectorLayout size sector).byte contents (512 * i + j) = contents (sector i * 512 + j) := by
  have hdiv : (512 * i + j) / 512 = i := by omega
  have hmod : (512 * i + j) % 512 = j := by omega
  simp only [FileLayout.byte, sectorLayout, hdiv, hmod]

/-- A reader that delivers the file has found each of its sectors. -/
theorem listed_of_readBy {inode : Inode} {contents : ByteMemory} {size : Nat} {sector : Nat → Nat}
    (hsize : size < 2 ^ 32)
    (h : (sectorLayout size sector).ReadBy contents (msdosBread inode)) {i : Nat}
    (hi : i < sectorsOf size) :
    (i : Int) < inode.blocks ∧
      ∀ contents', (sectorLayout size sector).SameElsewhere contents contents' →
        contents' (blockOffset (s16 (inode.blockList i))) = contents' (sector i * 512) := by
  rw [sectorsOf] at hi
  have hcall : ∀ contents' mem, (sectorLayout size sector).SameElsewhere contents contents' →
      (sectorLayout size sector).Delivers contents' (i / 2) mem 0
        (msdosBread inode (.sound contents') (i / 2) mem 0) :=
    fun contents' mem hsame => h (.sound contents') (Device.sound_succeeds _) hsame (i / 2) mem 0
      (by rw [iobufSize]; omega)
  have hfirst : ((i / 2 * 2 : Nat) : Int) < inode.blocks := by
    by_contra hlast
    have hret := (hcall contents (fun _ => 0) fun _ _ => rfl).returned
    rw [msdosBread_eof (by omega)] at hret
    have hzero := hret.mpr (by rw [iobufSize]; change _ < size; omega)
    cases hzero
  have hread : ∀ contents' mem, (sectorLayout size sector).SameElsewhere contents contents' →
      (msdosBread inode (.sound contents') (i / 2) mem 0).2 (0 + i % 2 * 512) =
        contents' (sector i * 512) := by
    intro contents' mem hsame
    have hbytes := (hcall contents' mem hsame).bytes
      (msdosBread_bytes (Device.sound_succeeds _) _ _ hfirst).1 (i % 2 * 512) (by rw [iobufSize]; omega)
      (by rw [iobufSize]; change _ < size; omega)
    have hpos : iobufSize * (i / 2) + i % 2 * 512 = 512 * i + 0 := by
      rw [iobufSize]
      omega
    rw [hpos, sectorLayout_byte size sector contents' (by decide), Nat.add_zero] at hbytes
    exact hbytes
  have hblocks : (i : Int) < inode.blocks := by
    by_contra hlast
    have hodd : i = i / 2 * 2 + 1 := by omega
    -- the second half is not read, so memory keeps any other byte there
    have hkept := hread contents (fun _ => contents (sector i * 512) + 1) fun _ _ => rfl
    rw [msdosBread_half (Device.sound_succeeds _) hfirst (by omega)] at hkept
    dsimp only at hkept
    rw [fill_outside (by rw [Span.mem_mk]; omega)] at hkept
    simp at hkept
  refine ⟨hblocks, fun contents' hsame => ?_⟩
  have hhere := hread contents' (fun _ => 0) hsame
  obtain ⟨-, heven, hodd, -⟩ := msdosBread_bytes (Device.sound_succeeds contents')
    (fun _ => 0) 0 hfirst
  rcases Nat.mod_two_eq_zero_or_one i with hparity | hparity
  · have hlist := heven 0 (by decide)
    rw [hparity, Nat.zero_mul] at hhere
    rw [hhere, listed, show i / 2 * 2 = i by omega] at hlist
    exact hlist.symm
  · have hlist := hodd (by omega) 0 (by decide)
    rw [hparity, Nat.one_mul] at hhere
    rw [show 0 + 512 + 0 = 0 + 512 by rfl, hhere, listed, show i / 2 * 2 + 1 = i by omega] at hlist
    exact hlist.symm

/-- The reader delivers the file exactly if its list has the sectors of the file
in their order, and ends within the last block. -/
theorem msdosBread_delivers_iff {inode : Inode} {contents : ByteMemory} {size : Nat}
    {sector : Nat → Nat} (hsize : size < 2 ^ 32) :
    (sectorLayout size sector).ReadBy contents (msdosBread inode) ↔
      (∀ i < sectorsOf size, (i : Int) < inode.blocks ∧
        blockOffset (s16 (inode.blockList i)) = sector i * 512) ∧
      inode.blocks ≤ ((size + 1023) / 1024 * 2 : Nat) := by
  constructor
  · intro h
    refine ⟨fun i hi => ?_, ?_⟩
    · obtain ⟨hblocks, hlisted⟩ := listed_of_readBy hsize h hi
      refine ⟨hblocks, ?_⟩
      by_contra hother
      -- a device that has another byte at the sector of the file
      have hsame : (sectorLayout size sector).SameElsewhere contents
          (Function.update contents (sector i * 512) (contents (sector i * 512) + 1)) := by
        intro a ha
        refine Function.update_of_ne ?_ _ _
        rintro rfl
        refine ha (512 * i) ?_ ?_
        · rw [sectorsOf] at hi
          change _ < size
          omega
        · simp only [sectorLayout, Nat.mul_div_cancel_left i (show 0 < 512 by decide),
            Nat.mul_mod_right, Nat.add_zero]
      have hbefore := hlisted contents fun _ _ => rfl
      have hafter := hlisted _ hsame
      rw [Function.update_self, Function.update_of_ne hother, hbefore] at hafter
      simp at hafter
    · by_contra hmore
      have hret := (h (.sound contents) (Device.sound_succeeds _) (fun _ _ => rfl) ((size + 1023) / 1024)
        (fun _ => 0) 0 (by rw [iobufSize]; omega)).returned
      have hin := hret.mp (msdosBread_bytes (Device.sound_succeeds _) _ _ (by omega)).1
      rw [iobufSize] at hin
      change _ < size at hin
      omega
  · rintro ⟨hlist, hlast⟩ device hdevice - k mem buffer -
    by_cases hk : iobufSize * k < size
    · rw [iobufSize] at hk
      have hfirst := hlist (k * 2) (by rw [sectorsOf]; omega)
      obtain ⟨hret, hlow, hhigh, hframe⟩ := msdosBread_bytes hdevice mem buffer
        hfirst.1
      refine ⟨iff_of_true hret hk, fun _ j hj hpos => ?_, hframe⟩
      rw [iobufSize] at hj hpos ⊢
      change _ < size at hpos
      by_cases hhalf : j < 512
      · rw [hlow j hhalf, listed, hfirst.2, show 1024 * k + j = 512 * (k * 2) + j by omega,
          sectorLayout_byte size sector _ hhalf]
      · have hsecond := hlist (k * 2 + 1) (by rw [sectorsOf]; omega)
        have hread := hhigh hsecond.1 (j - 512) (by omega)
        rw [show buffer + 512 + (j - 512) = buffer + j by omega, listed, hsecond.2] at hread
        rw [hread, show 1024 * k + j = 512 * (k * 2 + 1) + (j - 512) by omega,
          sectorLayout_byte size sector _ (by omega)]
    · rw [iobufSize] at hk
      rw [msdosBread_eof (by omega)]
      refine ⟨iff_of_false (by simp) (by rw [iobufSize]; exact hk), fun hzero => ?_, fun _ _ => rfl⟩
      cases hzero

/-- A file that is open on a mounted FAT volume. -/
structure DosFile where
  contents : ByteMemory
  volume : (bootSectorAt contents).WellFormed
  entry : DirEntry
  size_lt : entry.size < 2 ^ 32
  chain : List Nat
  chained : (bootSectorAt contents).FileChain contents entry chain
  sb : MsdosSb
  fat : List Nat
  mounted : msdosMount (.sound contents) = some (sb, fat)
  /-- what `malloc` yields for the block lists -/
  list : Nat → Nat
  newList : Nat → Nat
  inode : Inode
  opened : fillBlockList sb fat list newList entry = some inode

namespace DosFile

variable (f : DosFile)

def boot : BootSector := bootSectorAt f.contents

def sector : Nat → Nat := f.boot.deviceSector f.chain

def layout : FileLayout := sectorLayout f.entry.size f.sector

variable {f}

theorem agrees (hstart : f.boot.dataStart < 2 ^ 16) : Agrees f.boot f.contents f.sb f.fat :=
  .of_mount f.mounted f.volume hstart

theorem sectors_pos : 0 < sectorsOf f.entry.size := by
  have hexact := f.chained.exact
  rw [sectorsOf]
  omega

theorem dataStart_le_sector (i : Nat) : f.boot.dataStart ≤ f.sector i := by
  rw [sector, BootSector.deviceSector]
  omega

/-- No sector of the file has a number near the end of the address space. -/
theorem sector_lt {i : Nat} (hi : i < sectorsOf f.entry.size) (hcs : 0 < f.boot.clusterSectors) :
    f.sector i < 2 ^ 48 := by
  obtain ⟨hlt, heq⟩ : ∃ hlt : i / f.boot.clusterSectors < f.chain.length,
      f.sector i = (f.chain[i / f.boot.clusterSectors] - 2) * f.boot.clusterSectors +
        f.boot.dataStart + i % f.boot.clusterSectors := f.chained.cluster hcs hi
  have hrange := bootSectorAt_inRange f.contents
  have hmult : f.boot.sectorMult ≤ 127 := by
    have hsize := hrange.sectorSize
    change (bootSectorAt f.contents).sectorSize / 512 ≤ 127
    omega
  have hspc : f.boot.clusterSectors ≤ 255 * 127 :=
    Nat.mul_le_mul (by have := hrange.clusterSize; exact Nat.le_of_lt_succ this) hmult
  have hstart : f.boot.dataStart ≤ 2 ^ 32 * 127 :=
    Nat.mul_le_mul (Nat.le_of_lt (Nat.lt_of_le_of_lt f.volume.parts hrange.total)) hmult
  have hcluster : f.chain[i / f.boot.clusterSectors] - 2 ≤ 0xfff4 := by
    have hin := (f.chained.inside _ (List.getElem_mem hlt)).2.1
    have hcount := f.volume.clusters
    omega
  have hproduct := Nat.mul_le_mul hcluster hspc
  have hmod := Nat.mod_lt i hcs
  rw [heq]
  omega

/-- All sectors of the file have numbers that a `short` keeps, and the end of the
file is found: with clusters of several sectors it is not if the file fills its
last block. -/
def Readable (f : DosFile) : Prop :=
  (∀ i < sectorsOf f.entry.size, f.sector i < 2 ^ 15) ∧
    (f.boot.clusterSectors = 1 ∨ f.entry.size % 1024 ≠ 0)

theorem opened_spec (hlow : ∀ i < sectorsOf f.entry.size, f.sector i < 2 ^ 15) :
    0 < f.boot.clusterSectors ∧
      (∀ i < sectorsOf f.entry.size, s16 (f.inode.blockList i) = f.sector i) ∧
      f.inode.blocks =
        if f.boot.clusterSectors = 1 then sectorsOf f.entry.size else f.entry.size / 512 + 1 := by
  have hstart : f.boot.dataStart < 2 ^ 16 := by
    have hfirst := hlow 0 sectors_pos
    have hle := f.dataStart_le_sector 0
    omega
  have hagrees := agrees hstart
  exact ⟨hagrees.mounted.clusterSectors_pos,
    fillBlockList_spec hagrees f.volume f.chained hlow f.opened⟩

/-- A list whose offsets are right has numbers below the sign bit. -/
theorem sector_low_of_offset {w n : Nat} (hn : n < 2 ^ 48) (h : blockOffset (s16 w) = n * 512) :
    n < 2 ^ 15 := by
  rw [blockOffset, s16] at h
  split at h <;> omega

theorem readBy_iff (f : DosFile) :
    f.layout.ReadBy f.contents (msdosBread f.inode) ↔ f.Readable := by
  rw [layout, msdosBread_delivers_iff f.size_lt]
  constructor
  · rintro ⟨hlist, hblocks⟩
    have hcs : 0 < f.boot.clusterSectors := by
      rw [Nat.pos_iff_ne_zero]
      intro hzero
      have hcovers := f.chained.covers
      have hexact := f.chained.exact
      have hnone : (bootSectorAt f.contents).clusterSectors = 0 := hzero
      rw [hnone] at hcovers hexact
      omega
    have hlow : ∀ i < sectorsOf f.entry.size, f.sector i < 2 ^ 15 := fun i hi =>
      sector_low_of_offset (sector_lt hi hcs) (hlist i hi).2
    obtain ⟨-, -, hcount⟩ := opened_spec hlow
    refine ⟨hlow, ?_⟩
    by_contra hboth
    rw [not_or, Decidable.not_not] at hboth
    rw [hcount, if_neg hboth.1] at hblocks
    omega
  · rintro ⟨hlow, hend⟩
    obtain ⟨hcs, hlist, hcount⟩ := opened_spec hlow
    have hpos := sectors_pos (f := f)
    refine ⟨fun i hi => ⟨?_, ?_⟩, ?_⟩
    · rw [hcount]
      rw [sectorsOf] at hi ⊢
      split <;> omega
    · rw [hlist i hi, blockOffset_natCast (hlow i hi)]
    · rw [hcount]
      rw [sectorsOf] at hpos ⊢
      split <;> omega

end DosFile

end Dos

/-! ## ext2 -/

namespace Ext2

/-- A file that is open on a mounted ext2 volume, with any state of the caches. -/
structure Ext2File where
  contents : ByteMemory
  vol : Volume
  mounted : ext2Mount (Device.sound contents).drive 0 = some vol
  ino : Nat
  caches : Caches
  /-- the memory of the inode slot before the inode was read -/
  slot : ByteMemory

namespace Ext2File

variable (f : Ext2File)

/-- The inode as `ext2_iget` reads it. -/
def inode : Inode :=
  fill f.slot 0 (fun i => f.contents (inodeOffset f.vol f.ino + i)) 128

def layout : FileLayout := Ext2.layout f.contents f.vol.blocksize f.inode

/-- `ext2_bread` on the open file. -/
def bread (device : Device) (k : Nat) (mem : ByteMemory) (buffer : Nat) : Int × ByteMemory :=
  let (result, mem, _) := ext2Bread device.drive 0 f.vol f.caches f.inode k mem buffer
  (result, mem)

/-- The reader never reports the end of a file. -/
theorem not_readBy : ¬ f.layout.ReadBy f.contents f.bread := by
  intro h
  have hsize : f.layout.size < 256 ^ 4 := readLe_lt _ _ _
  have hret := (h (.sound f.contents) (Device.sound_succeeds _) (fun _ _ => rfl) f.layout.size
    (fun _ => 0) 0 (by rw [iobufSize]; omega)).returned
  have hin := hret.mp rfl
  rw [iobufSize] at hin
  omega

end Ext2File

end Ext2

/-! ## iso9660 -/

namespace Isofs

/-- A file that is open on a mounted disc, with any state of the buffers. -/
structure IsoFile where
  contents : ByteMemory
  sb : IsofsSb
  mounted : isofsReadSuper (Device.sound contents).drive 0 = some sb
  ino : Nat
  before : State
  slot : Nat
  after : State
  opened : before.sb = sb ∧
    isofsIget (Device.sound contents).drive 0 before ino = some (some slot, after)

namespace IsoFile

variable (f : IsoFile)

def inode : InodeEntry := f.after.table f.slot

def layout : FileLayout := Isofs.layout f.contents f.sb.logZoneSize f.ino

theorem size_lt : f.layout.size < 2 ^ 32 := readLe_lt f.contents (f.ino + recSize) 4

/-- The reader has no end-of-file rule, so only an empty file without an extent
is read to its end. -/
theorem readBy_iff :
    f.layout.ReadBy f.contents (iso9660Bread f.inode) ↔
      f.inode.firstExtent = 0 ∧ f.layout.size = 0 := by
  have hsize := f.size_lt
  constructor
  · intro h
    have hcall : ∀ k, k < 2 ^ 53 →
        ((iso9660Bread f.inode (.sound f.contents) k (fun _ => 0) 0).1 = 0 ↔
          iobufSize * k < f.layout.size) := fun k hk =>
      (h (.sound f.contents) (Device.sound_succeeds _) (fun _ _ => rfl) k (fun _ => 0) 0
        (by rw [iobufSize]; omega)).returned
    by_cases hextent : f.inode.firstExtent = 0
    · refine ⟨hextent, ?_⟩
      have hfirst := hcall 0 (by decide)
      rw [iso9660Bread, if_pos hextent, iobufSize] at hfirst
      by_contra hsome
      have hzero := hfirst.mpr (by omega)
      cases hzero
    · -- one of two blocks far behind the file has a block number other than 0
      have hzero : ∀ k, k < 2 ^ 31 → u32 (f.inode.firstExtent >>> 10 + k) ≠ 0 →
          1024 * k < f.layout.size := by
        intro k hk hblock
        refine (hcall k (by omega)).mp ?_
        have hbmap : isofsBmap f.inode (s32 k) ≠ 0 := by
          rw [isofsBmap, s32_of_lt hk, if_neg (by omega), Int.toNat_natCast]
          exact hblock
        simp only [iso9660Bread, if_neg hextent, if_neg hbmap, isofsBread, deviceRead, Device.sound]
        simp
      have hnext := hzero (2 ^ 22) (by decide)
      have hnext' := hzero (2 ^ 22 + 1) (by decide)
      simp only [u32] at hnext hnext'
      omega
  · rintro ⟨hextent, hempty⟩ device - - k mem buffer -
    rw [iso9660Bread, if_pos hextent]
    refine ⟨iff_of_false (by simp) (by omega), fun hzero => ?_, fun _ _ => rfl⟩
    cases hzero

end IsoFile

end Isofs

/-! ## The three readers -/

/-- A file that is open on a volume of one of the file systems. -/
inductive OpenFile where
  | ext2 (f : Ext2.Ext2File)
  | iso9660 (f : Isofs.IsoFile)
  | msdos (f : Dos.DosFile)

/-- `bread` of the file system delivers the file. -/
def OpenFile.ReadInFull : OpenFile → Prop
  | .ext2 f => f.layout.ReadBy f.contents f.bread
  | .iso9660 f => f.layout.ReadBy f.contents (Isofs.iso9660Bread f.inode)
  | .msdos f => f.layout.ReadBy f.contents (Dos.msdosBread f.inode)

/-- The files that are read in full. -/
def OpenFile.Readable : OpenFile → Prop
  | .ext2 _ => False
  | .iso9660 f => f.inode.firstExtent = 0 ∧ f.layout.size = 0
  | .msdos f => f.Readable

theorem readInFull_iff_readable (f : OpenFile) : f.ReadInFull ↔ f.Readable := by
  cases f with
  | ext2 f => exact iff_of_false f.not_readBy fun h => h
  | iso9660 f => exact f.readBy_iff
  | msdos f => exact f.readBy_iff

/-- A volume of 64 blocks with one file of one byte, inode 5. -/
def smallExt2 : Ext2.Ext2File where
  contents := image
    [(1028, 64), (1044, 1), (1056, 64), (1064, 8), (1080, 0x53), (1081, 0xef), (2056, 5),
      (5636, 1), (5672, 20)]
  vol := Ext2.volumeOf ⟨64, 1, 0, 64, 8, 0xef53⟩ [5]
  mounted := by decide +kernel
  ino := 5
  caches := ⟨⟨Ext2.noBlock, fun _ => 0⟩, ⟨Ext2.noBlock, fun _ => 0⟩⟩
  slot := fun _ => 0

theorem ext2Bread_past_end :
    smallExt2.layout.size = 1 ∧
      (smallExt2.bread (.sound smallExt2.contents) 1 (fun _ => 0) 0).1 = 0 ∧
      ¬ (OpenFile.ext2 smallExt2).ReadInFull := by
  refine ⟨by decide +kernel, rfl, smallExt2.not_readBy⟩

/-- A volume of 40 sectors with one file of 100 bytes in its first cluster. -/
def smallDos : Dos.DosFile where
  contents := image
    [(12, 2), (13, 1), (14, 1), (16, 1), (17, 16), (19, 40), (22, 1), (24, 1), (26, 1), (515, 0xff),
      (516, 0x0f)]
  volume := ⟨by decide +kernel, by decide +kernel, by decide +kernel⟩
  entry := ⟨2, 100⟩
  size_lt := by decide
  chain := [2]
  chained := ⟨.last (by decide +kernel), by decide +kernel, by decide +kernel, by decide +kernel⟩
  sb := ⟨1, 1, 12, 1, 1, 2, 16, 3, 37⟩
  fat := (List.range 341).map fun c => if c = 2 then 0xfff else 0
  mounted := by decide +kernel
  list := fun _ => 0
  newList := fun _ => 0
  inode := ⟨⟨2, 100⟩, Dos.convertSectors ⟨1, 1, 12, 1, 1, 2, 16, 3, 37⟩
    (Function.update (fun _ => 0) 0 2) 1, 1⟩
  opened := rfl

theorem smallDos_readInFull : (OpenFile.msdos smallDos).ReadInFull :=
  (readInFull_iff_readable (.msdos smallDos)).mpr ⟨by decide +kernel, by decide +kernel⟩

end Milo.Fs
