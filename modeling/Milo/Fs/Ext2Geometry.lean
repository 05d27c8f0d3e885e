import Milo.Fs.Ext2Mapping

/-! # Where the groups and inodes of a volume are

A mount computes the number of groups from the super block and reads the group
descriptors from byte 2048 on. The format has them in the block behind the super
block, which is the same place for blocks of 1024 and 2048 bytes only.
-/

namespace Milo.Fs.Ext2

open Foundation

/-! ## The format -/

/-- `s_inodes_count` -/
def inodesCount (contents : ByteMemory) : Nat := readLe contents 1024 4

namespace SuperBlock

variable (sb : SuperBlock)

def blocksize : Nat := 1024 <<< sb.logBlockSize

/-- The groups of a volume; the last one may be smaller. -/
def groupCount : Nat :=
  (sb.blocksCount - sb.firstDataBlock + sb.blocksPerGroup - 1) / sb.blocksPerGroup

/-- The first byte of the group descriptors. -/
def tableStart : Nat := (sb.firstDataBlock + 1) * sb.blocksize

/-- The first byte of an inode. -/
def inodePlace (contents : ByteMemory) (ino : Nat) : Nat :=
  readLe contents (sb.tableStart + 32 * ((ino - 1) / sb.inodesPerGroup) + 8) 4 * sb.blocksize +
    128 * ((ino - 1) % sb.inodesPerGroup)

end SuperBlock

/-- A super block of blocks of 1, 2 or 4 Kbytes. It lies in the first data block,
and its groups have room for its inodes. -/
structure ValidSuper (contents : ByteMemory) : Prop where
  magic : (superBlockAt contents).magic = superMagic
  logBlockSize : (superBlockAt contents).logBlockSize ≤ 2
  firstDataBlock : (superBlockAt contents).firstDataBlock = 1024 / (superBlockAt contents).blocksize
  blocksCount : (superBlockAt contents).firstDataBlock < (superBlockAt contents).blocksCount
  blocksPerGroup : 0 < (superBlockAt contents).blocksPerGroup
  inodesPerGroup : 0 < (superBlockAt contents).inodesPerGroup
  inodesCount : inodesCount contents ≤
    (superBlockAt contents).groupCount * (superBlockAt contents).inodesPerGroup

/-! ## The reader -/

/-- The memory of `gds` that a mount fills. -/
def mountGds (drive : Drive) (t : Nat) : ByteMemory :=
  (deviceRead (drive.device (t + 1)) (fun _ => 0) 0 (groupsOf (superBlockAt drive.contents) * 32)
    2048).2

/-- The entries of `gds` are the descriptors of all groups, and an inode is read
from its place. -/
structure GeometryRight (drive : Drive) (t : Nat) (vol : Volume) : Prop where
  groups : ∀ g < (superBlockAt drive.contents).groupCount,
    g < groupsOf (superBlockAt drive.contents) ∧ ∀ j < 32,
      mountGds drive t (32 * g + j) =
        drive.contents ((superBlockAt drive.contents).tableStart + 32 * g + j)
  inodes : ∀ ino, 1 ≤ ino → ino ≤ inodesCount drive.contents → ∀ r : Reader, r.drive = drive →
    r.vol = vol → ∀ i r', ext2Iget r ino = (some i, r') → ∀ j < 128,
      r'.inode i j = drive.contents ((superBlockAt drive.contents).inodePlace drive.contents ino + j)

/-- What a mount that succeeds has found. -/
structure Mounted (drive : Drive) (t : Nat) (vol : Volume) : Prop where
  magic : (superBlockAt drive.contents).magic = superMagic
  read : (drive.device (t + 1)).count 2048 (groupsOf (superBlockAt drive.contents) * 32) =
    groupsOf (superBlockAt drive.contents) * 32
  volume : vol = volumeOf (superBlockAt drive.contents)
    ((List.range (groupsOf (superBlockAt drive.contents))).map fun g =>
      readLe drive.contents (2048 + 32 * g + 8) 4)

theorem ext2Mount_some {drive : Drive} {t : Nat} {vol : Volume}
    (h : ext2Mount drive t = some vol) : Mounted drive t vol := by
  unfold ext2Mount at h
  simp only at h
  split at h
  · cases h
  · split at h
    · cases h
    · rename_i hmagic
      split at h
      · cases h
      · rename_i hread
        exact ⟨Classical.not_not.mp hmagic, Classical.not_not.mp hread, (Option.some.inj h).symm⟩

section
variable {drive : Drive} {t : Nat} {vol : Volume}

theorem Mounted.gds (h : Mounted drive t vol) {i : Nat}
    (hi : i < groupsOf (superBlockAt drive.contents) * 32) :
    mountGds drive t i = drive.contents (2048 + i) := by
  unfold mountGds deviceRead
  simp only [h.read]
  exact fill_start _ _ hi

theorem superBlockAt_lt (contents : ByteMemory) :
    (superBlockAt contents).blocksCount < 2 ^ 32 ∧
      (superBlockAt contents).firstDataBlock < 2 ^ 32 ∧
      (superBlockAt contents).blocksPerGroup < 2 ^ 32 ∧
      (superBlockAt contents).inodesPerGroup < 2 ^ 32 :=
  ⟨readLe_lt _ _ _, readLe_lt _ _ _, readLe_lt _ _ _, readLe_lt _ _ _⟩

/-- The sum for the number of groups as it is in 32 bits. -/
theorem groupsOf_eq (contents : ByteMemory) (h : ValidSuper contents) :
    groupsOf (superBlockAt contents) =
      if (superBlockAt contents).blocksCount - (superBlockAt contents).firstDataBlock +
          (superBlockAt contents).blocksPerGroup - 1 < 2 ^ 32
      then (superBlockAt contents).groupCount else 0 := by
  obtain ⟨hblocks, hfirst, hper, -⟩ := superBlockAt_lt contents
  have hcount := h.blocksCount
  have hpos := h.blocksPerGroup
  have hdata : 0 < (superBlockAt contents).blocksCount - (superBlockAt contents).firstDataBlock ∧
      (superBlockAt contents).blocksCount - (superBlockAt contents).firstDataBlock < 2 ^ 32 := by
    omega
  unfold groupsOf SuperBlock.groupCount
  rw [sub32_of_le hblocks (by omega)]
  generalize (superBlockAt contents).blocksCount - (superBlockAt contents).firstDataBlock = n at *
  generalize (superBlockAt contents).blocksPerGroup = p at *
  by_cases hfits : n + p - 1 < 2 ^ 32
  · have hsum : sub32 (u32 (n + p)) 1 = n + p - 1 := by
      unfold sub32 u32
      omega
    rw [if_pos hfits, hsum]
  · have hsum : sub32 (u32 (n + p)) 1 < p := by
      unfold sub32 u32
      omega
    rw [if_neg hfits, Nat.div_eq_of_lt hsum]

theorem ValidSuper.groupCount_pos {contents : ByteMemory} (h : ValidSuper contents) :
    0 < (superBlockAt contents).groupCount := by
  have hcount := h.blocksCount
  have hpos := h.blocksPerGroup
  exact Nat.div_pos (by omega) hpos

theorem ValidSuper.blocksize_cases {contents : ByteMemory} (h : ValidSuper contents) :
    ((superBlockAt contents).blocksize = 1024 ∧ (superBlockAt contents).tableStart = 2048) ∨
      ((superBlockAt contents).blocksize = 2048 ∧ (superBlockAt contents).tableStart = 2048) ∨
      ((superBlockAt contents).blocksize = 4096 ∧ (superBlockAt contents).tableStart = 4096) := by
  have hlog := h.logBlockSize
  have hfirst := h.firstDataBlock
  unfold SuperBlock.tableStart
  unfold SuperBlock.blocksize at *
  generalize (superBlockAt contents).logBlockSize = n at *
  rw [hfirst]
  match n, hlog with
  | 0, _ => exact Or.inl ⟨rfl, rfl⟩
  | 1, _ => exact Or.inr (Or.inl ⟨rfl, rfl⟩)
  | 2, _ => exact Or.inr (Or.inr ⟨rfl, rfl⟩)

/-- The reader works with the block size of the super block. -/
theorem ValidSuper.volume_blocksize {contents : ByteMemory} (h : ValidSuper contents)
    (tables : List Nat) :
    (volumeOf (superBlockAt contents) tables).blocksize = (superBlockAt contents).blocksize := by
  refine u32_of_lt ?_
  have hcases := h.blocksize_cases
  unfold SuperBlock.blocksize at hcases
  omega

/-- An inode is read from its place if the descriptor of its group is right. -/
theorem Mounted.inodeOffset_eq (h : Mounted drive t vol) (hvalid : ValidSuper drive.contents)
    (htable : (superBlockAt drive.contents).tableStart = 2048)
    (hgroups : groupsOf (superBlockAt drive.contents) = (superBlockAt drive.contents).groupCount)
    {ino : Nat} (hlo : 1 ≤ ino) (hhi : ino ≤ inodesCount drive.contents) :
    inodeOffset vol ino = (superBlockAt drive.contents).inodePlace drive.contents ino := by
  have hino : ino < 2 ^ 32 := Nat.lt_of_le_of_lt hhi (readLe_lt _ _ _)
  have hper : (superBlockAt drive.contents).inodesPerGroup < 2 ^ 32 :=
    (superBlockAt_lt drive.contents).2.2.2
  have hgroup : (ino - 1) / (superBlockAt drive.contents).inodesPerGroup <
      groupsOf (superBlockAt drive.contents) := by
    rw [hgroups, Nat.div_lt_iff_lt_mul hvalid.inodesPerGroup]
    have hroom := hvalid.inodesCount
    omega
  have hsize := hvalid.blocksize_cases
  have hmod := Nat.mod_lt (ino - 1) hvalid.inodesPerGroup
  have hentry : readLe drive.contents
      (2048 + 32 * ((ino - 1) / (superBlockAt drive.contents).inodesPerGroup) + 8) 4 *
        (superBlockAt drive.contents).blocksize ≤ 2 ^ 32 * 4096 :=
    Nat.mul_le_mul (Nat.le_of_lt (readLe_lt _ _ _)) (by omega)
  have hvolume := hvalid.volume_blocksize
  rw [inodeOffset, SuperBlock.inodePlace, htable, h.volume, hvolume, sub32_of_le hino hlo]
  change u64 (((List.range _).map _)[(ino - 1) / (superBlockAt drive.contents).inodesPerGroup]?.getD
    0 * _ + (ino - 1) % (superBlockAt drive.contents).inodesPerGroup * 128) = _
  rw [List.getElem?_map, List.getElem?_range hgroup, Option.map_some, Option.getD_some,
    u64_of_lt (by omega), Nat.mul_comm 128]

/-- The inode that `ext2_iget` returns is the one at the offset it computes. -/
theorem ext2Iget_bytes {r r' : Reader} {ino i : Nat} (h : ext2Iget r ino = (some i, r')) :
    ∀ j < inodeSize, r'.inode i j = r.drive.contents (inodeOffset r.vol ino + j) := by
  intro j hj
  unfold ext2Iget at h
  split at h
  · cases h
  · rename_i k hk
    simp only [Prod.mk.injEq] at h
    obtain ⟨hslot, rfl⟩ := h
    split at hslot
    · rename_i hcount
      obtain rfl := Option.some.inj hslot
      unfold deviceRead at hcount ⊢
      simp only [beq_iff_eq] at hcount
      simp only [Reader.inode, Function.update_self, hcount]
      exact fill_start _ _ hj
    · cases hslot

theorem Mounted.geometryRight (h : Mounted drive t vol) (hvalid : ValidSuper drive.contents)
    (htable : (superBlockAt drive.contents).tableStart = 2048)
    (hgroups : groupsOf (superBlockAt drive.contents) = (superBlockAt drive.contents).groupCount) :
    GeometryRight drive t vol where
  groups := by
    intro g hg
    refine ⟨hgroups ▸ hg, fun j hj => ?_⟩
    rw [h.gds (by omega), htable, Nat.add_assoc]
  inodes := by
    intro ino hlo hhi r hdrive hvol i r' hget j hj
    have hplace := h.inodeOffset_eq hvalid htable hgroups hlo hhi
    rw [ext2Iget_bytes hget j hj, hdrive, hvol, hplace]

end

/-! ## The super blocks that are read right -/

/-- The devices have the same super block. -/
def SameSuper (contents contents' : ByteMemory) : Prop :=
  ∀ x, 1024 ≤ x → x < 2048 → contents' x = contents x

section
variable {contents contents' : ByteMemory}

theorem SameSuper.word (h : SameSuper contents contents') {offset n : Nat}
    (hin : offset + n ≤ 1024) :
    readLe contents' (1024 + offset) n = readLe contents (1024 + offset) n :=
  readLe_congr n (by omega) (by omega) fun i hi => h _ (by omega) (by omega)

theorem SameSuper.superBlockAt (h : SameSuper contents contents') :
    superBlockAt contents' = superBlockAt contents := by
  unfold Ext2.superBlockAt
  rw [h.word (by decide), h.word (by decide), h.word (by decide), h.word (by decide),
    h.word (by decide), h.word (by decide)]

theorem SameSuper.inodesCount (h : SameSuper contents contents') :
    inodesCount contents' = inodesCount contents := by
  have hword := h.word (show 0 + 4 ≤ 1024 by decide)
  exact hword

theorem SameSuper.valid (h : SameSuper contents contents') (hvalid : ValidSuper contents) :
    ValidSuper contents' := by
  obtain ⟨hmagic, hlog, hfirst, hblocks, hper, hinodes, hcount⟩ := hvalid
  rw [← h.superBlockAt] at hmagic hlog hfirst hblocks hper hinodes hcount
  rw [← h.inodesCount] at hcount
  exact ⟨hmagic, hlog, hfirst, hblocks, hper, hinodes, hcount⟩

/-- A device with the super block and nothing else but a byte in block 1. -/
def markedContents (contents : ByteMemory) : ByteMemory := fun x =>
  if 1024 ≤ x ∧ x < 2048 then contents x else if x = 4096 then 1 else 0

theorem markedContents_same (contents : ByteMemory) : SameSuper contents (markedContents contents) :=
  fun _ hlo hhi => if_pos ⟨hlo, hhi⟩

/-- A device whose reads succeed if their length is one of an `int`. -/
def intDrive (contents : ByteMemory) : Drive where
  contents := contents
  count _ _ size := if size < 2 ^ 31 then size else 0
  count_le _ _ size := by
    split
    · exact Nat.le_refl size
    · exact Nat.zero_le size

theorem ext2Mount_succeeds {drive : Drive} {t : Nat}
    (hsuper : (drive.device t).count 1024 1024 = 1024)
    (hmagic : (superBlockAt drive.contents).magic = superMagic)
    (hgroups : (drive.device (t + 1)).count 2048 (groupsOf (superBlockAt drive.contents) * 32) =
      groupsOf (superBlockAt drive.contents) * 32) : ∃ vol, ext2Mount drive t = some vol := by
  unfold ext2Mount
  simp only
  rw [if_neg (not_not.mpr hsuper), if_neg (not_not.mpr hmagic), if_neg (not_not.mpr hgroups)]
  exact ⟨_, rfl⟩

/-- A mount of the marked device succeeds if its table can be read. -/
theorem marked_mount (h : ValidSuper contents)
    (hsize : groupsOf (superBlockAt contents) * 32 < 2 ^ 31) :
    ∃ vol, ext2Mount (intDrive (markedContents contents)) 0 = some vol := by
  have hsuper := (markedContents_same contents).superBlockAt
  refine ext2Mount_succeeds rfl ?_ (if_pos ?_)
  · change (superBlockAt (markedContents contents)).magic = _
    rw [hsuper]
    exact h.magic
  · change groupsOf (superBlockAt (markedContents contents)) * 32 < _
    rw [hsuper]
    exact hsize

theorem intDrive_count_lt (contents : ByteMemory) (t offset size : Nat) :
    (intDrive contents).count t offset size < 2 ^ 31 := by
  change (if size < 2 ^ 31 then size else 0) < 2 ^ 31
  split <;> omega

/-- What a mount of the marked volume tells if it gets the geometry right: there is
a group, and its descriptor is at 2048. -/
theorem marked_geometry {contents : ByteMemory} (h : ValidSuper contents)
    (hsize : groupsOf (superBlockAt contents) * 32 < 2 ^ 31)
    (hright : ∀ vol, ext2Mount (intDrive (markedContents contents)) 0 = some vol →
      GeometryRight (intDrive (markedContents contents)) 0 vol) :
    0 < groupsOf (superBlockAt contents) ∧ (superBlockAt contents).tableStart ≠ 4096 := by
  have hsuper := (markedContents_same contents).superBlockAt
  obtain ⟨vol, hvol⟩ := marked_mount h hsize
  obtain ⟨hfirst, hbytes⟩ := (hright vol hvol).groups 0 (by
    change 0 < (superBlockAt (markedContents contents)).groupCount
    rw [hsuper]
    exact h.groupCount_pos)
  change 0 < groupsOf (superBlockAt (markedContents contents)) at hfirst
  have hbyte := hbytes 0 (by decide)
  rw [(ext2Mount_some hvol).gds (Nat.mul_pos hfirst (by decide))] at hbyte
  have hcontents : (intDrive (markedContents contents)).contents = markedContents contents := rfl
  rw [hcontents, hsuper] at hbyte
  simp only [Nat.mul_zero, Nat.add_zero] at hbyte
  rw [hsuper] at hfirst
  refine ⟨hfirst, fun hstart => ?_⟩
  rw [hstart] at hbyte
  have hmark : markedContents contents 4096 = 1 := rfl
  have hzero : markedContents contents 2048 = 0 := rfl
  rw [hmark, hzero] at hbyte
  exact absurd hbyte (by decide)

/-- The mounts that succeed get the geometry right exactly if the sum for the
number of groups fits in 32 bits and the blocks are not of 4096 bytes; with
those, a table of 2^31 bytes is never read. -/
theorem geometry_iff (contents : ByteMemory) (h : ValidSuper contents) :
    (∀ drive : Drive, SameSuper contents drive.contents →
        (∀ t offset size, drive.count t offset size < 2 ^ 31) →
        ∀ t vol, ext2Mount drive t = some vol → GeometryRight drive t vol) ↔
      (superBlockAt contents).blocksCount - (superBlockAt contents).firstDataBlock +
          (superBlockAt contents).blocksPerGroup - 1 < 2 ^ 32 ∧
        ((superBlockAt contents).blocksize = 4096 →
          2 ^ 31 ≤ (superBlockAt contents).groupCount * 32) := by
  have hgroups := groupsOf_eq contents h
  have hpos := h.groupCount_pos
  constructor
  · intro hright
    have hmarked := fun hsize => marked_geometry h hsize fun vol =>
      hright _ (markedContents_same contents) (intDrive_count_lt _) 0 vol
    have hfits : (superBlockAt contents).blocksCount - (superBlockAt contents).firstDataBlock +
        (superBlockAt contents).blocksPerGroup - 1 < 2 ^ 32 := by
      by_contra hwraps
      rw [if_neg hwraps] at hgroups
      have hfirst := (hmarked (by omega)).1
      omega
    rw [if_pos hfits] at hgroups
    refine ⟨hfits, fun hsize => ?_⟩
    by_contra hsmall
    have hstart := (hmarked (by omega)).2
    have hcases := h.blocksize_cases
    omega
  · rintro ⟨hfits, hlarge⟩ drive hsame hcount t vol hvol
    have hmount := ext2Mount_some hvol
    have hvalid := hsame.valid h
    rw [if_pos hfits] at hgroups
    refine hmount.geometryRight hvalid ?_ ?_
    · have hread := hcount (t + 1) 2048 (groupsOf (superBlockAt drive.contents) * 32)
      have hwhole := hmount.read
      change drive.count (t + 1) 2048 _ = _ at hwhole
      rw [hwhole, hsame.superBlockAt, hgroups] at hread
      rw [hsame.superBlockAt]
      have hcases := h.blocksize_cases
      omega
    · rw [hsame.superBlockAt]
      exact hgroups

end

/-! ## Two volumes -/

/-- 16 blocks with one group of 8 inodes, whose table is block 5. The descriptor of
the group is given by its place. -/
def volumeImage (firstDataBlock logBlockSize : UInt8) (descriptor : Nat) : ByteMemory :=
  image [(1024, 8), (1028, 16), (1044, firstDataBlock), (1048, logBlockSize), (1056, 64),
    (1064, 8), (1080, 0x53), (1081, 0xef), (descriptor + 8, 5)]

theorem volumeImage_4k :
    ValidSuper (volumeImage 0 2 4096) ∧
      ext2Mount (intDrive (volumeImage 0 2 4096)) 0 =
        some (volumeOf ⟨16, 0, 2, 64, 8, superMagic⟩ [0]) ∧
      readLe (volumeImage 0 2 4096) ((superBlockAt (volumeImage 0 2 4096)).tableStart + 8) 4 = 5 :=
  ⟨⟨by decide, by decide, by decide, by decide, by decide, by decide, by decide⟩,
    by decide +kernel, by decide⟩

/-- The root of a volume with blocks of 4096 bytes is looked for in block 0. -/
theorem table_of_4k_missed :
    inodeOffset (volumeOf ⟨16, 0, 2, 64, 8, superMagic⟩ [0]) rootIno = 128 ∧
      (superBlockAt (volumeImage 0 2 4096)).inodePlace (volumeImage 0 2 4096) rootIno =
        5 * 4096 + 128 ∧
      ¬ ∀ drive : Drive, SameSuper (volumeImage 0 2 4096) drive.contents →
        (∀ t offset size, drive.count t offset size < 2 ^ 31) →
        ∀ t vol, ext2Mount drive t = some vol → GeometryRight drive t vol := by
  refine ⟨by decide, by decide, fun hright => ?_⟩
  obtain ⟨hvalid, hmount, -⟩ := volumeImage_4k
  have hgeometry := hright (intDrive (volumeImage 0 2 4096)) (fun _ _ _ => rfl)
    (intDrive_count_lt _) 0 _ hmount
  have hbyte := (hgeometry.groups 0 hvalid.groupCount_pos).2 8 (by decide)
  rw [(ext2Mount_some hmount).gds (by decide)] at hbyte
  exact absurd hbyte (by decide)

/-- With blocks of 2048 bytes it is found. -/
theorem table_of_2k_found :
    GeometryRight (intDrive (volumeImage 0 1 2048)) 0
      (volumeOf ⟨16, 0, 1, 64, 8, superMagic⟩ [5]) := by
  have hvalid : ValidSuper (volumeImage 0 1 2048) :=
    ⟨by decide, by decide, by decide, by decide, by decide, by decide, by decide⟩
  exact (geometry_iff (volumeImage 0 1 2048) hvalid).mpr ⟨by decide, fun h => absurd h (by decide)⟩
    _ (fun _ _ _ => rfl) (intDrive_count_lt _) 0 _ (by decide +kernel)

end Milo.Fs.Ext2
