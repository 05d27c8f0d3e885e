import Milo.Fs.Ext2Caches

/-! # Which block of the device a block of a file is

The mapping is compared with the format in the three ranges of a file's blocks:
direct, behind one indirect block, and behind two. The last range of the reader
starts where that of the format does and ends one block of pointers earlier.
-/

namespace Milo.Fs.Ext2

open Foundation

/-! ## The limits -/

/-- A volume whose limits are those of its block size, which is one of the three
that ext2 has. -/
structure Volume.Sized (vol : Volume) : Prop where
  blocksize : vol.blocksize = 1024 ∨ vol.blocksize = 2048 ∨ vol.blocksize = 4096
  directlim : vol.directlim = 11
  ptrsPerBlk : vol.ptrsPerBlk = vol.blocksize / 4
  ind1lim : vol.ind1lim = vol.ptrsPerBlk + 11
  ind2lim : vol.ind2lim = vol.ptrsPerBlk * vol.ptrsPerBlk + 11

theorem ext2Mount_sized {drive : Drive} {t : Nat} {vol : Volume}
    (h : ext2Mount drive t = some vol)
    (hsize : vol.blocksize = 1024 ∨ vol.blocksize = 2048 ∨ vol.blocksize = 4096) : vol.Sized := by
  unfold ext2Mount at h
  simp only at h
  split at h
  · cases h
  · split at h
    · cases h
    · split at h
      · cases h
      · cases h
        exact ⟨hsize, rfl, rfl, rfl, rfl⟩

/-! ## One block of pointers -/

/-- The entry of an indirect block, or 0 if there is no such block. -/
def pointerIn (contents : ByteMemory) (blocksize blk i : Nat) : Nat :=
  if blk = 0 then 0 else readLe contents (blk * blocksize + 4 * i) 4

/-- A block that could be read is in the buffer. -/
theorem BlockCache.load_bytes {device : Device} {blocksize blkno : Nat} {cache : BlockCache}
    (h : cache.Holds device.contents blocksize) (hblk : blkno < 256 ^ 4)
    (hfits : blkno * blocksize < 2 ^ 64) (hload : (cache.load device blocksize blkno).1 = true) :
    ∀ j < blocksize,
      (cache.load device blocksize blkno).2.buf j = device.contents (blkno * blocksize + j) := by
  intro j hj
  unfold BlockCache.load deviceRead at *
  simp only [u64_of_lt hfits] at *
  split
  · rename_i hother
    rw [if_pos hother] at hload
    split
    · rename_i hfailed
      rw [if_pos hfailed] at hload
      cases hload
    · rename_i hwhole
      simp only [Classical.not_not.mp hwhole]
      exact fill_start _ _ hj
  · rename_i hsame
    have heq : cache.blkno = blkno := Classical.not_not.mp hsame
    rw [← heq]
    refine h ?_ j hj
    rw [heq, noBlock]
    omega

theorem BlockCache.load_entry {device : Device} {blocksize blkno i : Nat} {cache : BlockCache}
    (h : cache.Holds device.contents blocksize) (hblk : blkno < 256 ^ 4)
    (hsize : blocksize ≤ maxBlockSize) (hi : 4 * i + 4 ≤ blocksize)
    (hload : (cache.load device blocksize blkno).1 = true) :
    (cache.load device blocksize blkno).2.entry i =
      readLe device.contents (blkno * blocksize + 4 * i) 4 := by
  have hfits : blkno * blocksize ≤ 256 ^ 4 * 4096 := Nat.mul_le_mul (Nat.le_of_lt hblk) hsize
  unfold maxBlockSize at hsize
  refine readLe_congr 4 (by omega) (by omega) fun j hj => ?_
  rw [Nat.add_assoc]
  exact BlockCache.load_bytes h hblk (by omega) hload (4 * i + j) (by omega)

/-- The block is a hole, or it can be had without an error. -/
def IndRead (device : Device) (vol : Volume) (caches : Caches) (iblkno : Nat) : Prop :=
  iblkno = 0 ∨ (caches.ind.load device vol.blocksize iblkno).1 = true

theorem singleIndirect_eq {device : Device} {vol : Volume} {caches : Caches} {iblkno index : Nat}
    (h : caches.ind.Holds device.contents vol.blocksize) (hblk : iblkno < 256 ^ 4)
    (hsize : vol.blocksize ≤ maxBlockSize) (hindex : 4 * index + 4 ≤ vol.blocksize)
    (hread : IndRead device vol caches iblkno) :
    (singleIndirect device vol caches iblkno index).1 =
      s32 (pointerIn device.contents vol.blocksize iblkno index) := by
  unfold singleIndirect pointerIn
  by_cases hzero : iblkno = 0
  · rw [if_pos hzero, if_pos hzero]
    rfl
  · have hload := hread.resolve_left hzero
    rw [if_neg hzero, if_neg hzero]
    simp only [hload, if_true]
    rw [BlockCache.load_entry h hblk hsize hindex hload]

/-! ## The mapping -/

/-- The indirect blocks that a block of a file lies behind are holes, or can be had
without an error. -/
def IndirectRead (drive : Drive) (t : Nat) (vol : Volume) (caches : Caches) (ip : Inode)
    (b : Nat) : Prop :=
  let p := vol.blocksize / 4
  if b < 12 then True
  else if b < 12 + p then IndRead (drive.device t) vol caches (ip.block 12)
  else
    ip.block 13 = 0 ∨
      (caches.dind.load (drive.device t) vol.blocksize (ip.block 13)).1 = true ∧
        IndRead (drive.device (t + 1)) vol caches
          (pointerIn drive.contents vol.blocksize (ip.block 13) ((b - 12 - p) / p))

theorem blockPointer_direct (contents : ByteMemory) (blocksize : Nat) (ip : Inode) {b : Nat}
    (hb : b < 12) : blockPointer contents blocksize ip b = ip.block b := by
  unfold blockPointer
  exact if_pos hb

theorem blockPointer_single (contents : ByteMemory) {blocksize : Nat} (ip : Inode) {b : Nat}
    (hlo : 12 ≤ b) (hhi : b < 12 + blocksize / 4) :
    blockPointer contents blocksize ip b =
      pointerIn contents blocksize (ip.block 12) (b - 12) := by
  unfold blockPointer
  simp only
  rw [if_neg (by omega), if_pos hhi]
  rfl

theorem blockPointer_double (contents : ByteMemory) {blocksize : Nat} (ip : Inode) {b : Nat}
    (hlo : 12 + blocksize / 4 ≤ b)
    (hhi : b < 12 + blocksize / 4 + blocksize / 4 * (blocksize / 4)) :
    blockPointer contents blocksize ip b =
      pointerIn contents blocksize
        (pointerIn contents blocksize (ip.block 13)
          ((b - 12 - blocksize / 4) / (blocksize / 4)))
        ((b - 12 - blocksize / 4) % (blocksize / 4)) := by
  unfold blockPointer
  simp only
  rw [if_neg (by omega), if_neg (by omega), if_pos hhi]
  rfl

theorem pointerIn_lt (contents : ByteMemory) (blocksize blk i : Nat) :
    pointerIn contents blocksize blk i < 256 ^ 4 := by
  unfold pointerIn
  split
  · decide
  · exact readLe_lt _ _ _

theorem blockPointer_lt (contents : ByteMemory) (blocksize : Nat) (ip : Inode) (b : Nat) :
    blockPointer contents blocksize ip b < 2 ^ 32 := by
  unfold blockPointer
  simp only
  split
  · exact readLe_lt _ _ _
  · split
    · exact pointerIn_lt _ _ _ _
    · split
      · exact pointerIn_lt _ _ _ _
      · exact pointerIn_lt _ _ _ _

section
variable {drive : Drive} {t : Nat} {vol : Volume} {caches : Caches} {ip : Inode} {b : Nat}

theorem Volume.Sized.le_max (hvol : vol.Sized) : vol.blocksize ≤ maxBlockSize := by
  unfold maxBlockSize
  have hsize := hvol.blocksize
  omega

/-- What the reader gives for a block in its three ranges. -/
theorem ext2Blkno_eq (hvol : vol.Sized) (hcaches : caches.Coherent drive.contents vol.blocksize)
    (hread : IndirectRead drive t vol caches ip b)
    (hb : b < 12 + vol.blocksize / 4 * (vol.blocksize / 4)) :
    (ext2Blkno drive t vol caches ip b).1 =
      s32 (blockPointer drive.contents vol.blocksize ip b) := by
  have hsize := hvol.blocksize
  have hmax := hvol.le_max
  unfold IndirectRead at hread
  unfold ext2Blkno
  rw [hvol.directlim, hvol.ind1lim, hvol.ind2lim, hvol.ptrsPerBlk]
  simp only at hread ⊢
  by_cases hdirect : b < 12
  · rw [if_pos (by omega), blockPointer_direct _ _ _ hdirect]
  · rw [if_neg hdirect] at hread
    rw [if_neg (by omega)]
    by_cases hsingle : b < 12 + vol.blocksize / 4
    · rw [if_pos hsingle] at hread
      rw [if_pos (by omega), blockPointer_single _ _ (by omega) hsingle,
        show ((b : Int) - ((11 : Nat) + 1)).toNat = b - 12 by omega]
      exact singleIndirect_eq hcaches.ind (readLe_lt _ _ _) hmax (by omega) hread
    · rw [if_neg hsingle] at hread
      rw [if_neg (by omega), if_pos (by omega)]
      have hrest : ((b : Int) - ((vol.blocksize / 4 + 11 : Nat) + 1)).toNat =
          b - 12 - vol.blocksize / 4 := by omega
      have hquot : (b - 12 - vol.blocksize / 4) / (vol.blocksize / 4) < vol.blocksize / 4 := by
        rw [Nat.div_lt_iff_lt_mul (by omega)]
        omega
      have hmod := Nat.mod_lt (b - 12 - vol.blocksize / 4) (show 0 < vol.blocksize / 4 by omega)
      rw [hrest, blockPointer_double _ _ (by omega) (by omega)]
      by_cases hzero : ip.block 13 = 0
      · rw [if_pos hzero, hzero]
        rfl
      · obtain ⟨hload, hind⟩ := hread.resolve_left hzero
        have hblk : ip.block 13 < 256 ^ 4 := readLe_lt _ _ _
        have hentry := BlockCache.load_entry hcaches.dind hblk hmax
          (show 4 * ((b - 12 - vol.blocksize / 4) / (vol.blocksize / 4)) + 4 ≤ vol.blocksize by omega)
          hload
        rw [if_neg hzero]
        simp only [hload, if_true]
        have hpointer : pointerIn drive.contents vol.blocksize (ip.block 13)
            ((b - 12 - vol.blocksize / 4) / (vol.blocksize / 4)) = _ := if_neg hzero
        rw [hpointer] at hind ⊢
        rw [hentry]
        exact singleIndirect_eq hcaches.ind (readLe_lt _ _ _) hmax (by omega) hind

/-- Behind its last limit the reader finds holes. -/
theorem ext2Blkno_behind (hvol : vol.Sized)
    (hb : 12 + vol.blocksize / 4 * (vol.blocksize / 4) ≤ b) :
    (ext2Blkno drive t vol caches ip b).1 = 0 := by
  have hsize := hvol.blocksize
  have hsquare : vol.blocksize / 4 ≤ vol.blocksize / 4 * (vol.blocksize / 4) :=
    Nat.le_mul_self _
  unfold ext2Blkno
  rw [hvol.directlim, hvol.ind1lim, hvol.ind2lim, hvol.ptrsPerBlk, if_neg (by omega),
    if_neg (by omega), if_neg (by omega)]

theorem s32_eq_iff {n : Nat} (hn : n < 2 ^ 32) : s32 n = n ↔ n < 2 ^ 31 := by
  unfold s32
  rw [Nat.mod_eq_of_lt hn]
  split <;> omega

end

/-- A block of a file is mapped as the format has it exactly if its number is one
of an `int` and the block does not lie behind the last `p` entries that the
double indirect block leads to. -/
theorem mapping_iff {drive mounts : Drive} {t u : Nat} {vol : Volume} {caches : Caches}
    {ip : Inode} {b : Nat} (hmount : ext2Mount mounts u = some vol)
    (hsize : vol.blocksize = 1024 ∨ vol.blocksize = 2048 ∨ vol.blocksize = 4096)
    (hcaches : caches.Coherent drive.contents vol.blocksize)
    (hread : IndirectRead drive t vol caches ip b) :
    (ext2Blkno drive t vol caches ip b).1 = blockPointer drive.contents vol.blocksize ip b ↔
      blockPointer drive.contents vol.blocksize ip b < 2 ^ 31 ∧
        (b < 12 + vol.blocksize / 4 * (vol.blocksize / 4) ∨
          blockPointer drive.contents vol.blocksize ip b = 0) := by
  have hvol := ext2Mount_sized hmount hsize
  by_cases hinside : b < 12 + vol.blocksize / 4 * (vol.blocksize / 4)
  · rw [ext2Blkno_eq hvol hcaches hread hinside, s32_eq_iff (blockPointer_lt _ _ _ _)]
    simp [hinside]
  · rw [ext2Blkno_behind hvol (by omega)]
    constructor
    · intro heq
      exact ⟨by omega, Or.inr (by omega)⟩
    · rintro ⟨-, hin | hhole⟩
      · exact absurd hin hinside
      · rw [hhole]
        rfl

/-! ## A block that is lost -/

/-- A volume of blocks of 1024 bytes. Block 5 is the double indirect block of a
file, its last entry leads to block 6, and the first entry there is block 7. -/
def sparseContents : ByteMemory :=
  image [(1028, 64), (1044, 1), (1056, 64), (1064, 8), (1080, 0x53), (1081, 0xef),
    (5 * 1024 + 4 * 255, 6), (6 * 1024, 7)]

def sparseVolume : Volume := volumeOf ⟨64, 1, 0, 64, 8, 0xef53⟩ [0]

/-- The inode: `i_block[12]` is block 6 and `i_block[13]` is block 5. -/
def sparseInode : Inode := image [(40 + 4 * 12, 6), (40 + 4 * 13, 5)]

def noCaches : Caches := ⟨⟨noBlock, fun _ => 0⟩, ⟨noBlock, fun _ => 0⟩⟩

theorem noCaches_coherent (contents : ByteMemory) (blocksize : Nat) :
    noCaches.Coherent contents blocksize :=
  ⟨fun h => absurd rfl h, fun h => absurd rfl h⟩

theorem BlockCache.load_sound (cache : BlockCache) (contents : ByteMemory) (blocksize blkno : Nat) :
    (cache.load (Device.sound contents) blocksize blkno).1 = true := by
  unfold BlockCache.load deviceRead Device.sound
  simp only [ne_eq, not_true_eq_false, if_false, ite_not]
  split
  · rfl
  · rfl

theorem indRead_sound (contents : ByteMemory) (vol : Volume) (caches : Caches) (iblkno : Nat) :
    IndRead (Device.sound contents) vol caches iblkno :=
  Or.inr (BlockCache.load_sound _ _ _ _)

theorem single_indirect_block_found :
    (ext2Blkno (Device.sound sparseContents).drive 0 sparseVolume noCaches sparseInode 12).1 =
      7 := by
  have hmount : ext2Mount (Device.sound sparseContents).drive 0 = some sparseVolume := by
    decide +kernel
  have hformat : blockPointer sparseContents 1024 sparseInode 12 = 7 := by decide +kernel
  have hread : IndirectRead (Device.sound sparseContents).drive 0 sparseVolume noCaches
      sparseInode 12 := indRead_sound sparseContents _ _ _
  have hlow : blockPointer sparseContents 1024 sparseInode 12 < 2 ^ 31 := by
    rw [hformat]
    decide
  have hmapped := (mapping_iff hmount (Or.inl rfl) (noCaches_coherent sparseContents 1024)
    hread).mpr ⟨hlow, Or.inl (by decide)⟩
  exact hmapped.trans (congrArg Nat.cast hformat)

/-- The first block behind the last entry of the double indirect block but one. -/
theorem double_indirect_block_lost :
    ext2Mount (Device.sound sparseContents).drive 0 = some sparseVolume ∧
      IndirectRead (Device.sound sparseContents).drive 0 sparseVolume noCaches sparseInode 65548 ∧
      blockPointer sparseContents 1024 sparseInode 65548 = 7 ∧
      (ext2Blkno (Device.sound sparseContents).drive 0 sparseVolume noCaches sparseInode
        65548).1 = 0 := by
  refine ⟨by decide +kernel, ?_, by decide +kernel, by decide +kernel⟩
  exact Or.inr ⟨BlockCache.load_sound _ sparseContents _ _, indRead_sound sparseContents _ _ _⟩

end Milo.Fs.Ext2
