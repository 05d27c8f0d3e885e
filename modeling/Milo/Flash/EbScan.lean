import Milo.Flash.Eb

/-! # Which image a block belongs to

The scan labels as many blocks for an image as its size in 32 bits holds, and one
more. The last image that reaches a block in this way gives it its label.
-/

namespace Milo.Flash

open Foundation
open Milo.Env (environId)

section
variable (flash : ByteMemory)

/-- The bytes of an image, its header included. -/
def RomHeader.size (header : RomHeader) : Nat := header.hsize + header.rimageSize

/-- An image that starts in block `a` has a byte in block `b`. -/
def covers (a b : Nat) : Bool :=
  validFlashHeader (headerAt flash a) &&
    decide (a ≤ b ∧ b * flashBlockSize < a * flashBlockSize + (headerAt flash a).size)

/-- An image that starts in block `a` ends behind block `b` or at its first byte,
when its size is taken in 32 bits. -/
def reaches (a b : Nat) : Bool :=
  validFlashHeader (headerAt flash a) &&
    decide (a ≤ b ∧ b * flashBlockSize ≤ a * flashBlockSize + u32 (headerAt flash a).size)

/-- The last image that has a byte in a block. -/
def lastImage (b : Nat) : Option Nat := lastCovering (covers flash) (List.range flashBlocks) b

/-- The firmware id of the last image that reaches a block. -/
def reachingId (b : Nat) : Int :=
  (lastCovering (reaches flash) (List.range flashBlocks) b).elim unused
    fun a => (headerAt flash a).fwId

/-- The blocks whose labels are changed after the loop over the images. -/
def fixedBlocks (blocks : Labels) : List Nat :=
  let images := labelImages flash blocks
  let nt := labelFixed 1 15 images
  let vms := labelFixed 2 14 nt
  (if (findImage images 1).isSome then [15] else []) ++
    (if (findImage nt 2).isSome then [14] else []) ++
    (if (findImage vms 3).isSome then [14] else []) ++
    (findNvram flash).toList.filter (0 < ·)

variable {flash}

theorem covers_iff_byte (a b : Nat) : covers flash a b = true ↔
    validFlashHeader (headerAt flash a) = true ∧ ∃ i < (headerAt flash a).size,
      (a * flashBlockSize + i) / flashBlockSize = b := by
  unfold covers
  rw [Bool.and_eq_true, decide_eq_true_eq]
  refine and_congr_right fun _ => ?_
  unfold flashBlockSize
  constructor
  · rintro ⟨hlo, hhi⟩
    exact ⟨b * (64 * 1024) - a * (64 * 1024), by omega, by omega⟩
  · rintro ⟨i, hi, hb⟩
    omega

theorem reaches_iff (a b : Nat) : reaches flash a b = true ↔
    validFlashHeader (headerAt flash a) = true ∧ a ≤ b ∧ b < a + (headerAt flash a).blocks := by
  unfold reaches RomHeader.blocks RomHeader.size flashBlockSize
  rw [Bool.and_eq_true, decide_eq_true_eq, Nat.add_comm (headerAt flash a).hsize]
  refine and_congr_right fun _ => and_congr_right fun hab => ?_
  omega

/-! ## The labels -/

theorem labelImage_eq_overlay :
    labelImage flash = overlay (reaches flash) fun a => (headerAt flash a).fwId := by
  funext blocks a b
  unfold labelImage overlay
  by_cases hvalid : validFlashHeader (headerAt flash a) = true
  · simp only [reaches_iff, hvalid, true_and, if_true]
    rfl
  · simp only [reaches_iff, hvalid]
    rfl

/-- The loop over the images leaves the id of the last one that reaches a block. -/
theorem labelImages_eq (blocks : Labels) {b : Nat} (hb : b < flashBlocks) :
    labelImages flash blocks b = reachingId flash b := by
  unfold labelImages reachingId
  rw [labelImage_eq_overlay, foldl_overlay, labelRange, if_pos ⟨Nat.zero_le b, by omega⟩]

theorem labelFixed_other {imageno : Int} {blockno b : Nat} {blocks : Labels}
    (h : b ∉ (if (findImage blocks imageno).isSome then [blockno] else [])) :
    labelFixed imageno blockno blocks b = blocks b := by
  unfold labelFixed
  split
  · rename_i hfound
    rw [if_pos hfound, List.mem_singleton] at h
    exact Function.update_of_ne h _ _
  · rfl

theorem labelNvram_other {b : Nat} {blocks : Labels}
    (h : b ∉ (findNvram flash).toList.filter (0 < ·)) : labelNvram flash blocks b = blocks b := by
  unfold labelNvram
  cases hfound : findNvram flash with
  | none => rfl
  | some i =>
      by_cases hpos : 0 < i
      · have hne : b ≠ i := by
          rintro rfl
          exact h (by simp [hfound, hpos])
        simp only [if_pos hpos]
        exact Function.update_of_ne hne _ _
      · simp only [if_neg hpos]

theorem scanLabels_eq {blocks : Labels} {b : Nat} (hb : b < flashBlocks)
    (hfixed : b ∉ fixedBlocks flash blocks) : scanLabels flash blocks b = reachingId flash b := by
  simp only [fixedBlocks, List.mem_append, not_or] at hfixed
  unfold scanLabels
  rw [labelNvram_other hfixed.2, labelFixed_other hfixed.1.2, labelFixed_other hfixed.1.1.2,
    labelFixed_other hfixed.1.1.1, labelImages_eq blocks hb]

/-! ## The block of the environment -/

/-- A block that starts with another byte than the signature has no header. -/
theorem not_valid_of_first {b : Nat} (h : flash (b * flashBlockSize) ≠ 0xc3) :
    validFlashHeader (headerAt flash b) = false := by
  have hsignature : (headerAt flash b).signature % 256 = (flash (b * flashBlockSize)).toNat := by
    unfold headerAt readFlashHeader readLe
    rw [Nat.add_mul_mod_self_left]
    exact Nat.mod_eq_of_lt (UInt8.toNat_lt _)
  unfold validFlashHeader
  rw [Bool.and_eq_false_iff]
  refine .inl (beq_eq_false_iff_ne.mpr fun heq => h ?_)
  rw [heq] at hsignature
  exact UInt8.toNat_inj.mp hsignature.symm

/-- A block that starts with the marker of the environment has no header. -/
theorem not_valid_of_holdsString {b : Nat}
    (h : holdsString flash (b * flashBlockSize) environId.chars = true) :
    validFlashHeader (headerAt flash b) = false := by
  apply not_valid_of_first
  unfold environId holdsString at h
  rw [Bool.and_eq_true, beq_iff_eq] at h
  rw [h.1]
  decide

theorem holdsString_findNvram {i : Nat} (h : findNvram flash = some i) :
    holdsString flash (i * flashBlockSize) environId.chars = true := by
  have hfound := List.find?_some h
  exact hfound

/-- The scan protects the block of the environment, unless it is the first one. -/
theorem scanLabels_nvram {blocks : Labels} {i : Nat} (h : findNvram flash = some i)
    (hpos : 0 < i) : scanLabels flash blocks i = 7 := by
  unfold scanLabels labelNvram
  rw [h]
  simp only [if_pos hpos]
  exact Function.update_self i _ _

/-- If it is the first one, it stays free. -/
theorem scanLabels_first {blocks : Labels} (h : findNvram flash = some 0) :
    scanLabels flash blocks 0 = unused := by
  have hnone : lastCovering (reaches flash) (List.range flashBlocks) 0 = none := by
    apply lastCovering_eq_none
    intro a _ hreach
    obtain ⟨hvalid, hle, _⟩ := (reaches_iff a 0).mp hreach
    rw [Nat.le_zero.mp hle, not_valid_of_holdsString (holdsString_findNvram h)] at hvalid
    cases hvalid
  rw [scanLabels_eq (by decide), reachingId, hnone]
  · rfl
  · unfold fixedBlocks
    rw [h]
    simp only [List.mem_append]
    rintro (((hmem | hmem) | hmem) | hmem)
    · split at hmem <;> simp at hmem
    · split at hmem <;> simp at hmem
    · split at hmem <;> simp at hmem
    · simp at hmem

/-! ## The writes -/

theorem mem_scanWrites {i : Nat} :
    i ∈ scanWrites flash ↔ ∃ a < flashBlocks, reaches flash a i = true := by
  unfold scanWrites
  simp only [List.mem_flatMap, List.mem_range, reaches_iff]
  refine exists_congr fun a => and_congr_right fun _ => ?_
  split
  · rename_i hvalid
    rw [List.mem_range'_1]
    exact (and_iff_right hvalid).symm
  · rename_i hvalid
    exact ⟨fun h => (nomatch h), fun h => absurd h.1 hvalid⟩

/-- An image ends before the end of the flash, when its size is taken in 32 bits. -/
def EndsInside (flash : ByteMemory) (a : Nat) : Prop :=
  a * flashBlockSize + u32 (headerAt flash a).size < flashBlocks * flashBlockSize

theorem writes_inside_iff : (∀ i ∈ scanWrites flash, i < flashBlocks) ↔
    ∀ a < flashBlocks, validFlashHeader (headerAt flash a) = true → EndsInside flash a := by
  unfold EndsInside
  constructor
  · intro h a ha hvalid
    have hlast := h (a + u32 (headerAt flash a).size / flashBlockSize)
      (mem_scanWrites.mpr ⟨a, ha, by
        unfold reaches flashBlockSize
        rw [hvalid, Bool.true_and, decide_eq_true_eq]
        omega⟩)
    unfold flashBlockSize at *
    omega
  · intro h i hi
    obtain ⟨a, ha, hreach⟩ := mem_scanWrites.mp hi
    unfold reaches at hreach
    rw [Bool.and_eq_true, decide_eq_true_eq] at hreach
    have hinside := h a ha hreach.1
    unfold flashBlockSize at *
    omega

/-- Where every image lies within the flash, one label is written behind those of
the blocks at most. -/
theorem writes_le_of_within (h : ∀ a < flashBlocks, validFlashHeader (headerAt flash a) = true →
    a * flashBlockSize + (headerAt flash a).size ≤ flashBlocks * flashBlockSize) {i : Nat}
    (hi : i ∈ scanWrites flash) : i ≤ flashBlocks := by
  obtain ⟨a, ha, hreach⟩ := mem_scanWrites.mp hi
  unfold reaches at hreach
  rw [Bool.and_eq_true, decide_eq_true_eq] at hreach
  have hwithin := h a ha hreach.1
  have hsize : u32 (headerAt flash a).size ≤ (headerAt flash a).size := Nat.mod_le _ _
  unfold flashBlockSize at *
  omega

/-! ## The scan -/

/-- The scan writes no other labels than those of the blocks, and a block has the
firmware id of the last image with a byte in it, unless it is one of those that
are labelled afterwards. -/
structure ScanSound (flash : ByteMemory) (blocks : Labels) : Prop where
  writes : ∀ i ∈ scanWrites flash, i < flashBlocks
  labels : ∀ b < flashBlocks, b ∉ fixedBlocks flash blocks → ∀ a, lastImage flash b = some a →
    scanLabels flash blocks b = (headerAt flash a).fwId

/-- Every image ends before the end of the flash, and the last image that reaches
a block has the id of the last image with a byte in it. -/
structure ImagesApart (flash : ByteMemory) (blocks : Labels) : Prop where
  inside : ∀ a < flashBlocks, validFlashHeader (headerAt flash a) = true → EndsInside flash a
  shown : ∀ b < flashBlocks, b ∉ fixedBlocks flash blocks → ∀ a, lastImage flash b = some a →
    reachingId flash b = (headerAt flash a).fwId

theorem scanSound_iff (flash : ByteMemory) (blocks : Labels) :
    ScanSound flash blocks ↔ ImagesApart flash blocks := by
  constructor
  · rintro ⟨hwrites, hlabels⟩
    refine ⟨writes_inside_iff.mp hwrites, fun b hb hfixed a ha => ?_⟩
    rw [← scanLabels_eq hb hfixed]
    exact hlabels b hb hfixed a ha
  · rintro ⟨hinside, hshown⟩
    refine ⟨writes_inside_iff.mpr hinside, fun b hb hfixed a ha => ?_⟩
    rw [scanLabels_eq hb hfixed]
    exact hshown b hb hfixed a ha

end

/-! ## A full flash -/

/-- A little-endian longword. -/
def longword (n : Nat) : List UInt8 := (List.range 4).map fun i => UInt8.ofNat (n / 256 ^ i)

/-- A header of 0x34 bytes, as far as the utility looks at it. -/
def headerBytes (fwId : UInt8) (rimageSize : Nat) : List UInt8 :=
  longword romHSignature ++ longword 0xA5A53C3C ++ longword 0x34 ++ List.replicate 20 0 ++
    [1, fwId, 0, 0] ++ longword rimageSize

/-- A flash that is erased but for what stands at the start of some blocks. -/
def flashWith (starts : List (Nat × List UInt8)) : ByteMemory := fun i =>
  match starts.find? fun s => s.1 == i / flashBlockSize with
  | some s => s.2.getD (i % flashBlockSize) 0xff
  | none => 0xff

/-- An image of two whole blocks in the last two blocks of the flash. -/
def fullFlash : ByteMemory := flashWith [(14, headerBytes 7 (2 * flashBlockSize - 0x34))]

/-- The scan writes behind the labels for an image that ends where the flash ends. -/
theorem label_behind_last_block : ¬ ScanSound fullFlash fun _ => unused := by
  intro hsound
  have hwrite : flashBlocks ∈ scanWrites fullFlash :=
    mem_scanWrites.mpr ⟨14, by decide, by decide +kernel⟩
  exact Nat.lt_irrefl _ (hsound.writes flashBlocks hwrite)

end Milo.Flash
