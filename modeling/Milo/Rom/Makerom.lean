import Mathlib.Algebra.Order.Ring.Int
import Milo.Rom.Compress

/-! # The headers of ROM images

`process_file` makes two passes over a file: the first one computes what the
header says about the image, the second one writes the image behind it. The
fields of the header that do not depend on the contents are left out.
-/

namespace Milo.Rom

open Foundation

/-- The fields of `romheader_t` that describe the image. -/
structure RomHeader where
  decomp : Bool
  size : Nat
  rimageSize : Nat
  checksum : Nat

/-- A `fileinfo_t`, with the contents of the file. -/
structure FileInfo where
  contents : List UInt8
  compress : Bool

/-- The header and what is written behind it. -/
structure RomImage where
  head : RomHeader
  body : List UInt8

/-- `ROTATE_RIGHT` -/
def rotateRight (x : Nat) : Nat := if x &&& 1 ≠ 0 then x >>> 1 + 0x8000 else x >>> 1

/-- `COMPUTE_CHECKSUM` -/
def computeChecksum (k : Nat) (c : UInt8) : Nat := (rotateRight k + c.toNat) &&& 0xffff

/-- `process_file`, with the stack of `compress` before and after it. -/
def processFile (buffer : List Int) (file : FileInfo) : Option (RomImage × List Int) :=
  let size := file.contents.length
  if file.compress then
    (compress buffer file.contents).bind fun (out, buffer) =>
      let head : RomHeader :=
        { decomp := true
          size := size
          rimageSize := out.length
          checksum := (out.map outputByte).foldl computeChecksum 0 }
      (compress buffer file.contents).map fun (out, buffer) =>
        (⟨head, out.map outputByte⟩, buffer)
  else
    let padding := List.replicate ((4 - size % 4) % 4) (0 : UInt8)
    let head : RomHeader :=
      { decomp := false
        size := size + padding.length
        rimageSize := size + padding.length
        checksum := padding.foldl computeChecksum (file.contents.foldl computeChecksum 0) }
    some (⟨head, file.contents ++ padding⟩, buffer)

/-- The sum of bytes in 16 bits that is rotated before each of them. -/
def rotatingSum (bytes : List UInt8) : BitVec 16 :=
  bytes.foldl (fun sum c => sum.rotateRight 1 + BitVec.ofNat 16 c.toNat) 0

/-- What the body stands for: itself, or the text that was compressed. -/
def RomImage.text (image : RomImage) : Option (List UInt8) :=
  if image.head.decomp then unpack image.body else some image.body

/-- The header tells the truth about the image behind it. -/
structure RomImage.Truthful (image : RomImage) : Prop where
  size : image.text.map List.length = some image.head.size
  rimageSize : image.head.rimageSize = image.body.length
  aligned : image.head.rimageSize % 4 = 0
  checksum : image.head.checksum = (rotatingSum image.body).toNat

/-! ## Checksums -/

theorem rotateRight_eq {k : Nat} (hk : k < 2 ^ 16) :
    rotateRight k = ((BitVec.ofNat 16 k).rotateRight 1).toNat := by
  have hshift : k <<< 15 % 2 ^ 16 = 2 ^ 15 * (k % 2) := by
    rw [Nat.shiftLeft_eq]
    omega
  have hhalf : k >>> 1 = k / 2 := Nat.shiftRight_eq_div_pow k 1
  have hor := Nat.two_pow_add_eq_or_of_lt (show k / 2 < 2 ^ 15 by omega) (k % 2)
  rw [BitVec.toNat_rotateRight, BitVec.toNat_ofNat, Nat.mod_eq_of_lt hk, hshift, hhalf, Nat.or_comm,
    ← hor]
  unfold rotateRight
  rw [Nat.and_one_is_mod, hhalf]
  split
  · omega
  · omega

theorem computeChecksum_eq (sum : BitVec 16) (c : UInt8) :
    computeChecksum sum.toNat c = (sum.rotateRight 1 + BitVec.ofNat 16 c.toNat).toNat := by
  have hrotate := rotateRight_eq sum.isLt
  have hbyte := c.toNat_lt
  rw [BitVec.ofNat_toNat, BitVec.setWidth_eq] at hrotate
  unfold computeChecksum
  rw [hrotate, BitVec.toNat_add, BitVec.toNat_ofNat, Nat.mod_eq_of_lt (show c.toNat < 2 ^ 16 by omega)]
  exact Nat.and_two_pow_sub_one_eq_mod _ 16

theorem foldl_computeChecksum (bytes : List UInt8) (sum : BitVec 16) :
    bytes.foldl computeChecksum sum.toNat =
      (bytes.foldl (fun sum c => sum.rotateRight 1 + BitVec.ofNat 16 c.toNat) sum).toNat := by
  induction bytes generalizing sum with
  | nil => rfl
  | cons c bytes ih => rw [List.foldl_cons, List.foldl_cons, computeChecksum_eq, ih]

/-- The checksum of the first pass is the rotating sum. -/
theorem checksum_eq (bytes : List UInt8) :
    bytes.foldl computeChecksum 0 = (rotatingSum bytes).toNat :=
  foldl_computeChecksum bytes 0

/-! ## Images -/

theorem padded_aligned (n : Nat) : (n + (4 - n % 4) % 4) % 4 = 0 := by omega

/-- A file that is not compressed gets a header that is true. -/
theorem processFile_plain (buffer : List Int) {file : FileInfo} (h : file.compress = false) :
    ∃ image, processFile buffer file = some (image, buffer) ∧ image.Truthful := by
  unfold processFile
  simp only [h]
  refine ⟨_, rfl, ?_, ?_, ?_, ?_⟩
  · simp [RomImage.text]
  · simp
  · rw [List.length_replicate]
    exact padded_aligned _
  · rw [← checksum_eq, List.foldl_append]

/-- A file that is compressed gets a header that is true unless it is empty: the
end of the file counts as a character then. -/
theorem processFile_compressed {file : FileInfo} (h : file.compress = true) :
    ∃ image, processFile [] file = some (image, []) ∧
      (image.Truthful ↔ file.contents ≠ []) := by
  unfold processFile
  rw [if_pos h]
  by_cases hempty : file.contents = []
  · have hcall : compress [] [] = some ([1, -1, 0, 0], []) := by decide
    rw [hempty, hcall]
    refine ⟨_, rfl, fun htrue => ?_, fun hne => absurd rfl hne⟩
    have hsize := htrue.size
    exact absurd hsize (by decide)
  · obtain ⟨out, hcall, hunpack, haligned⟩ := compress_spec hempty
    rw [hcall, Option.bind_some]
    simp only
    rw [hcall, Option.map_some]
    refine ⟨_, rfl, fun _ => hempty, fun _ => ⟨?_, ?_, ?_, ?_⟩⟩
    · unfold RomImage.text
      rw [if_pos rfl, hunpack, Option.map_some]
    · exact (List.length_map outputByte).symm
    · exact haligned
    · exact checksum_eq (out.map outputByte)

theorem processFile_truthful_iff (file : FileInfo) :
    ∃ image, processFile [] file = some (image, []) ∧
      (image.Truthful ↔ ¬ (file.compress = true ∧ file.contents = [])) := by
  cases hcompress : file.compress with
  | false =>
      obtain ⟨image, hprocess, htrue⟩ := processFile_plain [] hcompress
      exact ⟨image, hprocess, fun _ => by simp, fun _ => htrue⟩
  | true =>
      obtain ⟨image, hprocess, htrue⟩ := processFile_compressed hcompress
      exact ⟨image, hprocess, by rw [htrue]; simp⟩

end Milo.Rom
