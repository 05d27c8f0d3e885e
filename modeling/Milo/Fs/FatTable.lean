import Milo.Foundation.Guarded
import Milo.Fs.DosVolume

/-! # The translated table

`translate_fat` with its accesses of the buffer that the table was read into. It
makes an entry of each whole entry in the buffer, so no word that it reads sticks
out of the buffer, not even the last one of a table of 12-bit entries.
-/

namespace Milo.Fs.Dos

open Foundation
open Foundation.Guarded

/-- `read_fat`, for a buffer of some size. -/
def guardedReadFat (fatBits : Nat) (tfat : ByteMemory) (size offset : Nat) : Guarded Nat := do
  access (if fatBits = 16 then offset * 2 else offset * 3 / 2) 2 size
  .ok (readFat fatBits tfat offset)

/-- `translate_fat`, for a buffer of the size that is asked for. -/
def guardedTranslateFat (device : Device) (sb : MsdosSb) : Guarded (Option (List Nat)) := do
  let size := sectorSize * sb.fatLength
  let bytesRead := device.count (sb.fatStart * sectorSize) size
  if bytesRead ≠ size then .ok none
  else
    let sizeInWords := if sb.fatBits = 16 then bytesRead / 2 else bytesRead * 2 / 3
    let tfat := fun i => device.contents (sb.fatStart * sectorSize + i)
    let fat ← (List.range sizeInWords).mapM (guardedReadFat sb.fatBits tfat size)
    .ok (some fat)

/-- How many whole entries there are in some bytes. -/
def wholeEntries (fatBits bytes : Nat) : Nat := bytes * 8 / fatBits

section
variable {fatBits bytes offset : Nat}

theorem sizeInWords_eq (hbits : fatBits = 16 ∨ fatBits = 12) (bytes : Nat) :
    (if fatBits = 16 then bytes / 2 else bytes * 2 / 3) = wholeEntries fatBits bytes := by
  unfold wholeEntries
  rcases hbits with rfl | rfl
  · rw [if_pos rfl]
    omega
  · rw [if_neg (by decide)]
    omega

/-- The word that an entry is taken from lies in the bytes of whole entries. -/
theorem index_inside (hbits : fatBits = 16 ∨ fatBits = 12)
    (h : offset < wholeEntries fatBits bytes) :
    (if fatBits = 16 then offset * 2 else offset * 3 / 2) + 2 ≤ bytes := by
  unfold wholeEntries at h
  rcases hbits with rfl | rfl
  · rw [if_pos rfl]
    omega
  · rw [if_neg (by decide)]
    omega

theorem guardedReadFat_eq (hbits : fatBits = 16 ∨ fatBits = 12) (tfat : ByteMemory)
    (h : offset < wholeEntries fatBits bytes) :
    guardedReadFat fatBits tfat bytes offset = .ok (readFat fatBits tfat offset) := by
  have haccess : access (if fatBits = 16 then offset * 2 else offset * 3 / 2) 2 bytes = .ok () :=
    access_eq_ok.mpr (.inr (index_inside hbits h))
  rw [guardedReadFat, haccess]
  rfl

end

section
variable {device : Device} {sb : MsdosSb}

theorem guardedTranslateFat_eq (hbits : sb.fatBits = 16 ∨ sb.fatBits = 12) :
    guardedTranslateFat device sb = .ok (translateFat device sb) := by
  unfold guardedTranslateFat translateFat
  simp only
  split
  · rfl
  · rename_i hread
    rw [Decidable.not_not] at hread
    rw [mapM_ok fun offset hoffset => guardedReadFat_eq hbits _ ?_]
    · rfl
    · rw [List.mem_range, sizeInWords_eq hbits, hread] at hoffset
      exact hoffset

theorem translateFat_eq (hbits : sb.fatBits = 16 ∨ sb.fatBits = 12)
    (hread : device.count (sb.fatStart * sectorSize) (sectorSize * sb.fatLength) =
      sectorSize * sb.fatLength) :
    translateFat device sb =
      some ((List.range (wholeEntries sb.fatBits (sectorSize * sb.fatLength))).map
        (readFat sb.fatBits fun a => device.contents (sb.fatStart * sectorSize + a))) := by
  rw [translateFat, if_neg (not_not.mpr hread)]
  simp only [hread]
  rw [sizeInWords_eq hbits]

/-- A table that is read completely is translated without a read outside the
buffer, to the values that the format gives to all its whole entries. -/
theorem translateFat_decodes (hbits : sb.fatBits = 16 ∨ sb.fatBits = 12)
    (hlength : sb.fatLength < 2 ^ 16)
    (hread : device.count (sb.fatStart * sectorSize) (sectorSize * sb.fatLength) =
      sectorSize * sb.fatLength) :
    ∃ fat, guardedTranslateFat device sb = .ok (some fat) ∧
      fat.length = wholeEntries sb.fatBits (sectorSize * sb.fatLength) ∧
      ∀ i (h : i < fat.length), fat[i] =
        entryValue sb.fatBits (fun a => device.contents (sb.fatStart * sectorSize + a)) i := by
  refine ⟨_, (guardedTranslateFat_eq hbits).trans (congrArg _ (translateFat_eq hbits hread)), ?_, ?_⟩
  · rw [List.length_map, List.length_range]
  · intro i h
    rw [List.length_map, List.length_range] at h
    have hsmall : i < 2 ^ 32 := by
      have hinside := index_inside hbits h
      rw [sectorSize] at hinside
      split at hinside <;> omega
    rw [List.getElem_map, List.getElem_range]
    exact readFat_value hbits hsmall

end

/-- Two sectors of 12-bit entries, the last of which ends in the middle of a byte. -/
theorem two_sectors_decoded :
    ∃ fat, guardedTranslateFat (.sound fun a => UInt8.ofNat a) ⟨1, 1, 12, 1, 2, 3, 16, 4, 600⟩ =
        .ok (some fat) ∧
      fat.length = 682 ∧
      ∀ i (h : i < fat.length), fat[i] =
        entryValue 12 (fun a => UInt8.ofNat (512 + a)) i :=
  translateFat_decodes (.inr rfl) (by decide) rfl

end Milo.Fs.Dos
