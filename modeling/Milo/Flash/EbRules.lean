import Milo.Flash.Eb

/-! # What commands keep

A command touches the flash block by block. What erasing and writing certain
blocks keeps is kept by every command that touches no others, and each command
says when it touches a block.
-/

namespace Milo.Flash

open Foundation
open Milo.Env (environId)

section
variable {σ : Type _} {chip : FlashChip σ}

/-! ## The loops -/

/-- What a command keeps that touches the blocks of a set: `P` until it scans or
ends, and `Q` at its end. -/
structure KeptOn (chip : FlashChip σ) (S : Nat → Prop) (P Q : Fmu σ → Prop) : Prop where
  erase : ∀ st blockno, S blockno → P st → P (deleteFlashBlock chip blockno st)
  write : ∀ st data offset, S (offset / flashBlockSize) → P st →
    P (writeFlashByte chip data offset st).2
  label : ∀ st blockno label, S blockno → P st → P (st.label blockno label)
  scan : ∀ st, P st → Q (scanBlocks chip st)
  stay : ∀ st, P st → Q st

/-- The bytes of a block stay while other blocks are touched. -/
theorem keptOn_bytes (chip : FlashChip σ) (e : Nat) (flash : ByteMemory) :
    KeptOn chip (· ≠ e) (fun st => ∀ i, i / flashBlockSize = e → chip.read st.chip i = flash i)
      (fun st => ∀ i, i / flashBlockSize = e → chip.read st.chip i = flash i) where
  erase st blockno hne h i hi := by
    have hother : i / flashBlockSize ≠ blockno := fun heq => hne (heq ▸ hi)
    exact (chip.read_erase st.chip blockno i hother).trans (h i hi)
  write st data offset hne h i hi := by
    have hother : i / flashBlockSize ≠ offset / flashBlockSize := fun heq => hne (heq ▸ hi)
    exact (chip.read_write st.chip data offset i hother).trans (h i hi)
  label _ _ _ _ h := h
  scan _ h := h
  stay _ h := h

section
variable {S : Nat → Prop} {P Q : Fmu σ → Prop}

theorem KeptOn.deleteStretch (h : KeptOn chip S P Q)
    {imageno : Int} {n first : Nat} {st : Fmu σ}
    (hS : ∀ b, first ≤ b → b < first + n → (∀ i, first ≤ i → i ≤ b → st.blocks i = imageno) → S b)
    (hP : P st) : P (deleteStretch chip imageno n first st) := by
  induction n generalizing first st with
  | zero => exact hP
  | succ n ih =>
      unfold Flash.deleteStretch
      split
      · rename_i hlabel
        have hfirst : S first := by
          apply hS first (Nat.le_refl _) (by omega)
          intro i hlo hhi
          rwa [show i = first by omega]
        apply ih _ (h.erase st first hfirst hP)
        intro b hlo hhi hlabels
        apply hS b (by omega) (by omega)
        intro i hi hib
        rcases Nat.lt_or_ge first i with hlt | hge
        · exact hlabels i hlt hib
        · rwa [show i = first by omega]
      · exact hP

theorem KeptOn.programBytes (h : KeptOn chip S P Q)
    (image : ByteMemory) {blockno : Nat} (hS : S blockno) {n flashOffset imageOffset : Nat}
    {st : Fmu σ} (hlo : blockno * flashBlockSize ≤ flashOffset)
    (hhi : flashOffset + n ≤ (blockno + 1) * flashBlockSize) (hP : P st) :
    P (programBytes chip image n flashOffset imageOffset st).2 := by
  induction n generalizing flashOffset imageOffset st with
  | zero => exact hP
  | succ n ih =>
      have hblock : flashOffset / flashBlockSize = blockno := by
        unfold flashBlockSize at *
        omega
      have hwrite := h.write st (image imageOffset) flashOffset (by rwa [hblock]) hP
      unfold Flash.programBytes
      simp only
      split
      · exact hwrite
      · split
        · exact hwrite
        · exact ih (by omega) (by omega) hwrite

theorem KeptOn.programBlocks (h : KeptOn chip S P Q)
    (image : ByteMemory) {n first imageOffset : Nat} {st : Fmu σ}
    (hS : ∀ b, first ≤ b → b < first + n → S b) (hP : P st) :
    P (programBlocks chip image n first imageOffset st).2 := by
  induction n generalizing first imageOffset st with
  | zero => exact hP
  | succ n ih =>
      have hfirst := hS first (Nat.le_refl _) (by omega)
      have hbytes : P (Flash.programBytes chip image flashBlockSize (first * flashBlockSize)
          imageOffset ((deleteFlashBlock chip first st).label first unused)).2 :=
        h.programBytes image hfirst (Nat.le_refl _) (by rw [Nat.add_mul, Nat.one_mul])
          (h.label _ first unused hfirst (h.erase st first hfirst hP))
      unfold Flash.programBlocks
      simp only
      split
      · rename_i heq
        rwa [heq] at hbytes
      · rename_i heq
        rw [heq] at hbytes
        exact ih (fun b hlo hhi => hS b (by omega) (by omega)) hbytes

theorem KeptOn.writeMarker (h : KeptOn chip S P Q)
    {blockno : Nat} (hS : S blockno) {marker : List UInt8} {offset : Nat} {st : Fmu σ}
    (hlo : blockno * flashBlockSize ≤ offset)
    (hhi : offset + marker.length ≤ (blockno + 1) * flashBlockSize) (hP : P st) :
    P (writeMarker chip marker offset st).2 := by
  induction marker generalizing offset st with
  | nil => exact hP
  | cons c marker ih =>
      rw [List.length_cons] at hhi
      have hblock : offset / flashBlockSize = blockno := by
        unfold flashBlockSize at *
        omega
      have hwrite := h.write st c offset (by rwa [hblock]) hP
      unfold Flash.writeMarker
      simp only
      split
      · exact hwrite
      · exact ih (by omega) (by omega) hwrite

/-! ## The commands -/

theorem KeptOn.ebDeleteBlock (h : KeptOn chip S P Q) {blockno : Int} {really : Bool} {st : Fmu σ}
    (hS : 0 ≤ blockno → st.blocks blockno.toNat ≠ 0 → really = true → S blockno.toNat)
    (hP : P st) : Q (ebDeleteBlock chip blockno really st).2 := by
  unfold Flash.ebDeleteBlock
  split
  · exact h.stay st hP
  · split
    · exact h.stay st hP
    · split
      · exact h.stay st hP
      · rename_i hrange hlabel hreally
        have hin := hS (by omega) hlabel (by simpa using hreally)
        exact h.scan _ (h.erase st blockno.toNat hin hP)

theorem KeptOn.ebDeleteImage (h : KeptOn chip S P Q) {image : List UInt8} {really : Bool}
    {st : Fmu σ}
    (hS : ∀ first b, imageNumber image ≠ 0 → findImage st.blocks (imageNumber image) = some first →
      really = true → first ≤ b → (∀ i, first ≤ i → i ≤ b → st.blocks i = imageNumber image) → S b)
    (hP : P st) : Q (ebDeleteImage chip image really st).2 := by
  unfold Flash.ebDeleteImage
  simp only
  split
  · exact h.stay st hP
  · rename_i himage
    split
    · exact h.stay st hP
    · rename_i first hfound
      split
      · exact h.stay st hP
      · rename_i hreally
        exact h.scan _ (h.deleteStretch (fun b hlo _ hlabels =>
          hS first b himage hfound (by simpa using hreally) hlo hlabels) hP)

/-- Setting the labels of an image free keeps those of another one. -/
theorem freeImage_other {blocks : Labels} {imageno label : Int} (himage : imageno ≠ label) {b : Nat}
    (hb : blocks b = label) : freeImage blocks imageno b = label := by
  unfold freeImage
  rw [if_neg]
  · exact hb
  · rintro ⟨_, heq⟩
    exact himage (heq ▸ hb)

theorem programTarget_other {blocks : Labels} {header : RomHeader} {label : Int}
    (himage : header.fwId ≠ label) (answers : ProgramAnswers) {b : Nat} (hb : blocks b = label) :
    (programTarget blocks header answers).2 b = label := by
  unfold programTarget
  split
  · exact freeImage_other himage hb
  · exact hb

/-- The test for blocks in use lets an image pass only if all its blocks are free. -/
theorem unused_of_not_any {blocks : Labels} {first n : Nat}
    (h : ¬ ((List.range' first n).any fun i => blocks i != unused) = true) {b : Nat}
    (hlo : first ≤ b) (hhi : b < first + n) : blocks b = unused := by
  by_contra hne
  apply h
  rw [List.any_eq_true]
  exact ⟨b, List.mem_range'_1.mpr ⟨hlo, hhi⟩, bne_iff_ne.mpr hne⟩

theorem KeptOn.programAt (h : KeptOn chip S P Q) {image : ByteMemory} {imageBlocks : Nat}
    {blockno : Int} {really : Bool} {st : Fmu σ}
    (hS : 0 ≤ blockno → blockno.toNat + imageBlocks ≤ flashBlocks → really = true →
      (∀ b, blockno.toNat ≤ b → b < blockno.toNat + imageBlocks → st.blocks b = unused) →
      ∀ b, blockno.toNat ≤ b → b < blockno.toNat + imageBlocks → S b)
    (hP : P st) : Q (programAt chip image imageBlocks blockno really st).2 := by
  unfold Flash.programAt
  split
  · exact h.stay st hP
  · split
    · exact h.scan st hP
    · split
      · exact h.stay st hP
      · split
        · exact h.scan st hP
        · rename_i hrange hroom hfree hreally
          have hin := hS (by omega) (by omega) (by simpa using hreally) fun b hlo hhi =>
            unused_of_not_any hfree hlo hhi
          have hblocks : P (Flash.programBlocks chip image imageBlocks blockno.toNat 0 st).2 :=
            h.programBlocks image hin hP
          split
          · rename_i heq
            rw [heq] at hblocks
            exact h.stay _ hblocks
          · rename_i heq
            rw [heq] at hblocks
            exact h.scan _ hblocks

theorem KeptOn.ebEnv (h : KeptOn chip S P Q) {blockno : Int} {st : Fmu σ}
    (hS : 0 ≤ blockno → findNvram (chip.read st.chip) = none →
      st.blocks blockno.toNat = unused → S blockno.toNat)
    (hP : P st) : Q (ebEnv chip blockno st).2 := by
  unfold Flash.ebEnv
  split
  · exact h.stay st hP
  · rename_i hrange
    split
    · exact h.stay st hP
    · rename_i hnone
      split
      · exact h.stay st hP
      · rename_i hfree
        have hin := hS (by omega) hnone (not_not.mp hfree)
        have hfits : environId.chars.length ≤ flashBlockSize := by decide
        have hmarker := h.writeMarker hin (Nat.le_refl _)
          (by rw [Nat.add_mul, Nat.one_mul]; exact Nat.add_le_add_left hfits _)
          (h.erase st blockno.toNat hin hP)
        unfold createEnvironment
        split
        · rename_i heq
          rw [heq] at hmarker
          exact h.scan _ hmarker
        · rename_i heq
          rw [heq] at hmarker
          exact h.stay _ (h.label _ blockno.toNat 7 hin hmarker)

end

end

end Milo.Flash
