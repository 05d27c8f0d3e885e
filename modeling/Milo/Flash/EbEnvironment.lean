import Milo.Flash.EbMonitor

/-! # The block of the environment

Commands look at the labels only, and the label of the environment is the one of
Milo's images. A block keeps what it holds as long as no command takes it: a
deletion goes through all blocks with one label that lie side by side, and an
image goes to blocks that are free or have just been set free.
-/

namespace Milo.Flash

open Foundation
open Milo.Env (environId)

/-- With these labels, a command erases the block. -/
def Takes (blocks : Labels) (e : Nat) : Command → Prop
  | .program image answers =>
      let header := readFlashHeader image 0
      let target := programTarget blocks header answers
      validFlashHeader header = true ∧ answers.really = true ∧ 0 ≤ target.1 ∧ target.1.toNat ≤ e ∧
        e < target.1.toNat + header.blocks ∧ target.1.toNat + header.blocks ≤ flashBlocks ∧
        ∀ b, target.1.toNat ≤ b → b < target.1.toNat + header.blocks → target.2 b = unused
  | .deleteImage image really =>
      imageNumber image ≠ 0 ∧ really = true ∧
        ∃ first, findImage blocks (imageNumber image) = some first ∧ first ≤ e ∧
          ∀ b, first ≤ b → b ≤ e → blocks b = imageNumber image
  | .deleteBlock blockno really => blockno = e ∧ really = true ∧ blocks e ≠ 0
  | .env _ => False

section
variable {σ : Type _} {chip : FlashChip σ} {e : Nat} {flash : ByteMemory}

/-- The block has not been touched, and holds what it held before. -/
structure BlockKept (chip : FlashChip σ) (e : Nat) (flash : ByteMemory) (st : Fmu σ) : Prop where
  touched : ∀ t ∈ st.touched, t.1 ≠ e
  bytes : ∀ i, i / flashBlockSize = e → chip.read st.chip i = flash i

theorem keptOn_blockKept (chip : FlashChip σ) (e : Nat) (flash : ByteMemory) :
    KeptOn chip (· ≠ e) (BlockKept chip e flash) (BlockKept chip e flash) where
  erase st blockno hne h :=
    ⟨List.forall_mem_cons.mpr ⟨hne, h.touched⟩,
      (keptOn_bytes chip e flash).erase st blockno hne h.bytes⟩
  write st data offset hne h :=
    ⟨List.forall_mem_cons.mpr ⟨hne, h.touched⟩,
      (keptOn_bytes chip e flash).write st data offset hne h.bytes⟩
  label _ _ _ _ h := ⟨h.touched, h.bytes⟩
  scan _ h := ⟨h.touched, h.bytes⟩
  stay _ h := h

theorem BlockKept.ebProgram {st : Fmu σ} (h : BlockKept chip e flash st) {image : ByteMemory}
    {answers : ProgramAnswers} (hspared : ¬ Takes st.blocks e (.program image answers)) :
    BlockKept chip e flash (ebProgram chip image answers st).2 := by
  unfold Flash.ebProgram
  simp only
  split
  · exact h
  · rename_i hvalid
    refine (keptOn_blockKept chip e flash).programAt ?_ ⟨h.touched, h.bytes⟩
    rintro hpos hroom hreally hfree b hlo hhi rfl
    exact hspared ⟨by simpa using hvalid, hreally, hpos, hlo, hhi, hroom, hfree⟩

theorem holdsString_congr {f g : ByteMemory} {string : List UInt8} {offset : Nat}
    (h : ∀ i, offset ≤ i → i < offset + string.length → f i = g i) :
    holdsString f offset string = holdsString g offset string := by
  induction string generalizing offset with
  | nil => rfl
  | cons c string ih =>
      rw [List.length_cons] at h
      unfold holdsString
      rw [h offset (Nat.le_refl _) (by omega), ih fun i hlo hhi => h i (by omega) (by omega)]

/-- While the block holds the marker, there is an environment. -/
theorem BlockKept.findNvram_ne_none {st : Fmu σ} (h : BlockKept chip e flash st)
    (he : e < flashBlocks)
    (hmarker : holdsString flash (e * flashBlockSize) environId.chars = true) :
    findNvram (chip.read st.chip) ≠ none := by
  have hsame : holdsString (chip.read st.chip) (e * flashBlockSize) environId.chars =
      holdsString flash (e * flashBlockSize) environId.chars := by
    apply holdsString_congr
    intro i hlo hhi
    have hlength : environId.chars.length ≤ flashBlockSize := by decide
    apply h.bytes i
    unfold flashBlockSize at *
    omega
  intro hnone
  have hall := List.find?_eq_none.mp hnone e (List.mem_range.mpr he)
  rw [hsame, hmarker] at hall
  exact hall rfl

theorem BlockKept.fmuStep {st st' : Fmu σ} {command : Command} (h : BlockKept chip e flash st)
    (he : e < flashBlocks)
    (hmarker : holdsString flash (e * flashBlockSize) environId.chars = true)
    (hspared : ¬ Takes st.blocks e command) (hstep : fmuStep chip st command = some st') :
    BlockKept chip e flash st' := by
  unfold Flash.fmuStep at hstep
  split at hstep
  · cases hstep
  · rw [← Option.some.inj hstep]
    have hkept := keptOn_blockKept chip e flash
    cases command with
    | program image answers => exact h.ebProgram hspared
    | deleteImage image really =>
        refine hkept.ebDeleteImage ?_ h
        rintro first b himage hfound hreally hlo hlabels rfl
        exact hspared ⟨himage, hreally, first, hfound, hlo, hlabels⟩
    | deleteBlock blockno really =>
        refine hkept.ebDeleteBlock ?_ h
        rintro hpos hlabel hreally rfl
        exact hspared ⟨by omega, hreally, hlabel⟩
    | env blockno =>
        refine hkept.ebEnv ?_ h
        intro _ hnone
        exact absurd hnone (h.findNvram_ne_none he hmarker)

/-- A block that starts with the marker of the environment is not touched, and
holds what it held, as long as no command takes it. -/
theorem environment_kept (chip : FlashChip σ) (c : σ) (memory : Labels) (commands : List Command)
    (he : e < flashBlocks)
    (hmarker : holdsString (chip.read c) (e * flashBlockSize) environId.chars = true)
    (hspared : StepsMeet (fmuStep chip) (fun st command => ¬ Takes st.blocks e command)
      (ebInit chip c memory) commands)
    {st : Fmu σ} (hrun : run (fmuStep chip) (ebInit chip c memory) commands = some st) :
    (∀ t ∈ st.touched, t.1 ≠ e) ∧
      ∀ i, i / flashBlockSize = e → chip.read st.chip i = chip.read c i := by
  have hinit : BlockKept chip e (chip.read c) (ebInit chip c memory) := by
    unfold ebInit
    simp only
    split
    · exact ⟨fun t ht => (nomatch ht), fun _ _ => rfl⟩
    · exact ⟨fun t ht => (nomatch ht), fun _ _ => rfl⟩
  have hkept := run_invariant (fun _ _ _ h hok hstep => BlockKept.fmuStep h he hmarker hok hstep)
    hinit hspared hrun
  exact ⟨hkept.touched, hkept.bytes⟩

/-- The label of the environment keeps the block from every command that acts on
another image. -/
theorem not_takes_of_label {blocks : Labels} (hlabel : blocks e = 7) :
    (∀ image answers, (readFlashHeader image 0).fwId ≠ 7 →
      ¬ Takes blocks e (.program image answers)) ∧
    ∀ image really, imageNumber image ≠ 7 → ¬ Takes blocks e (.deleteImage image really) := by
  refine ⟨fun image answers hid => ?_, fun image really hid => ?_⟩
  · rintro ⟨_, _, _, hlo, hhi, _, hfree⟩
    have hunused := hfree e hlo hhi
    rw [programTarget_other hid answers hlabel] at hunused
    exact absurd hunused (by decide)
  · rintro ⟨_, _, first, _, hle, hlabels⟩
    exact hid ((hlabels e hle (Nat.le_refl e)).symm.trans hlabel)

end

/-! ## Milo and its environment -/

/-- Milo in blocks 8 and 9, and the environment in another block. -/
def miloFlash (e : Nat) : ByteMemory :=
  flashWith [(8, headerBytes 7 flashBlockSize), (e, environId.chars)]

/-- The command to delete Milo. -/
def deleteMilo : Command := .deleteImage [0x6d, 0x69, 0x6c, 0x6f] true

/-- Deleting Milo leaves the environment behind a gap alone. -/
theorem delete_milo_keeps_environment :
    ∃ st, run (fmuStep perfectChip) (ebInit perfectChip (miloFlash 12) fun _ => 0) [deleteMilo] =
        some st ∧ st.touched = [(9, 7), (8, 7)] ∧ (∀ t ∈ st.touched, t.1 ≠ 12) ∧
      ∀ i, i / flashBlockSize = 12 → perfectChip.read st.chip i = miloFlash 12 i := by
  have hrun : (run (fmuStep perfectChip) (ebInit perfectChip (miloFlash 12) fun _ => 0)
      [deleteMilo]).map Fmu.touched = some [(9, 7), (8, 7)] := by decide +kernel
  have hfirst : findImage (ebInit perfectChip (miloFlash 12) fun _ => 0).blocks 7 = some 8 := by
    decide +kernel
  have hgap : (ebInit perfectChip (miloFlash 12) fun _ => 0).blocks 10 = unused := by
    decide +kernel
  have hspared : ¬ Takes (ebInit perfectChip (miloFlash 12) fun _ => 0).blocks 12 deleteMilo := by
    rintro ⟨_, _, first, hfound, _, hlabels⟩
    have heq : 8 = first := Option.some.inj (hfirst.symm.trans hfound)
    have hten := hlabels 10 (by omega) (by decide)
    rw [hgap] at hten
    exact absurd hten (by decide)
  obtain ⟨st, hst, htouched⟩ := Option.map_eq_some_iff.mp hrun
  exact ⟨st, hst, htouched, environment_kept perfectChip (miloFlash 12) _ [deleteMilo] (by decide)
    (by decide +kernel) ⟨hspared, fun _ _ => trivial⟩ hst⟩

/-- Deleting Milo erases the environment in the block behind it. -/
theorem delete_milo_erases_environment :
    holdsString (miloFlash 10) (10 * flashBlockSize) environId.chars = true ∧
      (run (fmuStep perfectChip) (ebInit perfectChip (miloFlash 10) fun _ => 0)
        [deleteMilo]).map Fmu.touched = some [(10, 7), (9, 7), (8, 7)] := by
  decide +kernel

end Milo.Flash
