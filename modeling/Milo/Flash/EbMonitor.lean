import Milo.Flash.EbRules
import Milo.Flash.EbScan
import Milo.Foundation.Transition

/-! # The blocks of the debug monitor

A block is erased or written only if its label is not 0, and between two scans
no command takes that label away from a block. So no block that the last scan
found to be the debug monitor's is touched.
-/

namespace Milo.Flash

open Foundation

section
variable {σ : Type _} {chip : FlashChip σ}

/-- The memory of the labels has room for those of images within the flash. -/
theorem scanBlocks_overrun (st : Fmu σ) (h : ∀ a < flashBlocks,
    validFlashHeader (headerAt (chip.read st.chip) a) = true →
      a * flashBlockSize + (headerAt (chip.read st.chip) a).size ≤ flashBlocks * flashBlockSize) :
    (scanBlocks chip st).overrun = st.overrun := by
  have hroom : (scanWrites (chip.read st.chip)).any (fun i => decide (labelRoom ≤ i)) = false := by
    rw [List.any_eq_false]
    intro i hi
    have hle := writes_le_of_within h hi
    rw [decide_eq_true_eq]
    unfold labelRoom flashBlocks at *
    omega
  exact (congrArg (st.overrun || ·) hroom).trans (Bool.or_false _)


/-- The debug monitor's labels are still those of the last scan, and no block
that had one has been touched. -/
structure MonitorKept (st : Fmu σ) : Prop where
  labels : ∀ b, st.scanned b = 0 → st.blocks b = 0
  touched : ∀ t ∈ st.touched, t.2 ≠ 0

theorem MonitorKept.scanned_ne {st : Fmu σ} (h : MonitorKept st) {b : Nat}
    (hb : st.blocks b ≠ 0) : st.scanned b ≠ 0 := fun hzero => hb (h.labels b hzero)

/-- Between scans, the blocks without the debug monitor's label may be touched. -/
theorem keptOn_monitorKept (chip : FlashChip σ) (scanned : Labels) :
    KeptOn chip (fun b => scanned b ≠ 0) (fun st => MonitorKept st ∧ st.scanned = scanned)
      MonitorKept where
  erase st blockno hS := by
    rintro ⟨hkept, rfl⟩
    exact ⟨⟨hkept.labels, List.forall_mem_cons.mpr ⟨hS, hkept.touched⟩⟩, rfl⟩
  write st data offset hS := by
    rintro ⟨hkept, rfl⟩
    exact ⟨⟨hkept.labels, List.forall_mem_cons.mpr ⟨hS, hkept.touched⟩⟩, rfl⟩
  label st blockno label hS := by
    rintro ⟨hkept, rfl⟩
    refine ⟨⟨fun b hb => ?_, hkept.touched⟩, rfl⟩
    have hne : b ≠ blockno := fun heq => hS (heq ▸ hb)
    exact (Function.update_of_ne hne _ _).trans (hkept.labels b hb)
  scan _ h := ⟨fun _ hb => hb, h.1.touched⟩
  stay _ h := h.1

theorem MonitorKept.ebProgram {st : Fmu σ} (h : MonitorKept st) {image : ByteMemory}
    (himage : validFlashHeader (readFlashHeader image 0) = true →
      (readFlashHeader image 0).fwId ≠ 0)
    (answers : ProgramAnswers) : MonitorKept (ebProgram chip image answers st).2 := by
  unfold Flash.ebProgram
  simp only
  split
  · exact h
  · rename_i hvalid
    have hid := himage (by simpa using hvalid)
    have hfreed : MonitorKept { st with
        blocks := (programTarget st.blocks (readFlashHeader image 0) answers).2 } :=
      ⟨fun b hb => programTarget_other hid answers (h.labels b hb), h.touched⟩
    refine (keptOn_monitorKept chip st.scanned).programAt ?_ ⟨hfreed, rfl⟩
    intro _ _ _ hfree b hlo hhi
    apply hfreed.scanned_ne
    rw [hfree b hlo hhi]
    decide

theorem ebInit_monitorKept (chip : FlashChip σ) (c : σ) (memory : Labels) :
    MonitorKept (ebInit chip c memory) := by
  have hscan : MonitorKept (scanBlocks chip ⟨c, memory, false, memory, []⟩) :=
    ⟨fun _ hb => hb, fun t ht => (nomatch ht)⟩
  unfold ebInit
  simp only
  split
  · rename_i block hnvram
    have hfound : findNvram (chip.read c) = some block := hnvram
    have hlabel : scanLabels (chip.read c) memory block ≠ 0 := by
      rcases Nat.eq_zero_or_pos block with rfl | hpos
      · rw [scanLabels_first hfound]
        decide
      · rw [scanLabels_nvram hfound hpos]
        decide
    exact ((keptOn_monitorKept chip _).label _ block 7 hlabel ⟨hscan, rfl⟩).1
  · exact hscan

/-- The programmed image, if there is one, has another firmware id. -/
def Command.SparesMonitor : Command → Prop
  | .program image _ =>
      validFlashHeader (readFlashHeader image 0) = true → (readFlashHeader image 0).fwId ≠ 0
  | _ => True

theorem MonitorKept.fmuStep {st st' : Fmu σ} {command : Command} (h : MonitorKept st)
    (hcommand : command.SparesMonitor) (hstep : fmuStep chip st command = some st') :
    MonitorKept st' := by
  unfold Flash.fmuStep at hstep
  split at hstep
  · cases hstep
  · rw [← Option.some.inj hstep]
    cases command with
    | program image answers => exact h.ebProgram hcommand answers
    | deleteImage image really =>
        refine (keptOn_monitorKept chip st.scanned).ebDeleteImage ?_ ⟨h, rfl⟩
        intro first b himage _ _ hlo hlabels
        apply h.scanned_ne
        rw [hlabels b hlo (Nat.le_refl b)]
        exact himage
    | deleteBlock blockno really =>
        exact (keptOn_monitorKept chip st.scanned).ebDeleteBlock
          (fun _ hlabel _ => h.scanned_ne hlabel) ⟨h, rfl⟩
    | env blockno =>
        refine (keptOn_monitorKept chip st.scanned).ebEnv ?_ ⟨h, rfl⟩
        intro _ _ hfree
        apply h.scanned_ne
        rw [hfree]
        decide

/-- Whatever the flash holds and whatever the chip does, no command touches a
block that the last scan labelled 0. -/
theorem debug_monitor_kept (chip : FlashChip σ) (c : σ) (memory : Labels)
    (commands : List Command) (hcommands : ∀ command ∈ commands, command.SparesMonitor)
    {st : Fmu σ} (hrun : run (fmuStep chip) (ebInit chip c memory) commands = some st) :
    ∀ t ∈ st.touched, t.2 ≠ 0 := by
  have hmeets : StepsMeet (fmuStep chip) (fun _ command => command.SparesMonitor)
      (ebInit chip c memory) commands := stepsMeet_of_forall fun command h _ => hcommands command h
  have hkept := run_invariant (fun _ _ _ h hok hstep => MonitorKept.fmuStep h hok hstep)
    (ebInit_monitorKept chip c memory) hmeets hrun
  exact hkept.touched

end

/-! ## A small run -/

/-- A chip on which nothing fails. -/
def perfectChip : FlashChip ByteMemory where
  read c := c
  write c data offset := (true, Function.update c offset data)
  erase c blockno i := if i / flashBlockSize = blockno then 0xff else c i
  read_write c data offset i hi := by
    apply Function.update_of_ne
    rintro rfl
    exact hi rfl
  read_erase c blockno i hi := if_neg hi

/-- The debug monitor in the first three blocks. -/
def monitorFlash : ByteMemory := flashWith [(0, headerBytes 0 (2 * flashBlockSize))]

/-- The debug monitor is asked for by name and by block, and then a free block. -/
def deletions : List Command :=
  [.deleteImage [0x64, 0x62, 0x6d] true, .deleteBlock 2 true, .deleteBlock 5 true]

theorem deletions_keep_monitor :
    ∃ st, run (fmuStep perfectChip) (ebInit perfectChip monitorFlash fun _ => 0) deletions =
        some st ∧ st.touched = [(5, unused)] ∧ ∀ t ∈ st.touched, t.2 ≠ 0 := by
  have hrun : (run (fmuStep perfectChip) (ebInit perfectChip monitorFlash fun _ => 0)
      deletions).map Fmu.touched = some [(5, unused)] := by decide +kernel
  obtain ⟨st, hst, htouched⟩ := Option.map_eq_some_iff.mp hrun
  refine ⟨st, hst, htouched, debug_monitor_kept perfectChip monitorFlash _ deletions ?_ hst⟩
  intro command hcommand
  simp only [deletions, List.mem_cons, List.not_mem_nil, or_false] at hcommand
  rcases hcommand with rfl | rfl | rfl
  · trivial
  · trivial
  · trivial

end Milo.Flash
