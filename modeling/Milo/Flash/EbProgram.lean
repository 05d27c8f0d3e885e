import Milo.Flash.EbMonitor

/-! # Programming an image

An image goes to blocks whose labels are free, or were its own until the user
agreed to overwrite it. The number of these blocks comes from the size in the
header, which is taken in 32 bits.
-/

namespace Milo.Flash

open Foundation

section
variable {σ : Type _} {chip : FlashChip σ} {image : ByteMemory}

/-- A write that reports success changes no byte but its own. -/
def FlashChip.ByteExact (chip : FlashChip σ) : Prop :=
  ∀ c data offset, (chip.write c data offset).1 = true →
    ∀ i, i ≠ offset → chip.read (chip.write c data offset).2 i = chip.read c i

/-! ## The loops -/

/-- When the loop over the bytes runs to its end, they are written and all others
are as before. -/
theorem programBytes_none (hexact : chip.ByteExact) {n flashOffset imageOffset : Nat}
    {st st' : Fmu σ} (h : programBytes chip image n flashOffset imageOffset st = (none, st')) :
    (∀ k < n, chip.read st'.chip (flashOffset + k) = image (imageOffset + k)) ∧
      ∀ i, i < flashOffset ∨ flashOffset + n ≤ i →
        chip.read st'.chip i = chip.read st.chip i := by
  induction n generalizing flashOffset imageOffset st with
  | zero =>
      cases h
      exact ⟨fun k hk => absurd hk (Nat.not_lt_zero k), fun _ _ => rfl⟩
  | succ n ih =>
      unfold programBytes at h
      simp only at h
      split at h
      · cases h
      · rename_i hstatus
        split at h
        · cases h
        · rename_i hread
          obtain ⟨hbytes, hrest⟩ := ih h
          have hwritten : chip.read st'.chip flashOffset = image imageOffset := by
            rw [hrest flashOffset (.inl (Nat.lt_succ_self _))]
            exact not_not.mp hread
          refine ⟨fun k hk => ?_, fun i hi => ?_⟩
          · cases k with
            | zero => exact hwritten
            | succ k =>
                have hnext := hbytes k (by omega)
                rwa [Nat.add_right_comm, Nat.add_assoc, Nat.add_right_comm, Nat.add_assoc] at hnext
          · rw [hrest i (by omega)]
            apply hexact st.chip _ _ _ i (by omega)
            exact (Bool.not_eq_false _).mp hstatus

theorem programBytes_ne_done (n flashOffset imageOffset : Nat) (st : Fmu σ) :
    (programBytes chip image n flashOffset imageOffset st).1 ≠ some .done := by
  induction n generalizing flashOffset imageOffset st with
  | zero => simp [programBytes]
  | succ n ih =>
      unfold programBytes
      simp only
      split
      · simp
      · split
        · simp
        · exact ih _ _ _

/-- When the loop over the blocks runs to its end, they hold the image. -/
theorem programBlocks_done (hexact : chip.ByteExact) {n first imageOffset : Nat} {st st' : Fmu σ}
    (h : programBlocks chip image n first imageOffset st = (.done, st')) {k : Nat}
    (hk : k < n * flashBlockSize) :
    chip.read st'.chip (first * flashBlockSize + k) = image (imageOffset + k) := by
  induction n generalizing first imageOffset st k with
  | zero =>
      rw [Nat.zero_mul] at hk
      exact absurd hk (Nat.not_lt_zero k)
  | succ n ih =>
      unfold programBlocks at h
      simp only at h
      split at h
      · rename_i report st₁ heq
        have hearly : (programBytes chip image flashBlockSize (first * flashBlockSize) imageOffset
            ((deleteFlashBlock chip first st).label first unused)).1 ≠ some .done :=
          programBytes_ne_done _ _ _ _
        rw [heq, (Prod.mk.inj h).1] at hearly
        exact absurd rfl hearly
      · rename_i st₁ heq
        rcases Nat.lt_or_ge k flashBlockSize with hlt | hge
        · have hlater : ∀ i, i / flashBlockSize = first →
              chip.read st'.chip i = chip.read st₁.chip i := by
            have hkept : ∀ i, i / flashBlockSize = first →
                chip.read (programBlocks chip image n (first + 1) (imageOffset + flashBlockSize)
                  st₁).2.chip i = chip.read st₁.chip i :=
              (keptOn_bytes chip first (chip.read st₁.chip)).programBlocks image
                (fun b hlo _ => by omega) fun _ _ => rfl
            rwa [h] at hkept
          rw [hlater _ (by unfold flashBlockSize at *; omega)]
          exact (programBytes_none hexact heq).1 k hlt
        · have hnext := ih h (k := k - flashBlockSize) (by
            rw [Nat.add_mul, Nat.one_mul] at hk
            omega)
          rwa [show (first + 1) * flashBlockSize + (k - flashBlockSize) =
              first * flashBlockSize + k by rw [Nat.add_mul, Nat.one_mul]; omega,
            show imageOffset + flashBlockSize + (k - flashBlockSize) = imageOffset + k by
              omega] at hnext

/-! ## One command -/

/-- Where the block is known, the chip is touched only after all the checks. -/
theorem programAt_chip {imageBlocks : Nat} {blockno : Int} {really : Bool} {st : Fmu σ}
    (h : (programAt chip image imageBlocks blockno really st).2.chip ≠ st.chip) :
    really = true ∧ 0 ≤ blockno ∧
      ∀ b, blockno.toNat ≤ b → b < blockno.toNat + imageBlocks → st.blocks b = unused := by
  unfold programAt at h
  split at h
  · exact absurd rfl h
  · rename_i hrange
    split at h
    · exact absurd rfl h
    · split at h
      · exact absurd rfl h
      · rename_i hfree
        split at h
        · exact absurd rfl h
        · rename_i hreally
          exact ⟨(Bool.not_eq_false _).mp hreally, by omega,
            fun b hlo hhi => unused_of_not_any hfree hlo hhi⟩

/-- Where it runs to the end, the loop over the blocks has done so. -/
theorem programAt_done {imageBlocks : Nat} {blockno : Int} {really : Bool} {st : Fmu σ}
    (h : (programAt chip image imageBlocks blockno really st).1 = .done) :
    0 ≤ blockno ∧ blockno.toNat + imageBlocks ≤ flashBlocks ∧
      ∃ st', programBlocks chip image imageBlocks blockno.toNat 0 st = (.done, st') ∧
        (programAt chip image imageBlocks blockno really st).2.chip = st'.chip := by
  unfold programAt at h ⊢
  split at h
  · cases h
  · rename_i hrange
    split at h
    · cases h
    · rename_i hroom
      split at h
      · cases h
      · split at h
        · cases h
        · rename_i hfree hreally
          rw [if_neg hrange, if_neg hroom, if_neg hfree, if_neg hreally]
          split at h
          · cases h
          · rename_i report st' hblocks heq
            obtain rfl : report = .done := h
            exact ⟨by omega, by omega, st', heq, rfl⟩

/-- The block of the flash lies where the image is to go. -/
def TargetBlock (image : ByteMemory) (answers : ProgramAnswers) (st : Fmu σ) (b : Nat) : Prop :=
  let header := readFlashHeader image 0
  let blockno := (programTarget st.blocks header answers).1
  blockno ≤ b ∧ b < blockno + header.blocks

/-- The command touches the blocks for the image only, and only if they were free
or the image's own and the user agreed; when it runs to the end, they hold the
image. -/
structure ProgramSound (chip : FlashChip σ) (image : ByteMemory) (answers : ProgramAnswers)
    (st : Fmu σ) : Prop where
  frame : ∀ i, ¬ TargetBlock image answers st (i / flashBlockSize) →
    chip.read (ebProgram chip image answers st).2.chip i = chip.read st.chip i
  consent : (ebProgram chip image answers st).2.chip ≠ st.chip → answers.really = true ∧
    ∀ b, TargetBlock image answers st b →
      st.scanned b = unused ∨ st.scanned b = (readFlashHeader image 0).fwId
  whole : (ebProgram chip image answers st).1 = .done →
    (readFlashHeader image 0).size ≤ (readFlashHeader image 0).blocks * flashBlockSize ∧
      ∃ blockno : Nat, blockno = (programTarget st.blocks (readFlashHeader image 0) answers).1 ∧
        ∀ k < (readFlashHeader image 0).blocks * flashBlockSize,
          chip.read (ebProgram chip image answers st).2.chip (blockno * flashBlockSize + k) =
            image k

/-- Blocks of 64K for the size in the header, where it fits into 32 bits. -/
theorem RomHeader.size_le_blocks {header : RomHeader} (h : header.size < 2 ^ 32) :
    header.size ≤ header.blocks * flashBlockSize := by
  unfold RomHeader.size at h ⊢
  unfold RomHeader.blocks u32 flashBlockSize
  rw [Nat.mod_eq_of_lt (by omega)]
  omega

/-! ## The labels between two scans -/

/-- The label of a block is the one of the last scan, or the block was free then,
or the image's own. -/
def LabelsTraced (own : Int) (st : Fmu σ) : Prop :=
  ∀ b, st.blocks b = st.scanned b ∨ st.scanned b = unused ∨ st.scanned b = own

theorem LabelsTraced.of_unused {own : Int} {st : Fmu σ} (h : LabelsTraced own st) {b : Nat}
    (hb : st.blocks b = unused) : st.scanned b = unused ∨ st.scanned b = own := by
  obtain hsame | hscanned := h b
  · exact .inl (hsame.symm.trans hb)
  · exact hscanned

theorem LabelsTraced.scanBlocks (own : Int) (chip : FlashChip σ) (st : Fmu σ) :
    LabelsTraced own (scanBlocks chip st) := fun _ => .inl rfl

/-- Between scans, free blocks and the image's own may get other labels. -/
theorem keptOn_labelsTraced (chip : FlashChip σ) (own : Int) (scanned : Labels) :
    KeptOn chip (fun b => scanned b = unused ∨ scanned b = own)
      (fun st => LabelsTraced own st ∧ st.scanned = scanned) (LabelsTraced own) where
  erase _ _ _ h := h
  write _ _ _ _ h := h
  label st blockno label hS := by
    rintro ⟨htraced, rfl⟩
    refine ⟨fun b => ?_, rfl⟩
    by_cases hb : b = blockno
    · exact .inr (hb ▸ hS)
    · obtain hsame | hscanned := htraced b
      · exact .inl ((Function.update_of_ne hb _ _).trans hsame)
      · exact .inr hscanned
  scan st _ := .scanBlocks own chip st
  stay _ h := h.1

/-- Setting the image's labels free keeps the trace. -/
theorem LabelsTraced.programTarget {st : Fmu σ} {header : RomHeader}
    (h : LabelsTraced header.fwId st) (answers : ProgramAnswers) :
    LabelsTraced header.fwId
      { st with blocks := (programTarget st.blocks header answers).2 } := by
  intro b
  unfold Flash.programTarget
  split
  · simp only [freeImage]
    split
    · rename_i hown
      obtain hsame | hscanned := h b
      · exact .inr (.inr (hsame.symm.trans hown.2))
      · exact .inr hscanned
    · exact h b
  · exact h b

theorem LabelsTraced.ebProgram {st : Fmu σ} (h : LabelsTraced (readFlashHeader image 0).fwId st)
    (answers : ProgramAnswers) :
    LabelsTraced (readFlashHeader image 0).fwId (ebProgram chip image answers st).2 := by
  unfold Flash.ebProgram
  simp only
  split
  · exact h
  · have htarget := h.programTarget answers
    refine (keptOn_labelsTraced chip _ st.scanned).programAt ?_ ⟨htarget, rfl⟩
    intro _ _ _ hfree b hlo hhi
    exact htarget.of_unused (hfree b hlo hhi)

theorem LabelsTraced.ebDeleteImage {own : Int} {st : Fmu σ} (h : LabelsTraced own st)
    (name : List UInt8) (really : Bool) :
    LabelsTraced own (ebDeleteImage chip name really st).2 := by
  unfold Flash.ebDeleteImage
  simp only
  split
  · exact h
  · split
    · exact h
    · split
      · exact h
      · exact .scanBlocks own chip _

theorem LabelsTraced.ebDeleteBlock {own : Int} {st : Fmu σ} (h : LabelsTraced own st)
    (blockno : Int) (really : Bool) :
    LabelsTraced own (ebDeleteBlock chip blockno really st).2 := by
  unfold Flash.ebDeleteBlock
  split
  · exact h
  · split
    · exact h
    · split
      · exact h
      · exact .scanBlocks own chip _

theorem ebInit_labelsTraced (own : Int) (chip : FlashChip σ) (c : σ) (memory : Labels) :
    LabelsTraced own (ebInit chip c memory) := by
  unfold ebInit
  simp only
  split
  · rename_i block hnvram
    have hfound : findNvram (chip.read c) = some block := hnvram
    intro b
    by_cases hb : b = block
    · subst hb
      rcases Nat.eq_zero_or_pos b with rfl | hpos
      · exact .inr (.inl (scanLabels_first hfound))
      · refine .inl ((Function.update_self b _ _).trans ?_)
        exact (scanLabels_nvram hfound hpos).symm
    · exact .inl (Function.update_of_ne hb _ _)
  · exact .scanBlocks own chip _

/-- A programmed image is the one that is linked to the utility. -/
def Command.Programs (image : ByteMemory) : Command → Prop
  | .program other _ => other = image
  | _ => True

theorem LabelsTraced.fmuStep {st st' : Fmu σ} {command : Command}
    (h : LabelsTraced (readFlashHeader image 0).fwId st) (hcommand : command.Programs image)
    (hstep : fmuStep chip st command = some st') :
    LabelsTraced (readFlashHeader image 0).fwId st' := by
  unfold Flash.fmuStep at hstep
  split at hstep
  · cases hstep
  · rw [← Option.some.inj hstep]
    cases command with
    | program other answers =>
        obtain rfl : other = image := hcommand
        exact h.ebProgram answers
    | deleteImage name really => exact h.ebDeleteImage name really
    | deleteBlock blockno really => exact h.ebDeleteBlock blockno really
    | env blockno =>
        exact (keptOn_labelsTraced chip _ st.scanned).ebEnv
          (fun _ _ hfree => h.of_unused hfree) ⟨h, rfl⟩

/-! ## Every call -/

theorem ebProgram_frame (answers : ProgramAnswers) (st : Fmu σ) {i : Nat}
    (hi : ¬ TargetBlock image answers st (i / flashBlockSize)) :
    chip.read (ebProgram chip image answers st).2.chip i = chip.read st.chip i := by
  unfold ebProgram
  simp only
  split
  · rfl
  · refine (keptOn_bytes chip (i / flashBlockSize) (chip.read st.chip)).programAt ?_ ?_ i rfl
    · rintro hpos _ _ _ b hlo hhi rfl
      exact hi ⟨by omega, by omega⟩
    · exact fun _ _ => rfl

theorem ebProgram_consent {answers : ProgramAnswers} {st : Fmu σ}
    (htraced : LabelsTraced (readFlashHeader image 0).fwId st)
    (h : (ebProgram chip image answers st).2.chip ≠ st.chip) : answers.really = true ∧
      ∀ b, TargetBlock image answers st b →
        st.scanned b = unused ∨ st.scanned b = (readFlashHeader image 0).fwId := by
  unfold ebProgram at h
  simp only at h
  split at h
  · exact absurd rfl h
  · obtain ⟨hreally, hpos, hfree⟩ := programAt_chip h
    refine ⟨hreally, fun b hb => ?_⟩
    obtain ⟨hlo, hhi⟩ := hb
    exact (htraced.programTarget answers).of_unused (hfree b (by omega) (by omega))

/-- A run to the end: the image has been accepted, there was room for its blocks,
and they hold it. -/
theorem ebProgram_done (hexact : chip.ByteExact) {answers : ProgramAnswers} {st : Fmu σ}
    (h : (ebProgram chip image answers st).1 = .done) :
    validFlashHeader (readFlashHeader image 0) = true ∧
      (readFlashHeader image 0).blocks ≤ flashBlocks ∧
      ∃ blockno : Nat, blockno = (programTarget st.blocks (readFlashHeader image 0) answers).1 ∧
        ∀ k < (readFlashHeader image 0).blocks * flashBlockSize,
          chip.read (ebProgram chip image answers st).2.chip (blockno * flashBlockSize + k) =
            image k := by
  unfold ebProgram at h ⊢
  simp only at h ⊢
  split at h
  · cases h
  · rename_i hvalid
    obtain ⟨hpos, hroom, st', hblocks, hchip⟩ := programAt_done h
    rw [if_neg hvalid]
    refine ⟨(Bool.not_eq_false _).mp hvalid, by omega, _, Int.toNat_of_nonneg hpos, fun k hk => ?_⟩
    rw [hchip, programBlocks_done hexact hblocks hk, Nat.zero_add]

end

/-! ## Every image -/

/-- Wherever the utility gets to with an image linked to it, on any flash, its
command to program is sound. -/
def ProgramsSoundly (image : ByteMemory) : Prop :=
  ∀ (σ : Type) (chip : FlashChip σ), chip.ByteExact →
    ∀ (c : σ) (memory : Labels) (commands : List Command) (answers : ProgramAnswers) (st : Fmu σ),
      (∀ command ∈ commands, command.Programs image) →
        run (fmuStep chip) (ebInit chip c memory) commands = some st → st.overrun = false →
          ProgramSound chip image answers st

theorem perfectChip_byteExact : perfectChip.ByteExact :=
  fun _ _ _ _ _ hi => Function.update_of_ne hi _ _

theorem programBytes_perfectChip (image : ByteMemory) (n flashOffset imageOffset : Nat)
    (st : Fmu ByteMemory) :
    (programBytes perfectChip image n flashOffset imageOffset st).1 = none := by
  induction n generalizing flashOffset imageOffset st with
  | zero => rfl
  | succ n ih =>
      have hread : perfectChip.read
          (writeFlashByte perfectChip (image imageOffset) flashOffset st).2.chip flashOffset =
            image imageOffset := Function.update_self flashOffset _ _
      unfold programBytes
      simp only
      have hwrites : ¬ (writeFlashByte perfectChip (image imageOffset) flashOffset st).1 = false :=
        (Bool.not_eq_false _).mpr rfl
      rw [if_neg hwrites, if_neg (not_not.mpr hread)]
      exact ih _ _ _

/-- When a whole block has been written, the loop goes on behind it. -/
theorem programBlocks_next (chip : FlashChip σ) (image : ByteMemory) (n first imageOffset : Nat)
    {st st' : Fmu σ}
    (h : programBytes chip image flashBlockSize (first * flashBlockSize) imageOffset
      ((deleteFlashBlock chip first st).label first unused) = (none, st')) :
    programBlocks chip image (n + 1) first imageOffset st =
      programBlocks chip image n (first + 1) (imageOffset + flashBlockSize) st' := by
  rw [programBlocks, h]

theorem programBlocks_perfectChip (image : ByteMemory) (n first imageOffset : Nat)
    (st : Fmu ByteMemory) : (programBlocks perfectChip image n first imageOffset st).1 = .done := by
  induction n generalizing first imageOffset st with
  | zero => rfl
  | succ n ih =>
      have hbytes := programBytes_perfectChip image flashBlockSize (first * flashBlockSize)
        imageOffset ((deleteFlashBlock perfectChip first st).label first unused)
      rw [programBlocks_next perfectChip image n first imageOffset (Prod.ext hbytes rfl)]
      exact ih _ _ _

theorem programAt_perfectChip (image : ByteMemory) {imageBlocks : Nat} {blockno : Int}
    {st : Fmu ByteMemory} (hpos : 0 ≤ blockno) (hlt : blockno < flashBlocks)
    (hroom : blockno.toNat + imageBlocks ≤ flashBlocks)
    (hfree : ∀ b, blockno.toNat ≤ b → b < blockno.toNat + imageBlocks → st.blocks b = unused) :
    (programAt perfectChip image imageBlocks blockno true st).1 = .done := by
  have hany : ¬ ((List.range' blockno.toNat imageBlocks).any
      fun i => st.blocks i != unused) = true := by
    rw [Bool.not_eq_true, List.any_eq_false]
    intro b hb
    obtain ⟨hlo, hhi⟩ := List.mem_range'_1.mp hb
    rw [hfree b hlo hhi]
    decide
  have hdone := programBlocks_perfectChip image imageBlocks blockno.toNat 0 st
  unfold programAt
  rw [if_neg (by omega), if_neg (by omega), if_neg hany, if_neg (by decide)]
  split
  · rename_i heq
    rw [heq] at hdone
    cases hdone
  · rename_i heq
    rw [heq] at hdone
    exact hdone

/-- A flash with nothing in it. -/
def blankFlash : ByteMemory := flashWith []

/-- The image is to go to block 0. -/
def toBlock0 : ProgramAnswers := ⟨false, [0x30], true⟩

theorem blankFlash_not_valid (a : Nat) : validFlashHeader (headerAt blankFlash a) = false :=
  not_valid_of_first (show (0xff : UInt8) ≠ 0xc3 by decide)

theorem labelFixed_unused {imageno : Int} (himage : imageno ≠ unused) (blockno : Nat)
    {blocks : Labels} (h : ∀ b < flashBlocks, blocks b = unused) :
    labelFixed imageno blockno blocks = blocks := by
  have hnone : findImage blocks imageno = none := by
    apply List.find?_eq_none.mpr
    intro b hb
    have hlt := Nat.lt_of_lt_of_le (List.mem_range.mp hb) (Nat.sub_le flashBlocks 1)
    rw [decide_eq_true_eq, h b hlt]
    exact fun heq => himage heq.1.symm
  rw [labelFixed, hnone]
  rfl

theorem scanLabels_blankFlash (blocks : Labels) {b : Nat} (hb : b < flashBlocks) :
    scanLabels blankFlash blocks b = unused := by
  have himages : ∀ b < flashBlocks, labelImages blankFlash blocks b = unused := fun b hb => by
    rw [labelImages_eq blocks hb, reachingId, lastCovering_eq_none]
    · rfl
    · intro a _ hreaches
      have hvalid := ((reaches_iff a b).mp hreaches).1
      rw [blankFlash_not_valid] at hvalid
      cases hvalid
  rw [scanLabels, labelFixed_unused (by decide) 15 himages, labelFixed_unused (by decide) 14 himages,
    labelFixed_unused (by decide) 14 himages, labelNvram, show findNvram blankFlash = none from rfl]
  exact himages b hb

theorem scanBlocks_blocks (chip : FlashChip σ) (st : Fmu σ) :
    (scanBlocks chip st).blocks = scanLabels (chip.read st.chip) st.blocks := rfl

theorem ebInit_blankFlash :
    (ebInit perfectChip blankFlash fun _ => 0).overrun = false ∧
      ∀ b < flashBlocks, (ebInit perfectChip blankFlash fun _ => 0).blocks b = unused := by
  have hinit : ebInit perfectChip blankFlash (fun _ => 0) =
      scanBlocks perfectChip ⟨blankFlash, fun _ => 0, false, fun _ => 0, []⟩ := by
    rw [ebInit]
    rfl
  rw [hinit]
  refine ⟨scanBlocks_overrun _ fun a _ hvalid => ?_, fun b hb => ?_⟩
  · have hblank : validFlashHeader (headerAt blankFlash a) = true := hvalid
    rw [blankFlash_not_valid] at hblank
    cases hblank
  · rw [scanBlocks_blocks]
    exact scanLabels_blankFlash _ hb

/-- On a blank flash every image is programmed that is taken to have room. -/
theorem ebProgram_blankFlash {image : ByteMemory}
    (hvalid : validFlashHeader (readFlashHeader image 0) = true)
    (hroom : (readFlashHeader image 0).blocks ≤ flashBlocks) :
    (ebProgram perfectChip image toBlock0 (ebInit perfectChip blankFlash fun _ => 0)).1 =
      .done := by
  have htarget : ∀ blocks header, programTarget blocks header toBlock0 = (0, blocks) :=
    fun _ _ => rfl
  unfold ebProgram
  rw [if_neg (by rw [hvalid]; decide), htarget]
  exact programAt_perfectChip image (by decide) (by decide) ((Nat.zero_add _).symm ▸ hroom)
    fun b _ hb => ebInit_blankFlash.2 b (by rw [Int.toNat_zero] at hb; omega)

/-- The command is sound for an image if and only if it is rejected as having no
header or as too large, or its size fits into 32 bits. -/
theorem programsSoundly_iff (image : ByteMemory) : ProgramsSoundly image ↔
    (validFlashHeader (readFlashHeader image 0) = true →
      (readFlashHeader image 0).size < 2 ^ 32 ∨
        flashBlocks < (readFlashHeader image 0).blocks) := by
  constructor
  · intro hsound hvalid
    by_contra hwraps
    obtain ⟨hsize, hroom⟩ := not_or.mp hwraps
    have hwhole := (hsound ByteMemory perfectChip perfectChip_byteExact blankFlash (fun _ => 0) []
      toBlock0 _ (fun _ h => (nomatch h)) rfl ebInit_blankFlash.1).whole
    obtain ⟨hle, -⟩ := hwhole (ebProgram_blankFlash hvalid (by omega))
    have hblocks : (readFlashHeader image 0).blocks * flashBlockSize ≤
      flashBlocks * flashBlockSize := Nat.mul_le_mul_right _ (by omega)
    unfold flashBlocks flashBlockSize at *
    omega
  · intro hfits σ chip hexact c memory commands answers st hcommands hrun _
    have hmeets : StepsMeet (fmuStep chip) (fun _ command => command.Programs image)
        (ebInit chip c memory) commands :=
      stepsMeet_of_forall fun command h _ => hcommands command h
    have htraced := run_invariant (fun _ _ _ h hok hstep => LabelsTraced.fmuStep h hok hstep)
      (ebInit_labelsTraced _ chip c memory) hmeets hrun
    refine ⟨fun i hi => ebProgram_frame answers st hi, ebProgram_consent htraced, fun hdone => ?_⟩
    obtain ⟨hvalid, hroom, hbytes⟩ := ebProgram_done hexact hdone
    refine ⟨?_, hbytes⟩
    obtain hsize | hlarge := hfits hvalid
    · exact RomHeader.size_le_blocks hsize
    · exact absurd hlarge (by omega)

/-- An image whose size in the header is 4 GB, for which one block is taken. -/
def wrappingImage : ByteMemory := flashWith [(0, headerBytes 7 (2 ^ 32 - 0x34))]

theorem whole_image_not_programmed : ¬ ProgramSound perfectChip wrappingImage toBlock0
    (ebInit perfectChip blankFlash fun _ => 0) := by
  intro hsound
  have hheader : validFlashHeader (readFlashHeader wrappingImage 0) = true ∧
      (readFlashHeader wrappingImage 0).blocks = 1 ∧
      (readFlashHeader wrappingImage 0).size = 2 ^ 32 := by
    decide +kernel
  obtain ⟨hvalid, hblocks, hsize⟩ := hheader
  obtain ⟨hle, -⟩ := hsound.whole (ebProgram_blankFlash hvalid (by rw [hblocks]; decide))
  rw [hblocks, hsize] at hle
  exact absurd hle (by decide)

end Milo.Flash
