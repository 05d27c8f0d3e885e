import Milo.Env.Nvram

/-! # The 28F008SA

The chip takes commands that are written to it and tells in a status register
when it is done. Half of it can be reached at a time, and a bit at an I/O port
says which half. Erasing and programming succeed, after any number of polls.
-/

namespace Milo.Flash

open Foundation
open Milo.Env (FlashPart)

/-! ## The chip -/

/-- What a read gives, and what the next write is taken for. -/
inductive ChipMode
  | array
  | identifier
  | program
  | erase
  /-- The status register, which is read so often before it says ready. -/
  | status (busy : Nat)
deriving DecidableEq

structure Chip where
  /-- The bit at port 0x800. -/
  line : Bool
  mode : ChipMode
  /-- The polls that an operation takes. -/
  delay : Nat
  cells : Bool × Nat → UInt8

namespace Chip

/-- A write that is a command. -/
def command (d : UInt8) (c : Chip) : Chip :=
  if d = 0xff then { c with mode := .array }
  else if d = 0x90 then { c with mode := .identifier }
  else if d = 0x40 then { c with mode := .program }
  else if d = 0x20 then { c with mode := .erase }
  else if d = 0x70 then { c with mode := .status 0 }
  else c

def writeb (d : UInt8) (address : Nat) (c : Chip) : Chip :=
  match c.mode with
  | .program =>
      { c with
        mode := .status c.delay
        cells := Function.update c.cells (c.line, address) (c.cells (c.line, address) &&& d) }
  | .erase =>
      if d = 0xd0 then
        { c with
          mode := .status c.delay
          cells := fun cell =>
            if cell.1 = c.line ∧ cell.2 / flashBlockSize = address / flashBlockSize then 0xff
            else c.cells cell }
      else { c with mode := .status 0 }
  | .status (_ + 1) => c
  | .array | .identifier | .status 0 => command d c

def readb (address : Nat) (c : Chip) : UInt8 × Chip :=
  match c.mode with
  | .array => (c.cells (c.line, address), c)
  | .identifier => (if address = 0 then 0x89 else 0xa2, c)
  | .program | .erase | .status 0 => (0x80, c)
  | .status (busy + 1) => (0x00, { c with mode := .status busy })

/-- No operation is under way. -/
def Idle (c : Chip) : Prop := c.mode = .array ∨ c.mode = .identifier ∨ c.mode = .status 0

theorem Idle.writeb {c : Chip} (h : c.Idle) (d : UInt8) (address : Nat) :
    c.writeb d address = c.command d := by
  obtain hmode | hmode | hmode := h
  all_goals simp only [Chip.writeb, hmode]

end Chip

/-! ## The routines -/

/-- `FLASH_BIT_SWITCH_OFFSET` -/
def flashBitSwitchOffset : Nat := 0x80000

/-- The bit for the port and the address in the half of the flash. -/
def place (offset : Nat) : Bool × Nat :=
  if flashBitSwitchOffset ≤ offset then (true, offset - flashBitSwitchOffset) else (false, offset)

/-- `OUTFLASH` -/
def outflash (d : UInt8) (offset : Nat) (c : Chip) : Chip :=
  { c with line := (place offset).1 }.writeb d (place offset).2

/-- `INFLASH` -/
def inflash (offset : Nat) (c : Chip) : UInt8 × Chip :=
  { c with line := (place offset).1 }.readb (place offset).2

/-- `read_flash_byte` -/
def readFlashByte (offset : Nat) (c : Chip) : UInt8 × Chip := inflash offset (outflash 0xff 0 c)

/-- A bound on the polls that are still to come. -/
def ChipMode.polls : ChipMode → Nat → Nat
  | .program, delay => delay + 1
  | .erase, delay => delay + 1
  | .status busy, _ => busy
  | _, _ => 0

theorem polls_decrease (offset : Nat) (c : Chip)
    (h : (inflash offset (outflash 0x70 offset c)).1 &&& 0x80 ≠ 0x80) :
    (inflash offset (outflash 0x70 offset c)).2.mode.polls
        (inflash offset (outflash 0x70 offset c)).2.delay < c.mode.polls c.delay := by
  obtain ⟨line, mode, delay, cells⟩ := c
  unfold inflash outflash Chip.writeb Chip.readb Chip.command at *
  cases mode with
  | status busy => cases busy <;> simp_all [ChipMode.polls]
  | program =>
      cases delay with
      | zero => simp_all
      | succ delay =>
          simp only [ChipMode.polls]
          omega
  | erase => simp_all
  | array => simp_all
  | identifier => simp_all

/-- The loop that polls the status register. -/
def pollStatus (offset : Nat) (c : Chip) : UInt8 × Chip :=
  let r := inflash offset (outflash 0x70 offset c)
  if r.1 &&& 0x80 ≠ 0x80 then pollStatus offset r.2 else r
termination_by c.mode.polls c.delay
decreasing_by exact polls_decrease offset c (by assumption)

/-- The loop over the tries of `write_flash_byte`. -/
def writeTries (data : UInt8) (offset : Nat) : Nat → Chip → Bool × Chip
  | 0, c => (false, c)
  | tries + 1, c =>
      let (status, c) := pollStatus offset (outflash data offset (outflash 0x40 offset c))
      if status &&& 0x10 = 0x10 then writeTries data offset tries c else (true, c)

/-- `write_flash_byte` -/
def writeByte (data : UInt8) (offset : Nat) (c : Chip) : Bool × Chip := writeTries data offset 3 c

/-- `delete_flash_block`; an error is only reported. -/
def deleteBlock (blockno : Nat) (c : Chip) : Chip :=
  let offset := blockno * flashBlockSize
  (pollStatus offset (outflash 0xd0 offset (outflash 0x20 offset c))).2

/-- `check_flash_id` -/
def checkFlashId (c : Chip) : Bool × Chip :=
  let (man, c) := inflash 0 (outflash 0x90 0 c)
  if man ≠ 0x89 then (false, c)
  else
    let (id, c) := inflash 1 c
    (decide (¬ id < 0xA1), c)

/-- `init_28f008sa` -/
def init28f008sa (c : Chip) : Bool × Chip := checkFlashId { c with line := false }

theorem place_injective {i j : Nat} (h : place i = place j) : i = j := by
  unfold place at h
  split at h <;> split at h <;> simp only [Prod.mk.injEq] at h <;> grind

/-- The block of an offset can be seen from its place. -/
theorem same_block_iff {i blockno : Nat} :
    ((place i).1 = (place (blockno * flashBlockSize)).1 ∧
      (place i).2 / flashBlockSize = (place (blockno * flashBlockSize)).2 / flashBlockSize) ↔
      i / flashBlockSize = blockno := by
  unfold place flashBitSwitchOffset flashBlockSize
  split <;> split <;> simp <;> omega

theorem pollStatus_eq {c : Chip} {busy : Nat} (offset : Nat) (h : c.mode = .status busy) :
    pollStatus offset c = (0x80, { c with line := (place offset).1, mode := .status 0 }) := by
  induction busy generalizing c with
  | zero =>
      rw [pollStatus]
      simp [inflash, outflash, Chip.writeb, Chip.readb, Chip.command, h]
  | succ busy ih =>
      have hnext := @ih (inflash offset (outflash 0x70 offset c)).2
        (by simp [inflash, outflash, Chip.writeb, Chip.readb, h])
      rw [pollStatus]
      simp_all [inflash, outflash, Chip.writeb, Chip.readb]

theorem readFlashByte_eq {c : Chip} (h : c.Idle) (offset : Nat) :
    readFlashByte offset c =
      (c.cells (place offset), { c with line := (place offset).1, mode := .array }) := by
  have hidle : ({ c with line := (place 0).1 } : Chip).Idle := h
  unfold readFlashByte inflash outflash
  rw [hidle.writeb]
  rfl

theorem writeByte_eq {c : Chip} (h : c.Idle) (data : UInt8) (offset : Nat) :
    writeByte data offset c = (true, { c with
      line := (place offset).1
      mode := .status 0
      cells := Function.update c.cells (place offset) (c.cells (place offset) &&& data) }) := by
  have hidle : ({ c with line := (place offset).1 } : Chip).Idle := h
  have hsetup : outflash 0x40 offset c =
      { c with line := (place offset).1, mode := .program } := by
    unfold outflash
    rw [hidle.writeb]
    rfl
  have hprogram : outflash data offset (outflash 0x40 offset c) = { c with
      line := (place offset).1
      mode := .status c.delay
      cells := Function.update c.cells (place offset) (c.cells (place offset) &&& data) } := by
    rw [hsetup]
    rfl
  have hpoll := pollStatus_eq offset (congrArg Chip.mode hprogram)
  have hready : ¬ (0x80 : UInt8) &&& 0x10 = 0x10 := by decide
  rw [writeByte, writeTries, hpoll]
  simp only [if_neg hready, hprogram]

theorem erase_eq {c : Chip} (h : c.Idle) (offset : Nat) :
    (pollStatus offset (outflash 0xd0 offset (outflash 0x20 offset c))).2 = { c with
      line := (place offset).1
      mode := .status 0
      cells := fun cell =>
        if cell.1 = (place offset).1 ∧ cell.2 / flashBlockSize = (place offset).2 / flashBlockSize
        then 0xff else c.cells cell } := by
  have hidle : ({ c with line := (place offset).1 } : Chip).Idle := h
  have hsetup : outflash 0x20 offset c = { c with line := (place offset).1, mode := .erase } := by
    unfold outflash
    rw [hidle.writeb]
    rfl
  have herase : outflash 0xd0 offset (outflash 0x20 offset c) = { c with
      line := (place offset).1
      mode := .status c.delay
      cells := fun cell =>
        if cell.1 = (place offset).1 ∧ cell.2 / flashBlockSize = (place offset).2 / flashBlockSize
        then 0xff else c.cells cell } := by
    rw [hsetup]
    simp only [outflash, Chip.writeb, if_true]
  rw [pollStatus_eq offset (congrArg Chip.mode herase), herase]

theorem deleteBlock_eq {c : Chip} (h : c.Idle) (blockno : Nat) :
    deleteBlock blockno c = { c with
      line := (place (blockno * flashBlockSize)).1
      mode := .status 0
      cells := fun cell =>
        if cell.1 = (place (blockno * flashBlockSize)).1 ∧
          cell.2 / flashBlockSize = (place (blockno * flashBlockSize)).2 / flashBlockSize then 0xff
        else c.cells cell } :=
  erase_eq h (blockno * flashBlockSize)

theorem init28f008sa_eq {c : Chip} (h : c.Idle) :
    init28f008sa c = (true, { c with line := false, mode := .identifier }) := by
  have hidle : ({ c with line := false } : Chip).Idle := h
  have hcommand : outflash 0x90 0 { c with line := false } =
      { c with line := false, mode := .identifier } := by
    unfold outflash
    exact hidle.writeb 0x90 0
  unfold init28f008sa checkFlashId
  rw [hcommand]
  rfl

/-! ## The flash as the routines show it -/

/-- A chip between two calls. -/
abbrev IdleChip := {c : Chip // c.Idle}

/-- The byte at an offset. -/
def IdleChip.bytes (c : IdleChip) : ByteMemory := fun offset => (readFlashByte offset c.1).1

theorem IdleChip.bytes_eq (c : IdleChip) (offset : Nat) :
    c.bytes offset = c.1.cells (place offset) := by
  rw [bytes, readFlashByte_eq c.2]

theorem writeByte_idle {c : Chip} (h : c.Idle) (data : UInt8) (offset : Nat) :
    (writeByte data offset c).2.Idle := by
  rw [writeByte_eq h]
  exact .inr (.inr rfl)

theorem deleteBlock_idle {c : Chip} (h : c.Idle) (blockno : Nat) : (deleteBlock blockno c).Idle := by
  rw [deleteBlock_eq h]
  exact .inr (.inr rfl)

theorem init28f008sa_idle {c : Chip} (h : c.Idle) : (init28f008sa c).2.Idle := by
  rw [init28f008sa_eq h]
  exact .inr (.inl rfl)

theorem bytes_written (c : IdleChip) (data : UInt8) (offset : Nat) :
    IdleChip.bytes ⟨(writeByte data offset c.1).2, writeByte_idle c.2 data offset⟩ =
      Function.update c.bytes offset (c.bytes offset &&& data) := by
  funext i
  rw [IdleChip.bytes_eq]
  simp only [writeByte_eq c.2]
  by_cases hi : i = offset
  · rw [hi, Function.update_self, Function.update_self, IdleChip.bytes_eq]
  · rw [Function.update_of_ne hi, Function.update_of_ne fun h => hi (place_injective h),
      IdleChip.bytes_eq]

theorem bytes_erased (c : IdleChip) (blockno i : Nat) :
    IdleChip.bytes ⟨deleteBlock blockno c.1, deleteBlock_idle c.2 blockno⟩ i =
      if i / flashBlockSize = blockno then 0xff else c.bytes i := by
  rw [IdleChip.bytes_eq, IdleChip.bytes_eq]
  simp only [deleteBlock_eq c.2, same_block_iff]

/-- The flash of the boards. -/
def i28f008sa : FlashPart IdleChip where
  read := IdleChip.bytes
  write c data offset :=
    ((writeByte data offset c.1).1, ⟨(writeByte data offset c.1).2, writeByte_idle c.2 data offset⟩)
  erase c blockno := ⟨deleteBlock blockno c.1, deleteBlock_idle c.2 blockno⟩
  init c := ((init28f008sa c.1).1, ⟨(init28f008sa c.1).2, init28f008sa_idle c.2⟩)
  read_write c data offset i hi := by
    rw [bytes_written, Function.update_of_ne fun h => hi (congrArg (· / flashBlockSize) h)]
  read_erase c blockno i hi := by rw [bytes_erased, if_neg hi]

theorem i28f008sa_reliable : i28f008sa.Reliable where
  found c := by
    change (init28f008sa c.1).1 = true
    rw [init28f008sa_eq c.2]
  read_init c := by
    funext i
    change IdleChip.bytes ⟨(init28f008sa c.1).2, _⟩ i = c.bytes i
    rw [IdleChip.bytes_eq, IdleChip.bytes_eq]
    simp only [init28f008sa_eq c.2]
  erased c blockno i _ hi := by
    change IdleChip.bytes ⟨deleteBlock blockno c.1, _⟩ i = 0xff
    rw [bytes_erased, if_pos hi]
  written c data offset _ hff := by
    change (writeByte data offset c.1).1 = true ∧ _ = Function.update c.bytes offset data
    refine ⟨by rw [writeByte_eq c.2], (bytes_written c data offset).trans ?_⟩
    change c.bytes offset = 0xff at hff
    rw [hff]
    exact congrArg (Function.update c.bytes offset) UInt8.neg_one_and

end Milo.Flash
