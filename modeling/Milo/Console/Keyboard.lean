import Mathlib.Data.List.Induction
import Milo.Foundation.Concat
import Milo.Foundation.Words

/-! # The keyboard

`kbd_getc_with_timeout` polls the keyboard and looks the scan code of a key up in one of
three tables. A single state, kept from one call to the next, stands for the modifiers: it
does not know both of them at once, and Ctrl overrides Shift.
-/

namespace Milo.Console

open Foundation

/-! ## Tables -/

/-- `KB_CTRL` -/
def kbCtrl : UInt8 := 0xf0

/-- `KB_SHIFT` -/
def kbShift : UInt8 := 0xf1

/-- `KB_CAPSLOCK` -/
def kbCapslock : UInt8 := 0xf2

/-- `KB_NUMLOCK` -/
def kbNumlock : UInt8 := 0

/-- `KB_SCRLOCK` -/
def kbScrlock : UInt8 := 0

/-- `KB_ALT` -/
def kbAlt : UInt8 := 0

/-- `plain_charmap` -/
def plainCharmap : List UInt8 :=
  [0x00, 0x1b, 0x31, 0x32, 0x33, 0x34, 0x35, 0x36,
   0x37, 0x38, 0x39, 0x30, 0x2d, 0x3d, 0x08, 0x09,
   0x71, 0x77, 0x65, 0x72, 0x74, 0x79, 0x75, 0x69,
   0x6f, 0x70, 0x5b, 0x5d, 0x0d, kbCtrl, 0x61, 0x73,
   0x64, 0x66, 0x67, 0x68, 0x6a, 0x6b, 0x6c, 0x3b,
   0x27, 0x60, kbShift, 0x5c, 0x7a, 0x78, 0x63, 0x76,
   0x62, 0x6e, 0x6d, 0x2c, 0x2e, 0x2f, kbShift, 0x2a,
   kbAlt, 0x20, kbCapslock, 0x00, 0x00, 0x00, 0x00, 0x00,
   0x00, 0x00, 0x00, 0x00, 0x00, kbNumlock, kbScrlock, 0x37,
   0x38, 0x39, 0x2d, 0x34, 0x35, 0x36, 0x2b, 0x31,
   0x32, 0x33, 0x30, 0x2e, 0x00, 0x00, 0x00, 0x00,
   0x00, 0x00, 0x00, 0x00, 0x00, 0x00, 0x00, 0x00,
   0x00, 0x00, 0x00, 0x00, 0x00, 0x00, 0x00, 0x00,
   0x00, 0x00, 0x00, 0x00, 0x00, 0x00, 0x00, 0x00,
   0x00, 0x00, 0x00, 0x00, 0x00, 0x00, 0x00, 0x00,
   0x00, 0x00, 0x00, 0x00, 0x00, 0x00, 0x00, 0x00]

/-- `shift_charmap` -/
def shiftCharmap : List UInt8 :=
  [0x00, 0x1b, 0x21, 0x40, 0x23, 0x24, 0x25, 0x5e,
   0x26, 0x2a, 0x28, 0x29, 0x5f, 0x2b, 0x08, 0x09,
   0x51, 0x57, 0x45, 0x52, 0x54, 0x59, 0x55, 0x49,
   0x4f, 0x50, 0x7b, 0x7d, 0x0d, kbCtrl, 0x41, 0x53,
   0x44, 0x46, 0x47, 0x48, 0x4a, 0x4b, 0x4c, 0x3a,
   0x22, 0x7e, kbShift, 0x7c, 0x5a, 0x58, 0x43, 0x56,
   0x42, 0x4e, 0x4d, 0x3c, 0x3e, 0x3f, kbShift, 0x2a,
   kbAlt, 0x20, kbCapslock, 0x00, 0x00, 0x00, 0x00, 0x00,
   0x00, 0x00, 0x00, 0x00, 0x00, kbNumlock, kbScrlock, 0x37,
   0x38, 0x39, 0x2d, 0x34, 0x35, 0x36, 0x2b, 0x31,
   0x32, 0x33, 0x30, 0x2e, 0x00, 0x00, 0x00, 0x00,
   0x00, 0x00, 0x00, 0x00, 0x00, 0x00, 0x00, 0x00,
   0x00, 0x00, 0x00, 0x00, 0x00, 0x00, 0x00, 0x00,
   0x00, 0x00, 0x00, 0x00, 0x00, 0x00, 0x00, 0x00,
   0x00, 0x00, 0x00, 0x00, 0x00, 0x00, 0x00, 0x00,
   0x00, 0x00, 0x00, 0x00, 0x00, 0x00, 0x00, 0x00]

/-- `ctrl_charmap` -/
def ctrlCharmap : List UInt8 :=
  [0x00, 0x1b, 0x31, 0x00, 0x1b, 0x1c, 0x1d, 0x1e,
   0x1f, 0x7f, 0x39, 0x30, 0x2d, 0x3d, 0x18, 0x09,
   0x11, 0x17, 0x05, 0x12, 0x14, 0x19, 0x15, 0x09,
   0x0f, 0x10, 0x1b, 0x1d, 0x0d, kbCtrl, 0x01, 0x13,
   0x04, 0x06, 0x07, 0x08, 0x0a, 0x0b, 0x0c, 0x3b,
   0x27, 0x1e, kbShift, 0x1c, 0x1a, 0x18, 0x03, 0x16,
   0x02, 0x0e, 0x0d, 0x2c, 0x2e, 0x2f, kbShift, 0x2a,
   kbAlt, 0x00, kbCapslock, 0x00, 0x00, 0x00, 0x00, 0x00,
   0x00, 0x00, 0x00, 0x00, 0x00, kbNumlock, kbScrlock, 0x37,
   0x38, 0x39, 0x2d, 0x34, 0x35, 0x36, 0x2b, 0x31,
   0x32, 0x33, 0x30, 0x2e, 0x00, 0x00, 0x00, 0x00,
   0x00, 0x00, 0x00, 0x00, 0x00, 0x00, 0x00, 0x00,
   0x00, 0x00, 0x00, 0x00, 0x00, 0x00, 0x00, 0x00,
   0x00, 0x00, 0x00, 0x00, 0x00, 0x00, 0x00, 0x00,
   0x00, 0x00, 0x00, 0x00, 0x00, 0x00, 0x00, 0x00,
   0x00, 0x00, 0x00, 0x00, 0x00, 0x00, 0x00, 0x00]

/-! ## Scan codes -/

/-- `enum kbdstates` -/
inductive KbdState where
  | normal
  | shifted
  | ctrl
deriving DecidableEq

def scancodeKeyup : UInt8 := 0x80
def scancodeLeftshift : UInt8 := 0x2a
def scancodeRightshift : UInt8 := 0x36
def scancodeCtrl : UInt8 := 0x1d
def scancodeCapslock : UInt8 := 0x3a
def scancodeExtended : UInt8 := 0xe0

def IsShift (scancode : UInt8) : Prop :=
  scancode = scancodeLeftshift ∨ scancode = scancodeRightshift

instance (scancode : UInt8) : Decidable (IsShift scancode) :=
  inferInstanceAs (Decidable (_ ∨ _))

/-- The table that belongs to a state. -/
def charmap : KbdState → List UInt8
  | .normal => plainCharmap
  | .shifted => shiftCharmap
  | .ctrl => ctrlCharmap

/-- A character of a table; the scan code of a press is below 128. -/
def entry (map : List UInt8) (scancode : UInt8) : UInt8 := map.getD scancode.toNat 0

/-- What `kbd_getc_with_timeout` does with a scan code: the character it returns, if any, and
the state. -/
def translate (state : KbdState) (scancode : UInt8) : Option UInt8 × KbdState :=
  if scancode = scancodeExtended then (none, state)
  else if scancode &&& scancodeKeyup ≠ 0 then
    let scancode := scancode &&& ~~~scancodeKeyup
    if IsShift scancode ∧ state = .shifted then (none, .normal)
    else if scancode = scancodeCtrl ∧ state = .ctrl then (none, .normal)
    else (none, state)
  else if scancode = scancodeCtrl then (none, .ctrl)
  else if IsShift scancode ∧ state ≠ .ctrl then (none, .shifted)
  else if scancode = scancodeCapslock ∧ state ≠ .ctrl then
    (none, if state = .normal then .shifted else .normal)
  else
    let character := entry (charmap state) scancode
    (if character ≠ 0 then some character else none, state)

/-! ## Calls -/

/-- What one round of the polling finds: a scan code at the keyboard, a character at the serial
port, and whether the time is over. -/
structure Poll where
  keyboard : Option UInt8
  serial : Option Int
  late : Bool

section
variable (miniSerialEcho : Bool) (nsecs : Nat)

/-- One round of the polling: the value that is returned, if any, and the state. -/
def pollOnce (state : KbdState) (poll : Poll) : Option Int × KbdState :=
  match poll.keyboard with
  | some scancode =>
      let translated := translate state scancode
      (translated.1.map fun c => (c.toNat : Int), translated.2)
  | none =>
      let timeout := if nsecs ≠ 0 ∧ poll.late then some (-1) else none
      (if miniSerialEcho then poll.serial <|> timeout else timeout, state)

/-- `kbd_getc_with_timeout`: the value that is returned, or none as long as the call is
waiting, the state, and the polls that are left. -/
def kbdGetcWithTimeout (state : KbdState) : List Poll → Option Int × KbdState × List Poll
  | [] => (none, state, [])
  | poll :: polls =>
      match pollOnce miniSerialEcho nsecs state poll with
      | (some value, state) => (some value, state, polls)
      | (none, state) => kbdGetcWithTimeout state polls

end

/-- The scan codes that are read in some polls. -/
def scancodes (polls : List Poll) : List UInt8 := polls.filterMap Poll.keyboard

/-- The state after calls that have read these scan codes. -/
inductive Calls (miniSerialEcho : Bool) : List UInt8 → KbdState → Prop where
  | start : Calls miniSerialEcho [] .normal
  | call {history : List UInt8} {state state' : KbdState} (nsecs : Nat) {polls : List Poll}
      {value : Int} (before : Calls miniSerialEcho history state)
      (returns : kbdGetcWithTimeout miniSerialEcho nsecs state polls = (some value, state', [])) :
      Calls miniSerialEcho (history ++ scancodes polls) state'

/-! ## Held keys -/

/-- The key is down after these presses and releases. -/
def held (key : UInt8) (codes : List UInt8) : Bool :=
  codes.foldl (fun down code =>
    if code = key then true else if code = key + scancodeKeyup then false else down) false

/-- A Shift key was pressed while Ctrl was not held, and since then no Shift key was released
and Ctrl was not pressed. -/
def ShiftInEffect (codes : List UInt8) : Prop :=
  ∃ before shift after, codes = before ++ shift :: after ∧ IsShift shift ∧
    held scancodeCtrl before = false ∧
    ∀ code ∈ after, ¬ IsShift (code - scancodeKeyup) ∧ code ≠ scancodeCtrl

/-- Neither Caps Lock nor an extended code. -/
def Plain (code : UInt8) : Prop := code ≠ scancodeCapslock ∧ code ≠ scancodeExtended

instance (code : UInt8) : Decidable (Plain code) := inferInstanceAs (Decidable (_ ∧ _))

/-! ## One scan code -/

theorem keyup_iff (code : UInt8) : code &&& scancodeKeyup ≠ 0 ↔ 0x80 ≤ code := by
  have h : ∀ n : Fin 256, UInt8.ofFin n &&& scancodeKeyup ≠ 0 ↔ 0x80 ≤ UInt8.ofFin n := by
    decide +kernel
  exact h code.toFin

theorem and_not_keyup {code : UInt8} (hcode : 0x80 ≤ code) :
    code &&& ~~~scancodeKeyup = code - scancodeKeyup := by
  have h : ∀ n : Fin 256, 0x80 ≤ UInt8.ofFin n →
      UInt8.ofFin n &&& ~~~scancodeKeyup = UInt8.ofFin n - scancodeKeyup := by
    decide +kernel
  exact h code.toFin hcode

theorem translate_release (state : KbdState) {code : UInt8} (hcode : 0x80 ≤ code)
    (hplain : Plain code) :
    translate state code = (none,
      if IsShift (code - scancodeKeyup) ∧ state = .shifted then .normal
      else if code - scancodeKeyup = scancodeCtrl ∧ state = .ctrl then .normal
      else state) := by
  rw [translate, if_neg hplain.2, if_pos ((keyup_iff code).mpr hcode), and_not_keyup hcode]
  simp only
  split
  case isTrue => rfl
  case isFalse => split <;> rfl

theorem translate_ctrl (state : KbdState) : translate state scancodeCtrl = (none, .ctrl) := by
  cases state <;> rfl

theorem translate_shift {state : KbdState} (hstate : state ≠ .ctrl) {code : UInt8}
    (hcode : IsShift code) : translate state code = (none, .shifted) := by
  obtain rfl | rfl := hcode
  · cases state with
    | normal => rfl
    | shifted => rfl
    | ctrl => exact absurd rfl hstate
  · cases state with
    | normal => rfl
    | shifted => rfl
    | ctrl => exact absurd rfl hstate

/-- All other presses leave the state alone and are looked up, those of Shift while Ctrl is
held among them. -/
theorem translate_press {state : KbdState} {code : UInt8} (hcode : ¬ 0x80 ≤ code)
    (hplain : Plain code) (hctrl : code ≠ scancodeCtrl)
    (hshift : IsShift code → state = .ctrl) :
    translate state code =
      (if entry (charmap state) code ≠ 0 then some (entry (charmap state) code) else none,
        state) := by
  have hnot : ¬ (IsShift code ∧ state ≠ .ctrl) := fun h => h.2 (hshift h.1)
  rw [translate, if_neg hplain.2, if_neg (mt (keyup_iff code).mp hcode), if_neg hctrl,
    if_neg hnot, if_neg fun h => hplain.1 h.1]

/-! ## The state over a run -/

theorem held_concat (key code : UInt8) (codes : List UInt8) :
    held key (codes ++ [code]) =
      if code = key then true else if code = key + scancodeKeyup then false
      else held key codes := List.foldl_append

theorem shiftInEffect_concat (codes : List UInt8) (code : UInt8) :
    ShiftInEffect (codes ++ [code]) ↔
      (IsShift code ∧ held scancodeCtrl codes = false) ∨
      (ShiftInEffect codes ∧ ¬ IsShift (code - scancodeKeyup) ∧ code ≠ scancodeCtrl) := by
  constructor
  · rintro ⟨before, shift, after, hsplit, hshift, hfree, hafter⟩
    rcases concat_eq_append_cons hsplit with ⟨rfl, rfl, rfl⟩ | ⟨after, rfl, rfl⟩
    · exact .inl ⟨hshift, hfree⟩
    · refine .inr ⟨⟨before, shift, after, rfl, hshift, hfree, fun c hc => ?_⟩, ?_⟩
      · exact hafter c (List.mem_append_left _ hc)
      · exact hafter code (List.mem_append_right _ List.mem_cons_self)
  · rintro (⟨hshift, hfree⟩ | ⟨⟨before, shift, after, rfl, hshift, hfree, hafter⟩, hlast⟩)
    · exact ⟨codes, code, [], rfl, hshift, hfree, nofun⟩
    · refine ⟨before, shift, after ++ [code], by simp, hshift, hfree, fun c hc => ?_⟩
      rcases List.mem_append.mp hc with hc | hc
      · exact hafter c hc
      · exact List.mem_singleton.mp hc ▸ hlast

/-- What the state remembers of the presses and releases. -/
structure Remembers (state : KbdState) (codes : List UInt8) : Prop where
  ctrl : state = .ctrl ↔ held scancodeCtrl codes = true
  shifted : state = .shifted ↔ ShiftInEffect codes

theorem remembers_start : Remembers .normal [] where
  ctrl := iff_of_false nofun nofun
  shifted := by
    refine iff_of_false nofun ?_
    rintro ⟨before, shift, after, hsplit, _⟩
    cases before <;> cases hsplit

theorem not_shift_of_release {code : UInt8} (hcode : 0x80 ≤ code) :
    ¬ IsShift code ∧ code ≠ scancodeCtrl := by
  refine ⟨?_, ?_⟩
  · rintro (rfl | rfl)
    · exact absurd hcode (by decide)
    · exact absurd hcode (by decide)
  · rintro rfl
    exact absurd hcode (by decide)

theorem not_release_of_press {code : UInt8} (hcode : ¬ 0x80 ≤ code) :
    ¬ IsShift (code - scancodeKeyup) ∧ code ≠ scancodeCtrl + scancodeKeyup := by
  refine ⟨?_, ?_⟩
  · rintro (h | h)
    · exact hcode (UInt8.sub_eq_iff_eq_add.mp h ▸ by decide)
    · exact hcode (UInt8.sub_eq_iff_eq_add.mp h ▸ by decide)
  · rintro rfl
    exact hcode (by decide)

theorem Remembers.release {state : KbdState} {codes : List UInt8} (h : Remembers state codes)
    {code : UInt8} (hcode : 0x80 ≤ code) (hplain : Plain code) :
    Remembers (translate state code).2 (codes ++ [code]) := by
  obtain ⟨hshift, hctrl⟩ := not_shift_of_release hcode
  have hrelease : code = scancodeCtrl + scancodeKeyup ↔ code - scancodeKeyup = scancodeCtrl :=
    UInt8.sub_eq_iff_eq_add.symm
  have hdown := held_concat scancodeCtrl code codes
  have heffect := shiftInEffect_concat codes code
  have hboth : ¬ (IsShift (code - scancodeKeyup) ∧ code - scancodeKeyup = scancodeCtrl) := by
    rintro ⟨h, hc⟩
    rw [hc] at h
    exact absurd h (by decide)
  obtain ⟨hmemory, hmemory'⟩ := h
  rw [translate_release state hcode hplain]
  cases state with
  | normal => constructor <;> grind
  | shifted => constructor <;> grind
  | ctrl => constructor <;> grind

theorem Remembers.press {state : KbdState} {codes : List UInt8} (h : Remembers state codes)
    {code : UInt8} (hcode : ¬ 0x80 ≤ code) (hplain : Plain code) :
    Remembers (translate state code).2 (codes ++ [code]) := by
  obtain ⟨hshiftUp, hctrlUp⟩ := not_release_of_press hcode
  have hdown := held_concat scancodeCtrl code codes
  have heffect := shiftInEffect_concat codes code
  obtain ⟨hctrl, hshifted⟩ := h
  by_cases hpress : code = scancodeCtrl
  · have hnot : ¬ IsShift scancodeCtrl := by decide
    rw [hpress, translate_ctrl]
    constructor <;> grind
  · by_cases hshift : IsShift code ∧ state ≠ .ctrl
    · rw [translate_shift hshift.2 hshift.1]
      constructor <;> grind
    · have hstays : IsShift code → state = .ctrl := fun h =>
        not_not.mp fun hstate => hshift ⟨h, hstate⟩
      rw [translate_press hcode hplain hpress hstays]
      constructor <;> grind

/-- Every scan code but that of Caps Lock. -/
theorem Remembers.translate {state : KbdState} {codes : List UInt8} (h : Remembers state codes)
    {code : UInt8} (hplain : Plain code) :
    Remembers (translate state code).2 (codes ++ [code]) := by
  by_cases hcode : 0x80 ≤ code
  · exact h.release hcode hplain
  · exact h.press hcode hplain

/-! ## What a call returns -/

section
variable (miniSerialEcho : Bool) (nsecs : Nat)

theorem pollOnce_remembers {state : KbdState} {codes : List UInt8} (h : Remembers state codes)
    {poll : Poll} (hplain : ∀ code ∈ poll.keyboard, Plain code) :
    Remembers (pollOnce miniSerialEcho nsecs state poll).2
      (codes ++ poll.keyboard.toList) := by
  unfold pollOnce
  cases hcode : poll.keyboard with
  | none =>
      rw [Option.toList_none, List.append_nil]
      exact h
  | some code => exact h.translate (hplain code hcode)

theorem scancodes_cons (poll : Poll) (polls : List Poll) :
    scancodes (poll :: polls) = poll.keyboard.toList ++ scancodes polls := by
  unfold scancodes
  cases hcode : poll.keyboard with
  | none => exact List.filterMap_cons_none hcode
  | some code => exact List.filterMap_cons_some hcode

/-- The polls of a call: the last one returns, if the call returns, and the others do not. -/
theorem kbdGetc_polls {state state' : KbdState} {codes : List UInt8} {polls : List Poll}
    {result : Option Int} (h : Remembers state codes)
    (hcall : kbdGetcWithTimeout miniSerialEcho nsecs state polls = (result, state', []))
    (hplain : ∀ code ∈ scancodes polls, Plain code) :
    Remembers state' (codes ++ scancodes polls) ∧
      ∀ before poll value, polls = before ++ [poll] → result = some value →
        ∃ state₁, Remembers state₁ (codes ++ scancodes before) ∧
          (pollOnce miniSerialEcho nsecs state₁ poll).1 = some value := by
  induction polls generalizing state codes with
  | nil =>
      cases hcall
      refine ⟨by simpa [scancodes] using h, fun before poll value hsplit => ?_⟩
      simp at hsplit
  | cons first polls ih =>
      rw [scancodes_cons] at hplain
      have hkey : ∀ code ∈ first.keyboard, Plain code := fun code hcode =>
        hplain code (List.mem_append_left _ (Option.mem_toList.mpr hcode))
      have hfirst := pollOnce_remembers miniSerialEcho nsecs h hkey
      rw [kbdGetcWithTimeout] at hcall
      rw [scancodes_cons, ← List.append_assoc]
      cases hpoll : pollOnce miniSerialEcho nsecs state first with
      | mk returned state₁ =>
        rw [hpoll] at hcall hfirst
        cases returned with
        | some value =>
            cases hcall
            refine ⟨by simpa [scancodes] using hfirst, ?_⟩
            intro before poll value' hsplit hvalue
            have hone : [] ++ [first] = before ++ [poll] := hsplit
            obtain ⟨rfl, hlast⟩ := List.append_inj' hone rfl
            rw [← List.head_eq_of_cons_eq hlast]
            exact ⟨state, by simpa [scancodes] using h, by rw [hpoll, hvalue]⟩
        | none =>
            obtain ⟨hend, hreturn⟩ := ih hfirst hcall fun code hcode =>
              hplain code (List.mem_append_right _ hcode)
            refine ⟨hend, fun before poll value hsplit hvalue => ?_⟩
            cases before with
            | nil =>
                obtain ⟨rfl, rfl⟩ := List.cons.inj hsplit
                cases hcall
                cases hvalue
            | cons first' before =>
                obtain ⟨rfl, hrest⟩ := List.cons.inj hsplit
                rw [scancodes_cons, ← List.append_assoc]
                exact hreturn before poll value hrest hvalue

end

/-- What is true of a scan code for which a value is returned: it is the press of a key. The
value comes from the table of the modifier, except that nothing is said about Shift while
Ctrl is held. -/
structure Translated (codes : List UInt8) (code : UInt8) (value : Int) : Prop where
  press : code < 0x80
  notCtrl : code ≠ scancodeCtrl
  notShift : held scancodeCtrl codes = false → ¬ IsShift code
  ctrl : held scancodeCtrl codes = true → ¬ IsShift code →
    value = (entry ctrlCharmap code).toNat
  shifted : ShiftInEffect codes → value = (entry shiftCharmap code).toNat
  plain : held scancodeCtrl codes = false → ¬ ShiftInEffect codes →
    value = (entry plainCharmap code).toNat

theorem Remembers.translated {state : KbdState} {codes : List UInt8} (h : Remembers state codes)
    {code character : UInt8} (hplain : Plain code)
    (hreturn : (Console.translate state code).1 = some character) :
    Translated codes code character.toNat := by
  have hpress : ¬ 0x80 ≤ code := by
    intro hcode
    rw [translate_release state hcode hplain] at hreturn
    cases hreturn
  have hctrl : code ≠ scancodeCtrl := by
    rintro rfl
    rw [translate_ctrl] at hreturn
    cases hreturn
  have hshift : IsShift code → state = .ctrl := by
    intro hcode
    by_contra hstate
    rw [translate_shift hstate hcode] at hreturn
    cases hreturn
  rw [translate_press hpress hplain hctrl hshift] at hreturn
  have hcharacter : character = entry (charmap state) code := by
    dsimp only at hreturn
    split at hreturn
    case isTrue => exact (Option.some.inj hreturn).symm
    case isFalse => cases hreturn
  rw [hcharacter]
  have hfree : held scancodeCtrl codes = false ↔ state ≠ .ctrl := by
    rw [ne_eq, h.ctrl, Bool.not_eq_true]
  refine ⟨UInt8.not_le.mp hpress, hctrl, ?_, ?_, ?_, ?_⟩
  · exact fun hnot hcode => hfree.mp hnot (hshift hcode)
  · intro hheld _
    rw [h.ctrl.mpr hheld]
    rfl
  · intro heffect
    rw [h.shifted.mpr heffect]
    rfl
  · intro hnot heffect
    have hstate : state = .normal := by
      cases state with
      | normal => rfl
      | shifted => exact absurd (h.shifted.mp rfl) heffect
      | ctrl => exact absurd rfl (hfree.mp hnot)
    rw [hstate]
    rfl

/-- Neither Ctrl nor a Shift key is down. -/
def NoneHeld (codes : List UInt8) : Prop :=
  held scancodeCtrl codes = false ∧ held scancodeLeftshift codes = false ∧
    held scancodeRightshift codes = false

theorem held_of_press {key : UInt8} (before : List UInt8) {after : List UInt8}
    (hafter : key + scancodeKeyup ∉ after) : held key (before ++ key :: after) = true := by
  induction after using List.reverseRecOn with
  | nil => rw [held_concat, if_pos rfl]
  | append_singleton after code ih =>
      have hlast : code ≠ key + scancodeKeyup := by
        rintro rfl
        exact hafter (by simp)
      rw [← List.cons_append, ← List.append_assoc, held_concat, if_neg hlast,
        ih fun h => hafter (List.mem_append_left _ h), ite_self]

/-- Behind the press that put it into effect, no Shift key was released. -/
theorem ShiftInEffect.held {codes : List UInt8} (h : ShiftInEffect codes) : ¬ NoneHeld codes := by
  obtain ⟨before, shift, after, rfl, hshift, _, hafter⟩ := h
  have hdown : Console.held shift (before ++ shift :: after) = true := by
    apply held_of_press
    intro hrelease
    apply (hafter _ hrelease).1
    rwa [UInt8.add_sub_cancel]
  rintro ⟨_, hleft, hright⟩
  obtain rfl | rfl := hshift
  · rw [hdown] at hleft
    cases hleft
  · rw [hdown] at hright
    cases hright

theorem Remembers.normal {state : KbdState} {codes : List UInt8} (h : Remembers state codes)
    (hnone : NoneHeld codes) : state = .normal := by
  cases state with
  | normal => rfl
  | shifted => exact absurd hnone (h.shifted.mp rfl).held
  | ctrl => exact absurd (h.ctrl.mp rfl) (Bool.eq_false_iff.mp hnone.1)

theorem calls_remember {miniSerialEcho : Bool} {history : List UInt8} {state : KbdState}
    (h : Calls miniSerialEcho history state) (hplain : ∀ code ∈ history, Plain code) :
    Remembers state history := by
  induction h with
  | start => exact remembers_start
  | call nsecs _ returns ih =>
      have hbefore := ih fun code hcode => hplain code (List.mem_append_left _ hcode)
      exact (kbdGetc_polls _ nsecs hbefore returns fun code hcode =>
        hplain code (List.mem_append_right _ hcode)).1

/-- At every moment of a call that follows other calls. -/
theorem kbdGetc_translates (miniSerialEcho : Bool) (nsecs : Nat) {history : List UInt8}
    {state state' : KbdState} {polls : List Poll} {result : Option Int}
    (hcalls : Calls miniSerialEcho history state)
    (hcall : kbdGetcWithTimeout miniSerialEcho nsecs state polls = (result, state', []))
    (hplain : ∀ code ∈ history ++ scancodes polls, Plain code) :
    (∀ before poll code value, polls = before ++ [poll] → poll.keyboard = some code →
      result = some value → Translated (history ++ scancodes before) code value) ∧
    (NoneHeld (history ++ scancodes polls) → state' = .normal) := by
  have hbefore := calls_remember hcalls fun code hcode =>
    hplain code (List.mem_append_left _ hcode)
  obtain ⟨hend, hreturn⟩ := kbdGetc_polls miniSerialEcho nsecs hbefore hcall fun code hcode =>
    hplain code (List.mem_append_right _ hcode)
  refine ⟨fun before poll code value hsplit hkey hvalue => ?_, hend.normal⟩
  obtain ⟨state₁, hstate₁, hpoll⟩ := hreturn before poll value hsplit hvalue
  have hcode : Plain code := by
    apply hplain code
    rw [hsplit]
    simp [scancodes, hkey]
  unfold pollOnce at hpoll
  rw [hkey] at hpoll
  obtain ⟨character, hcharacter, rfl⟩ := Option.map_eq_some_iff.mp hpoll
  exact hstate₁.translated hcode hcharacter

/-- Shift and an a. -/
theorem kbdGetc_translates_shifted :
    Translated ([] ++ scancodes [⟨some 0x2a, none, false⟩]) 0x1e 0x41 :=
  have hplain : ∀ code ∈ [0x2a, 0x1e], Plain code :=
    List.forall_mem_cons.mpr ⟨by decide, List.forall_mem_singleton.mpr (by decide)⟩
  have hcall : kbdGetcWithTimeout false 0 .normal
      [⟨some 0x2a, none, false⟩, ⟨some 0x1e, none, false⟩] = (some 0x41, .shifted, []) := rfl
  (kbdGetc_translates false 0 .start hcall hplain).1 [⟨some 0x2a, none, false⟩]
    ⟨some 0x1e, none, false⟩ 0x1e 0x41 rfl rfl rfl

/-- The presses and releases of each key alternate. -/
def alternates (codes : List UInt8) : Bool :=
  (List.range codes.length).all fun i =>
    let code := codes.getD i 0
    held (code &&& ~~~scancodeKeyup) (codes.take i) == decide (0x80 ≤ code)

/-- Shift stays down while Ctrl is pressed and released; then comes an a. -/
theorem shift_forgotten_after_ctrl :
    let codes : List UInt8 := [0x2a, 0x1d, 0x9d]
    let polls : List Poll := (codes ++ [0x1e]).map fun code => ⟨some code, none, false⟩
    kbdGetcWithTimeout false 0 .normal polls = (some 0x61, .normal, []) ∧
      alternates (codes ++ [0x1e]) = true ∧ held scancodeLeftshift codes = true ∧
      held scancodeCtrl codes = false ∧ entry shiftCharmap 0x1e = 0x41 :=
  ⟨rfl, by decide, by decide, by decide, by decide⟩

end Milo.Console
