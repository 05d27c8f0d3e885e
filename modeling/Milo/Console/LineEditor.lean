import Mathlib.Data.List.Induction
import Milo.Foundation.CString

/-! # The line editor

`kbd_gets` reads a line with rubout and line kill. Every key changes the position in
the buffer, what is stored there and what is put on the screen. The screen gets the
characters of the line and, for each one that is erased, a backspace, a blank and
another backspace.
-/

namespace Milo.Console

open Foundation

def nul : UInt8 := 0x00
def bs : UInt8 := 0x08
def tab : UInt8 := 0x09
def lf : UInt8 := 0x0a
def cr : UInt8 := 0x0d
def ctrlU : UInt8 := 0x15
def blank : UInt8 := 0x20
def rubout : UInt8 := 0x7f

/-- The `char` that a key code is kept in. -/
def keyChar (code : Int) : UInt8 := UInt8.ofNat (code % 256).toNat

/-- `c < ' '`, for a signed `char` -/
def belowBlank (c : UInt8) : Bool := decide ((c.toNat : Int).bmod 256 < 0x20)

/-- The position in the buffer, the stores so far, and what has been put on the screen
and on the serial line. -/
structure Editor where
  bufpos : Nat
  stores : List ByteStore
  video : List UInt8
  uart : List UInt8

def Editor.start : Editor := ⟨0, [], [], []⟩

section
variable (miniSerialEcho : Bool) (charbuf maxlen : Nat)

/-- Calls of `__video_putchar`, and of `uart_putchar` if MILO is built with
`MINI_SERIAL_ECHO`. -/
def putchars (text : List UInt8) (s : Editor) : Editor :=
  { s with
    video := s.video ++ text
    uart := if miniSerialEcho then s.uart ++ text else s.uart }

def backspace : Nat → Editor → Editor
  | 0, s => s
  | n + 1, s => backspace n (putchars miniSerialEcho [bs, blank, bs] s)

/-- What `kbd_gets` does with a key that does not end the line. -/
def kbdKey (c : UInt8) (s : Editor) : Editor :=
  if c = bs ∨ c = rubout then
    if 0 < s.bufpos then backspace miniSerialEcho 1 { s with bufpos := s.bufpos - 1 } else s
  else if c = ctrlU then { backspace miniSerialEcho s.bufpos s with bufpos := 0 }
  else if belowBlank c ∧ c ≠ tab then s
  else if (c = blank ∨ c = tab) ∧ s.bufpos = 0 then s
  else if s.bufpos + 1 < maxlen then
    putchars miniSerialEcho [c]
      { s with bufpos := s.bufpos + 1, stores := s.stores ++ [(charbuf + s.bufpos, c)] }
  else s

/-- `kbd_gets`, with its result; `none` if it waits for another key. -/
def kbdGets : Editor → List Int → Option (Nat × Editor)
  | _, [] => none
  | s, code :: codes =>
      let c := keyChar code
      if c = nul then kbdGets s codes
      else if c = cr ∨ c = lf then
        let s' := putchars miniSerialEcho [cr, lf] s
        some (s.bufpos, { s' with stores := s.stores ++ [(charbuf + s.bufpos, nul)] })
      else kbdGets (kbdKey miniSerialEcho charbuf maxlen c s) codes

/-! ## What the keys mean -/

/-- A blank to a tilde, or a tab. -/
def isText (c : UInt8) : Prop := (blank ≤ c ∧ c < rubout) ∨ c = tab

instance (c : UInt8) : Decidable (isText c) := inferInstanceAs (Decidable (_ ∨ _))

/-- The line with one more key. -/
def editKey (line : List UInt8) (c : UInt8) : List UInt8 :=
  if c = bs ∨ c = rubout then line.dropLast
  else if c = ctrlU then []
  else if isText c ∧ line.length < maxlen - 1 ∧ ¬ ((c = blank ∨ c = tab) ∧ line = []) then
    line ++ [c]
  else line

/-- The line that keys make. -/
def edited (codes : List Int) : List UInt8 :=
  codes.foldl (fun line code => editKey maxlen line (keyChar code)) []

/-- The editor behind keys that do not end the line. -/
def editorAfter (codes : List Int) : Editor :=
  codes.foldl (fun s code => kbdKey miniSerialEcho charbuf maxlen (keyChar code) s) .start

def EndsLine (code : Int) : Prop := keyChar code = cr ∨ keyChar code = lf

instance (code : Int) : Decidable (EndsLine code) := inferInstanceAs (Decidable (_ ∨ _))

end

/-- A line on the screen after more characters: a backspace, a blank and a backspace
cancel one character, and a carriage return ends the line. -/
def display (shown : List UInt8) : List UInt8 → List UInt8
  | [] => shown
  | 0x08 :: 0x20 :: 0x08 :: rest => display shown.dropLast rest
  | c :: rest => if c = cr then shown else display (shown ++ [c]) rest

/-! ## Characters -/

theorem isText_iff {c : UInt8} :
    isText c ↔ ¬ (c = bs ∨ c = rubout) ∧ c ≠ ctrlU ∧ ¬ (belowBlank c = true ∧ c ≠ tab) ∧
      c ≠ cr ∧ c ≠ lf := by
  have hlt := c.toNat_lt
  unfold isText belowBlank
  simp only [← UInt8.toNat_inj, UInt8.le_iff_toNat_le, UInt8.lt_iff_toNat_lt, decide_eq_true_eq,
    Int.bmod_def]
  simp only [bs, tab, lf, cr, ctrlU, blank, rubout, ne_eq, ← UInt8.toNat_inj]
  simp only [UInt8.reduceToNat]
  omega

theorem isText.ne {c : UInt8} (h : isText c) : c ≠ nul ∧ c ≠ bs ∧ c ≠ cr := by
  refine ⟨?_, ?_, ?_⟩
  · rintro rfl
    exact absurd h (by decide)
  · rintro rfl
    exact absurd h (by decide)
  · rintro rfl
    exact absurd h (by decide)

/-! ## The screen -/

/-- What the editor puts on the screen before the line ends. -/
inductive Echoed : List UInt8 → Prop where
  | nil : Echoed []
  | text (c : UInt8) (rest : List UInt8) (hc : isText c) (hrest : Echoed rest) : Echoed (c :: rest)
  | erase (rest : List UInt8) (hrest : Echoed rest) : Echoed (bs :: blank :: bs :: rest)

theorem display_text {c : UInt8} (hc : isText c) (shown rest : List UInt8) :
    display shown (c :: rest) = display (shown ++ [c]) rest := by
  obtain ⟨_, hbs, hcr⟩ := hc.ne
  rw [display, if_neg hcr]
  rintro _ rfl _
  exact hbs rfl

theorem Echoed.append {a b : List UInt8} (ha : Echoed a) (hb : Echoed b) : Echoed (a ++ b) := by
  induction ha with
  | nil => exact hb
  | text c rest hc _ ih => exact .text c _ hc ih
  | erase rest _ ih => exact .erase _ ih

theorem Echoed.display_append {a : List UInt8} (h : Echoed a) (shown b : List UInt8) :
    display shown (a ++ b) = display (display shown a) b := by
  induction h generalizing shown with
  | nil => rfl
  | text c rest hc _ ih => rw [List.cons_append, display_text hc, display_text hc, ih]
  | erase rest _ ih => exact ih shown.dropLast

/-- `n` erasures. -/
def erasures (n : Nat) : List UInt8 := (List.replicate n [bs, blank, bs]).flatten

theorem erasures_echoed (n : Nat) : Echoed (erasures n) := by
  induction n with
  | zero => exact .nil
  | succ n ih => exact .erase _ ih

theorem display_erasures (shown line : List UInt8) :
    display (shown ++ line) (erasures line.length) = shown := by
  induction line using List.reverseRecOn with
  | nil => exact List.append_nil shown
  | append_singleton line c ih =>
      rw [List.length_append, ← List.append_assoc]
      show display (shown ++ line ++ [c]).dropLast (erasures line.length) = shown
      rw [List.dropLast_concat, ih]

section
variable {miniSerialEcho : Bool} {charbuf maxlen : Nat} {s : Editor} {line : List UInt8}

theorem backspace_eq (n : Nat) (s : Editor) :
    backspace miniSerialEcho n s = putchars miniSerialEcho (erasures n) s := by
  induction n generalizing s with
  | zero =>
      unfold backspace putchars
      simp [erasures]
  | succ n ih =>
      rw [backspace, ih]
      unfold putchars
      simp only [Editor.mk.injEq, true_and]
      refine ⟨?_, ?_⟩
      · rw [List.append_assoc]
        rfl
      · split
        · rw [List.append_assoc]
          rfl
        · rfl

/-! ## The keys -/

/-- The position, the buffer and the screen are in step with a line. -/
structure InStep (miniSerialEcho : Bool) (charbuf maxlen : Nat) (line : List UInt8) (s : Editor) :
    Prop where
  bufpos : s.bufpos = line.length
  room : line.length < maxlen
  text : ∀ c ∈ line, isText c
  inside : ∀ st ∈ s.stores, charbuf ≤ st.1 ∧ st.1 < charbuf + maxlen
  holds : ∀ mem, HoldsBytes (store mem s.stores) charbuf line
  echoed : Echoed s.video
  shown : ∀ prompt, display prompt s.video = prompt ++ line
  uart : s.uart = if miniSerialEcho then s.video else []

/-- The end of the line is erased. -/
theorem InStep.erase {kept gone : List UInt8}
    (h : InStep miniSerialEcho charbuf maxlen (kept ++ gone) s) :
    InStep miniSerialEcho charbuf maxlen kept
      { backspace miniSerialEcho gone.length s with bufpos := kept.length } := by
  have hroom := h.room
  rw [List.length_append] at hroom
  rw [backspace_eq]
  refine ⟨rfl, by omega, fun c hc => h.text c (List.mem_append_left _ hc), h.inside,
    fun mem => (HoldsBytes.append.mp (h.holds mem)).1, h.echoed.append (erasures_echoed _),
    fun prompt => ?_, ?_⟩
  · show display prompt (s.video ++ erasures gone.length) = prompt ++ kept
    rw [h.echoed.display_append, h.shown, ← List.append_assoc, display_erasures]
  · have huart := h.uart
    unfold putchars
    cases miniSerialEcho with
    | true => exact congrArg (· ++ erasures gone.length) huart
    | false => exact huart

/-- A character is appended. -/
theorem InStep.type {c : UInt8} (h : InStep miniSerialEcho charbuf maxlen line s) (hc : isText c)
    (hroom : line.length + 1 < maxlen) :
    InStep miniSerialEcho charbuf maxlen (line ++ [c])
      (putchars miniSerialEcho [c]
        { s with bufpos := s.bufpos + 1, stores := s.stores ++ [(charbuf + s.bufpos, c)] }) := by
  have hbufpos := h.bufpos
  refine ⟨?_, ?_, ?_, ?_, fun mem => ?_, h.echoed.append (.text c [] hc .nil), fun prompt => ?_, ?_⟩
  · rw [List.length_append]
    exact congrArg (· + 1) hbufpos
  · rw [List.length_append]
    exact hroom
  · intro d hd
    rcases List.mem_append.mp hd with hd | hd
    · exact h.text d hd
    · exact List.mem_singleton.mp hd ▸ hc
  · intro st hst
    rcases List.mem_append.mp hst with hst | hst
    · exact h.inside st hst
    · rw [List.mem_singleton.mp hst]
      show charbuf ≤ charbuf + s.bufpos ∧ charbuf + s.bufpos < charbuf + maxlen
      omega
  · show HoldsBytes (store mem (s.stores ++ [(charbuf + s.bufpos, c)])) charbuf (line ++ [c])
    rw [store_append]
    refine HoldsBytes.append.mpr ⟨(h.holds mem).congr fun x hx => ?_, ?_⟩
    · rw [Span.mem_mk] at hx
      exact Function.update_of_ne (by omega) _ _
    · rw [← hbufpos]
      exact store_holds (store mem s.stores) (charbuf + s.bufpos) [c]
  · show display prompt (s.video ++ [c]) = prompt ++ (line ++ [c])
    rw [h.echoed.display_append, h.shown, display_text hc, List.append_assoc]
    rfl
  · have huart := h.uart
    unfold putchars
    cases miniSerialEcho with
    | true => exact congrArg (· ++ [c]) huart
    | false => exact huart

/-- A key that erases nothing and does not end the line. -/
theorem kbdKey_other {c : UInt8} (hback : ¬ (c = bs ∨ c = rubout)) (hkill : c ≠ ctrlU)
    (hend : c ≠ cr ∧ c ≠ lf) (s : Editor) :
    kbdKey miniSerialEcho charbuf maxlen c s =
      if isText c ∧ s.bufpos < maxlen - 1 ∧ ¬ ((c = blank ∨ c = tab) ∧ s.bufpos = 0) then
        putchars miniSerialEcho [c]
          { s with bufpos := s.bufpos + 1, stores := s.stores ++ [(charbuf + s.bufpos, c)] }
      else s := by
  have htext : isText c ↔ ¬ (belowBlank c = true ∧ c ≠ tab) := by
    rw [isText_iff]
    exact ⟨fun h => h.2.2.1, fun h => ⟨hback, hkill, h, hend⟩⟩
  have hroom : s.bufpos + 1 < maxlen ↔ s.bufpos < maxlen - 1 := by omega
  unfold Console.kbdKey
  rw [if_neg hback, if_neg hkill]
  by_cases hbelow : belowBlank c = true ∧ c ≠ tab
  · rw [if_pos hbelow, if_neg fun hand => htext.mp hand.1 hbelow]
  · rw [if_neg hbelow]
    by_cases hlead : (c = blank ∨ c = tab) ∧ s.bufpos = 0
    · rw [if_pos hlead, if_neg fun hand => hand.2.2 hlead]
    · rw [if_neg hlead]
      exact if_congr ⟨fun hfits => ⟨htext.mpr hbelow, hroom.mp hfits, hlead⟩,
        fun hand => hroom.mpr hand.2.1⟩ rfl rfl

/-- Every key that does not end the line keeps them in step. -/
theorem InStep.kbdKey {c : UInt8} (h : InStep miniSerialEcho charbuf maxlen line s)
    (hend : c ≠ cr ∧ c ≠ lf) :
    InStep miniSerialEcho charbuf maxlen (editKey maxlen line c)
      (kbdKey miniSerialEcho charbuf maxlen c s) := by
  have hbufpos := h.bufpos
  have hempty : s.bufpos = 0 ↔ line = [] := by
    rw [hbufpos]
    exact List.length_eq_zero_iff
  unfold editKey
  by_cases hback : c = bs ∨ c = rubout
  · rw [Console.kbdKey, if_pos hback, if_pos hback]
    rcases List.eq_nil_or_concat line with rfl | ⟨kept, d, hsplit⟩
    · rw [if_neg (by rw [hbufpos]; exact Nat.lt_irrefl 0)]
      exact h
    · rw [List.concat_eq_append] at hsplit
      subst hsplit
      have hlength : s.bufpos = kept.length + 1 := by
        rw [hbufpos, List.length_append]
        rfl
      rw [if_pos (by omega), hlength, Nat.add_sub_cancel, List.dropLast_concat]
      exact h.erase
  · rw [if_neg hback]
    by_cases hkill : c = ctrlU
    · rw [Console.kbdKey, if_neg hback, if_pos hkill, if_pos hkill, hbufpos]
      have herase : InStep miniSerialEcho charbuf maxlen ([] ++ line) s := h
      exact herase.erase
    · rw [if_neg hkill, kbdKey_other hback hkill hend]
      have hsame : (isText c ∧ s.bufpos < maxlen - 1 ∧ ¬ ((c = blank ∨ c = tab) ∧ s.bufpos = 0)) ↔
          isText c ∧ line.length < maxlen - 1 ∧ ¬ ((c = blank ∨ c = tab) ∧ line = []) := by
        rw [hempty, hbufpos]
      by_cases htyped : isText c ∧ line.length < maxlen - 1 ∧
          ¬ ((c = blank ∨ c = tab) ∧ line = [])
      · rw [if_pos (hsame.mpr htyped), if_pos htyped]
        exact h.type htyped.1 (by omega)
      · rw [if_neg (mt hsame.mp htyped), if_neg htyped]
        exact h

theorem inStep_start (miniSerialEcho : Bool) (charbuf : Nat) (h : 1 ≤ maxlen) :
    InStep miniSerialEcho charbuf maxlen [] .start where
  bufpos := rfl
  room := h
  text c hc := nomatch hc
  inside st hst := nomatch hst
  holds mem i b hb := nomatch hb
  echoed := .nil
  shown prompt := (List.append_nil prompt).symm
  uart := by
    split
    · rfl
    · rfl

/-! ## Whole lines -/

/-- After any keys that do not end the line. -/
theorem inStep_editorAfter (miniSerialEcho : Bool) (charbuf : Nat) (h : 1 ≤ maxlen)
    {codes : List Int} (hcodes : ∀ code ∈ codes, ¬ EndsLine code) :
    InStep miniSerialEcho charbuf maxlen (edited maxlen codes)
      (editorAfter miniSerialEcho charbuf maxlen codes) := by
  induction codes using List.reverseRecOn with
  | nil => exact inStep_start miniSerialEcho charbuf h
  | append_singleton codes code ih =>
      have hlast := not_or.mp (hcodes code (by simp))
      have hkeys := ih fun k hk => hcodes k (List.mem_append_left _ hk)
      unfold edited editorAfter at hkeys ⊢
      rw [List.foldl_append, List.foldl_append]
      exact hkeys.kbdKey hlast

/-- A key of code 0 is waited over, and it would do nothing. -/
theorem kbdKey_nul (s : Editor) : kbdKey miniSerialEcho charbuf maxlen nul s = s := by
  rw [kbdKey_other (by decide) (by decide) (by decide), if_neg fun hand => hand.1.ne.1 rfl]

/-- The loop takes the keys one by one, up to the first one that ends the line. -/
theorem kbdGets_append {codes rest : List Int} (hcodes : ∀ code ∈ codes, ¬ EndsLine code)
    (s : Editor) :
    kbdGets miniSerialEcho charbuf maxlen s (codes ++ rest) =
      kbdGets miniSerialEcho charbuf maxlen
        (codes.foldl (fun s code => kbdKey miniSerialEcho charbuf maxlen (keyChar code) s) s)
        rest := by
  induction codes generalizing s with
  | nil => rfl
  | cons code codes ih =>
      have hfirst : ¬ (keyChar code = cr ∨ keyChar code = lf) := hcodes code List.mem_cons_self
      have hrest := ih fun k hk => hcodes k (List.mem_cons_of_mem code hk)
      rw [List.cons_append, kbdGets, List.foldl_cons]
      simp only
      by_cases hnul : keyChar code = nul
      · rw [if_pos hnul, hnul, kbdKey_nul, hrest]
      · rw [if_neg hnul, if_neg hfirst, hrest]

/-- What is true of a call: the result is the length of the line, the line is in the
buffer with its NUL and nothing is stored outside of the buffer, and after every key
the prompt and the line are on the screen. -/
structure GetsLine (miniSerialEcho : Bool) (charbuf maxlen : Nat) (keys : List Int)
    (result : Nat × Editor) : Prop where
  length : result.1 = (edited maxlen keys).length
  stored : ∀ mem, HoldsBytes (store mem result.2.stores) charbuf (edited maxlen keys ++ [nul])
  noNul : nul ∉ edited maxlen keys
  inside : ∀ st ∈ result.2.stores, charbuf ≤ st.1 ∧ st.1 < charbuf + maxlen
  shown : ∀ before, before <+: keys → ∀ prompt,
    display prompt (editorAfter miniSerialEcho charbuf maxlen before).video =
      prompt ++ edited maxlen before
  ended : ∀ prompt, display prompt result.2.video = prompt ++ edited maxlen keys
  uart : result.2.uart = if miniSerialEcho then result.2.video else []

/-- For every sequence of keys with a line end behind it. -/
theorem kbdGets_spec (miniSerialEcho : Bool) (charbuf : Nat) (hmaxlen : 1 ≤ maxlen)
    {keys : List Int} {last : Int} (hkeys : ∀ key ∈ keys, ¬ EndsLine key) (hlast : EndsLine last) :
    ∃ result, kbdGets miniSerialEcho charbuf maxlen .start (keys ++ [last]) = some result ∧
      GetsLine miniSerialEcho charbuf maxlen keys result := by
  have hstep := inStep_editorAfter miniSerialEcho charbuf hmaxlen hkeys
  have hbufpos := hstep.bufpos
  have hroom := hstep.room
  have hcall : kbdGets miniSerialEcho charbuf maxlen .start (keys ++ [last]) =
      kbdGets miniSerialEcho charbuf maxlen (editorAfter miniSerialEcho charbuf maxlen keys) [last] :=
    kbdGets_append hkeys .start
  rw [hcall]
  have hnul : keyChar last ≠ nul := by
    rcases hlast with h | h
    · rw [h]
      decide
    · rw [h]
      decide
  rw [kbdGets]
  simp only
  rw [if_neg hnul, if_pos (show keyChar last = cr ∨ keyChar last = lf from hlast)]
  refine ⟨_, rfl, hbufpos, fun mem => ?_, fun h => (hstep.text _ h).ne.1 rfl, ?_, ?_, ?_, ?_⟩
  · rw [hbufpos, store_append]
    refine HoldsBytes.append.mpr ⟨(hstep.holds mem).congr fun x hx => ?_, ?_⟩
    · rw [Span.mem_mk] at hx
      exact Function.update_of_ne (by omega) _ _
    · exact store_holds _ _ [nul]
  · intro st hst
    rcases List.mem_append.mp hst with hst | hst
    · exact hstep.inside st hst
    · rw [List.mem_singleton.mp hst]
      show charbuf ≤ charbuf + _ ∧ charbuf + _ < charbuf + maxlen
      omega
  · intro before hbefore
    exact (inStep_editorAfter miniSerialEcho charbuf hmaxlen fun key hkey =>
      hkeys key (hbefore.subset hkey)).shown
  · intro prompt
    show display prompt (_ ++ [cr, lf]) = _
    rw [hstep.echoed.display_append, hstep.shown]
    rfl
  · have huart := hstep.uart
    unfold putchars
    cases miniSerialEcho with
    | true => exact congrArg (· ++ [cr, lf]) huart
    | false => exact huart

end

/-- A blank, `a`, a rubout, `b` and the end of the line. -/
theorem kbdGets_short : ∃ result,
    kbdGets true 0x1000 4 .start ([0x20, 0x61, 0x7f, 0x62] ++ [0x0d]) = some result ∧
      GetsLine true 0x1000 4 [0x20, 0x61, 0x7f, 0x62] result :=
  kbdGets_spec true 0x1000 (by decide) (by decide) (by decide)

end Milo.Console
