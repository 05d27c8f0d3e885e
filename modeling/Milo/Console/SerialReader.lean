import Mathlib.Data.List.Basic
import Milo.Console.LineEditor

/-! # The line reader of the serial port

`cons_gets` counts its position up in the header of the loop, for every key. A key that
deletes takes it back by one, so that what was deleted stays where it is.
-/

namespace Milo.Console

open Foundation

/-- `case 0x08`, `case 0x7f` -/
def Deletes (c : UInt8) : Prop := c = bs ∨ c = rubout

instance (c : UInt8) : Decidable (Deletes c) := inferInstanceAs (Decidable (_ ∨ _))

section
variable (buf : Nat)

/-- One turn of the loop of `cons_gets`, with the `i++` behind it. `cons_puts` puts text on
the screen and on the serial line. -/
def consKey (c : UInt8) (s : Editor) : Editor :=
  let s :=
    if Deletes c then
      if 0 < s.bufpos then
        { putchars true [bs, blank, bs] s with bufpos := s.bufpos - 1 }
      else s
    else { s with stores := s.stores ++ [(buf + s.bufpos, c)], uart := s.uart ++ [c] }
  { s with bufpos := s.bufpos + 1 }

/-- `cons_gets`; `none` if it waits for another key. -/
def consGets : Editor → List Int → Option Editor
  | _, [] => none
  | s, code :: codes =>
      let c := keyChar code
      if c = cr ∨ c = lf then
        some { s with
          stores := s.stores ++ [(buf + s.bufpos, nul)]
          uart := s.uart ++ [lf] }
      else consGets (consKey buf c s) codes

end

/-! ## What the keys mean -/

/-- The line with one more key. -/
def foldKey (line : List UInt8) (c : UInt8) : List UInt8 :=
  if Deletes c then line.dropLast else line ++ [c]

/-- The line that keys make. -/
def foldKeys (keys : List UInt8) : List UInt8 := keys.foldl foldKey []

/-- The keys that are stored. -/
def typed (keys : List UInt8) : List UInt8 := keys.filter fun c => ¬ Deletes c

theorem foldKey_deletes {c : UInt8} (h : Deletes c) (line : List UInt8) :
    foldKey line c = line.dropLast := if_pos h

theorem foldKey_typed {c : UInt8} (h : ¬ Deletes c) (line : List UInt8) :
    foldKey line c = line ++ [c] := if_neg h

theorem typed_deletes {c : UInt8} (h : Deletes c) (keys : List UInt8) :
    typed (c :: keys) = typed keys := List.filter_cons_of_neg (by simpa using h)

theorem typed_typed {c : UInt8} (h : ¬ Deletes c) (keys : List UInt8) :
    typed (c :: keys) = c :: typed keys := List.filter_cons_of_pos (by simpa using h)

theorem foldl_foldKey_length_le (line keys : List UInt8) :
    (keys.foldl foldKey line).length ≤ line.length + (typed keys).length := by
  induction keys generalizing line with
  | nil => exact Nat.le_refl _
  | cons c keys ih =>
      have hrest := ih (foldKey line c)
      rw [List.foldl_cons]
      by_cases hc : Deletes c
      · rw [foldKey_deletes hc, List.length_dropLast] at hrest
        rw [foldKey_deletes hc, typed_deletes hc]
        omega
      · rw [foldKey_typed hc, List.length_append, List.length_singleton] at hrest
        rw [foldKey_typed hc, typed_typed hc, List.length_cons]
        omega

/-- A deletion behind a line that is not empty takes a character away. -/
theorem foldl_foldKey_length_lt {line keys : List UInt8} (hline : line ≠ [])
    (h : ∃ c ∈ keys, Deletes c) :
    (keys.foldl foldKey line).length < line.length + (typed keys).length := by
  induction keys generalizing line with
  | nil =>
      obtain ⟨c, hc, _⟩ := h
      cases hc
  | cons c keys ih =>
      rw [List.foldl_cons]
      by_cases hc : Deletes c
      · have hpos := List.length_pos_iff.mpr hline
        have hrest := foldl_foldKey_length_le line.dropLast keys
        rw [List.length_dropLast] at hrest
        rw [foldKey_deletes hc, typed_deletes hc]
        omega
      · have hlater := (List.or_exists_of_exists_mem_cons h).resolve_left hc
        have hlonger : line ++ [c] ≠ [] := by simp
        have hrest := ih hlonger hlater
        rw [List.length_append, List.length_singleton] at hrest
        rw [foldKey_typed hc, typed_typed hc, List.length_cons]
        omega

theorem foldl_foldKey_of_typed (line : List UInt8) {keys : List UInt8}
    (h : ∀ c ∈ keys, ¬ Deletes c) : keys.foldl foldKey line = line ++ typed keys := by
  induction keys generalizing line with
  | nil => exact (List.append_nil line).symm
  | cons c keys ih =>
      have hc := h c List.mem_cons_self
      rw [List.foldl_cons, foldKey_typed hc, typed_typed hc,
        ih _ fun d hd => h d (List.mem_cons_of_mem c hd), List.append_assoc, List.singleton_append]

/-! ## What is stored -/

section
variable (buf : Nat) {s : Editor}

theorem consKey_typed (s : Editor) {c : UInt8} (hc : ¬ Deletes c) :
    (consKey buf c s).bufpos = s.bufpos + 1 ∧
      (consKey buf c s).stores = s.stores ++ [(buf + s.bufpos, c)] := by
  simp only [consKey, if_neg hc, and_self]

/-- From the second key on, a key that deletes leaves the position and the buffer as they
are. -/
theorem consKey_deletes {c : UInt8} (hs : 0 < s.bufpos) (hc : Deletes c) :
    (consKey buf c s).bufpos = s.bufpos ∧ (consKey buf c s).stores = s.stores := by
  simp only [consKey, if_pos hc, if_pos hs, putchars, and_true]
  exact Nat.sub_add_cancel hs

theorem foldl_consKey (hs : 0 < s.bufpos) (keys : List UInt8) :
    (keys.foldl (fun s c => consKey buf c s) s).bufpos = s.bufpos + (typed keys).length ∧
      (keys.foldl (fun s c => consKey buf c s) s).stores =
        s.stores ++ storesAt (buf + s.bufpos) (typed keys) := by
  induction keys generalizing s with
  | nil => exact ⟨rfl, (List.append_nil s.stores).symm⟩
  | cons c keys ih =>
      rw [List.foldl_cons]
      by_cases hc : Deletes c
      · obtain ⟨hpos, hstores⟩ := consKey_deletes buf hs hc
        have hrest := ih (s := consKey buf c s) (hpos ▸ hs)
        rw [hpos, hstores] at hrest
        rwa [typed_deletes hc]
      · obtain ⟨hpos, hstores⟩ := consKey_typed buf s hc
        have hrest := ih (s := consKey buf c s) (hpos ▸ Nat.succ_pos _)
        rw [hpos, hstores, List.append_assoc] at hrest
        rw [typed_typed hc, List.length_cons]
        exact ⟨by omega, hrest.2⟩

end

/-- The first key of the line deletes. -/
def FirstDeletes (keys : List UInt8) : Prop := ∃ c ∈ keys.head?, Deletes c

instance (keys : List UInt8) : Decidable (FirstDeletes keys) :=
  inferInstanceAs (Decidable (∃ c ∈ keys.head?, Deletes c))

/-- A first key that deletes leaves a byte of the buffer out. -/
def skipped (keys : List UInt8) : Nat := if FirstDeletes keys then 1 else 0

theorem foldl_consKey_start (buf : Nat) (keys : List UInt8) :
    (keys.foldl (fun s c => consKey buf c s) .start).bufpos =
        skipped keys + (typed keys).length ∧
      (keys.foldl (fun s c => consKey buf c s) .start).stores =
        storesAt (buf + skipped keys) (typed keys) := by
  cases keys with
  | nil => exact ⟨rfl, rfl⟩
  | cons c keys =>
      have hpos : (consKey buf c .start).bufpos = 1 := by
        by_cases hc : Deletes c
        · simp [consKey, hc, Editor.start]
        · exact (consKey_typed buf .start hc).1
      obtain ⟨hend, hstores⟩ := foldl_consKey buf (hpos ▸ Nat.one_pos) keys
      rw [List.foldl_cons, hend, hstores, hpos]
      by_cases hc : Deletes c
      · have hskip : skipped (c :: keys) = 1 := if_pos ⟨c, rfl, hc⟩
        have hnone : (consKey buf c .start).stores = [] := by
          simp [consKey, hc, Editor.start]
        rw [hskip, hnone, typed_deletes hc]
        exact ⟨rfl, rfl⟩
      · have hskip : skipped (c :: keys) = 0 := by
          refine if_neg ?_
          rintro ⟨d, hd, hdeletes⟩
          exact hc (Option.some.inj hd ▸ hdeletes)
        rw [hskip, typed_typed hc, (consKey_typed buf .start hc).2, List.length_cons]
        exact ⟨by omega, rfl⟩

/-- The loop takes the keys one by one, up to the first one that ends the line. -/
theorem consGets_append (buf : Nat) {codes rest : List Int}
    (hcodes : ∀ code ∈ codes, ¬ EndsLine code) (s : Editor) :
    consGets buf s (codes ++ rest) =
      consGets buf ((codes.map keyChar).foldl (fun s c => consKey buf c s) s) rest := by
  induction codes generalizing s with
  | nil => rfl
  | cons code codes ih =>
      have hfirst : ¬ (keyChar code = cr ∨ keyChar code = lf) := hcodes code List.mem_cons_self
      rw [List.cons_append, consGets, List.map_cons, List.foldl_cons, if_neg hfirst]
      exact ih (fun k hk => hcodes k (List.mem_cons_of_mem code hk)) _

/-- All that a call stores: the keys that were stored and a NUL, one after the other. -/
theorem consGets_stores (buf : Nat) {codes : List Int} {last : Int}
    (hcodes : ∀ code ∈ codes, ¬ EndsLine code) (hlast : EndsLine last) :
    ∃ s, consGets buf .start (codes ++ [last]) = some s ∧
      s.stores = storesAt (buf + skipped (codes.map keyChar))
        (typed (codes.map keyChar) ++ [nul]) := by
  obtain ⟨hpos, hstores⟩ := foldl_consKey_start buf (codes.map keyChar)
  have hend : keyChar last = cr ∨ keyChar last = lf := hlast
  rw [consGets_append buf hcodes, consGets, if_pos hend]
  refine ⟨_, rfl, ?_⟩
  rw [hpos, hstores, storesAt_append, Nat.add_assoc]
  rfl

/-! ## The line in memory -/

theorem length_foldKeys_lt {keys : List UInt8} (hfirst : ¬ FirstDeletes keys)
    (h : ∃ c ∈ keys, Deletes c) : (foldKeys keys).length < (typed keys).length := by
  cases keys with
  | nil =>
      obtain ⟨c, hc, _⟩ := h
      cases hc
  | cons c keys =>
      have hc : ¬ Deletes c := fun hc => hfirst ⟨c, rfl, hc⟩
      have hlater := (List.or_exists_of_exists_mem_cons h).resolve_left hc
      have hrest := foldl_foldKey_length_lt (List.cons_ne_nil c []) hlater
      rw [foldKeys, List.foldl_cons, foldKey_typed hc, typed_typed hc, List.length_cons]
      rw [List.length_singleton, Nat.add_comm] at hrest
      exact hrest

/-- The line that the keys make begins what was typed, with a NUL in its place. -/
def StoredAnyway (keys : List UInt8) : Prop :=
  ¬ FirstDeletes keys ∧ foldKeys keys ++ [nul] <+: typed keys

theorem isPrefix_typed_iff {keys : List UInt8} (hfirst : ¬ FirstDeletes keys) :
    foldKeys keys ++ [nul] <+: typed keys ++ [nul] ↔
      (∀ c ∈ keys, ¬ Deletes c) ∨ StoredAnyway keys := by
  by_cases hdeletes : ∃ c ∈ keys, Deletes c
  · have hlt := length_foldKeys_lt hfirst hdeletes
    have hsome : ¬ ∀ c ∈ keys, ¬ Deletes c := by simpa using hdeletes
    rw [or_iff_right hsome, StoredAnyway, and_iff_right hfirst]
    constructor
    · intro h
      apply List.prefix_of_prefix_length_le h (List.prefix_append _ _)
      rw [List.length_append, List.length_singleton]
      exact hlt
    · exact fun h => h.trans (List.prefix_append _ _)
  · have hnone : ∀ c ∈ keys, ¬ Deletes c := fun c hc hd => hdeletes ⟨c, hc, hd⟩
    have hfold : foldKeys keys = typed keys := foldl_foldKey_of_typed [] hnone
    rw [hfold]
    exact iff_of_true (List.prefix_refl _) (.inl hnone)

/-- A byte that was left out may be anything. -/
theorem not_holds_of_firstDeletes {buf : Nat} {keys : List UInt8} (hfirst : FirstDeletes keys) :
    ¬ ∀ mem, HoldsBytes (store mem (storesAt (buf + skipped keys) (typed keys ++ [nul]))) buf
      (foldKeys keys ++ [nul]) := by
  intro h
  have hskip : skipped keys = 1 := if_pos hfirst
  have hold : ∀ mem : ByteMemory,
      store mem (storesAt (buf + skipped keys) (typed keys ++ [nul])) buf = mem buf := by
    intro mem
    apply store_outside
    rw [hskip, Span.mem_mk]
    omega
  obtain ⟨first, hbyte⟩ : ∃ b, (foldKeys keys ++ [nul])[0]? = some b := by
    cases foldKeys keys with
    | nil => exact ⟨nul, rfl⟩
    | cons b _ => exact ⟨b, rfl⟩
  have hzero := h (fun _ => 0) 0 first hbyte
  have hone := h (fun _ => 1) 0 first hbyte
  rw [Nat.add_zero, hold] at hzero hone
  exact absurd (hone.trans hzero.symm) (by decide)

/-- What is in the buffer is the line with its NUL if no key deletes. -/
theorem consGets_folds_iff (buf : Nat) {codes : List Int} {last : Int}
    (hcodes : ∀ code ∈ codes, ¬ EndsLine code) (hlast : EndsLine last) :
    ∃ s, consGets buf .start (codes ++ [last]) = some s ∧
      ((∀ mem, HoldsBytes (store mem s.stores) buf (foldKeys (codes.map keyChar) ++ [nul])) ↔
        (∀ c ∈ codes.map keyChar, ¬ Deletes c) ∨ StoredAnyway (codes.map keyChar)) := by
  obtain ⟨s, hcall, hstores⟩ := consGets_stores buf hcodes hlast
  refine ⟨s, hcall, ?_⟩
  rw [hstores]
  by_cases hfirst : FirstDeletes (codes.map keyChar)
  · have hsome : ¬ ∀ c ∈ codes.map keyChar, ¬ Deletes c := by
      obtain ⟨c, hc, hdeletes⟩ := hfirst
      exact fun h => h c (List.mem_of_mem_head? hc) hdeletes
    refine iff_of_false (not_holds_of_firstDeletes hfirst) ?_
    rintro (hnone | ⟨hnot, _⟩)
    · exact hsome hnone
    · exact hnot hfirst
  · have hskip : skipped (codes.map keyChar) = 0 := if_neg hfirst
    have hheld : ∀ mem, HoldsBytes
        (store mem (storesAt buf (typed (codes.map keyChar) ++ [nul]))) buf
        (typed (codes.map keyChar) ++ [nul]) := fun mem => store_holds mem buf _
    have hlength : (foldKeys (codes.map keyChar) ++ [nul]).length ≤
        (typed (codes.map keyChar) ++ [nul]).length := by
      have hle := foldl_foldKey_length_le [] (codes.map keyChar)
      rw [List.length_nil, Nat.zero_add] at hle
      rw [List.length_append, List.length_append]
      exact Nat.add_le_add_right hle 1
    rw [hskip, Nat.add_zero, ← isPrefix_typed_iff hfirst]
    constructor
    · exact fun h => ((hheld fun _ => 0).isPrefix_iff hlength).mp (h fun _ => 0)
    · exact fun h mem => ((hheld mem).isPrefix_iff hlength).mpr h

theorem consGets_folds_a :
    ∃ s, consGets 0 .start ([0x61] ++ [0x0d]) = some s ∧
      ((∀ mem, HoldsBytes (store mem s.stores) 0 (foldKeys ([0x61].map keyChar) ++ [nul])) ↔
        (∀ c ∈ [0x61].map keyChar, ¬ Deletes c) ∨ StoredAnyway ([0x61].map keyChar)) :=
  consGets_folds_iff 0 (by decide) (by decide)

/-- The keys are an a, a backspace and a carriage return. -/
theorem consGets_keeps_deleted :
    ∃ s, consGets 0 .start [0x61, 0x08, 0x0d] = some s ∧
      ¬ ∀ mem, HoldsBytes (store mem s.stores) 0 (foldKeys [0x61, 0x08] ++ [nul]) := by
  refine ⟨_, rfl, fun h => ?_⟩
  have hfirst := h (fun _ => 0) 0 nul rfl
  exact absurd hfirst (by decide)

end Milo.Console
