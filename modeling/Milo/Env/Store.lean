import Mathlib.Data.Finset.Card
import Mathlib.Order.Interval.Finset.Nat
import Milo.Env.Environ
import Milo.Foundation.BoundedMap

/-! # The environment as a map

Seen through `getenv`, a well-formed environment area is a map from names to
values with room for as many new names as it has free chunks. Every run of
`setenv`, `unsetenv` and `resetenv` does to this map what the operations of a
bounded map do.
-/

namespace Milo.Env

open Foundation

/-- A name is not empty and has no `=`. -/
abbrev Name := {s : CString // s.chars ≠ [] ∧ equalSign ∉ s.chars}

/-- Chunk 0 is not used for variables. -/
def InStore (nvars k : Nat) : Prop := 1 ≤ k ∧ k < nvars

/-- The chunk holds `name=value`. -/
structure HoldsEntry (environ : ByteMemory) (k : Nat) (name : Name) (value : CString) :
    Prop where
  bytes : HoldsBytes environ (chunkAt k) (entryBytes name.1 value)
  fits : name.1.chars.length + value.chars.length ≤ 126

/-- Every chunk is free or holds an entry, and all names are different. -/
structure WellFormed (nvars : Nat) (environ : ByteMemory) : Prop where
  entries : ∀ k, InStore nvars k →
    environ (chunkAt k) = 0 ∨ ∃ name value, HoldsEntry environ k name value
  distinct : ∀ j k name value value', InStore nvars j → InStore nvars k →
    HoldsEntry environ j name value → HoldsEntry environ k name value' → j = k

/-- The string that `getenv` points to. -/
def valueOf (nvars : Nat) (environ : ByteMemory) (name : Name) : Option (List UInt8) :=
  (getenv nvars environ name.1).map (stringAt environ)

/-- The free chunks. -/
def freeSet (nvars : Nat) (environ : ByteMemory) : Finset Nat :=
  (Finset.Ico 1 nvars).filter fun k => environ (chunkAt k) = 0

/-- What the area stands for. -/
def storeMap (nvars : Nat) (environ : ByteMemory) : BoundedMap Name (List UInt8) :=
  ⟨valueOf nvars environ, (freeSet nvars environ).card⟩

/-! ## Entries -/

section
variable {nvars k : Nat} {environ environ' : ByteMemory} {name v : Name} {value : CString}

theorem mem_freeSet : k ∈ freeSet nvars environ ↔ InStore nvars k ∧ environ (chunkAt k) = 0 := by
  rw [freeSet, Finset.mem_filter, Finset.mem_Ico, InStore]

theorem HoldsEntry.named (h : HoldsEntry environ k name value) :
    HoldsBytes environ (chunkAt k) (name.1.chars ++ [equalSign]) :=
  (HoldsBytes.append.mp h.bytes).1

theorem HoldsEntry.valued (h : HoldsEntry environ k name value) :
    HoldsBytes environ (chunkAt k + name.1.chars.length + 1) (value.chars ++ [0]) := by
  have hvalue := (HoldsBytes.append.mp h.bytes).2
  rwa [List.length_append, List.length_singleton, ← Nat.add_assoc] at hvalue

/-- The test for the chunk of a variable compares whole names. -/
theorem HoldsEntry.holdsVar_iff_eq (h : HoldsEntry environ k name value) :
    holdsVar environ k v.1 = true ↔ v = name := by
  rw [holdsVar_iff]
  constructor
  · intro hv
    have hchars : v.1.chars = name.1.chars := hv.terminated_unique h.named v.2.2 name.2.2
    obtain ⟨⟨chars, noNul, fits⟩, hname⟩ := v
    obtain rfl : chars = name.1.chars := hchars
    rfl
  · rintro rfl
    exact h.named

theorem HoldsEntry.not_free (h : HoldsEntry environ k name value) : environ (chunkAt k) ≠ 0 :=
  HoldsBytes.first_ne_nul (HoldsBytes.append.mp h.named).1 name.2.1 name.1.noNul

theorem holdsVar_of_free (h : environ (chunkAt k) = 0) : holdsVar environ k v.1 = false := by
  rw [← Bool.not_eq_true, holdsVar_iff]
  intro hv
  exact HoldsBytes.first_ne_nul (HoldsBytes.append.mp hv).1 v.2.1 v.1.noNul h

theorem WellFormed.holdsVar_iff (h : WellFormed nvars environ) (hk : InStore nvars k) :
    holdsVar environ k v.1 = true ↔ ∃ value, HoldsEntry environ k v value := by
  constructor
  · intro hv
    rcases h.entries k hk with hfree | ⟨name, value, hentry⟩
    · rw [holdsVar_of_free hfree] at hv
      cases hv
    · obtain rfl := hentry.holdsVar_iff_eq.mp hv
      exact ⟨value, hentry⟩
  · rintro ⟨value, hentry⟩
    exact hentry.holdsVar_iff_eq.mpr rfl

/-! ## Reading -/

theorem inStore_of_range (h : 1 ≤ k ∧ k < 1 + (nvars - 1)) : InStore nvars k :=
  ⟨h.1, by omega⟩

theorem InStore.range (h : InStore nvars k) : 1 ≤ k ∧ k < 1 + (nvars - 1) :=
  ⟨h.1, by have := h.2; omega⟩

/-- `getenv` yields the value of the entry with the name. -/
theorem WellFormed.valueOf_entry (h : WellFormed nvars environ) (hk : InStore nvars k)
    (hentry : HoldsEntry environ k v value) :
    findVar environ v.1 1 (nvars - 1) = some k ∧ valueOf nvars environ v = some value.chars := by
  have hfind : findVar environ v.1 1 (nvars - 1) = some k := by
    cases hf : findVar environ v.1 1 (nvars - 1) with
    | none =>
        have hother := findVar_eq_none.mp hf k hk.range.1 hk.range.2
        rw [hentry.holdsVar_iff_eq.mpr rfl] at hother
        cases hother
    | some j =>
        obtain ⟨hlo, hhi, hholds⟩ := findVar_eq_some hf
        have hj : InStore nvars j := inStore_of_range ⟨hlo, hhi⟩
        obtain ⟨value', hentry'⟩ := (h.holdsVar_iff hj).mp hholds
        rw [h.distinct j k v value' value hj hk hentry' hentry]
  refine ⟨hfind, ?_⟩
  have hlen := value.fits
  rw [valueOf, getenv, hfind, Option.map_some, Option.map_some,
    stringAt_eq value.noNul (by omega) hentry.valued]

theorem WellFormed.valueOf_eq_some (h : WellFormed nvars environ) {x : List UInt8} :
    valueOf nvars environ v = some x ↔
      ∃ k value, InStore nvars k ∧ HoldsEntry environ k v value ∧ value.chars = x := by
  constructor
  · intro hx
    cases hf : findVar environ v.1 1 (nvars - 1) with
    | none =>
        rw [valueOf, getenv, hf] at hx
        cases hx
    | some k =>
        obtain ⟨hlo, hhi, hholds⟩ := findVar_eq_some hf
        have hk : InStore nvars k := inStore_of_range ⟨hlo, hhi⟩
        obtain ⟨value, hentry⟩ := (h.holdsVar_iff hk).mp hholds
        have hvalue := (h.valueOf_entry hk hentry).2
        exact ⟨k, value, hk, hentry, Option.some.inj (hvalue.symm.trans hx)⟩
  · rintro ⟨k, value, hk, hentry, rfl⟩
    exact (h.valueOf_entry hk hentry).2

theorem valueOf_eq_none :
    valueOf nvars environ v = none ↔ findVar environ v.1 1 (nvars - 1) = none := by
  rw [valueOf, getenv, Option.map_eq_none_iff, Option.map_eq_none_iff]

/-! ## Changing one chunk -/

/-- Only the chunk changes. -/
def SameElsewhere (k : Nat) (environ environ' : ByteMemory) : Prop :=
  ∀ x ∉ (⟨chunkAt k, chunkSize⟩ : Span), environ' x = environ x

theorem SameElsewhere.symm (h : SameElsewhere k environ environ') :
    SameElsewhere k environ' environ := fun x hx => (h x hx).symm

theorem SameElsewhere.at_chunk {j : Nat} (h : SameElsewhere k environ environ') (hj : j ≠ k)
    {i : Nat} (hi : i < chunkSize) : environ' (chunkAt j + i) = environ (chunkAt j + i) := by
  apply h
  rw [Span.mem_mk]
  unfold chunkAt chunkSize at *
  omega

theorem SameElsewhere.entry {j : Nat} (h : SameElsewhere k environ environ') (hj : j ≠ k)
    (hentry : HoldsEntry environ j name value) : HoldsEntry environ' j name value where
  bytes := by
    refine hentry.bytes.congr fun x hx => ?_
    have hfits := hentry.fits
    rw [Span.mem_mk, entryBytes_length] at hx
    have hsame := h.at_chunk hj (i := x - chunkAt j) (by rw [chunkSize]; omega)
    rwa [show chunkAt j + (x - chunkAt j) = x by omega] at hsame
  fits := hentry.fits

theorem SameElsewhere.free {j : Nat} (h : SameElsewhere k environ environ') (hj : j ≠ k) :
    environ' (chunkAt j) = 0 ↔ environ (chunkAt j) = 0 := by
  have hsame : environ' (chunkAt j + 0) = environ (chunkAt j + 0) := h.at_chunk hj (by decide)
  rw [Nat.add_zero] at hsame
  rw [hsame]

/-- A name that the chunk does not hold, neither before nor after, keeps its value. -/
theorem SameElsewhere.valueOf_other (hsame : SameElsewhere k environ environ')
    (h : WellFormed nvars environ) (h' : WellFormed nvars environ')
    (hbefore : ∀ value, ¬ HoldsEntry environ k v value)
    (hafter : ∀ value, ¬ HoldsEntry environ' k v value) :
    valueOf nvars environ' v = valueOf nvars environ v := by
  apply Option.ext
  intro x
  rw [h'.valueOf_eq_some, h.valueOf_eq_some]
  constructor
  · rintro ⟨j, value, hj, hentry, hx⟩
    have hjk : j ≠ k := by
      rintro rfl
      exact hafter value hentry
    exact ⟨j, value, hj, hsame.symm.entry hjk hentry, hx⟩
  · rintro ⟨j, value, hj, hentry, hx⟩
    have hjk : j ≠ k := by
      rintro rfl
      exact hbefore value hentry
    exact ⟨j, value, hj, hsame.entry hjk hentry, hx⟩

theorem HoldsEntry.name_unique {value' : CString} (h : HoldsEntry environ k name value)
    (h' : HoldsEntry environ k v value') : v = name :=
  h.holdsVar_iff_eq.mp (h'.holdsVar_iff_eq.mpr rfl)

/-- An entry can be put into a chunk if no other chunk has the name. -/
theorem WellFormed.put (h : WellFormed nvars environ) (hsame : SameElsewhere k environ environ')
    (hentry : HoldsEntry environ' k name value)
    (hown : ∀ j value, InStore nvars j → HoldsEntry environ j name value → j = k) :
    WellFormed nvars environ' where
  entries := by
    intro j hj
    by_cases hjk : j = k
    · exact Or.inr ⟨name, value, hjk ▸ hentry⟩
    · rcases h.entries j hj with hfree | ⟨name', value', hentry'⟩
      · exact Or.inl ((hsame.free hjk).mpr hfree)
      · exact Or.inr ⟨name', value', hsame.entry hjk hentry'⟩
  distinct := by
    intro i j v w w' hi hj hentryi hentryj
    by_cases hik : i = k <;> by_cases hjk : j = k
    · rw [hik, hjk]
    · obtain rfl := hentry.name_unique (hik ▸ hentryi)
      exact absurd (hown j w' hj (hsame.symm.entry hjk hentryj)) hjk
    · obtain rfl := hentry.name_unique (hjk ▸ hentryj)
      exact absurd (hown i w hi (hsame.symm.entry hik hentryi)) hik
    · exact h.distinct i j v w w' hi hj (hsame.symm.entry hik hentryi)
        (hsame.symm.entry hjk hentryj)

theorem WellFormed.drop (h : WellFormed nvars environ) (hsame : SameElsewhere k environ environ')
    (hfree : environ' (chunkAt k) = 0) : WellFormed nvars environ' where
  entries := by
    intro j hj
    by_cases hjk : j = k
    · exact Or.inl (hjk ▸ hfree)
    · rcases h.entries j hj with hfree' | ⟨name', value', hentry'⟩
      · exact Or.inl ((hsame.free hjk).mpr hfree')
      · exact Or.inr ⟨name', value', hsame.entry hjk hentry'⟩
  distinct := by
    intro i j v w w' hi hj hentryi hentryj
    have hik : i ≠ k := fun hik => hentryi.not_free (hik ▸ hfree)
    have hjk : j ≠ k := fun hjk => hentryj.not_free (hjk ▸ hfree)
    exact h.distinct i j v w w' hi hj (hsame.symm.entry hik hentryi) (hsame.symm.entry hjk hentryj)

/-! ## The operations -/

theorem SameElsewhere.valueOf_put (hsame : SameElsewhere k environ environ')
    (h : WellFormed nvars environ) (h' : WellFormed nvars environ') (hk : InStore nvars k)
    (hentry : HoldsEntry environ' k name value)
    (hbefore : ∀ v value, HoldsEntry environ k v value → v = name) :
    valueOf nvars environ' = Function.update (valueOf nvars environ) name (some value.chars) := by
  funext v
  by_cases hv : v = name
  · rw [hv, Function.update_self, (h'.valueOf_entry hk hentry).2]
  · rw [Function.update_of_ne hv]
    exact hsame.valueOf_other h h' (fun w hw => hv (hbefore v w hw))
      (fun w hw => hv (hentry.name_unique hw))

theorem SameElsewhere.freeSet_erase (nvars : Nat) (hsame : SameElsewhere k environ environ')
    (hused : environ' (chunkAt k) ≠ 0) : freeSet nvars environ' = (freeSet nvars environ).erase k := by
  ext j
  rw [Finset.mem_erase, mem_freeSet, mem_freeSet]
  by_cases hj : j = k
  · subst hj
    simp [hused]
  · rw [hsame.free hj]
    simp [hj]

/-- `setenv` on the map: a replaced value, a new name, or nothing. -/
theorem setenv_storeMap (h : WellFormed nvars environ) (name : Name) (value : CString)
    (hfits : name.1.chars.length + value.chars.length ≤ 126) :
    WellFormed nvars (setenv nvars environ name.1 value) ∧
      storeMap nvars (setenv nvars environ name.1 value) =
        (storeMap nvars environ).set name value.chars := by
  cases hchunk : setenvChunk nvars environ name.1 with
  | none =>
      obtain ⟨hfind, hused⟩ := setenvChunk_eq_none.mp hchunk
      have hroom : freeSet nvars environ = ∅ := by
        rw [Finset.eq_empty_iff_forall_notMem]
        intro k hk
        obtain ⟨hin, hfree⟩ := mem_freeSet.mp hk
        exact hused k hin.range.1 hin.range.2 hfree
      rw [setenv_of_no_chunk hchunk]
      refine ⟨h, ?_⟩
      simp [BoundedMap.set, storeMap, valueOf_eq_none.mpr hfind, hroom]
  | some k =>
      obtain ⟨hbytes, hframe⟩ := setenv_of_chunk value hchunk
      have hentry : HoldsEntry (setenv nvars environ name.1 value) k name value := ⟨hbytes, hfits⟩
      have hsame : SameElsewhere k environ (setenv nvars environ name.1 value) := by
        intro x hx
        refine hframe x fun hin => hx ?_
        rw [Span.mem_mk, entryBytes_length] at hin
        rw [Span.mem_mk, chunkSize]
        omega
      have herase := hsame.freeSet_erase nvars hentry.not_free
      rcases chooseChunk_eq_some hchunk with ⟨hlo, hhi, hholds⟩ | ⟨hfind, hfirst | ⟨hlo, hhi, hfree⟩⟩
      · -- the variable's own chunk
        have hk : InStore nvars k := inStore_of_range ⟨hlo, hhi⟩
        obtain ⟨old, hold⟩ := (h.holdsVar_iff hk).mp hholds
        have h' := h.put hsame hentry fun j w hj hw => h.distinct j k name w old hj hk hw hold
        have hvalues := hsame.valueOf_put h h' hk hentry fun v w hw => hold.name_unique hw
        refine ⟨h', ?_⟩
        rw [Finset.erase_eq_of_notMem fun hin => hold.not_free (mem_freeSet.mp hin).2] at herase
        simp [BoundedMap.set, storeMap, (h.valueOf_entry hk hold).2, hvalues, herase]
      · cases hfirst
      · -- a free chunk, and no chunk has the name
        have hk : InStore nvars k := inStore_of_range ⟨hlo, hhi⟩
        have h' := h.put hsame hentry fun j w hj hw => by
          rw [(h.valueOf_entry hj hw).1] at hfind
          cases hfind
        have hvalues := hsame.valueOf_put h h' hk hentry fun v w hw => absurd hfree hw.not_free
        have hin : k ∈ freeSet nvars environ := mem_freeSet.mpr ⟨hk, hfree⟩
        have hroom : 0 < (freeSet nvars environ).card := Finset.card_pos.mpr ⟨k, hin⟩
        refine ⟨h', ?_⟩
        simp [BoundedMap.set, storeMap, valueOf_eq_none.mpr hfind, hvalues, herase, hin, hroom]

theorem unsetenv_storeMap (h : WellFormed nvars environ) (name : Name) :
    WellFormed nvars (unsetenv nvars environ name.1) ∧
      storeMap nvars (unsetenv nvars environ name.1) = (storeMap nvars environ).remove name := by
  rw [unsetenv]
  cases hfind : findVar environ name.1 1 (nvars - 1) with
  | none =>
      refine ⟨h, ?_⟩
      simp [BoundedMap.remove, storeMap, valueOf_eq_none.mpr hfind]
  | some k =>
      obtain ⟨hlo, hhi, hholds⟩ := findVar_eq_some hfind
      have hk : InStore nvars k := inStore_of_range ⟨hlo, hhi⟩
      obtain ⟨old, hold⟩ := (h.holdsVar_iff hk).mp hholds
      have hfree : Function.update environ (chunkAt k) 0 (chunkAt k) = 0 := Function.update_self ..
      have hsame : SameElsewhere k environ (Function.update environ (chunkAt k) 0) := by
        intro x hx
        refine Function.update_of_ne ?_ _ _
        rintro rfl
        exact hx (Span.mem_mk.mpr ⟨Nat.le_refl _, by rw [chunkSize]; omega⟩)
      have h' := h.drop hsame hfree
      have hvalues : valueOf nvars (Function.update environ (chunkAt k) 0) =
          Function.update (valueOf nvars environ) name none := by
        funext v
        by_cases hv : v = name
        · rw [hv, Function.update_self, Option.eq_none_iff_forall_ne_some]
          intro x hx
          obtain ⟨j, w, hj, hw, -⟩ := h'.valueOf_eq_some.mp hx
          have hjk : j ≠ k := by
            rintro rfl
            exact hw.not_free hfree
          exact hjk (h.distinct j k name w old hj hk (hsame.symm.entry hjk hw) hold)
        · rw [Function.update_of_ne hv]
          exact hsame.valueOf_other h h' (fun w hw => hv (hold.name_unique hw))
            (fun w hw => hw.not_free hfree)
      have hinsert : freeSet nvars (Function.update environ (chunkAt k) 0) =
          insert k (freeSet nvars environ) := by
        ext j
        rw [Finset.mem_insert, mem_freeSet, mem_freeSet]
        by_cases hj : j = k
        · subst hj
          simp [hk]
        · rw [hsame.free hj]
          simp [hj]
      have hout : k ∉ freeSet nvars environ := fun hin => hold.not_free (mem_freeSet.mp hin).2
      refine ⟨h', ?_⟩
      simp [BoundedMap.remove, storeMap, (h.valueOf_entry hk hold).2, hvalues, hinsert, hout]

theorem freeChunks_free {i n : Nat} :
    ∀ k, (i ≤ k ∧ k < i + n) ∨ environ (chunkAt k) = 0 → freeChunks environ i n (chunkAt k) = 0 := by
  induction n generalizing i environ with
  | zero =>
      rintro k (hk | hfree)
      · omega
      · exact hfree
  | succ n ih =>
      intro k hk
      rw [freeChunks]
      apply ih
      by_cases hki : k = i
      · right
        rw [hki, Function.update_self]
      · rcases hk with hk | hfree
        · left
          omega
        · right
          rw [Function.update_of_ne (by unfold chunkAt chunkSize; omega)]
          exact hfree

theorem resetenv_storeMap (nvram : ByteMemory → ByteMemory) :
    WellFormed nvars (resetenv nvars nvram environ) ∧
      storeMap nvars (resetenv nvars nvram environ) = BoundedMap.clear (nvars - 1) := by
  have hfree : ∀ k, InStore nvars k → resetenv nvars nvram environ (chunkAt k) = 0 := by
    intro k hk
    exact freeChunks_free k (Or.inl hk.range)
  have h' : WellFormed nvars (resetenv nvars nvram environ) := by
    refine ⟨fun k hk => Or.inl (hfree k hk), ?_⟩
    intro j k name value value' hj hk hentry hentry'
    exact absurd (hfree j hj) hentry.not_free
  have hvalues : valueOf nvars (resetenv nvars nvram environ) = fun _ => none := by
    funext v
    rw [Option.eq_none_iff_forall_ne_some]
    intro x hx
    obtain ⟨j, w, hj, hw, -⟩ := h'.valueOf_eq_some.mp hx
    exact hw.not_free (hfree j hj)
  have hall : freeSet nvars (resetenv nvars nvram environ) = Finset.Ico 1 nvars := by
    rw [freeSet, Finset.filter_true_of_mem]
    intro k hk
    exact hfree k (Finset.mem_Ico.mp hk)
  refine ⟨h', ?_⟩
  simp [BoundedMap.clear, storeMap, hvalues, hall]

end

/-! ## Runs -/

/-- A call on the store. -/
inductive EnvCall where
  | setenv (name : Name) (value : CString)
      (fits : name.1.chars.length + value.chars.length ≤ 126)
  | unsetenv (name : Name)
  | resetenv

/-- The name a call is about. -/
def EnvCall.name : EnvCall → Option Name
  | .setenv name _ _ => some name
  | .unsetenv name => some name
  | .resetenv => none

section
variable (nvars : Nat) (nvram : ByteMemory → ByteMemory)

def envStep (environ : ByteMemory) : EnvCall → ByteMemory
  | .setenv name value _ => setenv nvars environ name.1 value
  | .unsetenv name => unsetenv nvars environ name.1
  | .resetenv => resetenv nvars nvram environ

/-- The calls on a map. -/
def mapStep (m : BoundedMap Name (List UInt8)) : EnvCall → BoundedMap Name (List UInt8)
  | .setenv name value _ => m.set name value.chars
  | .unsetenv name => m.remove name
  | .resetenv => .clear (nvars - 1)

end

section
variable {nvars : Nat} (nvram : ByteMemory → ByteMemory)

theorem envStep_simulates {environ : ByteMemory} (h : WellFormed nvars environ) (call : EnvCall) :
    WellFormed nvars (envStep nvars nvram environ call) ∧
      storeMap nvars (envStep nvars nvram environ call) =
        mapStep nvars (storeMap nvars environ) call := by
  cases call with
  | setenv name value fits => exact setenv_storeMap h name value fits
  | unsetenv name => exact unsetenv_storeMap h name
  | resetenv => exact resetenv_storeMap nvram

theorem envRun_simulates {environ : ByteMemory} (h : WellFormed nvars environ)
    (calls : List EnvCall) :
    WellFormed nvars (calls.foldl (envStep nvars nvram) environ) ∧
      storeMap nvars (calls.foldl (envStep nvars nvram) environ) =
        calls.foldl (mapStep nvars) (storeMap nvars environ) := by
  induction calls generalizing environ with
  | nil => exact ⟨h, rfl⟩
  | cons call calls ih =>
      obtain ⟨hstep, hmap⟩ := envStep_simulates nvram h call
      obtain ⟨hrun, hrest⟩ := ih hstep
      exact ⟨hrun, by rw [List.foldl_cons, List.foldl_cons, hrest, hmap]⟩

/-- Another name's value is not changed by a call on one name. -/
theorem envStep_other {environ : ByteMemory} (h : WellFormed nvars environ) {call : EnvCall}
    {name v : Name} (hname : call.name = some name) (hv : v ≠ name) :
    valueOf nvars (envStep nvars nvram environ call) v = valueOf nvars environ v := by
  have hmap := congrArg (fun m => m.lookup v) (envStep_simulates nvram h call).2
  refine Eq.trans hmap ?_
  cases call with
  | setenv n value fits =>
      obtain rfl : n = name := Option.some.inj hname
      exact BoundedMap.set_lookup_other _ _ hv
  | unsetenv n =>
      obtain rfl : n = name := Option.some.inj hname
      exact BoundedMap.remove_lookup_other _ hv
  | resetenv => cases hname

theorem setenv_full {environ : ByteMemory} {name : Name} (value : CString)
    (hnew : valueOf nvars environ name = none) (hfull : freeSet nvars environ = ∅) :
    setenv nvars environ name.1 value = environ := by
  apply setenv_of_no_chunk
  rw [setenvChunk_eq_none]
  refine ⟨valueOf_eq_none.mp hnew, fun k hlo hhi hfree => ?_⟩
  have hin : k ∈ freeSet nvars environ := mem_freeSet.mpr ⟨inStore_of_range ⟨hlo, hhi⟩, hfree⟩
  rw [hfull] at hin
  cases hin

/-- After every run the store is the map that the calls make of the initial one. -/
theorem environ_is_map (nvars : Nat) (nvram : ByteMemory → ByteMemory) {environ : ByteMemory}
    (h : WellFormed nvars environ) (calls : List EnvCall) :
    let environ' := calls.foldl (envStep nvars nvram) environ
    (∀ v, valueOf nvars environ' v =
        (calls.foldl (mapStep nvars) (storeMap nvars environ)).lookup v) ∧
      (∀ (v : Name) j k, InStore nvars j → InStore nvars k → holdsVar environ' j v.1 = true →
        holdsVar environ' k v.1 = true → j = k) ∧
      (∀ call name v, call.name = some name → v ≠ name →
        valueOf nvars (envStep nvars nvram environ' call) v = valueOf nvars environ' v) ∧
      ∀ name value, valueOf nvars environ' name = none → freeSet nvars environ' = ∅ →
        setenv nvars environ' name.1 value = environ' := by
  intro environ'
  obtain ⟨hrun, hmap⟩ := envRun_simulates nvram h calls
  refine ⟨fun v => congrArg (fun m => m.lookup v) hmap, ?_, ?_, ?_⟩
  · intro v j k hj hk hvj hvk
    obtain ⟨value, hentry⟩ := (hrun.holdsVar_iff hj).mp hvj
    obtain ⟨value', hentry'⟩ := (hrun.holdsVar_iff hk).mp hvk
    exact hrun.distinct j k v value value' hj hk hentry hentry'
  · exact fun call name v hname hv => envStep_other nvram hrun hname hv
  · exact fun name value hnew hfull => setenv_full value hnew hfull

/-- The names `A` and `AB`, one a prefix of the other. -/
def nameShort : Name := ⟨nameA, by decide, by decide⟩

def nameLong : Name := ⟨⟨[0x41, 0x42], by decide, by decide⟩, by decide, by decide⟩

def blankStore : ByteMemory := fun _ => 0

theorem blankStore_wellFormed (nvars : Nat) : WellFormed nvars blankStore :=
  ⟨fun _ _ => Or.inl rfl, fun _ _ _ _ _ _ _ hentry _ => absurd rfl hentry.not_free⟩

def prefixCalls : List EnvCall :=
  [.setenv nameShort nameA (by decide), .setenv nameLong equalString (by decide),
    .unsetenv nameShort]

theorem environ_is_map_prefix :
    WellFormed 16 blankStore ∧
      valueOf 16 (prefixCalls.foldl (envStep 16 id) blankStore) nameShort = none ∧
      valueOf 16 (prefixCalls.foldl (envStep 16 id) blankStore) nameLong = some [equalSign] := by
  have hmap := (environ_is_map 16 id (blankStore_wellFormed 16) prefixCalls).1
  refine ⟨blankStore_wellFormed 16, (hmap nameShort).trans ?_, (hmap nameLong).trans ?_⟩
  · decide
  · decide

end

end Milo.Env
