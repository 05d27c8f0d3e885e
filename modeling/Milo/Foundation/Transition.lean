import Mathlib.Logic.Basic

/-! # Partial state machines

A machine is a step function that either moves to the next state or stops. A
run feeds it a list of inputs. The rules below carry a one-step fact over a
whole run: a property that every step keeps, or a relation to a second, total
machine that every step keeps.
-/

namespace Foundation

section
variable {σ ι α : Type _} {step : σ → ι → Option σ}

/-- Feed the inputs one after the other; `none` once a step stops the machine. -/
def run (step : σ → ι → Option σ) : σ → List ι → Option σ
  | s, [] => some s
  | s, i :: is => (step s i).bind fun s' => run step s' is

/-- Every step of the run meets `ok` in the state it is taken from. -/
def StepsMeet (step : σ → ι → Option σ) (ok : σ → ι → Prop) : σ → List ι → Prop
  | _, [] => True
  | s, i :: is => ok s i ∧ ∀ s', step s i = some s' → StepsMeet step ok s' is

@[simp] theorem run_nil (s : σ) : run step s [] = some s := rfl

theorem run_cons {s s' : σ} {i : ι} {is : List ι} :
    run step s (i :: is) = some s' ↔ ∃ t, step s i = some t ∧ run step t is = some s' := by
  simp [run, Option.bind_eq_some_iff]

theorem run_append {s s' : σ} (is js : List ι) :
    run step s (is ++ js) = some s' ↔
      ∃ t, run step s is = some t ∧ run step t js = some s' := by
  induction is generalizing s with
  | nil => simp
  | cons i is ih =>
      simp only [List.cons_append, run_cons, ih]
      constructor
      · rintro ⟨t, ht, u, hu, hs⟩
        exact ⟨u, ⟨t, ht, hu⟩, hs⟩
      · rintro ⟨u, ⟨t, ht, hu⟩, hs⟩
        exact ⟨t, ht, u, hu, hs⟩

/-- The condition can be checked along a concrete run. -/
instance stepsMeetDecidable {ok : σ → ι → Prop} [∀ s i, Decidable (ok s i)] :
    ∀ s is, Decidable (StepsMeet step ok s is)
  | _, [] => isTrue trivial
  | s, i :: is =>
      match h : step s i with
      | none => decidable_of_iff (ok s i) (by simp [StepsMeet, h])
      | some t =>
          have : Decidable (StepsMeet step ok t is) := stepsMeetDecidable t is
          decidable_of_iff (ok s i ∧ StepsMeet step ok t is) (by simp [StepsMeet, h])

theorem stepsMeet_append {ok : σ → ι → Prop} {s t : σ} {is js : List ι}
    (h : StepsMeet step ok s (is ++ js)) (ht : run step s is = some t) :
    StepsMeet step ok s is ∧ StepsMeet step ok t js := by
  induction is generalizing s with
  | nil =>
      cases ht
      exact ⟨trivial, h⟩
  | cons i is ih =>
      obtain ⟨u, hu, hrest⟩ := run_cons.mp ht
      have htail := ih (h.2 u hu) hrest
      refine ⟨⟨h.1, ?_⟩, htail.2⟩
      intro v hv
      obtain rfl : u = v := Option.some.inj (hu.symm.trans hv)
      exact htail.1

theorem stepsMeet_of_forall {ok : σ → ι → Prop} {s : σ} {is : List ι}
    (h : ∀ i ∈ is, ∀ s, ok s i) : StepsMeet step ok s is := by
  induction is generalizing s with
  | nil => trivial
  | cons i is ih =>
      exact ⟨h i List.mem_cons_self s, fun t _ => ih fun j hj => h j (List.mem_cons_of_mem i hj)⟩

theorem stepsMeet_true (s : σ) (is : List ι) : StepsMeet step (fun _ _ => True) s is :=
  stepsMeet_of_forall fun _ _ _ => trivial

/-- What every admissible step keeps, every admissible run keeps. -/
theorem run_invariant {ok : σ → ι → Prop} {Inv : σ → Prop}
    (hstep : ∀ s i s', Inv s → ok s i → step s i = some s' → Inv s')
    {s s' : σ} {is : List ι} (hs : Inv s) (hok : StepsMeet step ok s is)
    (hrun : run step s is = some s') : Inv s' := by
  induction is generalizing s with
  | nil =>
      cases hrun
      exact hs
  | cons i is ih =>
      obtain ⟨t, ht, hrest⟩ := run_cons.mp hrun
      exact ih (hstep s i t hs hok.1 ht) (hok.2 t ht) hrest

/-- If every admissible step is taken and keeps a property, so is every admissible
run. -/
theorem run_total {ok : σ → ι → Prop} {Inv : σ → Prop}
    (hstep : ∀ s i, Inv s → ok s i → ∃ s', step s i = some s' ∧ Inv s') {s : σ} {is : List ι}
    (hs : Inv s) (hok : StepsMeet step ok s is) : ∃ s', run step s is = some s' ∧ Inv s' := by
  induction is generalizing s with
  | nil => exact ⟨s, rfl, hs⟩
  | cons i is ih =>
      obtain ⟨t, ht, hinv⟩ := hstep s i hs hok.1
      rw [run, ht]
      exact ih hinv (hok.2 t ht)

/-- If the admissible steps are exactly those that are taken and keep a property,
the admissible runs are exactly those that do so all along. -/
theorem run_total_iff {ok : σ → ι → Prop} {Inv : σ → Prop}
    (hstep : ∀ s i, Inv s → (ok s i ↔ ∃ s', step s i = some s' ∧ Inv s')) {s : σ} (is : List ι)
    (hs : Inv s) : StepsMeet step ok s is ↔
      ∀ n ≤ is.length, ∃ s', run step s (is.take n) = some s' ∧ Inv s' := by
  induction is generalizing s with
  | nil =>
      constructor
      · intro _ n _
        rw [List.take_nil]
        exact ⟨s, rfl, hs⟩
      · intro _
        trivial
  | cons i is ih =>
      constructor
      · intro hok n hn
        obtain ⟨t, ht, hinv⟩ := (hstep s i hs).mp hok.1
        cases n with
        | zero => exact ⟨s, rfl, hs⟩
        | succ n =>
            rw [List.take_succ_cons, run, ht]
            exact (ih hinv).mp (hok.2 t ht) n (Nat.le_of_succ_le_succ hn)
      · intro hall
        have hfirst := hall 1 (by simp)
        rw [List.take_succ_cons, List.take_zero] at hfirst
        simp only [run_cons, run_nil, Option.some.injEq, exists_eq_right] at hfirst
        refine ⟨(hstep s i hs).mpr hfirst, fun t ht => ?_⟩
        obtain ⟨t', ht', hinv⟩ := hfirst
        obtain rfl := Option.some.inj (ht.symm.trans ht')
        refine (ih hinv).mpr fun n hn => ?_
        have hrest := hall (n + 1) (Nat.succ_le_succ hn)
        rw [List.take_succ_cons, run, ht] at hrest
        exact hrest

/-- A relation to a total machine on the same inputs that every admissible step
keeps is kept by every admissible run. -/
theorem run_simulates {ok : σ → ι → Prop} {R : σ → α → Prop} {next : α → ι → α}
    (hstep : ∀ s a i s', R s a → ok s i → step s i = some s' → R s' (next a i))
    {s s' : σ} {a : α} {is : List ι} (hs : R s a) (hok : StepsMeet step ok s is)
    (hrun : run step s is = some s') : R s' (is.foldl next a) := by
  induction is generalizing s a with
  | nil =>
      cases hrun
      exact hs
  | cons i is ih =>
      obtain ⟨t, ht, hrest⟩ := run_cons.mp hrun
      exact ih (hstep s a i t hs hok.1 ht) (hok.2 t ht) hrest

end

end Foundation
