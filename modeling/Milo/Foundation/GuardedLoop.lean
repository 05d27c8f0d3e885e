import Milo.Foundation.Guarded

/-! # Guarded loops

A round of a loop goes on in a new state, yields the result, or has a fault. A
loop ends if its rounds come to a result. The rules say what that means for the
states on the way, and give two ways to decide it: a measure that decreases, and
a property that keeps the loop going.
-/

namespace Foundation

section
variable {ι α : Type _} (round : ι → Guarded (ι ⊕ α))

/-- The loop ends without a fault. -/
inductive Ends : ι → Prop where
  | done {s : ι} {a : α} (h : round s = .ok (.inr a)) : Ends s
  | next {s t : ι} (h : round s = .ok (.inl t)) (rest : Ends t) : Ends s

/-- The loop comes from one state to the other. -/
inductive Reaches (s : ι) : ι → Prop where
  | refl : Reaches s s
  | step {t u : ι} (before : Reaches s t) (h : round t = .ok (.inl u)) : Reaches s u

/-- The loop ends without a fault, with a result. -/
def Yields (s : ι) (a : α) : Prop := ∃ t, Reaches round s t ∧ round t = .ok (.inr a)

variable {round}

theorem Ends.round_ok {s : ι} (h : Ends round s) : ∃ x, round s = .ok x := by
  cases h with
  | done h => exact ⟨_, h⟩
  | next h _ => exact ⟨_, h⟩

theorem Ends.of_next {s t : ι} (h : Ends round s) (hnext : round s = .ok (.inl t)) :
    Ends round t := by
  cases h with
  | done hdone =>
      rw [hdone] at hnext
      cases hnext
  | next hother rest =>
      rw [hother] at hnext
      cases hnext
      exact rest

/-- A loop that ends does so from every state it comes to. -/
theorem Ends.of_reaches {s t : ι} (h : Ends round s) (ht : Reaches round s t) : Ends round t := by
  induction ht with
  | refl => exact h
  | step _ hnext ih => exact ih.of_next hnext

/-- A loop ends if it comes to a state from which it does. -/
theorem Reaches.ends {s t : ι} (ht : Reaches round s t) (h : Ends round t) : Ends round s := by
  induction ht with
  | refl => exact h
  | step _ hnext ih => exact ih (.next hnext h)

theorem Reaches.trans {s t u : ι} (ht : Reaches round s t) (hu : Reaches round t u) :
    Reaches round s u := by
  induction hu with
  | refl => exact ht
  | step _ hnext ih => exact .step ih hnext

theorem Reaches.head {s t u : ι} (h : round s = .ok (.inl t)) (hu : Reaches round t u) :
    Reaches round s u :=
  (Reaches.refl.step h).trans hu

theorem Reaches.yields {s t : ι} {a : α} (ht : Reaches round s t) (h : Yields round t a) :
    Yields round s a := by
  obtain ⟨u, hreach, hdone⟩ := h
  exact ⟨u, ht.trans hreach, hdone⟩

theorem Ends.yields {s : ι} (h : Ends round s) : ∃ a, Yields round s a := by
  induction h with
  | @done s a hdone => exact ⟨a, s, .refl, hdone⟩
  | next hnext _ ih =>
      obtain ⟨a, t, hreach, hdone⟩ := ih
      exact ⟨a, t, hreach.head hnext, hdone⟩

theorem Reaches.invariant {P : ι → Prop} {s t : ι} (ht : Reaches round s t) (hs : P s)
    (hstep : ∀ t u, P t → round t = .ok (.inl u) → P u) : P t := by
  induction ht with
  | refl => exact hs
  | step _ hnext ih => exact hstep _ _ ih hnext

/-- A measure that every round makes smaller bounds the rounds. -/
theorem ends_of_measure (m : ι → Nat) {s : ι}
    (h : ∀ t, Reaches round s t → ∃ x, round t = .ok x ∧ ∀ u, x = .inl u → m u < m t) :
    Ends round s := by
  have hall : ∀ n t, m t < n → Reaches round s t → Ends round t := by
    intro n
    induction n with
    | zero => exact fun t ht => absurd ht (Nat.not_lt_zero _)
    | succ n ih =>
        intro t ht hreach
        obtain ⟨x, hx, hless⟩ := h t hreach
        cases x with
        | inr a => exact .done hx
        | inl u =>
            have hu := hless u rfl
            exact .next hx (ih u (by omega) (.step hreach hx))
  exact hall (m s + 1) s (Nat.lt_succ_self _) .refl

/-- A loop that can always go on does not end. -/
theorem not_ends_of_forever {P : ι → Prop} {s : ι} (hs : P s)
    (h : ∀ t, P t → ∃ u, round t = .ok (.inl u) ∧ P u) : ¬ Ends round s := by
  intro hends
  induction hends with
  | @done t a hdone =>
      obtain ⟨u, hu, -⟩ := h t hs
      rw [hdone] at hu
      cases hu
  | @next t u hnext _ ih =>
      obtain ⟨v, hv, hkept⟩ := h t hs
      rw [hnext] at hv
      cases hv
      exact ih hkept

end

end Foundation
