/-! # Guarded computations

A computation that would divide by zero or touch memory behind an object stops
with a fault. A computation that is built from guarded steps yields a value
exactly if all its steps do.
-/

namespace Foundation

inductive Fault where
  | divideByZero
  | outside
deriving DecidableEq, Repr

abbrev Guarded := Except Fault

/-- A division, for a divisor that may be zero. -/
def divide (a b : Nat) : Guarded Nat := if b = 0 then .error .divideByZero else .ok (a / b)

/-- The remainder of the same division. -/
def remainder (a b : Nat) : Guarded Nat := if b = 0 then .error .divideByZero else .ok (a % b)

/-- An access of some length at a place in an object. -/
def access (place length size : Nat) : Guarded Unit :=
  if length = 0 ∨ place + length ≤ size then .ok () else .error .outside

namespace Guarded

section
variable {α β : Type _}

/-- The computation ends without a fault. -/
def Safe (x : Guarded α) : Prop := ∃ a, x = .ok a

theorem safe_ok (a : α) : Safe (.ok a) := ⟨a, rfl⟩

@[simp] theorem ok_bind (a : α) (f : α → Guarded β) : ((.ok a : Guarded α) >>= f) = f a := rfl

theorem bind_eq_ok {x : Guarded α} {f : α → Guarded β} {b : β} :
    (x >>= f) = .ok b ↔ ∃ a, x = .ok a ∧ f a = .ok b := by
  cases x with
  | error e =>
      constructor
      · intro h
        cases h
      · rintro ⟨a, ha, -⟩
        cases ha
  | ok a =>
      constructor
      · exact fun h => ⟨a, rfl, h⟩
      · rintro ⟨a', ha, hf⟩
        cases ha
        exact hf

theorem safe_bind {x : Guarded α} {f : α → Guarded β} :
    Safe (x >>= f) ↔ ∃ a, x = .ok a ∧ Safe (f a) := by
  unfold Safe
  simp only [bind_eq_ok]
  constructor
  · rintro ⟨b, a, ha, hb⟩
    exact ⟨a, ha, b, hb⟩
  · rintro ⟨a, ha, b, hb⟩
    exact ⟨b, a, ha, hb⟩

@[simp] theorem divide_eq_ok {a b q : Nat} : divide a b = .ok q ↔ b ≠ 0 ∧ a / b = q := by
  unfold divide
  split <;> simp_all

@[simp] theorem access_eq_ok {place length size : Nat} {u : Unit} :
    access place length size = .ok u ↔ length = 0 ∨ place + length ≤ size := by
  unfold access
  split <;> simp_all

/-- A computation for each element of a list, none of which has a fault. -/
theorem mapM_ok {f : α → Guarded β} {g : α → β} {l : List α} (h : ∀ a ∈ l, f a = .ok (g a)) :
    l.mapM f = .ok (l.map g) := by
  induction l with
  | nil => rfl
  | cons a l ih =>
      rw [List.mapM_cons, h a List.mem_cons_self, ok_bind,
        ih fun b hb => h b (List.mem_cons_of_mem a hb)]
      rfl

/-- A guarded step for each element of a list. -/
theorem forM_eq_ok {f : α → Guarded Unit} {l : List α} :
    l.forM f = .ok () ↔ ∀ a ∈ l, f a = .ok () := by
  induction l with
  | nil => exact iff_of_true rfl fun a ha => absurd ha List.not_mem_nil
  | cons a l ih =>
      change (f a >>= fun _ => l.forM f) = .ok () ↔ _
      rw [bind_eq_ok, List.forall_mem_cons, ← ih]
      constructor
      · rintro ⟨_, hfirst, hrest⟩
        exact ⟨hfirst, hrest⟩
      · rintro ⟨hfirst, hrest⟩
        exact ⟨(), hfirst, hrest⟩

end

end Guarded

end Foundation
