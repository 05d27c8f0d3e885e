import Mathlib.Algebra.BigOperators.Group.List.Basic
import Mathlib.Algebra.Order.Ring.Int
import Mathlib.Data.List.Chain

/-! # Maximal runs of a sequence

A run-length encoding cuts the positions `0, …, n - 1` of a sequence into runs
of one value each. It is maximal when no two neighbouring runs have the same
value. An encoding grows at its end: by one more position of the last value, or
by a new run.
-/

namespace Foundation

structure Run (α : Type _) where
  start : Nat
  len : Nat
  value : α
  deriving DecidableEq

/-- The runs are the maximal run-length encoding of the first `n` values. -/
structure IsRunLength {α : Type _} (f : Nat → α) (n : Nat) (runs : List (Run α)) : Prop where
  first : ∀ r ∈ runs.head?, r.start = 0
  chained : runs.IsChain fun r s => s.start = r.start + r.len
  nonempty : ∀ r ∈ runs, 0 < r.len
  total : (runs.map Run.len).sum = n
  changes : runs.IsChain fun r s => r.value ≠ s.value
  values : ∀ r ∈ runs, ∀ i, r.start ≤ i → i < r.start + r.len → f i = r.value

section
variable {α : Type _} {f : Nat → α}

theorem isRunLength_one : IsRunLength f 1 [⟨0, 1, f 0⟩] where
  first := by simp
  chained := List.isChain_singleton _
  nonempty := by simp
  total := by simp
  changes := List.isChain_singleton _
  values := by
    intro r hr i hlo hhi
    obtain rfl := List.mem_singleton.mp hr
    rw [show i = 0 by simpa using hhi]

/-- Chained runs end where their lengths add up to. -/
theorem chained_end {init : List (Run α)} {r : Run α} {start : Nat}
    (hfirst : ∀ q ∈ (init ++ [r]).head?, q.start = start)
    (hchained : (init ++ [r]).IsChain fun r s => s.start = r.start + r.len) :
    r.start + r.len = start + ((init ++ [r]).map Run.len).sum := by
  induction init generalizing start with
  | nil => simp [hfirst r rfl]
  | cons q init ih =>
      have hq : q.start = start := hfirst q rfl
      rw [List.cons_append, List.isChain_cons] at hchained
      have hrest := ih (fun s hs => hchained.1 s hs) hchained.2
      rw [List.cons_append, List.map_cons, List.sum_cons]
      omega

/-- The last run ends where the encoded positions end. -/
theorem IsRunLength.last_end {n : Nat} {init : List (Run α)} {r : Run α}
    (h : IsRunLength f n (init ++ [r])) : r.start + r.len = n := by
  rw [chained_end h.first h.chained, h.total, Nat.zero_add]

/-- One more position with the value of the last run. -/
theorem IsRunLength.extend {n : Nat} {init : List (Run α)} {r : Run α}
    (h : IsRunLength f n (init ++ [r])) (hvalue : f n = r.value) :
    IsRunLength f (n + 1) (init ++ [{ r with len := r.len + 1 }]) where
  first := by
    cases init with
    | nil => simpa using h.first
    | cons q init => simpa using h.first
  chained := by
    have hchained := h.chained
    rw [List.isChain_append] at hchained ⊢
    simpa using hchained
  nonempty := by
    intro s hs
    rcases List.mem_append.mp hs with hold | hnew
    · exact h.nonempty s (List.mem_append_left _ hold)
    · obtain rfl := List.mem_singleton.mp hnew
      exact Nat.succ_pos _
  total := by
    have htotal := h.total
    simp only [List.map_append, List.sum_append, List.map_cons, List.map_nil, List.sum_singleton]
      at htotal ⊢
    omega
  changes := by
    have hchanges := h.changes
    rw [List.isChain_append] at hchanges ⊢
    simpa using hchanges
  values := by
    intro s hs i hlo hhi
    rcases List.mem_append.mp hs with hold | hnew
    · exact h.values s (List.mem_append_left _ hold) i hlo hhi
    · obtain rfl := List.mem_singleton.mp hnew
      have hend := h.last_end
      dsimp only at hlo hhi ⊢
      by_cases hi : i = n
      · rw [hi, hvalue]
      · exact h.values r (List.mem_append_right _ (List.mem_singleton_self r)) i hlo (by omega)

/-- One more position with another value. -/
theorem IsRunLength.append {n : Nat} {init : List (Run α)} {r : Run α}
    (h : IsRunLength f n (init ++ [r])) (hvalue : f n ≠ r.value) :
    IsRunLength f (n + 1) (init ++ [r] ++ [⟨n, 1, f n⟩]) where
  first := by
    cases init with
    | nil => simpa using h.first
    | cons q init => simpa using h.first
  chained := by
    rw [List.isChain_append]
    refine ⟨h.chained, List.isChain_singleton _, ?_⟩
    simpa using h.last_end.symm
  nonempty := by
    intro s hs
    rcases List.mem_append.mp hs with hold | hnew
    · exact h.nonempty s hold
    · obtain rfl := List.mem_singleton.mp hnew
      exact Nat.one_pos
  total := by
    rw [List.map_append, List.sum_append, h.total]
    rfl
  changes := by
    rw [List.isChain_append]
    refine ⟨h.changes, List.isChain_singleton _, ?_⟩
    simpa using Ne.symm hvalue
  values := by
    intro s hs i hlo hhi
    rcases List.mem_append.mp hs with hold | hnew
    · exact h.values s hold i hlo hhi
    · obtain rfl := List.mem_singleton.mp hnew
      dsimp only at hlo hhi ⊢
      rw [show i = n by omega]

end

end Foundation
