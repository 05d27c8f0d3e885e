import Mathlib.Algebra.Order.Ring.Int
import Mathlib.Tactic.ByContra

/-! # Half-open ranges of numbers

A span is a start and a length. Families of spans that share no member are the
common currency of allocators: pages, bytes and table nodes are all counted in
them.
-/

namespace Foundation

structure Span where
  start : Nat
  len : Nat
  deriving DecidableEq, Repr

namespace Span

instance : Membership Nat Span := ⟨fun s a => s.start ≤ a ∧ a < s.start + s.len⟩

theorem mem_def {s : Span} {a : Nat} : a ∈ s ↔ s.start ≤ a ∧ a < s.start + s.len := Iff.rfl

@[simp] theorem mem_mk {start len a : Nat} :
    a ∈ (⟨start, len⟩ : Span) ↔ start ≤ a ∧ a < start + len := Iff.rfl

instance (s : Span) (a : Nat) : Decidable (a ∈ s) :=
  inferInstanceAs (Decidable (s.start ≤ a ∧ a < s.start + s.len))

/-- No number lies in both spans. -/
def Disjoint (s t : Span) : Prop := ∀ a, a ∈ s → a ∉ t

theorem Disjoint.symm {s t : Span} (h : Disjoint s t) : Disjoint t s := fun a ht hs => h a hs ht

theorem disjoint_iff {s t : Span} :
    Disjoint s t ↔
      s.len = 0 ∨ t.len = 0 ∨ s.start + s.len ≤ t.start ∨ t.start + t.len ≤ s.start := by
  constructor
  · intro h
    by_contra hmeet
    exact h (max s.start t.start) (by rw [mem_def]; omega) (by rw [mem_def]; omega)
  · intro h a hs ht
    rw [mem_def] at hs ht
    omega

instance (s t : Span) : Decidable (Disjoint s t) := decidable_of_iff' _ disjoint_iff

/-- Every number of the span lies in the other one. -/
def Within (s t : Span) : Prop := ∀ a ∈ s, a ∈ t

theorem within_iff {s t : Span} :
    Within s t ↔ s.len = 0 ∨ (t.start ≤ s.start ∧ s.start + s.len ≤ t.start + t.len) := by
  constructor
  · intro h
    by_cases hempty : s.len = 0
    · exact Or.inl hempty
    · have hfirst := mem_def.mp (h s.start (mem_def.mpr (by omega)))
      have hlast := mem_def.mp (h (s.start + s.len - 1) (mem_def.mpr (by omega)))
      exact Or.inr ⟨hfirst.1, by omega⟩
  · intro h a ha
    rw [mem_def] at ha ⊢
    omega

/-- Some span of the family holds the number. -/
def Covers (spans : List Span) (a : Nat) : Prop := ∃ s ∈ spans, a ∈ s

instance (spans : List Span) (a : Nat) : Decidable (Covers spans a) :=
  inferInstanceAs (Decidable (∃ s ∈ spans, a ∈ s))

theorem Covers.cons {s : Span} {spans : List Span} {a : Nat} (h : Covers spans a) :
    Covers (s :: spans) a := by
  obtain ⟨t, ht, ha⟩ := h
  exact ⟨t, List.mem_cons_of_mem s ht, ha⟩

theorem Covers.head {s : Span} {a : Nat} (spans : List Span) (h : a ∈ s) :
    Covers (s :: spans) a := ⟨s, List.mem_cons_self, h⟩

theorem Covers.append_right {spans : List Span} {a : Nat} (more : List Span) (h : Covers spans a) :
    Covers (more ++ spans) a := by
  obtain ⟨t, ht, ha⟩ := h
  exact ⟨t, List.mem_append_right more ht, ha⟩

theorem covers_append {xs ys : List Span} {a : Nat} :
    Covers (xs ++ ys) a ↔ Covers xs a ∨ Covers ys a := by
  simp only [Covers, List.mem_append, or_and_right, exists_or]

/-- A span may be added anywhere in a pairwise disjoint family that does not
hold any of its numbers. -/
theorem pairwise_disjoint_insert {xs ys : List Span} {s : Span}
    (h : (xs ++ ys).Pairwise Disjoint) (hs : ∀ a ∈ s, ¬ Covers (xs ++ ys) a) :
    (xs ++ s :: ys).Pairwise Disjoint := by
  refine (List.pairwise_middle Disjoint.symm).mpr (List.pairwise_cons.mpr ⟨?_, h⟩)
  intro t ht a ha hat
  exact hs a ha ⟨t, ht, hat⟩

end Span

end Foundation
