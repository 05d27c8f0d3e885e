import Mathlib.Data.List.Basic

/-! # Lists with a last entry

A list with one more entry at its end can be split behind that entry or in front of it.
-/

namespace Foundation

section
variable {α : Type _} {front before after : List α} {a b : α}

theorem concat_eq_append (h : front ++ [a] = before ++ after) :
    after = [] ∨ ∃ after', after = after' ++ [a] ∧ front = before ++ after' := by
  rcases List.eq_nil_or_concat' after with rfl | ⟨after', last, rfl⟩
  · exact .inl rfl
  · rw [← List.append_assoc] at h
    obtain ⟨hfront, hlast⟩ := List.append_inj' h rfl
    exact .inr ⟨after', by rw [List.singleton_inj.mp hlast], hfront⟩

/-- An entry of the list is the last one, or stands in front of it. -/
theorem concat_eq_append_cons (h : front ++ [a] = before ++ b :: after) :
    (before = front ∧ b = a ∧ after = []) ∨
      ∃ after', after = after' ++ [a] ∧ front = before ++ b :: after' := by
  rw [List.append_cons before] at h
  rcases concat_eq_append h with rfl | ⟨after', rfl, hfront⟩
  · rw [List.append_nil] at h
    obtain ⟨hfront, hlast⟩ := List.append_inj' h rfl
    exact .inl ⟨hfront.symm, (List.singleton_inj.mp hlast).symm, rfl⟩
  · exact .inr ⟨after', rfl, by rw [hfront, ← List.append_cons]⟩

end

end Foundation
