import Mathlib.Data.List.Basic

/-! # Fields of a list

Reading a field cuts it out, and writing one lays it over what was there. A field
reads back as it was written, and other fields do not change.
-/

namespace Foundation

section
variable {α : Type _}

/-- `n` elements from `a` on. -/
def slice (list : List α) (a n : Nat) : List α := (list.drop a).take n

/-- The list with a field laid over it at `a`. -/
def patch (list : List α) (a : Nat) (field : List α) : List α :=
  list.take a ++ field ++ list.drop (a + field.length)

theorem getElem?_slice (list : List α) (a n i : Nat) :
    (slice list a n)[i]? = if i < n then list[a + i]? else none := by
  rw [slice, List.getElem?_take, List.getElem?_drop]

theorem slice_eq_iff {list other : List α} {a n : Nat} :
    slice other a n = slice list a n ↔ ∀ i, a ≤ i → i < a + n → other[i]? = list[i]? := by
  constructor
  · intro h i hlo hhi
    have hi := congrArg (·[i - a]?) h
    simp only [getElem?_slice] at hi
    rwa [if_pos (by omega), if_pos (by omega), Nat.add_sub_cancel' hlo] at hi
  · intro h
    apply List.ext_getElem?
    intro i
    rw [getElem?_slice, getElem?_slice]
    split
    · exact h (a + i) (by omega) (by omega)
    · rfl

theorem slice_slice (list : List α) {a n b m : Nat} (h : b + m ≤ n) :
    slice (slice list a n) b m = slice list (a + b) m := by
  apply List.ext_getElem?
  intro i
  simp only [getElem?_slice]
  split
  · rw [if_pos (by omega), Nat.add_assoc]
  · rfl

/-- Two fields side by side. -/
theorem slice_append_slice (list : List α) (a n m : Nat) :
    slice list a n ++ slice list (a + n) m = slice list a (n + m) := by
  unfold slice
  rw [← List.drop_drop, ← List.take_add]

theorem slice_length {list : List α} {a n : Nat} (h : a + n ≤ list.length) :
    (slice list a n).length = n := by
  rw [slice, List.length_take, List.length_drop]
  omega

section
variable {list field : List α} {a : Nat}

theorem patch_length (h : a + field.length ≤ list.length) :
    (patch list a field).length = list.length := by
  simp only [patch, List.length_append, List.length_take, List.length_drop]
  omega

/-- A field may also go beyond the end. -/
theorem le_patch_length (h : a ≤ list.length) :
    a + field.length ≤ (patch list a field).length := by
  simp only [patch, List.length_append, List.length_take, List.length_drop]
  omega

theorem getElem?_patch (h : a ≤ list.length) (i : Nat) :
    (patch list a field)[i]? =
      if a ≤ i ∧ i < a + field.length then field[i - a]? else list[i]? := by
  have htake : (list.take a).length = a := List.length_take_of_le h
  unfold patch
  rw [List.append_assoc]
  rcases Nat.lt_or_ge i a with hlo | hlo
  · rw [List.getElem?_append_left (by omega), List.getElem?_take, if_pos hlo, if_neg (by omega)]
  · rw [List.getElem?_append_right (by omega), htake]
    rcases Nat.lt_or_ge i (a + field.length) with hhi | hhi
    · rw [List.getElem?_append_left (by omega), if_pos ⟨hlo, hhi⟩]
    · rw [List.getElem?_append_right (by omega), List.getElem?_drop, if_neg (by omega)]
      congr 1
      omega

/-- The field that was written. -/
theorem slice_patch_self (h : a ≤ list.length) : slice (patch list a field) a field.length = field := by
  apply List.ext_getElem?
  intro i
  rw [getElem?_slice, getElem?_patch h]
  split
  · rw [if_pos (by omega), Nat.add_sub_cancel_left]
  · rw [List.getElem?_eq_none (by omega)]

/-- Part of the field that was written. -/
theorem slice_patch_inside {b n : Nat} (h : a ≤ list.length) (hfits : b + n ≤ field.length) :
    slice (patch list a field) (a + b) n = slice field b n := by
  apply List.ext_getElem?
  intro i
  rw [getElem?_slice, getElem?_slice, getElem?_patch h]
  split
  · rw [if_pos (by omega)]
    congr 1
    omega
  · rfl

/-- A field beside the one that was written. -/
theorem slice_patch_other {b n : Nat} (h : a ≤ list.length)
    (hapart : b + n ≤ a ∨ a + field.length ≤ b) :
    slice (patch list a field) b n = slice list b n := by
  rw [slice_eq_iff]
  intro i hlo hhi
  rw [getElem?_patch h, if_neg (by omega)]

/-- Two fields side by side are laid over as one. -/
theorem patch_patch {next : List α} (h : a + field.length ≤ list.length) :
    patch (patch list a field) (a + field.length) next = patch list a (field ++ next) := by
  have hlength := patch_length h
  apply List.ext_getElem?
  intro i
  rw [getElem?_patch (by omega), getElem?_patch (by omega), getElem?_patch (by omega),
    List.length_append]
  by_cases hfield : a ≤ i ∧ i < a + field.length
  · rw [if_neg (by omega), if_pos hfield, if_pos (by omega), List.getElem?_append_left (by omega)]
  · rw [if_neg hfield]
    by_cases hnext : a + field.length ≤ i ∧ i < a + field.length + next.length
    · rw [if_pos hnext, if_pos (by omega), List.getElem?_append_right (by omega)]
      congr 1
      omega
    · rw [if_neg hnext, if_neg (by omega)]

end

end

end Foundation
