import Mathlib.Logic.Function.Basic

/-! # Maps with a bounded number of keys

A bounded map knows how many further keys it has room for. Setting a key that is
present always succeeds; a new key needs room and is otherwise ignored.
-/

namespace Foundation

@[ext] structure BoundedMap (κ α : Type _) where
  lookup : κ → Option α
  room : Nat

namespace BoundedMap

variable {κ α : Type _} [DecidableEq κ]

def set (m : BoundedMap κ α) (key : κ) (value : α) : BoundedMap κ α :=
  if (m.lookup key).isSome then { m with lookup := Function.update m.lookup key (some value) }
  else if 0 < m.room then ⟨Function.update m.lookup key (some value), m.room - 1⟩
  else m

def remove (m : BoundedMap κ α) (key : κ) : BoundedMap κ α :=
  if (m.lookup key).isSome then ⟨Function.update m.lookup key none, m.room + 1⟩ else m

def clear (capacity : Nat) : BoundedMap κ α := ⟨fun _ => none, capacity⟩

theorem set_lookup_other (m : BoundedMap κ α) {key k : κ} (value : α) (h : k ≠ key) :
    (m.set key value).lookup k = m.lookup k := by
  unfold set
  split
  · exact Function.update_of_ne h _ _
  · split
    · exact Function.update_of_ne h _ _
    · rfl

theorem remove_lookup_other (m : BoundedMap κ α) {key k : κ} (h : k ≠ key) :
    (m.remove key).lookup k = m.lookup k := by
  unfold remove
  split
  · exact Function.update_of_ne h _ _
  · rfl

end BoundedMap

end Foundation
