import Mathlib.Logic.Function.Basic

/-! # Maps that keep the first entry

Inserting a key that is already present changes nothing, so a run of insertions
leaves the first entry of every key.
-/

namespace Foundation

section
variable {κ α : Type _} [DecidableEq κ]

def insertIfAbsent (m : κ → Option α) (key : κ) (value : α) : κ → Option α :=
  if m key = none then Function.update m key (some value) else m

theorem insertIfAbsent_absent {m : κ → Option α} {key : κ} (value : α) (h : m key = none) :
    insertIfAbsent m key value = Function.update m key (some value) := if_pos h

theorem insertIfAbsent_present {m : κ → Option α} {key : κ} {old : α} (value : α)
    (h : m key = some old) : insertIfAbsent m key value = m := if_neg (by simp [h])

theorem insertIfAbsent_keeps {m : κ → Option α} {key k : κ} {value old : α} (h : m k = some old) :
    insertIfAbsent m key value k = some old := by
  cases hkey : m key with
  | none =>
      have hne : k ≠ key := fun he => by simp [he, hkey] at h
      rwa [insertIfAbsent_absent value hkey, Function.update_of_ne hne]
  | some _ => rwa [insertIfAbsent_present value hkey]

/-- The first entry of a key in a list. -/
def firstEntry (keyOf : α → κ) (entries : List α) (key : κ) : Option α :=
  entries.find? fun e => keyOf e = key

theorem foldl_insertIfAbsent (keyOf : α → κ) (entries : List α) (m : κ → Option α) (key : κ) :
    entries.foldl (fun m e => insertIfAbsent m (keyOf e) e) m key =
      (m key).or (firstEntry keyOf entries key) := by
  induction entries generalizing m with
  | nil => simp [firstEntry]
  | cons e es ih =>
      rw [List.foldl_cons, ih]
      by_cases hkey : keyOf e = key
      · subst hkey
        cases hold : m (keyOf e) with
        | none => simp [insertIfAbsent_absent e hold, firstEntry]
        | some old => simp [insertIfAbsent_present e hold, hold]
      · have hother : insertIfAbsent m (keyOf e) e key = m key := by
          unfold insertIfAbsent
          split
          · exact Function.update_of_ne (Ne.symm hkey) _ _
          · rfl
        simp [hother, firstEntry, hkey]

end

end Foundation
