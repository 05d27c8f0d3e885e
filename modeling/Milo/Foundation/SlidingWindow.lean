import Mathlib.Data.List.Basic
import Mathlib.Logic.Function.Basic

/-! # Windows that slide over a text

A text grows at its end, by single elements and by repetitions of what stands some
distance back. A ring of slots that always takes the next element shows as much of
the text as it has slots, so the repetitions can be read from the ring.
-/

namespace Foundation

section
variable {α : Type _}

/-- The text with `n` more elements, each the one `dist` places back. -/
def repeatBack (text : List α) (dist : Nat) : Nat → List α
  | 0 => text
  | n + 1 => repeatBack (text ++ (text[text.length - dist]?).toList) dist n

/-- Each slot of the ring holds the last element that went to it. -/
def Shows (size : Nat) (ring : Nat → α) (text : List α) : Prop :=
  ∀ i, i < text.length → text.length ≤ i + size → text[i]? = some (ring (i % size))

theorem repeatBack_add (text : List α) (dist m n : Nat) :
    repeatBack text dist (m + n) = repeatBack (repeatBack text dist m) dist n := by
  induction m generalizing text with
  | zero => rw [Nat.zero_add, repeatBack]
  | succ m ih => rw [Nat.succ_add, repeatBack, ih, repeatBack]

theorem repeatBack_length (text : List α) {dist : Nat} (n : Nat) (hpos : 0 < dist)
    (hle : dist ≤ text.length) : (repeatBack text dist n).length = text.length + n := by
  induction n generalizing text with
  | zero => rfl
  | succ n ih =>
      have hback : text[text.length - dist]?.toList.length = 1 := by
        rw [List.getElem?_eq_getElem (by omega)]
        rfl
      rw [repeatBack, ih _ (by rw [List.length_append]; omega), List.length_append, hback]
      omega

theorem prefix_repeatBack (text : List α) (dist n : Nat) :
    ∃ more, repeatBack text dist n = text ++ more := by
  induction n generalizing text with
  | zero => exact ⟨[], (List.append_nil text).symm⟩
  | succ n ih =>
      obtain ⟨more, hmore⟩ := ih (text ++ (text[text.length - dist]?).toList)
      exact ⟨_, by rw [repeatBack, hmore, List.append_assoc]⟩

variable {size : Nat} {ring : Nat → α} {text : List α}

/-- A ring shows the text that has gone to it in its first round. -/
theorem shows_range (size : Nat) (ring : Nat → α) : Shows size ring ((List.range size).map ring) := by
  intro i hi _
  rw [List.length_map, List.length_range] at hi
  rw [List.getElem?_map, List.getElem?_range hi, Nat.mod_eq_of_lt hi]
  rfl

/-- The next element goes to the next slot. -/
theorem Shows.push (h : Shows size ring text) (a : α) :
    Shows size (Function.update ring (text.length % size) a) (text ++ [a]) := by
  intro i hi hlast
  rw [List.length_append, List.length_singleton] at hi hlast
  by_cases hnew : i = text.length
  · subst hnew
    rw [Function.update_self, List.getElem?_append_right (Nat.le_refl _), Nat.sub_self]
    rfl
  · have hslot : i % size ≠ text.length % size := by
      intro heq
      have hrounds := Nat.sub_mod_eq_zero_of_mod_eq heq.symm
      have hdvd := Nat.le_of_dvd (by omega) (Nat.dvd_of_mod_eq_zero hrounds)
      omega
    rw [Function.update_of_ne hslot, List.getElem?_append_left (by omega)]
    exact h i (by omega) (by omega)

/-- What stands some places back is in the ring. -/
theorem Shows.back (h : Shows size ring text) {dist : Nat} (hpos : 0 < dist)
    (hle : dist ≤ text.length) (hsize : dist ≤ size) :
    text[text.length - dist]? = some (ring ((text.length - dist) % size)) :=
  h _ (by omega) (by omega)

/-- The last round of the ring. -/
theorem Shows.last_round (h : Shows size ring text) {k : Nat}
    (hlen : text.length = size * (k + 1)) :
    text.drop (size * k) = (List.range size).map ring := by
  rw [Nat.mul_succ] at hlen
  apply List.ext_getElem?
  intro i
  rw [List.getElem?_drop, List.getElem?_map]
  by_cases hi : i < size
  · rw [h _ (by omega) (by omega), List.getElem?_range hi, Nat.mul_add_mod, Nat.mod_eq_of_lt hi]
    rfl
  · rw [List.getElem?_eq_none (by omega), List.getElem?_eq_none (by simpa using hi)]
    rfl

/-- The part of a round that has been filled. -/
theorem Shows.this_round (h : Shows size ring text) {k n : Nat}
    (hlen : text.length = size * k + n) (hn : n ≤ size) :
    text.drop (size * k) = (List.range n).map ring := by
  apply List.ext_getElem?
  intro i
  rw [List.getElem?_drop, List.getElem?_map]
  by_cases hi : i < n
  · rw [h _ (by omega) (by omega), List.getElem?_range hi, Nat.mul_add_mod,
      Nat.mod_eq_of_lt (by omega)]
    rfl
  · rw [List.getElem?_eq_none (by omega), List.getElem?_eq_none (by simpa using hi)]
    rfl

/-- Moving elements inside the ring, one after the other, repeats a part of the text. -/
def moveSlots (ring : Nat → α) (dst src : Nat) : Nat → Nat → α
  | 0 => ring
  | n + 1 => moveSlots (Function.update ring dst (ring src)) (dst + 1) (src + 1) n

theorem Shows.moveSlots (h : Shows size ring text) {dist dst src n : Nat}
    (hpos : 0 < dist) (hle : dist ≤ text.length) (hsize : dist ≤ size)
    (hdst : dst = text.length % size) (hsrc : src = (text.length - dist) % size)
    (hdstn : dst + n ≤ size) (hsrcn : src + n ≤ size) :
    Shows size (Foundation.moveSlots ring dst src n) (repeatBack text dist n) := by
  induction n generalizing ring text dst src with
  | zero => exact h
  | succ n ih =>
      have hback := h.back hpos hle hsize
      have hnext := h.push (ring src)
      have hmod : ∀ {i}, i % size + 1 < size → (i + 1) % size = i % size + 1 := by
        intro i hi
        rw [Nat.add_mod, Nat.mod_eq_of_lt (show 1 < size by omega), Nat.mod_eq_of_lt hi]
      rw [Foundation.moveSlots, repeatBack, hback, ← hsrc, hdst]
      cases n with
      | zero => exact hnext
      | succ n =>
          have hlen : (text ++ [ring src]).length = text.length + 1 := by
            rw [List.length_append, List.length_singleton]
          apply ih hnext
          · omega
          · rw [hlen, hmod (by omega)]
          · rw [hlen, show text.length + 1 - dist = text.length - dist + 1 by omega,
              hmod (by omega), hsrc]
          · omega
          · omega

end

end Foundation
