import Mathlib.Data.List.Chain
import Mathlib.Data.List.Nodup

/-! # Circular doubly linked lists

A ring is a head node and its members in order, with a link to the next and to
the previous node at every node. Inserting and removing a member change the
links next to one place; the rest of the ring is carried over by a frame lemma.
Of nodes that hang in lists of any shape it is only said that every link is
answered by one in the other direction.
-/

namespace Foundation

variable {α : Type _}

/-- `b` follows `a`, seen from both of them. -/
def Linked (next prev : α → Option α) (a b : α) : Prop := next a = some b ∧ prev b = some a

/-- The members of the ring from its head on and back to it. -/
def Ring (next prev : α → Option α) (head : α) (members : List α) : Prop :=
  (head :: members ++ [head]).IsChain (Linked next prev)

/-- A chain of links depends on the forward links of its nodes but the last and
on the backward links of its nodes but the first. -/
theorem isChain_linked_frame {next prev next' prev' : α → Option α} {l : List α}
    (h : l.IsChain (Linked next prev)) (hnext : ∀ a ∈ l.dropLast, next' a = next a)
    (hprev : ∀ b ∈ l.tail, prev' b = prev b) : l.IsChain (Linked next' prev') := by
  induction l with
  | nil => exact .nil
  | cons a l ih =>
      cases l with
      | nil => exact .singleton a
      | cons b l =>
          obtain ⟨hlink, hrest⟩ := List.isChain_cons_cons.mp h
          have hfirst : next' a = next a := hnext a (by simp)
          have hsecond : prev' b = prev b := hprev b (by simp)
          refine List.isChain_cons_cons.mpr ⟨⟨hfirst.trans hlink.1, hsecond.trans hlink.2⟩,
            ih hrest (fun c hc => hnext c ?_) fun c hc => hprev c ?_⟩
          · rw [List.dropLast_cons_cons]
            exact List.mem_cons_of_mem a hc
          · exact List.mem_cons_of_mem b hc

theorem ring_nil {next prev : α → Option α} {head : α} (hnext : next head = some head)
    (hprev : prev head = some head) : Ring next prev head [] :=
  List.isChain_cons_cons.mpr ⟨⟨hnext, hprev⟩, .singleton head⟩

namespace Ring

variable {next prev next' prev' : α → Option α} {head a b x : α} {xs ys l₁ l₂ : List α}

theorem mem_of_front (hpre : head :: xs = l₁ ++ [a]) (ys : List α) : a ∈ head :: (xs ++ ys) := by
  rw [← List.cons_append, hpre]
  simp

theorem mem_of_back (hpost : ys ++ [head] = b :: l₂) (xs : List α) : b ∈ head :: (xs ++ ys) := by
  have hback : b ∈ ys ++ [head] := hpost ▸ List.mem_cons_self
  grind

/-- The ring with the seam between two neighbours marked. -/
theorem eq_seam (mid : List α) (hpre : head :: xs = l₁ ++ [a]) (hpost : ys ++ [head] = b :: l₂) :
    head :: (xs ++ (mid ++ ys)) ++ [head] = l₁ ++ a :: (mid ++ b :: l₂) := by
  rw [List.cons_append, List.append_assoc, List.append_assoc, ← List.cons_append, hpre, hpost]
  simp

/-- Every place of the ring is between two neighbours. -/
theorem seam (h : Ring next prev head (xs ++ ys)) :
    ∃ l₁ a b l₂, head :: xs = l₁ ++ [a] ∧ ys ++ [head] = b :: l₂ ∧ Linked next prev a b := by
  obtain ⟨l₁, a, hpre⟩ : ∃ l₁ a, head :: xs = l₁ ++ [a] :=
    ⟨_, _, (List.dropLast_append_getLast (List.cons_ne_nil head xs)).symm⟩
  obtain ⟨b, l₂, hpost⟩ : ∃ b l₂, ys ++ [head] = b :: l₂ :=
    List.exists_cons_of_ne_nil (by simp)
  have hring := eq_seam [] hpre hpost
  rw [List.nil_append, List.nil_append] at hring
  rw [Ring, hring, List.isChain_append_cons_cons] at h
  exact ⟨l₁, a, b, l₂, hpre, hpost, h.2.1⟩

/-- A member is between its two neighbours. -/
theorem neighbours (h : Ring next prev head (xs ++ x :: ys)) :
    ∃ l₁ a b l₂, head :: xs = l₁ ++ [a] ∧ ys ++ [head] = b :: l₂ ∧
      Linked next prev a x ∧ Linked next prev x b := by
  obtain ⟨l₁, a, x', l₂', hpre, hpost', hbefore⟩ := h.seam
  obtain rfl : x = x' := (List.cons.inj hpost').1
  have hcut : Ring next prev head ((xs ++ [x]) ++ ys) := by simpa using h
  obtain ⟨l₁', x', b, l₂, hpre', hpost, hbehind⟩ := hcut.seam
  rw [← List.cons_append] at hpre'
  obtain rfl : x = x' := (List.cons.inj (List.append_inj' hpre' rfl).2).1
  exact ⟨l₁, a, b, l₂, hpre, hpost, hbefore, hbehind⟩

/-- The members before a place, when only the last of them gets another next node. -/
theorem before (h : Ring next prev head (xs ++ ys)) (hnodup : (head :: xs).Nodup)
    (hpre : head :: xs = l₁ ++ [a]) (hnext : ∀ c ∈ head :: xs, c ≠ a → next' c = next c)
    (hprev : ∀ c ∈ xs, prev' c = prev c) : (l₁ ++ [a]).IsChain (Linked next' prev') := by
  have hchain : (head :: xs).IsChain (Linked next prev) := by
    rw [Ring, ← List.cons_append, List.append_assoc] at h
    exact h.left_of_append
  rw [hpre] at hchain hnext hnodup
  refine isChain_linked_frame hchain (fun c hc => hnext c ?_ ?_) fun c hc => hprev c ?_
  · exact List.dropLast_subset _ hc
  · rintro rfl
    rw [List.dropLast_concat] at hc
    exact (List.nodup_append.mp hnodup).2.2 c hc c List.mem_cons_self rfl
  · rwa [← hpre] at hc

/-- The members behind a place, when only the first of them gets another previous node. -/
theorem behind (h : Ring next prev head (xs ++ ys)) (hnodup : (ys ++ [head]).Nodup)
    (hpost : ys ++ [head] = b :: l₂) (hnext : ∀ c ∈ ys, next' c = next c)
    (hprev : ∀ c ∈ ys ++ [head], c ≠ b → prev' c = prev c) :
    (b :: l₂).IsChain (Linked next' prev') := by
  have hchain : (ys ++ [head]).IsChain (Linked next prev) := by
    rw [Ring, ← List.cons_append, List.append_assoc] at h
    exact h.right_of_append
  have hlast : (b :: l₂).dropLast = ys := by rw [← hpost, List.dropLast_concat]
  rw [hpost] at hchain hprev hnodup
  refine isChain_linked_frame hchain (fun c hc => hnext c ?_) fun c hc => hprev c ?_ ?_
  · rwa [hlast] at hc
  · exact List.mem_cons_of_mem b hc
  · rintro rfl
    exact (List.nodup_cons.mp hnodup).1 hc

/-- A ring from its parts on both sides of a place and what is put there. -/
theorem of_parts (mid : List α) (hpre : head :: xs = l₁ ++ [a]) (hpost : ys ++ [head] = b :: l₂)
    (hbefore : (l₁ ++ [a]).IsChain (Linked next prev))
    (hmid : (a :: (mid ++ [b])).IsChain (Linked next prev))
    (hbehind : (b :: l₂).IsChain (Linked next prev)) :
    Ring next prev head (xs ++ (mid ++ ys)) := by
  rw [Ring, eq_seam mid hpre hpost, List.isChain_split]
  refine ⟨hbefore, ?_⟩
  rw [← List.cons_append, List.isChain_split]
  exact ⟨hmid, hbehind⟩

/-- A node put between two neighbours. -/
theorem insert (h : Ring next prev head (xs ++ ys)) (hnodup : (head :: (xs ++ ys)).Nodup)
    (hpre : head :: xs = l₁ ++ [a]) (hpost : ys ++ [head] = b :: l₂)
    (hax : Linked next' prev' a x) (hxb : Linked next' prev' x b)
    (hnext : ∀ c ∈ head :: (xs ++ ys), c ≠ a → next' c = next c)
    (hprev : ∀ c ∈ head :: (xs ++ ys), c ≠ b → prev' c = prev c) :
    Ring next' prev' head (xs ++ x :: ys) := by
  obtain ⟨hhead, hmembers⟩ := List.nodup_cons.mp hnodup
  obtain ⟨hxs, hys, hapart⟩ := List.nodup_append.mp hmembers
  have ha : a ∈ head :: xs := hpre ▸ List.mem_append_right l₁ List.mem_cons_self
  have hb : b ∈ ys ++ [head] := hpost ▸ List.mem_cons_self
  simp only [List.mem_append, not_or] at hhead
  have hbefore := h.before (List.nodup_cons.mpr ⟨hhead.1, hxs⟩) hpre
    (fun c hc => hnext c (by grind)) (fun c hc => hprev c (by grind) (by grind))
  have hbehind := h.behind (by grind) hpost
    (fun c hc => hnext c (by grind) (by grind)) (fun c hc => hprev c (by grind))
  exact of_parts [x] hpre hpost hbefore (by simp [hax, hxb]) hbehind

/-- A member taken out; its neighbours are linked to each other. -/
theorem erase (h : Ring next prev head (xs ++ x :: ys))
    (hnodup : (head :: (xs ++ x :: ys)).Nodup) (hpre : head :: xs = l₁ ++ [a])
    (hpost : ys ++ [head] = b :: l₂) (hab : Linked next' prev' a b)
    (hnext : ∀ c ∈ head :: (xs ++ ys), c ≠ a → next' c = next c)
    (hprev : ∀ c ∈ head :: (xs ++ ys), c ≠ b → prev' c = prev c) :
    Ring next' prev' head (xs ++ ys) := by
  obtain ⟨hhead, hmembers⟩ := List.nodup_cons.mp hnodup
  obtain ⟨hxs, hys, hapart⟩ := List.nodup_append.mp hmembers
  have ha : a ∈ head :: xs := hpre ▸ List.mem_append_right l₁ List.mem_cons_self
  have hb : b ∈ ys ++ [head] := hpost ▸ List.mem_cons_self
  simp only [List.mem_append, List.mem_cons, not_or] at hhead
  have hring : Ring next prev head ((xs ++ [x]) ++ ys) := by simpa using h
  have hbefore := h.before (List.nodup_cons.mpr ⟨hhead.1, hxs⟩) hpre
    (fun c hc => hnext c (by grind)) (fun c hc => hprev c (by grind) (by grind))
  have hbehind := hring.behind (by grind) hpost
    (fun c hc => hnext c (by grind) (by grind)) (fun c hc => hprev c (by grind))
  exact of_parts [] hpre hpost hbefore (by simp [hab]) hbehind

end Ring

/-! ## Lists of any shape -/

/-- Links among these nodes stay among them, and lead back. -/
structure TwoWay (next prev : α → Option α) (S : α → Prop) : Prop where
  onward : ∀ a, S a → ∀ b, next a = some b → S b ∧ prev b = some a
  back : ∀ b, S b → ∀ a, prev b = some a → S a ∧ next a = some b

namespace TwoWay

variable {next prev next' prev' : α → Option α} {S S' : α → Prop} {x c : α}

/-- The same links, seen in the other direction. -/
theorem symm (h : TwoWay next prev S) : TwoWay prev next S := ⟨h.back, h.onward⟩

theorem congr (h : TwoWay next prev S) (hnext : ∀ a, S a → next' a = next a)
    (hprev : ∀ a, S a → prev' a = prev a) : TwoWay next' prev' S where
  onward a ha b hab := by
    obtain ⟨hb, hba⟩ := h.onward a ha b (hnext a ha ▸ hab)
    exact ⟨hb, (hprev b hb).trans hba⟩
  back b hb a hba := by
    obtain ⟨ha, hab⟩ := h.back b hb a (hprev b hb ▸ hba)
    exact ⟨ha, (hnext a ha).trans hab⟩

/-- A node without links may be counted in. -/
theorem add (h : TwoWay next prev S) (hnext : next x = none) (hprev : prev x = none)
    (hS : ∀ a, S' a ↔ S a ∨ a = x) : TwoWay next prev S' where
  onward a ha b hab := by
    rcases (hS a).mp ha with ha | rfl
    · obtain ⟨hb, hba⟩ := h.onward a ha b hab
      exact ⟨(hS b).mpr (.inl hb), hba⟩
    · rw [hnext] at hab
      cases hab
  back b hb a hba := by
    rcases (hS b).mp hb with hb | rfl
    · obtain ⟨ha, hab⟩ := h.back b hb a hba
      exact ⟨(hS a).mpr (.inl ha), hab⟩
    · rw [hprev] at hba
      cases hba

/-- A node without links may be left out. -/
theorem remove (h : TwoWay next prev S) (hnext : next x = none) (hprev : prev x = none)
    (hS : ∀ a, S' a ↔ S a ∧ a ≠ x) : TwoWay next prev S' where
  onward a ha b hab := by
    obtain ⟨hb, hba⟩ := h.onward a ((hS a).mp ha).1 b hab
    refine ⟨(hS b).mpr ⟨hb, ?_⟩, hba⟩
    rintro rfl
    rw [hprev] at hba
    cases hba
  back b hb a hba := by
    obtain ⟨ha, hab⟩ := h.back b ((hS b).mp hb).1 a hba
    refine ⟨(hS a).mpr ⟨ha, ?_⟩, hab⟩
    rintro rfl
    rw [hnext] at hab
    cases hab

/-- One direction of `erase`. -/
theorem erase_next (h : TwoWay next prev S) (hx : S x) (hnone : next' x = none)
    (hbefore : ∀ a, prev x = some a → a ≠ x → next' a = next x)
    (hbehind : ∀ b, next x = some b → b ≠ x → prev' b = prev x)
    (hnext : ∀ a, a ≠ x → prev x ≠ some a → next' a = next a)
    (hprev : ∀ b, b ≠ x → next x ≠ some b → prev' b = prev b) :
    ∀ a, S a → ∀ b, next' a = some b → S b ∧ prev' b = some a := by
  intro a ha b hab
  have hax : a ≠ x := by
    rintro rfl
    rw [hnone] at hab
    cases hab
  by_cases hpx : prev x = some a
  · -- the node before `x` now leads to the one behind it
    rw [hbefore a hpx hax] at hab
    obtain ⟨hb, hbx⟩ := h.onward x hx b hab
    have hne : b ≠ x := by
      rintro rfl
      rw [hpx] at hbx
      exact hax (Option.some.inj hbx)
    exact ⟨hb, (hbehind b hab hne).trans hpx⟩
  · rw [hnext a hax hpx] at hab
    obtain ⟨hb, hba⟩ := h.onward a ha b hab
    have hne : b ≠ x := by
      rintro rfl
      exact hpx hba
    have hnx : next x ≠ some b := by
      intro hxb
      have hbx := (h.onward x hx b hxb).2
      rw [hba] at hbx
      exact hax (Option.some.inj hbx)
    exact ⟨hb, (hprev b hne hnx).trans hba⟩

/-- A node is taken out, and its neighbours are linked to each other. -/
theorem erase (h : TwoWay next prev S) (hx : S x) (hnone : next' x = none)
    (hnone' : prev' x = none) (hbefore : ∀ a, prev x = some a → a ≠ x → next' a = next x)
    (hbehind : ∀ b, next x = some b → b ≠ x → prev' b = prev x)
    (hnext : ∀ a, a ≠ x → prev x ≠ some a → next' a = next a)
    (hprev : ∀ b, b ≠ x → next x ≠ some b → prev' b = prev b) : TwoWay next' prev' S :=
  ⟨h.erase_next hx hnone hbefore hbehind hnext hprev,
    h.symm.erase_next hx hnone' hbehind hbefore hprev hnext⟩

/-- A node without links is put behind `c`, before what was behind `c`. -/
theorem insert (h : TwoWay next prev S) (hx : S x) (hc : S c) (hxc : x ≠ c)
    (hnx : next x = none) (hpx : prev x = none) (hafter : next' c = some x)
    (hback : prev' x = some c) (hon : next' x = next c)
    (hbehind : ∀ b, next c = some b → prev' b = some x)
    (hnext : ∀ a, a ≠ c → a ≠ x → next' a = next a)
    (hprev : ∀ b, b ≠ x → next c ≠ some b → prev' b = prev b) : TwoWay next' prev' S where
  onward a ha b hab := by
    by_cases hac : a = c
    · rw [hac, hafter] at hab
      obtain rfl := Option.some.inj hab
      exact ⟨hx, hac ▸ hback⟩
    · by_cases hax : a = x
      · rw [hax, hon] at hab
        exact ⟨(h.onward c hc b hab).1, hax ▸ hbehind b hab⟩
      · rw [hnext a hac hax] at hab
        obtain ⟨hb, hba⟩ := h.onward a ha b hab
        have hbx : b ≠ x := by
          rintro rfl
          rw [hpx] at hba
          cases hba
        have hcb : next c ≠ some b := by
          intro hcb
          have hbc := (h.onward c hc b hcb).2
          rw [hba] at hbc
          exact hac (Option.some.inj hbc)
        exact ⟨hb, (hprev b hbx hcb).trans hba⟩
  back b hb a hba := by
    by_cases hbx : b = x
    · rw [hbx, hback] at hba
      obtain rfl := Option.some.inj hba
      exact ⟨hc, hbx ▸ hafter⟩
    · by_cases hcb : next c = some b
      · rw [hbehind b hcb] at hba
        obtain rfl := Option.some.inj hba
        exact ⟨hx, hon.trans hcb⟩
      · rw [hprev b hbx hcb] at hba
        obtain ⟨ha, hab⟩ := h.back b hb a hba
        have hac : a ≠ c := by
          rintro rfl
          exact hcb hab
        have hax : a ≠ x := by
          rintro rfl
          rw [hnx] at hab
          cases hab
        exact ⟨ha, (hnext a hac hax).trans hab⟩

/-- A node without links is linked to itself. -/
theorem loop (h : TwoWay next prev S) (hx : S x) (hnx : next x = none) (hpx : prev x = none)
    (hself : next' x = some x) (hself' : prev' x = some x) (hnext : ∀ a, a ≠ x → next' a = next a)
    (hprev : ∀ b, b ≠ x → prev' b = prev b) : TwoWay next' prev' S where
  onward a ha b hab := by
    by_cases hax : a = x
    · rw [hax, hself] at hab
      obtain rfl := Option.some.inj hab
      exact ⟨hx, hax ▸ hself'⟩
    · rw [hnext a hax] at hab
      obtain ⟨hb, hba⟩ := h.onward a ha b hab
      have hbx : b ≠ x := by
        rintro rfl
        rw [hpx] at hba
        cases hba
      exact ⟨hb, (hprev b hbx).trans hba⟩
  back b hb a hba := by
    by_cases hbx : b = x
    · rw [hbx, hself'] at hba
      obtain rfl := Option.some.inj hba
      exact ⟨hx, hbx ▸ hself⟩
    · rw [hprev b hbx] at hba
      obtain ⟨ha, hab⟩ := h.back b hb a hba
      have hax : a ≠ x := by
        rintro rfl
        rw [hnx] at hab
        cases hab
      exact ⟨ha, (hnext a hax).trans hab⟩

end TwoWay

end Foundation
