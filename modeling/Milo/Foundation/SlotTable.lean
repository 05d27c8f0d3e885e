import Mathlib.Data.List.Nodup
import Mathlib.Data.List.Perm.Basic
import Mathlib.Logic.Function.Basic

/-! # Tables of slots

A fixed number of slots is handed out first-free and given back one by one. The
slots in use are a list without repetitions, so that taking and giving back a
slot are adding to it and erasing from it.
-/

namespace Foundation

section
variable {α : Type _} (isFree : α → Bool)

/-- The first free slot, among `n` slots from slot `i` on. -/
def firstFree (table : Nat → α) (i : Nat) : Nat → Option Nat
  | 0 => none
  | n + 1 => if isFree (table i) then some i else firstFree table (i + 1) n

def Taken (table : Nat → α) (i : Nat) : Prop := isFree (table i) = false

/-- The slots in use, among `n`. -/
def inUse (table : Nat → α) (n : Nat) : List Nat :=
  (List.range n).filter fun i => !isFree (table i)

variable {isFree} {table table' : Nat → α} {i n : Nat}

theorem firstFree_some {k : Nat} (h : firstFree isFree table i n = some k) :
    i ≤ k ∧ k < i + n ∧ ¬ Taken isFree table k ∧ ∀ j, i ≤ j → j < k → Taken isFree table j := by
  induction n generalizing i with
  | zero => cases h
  | succ n ih =>
      unfold firstFree at h
      split at h
      · rename_i hfree
        obtain rfl := Option.some.inj h
        exact ⟨Nat.le_refl _, by omega, by simp [Taken, hfree], fun j hlo hhi => by omega⟩
      · rename_i htaken
        have hrest := ih h
        refine ⟨by omega, by omega, hrest.2.2.1, ?_⟩
        intro j hlo hhi
        by_cases hj : j = i
        · rw [hj]
          simpa [Taken] using htaken
        · exact hrest.2.2.2 j (by omega) hhi

/-- The search finds the slot, or one before it. -/
theorem firstFree_le {k : Nat} (hlo : i ≤ k) (hhi : k < i + n) (hfree : ¬ Taken isFree table k) :
    ∃ j, firstFree isFree table i n = some j ∧ j ≤ k := by
  induction n generalizing i with
  | zero => omega
  | succ n ih =>
      unfold firstFree
      split
      · exact ⟨i, rfl, hlo⟩
      · rename_i htaken
        have hne : i ≠ k := by
          intro heq
          exact hfree (heq ▸ (by simpa [Taken] using htaken))
        exact ih (by omega) (by omega)

theorem mem_inUse {k : Nat} : k ∈ inUse isFree table n ↔ k < n ∧ Taken isFree table k := by
  simp [inUse, Taken]

theorem inUse_nodup : (inUse isFree table n).Nodup := List.nodup_range.filter _

theorem inUse_congr (h : ∀ j < n, Taken isFree table' j ↔ Taken isFree table j) :
    inUse isFree table' n = inUse isFree table n := by
  apply List.filter_congr
  intro j hj
  have hsame := h j (List.mem_range.mp hj)
  unfold Taken at hsame
  rw [Bool.eq_iff_iff]
  simpa using hsame

/-! ## What an operation does to the slots -/

/-- The same slots are in use. -/
def SameSlots (isFree : α → Bool) (table table' : Nat → α) : Prop :=
  ∀ j, Taken isFree table' j ↔ Taken isFree table j

/-- One more slot is in use, among `n`. -/
structure TakesSlot (isFree : α → Bool) (n : Nat) (table : Nat → α) (i : Nat)
    (table' : Nat → α) : Prop where
  inside : i < n
  wasFree : ¬ Taken isFree table i
  taken : ∀ j, Taken isFree table' j ↔ Taken isFree table j ∨ j = i

/-- A slot is given back. -/
def FreesSlot (isFree : α → Bool) (table : Nat → α) (i : Nat) (table' : Nat → α) : Prop :=
  ∀ j, Taken isFree table' j ↔ Taken isFree table j ∧ j ≠ i

theorem SameSlots.refl (table : Nat → α) : SameSlots isFree table table := fun _ => Iff.rfl

variable {table'' : Nat → α}

theorem SameSlots.trans (h : SameSlots isFree table table')
    (h' : SameSlots isFree table' table'') : SameSlots isFree table table'' :=
  fun j => (h' j).trans (h j)

theorem TakesSlot.same (h : TakesSlot isFree n table i table')
    (h' : SameSlots isFree table' table'') : TakesSlot isFree n table i table'' :=
  ⟨h.inside, h.wasFree, fun j => (h' j).trans (h.taken j)⟩

theorem SameSlots.takes (h : SameSlots isFree table table')
    (h' : TakesSlot isFree n table' i table'') : TakesSlot isFree n table i table'' := by
  refine ⟨h'.inside, fun ht => h'.wasFree ((h i).mpr ht), fun j => ?_⟩
  rw [h'.taken, h]

/-- Writing to a slot without its mark. -/
theorem sameSlots_update {slot : α} (h : isFree slot = isFree (table i)) :
    SameSlots isFree table (Function.update table i slot) := by
  intro j
  unfold Taken
  by_cases hj : j = i
  · subst hj
    rw [Function.update_self, h]
  · rw [Function.update_of_ne hj]

theorem takesSlot_update {slot : α} (hfree : firstFree isFree table 0 n = some i)
    (hslot : isFree slot = false) :
    TakesSlot isFree n table i (Function.update table i slot) := by
  have hspec := firstFree_some hfree
  refine ⟨by omega, hspec.2.2.1, fun j => ?_⟩
  unfold Taken
  by_cases hj : j = i
  · subst hj
    simp [hslot]
  · simp [hj]

theorem freesSlot_update {slot : α} (h : isFree slot = true) :
    FreesSlot isFree table i (Function.update table i slot) := by
  intro j
  unfold Taken
  by_cases hj : j = i
  · subst hj
    simp [h]
  · simp [hj]

/-- A slot that is given back again. -/
theorem TakesSlot.release (h : TakesSlot isFree n table i table')
    (h' : FreesSlot isFree table' i table'') : SameSlots isFree table table'' := by
  intro j
  rw [h', h.taken]
  constructor
  · intro ⟨htaken, hj⟩
    exact htaken.resolve_right hj
  · intro htaken
    exact ⟨Or.inl htaken, fun hj => h.wasFree (hj ▸ htaken)⟩

/-- Giving back the slot that was taken first leaves the one taken second. -/
theorem TakesSlot.release_first {table₃ : Nat → α} {k : Nat}
    (h : TakesSlot isFree n table i table') (h' : TakesSlot isFree n table' k table'')
    (hfrees : FreesSlot isFree table'' i table₃) : TakesSlot isFree n table k table₃ := by
  have hk : ¬ Taken isFree table k ∧ k ≠ i := by
    have hnot := h'.wasFree
    rw [h.taken, not_or] at hnot
    exact hnot
  refine ⟨h'.inside, hk.1, fun j => ?_⟩
  rw [hfrees, h'.taken, h.taken]
  constructor
  · intro ⟨htaken, hj⟩
    rcases htaken with (htaken | htaken) | htaken
    · exact Or.inl htaken
    · exact absurd htaken hj
    · exact Or.inr htaken
  · intro htaken
    rcases htaken with htaken | rfl
    · exact ⟨Or.inl (Or.inl htaken), fun hj => h.wasFree (hj ▸ htaken)⟩
    · exact ⟨Or.inr rfl, hk.2⟩

/-! ## The slots of open files -/

theorem SameSlots.inUse (h : SameSlots isFree table table') :
    inUse isFree table' n = Foundation.inUse isFree table n :=
  inUse_congr fun j _ => h j

/-- One more slot is taken. -/
theorem TakesSlot.inUse (h : TakesSlot isFree n table i table') :
    (inUse isFree table' n).Perm (i :: Foundation.inUse isFree table n) := by
  have hnew : i ∉ Foundation.inUse isFree table n := fun hmem => h.wasFree (mem_inUse.mp hmem).2
  rw [List.perm_ext_iff_of_nodup inUse_nodup (List.nodup_cons.mpr ⟨hnew, inUse_nodup⟩)]
  intro j
  rw [mem_inUse, List.mem_cons, mem_inUse, h.taken]
  constructor
  · intro ⟨hj, htaken⟩
    rcases htaken with htaken | rfl
    · exact Or.inr ⟨hj, htaken⟩
    · exact Or.inl rfl
  · intro hmem
    rcases hmem with rfl | ⟨hj, htaken⟩
    · exact ⟨h.inside, Or.inr rfl⟩
    · exact ⟨hj, Or.inl htaken⟩

/-- One slot is given back. -/
theorem FreesSlot.inUse (h : FreesSlot isFree table i table') :
    (inUse isFree table' n).Perm ((Foundation.inUse isFree table n).erase i) := by
  rw [List.perm_ext_iff_of_nodup inUse_nodup (inUse_nodup.erase i)]
  intro j
  rw [mem_inUse, inUse_nodup.mem_erase_iff, mem_inUse, h]
  constructor
  · intro ⟨hj, htaken, hne⟩
    exact ⟨hne, hj, htaken⟩
  · intro ⟨hne, hj, htaken⟩
    exact ⟨hj, htaken, hne⟩

variable {opens : List Nat}

theorem SameSlots.balanced (h : SameSlots isFree table table')
    (hopens : (Foundation.inUse isFree table n).Perm opens) :
    (Foundation.inUse isFree table' n).Perm opens := by
  rw [h.inUse]
  exact hopens

/-- A slot that no open file accounts for. -/
theorem TakesSlot.unbalanced (h : TakesSlot isFree n table i table')
    (hopens : (Foundation.inUse isFree table n).Perm opens) :
    ¬ (Foundation.inUse isFree table' n).Perm opens := by
  intro hperm
  have hlength := (h.inUse.symm.trans (hperm.trans hopens.symm)).length_eq
  rw [List.length_cons] at hlength
  omega

end

end Foundation
