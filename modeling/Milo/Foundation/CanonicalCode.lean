import Mathlib.Algebra.BigOperators.Intervals
import Mathlib.Algebra.BigOperators.Ring.Finset
import Mathlib.Algebra.Order.BigOperators.Group.Finset
import Milo.Foundation.BitOrder

/-! # Canonical codes

A canonical code is given by how many words it has of each length. The words are
laid over the leaves of a full binary tree from the left, the shorter ones first,
and each takes the leaves below it. A list of lengths assigns the words of a length
to its places in order; a length of zero means that the place has no word.
-/

namespace Foundation

section
variable (c : Nat → Nat) (g : Nat)

/-- How many leaves of a tree of depth `g` lie below the words shorter than `k`. -/
def taken (k : Nat) : Nat := ∑ j ∈ Finset.Ico 1 k, c j * 2 ^ (g - j)

/-- The leaf at which word `r` of length `k` starts. -/
def leafOf (k r : Nat) : Nat := taken c g k + r * 2 ^ (g - k)

/-- The leaf lies below word `r` of length `k`. -/
def Below (k r leaf : Nat) : Prop :=
  leafOf c g k r ≤ leaf ∧ leaf < leafOf c g k r + 2 ^ (g - k)

variable {c g}

theorem taken_zero : taken c g 0 = 0 := rfl

theorem taken_one : taken c g 1 = 0 := rfl

theorem taken_succ {k : Nat} (h : 1 ≤ k) :
    taken c g (k + 1) = taken c g k + c k * 2 ^ (g - k) :=
  Finset.sum_Ico_succ_top h _

theorem taken_mono {j k : Nat} (h : j ≤ k) : taken c g j ≤ taken c g k :=
  Finset.sum_le_sum_of_subset (Finset.Ico_subset_Ico_right h)

theorem taken_congr {d : Nat → Nat} {k : Nat}
    (h : ∀ j, 1 ≤ j → j < k → c j = d j) : taken c g k = taken d g k := by
  apply Finset.sum_congr rfl
  intro j hj
  rw [Finset.mem_Ico] at hj
  rw [h j hj.1 hj.2]

theorem below_congr {d : Nat → Nat} {k r leaf : Nat}
    (h : ∀ j, 1 ≤ j → j < k → c j = d j) :
    Below c g k r leaf ↔ Below d g k r leaf := by
  rw [Below, Below, leafOf, leafOf, taken_congr h]

/-- A tree cut off at the words of length `k`. -/
theorem taken_scale {k : Nat} (h : k ≤ g) :
    taken c g k = taken c k k * 2 ^ (g - k) := by
  unfold taken
  rw [Finset.sum_mul]
  apply Finset.sum_congr rfl
  intro j hj
  rw [Finset.mem_Ico] at hj
  rw [Nat.mul_assoc, ← Nat.pow_add]
  congr 2
  omega

theorem leafOf_scale {k : Nat} (r : Nat) (h : k ≤ g) :
    leafOf c g k r = (taken c k k + r) * 2 ^ (g - k) := by
  rw [leafOf, taken_scale h, Nat.add_mul]

theorem dvd_leafOf {k : Nat} (r : Nat) (h : k ≤ g) : 2 ^ (g - k) ∣ leafOf c g k r := by
  rw [leafOf_scale r h]
  exact Nat.dvd_mul_left _ _

theorem leafOf_succ (k r : Nat) :
    leafOf c g k (r + 1) = leafOf c g k r + 2 ^ (g - k) := by
  rw [leafOf, leafOf, Nat.succ_mul, Nat.add_assoc]

/-- Behind the last word of a length comes the first one of the next length. -/
theorem leafOf_count {k : Nat} (h : 1 ≤ k) :
    leafOf c g k (c k) = leafOf c g (k + 1) 0 := by
  rw [leafOf, leafOf, taken_succ h, Nat.zero_mul, Nat.add_zero]

theorem leafOf_le_taken {k r : Nat} (hk : 1 ≤ k) (hr : r < c k) :
    leafOf c g k r + 2 ^ (g - k) ≤ taken c g (k + 1) := by
  rw [← leafOf_succ, leafOf, taken_succ hk]
  exact Nat.add_le_add_left (Nat.mul_le_mul_right _ hr) _

theorem taken_le_leafOf (k r : Nat) : taken c g k ≤ leafOf c g k r :=
  Nat.le_add_right _ _

/-- Every leaf that is taken lies below a word. -/
theorem exists_below {leaf : Nat} (m : Nat) (h : leaf < taken c g (m + 1)) :
    ∃ k r, 1 ≤ k ∧ k ≤ m ∧ r < c k ∧ Below c g k r leaf := by
  induction m with
  | zero => exact absurd h (Nat.not_lt_zero _)
  | succ m ih =>
      by_cases hshort : leaf < taken c g (m + 1)
      · obtain ⟨k, r, hk, hm, hr, hbelow⟩ := ih hshort
        exact ⟨k, r, hk, Nat.le_succ_of_le hm, hr, hbelow⟩
      · have hpos : 0 < 2 ^ (g - (m + 1)) := Nat.two_pow_pos _
        have hmod := Nat.div_add_mod' (leaf - taken c g (m + 1)) (2 ^ (g - (m + 1)))
        have hlt := Nat.mod_lt (leaf - taken c g (m + 1)) hpos
        rw [taken_succ (Nat.le_add_left 1 m)] at h
        refine ⟨m + 1, (leaf - taken c g (m + 1)) / 2 ^ (g - (m + 1)), by omega,
          Nat.le_refl _, ?_, ?_⟩
        · rw [Nat.div_lt_iff_lt_mul hpos]
          omega
        · unfold Below leafOf
          omega

/-- No leaf lies below two words. -/
theorem Below.unique {k r k' r' leaf : Nat} (hk : 1 ≤ k) (hk' : 1 ≤ k') (hr : r < c k)
    (hr' : r' < c k') (h : Below c g k r leaf) (h' : Below c g k' r' leaf) :
    k = k' ∧ r = r' := by
  have hshort : ∀ {k r k' r' : Nat}, 1 ≤ k → r < c k → Below c g k r leaf →
      Below c g k' r' leaf → ¬ k < k' := by
    intro k r k' r' hk hr h h' hlt
    have hend := leafOf_le_taken (g := g) hk hr
    have hmono := taken_mono (c := c) (g := g) (show k + 1 ≤ k' from hlt)
    have hstart := taken_le_leafOf (c := c) (g := g) k' r'
    have := h.2
    have := h'.1
    omega
  obtain rfl : k = k' := by
    have := hshort hk hr h h'
    have := hshort hk' hr' h' h
    omega
  refine ⟨rfl, ?_⟩
  have horder : ∀ {r r' : Nat}, Below c g k r leaf → Below c g k r' leaf → ¬ r < r' := by
    intro r r' h h' hlt
    have hstep : leafOf c g k (r + 1) ≤ leafOf c g k r' :=
      Nat.add_le_add_left (Nat.mul_le_mul_right _ hlt) _
    rw [leafOf_succ] at hstep
    have := h.2
    have := h'.1
    omega
  have := horder h h'
  have := horder h' h
  omega

end

/-! ## Lists of lengths -/

/-- The word of a symbol: those of the same length are numbered in order. -/
def wordOf (lens : List Nat) (sym : Nat) : Nat :=
  taken lens.count (lens.getD sym 0) (lens.getD sym 0) +
    (lens.take sym).count (lens.getD sym 0)

/-- The stream goes on with the word of the symbol at `p`. -/
structure Spells (lens : List Nat) (s : Nat → Bool) (p sym : Nat) : Prop where
  used : lens.getD sym 0 ≠ 0
  word : highFirst s p (lens.getD sym 0) = wordOf lens sym

/-- The leaves that all words of lengths up to `g` take, of `2 ^ g`. -/
def leaves (lens : List Nat) (g : Nat) : Nat := taken lens.count g (g + 1)

/-- Every stream goes on with a word. -/
structure CompleteCode (lens : List Nat) (g : Nat) : Prop where
  bound : ∀ len ∈ lens, len ≤ g
  full : leaves lens g = 2 ^ g

/-- A single word of one bit. -/
def Lone (lens : List Nat) : Prop := lens.count 1 = 1 ∧ ∀ len ∈ lens, len ≤ 1

section
variable {lens : List Nat} {s : Nat → Bool} {p sym g : Nat}

theorem lt_length_of_getD_ne_zero (h : lens.getD sym 0 ≠ 0) : sym < lens.length := by
  by_contra hlen
  exact h (List.getD_eq_default _ _ (Nat.le_of_not_lt hlen))

theorem getD_mem_of_ne_zero (h : lens.getD sym 0 ≠ 0) : lens.getD sym 0 ∈ lens := by
  have hlen := lt_length_of_getD_ne_zero h
  rw [List.getD_eq_getElem _ _ hlen]
  exact List.getElem_mem hlen

/-- A symbol comes before the end of the symbols of its length. -/
theorem count_take_lt (hlen : sym < lens.length) :
    (lens.take sym).count (lens.getD sym 0) < lens.count (lens.getD sym 0) := by
  have hsplit := congrArg (List.count (lens.getD sym 0)) (List.take_append_drop sym lens)
  rw [List.count_append, List.drop_eq_getElem_cons hlen, List.getD_eq_getElem _ _ hlen,
    List.count_cons_self] at hsplit
  rw [List.getD_eq_getElem _ _ hlen]
  omega

/-- What is spelled, seen from the leaves. -/
theorem Spells.below (h : Spells lens s p sym) (hg : lens.getD sym 0 ≤ g) :
    Below lens.count g (lens.getD sym 0) ((lens.take sym).count (lens.getD sym 0))
      (highFirst s p g) := by
  have hdiv := highFirst_div s p hg
  rw [h.word, wordOf, Nat.div_eq_iff (Nat.two_pow_pos _)] at hdiv
  rw [Below, leafOf_scale _ hg]
  have := Nat.two_pow_pos (g - lens.getD sym 0)
  omega

theorem count_take_inj {len i j : Nat} (hi : lens.getD i 0 = len) (hj : lens.getD j 0 = len)
    (hlen : len ≠ 0) (h : (lens.take i).count len = (lens.take j).count len) : i = j := by
  have hlt : ∀ {i j : Nat}, lens.getD i 0 = len →
      (lens.take i).count len = (lens.take j).count len → ¬ i < j := by
    intro i j hi h hij
    have hin := @lt_length_of_getD_ne_zero lens i (hi ▸ hlen)
    have hmono := (List.take_sublist_take_left (l := lens) (show i + 1 ≤ j from hij)).count_le len
    rw [List.take_succ_eq_append_getElem hin, List.count_append, ← List.getD_eq_getElem _ 0 hin,
      hi, List.count_singleton_self] at hmono
    omega
  have := hlt hi h
  have := hlt hj h.symm
  omega

/-- A stream goes on with at most one word. -/
theorem Spells.unique {sym' : Nat} (h : Spells lens s p sym) (h' : Spells lens s p sym') :
    sym = sym' := by
  have hbelow := h.below (Nat.le_max_left (lens.getD sym 0) (lens.getD sym' 0))
  have hbelow' := h'.below (Nat.le_max_right (lens.getD sym 0) (lens.getD sym' 0))
  obtain ⟨hlen, hrank⟩ := hbelow.unique (Nat.pos_of_ne_zero h.used) (Nat.pos_of_ne_zero h'.used)
    (count_take_lt (lt_length_of_getD_ne_zero h.used))
    (count_take_lt (lt_length_of_getD_ne_zero h'.used)) hbelow'
  exact count_take_inj rfl hlen.symm h.used (by rw [hrank, hlen])

/-- The place of a word of length `len` among the symbols of that length. -/
theorem exists_rank {len r : Nat} (hr : r < lens.count len) :
    ∃ sym, lens.getD sym 0 = len ∧ (lens.take sym).count len = r := by
  induction lens generalizing r with
  | nil => exact absurd hr (Nat.not_lt_zero _)
  | cons a lens ih =>
      by_cases ha : a = len
      · cases r with
        | zero => exact ⟨0, ha, rfl⟩
        | succ r =>
            rw [ha, List.count_cons_self] at hr
            obtain ⟨sym, hsym, hrank⟩ := ih (Nat.lt_of_succ_lt_succ hr)
            exact ⟨sym + 1, hsym, by rw [List.take_succ_cons, ha, List.count_cons_self, hrank]⟩
      · rw [List.count_cons_of_ne ha] at hr
        obtain ⟨sym, hsym, hrank⟩ := ih hr
        exact ⟨sym + 1, hsym, by rw [List.take_succ_cons, List.count_cons_of_ne ha, hrank]⟩

theorem Spells.of_below {len r : Nat} (hused : len ≠ 0) (hg : len ≤ g)
    (hsym : lens.getD sym 0 = len) (hrank : (lens.take sym).count len = r)
    (h : Below lens.count g len r (highFirst s p g)) : Spells lens s p sym := by
  subst hsym hrank
  refine ⟨hused, ?_⟩
  rw [Below, leafOf_scale _ hg] at h
  rw [← highFirst_div s p hg, Nat.div_eq_iff (Nat.two_pow_pos _), wordOf]
  have := Nat.two_pow_pos (g - lens.getD sym 0)
  omega

/-- The share of the leaves does not depend on the depth of the tree. -/
theorem leaves_scale {g' : Nat} (h : ∀ len ∈ lens, len ≤ g) (hg : g ≤ g') :
    leaves lens g' = leaves lens g * 2 ^ (g' - g) := by
  have hlong : ∀ j ∈ Finset.Ico (g + 1) (g' + 1), lens.count j * 2 ^ (g' - j) = 0 := by
    intro j hj
    rw [Finset.mem_Ico] at hj
    rw [List.count_eq_zero_of_not_mem fun hmem => absurd (h j hmem) (by omega), Nat.zero_mul]
  unfold leaves taken
  rw [← Finset.sum_Ico_consecutive _ (Nat.succ_pos g) (Nat.succ_le_succ hg),
    Finset.sum_eq_zero hlong, Nat.add_zero, Finset.sum_mul]
  apply Finset.sum_congr rfl
  intro j hj
  rw [Finset.mem_Ico] at hj
  rw [Nat.mul_assoc, ← Nat.pow_add]
  congr 2
  omega

/-- A complete code has a word for every stream. -/
theorem CompleteCode.exists_spells (h : CompleteCode lens g) (s : Nat → Bool) (p : Nat) :
    ∃ sym, Spells lens s p sym := by
  have hleaf : highFirst s p g < taken lens.count g (g + 1) := by
    rw [show taken lens.count g (g + 1) = 2 ^ g from h.full]
    exact highFirst_lt s p g
  obtain ⟨k, r, hk, hm, hr, hbelow⟩ := exists_below g hleaf
  obtain ⟨sym, hsym, hrank⟩ := exists_rank hr
  exact ⟨sym, .of_below (Nat.ne_of_gt hk) hm hsym hrank hbelow⟩

end

end Foundation
