import Milo.Zip.Huft

/-! # The loops of `huft_build`

What each of the small loops computes, in terms of the leaves that the codes take:
the counter runs through the leaves with its bits reversed, the number of dummy codes
is what is missing to a full tree, and a table is as wide as the codes below it need.
-/

namespace Milo.Zip

open Foundation

/-! ## Shortest and longest length -/

section
variable {c : Nat → Nat}

theorem firstUsed_spec {j left : Nat} (h : ∃ k, j ≤ k ∧ k < j + left ∧ c k ≠ 0) :
    j ≤ firstUsed c j left ∧ firstUsed c j left < j + left ∧ c (firstUsed c j left) ≠ 0 ∧
      ∀ k, j ≤ k → k < firstUsed c j left → c k = 0 := by
  induction left generalizing j with
  | zero =>
      obtain ⟨k, hlo, hhi, -⟩ := h
      omega
  | succ left ih =>
      rw [firstUsed]
      by_cases hj : c j ≠ 0
      · rw [if_pos hj]
        exact ⟨Nat.le_refl j, by omega, hj, fun k hlo hhi => by omega⟩
      · rw [if_neg hj]
        obtain ⟨k, hlo, hhi, hk⟩ := h
        have hne : k ≠ j := fun heq => hj (heq ▸ hk)
        have hrest := ih (j := j + 1) ⟨k, by omega, by omega, hk⟩
        refine ⟨by omega, by omega, hrest.2.2.1, fun i hi hlt => ?_⟩
        by_cases hij : i = j
        · exact hij ▸ not_not.mp hj
        · exact hrest.2.2.2 i (by omega) hlt

theorem lastUsed_spec {i : Nat} (h : ∃ k, 1 ≤ k ∧ k ≤ i ∧ c k ≠ 0) :
    1 ≤ lastUsed c i ∧ lastUsed c i ≤ i ∧ c (lastUsed c i) ≠ 0 ∧
      ∀ k, lastUsed c i < k → k ≤ i → c k = 0 := by
  induction i with
  | zero =>
      obtain ⟨k, hlo, hhi, -⟩ := h
      omega
  | succ i ih =>
      rw [lastUsed]
      by_cases hi : c (i + 1) ≠ 0
      · rw [if_pos hi]
        exact ⟨by omega, Nat.le_refl _, hi, fun k hlo hhi => by omega⟩
      · rw [if_neg hi]
        obtain ⟨k, hlo, hhi, hk⟩ := h
        have hne : k ≠ i + 1 := fun heq => hi (heq ▸ hk)
        have hrest := ih ⟨k, hlo, by omega, hk⟩
        refine ⟨hrest.1, by omega, hrest.2.2.1, fun k hlo hhi => ?_⟩
        by_cases hik : k = i + 1
        · exact hik ▸ not_not.mp hi
        · exact hrest.2.2.2 k hlo (by omega)

/-! ## Dummy codes -/

/-- `y` counts the words of length `j` that shorter codes leave. -/
theorem dummyCodes_spec {g left j y : Nat} (hj : 1 ≤ j) (hg : j + left = g)
    (hy : taken c g j + y * 2 ^ (g - j) = 2 ^ g) :
    dummyCodes c left j y =
      if taken c g (g + 1) ≤ 2 ^ g then some (2 ^ g - taken c g (g + 1)) else none := by
  induction left generalizing j y with
  | zero =>
      obtain rfl : j = g := hg
      rw [Nat.sub_self, Nat.pow_zero, Nat.mul_one] at hy
      rw [taken_succ hj, Nat.sub_self, Nat.pow_zero, Nat.mul_one, dummyCodes]
      by_cases hlt : y < c j
      · rw [if_pos hlt, if_neg (by omega)]
      · rw [if_neg hlt, if_pos (by omega)]
        congr 1
        omega
  | succ left ih =>
      have hpow : 2 ^ (g - j) = 2 * 2 ^ (g - (j + 1)) := by
        rw [← Nat.pow_succ', show g - j = g - (j + 1) + 1 by omega]
      have htaken := taken_succ (c := c) (g := g) hj
      rw [dummyCodes]
      by_cases hlt : y < c j
      · -- the words of this length alone are too many
        have hover : y * 2 ^ (g - j) < c j * 2 ^ (g - j) :=
          Nat.mul_lt_mul_of_pos_right hlt (Nat.two_pow_pos _)
        have hmono := taken_mono (c := c) (g := g) (show j + 1 ≤ g + 1 by omega)
        rw [if_pos hlt, if_neg (by omega)]
      · have hnext : taken c g (j + 1) + 2 * (y - c j) * 2 ^ (g - (j + 1)) = 2 ^ g := by
          have hle := Nat.mul_le_mul_right (2 ^ (g - j)) (Nat.le_of_not_lt hlt)
          have hsub := Nat.sub_mul y (c j) (2 ^ (g - j))
          have htwice : 2 * (y - c j) * 2 ^ (g - (j + 1)) = (y - c j) * 2 ^ (g - j) := by
            rw [hpow, Nat.mul_comm 2, Nat.mul_assoc]
          omega
        rw [if_neg hlt]
        exact ih (by omega) (by omega) hnext

end

/-! ## The counter -/

theorem reverseBits_succ_even (k c : Nat) :
    reverseBits (k + 1) (c * 2) = reverseBits k c := by
  have h := reverseBits_mul_two_pow c (Nat.le_succ k)
  rwa [show k.succ - k = 1 by omega, Nat.pow_one] at h

/-- Counting with reversed bits. -/
theorem backInc_reverseBits (k c : Nat) : backInc k (reverseBits k c) = reverseBits k (c + 1) := by
  induction k generalizing c with
  | zero => rfl
  | succ k ih =>
      have htop : (reverseBits (k + 1) c).testBit k = decide (c % 2 = 1) := by
        rw [testBit_reverseBits, show k + 1 - 1 - k = 0 by omega, Nat.testBit_zero]
        simp
      rw [backInc, htop]
      by_cases hodd : c % 2 = 1
      · have hlow : reverseBits (k + 1) c ^^^ 2 ^ k = reverseBits k (c / 2) := by
          apply Nat.eq_of_testBit_eq
          intro i
          rw [Nat.testBit_xor, Nat.testBit_two_pow, testBit_reverseBits, testBit_reverseBits,
            Nat.testBit_div_two]
          by_cases hi : i < k
          · have hpos : k - 1 - i + 1 = k - i := by omega
            simp [hi, hpos, show i < k + 1 by omega, show k ≠ i by omega]
          · by_cases hik : k = i
            · subst hik
              simp [hodd]
            · simp [hi, hik, show ¬ i < k + 1 by omega]
        have hnext : c + 1 = (c / 2 + 1) * 2 := by omega
        rw [decide_eq_true hodd, if_pos rfl, hlow, ih, hnext, reverseBits_succ_even]
      · have hlow : reverseBits (k + 1) c ^^^ 2 ^ k = reverseBits (k + 1) (c + 1) := by
          apply Nat.eq_of_testBit_eq
          intro i
          rw [Nat.testBit_xor, Nat.testBit_two_pow, testBit_reverseBits, testBit_reverseBits]
          by_cases hik : k = i
          · subst hik
            have hbit : (c + 1) % 2 = 1 := by omega
            simp [hodd, hbit]
          · by_cases hi : i < k + 1
            · have hpos : k + 1 - 1 - i = k - 1 - i + 1 := by omega
              have hhalf : (c + 1) / 2 = c / 2 := by omega
              rw [hpos, Nat.testBit_add_one, Nat.testBit_add_one, hhalf]
              simp [hik]
            · simp [hi, hik]
        rw [decide_eq_false hodd, if_neg Bool.false_ne_true, hlow]

/-- The counter of a leaf, moved on by a word of length `k`. -/
theorem backInc_leaf {g k a : Nat} (h : k ≤ g) (ha : 2 ^ (g - k) ∣ a) :
    backInc k (reverseBits g a) = reverseBits g (a + 2 ^ (g - k)) := by
  obtain ⟨c, rfl⟩ := ha
  have hnext : 2 ^ (g - k) * c + 2 ^ (g - k) = (c + 1) * 2 ^ (g - k) := by
    rw [Nat.mul_comm, ← Nat.succ_mul]
  rw [hnext, Nat.mul_comm, reverseBits_mul_two_pow _ h, reverseBits_mul_two_pow _ h,
    backInc_reverseBits]

theorem backUp_spec (l i : Nat) (x : Nat → Nat) (depth : Nat) (h0 : x 0 = 0) (hpos : 0 < depth) :
    0 < backUp l i x depth ∧ backUp l i x depth ≤ depth ∧
      i % 2 ^ (l * (backUp l i x depth - 1)) = x (backUp l i x depth - 1) ∧
      ∀ m, backUp l i x depth ≤ m → m < depth → i % 2 ^ (l * m) ≠ x m := by
  induction depth with
  | zero => omega
  | succ h ih =>
      rw [backUp, Nat.and_two_pow_sub_one_eq_mod]
      by_cases hstay : i % 2 ^ (l * h) ≠ x h
      · have hpos : 0 < h := by
          rcases Nat.eq_zero_or_pos h with rfl | hpos
          · exact absurd (by rw [h0, Nat.mul_zero, Nat.pow_zero, Nat.mod_one]) hstay
          · exact hpos
        have hrest := ih hpos
        rw [if_pos hstay]
        refine ⟨hrest.1, by omega, hrest.2.2.1, fun m hlo hhi => ?_⟩
        by_cases hm : m = h
        · exact hm ▸ hstay
        · exact hrest.2.2.2 m hlo (by omega)
      · rw [if_neg hstay]
        exact ⟨Nat.succ_pos h, Nat.le_refl _, not_not.mp hstay, fun m hlo hhi => by omega⟩

/-! ## Filling slots -/

theorem fillEntries_spec (r : Huft) {f : Nat} (hf : 0 < f) (z : Nat) {left j : Nat}
    (hleft : z ≤ j + left) (q : Nat → Huft) (slot : Nat) :
    fillEntries r f z left j q slot =
      if j ≤ slot ∧ slot < z ∧ (slot - j) % f = 0 then r else q slot := by
  induction left generalizing j q with
  | zero => rw [fillEntries, if_neg (by omega)]
  | succ left ih =>
      rw [fillEntries]
      by_cases hj : j < z
      · rw [if_pos hj, ih (by omega)]
        by_cases hslot : slot = j
        · subst hslot
          rw [if_neg (by omega), Function.update_self, if_pos ⟨Nat.le_refl _, hj, by simp⟩]
        · rw [Function.update_of_ne hslot]
          congr 1
          rw [eq_iff_iff]
          constructor
          · rintro ⟨hlo, hhi, hmod⟩
            have hsplit : slot - j = slot - (j + f) + f := by omega
            exact ⟨by omega, hhi, by rw [hsplit, Nat.add_mod_right, hmod]⟩
          · rintro ⟨hlo, hhi, hmod⟩
            have hdvd := Nat.le_of_dvd (by omega) (Nat.dvd_of_mod_eq_zero hmod)
            have hsplit : slot - j = slot - (j + f) + f := by omega
            rw [hsplit, Nat.add_mod_right] at hmod
            exact ⟨by omega, hhi, hmod⟩
      · rw [if_neg hj, if_neg (by omega)]

/-- Filling from a slot below the step fills the slots with that remainder. -/
theorem fillEntries_mod (r : Huft) {f j : Nat} (hj : j < f) (z : Nat) (q : Nat → Huft)
    (slot : Nat) :
    fillEntries r f z z j q slot = if slot < z ∧ slot % f = j then r else q slot := by
  rw [fillEntries_spec r (by omega) z (by omega)]
  congr 1
  rw [eq_iff_iff]
  constructor
  · rintro ⟨hlo, hhi, hmod⟩
    refine ⟨hhi, ?_⟩
    have hsplit : slot = slot - j + j := by omega
    rw [hsplit, Nat.add_mod, hmod, Nat.zero_add, Nat.mod_mod, Nat.mod_eq_of_lt hj]
  · rintro ⟨hhi, rfl⟩
    exact ⟨Nat.mod_le _ _, hhi, Nat.sub_mod_eq_zero_of_mod_eq (Nat.mod_mod _ _).symm⟩

end Milo.Zip
