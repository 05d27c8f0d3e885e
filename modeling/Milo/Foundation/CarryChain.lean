import Mathlib.Data.BitVec

/-! # Carry chains

The carries of an addition can be read off its operands and its result, without adding
bit by bit, and so can the borrows of a subtraction. The last two of them tell whether
the signed result fits.
-/

namespace Foundation

open BitVec

section
variable {w : Nat}

/-- A mask of a single bit. -/
theorem and_twoPow_bne_zero (x : BitVec w) {i : Nat} (h : i < w) :
    (x &&& twoPow w i != 0#w) = x.getLsbD i := by
  have hne : twoPow w i ≠ 0#w := by
    intro hzero
    have hbit := congrArg (getLsbD · i) hzero
    simp [h] at hbit
  rw [and_twoPow]
  cases x.getLsbD i <;> simp [hne]

theorem ofNat_two_pow (i : Nat) : BitVec.ofNat w (2 ^ i) = twoPow w i := by
  apply eq_of_toNat_eq
  rw [toNat_ofNat, toNat_twoPow]

/-- A mask of the lowest bits. -/
theorem and_allOnes_eq_zero {r : Nat} (x : BitVec r) (h : w ≤ r) :
    x &&& (allOnes w).setWidth r = 0#r ↔ x.setWidth w = 0#w := by
  constructor
  · intro hzero
    ext i hi
    have hbit := congrArg (getLsbD · i) hzero
    simpa [hi, show i < r by omega] using hbit
  · intro hzero
    ext i hi
    by_cases hiw : i < w
    · have hbit := congrArg (getLsbD · i) hzero
      simpa [hi, hiw] using hbit
    · simp [hiw]

theorem toNat_and_byte {r : Nat} (x : BitVec r) (h : 8 ≤ r) :
    (x &&& 0xff#r).toNat = x.toNat % 256 := by
  have hpow : 2 ^ 8 ≤ 2 ^ r := Nat.pow_le_pow_right (by decide) h
  rw [toNat_and, toNat_ofNat, Nat.mod_eq_of_lt (by omega)]
  exact Nat.and_two_pow_sub_one_eq_mod x.toNat 8

/-- The carries out of the bits of `x + y`, by the result. -/
def carries (x y r : BitVec w) : BitVec w := (x &&& y) ||| (~~~r &&& (x ||| y))

/-- The borrows out of the bits of `x - y`, by the result. -/
def borrows (x y r : BitVec w) : BitVec w := (r &&& (~~~x ||| y)) ||| (~~~x &&& y)

/-- The lowest `i` bits of `x - y - c` need a borrow. -/
def borrow (i : Nat) (x y : BitVec w) (c : Bool) : Bool :=
  decide (x.toNat % 2 ^ i < y.toNat % 2 ^ i + c.toNat)

theorem getLsbD_carries (x y : BitVec w) (c : Bool) {i : Nat} (h : i < w) :
    (carries x y (x + y + setWidth w (ofBool c))).getLsbD i = carry (i + 1) x y c := by
  rw [carry_succ, carries]
  simp only [getLsbD_or, getLsbD_and, getLsbD_not, h, decide_true, Bool.true_and,
    getLsbD_add_add_bool h]
  cases x.getLsbD i <;> cases y.getLsbD i <;> cases carry i x y c <;> rfl

theorem carry_comm (i : Nat) (x y : BitVec w) (c : Bool) : carry i x y c = carry i y x c := by
  unfold carry
  rw [Nat.add_comm (x.toNat % 2 ^ i)]

theorem setWidth_one_one : setWidth w 1#1 = 1#w := by
  apply eq_of_toNat_eq
  simp

/-- Operands may be widened. -/
theorem carry_setWidth {r : Nat} (h : w ≤ r) (i : Nat) (x y : BitVec w) (c : Bool) :
    carry i (x.setWidth r) (y.setWidth r) c = carry i x y c := by
  have hpow : 2 ^ w ≤ 2 ^ r := Nat.pow_le_pow_right (by decide) h
  unfold carry
  rw [toNat_setWidth, toNat_setWidth, Nat.mod_eq_of_lt (Nat.lt_of_lt_of_le x.isLt hpow),
    Nat.mod_eq_of_lt (Nat.lt_of_lt_of_le y.isLt hpow)]

theorem borrow_setWidth {r : Nat} (h : w ≤ r) (i : Nat) (x y : BitVec w) (c : Bool) :
    borrow i (x.setWidth r) (y.setWidth r) c = borrow i x y c := by
  have hpow : 2 ^ w ≤ 2 ^ r := Nat.pow_le_pow_right (by decide) h
  unfold borrow
  rw [toNat_setWidth, toNat_setWidth, Nat.mod_eq_of_lt (Nat.lt_of_lt_of_le x.isLt hpow),
    Nat.mod_eq_of_lt (Nat.lt_of_lt_of_le y.isLt hpow)]

theorem setWidth_sub {r : Nat} (h : w ≤ r) (x y : BitVec r) :
    (x - y).setWidth w = x.setWidth w - y.setWidth w := by
  rw [BitVec.sub_eq_add_neg, BitVec.sub_eq_add_neg, setWidth_add _ _ h, setWidth_neg_of_le h]

/-- A subtraction adds the complement. -/
theorem sub_eq_add_not (x y : BitVec w) (c : Bool) :
    x - y - setWidth w (ofBool c) = x + ~~~y + setWidth w (ofBool !c) := by
  cases c with
  | false =>
      change x - y - setWidth w 0#1 = x + ~~~y + setWidth w 1#1
      rw [not_eq_neg_add, setWidth_one_one, setWidth_zero, BitVec.sub_zero, BitVec.add_assoc,
        BitVec.sub_add_cancel, BitVec.sub_eq_add_neg]
  | true =>
      change x - y - setWidth w 1#1 = x + ~~~y + setWidth w 0#1
      rw [not_eq_neg_add, setWidth_one_one, setWidth_zero, BitVec.add_zero,
        BitVec.sub_eq_add_neg x, BitVec.sub_eq_add_neg, BitVec.sub_eq_add_neg (-y),
        BitVec.add_assoc]

theorem borrow_eq_not_carry {i : Nat} (h : i ≤ w) (x y : BitVec w) (c : Bool) :
    borrow i x y c = !carry i x (~~~y) (!c) := by
  have hpow : 2 ^ w = 2 ^ i * 2 ^ (w - i) := by
    rw [← Nat.pow_add, Nat.add_sub_cancel' h]
  have hnot : (~~~y).toNat % 2 ^ i = 2 ^ i - 1 - y.toNat % 2 ^ i := by
    have hquot := Nat.div_add_mod y.toNat (2 ^ i)
    have hlt : y.toNat / 2 ^ i < 2 ^ (w - i) := by
      rw [Nat.div_lt_iff_lt_mul (Nat.two_pow_pos i), Nat.mul_comm, ← hpow]
      exact y.isLt
    have hmod := Nat.mod_lt y.toNat (Nat.two_pow_pos i)
    have hsplit : 2 ^ w - 1 - y.toNat =
        2 ^ i * (2 ^ (w - i) - 1 - y.toNat / 2 ^ i) + (2 ^ i - 1 - y.toNat % 2 ^ i) := by
      rw [hpow, Nat.mul_sub, Nat.mul_sub, Nat.mul_one]
      have hle := Nat.mul_le_mul_left (2 ^ i) (show y.toNat / 2 ^ i + 1 ≤ 2 ^ (w - i) from hlt)
      rw [Nat.mul_succ] at hle
      omega
    rw [toNat_not, hsplit, Nat.mul_add_mod, Nat.mod_eq_of_lt (by omega)]
  have hy := Nat.mod_lt y.toNat (Nat.two_pow_pos i)
  unfold borrow carry
  rw [hnot, ← decide_not, decide_eq_decide]
  cases c <;> simp <;> omega

theorem getLsbD_borrows (x y : BitVec w) (c : Bool) {i : Nat} (h : i < w) :
    (borrows x y (x - y - setWidth w (ofBool c))).getLsbD i = borrow (i + 1) x y c := by
  rw [borrow_eq_not_carry h, ← getLsbD_carries _ _ _ h, ← sub_eq_add_not, carries, borrows]
  simp only [getLsbD_or, getLsbD_and, getLsbD_not, h, decide_true, Bool.true_and]
  generalize (x - y - setWidth w (ofBool c)).getLsbD i = r
  cases x.getLsbD i <;> cases y.getLsbD i <;> cases r <;> rfl

/-! ## The signed result -/

/-- The range of signed numbers of `w + 1` bits. -/
def SignedRange (w : Nat) (n : Int) : Prop := -2 ^ w ≤ n ∧ n < 2 ^ w

instance (w : Nat) (n : Int) : Decidable (SignedRange w n) :=
  inferInstanceAs (Decidable (_ ∧ _))

theorem toInt_cond (x : BitVec (w + 1)) :
    x.toInt = if x.toNat < 2 ^ w then (x.toNat : Int) else x.toNat - 2 * 2 ^ w := by
  rw [toInt_eq_toNat_cond, Nat.pow_succ']
  split <;> split <;> push_cast <;> omega

theorem toNat_mod_cond (x : BitVec (w + 1)) :
    x.toNat % 2 ^ w = if x.toNat < 2 ^ w then x.toNat else x.toNat - 2 ^ w := by
  have hlt := x.isLt
  rw [Nat.pow_succ'] at hlt
  split
  · exact Nat.mod_eq_of_lt ‹_›
  · rw [Nat.mod_eq_sub_mod (by omega), Nat.mod_eq_of_lt (by omega)]

/-- An addition leaves the range if the last two carries differ. -/
theorem carry_bne_carry (x y : BitVec (w + 1)) (c : Bool) :
    (carry w x y c != carry (w + 1) x y c) =
      !decide (SignedRange w (x.toInt + y.toInt + c.toNat)) := by
  have hx := x.isLt
  have hy := y.isLt
  have hc := Bool.toNat_le c
  rw [Bool.eq_iff_iff, bne_iff_ne, Bool.not_eq_true', decide_eq_false_iff_not, not_iff_not]
  unfold carry SignedRange
  rw [decide_eq_decide, toInt_cond, toInt_cond, toNat_mod_cond, toNat_mod_cond,
    Nat.mod_eq_of_lt hx, Nat.mod_eq_of_lt hy]
  rw [Nat.pow_succ'] at *
  have hcast : ((2 ^ w : Nat) : Int) = 2 ^ w := by push_cast; rfl
  rw [← hcast]
  generalize 2 ^ w = p at *
  split <;> split <;> omega

/-- A subtraction leaves the range if the last two borrows differ. -/
theorem borrow_bne_borrow (x y : BitVec (w + 1)) (c : Bool) :
    (borrow w x y c != borrow (w + 1) x y c) =
      !decide (SignedRange w (x.toInt - y.toInt - c.toNat)) := by
  have hx := x.isLt
  have hy := y.isLt
  have hc := Bool.toNat_le c
  rw [Bool.eq_iff_iff, bne_iff_ne, Bool.not_eq_true', decide_eq_false_iff_not, not_iff_not]
  unfold borrow SignedRange
  rw [decide_eq_decide, toInt_cond, toInt_cond, toNat_mod_cond, toNat_mod_cond,
    Nat.mod_eq_of_lt hx, Nat.mod_eq_of_lt hy]
  rw [Nat.pow_succ'] at *
  have hcast : ((2 ^ w : Nat) : Int) = 2 ^ w := by push_cast; rfl
  rw [← hcast]
  generalize 2 ^ w = p at *
  split <;> split <;> omega

theorem toNat_sub_cond (x y : BitVec w) :
    (x - y).toNat = if y.toNat ≤ x.toNat then x.toNat - y.toNat
      else x.toNat + 2 ^ w - y.toNat := by
  have hx := x.isLt
  have hy := y.isLt
  rw [toNat_sub]
  split
  · rw [show 2 ^ w - y.toNat + x.toNat = x.toNat - y.toNat + 2 ^ w by omega, Nat.add_mod_right,
      Nat.mod_eq_of_lt (by omega)]
  · rw [Nat.mod_eq_of_lt (by omega)]
    omega

/-- The sign of a difference and its overflow tell which operand is the smaller one. -/
theorem msb_sub_bne_overflow (x y : BitVec (w + 1)) :
    ((x - y).msb != !decide (SignedRange w (x.toInt - y.toInt))) = decide (x.toInt < y.toInt) := by
  have hx := x.isLt
  have hy := y.isLt
  have hsub := toNat_sub_cond x y
  rw [Bool.eq_iff_iff, bne_iff_ne, msb_eq_decide, Nat.add_sub_cancel, ne_eq,
    ← decide_not, decide_eq_decide, decide_eq_true_eq]
  unfold SignedRange
  rw [toInt_cond, toInt_cond]
  rw [Nat.pow_succ'] at *
  have hcast : ((2 ^ w : Nat) : Int) = 2 ^ w := by push_cast; rfl
  rw [← hcast]
  generalize (x - y).toNat = r at *
  generalize 2 ^ w = p at *
  split at hsub <;> split <;> split <;> omega

end

end Foundation
