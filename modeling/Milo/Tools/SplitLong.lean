import Mathlib.Algebra.Order.Ring.Int
import Mathlib.Data.Nat.Bits
import Mathlib.Data.Nat.Bitwise

/-! # Long integers in two halves

Where the tools are built with `CROSS_COMPILE_32_TO_64_BITS`, an `int64` is a pair of
`int`s. Sums are made of pieces of 16 bits, so that each carry can be seen.
-/

namespace Milo.Tools

/-- `int64` -/
structure Int64Pair where
  low : BitVec 32
  high : BitVec 32
deriving DecidableEq

namespace Int64Pair

/-- The number that the halves stand for. -/
def value (a : Int64Pair) : BitVec 64 := a.high ++ a.low

/-! ## The functions -/

/-- `(hp << 16) | (lp & 0xffff)` -/
def joinPieces (hp lp : BitVec 32) : BitVec 32 := (hp <<< 16) ||| (lp &&& 0xffff)

/-- `add_l_ui` -/
def addUnsigned (l : Int64Pair) (i : BitVec 32) : Int64Pair :=
  let lp := (l.low &&& 0xffff) + (i &&& 0xffff)
  let carry := lp >>> 16
  let hp := (l.low >>> 16) + (i >>> 16) + carry
  let carry := hp >>> 16
  ⟨joinPieces hp lp, l.high + carry⟩

/-- `add_l_l` -/
def addLong (a b : Int64Pair) : Int64Pair :=
  let lp := (a.low &&& 0xffff) + (b.low &&& 0xffff)
  let carry := lp >>> 16
  let hp := (a.low >>> 16) + (b.low >>> 16) + carry
  let carry := hp >>> 16
  let low := joinPieces hp lp
  let lp := (a.high &&& 0xffff) + (b.high &&& 0xffff) + carry
  let carry := lp >>> 16
  let hp := (a.high >>> 16) + (b.high >>> 16) + carry
  ⟨low, joinPieces hp lp⟩

/-- `add_l_i` -/
def addInt (l : Int64Pair) (i : BitVec 32) : Int64Pair :=
  if i = 0 then ⟨l.low, l.high⟩
  else if (0 : BitVec 32).slt i then addUnsigned l i
  else addLong l ⟨i, -1⟩

/-- `sub_l_l` -/
def subLong (a b : Int64Pair) : Int64Pair :=
  let lp := (a.low &&& 0xffff) + (~~~b.low &&& 0xffff) + 1
  let carry := lp >>> 16
  let hp := (a.low >>> 16) + (~~~b.low >>> 16) + carry
  let carry := hp >>> 16
  let low := joinPieces hp lp
  let lp := (a.high &&& 0xffff) + (~~~b.high &&& 0xffff) + carry
  let carry := lp >>> 16
  let hp := (a.high >>> 16) + (~~~b.high >>> 16) + carry
  ⟨low, joinPieces hp lp⟩

/-- `plus` -/
def plus (a b : Int64Pair) : Int64Pair := addLong a b

/-- `plus_a_32` -/
def plusA32 (a : Int64Pair) (b : BitVec 32) : Int64Pair := addInt a b

/-- `minus` -/
def minus (a b : Int64Pair) : Int64Pair := subLong a b

/-- `lt64` -/
def lt64 (a b : Int64Pair) : Bool := a.low.slt b.low && a.high.slt b.high

/-! ## Pieces -/

theorem value_toNat (a : Int64Pair) :
    a.value.toNat = 2 ^ 32 * a.high.toNat + a.low.toNat := by
  rw [value, BitVec.toNat_append, Nat.shiftLeft_eq, Nat.mul_comm,
    Nat.two_pow_add_eq_or_of_lt a.low.isLt]

theorem lowPiece_toNat (x : BitVec 32) : (x &&& 0xffff).toNat = x.toNat % 2 ^ 16 :=
  Nat.and_two_pow_sub_one_eq_mod x.toNat 16

theorem highPiece_toNat (x : BitVec 32) : (x >>> 16).toNat = x.toNat / 2 ^ 16 :=
  Nat.shiftRight_eq_div_pow x.toNat 16

theorem joinPieces_toNat (hp lp : BitVec 32) :
    (joinPieces hp lp).toNat = 2 ^ 16 * (hp.toNat % 2 ^ 16) + lp.toNat % 2 ^ 16 := by
  have hlow : lp.toNat % 2 ^ 16 < 2 ^ 16 := Nat.mod_lt _ (by decide)
  have hhigh : hp.toNat * 2 ^ 16 % 2 ^ 32 = 2 ^ 16 * (hp.toNat % 2 ^ 16) := by omega
  rw [joinPieces, BitVec.toNat_or, lowPiece_toNat, BitVec.toNat_shiftLeft, Nat.shiftLeft_eq,
    hhigh, Nat.two_pow_add_eq_or_of_lt hlow]

/-! ## One half

Both halves of every sum are made in the same way, the first with no carry (or with the 1
of a difference), the second with the carry of the first.
-/

/-- `lp` of a half. -/
def lowSum (x y carry : BitVec 32) : BitVec 32 := (x &&& 0xffff) + (y &&& 0xffff) + carry

/-- `hp` of a half. -/
def highSum (x y carry : BitVec 32) : BitVec 32 :=
  (x >>> 16) + (y >>> 16) + (lowSum x y carry >>> 16)

/-- The word of a half. -/
def sumWord (x y carry : BitVec 32) : BitVec 32 :=
  joinPieces (highSum x y carry) (lowSum x y carry)

/-- The carry out of a half. -/
def sumCarry (x y carry : BitVec 32) : BitVec 32 := highSum x y carry >>> 16

theorem lowSum_zero (x y : BitVec 32) : lowSum x y 0 = (x &&& 0xffff) + (y &&& 0xffff) :=
  BitVec.add_zero _

theorem lowSum_toNat (x y carry : BitVec 32) (hc : carry.toNat ≤ 1) :
    (lowSum x y carry).toNat = x.toNat % 2 ^ 16 + y.toNat % 2 ^ 16 + carry.toNat := by
  rw [lowSum, BitVec.toNat_add, BitVec.toNat_add, lowPiece_toNat, lowPiece_toNat]
  omega

theorem highSum_toNat (x y carry : BitVec 32) (hc : carry.toNat ≤ 1) :
    (highSum x y carry).toNat = x.toNat / 2 ^ 16 + y.toNat / 2 ^ 16 +
      (x.toNat % 2 ^ 16 + y.toNat % 2 ^ 16 + carry.toNat) / 2 ^ 16 := by
  have hx := x.isLt
  have hy := y.isLt
  rw [highSum, BitVec.toNat_add, BitVec.toNat_add, highPiece_toNat, highPiece_toNat,
    highPiece_toNat, lowSum_toNat x y carry hc]
  omega

theorem sumCarry_le_one (x y carry : BitVec 32) (hc : carry.toNat ≤ 1) :
    (sumCarry x y carry).toNat ≤ 1 := by
  have hx := x.isLt
  have hy := y.isLt
  rw [sumCarry, highPiece_toNat, highSum_toNat x y carry hc]
  omega

/-- No carry is lost in a half. -/
theorem sumWord_add_sumCarry (x y carry : BitVec 32) (hc : carry.toNat ≤ 1) :
    (sumWord x y carry).toNat + 2 ^ 32 * (sumCarry x y carry).toNat =
      x.toNat + y.toNat + carry.toNat := by
  rw [sumWord, joinPieces_toNat, sumCarry, highPiece_toNat, highSum_toNat x y carry hc,
    lowSum_toNat x y carry hc]
  omega

/-! ## Sums -/

/-- Two halves, the carry of the low one added to the high one. -/
def addHalves (a b : Int64Pair) (carry : BitVec 32) : Int64Pair :=
  ⟨sumWord a.low b.low carry, sumWord a.high b.high (sumCarry a.low b.low carry)⟩

theorem addHalves_value (a b : Int64Pair) (carry : BitVec 32) (hc : carry.toNat ≤ 1) :
    (addHalves a b carry).value = a.value + b.value + carry.setWidth 64 := by
  have hlow := sumWord_add_sumCarry a.low b.low carry hc
  have hhigh := sumWord_add_sumCarry a.high b.high _ (sumCarry_le_one a.low b.low carry hc)
  apply BitVec.eq_of_toNat_eq
  rw [BitVec.toNat_add, BitVec.toNat_add, BitVec.toNat_setWidth, value_toNat, value_toNat,
    value_toNat]
  simp only [addHalves]
  omega

theorem addLong_eq (a b : Int64Pair) : addLong a b = addHalves a b 0 := by
  simp only [addHalves, sumWord, sumCarry, highSum, lowSum_zero]
  rfl

theorem addLong_value (a b : Int64Pair) : (addLong a b).value = a.value + b.value := by
  rw [addLong_eq, addHalves_value a b 0 (Nat.zero_le 1)]
  exact BitVec.add_zero _

/-- The complement of both halves and a carry of 1. -/
theorem subLong_eq (a b : Int64Pair) : subLong a b = addHalves a ⟨~~~b.low, ~~~b.high⟩ 1 :=
  rfl

theorem not_value (b : Int64Pair) : (⟨~~~b.low, ~~~b.high⟩ : Int64Pair).value = ~~~b.value :=
  BitVec.not_append.symm

theorem subLong_value (a b : Int64Pair) : (subLong a b).value = a.value - b.value := by
  rw [subLong_eq, addHalves_value a _ 1 (Nat.le_refl 1), not_value, BitVec.add_assoc]
  exact (congrArg (a.value + ·) (BitVec.neg_eq_not_add b.value).symm).trans
    (BitVec.sub_eq_add_neg a.value b.value).symm

theorem addUnsigned_value (l : Int64Pair) (i : BitVec 32) :
    (addUnsigned l i).value = l.value + i.setWidth 64 := by
  have hform : addUnsigned l i = ⟨sumWord l.low i 0, l.high + sumCarry l.low i 0⟩ := by
    simp only [sumWord, sumCarry, highSum, lowSum_zero]
    rfl
  have hlow := sumWord_add_sumCarry l.low i 0 (Nat.zero_le 1)
  have hzero : (0 : BitVec 32).toNat = 0 := rfl
  apply BitVec.eq_of_toNat_eq
  rw [hform, BitVec.toNat_add, BitVec.toNat_setWidth, value_toNat, value_toNat,
    BitVec.toNat_add]
  dsimp only
  omega

/-- A negative increment has a high half of ones. -/
theorem value_of_msb (i : BitVec 32) (hi : i.msb = true) :
    (⟨i, -1⟩ : Int64Pair).value = i.signExtend 64 := by
  apply BitVec.eq_of_toNat_eq
  rw [value_toNat, BitVec.toNat_signExtend, hi]
  have hlow := i.isLt
  have hones : (-1 : BitVec 32).toNat = 2 ^ 32 - 1 := rfl
  simp only [BitVec.toNat_setWidth, if_true]
  omega

/-- Apart from 0, `i > 0` tells the top bit. -/
theorem zero_slt_eq (i : BitVec 32) (hi : i ≠ 0) : (0 : BitVec 32).slt i = !i.msb := by
  have hne : ((0 : BitVec 32) != i) = true := bne_iff_ne.mpr hi.symm
  rw [BitVec.slt_eq_sle_and_ne, hne, Bool.and_true]
  exact BitVec.zero_sle_eq_not_msb

theorem addInt_value (l : Int64Pair) (i : BitVec 32) :
    (addInt l i).value = l.value + i.signExtend 64 := by
  by_cases hi : i = 0
  · rw [addInt, if_pos hi, hi]
    exact (BitVec.add_zero l.value).symm
  · rw [addInt, if_neg hi, zero_slt_eq i hi]
    cases hmsb : i.msb with
    | false =>
      rw [BitVec.signExtend_eq_setWidth_of_msb_false hmsb]
      exact addUnsigned_value l i
    | true =>
      rw [← value_of_msb i hmsb]
      exact addLong_value l ⟨i, -1⟩

/-! ## The order -/

theorem value_ult_iff (a b : Int64Pair) :
    a.value.ult b.value ↔ a.high < b.high ∨ a.high = b.high ∧ a.low < b.low := by
  have ha := a.low.isLt
  have hb := b.low.isLt
  rw [BitVec.ult_iff_lt, BitVec.lt_def, BitVec.lt_def, BitVec.lt_def, value_toNat, value_toNat,
    BitVec.toNat_eq]
  omega

theorem value_toInt (a : Int64Pair) :
    a.value.toInt = 2 ^ 32 * a.high.toInt + a.low.toNat := by
  have hmsb : a.value.msb = a.high.msb := BitVec.msb_append
  have hvalue := value_toNat a
  rw [BitVec.toInt_eq_msb_cond, BitVec.toInt_eq_msb_cond, hmsb]
  cases a.high.msb
  · simp only [Bool.false_eq_true, if_false]
    omega
  · simp only [if_true]
    omega

theorem value_slt_iff (a b : Int64Pair) :
    a.value.slt b.value ↔ a.high.slt b.high ∨ a.high = b.high ∧ a.low < b.low := by
  have ha := a.low.isLt
  have hb := b.low.isLt
  rw [BitVec.slt_iff_toInt_lt, BitVec.slt_iff_toInt_lt, BitVec.lt_def, value_toInt, value_toInt,
    ← BitVec.toInt_inj]
  omega

/-- The four operations give what they give on numbers of 64 bits. -/
def ArithmeticRight (less : BitVec 64 → BitVec 64 → Bool) (a b : Int64Pair) (i : BitVec 32) :
    Prop :=
  (plus a b).value = a.value + b.value ∧
  (minus a b).value = a.value - b.value ∧
  (plusA32 a i).value = a.value + i.signExtend 64 ∧
  lt64 a b = less a.value b.value

theorem arithmeticRight_iff_less (less : BitVec 64 → BitVec 64 → Bool) (a b : Int64Pair)
    (i : BitVec 32) : ArithmeticRight less a b i ↔ lt64 a b = less a.value b.value := by
  constructor
  · intro h
    exact h.2.2.2
  · intro h
    exact ⟨addLong_value a b, subLong_value a b, addInt_value a i, h⟩

theorem lt64_iff (a b : Int64Pair) : lt64 a b ↔ a.low.slt b.low ∧ a.high.slt b.high := by
  rw [lt64, Bool.and_eq_true]

theorem lt64_iff_slt (a b : Int64Pair) :
    (lt64 a b = a.value.slt b.value) ↔
      (a.high = b.high → b.low ≤ a.low) ∧ (a.high.slt b.high → a.low.slt b.low) := by
  have hsame : a.high = b.high → ¬ a.high.slt b.high := by
    intro h
    rw [h, BitVec.slt_iff_toInt_lt]
    exact Int.lt_irrefl _
  rw [Bool.eq_iff_iff, lt64_iff, value_slt_iff, ← BitVec.not_lt]
  grind

/-- Without a sign, a top bit in one high half turns the comparison of the two around. -/
theorem lt64_iff_ult (a b : Int64Pair) :
    (lt64 a b = a.value.ult b.value) ↔
      (a.high = b.high → b.low ≤ a.low) ∧
      (a.high < b.high → a.high.msb = b.high.msb ∧ a.low.slt b.low) ∧
      (b.high < a.high → a.high.msb ≠ b.high.msb → ¬ a.low.slt b.low) := by
  have hslt : a.high.slt b.high ↔
      if a.high.msb = b.high.msb then a.high < b.high else ¬ a.high < b.high := by
    rw [← BitVec.ult_iff_lt]
    split
    case isTrue h => rw [BitVec.slt_eq_ult_of_msb_eq h]
    case isFalse h => rw [BitVec.slt_eq_not_ult_of_msb_neq h, Bool.not_eq_true', Bool.not_eq_true]
  rw [Bool.eq_iff_iff, lt64_iff, value_ult_iff, hslt, ← BitVec.not_lt]
  obtain hlt | heq | hgt := Nat.lt_trichotomy a.high.toNat b.high.toNat
  · have hne : a.high ≠ b.high := BitVec.ne_of_lt hlt
    have hnot : ¬ b.high < a.high := Nat.lt_asymm hlt
    simp only [BitVec.lt_def.mpr hlt, hne, hnot]
    split <;> grind
  · have hirr : ¬ b.high < b.high := Nat.lt_irrefl _
    simp only [BitVec.eq_of_toNat_eq heq, hirr]
    grind
  · have hne : a.high ≠ b.high := (BitVec.ne_of_lt hgt).symm
    have hnot : ¬ a.high < b.high := Nat.lt_asymm hgt
    simp only [BitVec.lt_def.mpr hgt, hne, hnot]
    split <;> grind

/-- The sums are right for all numbers. The order is right only where the halves that are
compared give it away. -/
theorem arithmeticRight_iff (a b : Int64Pair) (i : BitVec 32) :
    (ArithmeticRight BitVec.ult a b i ↔
      (a.high = b.high → b.low ≤ a.low) ∧
      (a.high < b.high → a.high.msb = b.high.msb ∧ a.low.slt b.low) ∧
      (b.high < a.high → a.high.msb ≠ b.high.msb → ¬ a.low.slt b.low)) ∧
    (ArithmeticRight BitVec.slt a b i ↔
      (a.high = b.high → b.low ≤ a.low) ∧ (a.high.slt b.high → a.low.slt b.low)) := by
  constructor
  · rw [arithmeticRight_iff_less]
    exact lt64_iff_ult a b
  · rw [arithmeticRight_iff_less]
    exact lt64_iff_slt a b

theorem not_arithmeticRight_across_halves :
    ¬ ArithmeticRight BitVec.ult ⟨5, 0⟩ ⟨3, 1⟩ 0 ∧
      ¬ ArithmeticRight BitVec.slt ⟨5, 0⟩ ⟨3, 1⟩ 0 := by
  rw [arithmeticRight_iff_less, arithmeticRight_iff_less]
  decide

end Int64Pair
end Milo.Tools
