import Mathlib.Algebra.Order.Ring.Int
import Mathlib.Data.Nat.Bitwise

/-! # Runs of bits from either end

A run of bits of a stream is read as a number in two ways: with its first bit
lowest, as a bit buffer holds it, or with its first bit highest, as code words are
numbered. Each number is the other one with its bits reversed, so that a run that
starts with a given word is one whose number lies in an interval.
-/

namespace Foundation

/-- The low `n` bits in reverse order. -/
def reverseBits (n x : Nat) : Nat := Nat.ofBits fun i : Fin n => x.testBit (n - 1 - i)

/-- `n` bits from `p` on, the first one lowest. -/
def lowFirst (s : Nat → Bool) (p n : Nat) : Nat := Nat.ofBits fun i : Fin n => s (p + i)

/-- `n` bits from `p` on, the first one highest. -/
def highFirst (s : Nat → Bool) (p n : Nat) : Nat :=
  Nat.ofBits fun i : Fin n => s (p + (n - 1 - i))

/-! ## The bits of the numbers -/

theorem testBit_reverseBits (n x i : Nat) :
    (reverseBits n x).testBit i = (decide (i < n) && x.testBit (n - 1 - i)) := by
  by_cases h : i < n <;> simp [reverseBits, Nat.testBit_ofBits, h]

theorem testBit_lowFirst (s : Nat → Bool) (p n i : Nat) :
    (lowFirst s p n).testBit i = (decide (i < n) && s (p + i)) := by
  by_cases h : i < n <;> simp [lowFirst, Nat.testBit_ofBits, h]

theorem testBit_highFirst (s : Nat → Bool) (p n i : Nat) :
    (highFirst s p n).testBit i = (decide (i < n) && s (p + (n - 1 - i))) := by
  by_cases h : i < n <;> simp [highFirst, Nat.testBit_ofBits, h]

theorem reverseBits_lt (n x : Nat) : reverseBits n x < 2 ^ n := Nat.ofBits_lt_two_pow _

theorem lowFirst_lt (s : Nat → Bool) (p n : Nat) : lowFirst s p n < 2 ^ n :=
  Nat.ofBits_lt_two_pow _

theorem highFirst_lt (s : Nat → Bool) (p n : Nat) : highFirst s p n < 2 ^ n :=
  Nat.ofBits_lt_two_pow _

@[simp] theorem lowFirst_zero (s : Nat → Bool) (p : Nat) : lowFirst s p 0 = 0 := rfl

/-! ## Parts of a run -/

theorem lowFirst_mod (s : Nat → Bool) (p : Nat) {k n : Nat} (h : k ≤ n) :
    lowFirst s p n % 2 ^ k = lowFirst s p k := by
  apply Nat.eq_of_testBit_eq
  intro i
  rw [Nat.testBit_mod_two_pow, testBit_lowFirst, testBit_lowFirst]
  by_cases hi : i < k
  · simp [hi, show i < n by omega]
  · simp [hi]

theorem lowFirst_shiftRight (s : Nat → Bool) (p m n : Nat) :
    lowFirst s p (m + n) >>> m = lowFirst s (p + m) n := by
  apply Nat.eq_of_testBit_eq
  intro i
  rw [Nat.testBit_shiftRight, testBit_lowFirst, testBit_lowFirst, Nat.add_assoc]
  simp

theorem lowFirst_append (s : Nat → Bool) (p m n : Nat) :
    lowFirst s p m ||| lowFirst s (p + m) n <<< m = lowFirst s p (m + n) := by
  apply Nat.eq_of_testBit_eq
  intro i
  rw [Nat.testBit_or, Nat.testBit_shiftLeft, testBit_lowFirst, testBit_lowFirst, testBit_lowFirst]
  by_cases hi : i < m
  · simp [hi, show ¬ i ≥ m by omega, show i < m + n by omega]
  · have hpos : p + m + (i - m) = p + i := by omega
    have hlast : i - m < n ↔ i < m + n := by omega
    simp [hi, show i ≥ m by omega, hpos, hlast]

theorem highFirst_div (s : Nat → Bool) (p : Nat) {k n : Nat} (h : k ≤ n) :
    highFirst s p n / 2 ^ (n - k) = highFirst s p k := by
  apply Nat.eq_of_testBit_eq
  intro i
  rw [Nat.testBit_div_two_pow, testBit_highFirst, testBit_highFirst]
  have hpos : n - 1 - (i + (n - k)) = k - 1 - i := by omega
  have hlast : i + (n - k) < n ↔ i < k := by omega
  simp [hpos, hlast]

/-- The two numbers of a run. -/
theorem highFirst_eq_reverse (s : Nat → Bool) (p n : Nat) :
    highFirst s p n = reverseBits n (lowFirst s p n) := by
  apply Nat.eq_of_testBit_eq
  intro i
  rw [testBit_highFirst, testBit_reverseBits, testBit_lowFirst]
  by_cases hi : i < n
  · simp [hi, show n - 1 - i < n by omega]
  · simp [hi]

/-! ## Reversal -/

theorem reverseBits_zero (n : Nat) : reverseBits n 0 = 0 := by
  apply Nat.eq_of_testBit_eq
  intro i
  simp [testBit_reverseBits]

theorem reverseBits_reverseBits (n x : Nat) : reverseBits n (reverseBits n x) = x % 2 ^ n := by
  apply Nat.eq_of_testBit_eq
  intro i
  rw [testBit_reverseBits, testBit_reverseBits, Nat.testBit_mod_two_pow]
  by_cases hi : i < n
  · have hpos : n - 1 - (n - 1 - i) = i := by omega
    simp [hi, hpos, show n - 1 - i < n by omega]
  · simp [hi]

theorem reverseBits_mod (n x : Nat) : reverseBits n (x % 2 ^ n) = reverseBits n x := by
  rw [← reverseBits_reverseBits, reverseBits_reverseBits, Nat.mod_eq_of_lt (reverseBits_lt n x)]

/-- The low bits come first in the reversal. -/
theorem reverseBits_div {k n : Nat} (x : Nat) (h : k ≤ n) :
    reverseBits n x / 2 ^ (n - k) = reverseBits k x := by
  apply Nat.eq_of_testBit_eq
  intro i
  rw [Nat.testBit_div_two_pow, testBit_reverseBits, testBit_reverseBits]
  have hpos : n - 1 - (i + (n - k)) = k - 1 - i := by omega
  have hlast : i + (n - k) < n ↔ i < k := by omega
  simp [hpos, hlast]

/-- Zeros below a number are zeros above its reversal. -/
theorem reverseBits_mul_two_pow {k n : Nat} (c : Nat) (h : k ≤ n) :
    reverseBits n (c * 2 ^ (n - k)) = reverseBits k c := by
  apply Nat.eq_of_testBit_eq
  intro i
  rw [testBit_reverseBits, testBit_reverseBits, Nat.testBit_mul_two_pow]
  by_cases hi : i < k
  · have hpos : n - 1 - i - (n - k) = k - 1 - i := by omega
    simp [hi, hpos, show i < n by omega, show n - k ≤ n - 1 - i by omega]
  · have hzero : ¬ (i < n ∧ n - k ≤ n - 1 - i) := by omega
    by_cases hin : i < n
    · simp [hi, hin, show ¬ n - k ≤ n - 1 - i by omega]
    · simp [hi, hin]

theorem reverseBits_mul_lt {k n a : Nat} (h : k ≤ n) (ha : 2 ^ (n - k) ∣ a) :
    reverseBits n a < 2 ^ k := by
  obtain ⟨c, rfl⟩ := ha
  rw [Nat.mul_comm, reverseBits_mul_two_pow c h]
  exact reverseBits_lt k c

theorem mod_eq_reverse_iff (n x : Nat) {c : Nat} (h : c < 2 ^ n) :
    x % 2 ^ n = reverseBits n c ↔ reverseBits n x = c := by
  constructor
  · intro hx
    rw [← reverseBits_mod, hx, reverseBits_reverseBits, Nat.mod_eq_of_lt h]
  · rintro rfl
    exact (reverseBits_reverseBits n x).symm

/-- A number starts, from its low end, with the `k` bits of a word that is written
from the high end, exactly if its reversal lies in the interval of that word. -/
theorem mod_eq_reverse_iff_mem {k n a : Nat} (x : Nat) (h : k ≤ n) (ha : 2 ^ (n - k) ∣ a)
    (hlt : a < 2 ^ n) :
    x % 2 ^ k = reverseBits n a ↔
      a ≤ reverseBits n x ∧ reverseBits n x < a + 2 ^ (n - k) := by
  obtain ⟨c, rfl⟩ := ha
  have hpos : 0 < 2 ^ (n - k) := Nat.two_pow_pos _
  have hsplit : 2 ^ (n - k) * 2 ^ k = 2 ^ n := by rw [← Nat.pow_add, Nat.sub_add_cancel h]
  have hc : c < 2 ^ k := by
    rw [← hsplit] at hlt
    exact Nat.lt_of_mul_lt_mul_left hlt
  rw [Nat.mul_comm, reverseBits_mul_two_pow c h, mod_eq_reverse_iff k x hc, ← reverseBits_div x h,
    Nat.div_eq_iff hpos]
  omega

end Foundation
