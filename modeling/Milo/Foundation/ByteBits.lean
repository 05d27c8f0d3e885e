import Milo.Foundation.ByteMemory

/-! # The bits of a byte memory

In little-endian order a memory is one sequence of bits: bit `j` is bit `j % 8`
of byte `j / 8`. A word read at any byte is a window of that sequence.
-/

namespace Foundation

def bitAt (mem : ByteMemory) (j : Nat) : Bool := (mem (j / 8)).toNat.testBit (j % 8)

theorem testBit_byte (mem : ByteMemory) (a : Nat) {j : Nat} (h : j < 8) :
    (mem a).toNat.testBit j = bitAt mem (8 * a + j) := by
  have hbyte : (8 * a + j) / 8 = a := by omega
  have hbit : (8 * a + j) % 8 = j := by omega
  rw [bitAt, hbyte, hbit]

theorem testBit_readLe (mem : ByteMemory) {a n : Nat} (j : Nat) (h : a + n < 2 ^ 64) :
    (readLe mem a n).testBit j = (decide (j < 8 * n) && bitAt mem (8 * a + j)) := by
  induction n generalizing a j with
  | zero => simp [readLe]
  | succ n ih =>
      have hbyte : (mem a).toNat < 2 ^ 8 := (mem a).toNat_lt
      rw [readLe, u64_of_lt (by omega), Nat.add_comm, show 256 = 2 ^ 8 from rfl,
        Nat.testBit_two_pow_mul_add _ hbyte]
      by_cases hj : j < 8
      · have hin : j < 8 * (n + 1) := by omega
        rw [if_pos hj, testBit_byte mem a hj, decide_eq_true hin, Bool.true_and]
      · have hpos : 8 * (a + 1) + (j - 8) = 8 * a + j := by omega
        have hin : j - 8 < 8 * n ↔ j < 8 * (n + 1) := by omega
        rw [if_neg hj, ih (j - 8) (by omega), hpos, decide_eq_decide.mpr hin]

/-- Two adjacent words, the second shifted in above the first, are again a
window of the sequence. -/
theorem testBit_funnel (mem : ByteMemory) {a n k i : Nat} (ha : a + 2 * n < 2 ^ 64)
    (hk : k ≤ 8 * n) (hi : i < 8 * n) :
    (readLe mem a n >>> k ||| readLe mem (a + n) n <<< (8 * n - k)).testBit i =
      bitAt mem (8 * a + k + i) := by
  rw [Nat.testBit_or, Nat.testBit_shiftRight, Nat.testBit_shiftLeft,
    testBit_readLe mem _ (by omega), testBit_readLe mem _ (by omega)]
  by_cases hlow : k + i < 8 * n
  · have hhigh : ¬ i ≥ 8 * n - k := by omega
    simp [hlow, hhigh, Nat.add_assoc]
  · have hhigh : i ≥ 8 * n - k := by omega
    have hpos : 8 * (a + n) + (i - (8 * n - k)) = 8 * a + k + i := by omega
    have hin : i - (8 * n - k) < 8 * n := by omega
    simp [hlow, hhigh, hpos, hin]

end Foundation
