import Mathlib.Data.Nat.GCD.Basic
import Milo.Foundation.ByteBits
import Milo.Fs.Dos

/-! # FAT entries as srmbootfat reads them

`srmbootfat` cuts a FAT12 entry out of two adjacent 32-bit words, where the
loader reads an unaligned 16-bit word. Shifts by the word width and words
outside the table have no result.
-/

namespace Milo.Tools

open Foundation
open Milo.Fs.Dos (readFat)

/-- A table of whole sectors in memory. Both programs keep the number of its
sectors in 16 bits. -/
structure FatTable where
  bytes : ByteMemory
  sectors : Nat
  sectors_lt : sectors < 2 ^ 16

namespace FatTable

def size (fat : FatTable) : Nat := fat.sectors * 512

/-- The array element `k` of the table as an array of `n`-byte words. -/
def word (fat : FatTable) (n k : Nat) : Option Nat :=
  if n * (k + 1) ≤ fat.size then some (readLe fat.bytes (n * k) n) else none

/-- All bits of the entry are bits of the table. -/
def HasEntry (fat : FatTable) (fatBits entry : Nat) : Prop :=
  fatBits * (entry + 1) ≤ 8 * fat.size

instance (fat : FatTable) (fatBits entry : Nat) : Decidable (fat.HasEntry fatBits entry) :=
  inferInstanceAs (Decidable (_ ≤ _))

theorem size_lt (fat : FatTable) : fat.size < 2 ^ 25 := by
  have hsectors := fat.sectors_lt
  rw [size]
  omega

end FatTable

/-- `a >> n` on 32-bit words -/
def shr32 (a n : Nat) : Option Nat := if n < 32 then some (a >>> n) else none

/-- `a << n` on 32-bit words -/
def shl32 (a n : Nat) : Option Nat := if n < 32 then some (u32 (a <<< n)) else none

/-- `get_fat_entry` -/
def getFatEntry (fat : FatTable) (fatbits entry : Nat) : Option Nat :=
  if fatbits = 12 then do
    let entry := u32 (entry * 3)
    let i := (entry &&& 7) <<< 2
    let entry := entry >>> 3
    let a ← fat.word 4 entry
    let b ← fat.word 4 (u32 (entry + 1))
    let low ← shr32 a i
    let high ← shl32 b (sub32 32 i)
    return (low ||| high) &&& 0xfff
  else if fatbits = 16 then fat.word 2 entry
  else none  -- unknown FAT type: exit(3)

/-! ## The loader's reading -/

/-- An entry of a FAT12 is twelve bits of the table in sequence. -/
theorem readFat_twelve_testBit {bytes : ByteMemory} {entry : Nat} (h : entry < 2 ^ 32) (i : Nat) :
    (readFat 12 bytes entry).testBit i = (decide (i < 12) && bitAt bytes (12 * entry + i)) := by
  have hmask : (0xfff : Nat) = 2 ^ 12 - 1 := rfl
  have hparity : entry &&& 1 = entry % 2 := Nat.and_one_is_mod entry
  simp only [readFat, show ¬ (12 : Nat) = 16 by decide, if_false, true_and, hmask, hparity,
    Nat.testBit_and, Nat.testBit_two_pow_sub_one]
  rw [Bool.and_comm]
  by_cases hi : i < 12
  · rw [decide_eq_true hi, Bool.true_and, Bool.true_and]
    by_cases hodd : entry % 2 ≠ 0
    · have hpos : 8 * (entry * 3 / 2) + (4 + i) = 12 * entry + i := by omega
      rw [if_pos hodd, Nat.testBit_shiftRight, testBit_readLe bytes _ (by omega), hpos,
        decide_eq_true (by omega), Bool.true_and]
    · have hpos : 8 * (entry * 3 / 2) + i = 12 * entry + i := by omega
      rw [if_neg hodd, testBit_readLe bytes _ (by omega), hpos, decide_eq_true (by omega),
        Bool.true_and]
  · simp [hi]

theorem readFat_sixteen {bytes : ByteMemory} {entry : Nat} :
    readFat 16 bytes entry = readLe bytes (2 * entry) 2 := by
  have hlt : readLe bytes (2 * entry) 2 < 2 ^ 16 := readLe_lt bytes (2 * entry) 2
  have hmask : (0xffff : Nat) = 2 ^ 16 - 1 := rfl
  simp only [readFat, if_true, show ¬ (16 : Nat) = 12 by decide, false_and, if_false, hmask,
    Nat.and_two_pow_sub_one_eq_mod, Nat.mul_comm entry 2]
  exact Nat.mod_eq_of_lt hlt

/-! ## The two words of srmbootfat -/

/-- With both words inside the table and both shifts below the width the result
is the entry. -/
theorem funnel_eq_readFat {bytes : ByteMemory} {entry : Nat} (h : entry < 2 ^ 30) :
    (readLe bytes (4 * (3 * entry / 8)) 4 >>> (4 * (3 * entry % 8)) |||
        u32 (readLe bytes (4 * (3 * entry / 8 + 1)) 4 <<< (32 - 4 * (3 * entry % 8)))) &&& 0xfff =
      readFat 12 bytes entry := by
  have hmask : (0xfff : Nat) = 2 ^ 12 - 1 := rfl
  apply Nat.eq_of_testBit_eq
  intro i
  rw [readFat_twelve_testBit (by omega), hmask, Nat.testBit_and, Nat.testBit_two_pow_sub_one,
    Bool.and_comm]
  by_cases hi : i < 12
  · have hpos : 8 * (4 * (3 * entry / 8)) + 4 * (3 * entry % 8) + i = 12 * entry + i := by omega
    have hfunnel := @testBit_funnel bytes (4 * (3 * entry / 8)) 4 (4 * (3 * entry % 8)) i
      (by omega) (by omega) (by omega)
    rw [hpos, Nat.testBit_or] at hfunnel
    rw [Nat.testBit_or, u32, Nat.testBit_mod_two_pow, decide_eq_true (show i < 32 by omega),
      Bool.true_and, Nat.mul_add, Nat.mul_one]
    rw [hfunnel]
  · simp [hi]

/-- Each of the two words and each of the two shifts is needed. -/
theorem getFatEntry_twelve (fat : FatTable) {entry : Nat} (h : fat.HasEntry 12 entry) :
    getFatEntry fat 12 entry =
      if entry % 8 ≠ 0 ∧ 3 * entry / 8 + 1 < fat.sectors * 128 then
        some (readFat 12 fat.bytes entry)
      else none := by
  have hsize := fat.size_lt
  have hsectors := fat.sectors_lt
  rw [FatTable.HasEntry] at h
  have hentry : u32 (entry * 3) = 3 * entry := by rw [u32_of_lt (by omega), Nat.mul_comm]
  have hlow : 3 * entry &&& 7 = 3 * entry % 8 := Nat.and_two_pow_sub_one_eq_mod _ 3
  have hbits : (3 * entry % 8) <<< 2 = 4 * (3 * entry % 8) := by
    rw [Nat.shiftLeft_eq, Nat.mul_comm]
  have hword : (3 * entry) >>> 3 = 3 * entry / 8 := Nat.shiftRight_eq_div_pow _ 3
  have hnext : u32 (3 * entry / 8 + 1) = 3 * entry / 8 + 1 := u32_of_lt (by omega)
  have hsub : sub32 32 (4 * (3 * entry % 8)) = 32 - 4 * (3 * entry % 8) :=
    sub32_of_le (by decide) (by omega)
  have hfirst : 4 * (3 * entry / 8 + 1) ≤ fat.size := by
    rw [FatTable.size] at h ⊢
    omega
  have hsecond : 4 * (3 * entry / 8 + 1 + 1) ≤ fat.size ↔
      3 * entry / 8 + 1 < fat.sectors * 128 := by
    rw [FatTable.size]
    omega
  have hshr : 4 * (3 * entry % 8) < 32 := by omega
  have haligned : 8 ∣ 3 * entry ↔ 8 ∣ entry :=
    Nat.Coprime.dvd_mul_left (by decide)
  have hshl : 32 - 4 * (3 * entry % 8) < 32 ↔ entry % 8 ≠ 0 := by omega
  simp only [getFatEntry, if_true, hentry, hlow, hbits, hword, hnext, hsub, FatTable.word,
    if_pos hfirst, hsecond, shr32, if_pos hshr, shl32, hshl]
  by_cases hinside : 3 * entry / 8 + 1 < fat.sectors * 128
  · by_cases hstart : entry % 8 ≠ 0
    · have hsmall : entry < 2 ^ 30 := by omega
      simp only [if_pos hinside, if_pos hstart, if_pos (And.intro hstart hinside),
        Option.bind_eq_bind, Option.bind_some, Option.pure_def, funnel_eq_readFat hsmall]
    · simp [hstart]
  · simp [hinside]

theorem getFatEntry_sixteen (fat : FatTable) {entry : Nat} (h : fat.HasEntry 16 entry) :
    getFatEntry fat 16 entry = some (readFat 16 fat.bytes entry) := by
  rw [FatTable.HasEntry] at h
  have hinside : 2 * (entry + 1) ≤ fat.size := by omega
  simp only [getFatEntry, show ¬ (16 : Nat) = 12 by decide, if_false, if_true, FatTable.word,
    if_pos hinside, readFat_sixteen]

/-- The two readers agree, with every shift below the word width and every word
inside the table, on all entries of a FAT16, and of a FAT12 on those that do not
start a word and do not start in the last word. -/
theorem getFatEntry_eq_readFat_iff (fat : FatTable) {fatBits entry : Nat}
    (hbits : fatBits = 12 ∨ fatBits = 16) (h : fat.HasEntry fatBits entry) :
    getFatEntry fat fatBits entry = some (readFat fatBits fat.bytes entry) ↔
      fatBits = 16 ∨ entry % 8 ≠ 0 ∧ 3 * entry / 8 + 1 < fat.sectors * 128 := by
  rcases hbits with rfl | rfl
  · rw [getFatEntry_twelve fat h]
    simp
  · rw [getFatEntry_sixteen fat h]
    simp

theorem getFatEntry_eq_readFat_three :
    getFatEntry ⟨fun _ => 0xf0, 1, by decide⟩ 12 3 =
        some (readFat 12 (fun _ => 0xf0) 3) ↔
      12 = 16 ∨ 3 % 8 ≠ 0 ∧ 3 * 3 / 8 + 1 < 1 * 128 :=
  getFatEntry_eq_readFat_iff ⟨fun _ => 0xf0, 1, by decide⟩ (.inl rfl) (by decide)

/-- The eighth entry starts a word, so the second word is shifted by all of its
32 bits. -/
theorem shift_by_word_width :
    let fat : FatTable := ⟨fun _ => 0, 1, by decide⟩
    fat.HasEntry 12 8 ∧ getFatEntry fat 12 8 ≠ some (readFat 12 fat.bytes 8) := by
  decide

end Milo.Tools
