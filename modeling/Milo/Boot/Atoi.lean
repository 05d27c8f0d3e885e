import Mathlib.Data.List.TakeWhile
import Milo.Foundation.CInt

/-! # Numbers in strings

`atoi` adds up digits in an `int`, and gives -1 for a string with any other
character in it.
-/

namespace Milo.Boot

open Foundation

def isDigit (c : UInt8) : Bool := decide (0x30 ≤ c ∧ c ≤ 0x39)

def digit (c : UInt8) : Nat := c.toNat - 0x30

/-- `retval *= 10; retval += (*s - '0')` -/
def addDigit (retval : Int) (c : UInt8) : Checked Int := do
  let retval ← mulInt retval 10
  addInt retval (digit c)

/-- The loop of `atoi`. -/
def atoiFrom : List UInt8 → Int → Checked Int
  | [], retval => pure retval
  | c :: s, retval =>
      if isDigit c = false then pure (-1)
      else do
        let retval ← addDigit retval c
        atoiFrom s retval

/-- `atoi` -/
def atoi (s : List UInt8) : Checked Int := atoiFrom s 0

/-- The number that digits continue. -/
def decimalFrom (n : Nat) (s : List UInt8) : Nat := s.foldl (fun n c => n * 10 + digit c) n

/-- The decimal value of a string of digits. -/
def decimal (s : List UInt8) : Nat := decimalFrom 0 s

/-! ## What `atoi` computes -/

theorem le_decimalFrom (n : Nat) (s : List UInt8) : n ≤ decimalFrom n s := by
  induction s generalizing n with
  | nil => exact Nat.le_refl n
  | cons c s ih =>
      have hrest := ih (n * 10 + digit c)
      unfold decimalFrom at *
      rw [List.foldl_cons]
      omega

theorem addDigit_exact_iff (n : Nat) (c : UInt8) :
    (addDigit n c).exact = true ↔ n * 10 + digit c < 2 ^ 31 := by
  unfold addDigit
  rw [Checked.exact_bind, Bool.and_eq_true]
  simp only [mulInt, addInt, inInt_iff]
  constructor
  · rintro ⟨hmul, hadd⟩
    rw [toInt_of_inInt (inInt_iff.mpr hmul)] at hadd
    omega
  · intro h
    have hmul : -2 ^ 31 ≤ (n : Int) * 10 ∧ (n : Int) * 10 < 2 ^ 31 := by omega
    rw [toInt_of_inInt (inInt_iff.mpr hmul)]
    omega

theorem addDigit_value {n : Nat} {c : UInt8} (h : n * 10 + digit c < 2 ^ 31) :
    (addDigit n c).value = (n * 10 + digit c : Nat) := by
  have hmul : toInt ((n : Int) * 10) = n * 10 := toInt_of_inInt (inInt_iff.mpr (by omega))
  have hadd : toInt ((n : Int) * 10 + digit c) = n * 10 + digit c :=
    toInt_of_inInt (inInt_iff.mpr (by omega))
  unfold addDigit
  simp only [Checked.value_bind, mulInt, addInt]
  rw [hmul, hadd]
  omega

/-- The digits a string starts with. -/
def leadingDigits (s : List UInt8) : List UInt8 := s.takeWhile isDigit

/-- No operation is reduced as long as the digits stay in the range of `int`. -/
theorem atoiFrom_exact_iff {n : Nat} (s : List UInt8) (hn : n < 2 ^ 31) :
    (atoiFrom s n).exact = true ↔ decimalFrom n (leadingDigits s) < 2 ^ 31 := by
  induction s generalizing n with
  | nil => simpa [atoiFrom, decimalFrom, leadingDigits] using hn
  | cons c s ih =>
      unfold atoiFrom leadingDigits
      by_cases hc : isDigit c = true
      · rw [if_neg (by simp [hc]), List.takeWhile_cons_of_pos hc, Checked.exact_bind,
          Bool.and_eq_true, addDigit_exact_iff]
        have hnext : decimalFrom n (c :: s.takeWhile isDigit) =
            decimalFrom (n * 10 + digit c) (leadingDigits s) := rfl
        have hle := le_decimalFrom (n * 10 + digit c) (leadingDigits s)
        rw [hnext]
        constructor
        · rintro ⟨hlt, hrest⟩
          rw [addDigit_value hlt] at hrest
          exact (ih hlt).mp hrest
        · intro hlt
          have hdigit : n * 10 + digit c < 2 ^ 31 := Nat.lt_of_le_of_lt hle hlt
          rw [addDigit_value hdigit]
          exact ⟨hdigit, (ih hdigit).mpr hlt⟩
      · rw [if_pos (by simpa using hc), List.takeWhile_cons_of_neg hc]
        simpa [decimalFrom] using hn

theorem atoiFrom_value {n : Nat} (s : List UInt8) (hn : n < 2 ^ 31)
    (hexact : (atoiFrom s n).exact = true) :
    (atoiFrom s n).value = if s.all isDigit then (decimalFrom n s : Int) else -1 := by
  induction s generalizing n with
  | nil => rfl
  | cons c s ih =>
      rw [atoiFrom] at hexact ⊢
      by_cases hc : isDigit c = true
      · rw [if_neg (by simp [hc]), Checked.exact_bind, Bool.and_eq_true,
          addDigit_exact_iff] at hexact
        obtain ⟨hlt, hrest⟩ := hexact
        rw [addDigit_value hlt] at hrest
        rw [if_neg (by simp [hc]), Checked.value_bind, addDigit_value hlt, ih hlt hrest,
          List.all_cons, hc, Bool.true_and]
        rfl
      · have hother : isDigit c = false := by simpa using hc
        rw [if_pos hother, List.all_cons, hother, Bool.false_and]
        rfl

theorem atoi_exact_iff (s : List UInt8) :
    (atoi s).exact = true ↔ decimal (leadingDigits s) < 2 ^ 31 := atoiFrom_exact_iff s (by decide)

theorem atoi_value {s : List UInt8} (hexact : (atoi s).exact = true) :
    (atoi s).value = if s.all isDigit then (decimal s : Int) else -1 :=
  atoiFrom_value s (by decide) hexact

theorem leadingDigits_eq {s : List UInt8} (h : s.all isDigit = true) : leadingDigits s = s := by
  rw [leadingDigits, List.takeWhile_eq_self_iff]
  exact fun c hc => List.all_eq_true.mp h c hc

/-- With or without overflow, digits give their value modulo `2 ^ 32`. -/
theorem atoiFrom_digits {s : List UInt8} (n : Nat) (h : s.all isDigit = true) :
    (atoiFrom s (toInt n)).value = toInt (decimalFrom n s) := by
  induction s generalizing n with
  | nil => exact Checked.value_pure _
  | cons c s ih =>
      rw [List.all_cons, Bool.and_eq_true] at h
      have hdigit : (addDigit (toInt n) c).value = toInt (n * 10 + digit c : Nat) := by
        unfold addDigit
        simp only [Checked.value_bind, mulInt, addInt]
        rw [toInt_toInt_mul, toInt_toInt_add]
        congr 1
      rw [atoiFrom, if_neg (by simp [h.1]), Checked.value_bind, hdigit, ih _ h.2]
      rfl

theorem atoi_digits {s : List UInt8} (h : s.all isDigit = true) :
    (atoi s).value = toInt (decimal s) := atoiFrom_digits 0 h

/-- Any other character ends in -1, whatever the digits before it have left. -/
theorem atoiFrom_other {s : List UInt8} (n : Int) (h : s.all isDigit = false) :
    (atoiFrom s n).value = -1 := by
  induction s generalizing n with
  | nil => cases h
  | cons c s ih =>
      rw [atoiFrom]
      by_cases hc : isDigit c = true
      · rw [List.all_cons, hc, Bool.true_and] at h
        rw [if_neg (by simp [hc]), Checked.value_bind]
        exact ih _ h
      · rw [if_pos (by simpa using hc)]
        rfl

/-! ## Numbers that do not fit -/

/-- What a number in a string is to give: its value where an `int` holds it, or -1. -/
def numberOr (s : List UInt8) : Int :=
  if s.all isDigit ∧ decimal s < 2 ^ 31 then (decimal s : Int) else -1

theorem toInt_eq_neg_one_iff (n : Nat) : toInt n = -1 ↔ n % 2 ^ 32 = 2 ^ 32 - 1 := by
  unfold toInt
  rw [Int.bmod_def]
  omega

/-- Digits that do not fit come out as a number of their own, unless that happens to be -1. -/
theorem atoi_reports_iff (s : List UInt8) :
    (atoi s).value = numberOr s ↔
      (s.all isDigit → 2 ^ 31 ≤ decimal s → decimal s % 2 ^ 32 = 2 ^ 32 - 1) := by
  rw [numberOr]
  cases hall : s.all isDigit with
  | false =>
      have hother : (atoi s).value = -1 := atoiFrom_other 0 hall
      simp [hother]
  | true =>
      rw [atoi_digits hall]
      by_cases hfit : decimal s < 2 ^ 31
      · have hin : inInt (decimal s) = true := inInt_iff.mpr (by omega)
        rw [if_pos ⟨rfl, hfit⟩, toInt_of_inInt hin]
        exact iff_of_true rfl (fun _ hlarge => absurd hlarge (Nat.not_le.mpr hfit))
      · rw [if_neg (fun h => hfit h.2), toInt_eq_neg_one_iff]
        exact ⟨fun h _ _ => h, fun h => h rfl (Nat.not_lt.mp hfit)⟩

/-- "4294967297" -/
theorem atoi_takes_large_number :
    ¬ (atoi [0x34, 0x32, 0x39, 0x34, 0x39, 0x36, 0x37, 0x32, 0x39, 0x37]).value =
      numberOr [0x34, 0x32, 0x39, 0x34, 0x39, 0x36, 0x37, 0x32, 0x39, 0x37] := by
  rw [atoi_digits (by decide)]
  decide

end Milo.Boot
