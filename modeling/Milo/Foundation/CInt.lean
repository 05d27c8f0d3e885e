import Milo.Foundation.Words

/-! # Signed C arithmetic with a record of overflow

An `int` is an integer that every operation reduces into its range. A checked
computation also says whether each of its operations was exact: whether no
result was reduced and no negative `int` was turned into an unsigned word.
-/

namespace Foundation

structure Checked (α : Type _) where
  value : α
  exact : Bool

namespace Checked

instance : Monad Checked where
  pure a := ⟨a, true⟩
  bind t f := ⟨(f t.value).value, t.exact && (f t.value).exact⟩

section
variable {α β : Type _}

@[simp] theorem value_pure (a : α) : (pure a : Checked α).value = a := rfl

@[simp] theorem exact_pure (a : α) : (pure a : Checked α).exact = true := rfl

@[simp] theorem value_bind (t : Checked α) (f : α → Checked β) :
    (t >>= f).value = (f t.value).value := rfl

@[simp] theorem exact_bind (t : Checked α) (f : α → Checked β) :
    (t >>= f).exact = (t.exact && (f t.value).exact) := rfl

/-- The computation ends in `a`, and no operation on the way was reduced. -/
def Gives (t : Checked α) (a : α) : Prop := t.value = a ∧ t.exact = true

instance [DecidableEq α] (t : Checked α) (a : α) : Decidable (t.Gives a) :=
  inferInstanceAs (Decidable (t.value = a ∧ t.exact = true))

end

end Checked

/-! ## Operations on `int` -/

/-- The value an `int` keeps. -/
def toInt (i : Int) : Int := i.bmod (2 ^ 32)

def inInt (i : Int) : Bool := decide (-2 ^ 31 ≤ i ∧ i < 2 ^ 31)

def addInt (a b : Int) : Checked Int := ⟨toInt (a + b), inInt (a + b)⟩

def mulInt (a b : Int) : Checked Int := ⟨toInt (a * b), inInt (a * b)⟩

/-- An `int` becomes an `unsigned long`; a negative one is sign-extended. -/
def intToLong (i : Int) : Checked Nat := ⟨(i % 2 ^ 64).toNat, decide (0 ≤ i)⟩

def mulLong (a b : Nat) : Checked Nat := ⟨u64 (a * b), decide (a * b < 2 ^ 64)⟩

theorem inInt_iff {i : Int} : inInt i = true ↔ -2 ^ 31 ≤ i ∧ i < 2 ^ 31 := decide_eq_true_iff

theorem toInt_of_inInt {i : Int} (h : inInt i = true) : toInt i = i := by
  rw [inInt_iff] at h
  unfold toInt
  rw [Int.bmod_def]
  omega

theorem toInt_toInt_add (a b : Int) : toInt (toInt a + b) = toInt (a + b) := Int.bmod_add_bmod

theorem toInt_toInt_mul (a b : Int) : toInt (toInt a * b) = toInt (a * b) := Int.bmod_mul_bmod

end Foundation
