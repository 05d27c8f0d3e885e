import Milo.Foundation.Words

/-! # Arithmetic with a record of its operations

A traced computation returns its value together with the 64-bit additions and
subtractions that led to it. It is exact when none of them wrapped around, so a
claim about overflow is a claim about the computation itself.
-/

namespace Foundation

/-- One operation on 64-bit words, with its operands. -/
inductive Arith where
  | add (a b : Nat)
  | sub (a b : Nat)

/-- The operation stays within the unsigned range. -/
def Arith.Exact : Arith → Prop
  | .add a b => a + b < 2 ^ 64
  | .sub a b => b ≤ a

structure Traced (α : Type _) where
  value : α
  ops : List Arith

namespace Traced

instance : Monad Traced where
  pure a := ⟨a, []⟩
  bind t f := ⟨(f t.value).value, t.ops ++ (f t.value).ops⟩

def add (a b : Nat) : Traced Nat := ⟨u64 (a + b), [.add a b]⟩
def sub (a b : Nat) : Traced Nat := ⟨sub64 a b, [.sub a b]⟩

/-- No operation of the computation wraps around. -/
def Exact {α : Type _} (t : Traced α) : Prop := ∀ op ∈ t.ops, op.Exact

section
variable {α β : Type _}

@[simp] theorem value_pure (a : α) : (pure a : Traced α).value = a := rfl

@[simp] theorem value_bind (t : Traced α) (f : α → Traced β) :
    (t >>= f).value = (f t.value).value := rfl

@[simp] theorem value_add (a b : Nat) : (add a b).value = u64 (a + b) := rfl

@[simp] theorem value_sub (a b : Nat) : (sub a b).value = sub64 a b := rfl

@[simp] theorem exact_pure (a : α) : (pure a : Traced α).Exact := fun _ hop => nomatch hop

@[simp] theorem exact_bind (t : Traced α) (f : α → Traced β) :
    (t >>= f).Exact ↔ t.Exact ∧ (f t.value).Exact := by
  show (∀ op ∈ t.ops ++ (f t.value).ops, op.Exact) ↔ _
  simp only [List.mem_append, or_imp, forall_and, Exact]

@[simp] theorem exact_add (a b : Nat) : (add a b).Exact ↔ a + b < 2 ^ 64 := by
  simp [Exact, add, Arith.Exact]

@[simp] theorem exact_sub (a b : Nat) : (sub a b).Exact ↔ b ≤ a := by
  simp [Exact, sub, Arith.Exact]

end

end Traced

end Foundation
