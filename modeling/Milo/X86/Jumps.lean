import Milo.X86.Arith
import Milo.X86.Calls

/-! # Conditional jumps

The jumps of a byte and those of a word. Behind a compare the condition of each is the
comparison that it is named for, but for one of the jumps of a word.
-/

namespace Milo.X86

open Foundation SysEnv

section
variable {δ : Type} (bus : Bus δ)

/-- The conditions, in the order of the opcodes from `0x70` on and of those of two bytes
from `0x0f80` on. -/
inductive Condition where
  | O | NO | B | NB | Z | NZ | BE | NBE | S | NS | P | NP | L | NL | LE | NLE
  deriving DecidableEq

/-! ## The jumps of a byte -/

/-- `cond` in `x86op_long_jump`. -/
def longJumpCond (c : Condition) (r : X86Regs) : Bool :=
  match c with
  | .O => r.accessFlag .OF
  | .NO => !r.accessFlag .OF
  | .B => r.accessFlag .CF
  | .NB => !r.accessFlag .CF
  | .Z => r.accessFlag .ZF
  | .NZ => !r.accessFlag .ZF
  | .BE => r.accessFlag .CF || r.accessFlag .ZF
  | .NBE => !(r.accessFlag .CF || r.accessFlag .ZF)
  | .S => r.accessFlag .SF
  | .NS => !r.accessFlag .SF
  | .P => r.accessFlag .PF
  | .NP => !r.accessFlag .PF
  | .L => r.accessFlag .SF ^^ r.accessFlag .OF
  -- `JNL` has the condition of `JL`
  | .NL => r.accessFlag .SF ^^ r.accessFlag .OF
  | .LE => (r.accessFlag .SF ^^ r.accessFlag .OF) || r.accessFlag .ZF
  | .NLE => !((r.accessFlag .SF ^^ r.accessFlag .OF) || r.accessFlag .ZF)

/-- The conditions of the jumps of a byte. -/
def nearJumpCond (c : Condition) (r : X86Regs) : Bool :=
  match c with
  | .NL => r.accessFlag .SF == r.accessFlag .OF
  | .NLE => (r.accessFlag .SF == r.accessFlag .OF) && !r.accessFlag .ZF
  | c => longJumpCond c r

theorem nearJumpCond_eq {c : Condition} (hc : c ≠ .NL) (r : X86Regs) :
    nearJumpCond c r = longJumpCond c r := by
  cases c with
  | NL => exact absurd rfl hc
  | NLE =>
      unfold nearJumpCond longJumpCond
      cases r.accessFlag .SF <;> cases r.accessFlag .OF <;> rfl
  | _ => rfl

/-! ## Flags behind a fetch -/

end

/-! ## Comparisons -/

section
variable {w : Nat} (d s : BitVec (w + 1))

/-- What the jumps of each number are named for: the overflow, the order without and with
signs, the sign and the parity of `d - s`. -/
def comparison (c : Condition) : Bool :=
  match c with
  | .O => !decide (SignedRange w (d.toInt - s.toInt))
  | .NO => decide (SignedRange w (d.toInt - s.toInt))
  | .B => decide (d.toNat < s.toNat)
  | .NB => decide (s.toNat ≤ d.toNat)
  | .Z => decide (d = s)
  | .NZ => decide (d ≠ s)
  | .BE => decide (d.toNat ≤ s.toNat)
  | .NBE => decide (s.toNat < d.toNat)
  | .S => (d - s).msb
  | .NS => !(d - s).msb
  | .P => oddOnes (d - s)
  | .NP => !oddOnes (d - s)
  | .L => decide (d.toInt < s.toInt)
  | .NL => decide (s.toInt ≤ d.toInt)
  | .LE => decide (d.toInt ≤ s.toInt)
  | .NLE => decide (s.toInt < d.toInt)

/-- The flags of a compare. -/
structure Compared (r : X86Regs) : Prop where
  below : r.accessFlag .CF = decide (d.toNat < s.toNat)
  equal : r.accessFlag .ZF = decide (d = s)
  sign : r.accessFlag .SF = (d - s).msb
  odd : r.accessFlag .PF = oddOnes (d - s)
  overflow : r.accessFlag .OF = !decide (SignedRange w (d.toInt - s.toInt))

variable {d s}

theorem Sets.compared {m m' : X86Regs} (h : Sets m (diffFlags d s false) m') :
    Compared d s m' := by
  have hzero : d - s - (BitVec.ofBool false).setWidth (w + 1) = d - s := by simp
  refine ⟨?_, ?_, ?_, ?_, ?_⟩
  · rw [h.flag .CF]
    simp [diffFlags]
  · rw [h.flag .ZF]
    change ((d - s - (BitVec.ofBool false).setWidth (w + 1)) == 0) = _
    rw [hzero, Bool.eq_iff_iff, beq_iff_eq, decide_eq_true_eq]
    exact sub_eq_zero
  · rw [h.flag .SF]
    change (d - s - (BitVec.ofBool false).setWidth (w + 1)).msb = _
    rw [hzero]
  · rw [h.flag .PF]
    change oddOnes (d - s - (BitVec.ofBool false).setWidth (w + 1)) = _
    rw [hzero]
  · rw [h.flag .OF]
    simp [diffFlags]

theorem Compared.congr {r r' : X86Regs} (h : Compared d s r)
    (hflags : ∀ f, r'.accessFlag f = r.accessFlag f) : Compared d s r' where
  below := (hflags .CF).trans h.below
  equal := (hflags .ZF).trans h.equal
  sign := (hflags .SF).trans h.sign
  odd := (hflags .PF).trans h.odd
  overflow := (hflags .OF).trans h.overflow

theorem Compared.less {r : X86Regs} (h : Compared d s r) :
    (r.accessFlag .SF ^^ r.accessFlag .OF) = decide (d.toInt < s.toInt) := by
  rw [h.sign, h.overflow]
  exact msb_sub_bne_overflow d s

theorem Compared.notLess {r : X86Regs} (h : Compared d s r) :
    (r.accessFlag .SF == r.accessFlag .OF) = decide (s.toInt ≤ d.toInt) := by
  have hless := h.less
  rw [Bool.eq_iff_iff, decide_eq_true_eq] at hless ⊢
  rw [← Int.not_lt, ← hless]
  cases r.accessFlag .SF <;> cases r.accessFlag .OF <;> simp

theorem Compared.lessEqual {r : X86Regs} (h : Compared d s r) :
    ((r.accessFlag .SF ^^ r.accessFlag .OF) || r.accessFlag .ZF) =
      decide (d.toInt ≤ s.toInt) := by
  rw [h.less, h.equal, Bool.eq_iff_iff, Bool.or_eq_true, decide_eq_true_eq, decide_eq_true_eq,
    decide_eq_true_eq, Int.le_iff_lt_or_eq, BitVec.toInt_inj]

theorem Compared.belowEqual {r : X86Regs} (h : Compared d s r) :
    (r.accessFlag .CF || r.accessFlag .ZF) = decide (d.toNat ≤ s.toNat) := by
  rw [h.below, h.equal, Bool.eq_iff_iff, Bool.or_eq_true, decide_eq_true_eq, decide_eq_true_eq,
    decide_eq_true_eq, Nat.le_iff_lt_or_eq, BitVec.toNat_inj]

theorem not_decide {p q : Prop} [Decidable p] [Decidable q] (h : ¬p ↔ q) :
    (!decide p) = decide q := by
  rw [← decide_not, decide_eq_decide]
  exact h

/-- Each condition is its comparison, but that of the jump of a word on `NL`. -/
theorem Compared.longJumpCond {r : X86Regs} (h : Compared d s r) (c : Condition) :
    longJumpCond c r = comparison d s (if c = .NL then .L else c) := by
  cases c with
  | O => exact h.overflow
  | NO => exact (congrArg (!·) h.overflow).trans (Bool.not_not _)
  | B => exact h.below
  | NB => exact (congrArg (!·) h.below).trans (not_decide Nat.not_lt)
  | Z => exact h.equal
  | NZ => exact (congrArg (!·) h.equal).trans (not_decide Iff.rfl)
  | BE => exact h.belowEqual
  | NBE => exact (congrArg (!·) h.belowEqual).trans (not_decide Nat.not_le)
  | S => exact h.sign
  | NS => exact congrArg (!·) h.sign
  | P => exact h.odd
  | NP => exact congrArg (!·) h.odd
  | L => exact h.less
  | NL => exact h.less
  | LE => exact h.lessEqual
  | NLE => exact (congrArg (!·) h.lessEqual).trans (not_decide Int.not_le)

theorem Compared.nearJumpCond {r : X86Regs} (h : Compared d s r) (c : Condition) :
    nearJumpCond c r = comparison d s c := by
  by_cases hc : c = .NL
  · rw [hc]
    exact h.notLess
  · rw [nearJumpCond_eq hc, h.longJumpCond, if_neg hc]

end

section
variable {δ : Type} (bus : Bus δ)

end

end Milo.X86
