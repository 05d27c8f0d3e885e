import Mathlib.Data.BitVec
import Mathlib.Logic.Function.Basic
import Milo.Foundation.CarryChain

/-! # The registers of the emulated processor

A general register is 32 bits wide and is also known by its low word and by the two
bytes of that. The flags are bits of one register that are set and cleared one at a
time.
-/

namespace Milo.X86

open Foundation

/-- The flags, by the bits of `R_FLG`. -/
inductive Flag where
  | CF | PF | AF | ZF | SF | TF | IF | DF | OF
  deriving DecidableEq

/-- `F_CF` to `F_OF` -/
def Flag.mask : Flag → BitVec 32
  | CF => 0x0001
  | PF => 0x0004
  | AF => 0x0010
  | ZF => 0x0040
  | SF => 0x0080
  | TF => 0x0100
  | IF => 0x0200
  | DF => 0x0400
  | OF => 0x0800

/-- The general registers and those next to them, by their number in an instruction. -/
inductive Reg where
  | A | C | D | B | SP | BP | SI | DI
  deriving DecidableEq

/-- `X86Regs`, without the segments FS and GS. -/
structure X86Regs where
  gen : Reg → BitVec 32
  ip : BitVec 32
  flags : BitVec 32
  cs : BitVec 16
  ds : BitVec 16
  ss : BitVec 16
  es : BitVec 16
  mode : BitVec 64
  intno : BitVec 8
  intr : BitVec 32

/-! ## The parts of a register -/

/-- `x_reg` -/
def xReg (r : BitVec 32) : BitVec 16 := r.setWidth 16

def setXReg (r : BitVec 32) (v : BitVec 16) : BitVec 32 := r.extractLsb' 16 16 ++ v

/-- `l_reg` -/
def lReg (r : BitVec 32) : BitVec 8 := r.setWidth 8

def setLReg (r : BitVec 32) (v : BitVec 8) : BitVec 32 := r.extractLsb' 8 24 ++ v

/-- `h_reg` -/
def hReg (r : BitVec 32) : BitVec 8 := r.extractLsb' 8 8

def setHReg (r : BitVec 32) (v : BitVec 8) : BitVec 32 := r.extractLsb' 16 16 ++ v ++ lReg r

@[simp] theorem xReg_setXReg (r : BitVec 32) (v : BitVec 16) : xReg (setXReg r v) = v :=
  BitVec.setWidth_append_eq_right

@[simp] theorem setXReg_xReg (r : BitVec 32) : setXReg r (xReg r) = r := by
  unfold setXReg xReg
  rw [BitVec.setWidth_eq_extractLsb' (by decide)]
  exact BitVec.extractLsb'_append_extractLsb'_eq_extractLsb' (by decide) |>.trans (by simp)

@[simp] theorem setXReg_setXReg (r : BitVec 32) (v v' : BitVec 16) :
    setXReg (setXReg r v) v' = setXReg r v' := by
  unfold setXReg
  rw [BitVec.extractLsb'_append_eq_left]

namespace X86Regs

/-- `R_AX` to `R_DI` -/
def word (m : X86Regs) (r : Reg) : BitVec 16 := xReg (m.gen r)

def setWord (m : X86Regs) (r : Reg) (v : BitVec 16) : X86Regs :=
  { m with gen := Function.update m.gen r (setXReg (m.gen r) v) }

/-- `R_AL` to `R_BL` -/
def low (m : X86Regs) (r : Reg) : BitVec 8 := lReg (m.gen r)

def setLow (m : X86Regs) (r : Reg) (v : BitVec 8) : X86Regs :=
  { m with gen := Function.update m.gen r (setLReg (m.gen r) v) }

/-- `R_AH` to `R_BH` -/
def high (m : X86Regs) (r : Reg) : BitVec 8 := hReg (m.gen r)

def setHigh (m : X86Regs) (r : Reg) (v : BitVec 8) : X86Regs :=
  { m with gen := Function.update m.gen r (setHReg (m.gen r) v) }

@[simp] theorem word_setWord (m : X86Regs) (r : Reg) (v : BitVec 16) :
    (m.setWord r v).word r = v := by
  simp [word, setWord]

theorem word_setWord_of_ne (m : X86Regs) {r r' : Reg} (h : r' ≠ r) (v : BitVec 16) :
    (m.setWord r v).word r' = m.word r' := by
  simp [word, setWord, h]

@[simp] theorem setWord_word (m : X86Regs) (r : Reg) : m.setWord r (m.word r) = m := by
  simp [word, setWord]

@[simp] theorem setWord_setWord (m : X86Regs) (r : Reg) (v v' : BitVec 16) :
    (m.setWord r v).setWord r v' = m.setWord r v' := by
  simp [setWord]

end X86Regs

/-! ## The flags -/

/-- `ACCESS_FLAG` -/
def X86Regs.accessFlag (m : X86Regs) (f : Flag) : Bool := m.flags &&& f.mask != 0

/-- `SET_FLAG` -/
def X86Regs.setFlag (m : X86Regs) (f : Flag) : X86Regs := { m with flags := m.flags ||| f.mask }

/-- `CLEAR_FLAG` -/
def X86Regs.clearFlag (m : X86Regs) (f : Flag) : X86Regs :=
  { m with flags := m.flags &&& ~~~f.mask }

/-- `CONDITIONAL_SET_FLAG` -/
def X86Regs.conditionalSetFlag (m : X86Regs) (c : Bool) (f : Flag) : X86Regs :=
  if c then m.setFlag f else m.clearFlag f

/-- The bit of the flag. -/
def Flag.bit : Flag → Nat
  | CF => 0
  | PF => 2
  | AF => 4
  | ZF => 6
  | SF => 7
  | TF => 8
  | IF => 9
  | DF => 10
  | OF => 11

theorem Flag.mask_eq (f : Flag) : f.mask = BitVec.twoPow 32 f.bit := by
  cases f <;> decide

theorem Flag.bit_lt (f : Flag) : f.bit < 32 := by
  cases f <;> decide

theorem Flag.bit_inj {f g : Flag} (h : f.bit = g.bit) : f = g := by
  cases f <;> cases g <;> first | rfl | exact absurd h (by decide)

theorem X86Regs.accessFlag_eq (m : X86Regs) (f : Flag) :
    m.accessFlag f = m.flags.getLsbD f.bit := by
  rw [accessFlag, f.mask_eq]
  exact and_twoPow_bne_zero m.flags f.bit_lt

theorem X86Regs.getLsbD_conditionalSetFlag (m : X86Regs) (c : Bool) (f : Flag) (i : Nat) :
    (m.conditionalSetFlag c f).flags.getLsbD i =
      if i = f.bit then c else m.flags.getLsbD i := by
  have hbit := f.bit_lt
  unfold conditionalSetFlag setFlag clearFlag
  rw [f.mask_eq]
  by_cases hi : i = f.bit
  · cases c <;> simp [hi, hbit]
  · have hne : f.bit ≠ i := fun h => hi h.symm
    cases c
    · simp only [hi, Bool.false_eq_true, if_false, BitVec.getLsbD_and, BitVec.getLsbD_not,
        BitVec.getLsbD_twoPow, hne, decide_false, Bool.and_false, Bool.not_false, Bool.and_true,
        Bool.and_eq_left_iff_imp, decide_eq_true_eq]
      exact BitVec.lt_of_getLsbD
    · simp [hi, hne]

/-- What becomes of the flags, where some of them are given a value: nothing else changes. -/
structure Sets (m : X86Regs) (new : Flag → Option Bool) (m' : X86Regs) : Prop where
  flag : ∀ f, m'.accessFlag f = (new f).getD (m.accessFlag f)
  other : ∀ i, (∀ f : Flag, f.bit ≠ i) → m'.flags.getLsbD i = m.flags.getLsbD i
  rest : { m' with flags := m.flags } = m

section
variable {m m' : X86Regs} {new new' : Flag → Option Bool}

theorem Sets.refl (m : X86Regs) : Sets m (fun _ => none) m := ⟨fun _ => rfl, fun _ _ => rfl, rfl⟩

/-- One more flag. -/
theorem Sets.put (h : Sets m new m') (c : Bool) (f : Flag) :
    Sets m (Function.update new f (some c)) (m'.conditionalSetFlag c f) where
  flag g := by
    rw [X86Regs.accessFlag_eq, X86Regs.getLsbD_conditionalSetFlag]
    by_cases hg : g = f
    · rw [hg, if_pos rfl, Function.update_self]
      rfl
    · rw [if_neg fun hbit => hg (Flag.bit_inj hbit), Function.update_of_ne hg,
        ← X86Regs.accessFlag_eq]
      exact h.flag g
  other i hi := by
    rw [X86Regs.getLsbD_conditionalSetFlag, if_neg fun hbit => hi f hbit.symm]
    exact h.other i hi
  rest := by
    have hsame : { m'.conditionalSetFlag c f with flags := m.flags } =
        { m' with flags := m.flags } := by
      cases c <;> rfl
    rw [hsame]
    exact h.rest

theorem Sets.trans {m'' : X86Regs} (h : Sets m new m') (h' : Sets m' new' m'') :
    Sets m (fun f => (new' f).or (new f)) m'' where
  flag f := by
    rw [h'.flag, h.flag]
    cases new' f <;> rfl
  other i hi := (h'.other i hi).trans (h.other i hi)
  rest := by
    have hsame := congrArg (fun r : X86Regs => { r with flags := m.flags }) h'.rest
    exact hsame.trans h.rest

theorem Sets.congr (h : Sets m new m') (heq : ∀ f, new f = new' f) : Sets m new' m' := by
  rw [← funext heq]
  exact h

end

end Milo.X86
