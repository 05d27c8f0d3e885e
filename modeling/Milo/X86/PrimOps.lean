import Milo.X86.Regs

/-! # The primitives of the emulated processor

The operations on bytes, words and longs that the instructions are made of. Each has its
result and sets some of the flags. What the carry and the borrow chain are is said in
the source: the overflow and the auxiliary flag are read off them.
-/

namespace Milo.X86

/-- `x86_parity_tab` -/
def parityTab : List (BitVec 32) :=
  [0x96696996, 0x69969669, 0x69969669, 0x96696996, 0x69969669, 0x96696996, 0x96696996, 0x69969669]

/-- `PARITY(x)` -/
def parity (x : Nat) : Bool := (parityTab.getD (x / 32) 0 >>> (x % 32)) &&& 1 != 0

/-- `XOR2(x)` -/
def xor2 {r : Nat} (x : BitVec r) : Bool := (x ^^^ x >>> 1) &&& 1 != 0

/-- The sign, zero and parity flag of a result. -/
def resultFlags {r : Nat} (all sign res : BitVec r) (m : X86Regs) : X86Regs :=
  let m := m.conditionalSetFlag (res &&& sign != 0) .SF
  let m := m.conditionalSetFlag (res &&& all == 0) .ZF
  m.conditionalSetFlag (parity (res &&& 0xff).toNat) .PF

/-! ## Addition -/

section
variable {w : Nat} (r : Nat) (out all sign : BitVec r) (top : Nat)

/-- `add_byte` to `adc_word`, with a sum of `r` bits. -/
def addWith (carry : Bool) (m : X86Regs) (d s : BitVec w) : BitVec w × X86Regs :=
  let d := d.setWidth r
  let s := s.setWidth r
  let res := if carry then 1 + d + s else d + s
  let m := m.conditionalSetFlag (res &&& out != 0) .CF
  let m := resultFlags all sign res m
  let cc := (s &&& d) ||| (~~~res &&& (s ||| d))
  let m := m.conditionalSetFlag (xor2 (cc >>> top)) .OF
  let m := m.conditionalSetFlag (cc &&& 0x8 != 0) .AF
  (res.setWidth w, m)

end

def addByte : X86Regs → BitVec 8 → BitVec 8 → BitVec 8 × X86Regs :=
  addWith 16 0x100 0xff 0x80 6 false

def addWord : X86Regs → BitVec 16 → BitVec 16 → BitVec 16 × X86Regs :=
  addWith 32 0x10000 0xffff 0x8000 14 false

def adcByte (m : X86Regs) : BitVec 8 → BitVec 8 → BitVec 8 × X86Regs :=
  addWith 16 0x100 0xff 0x80 6 (m.accessFlag .CF) m

def adcWord (m : X86Regs) : BitVec 16 → BitVec 16 → BitVec 16 × X86Regs :=
  addWith 32 0x10000 0xffff 0x8000 14 (m.accessFlag .CF) m

/-- `inc_byte` and `inc_word`, with the formula of each for the carry chain. -/
def incWith {w : Nat} (all sign : BitVec 32) (top : Nat) (chain : BitVec 32 → BitVec 32 → BitVec 32)
    (m : X86Regs) (d : BitVec w) : BitVec w × X86Regs :=
  let d := d.setWidth 32
  let res := d + 1
  let m := resultFlags all sign res m
  let cc := chain d res
  let m := m.conditionalSetFlag (xor2 (cc >>> top)) .OF
  let m := m.conditionalSetFlag (cc &&& 0x8 != 0) .AF
  (res.setWidth w, m)

def incByte : X86Regs → BitVec 8 → BitVec 8 × X86Regs :=
  incWith 0xff 0x80 6 fun d res => ((1 &&& d) ||| ~~~res) &&& (1 ||| d)

def incWord : X86Regs → BitVec 16 → BitVec 16 × X86Regs :=
  incWith 0xffff 0x8000 14 fun d res => (1 &&& d) ||| (~~~res &&& (1 ||| d))

/-! ## Subtraction -/

section
variable {w : Nat} (all sign : BitVec 32) (top : Nat)

/-- `sub_byte` to `cmp_long`: the difference and the flags. -/
def subFlags (borrow : Bool) (m : X86Regs) (d s : BitVec w) : BitVec 32 × X86Regs :=
  let d := d.setWidth 32
  let s := s.setWidth 32
  let res := if borrow then d - s - 1 else d - s
  let m := resultFlags all sign res m
  let bc := (res &&& (~~~d ||| s)) ||| (~~~d &&& s)
  let m := m.conditionalSetFlag (bc &&& sign != 0) .CF
  let m := m.conditionalSetFlag (xor2 (bc >>> top)) .OF
  let m := m.conditionalSetFlag (bc &&& 0x8 != 0) .AF
  (res, m)

/-- `sub_byte` to `sbb_word` -/
def subWith (borrow : Bool) (m : X86Regs) (d s : BitVec w) : BitVec w × X86Regs :=
  let (res, m) := subFlags all sign top borrow m d s
  ((res &&& all).setWidth w, m)

/-- `cmp_word` and `cmp_long` -/
def cmpWith (m : X86Regs) (d s : BitVec w) : BitVec w × X86Regs :=
  (d, (subFlags all sign top false m d s).2)

/-- `dec_byte` and `dec_word` -/
def decWith (m : X86Regs) (d : BitVec w) : BitVec w × X86Regs :=
  let d := d.setWidth 32
  let res := d - 1
  let m := resultFlags all sign res m
  let bc := (res &&& (~~~d ||| 1)) ||| (~~~d &&& 1)
  let m := m.conditionalSetFlag (xor2 (bc >>> top)) .OF
  let m := m.conditionalSetFlag (bc &&& 0x8 != 0) .AF
  (res.setWidth w, m)

end

def subByte : X86Regs → BitVec 8 → BitVec 8 → BitVec 8 × X86Regs := subWith 0xff 0x80 6 false

def subWord : X86Regs → BitVec 16 → BitVec 16 → BitVec 16 × X86Regs :=
  subWith 0xffff 0x8000 14 false

def sbbByte (m : X86Regs) : BitVec 8 → BitVec 8 → BitVec 8 × X86Regs :=
  subWith 0xff 0x80 6 (m.accessFlag .CF) m

def sbbWord (m : X86Regs) : BitVec 16 → BitVec 16 → BitVec 16 × X86Regs :=
  subWith 0xffff 0x8000 14 (m.accessFlag .CF) m

/-- `cmp_byte` clears the carry first. -/
def cmpByte (m : X86Regs) : BitVec 8 → BitVec 8 → BitVec 8 × X86Regs :=
  cmpWith 0xff 0x80 6 (m.clearFlag .CF)

def cmpWord : X86Regs → BitVec 16 → BitVec 16 → BitVec 16 × X86Regs := cmpWith 0xffff 0x8000 14

def cmpLong : X86Regs → BitVec 32 → BitVec 32 → BitVec 32 × X86Regs :=
  cmpWith 0xffffffff 0x80000000 30

def decByte : X86Regs → BitVec 8 → BitVec 8 × X86Regs := decWith 0xff 0x80 6

def decWord : X86Regs → BitVec 16 → BitVec 16 × X86Regs := decWith 0xffff 0x8000 14

/-- `neg_byte` and `neg_word` -/
def negWith {w : Nat} (all sign : BitVec w) (top : Nat) (m : X86Regs) (s : BitVec w) :
    BitVec w × X86Regs :=
  let m := m.conditionalSetFlag (s != 0) .CF
  let res := -s
  let m := resultFlags all sign res m
  let bc := res ||| s
  let m := m.conditionalSetFlag (xor2 (bc >>> top)) .OF
  let m := m.conditionalSetFlag (bc &&& 0x8 != 0) .AF
  (res, m)

def negByte : X86Regs → BitVec 8 → BitVec 8 × X86Regs := negWith 0xff 0x80 6

/-- `neg_word` looks at the same two bits of the chain as `neg_byte`. -/
def negWord : X86Regs → BitVec 16 → BitVec 16 × X86Regs := negWith 0xffff 0x8000 6

/-! ## Bitwise operations -/

end Milo.X86
