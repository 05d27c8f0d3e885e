import Milo.X86.PrimOps

/-! # Sums and differences

What the additions and subtractions leave in the flags: the carry and the overflow flag
tell whether the unsigned and the signed result fit. The parity flag is set for an odd
number of ones, and `neg_word` takes its overflow from the lower byte.
-/

namespace Milo.X86

open Foundation BitVec

/-! ## The flags of a result -/

/-- The lowest byte has an odd number of ones. -/
def oddOnes {w : Nat} (v : BitVec w) : Bool :=
  decide (((List.range 8).countP fun i => v.getLsbD i) % 2 = 1)

def resultFlag {w : Nat} (v : BitVec w) : Flag → Option Bool
  | .SF => some v.msb
  | .ZF => some (v == 0)
  | .PF => some (oddOnes v)
  | _ => none

theorem parity_eq {x : Nat} (h : x < 256) :
    parity x = decide (((List.range 8).countP fun i => x.testBit i) % 2 = 1) := by
  have hall : ∀ x < 256,
      parity x = decide (((List.range 8).countP fun i => x.testBit i) % 2 = 1) := by decide +kernel
  exact hall x h

/-- The masks of an operation on `n + 2` bits, in `r` bits. -/
structure Masks (n r : Nat) (all sign : BitVec r) : Prop where
  all : all = (allOnes (n + 2)).setWidth r
  sign : sign = twoPow r (n + 1)
  wide : n + 2 ≤ r
  byte : 6 ≤ n

section
variable {n r : Nat} {all sign : BitVec r} {m m' : X86Regs} {new : Flag → Option Bool}

theorem Sets.resultFlags (hmasks : Masks n r all sign) {res : BitVec r} {v : BitVec (n + 2)}
    (hv : res.setWidth (n + 2) = v) (h : Sets m new m') :
    Sets m (fun f => (resultFlag v f).or (new f)) (resultFlags all sign res m') := by
  have hwide := hmasks.wide
  have hbyte := hmasks.byte
  have hsign : (res &&& sign != 0) = v.msb := by
    rw [hmasks.sign, ← hv]
    change (res &&& twoPow r (n + 1) != 0#r) = _
    rw [and_twoPow_bne_zero res (by omega)]
    simp [BitVec.msb, BitVec.getMsbD]
  have hzero : (res &&& all == 0) = (v == 0) := by
    rw [hmasks.all, ← hv, Bool.eq_iff_iff, beq_iff_eq, beq_iff_eq]
    exact and_allOnes_eq_zero res hwide
  have hparity : parity (res &&& 0xff).toNat = oddOnes v := by
    have hcount : (List.range 8).countP (fun i => (res.toNat % 256).testBit i) =
        (List.range 8).countP fun i => v.getLsbD i := by
      apply List.countP_congr
      intro i hi
      rw [List.mem_range] at hi
      rw [← hv, show 256 = 2 ^ 8 by decide, Nat.testBit_mod_two_pow]
      simp [hi, show i < n + 2 by omega, getLsbD]
    change parity (res &&& 0xff#r).toNat = _
    rw [toNat_and_byte res (by omega), parity_eq (Nat.mod_lt _ (by decide)), hcount, oddOnes]
  have hflags := ((h.put v.msb .SF).put (v == 0) .ZF).put (oddOnes v) .PF
  unfold X86.resultFlags
  rw [hsign, hzero, hparity]
  refine hflags.congr fun f => ?_
  cases f <;> rfl

/-! ## The chains -/

theorem xor2_shiftRight {x : BitVec r} (top : Nat) (h : 0 < r) :
    xor2 (x >>> top) = (x.getLsbD top != x.getLsbD (top + 1)) := by
  unfold xor2
  change ((x >>> top ^^^ x >>> top >>> 1) &&& BitVec.ofNat r (2 ^ 0) != 0#r) = _
  rw [ofNat_two_pow, and_twoPow_bne_zero _ h]
  simp

theorem and_eight {x : BitVec r} (h : 3 < r) : (x &&& 0x8#r != 0#r) = x.getLsbD 3 := by
  change (x &&& BitVec.ofNat r (2 ^ 3) != 0#r) = _
  rw [ofNat_two_pow, and_twoPow_bne_zero _ h]

/-- The overflow and the auxiliary flag are read off a chain. -/
theorem Sets.chainFlags {chain : BitVec r} {top : Nat} {overflow aux : Bool} (hr : 3 < r)
    (hover : (chain.getLsbD top != chain.getLsbD (top + 1)) = overflow)
    (haux : chain.getLsbD 3 = aux) (h : Sets m new m') :
    Sets m (fun f => if f = .OF then some overflow else if f = .AF then some aux else new f)
      ((m'.conditionalSetFlag (xor2 (chain >>> top)) .OF).conditionalSetFlag
        (chain &&& 0x8#r != 0#r) .AF) := by
  rw [xor2_shiftRight top (by omega), hover, and_eight hr, haux]
  refine ((h.put overflow .OF).put aux .AF).congr fun f => ?_
  cases f <;> rfl

/-! ## Addition -/

/-- The flags of `d + s + c`. -/
def addFlags {w : Nat} (d s : BitVec w) (c : Bool) : Flag → Option Bool
  | .CF => some (decide (2 ^ w ≤ d.toNat + s.toNat + c.toNat))
  | .AF => some (decide (16 ≤ d.toNat % 16 + s.toNat % 16 + c.toNat))
  | .OF => some (!decide (SignedRange (w - 1) (d.toInt + s.toInt + c.toNat)))
  | f => resultFlag (d + s + (ofBool c).setWidth w) f

/-- The carry flag stays as it is. -/
def keepCarry (new : Flag → Option Bool) : Flag → Option Bool
  | .CF => none
  | f => new f

/-- `d + s + c` in `r` bits. -/
def wideSum {w : Nat} (r : Nat) (d s : BitVec w) (c : Bool) : BitVec r :=
  s.setWidth r + d.setWidth r + (ofBool c).setWidth r

section
variable (d s : BitVec (n + 2)) (c : Bool)

theorem setWidth_wideSum (hr : n + 2 ≤ r) :
    (wideSum r d s c).setWidth (n + 2) = d + s + (ofBool c).setWidth (n + 2) := by
  unfold wideSum
  rw [setWidth_add _ _ hr, setWidth_add _ _ hr, BitVec.add_comm d]
  simp only [setWidth_setWidth_of_le _ hr, setWidth_eq]

theorem wideSum_carries (hr : n + 2 ≤ r) {i : Nat} (hi : i < r) :
    (carries (s.setWidth r) (d.setWidth r) (wideSum r d s c)).getLsbD i = carry (i + 1) d s c := by
  unfold wideSum
  rw [getLsbD_carries _ _ _ hi, carry_setWidth hr, carry_comm]

theorem wideSum_carry (hr : n + 2 < r) :
    (wideSum r d s c).getLsbD (n + 2) = decide (2 ^ (n + 2) ≤ d.toNat + s.toNat + c.toNat) := by
  unfold wideSum
  rw [getLsbD_add_add_bool hr, carry_setWidth (by omega), carry_comm, carry_width]
  simp [getLsbD_setWidth]

/-- The flags of a sum, but for the carry. -/
theorem Sets.sumFlags (hmasks : Masks n r all sign) (h : Sets m new m') :
    let chain := carries (s.setWidth r) (d.setWidth r) (wideSum r d s c)
    Sets m (fun f => (keepCarry (addFlags d s c) f).or (new f))
      (((X86.resultFlags all sign (wideSum r d s c) m').conditionalSetFlag
        (xor2 (chain >>> n)) .OF).conditionalSetFlag (chain &&& 0x8#r != 0#r) .AF) := by
  have hwide := hmasks.wide
  have hbyte := hmasks.byte
  intro chain
  have hbit := fun i hi => wideSum_carries d s c (r := r) (by omega) (i := i) hi
  have hover : (chain.getLsbD n != chain.getLsbD (n + 1)) =
      !decide (SignedRange (n + 1) (d.toInt + s.toInt + c.toNat)) := by
    rw [hbit n (by omega), hbit (n + 1) (by omega), carry_bne_carry]
  have hflags := (h.resultFlags hmasks (setWidth_wideSum d s c hwide)).chainFlags (by omega) hover
    (hbit 3 (by omega))
  refine hflags.congr fun f => ?_
  cases f <;> rfl

end

theorem addWith_spec {out : BitVec r} (hmasks : Masks n r all sign)
    (hout : out = twoPow r (n + 2)) (hr : n + 2 < r) (c : Bool) (m : X86Regs)
    (d s : BitVec (n + 2)) :
    (addWith r out all sign n c m d s).1 = d + s + (ofBool c).setWidth (n + 2) ∧
      Sets m (addFlags d s c) (addWith r out all sign n c m d s).2 := by
  have hres : (if c then 1 + d.setWidth r + s.setWidth r else d.setWidth r + s.setWidth r) =
      wideSum r d s c := by
    unfold wideSum
    cases c with
    | false =>
        change d.setWidth r + s.setWidth r = s.setWidth r + d.setWidth r + setWidth r 0#1
        rw [setWidth_zero, BitVec.add_zero, BitVec.add_comm]
    | true =>
        change 1#r + d.setWidth r + s.setWidth r = s.setWidth r + d.setWidth r + setWidth r 1#1
        rw [setWidth_one_one]
        ac_rfl
  have hcarry : (wideSum r d s c &&& out != 0#r) =
      decide (2 ^ (n + 2) ≤ d.toNat + s.toNat + c.toNat) := by
    rw [hout, and_twoPow_bne_zero _ hr, wideSum_carry d s c hr]
  have hflags := ((Sets.refl m).put (decide (2 ^ (n + 2) ≤ d.toNat + s.toNat + c.toNat))
    .CF).sumFlags d s c hmasks
  unfold addWith
  dsimp only
  rw [hres]
  refine ⟨setWidth_wideSum d s c (by omega), ?_⟩
  rw [← hcarry] at hflags
  refine hflags.congr fun f => ?_
  cases f with
  | CF => exact congrArg some hcarry
  | _ => rfl

theorem incWith_spec {all sign : BitVec 32} (hmasks : Masks n 32 all sign)
    {chain : BitVec 32 → BitVec 32 → BitVec 32} (hchain : ∀ d res, chain d res = carries 1 d res)
    (m : X86Regs) (d : BitVec (n + 2)) :
    (incWith all sign n chain m d).1 = d + 1 ∧
      Sets m (keepCarry (addFlags d 1 false)) (incWith all sign n chain m d).2 := by
  have hwide := hmasks.wide
  have hone : (1#(n + 2)).setWidth 32 = 1#32 := by
    apply eq_of_toNat_eq
    have hlt : 1 < 2 ^ (n + 2) := Nat.one_lt_two_pow (by omega)
    simp [Nat.mod_eq_of_lt hlt]
  have hres : d.setWidth 32 + 1 = wideSum 32 d 1#(n + 2) false := by
    unfold wideSum
    rw [hone, BitVec.add_comm]
    simp
  have hvalue := setWidth_wideSum d 1#(n + 2) false hwide
  have hflags := (Sets.refl m).sumFlags d 1#(n + 2) false hmasks
  unfold incWith
  dsimp only
  rw [hres, hchain]
  rw [hone] at hflags
  refine ⟨by simpa using hvalue, hflags.congr fun f => ?_⟩
  cases f <;> rfl

/-! ## Subtraction -/

/-- The flags of `d - s - c`. -/
def diffFlags {w : Nat} (d s : BitVec w) (c : Bool) : Flag → Option Bool
  | .CF => some (decide (d.toNat < s.toNat + c.toNat))
  | .AF => some (decide (d.toNat % 16 < s.toNat % 16 + c.toNat))
  | .OF => some (!decide (SignedRange (w - 1) (d.toInt - s.toInt - c.toNat)))
  | f => resultFlag (d - s - (ofBool c).setWidth w) f

/-- `d - s - c` in `r` bits. -/
def wideDiff {w : Nat} (r : Nat) (d s : BitVec w) (c : Bool) : BitVec r :=
  d.setWidth r - s.setWidth r - (ofBool c).setWidth r

section
variable (d s : BitVec (n + 2)) (c : Bool)

theorem setWidth_wideDiff (hr : n + 2 ≤ r) :
    (wideDiff r d s c).setWidth (n + 2) = d - s - (ofBool c).setWidth (n + 2) := by
  unfold wideDiff
  rw [setWidth_sub hr, setWidth_sub hr]
  simp only [setWidth_setWidth_of_le _ hr, setWidth_eq]

theorem wideDiff_borrows (hr : n + 2 ≤ r) {i : Nat} (hi : i < r) :
    (borrows (d.setWidth r) (s.setWidth r) (wideDiff r d s c)).getLsbD i =
      borrow (i + 1) d s c := by
  unfold wideDiff
  rw [getLsbD_borrows _ _ _ hi, borrow_setWidth hr]

theorem borrow_full : borrow (n + 2) d s c = decide (d.toNat < s.toNat + c.toNat) := by
  unfold borrow
  rw [Nat.mod_eq_of_lt d.isLt, Nat.mod_eq_of_lt s.isLt]

theorem wideDiff_overflow (hr : n + 2 ≤ r) :
    let chain := borrows (d.setWidth r) (s.setWidth r) (wideDiff r d s c)
    (chain.getLsbD n != chain.getLsbD (n + 1)) =
      !decide (SignedRange (n + 1) (d.toInt - s.toInt - c.toNat)) := by
  intro chain
  rw [wideDiff_borrows d s c hr (by omega), wideDiff_borrows d s c hr (by omega),
    borrow_bne_borrow]

end

theorem subFlags_spec {all sign : BitVec 32} (hmasks : Masks n 32 all sign) (c : Bool)
    (m : X86Regs) (d s : BitVec (n + 2)) :
    (subFlags all sign n c m d s).1.setWidth (n + 2) = d - s - (ofBool c).setWidth (n + 2) ∧
      Sets m (diffFlags d s c) (subFlags all sign n c m d s).2 := by
  have hbyte := hmasks.byte
  have hwide := hmasks.wide
  have hres : (if c then d.setWidth 32 - s.setWidth 32 - 1 else d.setWidth 32 - s.setWidth 32) =
      wideDiff 32 d s c := by
    unfold wideDiff
    cases c <;> simp
  have hvalue := setWidth_wideDiff d s c hwide
  have hcarry : (borrows (d.setWidth 32) (s.setWidth 32) (wideDiff 32 d s c) &&& sign != 0#32) =
      decide (d.toNat < s.toNat + c.toNat) := by
    rw [hmasks.sign, and_twoPow_bne_zero _ (by omega), wideDiff_borrows d s c hwide (by omega),
      borrow_full]
  have hflags := (((Sets.refl m).resultFlags hmasks hvalue).put
    (decide (d.toNat < s.toNat + c.toNat)) .CF).chainFlags (by decide)
    (wideDiff_overflow d s c hwide) (wideDiff_borrows d s c hwide (i := 3) (by decide))
  unfold subFlags
  dsimp only
  rw [hres]
  refine ⟨hvalue, ?_⟩
  rw [← hcarry] at hflags
  refine hflags.congr fun f => ?_
  cases f with
  | CF => exact congrArg some hcarry
  | _ => rfl

theorem subWith_spec {all sign : BitVec 32} (hmasks : Masks n 32 all sign) (c : Bool)
    (m : X86Regs) (d s : BitVec (n + 2)) :
    (subWith all sign n c m d s).1 = d - s - (ofBool c).setWidth (n + 2) ∧
      Sets m (diffFlags d s c) (subWith all sign n c m d s).2 := by
  obtain ⟨hvalue, hflags⟩ := subFlags_spec hmasks c m d s
  have hwide := hmasks.wide
  refine ⟨?_, hflags⟩
  change ((subFlags all sign n c m d s).1 &&& all).setWidth (n + 2) = _
  rw [setWidth_and, hvalue, hmasks.all, setWidth_setWidth_of_le _ hwide, setWidth_eq,
    and_allOnes]

theorem decWith_spec {all sign : BitVec 32} (hmasks : Masks n 32 all sign) (m : X86Regs)
    (d : BitVec (n + 2)) :
    (decWith all sign n m d).1 = d - 1 ∧
      Sets m (keepCarry (diffFlags d 1 false)) (decWith all sign n m d).2 := by
  have hwide := hmasks.wide
  have hone : (1#(n + 2)).setWidth 32 = 1#32 := by
    apply eq_of_toNat_eq
    have hlt : 1 < 2 ^ (n + 2) := Nat.one_lt_two_pow (by omega)
    simp [Nat.mod_eq_of_lt hlt]
  have hres : d.setWidth 32 - 1 = wideDiff 32 d 1#(n + 2) false := by
    unfold wideDiff
    rw [hone]
    simp
  have hvalue := setWidth_wideDiff d 1#(n + 2) false hwide
  have hflags := ((Sets.refl m).resultFlags hmasks hvalue).chainFlags (by decide)
    (wideDiff_overflow d 1#(n + 2) false hwide)
    (wideDiff_borrows d 1#(n + 2) false hwide (i := 3) (by decide))
  unfold decWith
  dsimp only
  rw [hres]
  rw [hone] at hflags
  refine ⟨by simpa using hvalue, hflags.congr fun f => ?_⟩
  cases f <;> rfl

/-- The flags of `neg_byte` and `neg_word`: the overflow is that of the lowest byte. -/
def negFlags {w : Nat} (s : BitVec w) : Flag → Option Bool
  | .OF => some (decide (s.toNat % 256 = 128))
  | f => diffFlags 0 s false f

theorem negWith_spec {all sign : BitVec (n + 2)} (hmasks : Masks n (n + 2) all sign)
    (m : X86Regs) (s : BitVec (n + 2)) :
    (negWith all sign 6 m s).1 = -s ∧ Sets m (negFlags s) (negWith all sign 6 m s).2 := by
  have hbyte := hmasks.byte
  have hwide : wideDiff (n + 2) 0#(n + 2) s false = -s := by
    simp [wideDiff]
  have hchain : -s ||| s = borrows (0#(n + 2)) s (-s) := by
    simp [borrows]
  have hbit : ∀ i < n + 2, (-s ||| s).getLsbD i = borrow (i + 1) 0#(n + 2) s false := by
    intro i hi
    have h := wideDiff_borrows 0#(n + 2) s false (Nat.le_refl _) hi
    rwa [hwide, setWidth_eq, setWidth_eq, ← hchain] at h
  have hvalue : (-s).setWidth (n + 2) = 0#(n + 2) - s - (ofBool false).setWidth (n + 2) := by
    simp
  have hcarry : (s != 0#(n + 2)) = decide ((0#(n + 2)).toNat < s.toNat + false.toNat) := by
    rw [Bool.eq_iff_iff, bne_iff_ne, decide_eq_true_eq, Ne, ← toNat_inj]
    simp [Nat.pos_iff_ne_zero]
  have hover : ((-s ||| s).getLsbD 6 != (-s ||| s).getLsbD (6 + 1)) =
      decide (s.toNat % 256 = 128) := by
    rw [hbit 6 (by omega), hbit 7 (by omega), Bool.eq_iff_iff, bne_iff_ne, decide_eq_true_eq]
    simp only [borrow, toNat_ofNat, Nat.zero_mod, Bool.toNat_false, Nat.add_zero, ne_eq,
      decide_eq_decide]
    omega
  have hflags := (((Sets.refl m).put (s != 0#(n + 2)) .CF).resultFlags hmasks hvalue).chainFlags
    (by omega) hover (hbit 3 (by omega))
  refine ⟨rfl, hflags.congr fun f => ?_⟩
  cases f with
  | CF => exact congrArg some hcarry
  | _ => rfl

/-! ## Bitwise operations -/

end

/-! ## The operations of the processor -/

theorem byteMasks16 : Masks 6 16 0xff 0x80 := ⟨by decide, by decide, by decide, by decide⟩

theorem byteMasks32 : Masks 6 32 0xff 0x80 := ⟨by decide, by decide, by decide, by decide⟩

theorem wordMasks32 : Masks 14 32 0xffff 0x8000 := ⟨by decide, by decide, by decide, by decide⟩

theorem longMasks32 : Masks 30 32 0xffffffff 0x80000000 :=
  ⟨by decide, by decide, by decide, by decide⟩

theorem byteMasks : Masks 6 8 0xff 0x80 := ⟨by decide, by decide, by decide, by decide⟩

theorem wordMasks : Masks 14 16 0xffff 0x8000 := ⟨by decide, by decide, by decide, by decide⟩

/-- Result and flags of an operation. -/
def Does {w : Nat} (m : X86Regs) (r : BitVec w × X86Regs) (v : BitVec w)
    (new : Flag → Option Bool) : Prop := r.1 = v ∧ Sets m new r.2

theorem incByte_chain (d res : BitVec 32) :
    ((1 &&& d) ||| ~~~res) &&& (1 ||| d) = carries 1 d res := by
  unfold carries
  ext i hi
  simp only [getElem_and, getElem_or, getElem_not]
  cases (1#32)[i] <;> cases d[i] <;> cases res[i] <;> rfl

/-- Sums are exact, and their flags say whether they fit; the increments leave the carry. -/
theorem sums (m : X86Regs) :
    (∀ d s, Does m (addByte m d s) (d + s) (addFlags d s false)) ∧
    (∀ d s, Does m (addWord m d s) (d + s) (addFlags d s false)) ∧
    (∀ d s, Does m (adcByte m d s) (d + s + (ofBool (m.accessFlag .CF)).setWidth 8)
      (addFlags d s (m.accessFlag .CF))) ∧
    (∀ d s, Does m (adcWord m d s) (d + s + (ofBool (m.accessFlag .CF)).setWidth 16)
      (addFlags d s (m.accessFlag .CF))) ∧
    (∀ d, Does m (incByte m d) (d + 1) (keepCarry (addFlags d 1 false))) ∧
    ∀ d, Does m (incWord m d) (d + 1) (keepCarry (addFlags d 1 false)) := by
  refine ⟨fun d s => ?_, fun d s => ?_, fun d s => ?_, fun d s => ?_, fun d => ?_, fun d => ?_⟩
  · have h := addWith_spec byteMasks16 (show 0x100 = twoPow 16 8 by decide) (by decide) false m d s
    simpa [Does, addByte] using h
  · have h := addWith_spec wordMasks32 (show 0x10000 = twoPow 32 16 by decide) (by decide) false m
      d s
    simpa [Does, addWord] using h
  · exact addWith_spec byteMasks16 (show 0x100 = twoPow 16 8 by decide) (by decide) _ m d s
  · exact addWith_spec wordMasks32 (show 0x10000 = twoPow 32 16 by decide) (by decide) _ m d s
  · exact incWith_spec byteMasks32 incByte_chain m d
  · exact incWith_spec wordMasks32 (fun _ _ => rfl) m d

/-- `cmp_byte` clears the carry before it sets it. -/
theorem cmpByte_spec (m : X86Regs) (d s : BitVec 8) :
    Sets m (diffFlags d s false) (cmpByte m d s).2 := by
  have hcleared := (Sets.refl m).put false .CF
  have hflags := (subFlags_spec byteMasks32 false (m.clearFlag .CF) d s).2
  refine (hcleared.trans hflags).congr fun f => ?_
  cases f <;> rfl

/-- So are the differences and negations, but for the overflow of `neg_word`. -/
theorem differences (m : X86Regs) :
    (∀ d s, Does m (subByte m d s) (d - s) (diffFlags d s false)) ∧
    (∀ d s, Does m (subWord m d s) (d - s) (diffFlags d s false)) ∧
    (∀ d s, Does m (sbbByte m d s) (d - s - (ofBool (m.accessFlag .CF)).setWidth 8)
      (diffFlags d s (m.accessFlag .CF))) ∧
    (∀ d s, Does m (sbbWord m d s) (d - s - (ofBool (m.accessFlag .CF)).setWidth 16)
      (diffFlags d s (m.accessFlag .CF))) ∧
    (∀ d s, Does m (cmpByte m d s) d (diffFlags d s false)) ∧
    (∀ d s, Does m (cmpWord m d s) d (diffFlags d s false)) ∧
    (∀ d s, Does m (cmpLong m d s) d (diffFlags d s false)) ∧
    (∀ d, Does m (decByte m d) (d - 1) (keepCarry (diffFlags d 1 false))) ∧
    (∀ d, Does m (decWord m d) (d - 1) (keepCarry (diffFlags d 1 false))) ∧
    (∀ s, Does m (negByte m s) (-s) (negFlags s)) ∧
    ∀ s, Does m (negWord m s) (-s) (negFlags s) := by
  have hsub : ∀ d s : BitVec 8, Does m (subByte m d s) (d - s) (diffFlags d s false) := by
    intro d s
    have h := subWith_spec byteMasks32 false m d s
    simpa [Does, subByte] using h
  have hsubWord : ∀ d s : BitVec 16, Does m (subWord m d s) (d - s) (diffFlags d s false) := by
    intro d s
    have h := subWith_spec wordMasks32 false m d s
    simpa [Does, subWord] using h
  exact ⟨hsub, hsubWord, fun d s => subWith_spec byteMasks32 _ m d s,
    fun d s => subWith_spec wordMasks32 _ m d s, fun d s => ⟨rfl, cmpByte_spec m d s⟩,
    fun d s => ⟨rfl, (subFlags_spec wordMasks32 false m d s).2⟩,
    fun d s => ⟨rfl, (subFlags_spec longMasks32 false m d s).2⟩,
    fun d => decWith_spec byteMasks32 m d, fun d => decWith_spec wordMasks32 m d,
    fun s => negWith_spec byteMasks m s, fun s => negWith_spec wordMasks m s⟩

end Milo.X86
