import Milo.X86.Machine

/-! # The stack

A stack in the memory is a list of words: what is pushed comes back, whatever the order
of the pushes and the pops, and nothing else in the memory changes. Longs do not: one
that is pushed at an even address loses its upper half.
-/

namespace Milo.X86

open Foundation

section
variable {δ : Type}

namespace SysEnv

/-- The address of an offset in a segment. -/
def address (segment offset : BitVec 16) : Nat := segment.toNat <<< 4 + offset.toNat

def sp (m : SysEnv δ) : BitVec 16 := m.x86.word .SP

/-- `R_SS:R_SP` -/
def top (m : SysEnv δ) : Nat := address m.x86.ss m.sp

def setSp (m : SysEnv δ) (v : BitVec 16) : SysEnv δ := { m with x86 := m.x86.setWord .SP v }

@[simp] theorem setSp_sp (m : SysEnv δ) (v : BitVec 16) : (m.setSp v).sp = v := by
  simp [setSp, sp]

@[simp] theorem setSp_mem (m : SysEnv δ) (v : BitVec 16) : (m.setSp v).mem = m.mem := rfl

@[simp] theorem setSp_memSize (m : SysEnv δ) (v : BitVec 16) :
    (m.setSp v).memSize = m.memSize := rfl

@[simp] theorem setSp_setSp (m : SysEnv δ) (v v' : BitVec 16) :
    (m.setSp v).setSp v' = m.setSp v' := by
  simp [setSp]

@[simp] theorem setSp_top (m : SysEnv δ) (v : BitVec 16) :
    (m.setSp v).top = address m.x86.ss v := by
  simp [top]
  rfl

end SysEnv

open SysEnv

variable (bus : Bus δ)

def pushWord (m : SysEnv δ) (w : BitVec 16) : SysEnv δ :=
  let m := m.setSp (m.sp - 2)
  sysWrw bus m m.top w

def popWord (m : SysEnv δ) : BitVec 16 × SysEnv δ :=
  let (res, m) := sysRdw bus m m.top
  (res, m.setSp (m.sp + 2))

def pushLong (m : SysEnv δ) (w : BitVec 32) : SysEnv δ :=
  let m := m.setSp (m.sp - 4)
  sysWrl bus m m.top w

def popLong (m : SysEnv δ) : BitVec 32 × SysEnv δ :=
  let (res, m) := sysRdl bus m m.top
  (res, m.setSp (m.sp + 4))

/-! ## Words in the memory -/

/-- The words from an address on. -/
def Stored (mem : Nat → BitVec 8) : Nat → List (BitVec 16) → Prop
  | _, [] => True
  | a, w :: ws => wordAt mem a = w ∧ Stored mem (a + 2) ws

theorem Stored.congr {mem mem' : Nat → BitVec 8} {a : Nat} {ws : List (BitVec 16)}
    (h : Stored mem a ws) (hsame : ∀ x, a ≤ x → x < a + 2 * ws.length → mem' x = mem x) :
    Stored mem' a ws := by
  induction ws generalizing a with
  | nil => trivial
  | cons w ws ih =>
      rw [List.length_cons] at hsame
      refine ⟨?_, ih h.2 fun x hlo hhi => hsame x (by omega) (by omega)⟩
      rw [← h.1]
      apply wordAt_congr
      intro x hx
      rw [Span.mem_mk] at hx
      exact hsame x hx.1 (by omega)

/-- The stack holds the words, the last one pushed first, and is in the memory. -/
structure OnStack (m : SysEnv δ) (ws : List (BitVec 16)) : Prop where
  segment : m.sp.toNat + 2 * ws.length < 2 ^ 16
  below : m.top + 2 * ws.length ≤ min 0xa0000 m.memSize
  size : m.memSize < 2 ^ 64
  stored : Stored m.mem m.top ws

theorem top_eq (m : SysEnv δ) : m.top = m.x86.ss.toNat * 16 + m.sp.toNat := by
  rw [top, address, Nat.shiftLeft_eq]

theorem top_setSp (m : SysEnv δ) (v : BitVec 16) :
    (m.setSp v).top = m.x86.ss.toNat * 16 + v.toNat := by
  rw [setSp_top, address, Nat.shiftLeft_eq]

theorem top_setSp_sub {m : SysEnv δ} {k : BitVec 16} (hle : k ≤ m.sp) :
    (m.setSp (m.sp - k)).top = m.top - k.toNat := by
  have hsub := BitVec.toNat_sub_of_le hle
  have hle' : k.toNat ≤ m.sp.toNat := hle
  rw [top_setSp, top_eq, hsub]
  omega

theorem pushWord_ram {m : SysEnv δ} (w : BitVec 16) (hsp : 2 ≤ m.sp.toNat)
    (hbelow : m.top ≤ min 0xa0000 m.memSize) (hsize : m.memSize < 2 ^ 64) :
    pushWord bus m w =
      (m.setSp (m.sp - 2)).setMem (storeWord m.mem (m.top - 2) w) := by
  have htop : (m.setSp (m.sp - 2)).top = m.top - 2 := top_setSp_sub (k := 2) hsp
  have hlow := top_eq m
  unfold pushWord
  dsimp only
  rw [htop, sysWrw_ram]
  · rfl
  · refine ⟨by omega, ?_, hsize⟩
    rw [setSp_memSize]
    omega

theorem popWord_ram {m : SysEnv δ} (h : m.InRam m.top 2) :
    popWord bus m = (wordAt m.mem m.top, m.setSp (m.sp + 2)) := by
  unfold popWord
  rw [sysRdw_ram h]

/-- A push moves the top down by a word. -/
theorem pushWord_top {m : SysEnv δ} (w : BitVec 16) (hsp : 2 ≤ m.sp.toNat)
    (hbelow : m.top ≤ min 0xa0000 m.memSize) (hsize : m.memSize < 2 ^ 64) :
    (pushWord bus m w).sp.toNat + 2 = m.sp.toNat ∧ (pushWord bus m w).top + 2 = m.top := by
  have hsub : (m.sp - 2).toNat = m.sp.toNat - 2 :=
    BitVec.toNat_sub_of_le (show (2 : BitVec 16) ≤ m.sp from hsp)
  have hsp' : ((m.setSp (m.sp - 2)).setMem (storeWord m.mem (m.top - 2) w)).sp = m.sp - 2 :=
    setSp_sp m _
  have hlow := top_eq m
  have htop := top_eq ((m.setSp (m.sp - 2)).setMem (storeWord m.mem (m.top - 2) w))
  rw [hsp', hsub] at htop
  rw [pushWord_ram bus w hsp hbelow hsize, htop, hsp', hsub]
  change m.sp.toNat - 2 + 2 = _ ∧ m.x86.ss.toNat * 16 + (m.sp.toNat - 2) + 2 = _
  omega

theorem OnStack.push {m : SysEnv δ} {ws : List (BitVec 16)} (h : OnStack m ws)
    (hsp : 2 ≤ m.sp.toNat) (w : BitVec 16) : OnStack (pushWord bus m w) (w :: ws) := by
  obtain ⟨hsegment, hbelow, hsize, hstored⟩ := h
  have hpushed := pushWord_ram bus w hsp (by omega) hsize
  obtain ⟨hsp', htop⟩ := pushWord_top bus w hsp (by omega) hsize
  have hmem : (pushWord bus m w).mem = storeWord m.mem (m.top - 2) w := by rw [hpushed]; rfl
  have hmax : (pushWord bus m w).memSize = m.memSize := by rw [hpushed]; rfl
  refine ⟨by rw [List.length_cons]; omega, by rw [hmax, List.length_cons]; omega,
    by rw [hmax]; exact hsize, ?_⟩
  rw [show (pushWord bus m w).top = m.top - 2 by omega, hmem]
  refine ⟨wordAt_storeWord .., ?_⟩
  rw [show m.top - 2 + 2 = m.top by omega]
  refine hstored.congr fun x hlo _ => storeWord_of_ne _ ?_
  rw [Span.mem_mk]
  omega

/-- A pop moves the top up by a word. -/
theorem OnStack.setSp_top {m : SysEnv δ} {ws : List (BitVec 16)} {w : BitVec 16}
    (h : OnStack m (w :: ws)) :
    (m.setSp (m.sp + 2)).sp.toNat = m.sp.toNat + 2 ∧ (m.setSp (m.sp + 2)).top = m.top + 2 := by
  have hsegment := h.segment
  rw [List.length_cons] at hsegment
  have hadd : (m.sp + 2).toNat = m.sp.toNat + 2 := by
    rw [BitVec.toNat_add_of_lt]
    · rfl
    · change m.sp.toNat + 2 < _
      omega
  rw [setSp_sp, top_setSp, hadd, top_eq]
  omega

theorem OnStack.pop {m : SysEnv δ} {ws : List (BitVec 16)} {w : BitVec 16}
    (h : OnStack m (w :: ws)) :
    popWord bus m = (w, m.setSp (m.sp + 2)) ∧ OnStack (m.setSp (m.sp + 2)) ws := by
  obtain ⟨hsp, htop⟩ := h.setSp_top
  obtain ⟨hsegment, hbelow, hsize, hfirst, hrest⟩ := h
  rw [List.length_cons] at *
  have hlow := top_eq m
  refine ⟨?_, by omega, ?_, hsize, ?_⟩
  · rw [popWord_ram bus ⟨by omega, by omega, hsize⟩, hfirst]
  · rw [htop, setSp_memSize]
    omega
  · rw [htop]
    exact hrest

/-! ## A stack that is empty -/

/-- A machine of the first `n` bytes of the memory, with a stack that ends there. -/
def emptyStack (n : Nat) : SysEnv Unit where
  mem _ := 0
  memSize := n
  adapter := ()
  x86 :=
    { gen := fun r => if r = .SP then BitVec.ofNat 32 n else 0
      ip := 0
      flags := 0
      cs := 0
      ds := 0
      ss := 0
      es := 0
      mode := 0
      intno := 0
      intr := 0 }

/-- An adapter without memory. -/
def noAdapter : Bus Unit where
  readb d _ := (0xff, d)
  readw d _ := (0xffff, d)
  readl d _ := (0xffffffff, d)
  writeb d _ _ := d
  writew d _ _ := d
  writel d _ _ := d

/-! ## Longs -/

theorem pushLong_ram {m : SysEnv δ} (w : BitVec 32) (hsp : 4 ≤ m.sp.toNat)
    (hbelow : m.top ≤ min 0xa0000 m.memSize) (hsize : m.memSize < 2 ^ 64) :
    pushLong bus m w =
        (m.setSp (m.sp - 4)).setMem
          (if m.top % 2 = 1 then storeLong m.mem (m.top - 4) w
            else storeWord m.mem (m.top - 4) (w.setWidth 16)) ∧
      (m.setSp (m.sp - 4)).top = m.top - 4 := by
  have htop : (m.setSp (m.sp - 4)).top = m.top - 4 := top_setSp_sub (k := 4) hsp
  have hlow := top_eq m
  have hodd : (m.top - 4) % 2 = m.top % 2 := by omega
  refine ⟨?_, htop⟩
  unfold pushLong
  dsimp only
  rw [htop, sysWrl_ram, hodd]
  · rfl
  · refine ⟨by omega, ?_, hsize⟩
    rw [setSp_memSize]
    omega

/-- Of a long that is pushed where the stack is even the upper half does not come back: it is
what the memory held before. -/
theorem popLong_pushLong {m : SysEnv δ} (w : BitVec 32) (hsp : 4 ≤ m.sp.toNat)
    (hbelow : m.top ≤ min 0xa0000 m.memSize) (hsize : m.memSize < 2 ^ 64) :
    popLong bus (pushLong bus m w) =
      (if m.top % 2 = 1 then w else wordAt m.mem (m.top - 2) ++ w.setWidth 16,
        (pushLong bus m w).setSp m.sp) := by
  obtain ⟨hpushed, htop⟩ := pushLong_ram bus w hsp hbelow hsize
  have hlow := top_eq m
  have htop' : (pushLong bus m w).top = m.top - 4 := by
    rw [hpushed]
    exact htop
  have hsp' : (pushLong bus m w).sp + 4 = m.sp := by
    have hmoved : (pushLong bus m w).sp = m.sp - 4 := by
      rw [hpushed]
      exact setSp_sp m _
    rw [hmoved, sub_add_cancel]
  have hram : (pushLong bus m w).InRam (m.top - 4) 4 := by
    refine ⟨by omega, ?_, ?_⟩
    · rw [hpushed]
      change m.top - 4 + 4 ≤ m.memSize
      omega
    · rw [hpushed]
      exact hsize
  have hlong : longAt (pushLong bus m w).mem (m.top - 4) =
      if m.top % 2 = 1 then w else wordAt m.mem (m.top - 2) ++ w.setWidth 16 := by
    rw [hpushed]
    change longAt (if m.top % 2 = 1 then _ else _) _ = _
    by_cases hodd : m.top % 2 = 1
    · rw [if_pos hodd, if_pos hodd, longAt_storeLong]
    · rw [if_neg hodd, if_neg hodd]
      unfold longAt
      rw [wordAt_storeWord, show m.top - 4 + 2 = m.top - 2 by omega]
      refine congrArg (· ++ w.setWidth 16) (wordAt_congr fun x hx => ?_)
      rw [Span.mem_mk] at hx
      exact storeWord_of_ne _ (by rw [Span.mem_mk]; omega)
  unfold popLong
  rw [htop', sysRdl_ram hram, hlong]
  dsimp only
  rw [hsp']

theorem popLong_pushLong_even :
    popLong noAdapter (pushLong noAdapter (emptyStack 0x100) 0x12345678) =
      (0x5678, (pushLong noAdapter (emptyStack 0x100) 0x12345678).setSp 0x100) :=
  popLong_pushLong noAdapter 0x12345678 (by decide) (by decide) (by decide)

/-! ## Pushes and pops in any order -/

inductive StackCall where
  | push (w : BitVec 16)
  | pop
  deriving DecidableEq

/-- What the pops answer, and the machine. -/
def stackRun (bus : Bus δ) (m : SysEnv δ) : List StackCall → List (BitVec 16) × SysEnv δ
  | [] => ([], m)
  | .push w :: calls => stackRun bus (pushWord bus m w) calls
  | .pop :: calls =>
      let (w, m) := popWord bus m
      let (ws, m) := stackRun bus m calls
      (w :: ws, m)

/-- The same on a list that has room for some more words. -/
def listRun (free : Nat) (ws : List (BitVec 16)) :
    List StackCall → Option (List (BitVec 16) × List (BitVec 16))
  | [] => some ([], ws)
  | .push w :: calls => if free = 0 then none else listRun (free - 1) (w :: ws) calls
  | .pop :: calls =>
      match ws with
      | [] => none
      | w :: ws => (listRun (free + 1) ws calls).map fun r => (w :: r.1, r.2)

/-- Only SP and a part of the memory have changed. -/
structure StackFrame (lo hi : Nat) (m m' : SysEnv δ) : Prop where
  regs : m'.x86 = m.x86.setWord .SP m'.sp
  adapter : m'.adapter = m.adapter
  memSize : m'.memSize = m.memSize
  mem : ∀ x, x < lo ∨ hi ≤ x → m'.mem x = m.mem x

theorem StackFrame.refl (lo hi : Nat) (m : SysEnv δ) : StackFrame lo hi m m :=
  ⟨(X86Regs.setWord_word m.x86 .SP).symm, rfl, rfl, fun _ _ => rfl⟩

theorem StackFrame.trans {lo hi : Nat} {m m' m'' : SysEnv δ} (h : StackFrame lo hi m m')
    (h' : StackFrame lo hi m' m'') : StackFrame lo hi m m'' where
  regs := by
    rw [h'.regs, h.regs, X86Regs.setWord_setWord]
  adapter := h'.adapter.trans h.adapter
  memSize := h'.memSize.trans h.memSize
  mem x hx := (h'.mem x hx).trans (h.mem x hx)

theorem stackFrame_setSp (lo hi : Nat) (m : SysEnv δ) (v : BitVec 16) :
    StackFrame lo hi m (m.setSp v) where
  regs := by
    rw [setSp_sp]
    rfl
  adapter := rfl
  memSize := rfl
  mem _ _ := rfl

theorem stackFrame_pushWord {m : SysEnv δ} (w : BitVec 16) {lo hi : Nat} (hlo : lo + 2 ≤ m.top)
    (hhi : m.top ≤ hi) (hsp : 2 ≤ m.sp.toNat) (hbelow : m.top ≤ min 0xa0000 m.memSize)
    (hsize : m.memSize < 2 ^ 64) : StackFrame lo hi m (pushWord bus m w) := by
  rw [pushWord_ram bus w hsp hbelow hsize]
  refine ⟨?_, rfl, rfl, fun x hx => storeWord_of_ne _ ?_⟩
  · have hsp' : ((m.setSp (m.sp - 2)).setMem (storeWord m.mem (m.top - 2) w)).sp =
        m.sp - 2 := setSp_sp m _
    rw [hsp']
    rfl
  · rw [Span.mem_mk]
    omega

/-- A stack does what the list does, as long as the list has a word for a pop and room for
a push. -/
theorem stackRun_refines {m : SysEnv δ} {ws ws' out : List (BitVec 16)} {free lo hi : Nat}
    {calls : List StackCall} (h : OnStack m ws) (hfree : 2 * free ≤ m.sp.toNat)
    (hlo : lo + 2 * free ≤ m.top) (hhi : m.top + 2 * ws.length ≤ hi)
    (hrun : listRun free ws calls = some (out, ws')) :
    (stackRun bus m calls).1 = out ∧ OnStack (stackRun bus m calls).2 ws' ∧
      StackFrame lo hi m (stackRun bus m calls).2 := by
  induction calls generalizing m ws out free with
  | nil =>
      obtain ⟨rfl, rfl⟩ := Prod.mk.inj (Option.some.inj hrun)
      exact ⟨rfl, h, StackFrame.refl ..⟩
  | cons call calls ih =>
      have hbelow := h.below
      have htop := top_eq m
      cases call with
      | push w =>
          rw [listRun] at hrun
          by_cases hroom : free = 0
          · rw [if_pos hroom] at hrun
            exact absurd hrun (by simp)
          rw [if_neg hroom] at hrun
          obtain ⟨hsp', htop'⟩ := pushWord_top bus w (by omega) (by omega) h.size
          have hframe := stackFrame_pushWord bus w (show lo + 2 ≤ m.top by omega)
            (show m.top ≤ hi by omega) (by omega) (by omega) h.size
          obtain ⟨hout, hstack, hrest⟩ := ih (h.push bus (by omega) w) (by omega)
            (by omega) (by rw [List.length_cons]; omega) hrun
          exact ⟨hout, hstack, hframe.trans hrest⟩
      | pop =>
          cases ws with
          | nil => exact absurd hrun (by simp [listRun])
          | cons w ws =>
              obtain ⟨⟨out, last⟩, hlater, heq⟩ := Option.map_eq_some_iff.mp hrun
              obtain ⟨rfl, rfl⟩ := Prod.mk.inj heq
              obtain ⟨hsp', htop'⟩ := h.setSp_top
              obtain ⟨hpop, hstack⟩ := h.pop bus
              rw [List.length_cons] at hhi
              obtain ⟨hout, hlast, hrest⟩ := ih hstack (show 2 * (free + 1) ≤ _ by omega) (by omega)
                (by omega) hlater
              rw [stackRun, hpop]
              exact ⟨congrArg (w :: ·) hout, hlast, (stackFrame_setSp ..).trans hrest⟩

theorem stackRun_refines_twoPushes :
    (stackRun noAdapter (emptyStack 0x100) [.push 7, .push 9, .pop, .pop]).1 = [9, 7] ∧
      OnStack (stackRun noAdapter (emptyStack 0x100) [.push 7, .push 9, .pop, .pop]).2 [] ∧
      StackFrame 0xfc 0x100 (emptyStack 0x100)
        (stackRun noAdapter (emptyStack 0x100) [.push 7, .push 9, .pop, .pop]).2 :=
  stackRun_refines noAdapter
    (show OnStack (emptyStack 0x100) [] from ⟨by decide, by decide, by decide, trivial⟩)
    (show 2 * 2 ≤ _ by decide) (by decide) (by decide) rfl

end

end Milo.X86
