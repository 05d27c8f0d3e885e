import Milo.X86.Decode

/-! # Calls and interrupts

Calls, interrupts and the instructions that end them, with the stack between them. An
interrupt that the processor raises itself takes the two words of its vector the other
way round than an `INT`.
-/

namespace Milo.X86

open Foundation SysEnv

section
variable {δ : Type} (bus : Bus δ)

/-! ## All registers -/

/-- `x86op_push_all`, of words. -/
def x86opPushAll (m : SysEnv δ) : SysEnv δ :=
  let oldSp := m.sp
  let m := pushWord bus m (m.x86.word .A)
  let m := pushWord bus m (m.x86.word .C)
  let m := pushWord bus m (m.x86.word .D)
  let m := pushWord bus m (m.x86.word .B)
  let m := pushWord bus m oldSp
  let m := pushWord bus m (m.x86.word .BP)
  let m := pushWord bus m (m.x86.word .SI)
  let m := pushWord bus m (m.x86.word .DI)
  m.clearSegovr

/-- `r = pop_word(m)` -/
def popTo (r : Reg) (m : SysEnv δ) : SysEnv δ :=
  let (w, m) := popWord bus m
  m.onRegs fun x => x.setWord r w

/-- `x86op_pop_all`, of words. -/
def x86opPopAll (m : SysEnv δ) : SysEnv δ :=
  let m := popTo bus .DI m
  let m := popTo bus .SI m
  let m := popTo bus .BP m
  let m := m.setSp (m.sp + 2)
  let m := popTo bus .B m
  let m := popTo bus .D m
  let m := popTo bus .C m
  let m := popTo bus .A m
  m.clearSegovr

/-! ## Calls -/

def setCs (m : SysEnv δ) (v : BitVec 16) : SysEnv δ := m.onRegs fun r => { r with cs := v }

def setIp (m : SysEnv δ) (v : BitVec 16) : SysEnv δ := m.onRegs fun r => r.setIp v

/-- `x86op_call_near_IMM` -/
def x86opCallNear (m : SysEnv δ) : SysEnv δ :=
  let (ip, m) := fetchWordImm bus m
  let ip := signedSum [ip, m.x86.ipWord]
  let m := pushWord bus m m.x86.ipWord
  (setIp m ip).clearSegovr

/-- `x86op_ret_near` -/
def x86opRetNear (m : SysEnv δ) : SysEnv δ :=
  let (ip, m) := popWord bus m
  (setIp m ip).clearSegovr

/-- `x86op_call_far_IMM` -/
def x86opCallFar (m : SysEnv δ) : SysEnv δ :=
  let (faroff, m) := fetchWordImm bus m
  let (farseg, m) := fetchWordImm bus m
  let m := pushWord bus m m.x86.cs
  let m := setCs m farseg
  let m := pushWord bus m m.x86.ipWord
  (setIp m faroff).clearSegovr

/-- `x86op_ret_far` -/
def x86opRetFar (m : SysEnv δ) : SysEnv δ :=
  let (ip, m) := popWord bus m
  let m := setIp m ip
  let (cs, m) := popWord bus m
  (setCs m cs).clearSegovr

/-! ## Interrupts -/

/-- `mem_access_word` -/
def memAccessWord (m : SysEnv δ) (addr : Nat) : BitVec 16 × SysEnv δ := sysRdw bus m addr

/-- What an interrupt does with the stack and the registers, if the words at two addresses
are where it goes to. -/
def enterInterrupt (csAt ipAt : Nat) (m : SysEnv δ) : SysEnv δ :=
  let tmp := m.x86.flags.setWidth 16
  let m := pushWord bus m tmp
  let m := m.onRegs fun r => (r.clearFlag .IF).clearFlag .TF
  let m := pushWord bus m m.x86.cs
  let (tmp, m) := memAccessWord bus m csAt
  let m := setCs m tmp
  let m := pushWord bus m m.x86.ipWord
  let (tmp, m) := memAccessWord bus m ipAt
  setIp m tmp

def biosSeg : BitVec 16 := 0xfff0

/-- An interrupt of the program: one whose segment is the BIOS' is a function of the
emulator. -/
def softInterrupt (bios : BitVec 8 → SysEnv δ → SysEnv δ) (intnum : BitVec 8) (m : SysEnv δ) :
    SysEnv δ :=
  let (tmp, m) := memAccessWord bus m (intnum.toNat * 4 + 2)
  if tmp = biosSeg then bios intnum m
  else enterInterrupt bus (intnum.toNat * 4 + 2) (intnum.toNat * 4) m

variable (bios : BitVec 8 → SysEnv δ → SysEnv δ)

/-- `x86op_int3` -/
def x86opInt3 (m : SysEnv δ) : SysEnv δ := (softInterrupt bus bios 3 m).clearSegovr

/-- `x86op_int_IMM` -/
def x86opIntImm (m : SysEnv δ) : SysEnv δ :=
  let (intnum, m) := fetchByteImm bus m
  (softInterrupt bus bios intnum m).clearSegovr

/-- `x86op_into` -/
def x86opInto (m : SysEnv δ) : SysEnv δ :=
  if m.x86.accessFlag .OF then (softInterrupt bus bios 4 m).clearSegovr else m.clearSegovr

/-- `x86op_iret` -/
def x86opIret (m : SysEnv δ) : SysEnv δ :=
  let (ip, m) := popWord bus m
  let m := setIp m ip
  let (cs, m) := popWord bus m
  let m := setCs m cs
  let (flags, m) := popWord bus m
  (m.onRegs fun r => { r with flags := flags.setWidth 32 }).clearSegovr

/-- `x86_intr_raise` -/
def x86IntrRaise (m : X86Regs) (intrnum : BitVec 8) : X86Regs :=
  { m with intno := intrnum, intr := m.intr ||| 0x1 }

/-- `x86_intr_handle`: the segment is the first word of the vector here, and what has been
raised stays raised. -/
def x86IntrHandle (m : SysEnv δ) : SysEnv δ :=
  if m.x86.intr &&& 0x1 ≠ 0 then
    enterInterrupt bus (m.x86.intno.toNat * 4) (m.x86.intno.toNat * 4 + 2) m
  else m

/-! ## What is on the stack -/

variable {m m' m₀ : SysEnv δ} {ws pushed : List (BitVec 16)}

theorem OnStack.congr (h : OnStack m ws) (hsp : m'.sp = m.sp) (hss : m'.x86.ss = m.x86.ss)
    (hsize : m'.memSize = m.memSize) (hmem : m'.mem = m.mem) : OnStack m' ws := by
  have htop : m'.top = m.top := by rw [top_eq, top_eq, hss, hsp]
  refine ⟨?_, ?_, ?_, ?_⟩
  · rw [hsp]
    exact h.segment
  · rw [htop, hsize]
    exact h.below
  · rw [hsize]
    exact h.size
  · rw [hmem, htop]
    exact h.stored

/-- Words have been pushed and nothing else in the memory has changed. -/
structure Pushed (m₀ : SysEnv δ) (ws pushed : List (BitVec 16)) (m : SysEnv δ) : Prop where
  stack : OnStack m (pushed ++ ws)
  sp : m.sp.toNat + 2 * pushed.length = m₀.sp.toNat
  top : m.top + 2 * pushed.length = m₀.top
  mem : ∀ x, x < m.top ∨ m₀.top ≤ x → m.mem x = m₀.mem x

theorem Pushed.refl (h : OnStack m ws) : Pushed m ws [] m := ⟨h, rfl, rfl, fun _ _ => rfl⟩

theorem Pushed.frame (h : Pushed m₀ ws pushed m) (hsp : 2 ≤ m.sp.toNat) (w : BitVec 16) :
    StackFrame (m.top - 2) m.top m (pushWord bus m w) := by
  have hlow := top_eq m
  have hbelow := h.stack.below
  exact stackFrame_pushWord bus w (by omega) (Nat.le_refl _) hsp (by omega) h.stack.size

theorem Pushed.push (h : Pushed m₀ ws pushed m) (hsp : 2 ≤ m.sp.toNat) (w : BitVec 16) :
    Pushed m₀ ws (w :: pushed) (pushWord bus m w) := by
  have hbelow := h.stack.below
  have hsp₀ := h.sp
  have htop₀ := h.top
  have hframe := h.frame bus hsp w
  obtain ⟨hsp', htop'⟩ := pushWord_top bus w hsp (by omega) h.stack.size
  refine ⟨h.stack.push bus hsp w, ?_, ?_, fun x hx => ?_⟩
  · rw [List.length_cons]
    omega
  · rw [List.length_cons]
    omega
  · rw [hframe.mem x (by omega)]
    exact h.mem x (by omega)

/-- The registers that a push leaves. -/
theorem Pushed.regs (h : Pushed m₀ ws pushed m) (hsp : 2 ≤ m.sp.toNat) (w : BitVec 16) :
    (pushWord bus m w).x86.cs = m.x86.cs ∧ (pushWord bus m w).x86.ipWord = m.x86.ipWord ∧
      (pushWord bus m w).x86.flags = m.x86.flags ∧ (pushWord bus m w).x86.intr = m.x86.intr := by
  rw [(h.frame bus hsp w).regs]
  exact ⟨rfl, rfl, rfl, rfl⟩

theorem Pushed.onRegs (h : Pushed m₀ ws pushed m) {f : X86Regs → X86Regs}
    (hsp : (f m.x86).word .SP = m.x86.word .SP) (hss : (f m.x86).ss = m.x86.ss) :
    Pushed m₀ ws pushed (m.onRegs f) := by
  have hsp' : (m.onRegs f).sp = m.sp := hsp
  have hss' : (m.onRegs f).x86.ss = m.x86.ss := hss
  have htop : (m.onRegs f).top = m.top := by rw [top_eq, top_eq, hsp', hss']
  refine ⟨h.stack.congr hsp' hss' rfl rfl, ?_, ?_, ?_⟩
  · rw [hsp']
    exact h.sp
  · rw [htop]
    exact h.top
  · rw [htop]
    exact h.mem

/-- A word in front of the stack is still the old one. -/
theorem Pushed.access (h : Pushed m₀ ws pushed m) {addr : Nat} (haddr : addr + 2 ≤ m.top) :
    memAccessWord bus m addr = (wordAt m₀.mem addr, m) := by
  have hbelow := h.stack.below
  have hram : m.InRam addr 2 := ⟨by omega, by omega, h.stack.size⟩
  unfold memAccessWord
  rw [sysRdw_ram hram]
  refine congrArg (·, m) (wordAt_congr fun x hx => h.mem x ?_)
  rw [Foundation.Span.mem_mk] at hx
  omega

/-! ## To an interrupt and back -/

/-- An interrupt has gone to `cs:ip`, and what it came from is on the stack. -/
structure Entered (m : SysEnv δ) (ws : List (BitVec 16)) (cs ip : BitVec 16) (m' : SysEnv δ) :
    Prop where
  pushed : Pushed m ws [m.x86.ipWord, m.x86.cs, m.x86.flags.setWidth 16] m'
  cs : m'.x86.cs = cs
  ip : m'.x86.ipWord = ip
  flags : m'.x86.flags = ((m.x86.clearFlag .IF).clearFlag .TF).flags
  intr : m'.x86.intr = m.x86.intr

theorem ipWord_setIp (r : X86Regs) (v : BitVec 16) : (r.setIp v).ipWord = v := xReg_setXReg ..

theorem enterInterrupt_entered (csAt ipAt : Nat) (h : OnStack m ws) (hsp : 6 ≤ m.sp.toNat)
    (hcs : csAt + 8 ≤ m.top) (hip : ipAt + 8 ≤ m.top) :
    Entered m ws (wordAt m.mem csAt) (wordAt m.mem ipAt) (enterInterrupt bus csAt ipAt m) := by
  have h₀ := Pushed.refl h
  have h₁ := h₀.push bus (by omega) (m.x86.flags.setWidth 16)
  obtain ⟨hcs₁, hip₁, hflags₁, hintr₁⟩ := h₀.regs bus (by omega) (m.x86.flags.setWidth 16)
  unfold enterInterrupt
  dsimp only
  generalize pushWord bus m (m.x86.flags.setWidth 16) = m₁ at *
  have h₂ := h₁.onRegs (f := fun r => (r.clearFlag .IF).clearFlag .TF) rfl rfl
  have hcs₂ : (m₁.onRegs fun r => (r.clearFlag .IF).clearFlag .TF).x86.cs = m.x86.cs := hcs₁
  have hip₂ : (m₁.onRegs fun r => (r.clearFlag .IF).clearFlag .TF).x86.ipWord = m.x86.ipWord :=
    hip₁
  have hflags₂ : (m₁.onRegs fun r => (r.clearFlag .IF).clearFlag .TF).x86.flags =
      ((m.x86.clearFlag .IF).clearFlag .TF).flags :=
    congrArg (fun v => (v &&& ~~~Flag.IF.mask) &&& ~~~Flag.TF.mask) hflags₁
  have hintr₂ : (m₁.onRegs fun r => (r.clearFlag .IF).clearFlag .TF).x86.intr = m.x86.intr :=
    hintr₁
  generalize m₁.onRegs (fun r => (r.clearFlag .IF).clearFlag .TF) = m₂ at *
  have hsp₂ := h₂.sp
  rw [List.length_singleton] at hsp₂
  rw [hcs₂]
  have h₃ := h₂.push bus (by omega) m.x86.cs
  obtain ⟨-, hip₃, hflags₃, hintr₃⟩ := h₂.regs bus (by omega) m.x86.cs
  generalize pushWord bus m₂ m.x86.cs = m₃ at *
  have hsp₃ := h₃.sp
  have htop₃ := h₃.top
  rw [List.length_cons, List.length_singleton] at hsp₃ htop₃
  rw [h₃.access bus (show csAt + 2 ≤ m₃.top by omega)]
  dsimp only
  have h₄ : Pushed m ws [m.x86.cs, m.x86.flags.setWidth 16] (setCs m₃ (wordAt m.mem csAt)) :=
    h₃.onRegs rfl rfl
  have hip₄ : (setCs m₃ (wordAt m.mem csAt)).x86.ipWord = m.x86.ipWord := hip₃.trans hip₂
  have hsp₄ : 2 ≤ (setCs m₃ (wordAt m.mem csAt)).sp.toNat := by
    change 2 ≤ m₃.sp.toNat
    omega
  rw [hip₄]
  have h₅ := h₄.push bus hsp₄ m.x86.ipWord
  obtain ⟨hcs₅, -, hflags₅, hintr₅⟩ := h₄.regs bus hsp₄ m.x86.ipWord
  generalize pushWord bus (setCs m₃ (wordAt m.mem csAt)) m.x86.ipWord = m₅ at *
  have htop₅ := h₅.top
  rw [List.length_cons, List.length_cons, List.length_singleton] at htop₅
  rw [h₅.access bus (show ipAt + 2 ≤ m₅.top by omega)]
  exact ⟨h₅.onRegs rfl rfl, hcs₅, ipWord_setIp .., hflags₅.trans (hflags₃.trans hflags₂),
    hintr₅.trans (hintr₃.trans hintr₂)⟩

/-- The processor is at `cs:ip` with this stack pointer, and the words are on the stack. -/
structure Returned (ws : List (BitVec 16)) (sp cs ip : BitVec 16) (m' : SysEnv δ) : Prop where
  stack : OnStack m' ws
  sp : m'.sp = sp
  cs : m'.x86.cs = cs
  ip : m'.x86.ipWord = ip

/-- The two words that a far return takes off. -/
theorem OnStack.popFar {cs ip : BitVec 16} (h : OnStack m (ip :: cs :: ws)) :
    popWord bus m = (ip, m.setSp (m.sp + 2)) ∧
      ∃ m', popWord bus (setIp (m.setSp (m.sp + 2)) ip) = (cs, m') ∧ OnStack m' ws ∧
        m'.sp = m.sp + 4 ∧ m'.x86.ipWord = ip := by
  obtain ⟨hpop₁, h₁⟩ := h.pop bus
  have h₂ : OnStack (setIp (m.setSp (m.sp + 2)) ip) (cs :: ws) := h₁.congr rfl rfl rfl rfl
  have hsp₂ : (setIp (m.setSp (m.sp + 2)) ip).sp + 2 = m.sp + 4 := by
    change (m.setSp (m.sp + 2)).sp + 2 = _
    rw [setSp_sp, BitVec.add_assoc]
    rfl
  obtain ⟨hpop₂, h₃⟩ := h₂.pop bus
  rw [hsp₂] at hpop₂ h₃
  exact ⟨hpop₁, _, hpop₂, h₃, setSp_sp .., ipWord_setIp ..⟩

/-- `IRET` takes the three words off, whatever has run before it. -/
theorem iret_returned {cs ip flags : BitVec 16} (h : OnStack m (ip :: cs :: flags :: ws)) :
    Returned ws (m.sp + 6) cs ip (x86opIret bus m) ∧
      (x86opIret bus m).x86.flags = flags.setWidth 32 := by
  obtain ⟨hpop₁, m₃, hpop₂, h₃, hsp₃, hip₃⟩ := h.popFar bus
  have h₄ : OnStack (setCs m₃ cs) (flags :: ws) := h₃.congr rfl rfl rfl rfl
  have hsp₄ : (setCs m₃ cs).sp + 2 = m.sp + 6 := by
    change m₃.sp + 2 = _
    rw [hsp₃, BitVec.add_assoc]
    rfl
  obtain ⟨hpop₄, h₅⟩ := h₄.pop bus
  rw [hsp₄] at hpop₄ h₅
  unfold x86opIret
  rw [hpop₁]
  dsimp only
  rw [hpop₂]
  dsimp only
  rw [hpop₄]
  have hsp₅ : ((setCs m₃ cs).setSp (m.sp + 6)).sp = m.sp + 6 := setSp_sp ..
  have hcs₅ : ((setCs m₃ cs).setSp (m.sp + 6)).x86.cs = cs := rfl
  have hip₅ : ((setCs m₃ cs).setSp (m.sp + 6)).x86.ipWord = ip := hip₃
  generalize (setCs m₃ cs).setSp (m.sp + 6) = m₅ at *
  exact ⟨⟨h₅.congr rfl rfl rfl rfl, hsp₅, hcs₅, hip₅⟩, rfl⟩

theorem Pushed.sp_add (h : Pushed m₀ ws pushed m) :
    m.sp + BitVec.ofNat 16 (2 * pushed.length) = m₀.sp := by
  have hsp := h.sp
  have hlt := m₀.sp.isLt
  apply BitVec.eq_of_toNat_eq
  rw [BitVec.toNat_add, BitVec.toNat_ofNat, Nat.mod_eq_of_lt (show 2 * pushed.length < _ by omega),
    hsp, Nat.mod_eq_of_lt hlt]

/-- Behind an interrupt `IRET` leads back. -/
theorem Entered.returned {cs ip : BitVec 16} (h : Entered m ws cs ip m') :
    Returned ws m.sp m.x86.cs m.x86.ipWord (x86opIret bus m') ∧
      (x86opIret bus m').x86.flags = (m.x86.flags.setWidth 16).setWidth 32 := by
  have hback := iret_returned bus h.pushed.stack
  rwa [show m'.sp + 6 = m.sp from h.pushed.sp_add] at hback

/-- An interrupt that is not the emulator's goes to the segment in the second word of its
vector, one that the processor has raised to the segment in the first; the latter stays
raised. An `IRET` behind each leads back. -/
theorem interrupts_return (h : OnStack m ws) (hsp : 6 ≤ m.sp.toNat) (htop : 1024 + 6 ≤ m.top) :
    (∀ intnum : BitVec 8, wordAt m.mem (intnum.toNat * 4 + 2) ≠ biosSeg →
      Entered m ws (wordAt m.mem (intnum.toNat * 4 + 2)) (wordAt m.mem (intnum.toNat * 4))
          (softInterrupt bus bios intnum m) ∧
        Returned ws m.sp m.x86.cs m.x86.ipWord
          (x86opIret bus (softInterrupt bus bios intnum m)) ∧
        (x86opIret bus (softInterrupt bus bios intnum m)).x86.flags =
          (m.x86.flags.setWidth 16).setWidth 32) ∧
    (m.x86.intr &&& 0x1 ≠ 0 →
      Entered m ws (wordAt m.mem (m.x86.intno.toNat * 4))
          (wordAt m.mem (m.x86.intno.toNat * 4 + 2)) (x86IntrHandle bus m) ∧
        Returned ws m.sp m.x86.cs m.x86.ipWord (x86opIret bus (x86IntrHandle bus m)) ∧
        (x86opIret bus (x86IntrHandle bus m)).x86.flags =
          (m.x86.flags.setWidth 16).setWidth 32) := by
  refine ⟨fun intnum hbios => ?_, fun hraised => ?_⟩
  · have hvector := intnum.isLt
    have haccess := (Pushed.refl h).access bus (show intnum.toNat * 4 + 2 + 2 ≤ m.top by omega)
    have hentered := enterInterrupt_entered bus (intnum.toNat * 4 + 2)
      (intnum.toNat * 4) h hsp (by omega) (by omega)
    have hsoft : softInterrupt bus bios intnum m =
        enterInterrupt bus (intnum.toNat * 4 + 2) (intnum.toNat * 4) m := by
      unfold softInterrupt
      rw [haccess]
      exact if_neg hbios
    rw [hsoft]
    exact ⟨hentered, hentered.returned bus⟩
  · have hvector := m.x86.intno.isLt
    have hentered := enterInterrupt_entered bus (m.x86.intno.toNat * 4)
      (m.x86.intno.toNat * 4 + 2) h hsp (by omega) (by omega)
    have hhandled : x86IntrHandle bus m =
        enterInterrupt bus (m.x86.intno.toNat * 4) (m.x86.intno.toNat * 4 + 2) m := if_pos hraised
    rw [hhandled]
    exact ⟨hentered, hentered.returned bus⟩

/-- A memory whose bytes count, and interrupt 3 raised. -/
def raisedThree : SysEnv Unit :=
  { emptyStack 0x800 with
    mem := fun x => BitVec.ofNat 8 x
    x86 := x86IntrRaise (emptyStack 0x800).x86 3 }

theorem onStack_raisedThree : OnStack raisedThree [] := ⟨by decide, by decide, by decide, trivial⟩

theorem interrupts_return_three :
    Entered raisedThree [] 0x0f0e 0x0d0c
        (softInterrupt noAdapter (fun _ m => m) 3 raisedThree) ∧
      Entered raisedThree [] 0x0d0c 0x0f0e (x86IntrHandle noAdapter raisedThree) :=
  have hboth := interrupts_return noAdapter (fun _ m => m) onStack_raisedThree (by decide)
    (by decide)
  ⟨(hboth.1 3 (by decide)).1, (hboth.2 (by decide)).1⟩

/-! ## To a procedure and back -/

/-- What stands behind the opcode may be the adapter's, the stack is not. -/
theorem OnStack.fetch (h : OnStack m ws) :
    OnStack (fetchWordImm bus m).2 ws ∧ (fetchWordImm bus m).2.sp = m.sp ∧
      (fetchWordImm bus m).2.x86.cs = m.x86.cs ∧
      (fetchWordImm bus m).2.x86.ipWord = m.x86.ipWord + 2 := by
  obtain ⟨d, i, hsame⟩ := memRead_same bus m (address m.x86.cs m.x86.ipWord) .word
  have hfetched : (fetchWordImm bus m).2 =
      SysEnv.onRegs { m with adapter := d, x86 := { m.x86 with intr := i } }
        fun r => r.setIp (r.ipWord + 2) :=
    congrArg (fun m' => m'.onRegs fun r => r.setIp (r.ipWord + 2)) hsame
  rw [hfetched]
  exact ⟨h.congr rfl rfl rfl rfl, rfl, rfl, ipWord_setIp ..⟩

theorem callNear_pushed (h : OnStack m ws) (hsp : 2 ≤ m.sp.toNat) :
    OnStack (x86opCallNear bus m) ((m.x86.ipWord + 2) :: ws) ∧
      (x86opCallNear bus m).sp + 2 = m.sp ∧ (x86opCallNear bus m).x86.cs = m.x86.cs := by
  obtain ⟨h₁, hsp₁, hcs₁, hip₁⟩ := h.fetch bus
  unfold x86opCallNear
  dsimp only
  rw [hip₁]
  generalize (fetchWordImm bus m).2 = m₁ at *
  have hroom : 2 ≤ m₁.sp.toNat := by rwa [hsp₁]
  have h₂ := (Pushed.refl h₁).push bus hroom (m.x86.ipWord + 2)
  obtain ⟨hcs₂, -⟩ := (Pushed.refl h₁).regs bus hroom (m.x86.ipWord + 2)
  generalize pushWord bus m₁ (m.x86.ipWord + 2) = m₂ at *
  have hsp₂ : m₂.sp + 2 = m₁.sp := h₂.sp_add
  exact ⟨h₂.stack.congr rfl rfl rfl rfl, hsp₂.trans hsp₁, hcs₂.trans hcs₁⟩

theorem callFar_pushed (h : OnStack m ws) (hsp : 4 ≤ m.sp.toNat) :
    OnStack (x86opCallFar bus m) ((m.x86.ipWord + 4) :: m.x86.cs :: ws) ∧
      (x86opCallFar bus m).sp + 4 = m.sp := by
  obtain ⟨h₁, hsp₁, hcs₁, hip₁⟩ := h.fetch bus
  unfold x86opCallFar
  dsimp only
  generalize (fetchWordImm bus m).2 = m₁ at *
  obtain ⟨h₂, hsp₂, hcs₂, hip₂⟩ := h₁.fetch bus
  rw [hcs₂, hcs₁]
  generalize fetchWordImm bus m₁ = fetched at *
  obtain ⟨farseg, m₂⟩ := fetched
  dsimp only at *
  have hip : m₂.x86.ipWord = m.x86.ipWord + 4 := by
    rw [hip₂, hip₁, BitVec.add_assoc]
    rfl
  have hroom₂ : 4 ≤ m₂.sp.toNat := by rwa [hsp₂, hsp₁]
  have h₃ := (Pushed.refl h₂).push bus (by omega) m.x86.cs
  obtain ⟨-, hip₃, -⟩ := (Pushed.refl h₂).regs bus (by omega) m.x86.cs
  generalize pushWord bus m₂ m.x86.cs = m₃ at *
  have hsp₃ := h₃.sp
  rw [List.length_singleton] at hsp₃
  have h₄ : Pushed m₂ ws [m.x86.cs] (setCs m₃ farseg) := h₃.onRegs rfl rfl
  have hip₄ : (setCs m₃ farseg).x86.ipWord = m.x86.ipWord + 4 := hip₃.trans hip
  have hroom₄ : 2 ≤ (setCs m₃ farseg).sp.toNat := by
    change 2 ≤ m₃.sp.toNat
    omega
  rw [hip₄]
  have h₅ := h₄.push bus hroom₄ (m.x86.ipWord + 4)
  generalize pushWord bus (setCs m₃ farseg) (m.x86.ipWord + 4) = m₅ at *
  have hsp₅ : m₅.sp + 4 = m₂.sp := h₅.sp_add
  exact ⟨h₅.stack.congr rfl rfl rfl rfl, hsp₅.trans (hsp₂.trans hsp₁)⟩

theorem retNear_returned {ip : BitVec 16} (h : OnStack m (ip :: ws)) :
    Returned ws (m.sp + 2) m.x86.cs ip (x86opRetNear bus m) := by
  obtain ⟨hpop, hrest⟩ := h.pop bus
  unfold x86opRetNear
  rw [hpop]
  have hsp : (m.setSp (m.sp + 2)).sp = m.sp + 2 := setSp_sp ..
  have hcs : (m.setSp (m.sp + 2)).x86.cs = m.x86.cs := rfl
  generalize m.setSp (m.sp + 2) = m₁ at *
  exact ⟨hrest.congr rfl rfl rfl rfl, hsp, hcs, ipWord_setIp m₁.x86 ip⟩

theorem retFar_returned {cs ip : BitVec 16} (h : OnStack m (ip :: cs :: ws)) :
    Returned ws (m.sp + 4) cs ip (x86opRetFar bus m) := by
  obtain ⟨hpop₁, m₃, hpop₂, h₃, hsp₃, hip₃⟩ := h.popFar bus
  unfold x86opRetFar
  rw [hpop₁]
  dsimp only
  rw [hpop₂]
  exact ⟨h₃.congr rfl rfl rfl rfl, hsp₃, rfl, hip₃⟩

/-- A call leaves the address behind it on the stack, and the return that belongs to it leads
there, with the stack as it was. -/
theorem calls_return (h : OnStack m ws) (hsp : 4 ≤ m.sp.toNat) :
    (OnStack (x86opCallNear bus m) ((m.x86.ipWord + 2) :: ws) ∧
      Returned ws m.sp m.x86.cs (m.x86.ipWord + 2) (x86opRetNear bus (x86opCallNear bus m))) ∧
    (OnStack (x86opCallFar bus m) ((m.x86.ipWord + 4) :: m.x86.cs :: ws) ∧
      Returned ws m.sp m.x86.cs (m.x86.ipWord + 4) (x86opRetFar bus (x86opCallFar bus m))) := by
  obtain ⟨hnear, hspNear, hcsNear⟩ := callNear_pushed bus h (by omega)
  obtain ⟨hfar, hspFar⟩ := callFar_pushed bus h hsp
  have hretNear := retNear_returned bus hnear
  have hretFar := retFar_returned bus hfar
  rw [hspNear, hcsNear] at hretNear
  rw [hspFar] at hretFar
  exact ⟨⟨hnear, hretNear⟩, hfar, hretFar⟩

theorem calls_return_raisedThree :
    Returned [] 0x800 0 2 (x86opRetNear noAdapter (x86opCallNear noAdapter raisedThree)) ∧
      Returned [] 0x800 0 4 (x86opRetFar noAdapter (x86opCallFar noAdapter raisedThree)) :=
  have hboth := calls_return noAdapter onStack_raisedThree (by decide)
  ⟨hboth.1.2, hboth.2.2⟩

end

end Milo.X86
