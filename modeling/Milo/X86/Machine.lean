import Milo.Foundation.Spans
import Milo.Foundation.Words
import Milo.X86.Regs

/-! # The emulated machine

The registers, the memory of `mem_size` bytes at `mem_base` and the adapter's memory
behind the processor's addresses `0xa0000` to `0xfffff`, which is a device of its own: a
read of it may change it.
-/

namespace Milo.X86

open Foundation

/-- `readb` to `writel` at the addresses of the adapter. -/
structure Bus (δ : Type) where
  readb : δ → Nat → BitVec 8 × δ
  readw : δ → Nat → BitVec 16 × δ
  readl : δ → Nat → BitVec 32 × δ
  writeb : δ → BitVec 8 → Nat → δ
  writew : δ → BitVec 16 → Nat → δ
  writel : δ → BitVec 32 → Nat → δ

structure SysEnv (δ : Type) where
  mem : Nat → BitVec 8
  memSize : Nat
  adapter : δ
  x86 : X86Regs

/-! ## Words of the memory -/

/-- `*(u16 *)` -/
def wordAt (mem : Nat → BitVec 8) (a : Nat) : BitVec 16 := mem (a + 1) ++ mem a

/-- `*(u32 *)` -/
def longAt (mem : Nat → BitVec 8) (a : Nat) : BitVec 32 := wordAt mem (a + 2) ++ wordAt mem a

def storeWord (mem : Nat → BitVec 8) (a : Nat) (v : BitVec 16) : Nat → BitVec 8 :=
  Function.update (Function.update mem a (v.setWidth 8)) (a + 1) ((v >>> 8).setWidth 8)

def storeLong (mem : Nat → BitVec 8) (a : Nat) (v : BitVec 32) : Nat → BitVec 8 :=
  storeWord (storeWord mem a (v.setWidth 16)) (a + 2) ((v >>> 16).setWidth 16)

/-! ## Accesses -/

section
variable {δ : Type} (bus : Bus δ)

/-- `halt_sys` -/
def SysEnv.haltSys (m : SysEnv δ) : SysEnv δ :=
  { m with x86 := { m.x86 with intr := m.x86.intr ||| 0x4 } }

/-- The sizes of an access. -/
inductive Size where
  | byte | word | long
  deriving DecidableEq

def Size.bytes : Size → Nat
  | byte => 1
  | word => 2
  | long => 4

def SysEnv.setMem (m : SysEnv δ) (mem : Nat → BitVec 8) : SysEnv δ := { m with mem := mem }

/-- The adapter's bytes from an address on, the first of them lowest. -/
def readBytes (d : δ) (addr : Nat) : Nat → BitVec 64 × δ
  | 0 => (0, d)
  | n + 1 =>
      let (v, d) := bus.readb d addr
      let (rest, d) := readBytes d (addr + 1) n
      (v.setWidth 64 ||| rest <<< 8, d)

/-- `mem_read` -/
def memRead (m : SysEnv δ) (addr : Nat) (size : Size) : BitVec 64 × SysEnv δ :=
  if 0xa0000 ≤ addr ∧ addr ≤ 0xfffff then
    match size with
    | .byte =>
        let (v, d) := bus.readb m.adapter addr
        (v.setWidth 64, { m with adapter := d })
    | .word =>
        if addr &&& 0x1 ≠ 0 then
          let (v, d) := readBytes bus m.adapter addr 2
          (v, { m with adapter := d })
        else
          let (v, d) := bus.readw m.adapter addr
          (v.setWidth 64, { m with adapter := d })
    | .long =>
        if addr &&& 0x3 ≠ 0 then
          let (v, d) := readBytes bus m.adapter addr 4
          ((v.setWidth 32).signExtend 64, { m with adapter := d })
        else
          let (v, d) := bus.readl m.adapter addr
          (v.setWidth 64, { m with adapter := d })
  else if sub64 m.memSize size.bytes < addr then (0, m.haltSys)
  else
    match size with
    | .byte => ((m.mem addr).setWidth 64, m)
    | .word =>
        if addr &&& 0x1 ≠ 0 then
          ((m.mem addr).setWidth 64 ||| (m.mem (addr + 1)).setWidth 64 <<< 8, m)
        else ((wordAt m.mem addr).setWidth 64, m)
    | .long =>
        if addr &&& 0x3 ≠ 0 then
          (((m.mem addr).setWidth 32 ||| (m.mem (addr + 1)).setWidth 32 <<< 8 |||
              (m.mem (addr + 2)).setWidth 32 <<< 16 |||
              (m.mem (addr + 3)).setWidth 32 <<< 24).signExtend 64, m)
        else ((longAt m.mem addr).setWidth 64, m)

/-- `mem_write`. Three of the four bytes of a long at an address that is not aligned are
written at the same place of the adapter, and of one at an even address of the memory only
the lower half is stored. -/
def memWrite (m : SysEnv δ) (addr : Nat) (val : BitVec 64) (size : Size) : SysEnv δ :=
  let byte i := (val >>> (8 * i)).setWidth 8
  if 0xa0000 ≤ addr ∧ addr ≤ 0xfffff then
    match size with
    | .byte => { m with adapter := bus.writeb m.adapter (byte 0) addr }
    | .word =>
        if addr &&& 0x1 ≠ 0 then
          let d := bus.writeb m.adapter (byte 0) addr
          { m with adapter := bus.writeb d (byte 1) (addr + 1) }
        else { m with adapter := bus.writew m.adapter (val.setWidth 16) addr }
    | .long =>
        if addr &&& 0x3 ≠ 0 then
          let d := bus.writeb m.adapter (byte 0) addr
          let d := bus.writeb d (byte 1) (addr + 1)
          let d := bus.writeb d (byte 2) (addr + 1)
          { m with adapter := bus.writeb d (byte 3) (addr + 1) }
        else { m with adapter := bus.writel m.adapter (val.setWidth 32) addr }
  else if m.memSize ≤ addr then m.haltSys
  else
    match size with
    | .byte => { m with mem := Function.update m.mem addr (byte 0) }
    | .word =>
        if addr &&& 0x1 ≠ 0 then
          let mem := Function.update m.mem addr (byte 0)
          { m with mem := Function.update mem (addr + 1) (byte 1) }
        else { m with mem := storeWord m.mem addr (val.setWidth 16) }
    | .long =>
        if addr &&& 0x1 ≠ 0 then
          let mem := Function.update m.mem addr (byte 0)
          let mem := Function.update mem (addr + 1) (byte 1)
          let mem := Function.update mem (addr + 2) (byte 2)
          { m with mem := Function.update mem (addr + 3) (byte 3) }
        else { m with mem := storeWord m.mem addr (val.setWidth 16) }

def sysRdb (m : SysEnv δ) (addr : Nat) : BitVec 8 × SysEnv δ :=
  let (v, m) := memRead bus m addr .byte
  (v.setWidth 8, m)

def sysRdw (m : SysEnv δ) (addr : Nat) : BitVec 16 × SysEnv δ :=
  let (v, m) := memRead bus m addr .word
  (v.setWidth 16, m)

def sysRdl (m : SysEnv δ) (addr : Nat) : BitVec 32 × SysEnv δ :=
  let (v, m) := memRead bus m addr .long
  (v.setWidth 32, m)

def sysWrb (m : SysEnv δ) (addr : Nat) (val : BitVec 8) : SysEnv δ :=
  memWrite bus m addr (val.setWidth 64) .byte

def sysWrw (m : SysEnv δ) (addr : Nat) (val : BitVec 16) : SysEnv δ :=
  memWrite bus m addr (val.setWidth 64) .word

def sysWrl (m : SysEnv δ) (addr : Nat) (val : BitVec 32) : SysEnv δ :=
  memWrite bus m addr (val.setWidth 64) .long

/-- A read leaves everything but the adapter and what is raised. -/
theorem memRead_same (m : SysEnv δ) (addr : Nat) (size : Size) : ∃ d i,
    (memRead bus m addr size).2 = { m with adapter := d, x86 := { m.x86 with intr := i } } := by
  unfold memRead
  by_cases hadapter : 0xa0000 ≤ addr ∧ addr ≤ 0xfffff
  · rw [if_pos hadapter]
    cases size with
    | byte => exact ⟨_, _, rfl⟩
    | word =>
        by_cases hodd : addr &&& 0x1 ≠ 0
        · exact ⟨_, _, by rw [if_pos hodd]⟩
        · exact ⟨_, _, by rw [if_neg hodd]⟩
    | long =>
        by_cases hodd : addr &&& 0x3 ≠ 0
        · exact ⟨_, _, by rw [if_pos hodd]⟩
        · exact ⟨_, _, by rw [if_neg hodd]⟩
  · rw [if_neg hadapter]
    by_cases hbound : sub64 m.memSize size.bytes < addr
    · rw [if_pos hbound]
      exact ⟨_, _, rfl⟩
    · rw [if_neg hbound]
      refine ⟨m.adapter, m.x86.intr, ?_⟩
      cases size with
      | byte => rfl
      | word =>
          dsimp only
          split <;> rfl
      | long =>
          dsimp only
          split <;> rfl

/-! ## The memory -/

variable {bus}

/-- `n` bytes at the address are in the memory and not in the adapter's. -/
def SysEnv.InRam (m : SysEnv δ) (addr n : Nat) : Prop :=
  addr < 0xa0000 ∧ addr + n ≤ m.memSize ∧ m.memSize < 2 ^ 64

theorem SysEnv.InRam.setMem {m : SysEnv δ} {addr n : Nat} (h : m.InRam addr n)
    (mem : Nat → BitVec 8) : (m.setMem mem).InRam addr n := h

theorem wordAt_eq (mem : Nat → BitVec 8) (a : Nat) :
    ((mem a).setWidth 64 ||| (mem (a + 1)).setWidth 64 <<< 8).setWidth 16 = wordAt mem a := by
  apply BitVec.eq_of_getLsbD_eq
  intro i hi
  simp only [wordAt, BitVec.getLsbD_setWidth, BitVec.getLsbD_or, BitVec.getLsbD_shiftLeft,
    BitVec.getLsbD_append, hi, show i < 64 by omega, show i - 8 < 64 by omega, decide_true,
    Bool.true_and]
  by_cases h : i < 8
  · simp [h]
  · simp [h, BitVec.getLsbD_of_ge (mem a) i (by omega)]

theorem sysRdw_ram {m : SysEnv δ} {addr : Nat} (h : m.InRam addr 2) :
    sysRdw bus m addr = (wordAt m.mem addr, m) := by
  obtain ⟨hlow, hsize, hmax⟩ := h
  unfold sysRdw memRead
  rw [if_neg (by omega), Size.bytes, sub64_of_le hmax (by omega), if_neg (by omega)]
  dsimp only
  split
  · rw [wordAt_eq]
  · simp

theorem longAt_eq (mem : Nat → BitVec 8) (a : Nat) :
    (((mem a).setWidth 32 ||| (mem (a + 1)).setWidth 32 <<< 8 |||
      (mem (a + 2)).setWidth 32 <<< 16 |||
      (mem (a + 3)).setWidth 32 <<< 24).signExtend 64).setWidth 32 = longAt mem a := by
  apply BitVec.eq_of_getLsbD_eq
  intro i hi
  simp only [longAt, wordAt, BitVec.getLsbD_setWidth, BitVec.getLsbD_signExtend,
    BitVec.getLsbD_or, BitVec.getLsbD_shiftLeft, BitVec.getLsbD_append, hi,
    show i < 64 by omega, show i - 8 < 32 by omega, show i - 16 < 32 by omega,
    show i - 24 < 32 by omega, decide_true, Bool.true_and, if_true]
  have hbyte := fun (k j : Nat) (hj : 8 ≤ j) => BitVec.getLsbD_of_ge (mem k) j hj
  by_cases h8 : i < 8
  · simp [h8, show i < 16 by omega, show i < 24 by omega]
  by_cases h16 : i < 16
  · simp [h8, h16, show i < 24 by omega, hbyte a i (by omega)]
  by_cases h24 : i < 24
  · simp [h8, h16, h24, show i - 16 < 8 by omega, hbyte a i (by omega),
      hbyte (a + 1) (i - 8) (by omega)]
  · simp [h8, h16, h24, show ¬i - 16 < 8 by omega, hbyte a i (by omega),
      hbyte (a + 1) (i - 8) (by omega), hbyte (a + 2) (i - 16) (by omega),
      show i - 16 - 8 = i - 24 by omega, Nat.add_assoc]

theorem sysRdl_ram {m : SysEnv δ} {addr : Nat} (h : m.InRam addr 4) :
    sysRdl bus m addr = (longAt m.mem addr, m) := by
  obtain ⟨hlow, hsize, hmax⟩ := h
  unfold sysRdl memRead
  rw [if_neg (by omega), Size.bytes, sub64_of_le hmax (by omega), if_neg (by omega)]
  dsimp only
  split
  · rw [longAt_eq]
  · simp

theorem setWidth_shiftRight_setWidth {w u v : Nat} (k : Nat) (h : k + v ≤ u) (x : BitVec w) :
    (x.setWidth u >>> k).setWidth v = (x >>> k).setWidth v := by
  apply BitVec.eq_of_getLsbD_eq
  intro i hi
  simp [hi, show k + i < u by omega]

theorem sysWrw_ram {m : SysEnv δ} {addr : Nat} (h : m.InRam addr 2) (val : BitVec 16) :
    sysWrw bus m addr val = m.setMem (storeWord m.mem addr val) := by
  obtain ⟨hlow, hsize, -⟩ := h
  have hupper := setWidth_shiftRight_setWidth 8 (show 8 + 8 ≤ 64 by decide) val
  unfold sysWrw memWrite storeWord SysEnv.setMem
  rw [if_neg (by omega), if_neg (by omega)]
  dsimp only
  split
  · simp [hupper]
  · simp

/-- A long at an even address loses its upper half. -/
theorem sysWrl_ram {m : SysEnv δ} {addr : Nat} (h : m.InRam addr 4) (val : BitVec 32) :
    sysWrl bus m addr val =
      m.setMem (if addr % 2 = 1 then storeLong m.mem addr val
        else storeWord m.mem addr (val.setWidth 16)) := by
  obtain ⟨hlow, hsize, -⟩ := h
  have hlower := fun k (hk : k + 8 ≤ 64) => setWidth_shiftRight_setWidth k hk val
  have hhalf := fun (x : BitVec 32) => setWidth_shiftRight_setWidth 8 (show 8 + 8 ≤ 16 by decide) x
  unfold sysWrl memWrite storeLong storeWord SysEnv.setMem
  rw [if_neg (by omega), if_neg (by omega), Nat.and_one_is_mod]
  dsimp only
  by_cases hodd : addr % 2 = 1
  · rw [if_pos (by omega), if_pos hodd]
    simp [hlower 8 (by decide), hlower 16 (by decide), hlower 24 (by decide), hhalf,
      ← BitVec.shiftRight_add]
  · rw [if_neg (by omega), if_neg hodd]
    simp

/-! ## Bytes that are stored -/

theorem storeWord_of_ne {mem : Nat → BitVec 8} {a x : Nat} (v : BitVec 16)
    (h : x ∉ (⟨a, 2⟩ : Span)) : storeWord mem a v x = mem x := by
  rw [Span.mem_mk] at h
  unfold storeWord
  rw [Function.update_of_ne (by omega), Function.update_of_ne (by omega)]

theorem wordAt_storeWord (mem : Nat → BitVec 8) (a : Nat) (v : BitVec 16) :
    wordAt (storeWord mem a v) a = v := by
  have hfirst : storeWord mem a v a = v.setWidth 8 := by
    unfold storeWord
    rw [Function.update_of_ne (by omega), Function.update_self]
  have hnext : storeWord mem a v (a + 1) = (v >>> 8).setWidth 8 := Function.update_self ..
  unfold wordAt
  rw [hfirst, hnext]
  apply BitVec.eq_of_getLsbD_eq
  intro i hi
  rw [BitVec.getLsbD_append]
  by_cases h : i < 8
  · simp [h]
  · simp [h, show i - 8 < 8 by omega, show 8 + (i - 8) = i by omega]

theorem wordAt_congr {mem mem' : Nat → BitVec 8} {a : Nat}
    (h : ∀ x ∈ (⟨a, 2⟩ : Span), mem x = mem' x) : wordAt mem a = wordAt mem' a := by
  unfold wordAt
  rw [h a (Span.mem_mk.mpr (by omega)), h (a + 1) (Span.mem_mk.mpr (by omega))]

theorem longAt_storeLong (mem : Nat → BitVec 8) (a : Nat) (v : BitVec 32) :
    longAt (storeLong mem a v) a = v := by
  unfold longAt storeLong
  have hlow : wordAt (storeWord (storeWord mem a (v.setWidth 16)) (a + 2)
      ((v >>> 16).setWidth 16)) a = v.setWidth 16 := by
    refine Eq.trans (wordAt_congr fun x hx => ?_) (wordAt_storeWord mem a _)
    rw [Span.mem_mk] at hx
    exact storeWord_of_ne _ (by rw [Span.mem_mk]; omega)
  rw [wordAt_storeWord, hlow]
  apply BitVec.eq_of_getLsbD_eq
  intro i hi
  rw [BitVec.getLsbD_append]
  by_cases h : i < 16
  · simp [h]
  · simp [h, show i - 16 < 16 by omega, show 16 + (i - 16) = i by omega]

end

end Milo.X86
