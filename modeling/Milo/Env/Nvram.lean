import Milo.Flash.Eb

/-! # Non-volatile memory

The environment is kept either in the banked memory of the NoName board, which
is reached through two I/O ports, or in the one flash block that starts with the
identification. `nvram_copyin` and `nvram_copyout` are the same two routines for
both.
-/

namespace Milo.Env

open Foundation
open Milo.Flash (FlashChip findNvram flashBlockSize flashBlocks holdsString)

/-! ## The banked memory -/

/-- `NVRAM_ADDRHI` -/
def nvramAddrhi : Nat := 0xC00

/-- `NVRAM_ADDRLO` -/
def nvramAddrlo : Nat := 0x800

/-- `NVRAM_BASE` -/
def nvramBase : Nat := 1024 * 5

/-- 32 banks of 256 bytes, one of which is selected. -/
structure BankedNvram where
  bank : UInt8
  cells : Nat → Nat → UInt8

namespace BankedNvram

def outb (b : UInt8) (port : Nat) (d : BankedNvram) : BankedNvram :=
  if port = nvramAddrhi then { d with bank := b }
  else if nvramAddrlo ≤ port ∧ port < nvramAddrlo + 256 then
    { d with
      cells := fun bank i =>
        if bank = d.bank.toNat ∧ i = port - nvramAddrlo then b else d.cells bank i }
  else d

def inb (port : Nat) (d : BankedNvram) : UInt8 :=
  if nvramAddrlo ≤ port ∧ port < nvramAddrlo + 256 then
    d.cells d.bank.toNat (port - nvramAddrlo)
  else 0xff

/-- The loop of `nvram_copyin`. -/
def copyinFrom : Nat → Nat → Nat → ByteMemory → BankedNvram → ByteMemory × BankedNvram
  | 0, _, _, mem, d => (mem, d)
  | n + 1, offset, dp, mem, d =>
      let d := d.outb (UInt8.ofNat (offset >>> 8 &&& 0x1f)) nvramAddrhi
      let mem := Function.update mem dp (d.inb (nvramAddrlo + (offset &&& 0xff)))
      copyinFrom n (offset + 1) (dp + 1) mem d

/-- The loop of `nvram_copyout`. -/
def copyoutFrom : Nat → Nat → Nat → ByteMemory → BankedNvram → BankedNvram
  | 0, _, _, _, d => d
  | n + 1, offset, dp, mem, d =>
      let d := d.outb (UInt8.ofNat (offset >>> 8 &&& 0x1f)) nvramAddrhi
      let d := d.outb (mem dp) (nvramAddrlo + (offset &&& 0xff))
      copyoutFrom n (offset + 1) (dp + 1) mem d

/-- `nvram_copyin` -/
def copyin (offset dest size : Nat) (mem : ByteMemory) (d : BankedNvram) :
    ByteMemory × BankedNvram :=
  copyinFrom size (offset + nvramBase) dest mem d

/-- `nvram_copyout` -/
def copyout (offset src size : Nat) (mem : ByteMemory) (d : BankedNvram) : BankedNvram :=
  copyoutFrom size (offset + nvramBase) src mem d

/-- The bytes of all banks, one bank after the other. -/
def bytes (d : BankedNvram) : ByteMemory := fun x => d.cells (x / 256) (x % 256)

/-- The bank and the byte in it that an offset stands for. -/
theorem select_bank {offset : Nat} (h : offset < 8192) :
    (UInt8.ofNat (offset >>> 8 &&& 0x1f)).toNat = offset / 256 ∧ offset &&& 0xff = offset % 256 := by
  have hlow : offset &&& 0xff = offset % 256 := Nat.and_two_pow_sub_one_eq_mod offset 8
  have hhigh : offset >>> 8 &&& 0x1f = offset >>> 8 % 32 :=
    Nat.and_two_pow_sub_one_eq_mod (offset >>> 8) 5
  rw [hlow, hhigh, Nat.shiftRight_eq_div_pow, UInt8.toNat_ofNat']
  omega

theorem inb_selected (d : BankedNvram) {offset : Nat} (h : offset < 8192) :
    (d.outb (UInt8.ofNat (offset >>> 8 &&& 0x1f)) nvramAddrhi).inb
      (nvramAddrlo + (offset &&& 0xff)) = d.bytes offset := by
  obtain ⟨hbank, hbyte⟩ := select_bank h
  have hrange : nvramAddrlo ≤ nvramAddrlo + offset % 256 ∧
      nvramAddrlo + offset % 256 < nvramAddrlo + 256 := by omega
  rw [outb, if_pos rfl, inb, hbyte, if_pos hrange, bytes, hbank, Nat.add_sub_cancel_left]

theorem outb_selected (d : BankedNvram) (b : UInt8) {offset : Nat} (h : offset < 8192) :
    ((d.outb (UInt8.ofNat (offset >>> 8 &&& 0x1f)) nvramAddrhi).outb b
      (nvramAddrlo + (offset &&& 0xff))).bytes = Function.update d.bytes offset b := by
  obtain ⟨hbank, hbyte⟩ := select_bank h
  have hrange : nvramAddrlo ≤ nvramAddrlo + offset % 256 ∧
      nvramAddrlo + offset % 256 < nvramAddrlo + 256 := by omega
  have hport : nvramAddrlo + offset % 256 ≠ nvramAddrhi := by
    unfold nvramAddrlo nvramAddrhi
    omega
  funext x
  rw [hbyte, outb, outb, if_pos rfl, if_neg hport, if_pos hrange]
  simp only [bytes, hbank, Nat.add_sub_cancel_left]
  by_cases hx : x = offset
  · rw [hx, Function.update_self, if_pos ⟨rfl, rfl⟩]
  · rw [Function.update_of_ne hx, if_neg (by omega)]
    rfl

theorem copyinFrom_eq (n offset dp : Nat) (mem : ByteMemory) (d : BankedNvram)
    (h : offset + n ≤ 8192) :
    (copyinFrom n offset dp mem d).1 = fill mem dp (fun j => d.bytes (offset + j)) n ∧
      (copyinFrom n offset dp mem d).2.bytes = d.bytes := by
  induction n generalizing offset dp mem d with
  | zero => exact ⟨(fill_zero mem dp _).symm, rfl⟩
  | succ n ih =>
      have hkept : (d.outb (UInt8.ofNat (offset >>> 8 &&& 0x1f)) nvramAddrhi).bytes = d.bytes := rfl
      obtain ⟨hmem, hbytes⟩ := ih (offset + 1) (dp + 1)
        (Function.update mem dp (d.bytes offset))
        (d.outb (UInt8.ofNat (offset >>> 8 &&& 0x1f)) nvramAddrhi) (by omega)
      rw [hkept] at hmem hbytes
      rw [copyinFrom, inb_selected d (by omega), ← fill_succ]
      refine ⟨hmem.trans ?_, hbytes⟩
      simp only [Nat.add_zero, Nat.add_assoc, Nat.add_comm 1]

theorem copyoutFrom_eq (n offset dp : Nat) (mem : ByteMemory) (d : BankedNvram)
    (h : offset + n ≤ 8192) :
    (copyoutFrom n offset dp mem d).bytes = fill d.bytes offset (fun j => mem (dp + j)) n := by
  induction n generalizing offset dp d with
  | zero => exact (fill_zero d.bytes offset _).symm
  | succ n ih =>
      have hstep := @outb_selected d (mem dp) offset (by omega)
      have hrest := ih (offset + 1) (dp + 1)
        ((d.outb (UInt8.ofNat (offset >>> 8 &&& 0x1f)) nvramAddrhi).outb (mem dp)
          (nvramAddrlo + (offset &&& 0xff))) (by omega)
      rw [hstep] at hrest
      rw [copyoutFrom, ← fill_succ]
      refine hrest.trans ?_
      simp only [Nat.add_zero, Nat.add_assoc, Nat.add_comm 1]

end BankedNvram

/-! ## The flash block -/

/-- The flash as `nvram.c` uses it. -/
structure FlashPart (σ : Type _) extends FlashChip σ where
  /-- `init_28f008sa` -/
  init : σ → Bool × σ

/-- The chip is there and keeps what is written to it. An erased byte can be
written, and erasing a block makes all its bytes 0xff. -/
structure FlashPart.Reliable {σ : Type _} (part : FlashPart σ) : Prop where
  found : ∀ c, (part.init c).1 = true
  read_init : ∀ c, part.read (part.init c).2 = part.read c
  erased : ∀ c blockno i, blockno < flashBlocks → i / flashBlockSize = blockno →
    part.read (part.erase c blockno) i = 0xff
  written : ∀ c data offset, offset < flashBlocks * flashBlockSize →
    part.read c offset = 0xff → (part.write c data offset).1 = true ∧
      part.read (part.write c data offset).2 = Function.update (part.read c) offset data

/-- The flash and the static `flash_block`, which is -1 until the block is found. -/
structure FlashNvram (σ : Type _) where
  flashBlock : Option Nat
  chip : σ

namespace FlashNvram

section
variable {σ : Type _} (part : FlashPart σ)

/-- The loop of `nvram_copyin`. -/
def copyinFrom (c : σ) : Nat → Nat → Nat → ByteMemory → ByteMemory
  | 0, _, _, mem => mem
  | n + 1, place, dest, mem =>
      copyinFrom c n (place + 1) (dest + 1) (Function.update mem dest (part.read c place))

/-- The loop of `nvram_copyout`, which a byte that cannot be written ends. -/
def copyoutFrom (mem : ByteMemory) : Nat → Nat → Nat → σ → σ
  | 0, _, _, c => c
  | n + 1, place, src, c =>
      let (status, c) := part.write c (mem src) place
      if status = false then c else copyoutFrom mem n (place + 1) (src + 1) c

/-- The block, which the first call looks for. -/
def locate (st : FlashNvram σ) : FlashNvram σ :=
  match st.flashBlock with
  | some _ => st
  | none =>
      let (status, c) := part.init st.chip
      if status = false then ⟨none, c⟩ else ⟨findNvram (part.read c), c⟩

/-- `nvram_copyin`, which does not look at its offset. -/
def copyin (dest size : Nat) (mem : ByteMemory) (st : FlashNvram σ) :
    ByteMemory × FlashNvram σ :=
  let st := locate part st
  match st.flashBlock with
  | none => (mem, st)
  | some block => (copyinFrom part st.chip size (block * flashBlockSize) dest mem, st)

/-- `nvram_copyout`, which does not look at its offset. -/
def copyout (src size : Nat) (mem : ByteMemory) (st : FlashNvram σ) : FlashNvram σ :=
  match st.flashBlock with
  | none => st
  | some block =>
      { st with
        chip := copyoutFrom part mem size (block * flashBlockSize) src
          (part.erase st.chip block) }

/-- The bytes from the start of a block on. -/
def bytesFrom (block : Nat) (st : FlashNvram σ) : ByteMemory := fun i =>
  part.read st.chip (block * flashBlockSize + i)

theorem copyinFrom_eq (c : σ) (n place dest : Nat) (mem : ByteMemory) :
    copyinFrom part c n place dest mem = fill mem dest (fun j => part.read c (place + j)) n := by
  induction n generalizing place dest mem with
  | zero => exact (fill_zero mem dest _).symm
  | succ n ih =>
      rw [copyinFrom, ih, ← fill_succ]
      simp only [Nat.add_zero, Nat.add_assoc, Nat.add_comm 1]

variable {part}

/-- Bytes that are all erased can be written one after the other. -/
theorem copyoutFrom_eq (hpart : part.Reliable) (mem : ByteMemory) (n place src : Nat) (c : σ)
    (hfits : place + n ≤ flashBlocks * flashBlockSize)
    (herased : ∀ j < n, part.read c (place + j) = 0xff) :
    part.read (copyoutFrom part mem n place src c) =
      fill (part.read c) place (fun j => mem (src + j)) n := by
  induction n generalizing place src c with
  | zero => exact (fill_zero _ place _).symm
  | succ n ih =>
      obtain ⟨hstatus, hread⟩ :=
        hpart.written c (mem src) place (by omega) (herased 0 (Nat.succ_pos n))
      have herased' : ∀ j < n, part.read (part.write c (mem src) place).2 (place + 1 + j) = 0xff := by
        intro j hj
        rw [hread, Function.update_of_ne (by omega), Nat.add_assoc, Nat.add_comm 1]
        exact herased (j + 1) (by omega)
      have hrest := ih (place + 1) (src + 1) (part.write c (mem src) place).2 (by omega) herased'
      rw [hread] at hrest
      simp only [copyoutFrom, hstatus, Bool.true_eq_false, if_false]
      rw [← fill_succ]
      refine hrest.trans ?_
      simp only [Nat.add_zero, Nat.add_assoc, Nat.add_comm 1]

theorem locate_read (hpart : part.Reliable) (st : FlashNvram σ) :
    part.read (locate part st).chip = part.read st.chip := by
  unfold locate
  cases st.flashBlock with
  | some block => rfl
  | none =>
      simp only [hpart.found, Bool.true_eq_false, if_false]
      exact hpart.read_init st.chip

/-- The block that is known after the search. -/
theorem locate_flashBlock (hpart : part.Reliable) (st : FlashNvram σ) :
    (locate part st).flashBlock =
      (match st.flashBlock with
       | some block => some block
       | none => findNvram (part.read st.chip)) := by
  cases hblock : st.flashBlock with
  | some block => simp only [locate, hblock]
  | none =>
      simp only [locate, hblock, hpart.found, hpart.read_init, Bool.true_eq_false, if_false]

/-- A save leaves the bytes in the block and nothing else of them. -/
theorem copyout_read (hpart : part.Reliable) {st : FlashNvram σ} {block size : Nat}
    (hblock : st.flashBlock = some block) (hrange : block < flashBlocks)
    (hsize : size ≤ flashBlockSize) (src : Nat) (mem : ByteMemory) :
    (∀ i < size, bytesFrom part block (copyout part src size mem st) i = mem (src + i)) ∧
      ∀ x, x / flashBlockSize ≠ block →
        part.read (copyout part src size mem st).chip x = part.read st.chip x := by
  have hin : ∀ j < size, (block * flashBlockSize + j) / flashBlockSize = block := by
    intro j hj
    unfold flashBlockSize at *
    omega
  have hread := copyoutFrom_eq hpart mem size (block * flashBlockSize) src
    (part.erase st.chip block)
    (by unfold flashBlocks flashBlockSize at *; omega)
    (fun j hj => hpart.erased st.chip block _ hrange (hin j hj))
  simp only [bytesFrom, copyout, hblock, hread]
  refine ⟨fun i hi => fill_inside hi, fun x hx => ?_⟩
  rw [fill_outside, part.read_erase st.chip block x hx]
  intro hmem
  obtain ⟨hlo, hhi⟩ := Span.mem_mk.mp hmem
  refine hx ?_
  have hplace := hin (x - block * flashBlockSize) (by omega)
  rwa [Nat.add_sub_cancel' hlo] at hplace

end

end FlashNvram

end Milo.Env
