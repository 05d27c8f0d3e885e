import Mathlib.Logic.Function.Basic
import Milo.Foundation.Spans
import Milo.Foundation.Words

/-! # Byte memory

Memory is a function from 64-bit addresses to bytes. Words are read from it in
little-endian order, and `memcpy` moves a block of bytes.
-/

namespace Foundation

abbrev ByteMemory := Nat → UInt8

/-- The `n` bytes at `a`, the lowest first. -/
def readLe (mem : ByteMemory) (a : Nat) : Nat → Nat
  | 0 => 0
  | n + 1 => (mem a).toNat + 256 * readLe mem (u64 (a + 1)) n

theorem readLe_lt (mem : ByteMemory) (a n : Nat) : readLe mem a n < 256 ^ n := by
  induction n generalizing a with
  | zero => exact Nat.one_pos
  | succ n ih =>
      have hbyte := (mem a).toNat_lt
      have hrest := ih (u64 (a + 1))
      rw [readLe, Nat.pow_succ]
      omega

theorem readLe_congr {mem mem' : ByteMemory} {a a' : Nat} (n : Nat) (ha : a + n < 2 ^ 64)
    (ha' : a' + n < 2 ^ 64) (h : ∀ i < n, mem (a + i) = mem' (a' + i)) :
    readLe mem a n = readLe mem' a' n := by
  induction n generalizing a a' with
  | zero => rfl
  | succ n ih =>
      have hfirst := h 0 (Nat.succ_pos n)
      rw [Nat.add_zero, Nat.add_zero] at hfirst
      have hlater : ∀ i < n, mem (a + 1 + i) = mem' (a' + 1 + i) := by
        intro i hi
        have hnext := h (i + 1) (by omega)
        rwa [show a + (i + 1) = a + 1 + i by omega,
          show a' + (i + 1) = a' + 1 + i by omega] at hnext
      rw [readLe, readLe, u64_of_lt (by omega), u64_of_lt (by omega), hfirst,
        ih (by omega) (by omega) hlater]

/-- `memcpy(dst, src, n)` of blocks that do not overlap. -/
def memcpy (mem : ByteMemory) (dst src n : Nat) : ByteMemory := fun a =>
  if sub64 a dst < n then mem (u64 (src + sub64 a dst)) else mem a

theorem memcpy_inside {mem : ByteMemory} {dst src n a : Nat} (hdst : dst + n ≤ 2 ^ 64)
    (hsrc : src + n ≤ 2 ^ 64) (h : a ∈ (⟨dst, n⟩ : Span)) :
    memcpy mem dst src n a = mem (src + (a - dst)) := by
  obtain ⟨hlo, hhi⟩ := Span.mem_mk.mp h
  rw [memcpy, sub64_of_le (by omega) hlo, if_pos (by omega), u64_of_lt (by omega)]

theorem memcpy_outside {mem : ByteMemory} {dst src n a : Nat} (hdst : dst + n ≤ 2 ^ 64)
    (ha : a < 2 ^ 64) (hpos : 0 < n) (h : a ∉ (⟨dst, n⟩ : Span)) :
    memcpy mem dst src n a = mem a := by
  rw [memcpy, if_neg]
  rwa [sub64_lt_iff ha hdst hpos]

/-- The first `n` of the bytes are put at `dst`. -/
def fill (mem : ByteMemory) (dst : Nat) (bytes : Nat → UInt8) (n : Nat) : ByteMemory := fun a =>
  if a ∈ (⟨dst, n⟩ : Span) then bytes (a - dst) else mem a

theorem fill_inside {mem : ByteMemory} {dst n j : Nat} {bytes : Nat → UInt8} (h : j < n) :
    fill mem dst bytes n (dst + j) = bytes j := by
  rw [fill, if_pos (Span.mem_mk.mpr (by omega)), Nat.add_sub_cancel_left]

theorem fill_start (mem : ByteMemory) {n j : Nat} (bytes : Nat → UInt8) (h : j < n) :
    fill mem 0 bytes n j = bytes j := by
  have hinside := @fill_inside mem 0 n j bytes h
  rwa [Nat.zero_add] at hinside

theorem fill_outside {mem : ByteMemory} {dst n a : Nat} {bytes : Nat → UInt8}
    (h : a ∉ (⟨dst, n⟩ : Span)) : fill mem dst bytes n a = mem a := if_neg h

@[simp] theorem fill_zero (mem : ByteMemory) (dst : Nat) (bytes : Nat → UInt8) :
    fill mem dst bytes 0 = mem := by
  funext a
  rw [fill_outside (by rw [Span.mem_mk]; omega)]

/-- A block of bytes is filled from its first byte on. -/
theorem fill_succ (mem : ByteMemory) (dst : Nat) (bytes : Nat → UInt8) (n : Nat) :
    fill (Function.update mem dst (bytes 0)) (dst + 1) (fun j => bytes (j + 1)) n =
      fill mem dst bytes (n + 1) := by
  funext a
  unfold fill
  simp only [Span.mem_mk]
  by_cases hrest : dst + 1 ≤ a ∧ a < dst + 1 + n
  · rw [if_pos hrest, if_pos (by omega), show a - (dst + 1) + 1 = a - dst by omega]
  · rw [if_neg hrest]
    by_cases hfirst : a = dst
    · rw [if_pos (by omega), hfirst, Function.update_self, Nat.sub_self]
    · rw [if_neg (by omega), Function.update_of_ne hfirst]

end Foundation
