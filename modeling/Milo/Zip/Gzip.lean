import Milo.Foundation.Spans

/-! # Reading a gzip file

The input buffer is refilled by `__bread` one block at a time; the result of a
read is not looked at, so a buffer that could not be filled is read again.
`get_method` recognises the header. The output window goes to `dest_addr` a
piece at a time.
-/

namespace Milo.Zip

open Foundation

/-- The bytes of a buffer by index. -/
abbrev Buffer := Nat → UInt8

/-- A file as `__bread` shows it: the result for a block number and what the
buffer holds afterwards. -/
structure FileReader where
  status : Nat → Int
  fill : Nat → Buffer → Buffer

/-- The globals of the input side. -/
structure Inbuf where
  inbuf : Buffer
  insize : Nat
  inptr : Nat
  blockNumber : Nat

def inbufSize : Nat := 1024

/-- `clear_bufs`, for a buffer as `kmalloc` returns it. -/
def clearBufs : Inbuf := ⟨fun _ => 0, 0, 0, 0⟩

/-! ## The header -/

/-- A reader that does not return when it is still scanning for the end of a
string after as many bytes as it is followed for. -/
abbrev Reader := StateT Inbuf Option

section
variable (file : FileReader)

/-- `fill_inbuf` -/
def fillInbuf (s : Inbuf) : Inbuf :=
  { inbuf := file.fill s.blockNumber s.inbuf
    insize := inbufSize
    inptr := 1
    blockNumber := s.blockNumber + 1 }

/-- `get_byte` -/
def getByte : Reader Nat := fun s =>
  if s.inptr < s.insize then some ((s.inbuf s.inptr).toNat, { s with inptr := s.inptr + 1 })
  else some (((fillInbuf file s).inbuf 0).toNat, fillInbuf file s)

/-- `while (len--) get_byte();` -/
def skipBytes : Nat → Reader Unit
  | 0 => pure ()
  | len + 1 => do
      let _ ← getByte file
      skipBytes len

/-- `while (get_byte() != 0);` -/
def skipString : Nat → Reader Unit
  | 0 => fun _ => none
  | fuel + 1 => do
      let byte ← getByte file
      if byte ≠ 0 then skipString fuel else pure ()

/-- `get_method` -/
def getMethod (fuel : Nat) : Reader Int := do
  let magic0 ← getByte file
  let magic1 ← getByte file
  if magic0 = 0x1f ∧ (magic1 = 0x8b ∨ magic1 = 0x9e) then do
    let method ← getByte file
    let flags ← getByte file
    if flags &&& 0x20 ≠ 0 then return -1  -- encrypted
    if flags &&& 0x02 ≠ 0 then return -1  -- multi part
    if flags &&& 0xc0 ≠ 0 then return -1  -- reserved
    skipBytes file 6
    if flags &&& 0x04 ≠ 0 then do
      let low ← getByte file
      let high ← getByte file
      skipBytes file (low ||| high <<< 8)
    if flags &&& 0x08 ≠ 0 then skipString file fuel
    if flags &&& 0x10 ≠ 0 then skipString file fuel
    return method
  else return -1

end

/-! ## The output window -/

/-- One call of `flush_window`: `outcnt` and what the window holds. -/
structure Window where
  outcnt : Nat
  window : Buffer

/-- A block of bytes stored at an address. -/
structure Store where
  start : Nat
  len : Nat
  bytes : Buffer

def Store.span (s : Store) : Span := ⟨s.start, s.len⟩

/-- The stores of `flush_window`, call after call, from `dest_addr` on. -/
def flushWindows (dest : Nat) : List Window → List Store
  | [] => []
  | w :: ws =>
      if w.outcnt = 0 then flushWindows dest ws
      else if dest ≠ 0 then ⟨dest, w.outcnt, w.window⟩ :: flushWindows (dest + w.outcnt) ws
      else flushWindows dest ws

/-- How much the calls write altogether. -/
def bytesOut (windows : List Window) : Nat := (windows.map Window.outcnt).sum

/-- The windows stay below a limit exactly if their total does. -/
theorem flushWindows_within_iff {start dest : Nat} (windows : List Window) (limit : Nat)
    (hstart : start ≠ 0) (hlo : start ≤ dest) (hhi : dest ≤ start + limit) :
    (∀ s ∈ flushWindows dest windows, s.span.Within ⟨start, limit⟩) ↔
      dest + bytesOut windows ≤ start + limit := by
  induction windows generalizing dest with
  | nil => simpa [flushWindows, bytesOut] using hhi
  | cons w ws ih =>
      have htotal : bytesOut (w :: ws) = w.outcnt + bytesOut ws := rfl
      rw [flushWindows, htotal]
      by_cases hempty : w.outcnt = 0
      · rw [if_pos hempty, ih hlo hhi, hempty, Nat.zero_add]
      · rw [if_neg hempty, if_pos (by omega), List.forall_mem_cons, Span.within_iff]
        simp only [Store.span]
        constructor
        · rintro ⟨hfirst, hrest⟩
          have hnext := (ih (by omega) (by omega)).mp hrest
          omega
        · intro hfits
          refine ⟨by omega, (ih (by omega) (by omega)).mpr (by omega)⟩

end Milo.Zip
