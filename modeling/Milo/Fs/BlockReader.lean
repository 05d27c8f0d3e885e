import Milo.Foundation.ByteMemory

/-! # Reading files by blocks

All callers read a file in blocks of `IOBUF_SIZE` bytes and stop at the first
block that cannot be read. What they rely on is stated here for any file
system: where a file lies on its device, and what one call of `bread` does.
-/

namespace Milo.Fs

open Foundation

/-- A device that is open for reading. A read delivers some of the bytes that
were asked for. -/
structure Device where
  contents : ByteMemory
  count : Nat → Nat → Nat
  count_le : ∀ offset size, count offset size ≤ size

/-- All reads of the device succeed. -/
def Device.Succeeds (device : Device) : Prop := ∀ offset size, device.count offset size = size

/-- A device without errors. -/
def Device.sound (contents : ByteMemory) : Device := ⟨contents, fun _ size => size, fun _ _ => Nat.le_refl _⟩

theorem Device.sound_succeeds (contents : ByteMemory) : (Device.sound contents).Succeeds :=
  fun _ _ => rfl

/-- A device over time: its `t`-th read may deliver more or less than an earlier
one at the same place. -/
structure Drive where
  contents : ByteMemory
  count : Nat → Nat → Nat → Nat
  count_le : ∀ t offset size, count t offset size ≤ size

/-- The device as the `t`-th read finds it. -/
def Drive.device (drive : Drive) (t : Nat) : Device :=
  ⟨drive.contents, drive.count t, drive.count_le t⟩

/-- A device that does not change. -/
def Device.drive (device : Device) : Drive :=
  ⟨device.contents, fun _ => device.count, fun _ => device.count_le⟩

/-- A device that is zero but for some bytes. -/
def image (bytes : List (Nat × UInt8)) : ByteMemory := fun a =>
  ((bytes.find? fun entry => entry.1 == a).map (·.2)).getD 0

theorem image_zero {bytes : List (Nat × UInt8)} {i : Nat} (h : ∀ entry ∈ bytes, entry.1 ≠ i) :
    image bytes i = 0 := by
  have hnone : bytes.find? (fun entry => entry.1 == i) = none := by
    rw [List.find?_eq_none]
    intro entry hentry
    rw [beq_iff_eq]
    exact h entry hentry
  rw [image, hnone]
  rfl

/-- `device_read`: the number of bytes read, and the memory with them. -/
def deviceRead (device : Device) (mem : ByteMemory) (buffer size offset : Nat) :
    Nat × ByteMemory :=
  let count := device.count offset size
  (count, fill mem buffer (fun i => device.contents (offset + i)) count)

/-- `IOBUF_SIZE` -/
def iobufSize : Nat := 1024

/-- The size of a file and the place of each of its bytes on the device, `none`
in a hole. -/
structure FileLayout where
  size : Nat
  addr : Nat → Option Nat

namespace FileLayout

def byte (file : FileLayout) (contents : ByteMemory) (pos : Nat) : UInt8 :=
  match file.addr pos with
  | some a => contents a
  | none => 0

/-- Two devices that differ at most in the bytes of the file. -/
def SameElsewhere (file : FileLayout) (contents contents' : ByteMemory) : Prop :=
  ∀ a, (∀ pos < file.size, file.addr pos ≠ some a) → contents' a = contents a

/-- One call of `bread` for block `k`, with the returned value and memory. -/
structure Delivers (file : FileLayout) (contents : ByteMemory) (k : Nat) (mem : ByteMemory)
    (buffer : Nat) (result : Int × ByteMemory) : Prop where
  returned : result.1 = 0 ↔ iobufSize * k < file.size
  bytes : result.1 = 0 → ∀ j < iobufSize, iobufSize * k + j < file.size →
    result.2 (buffer + j) = file.byte contents (iobufSize * k + j)
  frame : ∀ a ∉ (⟨buffer, iobufSize⟩ : Span), result.2 a = mem a

/-- `bread` reads the file, whatever its bytes are: for every block number whose
byte offset is a `long`. -/
def ReadBy (file : FileLayout) (contents : ByteMemory)
    (bread : Device → Nat → ByteMemory → Nat → Int × ByteMemory) : Prop :=
  ∀ device : Device, device.Succeeds → file.SameElsewhere contents device.contents →
    ∀ k mem buffer, iobufSize * k < 2 ^ 63 →
      file.Delivers device.contents k mem buffer (bread device k mem buffer)

end FileLayout

end Milo.Fs
