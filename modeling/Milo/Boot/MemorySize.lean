import Milo.Boot.Atoi
import Milo.Boot.Elf
import Milo.Foundation.CString

/-! # The way of the memory size

A number of megabytes reaches `milo_memory_size` on four ways: from the
parameter block that `miloctl` writes, from the reboot block, from the variable
MEMORY_SIZE at the start, and from a `set MEMORY_SIZE` command. Every way
multiplies it into bytes, three of them in an `int`.
-/

namespace Milo.Boot

open Foundation Milo.Memory

/-! ## Megabytes -/

/-- The product `mb * 1024 * 1024` of an `int`. -/
def megabytes (mb : Int) : Checked Int := do
  let kilobytes ← mulInt mb 1024
  mulInt kilobytes 1024

/-! ## The parameter block -/

/-- The string `"MILO"`. -/
def miloString : List UInt8 := [0x4d, 0x49, 0x4c, 0x4f]

/-- The check of `miloctl` on its `mem=` argument; what it accepts is the number
it stores. `hostAtoi` is the `atoi` of the host's C library. -/
def miloctlMem (hostAtoi : List UInt8 → Int) (mem : List UInt8) : Option Nat :=
  if mem = [] then some 0
  else
    let memory := (hostAtoi mem % 2 ^ 32).toNat
    if memory < 4 ∨ memory > 32767 then none else some memory

/-- The signature and the size that `miloctl` puts into the parameter block. -/
def writeMem (block : ByteMemory) (memory : Nat) : ByteMemory :=
  store block (storesAt 768 (miloString ++ [leByte memory 0, leByte memory 1, leByte memory 2,
    leByte memory 3]))

/-! ## The start -/

def hwrpbSignature : Nat := 0x4857525042000000
def rebootSignature : Nat := 0x4d49444f4f44494d
def rebootConsole : Nat := 2

/-- `Milo_reboot_t`, as far as the start uses it. -/
structure RebootBlock where
  signature1 : Nat
  signature2 : Nat
  flags : Nat
  memorySize : UInt16

/-- `zeroPage` starts at `ZERO_PGE`, and `paramBlock` at the 1024 bytes below
the PALcode. -/
structure BootState where
  hwrpbId : Nat
  reboot : RebootBlock
  zeroPage : ByteMemory
  paramBlock : ByteMemory
  memorySize : Nat

/-- The HWRPB and the reboot block carry their signatures. -/
def BootState.Rebooting (s : BootState) : Prop :=
  s.hwrpbId = hwrpbSignature ∧ s.reboot.signature1 = rebootSignature ∧
    s.reboot.signature2 = rebootSignature

instance (s : BootState) : Decidable s.Rebooting :=
  inferInstanceAs (Decidable (_ ∧ _ ∧ _))

/-- The size in megabytes that a loader passes becomes the memory size and goes
into the reboot block. -/
def takeMegabytes (s : BootState) (mb : Int) : Checked BootState := do
  let size ← megabytes mb
  let size ← intToLong size
  pure
    { s with
      memorySize := size
      reboot :=
        { s.reboot with
          memorySize := UInt16.ofNat (mb % 2 ^ 16).toNat
          flags := s.reboot.flags ||| rebootConsole } }

/-- The memory size of a reboot block replaces the one detected. -/
def takeRebootSize (s : BootState) : Checked BootState :=
  if s.reboot.memorySize ≠ 0 then do
    let size ← megabytes s.reboot.memorySize.toNat
    let size ← intToLong size
    pure { s with memorySize := size }
  else pure s

/-- The page of the HWRPB, which holds the reboot block, is cleared; the reboot
block is set up and the block below the PALcode copied. -/
def freshStart (s : BootState) : BootState :=
  { s with
    hwrpbId := 0
    reboot := ⟨rebootSignature, rebootSignature, 0, 0⟩
    zeroPage := fill s.zeroPage 0 s.paramBlock 1024 }

/-- The size from the parameter block, or else from an older loader's. -/
def takeParamSize (s : BootState) : Checked BootState :=
  if strncmp s.zeroPage 768 miloString 4 = 0 then
    takeMegabytes s (s32 (readLe s.zeroPage 772 4))
  else if strncmp s.zeroPage 512 miloString 4 = 0 then
    takeMegabytes s (s.zeroPage 516).toNat
  else pure s

def clearZeroPage (s : BootState) : BootState :=
  { s with zeroPage := fill s.zeroPage 0 (fun _ => 0) 1024 }

/-- `setup_boot_arguments` -/
def setupBootArguments (s : BootState) : Checked (Bool × BootState) := do
  let s := clearZeroPage s
  if s.Rebooting then
    let s ← takeRebootSize s
    pure (true, s)
  else
    let s ← takeParamSize (freshStart s)
    pure (false, s)

/-! ## Detection -/

/-- What `ruffian_get_bank_size` makes of a bank register. -/
def ruffianGetBankSize (bank : Nat) : Nat :=
  if bank &&& 0x01 ≠ 0 then
    [0x40000000, 0x20000000, 0x10000000, 0x08000000, 0x04000000, 0x02000000, 0x01000000,
      0x00800000, 0x80000000].getD ((bank &&& 0x1e) >>> 1) 0
  else 0

/-- Where a board finds its memory size: nowhere, in its bank registers, or in
the impure area of its PALcode. -/
inductive Board where
  | eb64
  | ruffian (bank : Nat → Nat)
  | impure (noname : Bool) (impureSignature : Nat) (signature memSize : UInt64)

/-- The size that a board puts in place of the one from MEMORY_SIZE. -/
def Board.probe : Board → Option Nat
  | eb64 => some 0x2000000
  | ruffian bank =>
      some (u64 (u64 (ruffianGetBankSize (bank 0x0800) + ruffianGetBankSize (bank 0x0840)) +
        ruffianGetBankSize (bank 0x0880)))
  | impure _ impureSignature signature memSize =>
      if signature.toNat &&& 0xffffffff = impureSignature then some memSize.toNat else none

/-- The size that stands in for zero. -/
def Board.fallback : Board → Nat
  | impure true _ _ _ => 0x1800000
  | _ => 0x2000000

/-- The conversion from megabytes to bytes in `memory_size`. -/
def toBytes (size : Nat) : Checked Nat :=
  if 0 < size then do
    let kilobytes ← mulLong size 1024
    mulLong kilobytes 1024
  else pure size

/-- The board's own size and, in the end, the fallback. -/
def Board.settle (board : Board) (size : Nat) : Nat :=
  let size := board.probe.getD size
  if size = 0 then board.fallback else size

/-- `memory_size`, where `value` is the string that `atoi` finds. -/
def memorySize (board : Board) (value : List UInt8) : Checked Nat := do
  let number ← atoi value
  let size ← intToLong number
  let size ← toBytes size
  pure (board.settle size)

/-! ## Setting -/

/-- A size that is not too small is passed to `reset_mem`. -/
def passSize (size : Int) : Checked (Option Nat) :=
  if size < miloMinMemorySize then pure none
  else do
    let top ← intToLong size
    pure (some top)

/-- The size that `set MEMORY_SIZE value` passes to `reset_mem`, if any. -/
def setMemorySize (value : List UInt8) : Checked (Option Nat) := do
  let megs ← atoi value
  let size ← megabytes megs
  passSize size

/-! ## Exact products -/

/-- A number of megabytes keeps its value in an `int` below 2 Gb. -/
theorem megabytes_exact_iff (n : Nat) : (megabytes n).exact = true ↔ n < 2048 := by
  unfold megabytes
  rw [Checked.exact_bind, Bool.and_eq_true]
  simp only [mulInt, inInt_iff]
  constructor
  · rintro ⟨hkilo, hmega⟩
    rw [toInt_of_inInt (inInt_iff.mpr hkilo)] at hmega
    omega
  · intro h
    have hkilo : -2 ^ 31 ≤ (n : Int) * 1024 ∧ (n : Int) * 1024 < 2 ^ 31 := by omega
    rw [toInt_of_inInt (inInt_iff.mpr hkilo)]
    omega

theorem megabytes_value {n : Nat} (h : n < 2048) : (megabytes n).value = (n * 2 ^ 20 : Nat) := by
  have hkilo : toInt ((n : Int) * 1024) = n * 1024 := toInt_of_inInt (inInt_iff.mpr (by omega))
  have hmega : toInt ((n : Int) * 1024 * 1024) = n * 1024 * 1024 :=
    toInt_of_inInt (inInt_iff.mpr (by omega))
  unfold megabytes
  simp only [Checked.value_bind, mulInt]
  rw [hkilo, hmega]
  omega

theorem intToLong_value {n : Nat} (h : n < 2 ^ 64) : (intToLong n).value = n := by
  unfold intToLong
  simp only
  omega

theorem intToLong_exact (n : Nat) : (intToLong n).exact = true := by simp [intToLong]

/-! ## The start -/

theorem takeMegabytes_exact_iff (s : BootState) (n : Nat) :
    (takeMegabytes s n).exact = true ↔ n < 2048 := by
  unfold takeMegabytes
  simp only [Checked.exact_bind, Checked.exact_pure, Bool.and_true, Bool.and_eq_true,
    megabytes_exact_iff]
  constructor
  · exact fun h => h.1
  · intro h
    rw [megabytes_value h]
    exact ⟨h, intToLong_exact _⟩

theorem takeMegabytes_memorySize (s : BootState) {n : Nat} (h : n < 2048) :
    (takeMegabytes s n).value.memorySize = n * 2 ^ 20 := by
  unfold takeMegabytes
  simp only [Checked.value_bind, Checked.value_pure]
  rw [megabytes_value h, intToLong_value (by omega)]

theorem leByte_toNat (n i : Nat) : (leByte n i).toNat = n / 256 ^ i % 256 := by
  unfold leByte
  rw [UInt8.toNat_ofNat']

/-- The parameter block below the PALcode is one that `miloctl` wrote. -/
def FirstStart (s : BootState) (n : Nat) : Prop :=
  ¬ s.Rebooting ∧ ∃ block, ∀ i < 1024, s.paramBlock i = writeMem block n i

/-- There is a reboot block with this number in it. -/
def Restart (s : BootState) (n : Nat) : Prop :=
  s.Rebooting ∧ s.reboot.memorySize.toNat = n

theorem writeMem_holds (block : ByteMemory) (n : Nat) :
    HoldsBytes (writeMem block n) 768 (miloString ++ [leByte n 0, leByte n 1, leByte n 2,
      leByte n 3]) := store_holds _ _ _

theorem FirstStart.zeroPage {s : BootState} {n : Nat} (h : FirstStart s n) :
    HoldsBytes (freshStart s).zeroPage 768 (miloString ++ [leByte n 0, leByte n 1,
      leByte n 2, leByte n 3]) := by
  obtain ⟨_, block, hblock⟩ := h
  refine (writeMem_holds block n).congr ?_
  intro i hi
  have hlt : i < 1024 := Nat.lt_of_lt_of_le (Span.mem_mk.mp hi).2 (by simp [miloString])
  have hcopied := @fill_inside s.zeroPage 0 1024 i s.paramBlock hlt
  rw [Nat.zero_add] at hcopied
  unfold freshStart
  simp only
  rw [hcopied, hblock i hlt]

theorem readLe_four {mem : ByteMemory} {a n : Nat} (ha : a + 4 < 2 ^ 64) (hn : n < 2 ^ 32)
    (h : HoldsBytes mem a [leByte n 0, leByte n 1, leByte n 2, leByte n 3]) :
    readLe mem a 4 = n := by
  have h0 : mem a = leByte n 0 := h 0 _ rfl
  have h1 : mem (a + 1) = leByte n 1 := h 1 _ rfl
  have h2 : mem (a + 2) = leByte n 2 := h 2 _ rfl
  have h3 : mem (a + 3) = leByte n 3 := h 3 _ rfl
  simp only [readLe]
  rw [u64_of_lt (by omega), u64_of_lt (by omega), u64_of_lt (by omega), h0, h1, h2, h3]
  simp only [leByte_toNat]
  omega

/-- A first start takes the number from the parameter block. -/
theorem FirstStart.takeParamSize {s : BootState} {n : Nat} (h : FirstStart s n)
    (hn : n < 2 ^ 31) : takeParamSize (freshStart s) = takeMegabytes (freshStart s) n := by
  have hpage := h.zeroPage
  rw [HoldsBytes.append] at hpage
  have hsignature : strncmp (freshStart s).zeroPage 768 miloString 4 = 0 :=
    (strncmp_eq_zero_iff (by decide)).mpr hpage.1
  have hnumber : readLe (freshStart s).zeroPage 772 4 = n :=
    readLe_four (by decide) (Nat.lt_trans hn (by decide)) hpage.2
  unfold Boot.takeParamSize
  rw [if_pos hsignature, hnumber, s32_of_lt hn]

/-- Clearing the page at `ZERO_PGE` first makes no difference to a first start. -/
theorem setupBootArguments_firstStart {s : BootState} {n : Nat} (h : FirstStart s n)
    (hn : n < 2 ^ 31) :
    setupBootArguments s = (do
      let s' ← takeMegabytes (freshStart (clearZeroPage s)) n
      pure (false, s')) := by
  have hcleared : FirstStart (clearZeroPage s) n := h
  unfold setupBootArguments
  simp only
  rw [if_neg hcleared.1, hcleared.takeParamSize hn]

theorem setupBootArguments_restart {s : BootState} (h : s.Rebooting) :
    setupBootArguments s = (do
      let s' ← takeRebootSize (clearZeroPage s)
      pure (true, s')) := by
  have hcleared : (clearZeroPage s).Rebooting := h
  unfold setupBootArguments
  simp only
  rw [if_pos hcleared]

theorem takeRebootSize_exact_iff {s : BootState} (h : s.reboot.memorySize ≠ 0) :
    (takeRebootSize s).exact = true ↔ s.reboot.memorySize.toNat < 2048 := by
  unfold takeRebootSize
  rw [if_pos h]
  simp only [Checked.exact_bind, Checked.exact_pure, Bool.and_true, Bool.and_eq_true,
    megabytes_exact_iff]
  constructor
  · exact fun h => h.1
  · intro h
    rw [megabytes_value h]
    exact ⟨h, intToLong_exact _⟩

theorem takeRebootSize_memorySize {s : BootState} (h : s.reboot.memorySize ≠ 0)
    (hlt : s.reboot.memorySize.toNat < 2048) :
    (takeRebootSize s).value.memorySize = s.reboot.memorySize.toNat * 2 ^ 20 := by
  unfold takeRebootSize
  rw [if_pos h]
  simp only [Checked.value_bind, Checked.value_pure]
  rw [megabytes_value hlt, intToLong_value (by omega)]

theorem miloctlMem_le {hostAtoi : List UInt8 → Int} {mem : List UInt8} {n : Nat}
    (h : miloctlMem hostAtoi mem = some n) : n ≤ 32767 := by
  unfold miloctlMem at h
  simp only at h
  split at h
  · cases h
    decide
  · split at h
    · cases h
    · cases h
      omega

/-- The start leaves this memory size, with exact arithmetic. -/
def LeavesSize (t : Checked (Bool × BootState)) (size : Nat) : Prop :=
  t.value.2.memorySize = size ∧ t.exact = true

theorem setupBootArguments_leaves_iff {s : BootState} {n : Nat} (h : FirstStart s n ∨ Restart s n)
    (hn : n ≠ 0) (hlt : n < 2 ^ 31) :
    LeavesSize (setupBootArguments s) (n * 2 ^ 20) ↔ n < 2048 := by
  unfold LeavesSize
  rcases h with hfirst | ⟨hrebooting, rfl⟩
  · rw [setupBootArguments_firstStart hfirst hlt]
    simp only [Checked.exact_bind, Checked.exact_pure, Bool.and_true, Checked.value_bind,
      Checked.value_pure, takeMegabytes_exact_iff]
    exact ⟨fun h => h.2, fun h => ⟨takeMegabytes_memorySize _ h, h⟩⟩
  · have hset : (clearZeroPage s).reboot.memorySize ≠ 0 := by
      intro hzero
      have hsame : s.reboot.memorySize = 0 := hzero
      exact hn (by rw [hsame]; rfl)
    rw [setupBootArguments_restart hrebooting]
    simp only [Checked.exact_bind, Checked.exact_pure, Bool.and_true, Checked.value_bind,
      Checked.value_pure, takeRebootSize_exact_iff hset]
    exact ⟨fun h => h.2, fun h => ⟨takeRebootSize_memorySize hset h, h⟩⟩

/-- A zero in the reboot block keeps the size; one in the parameter block does not. -/
theorem setupBootArguments_zero {s : BootState} (h : FirstStart s 0 ∨ Restart s 0) :
    (setupBootArguments s).value.2.memorySize = if s.Rebooting then s.memorySize else 0 := by
  rcases h with hfirst | ⟨hrebooting, hzero⟩
  · rw [setupBootArguments_firstStart hfirst (by decide), if_neg hfirst.1]
    have hsize := takeMegabytes_memorySize (freshStart (clearZeroPage s)) (n := 0) (by decide)
    rwa [Nat.zero_mul] at hsize
  · have hkept : ¬ (clearZeroPage s).reboot.memorySize ≠ 0 := by
      intro hset
      exact hset (UInt16.toNat_inj.mp hzero)
    rw [setupBootArguments_restart hrebooting, if_pos hrebooting]
    unfold takeRebootSize
    rw [if_neg hkept]
    rfl

/-! ## Detection -/

theorem Board.settle_ne_zero (board : Board) (size : Nat) : board.settle size ≠ 0 := by
  have hfallback : board.fallback ≠ 0 := by
    unfold Board.fallback
    split <;> decide
  unfold Board.settle
  simp only
  split
  · exact hfallback
  · assumption

theorem toBytes_gives {n : Nat} (h : n < 2 ^ 31) : (toBytes n).Gives (n * 2 ^ 20) := by
  unfold toBytes
  split
  · have hkilo : u64 (n * 1024) = n * 1024 := u64_of_lt (by omega)
    have hmega : u64 (n * 1024 * 1024) = n * 1024 * 1024 := u64_of_lt (by omega)
    constructor
    · simp only [Checked.value_bind, mulLong]
      rw [hkilo, hmega]
      omega
    · simp only [Checked.exact_bind, mulLong, Bool.and_eq_true, decide_eq_true_iff]
      rw [hkilo]
      omega
  · constructor
    · simp only [Checked.value_pure]
      omega
    · rfl

/-- The board has no size of its own, or the same one. -/
def Board.Agrees (board : Board) (size : Nat) : Prop :=
  ∀ probed, board.probe = some probed → (if probed = 0 then board.fallback else probed) = size

theorem Board.settle_eq_iff {board : Board} {size : Nat} (hpos : size ≠ 0) :
    board.settle size = size ↔ board.Agrees size := by
  unfold Board.settle Board.Agrees
  cases hprobe : board.probe with
  | none => simp [hpos]
  | some probed => simp

theorem memorySize_gives_iff (board : Board) {s : List UInt8} (hdigits : s.all isDigit = true)
    (hpos : 0 < decimal s) :
    (memorySize board s).Gives (decimal s * 2 ^ 20) ↔
      decimal s < 2 ^ 31 ∧ board.Agrees (decimal s * 2 ^ 20) := by
  have hexact := atoi_exact_iff s
  rw [leadingDigits_eq hdigits] at hexact
  unfold memorySize Checked.Gives
  simp only [Checked.value_bind, Checked.value_pure, Checked.exact_bind, Checked.exact_pure,
    Bool.and_true, Bool.and_eq_true, hexact]
  by_cases hlt : decimal s < 2 ^ 31
  · have hvalue := atoi_value (hexact.mpr hlt)
    have hbytes := toBytes_gives hlt
    rw [if_pos hdigits] at hvalue
    rw [hvalue, intToLong_value (by omega), hbytes.1, hbytes.2,
      Board.settle_eq_iff (by omega)]
    simp only [hlt, intToLong_exact, and_true, true_and]
  · simp only [hlt, false_and, and_false]

/-! ## Setting -/

/-- The number of megabytes in a string fits, as far as `atoi` reads it. -/
def MegabytesFit (s : List UInt8) : Prop :=
  if s.all isDigit then decimal s < 2048 else decimal (leadingDigits s) < 2 ^ 31

theorem passSize_exact (size : Nat) : (passSize size).exact = true := by
  unfold passSize
  split
  · rfl
  · rw [Checked.exact_bind, intToLong_exact]
    rfl

theorem passSize_value {size top : Nat} (hbound : size < 2 ^ 64)
    (h : (passSize size).value = some top) : top = size := by
  unfold passSize at h
  split at h
  · cases h
  · rw [Checked.value_bind, intToLong_value hbound] at h
    exact (Option.some.inj h).symm

/-- An argument that is no number counts as minus one megabyte, which is refused. -/
theorem passSize_minusOne :
    (megabytes (-1)).exact = true ∧ passSize (megabytes (-1)).value = pure none :=
  ⟨by decide, rfl⟩

theorem setMemorySize_exact_eq (s : List UInt8) :
    (setMemorySize s).exact = ((atoi s).exact && ((megabytes (atoi s).value).exact &&
      (passSize (megabytes (atoi s).value).value).exact)) := by
  unfold setMemorySize
  rw [Checked.exact_bind, Checked.exact_bind]

theorem setMemorySize_value_eq (s : List UInt8) :
    (setMemorySize s).value = (passSize (megabytes (atoi s).value).value).value := by
  unfold setMemorySize
  rw [Checked.value_bind, Checked.value_bind]

theorem setMemorySize_exact_iff (s : List UInt8) :
    (setMemorySize s).exact = true ↔ MegabytesFit s := by
  unfold MegabytesFit
  rw [setMemorySize_exact_eq, Bool.and_eq_true, Bool.and_eq_true, atoi_exact_iff]
  by_cases hlt : decimal (leadingDigits s) < 2 ^ 31
  · rw [atoi_value ((atoi_exact_iff s).mpr hlt)]
    split
    · rw [megabytes_exact_iff]
      constructor
      · exact fun h => h.2.1
      · intro h
        rw [megabytes_value h]
        exact ⟨hlt, h, passSize_exact _⟩
    · rw [passSize_minusOne.2]
      simp only [hlt, passSize_minusOne.1, Checked.exact_pure, true_and]
  · split
    · rename_i hdigits
      rw [leadingDigits_eq hdigits] at hlt ⊢
      simp only [hlt, false_and, false_iff]
      omega
    · simp only [hlt, false_and]

theorem setMemorySize_value {s : List UInt8} {top : Nat} (hfit : MegabytesFit s)
    (h : (setMemorySize s).value = some top) :
    s.all isDigit = true ∧ top = decimal s * 2 ^ 20 := by
  have hexact := (setMemorySize_exact_iff s).mpr hfit
  rw [setMemorySize_exact_eq, Bool.and_eq_true] at hexact
  rw [setMemorySize_value_eq, atoi_value hexact.1] at h
  unfold MegabytesFit at hfit
  split at h
  · rename_i hdigits
    rw [if_pos hdigits] at hfit
    rw [megabytes_value hfit] at h
    exact ⟨hdigits, passSize_value (by omega) h⟩
  · rw [passSize_minusOne.2] at h
    cases h

/-! ## All ways together -/

/-- A number of megabytes keeps its value on its way into `milo_memory_size`
exactly under the condition given for each way: from the command line of miloctl,
from a detected size, and from the digits of a board's or an operator's setting. -/
theorem memory_size_survives (hostAtoi : List UInt8 → Int) (mem : List UInt8) (board : Board)
    (value text : List UInt8) (s : BootState) :
    (∀ n, miloctlMem hostAtoi mem = some n → n ≠ 0 → FirstStart s n ∨ Restart s n →
        (LeavesSize (setupBootArguments s) (n * 2 ^ 20) ↔ n < 2048)) ∧
      (FirstStart s 0 ∨ Restart s 0 → s.memorySize = (memorySize board value).value →
        ((setupBootArguments s).value.2.memorySize = s.memorySize ↔ s.Rebooting)) ∧
      (text.all isDigit = true → 0 < decimal text →
        ((memorySize board text).Gives (decimal text * 2 ^ 20) ↔
          decimal text < 2 ^ 31 ∧ board.Agrees (decimal text * 2 ^ 20))) ∧
      (((setMemorySize text).exact = true ∧
          ∀ top, (setMemorySize text).value = some top →
            text.all isDigit = true ∧ top = decimal text * 2 ^ 20) ↔ MegabytesFit text) := by
  constructor
  · intro n hmem hn hstart
    have hle := miloctlMem_le hmem
    exact setupBootArguments_leaves_iff hstart hn (by omega)
  constructor
  · intro hstart hdetected
    have hne : s.memorySize ≠ 0 := by
      rw [hdetected]
      exact board.settle_ne_zero _
    rw [setupBootArguments_zero hstart]
    split
    · simpa
    · rename_i hfirst
      simp only [hfirst, iff_false]
      exact fun hzero => hne hzero.symm
  constructor
  · exact fun hdigits hpos => memorySize_gives_iff board hdigits hpos
  · constructor
    · exact fun h => (setMemorySize_exact_iff text).mp h.1
    · intro hfit
      exact ⟨(setMemorySize_exact_iff text).mpr hfit, fun top htop => setMemorySize_value hfit htop⟩

/-- A machine that is switched on with a parameter block for `n` megabytes. -/
def coldStart (n : Nat) : BootState where
  hwrpbId := 0
  reboot := ⟨0, 0, 0, 0⟩
  zeroPage := fun _ => 0
  paramBlock := writeMem (fun _ => 0) n
  memorySize := 0x2000000

/-- The same machine restarted with `n` megabytes in the reboot block. -/
def warmStart (n : UInt16) : BootState where
  hwrpbId := hwrpbSignature
  reboot := ⟨rebootSignature, rebootSignature, 0, n⟩
  zeroPage := fun _ => 0
  paramBlock := fun _ => 0
  memorySize := 0x2000000

theorem coldStart_first (n : Nat) : FirstStart (coldStart n) n :=
  ⟨by simp [coldStart, BootState.Rebooting, hwrpbSignature], fun _ => 0, fun _ _ => rfl⟩

/-- The string `"64"`, and an `atoi` of the host. -/
def sixtyFour : List UInt8 := [0x36, 0x34]

def plainAtoi (s : List UInt8) : Int := decimal s

/-- A board whose PALcode left nothing in its impure area. -/
def unsignedBoard : Board := .impure false 0xdecb0001 0 0

theorem memory_size_survives_64 :
    LeavesSize (setupBootArguments (coldStart 64)) (64 * 2 ^ 20) ∧
      (setupBootArguments (warmStart 0)).value.2.memorySize = 0x2000000 ∧
      (memorySize unsignedBoard sixtyFour).Gives (64 * 2 ^ 20) ∧
      (setMemorySize sixtyFour).exact = true := by
  have hmem : miloctlMem plainAtoi sixtyFour = some 64 := by decide
  have hrestart : Restart (warmStart 0) 0 := ⟨⟨rfl, rfl, rfl⟩, rfl⟩
  have hdetected : (warmStart 0).memorySize = (memorySize unsignedBoard []).value := by decide
  have hagrees : unsignedBoard.Agrees (decimal sixtyFour * 2 ^ 20) := by
    intro probed hprobed
    cases hprobed
  have hcold := memory_size_survives plainAtoi sixtyFour unsignedBoard [] sixtyFour (coldStart 64)
  have hwarm := memory_size_survives plainAtoi sixtyFour unsignedBoard [] sixtyFour (warmStart 0)
  refine ⟨?_, ?_, ?_, ?_⟩
  · exact (hcold.1 64 hmem (by decide) (Or.inl (coldStart_first 64))).mpr (by decide)
  · exact (hwarm.2.1 (Or.inr hrestart) hdetected).mpr hrestart.1
  · exact (hcold.2.2.1 (by decide) (by decide)).mpr ⟨by decide, hagrees⟩
  · exact (hcold.2.2.2.mpr (by unfold MegabytesFit; decide)).1

/-- 2048 megabytes become a negative `int`; a parameter block without a size
leaves no memory at all; the impure area overrides MEMORY_SIZE; and 4112
megabytes are set as 16. -/
theorem memory_size_lost :
    miloctlMem plainAtoi [0x32, 0x30, 0x34, 0x38] = some 2048 ∧
      (setupBootArguments (coldStart 2048)).value.2.memorySize = 2 ^ 64 - 2 ^ 31 ∧
      (setupBootArguments (warmStart 2048)).value.2.memorySize = 2 ^ 64 - 2 ^ 31 ∧
      (setupBootArguments (coldStart 0)).value.2.memorySize = 0 ∧
      (memorySize (.impure false 0xdecb0001 0xdecb0001 0x2000000) sixtyFour).value = 0x2000000 ∧
      (setMemorySize [0x34, 0x31, 0x31, 0x32]).value = some 0x1000000 := by
  refine ⟨by decide, ?_, by decide +kernel, ?_, by decide +kernel, by decide +kernel⟩
  · rw [setupBootArguments_firstStart (coldStart_first 2048) (by decide)]
    decide +kernel
  · rw [setupBootArguments_zero (Or.inl (coldStart_first 0)), if_neg (coldStart_first 0).1]

end Milo.Boot
