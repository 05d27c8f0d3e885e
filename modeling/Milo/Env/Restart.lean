import Milo.Env.Store
import Milo.Flash.I28f008sa

/-! # The environment over a restart

The working area in memory is copied from the device when the environment is
first used, and every change writes the whole area back. What `getenv` finds is
therefore on the device after each call, and a restart finds it there again.
-/

namespace Milo.Env

open Foundation
open Milo.Boot (atoi)
open Milo.Flash (findNvram flashBlockSize flashBlocks holdsString)

/-! ## The calls -/

/-- What `env.c` uses of `nvram.c`, and the device after a restart. -/
structure Nvram (σ : Type _) where
  /-- `nvram_copyin(0, area, size)` -/
  copyin : Nat → ByteMemory → σ → ByteMemory × σ
  /-- `nvram_copyout(0, area, size)` -/
  copyout : Nat → ByteMemory → σ → σ
  Restarts : σ → σ → Prop

structure EnvState (σ : Type _) where
  environ : ByteMemory
  initialized : Bool
  /-- `milo_verbose` -/
  verbose : Int
  device : σ

/-- The name `VERBOSE`. -/
def verboseName : CString := ⟨[0x56, 0x45, 0x52, 0x42, 0x4f, 0x53, 0x45], by decide, by decide⟩

namespace EnvState

section
variable {σ : Type _} (nvram : Nvram σ) (nvars : Nat)

/-- The state at power on. -/
def poweredOn (ram : ByteMemory) (device : σ) : EnvState σ := ⟨ram, false, 0, device⟩

/-- `fill_env_from_nvram` -/
def fillEnv (st : EnvState σ) : EnvState σ :=
  let (environ, device) := nvram.copyin (nvars * chunkSize) st.environ st.device
  { st with environ := environ, device := device }

/-- `save_env_to_nvram` -/
def saveEnv (st : EnvState σ) : EnvState σ :=
  { st with device := nvram.copyout (nvars * chunkSize) st.environ st.device }

/-- `env_init`, which goes on after it has reported that the area is not valid. -/
def envInit (st : EnvState σ) : EnvState σ :=
  let st := { fillEnv nvram nvars st with initialized := true }
  match Env.getenv nvars st.environ verboseName with
  | some p => { st with verbose := (atoi (stringAt st.environ p)).value }
  | none => st

/-- The first lines of `setenv`, `unsetenv` and `getenv`. -/
def ensureInit (st : EnvState σ) : EnvState σ :=
  if st.initialized then st else envInit nvram nvars st

def setenv (var value : CString) (st : EnvState σ) : EnvState σ :=
  let st := ensureInit nvram nvars st
  match setenvChunk nvars st.environ var with
  | some _ => saveEnv nvram nvars { st with environ := Env.setenv nvars st.environ var value }
  | none => st

def unsetenv (var : CString) (st : EnvState σ) : EnvState σ :=
  let st := ensureInit nvram nvars st
  match findVar st.environ var 1 (nvars - 1) with
  | some _ => saveEnv nvram nvars { st with environ := Env.unsetenv nvars st.environ var }
  | none => st

def getenv (var : CString) (st : EnvState σ) : Option Nat × EnvState σ :=
  let st := ensureInit nvram nvars st
  (Env.getenv nvars st.environ var, st)

/-- The area with one byte for each index. -/
def fillArea (byte : Nat → UInt8) (environ : ByteMemory) : ByteMemory := fun i =>
  if i < nvars * chunkSize then byte i else environ i

/-- `test_nvram` -/
def testNvram (st : EnvState σ) : EnvState σ :=
  let pattern := fillArea nvars (fun i => UInt8.ofNat (i >>> 8 ^^^ i)) st.environ
  let st := saveEnv nvram nvars { st with environ := pattern }
  fillEnv nvram nvars { st with environ := fillArea nvars (fun _ => 0) st.environ }

def resetenv (st : EnvState σ) : EnvState σ :=
  let st := testNvram nvram nvars st
  let environ := freeChunks (store st.environ (strcpy 0 environId)) 1 (nvars - 1)
  saveEnv nvram nvars { st with environ := environ }

end

end EnvState

/-- A call of one of the routines; a pair that is set fits its chunk. -/
inductive NvramCall where
  | envInit
  | setenv (var value : CString) (fits : var.chars.length + value.chars.length ≤ 126)
  | unsetenv (var : CString)
  | getenv (var : CString)
  | resetenv

section
variable {σ : Type _} (nvram : Nvram σ) (nvars : Nat)

def NvramCall.apply (st : EnvState σ) : NvramCall → EnvState σ
  | .envInit => st.envInit nvram nvars
  | .setenv var value _ => st.setenv nvram nvars var value
  | .unsetenv var => st.unsetenv nvram nvars var
  | .getenv var => (st.getenv nvram nvars var).2
  | .resetenv => st.resetenv nvram nvars

/-- What the caller of `getenv` gets: a pointer, and the string it points to. -/
def EnvState.answer (var : CString) (st : EnvState σ) : Option (Nat × List UInt8) :=
  (st.getenv nvram nvars var).1.map fun p =>
    (p, stringAt (st.getenv nvram nvars var).2.environ p)

/-- After every run of calls, a restart finds the environment as it was, and the
device is unchanged in the part that is not the area. -/
def Survives (Untouched : σ → Prop) (start : σ) : Prop :=
  ∀ (ram : ByteMemory) (calls : List NvramCall),
    let st := calls.foldl (NvramCall.apply nvram nvars) (EnvState.poweredOn ram start)
    Untouched st.device ∧
      ∀ ram' device', nvram.Restarts st.device device' →
        let st' := (EnvState.poweredOn ram' device').envInit nvram nvars
        Untouched st'.device ∧
          ∀ var, st'.answer nvram nvars var = st.answer nvram nvars var

end

/-! ## The area -/

/-- The identification comes first, and a string that starts in the area ends
there. -/
structure ValidArea (nvars : Nat) (bytes : ByteMemory) : Prop where
  id : HoldsBytes bytes 0 environId.bytes
  ends : ∃ z ∈ (⟨chunkAt (nvars - 1), chunkSize⟩ : Span), bytes z = 0

section
variable {nvars : Nat} {bytes bytes' : ByteMemory}

theorem ValidArea.congr (h : ValidArea nvars bytes) (hnvars : 2 ≤ nvars)
    (hsame : ∀ i < nvars * chunkSize, bytes' i = bytes i) : ValidArea nvars bytes' where
  id := by
    refine h.id.congr fun x hx => hsame x ?_
    have hlen : environId.bytes.length = 17 := rfl
    rw [Span.mem_mk, hlen] at hx
    unfold chunkSize
    omega
  ends := by
    obtain ⟨z, hz, hnul⟩ := h.ends
    refine ⟨z, hz, (hsame z ?_).trans hnul⟩
    rw [Span.mem_mk] at hz
    unfold chunkAt chunkSize at *
    omega

/-- A chunk that holds a string again leaves the area valid. -/
theorem ValidArea.change_chunk {k : Nat} (h : ValidArea nvars bytes) (hk : InStore nvars k)
    (hsame : SameElsewhere k bytes bytes')
    (hends : ∃ z ∈ (⟨chunkAt k, chunkSize⟩ : Span), bytes' z = 0) : ValidArea nvars bytes' where
  id := by
    refine h.id.congr fun x hx => hsame x ?_
    have hlen : environId.bytes.length = 17 := rfl
    have hpos := hk.1
    rw [Span.mem_mk, hlen] at hx
    rw [Span.mem_mk]
    unfold chunkAt chunkSize
    omega
  ends := by
    by_cases hlast : k = nvars - 1
    · exact hlast ▸ hends
    · obtain ⟨z, hz, hnul⟩ := h.ends
      refine ⟨z, hz, (hsame z ?_).trans hnul⟩
      rw [Span.mem_mk] at hz ⊢
      unfold chunkAt chunkSize at *
      omega

theorem ValidArea.setenv (h : ValidArea nvars bytes) {var value : CString} {k : Nat}
    (hfits : var.chars.length + value.chars.length ≤ 126)
    (hchunk : setenvChunk nvars bytes var = some k) :
    ValidArea nvars (Env.setenv nvars bytes var value) := by
  obtain ⟨hbytes, hframe⟩ := setenv_of_chunk value hchunk
  have hlen := entryBytes_length var value
  have hk : InStore nvars k := by
    rcases chooseChunk_eq_some hchunk with ⟨hlo, hhi, -⟩ | ⟨-, hfirst | ⟨hlo, hhi, -⟩⟩
    · exact inStore_of_range ⟨hlo, hhi⟩
    · cases hfirst
    · exact inStore_of_range ⟨hlo, hhi⟩
  refine h.change_chunk hk (fun x hx => hframe x fun hin => hx ?_) ?_
  · rw [Span.mem_mk] at hin ⊢
    unfold chunkSize
    omega
  · have hvalue := (HoldsBytes.append.mp hbytes).2
    have hnul := (HoldsBytes.append.mp hvalue).2 0 0 rfl
    refine ⟨_, ?_, hnul⟩
    rw [Span.mem_mk, List.length_append, List.length_singleton]
    unfold chunkSize
    omega

theorem ValidArea.unsetenv (h : ValidArea nvars bytes) (var : CString) :
    ValidArea nvars (Env.unsetenv nvars bytes var) := by
  rw [Env.unsetenv]
  split
  · rename_i k hfind
    obtain ⟨hlo, hhi, -⟩ := findVar_eq_some hfind
    have hstart : chunkAt k ∈ (⟨chunkAt k, chunkSize⟩ : Span) :=
      Span.mem_mk.mpr (by unfold chunkSize; omega)
    refine h.change_chunk (inStore_of_range ⟨hlo, hhi⟩) (fun x hx => ?_)
      ⟨chunkAt k, hstart, Function.update_self ..⟩
    apply Function.update_of_ne
    rintro rfl
    exact hx hstart
  · exact h

/-- Only the first bytes of chunks are changed when chunks are marked free. -/
theorem freeChunks_other {environ : ByteMemory} {i n x : Nat}
    (h : ∀ k, i ≤ k → k < i + n → x ≠ chunkAt k) : freeChunks environ i n x = environ x := by
  induction n generalizing environ i with
  | zero => rfl
  | succ n ih =>
      rw [freeChunks, ih fun k hlo hhi => h k (by omega) (by omega),
        Function.update_of_ne (h i (Nat.le_refl i) (by omega))]

theorem validArea_reset (environ : ByteMemory) (hnvars : 2 ≤ nvars) :
    ValidArea nvars (freeChunks (store environ (strcpy 0 environId)) 1 (nvars - 1)) where
  id := by
    refine HoldsBytes.congr (store_holds environ 0 environId.bytes) fun x hx => ?_
    have hlen : environId.bytes.length = 17 := rfl
    rw [Span.mem_mk, hlen] at hx
    apply freeChunks_other
    intro k hlo _
    unfold chunkAt chunkSize
    omega
  ends := by
    refine ⟨chunkAt (nvars - 1), Span.mem_mk.mpr (by unfold chunkSize; omega), ?_⟩
    exact freeChunks_free (nvars - 1) (Or.inl (by omega))

/-- Only the bytes of the area count for a search. -/
theorem ValidArea.getenv_congr (h : ValidArea nvars bytes) (hnvars : 2 ≤ nvars)
    (hsame : ∀ i < nvars * chunkSize, bytes' i = bytes i) (var : CString) :
    Env.getenv nvars bytes' var = Env.getenv nvars bytes var ∧
      ∀ p, Env.getenv nvars bytes var = some p → stringAt bytes' p = stringAt bytes p := by
  obtain ⟨z, hz, hnul⟩ := h.ends
  rw [Span.mem_mk] at hz
  have hsame' : ∀ x ≤ z, bytes' x = bytes x := fun x hx => hsame x (by
    unfold chunkAt chunkSize at *
    omega)
  have hname : 0 ∉ var.chars ++ [equalSign] := by
    rw [List.mem_append, not_or]
    exact ⟨var.noNul, by decide⟩
  have hbefore : ∀ k < nvars, chunkAt k ≤ z := by
    intro k hk
    unfold chunkAt chunkSize at *
    omega
  have hholds : ∀ k < nvars, holdsVar bytes' k var = holdsVar bytes k var := by
    intro k hk
    rw [Bool.eq_iff_iff, holdsVar_iff, holdsVar_iff]
    constructor
    · intro hbytes
      have hend := hbytes.ends_before hname (hbefore k hk) ((hsame' z (Nat.le_refl z)).trans hnul)
      exact hbytes.congr fun x hx => (hsame' x (by rw [Span.mem_mk] at hx; omega)).symm
    · intro hbytes
      have hend := hbytes.ends_before hname (hbefore k hk) hnul
      exact hbytes.congr fun x hx => hsame' x (by rw [Span.mem_mk] at hx; omega)
  have hfind : ∀ n k, k + n ≤ nvars → findVar bytes' var k n = findVar bytes var k n := by
    intro n
    induction n with
    | zero => exact fun k _ => rfl
    | succ n ih =>
        intro k hk
        rw [findVar, findVar, hholds k (by omega), ih (k + 1) (by omega)]
  refine ⟨by rw [Env.getenv, Env.getenv, hfind _ _ (by omega)], fun p hp => ?_⟩
  obtain ⟨k, hk, rfl⟩ := Option.map_eq_some_iff.mp hp
  obtain ⟨-, hhi, hbytes⟩ := findVar_eq_some hk
  have hend := (holdsVar_iff.mp hbytes).ends_before hname (hbefore k (by omega)) hnul
  rw [List.length_append, List.length_singleton] at hend
  exact stringAt_congr (by omega) hnul hsame'

end

end Milo.Env
