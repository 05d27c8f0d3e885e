import Milo.Env.Survival

/-! # An environment that is not valid

`env_init` reports an area that does not start with the identification, and the
area is searched all the same. A variable is found in any chunk whose string has
an equals sign in it, whoever left it there.
-/

namespace Milo.Env

open Foundation
open Milo.Boot (atoi)
open Milo.Flash (IdleChip findNvram flashBlockSize i28f008sa i28f008sa_reliable)

/-- The calls that do not set anything. -/
def NvramCall.Quiet : NvramCall → Prop
  | .unsetenv _ => True
  | .getenv _ => True
  | _ => False

/-- The test of `env_init`, `strcmp(environ, ENVIRON_ID) == 0`. -/
def Present (environ : ByteMemory) : Prop := HoldsBytes environ 0 environId.bytes

/-- No chunk has an equals sign before the NUL that ends its string. A string of
the last chunk can go on behind the area. -/
def NoVariables (nvars : Nat) (environ : ByteMemory) : Prop :=
  ∀ k, InStore nvars k → ∀ n, n + 1 < 2 ^ 64 → environ (chunkAt k + n) = equalSign →
    ∃ i < n, environ (chunkAt k + i) = 0

section
variable {σ : Type _} (nvram : Nvram σ) (nvars : Nat)

/-- From `env_init` on, nothing is found before something is set, and the
verbosity is not taken from the area. -/
def Unused (ram : ByteMemory) (device : σ) : Prop :=
  ∀ calls : List NvramCall, (∀ call ∈ calls, call.Quiet) →
    let st := calls.foldl (NvramCall.apply nvram nvars)
      ((EnvState.poweredOn ram device).envInit nvram nvars)
    (∀ var, (st.getenv nvram nvars var).1 = none) ∧ st.verbose = 0

end

section
variable {σ : Type _} {nvram : Nvram σ} {nvars : Nat} {environ : ByteMemory}

/-- The bytes at a place, as a list. -/
theorem holdsBytes_map_range (environ : ByteMemory) (a n : Nat) :
    HoldsBytes environ a ((List.range n).map fun i => environ (a + i)) := by
  intro i b hb
  rw [List.getElem?_map, Option.map_eq_some_iff] at hb
  obtain ⟨j, hj, rfl⟩ := hb
  obtain ⟨_, hindex⟩ := List.getElem?_eq_some_iff.mp hj
  rw [List.getElem_range] at hindex
  rw [hindex]

/-- Some name is found in the chunk. -/
theorem exists_holdsVar_iff {k : Nat} :
    (∃ var, holdsVar environ k var = true) ↔
      ∃ n, n + 1 < 2 ^ 64 ∧ environ (chunkAt k + n) = equalSign ∧
        ∀ i < n, environ (chunkAt k + i) ≠ 0 := by
  constructor
  · rintro ⟨var, hvar⟩
    obtain ⟨hchars, hequal⟩ := HoldsBytes.append.mp (holdsVar_iff.mp hvar)
    refine ⟨var.chars.length, var.fits, hequal 0 _ rfl, fun i hi hnul => ?_⟩
    have hbyte := hchars i _ (List.getElem?_eq_getElem hi)
    rw [hnul] at hbyte
    exact var.noNul (hbyte ▸ List.getElem_mem hi)
  · rintro ⟨n, hfits, hequal, hnul⟩
    refine ⟨⟨(List.range n).map fun i => environ (chunkAt k + i), ?_, ?_⟩, ?_⟩
    · rw [List.mem_map]
      rintro ⟨i, hi, hzero⟩
      exact hnul i (List.mem_range.mp hi) hzero
    · rwa [List.length_map, List.length_range]
    · rw [holdsVar_iff, HoldsBytes.append]
      refine ⟨holdsBytes_map_range environ _ n, ?_⟩
      rw [List.length_map, List.length_range]
      simp [HoldsBytes, List.getElem?_singleton, hequal]

theorem noVariables_iff :
    NoVariables nvars environ ↔ ∀ var, findVar environ var 1 (nvars - 1) = none := by
  constructor
  · intro h var
    refine findVar_eq_none.mpr fun k hlo hhi => Bool.eq_false_iff.mpr fun hholds => ?_
    obtain ⟨n, hfits, hequal, hnul⟩ := exists_holdsVar_iff.mp ⟨var, hholds⟩
    obtain ⟨i, hi, hzero⟩ := h k (inStore_of_range ⟨hlo, hhi⟩) n hfits hequal
    exact hnul i hi hzero
  · intro h k hk n hfits hequal
    by_contra hnone
    obtain ⟨var, hvar⟩ := exists_holdsVar_iff.mpr ⟨n, hfits, hequal, fun i hi hzero =>
      hnone ⟨i, hi, hzero⟩⟩
    rw [findVar_eq_none.mp (h var) k hk.range.1 hk.range.2] at hvar
    cases hvar

theorem getenv_eq_none_iff {var : CString} :
    Env.getenv nvars environ var = none ↔ findVar environ var 1 (nvars - 1) = none :=
  Option.map_eq_none_iff

/-- What `env_init` does, apart from the verbosity. -/
theorem EnvState.envInit_eq (nvram : Nvram σ) (nvars : Nat) (st : EnvState σ) :
    (st.envInit nvram nvars).environ =
        (nvram.copyin (nvars * chunkSize) st.environ st.device).1 ∧
      (st.envInit nvram nvars).initialized = true := by
  unfold EnvState.envInit
  simp only
  split
  · exact ⟨rfl, rfl⟩
  · exact ⟨rfl, rfl⟩

theorem EnvState.envInit_verbose (st : EnvState σ) {loaded : ByteMemory}
    (hloaded : (nvram.copyin (nvars * chunkSize) st.environ st.device).1 = loaded) :
    (st.envInit nvram nvars).verbose =
      (Env.getenv nvars loaded verboseName).elim st.verbose fun p =>
        (atoi (stringAt loaded p)).value := by
  subst hloaded
  unfold EnvState.envInit EnvState.fillEnv
  simp only
  split
  · rename_i p hp
    rw [hp, Option.elim_some]
  · rename_i hp
    rw [hp, Option.elim_none]

theorem EnvState.getenv_initialized {st : EnvState σ} (h : st.initialized = true)
    (var : CString) : st.getenv nvram nvars var = (Env.getenv nvars st.environ var, st) := by
  rw [EnvState.getenv, EnvState.ensureInit, if_pos h]

/-- A call that sets nothing changes nothing where no variable can be found. -/
theorem NvramCall.Quiet.apply_eq {call : NvramCall} (h : call.Quiet) {st : EnvState σ}
    (hinit : st.initialized = true) (hnone : NoVariables nvars st.environ) :
    call.apply nvram nvars st = st := by
  cases call with
  | unsetenv var =>
      change st.unsetenv nvram nvars var = st
      simp only [EnvState.unsetenv, EnvState.ensureInit, if_pos hinit, noVariables_iff.mp hnone var]
  | getenv var => exact congrArg Prod.snd (EnvState.getenv_initialized hinit var)
  | envInit => cases h
  | setenv var value fits => cases h
  | resetenv => cases h

/-- The area is left unused exactly if no variable can be found in what was loaded. -/
theorem unused_iff (ram : ByteMemory) (device : σ) :
    Unused nvram nvars ram device ↔
      NoVariables nvars (nvram.copyin (nvars * chunkSize) ram device).1 := by
  obtain ⟨henviron, hinit⟩ := EnvState.envInit_eq nvram nvars (EnvState.poweredOn ram device)
  change _ = (nvram.copyin (nvars * chunkSize) ram device).1 at henviron
  rw [← henviron]
  constructor
  · intro h
    have hnull := (h [] (fun _ hcall => by cases hcall)).1
    refine noVariables_iff.mpr fun var => getenv_eq_none_iff.mp ?_
    have hvar := hnull var
    rw [List.foldl_nil, EnvState.getenv_initialized hinit] at hvar
    exact hvar
  · intro h calls hquiet
    have hrun : calls.foldl (NvramCall.apply nvram nvars)
        ((EnvState.poweredOn ram device).envInit nvram nvars) =
        (EnvState.poweredOn ram device).envInit nvram nvars := by
      induction calls with
      | nil => rfl
      | cons call calls ih =>
          rw [List.foldl_cons, (hquiet call List.mem_cons_self).apply_eq hinit h]
          exact ih fun call hcall => hquiet call (List.mem_cons_of_mem _ hcall)
    rw [hrun]
    refine ⟨fun var => ?_, ?_⟩
    · rw [EnvState.getenv_initialized hinit]
      exact getenv_eq_none_iff.mpr (noVariables_iff.mp h var)
    · have hnone := getenv_eq_none_iff.mpr (noVariables_iff.mp h verboseName)
      rw [EnvState.envInit_verbose _ henviron.symm, hnone, Option.elim_none]
      rfl

end

/-- What the working area holds when it has been filled from the NVRAM. -/
def nonameContent (ram : ByteMemory) (d : BankedNvram) : ByteMemory :=
  fill ram 0 (fun i => d.bytes (nvramBase + i)) (nonameNvars * chunkSize)

/-- The same for the flash; nothing is copied if there is no block. -/
def flashContent (ram flash : ByteMemory) : ByteMemory :=
  match findNvram flash with
  | some block => fill ram 0 (fun i => flash (block * flashBlockSize + i)) (flashNvars * chunkSize)
  | none => ram

theorem nonameNvram_copyin (ram : ByteMemory) (d : BankedNvram) :
    (nonameNvram.copyin (nonameNvars * chunkSize) ram d).1 = nonameContent ram d := by
  have hmem := (BankedNvram.copyinFrom_eq (nonameNvars * chunkSize) (0 + nvramBase) 0 ram d
    (by decide)).1
  rw [Nat.zero_add] at hmem
  exact hmem

theorem flashNvram_copyin {σ : Type _} {part : FlashPart σ} (hpart : part.Reliable)
    (ram : ByteMemory) (c : σ) :
    ((flashNvram part).copyin (flashNvars * chunkSize) ram ⟨none, c⟩).1 =
      flashContent ram (part.read c) := by
  have hread := FlashNvram.locate_read hpart ⟨none, c⟩
  have hblock := FlashNvram.locate_flashBlock hpart ⟨none, c⟩
  change part.read _ = part.read c at hread
  change _ = findNvram (part.read c) at hblock
  simp only [flashNvram, FlashNvram.copyin, hblock, flashContent]
  cases findNvram (part.read c) with
  | none => rfl
  | some block =>
      simp only [FlashNvram.copyinFrom_eq, hread]

/-- Content that is not valid is left unused exactly if it has no variables. -/
theorem invalid_unused_iff (ram : ByteMemory) (d : BankedNvram) {σ : Type} {part : FlashPart σ}
    (hpart : part.Reliable) (c : σ) :
    ((¬ Present (nonameContent ram d) → Unused nonameNvram nonameNvars ram d) ↔
      Present (nonameContent ram d) ∨ NoVariables nonameNvars (nonameContent ram d)) ∧
    ((¬ Present (flashContent ram (part.read c)) →
        Unused (flashNvram part) flashNvars ram ⟨none, c⟩) ↔
      Present (flashContent ram (part.read c)) ∨
        NoVariables flashNvars (flashContent ram (part.read c))) := by
  constructor
  · rw [unused_iff, nonameNvram_copyin, ← or_iff_not_imp_left]
  · rw [unused_iff, flashNvram_copyin hpart, ← or_iff_not_imp_left]

/-! ## A stray variable -/

/-- The string `"1"`. -/
def digitOne : CString := ⟨[0x31], by decide, by decide⟩

/-- Zeros, but for `VERBOSE=1` at the start of chunk 1. -/
def strayNvram : BankedNvram where
  bank := 0
  cells bank i :=
    store (fun _ => 0) (storesAt (nvramBase + chunkAt 1) (entryBytes verboseName digitOne))
      (bank * 256 + i)

theorem strayNvram_content :
    nonameContent (fun _ => 0) strayNvram 0 = 0 ∧
      HoldsBytes (nonameContent (fun _ => 0) strayNvram) (chunkAt 1)
        (entryBytes verboseName digitOne) := by
  have hplace : ∀ x, strayNvram.bytes x = store (fun _ => 0)
      (storesAt (nvramBase + chunkAt 1) (entryBytes verboseName digitOne)) x := by
    intro x
    exact congrArg (store _ _) (Nat.div_add_mod' x 256)
  have hlen : (entryBytes verboseName digitOne).length = 10 := rfl
  constructor
  · rw [nonameContent, fill_start _ _ (by decide), hplace]
    refine store_outside _ _ _ ?_
    rw [Span.mem_mk]
    unfold chunkAt chunkSize
    omega
  · intro i b hb
    have hi := (List.getElem?_eq_some_iff.mp hb).1
    rw [nonameContent, fill_start _ _ (by unfold nonameNvars chunkAt chunkSize; omega), hplace,
      ← Nat.add_assoc]
    exact store_holds _ _ _ i b hb

/-- The area is not valid, and its variable is found and taken for the verbosity. -/
theorem stray_variable_used :
    ¬ Present (nonameContent (fun _ => 0) strayNvram) ∧
      ¬ Unused nonameNvram nonameNvars (fun _ => 0) strayNvram ∧
      ((EnvState.poweredOn (fun _ => 0) strayNvram).envInit nonameNvram nonameNvars).verbose =
        1 := by
  obtain ⟨hfirst, hentry⟩ := strayNvram_content
  obtain ⟨hnamed, hvalue⟩ := HoldsBytes.append.mp hentry
  have hholds : holdsVar (nonameContent (fun _ => 0) strayNvram) 1 verboseName = true :=
    holdsVar_iff.mpr hnamed
  have hfind : findVar (nonameContent (fun _ => 0) strayNvram) verboseName 1 (nonameNvars - 1) =
      some 1 := by
    have hcount : nonameNvars - 1 = 14 + 1 := rfl
    rw [hcount, findVar, if_pos hholds]
  have hgetenv : Env.getenv nonameNvars (nonameContent (fun _ => 0) strayNvram) verboseName =
      some (chunkAt 1 + 8) := by
    rw [Env.getenv, hfind]
    rfl
  have hstring : stringAt (nonameContent (fun _ => 0) strayNvram) (chunkAt 1 + 8) = [0x31] :=
    stringAt_eq digitOne.noNul (by decide) hvalue
  refine ⟨fun hpresent => ?_, fun hunused => ?_, ?_⟩
  · have hm : nonameContent (fun _ => 0) strayNvram (0 + 0) = 0x4d := hpresent 0 _ rfl
    rw [hfirst] at hm
    exact absurd hm (by decide)
  · rw [unused_iff, nonameNvram_copyin, noVariables_iff] at hunused
    cases (hunused verboseName).symm.trans hfind
  · rw [EnvState.envInit_verbose (EnvState.poweredOn (fun _ => 0) strayNvram)
      (nonameNvram_copyin (fun _ => 0) strayNvram), hgetenv, Option.elim_some, hstring]
    rfl

/-- A flash with no identification anywhere. -/
def erasedFlash : IdleChip := ⟨⟨false, .array, 0, fun _ => 0xff⟩, .inl rfl⟩

theorem erased_flash_unused :
    Unused (flashNvram i28f008sa) flashNvars (fun _ => 0) ⟨none, erasedFlash⟩ := by
  have hbytes : i28f008sa.read erasedFlash = fun _ => 0xff := by
    funext i
    exact IdleChip.bytes_eq erasedFlash i
  have hcontent : flashContent (fun _ => 0) (i28f008sa.read erasedFlash) = fun _ => 0 := by
    have hnone : findNvram (fun _ => 0xff) = none := by decide
    rw [hbytes, flashContent, hnone]
  refine (invalid_unused_iff (fun _ => 0) strayNvram i28f008sa_reliable erasedFlash).2.mpr
    (Or.inr ?_) ?_
  · rw [hcontent]
    intro k _ n _ hequal
    have hzero : ¬ (0 : UInt8) = equalSign := by decide
    exact absurd hequal hzero
  · rw [hcontent]
    intro hpresent
    exact absurd (hpresent 0 _ rfl) (by decide)

end Milo.Env
