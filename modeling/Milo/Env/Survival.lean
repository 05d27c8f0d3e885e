import Milo.Env.Restart

/-! # What a restart finds

A site of the area is what both devices have in common: bytes of the area, other
bytes, and whether the routines know where the area is. A call keeps the two in
step, whatever site it works on.
-/

namespace Milo.Env

open Foundation
open Milo.Flash (IdleChip findNvram flashBitSwitchOffset flashBlockSize flashBlocks holdsString
  i28f008sa i28f008sa_reliable place)

/-- Where a device keeps an area of some size, with what its routines do there. -/
structure Nvram.Site {σ : Type _} (nvram : Nvram σ) (size : Nat) where
  area : σ → ByteMemory
  rest : σ → ByteMemory
  Sound : σ → Prop
  /-- The routines know where the area is. -/
  Known : σ → Prop
  copyin : ∀ mem d, Sound d → Known d ∨ HoldsBytes (area d) 0 environId.chars →
    (nvram.copyin size mem d).1 = fill mem 0 (area d) size ∧
      Sound (nvram.copyin size mem d).2 ∧ Known (nvram.copyin size mem d).2 ∧
      area (nvram.copyin size mem d).2 = area d ∧ rest (nvram.copyin size mem d).2 = rest d
  copyout : ∀ mem d, Sound d → Known d →
    Sound (nvram.copyout size mem d) ∧ Known (nvram.copyout size mem d) ∧
      (∀ i < size, area (nvram.copyout size mem d) i = mem i) ∧
      rest (nvram.copyout size mem d) = rest d
  lost : ∀ mem d, Sound d → ¬ Known d → nvram.copyout size mem d = d
  restarts : ∀ d d', nvram.Restarts d d' → Sound d →
    Sound d' ∧ area d' = area d ∧ rest d' = rest d

section
variable {σ : Type _} {nvram : Nvram σ} {nvars : Nat}
variable (site : nvram.Site (nvars * chunkSize)) (others : ByteMemory)

/-- The device is as it should be. -/
structure OnDevice (d : σ) : Prop where
  sound : site.Sound d
  rest : site.rest d = others
  valid : ValidArea nvars (site.area d)

/-- The working area is the one on the device. -/
structure InStep (st : EnvState σ) : Prop extends OnDevice site others st.device where
  known : site.Known st.device
  same : ∀ i < nvars * chunkSize, st.environ i = site.area st.device i

/-- Once the working area is in use, it is in step. -/
structure Holding (st : EnvState σ) : Prop where
  device : OnDevice site others st.device
  loaded : st.initialized = true → InStep site others st

variable {site others}

theorem InStep.holding {st : EnvState σ} (h : InStep site others st) : Holding site others st :=
  ⟨h.toOnDevice, fun _ => h⟩

theorem InStep.environ_valid {st : EnvState σ} (h : InStep site others st) (hnvars : 2 ≤ nvars) :
    ValidArea nvars st.environ := h.valid.congr hnvars h.same

/-- The flag and the verbosity do not matter. -/
theorem InStep.of_eq {st st' : EnvState σ} (h : InStep site others st)
    (henviron : st'.environ = st.environ) (hdevice : st'.device = st.device) :
    InStep site others st' := by
  obtain ⟨environ, initialized, verbose, device⟩ := st'
  obtain rfl := henviron
  obtain rfl := hdevice
  exact ⟨h.toOnDevice, h.known, h.same⟩

theorem EnvState.fillEnv_inStep {st : EnvState σ} (h : OnDevice site others st.device) :
    InStep site others (st.fillEnv nvram nvars) ∧
      site.area (st.fillEnv nvram nvars).device = site.area st.device := by
  have hid := (HoldsBytes.append.mp h.valid.id).1
  obtain ⟨hmem, hsound, hknown, harea, hrest⟩ :=
    site.copyin st.environ st.device h.sound (Or.inr hid)
  refine ⟨⟨⟨hsound, hrest.trans h.rest, ?_⟩, hknown, fun i hi => ?_⟩, harea⟩
  · exact harea ▸ h.valid
  · change (nvram.copyin _ st.environ st.device).1 i = site.area _ i
    rw [hmem, fill_start _ _ hi]
    exact congrFun harea.symm i

theorem EnvState.saveEnv_inStep {st : EnvState σ} (hsound : site.Sound st.device)
    (hknown : site.Known st.device) (hrest : site.rest st.device = others)
    (hvalid : ValidArea nvars st.environ) (hnvars : 2 ≤ nvars) :
    InStep site others (st.saveEnv nvram nvars) := by
  obtain ⟨hsound', hknown', hsaved, hrest'⟩ := site.copyout st.environ st.device hsound hknown
  exact ⟨⟨hsound', hrest'.trans hrest, hvalid.congr hnvars hsaved⟩, hknown',
    fun i hi => (hsaved i hi).symm⟩

theorem EnvState.envInit_inStep {st : EnvState σ} (h : OnDevice site others st.device) :
    InStep site others (st.envInit nvram nvars) ∧
      site.area (st.envInit nvram nvars).device = site.area st.device := by
  obtain ⟨hfill, harea⟩ := EnvState.fillEnv_inStep h
  unfold EnvState.envInit
  simp only
  split
  · exact ⟨hfill.of_eq rfl rfl, harea⟩
  · exact ⟨hfill.of_eq rfl rfl, harea⟩

theorem EnvState.ensureInit_inStep {st : EnvState σ} (h : Holding site others st) :
    InStep site others (st.ensureInit nvram nvars) ∧
      site.area (st.ensureInit nvram nvars).device = site.area st.device := by
  rw [EnvState.ensureInit]
  split
  · exact ⟨h.loaded (by assumption), rfl⟩
  · exact EnvState.envInit_inStep h.device

theorem EnvState.setenv_inStep {st : EnvState σ} (h : Holding site others st) (hnvars : 2 ≤ nvars)
    {var value : CString} (hfits : var.chars.length + value.chars.length ≤ 126) :
    InStep site others (st.setenv nvram nvars var value) := by
  have hinit := (EnvState.ensureInit_inStep h).1
  unfold EnvState.setenv
  simp only
  split
  · rename_i k hchunk
    exact EnvState.saveEnv_inStep hinit.sound hinit.known hinit.rest
      ((hinit.environ_valid hnvars).setenv hfits hchunk) hnvars
  · exact hinit

theorem EnvState.unsetenv_inStep {st : EnvState σ} (h : Holding site others st)
    (hnvars : 2 ≤ nvars) (var : CString) : InStep site others (st.unsetenv nvram nvars var) := by
  have hinit := (EnvState.ensureInit_inStep h).1
  unfold EnvState.unsetenv
  simp only
  split
  · exact EnvState.saveEnv_inStep hinit.sound hinit.known hinit.rest
      ((hinit.environ_valid hnvars).unsetenv var) hnvars
  · exact hinit

/-- The test leaves a pattern on the device, and the routines know where. -/
theorem EnvState.testNvram_known {st : EnvState σ} (h : OnDevice site others st.device) :
    let d := (st.testNvram nvram nvars).device
    site.Sound d ∧ site.Known d ∧ site.rest d = others := by
  intro d
  have hcopyin : ∀ mem d', site.Sound d' ∧ site.rest d' = others →
      (site.Known d' ∨ HoldsBytes (site.area d') 0 environId.chars) →
      site.Sound (nvram.copyin (nvars * chunkSize) mem d').2 ∧
        site.Known (nvram.copyin (nvars * chunkSize) mem d').2 ∧
        site.rest (nvram.copyin (nvars * chunkSize) mem d').2 = others := by
    intro mem d' hd' hfound
    obtain ⟨-, hsound, hknown, -, hrest⟩ := site.copyin mem d' hd'.1 hfound
    exact ⟨hsound, hknown, hrest.trans hd'.2⟩
  by_cases hknown : site.Known st.device
  · obtain ⟨hsound', hknown', -, hrest'⟩ := site.copyout
      (EnvState.fillArea nvars (fun i => UInt8.ofNat (i >>> 8 ^^^ i)) st.environ) st.device
      h.sound hknown
    exact hcopyin _ _ ⟨hsound', hrest'.trans h.rest⟩ (Or.inl hknown')
  · -- before the block is known, the pattern is not saved
    have hlost := site.lost
      (EnvState.fillArea nvars (fun i => UInt8.ofNat (i >>> 8 ^^^ i)) st.environ) st.device
      h.sound hknown
    refine hcopyin _ _ ?_ (Or.inr ?_)
    · change site.Sound (nvram.copyout _ _ st.device) ∧ site.rest (nvram.copyout _ _ st.device) = _
      rw [hlost]
      exact ⟨h.sound, h.rest⟩
    · change HoldsBytes (site.area (nvram.copyout _ _ st.device)) 0 _
      rw [hlost]
      exact (HoldsBytes.append.mp h.valid.id).1

theorem EnvState.resetenv_inStep {st : EnvState σ} (h : Holding site others st)
    (hnvars : 2 ≤ nvars) : InStep site others (st.resetenv nvram nvars) := by
  obtain ⟨hsound, hknown, hrest⟩ := EnvState.testNvram_known h.device
  exact EnvState.saveEnv_inStep hsound hknown hrest (validArea_reset _ hnvars) hnvars

theorem NvramCall.apply_holding {st : EnvState σ} (h : Holding site others st) (hnvars : 2 ≤ nvars)
    (call : NvramCall) : Holding site others (call.apply nvram nvars st) := by
  cases call with
  | envInit => exact (EnvState.envInit_inStep h.device).1.holding
  | setenv var value fits => exact (EnvState.setenv_inStep h hnvars fits).holding
  | unsetenv var => exact (EnvState.unsetenv_inStep h hnvars var).holding
  | getenv var => exact (EnvState.ensureInit_inStep h).1.holding
  | resetenv => exact (EnvState.resetenv_inStep h hnvars).holding

theorem NvramCall.run_holding {st : EnvState σ} (h : Holding site others st) (hnvars : 2 ≤ nvars)
    (calls : List NvramCall) :
    Holding site others (calls.foldl (NvramCall.apply nvram nvars) st) := by
  induction calls generalizing st with
  | nil => exact h
  | cons call calls ih => exact ih (call.apply_holding h hnvars)

/-- The area decides what `getenv` answers. -/
theorem EnvState.answer_eq {st st' : EnvState σ} (h : Holding site others st)
    (h' : Holding site others st') (hnvars : 2 ≤ nvars)
    (harea : site.area st'.device = site.area st.device) (var : CString) :
    st'.answer nvram nvars var = st.answer nvram nvars var := by
  obtain ⟨hinit, hkept⟩ := EnvState.ensureInit_inStep h
  obtain ⟨hinit', hkept'⟩ := EnvState.ensureInit_inStep h'
  have hsame : ∀ i < nvars * chunkSize,
      (st'.ensureInit nvram nvars).environ i = (st.ensureInit nvram nvars).environ i := by
    intro i hi
    rw [hinit.same i hi, hinit'.same i hi, hkept, hkept', harea]
  obtain ⟨hgetenv, hstring⟩ := (hinit.environ_valid hnvars).getenv_congr hnvars hsame var
  refine (congrArg (Option.map _) hgetenv).trans (Option.map_congr fun p hp => ?_)
  exact congrArg (Prod.mk p) (hstring p hp)

theorem Survives.mono {Untouched Untouched' : σ → Prop} {start : σ}
    (h : Survives nvram nvars Untouched start) (himp : ∀ d, Untouched d → Untouched' d) :
    Survives nvram nvars Untouched' start := by
  intro ram calls st
  obtain ⟨hbefore, hafter⟩ := h ram calls
  refine ⟨himp _ hbefore, fun ram' device' hrestarts => ?_⟩
  obtain ⟨huntouched, hanswer⟩ := hafter ram' device' hrestarts
  exact ⟨himp _ huntouched, hanswer⟩

/-- A valid area at a site survives, and so do the other bytes. -/
theorem survives_of_site (site : nvram.Site (nvars * chunkSize)) (start : σ) (hnvars : 2 ≤ nvars)
    (hsound : site.Sound start) (hvalid : ValidArea nvars (site.area start)) :
    Survives nvram nvars (fun d => site.rest d = site.rest start) start := by
  intro ram calls st
  have hstart : Holding site (site.rest start) (EnvState.poweredOn ram start) :=
    ⟨⟨hsound, rfl, hvalid⟩, fun h => by cases h⟩
  have hrun : Holding site (site.rest start) st := NvramCall.run_holding hstart hnvars calls
  refine ⟨hrun.device.rest, fun ram' device' hrestarts => ?_⟩
  obtain ⟨hsound', harea, hrest⟩ := site.restarts st.device device' hrestarts hrun.device.sound
  have hdevice : OnDevice site (site.rest start) device' :=
    ⟨hsound', hrest.trans hrun.device.rest, harea ▸ hrun.device.valid⟩
  obtain ⟨hinit, hkept⟩ :=
    @EnvState.envInit_inStep _ _ _ _ _ (EnvState.poweredOn ram' device') hdevice
  exact ⟨hinit.rest, EnvState.answer_eq hrun hinit.holding hnvars (hkept.trans harea)⟩

end

/-! ## The two devices -/

/-- The NVRAM of the NoName board, which keeps its cells over a restart. -/
def nonameNvram : Nvram BankedNvram where
  copyin size mem d := d.copyin 0 0 size mem
  copyout size mem d := d.copyout 0 0 size mem
  Restarts d d' := d'.cells = d.cells

/-- A flash block, which is looked for again after a restart. -/
def flashNvram {σ : Type _} (part : FlashPart σ) : Nvram (FlashNvram σ) where
  copyin size mem st := FlashNvram.copyin part 0 size mem st
  copyout size mem st := FlashNvram.copyout part 0 size mem st
  Restarts st st' := st'.flashBlock = none ∧ part.read st'.chip = part.read st.chip

/-- `ENVIRON_NVARS` of the NoName board. -/
def nonameNvars : Nat := 2 * 1024 / chunkSize

/-- `ENVIRON_NVARS` of the other boards. -/
def flashNvars : Nat := 8192 / chunkSize

def nonameSite (size : Nat) (hsize : nvramBase + size ≤ 8192) : nonameNvram.Site size where
  area d i := d.bytes (nvramBase + i)
  rest d x := if x ∈ (⟨nvramBase, size⟩ : Span) then 0 else d.bytes x
  Sound _ := True
  Known _ := True
  copyin := by
    intro mem d _ _
    obtain ⟨hmem, hbytes⟩ :=
      BankedNvram.copyinFrom_eq size (0 + nvramBase) 0 mem d (by rwa [Nat.zero_add])
    rw [Nat.zero_add] at hmem
    simp only [nonameNvram, BankedNvram.copyin, hbytes]
    exact ⟨hmem, trivial, trivial, trivial, trivial⟩
  copyout := by
    intro mem d _ _
    have hbytes := BankedNvram.copyoutFrom_eq size (0 + nvramBase) 0 mem d (by rwa [Nat.zero_add])
    simp only [Nat.zero_add] at hbytes
    simp only [nonameNvram, BankedNvram.copyout, Nat.zero_add, hbytes]
    refine ⟨trivial, trivial, fun i hi => fill_inside hi, ?_⟩
    funext x
    by_cases hx : x ∈ (⟨nvramBase, size⟩ : Span)
    · rw [if_pos hx, if_pos hx]
    · rw [if_neg hx, if_neg hx, fill_outside hx]
  lost := fun _ _ _ hunknown => absurd trivial hunknown
  restarts := by
    intro d d' hcells _
    have hbytes : d'.bytes = d.bytes := by
      unfold BankedNvram.bytes
      rw [hcells]
    simp only [hbytes]
    exact ⟨trivial, trivial, trivial⟩

theorem holdsString_iff {flash : ByteMemory} {offset : Nat} {string : List UInt8} :
    holdsString flash offset string = true ↔ HoldsBytes flash offset string := by
  induction string generalizing offset with
  | nil => simp [holdsString, HoldsBytes]
  | cons c string ih =>
      rw [holdsString, Bool.and_eq_true, beq_iff_eq, ih, ← List.singleton_append,
        HoldsBytes.append]
      simp [HoldsBytes, List.getElem?_singleton]

/-- The block with the identification is found if there is only one. -/
theorem findNvram_unique {flash : ByteMemory} {block : Nat} (hblock : block < flashBlocks)
    (hid : holdsString flash (block * flashBlockSize) environId.chars = true)
    (hother : ∀ b < flashBlocks, b ≠ block →
      holdsString flash (b * flashBlockSize) environId.chars = false) :
    findNvram flash = some block := by
  cases hfind : findNvram flash with
  | none =>
      have hno := List.find?_eq_none.mp hfind block (List.mem_range.mpr hblock)
      exact absurd hid hno
  | some b =>
      have hfound := List.find?_some hfind
      have hb := List.mem_range.mp (List.mem_of_find?_eq_some hfind)
      by_cases hne : b = block
      · rw [hne]
      · rw [hother b hb hne] at hfound
        cases hfound

section
variable {σ : Type _} (part : FlashPart σ) (block : Nat)

/-- The block is known or has yet to be found, and no other one has the
identification. -/
structure FlashSound (st : FlashNvram σ) : Prop where
  located : st.flashBlock = none ∨ st.flashBlock = some block
  others : ∀ b < flashBlocks, b ≠ block →
    holdsString (part.read st.chip) (b * flashBlockSize) environId.chars = false

variable {part block}

theorem FlashSound.other_bytes {st st' : FlashNvram σ} (h : FlashSound part block st)
    (hlocated : st'.flashBlock = none ∨ st'.flashBlock = some block)
    (hsame : ∀ x, x / flashBlockSize ≠ block → part.read st'.chip x = part.read st.chip x) :
    FlashSound part block st' where
  located := hlocated
  others := by
    intro b hb hne
    rw [← Bool.not_eq_true, holdsString_iff]
    intro hid
    have hlen : environId.chars.length = 16 := rfl
    have hold : HoldsBytes (part.read st.chip) (b * flashBlockSize) environId.chars := by
      refine hid.congr fun x hx => (hsame x ?_).symm
      rw [Span.mem_mk, hlen] at hx
      unfold flashBlockSize at *
      omega
    rw [← holdsString_iff, h.others b hb hne] at hold
    cases hold

/-- The search of the first call finds the block. -/
theorem FlashSound.locate {st : FlashNvram σ} (h : FlashSound part block st)
    (hpart : part.Reliable) (hblock : block < flashBlocks)
    (hfound : st.flashBlock = some block ∨
      HoldsBytes (part.read st.chip) (block * flashBlockSize) environId.chars) :
    (FlashNvram.locate part st).flashBlock = some block := by
  rw [FlashNvram.locate_flashBlock hpart]
  rcases h.located with hnone | hsome
  · rw [hnone] at hfound ⊢
    rcases hfound with hsome | hid
    · cases hsome
    · exact findNvram_unique hblock (holdsString_iff.mpr hid) h.others
  · rw [hsome]

end

def flashSite {σ : Type _} (part : FlashPart σ) (hpart : part.Reliable) (block : Nat)
    (hblock : block < flashBlocks) (size : Nat) (hsize : size ≤ flashBlockSize) :
    (flashNvram part).Site size where
  area := FlashNvram.bytesFrom part block
  rest st x := if x / flashBlockSize = block then 0 else part.read st.chip x
  Sound := FlashSound part block
  Known st := st.flashBlock = some block
  copyin := by
    intro mem st hsound hfound
    have hzero : HoldsBytes (FlashNvram.bytesFrom part block st) 0 environId.chars →
        HoldsBytes (part.read st.chip) (block * flashBlockSize) environId.chars := by
      intro h i b hb
      have hbyte := h i b hb
      rwa [Nat.zero_add] at hbyte
    have hlocated := hsound.locate hpart hblock (hfound.imp_right hzero)
    have hread := FlashNvram.locate_read hpart st
    have hsound' : FlashSound part block (FlashNvram.locate part st) :=
      hsound.other_bytes (Or.inr hlocated) fun x _ => congrFun hread x
    simp only [flashNvram, FlashNvram.copyin, hlocated, FlashNvram.copyinFrom_eq]
    unfold FlashNvram.bytesFrom
    rw [hread]
    exact ⟨rfl, hsound', trivial, rfl, rfl⟩
  copyout := by
    intro mem st hsound hknown
    obtain ⟨hsaved, hframe⟩ := FlashNvram.copyout_read hpart hknown hblock hsize 0 mem
    have hknown' : (FlashNvram.copyout part 0 size mem st).flashBlock = some block := by
      simp only [FlashNvram.copyout, hknown]
    refine ⟨hsound.other_bytes (Or.inr hknown') hframe, hknown', fun i hi => ?_, ?_⟩
    · exact (hsaved i hi).trans (congrArg mem (Nat.zero_add i))
    · funext x
      by_cases hx : x / flashBlockSize = block
      · rw [if_pos hx, if_pos hx]
      · rw [if_neg hx, if_neg hx]
        exact hframe x hx
  lost := by
    intro mem st hsound hunknown
    have hnone : st.flashBlock = none := hsound.located.resolve_right hunknown
    simp only [flashNvram, FlashNvram.copyout, hnone]
  restarts := by
    intro st st' hrestarts hsound
    obtain ⟨hnone, hread⟩ := hrestarts
    refine ⟨hsound.other_bytes (Or.inl hnone) fun x _ => congrFun hread x, ?_, ?_⟩
    · unfold FlashNvram.bytesFrom
      rw [hread]
    · rw [hread]

/-- The environment survives a restart on either device, and the rest of the
device is left alone. -/
theorem environment_survives_restart :
    (∀ d : BankedNvram, ValidArea nonameNvars (fun i => d.bytes (nvramBase + i)) →
      Survives nonameNvram nonameNvars (fun d' =>
        ∀ x ∉ (⟨nvramBase, nonameNvars * chunkSize⟩ : Span), d'.bytes x = d.bytes x) d) ∧
    ∀ {σ : Type} (part : FlashPart σ), part.Reliable → ∀ (c : σ) (block : Nat),
      block < flashBlocks →
      (∀ b < flashBlocks,
        holdsString (part.read c) (b * flashBlockSize) environId.chars = true ↔ b = block) →
      ValidArea flashNvars (FlashNvram.bytesFrom part block ⟨none, c⟩) →
      Survives (flashNvram part) flashNvars (fun st =>
        ∀ x, x / flashBlockSize ≠ block → part.read st.chip x = part.read c x) ⟨none, c⟩ := by
  constructor
  · intro d hvalid
    have hsurvives := survives_of_site (nonameSite (nonameNvars * chunkSize) (by decide)) d
      (by decide) trivial hvalid
    refine hsurvives.mono fun d' hrest x hx => ?_
    have hbyte := congrFun hrest x
    simpa only [nonameSite, if_neg hx] using hbyte
  · intro σ part hpart c block hblock honly hvalid
    have hothers : ∀ b < flashBlocks, b ≠ block →
        holdsString (part.read c) (b * flashBlockSize) environId.chars = false := by
      intro b hb hne
      rw [← Bool.not_eq_true, honly b hb]
      exact hne
    have hsurvives := survives_of_site
      (flashSite part hpart block hblock (flashNvars * chunkSize) (by decide)) ⟨none, c⟩
      (by decide) ⟨Or.inl rfl, hothers⟩ hvalid
    refine hsurvives.mono fun st hrest x hx => ?_
    have hbyte := congrFun hrest x
    simpa only [flashSite, if_neg hx] using hbyte

/-- A memory with nothing but the identification. -/
def labelled (place : Nat) : ByteMemory := store (fun _ => 0) (strcpy place environId)

theorem labelled_id (place : Nat) : HoldsBytes (labelled place) place environId.chars :=
  (HoldsBytes.append.mp (store_holds (fun _ => 0) place environId.bytes)).1

theorem labelled_valid {nvars place : Nat} (hnvars : 2 ≤ nvars) :
    ValidArea nvars fun i => labelled place (place + i) where
  id := by
    intro i b hb
    have hbyte := store_holds (fun _ => 0) place environId.bytes i b hb
    rwa [Nat.zero_add]
  ends := by
    have hlen : environId.bytes.length = 17 := rfl
    refine ⟨chunkAt (nvars - 1), Span.mem_mk.mpr (by unfold chunkSize; omega), ?_⟩
    refine store_outside _ _ _ ?_
    rw [Span.mem_mk, hlen]
    unfold chunkAt chunkSize
    omega

def labelledNvram : BankedNvram := ⟨0, fun bank i => labelled nvramBase (bank * 256 + i)⟩

/-- A flash that answers at the third poll. -/
def labelledFlash (block : Nat) : IdleChip where
  val :=
    { line := false
      mode := .array
      delay := 3
      cells := fun cell => labelled (block * flashBlockSize)
        (if cell.1 then flashBitSwitchOffset + cell.2 else cell.2) }
  property := .inl rfl

theorem labelledFlash_bytes (block : Nat) :
    (labelledFlash block).bytes = labelled (block * flashBlockSize) := by
  funext i
  rw [IdleChip.bytes_eq, place]
  split
  · rename_i hhalf
    simp only [labelledFlash, if_true]
    rw [Nat.add_sub_cancel' hhalf]
  · simp only [labelledFlash, Bool.false_eq_true, if_false]

theorem labelled_survive_restart :
    Survives nonameNvram nonameNvars (fun d' =>
      ∀ x ∉ (⟨nvramBase, nonameNvars * chunkSize⟩ : Span), d'.bytes x = labelledNvram.bytes x)
      labelledNvram ∧
    Survives (flashNvram i28f008sa) flashNvars (fun st =>
      ∀ x, x / flashBlockSize ≠ 9 → st.chip.bytes x = (labelledFlash 9).bytes x)
      ⟨none, labelledFlash 9⟩ := by
  have hbytes : labelledNvram.bytes = labelled nvramBase := by
    funext x
    exact congrArg (labelled nvramBase) (Nat.div_add_mod' x 256)
  have hread : i28f008sa.read (labelledFlash 9) = labelled (9 * flashBlockSize) :=
    labelledFlash_bytes 9
  refine ⟨environment_survives_restart.1 labelledNvram ?_,
    environment_survives_restart.2 i28f008sa i28f008sa_reliable (labelledFlash 9) 9 (by decide)
      ?_ ?_⟩
  · rw [hbytes]
    exact labelled_valid (by decide)
  · intro b _
    rw [hread, holdsString_iff]
    constructor
    · intro hid
      by_contra hne
      have hlen : environId.bytes.length = 17 := rfl
      have hfirst : labelled (9 * flashBlockSize) (b * flashBlockSize + 0) = 0x4d := hid 0 _ rfl
      rw [labelled, strcpy, store_outside _ _ _ (by
        rw [Span.mem_mk, hlen]
        unfold flashBlockSize
        omega)] at hfirst
      exact absurd hfirst (by decide)
    · rintro rfl
      exact labelled_id (9 * flashBlockSize)
  · unfold FlashNvram.bytesFrom
    rw [hread]
    exact labelled_valid (by decide)

end Milo.Env
