import Milo.Boot.Elf

/-! # What accepting a header guarantees

`load_image_from_memory` performs the copy for every header that passes the
tests of `extract_header_info`. Whether the copy then stays in bounds is decided
by the fields alone.
-/

namespace Milo.Boot

open Foundation Milo.Memory

section
variable (elfCheckArch : Nat → Bool) (mem : ByteMemory) (address : Nat)

/-- A test of the header fails, or the offset is negative. -/
def Rejected : Prop :=
  identOk mem address = false ∨ eType mem address ≠ etExec ∨
    elfCheckArch (eMachine mem address) = false ∨ ePhnum mem address ≠ 1 ∨
    u64 (ePhoff mem address + phdrSize) > iobufSize ∨
    2 ^ 63 ≤ u64 (pOffset mem address + (eEntry mem address - pVaddr mem address))

/-- What must hold of a copy from `source`. -/
structure CopySafe (t : Traced LoadResult) (source : Nat) : Prop where
  phdr : Span.Within ⟨phdrAt mem address, phdrSize⟩ ⟨address, iobufSize⟩
  exact : t.Exact
  reads : Span.Within ⟨source, t.value.kernel.kernelFilesize⟩ ⟨address, maxKernelSize⟩
  writes : Span.Within ⟨t.value.kernel.kernelAt, t.value.kernel.kernelFilesize⟩
    ⟨kernelStart, maxKernelSize⟩

/-- The fields describe a segment of the staged image that fits the kernel area. -/
structure HeaderInRange : Prop where
  phdr : ePhoff mem address + phdrSize ≤ iobufSize
  entry : kernelStart ≤ eEntry mem address
  adjust : pVaddr mem address < eEntry mem address →
    eEntry mem address ≤ pVaddr mem address + pFilesz mem address ∧
      eEntry mem address ≤ pVaddr mem address + pMemsz mem address
  memsize : pMemsz mem address + pageSize <
    2 ^ 64 + (eEntry mem address - pVaddr mem address)
  source : address + pOffset mem address + (eEntry mem address - pVaddr mem address) < 2 ^ 64
  segment : max (pVaddr mem address) (eEntry mem address) <
      pVaddr mem address + pFilesz mem address →
    pOffset mem address + pFilesz mem address ≤ maxKernelSize ∧
      pVaddr mem address + pFilesz mem address ≤ kernelStart + maxKernelSize

theorem eEntry_lt : eEntry mem address < 2 ^ 64 := readLe_lt _ _ 8
theorem ePhoff_lt : ePhoff mem address < 2 ^ 64 := readLe_lt _ _ 8
theorem pOffset_lt : pOffset mem address < 2 ^ 64 := readLe_lt _ _ 8
theorem pVaddr_lt : pVaddr mem address < 2 ^ 64 := readLe_lt _ _ 8
theorem pFilesz_lt : pFilesz mem address < 2 ^ 64 := readLe_lt _ _ 8
theorem pMemsz_lt : pMemsz mem address < 2 ^ 64 := readLe_lt _ _ 8

/-! ## Accepted headers -/

/-- The entry adjustment; it is zero in the branch without one. -/
def entryDelta : Nat := eEntry mem address - pVaddr mem address

/-- The kernel that an accepted header describes, in either branch. -/
def acceptedKernel (k : KernelInfo) : KernelInfo :=
  { k with
    kernelAt := max (pVaddr mem address) (eEntry mem address)
    kernelEntry := eEntry mem address
    kernelFilesize := sub64 (pFilesz mem address) (entryDelta mem address)
    kernelMemsize := sub64 (pMemsz mem address) (entryDelta mem address) }

def acceptedOffset : Nat := u64 (pOffset mem address + entryDelta mem address)

/-- No operation of `extract_header_info` wraps around. -/
def ExtractExact : Prop :=
  ePhoff mem address + phdrSize < 2 ^ 64 ∧ address + ePhoff mem address < 2 ^ 64 ∧
    (pVaddr mem address < eEntry mem address →
      pOffset mem address + entryDelta mem address < 2 ^ 64 ∧
        entryDelta mem address ≤ pFilesz mem address ∧
        entryDelta mem address ≤ pMemsz mem address)

variable {elfCheckArch mem address}

/-- The tests before the program header is read, all passed. -/
structure TestsPassed (elfCheckArch : Nat → Bool) (mem : ByteMemory) (address : Nat) : Prop where
  ident : identOk mem address = true
  type : eType mem address = etExec
  arch : elfCheckArch (eMachine mem address) = true
  phnum : ePhnum mem address = 1
  phend : u64 (ePhoff mem address + phdrSize) ≤ iobufSize

theorem not_rejected_iff :
    ¬ Rejected elfCheckArch mem address ↔
      TestsPassed elfCheckArch mem address ∧ acceptedOffset mem address < 2 ^ 63 := by
  simp only [Rejected, not_or, Bool.not_eq_false, not_not]
  constructor
  · rintro ⟨hident, htype, harch, hphnum, hphend, hoffset⟩
    exact ⟨⟨hident, htype, harch, hphnum, Nat.le_of_not_lt hphend⟩, Nat.lt_of_not_le hoffset⟩
  · rintro ⟨⟨hident, htype, harch, hphnum, hphend⟩, hoffset⟩
    exact ⟨hident, htype, harch, hphnum, Nat.not_lt_of_le hphend, Nat.not_le_of_lt hoffset⟩

theorem extractHeaderInfo_passed {k : KernelInfo} (h : TestsPassed elfCheckArch mem address) :
    (extractHeaderInfo elfCheckArch mem address k).value =
        (acceptedOffset mem address, acceptedKernel mem address k) ∧
      ((extractHeaderInfo elfCheckArch mem address k).Exact ↔ ExtractExact mem address) := by
  have hentry := eEntry_lt mem address
  have hvaddr := pVaddr_lt mem address
  have hoffset := pOffset_lt mem address
  have hfilesz := pFilesz_lt mem address
  have hmemsz := pMemsz_lt mem address
  have hphend : ¬ iobufSize < u64 (ePhoff mem address + phdrSize) := Nat.not_lt_of_le h.phend
  unfold extractHeaderInfo
  rw [if_neg (by simp [h.ident]), if_neg (by simp [h.type]), if_neg (by simp [h.arch]),
    if_neg (by simp [h.phnum])]
  by_cases hadjust : pVaddr mem address < eEntry mem address
  · have hdelta : sub64 (eEntry mem address) (pVaddr mem address) = entryDelta mem address :=
      sub64_of_le hentry (by omega)
    have hat : max (pVaddr mem address) (eEntry mem address) = eEntry mem address := by omega
    constructor
    · simp [hphend, hadjust, hdelta, acceptedOffset, acceptedKernel, hat]
    · simp [hphend, hadjust, hdelta, ExtractExact, Nat.le_of_lt hadjust]
  · have hdelta : entryDelta mem address = 0 := by
      unfold entryDelta
      omega
    have hat : max (pVaddr mem address) (eEntry mem address) = pVaddr mem address := by omega
    constructor
    · simp [hphend, hadjust, hdelta, acceptedOffset, acceptedKernel, hat, u64_of_lt hoffset,
        sub64_of_le hfilesz (Nat.zero_le _), sub64_of_le hmemsz (Nat.zero_le _)]
    · simp [hphend, hadjust, ExtractExact]

theorem extractHeaderInfo_failed {k : KernelInfo} (h : ¬ TestsPassed elfCheckArch mem address) :
    (extractHeaderInfo elfCheckArch mem address k).value = (minusOne, k) := by
  unfold extractHeaderInfo
  split
  · rfl
  · split
    · rfl
    · split
      · rfl
      · split
        · rfl
        · rename_i hident htype harch hphnum
          have hphend : u64 (ePhoff mem address + phdrSize) > iobufSize := by
            by_contra hend
            exact h ⟨by simpa using hident, by simpa using htype, by simpa using harch,
              by simpa using hphnum, by omega⟩
          simp [hphend]

/-! ## The copy -/

/-- The address the segment is copied from. -/
def acceptedSource (mem : ByteMemory) (address : Nat) : Nat :=
  u64 (address + acceptedOffset mem address)

theorem loadImage_rejected {k : KernelInfo} (h : Rejected elfCheckArch mem address) :
    (loadImageFromMemory elfCheckArch mem address k).value.source = none := by
  by_cases hpassed : TestsPassed elfCheckArch mem address
  · have hoffset : 2 ^ 63 ≤ acceptedOffset mem address := by
      by_contra hlt
      exact not_rejected_iff.mpr ⟨hpassed, by omega⟩ h
    rw [loadImageFromMemory, Traced.value_bind, (extractHeaderInfo_passed hpassed).1]
    dsimp only
    rw [if_pos hoffset]
    rfl
  · simp [loadImageFromMemory, extractHeaderInfo_failed hpassed, minusOne]

/-- What the copy of an accepted image uses and leaves. -/
theorem loadImage_accepted (k : KernelInfo) (h : ¬ Rejected elfCheckArch mem address) :
    let r := (loadImageFromMemory elfCheckArch mem address k).value
    r.entry = eEntry mem address ∧
      r.kernel.kernelAt = max (pVaddr mem address) (eEntry mem address) ∧
      r.kernel.kernelFilesize = sub64 (pFilesz mem address) (entryDelta mem address) ∧
      r.mem = memcpy mem r.kernel.kernelAt (acceptedSource mem address) r.kernel.kernelFilesize ∧
      r.source = some (acceptedSource mem address) := by
  obtain ⟨hpassed, hoffset⟩ := not_rejected_iff.mp h
  rw [loadImageFromMemory, Traced.value_bind, (extractHeaderInfo_passed hpassed).1]
  dsimp only
  rw [if_neg (Nat.not_le_of_lt hoffset)]
  simp [acceptedKernel, acceptedSource]

theorem loadImage_exact (k : KernelInfo) (h : ¬ Rejected elfCheckArch mem address) :
    (loadImageFromMemory elfCheckArch mem address k).Exact ↔
      ExtractExact mem address ∧
        sub64 (pMemsz mem address) (entryDelta mem address) + pageSize < 2 ^ 64 ∧
        kernelStart ≤ eEntry mem address ∧ address + acceptedOffset mem address < 2 ^ 64 := by
  obtain ⟨hpassed, hoffset⟩ := not_rejected_iff.mp h
  obtain ⟨hvalue, hexact⟩ := extractHeaderInfo_passed (k := k) hpassed
  have hentry := eEntry_lt mem address
  have hmemsz : sub64 (pMemsz mem address) (entryDelta mem address) < 2 ^ 64 := u64_lt _
  simp only [loadImageFromMemory, Traced.exact_bind, hvalue, hexact, Nat.not_le_of_lt hoffset,
    if_false, Traced.exact_add, Traced.exact_sub, Traced.exact_pure, Traced.value_add,
    Traced.value_sub, acceptedKernel, and_true, pageShift, Nat.shiftRight_eq_div_pow]
  generalize sub64 (pMemsz mem address) (entryDelta mem address) = memsize at *
  constructor
  · rintro ⟨hextract, hpages, _, hstart, _, _, _, hsource⟩
    exact ⟨hextract, hpages, hstart, hsource⟩
  · rintro ⟨hextract, hpages, hstart, hsource⟩
    have hpast : sub64 (eEntry mem address) kernelStart < 2 ^ 42 := by
      rw [sub64_of_le hentry hstart]
      simp only [kernelStart]
      omega
    generalize sub64 (eEntry mem address) kernelStart = past at *
    rw [u64_of_lt hpages, u64_of_lt (show past + pageSize < 2 ^ 64 by simp only [pageSize]; omega),
      sub64_of_le hpages (by simp only [pageSize]; omega),
      sub64_of_le (by simp only [pageSize]; omega) (by simp only [pageSize]; omega)]
    simp only [pageSize] at *
    refine ⟨hextract, hpages, by omega, hstart, by omega, by omega, by omega, hsource⟩

/-! ## The condition is exact -/

/-- Without an underflow the adjusted values are plain differences and sums. -/
theorem adjusted_values (mem : ByteMemory) (address : Nat)
    (hadjust : pVaddr mem address < eEntry mem address →
      pOffset mem address + entryDelta mem address < 2 ^ 64 ∧
        entryDelta mem address ≤ pFilesz mem address ∧
        entryDelta mem address ≤ pMemsz mem address) :
    sub64 (pFilesz mem address) (entryDelta mem address) + entryDelta mem address =
        pFilesz mem address ∧
      sub64 (pMemsz mem address) (entryDelta mem address) + entryDelta mem address =
        pMemsz mem address ∧
      acceptedOffset mem address = pOffset mem address + entryDelta mem address := by
  have hoffset := pOffset_lt mem address
  have hfilesz := pFilesz_lt mem address
  have hmemsz := pMemsz_lt mem address
  have hsmall : pOffset mem address + entryDelta mem address < 2 ^ 64 ∧
      entryDelta mem address ≤ pFilesz mem address ∧
      entryDelta mem address ≤ pMemsz mem address := by
    by_cases hlt : pVaddr mem address < eEntry mem address
    · exact hadjust hlt
    · have hzero : entryDelta mem address = 0 := by
        unfold entryDelta
        omega
      rw [hzero]
      omega
  obtain ⟨hsum, hfile, hmem⟩ := hsmall
  rw [sub64_of_le hfilesz hfile, sub64_of_le hmemsz hmem, acceptedOffset, u64_of_lt hsum]
  omega

/-- A performed copy is safe exactly for the headers whose fields are in range. -/
theorem loadImage_safe_iff_inRange (elfCheckArch : Nat → Bool) (mem : ByteMemory) (address : Nat)
    (k : KernelInfo) (haddress : address + maxKernelSize ≤ 2 ^ 64) :
    (∀ source, (loadImageFromMemory elfCheckArch mem address k).value.source = some source →
        CopySafe mem address (loadImageFromMemory elfCheckArch mem address k) source) ↔
      Rejected elfCheckArch mem address ∨ HeaderInRange mem address := by
  by_cases hrejected : Rejected elfCheckArch mem address
  · simp [loadImage_rejected hrejected, hrejected]
  · obtain ⟨_, hat, hfilesize, _, hsource⟩ := loadImage_accepted k hrejected
    have hexact := loadImage_exact k hrejected
    have hentry := eEntry_lt mem address
    have hphoff := ePhoff_lt mem address
    have hoffset := pOffset_lt mem address
    have hvaddr := pVaddr_lt mem address
    have hfilesz := pFilesz_lt mem address
    have hmemsz := pMemsz_lt mem address
    simp only [hsource, Option.some.injEq, forall_eq', hrejected, false_or]
    constructor
    · rintro ⟨hphdr, hops, hreads, hwrites⟩
      obtain ⟨⟨hphend, hphdrAt, hadjust⟩, hpages, hstart, hsourceLt⟩ := hexact.mp hops
      obtain ⟨hfile, hmem, hoff⟩ := adjusted_values mem address hadjust
      rw [Span.within_iff] at hphdr hreads hwrites
      rw [hat, hfilesize] at hwrites
      rw [hfilesize, acceptedSource, u64_of_lt hsourceLt] at hreads
      rw [phdrAt, u64_of_lt hphdrAt] at hphdr
      simp only [maxKernelSize, iobufSize, phdrSize, kernelStart, pageSize, entryDelta] at *
      refine ⟨?_, hstart, by omega, ?_, by omega, ?_⟩
      · simp only [phdrSize, iobufSize]
        omega
      · simp only [pageSize]
        omega
      · simp only [maxKernelSize, kernelStart]
        omega
    · rintro ⟨hphdr, hstart, hadjust, hpages, hsourceLt, hsegment⟩
      have hdelta : pVaddr mem address < eEntry mem address →
          pOffset mem address + entryDelta mem address < 2 ^ 64 ∧
            entryDelta mem address ≤ pFilesz mem address ∧
            entryDelta mem address ≤ pMemsz mem address := by
        intro hlt
        have hadd := hadjust hlt
        unfold entryDelta
        omega
      obtain ⟨hfile, hmem, hoff⟩ := adjusted_values mem address hdelta
      have hphdrAt : address + ePhoff mem address < 2 ^ 64 := by
        simp only [maxKernelSize, iobufSize, phdrSize] at *
        omega
      have hacceptedLt : address + acceptedOffset mem address < 2 ^ 64 := by
        rw [hoff]
        unfold entryDelta
        omega
      refine ⟨?_, hexact.mpr ⟨⟨?_, hphdrAt, hdelta⟩, ?_, hstart, hacceptedLt⟩, ?_, ?_⟩
      · rw [Span.within_iff, phdrAt, u64_of_lt hphdrAt]
        simp only [iobufSize, phdrSize] at *
        omega
      · simp only [iobufSize, phdrSize] at *
        omega
      · simp only [pageSize, entryDelta] at *
        omega
      · rw [Span.within_iff, hfilesize, acceptedSource, u64_of_lt hacceptedLt]
        simp only [maxKernelSize, kernelStart, entryDelta] at *
        omega
      · rw [Span.within_iff, hat, hfilesize]
        simp only [maxKernelSize, kernelStart, entryDelta] at *
        omega

end

/-- A kernel of 1 Mb with its entry 0x310 bytes in. -/
def goodImage : ByteMemory :=
  elfImage 0 stagedAt (kernelStart + 0x310) 0x2000 kernelStart 0x100000 0x120000

theorem loadImage_safe_good :
    ∃ source,
      (loadImageFromMemory alphaOnly goodImage stagedAt noKernel).value.source = some source ∧
        CopySafe goodImage stagedAt (loadImageFromMemory alphaOnly goodImage stagedAt noKernel)
          source := by
  have hsource : (loadImageFromMemory alphaOnly goodImage stagedAt noKernel).value.source =
      some (stagedAt + 0x2310) := by decide +kernel
  refine ⟨_, hsource, ?_⟩
  refine (loadImage_safe_iff_inRange alphaOnly goodImage stagedAt noKernel (by decide)).mpr
    (Or.inr ?_) _ hsource
  constructor <;> decide +kernel

/-- A header may ask for more bytes than were staged, or than the kernel area holds. -/
def longImage : ByteMemory :=
  elfImage 0 stagedAt kernelStart 0x2000 kernelStart 0x900000 0x900000

theorem loadImage_copies_past_area :
    ∃ source,
      (loadImageFromMemory alphaOnly longImage stagedAt noKernel).value.source = some source ∧
        ¬ CopySafe longImage stagedAt (loadImageFromMemory alphaOnly longImage stagedAt noKernel)
          source := by
  refine ⟨stagedAt + 0x2000, by decide +kernel, fun hsafe => ?_⟩
  have hfilesize : (loadImageFromMemory alphaOnly longImage stagedAt
      noKernel).value.kernel.kernelFilesize = 0x900000 := by decide +kernel
  have hwithin := Span.within_iff.mp hsafe.writes
  rw [hfilesize] at hwithin
  simp only [maxKernelSize] at hwithin
  omega

end Milo.Boot
