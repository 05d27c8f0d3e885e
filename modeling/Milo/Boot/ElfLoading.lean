import Milo.Boot.ElfSafety

/-! # What a loaded image looks like

For a header that describes a segment inside the staged image and the kernel
area, the file bytes end up at the addresses the header gives them. The part
behind them is not cleared, so it is zero only if it was before.
-/

namespace Milo.Boot

open Foundation Milo.Memory

section
variable (elfCheckArch : Nat → Bool) (mem : ByteMemory) (address : Nat)

/-- An accepted header whose ranges lie in the staged image and the kernel area,
which are apart. -/
structure Loadable : Prop where
  passed : TestsPassed elfCheckArch mem address
  phdr : ePhoff mem address + phdrSize ≤ iobufSize
  vaddr : kernelStart ≤ pVaddr mem address
  entry : pVaddr mem address ≤ eEntry mem address
  entry_lt : eEntry mem address < pVaddr mem address + pFilesz mem address
  filesz : pFilesz mem address ≤ pMemsz mem address
  source : pOffset mem address + pFilesz mem address ≤ maxKernelSize
  target : pVaddr mem address + pMemsz mem address ≤ kernelStart + maxKernelSize
  staged : address + maxKernelSize ≤ 2 ^ 64
  apart : Span.Disjoint ⟨address, maxKernelSize⟩ ⟨kernelStart, maxKernelSize⟩

/-- The memory behind the file bytes of the segment. -/
def InBss (a : Nat) : Prop :=
  pVaddr mem address + pFilesz mem address ≤ a ∧ a < pVaddr mem address + pMemsz mem address

/-- The image is in memory as its program header says. -/
structure LoadsAsDescribed (r : LoadResult) : Prop where
  file : ∀ a, eEntry mem address ≤ a → a < pVaddr mem address + pFilesz mem address →
    r.mem a = mem (address + pOffset mem address + (a - pVaddr mem address))
  bss : ∀ a, InBss mem address a → r.mem a = 0
  frame : ∀ a < 2 ^ 64,
    ¬ (eEntry mem address ≤ a ∧ a < pVaddr mem address + pMemsz mem address) → r.mem a = mem a
  entry : r.entry = eEntry mem address

variable {elfCheckArch mem address}

/-- The copy as one block from the entry to the end of the file bytes. -/
theorem Loadable.copied (h : Loadable elfCheckArch mem address) (k : KernelInfo) :
    let r := (loadImageFromMemory elfCheckArch mem address k).value
    r.entry = eEntry mem address ∧
      r.mem = memcpy mem (eEntry mem address)
        (address + pOffset mem address + (eEntry mem address - pVaddr mem address))
        (pVaddr mem address + pFilesz mem address - eEntry mem address) := by
  obtain ⟨hpassed, _, hvaddr, hentry, hentryLt, hfilesz, hsource, htarget, hstaged, _⟩ := h
  simp only [maxKernelSize, kernelStart] at *
  have hadjusted := adjusted_values mem address fun _ => by
    unfold entryDelta
    omega
  obtain ⟨hfile, _, hoffset⟩ := hadjusted
  have hdelta : entryDelta mem address = eEntry mem address - pVaddr mem address := rfl
  have hsourceAt : address + acceptedOffset mem address =
      address + pOffset mem address + (eEntry mem address - pVaddr mem address) := by omega
  have hlength : sub64 (pFilesz mem address) (entryDelta mem address) =
      pVaddr mem address + pFilesz mem address - eEntry mem address := by omega
  have hrejected : ¬ Rejected elfCheckArch mem address :=
    not_rejected_iff.mpr ⟨hpassed, by omega⟩
  obtain ⟨hret, hat, hsize, hcopy, _⟩ := loadImage_accepted k hrejected
  refine ⟨hret, ?_⟩
  rw [hcopy, hat, hsize, acceptedSource, u64_of_lt (by omega), Nat.max_eq_right hentry, hsourceAt,
    hlength]

/-- The image is loaded as described exactly if its bss was zero before. -/
theorem loadImage_loads_iff_bss_zero (elfCheckArch : Nat → Bool) (mem : ByteMemory)
    (address : Nat) (k : KernelInfo) (h : Loadable elfCheckArch mem address) :
    LoadsAsDescribed mem address (loadImageFromMemory elfCheckArch mem address k).value ↔
      ∀ a, InBss mem address a → mem a = 0 := by
  obtain ⟨hret, hmem⟩ := h.copied k
  obtain ⟨_, _, hvaddr, hentry, hentryLt, hfilesz, hsource, htarget, hstaged, _⟩ := h
  have hpos : 0 < pVaddr mem address + pFilesz mem address - eEntry mem address := by omega
  simp only [maxKernelSize, kernelStart] at *
  have hdstEnd : eEntry mem address +
      (pVaddr mem address + pFilesz mem address - eEntry mem address) ≤ 2 ^ 64 := by omega
  have hoverBss : ∀ a, InBss mem address a →
      (loadImageFromMemory elfCheckArch mem address k).value.mem a = mem a := by
    intro a ha
    obtain ⟨hlo, hhi⟩ := ha
    rw [hmem, memcpy_outside hdstEnd (by omega) hpos]
    rw [Span.mem_mk]
    omega
  constructor
  · intro hloads a ha
    rw [← hoverBss a ha]
    exact hloads.bss a ha
  · intro hzero
    refine ⟨?_, ?_, ?_, hret⟩
    · intro a hlo hhi
      have hsame : address + pOffset mem address + (eEntry mem address - pVaddr mem address) +
          (a - eEntry mem address) =
            address + pOffset mem address + (a - pVaddr mem address) := by omega
      rw [hmem, memcpy_inside hdstEnd (by omega) (Span.mem_mk.mpr (by omega)), hsame]
    · intro a ha
      rw [hoverBss a ha]
      exact hzero a ha
    · intro a ha hout
      rw [hmem, memcpy_outside hdstEnd ha hpos]
      rw [Span.mem_mk]
      omega

end

theorem loadImage_loads_good :
    LoadsAsDescribed goodImage stagedAt
      (loadImageFromMemory alphaOnly goodImage stagedAt noKernel).value := by
  refine (loadImage_loads_iff_bss_zero alphaOnly goodImage stagedAt noKernel ?_).mpr ?_
  · refine ⟨?_, ?_, ?_, ?_, ?_, ?_, ?_, ?_, ?_, ?_⟩
    · constructor <;> decide +kernel
    all_goals decide +kernel
  · rintro a ⟨_, ha⟩
    have hend : pVaddr goodImage stagedAt + pMemsz goodImage stagedAt ≤ stagedAt := by
      decide +kernel
    simp [goodImage, elfImage, show a < stagedAt by omega]

/-- A kernel whose bss is eight bytes of old memory. -/
def bssImage : ByteMemory := elfImage 0x55 stagedAt kernelStart 0x2000 kernelStart 8 16

theorem loadImage_keeps_old_bss :
    Loadable alphaOnly bssImage stagedAt ∧
      ¬ LoadsAsDescribed bssImage stagedAt
        (loadImageFromMemory alphaOnly bssImage stagedAt noKernel).value := by
  constructor
  · refine ⟨?_, ?_, ?_, ?_, ?_, ?_, ?_, ?_, ?_, ?_⟩
    · constructor <;> decide +kernel
    all_goals decide +kernel
  · intro hloads
    have hbss := hloads.bss (kernelStart + 8) (by constructor <;> decide +kernel)
    revert hbss
    decide +kernel

end Milo.Boot
