import Milo.Foundation.Spans
import Milo.Memory.PageSearch

/-! # The heap

`kmalloc` cuts blocks off `temp_memory_ptr`, which points into the run of pages
it took last. A block that does not fit in the page of the pointer either
extends into the pages that follow or opens a new run. This is the build
without REUSE_MEMORY, GUARD_BANDS and DEBUG_MALLOC. `bottom` and `top` are
frame numbers, so their conversion to `int` keeps them; `pages` is an `int`
that counts down to zero, modelled by the unsigned value of its low half. Of
the bytes a block is cleared with, only those that hold map entries are seen.
-/

namespace Milo.Memory

open Foundation

/-- The size `kmalloc` works with: up to the next multiple of 8, and always at
least one byte more than asked for. -/
def roundSize (size : Nat) : Nat := u64 (size + (8 - (size &&& 7)))

/-- `pages`, from the rounded size. -/
def pagesFor (size : Nat) : Nat := u32 (u64 (size + (pageSize - 1)) / pageSize)

/-- `bottom` -/
def heapBottom (s : MemState) : Nat := physicalToPfn s.tempMemoryPtr

/-- `top`, for a rounded size. -/
def heapTop (s : MemState) (size : Nat) : Nat := physicalToPfn (u64 (s.tempMemoryPtr + size))

/-- `room`: the `pages` entries after `bottom` are free. -/
def roomAfter (s : MemState) (size : Nat) : Bool :=
  scanFree s.memoryMap (heapBottom s + 1) (pagesFor size) == heapBottom s + 1 + pagesFor size

/-- The call takes its pages from `allocate_many_pfn`. -/
def opensRun (s : MemState) (size : Nat) : Bool :=
  s.tempMemoryPtr == 0 || (heapBottom s != heapTop s size && !roomAfter s size)

/-- `allocate_many_pfn`, with `temp_memory_ptr` moved to the new run. -/
def openRun (s : MemState) (size : Nat) : Option MemState :=
  (allocateManyPfn s (pagesFor size) temporaryPage).map fun (pfn, s) =>
    { s with tempMemoryPtr := pfnToPhysical pfn }

/-- The pages after `bottom` marked in place. -/
def extendRun (s : MemState) (size : Nat) : MemState :=
  { s with
    memoryMap := markManyPfn s.memoryMap (heapBottom s + 1) (pagesFor size) temporaryPage }

/-- The state in which the block is cut off at `temp_memory_ptr`. -/
def makeRoom (s : MemState) (size : Nat) : Option MemState :=
  if s.tempMemoryPtr = 0 then openRun s size
  else if heapBottom s ≠ heapTop s size then
    if roomAfter s size then some (extendRun s size) else openRun s size
  else some s

/-- `memset(result, 0, size)`, as far as it touches the map. -/
def zeroBlock (s : MemState) (block size : Nat) : PageMap := fun page =>
  if sub64 (u64 (s.mapAt + page)) block < size then 0 else s.memoryMap page

/-- The block cut off at `temp_memory_ptr`. -/
def cutBlock (s : MemState) (size : Nat) : MemState :=
  { s with
    memoryMap := zeroBlock s s.tempMemoryPtr size
    tempMemoryPtr := u64 (s.tempMemoryPtr + size) }

/-- `kmalloc`, with the address it returns; `none` when it ends in `error()`. -/
def kmalloc (s : MemState) (size : Nat) : Option (Nat × MemState) :=
  let size := roundSize size
  (makeRoom s size).map fun s =>
    if s.tempMemoryPtr ≠ 0 then (s.tempMemoryPtr, cutBlock s size) else (0, s)

/-! ## What one call does -/

theorem roundSize_of_lt {size : Nat} (h : size + 8 < 2 ^ 64) :
    roundSize size = size + (8 - size % 8) := by
  have hmask : size &&& 7 = size % 8 := Nat.and_two_pow_sub_one_eq_mod size 3
  rw [roundSize, hmask, u64_of_lt (by omega)]

theorem roundSize_pos {size : Nat} (h : size + 8 < 2 ^ 64) : 0 < roundSize size := by
  rw [roundSize_of_lt h]
  omega

theorem pagesFor_lt (size : Nat) : pagesFor size < 2 ^ 32 := u32_lt _

theorem pagesFor_of_lt {size : Nat} (h : size < 2 ^ 42) : pagesFor size = (size + 8191) / 8192 := by
  rw [pagesFor, pageSize, u64_of_lt (by omega), u32_of_lt (by omega)]

theorem roomAfter_iff {s : MemState} {size : Nat} :
    roomAfter s size = true ↔ ∀ page, heapBottom s + 1 ≤ page →
      page < heapBottom s + 1 + pagesFor size → s.memoryMap page = freePage := by
  constructor
  · intro h
    have hend := beq_iff_eq.mp h
    obtain ⟨_, _, hfree, _⟩ := scanFree_spec s.memoryMap (heapBottom s + 1) (pagesFor size)
    rwa [hend] at hfree
  · intro h
    exact beq_iff_eq.mpr (scanFree_eq_end h)

theorem openRun_spec {s t : MemState} {size : Nat} (hlast : s.lastpfn < 2 ^ 29)
    (h : openRun s size = some t) :
    ∃ pfn, pfn ≤ s.lastpfn ∧ pfn + pagesFor size ≤ s.lastpfn + 1 ∧
      (∀ page, pfn ≤ page → page < pfn + pagesFor size → s.memoryMap page = freePage) ∧
      t = { s with
        memoryMap := markManyPfn s.memoryMap pfn (pagesFor size) temporaryPage
        tempMemoryPtr := pageOffset + 8192 * pfn } := by
  simp only [openRun, Option.map_eq_some_iff] at h
  obtain ⟨⟨pfn, u⟩, hmany, rfl⟩ := h
  obtain ⟨hle, hend, hfree, rfl⟩ := allocateManyPfn_spec hlast (pagesFor_lt size) hmany
  exact ⟨pfn, hle, hend, hfree, by rw [pfnToPhysical_eq (show pfn < 2 ^ 29 by omega)]⟩

/-- Clearing a block keeps the entries that lie outside of it. -/
theorem zeroBlock_outside {s : MemState} {block size page : Nat} (hend : block + size ≤ 2 ^ 64)
    (hpos : 0 < size) (hout : u64 (s.mapAt + page) ∉ (⟨block, size⟩ : Span)) :
    zeroBlock s block size page = s.memoryMap page := by
  rw [zeroBlock, if_neg]
  rwa [sub64_lt_iff (u64_lt _) hend hpos]

/-- A block is cut off at the start of a new run, inside the page of the
pointer, or across the end of that page into pages that were free. -/
theorem makeRoom_cases {s t : MemState} {size : Nat} (h : makeRoom s size = some t) :
    (opensRun s size = true ∧ openRun s size = some t) ∨
      (opensRun s size = false ∧ s.tempMemoryPtr ≠ 0 ∧ heapBottom s = heapTop s size ∧ t = s) ∨
      (opensRun s size = false ∧ s.tempMemoryPtr ≠ 0 ∧ heapBottom s ≠ heapTop s size ∧
        roomAfter s size = true ∧ t = extendRun s size) := by
  unfold makeRoom at h
  by_cases hnull : s.tempMemoryPtr = 0
  · rw [if_pos hnull] at h
    exact Or.inl ⟨by simp [opensRun, hnull], h⟩
  · rw [if_neg hnull] at h
    by_cases hpage : heapBottom s = heapTop s size
    · rw [if_neg (by simpa using hpage)] at h
      exact Or.inr (Or.inl ⟨by simp [opensRun, hnull, hpage], hnull, hpage,
        (Option.some.inj h).symm⟩)
    · rw [if_pos hpage] at h
      cases hroom : roomAfter s size with
      | false =>
          rw [hroom] at h
          exact Or.inl ⟨by simp [opensRun, hpage, hroom], h⟩
      | true =>
          rw [hroom] at h
          exact Or.inr (Or.inr ⟨by simp [opensRun, hnull, hroom], hnull, hpage, rfl,
            (Option.some.inj h).symm⟩)

/-- The block is cut off at the pointer of the state with room for it. -/
theorem kmalloc_eq_some {s s' : MemState} {size block : Nat}
    (h : kmalloc s size = some (block, s')) :
    ∃ t, makeRoom s (roundSize size) = some t ∧
      (t.tempMemoryPtr ≠ 0 → block = t.tempMemoryPtr ∧ s' = cutBlock t (roundSize size)) := by
  simp only [kmalloc, Option.map_eq_some_iff] at h
  obtain ⟨t, hroom, hcut⟩ := h
  refine ⟨t, hroom, fun hptr => ?_⟩
  rw [if_pos hptr, Prod.mk.injEq] at hcut
  exact ⟨hcut.1.symm, hcut.2.symm⟩

end Milo.Memory
