import Milo.Memory.Heap

/-! # Setting up and resizing the map

`init_mem` puts the map just below 16 Mb, marks every page up to `lastpfn` free
and then takes out what MILO needs for itself. `reset_mem` moves the end of
memory while allocations are in place.
-/

namespace Milo.Memory

open Foundation

def miloMinMemorySize : Nat := 0x1000000
def palcodeAt : Nat := 0xfffffc0000200000
def palcodeSize : Nat := 0x10000
def stubAt : Nat := 0xfffffc0000210000
def kernelStart : Nat := 0xfffffc0000300000
def maxKernelSize : Nat := 0x800000
def loaderAt : Nat := 0xfffffc0000d00000

/-- `map_pages` -/
def mapPages (top : Nat) : Nat := (physicalToPfn top + (pageSize - 1)) / pageSize

/-- Where `milo_memory_map` is put. -/
def memoryMapAt (top : Nat) : Nat :=
  pageOffset ||| sub64 miloMinMemorySize (pageSize * mapPages top)

/-- How many entries the pages of the map hold. -/
def mapEntries (top : Nat) : Nat := pageSize * mapPages top

/-- The marks that `init_mem` makes after freeing everything, in its order: the
map, the HWRPB, the miniloader, the stub, the kernel and the PALcode. -/
def reservations (top : Nat) : List (Span × UInt8) :=
  [(⟨physicalToPfn (memoryMapAt top), mapPages top⟩, temporaryPage),
    (⟨0, 1⟩, allocatedPage),
    (⟨physicalToPfn loaderAt, physicalToPfn 0x100000⟩, temporaryPage),
    (⟨physicalToPfn stubAt, physicalToPfn 0x80000⟩, allocatedPage),
    (⟨physicalToPfn kernelStart, physicalToPfn maxKernelSize⟩, temporaryPage),
    (⟨physicalToPfn palcodeAt, physicalToPfn palcodeSize⟩, allocatedPage)]

def reserved (top : Nat) : List Span := (reservations top).map Prod.fst

def reserve (map : PageMap) (r : Span × UInt8) : PageMap :=
  markManyPfn map r.1.start r.1.len r.2

/-- `lastpfn` for a memory size. -/
def lastpfnFor (top : Nat) : Nat := physicalToPfn (sub64 top pageSize)

/-- `init_mem` -/
def initMem (s : MemState) (top : Nat) : MemState :=
  { s with
    memoryMap := (reservations top).foldl reserve
      (markManyPfn s.memoryMap 0 (lastpfnFor top + 1) freePage)
    mapAt := memoryMapAt top
    lastpfn := lastpfnFor top
    memorySize := top }

/-- `reset_mem` -/
def resetMem (s : MemState) (top : Nat) : MemState :=
  let oldMapPfns := lastpfnFor s.memorySize
  let newMapPfns := lastpfnFor top
  { s with
    memoryMap :=
      if oldMapPfns < newMapPfns then
        markManyPfn s.memoryMap (oldMapPfns + 1) (newMapPfns - oldMapPfns) freePage
      else s.memoryMap
    memorySize := top
    rebootMemorySize := s.rebootMemorySize.map fun _ => top / (1024 * 1024) % 2 ^ 16
    lastpfn := newMapPfns }

-- The state is taken apart first: the checker would otherwise compare whole states.
@[simp] theorem resetMem_mapAt (s : MemState) (top : Nat) :
    (resetMem s top).mapAt = s.mapAt := by
  cases s
  rfl

@[simp] theorem resetMem_tempMemoryPtr (s : MemState) (top : Nat) :
    (resetMem s top).tempMemoryPtr = s.tempMemoryPtr := by
  cases s
  rfl

theorem lastpfnFor_lt (top : Nat) : lastpfnFor top < 2 ^ 29 := physicalToPfn_lt _

theorem mapPages_eq (top : Nat) : mapPages top = (top % 2 ^ 42 / 8192 + 8191) / 8192 := by
  rw [mapPages, physicalToPfn_eq]
  rfl

theorem mapEntries_le (top : Nat) : mapEntries top ≤ 2 ^ 29 := by
  have hpages := mapPages_eq top
  simp only [mapEntries, pageSize]
  omega

/-- The map ends at 16 Mb, or wraps around in the segment when it is longer. -/
theorem memoryMapAt_eq (top : Nat) :
    memoryMapAt top = pageOffset + (2 ^ 42 + 2 ^ 24 - mapEntries top) % 2 ^ 42 := by
  have hentries := mapEntries_le top
  have hoffset : pageOffset = 2 ^ 64 - 2 ^ 42 := by decide
  have hor := or_high_eq (sub64 miloMinMemorySize (mapEntries top)) 42 64 (u64_lt _) (by decide)
  rw [memoryMapAt, ← mapEntries, hoffset, hor, ← hoffset]
  congr 1
  simp only [sub64, u64, miloMinMemorySize]
  omega

/-- The map has an entry for every page up to `lastpfn`. -/
def MapHolds (top : Nat) : Prop := lastpfnFor top < mapEntries top

instance (top : Nat) : Decidable (MapHolds top) :=
  inferInstanceAs (Decidable (lastpfnFor top < mapEntries top))

/-- Entries inside the segment lie in the pages that `init_mem` reserves for the map. -/
theorem mapEntry_reserved {top page i : Nat} (hpage : page < mapEntries top)
    (hi : u64 (memoryMapAt top + page) = pageOffset + i) :
    Span.Covers (reserved top) (i / 8192) := by
  have hentries := mapEntries_le top
  have hpages : mapEntries top = 8192 * mapPages top := rfl
  refine Span.Covers.head _ (Span.mem_mk.mpr ?_)
  rw [memoryMapAt_eq] at hi ⊢
  rw [physicalToPfn_add, Nat.mod_mod]
  simp only [u64, pageOffset] at hi
  omega

theorem reserved_cases {top page : Nat} (h : Span.Covers (reserved top) page) :
    page < 2048 ∨ page ∈ (⟨physicalToPfn (memoryMapAt top), mapPages top⟩ : Span) := by
  obtain ⟨run, hrun, hpage⟩ := h
  simp only [reserved, reservations, List.map_cons, List.map_nil, List.mem_cons,
    List.not_mem_nil, or_false] at hrun
  rcases hrun with rfl | hfixed
  · exact Or.inr hpage
  · have hle : run.start + run.len ≤ 2048 := by
      rcases hfixed with rfl | rfl | rfl | rfl | rfl <;> decide
    rw [Span.mem_def] at hpage
    exact Or.inl (by omega)

theorem mapEntry_of_reserved {top page i : Nat} (hmap : MapHolds top)
    (hpage : Span.Covers (reserved top) page)
    (hi : u64 (memoryMapAt top + page) = pageOffset + i) :
    Span.Covers (reserved top) (i / 8192) := by
  by_cases hlt : page < mapEntries top
  · exact mapEntry_reserved hlt hi
  · have hentries := mapEntries_le top
    have hpages : mapEntries top = 8192 * mapPages top := rfl
    have hmapped : mapEntries top ≠ 0 := by
      unfold MapHolds at hmap
      omega
    rcases reserved_cases hpage with hfixed | hown
    · omega
    · rw [memoryMapAt_eq] at hi hown
      rw [Span.mem_mk, physicalToPfn_add, Nat.mod_mod] at hown
      simp only [u64, pageOffset] at hi
      omega

theorem reserve_keeps {map : PageMap} {r : Span × UInt8} {page : Nat} (hr : r.2 ≠ freePage)
    (h : map page ≠ freePage ∨ page ∈ r.1) : reserve map r page ≠ freePage := by
  rw [reserve, markManyPfn_apply]
  split
  · exact hr
  · rename_i hout
    exact h.resolve_right hout

theorem foldl_reserve_used {rs : List (Span × UInt8)} (hrs : ∀ r ∈ rs, r.2 ≠ freePage)
    {map : PageMap} {page : Nat}
    (h : map page ≠ freePage ∨ Span.Covers (rs.map Prod.fst) page) :
    rs.foldl reserve map page ≠ freePage := by
  induction rs generalizing map with
  | nil =>
      rcases h with h | ⟨_, hmem, _⟩
      · exact h
      · cases hmem
  | cons r rs ih =>
      have hr := hrs r List.mem_cons_self
      apply ih fun q hq => hrs q (List.mem_cons_of_mem r hq)
      rcases h with h | ⟨s, hs, hpage⟩
      · exact Or.inl (reserve_keeps hr (Or.inl h))
      · rcases List.mem_cons.mp hs with rfl | hs
        · exact Or.inl (reserve_keeps hr (Or.inr hpage))
        · exact Or.inr ⟨s, hs, hpage⟩

theorem foldl_reserve (rs : List (Span × UInt8)) (map : PageMap) (page : Nat) :
    rs.foldl reserve map page =
      rs.foldl (fun usage r => if page ∈ r.1 then r.2 else usage) (map page) := by
  induction rs generalizing map with
  | nil => rfl
  | cons r rs ih =>
      rw [List.foldl_cons, List.foldl_cons, ih, reserve, markManyPfn_apply]
      rfl

/-- The usage of a page after `init_mem`. -/
def initialUsage (bytes : PageMap) (top page : Nat) : UInt8 :=
  (reservations top).foldl (fun usage r => if page ∈ r.1 then r.2 else usage)
    (if page < lastpfnFor top + 1 then freePage else bytes page)

theorem initMem_eq (s : MemState) (top : Nat) :
    initMem s top =
      { s with
        memoryMap := initialUsage s.memoryMap top
        mapAt := memoryMapAt top
        lastpfn := lastpfnFor top
        memorySize := top } := by
  have hmap : (reservations top).foldl reserve
      (markManyPfn s.memoryMap 0 (lastpfnFor top + 1) freePage) =
        initialUsage s.memoryMap top := by
    funext page
    simp only [initialUsage, foldl_reserve, markManyPfn_apply, Nat.zero_le, true_and, Nat.zero_add]
  rw [initMem, hmap]

/-- Nothing that `init_mem` reserves is left free. -/
theorem initMem_reserved_used (s : MemState) (top : Nat) {page : Nat}
    (h : Span.Covers (reserved top) page) : (initMem s top).memoryMap page ≠ freePage := by
  apply foldl_reserve_used _ (Or.inr h)
  intro r hr
  simp only [reservations, List.mem_cons, List.not_mem_nil, or_false] at hr
  rcases hr with rfl | rfl | rfl | rfl | rfl | rfl <;> simp only <;> decide

/-- `reset_mem` frees the pages between the old and the new end, and no others. -/
theorem resetMem_memoryMap (s : MemState) (top page : Nat) :
    (resetMem s top).memoryMap page =
      if lastpfnFor s.memorySize < page ∧ page ≤ lastpfnFor top then freePage
      else s.memoryMap page := by
  simp only [resetMem]
  split
  · rw [markManyPfn_apply]
    congr 1
    apply propext
    omega
  · rw [if_neg (by omega)]

end Milo.Memory
