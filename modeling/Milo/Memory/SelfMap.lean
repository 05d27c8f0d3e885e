import Milo.Memory.Sizing

/-! # The map describes its own pages

`init_mem` takes the pages of the map out once, for the size it is given. The
extent of the map follows `lastpfn`, which `reset_mem` may raise: then entries
run over the end of those pages into page 2048, the first one above 16 Mb.
-/

namespace Milo.Memory

open Foundation

/-- The page that holds the entry of a page. -/
def entryPage (s : MemState) (page : Nat) : Nat := physicalToPfn (u64 (s.mapAt + page))

/-- No page that holds an entry of the map is free. -/
def MapProtected (s : MemState) : Prop :=
  ∀ page ≤ s.lastpfn, s.memoryMap (entryPage s page) ≠ freePage

/-- The map of `init_mem` lies below 16 Mb. -/
def MapFits (top : Nat) : Prop := mapEntries top ≤ miloMinMemorySize

/-- Memory goes up to 16 Mb at least, as it does for every size from 16 Mb up
to the end of the segment. -/
def CoversMinimum (top : Nat) : Prop := miloMinMemorySize / pageSize ≤ lastpfnFor top + 1

theorem coversMinimum_of_le {top : Nat} (hmin : miloMinMemorySize ≤ top) (hmax : top ≤ 2 ^ 42) :
    CoversMinimum top := by
  unfold CoversMinimum lastpfnFor
  rw [physicalToPfn_eq]
  simp only [miloMinMemorySize, pageSize, sub64, u64] at *
  omega

/-! ## Where the entries lie -/

theorem entryPage_fits {s : MemState} {top page : Nat} (hfits : MapFits top)
    (hat : s.mapAt = memoryMapAt top) (hpage : page < 2 ^ 29) :
    entryPage s page = 2048 - mapPages top + page / 8192 := by
  have hentries : mapEntries top = 8192 * mapPages top := rfl
  unfold MapFits miloMinMemorySize at hfits
  unfold entryPage
  rw [hat, memoryMapAt_eq, Nat.add_assoc, u64_of_lt (by unfold pageOffset; omega),
    physicalToPfn_add]
  omega

/-- A map of more than 16 Mb starts at the top of the segment and goes on at
address zero. -/
theorem entryPage_wraps {s : MemState} {top : Nat} (hlarge : ¬ MapFits top)
    (hat : s.mapAt = memoryMapAt top) :
    entryPage s (mapEntries top - miloMinMemorySize + 8192) = 1 := by
  have hle := mapEntries_le top
  unfold MapFits at hlarge
  unfold entryPage
  rw [hat, memoryMapAt_eq]
  have hwrap : u64 (pageOffset + (2 ^ 42 + 2 ^ 24 - mapEntries top) % 2 ^ 42 +
      (mapEntries top - miloMinMemorySize + 8192)) = 8192 := by
    simp only [u64, pageOffset, miloMinMemorySize] at *
    omega
  rw [hwrap]
  decide

theorem foldl_reserve_outside {rs : List (Span × UInt8)} {map : PageMap} {page : Nat}
    (h : ¬ Span.Covers (rs.map Prod.fst) page) : rs.foldl reserve map page = map page := by
  induction rs generalizing map with
  | nil => rfl
  | cons r rs ih =>
      have hrest : ¬ Span.Covers (rs.map Prod.fst) page := fun hc => h hc.cons
      have hhead : ¬ (r.1.start ≤ page ∧ page < r.1.start + r.1.len) :=
        fun hin => h (Span.Covers.head _ hin)
      rw [List.foldl_cons, ih hrest, reserve, markManyPfn_outside hhead]

/-- What `init_mem` does not reserve is free up to `lastpfn`. -/
theorem initMem_free {s : MemState} {top page : Nat} (hpage : page ≤ lastpfnFor top)
    (hout : ¬ Span.Covers (reserved top) page) :
    (initMem s top).memoryMap page = freePage := by
  unfold initMem
  simp only
  rw [foldl_reserve_outside hout, markManyPfn_inside (by omega)]

theorem mapRun_eq {top : Nat} (hfits : MapFits top) :
    (⟨physicalToPfn (memoryMapAt top), mapPages top⟩ : Span) =
      ⟨2048 - mapPages top, mapPages top⟩ := by
  have hentries : mapEntries top = 8192 * mapPages top := rfl
  unfold MapFits miloMinMemorySize at hfits
  rw [memoryMapAt_eq, physicalToPfn_add]
  congr 1
  omega

/-! ## What every resizing keeps -/

/-- The pages `init_mem` took for the map stay taken, and the page behind them
is free as soon as memory was ever larger than 16 Mb. -/
structure SelfMapped (top : Nat) (s : MemState) : Prop where
  fits : MapFits top
  mapAt : s.mapAt = memoryMapAt top
  lastpfn : s.lastpfn = lastpfnFor s.memorySize
  covers : CoversMinimum s.memorySize
  used : ∀ page ∈ (⟨2048 - mapPages top, mapPages top⟩ : Span), s.memoryMap page ≠ freePage
  behind : 2048 ≤ s.lastpfn ∨ mapEntries top = 0 → s.memoryMap 2048 = freePage

theorem initMem_selfMapped {top : Nat} (s : MemState) (hfits : MapFits top)
    (hcovers : CoversMinimum top) : SelfMapped top (initMem s top) where
  fits := hfits
  mapAt := rfl
  lastpfn := rfl
  covers := hcovers
  used := by
    intro page hpage
    apply initMem_reserved_used
    rw [← mapRun_eq hfits] at hpage
    exact Span.Covers.head _ hpage
  behind := by
    intro hlarge
    have hpages := mapPages_eq top
    have hlast : lastpfnFor top = physicalToPfn (sub64 top pageSize) := rfl
    have hentries : mapEntries top = 8192 * mapPages top := rfl
    have hreach : 2048 ≤ lastpfnFor top := by
      rcases hlarge with hlarge | hnone
      · exact hlarge
      · rw [physicalToPfn_eq] at hlast
        simp only [CoversMinimum, miloMinMemorySize, sub64, u64, pageSize] at *
        omega
    apply initMem_free hreach
    intro hcovered
    rcases reserved_cases hcovered with hlow | hown
    · omega
    · rw [mapRun_eq hfits, Span.mem_mk] at hown
      unfold MapFits miloMinMemorySize at hfits
      omega

theorem resetMem_selfMapped {top top' : Nat} {s : MemState} (h : SelfMapped top s)
    (hcovers : CoversMinimum top') : SelfMapped top (resetMem s top') where
  fits := h.fits
  mapAt := by rw [resetMem_mapAt, h.mapAt]
  lastpfn := rfl
  covers := hcovers
  used := by
    intro page hpage
    have hold := h.covers
    have hfits := h.fits
    have hentries : mapEntries top = 8192 * mapPages top := rfl
    rw [resetMem_memoryMap, if_neg]
    · exact h.used page hpage
    · rw [Span.mem_mk] at hpage
      unfold CoversMinimum miloMinMemorySize pageSize at hold
      unfold MapFits miloMinMemorySize at hfits
      omega
  behind := by
    intro hlarge
    have hbehind := h.behind
    have hlast := h.lastpfn
    have hnew : (resetMem s top').lastpfn = lastpfnFor top' := rfl
    rw [resetMem_memoryMap]
    split
    · rfl
    · apply hbehind
      omega

theorem foldl_resetMem_selfMapped {top : Nat} {s : MemState} (h : SelfMapped top s)
    (tops : List Nat) (hcovers : ∀ t ∈ tops, CoversMinimum t) :
    SelfMapped top (tops.foldl resetMem s) := by
  induction tops generalizing s with
  | nil => exact h
  | cons t tops ih =>
      have hrest : ∀ u ∈ tops, CoversMinimum u := fun u hu => hcovers u (List.mem_cons_of_mem t hu)
      exact ih (resetMem_selfMapped h (hcovers t List.mem_cons_self)) hrest

theorem foldl_resetMem_lastpfn {s : MemState} {top : Nat} (h : s.lastpfn = lastpfnFor top)
    (tops : List Nat) : (tops.foldl resetMem s).lastpfn = lastpfnFor (tops.getLastD top) := by
  induction tops generalizing s top with
  | nil => exact h
  | cons t tops ih =>
      rw [List.foldl_cons, List.getLastD_cons]
      exact ih rfl

/-! ## When the map protects itself -/

theorem SelfMapped.protected_iff {top : Nat} {s : MemState} (h : SelfMapped top s) :
    MapProtected s ↔ s.lastpfn < mapEntries top := by
  have hfits := h.fits
  have hentries : mapEntries top = 8192 * mapPages top := rfl
  have hbound : s.lastpfn < 2 ^ 29 := by
    rw [h.lastpfn]
    exact lastpfnFor_lt s.memorySize
  constructor
  · -- The entry behind the last one that fits lies in page 2048.
    intro hprot
    by_contra hover
    have hpage := @entryPage_fits _ _ (mapEntries top) hfits h.mapAt (by omega)
    have hused := hprot (mapEntries top) (by omega)
    unfold MapFits miloMinMemorySize at hfits
    have hnext : entryPage s (mapEntries top) = 2048 := by omega
    rw [hnext] at hused
    exact hused (h.behind (by omega))
  · intro hlt page hpage
    apply h.used
    rw [entryPage_fits hfits h.mapAt (by omega), Span.mem_mk]
    omega

theorem initMem_unprotected (s : MemState) {top : Nat} (hlarge : ¬ MapFits top) :
    ¬ MapProtected (initMem s top) := by
  have hentries : mapEntries top = 8192 * mapPages top := rfl
  have hpages := mapPages_eq top
  have hle := mapEntries_le top
  have hwraps := entryPage_wraps (s := initMem s top) hlarge rfl
  have hlast : lastpfnFor top = physicalToPfn (sub64 top pageSize) := rfl
  rw [physicalToPfn_eq] at hlast
  simp only [MapFits, miloMinMemorySize, sub64, u64, pageSize] at hlarge hwraps hlast
  intro hprot
  have hused := hprot (mapEntries top - 0x1000000 + 8192) (by
    change _ ≤ lastpfnFor top
    omega)
  rw [hwraps] at hused
  apply hused
  apply initMem_free (by omega)
  rintro ⟨run, hrun, hin⟩
  simp only [reserved, reservations, List.map_cons, List.map_nil, List.mem_cons,
    List.not_mem_nil, or_false] at hrun
  rcases hrun with rfl | rfl | rfl | rfl | rfl | rfl
  · rw [memoryMapAt_eq, Span.mem_mk, physicalToPfn_add] at hin
    omega
  all_goals revert hin; decide

/-- After `init_mem` and any resizings the map protects itself exactly when its
last size still has its entries in the pages of the first; with a map of more
than 16 Mb `init_mem` itself leaves it unprotected. -/
theorem memoryMap_protected (s : MemState) (top : Nat) (tops : List Nat)
    (hsizes : ∀ t ∈ top :: tops, CoversMinimum t) :
    (MapFits top →
      (MapProtected (tops.foldl resetMem (initMem s top)) ↔
        lastpfnFor (tops.getLastD top) < mapEntries top)) ∧
      (¬ MapFits top → ¬ MapProtected (initMem s top)) := by
  constructor
  · intro hfits
    have hcovers : ∀ t ∈ tops, CoversMinimum t := fun t ht => hsizes t (List.mem_cons_of_mem top ht)
    have hinit := initMem_selfMapped s hfits (hsizes top List.mem_cons_self)
    rw [(foldl_resetMem_selfMapped hinit tops hcovers).protected_iff,
      foldl_resetMem_lastpfn rfl]
  · exact initMem_unprotected s

/-- The state before the machine's memory is known. -/
def powerOn : MemState where
  memoryMap := fun _ => 0
  mapAt := 0
  lastpfn := 0
  memorySize := 0
  tempMemoryPtr := 0
  rebootMemorySize := none

/-- 32 Mb, shrunk to 16 Mb and grown to 64 Mb: the map's one page has an entry
for each of the 8192 pages. -/
theorem memoryMap_protected_64 :
    MapProtected ([0x1000000, 0x4000000].foldl resetMem (initMem powerOn 0x2000000)) := by
  have hsizes : ∀ t ∈ [0x2000000, 0x1000000, 0x4000000], CoversMinimum t := by
    intro t ht
    simp only [List.mem_cons, List.not_mem_nil, or_false] at ht
    rcases ht with rfl | rfl | rfl <;> exact coversMinimum_of_le (by decide) (by decide)
  exact ((memoryMap_protected powerOn 0x2000000 _ hsizes).1 (by unfold MapFits; decide)).mpr
    (by decide)

/-- 16 Mb, grown to 128 Mb: entry 8192 lies in page 2048, which is free. -/
theorem resetMem_unprotected :
    ¬ MapProtected (resetMem (initMem powerOn 0x1000000) 0x8000000) := by
  intro hprot
  apply hprot 8192 (by decide)
  rw [resetMem_memoryMap, if_pos (by decide +kernel)]

end Milo.Memory
