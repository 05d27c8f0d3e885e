import Mathlib.Data.Nat.Log
import Milo.Memory.PageSearch

/-! # Runs of pages

What `allocate_many_pfn` reads while it searches, and which runs it finds. The
candidates start or end at a block boundary, and no run that does so is passed
over.
-/

namespace Milo.Memory

open Foundation

/-- An entry of the map that is read, or a subtraction that backs a candidate
down. -/
inductive SearchEvent where
  | read (page : Nat)
  | backDown (aligned remainder : Nat)
  deriving DecidableEq

/-- The entries that are looked at from `pfn` on, up to the first busy one. -/
def scanReads (map : PageMap) (pfn : Nat) : Nat → List Nat
  | 0 => []
  | count + 1 => pfn :: if map pfn = freePage then scanReads map (pfn + 1) count else []

/-- `pfn_start_aligned`, behind the busy page `first`. -/
def startAligned (first blockSize : Nat) : Nat :=
  u32 (u32 (first + 1) + (blockSize - 1)) &&& (2 ^ 32 - 1 - (blockSize - 1))

/-- The search loop with what it does on the way. -/
def searchTrace (map : PageMap) (lastpfn count blockSize : Nat) :
    Nat → Nat → SearchOutcome × List SearchEvent
  | 0, _ => (.diverged, [])
  | fuel + 1, pfn =>
      if pfn ≤ lastpfn ∧ u32 (pfn + count) ≤ u32 (lastpfn + 1) then
        let first := scanFree map pfn count
        let reads := (scanReads map pfn count).map .read
        if first ≠ pfn + count then
          let (outcome, events) :=
            searchTrace map lastpfn count blockSize fuel (nextStart first count blockSize)
          (outcome, reads ++ .backDown (startAligned first blockSize) (count % 512) :: events)
        else (.found pfn, reads)
      else (.exhausted, [])

/-- What a call of `allocate_many_pfn` ends with: the outcome of the search, the
map when it returns or calls `error`, and what the search did. -/
structure RunCall where
  outcome : SearchOutcome
  memoryMap : PageMap
  events : List SearchEvent

/-- `allocate_many_pfn` with what its search does. -/
def allocateManyPfnCall (s : MemState) (count : Nat) (type : UInt8) : RunCall :=
  let search := searchTrace s.memoryMap s.lastpfn count (blockSizeFor count) (s.lastpfn + 2) 0
  match search.1 with
  | .found pfn => ⟨search.1, markManyPfn s.memoryMap pfn count type, search.2⟩
  | _ => ⟨search.1, s.memoryMap, search.2⟩

/-- The run `[a, a + count)` lies in the map and is free. -/
structure FreeRun (s : MemState) (a count : Nat) : Prop where
  inside : a + count ≤ s.lastpfn + 1
  free : ∀ page, a ≤ page → page < a + count → s.memoryMap page = freePage

/-- The smallest power of two not below `count`, at most 512. -/
def runAlignment (count : Nat) : Nat := min 512 (2 ^ Nat.clog 2 count)

/-- A run that starts or ends at a block boundary. -/
def OnBoundary (count a : Nat) : Prop := runAlignment count ∣ a ∨ runAlignment count ∣ a + count

/-! ## The trace -/

theorem searchTrace_outcome (map : PageMap) (lastpfn count blockSize fuel start : Nat) :
    (searchTrace map lastpfn count blockSize fuel start).1 =
      searchRun map lastpfn count blockSize fuel start := by
  induction fuel generalizing start with
  | zero => rfl
  | succ fuel ih =>
      simp only [searchTrace, searchRun]
      split
      · split
        · exact ih _
        · rfl
      · rfl

/-- The call is the allocator's. -/
theorem allocateManyPfnCall_eq (s : MemState) (count : Nat) (type : UInt8) :
    allocateManyPfn s count type =
      match (allocateManyPfnCall s count type).outcome with
      | .found pfn =>
          some (pfn, { s with memoryMap := (allocateManyPfnCall s count type).memoryMap })
      | _ => none := by
  unfold allocateManyPfn allocateManyPfnCall findRun
  rw [← searchTrace_outcome]
  cases hsearch : (searchTrace s.memoryMap s.lastpfn count (blockSizeFor count)
      (s.lastpfn + 2) 0).1 with
  | found pfn => simp only [hsearch]
  | _ => simp only [hsearch]

theorem mem_scanReads {map : PageMap} {pfn count page : Nat} (h : page ∈ scanReads map pfn count) :
    pfn ≤ page ∧ page < pfn + count := by
  induction count generalizing pfn with
  | zero => cases h
  | succ count ih =>
      rw [scanReads] at h
      rcases List.mem_cons.mp h with rfl | hrest
      · exact ⟨Nat.le_refl _, by omega⟩
      · split at hrest
        · have hpage := ih hrest
          omega
        · cases hrest

theorem startAligned_eq {first : Nat} (count : Nat) (h : first + blockSizeFor count < 2 ^ 32) :
    startAligned first (blockSizeFor count) = boundaryAfter first (blockSizeFor count) := by
  have hpos := blockSizeFor_pos count
  unfold startAligned boundaryAfter
  rw [u32_of_lt (show first + 1 < 2 ^ 32 by omega),
    show first + 1 + (blockSizeFor count - 1) = first + blockSizeFor count by omega,
    u32_of_lt h, mask_blockSize count h]

theorem blockSizeFor_le (count : Nat) : blockSizeFor count ≤ 512 := by
  obtain ⟨j, hj, hbs, _⟩ := blockSizeFor_spec count
  rw [hbs]
  exact Nat.pow_le_pow_right (by decide) hj

/-- Every entry that is read is in the map, and what is subtracted is no more than
what it is subtracted from. -/
def SearchEvent.Within (lastpfn : Nat) : SearchEvent → Prop
  | read page => page ≤ lastpfn
  | backDown aligned remainder => remainder ≤ aligned

theorem searchTrace_within {map : PageMap} {lastpfn count : Nat} (hlast : lastpfn < 2 ^ 30)
    (hcount : count ≤ lastpfn + 1) (fuel start : Nat) :
    ∀ e ∈ (searchTrace map lastpfn count (blockSizeFor count) fuel start).2, e.Within lastpfn := by
  induction fuel generalizing start with
  | zero => exact List.forall_mem_nil _
  | succ fuel ih =>
      simp only [searchTrace]
      split
      · rename_i hbounds
        rw [u32_of_lt (by omega), u32_of_lt (by omega)] at hbounds
        have hreads : ∀ e ∈ (scanReads map start count).map SearchEvent.read, e.Within lastpfn := by
          intro e he
          obtain ⟨page, hpage, rfl⟩ := List.mem_map.mp he
          have hin := mem_scanReads hpage
          exact show page ≤ lastpfn by omega
        split
        · intro e he
          obtain ⟨_, hend, _⟩ := scanFree_spec map start count
          have hsize := blockSizeFor_le count
          rcases List.mem_append.mp he with he | he
          · exact hreads e he
          · rcases List.mem_cons.mp he with rfl | he
            · have hrem := remainder_le_blockSize count
              obtain ⟨_, _, hblock⟩ :=
                boundaryAfter_spec (scanFree map start count) (blockSizeFor_pos count)
              show count % 512 ≤ startAligned _ _
              rw [startAligned_eq count (by omega)]
              omega
            · exact ih _ e he
        · exact hreads
      · exact List.forall_mem_nil _

/-! ## The search is sound -/

/-- What one call does: the search ends, a run that is found is inside of the map,
free before and of the type after, nothing else changes, and no read or subtraction
leaves its range. -/
structure RunCall.Sound (s : MemState) (count : Nat) (type : UInt8) (call : RunCall) : Prop where
  ends : call.outcome ≠ .diverged
  found : ∀ a, call.outcome = .found a → FreeRun s a count ∧
    (∀ page, a ≤ page → page < a + count → call.memoryMap page = type) ∧
    ∀ page, ¬ (a ≤ page ∧ page < a + count) → call.memoryMap page = s.memoryMap page
  exhausted : call.outcome = .exhausted → call.memoryMap = s.memoryMap
  within : ∀ e ∈ call.events, e.Within s.lastpfn

theorem allocateManyPfnCall_outcome (s : MemState) (count : Nat) (type : UInt8) :
    (allocateManyPfnCall s count type).outcome = findRun s.memoryMap s.lastpfn count := by
  unfold allocateManyPfnCall findRun
  rw [← searchTrace_outcome]
  simp only
  split
  · rfl
  · rfl

/-- The search is refused at once if the run is longer than the map. -/
theorem searchTrace_refused {map : PageMap} {lastpfn count : Nat} (blockSize fuel : Nat)
    (hlast : lastpfn < 2 ^ 30) (hcount : count < 2 ^ 32) (h : lastpfn + 1 < count) :
    searchTrace map lastpfn count blockSize (fuel + 1) 0 = (.exhausted, []) := by
  rw [searchTrace, if_neg]
  rw [u32_of_lt (by omega), u32_of_lt (by omega)]
  omega

/-- For every map and every number of pages. -/
theorem allocateManyPfnCall_sound (s : MemState) {count : Nat} (type : UInt8)
    (hlast : s.lastpfn < 2 ^ 30) (hcount : count < 2 ^ 32) :
    (allocateManyPfnCall s count type).Sound s count type := by
  have houtcome := allocateManyPfnCall_outcome s count type
  refine ⟨?_, fun a ha => ?_, fun hnone => ?_, ?_⟩
  · rw [houtcome]
    exact findRun_ne_diverged hlast hcount
  · have hfound := ha
    rw [houtcome] at hfound
    obtain ⟨-, hend, hfree⟩ := findRun_found hlast hcount hfound
    have hmap : (allocateManyPfnCall s count type).memoryMap =
        markManyPfn s.memoryMap a count type := by
      rw [findRun, ← searchTrace_outcome] at hfound
      unfold allocateManyPfnCall
      simp only [hfound]
    rw [hmap]
    exact ⟨⟨hend, hfree⟩, fun page hlo hhi => markManyPfn_inside ⟨hlo, hhi⟩,
      fun page hout => markManyPfn_outside hout⟩
  · rw [houtcome, findRun, ← searchTrace_outcome] at hnone
    unfold allocateManyPfnCall
    simp only [hnone]
  · have hevents : (allocateManyPfnCall s count type).events =
        (searchTrace s.memoryMap s.lastpfn count (blockSizeFor count) (s.lastpfn + 2) 0).2 := by
      unfold allocateManyPfnCall
      simp only
      split
      · rfl
      · rfl
    rw [hevents]
    by_cases hle : count ≤ s.lastpfn + 1
    · exact searchTrace_within hlast hle _ _
    · rw [searchTrace_refused _ _ hlast hcount (Nat.lt_of_not_le hle)]
      exact List.forall_mem_nil _

/-- The second of two pages is free. -/
def twoPages : MemState where
  memoryMap := Function.update (fun _ => freePage) 0 allocatedPage
  mapAt := 0
  lastpfn := 1
  memorySize := 0x4000
  tempMemoryPtr := 0
  rebootMemorySize := none

theorem twoPages_sound : (allocateManyPfnCall twoPages 1 temporaryPage).Sound twoPages 1 temporaryPage :=
  allocateManyPfnCall_sound twoPages temporaryPage (by decide) (by decide)

/-! ## Block boundaries -/

/-- The loop of the source computes the alignment. -/
theorem blockSizeFor_eq (count : Nat) : blockSizeFor count = runAlignment count := by
  obtain ⟨j, hj, hbs, hcount, hbelow⟩ := blockSizeFor_spec count
  have hlog : Nat.clog 2 count ≤ j ∨ j = 9 := hcount.imp_left Nat.clog_le_of_le_pow
  have hleast : j ≤ Nat.clog 2 count := by
    rcases hbelow with rfl | hlt
    · exact Nat.zero_le _
    · have hstep := (Nat.lt_clog_iff_pow_lt (by decide)).mpr hlt
      omega
  have hpow : 2 ^ 9 = 512 := rfl
  rw [hbs, runAlignment]
  rcases hlog with hle | rfl
  · rw [Nat.le_antisymm hle hleast, Nat.min_eq_right]
    exact hpow ▸ Nat.pow_le_pow_right (by decide) hj
  · rw [Nat.min_eq_left, hpow]
    exact hpow ▸ Nat.pow_le_pow_right (by decide) hleast

theorem blockSizeFor_dvd (count : Nat) : blockSizeFor count ∣ 512 := by
  obtain ⟨j, hj, hbs, _⟩ := blockSizeFor_spec count
  rw [hbs]
  exact Nat.pow_dvd_pow 2 hj

/-- What a candidate is backed down by differs from its length by whole blocks. -/
theorem dvd_add_remainder_iff (count a : Nat) :
    blockSizeFor count ∣ a + count % 512 ↔ blockSizeFor count ∣ a + count := by
  have hwhole : blockSizeFor count ∣ 512 * (count / 512) :=
    Nat.dvd_trans (blockSizeFor_dvd count) (Nat.dvd_mul_right _ _)
  have hsplit : a + count = a + count % 512 + 512 * (count / 512) := by omega
  rw [hsplit]
  exact (Nat.dvd_add_left hwhole).symm

theorem boundaryAfter_dvd (first blockSize : Nat) : blockSize ∣ boundaryAfter first blockSize :=
  Nat.dvd_mul_left _ _

/-- It is the first boundary behind the page. -/
theorem boundaryAfter_le {first blockSize e : Nat} (hpos : 0 < blockSize) (he : blockSize ∣ e)
    (h : first < e) : boundaryAfter first blockSize ≤ e := by
  obtain ⟨m, rfl⟩ := he
  unfold boundaryAfter
  rw [Nat.add_div_right _ hpos, Nat.mul_comm blockSize m]
  exact Nat.mul_le_mul_right _ (Nat.succ_le_of_lt (Nat.div_lt_of_lt_mul h))

/-- A boundary that a word can hold has room for a block behind it, up to 2^32. -/
theorem block_fits {count e : Nat} (he : blockSizeFor count ∣ e) (hlt : e < 2 ^ 32) :
    e + blockSizeFor count ≤ 2 ^ 32 := by
  have hword : blockSizeFor count ∣ 2 ^ 32 :=
    Nat.dvd_trans (blockSizeFor_dvd count) (by decide)
  have hrest := Nat.le_of_dvd (by omega) (Nat.dvd_sub hword he)
  omega

/-! ## The search is complete at the boundaries -/

/-- A candidate behind a busy page does not pass over a run that starts or ends at
a boundary. -/
theorem nextStart_le {first count a : Nat} (hedge : OnBoundary count a) (hfirst : first < a)
    (hword : a + count < 2 ^ 32) :
    first < nextStart first count (blockSizeFor count) ∧
      nextStart first count (blockSizeFor count) ≤ a := by
  have hpos := blockSizeFor_pos count
  have hrem := remainder_le_blockSize count
  obtain ⟨hafter, _, _⟩ := boundaryAfter_spec first hpos
  unfold OnBoundary at hedge
  rw [← blockSizeFor_eq, ← dvd_add_remainder_iff] at hedge
  rcases hedge with hstart | hend
  · have hfits := block_fits hstart (by omega)
    have hle := boundaryAfter_le hpos hstart hfirst
    rw [nextStart_eq count (by omega)]
    split <;> omega
  · have hmod := Nat.mod_le count 512
    have hfits := block_fits hend (by omega)
    have hle := boundaryAfter_le hpos hend (show first < a + count % 512 by omega)
    rw [nextStart_eq count (by omega)]
    -- the run ends at the boundary behind the busy page, or at a later one
    rcases Nat.eq_or_lt_of_le hle with heq | hlt
    · split <;> omega
    · have hblock : blockSizeFor count ≤
          a + count % 512 - boundaryAfter first (blockSizeFor count) :=
        Nat.le_of_dvd (by omega) (Nat.dvd_sub hend (boundaryAfter_dvd _ _))
      split <;> omega

/-- From a candidate below a free run at a boundary, the search finds a run there or
before. -/
theorem searchRun_below {s : MemState} {a count fuel start : Nat} (hlast : s.lastpfn + 1 < 2 ^ 32)
    (hcount : 0 < count) (hrun : FreeRun s a count) (hedge : OnBoundary count a)
    (hstart : start ≤ a) (hfuel : a < start + fuel) :
    ∃ pfn ≤ a, searchRun s.memoryMap s.lastpfn count (blockSizeFor count) fuel start =
      .found pfn := by
  have hin := hrun.inside
  induction fuel generalizing start with
  | zero => omega
  | succ fuel ih =>
      rw [searchRun, u32_of_lt (by omega), u32_of_lt hlast, if_pos ⟨by omega, by omega⟩]
      simp only
      obtain ⟨hlo, hhi, -, hbusy⟩ := scanFree_spec s.memoryMap start count
      split
      · rename_i hne
        -- the busy page is no page of the run, and so in front of it
        have hfirst : scanFree s.memoryMap start count < a := by
          by_contra hge
          exact hbusy hne (hrun.free _ (Nat.le_of_not_lt hge) (by omega))
        obtain ⟨hup, hle⟩ := nextStart_le hedge hfirst (by omega)
        exact ih hle (by omega)
      · exact ⟨start, hstart, rfl⟩

theorem allocateManyPfn_below {s : MemState} {a count : Nat} (type : UInt8)
    (hlast : s.lastpfn + 1 < 2 ^ 32) (hcount : 0 < count) (hrun : FreeRun s a count)
    (hedge : OnBoundary count a) :
    ∃ pfn ≤ a, allocateManyPfn s count type =
      some (pfn, { s with memoryMap := markManyPfn s.memoryMap pfn count type }) := by
  have hin := hrun.inside
  obtain ⟨pfn, hle, hfound⟩ := searchRun_below hlast hcount hrun hedge (Nat.zero_le a)
    (show a < 0 + (s.lastpfn + 2) by omega)
  refine ⟨pfn, hle, ?_⟩
  unfold allocateManyPfn findRun
  rw [hfound]

/-- A run at a multiple of the alignment is found, or one before it. -/
theorem allocateManyPfn_aligned {s : MemState} {a count : Nat} (type : UInt8)
    (hlast : s.lastpfn + 1 < 2 ^ 32) (hcount : 0 < count) (hrun : FreeRun s a count)
    (haligned : runAlignment count ∣ a) :
    ∃ pfn ≤ a, allocateManyPfn s count type =
      some (pfn, { s with memoryMap := markManyPfn s.memoryMap pfn count type }) :=
  allocateManyPfn_below type hlast hcount hrun (Or.inl haligned)

/-- The second page is found. -/
theorem allocateManyPfn_aligned_two :
    ∃ pfn ≤ 1, allocateManyPfn twoPages 1 temporaryPage =
      some (pfn, { twoPages with
        memoryMap := markManyPfn twoPages.memoryMap pfn 1 temporaryPage }) := by
  apply allocateManyPfn_aligned (a := 1) temporaryPage (by decide) (by decide)
  · refine ⟨by decide, fun page hlo hhi => ?_⟩
    obtain rfl : page = 1 := by omega
    decide
  · decide

/-! ## What is not found -/

/-- The candidates are runs that start or end at a boundary. -/
theorem searchRun_onBoundary {map : PageMap} {lastpfn count fuel start pfn : Nat}
    (hlast : lastpfn < 2 ^ 30) (hcount : count ≤ lastpfn + 1) (hstart : OnBoundary count start)
    (h : searchRun map lastpfn count (blockSizeFor count) fuel start = .found pfn) :
    OnBoundary count pfn := by
  induction fuel generalizing start with
  | zero => cases h
  | succ fuel ih =>
      simp only [searchRun] at h
      split at h
      · rename_i hbounds
        split at h
        · refine ih ?_ h
          obtain ⟨_, hend, _⟩ := scanFree_spec map start count
          have hsize := blockSizeFor_le count
          have hrem := remainder_le_blockSize count
          obtain ⟨_, _, hblock⟩ :=
            boundaryAfter_spec (scanFree map start count) (blockSizeFor_pos count)
          have hdvd := boundaryAfter_dvd (scanFree map start count) (blockSizeFor count)
          rw [nextStart_eq count (by omega)]
          unfold OnBoundary
          rw [← blockSizeFor_eq, ← dvd_add_remainder_iff]
          split
          · exact Or.inl hdvd
          · right
            rwa [Nat.sub_add_cancel (by omega)]
        · cases h
          exact hstart
      · cases h

/-- The call fails only if no run of free pages starts or ends at a boundary. -/
theorem allocateManyPfn_none {s : MemState} {count : Nat} {type : UInt8}
    (hlast : s.lastpfn + 1 < 2 ^ 32) (hcount : 0 < count)
    (h : allocateManyPfn s count type = none) : ¬ ∃ a, FreeRun s a count ∧ OnBoundary count a := by
  rintro ⟨a, hrun, hedge⟩
  obtain ⟨pfn, -, hfound⟩ := allocateManyPfn_below type hlast hcount hrun hedge
  rw [h] at hfound
  cases hfound

/-- It fails in every such map. -/
theorem allocateManyPfn_none_iff {s : MemState} {count : Nat} {type : UInt8}
    (hlast : s.lastpfn < 2 ^ 29) (hcount : 0 < count) (hword : count < 2 ^ 32) :
    allocateManyPfn s count type = none ↔ ¬ ∃ a, FreeRun s a count ∧ OnBoundary count a := by
  refine ⟨allocateManyPfn_none (by omega) hcount, fun hnone => ?_⟩
  rw [Option.eq_none_iff_forall_ne_some]
  rintro ⟨pfn, s'⟩ hsome
  obtain ⟨-, hend, hfree, -⟩ := allocateManyPfn_spec hlast hword hsome
  refine hnone ⟨pfn, ⟨hend, hfree⟩, ?_⟩
  unfold allocateManyPfn at hsome
  split at hsome
  · rename_i found hfound
    cases hsome
    exact searchRun_onBoundary (by omega) (by omega) (Or.inl (Nat.dvd_zero _)) hfound
  · cases hsome

/-- Of five pages the second one is in use. -/
def fivePages : MemState where
  memoryMap := Function.update (fun _ => freePage) 1 allocatedPage
  mapAt := 0
  lastpfn := 4
  memorySize := 0xa000
  tempMemoryPtr := 0
  rebootMemorySize := none

/-- The last three pages are free, but three pages are not found: their run starts
at 2 and ends at 5, and a block has four pages. -/
theorem three_pages_not_found :
    allocateManyPfn fivePages 3 temporaryPage = none ∧ FreeRun fivePages 2 3 := by
  refine ⟨?_, by decide, fun page hlo hhi => ?_⟩
  · have hsearch : findRun fivePages.memoryMap fivePages.lastpfn 3 = .exhausted := by decide
    unfold allocateManyPfn
    rw [hsearch]
  · have hne : page ≠ 1 := by omega
    show Function.update (fun _ => freePage) 1 allocatedPage page = freePage
    rw [Function.update_of_ne hne]

/-- No three free pages of this map start or end at a boundary. -/
theorem no_boundary_run_of_three :
    ¬ ∃ a, FreeRun fivePages a 3 ∧ OnBoundary 3 a := by
  have hsearch : findRun fivePages.memoryMap fivePages.lastpfn 3 = .exhausted := by decide
  have hnone : allocateManyPfn fivePages 3 temporaryPage = none := by
    unfold allocateManyPfn
    rw [hsearch]
  exact allocateManyPfn_none (by decide) (by decide) hnone

end Milo.Memory
