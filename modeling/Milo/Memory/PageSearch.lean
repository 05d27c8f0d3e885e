import Milo.Memory.PageMap

/-! # Searching for a run of pages

`allocate_many_pfn` tries a run of `count` pages at `pfn`, and after a failure
moves just beyond the busy page, to an aligned start where that is not too low.
The search is fuelled; it moves up on every failure, so one unit of fuel for
each page is enough.
-/

namespace Milo.Memory

open Foundation

inductive SearchOutcome where
  | found (pfn : Nat)
  | exhausted
  | diverged
  deriving DecidableEq, Repr

/-- The smallest power of two that is not below `count`, stopped at 512. -/
def blockSizeLoop (count : Nat) : Nat → Nat → Nat
  | 0, blockSize => blockSize
  | fuel + 1, blockSize =>
      if blockSize < 512 then
        if count ≤ blockSize then blockSize else blockSizeLoop count fuel (blockSize + blockSize)
      else blockSize

def blockSizeFor (count : Nat) : Nat := blockSizeLoop count 10 1

/-- Where `first` stops: the first busy page of the run, or its end. -/
def scanFree (map : PageMap) (pfn : Nat) : Nat → Nat
  | 0 => pfn
  | count + 1 => if map pfn = freePage then scanFree map (pfn + 1) count else pfn

/-- The next candidate after the busy page `first`. -/
def nextStart (first count blockSize : Nat) : Nat :=
  let pfn := u32 (first + 1)
  let startAligned := u32 (pfn + (blockSize - 1)) &&& (2 ^ 32 - 1 - (blockSize - 1))
  let endAligned := sub32 startAligned (count % 512)
  if endAligned < pfn then startAligned else endAligned

/-- The search loop of `allocate_many_pfn`. -/
def searchRun (map : PageMap) (lastpfn count blockSize : Nat) : Nat → Nat → SearchOutcome
  | 0, _ => .diverged
  | fuel + 1, pfn =>
      if pfn ≤ lastpfn ∧ u32 (pfn + count) ≤ u32 (lastpfn + 1) then
        let first := scanFree map pfn count
        if first ≠ pfn + count then
          searchRun map lastpfn count blockSize fuel (nextStart first count blockSize)
        else .found pfn
      else .exhausted

def findRun (map : PageMap) (lastpfn count : Nat) : SearchOutcome :=
  searchRun map lastpfn count (blockSizeFor count) (lastpfn + 2) 0

/-- `allocate_many_pfn`; `none` when it ends in `error()`. -/
def allocateManyPfn (s : MemState) (count : Nat) (type : UInt8) : Option (Nat × MemState) :=
  match findRun s.memoryMap s.lastpfn count with
  | .found pfn => some (pfn, { s with memoryMap := markManyPfn s.memoryMap pfn count type })
  | _ => none

/-! ## One round of the search -/

theorem scanFree_spec (map : PageMap) (pfn count : Nat) :
    pfn ≤ scanFree map pfn count ∧ scanFree map pfn count ≤ pfn + count ∧
      (∀ page, pfn ≤ page → page < scanFree map pfn count → map page = freePage) ∧
      (scanFree map pfn count ≠ pfn + count → map (scanFree map pfn count) ≠ freePage) := by
  induction count generalizing pfn with
  | zero => exact ⟨Nat.le_refl _, Nat.le_refl _, fun page _ _ => by simp_all [scanFree]; omega,
      fun h => absurd rfl h⟩
  | succ count ih =>
      rw [scanFree]
      split
      · rename_i hfree
        obtain ⟨hle, hub, hall, hbusy⟩ := ih (pfn + 1)
        refine ⟨by omega, by omega, ?_, fun h => hbusy (by omega)⟩
        intro page hp hlt
        by_cases he : page = pfn
        · rwa [he]
        · exact hall page (by omega) hlt
      · rename_i hbusy
        exact ⟨Nat.le_refl _, by omega, fun page _ _ => by omega, fun _ => hbusy⟩

theorem scanFree_eq_end {map : PageMap} {pfn count : Nat}
    (h : ∀ page, pfn ≤ page → page < pfn + count → map page = freePage) :
    scanFree map pfn count = pfn + count := by
  obtain ⟨hle, hub, _, hbusy⟩ := scanFree_spec map pfn count
  by_contra hne
  exact hbusy hne (h _ hle (by omega))

theorem blockSizeLoop_spec (count : Nat) {fuel k : Nat} (hk : k ≤ 9) (hfuel : 9 - k < fuel)
    (hbelow : k = 0 ∨ 2 ^ (k - 1) < count) :
    ∃ j, j ≤ 9 ∧ blockSizeLoop count fuel (2 ^ k) = 2 ^ j ∧ (count ≤ 2 ^ j ∨ j = 9) ∧
      (j = 0 ∨ 2 ^ (j - 1) < count) := by
  induction fuel generalizing k with
  | zero => omega
  | succ fuel ih =>
      rw [blockSizeLoop]
      by_cases hlast : k = 9
      · subst hlast
        exact ⟨9, by omega, by simp, Or.inr rfl, hbelow⟩
      · have hlt : 2 ^ k < 512 := by
          have : 2 ^ k < 2 ^ 9 := Nat.pow_lt_pow_right (by decide) (by omega)
          omega
        rw [if_pos hlt]
        by_cases hc : count ≤ 2 ^ k
        · rw [if_pos hc]
          exact ⟨k, by omega, rfl, Or.inl hc, hbelow⟩
        · rw [if_neg hc, ← Nat.two_mul, ← Nat.pow_succ']
          exact ih (by omega) (by omega) (Or.inr (by simpa using hc))

/-- The block size is the least power of two that holds `count`, at most 512. -/
theorem blockSizeFor_spec (count : Nat) :
    ∃ j, j ≤ 9 ∧ blockSizeFor count = 2 ^ j ∧ (count ≤ 2 ^ j ∨ j = 9) ∧
      (j = 0 ∨ 2 ^ (j - 1) < count) :=
  blockSizeLoop_spec count (k := 0) (by omega) (by omega) (Or.inl rfl)

/-- What a candidate is backed down by is no more than a block. -/
theorem remainder_le_blockSize (count : Nat) : count % 512 ≤ blockSizeFor count := by
  obtain ⟨j, _, hbs, hcount, _⟩ := blockSizeFor_spec count
  rw [hbs]
  rcases hcount with h | rfl
  · exact Nat.le_trans (Nat.mod_le _ _) h
  · omega

/-- The mask of the source rounds down to a block boundary. -/
theorem mask_blockSize {n : Nat} (count : Nat) (hn : n < 2 ^ 32) :
    n &&& (2 ^ 32 - 1 - (blockSizeFor count - 1)) =
      n / blockSizeFor count * blockSizeFor count := by
  obtain ⟨j, hj, hbs, _⟩ := blockSizeFor_spec count
  have hpos : 0 < 2 ^ j := Nat.two_pow_pos j
  have hle : 2 ^ j ≤ 2 ^ 9 := Nat.pow_le_pow_right (by decide) hj
  have hmask : 2 ^ 32 - 1 - (2 ^ j - 1) = 2 ^ 32 - 2 ^ j := by omega
  rw [hbs, hmask, and_not_low_eq _ j 32 hn (by omega)]

theorem blockSizeFor_pos (count : Nat) : 0 < blockSizeFor count := by
  obtain ⟨j, _, hbs, _⟩ := blockSizeFor_spec count
  rw [hbs]
  exact Nat.two_pow_pos j

/-- The boundary behind a busy page. -/
def boundaryAfter (first blockSize : Nat) : Nat := (first + blockSize) / blockSize * blockSize

theorem boundaryAfter_spec (first : Nat) {blockSize : Nat} (h : 0 < blockSize) :
    first < boundaryAfter first blockSize ∧ boundaryAfter first blockSize ≤ first + blockSize ∧
      blockSize ≤ boundaryAfter first blockSize := by
  have halign := Nat.div_add_mod (first + blockSize) blockSize
  have hmod := Nat.mod_lt (first + blockSize) h
  have hblock : blockSize ≤ boundaryAfter first blockSize :=
    Nat.le_mul_of_pos_left _ (Nat.div_pos (by omega) h)
  rw [Nat.mul_comm] at halign
  unfold boundaryAfter at hblock ⊢
  omega

/-- The next candidate, where no sum wraps around. -/
theorem nextStart_eq {first : Nat} (count : Nat) (h : first + blockSizeFor count < 2 ^ 32) :
    nextStart first count (blockSizeFor count) =
      if boundaryAfter first (blockSizeFor count) - count % 512 ≤ first then
        boundaryAfter first (blockSizeFor count)
      else boundaryAfter first (blockSizeFor count) - count % 512 := by
  have hpos := blockSizeFor_pos count
  obtain ⟨_, hle, hblock⟩ := boundaryAfter_spec first hpos
  have hrem := remainder_le_blockSize count
  have hround : u32 (first + 1 + (blockSizeFor count - 1)) &&&
      (2 ^ 32 - 1 - (blockSizeFor count - 1)) = boundaryAfter first (blockSizeFor count) := by
    rw [show first + 1 + (blockSizeFor count - 1) = first + blockSizeFor count by omega,
      u32_of_lt h, mask_blockSize count h]
    rfl
  simp only [nextStart, u32_of_lt (show first + 1 < 2 ^ 32 by omega), hround]
  rw [sub32_of_le (by omega) (by omega)]
  exact if_congr Nat.lt_succ_iff rfl rfl

/-- A failed round moves strictly up, and never past the next block boundary. -/
theorem nextStart_spec {first : Nat} (count : Nat) (hfirst : first < 2 ^ 31) :
    first < nextStart first count (blockSizeFor count) ∧
      nextStart first count (blockSizeFor count) ≤
        (first + blockSizeFor count) / blockSizeFor count * blockSizeFor count := by
  obtain ⟨j, hj, hbs, _⟩ := blockSizeFor_spec count
  have hle : 2 ^ j ≤ 2 ^ 9 := Nat.pow_le_pow_right (by decide) hj
  obtain ⟨hlt, _⟩ := boundaryAfter_spec first (blockSizeFor_pos count)
  rw [nextStart_eq count (by omega)]
  unfold boundaryAfter at hlt ⊢
  split <;> omega

/-! ## The whole search -/

theorem searchRun_found {map : PageMap} {lastpfn count blockSize fuel start pfn : Nat}
    (hlast : lastpfn < 2 ^ 30) (hcount : count ≤ lastpfn + 1)
    (h : searchRun map lastpfn count blockSize fuel start = .found pfn) :
    pfn ≤ lastpfn ∧ pfn + count ≤ lastpfn + 1 ∧
      ∀ page, pfn ≤ page → page < pfn + count → map page = freePage := by
  induction fuel generalizing start with
  | zero => simp [searchRun] at h
  | succ fuel ih =>
      simp only [searchRun] at h
      split at h
      · rename_i hbounds
        split at h
        · exact ih h
        · rename_i hend
          cases h
          have hend := Decidable.not_not.mp hend
          rw [u32_of_lt (by omega), u32_of_lt (by omega)] at hbounds
          have hfree := (scanFree_spec map pfn count).2.2.1
          rw [hend] at hfree
          exact ⟨hbounds.1, hbounds.2, hfree⟩
      · cases h

theorem findRun_found {map : PageMap} {lastpfn count pfn : Nat} (hlast : lastpfn < 2 ^ 30)
    (hcount : count < 2 ^ 32) (h : findRun map lastpfn count = .found pfn) :
    pfn ≤ lastpfn ∧ pfn + count ≤ lastpfn + 1 ∧
      ∀ page, pfn ≤ page → page < pfn + count → map page = freePage := by
  have hle : count ≤ lastpfn + 1 := by
    by_contra hgt
    rw [findRun, searchRun, if_neg] at h
    · cases h
    · rw [u32_of_lt (by omega), u32_of_lt (by omega)]
      omega
  exact searchRun_found hlast hle h

theorem allocateManyPfn_spec {s s' : MemState} {count pfn : Nat} {type : UInt8}
    (hlast : s.lastpfn < 2 ^ 29) (hcount : count < 2 ^ 32)
    (h : allocateManyPfn s count type = some (pfn, s')) :
    pfn ≤ s.lastpfn ∧ pfn + count ≤ s.lastpfn + 1 ∧
      (∀ page, pfn ≤ page → page < pfn + count → s.memoryMap page = freePage) ∧
      s' = { s with memoryMap := markManyPfn s.memoryMap pfn count type } := by
  unfold allocateManyPfn at h
  split at h
  · rename_i found hfound
    cases h
    obtain ⟨hle, hend, hfree⟩ := findRun_found (by omega) hcount hfound
    exact ⟨hle, hend, hfree, rfl⟩
  · cases h

/-- Every failed round moves the search up, so the fuel never runs out. -/
theorem findRun_ne_diverged {map : PageMap} {lastpfn count : Nat} (hlast : lastpfn < 2 ^ 30)
    (hcount : count < 2 ^ 32) : findRun map lastpfn count ≠ .diverged := by
  by_cases hle : count ≤ lastpfn + 1
  · have hsearch : ∀ fuel start, 0 < fuel → lastpfn + 1 < start + fuel →
        searchRun map lastpfn count (blockSizeFor count) fuel start ≠ .diverged := by
      intro fuel
      induction fuel with
      | zero =>
          intro start hpos _
          omega
      | succ fuel ih =>
          intro start _ hfuel
          simp only [searchRun]
          split
          · rename_i hbounds
            obtain ⟨hfirst, hend, _⟩ := scanFree_spec map start count
            split
            · have hup := (nextStart_spec count
                (show scanFree map start count < 2 ^ 31 by omega)).1
              exact ih _ (by omega) (by omega)
            · simp
          · simp
    exact hsearch _ _ (by omega) (by omega)
  · rw [findRun, searchRun, if_neg]
    · simp
    · rw [u32_of_lt (by omega), u32_of_lt (by omega)]
      omega

end Milo.Memory
