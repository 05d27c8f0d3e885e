import Mathlib.Logic.Function.Basic
import Milo.Foundation.Words

/-! # The page map and its allocators

`milo_memory_map` holds one byte of usage for each page frame. The allocators
search it for free pages and mark what they hand out. Page frame numbers are
C `unsigned int`s, so the bounds of the search are computed modulo `2 ^ 32`.
-/

namespace Milo.Memory

open Foundation

/-! ## Page frames and addresses -/

def pageShift : Nat := 13
def pageSize : Nat := 8192

/-- Start of the direct-mapped segment, which covers `2 ^ 42` bytes. -/
def pageOffset : Nat := 0xfffffc0000000000

/-- `_PFN_TO_PHYSICAL` -/
def pfnToPhysical (pfn : Nat) : Nat := u64 (pfn <<< pageShift) ||| pageOffset

/-- `_PHYSICAL_TO_PFN` -/
def physicalToPfn (physical : Nat) : Nat := (physical &&& (2 ^ 64 - 1 - pageOffset)) >>> pageShift

theorem physicalToPfn_eq (physical : Nat) : physicalToPfn physical = physical % 2 ^ 42 / 8192 := by
  have hmask : 2 ^ 64 - 1 - pageOffset = 2 ^ 42 - 1 := by decide
  rw [physicalToPfn, hmask, Nat.and_two_pow_sub_one_eq_mod, Nat.shiftRight_eq_div_pow]
  rfl

theorem physicalToPfn_lt (physical : Nat) : physicalToPfn physical < 2 ^ 29 := by
  rw [physicalToPfn_eq]
  omega

/-- An address in the segment, whatever the frame number. -/
theorem pfnToPhysical_segment {pfn : Nat} (h : pfn < 2 ^ 32) :
    pfnToPhysical pfn = pageOffset + 8192 * pfn % 2 ^ 42 := by
  have hshift : pfn <<< pageShift = 8192 * pfn := by
    rw [Nat.shiftLeft_eq, Nat.mul_comm]
    rfl
  have hoffset : pageOffset = 2 ^ 64 - 2 ^ 42 := by decide
  rw [pfnToPhysical, hshift, u64_of_lt (by omega), Nat.or_comm, hoffset,
    or_high_eq _ 42 64 (by omega) (by decide)]

theorem pfnToPhysical_eq {pfn : Nat} (h : pfn < 2 ^ 29) :
    pfnToPhysical pfn = pageOffset + 8192 * pfn := by
  rw [pfnToPhysical_segment (by omega), Nat.mod_eq_of_lt (by omega)]

theorem physicalToPfn_add (offset : Nat) :
    physicalToPfn (pageOffset + offset) = offset % 2 ^ 42 / 8192 := by
  have hoffset : pageOffset = 2 ^ 42 * (2 ^ 22 - 1) := by decide
  rw [physicalToPfn_eq, hoffset, Nat.mul_add_mod]

theorem physicalToPfn_pfnToPhysical {pfn : Nat} (h : pfn < 2 ^ 29) :
    physicalToPfn (pfnToPhysical pfn) = pfn := by
  rw [pfnToPhysical_eq h, physicalToPfn_add]
  omega

/-! ## The memory state -/

/-- Usage byte of every page frame. Entries past `lastpfn` are whatever bytes
follow the map in memory. -/
abbrev PageMap := Nat → UInt8

def freePage : UInt8 := 0
def allocatedPage : UInt8 := 2
def temporaryPage : UInt8 := 4

/-- The globals of the memory code. A null `temp_memory_ptr` is `0`, and a null
`milo_reboot_block` is `none`. -/
structure MemState where
  memoryMap : PageMap
  mapAt : Nat
  lastpfn : Nat
  memorySize : Nat
  tempMemoryPtr : Nat
  rebootMemorySize : Option Nat

/-- `mark_many_pfn` -/
def markManyPfn (map : PageMap) (pfn : Nat) : Nat → UInt8 → PageMap
  | 0, _ => map
  | count + 1, type => markManyPfn (Function.update map pfn type) (pfn + 1) count type

theorem markManyPfn_apply (map : PageMap) (pfn count : Nat) (type : UInt8) (page : Nat) :
    markManyPfn map pfn count type page =
      if pfn ≤ page ∧ page < pfn + count then type else map page := by
  induction count generalizing map pfn with
  | zero =>
      rw [if_neg (by omega)]
      rfl
  | succ count ih =>
      rw [markManyPfn, ih]
      by_cases hp : page = pfn
      · subst hp
        rw [if_neg (by omega), Function.update_self, if_pos (by omega)]
      · rw [Function.update_of_ne hp]
        congr 1
        apply propext
        omega

theorem markManyPfn_inside {map : PageMap} {pfn count page : Nat} {type : UInt8}
    (h : pfn ≤ page ∧ page < pfn + count) : markManyPfn map pfn count type page = type := by
  rw [markManyPfn_apply, if_pos h]

theorem markManyPfn_outside {map : PageMap} {pfn count page : Nat} {type : UInt8}
    (h : ¬ (pfn ≤ page ∧ page < pfn + count)) :
    markManyPfn map pfn count type page = map page := by
  rw [markManyPfn_apply, if_neg h]

/-! ## One page -/

/-- The loop of `allocate_pfn`, `n` entries before its end. -/
def findFree (map : PageMap) : Nat → Nat → Option Nat
  | 0, _ => none
  | n + 1, pfn => if map pfn = freePage then some pfn else findFree map n (pfn + 1)

/-- `allocate_pfn`; `none` when it ends in `error()`. -/
def allocatePfn (s : MemState) (type : UInt8) : Option (Nat × MemState) :=
  (findFree s.memoryMap (u32 (s.lastpfn + 1)) 0).map fun pfn =>
    (pfn, { s with memoryMap := Function.update s.memoryMap pfn type })

theorem findFree_spec {map : PageMap} {n pfn found : Nat} (h : findFree map n pfn = some found) :
    pfn ≤ found ∧ found < pfn + n ∧ map found = freePage ∧
      ∀ page, pfn ≤ page → page < found → map page ≠ freePage := by
  induction n generalizing pfn with
  | zero => simp [findFree] at h
  | succ n ih =>
      rw [findFree] at h
      split at h
      · cases h
        exact ⟨Nat.le_refl _, by omega, by assumption, fun page _ _ => by omega⟩
      · rename_i hbusy
        obtain ⟨hle, hlt, hfree, hbefore⟩ := ih h
        refine ⟨by omega, by omega, hfree, ?_⟩
        intro page hp hpf
        by_cases he : page = pfn
        · rwa [he]
        · exact hbefore page (by omega) hpf

theorem allocatePfn_spec {s s' : MemState} {type : UInt8} {pfn : Nat} (hlast : s.lastpfn < 2 ^ 29)
    (h : allocatePfn s type = some (pfn, s')) :
    pfn ≤ s.lastpfn ∧ s.memoryMap pfn = freePage ∧
      s' = { s with memoryMap := Function.update s.memoryMap pfn type } := by
  simp only [allocatePfn, Option.map_eq_some_iff, Prod.mk.injEq] at h
  obtain ⟨found, hfind, rfl, rfl⟩ := h
  obtain ⟨_, hlt, hfree, _⟩ := findFree_spec hfind
  rw [u32_of_lt (by omega)] at hlt
  exact ⟨by omega, hfree, rfl⟩

end Milo.Memory
