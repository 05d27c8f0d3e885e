import Milo.Boot.Ramdisk

/-! # The pages of a ramdisk

The ramdisk ends a block below the loader, and so inside of a page. The number of
pages to mark is the size alone, rounded up.
-/

namespace Milo.Boot

open Foundation Milo.Memory

/-- Every page with a byte of the area is marked, and no other page. -/
structure PagesMarked (map map' : PageMap) (area : Span) : Prop where
  marked : ∀ a ∈ area, map' (physicalToPfn a) = allocatedPage
  others : ∀ page, (∀ a ∈ area, physicalToPfn a ≠ page) → map' page = map page

/-- The page in front of the loader. -/
def lastRamdiskPfn : Nat := physicalToPfn loaderAt - 1

theorem loaderAt_eq : loaderAt = pageOffset + 8192 * (lastRamdiskPfn + 1) := by decide

section
variable {size : Nat} (h : size + iobufSize ≤ loaderAt - pageOffset)
include h

theorem ramdiskAt_eq :
    ramdiskAt size = pageOffset + (8192 * (lastRamdiskPfn + 1) - (size + iobufSize)) := by
  have hloader := loaderAt_eq
  have hplace := @ramdiskAt_add size (by
    have hsegment : loaderAt - pageOffset < 2 ^ 63 := by decide
    omega)
  omega

/-- The pages of the bytes of a ramdisk are those from the first one to the one in front
of the loader. -/
theorem ramdisk_pfn_iff (page : Nat) :
    (∃ a ∈ (⟨ramdiskAt size, size⟩ : Span), physicalToPfn a = page) ↔
      0 < size ∧ physicalToPfn (ramdiskAt size) ≤ page ∧ page ≤ lastRamdiskPfn := by
  have hstart := ramdiskAt_eq h
  have hloader := loaderAt_eq
  have hlast : lastRamdiskPfn = 0x67f := by decide
  have hblock : iobufSize = 1024 := rfl
  rw [hlast, hblock] at hstart
  rw [hlast] at hloader ⊢
  rw [hloader] at h
  rw [hstart, physicalToPfn_add]
  constructor
  · rintro ⟨a, ha, rfl⟩
    rw [Span.mem_mk] at ha
    obtain ⟨o, rfl⟩ := Nat.exists_eq_add_of_le (show pageOffset ≤ a by omega)
    rw [physicalToPfn_add]
    omega
  · rintro ⟨hpos, hlo, hhi⟩
    refine ⟨pageOffset + max (8192 * 0x680 - (size + 1024)) (8192 * page), ?_, ?_⟩
    · rw [Span.mem_mk]
      omega
    · rw [physicalToPfn_add]
      omega

/-- `ramdisk_num_pages` -/
theorem ramdiskPages_eq :
    u32 ((size + pageSize - 1) >>> pageShift) = (size + 8191) / 8192 := by
  have hsegment : loaderAt - pageOffset < 2 ^ 32 := by decide
  have hshift : (size + pageSize - 1) >>> pageShift = (size + 8191) / 8192 := by
    rw [Nat.shiftRight_eq_div_pow]
    rfl
  rw [hshift, u32_of_lt (by omega)]

/-- The number of pages reaches the loader, or the page in front of it is left out. -/
theorem ramdiskPages_reach :
    (0 < size % pageSize ∧ size % pageSize + iobufSize ≤ pageSize →
        physicalToPfn (ramdiskAt size) + (size + 8191) / 8192 = lastRamdiskPfn + 1) ∧
      (0 < size → ¬ (0 < size % pageSize ∧ size % pageSize + iobufSize ≤ pageSize) →
        physicalToPfn (ramdiskAt size) + (size + 8191) / 8192 = lastRamdiskPfn) := by
  have hloader := loaderAt_eq
  have hlast : lastRamdiskPfn = 0x67f := by decide
  rw [ramdiskAt_eq h, physicalToPfn_add]
  rw [hlast] at hloader ⊢
  rw [hloader] at h
  simp only [iobufSize, pageSize] at h ⊢
  omega

end

/-- For every ramdisk that has its place in memory, and every map: the pages are marked
exactly if the size says how many there are, or the last one is marked already. -/
theorem ramdiskPages_marked_iff (k : KernelInfo) (map : PageMap) (source : BlockSource) {size : Nat}
    (h : size + iobufSize ≤ loaderAt - pageOffset) :
    PagesMarked map (loadRamdiskFromDevice k map (some (size, source))).memoryMap
        ⟨ramdiskAt size, size⟩ ↔
      size = 0 ∨ (0 < size % pageSize ∧ size % pageSize + iobufSize ≤ pageSize) ∨
        map lastRamdiskPfn = allocatedPage := by
  have hpages := ramdisk_pfn_iff h
  obtain ⟨hreach, hshort⟩ := ramdiskPages_reach h
  have hmap : ∀ page, (loadRamdiskFromDevice k map (some (size, source))).memoryMap page =
      if physicalToPfn (ramdiskAt size) ≤ page ∧
          page < physicalToPfn (ramdiskAt size) + (size + 8191) / 8192 then allocatedPage
      else map page := by
    intro page
    unfold loadRamdiskFromDevice
    simp only
    rw [markManyPfn_apply, ramdiskPages_eq h]
  generalize physicalToPfn (ramdiskAt size) = first at hpages hreach hshort hmap
  constructor
  · intro hmarked
    by_contra hbad
    rw [not_or, not_or] at hbad
    obtain ⟨hpos, hround, hfree⟩ := hbad
    have hend := hshort (Nat.pos_of_ne_zero hpos) hround
    -- the page in front of the loader has the last byte, and is not marked
    obtain ⟨a, ha, hlast⟩ := (hpages lastRamdiskPfn).mpr
      ⟨Nat.pos_of_ne_zero hpos, by omega, Nat.le_refl _⟩
    have hlost := hmarked.marked a ha
    rw [hlast, hmap, if_neg (by omega)] at hlost
    exact hfree hlost
  · intro hgood
    refine ⟨fun a ha => ?_, fun page hother => ?_⟩
    · obtain ⟨hpos, hlo, hhi⟩ := (hpages _).mp ⟨a, ha, rfl⟩
      rw [hmap]
      by_cases hround : 0 < size % pageSize ∧ size % pageSize + iobufSize ≤ pageSize
      · have hend := hreach hround
        rw [if_pos (by omega)]
      · have hend := hshort hpos hround
        have hfree := (hgood.resolve_left (by omega)).resolve_left hround
        split
        · rfl
        · have hlast : physicalToPfn a = lastRamdiskPfn := by omega
          rw [hlast, hfree]
    · rw [hmap, if_neg]
      intro hin
      obtain ⟨a, ha, hpage⟩ := (hpages page).mpr (by
        by_cases hround : 0 < size % pageSize ∧ size % pageSize + iobufSize ≤ pageSize
        · have hend := hreach hround
          omega
        · have hpos : 0 < size := by omega
          have hend := hshort hpos hround
          omega)
      exact hother a ha hpage

/-- A ramdisk of 1000 bytes. -/
theorem ramdiskPages_marked_small :
    PagesMarked (fun _ => freePage)
      (loadRamdiskFromDevice ⟨kernelStart, 0, 0, 0, 0x200000⟩ (fun _ => freePage)
        (some (1000, ⟨fun _ => 1024, fun _ _ => 0⟩))).memoryMap ⟨ramdiskAt 1000, 1000⟩ :=
  (ramdiskPages_marked_iff _ _ _ (by decide)).mpr (Or.inr (Or.inl (by decide)))

/-- Of a ramdisk of a whole page the last 7168 bytes are in a page that stays free. -/
theorem whole_page_ramdisk_unmarked :
    ¬ PagesMarked (fun _ => freePage)
      (loadRamdiskFromDevice ⟨kernelStart, 0, 0, 0, 0x200000⟩ (fun _ => freePage)
        (some (8192, ⟨fun _ => 1024, fun _ _ => 0⟩))).memoryMap ⟨ramdiskAt 8192, 8192⟩ := by
  rw [ramdiskPages_marked_iff _ _ _ (by decide)]
  decide

end Milo.Boot
