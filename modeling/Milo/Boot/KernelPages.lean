import Mathlib.Logic.Relation
import Milo.Boot.ElfSafety
import Milo.Boot.PageTable
import Milo.Boot.Ramdisk
import Milo.Hwrpb.MemMap

/-! # The pages of the kernel

`load_image_from_memory` counts the pages up to the entry and those of the kernel
apart, each rounded up. `boot_cmd` marks so many from KERNEL_START on, and until the
memory is described for the kernel only free pages are handed out.
-/

namespace Milo.Boot

open Foundation Milo.Memory Milo.Hwrpb

/-- The marks of `boot_cmd`; `mark_many_pfn` takes the count as an `int`. -/
def markKernelPages (map : PageMap) (k : KernelInfo) : PageMap :=
  let map := markManyPfn map (physicalToPfn kernelStart) (physicalToPfn maxKernelSize) freePage
  markManyPfn map (physicalToPfn kernelStart) (s32 k.kernelPages).toNat allocatedPage

/-- What happens to the map until it is described: free pages are handed out, or pages
become allocated. -/
inductive MapStep : PageMap → PageMap → Prop
  | hand {map : PageMap} {pfn count : Nat} {type : UInt8}
      (free : ∀ page, pfn ≤ page → page < pfn + count → map page = freePage) :
      MapStep map (markManyPfn map pfn count type)
  | mark {map : PageMap} {pfn count : Nat} : MapStep map (markManyPfn map pfn count allocatedPage)

/-- The map after some of these steps. -/
abbrev LaterMap : PageMap → PageMap → Prop := Relation.ReflTransGen MapStep

/-- The pages of a cluster. -/
def pagesOf (c : Cluster) : Span := ⟨c.startPfn, c.numpages⟩

/-! ## The calls of `boot_cmd` -/

theorem allocatePfn_mapStep {s s' : MemState} {type : UInt8} {pfn : Nat} (hlast : s.lastpfn < 2 ^ 29)
    (h : allocatePfn s type = some (pfn, s')) : MapStep s.memoryMap s'.memoryMap := by
  obtain ⟨_, hfree, rfl⟩ := allocatePfn_spec hlast h
  refine @MapStep.hand s.memoryMap pfn 1 type fun page hlo hhi => ?_
  obtain rfl : page = pfn := by omega
  exact hfree

theorem allocateManyPfn_mapStep {s s' : MemState} {count pfn : Nat} {type : UInt8}
    (hlast : s.lastpfn < 2 ^ 29) (hcount : count < 2 ^ 32)
    (h : allocateManyPfn s count type = some (pfn, s')) : MapStep s.memoryMap s'.memoryMap := by
  obtain ⟨_, _, hfree, rfl⟩ := allocateManyPfn_spec hlast hcount h
  exact MapStep.hand hfree

theorem loadRamdisk_laterMap (k : KernelInfo) (map : PageMap) (file : Option (Nat × BlockSource)) :
    LaterMap map (loadRamdiskFromDevice k map file).memoryMap := by
  cases file with
  | none => exact Relation.ReflTransGen.refl
  | some file => exact Relation.ReflTransGen.single MapStep.mark

section
variable {H : PteHeader}

theorem tableAt_laterMap {count : MmState → MmState} (hcount : ∀ s, (count s).mem = s.mem)
    {s s' : MmState} {pa pte : Nat} (hlast : s.mem.lastpfn < 2 ^ 29)
    (h : tableAt H count s pa = some (pte, s')) :
    LaterMap s.mem.memoryMap s'.mem.memoryMap ∧ s'.mem.lastpfn = s.mem.lastpfn := by
  unfold tableAt at h
  split at h
  · rw [Option.map_eq_some_iff] at h
    obtain ⟨⟨pfn, mem⟩, halloc, heq⟩ := h
    obtain ⟨_, rfl⟩ := Prod.mk.inj heq
    have hstep := allocatePfn_mapStep hlast halloc
    obtain ⟨_, _, rfl⟩ := allocatePfn_spec hlast halloc
    rw [hcount]
    exact ⟨Relation.ReflTransGen.single hstep, rfl⟩
  · obtain ⟨_, rfl⟩ := Prod.mk.inj (Option.some.inj h)
    exact ⟨Relation.ReflTransGen.refl, rfl⟩

/-- `make_HWRPB_virtual` is one call of `add_VA`. -/
theorem addVA_laterMap {s s' : MmState} {c : VaCall} (hlast : s.mem.lastpfn < 2 ^ 29)
    (h : addVA H s c = some s') : LaterMap s.mem.memoryMap s'.mem.memoryMap := by
  unfold addVA at h
  rw [Option.bind_eq_some_iff] at h
  obtain ⟨⟨l1, t⟩, hfirst, h⟩ := h
  rw [Option.map_eq_some_iff] at h
  obtain ⟨⟨l2, u⟩, hsecond, rfl⟩ := h
  have hl2 : ∀ s, (countL2 s).mem = s.mem := fun _ => rfl
  have hl3 : ∀ s, (countL3 s).mem = s.mem := fun _ => rfl
  obtain ⟨hmap, hsame⟩ := tableAt_laterMap hl2 hlast hfirst
  have hmap' := (tableAt_laterMap hl3 (hsame ▸ hlast) hsecond).1
  have hentry : (mapAt H u (entryAddress H l2 (l3Offset c.va)) c).mem = u.mem := by
    unfold mapAt
    split
    · rfl
    · rfl
  rw [hentry]
  exact hmap.trans hmap'

end

/-- An allocated page stays allocated. -/
theorem MapStep.keeps {map map' : PageMap} (h : MapStep map map') {page : Nat}
    (hpage : map page = allocatedPage) : map' page = allocatedPage := by
  cases h with
  | hand free =>
      rw [markManyPfn_outside, hpage]
      rintro ⟨hlo, hhi⟩
      rw [free page hlo hhi] at hpage
      exact absurd hpage (by decide)
  | mark =>
      rw [markManyPfn_apply, hpage]
      exact ite_self _

theorem LaterMap.keeps {map map' : PageMap} (h : LaterMap map map') {page : Nat}
    (hpage : map page = allocatedPage) : map' page = allocatedPage := by
  induction h with
  | refl => exact hpage
  | tail _ hstep ih => exact hstep.keeps ih

/-! ## The description -/

/-- The usage of every cluster is that of its pages; temporary pages are free. -/
theorem buildHwrpbMemMap_usage (map : PageMap) (lastpfn : Nat) (memdesc : Memdesc) :
    ∀ c ∈ (buildHwrpbMemMap map lastpfn memdesc).2.clusters, ∀ page ∈ pagesOf c,
      map page = allocatedPage → c.usage = allocatedPage := by
  intro c hc page hpage halloc
  have hscan := scanClusters_inv (u32 (lastpfn + 1) - 1)
    (firstCluster_inv (freeTemporary map 0 (u32 (lastpfn + 1))) memdesc)
  have hrun : c.toRun ∈ (buildHwrpbMemMap map lastpfn memdesc).2.clusters.map Cluster.toRun :=
    List.mem_map_of_mem hc
  obtain ⟨hlo, hhi⟩ := Span.mem_mk.mp hpage
  have husage := hscan.described.values c.toRun hrun page hlo hhi
  have htemp : allocatedPage ≠ temporaryPage := by decide
  rw [freeTemporary_apply, halloc, if_neg fun h => htemp h.2] at husage
  exact husage.symm

/-! ## The count -/

section
variable {elfCheckArch : Nat → Bool} {mem : ByteMemory} {address : Nat}

/-- What is counted for an accepted image. -/
theorem loadImage_pages (k : KernelInfo) (h : ¬ Rejected elfCheckArch mem address) :
    let r := (loadImageFromMemory elfCheckArch mem address k).value
    r.kernel.kernelMemsize = sub64 (pMemsz mem address) (entryDelta mem address) ∧
      r.kernel.kernelPages =
        u64 (sub64 (u64 (r.kernel.kernelMemsize + pageSize)) 1 >>> pageShift +
          sub64 (u64 (sub64 (eEntry mem address) kernelStart + pageSize)) 1 >>> pageShift) := by
  obtain ⟨hpassed, hoffset⟩ := not_rejected_iff.mp h
  rw [loadImageFromMemory, Traced.value_bind, (extractHeaderInfo_passed hpassed).1]
  dsimp only
  rw [if_neg (Nat.not_le_of_lt hoffset)]
  exact ⟨rfl, rfl⟩

/-- `n` bytes in pages, rounded up. -/
theorem roundedPages {n : Nat} (h : n + pageSize < 2 ^ 64) :
    sub64 (u64 (n + pageSize)) 1 >>> pageShift = (n + 8191) / 8192 := by
  have hpage : pageSize = 8192 := rfl
  have hpower : 2 ^ pageShift = 8192 := rfl
  rw [u64_of_lt h, sub64_of_le h (by omega), Nat.shiftRight_eq_div_pow, hpower, hpage]
  congr 1

/-- An image with its entry in the segment, which is above KERNEL_START and not too
large. -/
structure KernelImage (elfCheckArch : Nat → Bool) (mem : ByteMemory) (address : Nat) : Prop where
  accepted : ¬ Rejected elfCheckArch mem address
  start : kernelStart ≤ pVaddr mem address
  entry : pVaddr mem address ≤ eEntry mem address
  inside : eEntry mem address ≤ pVaddr mem address + pMemsz mem address
  memsize : pMemsz mem address ≤ maxKernelSize

theorem KernelImage.loaded (h : KernelImage elfCheckArch mem address) (k : KernelInfo) :
    let kernel := (loadImageFromMemory elfCheckArch mem address k).value.kernel
    kernel.kernelAt = eEntry mem address ∧
      kernel.kernelMemsize + eEntry mem address = pVaddr mem address + pMemsz mem address ∧
      kernel.kernelPages = (kernel.kernelMemsize + 8191) / 8192 +
        (eEntry mem address - kernelStart + 8191) / 8192 := by
  obtain ⟨_, hat, _⟩ := loadImage_accepted k h.accepted
  obtain ⟨hsize, hpages⟩ := loadImage_pages k h.accepted
  have hentry := eEntry_lt mem address
  have hinside := h.inside
  have horder := h.entry
  have hlimit := h.memsize
  have hmemsz := pMemsz_lt mem address
  have hmax : maxKernelSize = 0x800000 := rfl
  have hbase : 2 ^ 64 - 2 ^ 42 ≤ kernelStart := by decide
  have hpage : pageSize = 8192 := rfl
  have hmemsize : sub64 (pMemsz mem address) (entryDelta mem address) =
      pMemsz mem address - (eEntry mem address - pVaddr mem address) := by
    unfold entryDelta
    exact sub64_of_le hmemsz (by omega)
  have hpast : sub64 (eEntry mem address) kernelStart = eEntry mem address - kernelStart :=
    sub64_of_le hentry (Nat.le_trans h.start horder)
  dsimp only at hsize hpages ⊢
  rw [hmemsize] at hsize
  rw [hpast, roundedPages (by omega), roundedPages (by omega), u64_of_lt (by omega)] at hpages
  refine ⟨hat.trans (Nat.max_eq_right horder), by omega, hpages⟩

/-- The pages that are counted reach up to the end of the kernel, whatever the
alignment. -/
theorem countedPages_reach {entry memsize a : Nat} (hlo : kernelStart ≤ a) (ha : a < 2 ^ 64)
    (hentry : kernelStart ≤ entry) (hhi : a < entry + memsize) :
    physicalToPfn kernelStart ≤ physicalToPfn a ∧
      physicalToPfn a < physicalToPfn kernelStart +
        ((memsize + 8191) / 8192 + (entry - kernelStart + 8191) / 8192) := by
  have hbase : kernelStart = 2 ^ 64 - 2 ^ 42 + 8192 * 0x180 := by decide
  rw [hbase] at hlo hentry ⊢
  rw [physicalToPfn_eq, physicalToPfn_eq]
  omega

end

/-! ## The pages of a kernel -/

/-- For every accepted image, every map and every way of it up to the description. -/
theorem kernelPages_accounted (elfCheckArch : Nat → Bool) (mem : ByteMemory) (address : Nat)
    (k : KernelInfo) (map later : PageMap) (lastpfn : Nat) (memdesc : Memdesc)
    (himage : KernelImage elfCheckArch mem address)
    (hlater : LaterMap
      (markKernelPages map (loadImageFromMemory elfCheckArch mem address k).value.kernel) later) :
    let kernel := (loadImageFromMemory elfCheckArch mem address k).value.kernel
    ∀ a < 2 ^ 64, kernelStart ≤ a → a < kernel.kernelAt + kernel.kernelMemsize →
      markKernelPages map kernel (physicalToPfn a) = allocatedPage ∧
        ∀ c ∈ (buildHwrpbMemMap later lastpfn memdesc).2.clusters,
          physicalToPfn a ∈ pagesOf c → c.usage ≠ freePage := by
  intro kernel a ha hlo hhi
  obtain ⟨hat, hend, hpages⟩ : kernel.kernelAt = eEntry mem address ∧
      kernel.kernelMemsize + eEntry mem address = pVaddr mem address + pMemsz mem address ∧
      kernel.kernelPages = (kernel.kernelMemsize + 8191) / 8192 +
        (eEntry mem address - kernelStart + 8191) / 8192 := himage.loaded k
  have hentry := eEntry_lt mem address
  have hbase : 2 ^ 64 - 2 ^ 42 ≤ kernelStart := by decide
  have hmax : maxKernelSize = 0x800000 := rfl
  have hlimit := himage.memsize
  have horder := himage.entry
  have hstart : kernelStart ≤ eEntry mem address := Nat.le_trans himage.start himage.entry
  rw [hat] at hhi
  have hreach := countedPages_reach hlo ha hstart hhi
  have hmarked : markKernelPages map kernel (physicalToPfn a) = allocatedPage := by
    unfold markKernelPages
    rw [s32_of_lt (by omega), Int.toNat_natCast, hpages]
    exact markManyPfn_inside hreach
  refine ⟨hmarked, fun c hc hpage husage => ?_⟩
  have hused := buildHwrpbMemMap_usage later lastpfn memdesc c hc _ hpage (hlater.keeps hmarked)
  rw [husage] at hused
  exact absurd hused (by decide)

/-- The page of the first byte of a kernel that was loaded, with nothing handed out. -/
theorem kernelPages_accounted_good :
    let kernel := (loadImageFromMemory alphaOnly goodImage stagedAt noKernel).value.kernel
    markKernelPages (fun _ => temporaryPage) kernel (physicalToPfn (kernelStart + 0x310)) =
      allocatedPage :=
  (kernelPages_accounted alphaOnly goodImage stagedAt noKernel (fun _ => temporaryPage) _ 0x800
    ⟨0, fun _ => ⟨0, 0, 0⟩⟩
    ⟨not_rejected_iff.mpr ⟨by constructor <;> decide +kernel, by decide +kernel⟩,
      by decide +kernel, by decide +kernel, by decide +kernel, by decide +kernel⟩
    Relation.ReflTransGen.refl (kernelStart + 0x310) (by decide) (by decide) (by decide +kernel)).1

end Milo.Boot
