import Milo.Memory.Ownership

/-! # Ownership under resizing

`reset_mem` moves the end of memory. Shrinking leaves the entries past the new
end as they are, and growing marks every page between the two ends free, also
those that were handed out while memory was larger. What is owned is kept
exactly by the calls whose growth reaches no such page. The map itself stays
where it is, so growth must also stay within the pages it was given.
-/

namespace Milo.Memory

open Foundation

/-- The pages `reset_mem` marks free. -/
def grownPages (s : MemState) (top : Nat) : Span :=
  ⟨lastpfnFor s.memorySize + 1, lastpfnFor top - lastpfnFor s.memorySize⟩

/-- No page between the old and the new end is owned. -/
def GrowthUnowned (l : Ledger) (top : Nat) : Prop :=
  ∀ run ∈ l.heap ++ l.runs ++ l.reserved, Span.Disjoint run (grownPages l.mem top)

def ResizeSound (l : Ledger) : MemCall → Prop
  | .alloc call => AllocSound l call
  | .resetMem top => GrowthUnowned l (u64 top) ∧ lastpfnFor (u64 top) < l.entries

instance (l : Ledger) (top : Nat) : Decidable (GrowthUnowned l top) :=
  inferInstanceAs (Decidable
    (∀ run ∈ l.heap ++ l.runs ++ l.reserved, Span.Disjoint run (grownPages l.mem top)))

instance (l : Ledger) : (call : MemCall) → Decidable (ResizeSound l call)
  | .alloc call => inferInstanceAs (Decidable (AllocSound l call))
  | .resetMem top =>
      inferInstanceAs (Decidable (GrowthUnowned l (u64 top) ∧ lastpfnFor (u64 top) < l.entries))

/-! ## One step -/

theorem resetMem_apply (s : MemState) (top page : Nat) :
    (resetMem s top).memoryMap page =
      if page ∈ grownPages s top then freePage else s.memoryMap page := by
  rw [resetMem_memoryMap, grownPages]
  congr 1
  apply propext
  rw [Span.mem_mk]
  omega

/-- `reset_mem` keeps the owned pages exactly when it grows over none of them. -/
theorem resetMem_pagesOwned_iff {l : Ledger} {top : Nat}
    (h : PagesOwned l.mem.memoryMap (l.heap ++ l.runs) l.reserved) :
    PagesOwned (resetMem l.mem top).memoryMap (l.heap ++ l.runs) l.reserved ↔
      GrowthUnowned l top := by
  constructor
  · intro hkept run hrun page hpage hgrown
    apply hkept.used page (Span.covers_append.mp ⟨run, hrun, hpage⟩)
    rw [resetMem_apply, if_pos hgrown]
  · intro hok
    apply h.congr
    intro page howned
    rw [resetMem_apply, if_neg]
    obtain ⟨run, hrun, hpage⟩ := Span.covers_append.mpr howned
    exact hok run hrun page hpage

theorem resetMem_inv {l : Ledger} {top : Nat} (h : l.Inv) (hgrowth : GrowthUnowned l top)
    (hlast : lastpfnFor top < l.entries) : Ledger.Inv { l with mem := resetMem l.mem top } where
  lastpfn_lt := hlast
  entries_le := h.entries_le
  mapped := by simpa only [resetMem_mapAt] using h.mapped
  pages := (resetMem_pagesOwned_iff h.pages).mpr hgrowth
  owned_le := h.owned_le
  blocks_in := h.blocks_in
  blocks_apart := h.blocks_apart
  pointer := by
    simpa only [PointerInLastRun, PointerFresh, resetMem_tempMemoryPtr] using h.pointer

theorem memStep_inv {l l' : Ledger} {call : MemCall} (h : l.Inv) (hok : ResizeSound l call)
    (hstep : memStep l call = some l') : l'.Inv := by
  cases call with
  | alloc call => exact allocStep_inv h hok hstep
  | resetMem top =>
      obtain rfl := Option.some.inj hstep
      exact resetMem_inv h hok.1 hok.2

/-! ## Runs -/

/-- In every run whose steps are sound, no page that was handed out or reserved
is free, and no page or byte has two owners. -/
theorem mem_run_owned (bytes : PageMap) (reboot : Option Nat) (top : Nat)
    (calls : List MemCall) (l : Ledger) (hmap : MapHolds (u64 top))
    (hok : StepsMeet memStep ResizeSound (bootLedger bytes reboot top) calls)
    (hrun : run memStep (bootLedger bytes reboot top) calls = some l) :
    PagesOwned l.mem.memoryMap (l.heap ++ l.runs) l.reserved ∧ l.BytesOwned := by
  have hinv := run_invariant (fun _ _ _ => memStep_inv) (bootLedger_inv bytes reboot hmap) hok hrun
  exact ⟨hinv.pages, hinv.bytesOwned⟩

/-- A 32 Mb machine. -/
def bootLarge : Ledger := bootLedger (fun _ => 0) none 0x2000000

theorem mem_run_owned_large :
    ∃ l, run memStep bootLarge [.alloc (.kmalloc 100), .resetMem 0x1000000,
        .alloc (.allocateManyPfn 5 temporaryType), .resetMem 0x1800000] = some l ∧
      PagesOwned l.mem.memoryMap (l.heap ++ l.runs) l.reserved ∧ l.BytesOwned := by
  have hruns : (run memStep bootLarge [.alloc (.kmalloc 100), .resetMem 0x1000000,
      .alloc (.allocateManyPfn 5 temporaryType), .resetMem 0x1800000]).isSome = true := by
    rw [bootLarge, bootLedger_eq]
    decide +kernel
  obtain ⟨l, hl⟩ := Option.isSome_iff_exists.mp hruns
  refine ⟨l, hl, mem_run_owned _ _ _ _ l (by decide) ?_ hl⟩
  rw [bootLedger_eq]
  decide +kernel

/-- Pages handed out at the top of memory are free again after shrinking and
growing back. -/
theorem resetMem_frees_allocated :
    ∃ l, run memStep bootLarge [.alloc (.allocateManyPfn 300 temporaryType),
        .resetMem 0x1000000, .resetMem 0x2000000] = some l ∧
      l.runs = [⟨2048, 300⟩] ∧ l.mem.memoryMap 2048 = freePage ∧
      ¬ PagesOwned l.mem.memoryMap (l.heap ++ l.runs) l.reserved := by
  have hrun : (run memStep bootLarge [.alloc (.allocateManyPfn 300 temporaryType),
      .resetMem 0x1000000, .resetMem 0x2000000]).map
        (fun l => (l.runs, l.mem.memoryMap 2048)) = some ([⟨2048, 300⟩], freePage) := by
    rw [bootLarge, bootLedger_eq]
    decide +kernel
  obtain ⟨l, hl, hview⟩ := Option.map_eq_some_iff.mp hrun
  obtain ⟨hruns, hfree⟩ := Prod.mk.inj hview
  refine ⟨l, hl, hruns, hfree, ?_⟩
  intro howned
  refine howned.used 2048 (Or.inl (Span.covers_append.mpr (Or.inr ?_))) hfree
  rw [hruns]
  exact Span.Covers.head _ (Span.mem_mk.mpr (by omega))

end Milo.Memory
