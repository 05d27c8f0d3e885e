import Milo.Foundation.Transition
import Milo.Memory.Sizing

/-! # What the allocators have handed out

A ledger is the memory state together with the history of the run: the blocks
`kmalloc` returned, the page runs the page allocators returned, and the page
runs `kmalloc` took for itself. The invariants say which pages are owned and
that no byte belongs to two owners.
-/

namespace Milo.Memory

open Foundation

/-- A page type that marks a page as taken. -/
abbrev UsedType := { type : UInt8 // type ≠ freePage }

def temporaryType : UsedType := ⟨temporaryPage, by decide⟩
def allocatedType : UsedType := ⟨allocatedPage, by decide⟩

/-- Calls of the three allocators. The arguments are cut to the width of
`size_t` and `unsigned int` when the call is made. -/
inductive AllocCall where
  | kmalloc (size : Nat)
  | allocatePfn (type : UsedType)
  | allocateManyPfn (count : Nat) (type : UsedType)

inductive MemCall where
  | alloc (call : AllocCall)
  | resetMem (top : Nat)

/-- `heap` lists the page runs `kmalloc` took, the latest first, and `entries`
counts the entries that fit in the pages of the map. -/
structure Ledger where
  mem : MemState
  blocks : List Span
  runs : List Span
  heap : List Span
  reserved : List Span
  entries : Nat

/-- The pages one call of `kmalloc` takes, for a rounded size. -/
def takenPages (s : MemState) (size block : Nat) : List Span :=
  if opensRun s size then [⟨physicalToPfn block, pagesFor size⟩]
  else if heapBottom s ≠ heapTop s size then [⟨heapBottom s + 1, pagesFor size⟩]
  else []

def allocStep (l : Ledger) : AllocCall → Option Ledger
  | .kmalloc size =>
      (kmalloc l.mem (u64 size)).map fun (block, mem) =>
        { l with
          mem
          blocks := ⟨block, roundSize (u64 size)⟩ :: l.blocks
          heap := takenPages l.mem (roundSize (u64 size)) block ++ l.heap }
  | .allocatePfn type =>
      (allocatePfn l.mem type).map fun (pfn, mem) => { l with mem, runs := ⟨pfn, 1⟩ :: l.runs }
  | .allocateManyPfn count type =>
      (allocateManyPfn l.mem (u32 count) type).map fun (pfn, mem) =>
        { l with mem, runs := ⟨pfn, u32 count⟩ :: l.runs }

def memStep (l : Ledger) : MemCall → Option Ledger
  | .alloc call => allocStep l call
  | .resetMem top => some { l with mem := resetMem l.mem (u64 top) }

/-- The ledger `init_mem` leaves, over whatever bytes were in memory. -/
def bootLedger (bytes : PageMap) (reboot : Option Nat) (top : Nat) : Ledger where
  mem := initMem
    { memoryMap := bytes
      mapAt := 0
      lastpfn := 0
      memorySize := 0
      tempMemoryPtr := 0
      rebootMemorySize := reboot } (u64 top)
  blocks := []
  runs := []
  heap := []
  reserved := reserved (u64 top)
  entries := mapEntries (u64 top)

/-- The boot ledger with its map in closed form, for running it. -/
theorem bootLedger_eq (bytes : PageMap) (reboot : Option Nat) (top : Nat) :
    bootLedger bytes reboot top =
      { mem :=
          { memoryMap := initialUsage bytes (u64 top)
            mapAt := memoryMapAt (u64 top)
            lastpfn := lastpfnFor (u64 top)
            memorySize := u64 top
            tempMemoryPtr := 0
            rebootMemorySize := reboot }
        blocks := []
        runs := []
        heap := []
        reserved := reserved (u64 top)
        entries := mapEntries (u64 top) } := by
  rw [bootLedger, initMem_eq]

/-- The bytes of a run of pages. -/
def pageBytes (run : Span) : Span := ⟨pfnToPhysical run.start, 8192 * run.len⟩

/-! ## Owned pages -/

/-- The owned spans are apart from each other and from the reserved ones, and
no page of either is free. -/
structure PagesOwned (map : PageMap) (owned reserved : List Span) : Prop where
  used : ∀ page, Span.Covers owned page ∨ Span.Covers reserved page → map page ≠ freePage
  apart : owned.Pairwise Span.Disjoint
  fresh : ∀ page, Span.Covers owned page → ¬ Span.Covers reserved page

/-- Pages that were free can be taken by a new owner. -/
theorem PagesOwned.take {map map' : PageMap} {xs ys reserved : List Span} {run : Span}
    (h : PagesOwned map (xs ++ ys) reserved) (hfree : ∀ page ∈ run, map page = freePage)
    (hmark : ∀ page ∈ run, map' page ≠ freePage)
    (hkeep : ∀ page, page ∉ run → map' page = map page) :
    PagesOwned map' (xs ++ run :: ys) reserved := by
  have hcover : ∀ page, Span.Covers (xs ++ run :: ys) page →
      page ∈ run ∨ Span.Covers (xs ++ ys) page := by
    rintro page ⟨s, hs, hpage⟩
    rcases List.mem_append.mp hs with hs | hs
    · exact Or.inr ⟨s, List.mem_append_left ys hs, hpage⟩
    · rcases List.mem_cons.mp hs with rfl | hs
      · exact Or.inl hpage
      · exact Or.inr ⟨s, List.mem_append_right xs hs, hpage⟩
  refine ⟨?_, ?_, ?_⟩
  · intro page hpage
    by_cases hin : page ∈ run
    · exact hmark page hin
    · rw [hkeep page hin]
      exact h.used page (hpage.imp_left fun hc => (hcover page hc).resolve_left hin)
  · exact Span.pairwise_disjoint_insert h.apart fun page hin hc =>
      h.used page (Or.inl hc) (hfree page hin)
  · intro page hc hres
    rcases hcover page hc with hin | hc
    · exact h.used page (Or.inr hres) (hfree page hin)
    · exact h.fresh page hc hres

theorem PagesOwned.mark {map : PageMap} {ys reserved : List Span} {pfn count : Nat}
    {type : UInt8} (xs : List Span) (h : PagesOwned map (xs ++ ys) reserved)
    (htype : type ≠ freePage)
    (hfree : ∀ page, pfn ≤ page → page < pfn + count → map page = freePage) :
    PagesOwned (markManyPfn map pfn count type) (xs ++ ⟨pfn, count⟩ :: ys) reserved := by
  apply h.take
  · exact fun page hp => hfree page hp.1 hp.2
  · intro page hp
    rwa [markManyPfn_inside hp]
  · exact fun page hp => markManyPfn_outside hp

/-- Writes to other entries change nothing. -/
theorem PagesOwned.congr {map map' : PageMap} {owned reserved : List Span}
    (h : PagesOwned map owned reserved)
    (hkeep : ∀ page, Span.Covers owned page ∨ Span.Covers reserved page → map' page = map page) :
    PagesOwned map' owned reserved where
  used := by
    intro page hpage
    rw [hkeep page hpage]
    exact h.used page hpage
  apart := h.apart
  fresh := h.fresh

/-- Nothing is owned yet, and what `init_mem` reserved is not free. -/
theorem bootLedger_pages (bytes : PageMap) (reboot : Option Nat) (top : Nat) :
    PagesOwned (bootLedger bytes reboot top).mem.memoryMap [] (reserved (u64 top)) := by
  refine ⟨?_, List.Pairwise.nil, ?_⟩
  · rintro page (⟨_, hmem, _⟩ | hres)
    · cases hmem
    · exact initMem_reserved_used _ _ hres
  · rintro page ⟨_, hmem, _⟩
    cases hmem

end Milo.Memory
