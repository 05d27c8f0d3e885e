import Milo.Memory.Ledger

/-! # Ownership of pages and blocks

The heap hands out bytes of its own pages only while `temp_memory_ptr` stays
inside the pages `kmalloc` took last. Opening a run for a size that fills its
pages exactly leaves the pointer on the page behind them, and a later block cut
off there lies in a page that nobody reserved. The run theorem holds for every
run in which no block is cut off in that way.
-/

namespace Milo.Memory

open Foundation

/-! ## The condition -/

/-- The pointer lies in the pages that `kmalloc` took last. -/
def PointerInLastRun (l : Ledger) : Prop :=
  ∃ run ∈ l.heap.head?, physicalToPfn l.mem.tempMemoryPtr ∈ run

instance (l : Ledger) : Decidable (PointerInLastRun l) :=
  match h : l.heap.head? with
  | none => isFalse (by simp [PointerInLastRun, h])
  | some run =>
      decidable_of_iff (physicalToPfn l.mem.tempMemoryPtr ∈ run) (by simp [PointerInLastRun, h])

/-- Offset of the pointer in the direct-mapped segment. -/
def heapOffset (s : MemState) : Nat := s.tempMemoryPtr - pageOffset

/-- The block would end inside the direct-mapped segment. -/
def FitsSegment (s : MemState) (size : Nat) : Prop :=
  heapOffset s + (size + (8 - size % 8)) < 2 ^ 42

/-- What a block cut off at the pointer needs: a pointer that has not run past
the pages it belongs to, and map entries for the pages it extends into. -/
def RoomAtPointer (l : Ledger) (size : Nat) : Prop :=
  PointerInLastRun l ∧
    (heapBottom l.mem ≠ heapTop l.mem size → heapBottom l.mem + pagesFor size < l.entries)

def AllocSound (l : Ledger) : AllocCall → Prop
  | .kmalloc size =>
      FitsSegment l.mem (u64 size) ∧
        (opensRun l.mem (roundSize (u64 size)) = false →
          RoomAtPointer l (roundSize (u64 size)))
  | _ => True

instance (s : MemState) (size : Nat) : Decidable (FitsSegment s size) :=
  inferInstanceAs (Decidable (heapOffset s + (size + (8 - size % 8)) < 2 ^ 42))

instance (l : Ledger) (size : Nat) : Decidable (RoomAtPointer l size) :=
  inferInstanceAs (Decidable (PointerInLastRun l ∧
    (heapBottom l.mem ≠ heapTop l.mem size → heapBottom l.mem + pagesFor size < l.entries)))

instance (l : Ledger) : (call : AllocCall) → Decidable (AllocSound l call)
  | .kmalloc size =>
      inferInstanceAs (Decidable (FitsSegment l.mem (u64 size) ∧
        (opensRun l.mem (roundSize (u64 size)) = false →
          RoomAtPointer l (roundSize (u64 size)))))
  | .allocatePfn _ => isTrue trivial
  | .allocateManyPfn _ _ => isTrue trivial

/-! ## The invariant -/

/-- No block has a byte in the page of the pointer at or above the pointer. -/
def PointerFresh (l : Ledger) (offset : Nat) : Prop :=
  ∀ b ∈ l.blocks, ∀ i, pageOffset + i ∈ b → offset ≤ i → i / 8192 ≠ offset / 8192

/-- The block is the image of an offset range all of whose pages are in the heap. -/
def InHeap (heap : List Span) (b : Span) : Prop :=
  ∃ offset, b.start = pageOffset + offset ∧ offset + b.len ≤ 2 ^ 42 ∧
    ∀ i, offset ≤ i → i < offset + b.len → Span.Covers heap (i / 8192)

structure Ledger.Inv (l : Ledger) : Prop where
  lastpfn_lt : l.mem.lastpfn < l.entries
  entries_le : l.entries ≤ 2 ^ 29
  mapped : ∀ page i, page < l.entries ∨ Span.Covers l.reserved page →
    u64 (l.mem.mapAt + page) = pageOffset + i → Span.Covers l.reserved (i / 8192)
  pages : PagesOwned l.mem.memoryMap (l.heap ++ l.runs) l.reserved
  owned_le : ∀ run ∈ l.heap ++ l.runs, run.start + run.len ≤ l.entries
  blocks_in : ∀ b ∈ l.blocks, InHeap l.heap b
  blocks_apart : l.blocks.Pairwise Span.Disjoint
  pointer : PointerInLastRun l →
    ∃ offset, offset < 2 ^ 42 ∧ l.mem.tempMemoryPtr = pageOffset + offset ∧ PointerFresh l offset

theorem Ledger.Inv.lastpfn_lt_segment {l : Ledger} (h : l.Inv) : l.mem.lastpfn < 2 ^ 29 :=
  Nat.lt_of_lt_of_le h.lastpfn_lt h.entries_le

theorem InHeap.mono {heap heap' : List Span} {b : Span} (h : InHeap heap b)
    (hsub : ∀ page, Span.Covers heap page → Span.Covers heap' page) : InHeap heap' b := by
  obtain ⟨offset, hstart, hend, hcover⟩ := h
  exact ⟨offset, hstart, hend, fun i hlo hhi => hsub _ (hcover i hlo hhi)⟩

theorem InHeap.byte {heap : List Span} {b : Span} {i : Nat} (h : InHeap heap b)
    (hi : pageOffset + i ∈ b) : Span.Covers heap (i / 8192) ∧ i < 2 ^ 42 := by
  obtain ⟨offset, hstart, hend, hcover⟩ := h
  rw [Span.mem_def, hstart] at hi
  exact ⟨hcover i (by omega) (by omega), by omega⟩

theorem InHeap.offset {heap : List Span} {b : Span} {a : Nat} (h : InHeap heap b) (ha : a ∈ b) :
    ∃ i, a = pageOffset + i := by
  obtain ⟨offset, hstart, _, _⟩ := h
  rw [Span.mem_def, hstart] at ha
  exact ⟨a - pageOffset, by omega⟩

theorem bootLedger_inv (bytes : PageMap) (reboot : Option Nat) {top : Nat}
    (hmap : MapHolds (u64 top)) : (bootLedger bytes reboot top).Inv where
  lastpfn_lt := hmap
  entries_le := mapEntries_le _
  mapped := fun _ _ hpage hi =>
    hpage.elim (fun hlt => mapEntry_reserved hlt hi) (fun hres => mapEntry_of_reserved hmap hres hi)
  pages := bootLedger_pages bytes reboot top
  owned_le := fun _ hmem => nomatch hmem
  blocks_in := fun _ hmem => nomatch hmem
  blocks_apart := List.Pairwise.nil
  pointer := fun ⟨_, hmem, _⟩ => nomatch hmem

/-! ## One page allocation -/

/-- A page allocation changes neither the heap nor the blocks. -/
theorem Ledger.Inv.addRun {l : Ledger} (h : l.Inv) {pfn count : Nat} (type : UsedType)
    (hend : pfn + count ≤ l.mem.lastpfn + 1)
    (hfree : ∀ page, pfn ≤ page → page < pfn + count → l.mem.memoryMap page = freePage) :
    Ledger.Inv
      { l with
        mem := { l.mem with memoryMap := markManyPfn l.mem.memoryMap pfn count type }
        runs := ⟨pfn, count⟩ :: l.runs } where
  lastpfn_lt := h.lastpfn_lt
  entries_le := h.entries_le
  mapped := h.mapped
  pages := h.pages.mark l.heap type.2 hfree
  owned_le := by
    intro run hrun
    have hlast := h.lastpfn_lt
    rcases List.mem_append.mp hrun with hheap | hruns
    · exact h.owned_le run (List.mem_append_left _ hheap)
    · rcases List.mem_cons.mp hruns with rfl | hold
      · dsimp only
        omega
      · exact h.owned_le run (List.mem_append_right _ hold)
  blocks_in := h.blocks_in
  blocks_apart := h.blocks_apart
  pointer := h.pointer

theorem allocatePfn_inv {l l' : Ledger} {type : UsedType} (h : l.Inv)
    (hstep : allocStep l (.allocatePfn type) = some l') : l'.Inv := by
  simp only [allocStep, Option.map_eq_some_iff] at hstep
  obtain ⟨⟨pfn, mem⟩, halloc, rfl⟩ := hstep
  obtain ⟨hle, hfree, rfl⟩ := allocatePfn_spec h.lastpfn_lt_segment halloc
  have hone : ∀ page, pfn ≤ page → page < pfn + 1 → l.mem.memoryMap page = freePage := by
    intro page hlo hhi
    rwa [show page = pfn by omega]
  exact h.addRun type (by omega) hone

theorem allocateManyPfn_inv {l l' : Ledger} {count : Nat} {type : UsedType} (h : l.Inv)
    (hstep : allocStep l (.allocateManyPfn count type) = some l') : l'.Inv := by
  simp only [allocStep, Option.map_eq_some_iff] at hstep
  obtain ⟨⟨pfn, mem⟩, halloc, rfl⟩ := hstep
  obtain ⟨_, hend, hfree, rfl⟩ := allocateManyPfn_spec h.lastpfn_lt_segment (u32_lt _) halloc
  exact h.addRun type hend hfree

/-! ## One block -/

/-- Clearing a block in the heap reaches no entry of an owned page. -/
theorem Ledger.Inv.zeroBlock_keeps {l : Ledger} (h : l.Inv) {t : MemState} {heap : List Span}
    {offset size page : Nat} (hpos : 0 < size) (hend : offset + size ≤ 2 ^ 42)
    (hat : t.mapAt = l.mem.mapAt)
    (hcover : ∀ i, offset ≤ i → i < offset + size → Span.Covers heap (i / 8192))
    (hfresh : ∀ page, Span.Covers heap page → ¬ Span.Covers l.reserved page)
    (hpage : page < l.entries ∨ Span.Covers l.reserved page) :
    zeroBlock t (pageOffset + offset) size page = t.memoryMap page := by
  apply zeroBlock_outside (by simp only [pageOffset]; omega) hpos
  rw [hat, Span.mem_mk]
  rintro ⟨hlo, hhi⟩
  have hentry : u64 (l.mem.mapAt + page) = pageOffset + (u64 (l.mem.mapAt + page) - pageOffset) := by
    omega
  exact hfresh _ (hcover _ (by omega) (by omega)) (h.mapped page _ hpage hentry)

/-- A block cut off at `offset`, over the heap pages as they are after the call. -/
theorem Ledger.Inv.addBlock {l : Ledger} (h : l.Inv) {map : PageMap} (taken : List Span)
    (offset size : Nat) (hpos : 0 < size) (hend : offset + size ≤ 2 ^ 42)
    (hpages : PagesOwned map (taken ++ l.heap ++ l.runs) l.reserved)
    (htaken : ∀ run ∈ taken, run.start + run.len ≤ l.entries)
    (hcover : ∀ i, offset ≤ i → i < offset + size → Span.Covers (taken ++ l.heap) (i / 8192))
    (hapart : ∀ b ∈ l.blocks, ∀ i, pageOffset + i ∈ b → ¬ (offset ≤ i ∧ i < offset + size))
    (hfresh : (∃ run ∈ (taken ++ l.heap).head?,
        physicalToPfn (u64 (pageOffset + offset + size)) ∈ run) →
      offset + size < 2 ^ 42 ∧ ∀ b ∈ l.blocks, ∀ i, pageOffset + i ∈ b →
        offset + size ≤ i → i / 8192 ≠ (offset + size) / 8192) :
    Ledger.Inv
      { l with
        mem := cutBlock
          { l.mem with
            memoryMap := map
            tempMemoryPtr := pageOffset + offset } size
        blocks := ⟨pageOffset + offset, size⟩ :: l.blocks
        heap := taken ++ l.heap } where
  lastpfn_lt := h.lastpfn_lt
  entries_le := h.entries_le
  mapped := h.mapped
  owned_le := by
    intro run hrun
    rw [List.append_assoc] at hrun
    rcases List.mem_append.mp hrun with hnew | hold
    · exact htaken run hnew
    · exact h.owned_le run hold
  pages := by
    apply hpages.congr
    intro page howned
    apply h.zeroBlock_keeps (t := { l.mem with
      memoryMap := map
      tempMemoryPtr := pageOffset + offset }) hpos hend rfl hcover
    · intro p hp
      exact hpages.fresh p (Span.covers_append.mpr (Or.inl hp))
    · rcases howned with ⟨run, hrun, hpage⟩ | hres
      · rw [List.append_assoc] at hrun
        rw [Span.mem_def] at hpage
        rcases List.mem_append.mp hrun with hnew | hold
        · have hle := htaken run hnew
          exact Or.inl (by omega)
        · have hle := h.owned_le run hold
          exact Or.inl (by omega)
      · exact Or.inr hres
  blocks_in := by
    intro b hb
    rcases List.mem_cons.mp hb with rfl | hb
    · exact ⟨offset, rfl, hend, hcover⟩
    · exact (h.blocks_in b hb).mono fun page hp => hp.append_right taken
  blocks_apart := by
    refine List.pairwise_cons.mpr ⟨?_, h.blocks_apart⟩
    intro b hb a ha hab
    obtain ⟨i, rfl⟩ := (h.blocks_in b hb).offset hab
    obtain ⟨hlo, hhi⟩ := Span.mem_mk.mp ha
    exact hapart b hb i hab ⟨by omega, by omega⟩
  pointer := by
    intro hin
    obtain ⟨hlt, hold⟩ := hfresh hin
    have hptr : u64 (pageOffset + offset + size) = pageOffset + (offset + size) := by
      rw [u64_of_lt, Nat.add_assoc]
      simp only [pageOffset]
      omega
    refine ⟨offset + size, hlt, hptr, ?_⟩
    intro b hb i hi hle
    rcases List.mem_cons.mp hb with rfl | hb
    · obtain ⟨_, hhi⟩ := Span.mem_mk.mp hi
      omega
    · exact hold b hb i hi hle

theorem FitsSegment.round {s : MemState} {size : Nat} (h : FitsSegment s size) :
    0 < roundSize size ∧ heapOffset s + roundSize size < 2 ^ 42 := by
  unfold FitsSegment at h
  refine ⟨roundSize_pos (by omega), ?_⟩
  rwa [roundSize_of_lt (by omega)]

/-- No byte of a block lies in pages that were free before. -/
theorem Ledger.Inv.not_in_free {l : Ledger} (h : l.Inv) {b : Span} {i : Nat} (hb : b ∈ l.blocks)
    (hi : pageOffset + i ∈ b) : l.mem.memoryMap (i / 8192) ≠ freePage := by
  apply h.pages.used
  exact Or.inl (Span.covers_append.mpr (Or.inl ((h.blocks_in b hb).byte hi).1))

theorem kmalloc_opened_inv {l : Ledger} {size : Nat} {t : MemState} (h : l.Inv)
    (hfits : FitsSegment l.mem size) (hopens : opensRun l.mem (roundSize size) = true)
    (ht : openRun l.mem (roundSize size) = some t) :
    t.tempMemoryPtr ≠ 0 ∧ Ledger.Inv
      { l with
        mem := cutBlock t (roundSize size)
        blocks := ⟨t.tempMemoryPtr, roundSize size⟩ :: l.blocks
        heap := takenPages l.mem (roundSize size) t.tempMemoryPtr ++ l.heap } := by
  obtain ⟨hpos, hsegment⟩ := hfits.round
  obtain ⟨pfn, hle, hend, hfree, rfl⟩ := openRun_spec h.lastpfn_lt_segment ht
  have hlast := h.lastpfn_lt
  have hentries := h.entries_le
  have hcount := pagesFor_of_lt (show roundSize size < 2 ^ 42 by omega)
  have hpfn : physicalToPfn (pageOffset + 8192 * pfn) = pfn := by
    rw [physicalToPfn_add]
    omega
  have hnotFree : ∀ b ∈ l.blocks, ∀ i, pageOffset + i ∈ b →
      ¬ (pfn ≤ i / 8192 ∧ i / 8192 < pfn + pagesFor (roundSize size)) :=
    fun b hb i hi hin => h.not_in_free hb hi (hfree _ hin.1 hin.2)
  refine ⟨by simp only [pageOffset]; omega, ?_⟩
  simp only [takenPages, hopens, if_true, hpfn]
  generalize hcountEq : pagesFor (roundSize size) = count at *
  apply h.addBlock _ _ _ hpos (by omega) (h.pages.mark [] temporaryType.2 hfree)
  · intro run hrun
    obtain rfl := List.mem_singleton.mp hrun
    dsimp only
    omega
  · intro i hlo hhi
    exact Span.Covers.head _ (Span.mem_mk.mpr ⟨by omega, by omega⟩)
  · intro b hb i hi hin
    exact hnotFree b hb i hi ⟨by omega, by omega⟩
  · rintro ⟨run, hrun, hptr⟩
    obtain rfl : run = ⟨pfn, count⟩ := by simpa using hrun.symm
    obtain ⟨hlo, hhi⟩ := Span.mem_mk.mp hptr
    have hlt : 8192 * pfn + roundSize size < 2 ^ 42 := by
      by_contra hover
      have hwrap : u64 (pageOffset + 8192 * pfn + roundSize size) = 0 := by
        simp only [u64, pageOffset]
        omega
      rw [hwrap] at hlo
      have hzero : physicalToPfn 0 = 0 := by decide
      omega
    refine ⟨hlt, fun b hb i hi _ hsame => hnotFree b hb i hi ?_⟩
    rw [u64_of_lt (by simp only [pageOffset]; omega), Nat.add_assoc, physicalToPfn_add] at hlo hhi
    omega

theorem kmalloc_cut_inv {l : Ledger} {size : Nat} (h : l.Inv)
    (hfits : FitsSegment l.mem size) (hopens : opensRun l.mem (roundSize size) = false)
    (hat : RoomAtPointer l (roundSize size)) {t : MemState}
    (ht : (heapBottom l.mem = heapTop l.mem (roundSize size) ∧ t = l.mem) ∨
      (heapBottom l.mem ≠ heapTop l.mem (roundSize size) ∧
        roomAfter l.mem (roundSize size) = true ∧ t = extendRun l.mem (roundSize size))) :
    t.tempMemoryPtr ≠ 0 ∧ Ledger.Inv
      { l with
        mem := cutBlock t (roundSize size)
        blocks := ⟨t.tempMemoryPtr, roundSize size⟩ :: l.blocks
        heap := takenPages l.mem (roundSize size) t.tempMemoryPtr ++ l.heap } := by
  obtain ⟨hpos, hsegment⟩ := hfits.round
  obtain ⟨hptr, hextend⟩ := hat
  obtain ⟨offset, hlt, hat, hfresh⟩ := h.pointer hptr
  have hoffset : heapOffset l.mem = offset := by
    rw [heapOffset, hat]
    omega
  rw [hoffset] at hsegment
  have hbottom : heapBottom l.mem = offset / 8192 := by
    rw [heapBottom, hat, physicalToPfn_add, Nat.mod_eq_of_lt hlt]
  have htop : heapTop l.mem (roundSize size) = (offset + roundSize size) / 8192 := by
    rw [heapTop, hat, u64_of_lt (by simp only [pageOffset]; omega), Nat.add_assoc,
      physicalToPfn_add, Nat.mod_eq_of_lt hsegment]
  have hpage : Span.Covers l.heap (offset / 8192) := by
    obtain ⟨run, hrun, hin⟩ := hptr
    rw [hat, physicalToPfn_add, Nat.mod_eq_of_lt hlt] at hin
    exact ⟨run, List.mem_of_mem_head? hrun, hin⟩
  rcases ht with ⟨hsame, rfl⟩ | ⟨hcross, hroom, rfl⟩
  · refine ⟨by rw [hat]; simp only [pageOffset]; omega, ?_⟩
    simp only [takenPages, hopens, hsame]
    rw [hbottom, htop] at hsame
    have hblock := h.addBlock [] offset (roundSize size) hpos (by omega) h.pages
      (List.forall_mem_nil _)
      (fun i hlo hhi => by rwa [List.nil_append, show i / 8192 = offset / 8192 by omega])
      (fun b hb i hi hin => hfresh b hb i hi hin.1 (by omega))
      (fun _ => ⟨hsegment, fun b hb i hi hle => by
        rw [← hsame]
        exact hfresh b hb i hi (by omega)⟩)
    rw [← hat] at hblock
    simpa using hblock
  · refine ⟨by simp only [extendRun, hat, pageOffset]; omega, ?_⟩
    have hfree := roomAfter_iff.mp hroom
    have hinMap := hextend hcross
    have hcount := pagesFor_of_lt (show roundSize size < 2 ^ 42 by omega)
    simp only [takenPages, hopens, extendRun, hat]
    rw [if_neg (by simp), if_pos hcross]
    rw [hbottom, htop] at hcross
    rw [hbottom] at hfree hinMap ⊢
    generalize hcountEq : pagesFor (roundSize size) = count at *
    apply h.addBlock _ _ _ hpos (by omega) (h.pages.mark [] temporaryType.2 hfree)
    · intro run hrun
      obtain rfl := List.mem_singleton.mp hrun
      dsimp only
      omega
    · intro i hlo hhi
      by_cases hin : i / 8192 = offset / 8192
      · rw [hin]
        exact hpage.append_right _
      · exact Span.Covers.head _ (Span.mem_mk.mpr ⟨by omega, by omega⟩)
    · intro b hb i hi hin
      by_cases hsame : i / 8192 = offset / 8192
      · exact hfresh b hb i hi hin.1 hsame
      · exact h.not_in_free hb hi (hfree _ (by omega) (by omega))
    · intro _
      refine ⟨hsegment, fun b hb i hi _ hsame => h.not_in_free hb hi (hfree _ ?_ ?_)⟩
      · omega
      · omega

theorem kmalloc_inv {l l' : Ledger} {size : Nat} (h : l.Inv) (hok : AllocSound l (.kmalloc size))
    (hstep : allocStep l (.kmalloc size) = some l') : l'.Inv := by
  simp only [allocStep, Option.map_eq_some_iff] at hstep
  obtain ⟨⟨block, mem⟩, hcall, rfl⟩ := hstep
  obtain ⟨t, hroom, hcut⟩ := kmalloc_eq_some hcall
  have hinv : t.tempMemoryPtr ≠ 0 ∧ Ledger.Inv
      { l with
        mem := cutBlock t (roundSize (u64 size))
        blocks := ⟨t.tempMemoryPtr, roundSize (u64 size)⟩ :: l.blocks
        heap := takenPages l.mem (roundSize (u64 size)) t.tempMemoryPtr ++ l.heap } := by
    rcases makeRoom_cases hroom with ⟨hopens, hopen⟩ | ⟨hopens, _, hsame, ht⟩ |
      ⟨hopens, _, hcross, hfree, ht⟩
    · exact kmalloc_opened_inv h hok.1 hopens hopen
    · exact kmalloc_cut_inv h hok.1 hopens (hok.2 hopens) (Or.inl ⟨hsame, ht⟩)
    · exact kmalloc_cut_inv h hok.1 hopens (hok.2 hopens) (Or.inr ⟨hcross, hfree, ht⟩)
  obtain ⟨rfl, rfl⟩ := hcut hinv.1
  exact hinv.2

theorem allocStep_inv {l l' : Ledger} {call : AllocCall} (h : l.Inv) (hok : AllocSound l call)
    (hstep : allocStep l call = some l') : l'.Inv := by
  cases call with
  | kmalloc size => exact kmalloc_inv h hok hstep
  | allocatePfn type => exact allocatePfn_inv h hstep
  | allocateManyPfn count type => exact allocateManyPfn_inv h hstep

/-! ## Runs of the allocators -/

/-- Every block lies in pages that have an entry in the map and are not free,
and no byte has two owners. -/
structure Ledger.BytesOwned (l : Ledger) : Prop where
  used : ∀ b ∈ l.blocks, ∀ a ∈ b,
    physicalToPfn a < l.entries ∧ l.mem.memoryMap (physicalToPfn a) ≠ freePage
  apart : (l.blocks ++ l.runs.map pageBytes).Pairwise Span.Disjoint

theorem Ledger.Inv.runs_le {l : Ledger} (h : l.Inv) {run : Span} (hrun : run ∈ l.runs) :
    run.start + run.len ≤ 2 ^ 29 :=
  Nat.le_trans (h.owned_le run (List.mem_append_right _ hrun)) h.entries_le

theorem mem_pageBytes {run : Span} {a : Nat} (hle : run.start + run.len ≤ 2 ^ 29)
    (ha : a ∈ pageBytes run) : ∃ i, a = pageOffset + i ∧ i / 8192 ∈ run := by
  obtain ⟨hlo, hhi⟩ := Span.mem_mk.mp ha
  have hsome : run.start < 2 ^ 29 := by omega
  rw [pfnToPhysical_eq hsome] at hlo hhi
  refine ⟨a - pageOffset, by omega, ?_⟩
  rw [Span.mem_def]
  omega

theorem Ledger.Inv.bytesOwned {l : Ledger} (h : l.Inv) : l.BytesOwned where
  used := by
    intro b hb a ha
    have hin := h.blocks_in b hb
    obtain ⟨i, rfl⟩ := hin.offset ha
    obtain ⟨⟨run, hrun, hpage⟩, hlt⟩ := hin.byte ha
    have hle := h.owned_le run (List.mem_append_left _ hrun)
    rw [Span.mem_def] at hpage
    rw [physicalToPfn_add, Nat.mod_eq_of_lt hlt]
    exact ⟨by omega, h.not_in_free hb ha⟩
  apart := by
    rw [List.pairwise_append]
    refine ⟨h.blocks_apart, ?_, ?_⟩
    · have hruns := (List.pairwise_append.mp h.pages.apart).2.1
      rw [List.pairwise_map]
      refine List.Pairwise.imp_of_mem ?_ hruns
      intro r s hr hs hrs a har has
      obtain ⟨i, rfl, hi⟩ := mem_pageBytes (h.runs_le hr) har
      obtain ⟨j, heq, hj⟩ := mem_pageBytes (h.runs_le hs) has
      obtain rfl : i = j := by omega
      exact hrs _ hi hj
    · intro b hb s hs a hab has
      obtain ⟨r, hr, rfl⟩ := List.mem_map.mp hs
      obtain ⟨i, rfl, hi⟩ := mem_pageBytes (h.runs_le hr) has
      obtain ⟨t, ht, hit⟩ := ((h.blocks_in b hb).byte hab).1
      exact (List.pairwise_append.mp h.pages.apart).2.2 t ht r hr _ hit hi

/-- In every run whose steps meet the condition, every block lies in pages that
are not free and no byte is handed out twice. -/
theorem alloc_run_bytesOwned (bytes : PageMap) (reboot : Option Nat) (top : Nat)
    (calls : List AllocCall) (l : Ledger) (hmap : MapHolds (u64 top))
    (hok : StepsMeet allocStep AllocSound (bootLedger bytes reboot top) calls)
    (hrun : run allocStep (bootLedger bytes reboot top) calls = some l) : l.BytesOwned :=
  (run_invariant (fun _ _ _ => allocStep_inv) (bootLedger_inv bytes reboot hmap) hok hrun).bytesOwned

/-- A 16 Mb machine with nothing but zeros in memory. -/
def bootSmall : Ledger := bootLedger (fun _ => 0) none miloMinMemorySize

theorem alloc_run_bytesOwned_small :
    ∃ l, run allocStep bootSmall [.kmalloc 100, .allocatePfn allocatedType, .kmalloc 9000,
      .kmalloc 5000, .allocateManyPfn 3 temporaryType] = some l ∧ l.BytesOwned := by
  have hruns : (run allocStep bootSmall [.kmalloc 100, .allocatePfn allocatedType, .kmalloc 9000,
      .kmalloc 5000, .allocateManyPfn 3 temporaryType]).isSome = true := by
    rw [bootSmall, bootLedger_eq]
    decide +kernel
  obtain ⟨l, hl⟩ := Option.isSome_iff_exists.mp hruns
  refine ⟨l, hl, alloc_run_bytesOwned _ _ _ _ l (by decide) ?_ hl⟩
  rw [bootLedger_eq]
  decide +kernel

/-- A block of exactly one page leaves the pointer on the next page, which is
free; the next block is cut off there, and the page allocator hands the same
page out again. -/
theorem kmalloc_whole_page_overruns :
    ∃ l l', run allocStep bootSmall [.kmalloc 8184, .kmalloc 1] = some l ∧ ¬ l.BytesOwned ∧
      allocStep l (.allocatePfn allocatedType) = some l' ∧ ¬ l'.BytesOwned := by
  have hfirst : (run allocStep bootSmall [.kmalloc 8184, .kmalloc 1]).map
      (fun l => (l.blocks.head?, l.mem.memoryMap 2)) =
        some (some ⟨pageOffset + 16384, 8⟩, freePage) := by
    rw [bootSmall, bootLedger_eq]
    decide +kernel
  have hsecond : (run allocStep bootSmall
      ([.kmalloc 8184, .kmalloc 1] ++ [.allocatePfn allocatedType])).map
      (fun l => (l.blocks, l.runs)) =
        some ([⟨pageOffset + 16384, 8⟩, ⟨pageOffset + 8192, 8192⟩], [⟨2, 1⟩]) := by
    rw [bootSmall, bootLedger_eq]
    decide +kernel
  obtain ⟨l', hl', hview'⟩ := Option.map_eq_some_iff.mp hsecond
  obtain ⟨l, hl, hlast⟩ := (run_append _ _).mp hl'
  obtain ⟨_, hl₁, hview⟩ := Option.map_eq_some_iff.mp hfirst
  obtain rfl := Option.some.inj (hl.symm.trans hl₁)
  obtain ⟨hhead, hfree⟩ := Prod.mk.inj hview
  obtain ⟨hblocks, hruns⟩ := Prod.mk.inj hview'
  obtain ⟨t, ht, hend⟩ := run_cons.mp hlast
  obtain rfl := Option.some.inj hend
  refine ⟨l, t, hl, ?_, ht, ?_⟩
  · intro howned
    have hused := howned.used _ (List.mem_of_mem_head? hhead) _ (Span.mem_mk.mpr
      ⟨Nat.le_refl _, Nat.lt_add_of_pos_right (by decide)⟩)
    rw [physicalToPfn_add] at hused
    exact hused.2 hfree
  · intro howned
    have hapart := howned.apart
    rw [hblocks, hruns] at hapart
    have hpage : pageBytes ⟨2, 1⟩ ∈ [⟨pageOffset + 8192, 8192⟩, pageBytes ⟨2, 1⟩] := by simp
    exact List.rel_of_pairwise_cons hapart hpage (pageOffset + 16384) (by decide) (by decide)

end Milo.Memory
