import Milo.Devices.BlockRead
import Milo.Memory.Heap

/-! # The one block buffer

`getblk` has one buffer head and one buffer. The first call allocates them, and all
later ones, for whatever device and size of block, use them again.
-/

namespace Milo.Devices

open Foundation Memory

/-! ## Sizes of blocks -/

/-- The sizes that `set_blocksize` takes. -/
def blockSizes : List Nat := [512, 1024, 2048, 4096]

theorem mem_blockSizes {size : Nat} :
    size ∈ blockSizes ↔ size = 512 ∨ size = 1024 ∨ size = 2048 ∨ size = 4096 := by
  simp [blockSizes]

/-- `blksize_size`: a driver may have a table with an entry for each of its devices. -/
abbrev SizeTable := Nat → Option (Nat → Nat)

/-- `set_blocksize`; `none` if it panics. -/
def setBlocksize (table : SizeTable) (major minor size : Nat) : Option SizeTable :=
  match table major with
  | none => some table
  | some sizes =>
      if size ∉ blockSizes then none
      else if sizes minor = 0 ∧ size = blockSize then
        some (Function.update table major (some (Function.update sizes minor size)))
      else if sizes minor = size then some table
      else some (Function.update table major (some (Function.update sizes minor size)))

/-- What is set of a table is one of the sizes. -/
def SizesSet (table : SizeTable) : Prop :=
  ∀ major sizes minor, table major = some sizes → sizes minor = 0 ∨ sizes minor ∈ blockSizes

theorem setBlocksize_sizes {table table' : SizeTable} {major minor size : Nat}
    (h : SizesSet table) (hset : setBlocksize table major minor size = some table') :
    SizesSet table' := by
  unfold setBlocksize at hset
  split at hset
  · cases hset
    exact h
  · rename_i sizes hsizes
    split at hset
    · cases hset
    · rename_i hmem
      rw [not_not] at hmem
      have hupdate : SizesSet
          (Function.update table major (some (Function.update sizes minor size))) := by
        intro m sizes' n hm
        by_cases hmajor : m = major
        · subst hmajor
          rw [Function.update_self] at hm
          cases hm
          by_cases hminor : n = minor
          · rw [hminor, Function.update_self]
            exact Or.inr hmem
          · rw [Function.update_of_ne hminor]
            exact h m sizes n hsizes
        · rw [Function.update_of_ne hmajor] at hm
          exact h m sizes' n hm
      split at hset
      · cases hset
        exact hupdate
      · split at hset
        · cases hset
          exact h
        · cases hset
          exact hupdate

/-- The blocks of every device have one of the sizes. -/
theorem SizesSet.blocksize {table : SizeTable} (h : SizesSet table) {dev : BlockDevice}
    {major minor : Nat} (hdev : dev.blksizeSize = (table major).map fun sizes => sizes minor) :
    dev.blocksize ∈ blockSizes := by
  unfold BlockDevice.blocksize
  rw [hdev]
  have hdefault : blockSize ∈ blockSizes := by decide
  cases hsizes : table major with
  | none => exact hdefault
  | some sizes =>
      simp only [Option.map_some]
      split
      · rename_i hset
        exact (h major sizes minor hsizes).resolve_left hset
      · exact hdefault

/-! ## The buffer -/

/-- `struct buffer_head`, without its lists and its `b_end_io`. -/
structure BufferHead where
  bCount : Nat
  bDev : Nat
  bBlocknr : Int
  bSize : Nat
  bData : Nat
  bState : Nat

/-- The static pointers `bh` and `buf`. -/
structure BlockBuffer where
  bh : Nat
  buf : Nat

/-- `bh` and `buf` are allocated; the buffer starts at a multiple of its size. -/
def allocateBuffer (headSize : Nat) (mem : MemState) (size : Nat) :
    Option (BlockBuffer × MemState) :=
  (kmalloc mem headSize).bind fun (bh, mem) =>
    (kmalloc mem (size * 2)).map fun (block, mem) =>
      (⟨bh, u64 (block + size) &&& (2 ^ 64 - size)⟩, mem)

/-- `getblk`, without what it clears. -/
def getblk (headSize : Nat) (mem : MemState) (s : BlockBuffer) (dev : Nat) (block : Int)
    (size : Nat) : Option (BufferHead × BlockBuffer × MemState) :=
  (if s.bh = 0 then allocateBuffer headSize mem size else some (s, mem)).map fun (s, mem) =>
    (⟨1, dev, block, size, s.buf, 0⟩, s, mem)

/-- A call of `getblk`, with the memory as it is then. -/
structure GetblkCall where
  mem : MemState
  dev : Nat
  block : Int
  size : Nat

/-- The buffer heads that a sequence of calls returns. -/
def getblkRun (headSize : Nat) (s : BlockBuffer) : List GetblkCall → Option (List BufferHead)
  | [] => some []
  | call :: calls =>
      (getblk headSize call.mem s call.dev call.block call.size).bind fun (bh, s, _) =>
        (getblkRun headSize s calls).map (bh :: ·)

/-- The block that a head is for lies inside of the `len` bytes at `start`. -/
def FitsIn (start len : Nat) (bh : BufferHead) : Prop := sub64 bh.bData start + bh.bSize ≤ len

/-! ## Which blocks fit -/

theorem kmalloc_ne_zero {mem mem' : MemState} {size block : Nat}
    (h : kmalloc mem size = some (block, mem')) : block ≠ 0 := by
  have hhigh : ∀ pfn, pfnToPhysical pfn ≠ 0 := by
    intro pfn
    have hle : pageOffset ≤ pfnToPhysical pfn := Nat.right_le_or
    unfold pageOffset at hle
    omega
  unfold kmalloc at h
  obtain ⟨mem₁, hroom, heq⟩ := Option.map_eq_some_iff.mp h
  have hptr : mem₁.tempMemoryPtr ≠ 0 := by
    have hopen : ∀ size mem₁, openRun mem size = some mem₁ → mem₁.tempMemoryPtr ≠ 0 := by
      intro size mem₁ hopen
      unfold openRun at hopen
      obtain ⟨⟨pfn, mem₂⟩, _, rfl⟩ := Option.map_eq_some_iff.mp hopen
      exact hhigh pfn
    unfold makeRoom at hroom
    split at hroom
    · exact hopen _ _ hroom
    · rename_i hptr
      split at hroom
      · split at hroom
        · cases hroom
          exact hptr
        · exact hopen _ _ hroom
      · cases hroom
        exact hptr
  rw [if_pos hptr] at heq
  cases heq
  exact hptr

/-- How far behind the start of its block the buffer lies. -/
theorem buffer_offset {size : Nat} (hsize : size ∈ blockSizes) (start : Nat) :
    sub64 (u64 (start + size) &&& (2 ^ 64 - size)) start = size - start % size := by
  have hround : ∀ k ≤ 64, size = 2 ^ k → u64 (start + size) &&& (2 ^ 64 - size) =
      u64 (start + size) / size * size := by
    intro k hk hpow
    rw [hpow]
    exact and_not_low_eq _ k 64 (u64_lt _) hk
  rcases mem_blockSizes.mp hsize with rfl | rfl | rfl | rfl
  · rw [hround 9 (by decide) rfl]
    unfold sub64 u64
    omega
  · rw [hround 10 (by decide) rfl]
    unfold sub64 u64
    omega
  · rw [hround 11 (by decide) rfl]
    unfold sub64 u64
    omega
  · rw [hround 12 (by decide) rfl]
    unfold sub64 u64
    omega

/-- The bytes that are behind the start of the buffer in a block for twice its size. -/
theorem buffer_room {size : Nat} (hsize : size ∈ blockSizes) (start want : Nat) :
    size - start % size + want ≤ roundSize (size * 2) ↔ want ≤ size + start % size + 8 := by
  have hsizes := mem_blockSizes.mp hsize
  have hround : roundSize (size * 2) = size * 2 + 8 := by
    rw [roundSize_of_lt (by omega)]
    omega
  have hmod := Nat.mod_lt start (show 0 < size by omega)
  rw [hround]
  omega

/-- Sizes are either at most the first one, or at least its double. -/
theorem size_fits_iff {size want : Nat} (hsize : size ∈ blockSizes) (hwant : want ∈ blockSizes)
    (start : Nat) : want ≤ size + start % size + 8 ↔
      want ≤ size ∨ want = size * 2 ∧ size ≤ start % size + 8 := by
  have hsizes := mem_blockSizes.mp hsize
  have hwants := mem_blockSizes.mp hwant
  have hmod := Nat.mod_lt start (show 0 < size by omega)
  omega

/-- Later calls get the buffer of the first one. -/
theorem getblkRun_again (headSize : Nat) {s : BlockBuffer} (hbh : s.bh ≠ 0)
    (calls : List GetblkCall) :
    getblkRun headSize s calls =
      some (calls.map fun call => ⟨1, call.dev, call.block, call.size, s.buf, 0⟩) := by
  induction calls with
  | nil => rfl
  | cons call calls ih =>
      unfold getblkRun getblk
      rw [if_neg hbh]
      simp only [Option.map_some, Option.bind_some, ih, List.map_cons]

/-- The buffer of the first call holds the blocks of all calls exactly if none of them
is larger than the first one, or one of twice its size lies in what `kmalloc` adds to
the block. -/
theorem getblk_run_fits_iff (headSize : Nat) {first : GetblkCall} {calls : List GetblkCall}
    (hsizes : ∀ call ∈ first :: calls, call.size ∈ blockSizes) {bh start : Nat}
    {mem₁ mem₂ : MemState} (hhead : kmalloc first.mem headSize = some (bh, mem₁))
    (hblock : kmalloc mem₁ (first.size * 2) = some (start, mem₂)) :
    ∃ heads, getblkRun headSize ⟨0, 0⟩ (first :: calls) = some heads ∧
      ((∀ head ∈ heads, FitsIn start (roundSize (first.size * 2)) head) ↔
        ∀ call ∈ calls, call.size ≤ first.size ∨
          call.size = first.size * 2 ∧ first.size ≤ start % first.size + 8) := by
  have hfirst := hsizes first List.mem_cons_self
  have hrun : getblkRun headSize ⟨0, 0⟩ (first :: calls) = some ((first :: calls).map fun call =>
      ⟨1, call.dev, call.block, call.size, u64 (start + first.size) &&& (2 ^ 64 - first.size), 0⟩)
      := by
    rw [getblkRun, getblk, if_pos rfl, allocateBuffer, hhead]
    simp only [Option.bind_some, hblock, Option.map_some]
    rw [getblkRun_again headSize (kmalloc_ne_zero hhead)]
    rfl
  refine ⟨_, hrun, ?_⟩
  have hfits : ∀ call ∈ first :: calls,
      (sub64 (u64 (start + first.size) &&& (2 ^ 64 - first.size)) start + call.size ≤
          roundSize (first.size * 2) ↔
        call.size ≤ first.size ∨
          call.size = first.size * 2 ∧ first.size ≤ start % first.size + 8) := by
    intro call hcall
    rw [buffer_offset hfirst, buffer_room hfirst, size_fits_iff hfirst (hsizes call hcall)]
  unfold FitsIn
  rw [List.forall_mem_map]
  constructor
  · intro h call hcall
    exact (hfits call (List.mem_cons_of_mem first hcall)).mp
      (h call (List.mem_cons_of_mem first hcall))
  · intro h call hcall
    rcases List.mem_cons.mp hcall with rfl | hlater
    · exact (hfits call hcall).mpr (Or.inl (Nat.le_refl _))
    · exact (hfits call hcall).mpr (h call hlater)

/-- Memory of 16 Mb in which the heap is in use. -/
def heapInUse : MemState where
  memoryMap _ := temporaryPage
  mapAt := pageOffset + 8192
  lastpfn := 2047
  memorySize := 2 ^ 24
  tempMemoryPtr := pageOffset + 5 * 8192
  rebootMemorySize := none

/-- What `kmalloc` returns for a buffer head of 96 bytes and for the buffer. -/
def heapBlocks (size : Nat) : Option (Nat × Nat) :=
  (kmalloc heapInUse 96).bind fun (bh, mem) =>
    (kmalloc mem (size * 2)).map fun (start, _) => (bh, start)

/-- The first device has blocks of 512 bytes, and the second one of 1024. -/
theorem larger_block_overruns :
    ∃ bh start mem₁ mem₂ heads, kmalloc heapInUse 96 = some (bh, mem₁) ∧
      kmalloc mem₁ (512 * 2) = some (start, mem₂) ∧
      getblkRun 96 ⟨0, 0⟩ [⟨heapInUse, 0x200, 0, 512⟩, ⟨heapInUse, 0x1600, 0, 1024⟩] = some heads ∧
      ¬ ∀ head ∈ heads, FitsIn start (roundSize (512 * 2)) head := by
  have hblocks : heapBlocks 512 = some (pageOffset + 40960, pageOffset + 41064) := by
    decide +kernel
  have hrun : (getblkRun 96 ⟨0, 0⟩ [⟨heapInUse, 0x200, 0, 512⟩, ⟨heapInUse, 0x1600, 0, 1024⟩]).map
      (List.map fun head => (head.bData, head.bSize)) =
        some [(pageOffset + 41472, 512), (pageOffset + 41472, 1024)] := by decide +kernel
  obtain ⟨⟨bh, mem₁⟩, hhead, hrest⟩ := Option.bind_eq_some_iff.mp hblocks
  obtain ⟨⟨start, mem₂⟩, hblock, heq⟩ := Option.map_eq_some_iff.mp hrest
  obtain ⟨heads, hheads, hviews⟩ := Option.map_eq_some_iff.mp hrun
  obtain ⟨rfl, rfl⟩ := Prod.mk.inj heq
  refine ⟨_, _, mem₁, mem₂, heads, hhead, hblock, hheads, fun hfits => ?_⟩
  have hmem : (pageOffset + 41472, 1024) ∈ heads.map fun head => (head.bData, head.bSize) := by
    rw [hviews]
    decide
  obtain ⟨head, hhead', hview⟩ := List.mem_map.mp hmem
  obtain ⟨hdata, hsize⟩ := Prod.mk.inj hview
  have hfit := hfits head hhead'
  unfold FitsIn at hfit
  rw [hdata, hsize] at hfit
  exact absurd hfit (by decide)

/-- A buffer for blocks of 1024 bytes holds those of 512 bytes, too. -/
theorem smaller_blocks_fit :
    ∃ start heads, getblkRun 96 ⟨0, 0⟩ [⟨heapInUse, 0x1600, 0, 1024⟩, ⟨heapInUse, 0x200, 0, 512⟩,
        ⟨heapInUse, 0x1600, 1, 1024⟩] = some heads ∧
      ∀ head ∈ heads, FitsIn start (roundSize (1024 * 2)) head := by
  have hblocks : heapBlocks 1024 = some (pageOffset + 40960, pageOffset + 41064) := by
    decide +kernel
  obtain ⟨⟨bh, mem₁⟩, hhead, hrest⟩ := Option.bind_eq_some_iff.mp hblocks
  obtain ⟨⟨start, mem₂⟩, hblock, _⟩ := Option.map_eq_some_iff.mp hrest
  obtain ⟨heads, hheads, hiff⟩ := @getblk_run_fits_iff 96 ⟨heapInUse, 0x1600, 0, 1024⟩
    [⟨heapInUse, 0x200, 0, 512⟩, ⟨heapInUse, 0x1600, 1, 1024⟩] (by decide) bh start mem₁ mem₂ hhead
    hblock
  exact ⟨start, heads, hheads, hiff.mpr (by simp)⟩

end Milo.Devices
