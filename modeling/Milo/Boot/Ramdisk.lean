import Milo.Boot.Elf
import Milo.Fs.Ext2
import Milo.Memory.Sizing
import Milo.Zip.Gzip

/-! # Placing a ramdisk

`load_ramdisk_from_device` puts a file right below the loader, a block behind it,
and reads it there without a buffer in between. A read stores as many bytes as a
block of the volume has, whatever the step of the loop is.
-/

namespace Milo.Boot

open Foundation Milo.Memory Milo.Zip

/-- What the calls of `__bread` for an open file store: how many bytes each of
them puts at its buffer, and which. -/
structure BlockSource where
  count : Nat → Nat
  data : Nat → Buffer

/-- What is left behind: the marked pages, the two words for the kernel, and the
bytes that were stored on the way. -/
structure RamdiskLoad where
  memoryMap : PageMap
  rdStart : Nat
  rdSize : Nat
  stores : List Store
  /-- whether the message is printed that the ramdisk is too large -/
  tooLarge : Bool

/-- The loop over the blocks. -/
def ramdiskBlocks (source : BlockSource) (start size blkno ptr : Nat) : List Store :=
  ⟨ptr, source.count blkno, source.data blkno⟩ ::
    if size < ptr + iobufSize - start then []
    else ramdiskBlocks source start size (blkno + 1) (ptr + iobufSize)
termination_by start + size - ptr
decreasing_by
  simp only [iobufSize] at *
  omega

/-- `where` -/
def ramdiskAt (size : Nat) : Nat := sub64 (sub64 loaderAt size) iobufSize

/-- `load_ramdisk_from_device`; there may be no file system or no file. -/
def loadRamdiskFromDevice (k : KernelInfo) (map : PageMap) (file : Option (Nat × BlockSource)) :
    RamdiskLoad :=
  match file with
  | none => ⟨map, 0, 0, [], false⟩
  | some (size, source) =>
      let start := ramdiskAt size
      { memoryMap := markManyPfn map (physicalToPfn start)
          (u32 ((size + pageSize - 1) >>> pageShift)) allocatedPage
        rdStart := start
        rdSize := size
        stores := ramdiskBlocks source start size 0 start
        tooLarge := decide (start < u64 (k.kernelAt + k.kernelMemsize)) }

/-! ## The place -/

theorem ramdiskAt_add {size : Nat} (h : size < 2 ^ 63) :
    ramdiskAt size + (size + iobufSize) = loaderAt := by
  have hfirst : sub64 loaderAt size = loaderAt - size :=
    sub64_of_le (by decide) (by simp only [loaderAt]; omega)
  have hloader : loaderAt < 2 ^ 64 := by decide
  unfold ramdiskAt
  rw [hfirst, sub64_of_le (by omega) (by simp only [loaderAt, iobufSize]; omega)]
  simp only [loaderAt, iobufSize]
  omega

/-- The bytes from `where` up to the loader. -/
def ramdiskArea (size : Nat) : Span := ⟨ramdiskAt size, size + iobufSize⟩

/-- The bytes of the loaded kernel. -/
def KernelInfo.area (k : KernelInfo) : Span := ⟨k.kernelAt, k.kernelMemsize⟩

/-- Bytes are stored below the loader and outside of the kernel only, and where
the area meets the kernel nothing happens at all. -/
structure RamdiskLoad.Placed (k : KernelInfo) (map : PageMap) (size : Nat) (r : RamdiskLoad) :
    Prop where
  inside : ∀ s ∈ r.stores, s.span.Within (ramdiskArea size)
  apart : ∀ s ∈ r.stores, s.span.Disjoint k.area
  refused : ¬ (ramdiskArea size).Disjoint k.area →
    (∀ s ∈ r.stores, s.len = 0) ∧ r.memoryMap = map ∧ r.rdStart = 0 ∧ r.rdSize = 0

/-! ## The blocks -/

theorem ramdiskBlocks_eq (source : BlockSource) (start size blkno ptr : Nat) :
    ramdiskBlocks source start size blkno ptr =
      ⟨ptr, source.count blkno, source.data blkno⟩ ::
        if size < ptr + iobufSize - start then []
        else ramdiskBlocks source start size (blkno + 1) (ptr + iobufSize) := by
  rw [ramdiskBlocks]

/-- The loop asks for each block up to the one that holds the end of the file,
and for one more when the file ends with a block. -/
theorem forall_ramdiskBlocks (source : BlockSource) (start size : Nat) (P : Store → Prop)
    {blkno : Nat} (h : blkno ≤ size / iobufSize) :
    (∀ s ∈ ramdiskBlocks source start size blkno (start + iobufSize * blkno), P s) ↔
      ∀ n, blkno ≤ n → n ≤ size / iobufSize →
        P ⟨start + iobufSize * n, source.count n, source.data n⟩ := by
  have hsize : size / iobufSize = size / 1024 := rfl
  generalize hrest : size / iobufSize - blkno = rest
  induction rest generalizing blkno with
  | zero =>
      have hlast : size < start + iobufSize * blkno + iobufSize - start := by
        simp only [iobufSize]
        omega
      rw [ramdiskBlocks_eq, if_pos hlast, List.forall_mem_singleton]
      constructor
      · intro hP n hlo hhi
        obtain rfl : n = blkno := by omega
        exact hP
      · exact fun hP => hP blkno (Nat.le_refl _) h
  | succ rest ih =>
      have hmore : ¬ size < start + iobufSize * blkno + iobufSize - start := by
        simp only [iobufSize]
        omega
      have hlater := @ih (blkno + 1) (by omega) (by omega)
      rw [Nat.mul_succ, ← Nat.add_assoc] at hlater
      rw [ramdiskBlocks_eq, if_neg hmore, List.forall_mem_cons]
      constructor
      · rintro ⟨hfirst, hP⟩ n hlo hhi
        by_cases hn : n = blkno
        · rw [hn]
          exact hfirst
        · exact hlater.mp hP n (by omega) hhi
      · intro hP
        exact ⟨hP blkno (Nat.le_refl _) h, hlater.mpr fun n hlo hhi => hP n (by omega) hhi⟩

/-- No read goes on past the loader. -/
def RamdiskFits (source : BlockSource) (size : Nat) : Prop :=
  ∀ n ≤ size / iobufSize, iobufSize * n + source.count n ≤ size + iobufSize

theorem stores_within_iff (source : BlockSource) (size : Nat) :
    (∀ s ∈ ramdiskBlocks source (ramdiskAt size) size 0 (ramdiskAt size),
        s.span.Within (ramdiskArea size)) ↔ RamdiskFits source size := by
  have hblocks := forall_ramdiskBlocks source (ramdiskAt size) size
    (fun s => s.span.Within (ramdiskArea size)) (Nat.zero_le _)
  rw [Nat.mul_zero, Nat.add_zero] at hblocks
  rw [hblocks]
  unfold RamdiskFits ramdiskArea
  constructor
  · intro h n hn
    have hn' : n ≤ size / 1024 := hn
    have hwithin := Span.within_iff.mp (h n (Nat.zero_le _) hn)
    simp only [Store.span, iobufSize] at hwithin ⊢
    omega
  · intro h n _ hn
    have hfits := h n hn
    rw [Span.within_iff]
    simp only [Store.span]
    omega

/-- Reads of no more than a step never go on too far: those of the DOS and
ISO 9660 readers, and of ext2 with its smallest blocks. -/
theorem ramdiskFits_of_le {source : BlockSource} (h : ∀ n, source.count n ≤ iobufSize)
    (size : Nat) : RamdiskFits source size := by
  intro n hn
  have hn' : n ≤ size / 1024 := hn
  have hcount := h n
  simp only [iobufSize] at hcount ⊢
  omega

/-- With reads of one size only the last of them matters. -/
theorem ramdiskFits_iff_of_eq {source : BlockSource} {blocksize : Nat}
    (h : ∀ n, source.count n = blocksize) (size : Nat) :
    RamdiskFits source size ↔ blocksize ≤ iobufSize + size % iobufSize := by
  unfold RamdiskFits
  constructor
  · intro hfits
    have hlast := hfits (size / iobufSize) (Nat.le_refl _)
    rw [h] at hlast
    simp only [iobufSize] at hlast ⊢
    omega
  · intro hlast n hn
    have hn' : n ≤ size / 1024 := hn
    rw [h]
    simp only [iobufSize] at hlast ⊢
    omega

/-- Where the area meets the kernel, the words for the kernel are written all
the same. -/
theorem RamdiskLoad.Placed.disjoint {k : KernelInfo} {map : PageMap} {size : Nat}
    {source : BlockSource} (hsize : size < 2 ^ 63)
    (h : (loadRamdiskFromDevice k map (some (size, source))).Placed k map size) :
    (ramdiskArea size).Disjoint k.area := by
  by_contra hmeets
  have hstart : ramdiskAt size = 0 := (h.refused hmeets).2.2.1
  have hloader := ramdiskAt_add hsize
  simp only [loaderAt, iobufSize] at hloader
  omega

/-- The ramdisk is placed as it should be exactly if its area is outside of the
kernel and no read goes on past the loader. -/
theorem loadRamdiskFromDevice_placed_iff (k : KernelInfo) (map : PageMap) (size : Nat)
    (source : BlockSource) (hsize : size < 2 ^ 63) :
    (loadRamdiskFromDevice k map (some (size, source))).Placed k map size ↔
      (ramdiskArea size).Disjoint k.area ∧ RamdiskFits source size := by
  have hwithin := stores_within_iff source size
  constructor
  · intro h
    exact ⟨h.disjoint hsize, hwithin.mp h.inside⟩
  · intro ⟨hdisjoint, hfits⟩
    have hinside := hwithin.mpr hfits
    exact ⟨hinside, fun s hs a ha => hdisjoint a (hinside s hs a ha), fun h => absurd hdisjoint h⟩

/-- A kernel of 2 Mb and a ramdisk of 1000 bytes, read in blocks of 1024. -/
theorem loadRamdiskFromDevice_placed_small :
    (loadRamdiskFromDevice ⟨kernelStart, 0, 0, 0, 0x200000⟩ (fun _ => freePage)
      (some (1000, ⟨fun _ => 1024, fun _ _ => 0⟩))).Placed
        ⟨kernelStart, 0, 0, 0, 0x200000⟩ (fun _ => freePage) 1000 :=
  (loadRamdiskFromDevice_placed_iff _ _ 1000 _ (by decide)).mpr
    ⟨by decide, ramdiskFits_of_le (fun _ => Nat.le_refl _) 1000⟩

/-! ## The blocks of ext2 -/

section
open Fs Fs.Ext2
variable (drive : Drive) (t : Nat) (vol : Volume) (caches : Caches) (ip : Inode)

/-- The cached blocks before call `k`. -/
def cachesBefore : Nat → Caches
  | 0 => caches
  | k + 1 => (ext2Blkno drive (t + 3 * k) vol (cachesBefore k) ip (s32 k)).2

/-- The block on the device that call `k` reads. -/
def devBlknoOf (k : Nat) : Int :=
  (ext2Blkno drive (t + 3 * k) vol (cachesBefore drive t vol caches ip k) ip (s32 k)).1

/-- What `ext2_bread` stores, call after call. -/
def ext2Source : BlockSource where
  count k :=
    if devBlknoOf drive t vol caches ip k = 0 then vol.blocksize
    else (drive.device (t + 3 * k + 2)).count
      ((devBlknoOf drive t vol caches ip k * vol.blocksize) % 2 ^ 64).toNat vol.blocksize
  data k := fun i =>
    if devBlknoOf drive t vol caches ip k = 0 then 0
    else drive.contents
      (((devBlknoOf drive t vol caches ip k * vol.blocksize) % 2 ^ 64).toNat + i)

theorem ext2Bread_eq_fill (k : Nat) (mem : ByteMemory) (buffer : Nat) :
    ext2Bread drive (t + 3 * k) vol (cachesBefore drive t vol caches ip k) ip k mem buffer =
      (0, fill mem buffer ((ext2Source drive t vol caches ip).data k)
        ((ext2Source drive t vol caches ip).count k),
        cachesBefore drive t vol caches ip (k + 1)) := by
  have hcaches : cachesBefore drive t vol caches ip (k + 1) =
      (ext2Blkno drive (t + 3 * k) vol (cachesBefore drive t vol caches ip k) ip (s32 k)).2 := rfl
  have hblkno : devBlknoOf drive t vol caches ip k =
      (ext2Blkno drive (t + 3 * k) vol (cachesBefore drive t vol caches ip k) ip (s32 k)).1 := rfl
  unfold ext2Bread ext2Breadi ext2Source deviceRead
  simp only
  rw [hcaches, hblkno]
  by_cases h : (ext2Blkno drive (t + 3 * k) vol (cachesBefore drive t vol caches ip k) ip
      (s32 k)).1 = 0
  · simp only [h, if_true]
  · simp only [h, if_false]
    rfl

/-- On a drive whose reads succeed, an ext2 volume with larger blocks than 1024
bytes does not fit. -/
theorem ext2Source_fits_iff (hdrive : ∀ t offset size, drive.count t offset size = size)
    (size : Nat) :
    RamdiskFits (ext2Source drive t vol caches ip) size ↔
      vol.blocksize ≤ iobufSize + size % iobufSize := by
  apply ramdiskFits_iff_of_eq
  intro n
  unfold ext2Source
  simp only
  split
  · rfl
  · exact hdrive _ _ _

end

/-- A ramdisk of 10 Mb is put over the kernel it was refused for, and one of a
byte on a volume with blocks of 4096 bytes goes on into the loader. -/
theorem ramdisk_over_kernel_and_loader :
    ¬ (loadRamdiskFromDevice ⟨kernelStart, 0, 0, 0, 0x200000⟩ (fun _ => freePage)
        (some (0xa00000, ⟨fun _ => 1024, fun _ _ => 0⟩))).Placed
          ⟨kernelStart, 0, 0, 0, 0x200000⟩ (fun _ => freePage) 0xa00000 ∧
      ¬ (loadRamdiskFromDevice ⟨kernelStart, 0, 0, 0, 0x200000⟩ (fun _ => freePage)
        (some (1, ext2Source (Fs.Device.sound fun _ => 0).drive 0
          (Fs.Ext2.volumeOf ⟨100, 0, 2, 8192, 8, Fs.Ext2.superMagic⟩ [])
          ⟨⟨Fs.Ext2.noBlock, fun _ => 0⟩, ⟨Fs.Ext2.noBlock, fun _ => 0⟩⟩ fun _ => 0))).Placed
          ⟨kernelStart, 0, 0, 0, 0x200000⟩ (fun _ => freePage) 1 := by
  constructor
  · intro h
    exact absurd (h.disjoint (by decide)) (by decide)
  · intro h
    have hfits := (stores_within_iff _ 1).mp h.inside
    rw [ext2Source_fits_iff _ _ _ _ _ (fun _ _ _ => rfl)] at hfits
    exact absurd hfits (by decide)

end Milo.Boot
