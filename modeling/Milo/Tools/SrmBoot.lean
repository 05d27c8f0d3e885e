import Milo.Foundation.Patch
import Milo.Foundation.QuadText
import Milo.Tools.FatEntry

/-! # Boot sectors for the SRM console

`srmbootraw` copies an image behind the boot sector of a device, `srmbootfat`
finds it in a FAT file system. Both write where it lies into the boot sector and
put the sum of the other quadwords into the last one.
-/

namespace Milo.Tools

open Foundation
open Foundation.QuadText (leBytes leValue leBytes_length leValue_leBytes)

/-! ## Boot sectors -/

def sectorSize : Nat := 512

/-- A quadword of a sector. -/
def quadAt (sector : List UInt8) (i : Nat) : Nat := leValue (slice sector (8 * i) 8)

/-- The sum of the first 63 quadwords. -/
def sectorSum (sector : List UInt8) : Nat :=
  (List.range 63).foldl (fun checksum i => u64 (checksum + quadAt sector i)) 0

/-- `boot.srm.start`, `boot.srm.count` and `boot.srm.flags` are filled in. -/
def fillFields (boot : List UInt8) (start count : Nat) : List UInt8 :=
  let boot := patch boot 488 (leBytes 8 start)
  let boot := patch boot 480 (leBytes 8 count)
  patch boot 496 (leBytes 8 0)

/-- The checksum is put in last. -/
def fillSector (boot : List UInt8) (start count : Nat) : List UInt8 :=
  let boot := fillFields boot start count
  patch boot 504 (leBytes 8 (sectorSum boot))

/-- `read` of `n` bytes at a position; a short count is an error of the caller's. -/
def readAt (contents : List UInt8) (position n : Nat) : Option (List UInt8) :=
  if position + n ≤ contents.length then some (slice contents position n) else none

/-! ## Raw devices -/

/-- `main` of `srmbootraw`: what the device holds when the program succeeds, or
else its exit code. The image is copied behind the boot sector. -/
def srmbootraw (device image : List UInt8) : Except Nat (List UInt8) :=
  match readAt device 0 sectorSize with
  | none => .error 2
  | some boot =>
      let device := patch device sectorSize image
      let count := u64 (image.length + 511) / 512
      .ok (patch device 0 (fillSector boot 1 count))

/-! ## FAT file systems -/

/-- What `srmbootfat` has read from the boot sector and found in the root
directory. -/
structure BootFile where
  fatbits : Nat
  clusize : Nat
  fatstart : Nat
  nfat : Nat
  fatsize : Nat
  dirents : Nat
  start : Nat
  size : Nat

/-- The loop over the clusters of a file, which have to be adjacent: their number,
or else the exit code. An entry outside the table has no result. -/
def countClusters (fat : FatTable) (fatbits fatEnd start i : Nat) : Option (Except Nat Nat) :=
  match getFatEntry fat fatbits start with
  | none => none
  | some j =>
      if h : j < fatEnd then
        if hnext : j = start + 1 then countClusters fat fatbits fatEnd (start + 1) (i + 1)
        else some (.error 4)
      else some (.ok i)
termination_by fatEnd - start

/-- `main` of `srmbootfat` from where the file has been found. -/
def srmbootfat (disk : List UInt8) (fat : FatTable) (file : BootFile) :
    Option (Except Nat (List UInt8)) :=
  match readAt disk 0 sectorSize with
  | none => some (.error 2)
  | some boot =>
      let size := u32 (file.size + 511) / sectorSize
      let start := u32 (u32 (sub32 file.start 2 * file.clusize) + file.fatstart +
        file.nfat * file.fatsize + file.dirents / 16)
      (countClusters fat file.fatbits (2 ^ file.fatbits - 9) file.start 1).map fun
        | .error code => .error code
        | .ok clusters =>
            if u32 (size + sub32 file.clusize 1) / file.clusize ≠ clusters then .error 3
            else .ok (patch disk 0 (fillSector boot start size))

/-! ## Checksums -/

theorem quadAt_congr {sector other : List UInt8} {i : Nat}
    (h : slice other (8 * i) 8 = slice sector (8 * i) 8) : quadAt other i = quadAt sector i := by
  rw [quadAt, h, quadAt]

theorem foldl_sum_congr {f g : Nat → Nat} {is : List Nat} (h : ∀ i ∈ is, f i = g i) (c : Nat) :
    is.foldl (fun c i => u64 (c + f i)) c = is.foldl (fun c i => u64 (c + g i)) c := by
  induction is generalizing c with
  | nil => rfl
  | cons i is ih =>
      rw [List.foldl_cons, List.foldl_cons, h i List.mem_cons_self,
        ih (fun j hj => h j (List.mem_cons_of_mem i hj))]

/-- The sum does not depend on the last quadword. -/
theorem sectorSum_patch {sector : List UInt8} (h : sector.length = sectorSize)
    (checksum : List UInt8) : sectorSum (patch sector 504 checksum) = sectorSum sector := by
  unfold sectorSum
  apply foldl_sum_congr
  intro i hi
  have hlt := List.mem_range.mp hi
  apply quadAt_congr
  apply slice_patch_other (by rw [h]; decide)
  omega

theorem sectorSum_lt (sector : List UInt8) : sectorSum sector < 2 ^ 64 := by
  unfold sectorSum
  rw [List.range_succ, List.foldl_append]
  exact u64_lt _

/-- The last quadword is the sum of the others. -/
def ChecksumRight (sector : List UInt8) : Prop := sectorSum sector = quadAt sector 63

section
variable {boot : List UInt8}

theorem patch_quad_length {sector : List UInt8} (h : sector.length = sectorSize) {i : Nat}
    (hi : i < 64) (w : Nat) : (patch sector (8 * i) (leBytes 8 w)).length = sectorSize := by
  rw [patch_length (by rw [leBytes_length, h, sectorSize]; omega), h]

/-- The start and the count go to the quadwords 61 and 60. -/
theorem placed_length (h : boot.length = sectorSize) (start count : Nat) :
    (patch boot (8 * 61) (leBytes 8 start)).length = sectorSize ∧
      (patch (patch boot (8 * 61) (leBytes 8 start)) (8 * 60) (leBytes 8 count)).length =
        sectorSize := by
  have hstart := patch_quad_length h (i := 61) (by decide) start
  exact ⟨hstart, patch_quad_length hstart (by decide) count⟩

theorem fillFields_length (h : boot.length = sectorSize) (start count : Nat) :
    (fillFields boot start count).length = sectorSize :=
  patch_quad_length (placed_length h start count).2 (i := 62) (by decide) 0

theorem fillSector_length (h : boot.length = sectorSize) (start count : Nat) :
    (fillSector boot start count).length = sectorSize :=
  patch_quad_length (fillFields_length h start count) (i := 63) (by decide) _

/-- A quadword that is written into a sector. -/
theorem quadAt_patch_self {sector : List UInt8} (h : sector.length = sectorSize) {i w : Nat}
    (hi : i < 64) (hw : w < 2 ^ 64) : quadAt (patch sector (8 * i) (leBytes 8 w)) i = w := by
  have hself : slice (patch sector (8 * i) (leBytes 8 w)) (8 * i) (leBytes 8 w).length =
      leBytes 8 w := slice_patch_self (by rw [h, sectorSize]; omega)
  rw [leBytes_length] at hself
  rw [quadAt, hself, leValue_leBytes]
  exact Nat.mod_eq_of_lt hw

/-- The quadwords beside it. -/
theorem quadAt_patch_other {sector : List UInt8} (h : sector.length = sectorSize) {i j : Nat}
    (hj : j < 64) (hne : i ≠ j) (w : Nat) :
    quadAt (patch sector (8 * j) (leBytes 8 w)) i = quadAt sector i := by
  apply quadAt_congr
  apply slice_patch_other (by rw [h, sectorSize]; omega)
  rw [leBytes_length]
  omega

theorem fillSector_checksumRight (h : boot.length = sectorSize) (start count : Nat) :
    ChecksumRight (fillSector boot start count) := by
  have hlength := fillFields_length h start count
  have hlast := quadAt_patch_self hlength (i := 63) (by decide)
    (sectorSum_lt (fillFields boot start count))
  exact (sectorSum_patch hlength _).trans hlast.symm

/-- Filling a sector leaves its first quadword, and the start is where the loader
looks for it. -/
theorem quadAt_fillSector (h : boot.length = sectorSize) {start : Nat} (count : Nat)
    (hstart : start < 2 ^ 64) :
    quadAt (fillSector boot start count) 0 = quadAt boot 0 ∧
      quadAt (fillSector boot start count) 61 = start := by
  obtain ⟨hplaced, hcounted⟩ := placed_length h start count
  have hfields := fillFields_length h start count
  constructor
  · calc quadAt (fillSector boot start count) 0
        = quadAt (fillFields boot start count) 0 :=
          quadAt_patch_other hfields (j := 63) (by decide) (by decide) _
      _ = quadAt (patch (patch boot (8 * 61) (leBytes 8 start)) (8 * 60) (leBytes 8 count)) 0 :=
          quadAt_patch_other hcounted (j := 62) (by decide) (by decide) _
      _ = quadAt (patch boot (8 * 61) (leBytes 8 start)) 0 :=
          quadAt_patch_other hplaced (by decide) (by decide) _
      _ = quadAt boot 0 := quadAt_patch_other h (by decide) (by decide) _
  · calc quadAt (fillSector boot start count) 61
        = quadAt (fillFields boot start count) 61 :=
          quadAt_patch_other hfields (j := 63) (by decide) (by decide) _
      _ = quadAt (patch (patch boot (8 * 61) (leBytes 8 start)) (8 * 60) (leBytes 8 count)) 61 :=
          quadAt_patch_other hcounted (j := 62) (by decide) (by decide) _
      _ = quadAt (patch boot (8 * 61) (leBytes 8 start)) 61 :=
          quadAt_patch_other hplaced (by decide) (by decide) _
      _ = start := quadAt_patch_self h (by decide) hstart

theorem quadAt_fillSector_count (h : boot.length = sectorSize) (start : Nat) {count : Nat}
    (hcount : count < 2 ^ 64) : quadAt (fillSector boot start count) 60 = count := by
  obtain ⟨hplaced, hcounted⟩ := placed_length h start count
  have hfields := fillFields_length h start count
  calc quadAt (fillSector boot start count) 60
      = quadAt (fillFields boot start count) 60 :=
        quadAt_patch_other hfields (j := 63) (by decide) (by decide) _
    _ = quadAt (patch (patch boot (8 * 61) (leBytes 8 start)) (8 * 60) (leBytes 8 count)) 60 :=
        quadAt_patch_other hcounted (j := 62) (by decide) (by decide) _
    _ = count := quadAt_patch_self hplaced (by decide) hcount

/-- A disk with a sector that has been filled at its start. -/
theorem slice_filled {disk : List UInt8} (h : boot.length = sectorSize) (start count : Nat) :
    slice (patch disk 0 (fillSector boot start count)) 0 sectorSize =
      fillSector boot start count := by
  have hself : slice (patch disk 0 (fillSector boot start count)) 0
      (fillSector boot start count).length = fillSector boot start count :=
    slice_patch_self (Nat.zero_le disk.length)
  rwa [fillSector_length h] at hself

theorem readAt_of_le {contents : List UInt8} {position n : Nat}
    (h : position + n ≤ contents.length) :
    readAt contents position n = some (slice contents position n) := if_pos h

theorem eq_of_readAt {contents : List UInt8} {position n : Nat}
    (h : readAt contents position n = some boot) :
    position + n ≤ contents.length ∧ slice contents position n = boot := by
  unfold readAt at h
  split at h
  · exact ⟨by assumption, Option.some.inj h⟩
  · cases h

theorem readAt_length {contents : List UInt8} {position n : Nat}
    (h : readAt contents position n = some boot) : boot.length = n := by
  obtain ⟨hle, rfl⟩ := eq_of_readAt h
  exact slice_length hle

/-- Whatever the old sector holds, the checksum of the new one is right. -/
theorem srmbootraw_checksumRight {device image disk : List UInt8}
    (h : srmbootraw device image = .ok disk) : ChecksumRight (slice disk 0 sectorSize) := by
  unfold srmbootraw at h
  split at h
  · cases h
  · rename_i boot hboot
    have hlength := readAt_length hboot
    rw [← Except.ok.inj h, slice_filled hlength]
    exact fillSector_checksumRight hlength 1 _

theorem srmbootfat_checksumRight {disk new : List UInt8} {fat : FatTable} {file : BootFile}
    (h : srmbootfat disk fat file = some (.ok new)) : ChecksumRight (slice new 0 sectorSize) := by
  unfold srmbootfat at h
  split at h
  · cases h
  · rename_i boot hboot
    have hlength := readAt_length hboot
    obtain ⟨result, _, hresult⟩ := Option.map_eq_some_iff.mp h
    cases result with
    | error code => cases hresult
    | ok clusters =>
        simp only at hresult
        split at hresult
        · cases hresult
        · rw [← Except.ok.inj hresult, slice_filled hlength]
          exact fillSector_checksumRight hlength _ _

end

end Milo.Tools
