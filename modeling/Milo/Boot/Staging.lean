import Milo.Memory.Sizing
import Milo.Zip.Gzip

/-! # Staging an image from a device

`load_image_from_device` collects the file at `where`, first as a gzip file and
else block by block. Both ways are followed through the blocks of bytes they
store. The windows that `inflate` flushes are a parameter.
-/

namespace Milo.Boot

open Foundation Milo.Memory Milo.Zip

def ioBlock : Nat := 1024

/-- `DEFLATED`, the one method that `unzip` does not refuse. -/
def deflated : Int := 8

section
variable (file : FileReader) (address : Nat)

/-- The plain loop, for at most `fuel` blocks. -/
def copyBlocks (blkno ptr : Nat) (iobuf : Buffer) : Nat → List Store
  | 0 => []
  | fuel + 1 =>
      if file.status blkno = 0 then
        ⟨ptr, ioBlock, file.fill blkno iobuf⟩ ::
          (if ptr + ioBlock - address > maxKernelSize then []
          else copyBlocks (blkno + 1) (ptr + ioBlock) (file.fill blkno iobuf) fuel)
      else []

/-- One block more than the area holds. The loop has left by then. -/
def blockLimit : Nat := maxKernelSize / ioBlock + 1

/-- The stores of `load_image_from_device` into the image it stages. -/
def stageStores (inflate : Inbuf → List Window) (fuel : Nat) : List Store :=
  if address = 0 then []
  else match (getMethod file fuel).run clearBufs with
    | none => []
    | some (method, s) =>
        if method < 0 then copyBlocks file address 0 address (fun _ => 0) blockLimit
        else if method = deflated then flushWindows address (inflate s)
        else []

/-! ## The plain loop -/

theorem copyBlocks_succ (blkno ptr : Nat) (iobuf : Buffer) (fuel : Nat) :
    copyBlocks file address blkno ptr iobuf (fuel + 1) =
      if file.status blkno = 0 then
        ⟨ptr, ioBlock, file.fill blkno iobuf⟩ ::
          (if ptr + ioBlock - address > maxKernelSize then []
          else copyBlocks file address (blkno + 1) (ptr + ioBlock) (file.fill blkno iobuf) fuel)
      else [] := rfl

/-- The loop leaves by itself: following it for longer shows no more stores. -/
theorem copyBlocks_limit (extra : Nat) {blkno fuel : Nat} (iobuf : Buffer)
    (hfuel : blkno + (fuel + 1) = blockLimit) :
    copyBlocks file address blkno (address + ioBlock * blkno) iobuf (fuel + 1 + extra) =
      copyBlocks file address blkno (address + ioBlock * blkno) iobuf (fuel + 1) := by
  have hlimit : blockLimit = 8193 := rfl
  induction fuel generalizing blkno iobuf with
  | zero =>
      have hlast : address + ioBlock * blkno + ioBlock - address > maxKernelSize := by
        simp only [ioBlock, maxKernelSize]
        omega
      rw [show 0 + 1 + extra = extra + 1 by omega, copyBlocks_succ, copyBlocks_succ, if_pos hlast,
        if_pos hlast]
  | succ fuel ih =>
      have hrest := ih (file.fill blkno iobuf) (show blkno + 1 + (fuel + 1) = blockLimit by omega)
      rw [show address + ioBlock * (blkno + 1) = address + ioBlock * blkno + ioBlock by
        simp only [ioBlock]; omega] at hrest
      rw [show fuel + 1 + 1 + extra = fuel + 1 + extra + 1 by omega, copyBlocks_succ,
        copyBlocks_succ, hrest]

/-- The loop stays in the area exactly if it meets a block that is not delivered
before the area is full. -/
theorem copyBlocks_within_iff {blkno fuel : Nat} (iobuf : Buffer)
    (hfuel : blkno + (fuel + 1) = blockLimit) :
    (∀ s ∈ copyBlocks file address blkno (address + ioBlock * blkno) iobuf (fuel + 1),
        s.span.Within ⟨address, maxKernelSize⟩) ↔
      ∃ k, blkno ≤ k ∧ k < blockLimit ∧ file.status k ≠ 0 := by
  have hlimit : blockLimit = 8193 := rfl
  induction fuel generalizing blkno iobuf with
  | zero =>
      rw [copyBlocks_succ]
      by_cases hstatus : file.status blkno = 0
      · rw [if_pos hstatus, List.forall_mem_cons, Span.within_iff]
        simp only [Store.span, ioBlock, maxKernelSize]
        constructor
        · rintro ⟨hfirst, _⟩
          omega
        · rintro ⟨k, hlo, hhi, hk⟩
          obtain rfl : k = blkno := by omega
          exact absurd hstatus hk
      · simpa [hstatus] using ⟨blkno, Nat.le_refl _, by omega, hstatus⟩
  | succ fuel ih =>
      rw [copyBlocks_succ]
      by_cases hstatus : file.status blkno = 0
      · have hrest := ih (file.fill blkno iobuf) (show blkno + 1 + (fuel + 1) = blockLimit by omega)
        rw [show address + ioBlock * (blkno + 1) = address + ioBlock * blkno + ioBlock by
          simp only [ioBlock]; omega] at hrest
        have hroom : ¬ address + ioBlock * blkno + ioBlock - address > maxKernelSize := by
          simp only [ioBlock, maxKernelSize]
          omega
        rw [if_pos hstatus, if_neg hroom, List.forall_mem_cons, Span.within_iff]
        constructor
        · rintro ⟨_, hlater⟩
          obtain ⟨k, hlo, hhi, hk⟩ := hrest.mp hlater
          exact ⟨k, by omega, hhi, hk⟩
        · rintro ⟨k, hlo, hhi, hk⟩
          have hne : k ≠ blkno := by
            rintro rfl
            exact hk hstatus
          refine ⟨?_, hrest.mpr ⟨k, by omega, hhi, hk⟩⟩
          simp only [Store.span, ioBlock, maxKernelSize]
          omega
      · simpa [hstatus] using ⟨blkno, Nat.le_refl _, by omega, hstatus⟩

/-! ## Both ways -/

theorem stageStores_plain {inflate : Inbuf → List Window} {fuel : Nat} {method : Int} {s : Inbuf}
    (hnull : address ≠ 0) (hrun : (getMethod file fuel).run clearBufs = some (method, s))
    (hmethod : method < 0) :
    stageStores file address inflate fuel =
      copyBlocks file address 0 address (fun _ => 0) blockLimit := by
  rw [stageStores, if_neg hnull, hrun]
  exact if_pos hmethod

theorem stageStores_gzip {inflate : Inbuf → List Window} {fuel : Nat} {s : Inbuf}
    (hnull : address ≠ 0) (hrun : (getMethod file fuel).run clearBufs = some (deflated, s)) :
    stageStores file address inflate fuel = flushWindows address (inflate s) := by
  rw [stageStores, if_neg hnull, hrun]
  rfl

/-- What the file must be like: not too long by itself, or when it is unpacked. -/
def StagingFits (inflate : Inbuf → List Window) (fuel : Nat) : Prop :=
  match (getMethod file fuel).run clearBufs with
  | none => True
  | some (method, s) =>
      (method < 0 → ∃ k < blockLimit, file.status k ≠ 0) ∧
        (method = deflated → bytesOut (inflate s) ≤ maxKernelSize)

/-- Every byte that staging stores lies in the area exactly if the file fits. -/
theorem stageStores_within_iff (file : FileReader) (address : Nat)
    (inflate : Inbuf → List Window) (fuel : Nat) :
    (∀ s ∈ stageStores file address inflate fuel, s.span.Within ⟨address, maxKernelSize⟩) ↔
      address = 0 ∨ StagingFits file inflate fuel := by
  unfold stageStores StagingFits
  by_cases hnull : address = 0
  · simp [hnull]
  · rw [if_neg hnull]
    simp only [hnull, false_or]
    cases (getMethod file fuel).run clearBufs with
    | none => simp
    | some result =>
        obtain ⟨method, s⟩ := result
        dsimp only
        by_cases hplain : method < 0
        · have hother : method ≠ deflated := by
            simp only [deflated]
            omega
          have hblocks := copyBlocks_within_iff file address (fun _ => 0)
            (show 0 + (8192 + 1) = blockLimit from rfl)
          simp only [hplain, hother, if_true, true_implies, false_implies, and_true]
          simpa [blockLimit, maxKernelSize, ioBlock] using hblocks
        · rw [if_neg hplain]
          by_cases hmethod : method = deflated
          · have hwindows := flushWindows_within_iff (inflate s) maxKernelSize hnull
              (Nat.le_refl address) (Nat.le_add_right _ _)
            rw [Nat.add_le_add_iff_left] at hwindows
            simpa [hmethod, deflated] using hwindows
          · simp [hplain, hmethod]

end

theorem bytesOut_replicate (n : Nat) (window : Window) :
    bytesOut (List.replicate n window) = n * window.outcnt := by
  induction n with
  | zero => simp [bytesOut]
  | succ n ih =>
      rw [bytesOut] at ih ⊢
      rw [List.replicate_succ, List.map_cons, List.sum_cons, ih, Nat.add_mul, Nat.one_mul,
        Nat.add_comm]

/-- A plain file of one block more than the area holds. -/
def longFile : FileReader where
  status k := if k < blockLimit then 0 else -1
  fill _ _ := fun _ => 0

/-- A gzip file of one block. -/
def gzipFile : FileReader where
  status k := if k = 0 then 0 else -1
  fill _ _ := fun i => [0x1f, 0x8b, 0x08].getD i 0

/-- Neither way of staging stops at the end of the area: the plain loop stores a
block before it looks, and `flush_window` does not look at all. -/
theorem stageStores_passes_area :
    (∃ s ∈ stageStores longFile 0xfffffc0001000200 (fun _ => []) 0,
        ¬ s.span.Within ⟨0xfffffc0001000200, maxKernelSize⟩) ∧
      ∃ s ∈ stageStores gzipFile 0xfffffc0001000200
          (fun _ => List.replicate 257 ⟨0x8000, fun _ => 0⟩) 0,
        ¬ s.span.Within ⟨0xfffffc0001000200, maxKernelSize⟩ := by
  have hmethod : ((getMethod longFile 0).run clearBufs).map Prod.fst = some (-1) := by decide
  have hdeflated : ((getMethod gzipFile 0).run clearBufs).map Prod.fst = some deflated := by
    decide
  constructor
  · obtain ⟨⟨_, s⟩, hrun, rfl⟩ := Option.map_eq_some_iff.mp hmethod
    rw [stageStores_plain longFile _ (by decide) hrun (by decide)]
    by_contra hwithin
    push Not at hwithin
    obtain ⟨k, _, hk, hstatus⟩ := (copyBlocks_within_iff longFile 0xfffffc0001000200 (fun _ => 0)
      (show 0 + (8192 + 1) = blockLimit from rfl)).mp hwithin
    exact hstatus (if_pos hk)
  · obtain ⟨⟨_, s⟩, hrun, rfl⟩ := Option.map_eq_some_iff.mp hdeflated
    rw [stageStores_gzip gzipFile _ (by decide) hrun]
    by_contra hwithin
    push Not at hwithin
    have htotal := (flushWindows_within_iff (List.replicate 257 ⟨0x8000, fun _ => 0⟩) maxKernelSize
      (by decide) (Nat.le_refl _) (Nat.le_add_right _ _)).mp hwithin
    rw [bytesOut_replicate] at htotal
    simp only [maxKernelSize] at htotal
    omega

end Milo.Boot
