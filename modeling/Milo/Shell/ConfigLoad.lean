import Milo.Fs.BlockReader
import Milo.Memory.Ownership
import Milo.Zip.Gzip

/-! # Loading the configuration file

`boot_via_config` takes a block for the text of the file and right after it one
for the blocks that `__bread` delivers. Whole blocks are copied into a text
buffer that was made for the bytes of the file.
-/

namespace Milo.Shell

open Foundation Milo.Fs Milo.Memory Milo.Zip

section
variable (file : FileReader) (buf size : Nat)

/-- The loop over the blocks; a copy takes the bytes that `__bread` has left in
`iobuf`. -/
def copyConfig (blkno chptr : Nat) (iobuf : Buffer) : List Store :=
  if file.status blkno = 0 then
    ⟨chptr, iobufSize, file.fill blkno iobuf⟩ ::
      (if chptr + iobufSize < buf + size then
        copyConfig (blkno + 1) (chptr + iobufSize) (file.fill blkno iobuf)
      else [])
  else []
termination_by buf + size - chptr
decreasing_by
  simp only [iobufSize] at *
  omega

/-- The newline and the NUL behind the text. -/
def endText : List Store :=
  [⟨buf + size, 1, fun _ => 0x0a⟩, ⟨buf + size + 1, 1, fun _ => 0⟩]

end

/-- What the load takes and stores: `text` and `block` are the two blocks of the
heap, and `iobuf` lies somewhere in the second. -/
structure ConfigLoad where
  mem : MemState
  text : Span
  block : Span
  iobuf : Nat
  copies : List Store
  ends : List Store

/-- The part of `boot_via_config` from the file size to the text in memory;
`none` when there is no memory. -/
def loadConfig (s : MemState) (file : FileReader) (size : Nat) : Option ConfigLoad :=
  (kmalloc s (u64 (size + 2))).bind fun (buf, s) =>
    (kmalloc s (u64 (iobufSize + 512))).map fun (block, s) =>
      { mem := s
        text := ⟨buf, roundSize (u64 (size + 2))⟩
        block := ⟨block, roundSize (u64 (iobufSize + 512))⟩
        iobuf := u64 (block + 512) &&& (2 ^ 64 - 512)
        copies := copyConfig file buf size 0 buf fun _ => 0
        ends := endText buf size }

/-- Every store of the text is in its block, the block buffer is in its own, and
no copy goes into the buffer it comes from. -/
structure ConfigLoad.Safe (c : ConfigLoad) : Prop where
  inText : ∀ s ∈ c.copies ++ c.ends, s.span.Within c.text
  inBlock : Span.Within ⟨c.iobuf, iobufSize⟩ c.block
  apart : ∀ s ∈ c.copies, s.span.Disjoint ⟨c.iobuf, iobufSize⟩

/-! ## The copies -/

theorem copyConfig_eq (file : FileReader) (buf size blkno chptr : Nat) (iobuf : Buffer) :
    copyConfig file buf size blkno chptr iobuf =
      if file.status blkno = 0 then
        ⟨chptr, iobufSize, file.fill blkno iobuf⟩ ::
          (if chptr + iobufSize < buf + size then
            copyConfig file buf size (blkno + 1) (chptr + iobufSize) (file.fill blkno iobuf)
          else [])
      else [] := by
  rw [copyConfig]

/-- A block that is delivered is copied to the start of the text first. -/
theorem first_copy_mem {s : MemState} {file : FileReader} {size : Nat} {c : ConfigLoad}
    (hload : loadConfig s file size = some c) (hstatus : file.status 0 = 0) :
    ⟨c.text.start, iobufSize, file.fill 0 fun _ => 0⟩ ∈ c.copies := by
  obtain ⟨⟨buf, s₁⟩, _, hblock⟩ := Option.bind_eq_some_iff.mp hload
  obtain ⟨⟨block, s₂⟩, _, rfl⟩ := Option.map_eq_some_iff.mp hblock
  simp only
  rw [copyConfig_eq, if_pos hstatus]
  exact List.mem_cons_self

/-- The number of the last block that is asked for. -/
def lastBlock (size : Nat) : Nat := (size - 1) / iobufSize

/-- The copies stay in the buffer exactly if a block is missing or the last one
ends in it. -/
theorem copyConfig_within_iff (file : FileReader) (buf : Nat) {size room : Nat}
    (hroom : size ≤ room) {blkno : Nat} (hblkno : blkno ≤ lastBlock size)
    (iobuf : Buffer) :
    (∀ s ∈ copyConfig file buf size blkno (buf + iobufSize * blkno) iobuf,
        s.span.Within ⟨buf, room⟩) ↔
      (∃ k, blkno ≤ k ∧ k ≤ lastBlock size ∧ file.status k ≠ 0) ∨
        iobufSize * (lastBlock size + 1) ≤ room := by
  have hlast : lastBlock size = (size - 1) / 1024 := rfl
  generalize hn : lastBlock size - blkno = n
  induction n generalizing blkno iobuf with
  | zero =>
      have heq : blkno = lastBlock size := by omega
      rw [copyConfig_eq]
      by_cases hstatus : file.status blkno = 0
      · have hstop : ¬ buf + iobufSize * blkno + iobufSize < buf + size := by
          simp only [iobufSize]
          omega
        rw [if_pos hstatus, if_neg hstop, List.forall_mem_singleton, Span.within_iff]
        simp only [Store.span, iobufSize]
        constructor
        · intro hfirst
          exact Or.inr (by omega)
        · intro h
          rcases h with ⟨k, hlo, hhi, hk⟩ | hfits
          · obtain rfl : k = blkno := by omega
            exact absurd hstatus hk
          · omega
      · rw [if_neg hstatus]
        exact ⟨fun _ => Or.inl ⟨blkno, Nat.le_refl _, hblkno, hstatus⟩,
          fun _ => List.forall_mem_nil _⟩
  | succ n ih =>
      rw [copyConfig_eq]
      by_cases hstatus : file.status blkno = 0
      · have hnext : buf + iobufSize * blkno + iobufSize < buf + size := by
          simp only [iobufSize]
          omega
        have hrest := @ih (blkno + 1) (by omega) (file.fill blkno iobuf) (by omega)
        rw [Nat.mul_succ, ← Nat.add_assoc] at hrest
        rw [if_pos hstatus, if_pos hnext, List.forall_mem_cons, Span.within_iff]
        simp only [Store.span]
        constructor
        · intro hall
          rcases hrest.mp hall.2 with ⟨k, hlo, hhi, hk⟩ | hfits
          · exact Or.inl ⟨k, by omega, hhi, hk⟩
          · exact Or.inr hfits
        · intro h
          have hfirst : buf ≤ buf + iobufSize * blkno ∧
              buf + iobufSize * blkno + iobufSize ≤ buf + room := by omega
          refine ⟨Or.inr hfirst, hrest.mpr ?_⟩
          rcases h with ⟨k, hlo, hhi, hk⟩ | hfits
          · have hne : k ≠ blkno := fun heq => hk (heq ▸ hstatus)
            exact Or.inl ⟨k, by omega, hhi, hk⟩
          · exact Or.inr hfits
      · rw [if_neg hstatus]
        exact ⟨fun _ => Or.inl ⟨blkno, Nat.le_refl _, hblkno, hstatus⟩,
          fun _ => List.forall_mem_nil _⟩

/-- Either a block of the file is not delivered, or the rounding of the size
leaves room for the rest of the last block. -/
def ConfigFits (file : FileReader) (size : Nat) : Prop :=
  (∃ k ≤ lastBlock size, file.status k ≠ 0) ∨
    (0 < size ∧ (size % 1024 = 0 ∨ 1014 ≤ size % 1024))

/-- `kmalloc` rounds up far enough in a few cases only. -/
theorem lastBlock_fits_iff {size : Nat} (hsize : size + 10 < 2 ^ 64) :
    iobufSize * (lastBlock size + 1) ≤ roundSize (u64 (size + 2)) ↔
      0 < size ∧ (size % 1024 = 0 ∨ 1014 ≤ size % 1024) := by
  rw [u64_of_lt (by omega), roundSize_of_lt (by omega)]
  unfold lastBlock
  simp only [iobufSize]
  omega

/-- Whatever the heap is like, the text stays in its block exactly if it fits. -/
theorem loadConfig_inText_iff {s : MemState} {file : FileReader} {size : Nat} {c : ConfigLoad}
    (hsize : size + 10 < 2 ^ 64) (hload : loadConfig s file size = some c) :
    (∀ s ∈ c.copies ++ c.ends, s.span.Within c.text) ↔ ConfigFits file size := by
  obtain ⟨⟨buf, s₁⟩, _, hblock⟩ := Option.bind_eq_some_iff.mp hload
  obtain ⟨⟨block, s₂⟩, _, rfl⟩ := Option.map_eq_some_iff.mp hblock
  have hround : roundSize (u64 (size + 2)) = size + 2 + (8 - (size + 2) % 8) := by
    rw [u64_of_lt (by omega), roundSize_of_lt (by omega)]
  have hcopies := copyConfig_within_iff file buf
    (show size ≤ roundSize (u64 (size + 2)) by omega) (Nat.zero_le _) fun _ => 0
  have hends : ∀ s ∈ endText buf size, s.span.Within ⟨buf, roundSize (u64 (size + 2))⟩ := by
    intro s hs
    rw [Span.within_iff]
    unfold endText at hs
    simp only [List.mem_cons, List.not_mem_nil, or_false] at hs
    rcases hs with rfl | rfl
    · simp only [Store.span]
      omega
    · simp only [Store.span]
      omega
  rw [lastBlock_fits_iff hsize, Nat.mul_zero, Nat.add_zero] at hcopies
  simp only [Nat.zero_le, true_and] at hcopies
  rw [List.forall_mem_append]
  unfold ConfigFits
  rw [← hcopies]
  exact ⟨fun h => h.1, fun h => ⟨h, hends⟩⟩

/-! ## The two blocks -/

/-- The block buffer is in its block wherever that lies. -/
theorem iobuf_within {block : Nat} (h : block + 1544 ≤ 2 ^ 64) :
    Span.Within ⟨u64 (block + 512) &&& (2 ^ 64 - 512), iobufSize⟩
      ⟨block, roundSize (u64 (iobufSize + 512))⟩ := by
  have hround : roundSize (u64 (iobufSize + 512)) = 1544 := by decide
  have halign : u64 (block + 512) &&& (2 ^ 64 - 512) = (block + 512) / 512 * 512 := by
    rw [u64_of_lt (by omega)]
    exact and_not_low_eq (block + 512) 9 64 (by omega) (by decide)
  rw [hround, halign, Span.within_iff]
  simp only [iobufSize]
  omega

theorem allocStep_kmalloc {l : Ledger} {size block : Nat} {mem : MemState}
    (h : kmalloc l.mem (u64 size) = some (block, mem)) :
    ∃ l', allocStep l (.kmalloc size) = some l' ∧ l'.mem = mem ∧
      l'.blocks = ⟨block, roundSize (u64 size)⟩ :: l.blocks := by
  simp only [allocStep, h, Option.map_some, Option.some.injEq, exists_eq_left', and_self]

/-- In a sound heap the load is safe exactly if the text fits. -/
theorem safe_iff_of_inv {l : Ledger} (h : l.Inv) {file : FileReader} {size : Nat}
    {c : ConfigLoad} (hsize : size + 10 < 2 ^ 64)
    (hok : StepsMeet allocStep AllocSound l [.kmalloc (size + 2), .kmalloc (iobufSize + 512)])
    (hload : loadConfig l.mem file size = some c) : c.Safe ↔ ConfigFits file size := by
  rw [← loadConfig_inText_iff hsize hload]
  refine ⟨fun hsafe => hsafe.inText, fun hin => ?_⟩
  obtain ⟨⟨buf, s₁⟩, hfirst, hblock⟩ := Option.bind_eq_some_iff.mp hload
  obtain ⟨⟨block, s₂⟩, hsecond, rfl⟩ := Option.map_eq_some_iff.mp hblock
  obtain ⟨l₁, hstep₁, rfl, hblocks₁⟩ := allocStep_kmalloc hfirst
  obtain ⟨hok₁, _⟩ := hok.2 l₁ hstep₁
  have hinv₁ := allocStep_inv h hok.1 hstep₁
  obtain ⟨l₂, hstep₂, rfl, hblocks₂⟩ := allocStep_kmalloc hsecond
  have hinv₂ := allocStep_inv hinv₁ hok₁ hstep₂
  rw [hblocks₁] at hblocks₂
  -- both blocks are in the ledger now, the block buffer's first
  have hapart := hinv₂.blocks_apart
  rw [hblocks₂] at hapart
  have hdisjoint := List.rel_of_pairwise_cons hapart List.mem_cons_self
  obtain ⟨offset, hstart, hend, _⟩ := hinv₂.blocks_in _ (hblocks₂ ▸ List.mem_cons_self)
  have hround : roundSize (u64 (iobufSize + 512)) = 1544 := by decide
  have hiobuf : Span.Within ⟨u64 (block + 512) &&& (2 ^ 64 - 512), iobufSize⟩
      ⟨block, roundSize (u64 (iobufSize + 512))⟩ := by
    apply iobuf_within
    simp only [hround] at hstart hend
    simp only [pageOffset] at hstart
    omega
  refine ⟨hin, hiobuf, fun s hs a ha hbuf => ?_⟩
  exact hdisjoint a (hiobuf a hbuf) (hin s (List.mem_append_left _ hs) a ha)

/-- Whatever the allocators were asked for before, and as long as `kmalloc`
itself hands out sound blocks, the configuration file is loaded safely exactly
if it fits. -/
theorem loadConfig_safe_iff (bytes : PageMap) (reboot : Option Nat) (top : Nat)
    (calls : List AllocCall) (l : Ledger) (hmap : MapHolds (u64 top)) (file : FileReader)
    (size : Nat) (hsize : size < 2 ^ 63) (c : ConfigLoad)
    (hok : StepsMeet allocStep AllocSound (bootLedger bytes reboot top)
      (calls ++ [.kmalloc (size + 2), .kmalloc (iobufSize + 512)]))
    (hrun : run allocStep (bootLedger bytes reboot top) calls = some l)
    (hload : loadConfig l.mem file size = some c) : c.Safe ↔ ConfigFits file size := by
  obtain ⟨hbefore, hafter⟩ := stepsMeet_append hok hrun
  have hinv : l.Inv := run_invariant (fun _ _ _ => allocStep_inv) (bootLedger_inv bytes reboot hmap)
    hbefore hrun
  exact safe_iff_of_inv hinv (by omega) hafter hload

/-- A file all of whose blocks are delivered. -/
def wholeFile : FileReader where
  status _ := 0
  fill _ _ := fun _ => 0x23

/-- 1024 bytes are loaded safely on a machine that was just started. -/
theorem loadConfig_safe_1024 :
    ∃ c, loadConfig bootSmall.mem wholeFile 1024 = some c ∧ c.Safe := by
  have hloads : (loadConfig bootSmall.mem wholeFile 1024).isSome = true := by
    rw [bootSmall, bootLedger_eq]
    decide +kernel
  obtain ⟨c, hc⟩ := Option.isSome_iff_exists.mp hloads
  refine ⟨c, hc, (loadConfig_safe_iff _ _ _ [] _ (by decide) _ _ (by decide) c ?_ rfl hc).mpr
    (Or.inr (by decide))⟩
  rw [bootLedger_eq]
  decide +kernel

/-- A file of one byte is copied over the buffer that it comes from. -/
theorem one_byte_overruns :
    ∃ c, loadConfig bootSmall.mem wholeFile 1 = some c ∧ ¬ c.Safe ∧
      ∃ s ∈ c.copies, ¬ s.span.Within c.text ∧ ¬ s.span.Disjoint ⟨c.iobuf, iobufSize⟩ := by
  have hview : (loadConfig bootSmall.mem wholeFile 1).map (fun c => (c.text, c.iobuf)) =
      some (⟨pageOffset + 8192, 8⟩, pageOffset + 8704) := by
    rw [bootSmall, bootLedger_eq]
    decide +kernel
  obtain ⟨c, hc, hplaces⟩ := Option.map_eq_some_iff.mp hview
  obtain ⟨htext, hiobuf⟩ := Prod.mk.inj hplaces
  have hcopy := first_copy_mem hc rfl
  rw [htext] at hcopy
  have houtside : ¬ Span.Within ⟨pageOffset + 8192, iobufSize⟩ c.text := by
    rw [htext, Span.within_iff]
    decide
  refine ⟨c, hc, fun hsafe => houtside (hsafe.inText _ (List.mem_append_left _ hcopy)), _, hcopy,
    houtside, ?_⟩
  rw [hiobuf]
  decide

end Milo.Shell
