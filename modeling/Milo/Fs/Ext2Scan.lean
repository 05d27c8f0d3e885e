import Milo.Foundation.GuardedLoop
import Milo.Fs.Ext2Safety

/-! # The loops over a directory

`ext2_namei` and the two passes of `ext2_ls` go through a directory block by block
and through each block entry by entry, by the lengths that the entries hold. The
three copies of the loop differ only in what they do with an entry.
-/

namespace Milo.Fs.Ext2

open Foundation
open Foundation.Guarded

/-- Where a loop is: before a block, or before an entry of one. -/
inductive ScanPlace where
  | block (diroffset : Nat)
  | entry (diroffset blockoffset : Nat)

/-- A copy of the loop. It is left at an entry for which `examine` yields true, and
the directory is left after a block if the loop is done. -/
structure DirScan (σ : Type _) where
  /-- `i_size` of the directory -/
  size : Nat
  blocksize : Nat
  /-- Read the block at an offset of the directory into `blkbuf`. -/
  load : σ → Nat → σ
  /-- `blkbuf` -/
  buf : σ → ByteMemory
  /-- Look at an entry, all but its length. -/
  examine : ByteMemory → Nat → Guarded Bool
  update : σ → Nat → σ
  done : σ → Bool
  buf_update : ∀ s o, buf (update s o) = buf s
  done_load : ∀ s d, done (load s d) = done s
  done_update : ∀ s o, examine (buf s) o = .ok false → done (update s o) = done s

namespace DirScan

section
variable {σ : Type _} (scan : DirScan σ)

/-- The end of a block. -/
def leave (s : σ) (diroffset : Nat) : Guarded ((σ × ScanPlace) ⊕ σ) :=
  if scan.done s then .ok (.inr s)
  else .ok (.inl (s, .block (u32 (diroffset + scan.blocksize))))

def round : σ × ScanPlace → Guarded ((σ × ScanPlace) ⊕ σ)
  | (s, .block diroffset) =>
      if diroffset < scan.size then do
        let _ ← divide diroffset scan.blocksize
        access 0 scan.blocksize maxBlockSize
        .ok (.inl (scan.load s diroffset, .entry diroffset 0))
      else .ok (.inr s)
  | (s, .entry diroffset blockoffset) =>
      if blockoffset < scan.blocksize then do
        let found ← scan.examine (scan.buf s) blockoffset
        if found then scan.leave (scan.update s blockoffset) diroffset
        else do
          access (blockoffset + 4) 2 scan.blocksize
          .ok (.inl (scan.update s blockoffset,
            .entry diroffset (blockoffset + entryRecLen (scan.buf s) blockoffset)))
      else scan.leave s diroffset

/-- The loop over the whole directory ends without a fault. -/
def EndsFrom (s : σ) : Prop := Ends scan.round (s, .block 0)

/-- The block has a size, and `blkbuf` has room for it. -/
def Buffered : Prop := 0 < scan.blocksize ∧ scan.blocksize ≤ maxBlockSize

end

section
variable {σ : Type _} {scan : DirScan σ} {s t : σ} {d o : Nat}

theorem leave_eq (s : σ) (d : Nat) :
    scan.leave s d = .ok (if scan.done s then .inr s
      else .inl (s, .block (u32 (d + scan.blocksize)))) := by
  unfold leave
  split
  · rfl
  · rfl

theorem round_block (hbuf : scan.Buffered) (s : σ) (d : Nat) :
    scan.round (s, .block d) =
      .ok (if d < scan.size then .inl (scan.load s d, .entry d 0) else .inr s) := by
  rw [round]
  split
  · have haccess : access 0 scan.blocksize maxBlockSize = .ok () :=
      access_eq_ok.mpr (.inr (by rw [Nat.zero_add]; exact hbuf.2))
    rw [divide_eq_ok.mpr ⟨Nat.pos_iff_ne_zero.mp hbuf.1, rfl⟩, ok_bind, haccess]
    rfl
  · rfl

theorem round_end (s : σ) (d : Nat) (h : ¬ o < scan.blocksize) :
    scan.round (s, .entry d o) = scan.leave s d := by
  rw [round, if_neg h]

theorem round_found (d : Nat) (ho : o < scan.blocksize)
    (h : scan.examine (scan.buf s) o = .ok true) :
    scan.round (s, .entry d o) = scan.leave (scan.update s o) d := by
  rw [round, if_pos ho, h]
  rfl

theorem round_next (d : Nat) (ho : o < scan.blocksize)
    (h : scan.examine (scan.buf s) o = .ok false) (hin : o + 6 ≤ scan.blocksize) :
    scan.round (s, .entry d o) =
      .ok (.inl (scan.update s o, .entry d (o + entryRecLen (scan.buf s) o))) := by
  have haccess : access (o + 4) 2 scan.blocksize = .ok () := if_pos (.inr (by omega))
  rw [round, if_pos ho, h, ok_bind, haccess]
  rfl

/-- What a round at an entry needs. -/
theorem round_entry_ok {x : (σ × ScanPlace) ⊕ σ} (ho : o < scan.blocksize)
    (h : scan.round (s, .entry d o) = .ok x) :
    ∃ found, scan.examine (scan.buf s) o = .ok found ∧
      (found = false → o + 6 ≤ scan.blocksize) := by
  rw [round, if_pos ho, bind_eq_ok] at h
  obtain ⟨found, hfound, hrest⟩ := h
  refine ⟨found, hfound, ?_⟩
  rintro rfl
  change (access (o + 4) 2 scan.blocksize >>= _) = _ at hrest
  obtain ⟨_, haccess, -⟩ := bind_eq_ok.mp hrest
  have hin := access_eq_ok.mp haccess
  omega

/-! ## What holds on the way -/

/-- The loop stays at an entry that has no length. -/
theorem not_ends_of_stuck (hfound : scan.examine (scan.buf s) o = .ok false)
    (ho : o < scan.blocksize) (hin : o + 6 ≤ scan.blocksize)
    (hzero : entryRecLen (scan.buf s) o = 0) : ¬ Ends scan.round (s, .entry d o) := by
  have hstart : ∃ t, ((s, .entry d o) : σ × ScanPlace) = (t, .entry d o) ∧
      scan.buf t = scan.buf s := ⟨s, rfl, rfl⟩
  refine not_ends_of_forever
    (P := fun x => ∃ t, x = (t, ScanPlace.entry d o) ∧ scan.buf t = scan.buf s) hstart ?_
  rintro _ ⟨t, rfl, hbuf⟩
  rw [← hbuf] at hfound hzero
  refine ⟨_, round_next d ho hfound hin, scan.update t o, ?_, (scan.buf_update t o).trans hbuf⟩
  rw [hzero, Nat.add_zero]

/-- What is left of the directory, and of the block. -/
def left (scan : DirScan σ) : σ × ScanPlace → Nat
  | (_, .block d) => (scan.size - d) * (scan.blocksize + 2)
  | (_, .entry d o) => (scan.size - d) * (scan.blocksize + 2) - 1 - min o scan.blocksize

end

end DirScan

/-! ## The three copies -/

/-- The block of a directory that an offset lies in; both are `int`s. -/
def dirBlock (diroffset blocksize : Nat) : Nat :=
  ((s32 diroffset).tdiv blocksize % 2 ^ 32).toNat

/-- The bytes of a name that `strncmp` looks at. -/
def compared (buf : ByteMemory) : Nat → List UInt8 → Nat
  | _, [] => 0
  | a, c :: cs => if buf a = c then compared buf (a + 1) cs + 1 else 1

/-- The bytes of a name that `strncpy` looks at. -/
def copied (buf : ByteMemory) : Nat → Nat → Nat
  | _, 0 => 0
  | a, n + 1 => if buf a = 0 then 1 else copied buf (a + 1) n + 1

def nameiExamine (component : List UInt8) (blocksize : Nat) (buf : ByteMemory) (o : Nat) :
    Guarded Bool := do
  access (o + 6) 1 blocksize
  if entryNameLen buf o = component.length then
    access (o + 8) (compared buf (o + 8) component) blocksize
    if entryMatches buf o component then
      access o 4 blocksize
      .ok true
    else .ok false
  else .ok false

theorem nameiExamine_eq_ok {component : List UInt8} {blocksize o : Nat} {buf : ByteMemory}
    {found : Bool} :
    nameiExamine component blocksize buf o = .ok found ↔
      o + 7 ≤ blocksize ∧
        (entryNameLen buf o = component.length → compared buf (o + 8) component = 0 ∨
          o + 8 + compared buf (o + 8) component ≤ blocksize) ∧
        found = entryMatches buf o component := by
  unfold nameiExamine
  rw [bind_eq_ok]
  by_cases hlen : entryNameLen buf o = component.length
  · rw [if_pos hlen]
    simp only [bind_eq_ok, access_eq_ok]
    cases hmatch : entryMatches buf o component with
    | true =>
        rw [if_pos rfl]
        simp only [bind_eq_ok, access_eq_ok, Except.ok.injEq]
        constructor
        · rintro ⟨-, hheader, -, hname, -, -, rfl⟩
          exact ⟨by omega, fun _ => hname, rfl⟩
        · rintro ⟨hheader, hname, rfl⟩
          exact ⟨(), .inr (by omega), (), hname hlen, (), .inr (by omega), rfl⟩
    | false =>
        rw [if_neg Bool.false_ne_true]
        simp only [Except.ok.injEq]
        constructor
        · rintro ⟨-, hheader, -, hname, rfl⟩
          exact ⟨by omega, fun _ => hname, rfl⟩
        · rintro ⟨hheader, hname, rfl⟩
          exact ⟨(), .inr (by omega), (), hname hlen, rfl⟩
  · have hother : entryMatches buf o component = false := by simp [entryMatches, hlen]
    rw [if_neg hlen, hother]
    simp only [access_eq_ok, Except.ok.injEq]
    constructor
    · rintro ⟨-, hheader, rfl⟩
      exact ⟨by omega, fun h => absurd h hlen, rfl⟩
    · rintro ⟨hheader, -, rfl⟩
      exact ⟨(), .inr (by omega), rfl⟩

/-- What `ext2_namei` does with an entry: `next_ino` is set where it is left. -/
def nameiUpdate (component : List UInt8) (s : Reader × Int) (o : Nat) : Reader × Int :=
  if entryMatches s.1.blkbuf o component then (s.1, entryInode s.1.blkbuf o) else s

section
variable (r : Reader) (dir : Nat)

/-- The loop of `ext2_namei` over the directory in a slot, for one component. -/
def nameiScan (component : List UInt8) : DirScan (Reader × Int) where
  size := (r.inode dir).size
  blocksize := r.vol.blocksize
  load s d := (readBlkbuf s.1 dir (dirBlock d r.vol.blocksize), s.2)
  buf s := s.1.blkbuf
  examine := nameiExamine component r.vol.blocksize
  update := nameiUpdate component
  done s := decide (0 ≤ s.2)
  buf_update s o := by
    unfold nameiUpdate
    split
    · rfl
    · rfl
  done_load _ _ := rfl
  done_update s o h := by
    have hmatch := (nameiExamine_eq_ok.mp h).2.2
    rw [nameiUpdate, ← hmatch]
    rfl

end

/-! ## The search of a directory -/

section
variable {r : Reader} {dir : Nat} {component : List UInt8} {s : Reader × Int} {d o : Nat}

/-- The variables of `ext2_namei` after a scan of a block. -/
def scanned (s : Reader × Int) : Option Int → Reader × Int
  | some ino => (s.1, ino)
  | none => s

/-- A loop that ends leaves a block where the scan of the lookup does. -/
theorem scanBlock_of_ends {n : Nat}
    (h : Ends (nameiScan r dir component).round (s, .entry d o)) (hn : r.vol.blocksize - o < n) :
    ∃ found, scanBlock s.1.blkbuf r.vol.blocksize component n o = some found ∧
      ∃ x, Reaches (nameiScan r dir component).round (s, .entry d o) x ∧
        (nameiScan r dir component).round x = (nameiScan r dir component).leave (scanned s found) d := by
  induction n generalizing o with
  | zero => exact absurd hn (Nat.not_lt_zero _)
  | succ n ih =>
      rw [scanBlock]
      by_cases ho : o < r.vol.blocksize
      · rw [if_pos ho]
        obtain ⟨x, hx⟩ := h.round_ok
        obtain ⟨found, hfound, hin⟩ := DirScan.round_entry_ok ho hx
        have hmatch : found = entryMatches s.1.blkbuf o component :=
          (nameiExamine_eq_ok.mp hfound).2.2
        cases hfind : entryMatches s.1.blkbuf o component with
        | true =>
            rw [hfind] at hmatch
            subst hmatch
            have hround := DirScan.round_found d ho hfound
            refine ⟨some (entryInode s.1.blkbuf o), if_pos rfl, _, .refl, hround.trans ?_⟩
            have hupdate : (nameiScan r dir component).update s o =
                (s.1, entryInode s.1.blkbuf o) := if_pos hfind
            rw [hupdate]
            rfl
        | false =>
            rw [hfind] at hmatch
            subst hmatch
            have hround := DirScan.round_next d ho hfound (hin rfl)
            have hupdate : (nameiScan r dir component).update s o = s :=
              if_neg (by rw [hfind]; exact Bool.false_ne_true)
            have hlength : entryRecLen s.1.blkbuf o ≠ 0 := fun hzero =>
              DirScan.not_ends_of_stuck hfound ho (hin rfl) hzero h
            rw [hupdate] at hround
            obtain ⟨found, hscan, x, hreach, hleave⟩ := ih (h.of_next hround) (by
              change r.vol.blocksize - (o + entryRecLen s.1.blkbuf o) < n
              omega)
            exact ⟨found, hscan, x, hreach.head hround, hleave⟩
      · rw [if_neg ho]
        exact ⟨none, rfl, _, .refl, DirScan.round_end s d ho⟩

/-- What `ext2_namei` looks up next. -/
def foundInode (s : Reader × Int) : Option Nat × Reader :=
  (if 0 ≤ s.2 then some s.2.toNat else none, s.1)

theorem dirBlock_mul {blk blocksize : Nat} (hpos : 0 < blocksize)
    (hlt : blk * blocksize < 2 ^ 31) : dirBlock (blk * blocksize) blocksize = blk := by
  have hle : blk * 1 ≤ blk * blocksize := Nat.mul_le_mul_left blk hpos
  rw [dirBlock, s32_of_lt hlt, ← Int.ofNat_tdiv, Nat.mul_div_cancel _ hpos]
  omega

/-- How many blocks are left after the next one. -/
theorem blocks_after {left blocksize n : Nat} (hpos : 0 < blocksize) (hleft : 0 < left)
    (h : n + 1 = (left + blocksize - 1) / blocksize) :
    n = (left - blocksize + blocksize - 1) / blocksize := by
  rw [show left + blocksize - 1 = left - 1 + blocksize by omega, Nat.add_div_right _ hpos] at h
  rw [Nat.succ.inj h]
  by_cases hlast : left < blocksize
  · rw [Nat.div_eq_of_lt (by omega), Nat.div_eq_of_lt (by omega)]
  · congr 1
    omega

theorem nameiScan_round_block {blk : Nat} (hbuf : (nameiScan r dir component).Buffered)
    (hsize : (r.inode dir).size ≤ 2 ^ 31)
    (hstart : blk * r.vol.blocksize < (r.inode dir).size) (s : Reader × Int) :
    (nameiScan r dir component).round (s, .block (blk * r.vol.blocksize)) =
      .ok (.inl ((readBlkbuf s.1 dir blk, s.2), .entry (blk * r.vol.blocksize) 0)) := by
  have hload : (nameiScan r dir component).load s (blk * r.vol.blocksize) =
      (readBlkbuf s.1 dir (dirBlock (blk * r.vol.blocksize) r.vol.blocksize), s.2) := rfl
  have hpos : 0 < r.vol.blocksize := hbuf.1
  rw [dirBlock_mul hpos (by omega)] at hload
  rw [DirScan.round_block hbuf, ← hload]
  exact congrArg _ (if_pos hstart)

/-- The next block is scanned as long as no inode is found. -/
theorem nameiScan_leave_next {blk : Nat} (hbuf : (nameiScan r dir component).Buffered)
    (hsize : (r.inode dir).size ≤ 2 ^ 31)
    (hstart : blk * r.vol.blocksize < (r.inode dir).size) (hneg : s.2 < 0) :
    (nameiScan r dir component).leave s (blk * r.vol.blocksize) =
      .ok (.inl (s, .block ((blk + 1) * r.vol.blocksize))) := by
  have hdone : ¬ (nameiScan r dir component).done s = true := by
    change ¬ decide (0 ≤ s.2) = true
    simpa using hneg
  have hfits : r.vol.blocksize ≤ 4096 := hbuf.2
  have hu32 : u32 (blk * r.vol.blocksize + r.vol.blocksize) = (blk + 1) * r.vol.blocksize := by
    rw [Nat.add_mul, Nat.one_mul]
    exact u32_of_lt (by omega)
  rw [DirScan.leave_eq, if_neg hdone, ← hu32]
  rfl

theorem nameiScan_leave_found (r' : Reader) (ino d : Nat) :
    (nameiScan r dir component).leave (r', (ino : Int)) d = .ok (.inr (r', (ino : Int))) := by
  have hdone : (nameiScan r dir component).done (r', (ino : Int)) = true :=
    decide_eq_true (Int.natCast_nonneg ino)
  rw [DirScan.leave_eq, if_pos hdone]

/-- A loop that ends does what the scans of the lookup do. -/
theorem scanBlocks_of_ends {blk n : Nat} (hbuf : (nameiScan r dir component).Buffered)
    (hsize : (r.inode dir).size ≤ 2 ^ 31)
    (h : Ends (nameiScan r dir component).round (s, .block (blk * r.vol.blocksize)))
    (hvol : s.1.vol = r.vol) (hnone : s.2 < 0)
    (hn : n = ((r.inode dir).size - blk * r.vol.blocksize + r.vol.blocksize - 1) / r.vol.blocksize) :
    ∃ t, Yields (nameiScan r dir component).round (s, .block (blk * r.vol.blocksize)) t ∧
      scanBlocks s.1 dir component blk n = some (foundInode t) := by
  have hpos : 0 < r.vol.blocksize := hbuf.1
  induction n generalizing s blk with
  | zero =>
      have hend : ¬ blk * r.vol.blocksize < (r.inode dir).size := by
        have hfew := (Nat.div_eq_zero_iff.mp hn.symm).resolve_left (by omega)
        omega
      refine ⟨s, ⟨_, .refl, ?_⟩, ?_⟩
      · rw [DirScan.round_block hbuf]
        exact congrArg _ (if_neg hend)
      · rw [scanBlocks, foundInode, if_neg (by omega)]
  | succ n ih =>
      have hstart : blk * r.vol.blocksize < (r.inode dir).size := by
        by_contra hend
        rw [Nat.div_eq_of_lt (by omega)] at hn
        cases hn
      have hrest : n = ((r.inode dir).size - (blk + 1) * r.vol.blocksize + r.vol.blocksize - 1) /
          r.vol.blocksize := by
        rw [Nat.add_mul, Nat.one_mul, ← Nat.sub_sub]
        exact blocks_after hpos (by omega) hn
      have hround := nameiScan_round_block hbuf hsize hstart s
      obtain ⟨found, hscan, x, hreach, hleave⟩ :=
        scanBlock_of_ends (n := r.vol.blocksize + 1) (h.of_next hround) (by omega)
      have hvol' : (readBlkbuf s.1 dir blk).vol = r.vol := hvol
      have hthere := hreach.head hround
      -- without an inode the scan goes on in the next block
      have hgoes : (scanned (readBlkbuf s.1 dir blk, s.2) found).2 < 0 →
          ∃ t, Yields (nameiScan r dir component).round (s, .block (blk * r.vol.blocksize)) t ∧
            scanBlocks (readBlkbuf s.1 dir blk) dir component (blk + 1) n = some (foundInode t) := by
        intro hneg
        have hnext := hleave.trans (nameiScan_leave_next hbuf hsize hstart hneg)
        have hkept : (scanned (readBlkbuf s.1 dir blk, s.2) found).1 = readBlkbuf s.1 dir blk := by
          cases found <;> rfl
        obtain ⟨t, hyields, hblocks⟩ := ih ((h.of_reaches hthere).of_next hnext)
          (by rw [hkept]; exact hvol') hneg hrest
        rw [hkept] at hblocks
        exact ⟨t, (hthere.step hnext).yields hyields, hblocks⟩
      rw [scanBlocks]
      simp only [hvol', hscan]
      cases found with
      | none => exact hgoes hnone
      | some ino =>
          cases ino with
          | ofNat ino => exact ⟨_, ⟨x, hthere, hleave.trans (nameiScan_leave_found _ ino _)⟩, rfl⟩
          | negSucc ino => exact hgoes (Int.negSucc_lt_zero ino)

/-- A search of a directory that ends safely yields what the lookup yields. -/
theorem searchDir_of_ends (hbuf : (nameiScan r dir component).Buffered)
    (hsize : (r.inode dir).size ≤ 2 ^ 31)
    (h : (nameiScan r dir component).EndsFrom (r, -1)) :
    ∃ t, Yields (nameiScan r dir component).round ((r, -1), .block 0) t ∧
      searchDir r dir component = some (foundInode t) := by
  have hpos : 0 < r.vol.blocksize := hbuf.1
  unfold DirScan.EndsFrom at h
  rw [← Nat.zero_mul r.vol.blocksize] at h ⊢
  rw [searchDir, if_neg (by omega)]
  exact scanBlocks_of_ends hbuf hsize h rfl (show (-1 : Int) < 0 by decide)
    (by rw [dirBlocks, Nat.zero_mul, Nat.sub_zero])

end

/-! ## The directories that are scanned safely -/

section
variable {r : Reader} {dir : Nat} {component : List UInt8} {buf : ByteMemory} {o : Nat}

end

/-! ## Two root directories -/

end Milo.Fs.Ext2
