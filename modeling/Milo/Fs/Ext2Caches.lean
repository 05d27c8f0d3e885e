import Milo.Foundation.Transition
import Milo.Fs.Ext2Lookup

/-! # The cached indirect blocks

`iblkbuf` and `diblkbuf` are kept over all files, and over mounts. A cached
block is one of the volume that is mounted as long as a mount finds the same
blocks on its device, and as long as no read of an indirect block stops half-way.
-/

namespace Milo.Fs.Ext2

open Foundation

/-! ## One block -/

/-- The buffer holds the block whose number it carries, if it carries one. -/
def BlockCache.Holds (contents : ByteMemory) (blocksize : Nat) (cache : BlockCache) : Prop :=
  cache.blkno ≠ noBlock → ∀ j < blocksize, cache.buf j = contents (cache.blkno * blocksize + j)

/-- The block is there already, nothing is cached yet, or the read delivers the
whole block or none of it. -/
def BlockCache.LoadSound (device : Device) (blocksize : Nat) (cache : BlockCache)
    (blkno : Nat) : Prop :=
  cache.blkno = blkno ∨ cache.blkno = noBlock ∨
    device.count (u64 (blkno * blocksize)) blocksize = blocksize ∨
    device.count (u64 (blkno * blocksize)) blocksize = 0

instance (device : Device) (blocksize : Nat) (cache : BlockCache) (blkno : Nat) :
    Decidable (cache.LoadSound device blocksize blkno) :=
  inferInstanceAs (Decidable (_ ∨ _ ∨ _ ∨ _))

theorem BlockCache.load_holds (device : Device) {blocksize blkno : Nat} {cache : BlockCache}
    (h : cache.Holds device.contents blocksize) (hsound : cache.LoadSound device blocksize blkno)
    (hfits : blkno * blocksize < 2 ^ 64) :
    (cache.load device blocksize blkno).2.Holds device.contents blocksize := by
  unfold BlockCache.load deviceRead
  simp only
  unfold BlockCache.LoadSound at hsound
  rw [u64_of_lt hfits] at hsound ⊢
  split
  · rename_i hother
    split
    · -- A failed read: the number stays, and so does the buffer unless there was no number.
      rename_i hfailed
      intro hset j hj
      rcases hsound with hsame | hunset | hwhole | hnone
      · exact absurd hsame hother
      · exact absurd hunset hset
      · exact absurd hwhole hfailed
      · simp only [hnone]
        rw [fill_outside (by simp)]
        exact h hset j hj
    · rename_i hwhole
      intro _ j hj
      have hread := @fill_inside cache.buf 0 blocksize j
        (fun i => device.contents (blkno * blocksize + i)) hj
      rw [Nat.zero_add] at hread
      rw [Classical.not_not.mp hwhole]
      exact hread
  · exact h

/-! ## Both blocks -/

/-- Both buffers hold blocks of the device. -/
structure Caches.Coherent (contents : ByteMemory) (blocksize : Nat) (caches : Caches) : Prop where
  ind : caches.ind.Holds contents blocksize
  dind : caches.dind.Holds contents blocksize

/-- The loads of one mapping are sound. -/
def singleSound (device : Device) (vol : Volume) (caches : Caches) (iblkno : Nat) : Prop :=
  iblkno = 0 ∨ caches.ind.LoadSound device vol.blocksize iblkno

def blknoSound (drive : Drive) (t : Nat) (vol : Volume) (caches : Caches) (ip : Inode)
    (blkoff : Int) : Prop :=
  if blkoff ≤ vol.directlim then True
  else if blkoff ≤ vol.ind1lim then singleSound (drive.device t) vol caches (ip.block 12)
  else if blkoff ≤ vol.ind2lim then
    ip.block 13 = 0 ∨
      caches.dind.LoadSound (drive.device t) vol.blocksize (ip.block 13) ∧
        ((caches.dind.load (drive.device t) vol.blocksize (ip.block 13)).1 = true →
          singleSound (drive.device (t + 1)) vol caches
            ((caches.dind.load (drive.device t) vol.blocksize (ip.block 13)).2.entry
              ((blkoff - (vol.ind1lim + 1)).toNat / vol.ptrsPerBlk)))
  else True

theorem blockNumber_fits {blocksize n : Nat} (hsize : blocksize ≤ maxBlockSize)
    (hn : n < 256 ^ 4) : n * blocksize < 2 ^ 64 := by
  have hle : n * blocksize ≤ 256 ^ 4 * 4096 := Nat.mul_le_mul (Nat.le_of_lt hn) hsize
  omega

theorem singleIndirect_coherent (device : Device) {vol : Volume} {caches : Caches}
    {iblkno : Nat} (index : Nat) (hsize : vol.blocksize ≤ maxBlockSize) (hblk : iblkno < 256 ^ 4)
    (h : caches.Coherent device.contents vol.blocksize)
    (hsound : singleSound device vol caches iblkno) :
    (singleIndirect device vol caches iblkno index).2.Coherent device.contents vol.blocksize := by
  unfold singleIndirect
  split
  · exact h
  · rename_i hne
    have hload := BlockCache.load_holds device h.ind (hsound.resolve_left hne) (blockNumber_fits hsize hblk)
    simp only
    split
    · exact ⟨hload, h.dind⟩
    · exact ⟨hload, h.dind⟩

theorem ext2Blkno_coherent {drive : Drive} {t : Nat} {vol : Volume} {caches : Caches} {ip : Inode}
    {blkoff : Int} (hsize : vol.blocksize ≤ maxBlockSize)
    (h : caches.Coherent drive.contents vol.blocksize)
    (hsound : blknoSound drive t vol caches ip blkoff) :
    (ext2Blkno drive t vol caches ip blkoff).2.Coherent drive.contents vol.blocksize := by
  unfold ext2Blkno
  unfold blknoSound at hsound
  split
  · exact h
  · rename_i hdirect
    rw [if_neg hdirect] at hsound
    split
    · rename_i hsingle
      rw [if_pos hsingle] at hsound
      exact singleIndirect_coherent (drive.device t) _ hsize (readLe_lt _ _ _) h hsound
    · rename_i hsingle
      rw [if_neg hsingle] at hsound
      split
      · rename_i hdouble
        rw [if_pos hdouble] at hsound
        simp only
        split
        · exact h
        · rename_i hne
          have hsound := hsound.resolve_left hne
          have hload := BlockCache.load_holds (drive.device t) h.dind hsound.1
            (blockNumber_fits hsize (readLe_lt _ _ _))
          have hnext : Caches.Coherent drive.contents vol.blocksize
              { caches with dind := (caches.dind.load (drive.device t) vol.blocksize (ip.block 13)).2 } :=
            ⟨h.ind, hload⟩
          split
          · rename_i hok
            exact singleIndirect_coherent (drive.device (t + 1)) _ hsize (readLe_lt _ _ _)
              hnext (hsound.2 hok)
          · exact hnext
      · exact h

/-! ## Mounts and block mappings -/

/-- The variables that outlive a mount, with the device and the volume of the
last mount that succeeded. -/
structure CacheState where
  mounted : Bool
  drive : Drive
  vol : Volume
  caches : Caches

/-- What happens to the cached blocks: a mount, or the mapping of a block of
some inode, which is how every lookup and every read of a file reaches them. -/
inductive CacheCall where
  | mount (drive : Drive) (t : Nat)
  | blkno (t : Nat) (ip : Inode) (blkoff : Int)

/-- After a mount that failed no file is opened or read. -/
def cacheStep (s : CacheState) : CacheCall → Option CacheState
  | .mount drive t =>
      match ext2Mount drive t with
      | some vol => some { s with mounted := true, drive := drive, vol := vol }
      | none => some { s with mounted := false }
  | .blkno t ip blkoff =>
      if s.mounted then some { s with caches := (ext2Blkno s.drive t s.vol s.caches ip blkoff).2 }
      else none

/-- Two volumes have the same block size and the same bytes in the block that
is cached, if one is. -/
def SameBlock (old : ByteMemory) (oldsize : Nat) (new : ByteMemory) (newsize : Nat)
    (cache : BlockCache) : Prop :=
  cache.blkno = noBlock ∨
    newsize = oldsize ∧
      ∀ j < newsize, new (cache.blkno * newsize + j) = old (cache.blkno * newsize + j)

/-- A mount finds the cached blocks on its device, and a mapping reads whole
blocks, which fit the buffers. -/
def CacheSound (s : CacheState) : CacheCall → Prop
  | .mount drive t =>
      ∀ vol, ext2Mount drive t = some vol →
        SameBlock s.drive.contents s.vol.blocksize drive.contents vol.blocksize s.caches.ind ∧
        SameBlock s.drive.contents s.vol.blocksize drive.contents vol.blocksize s.caches.dind
  | .blkno t ip blkoff =>
      s.vol.blocksize ≤ maxBlockSize ∧ blknoSound s.drive t s.vol s.caches ip blkoff

/-- The cached blocks are blocks of the volume. -/
def CacheState.Coherent (s : CacheState) : Prop :=
  s.caches.Coherent s.drive.contents s.vol.blocksize

theorem BlockCache.Holds.remount {old new : ByteMemory} {oldsize newsize : Nat} {cache : BlockCache}
    (h : cache.Holds old oldsize) (hsame : SameBlock old oldsize new newsize cache) :
    cache.Holds new newsize := by
  intro hset j hj
  obtain ⟨rfl, hbytes⟩ := hsame.resolve_left hset
  rw [hbytes j hj]
  exact h hset j hj

theorem cacheStep_coherent {s s' : CacheState} {call : CacheCall} (h : s.Coherent)
    (hsound : CacheSound s call) (hstep : cacheStep s call = some s') : s'.Coherent := by
  unfold cacheStep at hstep
  cases call with
  | mount drive t =>
      cases hmount : ext2Mount drive t with
      | none =>
          simp only [hmount, Option.some.injEq] at hstep
          subst hstep
          exact h
      | some vol =>
          simp only [hmount, Option.some.injEq] at hstep
          subst hstep
          have hsame := hsound vol hmount
          exact ⟨h.ind.remount hsame.1, h.dind.remount hsame.2⟩
  | blkno t ip blkoff =>
      simp only at hstep
      split at hstep
      · obtain rfl := Option.some.inj hstep
        exact ext2Blkno_coherent hsound.1 h hsound.2
      · cases hstep

/-- The state before the first mount: the two numbers are -1. -/
def coldCaches (drive : Drive) (vol : Volume) (ibuf dibuf : ByteMemory) : CacheState where
  mounted := false
  drive := drive
  vol := vol
  caches := ⟨⟨noBlock, ibuf⟩, ⟨noBlock, dibuf⟩⟩

/-- In every run whose steps are sound the cached blocks are those of the
mounted volume. -/
theorem cache_run_coherent (drive : Drive) (vol : Volume) (ibuf dibuf : ByteMemory)
    (calls : List CacheCall) (s : CacheState)
    (hok : StepsMeet cacheStep CacheSound (coldCaches drive vol ibuf dibuf) calls)
    (hrun : run cacheStep (coldCaches drive vol ibuf dibuf) calls = some s) : s.Coherent := by
  have hcold : (coldCaches drive vol ibuf dibuf).Coherent :=
    ⟨fun hset => absurd rfl hset, fun hset => absurd rfl hset⟩
  exact run_invariant (fun _ _ _ => cacheStep_coherent) hcold hok hrun

/-! ## Lookups and reads

Whatever a lookup does to the cached blocks it does by mapping blocks.
-/

def Reader.cacheState (r : Reader) : CacheState where
  mounted := true
  drive := r.drive
  vol := r.vol
  caches := r.caches

/-- The second reader has the volume of the first and the caches that some
mappings lead to. -/
def Maps (r r' : Reader) : Prop :=
  ∃ calls : List (Nat × Inode × Int),
    run cacheStep r.cacheState (calls.map fun c => .blkno c.1 c.2.1 c.2.2) = some r'.cacheState

theorem Maps.of_eq {r r' : Reader} (h : r'.cacheState = r.cacheState) : Maps r r' :=
  ⟨[], by rw [h]; rfl⟩

theorem Maps.trans {r s t : Reader} (h : Maps r s) (h' : Maps s t) : Maps r t := by
  obtain ⟨calls, hrun⟩ := h
  obtain ⟨calls', hrun'⟩ := h'
  refine ⟨calls ++ calls', ?_⟩
  rw [List.map_append, run_append]
  exact ⟨_, hrun, hrun'⟩

theorem readBlkbuf_maps (r : Reader) (i blk : Nat) : Maps r (readBlkbuf r i blk) := by
  refine ⟨[(r.t, r.inode i, s32 blk)], ?_⟩
  have hcaches : (readBlkbuf r i blk).caches =
      (ext2Blkno r.drive r.t r.vol r.caches (r.inode i) (s32 blk)).2 := by
    unfold readBlkbuf ext2Breadi
    simp only
    split <;> rfl
  unfold Reader.cacheState
  rw [hcaches]
  rfl

theorem ext2Iget_cacheState (r : Reader) (ino : Nat) :
    (ext2Iget r ino).2.cacheState = r.cacheState := by
  unfold ext2Iget
  split <;> rfl

theorem cacheState_blkbuf (r : Reader) (buf : ByteMemory) :
    ({ r with blkbuf := buf } : Reader).cacheState = r.cacheState := rfl

theorem ext2Iput_cacheState (r : Reader) (i : Nat) :
    (ext2Iput r i).cacheState = r.cacheState := rfl

theorem putIfAny_cacheState (r : Reader) (i : Option Nat) :
    (putIfAny r i).cacheState = r.cacheState := by
  cases i <;> rfl

theorem scanBlocks_maps {r r' : Reader} {dir blk n : Nat} {component : List UInt8}
    {found : Option Nat} (h : scanBlocks r dir component blk n = some (found, r')) : Maps r r' := by
  induction n generalizing r blk with
  | zero =>
      obtain ⟨_, rfl⟩ := Prod.mk.inj (Option.some.inj h)
      exact Maps.of_eq rfl
  | succ n ih =>
      unfold scanBlocks at h
      simp only at h
      split at h
      · cases h
      · obtain ⟨_, rfl⟩ := Prod.mk.inj (Option.some.inj h)
        exact readBlkbuf_maps r dir blk
      · exact (readBlkbuf_maps r dir blk).trans (ih h)

theorem searchDir_maps {r r' : Reader} {dir : Nat} {component : List UInt8} {found : Option Nat}
    (h : searchDir r dir component = some (found, r')) : Maps r r' := by
  unfold searchDir at h
  split at h
  · cases h
  · exact scanBlocks_maps h

/-- The call has got here from the reader by mappings. -/
def Progress.From (r : Reader) : Progress → Prop
  | running _ r' => Maps r r'
  | returned _ r' => Maps r r'
  | undefined => True

theorem rel_from {r r' : Reader} (h : Maps r r') (dir file : Option Nat) (path : List UInt8)
    (links : Nat) : (rel r' dir file path links).From r := by
  unfold rel
  split <;> exact h

theorem abs_from {r r' : Reader} (h : Maps r r') (dir : Option Nat) (path : List UInt8)
    (links : Nat) : (abs r' dir path links).From r :=
  rel_from (h.trans (Maps.of_eq (ext2Iget_cacheState r' rootIno))) _ _ _ _

theorem descend_from (r : Reader) (w : Walk) (file : Nat) (component : List UInt8)
    (rest : List (List UInt8)) : (descend r w file component rest).From r := by
  have hput : Maps r (putIfAny r w.dir) := Maps.of_eq (putIfAny_cacheState r w.dir)
  unfold descend
  simp only
  split
  · exact hput.trans (Maps.of_eq rfl)
  · split
    · trivial
    · rename_i hsearch
      exact (hput.trans (searchDir_maps hsearch)).trans (Maps.of_eq rfl)
    · rename_i hsearch
      exact (hput.trans (searchDir_maps hsearch)).trans (Maps.of_eq (ext2Iget_cacheState _ _))

theorem loadLink_maps (r : Reader) (file : Nat) : Maps r (loadLink r file).1 := by
  unfold loadLink
  split
  · exact readBlkbuf_maps r file 0
  · exact Maps.of_eq rfl

theorem followOnWay_from (r : Reader) (w : Walk) (file : Nat) (todo : List (List UInt8)) :
    (followOnWay r w file todo).From r := by
  have hload := loadLink_maps r file
  unfold followOnWay
  simp only
  split
  · trivial
  · split
    · refine abs_from (hload.trans (Maps.of_eq ?_)) _ _ _
      rw [ext2Iput_cacheState, putIfAny_cacheState, cacheState_blkbuf]
    · refine rel_from (hload.trans (Maps.of_eq ?_)) _ _ _ _
      rw [ext2Iput_cacheState, cacheState_blkbuf]

theorem loadLastLink_maps {r r' : Reader} {w : Walk} {file : Nat} {text : List UInt8}
    (h : loadLastLink r w file = some (r', text)) : Maps r r' := by
  unfold loadLastLink at h
  split at h
  · obtain ⟨dir, _, hread⟩ := Option.map_eq_some_iff.mp h
    obtain ⟨rfl, _⟩ := Prod.mk.inj hread
    exact readBlkbuf_maps r dir 0
  · obtain ⟨rfl, _⟩ := Prod.mk.inj (Option.some.inj h)
    exact Maps.of_eq rfl

theorem followLast_from (r : Reader) (w : Walk) (file : Nat) : (followLast r w file).From r := by
  unfold followLast
  split
  · trivial
  · rename_i hload
    have hmaps := loadLastLink_maps hload
    split
    · trivial
    · simp only
      split
      · split
        · trivial
        · refine abs_from (hmaps.trans (Maps.of_eq ?_)) _ _ _
          rfl
      · refine rel_from (hmaps.trans (Maps.of_eq ?_)) _ _ _ _
        rfl

theorem walkStep_from (w : Walk) (r : Reader) : (walkStep w r).From r := by
  have hput : Maps r (putIfAny r w.dir) := Maps.of_eq (putIfAny_cacheState r w.dir)
  unfold walkStep
  split
  · trivial
  · exact hput
  · split
    · split
      · exact descend_from r { w with links := w.links + 1 } _ _ _
      · exact followOnWay_from r w _ _
    · exact descend_from r w _ _ _
  · split
    · split
      · exact hput
      · exact followLast_from r w _
    · exact hput

theorem walkFrom_from {r : Reader} {p : Progress} (n : Nat) (h : p.From r) :
    (walkFrom n p).From r := by
  induction n generalizing p with
  | zero => exact h
  | succ n ih =>
      cases p with
      | running w r' =>
          apply ih
          have hstep := walkStep_from w r'
          cases hp : walkStep w r' with
          | running w₂ r₂ => exact h.trans (hp ▸ hstep : Progress.From r' (.running w₂ r₂))
          | returned result r₂ =>
              exact h.trans (hp ▸ hstep : Progress.From r' (.returned result r₂))
          | undefined => trivial
      | returned result r' => exact h
      | undefined => exact h

/-- A lookup reaches the cached blocks by mappings alone. -/
theorem ext2Namei_from (r : Reader) (name : List UInt8) : (ext2Namei r name).From r := by
  apply walkFrom_from
  unfold startWalk
  split
  · trivial
  · exact abs_from (Maps.of_eq rfl) none name 0

/-! ## Two volumes -/

/-- A volume of 64 blocks of 1 Kb, whose block 20 starts with a given byte. -/
def volumeWith (first : UInt8) : Drive :=
  (Device.sound (image
    [(1028, 64), (1044, 1), (1056, 64), (1064, 8), (1080, 0x53), (1081, 0xef), (2056, 5),
      (20480, first)])).drive

/-- The geometry of these volumes. -/
def smallVolume : Volume := volumeOf ⟨64, 1, 0, 64, 8, 0xef53⟩ [5]

theorem volumeWith_mounted :
    ext2Mount (volumeWith 1) 0 = some smallVolume ∧
      ext2Mount (volumeWith 2) 0 = some smallVolume := by
  decide +kernel

/-- An inode whose indirect block is block 20. -/
def indirectInode : Inode := image [(88, 20)]

/-- No block is cached. -/
def coldStart : CacheState := coldCaches (volumeWith 0) smallVolume (fun _ => 0) (fun _ => 0)

/-- The state after the block behind the direct ones was mapped on this volume. -/
def mappedState (drive : Drive) : CacheState :=
  { mounted := true
    drive := drive
    vol := smallVolume
    caches :=
      (ext2Blkno (volumeWith 1) 2 smallVolume coldStart.caches indirectInode 12).2 }

theorem mapped_run (drive : Drive) (hmount : ext2Mount drive 0 = some smallVolume) :
    run cacheStep coldStart
      [.mount (volumeWith 1) 0, .blkno 2 indirectInode 12, .mount drive 0] =
        some (mappedState drive) := by
  simp only [run, cacheStep, volumeWith_mounted.1, hmount, Option.bind_some, if_true]
  rfl

/-- Mounting the same volume again keeps the cached block right. -/
theorem cache_run_coherent_remount : (mappedState (volumeWith 1)).Coherent := by
  refine cache_run_coherent (volumeWith 0) smallVolume (fun _ => 0) (fun _ => 0) _ _ ?_
    (mapped_run (volumeWith 1) volumeWith_mounted.1)
  refine ⟨fun vol _ => ⟨Or.inl rfl, Or.inl rfl⟩, ?_⟩
  intro s hs
  simp only [cacheStep, volumeWith_mounted.1, Option.some.injEq] at hs
  subst hs
  refine ⟨⟨by decide, by unfold blknoSound singleSound; decide +kernel⟩, ?_⟩
  intro s hs
  obtain rfl := Option.some.inj hs
  refine ⟨?_, fun _ _ => trivial⟩
  intro vol hvol
  obtain rfl := Option.some.inj (hvol.symm.trans volumeWith_mounted.1)
  exact ⟨Or.inr ⟨rfl, fun _ _ => rfl⟩, Or.inr ⟨rfl, fun _ _ => rfl⟩⟩

/-- After another volume is mounted the buffer still holds the block of the
first one, under a number that the reader takes for a block of the second. -/
theorem remount_stale :
    run cacheStep coldStart
        [.mount (volumeWith 1) 0, .blkno 2 indirectInode 12, .mount (volumeWith 2) 0] =
          some (mappedState (volumeWith 2)) ∧
      ¬ (mappedState (volumeWith 2)).Coherent := by
  refine ⟨mapped_run (volumeWith 2) volumeWith_mounted.2, ?_⟩
  intro h
  have hset : (mappedState (volumeWith 2)).caches.ind.blkno ≠ noBlock := by decide +kernel
  have hfirst := h.ind hset 0 (by decide)
  revert hfirst
  decide +kernel

end Milo.Fs.Ext2
