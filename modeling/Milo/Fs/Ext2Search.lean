import Milo.Fs.Ext2Slots
import Milo.Fs.Ext2Tree

/-! # Searching the directories of a volume

What the reader puts into its buffers is what the device has there, so that the scan
of a directory comes to the same records as the format does.
-/

namespace Milo.Fs.Ext2

open Foundation

/-! ## Blocks -/

theorem BlockCache.load_of_succeeds {device : Device} (h : device.Succeeds) (blocksize : Nat)
    (cache : BlockCache) (blkno : Nat) : (cache.load device blocksize blkno).1 = true := by
  unfold BlockCache.load deviceRead
  simp only
  split
  · rw [if_neg (by rw [h]; exact fun hne => hne rfl)]
  · rfl

theorem indirectRead_of_succeeds {drive : Drive} (h : ∀ t, (drive.device t).Succeeds) (t : Nat)
    (vol : Volume) (caches : Caches) (ip : Inode) (b : Nat) :
    IndirectRead drive t vol caches ip b := by
  unfold IndirectRead IndRead
  simp only
  split
  · trivial
  · split
    · exact Or.inr (BlockCache.load_of_succeeds (h t) _ _ _)
    · exact Or.inr ⟨BlockCache.load_of_succeeds (h t) _ _ _,
        Or.inr (BlockCache.load_of_succeeds (h (t + 1)) _ _ _)⟩

theorem blknoSound_of_succeeds {drive : Drive} (h : ∀ t, (drive.device t).Succeeds) (t : Nat)
    (vol : Volume) (caches : Caches) (ip : Inode) (blkoff : Int) :
    blknoSound drive t vol caches ip blkoff := by
  have hload : ∀ t cache blkno, BlockCache.LoadSound (drive.device t) vol.blocksize cache blkno :=
    fun t _ _ => Or.inr (Or.inr (Or.inl (h t _ _)))
  unfold blknoSound singleSound
  split
  · trivial
  · split
    · exact Or.inr (hload _ _ _)
    · split
      · exact Or.inr ⟨hload _ _ _, fun _ => Or.inr (hload _ _ _)⟩
      · trivial

/-! ## Searches in lists of lists -/

section
variable {α : Type _} {p q : α → Bool}

/-- A search passes over the lists that have nothing for it. -/
theorem find?_flatten_drop {xss : List (List α)} {k : Nat}
    (h : ∀ xs ∈ xss.take k, xs.find? p = none) :
    xss.flatten.find? p = (xss.drop k).flatten.find? p := by
  have htake : (xss.take k).flatten.find? p = none := by
    rw [List.find?_eq_none]
    intro x hx
    obtain ⟨xs, hxs, hmem⟩ := List.mem_flatten.mp hx
    exact List.find?_eq_none.mp (h xs hxs) x hmem
  calc
    xss.flatten.find? p = ((xss.take k).flatten ++ (xss.drop k).flatten).find? p := by
      rw [← List.flatten_append, List.take_append_drop]
    _ = (xss.drop k).flatten.find? p := by rw [List.find?_append, htake, Option.none_or]

/-- A further condition that the first element found meets changes nothing. -/
theorem find?_and_of_first {xs : List α} (h : ∀ x, xs.find? p = some x → q x = true) :
    xs.find? (fun x => p x && q x) = xs.find? p := by
  induction xs with
  | nil => rfl
  | cons x xs ih =>
      rw [List.find?_cons] at h ⊢
      rw [List.find?_cons]
      cases hp : p x with
      | true =>
          rw [hp] at h
          rw [Bool.true_and, h x rfl]
      | false =>
          rw [hp] at h
          exact ih h

end

namespace LinkVolume

variable {ν : Type _} {volume : LinkVolume ν} {r : Reader} {n : ν}

/-- The reader has the volume mounted. -/
structure MountedIn (volume : LinkVolume ν) (r : Reader) : Prop where
  drive : r.drive = volume.drive
  vol : r.vol = volume.vol
  caches : r.caches.Coherent volume.drive.contents volume.vol.blocksize

theorem MountedIn.congr {r' : Reader} (h : volume.MountedIn r)
    (hsame : r'.cacheState = r.cacheState) : volume.MountedIn r' := by
  unfold Reader.cacheState at hsame
  simp only [CacheState.mk.injEq] at hsame
  obtain ⟨-, hdrive, hvol, hcaches⟩ := hsame
  exact ⟨hdrive.trans h.drive, hvol.trans h.vol, hcaches ▸ h.caches⟩

/-- A slot has the inode of a node. -/
def Holds (volume : LinkVolume ν) (r : Reader) (i : Nat) (n : ν) : Prop :=
  SameInode (r.inode i) (volume.inode n)

theorem Holds.congr {r' : Reader} {i : Nat} (h : volume.Holds r i n)
    (hsame : r'.inode i = r.inode i) : volume.Holds r' i n := by
  unfold Holds
  rw [hsame]
  exact h

theorem blocksize_pos (volume : LinkVolume ν) : 0 < volume.vol.blocksize := by
  have hsize := volume.sized.blocksize
  omega

/-- A mapped block is read into `blkbuf`. -/
theorem readBlkbuf_eq {i b : Nat} (hr : volume.MountedIn r) (hinode : volume.Holds r i n)
    (hmapped : volume.Mapped n b) (hpointer : volume.pointer n b ≠ 0) :
    volume.MountedIn (readBlkbuf r i b) ∧ (readBlkbuf r i b).slots = r.slots ∧
      ∀ j < volume.vol.blocksize, (readBlkbuf r i b).blkbuf j =
        volume.drive.contents (volume.pointer n b * volume.vol.blocksize + j) := by
  have hmax := volume.sized.le_max
  unfold maxBlockSize at hmax
  have hlow := hmapped.positive
  have hb := hmapped.inside
  have hsquare : volume.vol.blocksize / 4 * (volume.vol.blocksize / 4) ≤ 1024 * 1024 :=
    Nat.mul_le_mul (by omega) (by omega)
  have hs32 : s32 b = (b : Int) := s32_of_lt (by omega)
  have hblkno : (ext2Blkno r.drive r.t r.vol r.caches (r.inode i) (s32 b)).1 =
      (volume.pointer n b : Int) := by
    rw [hs32, hr.drive, hr.vol, ext2Blkno_eq volume.sized hr.caches
      (indirectRead_of_succeeds volume.reads _ _ _ _ _) hb, hinode.blockPointer]
    exact s32_of_lt hlow
  have hplace : volume.pointer n b * volume.vol.blocksize ≤ 2 ^ 31 * 4096 :=
    Nat.mul_le_mul (Nat.le_of_lt hlow) hmax
  have hcoherent := ext2Blkno_coherent volume.sized.le_max hr.caches
    (blknoSound_of_succeeds volume.reads r.t volume.vol r.caches (r.inode i) (s32 b))
  rw [← hr.drive, ← hr.vol] at hcoherent
  unfold readBlkbuf ext2Breadi
  simp only
  rw [hblkno, if_neg (by omega)]
  refine ⟨⟨hr.drive, hr.vol, ?_⟩, trivial, ?_⟩
  · rw [← hr.drive, ← hr.vol]
    exact hcoherent
  · intro j hj
    have hoffset : ((volume.pointer n b : Int) * (r.vol.blocksize : Int) % 2 ^ 64).toNat =
        volume.pointer n b * volume.vol.blocksize := by
      rw [hr.vol, ← Int.natCast_mul]
      omega
    have hcount : (r.drive.device (r.t + 2)).count
        (volume.pointer n b * volume.vol.blocksize) r.vol.blocksize = r.vol.blocksize := by
      rw [hr.drive]
      exact volume.reads _ _ _
    unfold deviceRead
    simp only [hoffset]
    rw [hcount, fill_start _ _ (by rw [hr.vol]; exact hj)]
    unfold Drive.device
    rw [hr.drive]

/-! ## Records in the buffer -/

section
variable {contents buf : ByteMemory} {base blocksize : Nat} {component : List UInt8}

/-- The buffer has the block at `base` of the device. -/
def Buffers (contents : ByteMemory) (base blocksize : Nat) (buf : ByteMemory) : Prop :=
  ∀ j < blocksize, buf j = contents (base + j)

theorem recName_eq_iff {a : Nat} :
    recName contents a = component ↔
      recNameLen contents a = component.length ∧ HoldsBytes contents (a + 8) component := by
  unfold recName HoldsBytes
  constructor
  · intro h
    have hlength := congrArg List.length h
    rw [List.length_map, List.length_range] at hlength
    refine ⟨hlength, fun i c hc => ?_⟩
    rw [← h, List.getElem?_map, Option.map_eq_some_iff] at hc
    obtain ⟨k, hk, hbyte⟩ := hc
    rw [List.getElem?_eq_some_iff] at hk
    obtain ⟨_, hk⟩ := hk
    rw [List.getElem_range] at hk
    rw [hk]
    exact hbyte
  · rintro ⟨hlength, hbytes⟩
    refine List.ext_getElem (by simp [hlength]) fun i hi hi' => ?_
    rw [List.getElem_map, List.getElem_range]
    exact hbytes i component[i] (List.getElem?_eq_getElem hi')

/-- A record that ends before the end of its block is the same in the buffer. -/
theorem Buffers.entry {o : Nat} (h : Buffers contents base blocksize buf)
    (hbase : base + blocksize < 2 ^ 64) (hhead : o + 8 ≤ blocksize) :
    entryInode buf o = s32 (recInode contents (base + o)) ∧
      entryRecLen buf o = recLength contents (base + o) ∧
      entryNameLen buf o = recNameLen contents (base + o) := by
  have hfield : ∀ k m, k + m ≤ 8 → readLe buf (o + k) m = readLe contents (base + o + k) m := by
    intro k m hkm
    refine readLe_congr m (by omega) (by omega) fun i hi => ?_
    rw [h _ (by omega), ← Nat.add_assoc, ← Nat.add_assoc]
  have hinode := hfield 0 4 (by omega)
  rw [Nat.add_zero, Nat.add_zero] at hinode
  refine ⟨?_, hfield 4 2 (by omega), ?_⟩
  · unfold entryInode recInode
    rw [hinode]
  · unfold entryNameLen recNameLen
    rw [h _ (by omega), ← Nat.add_assoc]

theorem Buffers.entryMatches_eq {o : Nat} (h : Buffers contents base blocksize buf)
    (hbase : base + blocksize < 2 ^ 64) (hname : o + 8 + recNameLen contents (base + o) ≤ blocksize)
    (hnul : 0 ∉ component) :
    entryMatches buf o component = IsNamed contents component (base + o) := by
  have hentry := (h.entry hbase (o := o) (by omega)).2.2
  unfold entryMatches IsNamed
  rw [Bool.eq_iff_iff, Bool.and_eq_true, beq_iff_eq, beq_iff_eq, beq_iff_eq,
    strncmp_eq_zero_iff hnul, recName_eq_iff, hentry]
  refine and_congr_right fun hlength => ?_
  have hbyte : ∀ i c, component[i]? = some c → buf (o + 8 + i) = contents (base + o + 8 + i) := by
    intro i c hc
    have hi := (List.getElem?_eq_some_iff.mp hc).1
    rw [h _ (by omega), ← Nat.add_assoc, ← Nat.add_assoc]
  constructor
  · intro hholds i c hc
    rw [← hbyte i c hc]
    exact hholds i c hc
  · intro hholds i c hc
    rw [hbyte i c hc]
    exact hholds i c hc

/-- The scan of a block finds the first record with the name. -/
theorem scanBlock_eq {fuel o : Nat} {recs : List Nat} (h : Buffers contents base blocksize buf)
    (hbase : base + blocksize < 2 ^ 64) (hnul : 0 ∉ component) (hfuel : blocksize < fuel + o)
    (hchain : BlockRecords contents (base + blocksize) (base + o) recs) :
    scanBlock buf blocksize component fuel o =
      some ((recs.find? (IsNamed contents component)).map fun a => s32 (recInode contents a)) := by
  induction recs generalizing fuel o with
  | nil =>
      generalize hplace : base + o = a at hchain
      cases hchain with
      | full =>
          obtain ⟨fuel, rfl⟩ := Nat.exists_eq_add_of_lt (show 0 < fuel by omega)
          rw [Nat.zero_add, scanBlock, if_neg (by omega)]
          rfl
  | cons a recs ih =>
      generalize hplace : base + o = b at hchain
      cases hchain with
      | record _ _ hname hfits hrest =>
          subst hplace
          have hentry := h.entry hbase (o := o) (by omega)
          obtain ⟨fuel, rfl⟩ : ∃ k, fuel = k + 1 := ⟨fuel - 1, by omega⟩
          rw [scanBlock, if_pos (by omega), h.entryMatches_eq hbase (by omega) hnul,
            List.find?_cons]
          cases hnamed : IsNamed contents component (base + o) with
          | true => simp [hentry.1]
          | false =>
              simp only [Bool.false_eq_true, if_false]
              rw [hentry.2.1]
              refine ih (by omega) ?_
              rw [← Nat.add_assoc]
              exact hrest

end

/-! ## Directories -/

section
variable {dir : Nat} {name : List UInt8}

theorem scanBlocks_eq {blk k : Nat} (hdir : volume.tree.isDir n = true) (hname : IsToken name)
    (hsearch : volume.Searchable n name) (hr : volume.MountedIn r) (hinode : volume.Holds r dir n)
    (hblocks : blk + k = (volume.records n).length)
    (hpassed : ∀ recs ∈ (volume.records n).take blk,
      recs.find? (IsNamed volume.drive.contents name) = none) :
    ∃ r', scanBlocks r dir name blk k =
        some (((volume.records n).flatten.find? (IsNamed volume.drive.contents name)).map
          (recInode volume.drive.contents), r') ∧
      volume.MountedIn r' ∧ r'.slots = r.slots := by
  rw [find?_flatten_drop hpassed]
  induction k generalizing r blk with
  | zero =>
      rw [List.drop_eq_nil_of_le (by omega)]
      exact ⟨r, rfl, hr, rfl⟩
  | succ k ih =>
      have hblk : blk < (volume.records n).length := by omega
      have hmapped := hsearch.mapped blk hblk hpassed
      obtain ⟨hpointer, hchain⟩ := volume.holds.chain n blk _ hdir (List.getElem?_eq_getElem hblk)
      obtain ⟨hmounted, hslots, hbuffers⟩ := readBlkbuf_eq hr hinode hmapped hpointer
      have hmax := volume.sized.le_max
      unfold maxBlockSize at hmax
      have hplace : volume.pointer n blk * volume.vol.blocksize ≤ 2 ^ 31 * 4096 :=
        Nat.mul_le_mul (Nat.le_of_lt hmapped.positive) hmax
      have hscan := scanBlock_eq hbuffers (by omega) hname.noNul
        (show volume.vol.blocksize < volume.vol.blocksize + 1 + 0 by omega) hchain
      rw [← hmounted.vol] at hscan
      unfold scanBlocks
      simp only
      rw [hscan, List.drop_eq_getElem_cons hblk, List.flatten_cons, List.find?_append]
      cases hfound : (volume.records n)[blk].find? (IsNamed volume.drive.contents name) with
      | none =>
          have hpassed' : ∀ recs ∈ (volume.records n).take (blk + 1),
              recs.find? (IsNamed volume.drive.contents name) = none := by
            intro recs hrecs
            rw [List.take_succ_eq_append_getElem hblk, List.mem_append, List.mem_singleton] at hrecs
            rcases hrecs with hrecs | rfl
            · exact hpassed recs hrecs
            · exact hfound
          have hinode' : volume.Holds (readBlkbuf r dir blk) dir n :=
            hinode.congr (Reader.inode_congr hslots dir)
          obtain ⟨r', hrest, hr', hslots'⟩ := ih hmounted hinode' (by omega) hpassed'
          exact ⟨r', hrest, hr', hslots'.trans hslots⟩
      | some a =>
          have hfirst : (volume.records n).flatten.find? (IsNamed volume.drive.contents name) =
              some a := by
            rw [find?_flatten_drop hpassed, List.drop_eq_getElem_cons hblk, List.flatten_cons,
              List.find?_append, hfound, Option.some_or]
          have hs32 := s32_of_lt (hsearch.live a hfirst).2
          refine ⟨readBlkbuf r dir blk, ?_, hmounted, hslots⟩
          simp only [Option.map_some, Option.some_or, hs32]

/-- The search of a directory finds the entry with the name. -/
theorem searchDir_eq (hdir : volume.tree.isDir n = true) (hname : IsToken name)
    (hsearch : volume.Searchable n name) (hr : volume.MountedIn r) (hinode : volume.Holds r dir n) :
    ∃ r', searchDir r dir name = some ((volume.tree.step n name).map volume.number, r') ∧
      volume.MountedIn r' ∧ r'.slots = r.slots := by
  have hpos := volume.blocksize_pos
  have hblocks : dirBlocks r dir = (volume.records n).length := by
    have hsize : (r.inode dir).size = volume.vol.blocksize * (volume.records n).length := by
      rw [hinode.size]
      exact volume.holds.size n hdir
    unfold dirBlocks
    rw [hsize, hr.vol, Nat.add_sub_assoc hpos, Nat.mul_add_div hpos,
      Nat.div_eq_of_lt (by omega), Nat.add_zero]
  have hlisted := volume.holds.listed n name hdir hname
  have hfirst : (volume.records n).flatten.find? (IsEntry volume.drive.contents name) =
      (volume.records n).flatten.find? (IsNamed volume.drive.contents name) := by
    refine find?_and_of_first fun a ha => ?_
    rw [bne_iff_ne]
    exact Nat.ne_of_gt (hsearch.live a ha).1
  rw [hfirst] at hlisted
  unfold searchDir
  rw [if_neg (by rw [hr.vol]; omega), hblocks, ← hlisted]
  exact scanBlocks_eq hdir hname hsearch hr hinode (Nat.zero_add _) fun recs hrecs => by
    rw [List.take_zero] at hrecs
    cases hrecs

end

/-! ## Inodes -/

/-- The reader finds the group descriptors, and with them the inodes. -/
def Located (volume : LinkVolume ν) : Prop := GeometryRight volume.drive volume.t volume.vol

/-- The inode of a node is read into the first free slot. -/
theorem ext2Iget_eq {i : Nat} (hlocated : volume.Located) (hr : volume.MountedIn r)
    (hi : i < maxOpenFiles) (hfree : ¬ r.Taken i) (hbefore : ∀ j < i, r.Taken j) (n : ν) :
    ∃ r', ext2Iget r (volume.number n) = (some i, r') ∧ volume.MountedIn r' ∧
      volume.Holds r' i n ∧ (∀ j, r'.Taken j ↔ r.Taken j ∨ j = i) ∧
        ∀ j, j ≠ i → r'.inode j = r.inode j := by
  have hlimit : i < 0 + maxOpenFiles := by omega
  obtain ⟨k, hfirst, hk⟩ := firstFree_le (Nat.zero_le i) hlimit hfree
  have hnot := (firstFree_some hfirst).2.2.1
  obtain rfl : k = i := by
    by_contra hne
    exact hnot (hbefore k (by omega))
  have hsome : (ext2Iget r (volume.number n)).1 = some k := by
    unfold ext2Iget
    rw [hfirst]
    unfold deviceRead
    simp only
    rw [hr.drive, volume.reads r.t, if_pos (by simp)]
  have hget : ext2Iget r (volume.number n) = (some k, (ext2Iget r (volume.number n)).2) :=
    Prod.ext hsome rfl
  obtain ⟨hlo, hhi⟩ := volume.holds.counted n
  have hspec := ext2Iget_some hsome
  exact ⟨_, hget, hr.congr (ext2Iget_cacheState r _),
    hlocated.inodes _ hlo hhi r hr.drive hr.vol k _ hget, hspec.2.2.2.1, hspec.2.2.2.2⟩

/-! ## Links -/

/-- The block of a link can be read, if it has one. -/
def LinkRead (volume : LinkVolume ν) (n : ν) : Prop :=
  (volume.inode n).blocks = 0 ∨ volume.Mapped n 0

theorem stringAt_inode {i : Nat} {text : List UInt8} (hinode : volume.Holds r i n)
    (htext : volume.tree.text n = some text) (hblocks : (volume.inode n).blocks = 0) :
    stringAt (r.inode i) 40 = text ∧ text.length < 60 := by
  obtain ⟨hlength, hbytes⟩ := volume.holds.inInode n text htext hblocks
  refine ⟨stringAt_eq (volume.holds.named n text htext).2 (by omega) ?_, hlength⟩
  refine hbytes.congr fun x hx => ?_
  rw [Span.mem_mk, List.length_append, List.length_singleton] at hx
  exact hinode x (by unfold inodeSize; omega)

/-- The text of a link on the way comes into `blkbuf` or lies in the inode. -/
theorem loadLink_eq {i : Nat} {text : List UInt8} (hr : volume.MountedIn r)
    (hinode : volume.Holds r i n) (htext : volume.tree.text n = some text)
    (hread : volume.LinkRead n) :
    (loadLink r i).2 = text ∧ volume.MountedIn (loadLink r i).1 ∧
      (loadLink r i).1.slots = r.slots := by
  unfold loadLink
  by_cases hblocks : (volume.inode n).blocks = 0
  · rw [if_neg (by rw [hinode.blocks]; exact not_not.mpr hblocks)]
    exact ⟨(stringAt_inode hinode htext hblocks).1, hr, rfl⟩
  · obtain ⟨hlength, hpointer, hbytes⟩ := volume.holds.inBlock n text htext hblocks
    obtain ⟨hmounted, hslots, hbuffers⟩ :=
      readBlkbuf_eq hr hinode (hread.resolve_left hblocks) hpointer
    have hmax := volume.sized.le_max
    unfold maxBlockSize at hmax
    have hheld : HoldsBytes (readBlkbuf r i 0).blkbuf 0 (text ++ [0]) := by
      intro j c hc
      have hj := (List.getElem?_eq_some_iff.mp hc).1
      rw [List.length_append, List.length_singleton] at hj
      rw [Nat.zero_add, hbuffers j (by omega)]
      exact hbytes j c hc
    have hstring := stringAt_eq (volume.holds.named n text htext).2 (by omega) hheld
    rw [if_pos (by rw [hinode.blocks]; exact hblocks)]
    dsimp only
    exact ⟨hstring, hmounted, hslots⟩

end LinkVolume

end Milo.Fs.Ext2
