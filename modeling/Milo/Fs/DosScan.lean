import Milo.Fs.DosTree

/-! # Reading directories on FAT

A directory whose sectors have small numbers is read into memory slot by slot as
it lies on the device, and a component is looked for in the slots in their order.
-/

namespace Milo.Fs.Dos

open Foundation

/-! ## The root directory of a mounted volume -/

theorem readSuper_root {b : BootSector} {sb : MsdosSb} (h : readSuper b = some sb) :
    b.sectorSize % 512 = 0 ∧ 0 < b.sectorMult ∧ b.dirEntries % 16 = 0 ∧
      sb.dirEntries = b.dirEntries ∧ sb.dirStart = u16 b.rootStart := by
  have hmult : b.sectorSize >>> 9 = b.sectorMult := Nat.shiftRight_eq_div_pow _ _
  have hstart : (superOf b b.sectorMult).dirStart = u16 b.rootStart := by
    unfold superOf BootSector.rootStart
    push_cast
    rfl
  simp only [readSuper, hmult] at h
  split at h
  · cases h
  rename_i hpos
  split at h
  · cases h
  rename_i hvalid
  simp only [not_or, Decidable.not_not] at hpos hvalid
  refine ⟨hvalid.2.2.2.1, Nat.pos_of_ne_zero hpos.2, hvalid.2.1, ?_⟩
  split at h
  · obtain rfl := Option.some.inj h
    exact ⟨rfl, hstart⟩
  · obtain rfl := Option.some.inj h
    exact ⟨rfl, hstart⟩

/-- The clusters start within a sector of the volume behind the root directory. -/
theorem dataStart_le {b : BootSector} (hsector : b.sectorSize % 512 = 0) (hmult : 0 < b.sectorMult) :
    b.dataStart ≤ b.rootStart + (b.dirEntries * 32 + 511) / 512 + b.sectorMult := by
  have hsize : b.sectorSize = 512 * b.sectorMult := by
    rw [BootSector.sectorMult]
    omega
  have hround : b.rootSectors * b.sectorSize ≤ b.dirEntries * 32 + b.sectorSize - 1 :=
    Nat.div_mul_le_self _ _
  rw [hsize, Nat.mul_left_comm] at hround
  rw [BootSector.dataStart, BootSector.systemSectors, Nat.add_mul, ← BootSector.rootStart]
  omega

namespace Volume

variable {ν : Type _} {vol : Volume ν}

theorem rootFacts (vol : Volume ν) :
    vol.boot.dirEntries % 16 = 0 ∧ vol.sb.dirEntries = vol.boot.dirEntries ∧
      vol.sb.dirStart = u16 vol.boot.rootStart :=
  (readSuper_root (msdosMount_some vol.mounted).1).2.2

theorem root_region_low (hlow : vol.Low vol.tree.root) :
    vol.boot.rootStart + vol.boot.dirEntries / 16 ≤ 2 ^ 15 := by
  have hmod := vol.rootFacts.1
  have hpos : 0 < vol.boot.dirEntries := vol.rootEntries
  unfold Low at hlow
  rw [vol.isTree.root_region] at hlow
  have hlast := hlow (vol.boot.dirEntries / 16 - 1)
    (show _ < vol.boot.dirEntries / 16 by omega)
  change vol.boot.rootStart + _ < _ at hlast
  omega

theorem agrees (hlow : vol.Low vol.tree.root) :
    Agrees vol.boot vol.drive.contents vol.sb vol.fat := by
  have hsuper : readSuper (bootSectorAt vol.drive.contents) = some vol.sb :=
    (msdosMount_some vol.mounted).1
  obtain ⟨hsector, hmult, hentries, -, -⟩ := readSuper_root hsuper
  have hroot := root_region_low hlow
  have hstart := dataStart_le hsector hmult
  have hsize := (bootSectorAt_inRange vol.drive.contents).sectorSize
  have hmax : (bootSectorAt vol.drive.contents).sectorMult ≤ 127 := by
    rw [BootSector.sectorMult]
    omega
  change vol.boot.dirEntries % 16 = 0 at hentries
  change vol.boot.dataStart ≤ vol.boot.rootStart + (vol.boot.dirEntries * 32 + 511) / 512 + _ at hstart
  exact .of_mount vol.mounted vol.wellFormed (by change vol.boot.dataStart < _; omega)

end Volume

/-! ## The sectors of a directory -/

section
variable {drive : Drive} {blockList sector : Nat → Nat} {size : Nat}

/-- The loop reads the sectors that the list names, one behind the other. -/
theorem readDirBlocks_spec (hreads : ∀ t, (drive.device t).Succeeds) {n k t : Nat}
    (buf : ByteMemory) (hsize : size = 512 * (k + n))
    (hlist : ∀ i, k ≤ i → i < k + n → s16 (blockList i) = sector i ∧ sector i < 2 ^ 15) :
    ∃ buf', readDirBlocks drive t blockList size buf k n = some buf' ∧
      (∀ a < 512 * k, buf' a = buf a) ∧
      ∀ i, k ≤ i → i < k + n → ∀ j < 512, buf' (512 * i + j) = drive.contents (sector i * 512 + j) := by
  induction n generalizing k t buf with
  | zero => exact ⟨buf, rfl, fun _ _ => rfl, fun i hlo hhi => by omega⟩
  | succ n ih =>
      obtain ⟨hfirst, hsmall⟩ := hlist k (Nat.le_refl k) (by omega)
      have hlength : min sectorSize (size - sectorSize * k) = 512 := by
        unfold sectorSize
        omega
      have hoffset : ((s16 (blockList k) * sectorSize) % 2 ^ 32).toNat = sector k * 512 := by
        rw [hfirst]
        unfold sectorSize
        omega
      have hcount := hreads t (sector k * 512) 512
      obtain ⟨buf', hrest, hkept, hread⟩ := ih (k := k + 1) (t := t + 1)
        (fill buf (sectorSize * k) (fun i => drive.contents (sector k * 512 + i)) 512) (by omega)
        (fun i hlo hhi => hlist i (by omega) (by omega))
      refine ⟨buf', ?_, fun a ha => ?_, fun i hlo hhi j hj => ?_⟩
      · unfold readDirBlocks deviceRead
        simp only [hlength, hoffset, hcount, ne_eq, not_true_eq_false, if_false]
        exact hrest
      · rw [hkept a (by omega)]
        exact fill_outside (by rw [Span.mem_mk]; unfold sectorSize; omega)
      · by_cases hik : i = k
        · subst hik
          rw [hkept _ (by omega)]
          exact fill_inside hj
        · exact hread i (by omega) (by omega) j hj

end

/-! ## Slots in memory -/

/-- An entry is the same where its 32 bytes are. -/
theorem dirEntryAt_congr {buf mem : ByteMemory} {a a' : Nat} (ha : a + 32 < 2 ^ 64)
    (ha' : a' + 32 < 2 ^ 64) (h : ∀ i < 32, buf (a + i) = mem (a' + i)) :
    dirEntryAt buf a = dirEntryAt mem a' := by
  have hfield : ∀ offset n, offset + n ≤ 32 →
      readLe buf (a + offset) n = readLe mem (a' + offset) n := by
    intro offset n hn
    refine readLe_congr n (by omega) (by omega) fun i hi => ?_
    rw [Nat.add_assoc, Nat.add_assoc]
    exact h (offset + i) (by omega)
  have hname : ((List.range 11).map fun i => buf (a + i)) =
      (List.range 11).map fun i => mem (a' + i) :=
    List.map_congr_left fun i hi => h i (by have := List.mem_range.mp hi; omega)
  unfold dirEntryAt
  rw [hname, hfield 11 1 (by omega), hfield 26 2 (by omega), hfield 28 4 (by omega)]

/-- The search goes through the slots in their order. -/
theorem scanEntries_some {buf : ByteMemory} {slot : Nat → MsdosDirEntry} (name : List UInt8)
    {i n : Nat} (h : ∀ k, i ≤ k → k < i + n → dirEntryAt buf (32 * k) = slot k) :
    scanEntries buf (some name) i n =
      some (((List.range' i n).find? fun k =>
        validEntry (slot k) && nameMatches name (slot k)).map slot) := by
  induction n generalizing i with
  | zero => rfl
  | succ n ih =>
      have hrest := @ih (i + 1) fun k hlo hhi => h k (by omega) (by omega)
      unfold scanEntries
      rw [List.range'_succ, List.find?_cons, h i (Nat.le_refl i) (by omega)]
      simp only
      cases hvalid : validEntry (slot i) with
      | false =>
          rw [if_neg (by simp), hrest]
          rfl
      | true =>
          rw [if_pos rfl, Bool.true_and]
          cases hname : nameMatches name (slot i) with
          | false => rw [if_neg (by simp), hrest]
          | true => rfl

/-! ## The inode of a directory -/

section
variable {ν : Type _}

/-- The reader has the volume mounted, and `malloc` does not fail. -/
structure OnVolume (vol : Volume ν) (r : Reader) : Prop where
  sb : r.sb = vol.sb
  fat : r.fat = vol.fat
  drive : r.drive = vol.drive
  malloc : ∀ t, (r.malloc t).isSome

/-- The inode of a node: the root has a list of its sectors, any other directory
its first cluster, and a file its entry. -/
structure InodeOf (vol : Volume ν) (n : ν) (slot : Slot) : Prop where
  root : n = vol.tree.root → slot.entry = rootEntry vol.sb ∧
    ∀ i < vol.boot.dirSectors .root, slot.blockList i = vol.boot.dirSector .root i
  dir : n ≠ vol.tree.root → vol.tree.isDir n = true →
    slot.entry.isDir = true ∧ slot.entry.start = (vol.entry n).start ∧ slot.entry.size = 0
  file : vol.tree.isDir n = false → slot.entry = vol.entry n

theorem InodeOf.isDir {vol : Volume ν} {n : ν} {slot : Slot} (h : InodeOf vol n slot) :
    slot.entry.isDir = vol.tree.isDir n := by
  cases hdir : vol.tree.isDir n with
  | false =>
      have hne : n ≠ vol.tree.root := by
        rintro rfl
        rw [vol.tree.root_isDir] at hdir
        cases hdir
      rw [h.file hdir, ← hdir]
      exact vol.isTree.kind n hne
  | true =>
      by_cases hroot : n = vol.tree.root
      · rw [(h.root hroot).1]
        simp [MsdosDirEntry.isDir, rootEntry, attrDir]
      · exact (h.dir hroot hdir).1

/-- The directory in a slot has its size and the list of its sectors; the other
slots are as they were. -/
structure Sized (vol : Volume ν) (r : Reader) (ino : Nat) (n : ν) (r' : Reader) : Prop where
  on : OnVolume vol r'
  size : (r'.table ino).entry.size = 512 * vol.boot.dirSectors (vol.region n)
  list : ∀ i < vol.boot.dirSectors (vol.region n),
    s16 ((r'.table ino).blockList i) = vol.boot.dirSector (vol.region n) i
  free : (r'.table ino).free = (r.table ino).free
  frame : ∀ i, i ≠ ino → r'.table i = r.table i

variable {vol : Volume ν} {r : Reader} {ino : Nat} {n : ν}

theorem sizeDirectory_root (hon : OnVolume vol r)
    (hinode : InodeOf vol vol.tree.root (r.table ino)) (hlow : vol.Low vol.tree.root) :
    ∃ r', sizeDirectory r ino = (true, r') ∧ Sized vol r ino vol.tree.root r' := by
  obtain ⟨hmod, hentries, -⟩ := vol.rootFacts
  have hpos : 0 < vol.boot.dirEntries := vol.rootEntries
  obtain ⟨hentry, hlist⟩ := hinode.root rfl
  have hsize : (r.table ino).entry.size = vol.boot.dirEntries * 32 := by
    rw [hentry, ← hentries]
    rfl
  refine ⟨r, ?_, hon, ?_, ?_, rfl, fun _ _ => rfl⟩
  · unfold sizeDirectory
    rw [if_neg (by omega)]
  · rw [vol.isTree.root_region, hsize]
    change _ = 512 * (vol.boot.dirEntries / 16)
    omega
  · unfold Volume.Low at hlow
    rw [vol.isTree.root_region] at hlow ⊢
    intro i hi
    rw [hlist i hi, s16_of_lt (hlow i hi)]

theorem sectorsOf_mul (n : Nat) : sectorsOf (512 * n) = n := by
  rw [sectorsOf]
  omega

/-- The clusters of a directory are those of a file as long as they are. -/
theorem subdirectory_fileChain {chain : List Nat}
    (hsub : Subdirectory vol.drive.contents vol.tree vol.place n chain)
    (hcs : 0 < vol.boot.clusterSectors) :
    vol.boot.FileChain vol.drive.contents
      ⟨(vol.entry n).start, 512 * vol.boot.dirSectors (.clusters chain)⟩ chain := by
  have hpos : 0 < chain.length := by
    cases hsub.linked <;> simp
  refine ⟨hsub.linked, hsub.inside, ?_, ?_⟩
  · change 512 * (chain.length * vol.boot.clusterSectors) ≤ _
    rw [Nat.mul_comm 512, Nat.mul_assoc]
  · change _ < 512 * (chain.length * vol.boot.clusterSectors)
    obtain ⟨k, hk⟩ : ∃ k, chain.length = k + 1 := ⟨chain.length - 1, by omega⟩
    rw [hk, Nat.add_sub_cancel, ← Nat.mul_assoc, Nat.mul_comm 512, Nat.add_mul]
    omega

theorem dirSectors_clusters {chain : List Nat}
    (hsub : Subdirectory vol.drive.contents vol.tree vol.place n chain)
    (hroot : vol.Low vol.tree.root)
    (hlow : ∀ i < vol.boot.dirSectors (.clusters chain), vol.boot.deviceSector chain i < 2 ^ 15) :
    vol.boot.dirSectors (.clusters chain) ≤ 2 ^ 15 := by
  have hmounted := (Volume.agrees hroot).mounted
  have hchain := subdirectory_fileChain hsub hmounted.clusterSectors_pos
  have hfew := hchain.sectors_le hmounted.clusterSectors_pos
    (by rw [sectorsOf_mul]; exact hlow)
  rw [sectorsOf_mul] at hfew
  exact Nat.le_trans hfew (Nat.sub_le _ _)

/-- A directory whose sectors have small numbers is not large. -/
theorem dirSectors_le (hroot : vol.Low vol.tree.root) (hlow : vol.Low n)
    (hdir : vol.tree.isDir n = true) : vol.boot.dirSectors (vol.region n) ≤ 2 ^ 15 := by
  by_cases hne : n = vol.tree.root
  · subst hne
    have hlast := Volume.root_region_low hroot
    rw [vol.isTree.root_region]
    change vol.boot.dirEntries / 16 ≤ _
    omega
  · obtain ⟨chain, hregion, hsub⟩ := vol.isTree.subdirectory n hdir hne
    unfold Volume.Low at hlow
    rw [hregion] at hlow ⊢
    exact dirSectors_clusters hsub hroot hlow

/-- The loop goes through the clusters of a file, whatever its directory entry says of
their number. -/
theorem fillLoop_fileChain {entry : DirEntry} {chain : List Nat} (hroot : vol.Low vol.tree.root)
    (hchain : vol.boot.FileChain vol.drive.contents entry chain) (list : Nat → Nat) :
    ∃ list', fillLoop vol.sb vol.fat list 0 entry.start (vol.sb.clusters + 1) =
      some (list', chain.length) := by
  have hagrees := Volume.agrees hroot
  have hle := chain_length_le hchain
  have hpos := (hchain.length_bounds hagrees.mounted.clusterSectors_pos).1
  have hfirst := hchain.inside _ (List.getElem_mem hpos)
  have hclusters := hagrees.mounted.clusters (by omega)
  obtain ⟨list', hloop, -, -⟩ := fillLoop_chain hagrees vol.wellFormed.clusters hchain.linked
    hchain.inside list (show 0 + chain.length ≤ vol.sb.clusters by omega)
    (show chain.length ≤ vol.sb.clusters + 1 by omega)
  rw [Nat.zero_add] at hloop
  exact ⟨list', hloop⟩

theorem fillSlot_spec {entry : DirEntry} {chain : List Nat} (hon : OnVolume vol r)
    (hentry : (r.table ino).entry.toDirEntry = entry) (hroot : vol.Low vol.tree.root)
    (hchain : vol.boot.FileChain vol.drive.contents entry chain)
    (hlow : ∀ i < sectorsOf entry.size, vol.boot.deviceSector chain i < 2 ^ 15) :
    ∃ inode : Inode,
      fillSlot r ino = (true,
        { r with
          t := r.t + 2
          table := Function.update r.table ino
            { r.table ino with blockList := inode.blockList, blocks := inode.blocks } }) ∧
        ∀ i < sectorsOf entry.size, s16 (inode.blockList i) = vol.boot.deviceSector chain i := by
  have hagrees := Volume.agrees hroot
  obtain ⟨list, hlist⟩ := Option.isSome_iff_exists.mp (hon.malloc r.t)
  obtain ⟨newList, hnew⟩ : ∃ newList,
      (if r.sb.clusterSize > 1 then r.malloc (r.t + 1) else some list) = some newList := by
    split
    · exact Option.isSome_iff_exists.mp (hon.malloc (r.t + 1))
    · exact ⟨list, rfl⟩
  obtain ⟨read, hloop⟩ := fillLoop_fileChain hroot hchain list
  obtain ⟨inode, hinode⟩ : ∃ inode, fillBlockList vol.sb vol.fat list newList entry = some inode :=
    ⟨_, by rw [fillBlockList, hloop]; rfl⟩
  refine ⟨inode, ?_, (fillBlockList_spec hagrees vol.wellFormed hchain hlow hinode).1⟩
  rw [hon.sb] at hnew
  unfold fillSlot
  simp only [hlist, hnew, Option.bind_some, hentry, hon.sb, hon.fat, hinode]

theorem countBlocks_spec {entry : DirEntry} {chain : List Nat} {size : Nat}
    (hroot : vol.Low vol.tree.root)
    (hchain : vol.boot.FileChain vol.drive.contents ⟨entry.start, size⟩ chain) :
    countBlocks vol.sb vol.fat entry = some chain.length := by
  obtain ⟨read, hloop⟩ := fillLoop_fileChain hroot hchain fun _ => 0
  unfold countBlocks
  rw [hloop]
  rfl

theorem sizeDirectory_counted {count : Nat} (hsize : (r.table ino).entry.size = 0)
    (hcount : countBlocks r.sb r.fat (r.table ino).entry.toDirEntry = some count) :
    sizeDirectory r ino =
      let (ok, s) := fillSlot (setSize r ino (u32 (count * sectorSize * r.sb.clusterSize))) ino
      if ok then (true, s) else (false, setSize s ino 0) := by
  unfold sizeDirectory
  rw [if_pos hsize, hcount]

theorem sizeDirectory_clusters {chain : List Nat} (hon : OnVolume vol r)
    (hinode : InodeOf vol n (r.table ino)) (hroot : vol.Low vol.tree.root) (hlow : vol.Low n)
    (hdir : vol.tree.isDir n = true) (hne : n ≠ vol.tree.root)
    (hregion : vol.region n = .clusters chain)
    (hsub : Subdirectory vol.drive.contents vol.tree vol.place n chain) :
    ∃ r', sizeDirectory r ino = (true, r') ∧ Sized vol r ino n r' := by
  have hmounted := (Volume.agrees hroot).mounted
  have hchain := subdirectory_fileChain hsub hmounted.clusterSectors_pos
  obtain ⟨-, hstart, hsize⟩ := hinode.dir hne hdir
  unfold Volume.Low at hlow
  rw [hregion] at hlow
  have hfew := dirSectors_clusters hsub hroot hlow
  have hlow' : ∀ i < sectorsOf (512 * vol.boot.dirSectors (.clusters chain)),
      vol.boot.deviceSector chain i < 2 ^ 15 := by
    rw [sectorsOf_mul]
    exact hlow
  have hbytes : u32 (chain.length * sectorSize * vol.sb.clusterSize) =
      512 * vol.boot.dirSectors (.clusters chain) := by
    have hproduct : chain.length * sectorSize * vol.sb.clusterSize =
        512 * vol.boot.dirSectors (.clusters chain) := by
      rw [hmounted.clusterSize, Nat.mul_comm chain.length, Nat.mul_assoc]
      rfl
    rw [hproduct]
    exact u32_of_lt (by omega)
  have hcount : countBlocks r.sb r.fat (r.table ino).entry.toDirEntry = some chain.length := by
    rw [hon.sb, hon.fat]
    have hcounted : vol.boot.FileChain vol.drive.contents ⟨(r.table ino).entry.toDirEntry.start,
        512 * vol.boot.dirSectors (.clusters chain)⟩ chain := by rwa [hstart]
    exact countBlocks_spec hroot hcounted
  have hon' : OnVolume vol (setSize r ino (512 * vol.boot.dirSectors (.clusters chain))) :=
    ⟨hon.sb, hon.fat, hon.drive, hon.malloc⟩
  have hentry : ((setSize r ino (512 * vol.boot.dirSectors (.clusters chain))).table
      ino).entry.toDirEntry =
      ⟨(vol.entry n).start, 512 * vol.boot.dirSectors (.clusters chain)⟩ := by
    unfold setSize
    simp only [Function.update_self, hstart]
  obtain ⟨inode, hfill, hlist⟩ := fillSlot_spec hon' hentry hroot hchain hlow'
  rw [sectorsOf_mul] at hlist
  have hsized := sizeDirectory_counted hsize hcount
  rw [hon.sb, hbytes, hfill] at hsized
  refine ⟨_, hsized, ⟨hon.sb, hon.fat, hon.drive, hon.malloc⟩, ?_, ?_, ?_, ?_⟩
  · rw [hregion]
    simp [setSize]
  · rw [hregion]
    intro i hi
    simp only [Function.update_self]
    exact hlist i hi
  · simp [setSize]
  · intro i hi
    simp [setSize, hi]

theorem sizeDirectory_spec (hon : OnVolume vol r) (hinode : InodeOf vol n (r.table ino))
    (hroot : vol.Low vol.tree.root) (hlow : vol.Low n) (hdir : vol.tree.isDir n = true) :
    ∃ r', sizeDirectory r ino = (true, r') ∧ Sized vol r ino n r' := by
  by_cases hne : n = vol.tree.root
  · subst hne
    exact sizeDirectory_root hon hinode hroot
  · obtain ⟨chain, hregion, hsub⟩ := vol.isTree.subdirectory n hdir hne
    exact sizeDirectory_clusters hon hinode hroot hlow hdir hne hregion hsub

/-- The directory is read as it lies on the device. -/
theorem msdosReaddir_spec (hon : OnVolume vol r) (hinode : InodeOf vol n (r.table ino))
    (hroot : vol.Low vol.tree.root) (hlow : vol.Low n) (hdir : vol.tree.isDir n = true) :
    ∃ buf r', msdosReaddir r ino = (some buf, r') ∧ Sized vol r ino n r' ∧
      ∀ k < vol.slots n, dirEntryAt buf (32 * k) = vol.slot n k := by
  obtain ⟨s, hsized, h⟩ := sizeDirectory_spec hon hinode hroot hlow hdir
  obtain ⟨block, hblock⟩ := Option.isSome_iff_exists.mp (h.on.malloc s.t)
  have hcount : ((s.table ino).entry.size + sectorSize - 1) / sectorSize =
      vol.boot.dirSectors (vol.region n) := by
    rw [h.size, sectorSize]
    omega
  have hreads : ∀ t, (s.drive.device t).Succeeds := h.on.drive ▸ vol.reads
  obtain ⟨buf, hread, -, hbytes⟩ := readDirBlocks_spec hreads (t := s.t + 1) (k := 0) (fun _ => 0)
    (show (s.table ino).entry.size = 512 * (0 + vol.boot.dirSectors (vol.region n)) by
      rw [h.size, Nat.zero_add])
    (fun i _ hi => ⟨h.list i (by omega), hlow i (by omega)⟩)
  refine ⟨buf, { s with t := s.t + 1 + vol.boot.dirSectors (vol.region n) }, ?_, ?_, ?_⟩
  · unfold msdosReaddir
    simp only [hsized, Bool.true_eq_false, if_false, hblock, hcount, hread]
  · exact ⟨⟨h.on.sb, h.on.fat, h.on.drive, h.on.malloc⟩, h.size, h.list, h.free, h.frame⟩
  · intro k hk
    unfold Volume.slots at hk
    have hsector := hlow (k / 16) (by omega)
    have hfew := dirSectors_le hroot hlow hdir
    refine dirEntryAt_congr (by omega) (by unfold BootSector.slotAt; omega) fun i hi => ?_
    have hbyte := hbytes (k / 16) (Nat.zero_le _) (by omega) (k % 16 * 32 + i) (by omega)
    rw [h.on.drive] at hbyte
    unfold BootSector.slotAt
    rw [show 32 * k + i = 512 * (k / 16) + (k % 16 * 32 + i) by omega, hbyte, Nat.add_assoc]

/-! ## What is found -/

/-- The slot of a directory is taken for the component. -/
def Volume.hits (vol : Volume ν) (n : ν) (name : List UInt8) (k : Nat) : Bool :=
  validEntry (vol.slot n k) && nameMatches name (vol.slot n k)

/-- The first entry of a directory that is taken for the component. -/
def Volume.found (vol : Volume ν) (n : ν) (name : List UInt8) : Option MsdosDirEntry :=
  ((List.range (vol.slots n)).find? (vol.hits n name)).map (vol.slot n)

theorem findEntry_spec (hon : OnVolume vol r) (hinode : InodeOf vol n (r.table ino))
    (hroot : vol.Low vol.tree.root) (hlow : vol.Low n) (hdir : vol.tree.isDir n = true)
    (name : List UInt8) :
    ∃ r', findEntry r ino (some name) = some (vol.found n name, r') ∧ Sized vol r ino n r' := by
  obtain ⟨buf, s, hread, hsized, hslots⟩ := msdosReaddir_spec hon hinode hroot hlow hdir
  have hcount : (s.table ino).entry.size / 32 = vol.slots n := by
    unfold Volume.slots
    rw [hsized.size]
    omega
  have hscan : scanEntries buf (some name) 0 (vol.slots n) = some (vol.found n name) := by
    rw [scanEntries_some name fun k _ hk => hslots k (by omega), ← List.range_eq_range']
    rfl
  refine ⟨s, ?_, hsized⟩
  unfold findEntry
  rw [hinode.isDir, if_neg (by rw [hdir]; decide), hread]
  simp only [hcount, hscan, Option.map_some]

/-- Entries of the tree are found under their names in lower case. -/
theorem found_entry (hdir : vol.tree.isDir n = true) {name : List UInt8}
    (hdots : ∀ k < (vol.region n).dots, vol.hits n name k = false) :
    vol.found n name = if fold name = name then (vol.tree.child n name).map vol.entry else none := by
  have hhits : ∀ k, (vol.region n).dots ≤ k → k < vol.slots n →
      (vol.hits n name k = true ↔
        Live (vol.slot n k) ∧ name = fold (shortName (vol.slot n k).name)) := by
    intro k hlo hhi
    have hordinary : Live (vol.slot n k) → Ordinary (vol.slot n k).name :=
      vol.isTree.ordinary n k hdir hlo hhi
    unfold Volume.hits
    rw [Bool.and_eq_true, Ordinary.valid hordinary]
    exact and_congr_right fun hlive => (hordinary hlive).matches name
  unfold Volume.found
  cases hfind : (List.range (vol.slots n)).find? (vol.hits n name) with
  | none =>
      rw [Option.map_none]
      by_cases hfold : fold name = name
      · rw [if_pos hfold]
        cases hchild : vol.tree.child n name with
        | none => rfl
        | some m =>
            obtain ⟨-, hlive, hname, k, hlo, hhi, hplace⟩ :=
              vol.isTree.child_slot n name m hdir hchild
            have hslot : vol.slot n k = vol.entry m := congrArg _ hplace
            have hmiss := List.find?_eq_none.mp hfind k (List.mem_range.mpr hhi)
            refine absurd ((hhits k hlo hhi).mpr ?_) hmiss
            rw [hslot]
            exact ⟨hlive, hfold.symm.trans hname⟩
      · rw [if_neg hfold]
  | some k =>
      have hlt := List.mem_range.mp (List.mem_of_find?_eq_some hfind)
      have hhit := List.find?_some hfind
      have hlo : (vol.region n).dots ≤ k := by
        by_contra hbefore
        rw [hdots k (by omega)] at hhit
        cases hhit
      obtain ⟨hlive, hname⟩ := (hhits k hlo hlt).mp hhit
      have hfold : fold name = name := by rw [hname, fold_fold]
      obtain ⟨m, hchild, hplace⟩ := vol.isTree.slot_child n name k hdir hlo hlt hlive
        (by rw [hfold]; exact hname)
      have hslot : vol.entry m = vol.slot n k := congrArg _ hplace
      rw [Option.map_some, if_pos hfold, hchild, Option.map_some, hslot]

/-- The names of the first two entries are not those of others. -/
theorem child_dots (hdir : vol.tree.isDir n = true) :
    vol.tree.child n dot = none ∧ vol.tree.child n dotdot = none := by
  have hordinary : ∀ name m, vol.tree.child n name = some m →
      fold name ≠ dot ∧ fold name ≠ dotdot := by
    intro name m hchild
    obtain ⟨-, hlive, hname, k, hlo, hhi, hplace⟩ := vol.isTree.child_slot n name m hdir hchild
    have h := vol.isTree.ordinary n k hdir hlo hhi
    rw [hplace] at h
    rw [hname]
    exact (h hlive).ne_dots
  constructor
  · cases hchild : vol.tree.child n dot with
    | none => rfl
    | some m => exact absurd rfl (hordinary dot m hchild).1
  · cases hchild : vol.tree.child n dotdot with
    | none => rfl
    | some m => exact absurd rfl (hordinary dotdot m hchild).2

/-- In the root directory neither of them is found. -/
theorem found_root_dots : vol.found vol.tree.root dot = none ∧
    vol.found vol.tree.root dotdot = none := by
  have hchild := child_dots vol.tree.root_isDir
  have hdots : ∀ name, ∀ k < (vol.region vol.tree.root).dots,
      vol.hits vol.tree.root name k = false := by
    intro name k hk
    rw [vol.isTree.root_region] at hk
    exact absurd hk (Nat.not_lt_zero k)
  rw [found_entry vol.tree.root_isDir (hdots dot), found_entry vol.tree.root_isDir (hdots dotdot),
    hchild.1, hchild.2]
  exact ⟨ite_self _, ite_self _⟩

/-- In any other directory they are the first two slots. -/
structure DotSlots (vol : Volume ν) (n : ν) : Prop where
  two : ∃ m, vol.slots n = m + 2
  dots : (vol.region n).dots = 2
  own : DotEntry (vol.slot n 0) dotName (vol.entry n).start
  parent_dir : vol.tree.isDir (vol.tree.parent n) = true
  up : ∃ start, DotEntry (vol.slot n 1) dotdotName start ∧
    (vol.tree.parent n = vol.tree.root → start = 0) ∧
    (vol.tree.parent n ≠ vol.tree.root → start = (vol.entry (vol.tree.parent n)).start)

theorem dotSlots (hroot : vol.Low vol.tree.root) (hdir : vol.tree.isDir n = true)
    (hne : n ≠ vol.tree.root) : DotSlots vol n := by
  have hcs := (Volume.agrees hroot).mounted.clusterSectors_pos
  obtain ⟨chain, hregion, hsub⟩ := vol.isTree.subdirectory n hdir hne
  have hpos : 0 < chain.length := by
    cases hsub.linked <;> simp
  have hsectors : 0 < chain.length * vol.boot.clusterSectors := Nat.mul_pos hpos hcs
  refine ⟨⟨vol.slots n - 2, ?_⟩, by rw [hregion]; rfl, ?_, hsub.parent_dir, ?_⟩
  · unfold Volume.slots
    rw [hregion]
    change chain.length * vol.boot.clusterSectors * 16 = chain.length * vol.boot.clusterSectors * 16 - 2 + 2
    omega
  · unfold Volume.slot
    rw [hregion]
    exact hsub.own
  · unfold Volume.slot
    rw [hregion]
    exact hsub.up

theorem DotSlots.found_own (h : DotSlots vol n) : vol.found n dot = some (vol.slot n 0) := by
  obtain ⟨m, hm⟩ := h.two
  have hhit : vol.hits n dot 0 = true := (h.own.own_hits dot).mpr rfl
  unfold Volume.found
  rw [hm, List.range_eq_range', List.range'_succ, List.find?_cons_of_pos hhit, Option.map_some]

theorem DotSlots.found_up (h : DotSlots vol n) : vol.found n dotdot = some (vol.slot n 1) := by
  obtain ⟨m, hm⟩ := h.two
  obtain ⟨start, hup, -⟩ := h.up
  have hmiss : ¬ vol.hits n dotdot 0 = true := fun hhit =>
    absurd ((h.own.own_hits dotdot).mp hhit) (by decide)
  have hhit : vol.hits n dotdot 1 = true := (hup.up_hits dotdot).mpr rfl
  unfold Volume.found
  rw [hm, List.range_eq_range', List.range'_succ, List.find?_cons_of_neg hmiss, List.range'_succ,
    List.find?_cons_of_pos hhit, Option.map_some]

/-- Any other name is looked for among the entries. -/
theorem found_child (hroot : vol.Low vol.tree.root) (hdir : vol.tree.isDir n = true)
    {name : List UInt8} (hdot : name ≠ dot) (hup : name ≠ dotdot) :
    vol.found n name = if fold name = name then (vol.tree.child n name).map vol.entry else none := by
  refine found_entry hdir fun k hk => ?_
  by_cases hne : n = vol.tree.root
  · rw [hne, vol.isTree.root_region] at hk
    exact absurd hk (Nat.not_lt_zero k)
  · have hslots := dotSlots hroot hdir hne
    obtain ⟨start, hslot, -⟩ := hslots.up
    rw [hslots.dots] at hk
    rw [← Bool.not_eq_true]
    obtain rfl | rfl : k = 0 ∨ k = 1 := by omega
    · exact fun hhit => hdot ((hslots.own.own_hits name).mp hhit)
    · exact fun hhit => hup ((hslot.up_hits name).mp hhit)

end

end Milo.Fs.Dos
