import Milo.Foundation.TextBuffer
import Milo.Fs.DosScan
import Milo.Fs.DosSlots

/-! # What lookups on FAT find

A lookup goes down the tree as the components of the path do, as long as these
are in lower case. The root directory has no entries for `.` and `..`, and an
entry `..` that leads to the root has cluster 0, which the reader takes for the
first cluster of a directory: these steps are lost.
-/

namespace Milo.Fs.Dos

open Foundation

variable {ν : Type _} {vol : Volume ν}

/-! ## Inodes of nodes -/

/-- An inode as it is allocated for an entry. -/
def freshSlot (entry : MsdosDirEntry) : Slot := ⟨entry, fun _ => 0, 0, false⟩

theorem inodeOf_child {n m : ν} {name : List UInt8} (hdir : vol.tree.isDir n = true)
    (hchild : vol.tree.child n name = some m) :
    InodeOf vol m (freshSlot (vol.entry m)) ∧
      ((vol.entry m).isDir = true → (vol.entry m).size = 0) := by
  obtain ⟨hne, -, -, -⟩ := vol.isTree.child_slot n name m hdir hchild
  have hkind : (vol.entry m).isDir = vol.tree.isDir m := vol.isTree.kind m hne
  have hsized : vol.tree.isDir m = true → (vol.entry m).size = 0 := by
    intro hm
    obtain ⟨_, _, hsub⟩ := vol.isTree.subdirectory m hm hne
    exact hsub.sized
  refine ⟨⟨fun hroot => absurd hroot hne, fun _ hm => ?_, fun _ => rfl⟩, ?_⟩
  · exact ⟨hkind.trans hm, rfl, hsized hm⟩
  · exact fun hm => hsized (hkind.symm.trans hm)

theorem inodeOf_dot {n : ν} {entry : MsdosDirEntry} {name : List UInt8}
    (hdir : vol.tree.isDir n = true) (hne : n ≠ vol.tree.root)
    (h : DotEntry entry name (vol.entry n).start) : InodeOf vol n (freshSlot entry) := by
  refine ⟨fun hroot => absurd hroot hne, fun _ _ => ⟨h.isDir, h.start_eq, h.size_zero⟩, ?_⟩
  intro hfile
  rw [hdir] at hfile
  cases hfile

/-! ## Nodes in use -/

/-- A node that a lookup has got to, in its slot; another slot is free. -/
structure Held (vol : Volume ν) (r : Reader) (ino : Nat) (n : ν) : Prop where
  on : OnVolume vol r
  inode : InodeOf vol n (r.table ino)
  slot : ino < maxOpenFiles
  used : (r.table ino).free = false
  spare : ∃ i < maxOpenFiles, (r.table i).free = true

/-- The entry that was found is in its slot, and the slot of the directory is free. -/
structure Moved (vol : Volume ν) (entry : MsdosDirEntry) (r : Reader) (ino : Nat) : Prop where
  on : OnVolume vol r
  slot : ino < maxOpenFiles
  fresh : r.table ino = freshSlot entry
  spare : ∃ i < maxOpenFiles, (r.table i).free = true

theorem Moved.held {entry : MsdosDirEntry} {r : Reader} {ino : Nat} {m : ν}
    (h : Moved vol entry r ino) (hinode : InodeOf vol m (freshSlot entry)) : Held vol r ino m := by
  refine ⟨h.on, ?_, h.slot, ?_, h.spare⟩
  · rw [h.fresh]
    exact hinode
  · rw [h.fresh]
    rfl

theorem allocateInode_spare {r : Reader} (entry : MsdosDirEntry)
    (hspare : ∃ i < maxOpenFiles, (r.table i).free = true) :
    ∃ i, i < maxOpenFiles ∧ (r.table i).free = true ∧ allocateInode r entry =
      (some i, { r with table := Function.update r.table i (freshSlot entry) }) := by
  obtain ⟨k, hk, hfree⟩ := hspare
  have htaken : ¬ Taken Slot.free r.table k := by simp [Taken, hfree]
  obtain ⟨i, hfirst, _⟩ := firstFree_le (Nat.zero_le k) (by omega : k < 0 + maxOpenFiles) htaken
  have hspec := firstFree_some hfirst
  refine ⟨i, by omega, by simpa [Taken] using hspec.2.2.1, ?_⟩
  unfold allocateInode
  rw [hfirst]
  rfl

variable {r : Reader} {ino : Nat} {n : ν}

/-- A search in a directory finds the entry, which then has the spare slot. -/
theorem Held.search_some (h : Held vol r ino n) (hroot : vol.Low vol.tree.root)
    (hlow : vol.Low n) (hdir : vol.tree.isDir n = true) {name : List UInt8}
    {entry : MsdosDirEntry} (hfound : vol.found n name = some entry)
    (hplain : entry.isDir = true → entry.size = 0) (rest : List (List UInt8)) :
    ∃ s new, findFrom r ino (name :: rest) = findFrom s new rest ∧ Moved vol entry s new := by
  obtain ⟨s, hfind, hsized⟩ := findEntry_spec h.on h.inode hroot hlow hdir name
  obtain ⟨k, hk, hfree⟩ := h.spare
  have hkeep : k ≠ ino := by
    rintro rfl
    rw [h.used] at hfree
    cases hfree
  obtain ⟨new, hnew, hwas, halloc⟩ := allocateInode_spare entry
    ⟨k, hk, by rw [hsized.frame k hkeep]; exact hfree⟩
  have hne : new ≠ ino := by
    rintro rfl
    rw [hsized.free, h.used] at hwas
    cases hwas
  have hsearch : msdosSearchDirectory r ino (some name) =
      some (some new, { s with table := Function.update s.table new (freshSlot entry) }) := by
    unfold msdosSearchDirectory
    simp only [hfind, hfound, halloc]
    rw [if_neg fun hodd => hodd.2 (hplain hodd.1)]
  refine ⟨_, new, by rw [findFrom, hsearch], ?_⟩
  refine ⟨⟨hsized.on.sb, hsized.on.fat, hsized.on.drive, hsized.on.malloc⟩, hnew, ?_, ino, h.slot, ?_⟩
  · unfold freeInode
    simp [hne]
  · unfold freeInode
    simp

theorem Held.search_none (h : Held vol r ino n) (hroot : vol.Low vol.tree.root)
    (hlow : vol.tree.isDir n = true → vol.Low n) {name : List UInt8}
    (hfound : vol.tree.isDir n = true → vol.found n name = none) (rest : List (List UInt8)) :
    ∃ s, findFrom r ino (name :: rest) = some (none, s) := by
  cases hdir : vol.tree.isDir n with
  | false =>
      have hsearch : msdosSearchDirectory r ino (some name) = some (none, r) := by
        unfold msdosSearchDirectory findEntry
        rw [h.inode.isDir, if_pos hdir]
      exact ⟨_, by rw [findFrom, hsearch]⟩
  | true =>
      obtain ⟨s, hfind, -⟩ := findEntry_spec h.on h.inode hroot (hlow hdir) hdir name
      have hsearch : msdosSearchDirectory r ino (some name) = some (none, s) := by
        unfold msdosSearchDirectory
        rw [hfind, hfound hdir]
      exact ⟨_, by rw [findFrom, hsearch]⟩

/-- A step that the tree has and the reader misses. -/
def Lost (vol : Volume ν) (n : ν) (name : List UInt8) : Prop :=
  (name = dot ∧ n = vol.tree.root) ∨ (name = dotdot ∧ vol.tree.parent n = vol.tree.root) ∨
    fold name ≠ name

/-- Where a step is lost the path leads nowhere anyway. -/
def LookupGood (vol : Volume ν) (n : ν) : List (List UInt8) → Prop
  | [] => True
  | name :: rest =>
      (Lost vol n name → vol.tree.resolve n (name :: rest) = none) ∧
        (¬ Lost vol n name → ∀ m, vol.tree.step n name = some m → LookupGood vol m rest)

theorem not_lost {name : List UInt8} (h : ¬ Lost vol n name) :
    (name = dot → n ≠ vol.tree.root) ∧ (name = dotdot → vol.tree.parent n ≠ vol.tree.root) ∧
      fold name = name := by
  unfold Lost at h
  rw [not_or, not_or, not_and, not_and, Decidable.not_not] at h
  exact h

/-- A step that is not lost is taken as the tree has it. -/
theorem Held.step (h : Held vol r ino n) (hroot : vol.Low vol.tree.root)
    (hlow : vol.tree.isDir n = true → vol.Low n) {name : List UInt8} (hname : name ≠ [])
    (hkept : ¬ Lost vol n name) (rest : List (List UInt8)) :
    (vol.tree.step n name = none → ∃ s, findFrom r ino (name :: rest) = some (none, s)) ∧
      ∀ m, vol.tree.step n name = some m →
        ∃ s new, findFrom r ino (name :: rest) = findFrom s new rest ∧ Held vol s new m := by
  obtain ⟨hdot, hup, hfold⟩ := not_lost hkept
  cases hdir : vol.tree.isDir n with
  | false =>
      rw [FileTree.step_file name hdir]
      refine ⟨fun _ => h.search_none hroot hlow (fun hd => ?_) rest, fun m hm => (nomatch hm)⟩
      rw [hdir] at hd
      cases hd
  | true =>
      by_cases hown : name = dot
      · subst hown
        have hslots := dotSlots hroot hdir (hdot rfl)
        rw [FileTree.step_stay hdir (Or.inr rfl)]
        refine ⟨fun hnone => (nomatch hnone), fun m hm => ?_⟩
        obtain rfl := Option.some.inj hm
        obtain ⟨s, new, heq, hmoved⟩ := h.search_some hroot (hlow hdir) hdir hslots.found_own
          (fun _ => hslots.own.size_zero) rest
        exact ⟨s, new, heq, hmoved.held (inodeOf_dot hdir (hdot rfl) hslots.own)⟩
      · by_cases hparent : name = dotdot
        · subst hparent
          have hne : n ≠ vol.tree.root := by
            intro heq
            exact hup rfl (by rw [heq, vol.tree.parent_root])
          have hslots := dotSlots hroot hdir hne
          obtain ⟨start, hslot, -, hstart⟩ := hslots.up
          rw [hstart (hup rfl)] at hslot
          rw [FileTree.step_up hdir]
          refine ⟨fun hnone => (nomatch hnone), fun m hm => ?_⟩
          obtain rfl := Option.some.inj hm
          obtain ⟨s, new, heq, hmoved⟩ := h.search_some hroot (hlow hdir) hdir hslots.found_up
            (fun _ => hslot.size_zero) rest
          exact ⟨s, new, heq, hmoved.held (inodeOf_dot hslots.parent_dir (hup rfl) hslot)⟩
        · have hfound := found_child hroot hdir hown hparent
          rw [if_pos hfold] at hfound
          rw [FileTree.step_down hdir (by simp [hname, hown]) hparent]
          refine ⟨fun hnone => ?_, fun m hm => ?_⟩
          · rw [hnone] at hfound
            exact h.search_none hroot hlow (fun _ => hfound) rest
          · rw [hm] at hfound
            obtain ⟨hinode, hplain⟩ := inodeOf_child hdir hm
            obtain ⟨s, new, heq, hmoved⟩ := h.search_some hroot (hlow hdir) hdir hfound hplain rest
            exact ⟨s, new, heq, hmoved.held hinode⟩

theorem clusters_small (hroot : vol.Low vol.tree.root) (hdir : vol.tree.isDir n = true)
    (hne : n ≠ vol.tree.root) : vol.sb.clusters < 2 ^ 63 := by
  have hmounted := (Volume.agrees hroot).mounted
  obtain ⟨chain, -, hsub⟩ := vol.isTree.subdirectory n hdir hne
  have hchain := subdirectory_fileChain hsub hmounted.clusterSectors_pos
  have hfirst := hchain.inside _ (List.getElem_mem (hchain.length_bounds hmounted.clusterSectors_pos).1)
  have hclusters := hmounted.clusters (by omega)
  have hcount : vol.boot.clusterCount ≤ 0xfff4 := vol.wellFormed.clusters
  omega

/-- A lost step finds nothing, or an entry of cluster 0 in place of the root. -/
theorem Held.lost (h : Held vol r ino n) (hroot : vol.Low vol.tree.root)
    (hlow : vol.tree.isDir n = true → vol.Low n) {name : List UInt8} (hlost : Lost vol n name)
    (rest : List (List UInt8)) :
    (∃ s, findFrom r ino (name :: rest) = some (none, s)) ∨
      ∃ s new entry, findFrom r ino (name :: rest) = findFrom s new rest ∧
        vol.tree.step n name = some vol.tree.root ∧ DotEntry entry dotdotName 0 ∧
        Moved vol entry s new ∧ vol.sb.clusters < 2 ^ 63 := by
  cases hdir : vol.tree.isDir n with
  | false =>
      refine Or.inl (h.search_none hroot hlow (fun hd => ?_) rest)
      rw [hdir] at hd
      cases hd
  | true =>
      by_cases hfold : fold name = name
      · by_cases hne : n = vol.tree.root
        · subst hne
          refine Or.inl (h.search_none hroot hlow (fun _ => ?_) rest)
          rcases hlost with ⟨rfl, -⟩ | ⟨rfl, -⟩ | hbad
          · exact found_root_dots.1
          · exact found_root_dots.2
          · exact absurd hfold hbad
        · have hup : name = dotdot ∧ vol.tree.parent n = vol.tree.root := by
            rcases hlost with ⟨-, heq⟩ | hup | hbad
            · exact absurd heq hne
            · exact hup
            · exact absurd hfold hbad
          obtain ⟨rfl, hparent⟩ := hup
          have hslots := dotSlots hroot hdir hne
          obtain ⟨start, hslot, hstart, -⟩ := hslots.up
          rw [hstart hparent] at hslot
          obtain ⟨s, new, heq, hmoved⟩ := h.search_some hroot (hlow hdir) hdir hslots.found_up
            (fun _ => hslot.size_zero) rest
          refine Or.inr ⟨s, new, _, heq, ?_, hslot, hmoved, clusters_small hroot hdir hne⟩
          rw [FileTree.step_up hdir, hparent]
      · have hdot : name ≠ dot := by
          rintro rfl
          exact hfold rfl
        have hup : name ≠ dotdot := by
          rintro rfl
          exact hfold rfl
        have hfound := found_child hroot hdir hdot hup
        rw [if_neg hfold] at hfound
        exact Or.inl (h.search_none hroot hlow (fun _ => hfound) rest)

inductive SmallNode where
  | root
  | a
  | d
  deriving DecidableEq

/-- The root holds the file `a` and the directory `d`. -/
def smallTree : FileTree SmallNode where
  root := .root
  isDir n := n != .a
  child n name :=
    if n ≠ .root then none
    else if fold name = [0x61] then some .a
    else if fold name = [0x64] then some .d
    else none
  parent _ := .root
  root_isDir := rfl
  parent_root := rfl
  parent_child n name m h := by
    by_cases hn : n = .root
    · exact hn.symm
    · rw [if_pos hn] at h
      cases h

/-- The bytes of a directory entry. -/
def entryBytes (a : Nat) (name : List UInt8) (attr start : UInt8) : List (Nat × UInt8) :=
  name.mapIdx (fun i c => (a + i, c)) ++ [(a + 11, attr), (a + 26, start)]

/-- A volume of 40 sectors with its root directory in sector 2 and `d` in sector 3. -/
def smallContents : ByteMemory :=
  image
    ([(12, 2), (13, 1), (14, 1), (16, 1), (17, 16), (19, 40), (22, 1), (24, 1), (26, 1), (515, 0xff),
      (516, 0x0f)] ++
    entryBytes 1024 (0x44 :: List.replicate 10 0x20) 16 2 ++
    entryBytes 1056 (0x41 :: List.replicate 10 0x20) 0 0 ++
    entryBytes 1536 dotName 16 2 ++ entryBytes 1568 dotdotName 16 0)

def smallRegion : SmallNode → Region
  | .d => .clusters [2]
  | _ => .root

/-- Where the entry of a node is. -/
def smallPlace : SmallNode → Nat
  | .d => 1024
  | _ => 1056

theorem smallSlots_root : ∀ k < 16, Live (dirEntryAt smallContents
    ((bootSectorAt smallContents).slotAt .root k)) → k = 0 ∨ k = 1 := by
  decide +kernel

theorem smallSlots_d : ∀ k < 16, 2 ≤ k → ¬ Live (dirEntryAt smallContents
    ((bootSectorAt smallContents).slotAt (.clusters [2]) k)) := by
  decide +kernel

theorem small_isTree : IsTree smallContents smallTree smallRegion smallPlace where
  root_region := rfl
  subdirectory n hdir hne := by
    cases n with
    | root => exact absurd rfl hne
    | a => cases hdir
    | d =>
        refine ⟨[2], rfl, by decide +kernel, .last (by decide +kernel), by decide +kernel, ?_, rfl, ?_⟩
        · exact ⟨by decide +kernel, by decide +kernel, by decide +kernel, by decide +kernel,
            by decide +kernel⟩
        · refine ⟨0, ⟨by decide +kernel, by decide +kernel, by decide +kernel, by decide +kernel,
            by decide +kernel⟩, fun _ => rfl, fun hbad => absurd rfl hbad⟩
  kind n hne := by
    cases n with
    | root => exact absurd rfl hne
    | a => decide +kernel
    | d => decide +kernel
  ordinary n k hdir hlo hhi hlive := by
    cases n with
    | root =>
        have hname : (dirEntryAt smallContents ((bootSectorAt smallContents).slotAt .root k)).name =
              0x44 :: List.replicate 10 0x20 ∨
            (dirEntryAt smallContents ((bootSectorAt smallContents).slotAt .root k)).name =
              0x41 :: List.replicate 10 0x20 := by
          rcases smallSlots_root k (Nat.lt_of_lt_of_eq hhi (by decide +kernel)) hlive with rfl | rfl
          · exact Or.inl (by decide +kernel)
          · exact Or.inr (by decide +kernel)
        change Ordinary (dirEntryAt smallContents ((bootSectorAt smallContents).slotAt .root k)).name
        rcases hname with heq | heq
        · rw [heq]
          exact ⟨⟨forall_of_all (by decide), 7, by decide⟩, ⟨forall_of_all (by decide), 3, by decide⟩,
            by decide⟩
        · rw [heq]
          exact ⟨⟨forall_of_all (by decide), 7, by decide⟩, ⟨forall_of_all (by decide), 3, by decide⟩,
            by decide⟩
    | a => cases hdir
    | d => exact absurd hlive (smallSlots_d k (Nat.lt_of_lt_of_eq hhi (by decide +kernel)) hlo)
  child_slot n name m hdir hchild := by
    cases n with
    | root =>
        unfold smallTree at hchild
        simp only [ne_eq, not_true_eq_false, if_false] at hchild
        split at hchild
        · rename_i hname
          obtain rfl := Option.some.inj hchild
          rw [hname]
          exact ⟨by decide, by decide +kernel, by decide +kernel, 1, by decide, by decide +kernel,
            by decide +kernel⟩
        · split at hchild
          · rename_i hname
            obtain rfl := Option.some.inj hchild
            rw [hname]
            exact ⟨by decide, by decide +kernel, by decide +kernel, 0, by decide, by decide +kernel,
              by decide +kernel⟩
          · cases hchild
    | a => cases hdir
    | d => cases hchild
  slot_child n name k hdir hlo hhi hlive hname := by
    cases n with
    | root =>
        rcases smallSlots_root k (Nat.lt_of_lt_of_eq hhi (by decide +kernel)) hlive with rfl | rfl
        · have hfold : fold name = [0x64] := hname.trans (by decide +kernel)
          refine ⟨.d, ?_, by decide +kernel⟩
          unfold smallTree
          simp [hfold]
        · have hfold : fold name = [0x61] := hname.trans (by decide +kernel)
          refine ⟨.a, ?_, by decide +kernel⟩
          unfold smallTree
          simp [hfold]
    | a => cases hdir
    | d => exact absurd hlive (smallSlots_d k (Nat.lt_of_lt_of_eq hhi (by decide +kernel)) hlo)

def smallVolume : Volume SmallNode where
  drive := (Device.sound smallContents).drive
  sb := ⟨1, 1, 12, 1, 1, 2, 16, 3, 37⟩
  fat := (List.range 341).map fun c => if c = 2 then 0xfff else 0
  tree := smallTree
  region := smallRegion
  place := smallPlace
  mounted := msdosMount_oneCluster (by decide +kernel) rfl rfl rfl rfl rfl (by decide +kernel)
  wellFormed := ⟨by decide +kernel, by decide +kernel, by decide +kernel⟩
  rootEntries := by decide +kernel
  isTree := small_isTree
  reads _ := Device.sound_succeeds smallContents

/-- The reader after the mount. -/
def smallReader : Reader where
  drive := smallVolume.drive
  malloc _ := some fun _ => 0
  t := 0
  sb := smallVolume.sb
  fat := smallVolume.fat
  table _ := ⟨⟨⟨0, 0⟩, [], 0⟩, fun _ => 0, 0, true⟩

end Milo.Fs.Dos
