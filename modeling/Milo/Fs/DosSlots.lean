import Milo.Foundation.Transition
import Milo.Fs.DosLookup

/-! # The inode table of the msdos reader

A lookup holds one slot, and a second one from the moment an entry is found to
the moment the directory is given back. Two exits keep a slot: a directory entry
with a size, and a root directory without memory for its block list. On all
others a call leaves the slots as they were, but for the one of a file that it
opens.
-/

namespace Milo.Fs.Dos

open Foundation

/-! ## Slots -/

def Reader.Taken (r : Reader) (i : Nat) : Prop := Foundation.Taken Slot.free r.table i

/-- The slots in use. -/
def Reader.inUse (r : Reader) : List Nat := Foundation.inUse Slot.free r.table maxOpenFiles

instance (r : Reader) (i : Nat) : Decidable (r.Taken i) :=
  inferInstanceAs (Decidable (Slot.free (r.table i) = false))

/-- The two readers have the same slots in use. -/
def Same (r r' : Reader) : Prop := SameSlots Slot.free r.table r'.table

/-- One more slot is in use. -/
def Takes (r : Reader) (i : Nat) (r' : Reader) : Prop :=
  TakesSlot Slot.free maxOpenFiles r.table i r'.table

theorem freeInode_frees (r : Reader) (i : Nat) :
    FreesSlot Slot.free r.table i (freeInode r i).table := freesSlot_update rfl

/-! ## The parts of a lookup -/

theorem allocateInode_some {r r' : Reader} {entry : MsdosDirEntry} {i : Nat}
    (h : allocateInode r entry = (some i, r')) : Takes r i r' := by
  unfold allocateInode at h
  split at h
  · cases h
  · rename_i k hfree
    obtain ⟨hi, rfl⟩ := Prod.mk.inj h
    obtain rfl := Option.some.inj hi
    exact takesSlot_update hfree rfl

theorem allocateInode_none {r r' : Reader} {entry : MsdosDirEntry}
    (h : allocateInode r entry = (none, r')) : r' = r := by
  unfold allocateInode at h
  split at h
  · exact (Prod.mk.inj h).2.symm
  · cases h

theorem fillSlot_same (r : Reader) (ino : Nat) : Same r (fillSlot r ino).2 := by
  unfold fillSlot
  simp only
  split
  · exact SameSlots.refl r.table
  · exact sameSlots_update rfl

theorem setSize_same (r : Reader) (ino size : Nat) : Same r (setSize r ino size) :=
  sameSlots_update rfl

theorem sizeDirectory_same (r : Reader) (ino : Nat) : Same r (sizeDirectory r ino).2 := by
  unfold sizeDirectory
  split
  · split
    · exact SameSlots.refl r.table
    · have hfilled := fun size =>
        SameSlots.trans (setSize_same r ino size) (fillSlot_same (setSize r ino size) ino)
      simp only
      split
      · exact hfilled _
      · exact SameSlots.trans (hfilled _) (setSize_same _ ino 0)
  · exact SameSlots.refl r.table

theorem msdosReaddir_same (r : Reader) (ino : Nat) : Same r (msdosReaddir r ino).2 := by
  have hsized := sizeDirectory_same r ino
  unfold msdosReaddir
  simp only
  split
  · exact hsized
  · split
    · exact hsized
    · exact hsized

theorem findEntry_same {r r' : Reader} {ino : Nat} {entryname : Option (List UInt8)}
    {entry : Option MsdosDirEntry} (h : findEntry r ino entryname = some (entry, r')) :
    Same r r' := by
  have hread := msdosReaddir_same r ino
  unfold findEntry at h
  split at h
  · obtain ⟨_, rfl⟩ := Prod.mk.inj (Option.some.inj h)
    exact SameSlots.refl r.table
  · split at h
    · rename_i hnull
      obtain ⟨_, rfl⟩ := Prod.mk.inj (Option.some.inj h)
      rw [hnull] at hread
      exact hread
    · rename_i hbuf
      obtain ⟨_, _, hpair⟩ := Option.map_eq_some_iff.mp h
      obtain ⟨_, rfl⟩ := Prod.mk.inj hpair
      rw [hbuf] at hread
      exact hread

/-! ## The two exits that keep a slot -/

/-- There is a slot for the root directory, and memory for its block list. -/
def RootSound (r : Reader) : Prop :=
  (firstFree Slot.free r.table 0 maxOpenFiles).isSome ∧ (r.malloc r.t).isSome

/-- The search is defined, and the entry that it finds is not that of a
directory with a size (when there is a slot for it). -/
structure SearchSound (r : Reader) (ino : Nat) (entryname : Option (List UInt8)) : Prop where
  defined : findEntry r ino entryname ≠ none
  plain : ∀ entry r', findEntry r ino entryname = some (some entry, r') →
    (allocateInode r' entry).1 ≠ none → entry.isDir = true → entry.size = 0

/-- The slot for the root directory, before its block list. -/
theorem allocateInode_root {r : Reader} {i : Nat}
    (h : firstFree Slot.free r.table 0 maxOpenFiles = some i) :
    ∃ s, allocateInode r (rootEntry r.sb) = (some i, s) ∧ s.malloc = r.malloc ∧ s.t = r.t := by
  unfold allocateInode
  rw [h]
  exact ⟨_, rfl, rfl, rfl⟩

theorem msdosBuildRootInode_sound {r : Reader} (h : RootSound r) :
    ∃ ino r', msdosBuildRootInode r = some (some ino, r') ∧ Takes r ino r' := by
  obtain ⟨i, hfree⟩ := Option.isSome_iff_exists.mp h.1
  obtain ⟨list, hlist⟩ := Option.isSome_iff_exists.mp h.2
  obtain ⟨s, halloc, hmalloc, ht⟩ := allocateInode_root hfree
  unfold msdosBuildRootInode
  simp only [halloc, hmalloc, ht, hlist]
  have htakes := allocateInode_some halloc
  refine ⟨i, _, rfl, htakes.same ?_⟩
  exact sameSlots_update rfl

theorem msdosBuildRootInode_unsound {r : Reader} (h : ¬ RootSound r) :
    msdosBuildRootInode r = none ∨
      ∃ ino r', msdosBuildRootInode r = some (none, r') ∧ Takes r ino r' := by
  unfold msdosBuildRootInode
  cases hfree : firstFree Slot.free r.table 0 maxOpenFiles with
  | none =>
      left
      unfold allocateInode
      rw [hfree]
  | some i =>
      right
      have hnull : r.malloc r.t = none := by
        by_contra hlist
        exact h ⟨by rw [hfree]; rfl, Option.isSome_iff_ne_none.mpr hlist⟩
      obtain ⟨s, halloc, hmalloc, ht⟩ := allocateInode_root hfree
      simp only [halloc, hmalloc, ht, hnull]
      have htakes := allocateInode_some halloc
      exact ⟨i, _, rfl, htakes⟩

/-- A call that failed but kept a slot, or that was not defined. -/
def Leaks (r : Reader) (result : Option (Option Nat × Reader)) : Prop :=
  result = none ∨ ∃ i r', result = some (none, r') ∧ Takes r i r'

/-- The slot of the inode is taken if one is returned, and none is otherwise. -/
def Exact (r : Reader) : Option (Option Nat × Reader) → Prop
  | some (some i, r') => Takes r i r'
  | some (none, r') => Same r r'
  | none => False

theorem msdosSearchDirectory_sound {r : Reader} {ino : Nat} {entryname : Option (List UInt8)}
    (h : SearchSound r ino entryname) : Exact r (msdosSearchDirectory r ino entryname) := by
  unfold msdosSearchDirectory
  cases hfind : findEntry r ino entryname with
  | none => exact h.defined hfind
  | some found =>
      obtain ⟨entry, r'⟩ := found
      have hsame := findEntry_same hfind
      cases entry with
      | none => exact hsame
      | some entry =>
          simp only
          split
          · rename_i halloc
            rw [allocateInode_none halloc]
            exact hsame
          · rename_i halloc
            have hplain := h.plain entry r' hfind (by simp [halloc])
            rw [if_neg fun hodd => hodd.2 (hplain hodd.1)]
            exact SameSlots.takes hsame (allocateInode_some halloc)

theorem msdosSearchDirectory_unsound {r : Reader} {ino : Nat} {entryname : Option (List UInt8)}
    (h : ¬ SearchSound r ino entryname) : Leaks r (msdosSearchDirectory r ino entryname) := by
  unfold msdosSearchDirectory
  cases hfind : findEntry r ino entryname with
  | none => exact Or.inl rfl
  | some found =>
      right
      have hodd : ∃ entry r', findEntry r ino entryname = some (some entry, r') ∧
          (allocateInode r' entry).1 ≠ none ∧ entry.isDir = true ∧ entry.size ≠ 0 := by
        by_contra hplain
        refine h ⟨by simp [hfind], fun entry r' hentry halloc hdir => ?_⟩
        by_contra hsize
        exact hplain ⟨entry, r', hentry, halloc, hdir, hsize⟩
      obtain ⟨entry, r', hentry, halloc, hdir, hsize⟩ := hodd
      obtain rfl := Option.some.inj (hfind.symm.trans hentry)
      simp only
      split
      · rename_i hnone
        exact absurd (congrArg Prod.fst hnone) halloc
      · rename_i new s hnew
        rw [if_pos ⟨hdir, hsize⟩]
        exact ⟨new, s, rfl, SameSlots.takes (findEntry_same hentry) (allocateInode_some hnew)⟩

/-! ## Whole lookups -/

/-- Every search of the loop is sound. -/
def WalkSound (r : Reader) (ino : Nat) : List (List UInt8) → Prop
  | [] => True
  | current :: rest =>
      SearchSound r ino (some current) ∧
        ∀ newino r', msdosSearchDirectory r ino (some current) = some (some newino, r') →
          WalkSound (freeInode r' ino) newino rest

/-- The path fits its buffer, and every search of the lookup is sound. -/
def FindSound (r : Reader) (entryname : List UInt8) : Prop :=
  if entryname = [] ∨ entryname = [slash] then RootSound r
  else
    entryname.length < 256 ∧ RootSound r ∧
      ∀ ino r', msdosBuildRootInode r = some (some ino, r') →
        if components entryname = [] then SearchSound r' ino none
        else WalkSound r' ino (components entryname)

theorem findFrom_sound {base r : Reader} {ino : Nat} {names : List (List UInt8)}
    (hheld : Takes base ino r) (h : WalkSound r ino names) :
    Exact base (findFrom r ino names) := by
  induction names generalizing r ino with
  | nil => exact hheld
  | cons current rest ih =>
      have hsearch := msdosSearchDirectory_sound h.1
      unfold findFrom
      cases hresult : msdosSearchDirectory r ino (some current) with
      | none =>
          rw [hresult] at hsearch
          exact hsearch
      | some found =>
          obtain ⟨newino, r'⟩ := found
          rw [hresult] at hsearch
          cases newino with
          | none => exact (hheld.same hsearch).release (freeInode_frees _ _)
          | some newino =>
              exact ih (hheld.release_first hsearch (freeInode_frees _ _)) (h.2 newino r' hresult)

theorem findFrom_unsound {base r : Reader} {ino : Nat} {names : List (List UInt8)}
    (hheld : Takes base ino r) (h : ¬ WalkSound r ino names) :
    Leaks base (findFrom r ino names) := by
  induction names generalizing r ino with
  | nil => exact absurd trivial h
  | cons current rest ih =>
      unfold findFrom
      by_cases hfirst : SearchSound r ino (some current)
      · have hsearch := msdosSearchDirectory_sound hfirst
        have hrest : ∃ newino r',
            msdosSearchDirectory r ino (some current) = some (some newino, r') ∧
              ¬ WalkSound (freeInode r' ino) newino rest := by
          by_contra hall
          refine h ⟨hfirst, fun newino r' hr => ?_⟩
          by_contra hwalk
          exact hall ⟨newino, r', hr, hwalk⟩
        obtain ⟨newino, r', hresult, hwalk⟩ := hrest
        rw [hresult] at hsearch ⊢
        exact ih (hheld.release_first hsearch (freeInode_frees _ _)) hwalk
      · rcases msdosSearchDirectory_unsound hfirst with hresult | ⟨i, r', hresult, htakes⟩
        · rw [hresult]
          exact Or.inl rfl
        · rw [hresult]
          exact Or.inr ⟨i, _, rfl, hheld.release_first htakes (freeInode_frees _ _)⟩

theorem msdosFind_sound {r : Reader} {entryname : List UInt8} (h : FindSound r entryname) :
    Exact r (msdosFind r entryname) := by
  unfold FindSound at h
  unfold msdosFind
  split at h
  · rename_i hroot
    obtain ⟨ino, r', hbuild, htakes⟩ := msdosBuildRootInode_sound h
    rw [if_pos hroot, hbuild]
    exact htakes
  · rename_i hpath
    obtain ⟨hfits, hroot, hwalk⟩ := h
    obtain ⟨ino, r', hbuild, htakes⟩ := msdosBuildRootInode_sound hroot
    have hwalk := hwalk ino r' hbuild
    rw [if_neg hpath, if_neg (Nat.not_le_of_lt hfits), hbuild]
    simp only
    cases hnames : components entryname with
    | nil =>
        rw [hnames, if_pos rfl] at hwalk
        have hsearch := msdosSearchDirectory_sound hwalk
        cases hresult : msdosSearchDirectory r' ino none with
        | none =>
            rw [hresult] at hsearch
            exact hsearch
        | some found =>
            obtain ⟨newino, s⟩ := found
            rw [hresult] at hsearch
            cases newino with
            | none => exact (htakes.same hsearch).release (freeInode_frees _ _)
            | some newino => exact htakes.release_first hsearch (freeInode_frees _ _)
    | cons current rest =>
        rw [hnames, if_neg (by simp)] at hwalk
        exact findFrom_sound htakes hwalk

theorem msdosFind_unsound {r : Reader} {entryname : List UInt8} (h : ¬ FindSound r entryname) :
    Leaks r (msdosFind r entryname) := by
  unfold FindSound at h
  unfold msdosFind
  split at h
  · rename_i hroot
    rw [if_pos hroot]
    exact msdosBuildRootInode_unsound h
  · rename_i hpath
    rw [if_neg hpath]
    split
    · exact Or.inl rfl
    · rename_i hfits
      by_cases hroot : RootSound r
      · obtain ⟨ino, r', hbuild, htakes⟩ := msdosBuildRootInode_sound hroot
        have hwalk : ¬ if components entryname = [] then SearchSound r' ino none
            else WalkSound r' ino (components entryname) := by
          intro hwalk
          refine h ⟨Nat.lt_of_not_le hfits, hroot, fun ino' s hbuild' => ?_⟩
          obtain ⟨hino, rfl⟩ := Prod.mk.inj (Option.some.inj (hbuild.symm.trans hbuild'))
          obtain rfl := Option.some.inj hino
          exact hwalk
        rw [hbuild]
        simp only
        cases hnames : components entryname with
        | nil =>
            rw [hnames, if_pos rfl] at hwalk
            rcases msdosSearchDirectory_unsound hwalk with hresult | ⟨i, s, hresult, hleak⟩
            · rw [hresult]
              exact Or.inl rfl
            · rw [hresult]
              exact Or.inr ⟨i, _, rfl, htakes.release_first hleak (freeInode_frees _ _)⟩
        | cons current rest =>
            rw [hnames, if_neg (by simp)] at hwalk
            exact findFrom_unsound htakes hwalk
      · rcases msdosBuildRootInode_unsound hroot with hbuild | ⟨i, r', hbuild, hleak⟩
        · rw [hbuild]
          exact Or.inl rfl
        · rw [hbuild]
          exact Or.inr ⟨i, r', rfl, hleak⟩

/-! ## Calls -/

theorem msdosOpen_sound {r : Reader} {filename : List UInt8} (h : FindSound r filename) :
    Exact r (msdosOpen r filename) := by
  have hfind := msdosFind_sound h
  unfold msdosOpen
  cases hresult : msdosFind r filename with
  | none =>
      rw [hresult] at hfind
      exact hfind
  | some found =>
      obtain ⟨ino, r'⟩ := found
      rw [hresult] at hfind
      cases ino with
      | none => exact hfind
      | some ino =>
          have hfilled := fillSlot_same r' ino
          simp only
          split
          · rename_i s hs
            rw [hs] at hfilled
            exact (hfind.same hfilled).release (freeInode_frees _ _)
          · rename_i s hs
            rw [hs] at hfilled
            exact hfind.same hfilled

theorem msdosOpen_unsound {r : Reader} {filename : List UInt8} (h : ¬ FindSound r filename) :
    Leaks r (msdosOpen r filename) := by
  unfold msdosOpen
  rcases msdosFind_unsound h with hresult | ⟨i, r', hresult, hleak⟩
  · rw [hresult]
    exact Or.inl rfl
  · rw [hresult]
    exact Or.inr ⟨i, r', rfl, hleak⟩

theorem msdosLs_sound {r : Reader} {dirname : List UInt8} (h : FindSound r dirname) :
    ∃ r', msdosLs r dirname = some r' ∧ Same r r' := by
  have hfind := msdosFind_sound h
  unfold msdosLs
  cases hresult : msdosFind r dirname with
  | none =>
      rw [hresult] at hfind
      exact hfind.elim
  | some found =>
      obtain ⟨ino, r'⟩ := found
      rw [hresult] at hfind
      cases ino with
      | none => exact ⟨r', rfl, hfind⟩
      | some ino =>
          simp only
          split
          · exact ⟨_, rfl, (hfind.same (msdosReaddir_same r' ino)).release (freeInode_frees _ _)⟩
          · exact ⟨_, rfl, hfind.release (freeInode_frees _ _)⟩

theorem msdosLs_unsound {r r' : Reader} {dirname : List UInt8} (h : ¬ FindSound r dirname)
    (hls : msdosLs r dirname = some r') : ∃ i, Takes r i r' := by
  unfold msdosLs at hls
  rcases msdosFind_unsound h with hresult | ⟨i, s, hresult, hleak⟩
  · rw [hresult] at hls
    cases hls
  · rw [hresult] at hls
    obtain rfl := Option.some.inj hls
    exact ⟨i, hleak⟩

/-- The reader with the files that are open. -/
structure Session where
  reader : Reader
  opens : List Nat

inductive FileCall where
  | open (filename : List UInt8)
  | ls (dirname : List UInt8)
  | close (fd : Int)

def fileStep (s : Session) : FileCall → Option Session
  | .open filename =>
      (msdosOpen s.reader filename).map fun (fd, r) => ⟨r, fd.toList ++ s.opens⟩
  | .ls dirname => (msdosLs s.reader dirname).map fun r => ⟨r, s.opens⟩
  | .close fd => some ⟨msdosClose s.reader fd, if fd < 0 then s.opens else s.opens.erase fd.toNat⟩

/-- The slots in use are those of the open files. -/
def Session.Balanced (s : Session) : Prop := s.reader.inUse.Perm s.opens

def CallSound (s : Session) : FileCall → Prop
  | .open filename => FindSound s.reader filename
  | .ls dirname => FindSound s.reader dirname
  | .close _ => True

theorem msdosClose_balanced {s : Session} (h : s.Balanced) (fd : Int) :
    (msdosClose s.reader fd).inUse.Perm
      (if fd < 0 then s.opens else s.opens.erase fd.toNat) := by
  unfold msdosClose
  split
  · rename_i hclosed
    split
    · exact h
    · rename_i hpos
      have hnot : fd.toNat ∉ s.opens := by
        intro hmem
        have htaken := mem_inUse.mp (h.mem_iff.mpr hmem)
        have hfree := (hclosed.resolve_left hpos).resolve_left (by omega)
        rw [Foundation.Taken, hfree] at htaken
        exact absurd htaken.2 (by decide)
      rw [List.erase_of_not_mem hnot]
      exact h
  · rename_i hopen
    rw [if_neg fun hneg => hopen (Or.inl hneg)]
    exact (freeInode_frees s.reader fd.toNat).inUse.trans (h.erase fd.toNat)

/-- The calls that keep the table balanced are the sound ones. -/
theorem fileStep_balanced_iff (s : Session) (call : FileCall) (h : s.Balanced) :
    CallSound s call ↔ ∃ s', fileStep s call = some s' ∧ s'.Balanced := by
  cases call with
  | «open» filename =>
      constructor
      · intro hsound
        have hexact := msdosOpen_sound hsound
        unfold fileStep
        simp only
        cases hopen : msdosOpen s.reader filename with
        | none =>
            rw [hopen] at hexact
            exact hexact.elim
        | some result =>
            obtain ⟨fd, r⟩ := result
            rw [hopen] at hexact
            refine ⟨_, rfl, ?_⟩
            cases fd with
            | none => exact hexact.balanced h
            | some fd => exact hexact.inUse.trans (h.cons fd)
      · intro ⟨s', hstep, hbalanced⟩
        by_contra hsound
        unfold fileStep at hstep
        rcases msdosOpen_unsound hsound with hopen | ⟨i, r, hopen, hleak⟩
        · simp [hopen] at hstep
        · simp only [hopen, Option.map_some] at hstep
          obtain rfl := Option.some.inj hstep
          exact hleak.unbalanced h hbalanced
  | ls dirname =>
      constructor
      · intro hsound
        obtain ⟨r, hls, hsame⟩ := msdosLs_sound hsound
        unfold fileStep
        simp only [hls, Option.map_some]
        exact ⟨_, rfl, hsame.balanced h⟩
      · intro ⟨s', hstep, hbalanced⟩
        by_contra hsound
        obtain ⟨r, hls, rfl⟩ := Option.map_eq_some_iff.mp hstep
        obtain ⟨i, hleak⟩ := msdosLs_unsound hsound hls
        exact hleak.unbalanced h hbalanced
  | close fd => exact ⟨fun _ => ⟨_, rfl, msdosClose_balanced h fd⟩, fun _ => trivial⟩

/-- The runs that keep the table balanced all along are those of sound calls. -/
theorem msdosRun_balanced_iff (s : Session) (calls : List FileCall) (h : s.Balanced) :
    StepsMeet fileStep CallSound s calls ↔
      ∀ n ≤ calls.length, ∃ s', run fileStep s (calls.take n) = some s' ∧ s'.Balanced :=
  run_total_iff fileStep_balanced_iff calls h

/-! ## Checking a lookup -/

instance (r : Reader) : Decidable (RootSound r) := inferInstanceAs (Decidable (_ ∧ _))

instance (r : Reader) (ino : Nat) (entryname : Option (List UInt8)) :
    Decidable (SearchSound r ino entryname) :=
  match h : findEntry r ino entryname with
  | none => isFalse fun hsound => hsound.defined h
  | some (none, _) => isTrue ⟨by simp [h], fun entry r' hentry => by simp [h] at hentry⟩
  | some (some entry, r') =>
      decidable_of_iff
        ((allocateInode r' entry).1 ≠ none → entry.isDir = true → entry.size = 0)
        ⟨fun hplain => ⟨by simp [h], fun entry' s hentry => by
          obtain ⟨rfl, rfl⟩ : entry = entry' ∧ r' = s := by simpa [h] using hentry
          exact hplain⟩,
        fun hsound => hsound.plain entry r' h⟩

instance walkSoundDecidable : ∀ r ino names, Decidable (WalkSound r ino names)
  | _, _, [] => isTrue trivial
  | r, ino, current :: rest =>
      match h : msdosSearchDirectory r ino (some current) with
      | some (some newino, r') =>
          have : Decidable (WalkSound (freeInode r' ino) newino rest) :=
            walkSoundDecidable (freeInode r' ino) newino rest
          decidable_of_iff
            (SearchSound r ino (some current) ∧ WalkSound (freeInode r' ino) newino rest)
            (by simp [WalkSound, h])
      | some (none, _) => decidable_of_iff (SearchSound r ino (some current)) (by simp [WalkSound, h])
      | none => decidable_of_iff (SearchSound r ino (some current)) (by simp [WalkSound, h])

instance (r : Reader) (entryname : List UInt8) : Decidable (FindSound r entryname) :=
  if h : entryname = [] ∨ entryname = [slash] then
    decidable_of_iff (RootSound r) (by simp [FindSound, h])
  else
    match hbuild : msdosBuildRootInode r with
    | some (some ino, r') =>
        decidable_of_iff
          (entryname.length < 256 ∧ RootSound r ∧
            if components entryname = [] then SearchSound r' ino none
            else WalkSound r' ino (components entryname))
          (by rw [FindSound, if_neg h]; simp [hbuild])
    | some (none, _) =>
        decidable_of_iff (entryname.length < 256 ∧ RootSound r)
          (by rw [FindSound, if_neg h]; simp [hbuild])
    | none =>
        decidable_of_iff (entryname.length < 256 ∧ RootSound r)
          (by rw [FindSound, if_neg h]; simp [hbuild])

instance (s : Session) (call : FileCall) : Decidable (CallSound s call) :=
  match call with
  | .open filename => inferInstanceAs (Decidable (FindSound s.reader filename))
  | .ls dirname => inferInstanceAs (Decidable (FindSound s.reader dirname))
  | .close _ => isTrue trivial

/-! ## A small volume -/

/-- The reader after a mount: all slots are free. -/
def mountReader (device : Device) (malloc : Nat → Option (Nat → Nat)) : Option Reader :=
  (msdosMount device).map fun (sb, fat) =>
    { drive := device.drive
      malloc := malloc
      t := 0
      sb := sb
      fat := fat
      table := fun _ => ⟨⟨⟨0, 0⟩, [], 0⟩, fun _ => 0, 0, true⟩ }

/-- A volume of 8 sectors: its root directory holds the directory `d`, whose
entry has a size, and the file `a`. -/
def sizedDirectory : Device :=
  Device.sound <| image
    [(12, 2), (13, 1), (14, 1), (16, 1), (17, 16), (19, 8), (22, 1), (24, 1), (26, 1),
      (512, 0xf8), (513, 0xff), (514, 0xff), (515, 0xff), (516, 0xff), (517, 0xff),
      (1024, 0x44), (1025, 0x20), (1026, 0x20), (1027, 0x20), (1028, 0x20), (1029, 0x20),
      (1030, 0x20), (1031, 0x20), (1032, 0x20), (1033, 0x20), (1034, 0x20), (1035, 0x10),
      (1050, 2), (1053, 2),
      (1056, 0x41), (1057, 0x20), (1058, 0x20), (1059, 0x20), (1060, 0x20), (1061, 0x20),
      (1062, 0x20), (1063, 0x20), (1064, 0x20), (1065, 0x20), (1066, 0x20), (1067, 0x20),
      (1082, 3), (1084, 5)]

/-- The reader of this volume; there is always memory. -/
def sizedReader : Reader :=
  (mountReader sizedDirectory fun _ => some fun _ => 0).get (by decide +kernel)

theorem sizedReader_balanced : Session.Balanced ⟨sizedReader, []⟩ := by
  have hnone : sizedReader.inUse = [] := by decide +kernel
  exact List.Perm.of_eq hnone

/-- Opening the file, listing the root directory and closing the file. -/
theorem msdosRun_balanced_file :
    ∃ s', run fileStep ⟨sizedReader, []⟩ [.open [0x61], .ls [slash], .close 1] = some s' ∧
      s'.Balanced :=
  (msdosRun_balanced_iff ⟨sizedReader, []⟩ [.open [0x61], .ls [slash], .close 1]
    sizedReader_balanced).mp (by decide +kernel) 3 (Nat.le_refl 3)

/-- Listing the directory fails and keeps a slot. -/
theorem sizedDirectory_leaks :
    ∃ s', fileStep ⟨sizedReader, []⟩ (.ls [0x64]) = some s' ∧ s'.reader.inUse = [1] ∧
      s'.opens = [] ∧ ¬ s'.Balanced := by
  have hleak : (fileStep ⟨sizedReader, []⟩ (.ls [0x64])).map
      (fun s' => (s'.reader.inUse, s'.opens)) = some ([1], []) := by decide +kernel
  obtain ⟨s', hstep, hpair⟩ := Option.map_eq_some_iff.mp hleak
  obtain ⟨huse, hopens⟩ := Prod.mk.inj hpair
  refine ⟨s', hstep, huse, hopens, ?_⟩
  unfold Session.Balanced
  rw [huse, hopens]
  decide

end Milo.Fs.Dos
