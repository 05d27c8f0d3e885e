import Milo.Foundation.SlotTable
import Milo.Foundation.Transition
import Milo.Fs.IsoLookup

/-! # The inode table of the iso9660 reader

A lookup that succeeds ends with the slot of its inode, and so does an open. But
a component before the last that is not found keeps the slot of its directory, a
listing keeps that of what it lists, and a close gives nothing back.
-/

namespace Milo.Fs.Isofs

open Foundation

/-! ## Slots -/

/-- The slots in use. -/
def Reader.inUse (r : Reader) : List Nat :=
  Foundation.inUse InodeEntry.free r.table maxOpenFiles

/-- The two readers have the same slots in use. -/
def Same (r r' : Reader) : Prop := SameSlots InodeEntry.free r.table r'.table

/-- One more slot is in use. -/
def Takes (r : Reader) (i : Nat) (r' : Reader) : Prop :=
  TakesSlot InodeEntry.free maxOpenFiles r.table i r'.table

theorem freeSlot_eq (table : Nat → InodeEntry) (i n : Nat) :
    freeSlot table i n = firstFree InodeEntry.free table i n := by
  induction n generalizing i with
  | zero => rfl
  | succ n ih => simp only [freeSlot, firstFree, ih]

theorem isofsIput_frees (r : Reader) (ip : Nat) :
    FreesSlot InodeEntry.free r.table ip (isofsIput r ip).table := freesSlot_update rfl

theorem rawInode_table {drive : Drive} {t : Nat} {s s' : State} {ino : Int}
    {raw : Option ByteMemory} (h : rawInode drive t s ino = some (raw, s')) :
    s'.table = s.table := by
  unfold rawInode at h
  simp only at h
  split at h
  · obtain ⟨_, rfl⟩ := Prod.mk.inj (Option.some.inj h)
    rfl
  · split at h
    · split at h
      · obtain ⟨_, rfl⟩ := Prod.mk.inj (Option.some.inj h)
        rfl
      · split at h
        · cases h
        · obtain ⟨_, rfl⟩ := Prod.mk.inj (Option.some.inj h)
          rfl
    · obtain ⟨_, rfl⟩ := Prod.mk.inj (Option.some.inj h)
      rfl

/-- An inode that is read takes a slot, and one that cannot be read takes none. -/
theorem iget_slots {r r' : Reader} {ino : Nat} {result : Option Nat}
    (h : iget r ino = some (result, r')) :
    (∀ i, result = some i → Takes r i r') ∧ (result = none → Same r r') := by
  unfold iget at h
  have higet := Option.map_eq_some_iff.mp h
  unfold isofsIget at higet
  simp only [freeSlot_eq] at higet
  split at higet
  · obtain ⟨_, hpair, heq⟩ := higet
    obtain rfl := Option.some.inj hpair
    obtain ⟨rfl, rfl⟩ := Prod.mk.inj heq
    exact ⟨fun i hi => absurd hi.symm (Option.some_ne_none i), fun _ => SameSlots.refl r.table⟩
  · rename_i slot hfree
    split at higet
    · obtain ⟨_, hpair, _⟩ := higet
      cases hpair
    · rename_i s hraw
      obtain ⟨_, hpair, heq⟩ := higet
      obtain rfl := Option.some.inj hpair
      obtain ⟨rfl, rfl⟩ := Prod.mk.inj heq
      refine ⟨fun i hi => absurd hi.symm (Option.some_ne_none i), fun _ => ?_⟩
      unfold Same
      simp only [rawInode_table hraw]
      exact SameSlots.refl r.table
    · rename_i raw s hraw
      obtain ⟨_, hpair, heq⟩ := higet
      obtain rfl := Option.some.inj hpair
      obtain ⟨rfl, rfl⟩ := Prod.mk.inj heq
      refine ⟨fun i hi => ?_, fun hnone => absurd hnone (Option.some_ne_none _)⟩
      obtain rfl := Option.some.inj hi
      unfold Takes
      simp only [rawInode_table hraw]
      exact takesSlot_update hfree rfl

theorem setBuffer_table (r : Reader) (big : Bool) (buf : ByteMemory) :
    (r.setBuffer big buf).table = r.table := by
  unfold Reader.setBuffer
  split <;> rfl

theorem checkRecord_table (r : Reader) (itp : InodeEntry) (place : Place) (inodeNumber : Nat)
    (name : List UInt8) : (checkRecord r itp place inodeNumber name).2.table = r.table := by
  unfold checkRecord
  simp only
  split <;> exact setBuffer_table r place.big _

theorem findLoop_table (r : Reader) (itp : InodeEntry) (name : List UInt8)
    (inoBack fPos offset block n : Nat) :
    (findLoop r itp name inoBack fPos offset block n).2.table = r.table := by
  induction n generalizing r fPos offset block with
  | zero => rfl
  | succ n ih =>
      unfold findLoop
      simp only
      split
      · rfl
      · split
        · split
          · rfl
          · split
            · rw [ih]
              rfl
            · rfl
        · split
          · split
            · rfl
            · split
              · rfl
              · split
                · rename_i s hcheck
                  have hs := congrArg (fun c => c.2.table) hcheck
                  rw [checkRecord_table] at hs
                  rw [ih, ← hs]
                  rfl
                · rename_i s hcheck
                  have hs := congrArg (fun c => c.2.table) hcheck
                  rw [checkRecord_table] at hs
                  rw [← hs]
                  rfl
          · split
            · rename_i s hcheck
              have hs := congrArg (fun c => c.2.table) hcheck
              rw [checkRecord_table] at hs
              rw [ih, ← hs]
            · rename_i s hcheck
              have hs := congrArg (fun c => c.2.table) hcheck
              rw [checkRecord_table] at hs
              rw [← hs]

theorem isofsFindEntry_table {r r' : Reader} {dir : Nat} {name : List UInt8} {inoBack : Nat}
    {entry : Option (Nat × Nat)} (h : isofsFindEntry r dir name inoBack = (entry, r')) :
    r'.table = r.table := by
  have hr : r' = (isofsFindEntry r dir name inoBack).2 := by rw [h]
  rw [hr]
  unfold isofsFindEntry
  simp only
  split
  · rfl
  · split
    · rfl
    · split
      · rw [findLoop_table]
        rfl
      · rfl

theorem listLoop_table (r : Reader) (itp : InodeEntry) (fPos offset block n : Nat) :
    (listLoop r itp fPos offset block n).table = r.table := by
  induction n generalizing r fPos offset block with
  | zero => rfl
  | succ n ih =>
      unfold listLoop
      simp only
      split
      · rfl
      · split
        · split
          · rfl
          · split
            · rw [ih]
              rfl
            · rfl
        · split
          · split
            · rfl
            · rw [ih]
              rfl
          · rw [ih]

theorem isofsListEntry_table (r : Reader) (dir : Nat) : (isofsListEntry r dir).table = r.table := by
  unfold isofsListEntry
  simp only
  split
  · rfl
  · split
    · rfl
    · split
      · rw [listLoop_table]
        rfl
      · rfl

/-! ## Whole lookups -/

/-- The component is found and its inode can be put together; if it can be read,
something holds of the directory that it becomes. -/
def AfterStep (r : Reader) (dir inoBack : Nat) (name : List UInt8)
    (P : Reader → Nat → Nat → Prop) : Prop :=
  ∃ ino back r', isofsFindEntry r dir name inoBack = (some (ino, back), r') ∧
    ∃ result s, iget (isofsIput r' dir) ino = some (result, s) ∧
      ∀ dir', result = some dir' → P s dir' back

/-- Every component before the last is found, and no record on the way is one that
cannot be put together. -/
def WalkSound (r : Reader) (dir inoBack : Nat) : List (List UInt8) → Prop
  | [] => False
  | [name] =>
      ∀ ino back r', isofsFindEntry r dir name inoBack = (some (ino, back), r') → iget r' ino ≠ none
  | name :: next :: rest =>
      AfterStep r dir inoBack name fun s dir' back => WalkSound s dir' back (next :: rest)

/-- The same, but the last component is not found or an inode cannot be read. -/
def WalkMisses (r : Reader) (dir inoBack : Nat) : List (List UInt8) → Prop
  | [] => False
  | [name] =>
      ∀ ino back r', isofsFindEntry r dir name inoBack = (some (ino, back), r') →
        ∃ s, iget r' ino = some (none, s)
  | name :: next :: rest =>
      AfterStep r dir inoBack name fun s dir' back => WalkMisses s dir' back (next :: rest)

/-- The four ways in which a lookup ends: with the slot of its inode, with the
slots that were in use before, with a slot that nothing refers to, or in a copy
that is not defined. -/
inductive LookupEnds (base : Reader) (sound misses : Prop) :
    Option (Option Nat × Reader) → Prop where
  | found (i : Nat) (r : Reader) (hsound : sound) (hmisses : ¬ misses) (htakes : Takes base i r) :
      LookupEnds base sound misses (some (some i, r))
  | missed (r : Reader) (hsound : sound) (hmisses : misses) (hsame : Same base r) :
      LookupEnds base sound misses (some (none, r))
  | leaked (i : Nat) (r : Reader) (hsound : ¬ sound) (hmisses : ¬ misses)
      (htakes : Takes base i r) : LookupEnds base sound misses (some (none, r))
  | undefined (hsound : ¬ sound) (hmisses : ¬ misses) : LookupEnds base sound misses none

theorem LookupEnds.congr {base : Reader} {sound sound' misses misses' : Prop}
    {result : Option (Option Nat × Reader)} (h : LookupEnds base sound misses result)
    (hsound : sound ↔ sound') (hmisses : misses ↔ misses') :
    LookupEnds base sound' misses' result := by
  rw [propext hsound, propext hmisses] at h
  exact h

theorem Takes.find {base r r' : Reader} {dir inoBack : Nat} {name : List UInt8}
    {entry : Option (Nat × Nat)} (hheld : Takes base dir r)
    (hfind : isofsFindEntry r dir name inoBack = (entry, r')) : Takes base dir r' := by
  unfold Takes
  rw [isofsFindEntry_table hfind]
  exact hheld

theorem lookupLast_ends {base r : Reader} {dir inoBack : Nat} (name : List UInt8)
    (hheld : Takes base dir r) :
    LookupEnds base (WalkSound r dir inoBack [name]) (WalkMisses r dir inoBack [name])
      (lookupFrom r dir inoBack [name]) := by
  unfold lookupFrom WalkSound WalkMisses
  cases hfind : isofsFindEntry r dir name inoBack with
  | mk entry r' =>
      have hheld' := hheld.find hfind
      cases entry with
      | none =>
          exact .missed _ (by simp) (by simp) (hheld'.release (isofsIput_frees r' dir))
      | some entry =>
          have hread : ∀ Q : Nat → Reader → Prop,
              (∀ ino back s, (some entry, r') = (some (ino, back), s) → Q ino s) ↔
                Q entry.1 r' := by
            intro Q
            constructor
            · exact fun h => h entry.1 entry.2 r' rfl
            · intro hQ ino back s hs
              obtain ⟨hentry, rfl⟩ := Prod.mk.inj hs
              rw [Option.some.inj hentry] at hQ
              exact hQ
          rw [hread fun ino s => iget s ino ≠ none, hread fun ino s => ∃ t, iget s ino = some (none, t)]
          simp only
          cases higet : iget r' entry.1 with
          | none => exact .undefined (by simp) (by simp)
          | some pair =>
              have hslots := iget_slots higet
              cases hresult : pair.1 with
              | none =>
                  have hsame := hslots.2 hresult
                  rw [← Prod.eta pair, hresult]
                  exact .missed _ (by simp) (by simp)
                    ((hheld'.same hsame).release (isofsIput_frees pair.2 dir))
              | some i =>
                  have htakes := hslots.1 i hresult
                  have hback : Same pair.2 (setBacklink pair.2 i entry.2) := sameSlots_update rfl
                  rw [← Prod.eta pair, hresult]
                  exact .found i _ (by simp) (by simp)
                    (hheld'.release_first (htakes.same hback) (isofsIput_frees _ dir))

/-- What holds after a component that was found. -/
theorem afterStep_iff {r r' s : Reader} {dir inoBack ino back : Nat} {name : List UInt8}
    {result : Option Nat} (hfind : isofsFindEntry r dir name inoBack = (some (ino, back), r'))
    (higet : iget (isofsIput r' dir) ino = some (result, s)) (P : Reader → Nat → Nat → Prop) :
    AfterStep r dir inoBack name P ↔ ∀ dir', result = some dir' → P s dir' back := by
  unfold AfterStep
  constructor
  · intro ⟨ino', back', t, hfind', result', u, higet', hP⟩
    rw [hfind] at hfind'
    obtain ⟨hentry, rfl⟩ := Prod.mk.inj hfind'
    obtain ⟨rfl, rfl⟩ := Prod.mk.inj (Option.some.inj hentry)
    rw [higet] at higet'
    obtain ⟨rfl, rfl⟩ := Prod.mk.inj (Option.some.inj higet')
    exact hP
  · exact fun hP => ⟨ino, back, r', hfind, result, s, higet, hP⟩

theorem lookupFrom_ends {base r : Reader} {dir inoBack : Nat} {names : List (List UInt8)}
    (hheld : Takes base dir r) (hnames : names ≠ []) :
    LookupEnds base (WalkSound r dir inoBack names) (WalkMisses r dir inoBack names)
      (lookupFrom r dir inoBack names) := by
  induction names generalizing r dir inoBack with
  | nil => contradiction
  | cons name rest ih =>
      cases rest with
      | nil => exact lookupLast_ends name hheld
      | cons next rest =>
          unfold lookupFrom WalkSound WalkMisses
          cases hfind : isofsFindEntry r dir name inoBack with
          | mk entry r' =>
              have hheld' := hheld.find hfind
              cases entry with
              | none =>
                  exact .leaked dir r' (by simp [AfterStep, hfind]) (by simp [AfterStep, hfind]) hheld'
              | some entry =>
                  have hfreed := hheld'.release (isofsIput_frees r' dir)
                  simp only
                  cases higet : iget (isofsIput r' dir) entry.1 with
                  | none =>
                      have hstep : ∀ P, ¬ AfterStep r dir inoBack name P := by
                        intro P ⟨ino, back, t, hfind', _, _, higet', _⟩
                        rw [hfind] at hfind'
                        obtain ⟨hentry, rfl⟩ := Prod.mk.inj hfind'
                        rw [Option.some.inj hentry] at higet
                        rw [higet] at higet'
                        cases higet'
                      exact .undefined (hstep _) (hstep _)
                  | some pair =>
                      have hslots := iget_slots higet
                      have hstep := afterStep_iff hfind higet
                      cases hresult : pair.1 with
                      | none =>
                          rw [← Prod.eta pair, hresult]
                          refine .missed pair.2 ?_ ?_ (hfreed.trans (hslots.2 hresult))
                          · exact (hstep _).mpr (by simp [hresult])
                          · exact (hstep _).mpr (by simp [hresult])
                      | some dir' =>
                          rw [← Prod.eta pair, hresult]
                          have hrest := @ih pair.2 dir' entry.2 (hfreed.takes (hslots.1 dir' hresult))
                            (by simp)
                          refine hrest.congr ?_ ?_
                          · rw [hstep, hresult]
                            simp
                          · rw [hstep, hresult]
                            simp

/-- The root can be read, and something holds of the walk from there if it is a
directory. -/
def AtRoot (r : Reader) (P : Reader → Nat → Prop) : Prop :=
  ∃ result s, iget r r.sb.rootInode = some (result, s) ∧
    ∀ root, result = some root → isDir (s.table root).mode = true → P s root

/-- Every component before the last is found, if the lookup gets to any, and no
record on the way is one that cannot be put together. -/
def LookupSound (r : Reader) (path : List UInt8) : Prop :=
  AtRoot r fun s root => WalkSound s root 0 (fields path)

/-- The same, but the lookup finds nothing. -/
def LookupMisses (r : Reader) (path : List UInt8) : Prop :=
  AtRoot r fun s root => WalkMisses s root 0 (fields path)

theorem atRoot_iff {r s : Reader} {result : Option Nat}
    (higet : iget r r.sb.rootInode = some (result, s)) (P : Reader → Nat → Prop) :
    AtRoot r P ↔ ∀ root, result = some root → isDir (s.table root).mode = true → P s root := by
  unfold AtRoot
  constructor
  · intro ⟨result', t, higet', hP⟩
    rw [higet] at higet'
    obtain ⟨rfl, rfl⟩ := Prod.mk.inj (Option.some.inj higet')
    exact hP
  · exact fun hP => ⟨result, s, higet, hP⟩

theorem iso9660Open_ends (r : Reader) (path : List UInt8) :
    LookupEnds r (LookupSound r path) (LookupMisses r path) (iso9660Open r path) := by
  unfold iso9660Open
  cases higet : iget r r.sb.rootInode with
  | none =>
      have hroot : ∀ P, ¬ AtRoot r P := by
        intro P ⟨result, s, higet', _⟩
        rw [higet] at higet'
        cases higet'
      exact .undefined (hroot _) (hroot _)
  | some pair =>
      have hslots := iget_slots higet
      have hroot := atRoot_iff higet
      rw [← Prod.eta pair]
      unfold LookupSound LookupMisses
      cases hresult : pair.1 with
      | none =>
          refine .missed pair.2 ?_ ?_ (hslots.2 hresult)
          · exact (hroot _).mpr (by simp [hresult])
          · exact (hroot _).mpr (by simp [hresult])
      | some root =>
          have htakes := hslots.1 root hresult
          simp only
          unfold isofsLookup
          split
          · rename_i hfile
            refine .missed _ ?_ ?_ (htakes.release (isofsIput_frees pair.2 root))
            · exact (hroot _).mpr (by simp [hresult, hfile])
            · exact (hroot _).mpr (by simp [hresult, hfile])
          · rename_i hdir
            refine (lookupFrom_ends htakes (fields_ne_nil path)).congr ?_ ?_
            · rw [hroot, hresult]
              simp [hdir]
            · rw [hroot, hresult]
              simp [hdir]

/-! ## Calls -/

/-- The reader with the files that are open. -/
structure Session where
  reader : Reader
  opens : List Nat

inductive FileCall where
  | open (filename : List UInt8)
  | ls (dirname : List UInt8)
  | close (fd : Nat)

def fileStep (s : Session) : FileCall → Option Session
  | .open filename =>
      (iso9660Open s.reader filename).map fun (fd, r) => ⟨r, fd.toList ++ s.opens⟩
  | .ls dirname => (iso9660Ls s.reader dirname).map fun r => ⟨r, s.opens⟩
  | .close fd => some ⟨iso9660Close s.reader fd, s.opens.erase fd⟩

/-- The slots in use are those of the open files. -/
def Session.Balanced (s : Session) : Prop := s.reader.inUse.Perm s.opens

/-- `iso9660_ls` skips the first slash. -/
def listedPath (dirname : List UInt8) : List UInt8 :=
  if dirname.head? = some slash then dirname.tail else dirname

/-- Every component before the last is found, a listing finds nothing, no record
on the way is one that cannot be put together, and no open file is closed. -/
def CallSound (s : Session) : FileCall → Prop
  | .open filename => LookupSound s.reader filename
  | .ls dirname => LookupMisses s.reader (listedPath dirname)
  | .close fd => fd ∉ s.opens

theorem iso9660Ls_eq (r : Reader) (dirname : List UInt8) :
    (iso9660Ls r dirname).map (·.table) =
      (iso9660Open r (listedPath dirname)).map (·.2.table) := by
  unfold iso9660Ls iso9660Open listedPath
  split
  · rfl
  · rfl
  · simp only
    split
    · rename_i hlookup
      rw [hlookup]
      rfl
    · rename_i hlookup
      rw [hlookup]
      rfl
    · rename_i hlookup
      rw [hlookup]
      split
      · rw [Option.map_some, Option.map_some, isofsListEntry_table]
      · rfl

theorem open_balanced_iff {s : Session} (h : s.Balanced) (filename : List UInt8) :
    LookupSound s.reader filename ↔ ∃ fd r, iso9660Open s.reader filename = some (fd, r) ∧
      r.inUse.Perm (fd.toList ++ s.opens) := by
  have hends := iso9660Open_ends s.reader filename
  generalize iso9660Open s.reader filename = result at hends ⊢
  cases hends with
  | found i r hsound _ htakes =>
      exact ⟨fun _ => ⟨some i, r, rfl, htakes.inUse.trans (h.cons i)⟩, fun _ => hsound⟩
  | missed r hsound _ hsame => exact ⟨fun _ => ⟨none, r, rfl, hsame.balanced h⟩, fun _ => hsound⟩
  | leaked i r hsound _ htakes =>
      refine ⟨fun hs => absurd hs hsound, ?_⟩
      intro ⟨fd, s', heq, hperm⟩
      obtain ⟨rfl, rfl⟩ := Prod.mk.inj (Option.some.inj heq)
      exact absurd hperm (htakes.unbalanced h)
  | undefined hsound _ => exact ⟨fun hs => absurd hs hsound, fun ⟨_, _, heq, _⟩ => nomatch heq⟩

theorem ls_balanced_iff {s : Session} (h : s.Balanced) (dirname : List UInt8) :
    LookupMisses s.reader (listedPath dirname) ↔
      ∃ r, iso9660Ls s.reader dirname = some r ∧ r.inUse.Perm s.opens := by
  have hls := iso9660Ls_eq s.reader dirname
  have hends := iso9660Open_ends s.reader (listedPath dirname)
  generalize iso9660Open s.reader (listedPath dirname) = result at hends hls
  -- A listing leaves the slots of the lookup that it makes.
  have hslots : (∃ r, iso9660Ls s.reader dirname = some r ∧ r.inUse.Perm s.opens) ↔
      ∃ fd r, result = some (fd, r) ∧ r.inUse.Perm s.opens := by
    constructor
    · intro ⟨r, hr, hperm⟩
      rw [hr, Option.map_some] at hls
      obtain ⟨pair, hpair, htable⟩ := Option.map_eq_some_iff.mp hls.symm
      refine ⟨pair.1, pair.2, hpair, ?_⟩
      unfold Reader.inUse
      rw [htable]
      exact hperm
    · intro ⟨fd, r, hr, hperm⟩
      rw [hr, Option.map_some] at hls
      obtain ⟨r', hr', htable⟩ := Option.map_eq_some_iff.mp hls
      refine ⟨r', hr', ?_⟩
      unfold Reader.inUse
      rw [htable]
      exact hperm
  rw [hslots]
  have htaken : ∀ (fd : Option Nat) (i : Nat) (r : Reader), Takes s.reader i r →
      ¬ ∃ fd' r', some (fd, r) = some (fd', r') ∧ r'.inUse.Perm s.opens := by
    rintro fd i r htakes ⟨fd', r', heq, hperm⟩
    obtain ⟨rfl, rfl⟩ := Prod.mk.inj (Option.some.inj heq)
    exact htakes.unbalanced h hperm
  cases hends with
  | found i r _ hmisses htakes => exact iff_of_false hmisses (htaken _ i r htakes)
  | missed r _ hmisses hsame => exact ⟨fun _ => ⟨none, r, rfl, hsame.balanced h⟩, fun _ => hmisses⟩
  | leaked i r _ hmisses htakes => exact iff_of_false hmisses (htaken _ i r htakes)
  | undefined _ hmisses => exact ⟨fun hm => absurd hm hmisses, fun ⟨_, _, heq, _⟩ => nomatch heq⟩

theorem close_balanced_iff {s : Session} (h : s.Balanced) (fd : Nat) :
    fd ∉ s.opens ↔ (iso9660Close s.reader fd).inUse.Perm (s.opens.erase fd) := by
  unfold iso9660Close
  constructor
  · intro hfd
    rw [List.erase_of_not_mem hfd]
    exact h
  · intro hperm hfd
    have hlength := (h.symm.trans hperm).length_eq
    rw [List.length_erase_of_mem hfd] at hlength
    have hpos := List.length_pos_of_mem hfd
    omega

/-- The calls that keep the table balanced are the sound ones. -/
theorem fileStep_balanced_iff (s : Session) (call : FileCall) (h : s.Balanced) :
    CallSound s call ↔ ∃ s', fileStep s call = some s' ∧ s'.Balanced := by
  unfold fileStep Session.Balanced
  cases call with
  | «open» filename =>
      refine (open_balanced_iff h filename).trans ?_
      simp [Option.map_eq_some_iff]
  | ls dirname =>
      refine (ls_balanced_iff h dirname).trans ?_
      simp [Option.map_eq_some_iff]
  | close fd =>
      refine (close_balanced_iff h fd).trans ?_
      simp

/-- The runs that keep the table balanced all along are those of sound calls. -/
theorem iso9660Run_balanced_iff (s : Session) (calls : List FileCall) (h : s.Balanced) :
    StepsMeet fileStep CallSound s calls ↔
      ∀ n ≤ calls.length, ∃ s', run fileStep s (calls.take n) = some s' ∧ s'.Balanced :=
  run_total_iff fileStep_balanced_iff calls h

/-! ## Checking a lookup -/

/-- What holds after a component can be checked. -/
def decideStep (r : Reader) (dir inoBack : Nat) (name : List UInt8)
    (P : Reader → Nat → Nat → Prop) (decide : ∀ s d b, Decidable (P s d b)) :
    Decidable (AfterStep r dir inoBack name P) :=
  match hfind : isofsFindEntry r dir name inoBack with
  | (none, _) => isFalse (by simp [AfterStep, hfind])
  | (some (ino, back), r') =>
      match higet : iget (isofsIput r' dir) ino with
      | none => isFalse (by simp [AfterStep, hfind, higet])
      | some (none, _) => isTrue ((afterStep_iff hfind higet P).mpr (by simp))
      | some (some dir', s) =>
          have := decide s dir' back
          decidable_of_iff (P s dir' back) (by rw [afterStep_iff hfind higet P]; simp)

instance walkSoundDecidable : ∀ r dir inoBack names, Decidable (WalkSound r dir inoBack names)
  | _, _, _, [] => isFalse id
  | r, dir, inoBack, [name] =>
      match h : isofsFindEntry r dir name inoBack with
      | (none, _) => isTrue (by simp [WalkSound, h])
      | (some (ino, _), r') =>
          decidable_of_iff ((iget r' ino).isSome) (by simp [WalkSound, h, Option.isSome_iff_ne_none])
  | r, dir, inoBack, name :: next :: rest =>
      decideStep r dir inoBack name (fun s d b => WalkSound s d b (next :: rest))
        fun s d b => walkSoundDecidable s d b (next :: rest)

instance walkMissesDecidable : ∀ r dir inoBack names, Decidable (WalkMisses r dir inoBack names)
  | _, _, _, [] => isFalse id
  | r, dir, inoBack, [name] =>
      match h : isofsFindEntry r dir name inoBack with
      | (none, _) => isTrue (by simp [WalkMisses, h])
      | (some (ino, _), r') =>
          match higet : iget r' ino with
          | none => isFalse (by simp [WalkMisses, h, higet])
          | some (none, _) => isTrue (by simp [WalkMisses, h, higet])
          | some (some _, _) => isFalse (by simp [WalkMisses, h, higet])
  | r, dir, inoBack, name :: next :: rest =>
      decideStep r dir inoBack name (fun s d b => WalkMisses s d b (next :: rest))
        fun s d b => walkMissesDecidable s d b (next :: rest)

/-- So can what holds at the root. -/
def decideRoot (r : Reader) (P : Reader → Nat → Prop) (decide : ∀ s d, Decidable (P s d)) :
    Decidable (AtRoot r P) :=
  match higet : iget r r.sb.rootInode with
  | none => isFalse (by simp [AtRoot, higet])
  | some (none, _) => isTrue ((atRoot_iff higet P).mpr (by simp))
  | some (some root, s) =>
      have := decide s root
      decidable_of_iff (isDir (s.table root).mode = true → P s root)
        (by rw [atRoot_iff higet P]; simp)

instance (r : Reader) (path : List UInt8) : Decidable (LookupSound r path) :=
  decideRoot r _ fun s root => walkSoundDecidable s root 0 (fields path)

instance (r : Reader) (path : List UInt8) : Decidable (LookupMisses r path) :=
  decideRoot r _ fun s root => walkMissesDecidable s root 0 (fields path)

instance (s : Session) (call : FileCall) : Decidable (CallSound s call) :=
  match call with
  | .open filename => inferInstanceAs (Decidable (LookupSound s.reader filename))
  | .ls dirname => inferInstanceAs (Decidable (LookupMisses s.reader (listedPath dirname)))
  | .close fd => inferInstanceAs (Decidable (fd ∉ s.opens))

/-! ## A small disc -/

/-- A disc whose root directory holds the file `a` and the directory `d`. -/
def smallDisc : Drive :=
  (Device.sound <| image
    [(32768, 1), (32769, 0x43), (32770, 0x44), (32771, 0x30), (32772, 0x30), (32773, 0x31),
      (32888, 1), (32897, 8), (32926, 20),
      -- the root directory
      (40960, 34), (40962, 20), (40971, 8), (40985, 2), (40992, 1),
      (40994, 34), (40996, 20), (41005, 8), (41019, 2), (41026, 1), (41027, 1),
      (41028, 36), (41030, 22), (41038, 5), (41060, 3), (41061, 0x41), (41062, 0x3b), (41063, 0x31),
      (41064, 34), (41066, 21), (41075, 8), (41089, 2), (41096, 1), (41097, 0x44),
      -- the directory d
      (43008, 34), (43010, 21), (43019, 8), (43033, 2), (43040, 1),
      (43042, 34), (43044, 20), (43053, 8), (43067, 2), (43074, 1), (43075, 1)]).drive

/-- The reader after a mount: all slots are free. -/
def mountReader (drive : Drive) : Option Reader :=
  (isofsReadSuper drive 0).map fun sb =>
    { sb := sb
      dataBlock := fun _ => 0
      bigDataBlock := fun _ => 0
      table := fun _ => ⟨0, 0, 0, 0, 0, true⟩
      drive := drive
      t := 0 }

def smallReader : Reader := (mountReader smallDisc).get (by decide +kernel)

theorem smallReader_balanced : Session.Balanced ⟨smallReader, []⟩ := by
  have hnone : smallReader.inUse = [] := by decide +kernel
  exact List.Perm.of_eq hnone

/-- Opening `/a`, listing `/d/x`, which is not there, and opening `d/./x`. -/
theorem iso9660Run_balanced_missing :
    ∃ s', run fileStep ⟨smallReader, []⟩
      [.open [0x2f, 0x61], .ls [0x2f, 0x64, 0x2f, 0x78],
        .open [0x64, 0x2f, 0x2e, 0x2f, 0x78]] = some s' ∧ s'.Balanced :=
  (iso9660Run_balanced_iff ⟨smallReader, []⟩
    [.open [0x2f, 0x61], .ls [0x2f, 0x64, 0x2f, 0x78], .open [0x64, 0x2f, 0x2e, 0x2f, 0x78]]
    smallReader_balanced).mp (by decide +kernel) 3 (Nat.le_refl 3)

/-- Opening `a` and closing it keeps its slot, listing `d` keeps another one, and
opening `x/a` a third one. -/
theorem close_keeps_slot :
    ∃ s', run fileStep ⟨smallReader, []⟩
        [.open [0x61], .close 1, .ls [0x64], .open [0x78, 0x2f, 0x61]] = some s' ∧
      s'.reader.inUse = [0, 1, 2] ∧ s'.opens = [] ∧ ¬ s'.Balanced := by
  have hkept : (run fileStep ⟨smallReader, []⟩
      [.open [0x61], .close 1, .ls [0x64], .open [0x78, 0x2f, 0x61]]).map
        (fun s' => (s'.reader.inUse, s'.opens)) = some ([0, 1, 2], []) := by decide +kernel
  obtain ⟨s', hrun, hpair⟩ := Option.map_eq_some_iff.mp hkept
  obtain ⟨huse, hopens⟩ := Prod.mk.inj hpair
  refine ⟨s', hrun, huse, hopens, ?_⟩
  unfold Session.Balanced
  rw [huse, hopens]
  decide

end Milo.Fs.Isofs
