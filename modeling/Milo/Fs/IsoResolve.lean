import Milo.Fs.IsoInode
import Milo.Fs.IsoSlots

/-! # What iso9660 lookups find

A lookup goes down the tree as the components of the path do, and finds the entry
that the path leads to. It goes up from the root only, to the root itself: the
number for `..` that every other directory needs is not set in the inodes of the
directories on the way.
-/

namespace Milo.Fs.Isofs

open Foundation

/-! ## Discs -/

/-- A disc that holds a tree of directories, and its drive. -/
structure Disc (ν : Type _) where
  sb : IsofsSb
  drive : Drive
  tree : FileTree ν
  place : ν → Nat
  records : ν → List (List Nat)
  entries : ν → List Nat
  isTree : IsTree sb drive.contents tree place records entries
  fits : FitsDisc sb drive.contents place
  cruft : sb.cruft = false
  reads : AllReads drive

namespace Disc

variable {ν : Type _} (disc : Disc ν)

/-- A node that a lookup can get to. -/
structure Node (n : ν) : Prop where
  place : disc.place n < 2 ^ 31
  isRoot : disc.place n = disc.sb.rootInode ↔ n = disc.tree.root

variable {disc}

theorem sound {n : ν} (hn : disc.Node n) : Sound disc.sb disc.drive.contents (disc.place n) where
  place := hn.place
  long := Nat.le_trans (Nat.le_add_right _ _) (disc.isTree.whole n)
  inside := disc.fits.inside n
  plain := disc.fits.plain n

theorem dirAt {n : ν} (hdir : disc.tree.isDir n = true) {entry : InodeEntry}
    (h : InodeOf disc.sb disc.drive.contents (disc.place n) entry) :
    DirAt entry (recBase disc.sb disc.drive.contents (disc.place n))
      (recBytes disc.drive.contents (disc.place n)) := by
  have hholds := disc.isTree.holds n hdir
  exact ⟨h.extent, h.size, hholds.aligned, hholds.positive, disc.fits.inside n⟩

/-- The first two records of a directory, which lie at its start. -/
structure FirstTwo (disc : Disc ν) (n : ν) (own up : Nat) : Prop where
  flatten : (disc.records n).flatten = own :: up :: disc.entries n
  own_eq : own = recBase disc.sb disc.drive.contents (disc.place n)
  up_eq : up = own + recLength disc.drive.contents own
  own_id : recIdentifier disc.drive.contents own = [0]
  own_visible : recVisible disc.sb disc.drive.contents own = true
  up_id : recIdentifier disc.drive.contents up = [1]
  up_visible : recVisible disc.sb disc.drive.contents up = true

theorem firstTwo {n : ν} (hdir : disc.tree.isDir n = true) : ∃ own up, FirstTwo disc n own up := by
  obtain ⟨own, up, rest, tail, hrecords, hentries, hown, hvisible, hup, hupVisible⟩ :=
    (disc.isTree.listed n hdir).layout
  have hholds := disc.isTree.holds n hdir
  have hsector := hholds.sectors 0 (own :: up :: rest) (by rw [hrecords]; rfl)
  rw [Nat.mul_zero, Nat.add_zero] at hsector
  have hfirst := hsector.of_cons
  have hsecond := hfirst.2.of_cons
  refine ⟨own, up, ?_, hfirst.1, ?_, hown, hvisible, hup, hupVisible⟩
  · rw [hrecords, hentries]
    rfl
  · rw [hsecond.1, hfirst.1]

/-- Both lie in the first block of the directory. -/
theorem FirstTwo.near {n : ν} {own up : Nat} (h : FirstTwo disc n own up)
    (hdir : disc.tree.isDir n = true) :
    (own + recLength disc.drive.contents own) / blocksize =
        recBase disc.sb disc.drive.contents (disc.place n) / blocksize ∧
      (up + recLength disc.drive.contents up) / blocksize =
        recBase disc.sb disc.drive.contents (disc.place n) / blocksize := by
  have haligned := (disc.isTree.holds n hdir).aligned
  have hown : recLength disc.drive.contents own < 256 := (disc.drive.contents own).toNat_lt
  have hup : recLength disc.drive.contents up < 256 := (disc.drive.contents up).toNat_lt
  have hownEq := h.own_eq
  have hupEq := h.up_eq
  generalize recBase disc.sb disc.drive.contents (disc.place n) = base at *
  generalize recLength disc.drive.contents own = n at *
  generalize recLength disc.drive.contents up = m at *
  unfold isofsBlockSize at haligned
  unfold blocksize
  omega

/-- Where the names lead that are not those of an entry. -/
theorem FirstTwo.find_own {n : ν} {own up : Nat} {name : List UInt8}
    (h : FirstTwo disc n own up) (hname : name = [] ∨ name = dot) :
    (disc.records n).flatten.find? (recHits disc.sb disc.drive.contents name) = some own := by
  rw [h.flatten]
  apply List.find?_cons_of_pos
  unfold recHits nameHits
  rw [h.own_visible, h.own_id]
  rcases hname with rfl | rfl
  · rfl
  · rfl

theorem FirstTwo.find_up {n : ν} {own up : Nat} (h : FirstTwo disc n own up) :
    (disc.records n).flatten.find? (recHits disc.sb disc.drive.contents dotdot) = some up := by
  rw [h.flatten, List.find?_cons_of_neg, List.find?_cons_of_pos]
  · unfold recHits nameHits
    rw [h.up_visible, h.up_id]
    rfl
  · unfold recHits nameHits
    rw [h.own_id]
    simp [dotdot, dot]

/-- Any other name is looked for among the entries. -/
theorem FirstTwo.find_entry {n : ν} {own up : Nat} {name : List UInt8}
    (h : FirstTwo disc n own up) (hstay : ¬ (name = [] ∨ name = dot)) (hup : name ≠ dotdot) :
    (disc.records n).flatten.find? (recHits disc.sb disc.drive.contents name) =
      (disc.entries n).find? (recHits disc.sb disc.drive.contents name) := by
  rw [h.flatten, List.find?_cons_of_neg, List.find?_cons_of_neg]
  · unfold recHits nameHits
    rw [h.up_id]
    simp [hup]
  · unfold recHits nameHits
    rw [h.own_id]
    simpa using fun _ => not_or.mp hstay

theorem ordinary_hits {identifier : List UInt8} (h : Ordinary identifier) (name : List UInt8) :
    nameHits name identifier = decide (NameOf name identifier) := by
  unfold nameHits
  rw [if_neg (h.ne_byte (by decide)), if_neg (h.ne_byte (by decide))]

/-- The entry with a name is the record of the child with the name. -/
theorem find_child {n : ν} {name : List UInt8} (hdir : disc.tree.isDir n = true) :
    (disc.entries n).find? (recHits disc.sb disc.drive.contents name) =
      (disc.tree.child n name).map disc.place := by
  have hlisted := disc.isTree.listed n hdir
  have hhits : ∀ a ∈ disc.entries n, recHits disc.sb disc.drive.contents name a = true ↔
      recVisible disc.sb disc.drive.contents a = true ∧
        NameOf name (recIdentifier disc.drive.contents a) := by
    intro a ha
    unfold recHits
    rw [ordinary_hits (hlisted.ordinary a ha), Bool.and_eq_true, decide_eq_true_iff]
  cases hfind : (disc.entries n).find? (recHits disc.sb disc.drive.contents name) with
  | none =>
      cases hchild : disc.tree.child n name with
      | none => rfl
      | some m =>
          have hrecord := disc.isTree.child_record n name m hdir hchild
          have hmiss := List.find?_eq_none.mp hfind _ hrecord.1
          exact absurd ((hhits _ hrecord.1).mpr hrecord.2) hmiss
  | some a =>
      have hmem := List.mem_of_find?_eq_some hfind
      have hhit := (hhits a hmem).mp (List.find?_some hfind)
      obtain ⟨m, hchild, hplace⟩ := disc.isTree.record_child n name a hdir hmem hhit.1 hhit.2
      rw [hchild, Option.map_some, hplace]

/-- The record of a child is a node, and not the root. -/
theorem child_node {n m : ν} {name : List UInt8} (hdir : disc.tree.isDir n = true)
    (hchild : disc.tree.child n name = some m) : disc.Node m := by
  have hrecord := disc.isTree.child_record n name m hdir hchild
  have hordinary := (disc.isTree.listed n hdir).ordinary _ hrecord.1
  have hrecords := (disc.isTree.holds n hdir).records
  obtain ⟨own, up, hfirst⟩ := firstTwo hdir
  have hmem : disc.place m ∈ (disc.records n).flatten := by
    rw [hfirst.flatten]
    simp [hrecord.1]
  have hinside := hrecords.inside hmem
  have hfits := disc.fits.inside n
  -- The record of the root has the identifier of a first record.
  obtain ⟨rootOwn, rootUp, hroot⟩ := firstTwo disc.tree.root_isDir
  have hrootId := hroot.own_id
  rw [hroot.own_eq, disc.isTree.root_base] at hrootId
  have hne : disc.place m ≠ disc.sb.rootInode := by
    intro heq
    rw [heq] at hordinary
    have hbyte := hordinary.printable 0 (by rw [hrootId]; exact List.mem_cons_self)
    exact absurd hbyte (by decide)
  refine ⟨by omega, fun heq => absurd heq hne, ?_⟩
  intro heq
  rw [heq, disc.isTree.root_place] at hne
  contradiction

/-- A directory that a lookup has got to, in its slot; another slot is free. -/
structure Held (disc : Disc ν) (r : Reader) (dir : Nat) (n : ν) : Prop where
  sb : r.sb = disc.sb
  drive : r.drive = disc.drive
  node : disc.Node n
  inode : InodeOf disc.sb disc.drive.contents (disc.place n) (r.table dir)
  backlink : (r.table dir).backlink = 0xffffffff
  kept : HeaderKept r (disc.place n)
  slot : dir < maxOpenFiles
  used : (r.table dir).free = false
  spare : ∃ i < maxOpenFiles, (r.table i).free = true

theorem Held.scanned {r : Reader} {dir : Nat} {n : ν} (h : Held disc r dir n)
    (hdir : disc.tree.isDir n = true) (name : List UInt8) (inoBack : Nat) :
    Scanned r (r.table dir) name (recBase disc.sb disc.drive.contents (disc.place n))
      (disc.records n).flatten (isofsFindEntry r dir name inoBack) := by
  have hreads : AllReads r.drive := h.drive ▸ disc.reads
  have hholds := disc.isTree.holds n hdir
  obtain ⟨own, up, hfirst⟩ := firstTwo hdir
  refine isofsFindEntry_spec (dirAt hdir h.inode) hreads (by rw [h.drive]; exact hholds) ?_
  intro a ha
  rw [hfirst.flatten] at ha
  rw [h.drive]
  rcases List.mem_cons.mp ha with rfl | ha
  · exact Or.inl hfirst.own_id
  · rcases List.mem_cons.mp ha with rfl | ha
    · exact Or.inr (Or.inl hfirst.up_id)
    · exact Or.inr (Or.inr ((disc.isTree.listed n hdir).ordinary a ha).printable)

theorem entryOf_place {n : ν} (hn : disc.Node n) (back : Nat) :
    entryOf (disc.place n, back) = some (disc.place n, back) := by
  have hplace := hn.place
  unfold entryOf
  rw [if_neg (by simp only; omega)]

/-- The component is found as the child that it leads to. -/
structure Finds (disc : Disc ν) (r : Reader) (m : ν)
    (result : Option (Nat × Nat) × Reader) : Prop where
  entry : ∃ back, result.1 = some (disc.place m, back)
  keeps : Keeps r result.2
  kept : HeaderKept result.2 (disc.place m)
  node : disc.Node m

theorem Held.find_own {r : Reader} {dir inoBack : Nat} {n : ν} {name : List UInt8}
    (h : Held disc r dir n) (hdir : disc.tree.isDir n = true) (hname : name = [] ∨ name = dot) :
    Finds disc r n (isofsFindEntry r dir name inoBack) := by
  have hscan := h.scanned hdir name inoBack
  obtain ⟨own, up, hfirst⟩ := firstTwo hdir
  have hfind := hfirst.find_own hname
  have hentry := hscan.entry
  rw [h.sb, h.drive, hfind, Option.bind_some, hfirst.own_id] at hentry
  unfold foundAs at hentry
  rw [if_pos rfl, h.inode.number, entryOf_place h.node] at hentry
  have hstill := hscan.still own (by rw [h.sb, h.drive]; exact hfind)
    (by rw [h.drive]; exact (hfirst.near hdir).1)
  exact ⟨⟨0, hentry⟩, hscan.keeps, h.kept.of_same hstill hscan.keeps.drive, h.node⟩

/-- From the root `..` leads to the root. -/
theorem Held.find_up_root {r : Reader} {dir inoBack : Nat}
    (h : Held disc r dir disc.tree.root) :
    Finds disc r disc.tree.root (isofsFindEntry r dir dotdot inoBack) := by
  have hdir := disc.tree.root_isDir
  have hscan := h.scanned hdir dotdot inoBack
  obtain ⟨own, up, hfirst⟩ := firstTwo hdir
  have hfind := hfirst.find_up
  have hentry := hscan.entry
  rw [h.sb, h.drive, hfind, Option.bind_some, hfirst.up_id] at hentry
  unfold foundAs at hentry
  rw [if_neg (by decide), if_pos rfl, h.inode.number, if_neg (by simp [disc.isTree.root_place]),
    entryOf_place h.node] at hentry
  have hstill := hscan.still up (by rw [h.sb, h.drive]; exact hfind)
    (by rw [h.drive]; exact (hfirst.near hdir).2)
  exact ⟨⟨0, hentry⟩, hscan.keeps, h.kept.of_same hstill hscan.keeps.drive, h.node⟩

theorem Held.find_child {r : Reader} {dir inoBack : Nat} {n : ν} {name : List UInt8}
    (h : Held disc r dir n) (hdir : disc.tree.isDir n = true)
    (hstay : ¬ (name = [] ∨ name = dot)) (hup : name ≠ dotdot) :
    (disc.tree.child n name = none → (isofsFindEntry r dir name inoBack).1 = none) ∧
      ∀ m, disc.tree.child n name = some m →
        Finds disc r m (isofsFindEntry r dir name inoBack) := by
  have hscan := h.scanned hdir name inoBack
  obtain ⟨own, up, hfirst⟩ := firstTwo hdir
  have hfind := hfirst.find_entry hstay hup
  rw [Disc.find_child hdir] at hfind
  constructor
  · intro hchild
    rw [hscan.entry, h.sb, h.drive, hfind, hchild]
    rfl
  · intro m hchild
    have hnode := child_node hdir hchild
    have hentry := hscan.entry
    have hkept := hscan.header (disc.place m)
    rw [h.sb, h.drive, hfind, hchild, Option.map_some] at hkept
    rw [h.sb, h.drive, hfind, hchild, Option.map_some, Option.bind_some] at hentry
    have hordinary := (disc.isTree.listed n hdir).ordinary _
      (disc.isTree.child_record n name m hdir hchild).1
    unfold foundAs at hentry
    rw [if_neg (hordinary.ne_byte (by decide)), if_neg (hordinary.ne_byte (by decide)),
      entryOf_place hnode] at hentry
    refine ⟨⟨_, hentry⟩, hscan.keeps, ?_, hnode⟩
    unfold HeaderKept
    rw [hscan.keeps.drive, h.drive]
    exact hkept rfl

/-! ## Inodes of nodes -/

/-- No component is looked for in a file. -/
def StaysInDirs (disc : Disc ν) (n : ν) : List (List UInt8) → Prop
  | [] => True
  | name :: rest =>
      disc.tree.isDir n = true ∧ ∀ m, disc.tree.step n name = some m → StaysInDirs disc m rest

/-- From a directory other than the root, `..` is there only if the rest of the
path leads nowhere; the records of all other nodes on the way can be copied. -/
def LookupGood (disc : Disc ν) (n : ν) : List (List UInt8) → Prop
  | [] => True
  | name :: rest =>
      (name = dotdot → n ≠ disc.tree.root → disc.tree.resolve (disc.tree.parent n) rest = none) ∧
        ∀ m, (name = dotdot → n = disc.tree.root) → disc.tree.step n name = some m →
          Copied disc.drive.contents (disc.place m) ∧ LookupGood disc m rest

theorem lookupGood_up {n : ν} {rest : List (List UInt8)} (hroot : n ≠ disc.tree.root) :
    LookupGood disc n (dotdot :: rest) ↔ disc.tree.resolve (disc.tree.parent n) rest = none := by
  constructor
  · exact fun hgood => hgood.1 rfl hroot
  · exact fun hnone => ⟨fun _ _ => hnone, fun _ hup => absurd (hup rfl) hroot⟩

theorem lookupGood_step {n m : ν} {name : List UInt8} {rest : List (List UInt8)}
    (hup : name = dotdot → n = disc.tree.root) (hstep : disc.tree.step n name = some m) :
    LookupGood disc n (name :: rest) ↔
      Copied disc.drive.contents (disc.place m) ∧ LookupGood disc m rest := by
  constructor
  · exact fun hgood => hgood.2 m hup hstep
  · intro hm
    refine ⟨fun hname hroot => absurd (hup hname) hroot, fun m' _ hm' => ?_⟩
    cases hstep.symm.trans hm'
    exact hm

theorem lookupGood_stop {n : ν} {name : List UInt8} {rest : List (List UInt8)}
    (hup : name = dotdot → n = disc.tree.root) (hstep : disc.tree.step n name = none) :
    LookupGood disc n (name :: rest) := by
  refine ⟨fun hname hroot => absurd (hup hname) hroot, fun m _ hm => ?_⟩
  rw [hstep] at hm
  cases hm

/-- What a component is found as. -/
theorem Held.find {r : Reader} {dir : Nat} {n : ν} {name : List UInt8} (h : Held disc r dir n)
    (inoBack : Nat) (hdir : disc.tree.isDir n = true)
    (hup : name = dotdot → n = disc.tree.root) :
    (disc.tree.step n name = none → (isofsFindEntry r dir name inoBack).1 = none) ∧
      ∀ m, disc.tree.step n name = some m →
        Finds disc r m (isofsFindEntry r dir name inoBack) := by
  by_cases hstay : name = [] ∨ name = dot
  · rw [FileTree.step_stay hdir hstay]
    refine ⟨fun hnone => (nomatch hnone), fun m hm => ?_⟩
    cases hm
    exact h.find_own hdir hstay
  · by_cases hdots : name = dotdot
    · cases hup hdots
      rw [hdots, FileTree.step_up hdir, disc.tree.parent_root]
      refine ⟨fun hnone => (nomatch hnone), fun m hm => ?_⟩
      cases hm
      exact h.find_up_root
    · rw [FileTree.step_down hdir hstay hdots]
      exact h.find_child hdir hstay hdots

instance staysInDirsDecidable : ∀ n names, Decidable (StaysInDirs disc n names)
  | _, [] => isTrue trivial
  | n, name :: rest =>
      match h : disc.tree.step n name with
      | none => decidable_of_iff (disc.tree.isDir n = true) (by simp [StaysInDirs, h])
      | some m =>
          have := staysInDirsDecidable m rest
          decidable_of_iff (disc.tree.isDir n = true ∧ StaysInDirs disc m rest)
            (by simp [StaysInDirs, h])

instance lookupGoodDecidable [DecidableEq ν] : ∀ n names, Decidable (LookupGood disc n names)
  | _, [] => isTrue trivial
  | n, name :: rest =>
      if hup : name = dotdot → n = disc.tree.root then
        match hstep : disc.tree.step n name with
        | none => isTrue (lookupGood_stop hup hstep)
        | some m =>
            have := lookupGoodDecidable m rest
            decidable_of_iff (Copied disc.drive.contents (disc.place m) ∧ LookupGood disc m rest)
              (lookupGood_step hup hstep).symm
      else
        have hlost := Classical.not_imp.mp hup
        decidable_of_iff ((disc.tree.resolve (disc.tree.parent n) rest).isNone = true)
          (by rw [hlost.1, lookupGood_up hlost.2, Option.isNone_iff_eq_none])

end Disc

/-! ## The small disc -/

inductive SmallNode where
  | root
  | a
  | d
  deriving DecidableEq

namespace SmallNode

/-- The root holds the file `a` and the directory `d`. -/
def tree : FileTree SmallNode where
  root := root
  isDir n := n != a
  child n name :=
    if n ≠ root then none
    else if name = [0x61] then some a
    else if name = [0x64] then some d
    else none
  parent _ := root
  root_isDir := rfl
  parent_root := rfl
  parent_child n name m h := by
    by_cases hn : n = root
    · exact hn.symm
    · rw [if_pos hn] at h
      cases h

/-- Where its record is: that of the root is its own first one. -/
def place : SmallNode → Nat
  | root => 40960
  | a => 41028
  | d => 41064

def records : SmallNode → List (List Nat)
  | root => [[40960, 40994, 41028, 41064]]
  | a => []
  | d => [[43008, 43042]]

def entries : SmallNode → List Nat
  | root => [41028, 41064]
  | _ => []

end SmallNode

theorem nameOf_singleton {name : List UInt8} {identifier : List UInt8} {c : UInt8}
    (hmapped : mapIdentifier identifier = [c]) (hc : c ≠ 0x2e) :
    NameOf name identifier ↔ name = [c] := by
  unfold NameOf
  rw [hmapped]
  refine or_iff_left fun h => ?_
  have hlast := congrArg List.getLast? h
  rw [List.getLast?_append_of_ne_nil name (List.cons_ne_nil _ _)] at hlast
  exact hc (Option.some.inj hlast).symm

/-- A directory of one sector. -/
theorem holdsRecords_single {contents : ByteMemory} {base size : Nat} {recs : List Nat}
    (hcheck : checkSector contents (base + isofsBlockSize) base recs = true)
    (hsize : size = isofsBlockSize) (haligned : base % isofsBlockSize = 0) (hpositive : 0 < base) :
    HoldsRecords contents base size [recs] := by
  refine .of_checks (fun k hk => ?_) hsize haligned hpositive
  obtain rfl : k = 0 := Nat.lt_one_iff.mp hk
  exact hcheck

theorem small_isTree : IsTree smallReader.sb smallDisc.contents SmallNode.tree SmallNode.place
    SmallNode.records SmallNode.entries where
  root_place := by decide +kernel
  root_base := by decide +kernel
  kind n := by cases n <;> decide +kernel
  whole n := by cases n <;> decide +kernel
  holds n hdir := by
    cases n with
    | root =>
        exact holdsRecords_single (by decide +kernel) (by decide +kernel) (by decide +kernel)
          (by decide +kernel)
    | a => cases hdir
    | d =>
        exact holdsRecords_single (by decide +kernel) (by decide +kernel) (by decide +kernel)
          (by decide +kernel)
  listed n hdir := by
    cases n with
    | root =>
        refine ⟨⟨40960, 40994, [41028, 41064], [], rfl, rfl, ?_⟩, ?_⟩
        · decide +kernel
        · intro b hb
          rcases List.mem_cons.mp hb with rfl | hb
          · exact ⟨by decide +kernel, by decide +kernel, by decide +kernel, by decide +kernel⟩
          · cases List.mem_singleton.mp hb
            exact ⟨by decide +kernel, by decide +kernel, by decide +kernel, by decide +kernel⟩
    | a => cases hdir
    | d =>
        refine ⟨⟨43008, 43042, [], [], rfl, rfl, ?_⟩, List.forall_mem_nil _⟩
        decide +kernel
  child_record n name m hdir hchild := by
    cases n with
    | root =>
        unfold SmallNode.tree at hchild
        simp only [ne_eq, not_true_eq_false, if_false] at hchild
        split at hchild
        · rename_i hname
          cases hchild
          subst hname
          decide +kernel
        · split at hchild
          · rename_i hname
            cases hchild
            subst hname
            decide +kernel
          · cases hchild
    | a => cases hdir
    | d => cases hchild
  record_child n name b hdir hb _ hname := by
    cases n with
    | root =>
        rcases List.mem_cons.mp hb with rfl | hb
        · rw [nameOf_singleton (c := 0x61) (by decide +kernel) (by decide)] at hname
          subst hname
          exact ⟨.a, rfl, rfl⟩
        · cases List.mem_singleton.mp hb
          rw [nameOf_singleton (c := 0x64) (by decide +kernel) (by decide)] at hname
          subst hname
          exact ⟨.d, rfl, rfl⟩
    | a => cases hdir
    | d => cases hb

end Milo.Fs.Isofs
