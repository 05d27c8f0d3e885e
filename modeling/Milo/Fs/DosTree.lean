import Mathlib.Data.List.TakeWhile
import Milo.Foundation.FileTree
import Milo.Fs.DosLookup
import Milo.Fs.DosVolume

/-! # Directories on a FAT volume

The root directory lies in a region of its own before the clusters, any other
one in the clusters of a chain. Either is an array of slots of 32 bytes; those
in use hold the entries of the tree, and in every directory but the root the
first two stand for the directory itself and its parent.
-/

namespace Milo.Fs.Dos

open Foundation

/-! ## Names -/

/-- A character of a name. -/
def NameChar (c : UInt8) : Prop := 0x20 < c ∧ c < 0x7f ∧ c ≠ 0x2e ∧ c ≠ slash

instance (c : UInt8) : Decidable (NameChar c) := inferInstanceAs (Decidable (_ ∧ _))

/-- A part of a name without the blanks that fill it up. -/
def trimmed (part : List UInt8) : List UInt8 := part.takeWhile (· != 0x20)

/-- Only blanks follow the first one. -/
structure Padded (part : List UInt8) : Prop where
  chars : ∀ c ∈ trimmed part, NameChar c
  blanks : ∃ n, part = trimmed part ++ List.replicate n 0x20

/-- The name of an entry: a part of up to eight characters, and one of up to
three behind a period. -/
def shortName (raw : List UInt8) : List UInt8 :=
  if trimmed (raw.drop 8) = [] then trimmed (raw.take 8)
  else trimmed (raw.take 8) ++ 0x2e :: trimmed (raw.drop 8)

/-- The name of a file or a directory, not one of the first two entries. -/
structure Ordinary (raw : List UInt8) : Prop where
  main : Padded (raw.take 8)
  extension : Padded (raw.drop 8)
  nonempty : trimmed (raw.take 8) ≠ []

/-- Names are compared without regard to case. -/
def fold (name : List UInt8) : List UInt8 := name.map tolower

/-- The names of the first two entries. -/
def dotName : List UInt8 := 0x2e :: List.replicate 10 0x20
def dotdotName : List UInt8 := 0x2e :: 0x2e :: List.replicate 9 0x20

/-- The slot holds an entry: it is not free, and not the label of the volume. -/
def Live (entry : MsdosDirEntry) : Prop :=
  entry.name.headD 0 ≠ 0 ∧ entry.name.headD 0 ≠ deletedFlag ∧ entry.attr &&& attrVolume = 0

instance (entry : MsdosDirEntry) : Decidable (Live entry) := inferInstanceAs (Decidable (_ ∧ _))

/-! ## Directories -/

/-- Where a directory lies. -/
inductive Region where
  | root
  | clusters (chain : List Nat)

namespace BootSector

variable (b : BootSector)

/-- The device sector of the root directory. -/
def rootStart : Nat := (b.reserved + b.fats * b.fatLength) * b.sectorMult

/-- How many device sectors a directory has. -/
def dirSectors : Region → Nat
  | .root => b.dirEntries / 16
  | .clusters chain => chain.length * b.clusterSectors

/-- The device sector of the `i`-th sector of a directory. -/
def dirSector : Region → Nat → Nat
  | .root, i => b.rootStart + i
  | .clusters chain, i => b.deviceSector chain i

/-- The byte of the device at which the `k`-th slot of a directory starts. -/
def slotAt (region : Region) (k : Nat) : Nat := b.dirSector region (k / 16) * 512 + k % 16 * 32

end BootSector

/-- The slots before those of the entries. -/
def Region.dots : Region → Nat
  | .root => 0
  | .clusters _ => 2

/-- An entry for a directory that is reached by `.` or `..`. -/
structure DotEntry (entry : MsdosDirEntry) (name : List UInt8) (start : Nat) : Prop where
  name_eq : entry.name = name
  isDir : entry.isDir = true
  live : Live entry
  start_eq : entry.start = start
  size_zero : entry.size = 0

/-- A directory in a chain of clusters: the sizes of directories are not stored,
and the root as a parent is stored as cluster 0. -/
structure Subdirectory {ν : Type _} (contents : ByteMemory) (tree : FileTree ν) (place : ν → Nat)
    (n : ν) (chain : List Nat) : Prop where
  sized : (dirEntryAt contents (place n)).size = 0
  linked : LinkChain ((bootSectorAt contents).fatNext contents) (dirEntryAt contents (place n)).start
    chain
  inside : ∀ c ∈ chain, 2 ≤ c ∧ c < (bootSectorAt contents).clusterCount + 2 ∧
    c < (bootSectorAt contents).fatEntries
  own : DotEntry (dirEntryAt contents ((bootSectorAt contents).slotAt (.clusters chain) 0)) dotName
    (dirEntryAt contents (place n)).start
  parent_dir : tree.isDir (tree.parent n) = true
  up : ∃ start,
    DotEntry (dirEntryAt contents ((bootSectorAt contents).slotAt (.clusters chain) 1)) dotdotName
      start ∧
      (tree.parent n = tree.root → start = 0) ∧
      (tree.parent n ≠ tree.root → start = (dirEntryAt contents (place (tree.parent n))).start)

/-- The volume holds the tree: the root is in its region and every other
directory in clusters, each node but the root has the slot of an entry, and each
entry is a node. -/
structure IsTree {ν : Type _} (contents : ByteMemory) (tree : FileTree ν) (region : ν → Region)
    (place : ν → Nat) : Prop where
  root_region : region tree.root = .root
  subdirectory : ∀ n, tree.isDir n = true → n ≠ tree.root →
    ∃ chain, region n = .clusters chain ∧ Subdirectory contents tree place n chain
  kind : ∀ n, n ≠ tree.root → (dirEntryAt contents (place n)).isDir = tree.isDir n
  ordinary : ∀ n k, tree.isDir n = true → (region n).dots ≤ k →
    k < (bootSectorAt contents).dirSectors (region n) * 16 →
    Live (dirEntryAt contents ((bootSectorAt contents).slotAt (region n) k)) →
      Ordinary (dirEntryAt contents ((bootSectorAt contents).slotAt (region n) k)).name
  child_slot : ∀ n name m, tree.isDir n = true → tree.child n name = some m →
    m ≠ tree.root ∧ Live (dirEntryAt contents (place m)) ∧
      fold name = fold (shortName (dirEntryAt contents (place m)).name) ∧
      ∃ k, (region n).dots ≤ k ∧ k < (bootSectorAt contents).dirSectors (region n) * 16 ∧
        (bootSectorAt contents).slotAt (region n) k = place m
  slot_child : ∀ n name k, tree.isDir n = true → (region n).dots ≤ k →
    k < (bootSectorAt contents).dirSectors (region n) * 16 →
    Live (dirEntryAt contents ((bootSectorAt contents).slotAt (region n) k)) →
    fold name =
      fold (shortName (dirEntryAt contents ((bootSectorAt contents).slotAt (region n) k)).name) →
      ∃ m, tree.child n name = some m ∧ place m = (bootSectorAt contents).slotAt (region n) k

/-- A mounted FAT volume that holds a tree of directories, and its drive. -/
structure Volume (ν : Type _) where
  drive : Drive
  sb : MsdosSb
  fat : List Nat
  tree : FileTree ν
  region : ν → Region
  place : ν → Nat
  mounted : msdosMount (.sound drive.contents) = some (sb, fat)
  wellFormed : (bootSectorAt drive.contents).WellFormed
  rootEntries : 0 < (bootSectorAt drive.contents).dirEntries
  isTree : IsTree drive.contents tree region place
  reads : ∀ t, (drive.device t).Succeeds

namespace Volume

variable {ν : Type _} (vol : Volume ν)

def boot : BootSector := bootSectorAt vol.drive.contents

/-- The entry of a node other than the root. -/
def entry (n : ν) : MsdosDirEntry := dirEntryAt vol.drive.contents (vol.place n)

def slots (n : ν) : Nat := vol.boot.dirSectors (vol.region n) * 16

/-- The `k`-th slot of a directory. -/
def slot (n : ν) (k : Nat) : MsdosDirEntry :=
  dirEntryAt vol.drive.contents (vol.boot.slotAt (vol.region n) k)

/-- The numbers of the sectors of the directory are below the sign bit of a `short`. -/
def Low (n : ν) : Prop :=
  ∀ i < vol.boot.dirSectors (vol.region n), vol.boot.dirSector (vol.region n) i < 2 ^ 15

end Volume

/-! ## What the reader makes of names -/

theorem tolower_toNat (c : UInt8) :
    (tolower c).toNat = if 0x41 ≤ c.toNat ∧ c.toNat ≤ 0x5a then c.toNat + 0x20 else c.toNat := by
  unfold tolower
  by_cases h : 0x41 ≤ c.toNat ∧ c.toNat ≤ 0x5a
  · rw [if_pos h, if_pos (by simpa [UInt8.le_iff_toNat_le] using h), UInt8.toNat_add]
    exact Nat.mod_eq_of_lt (by simp only [UInt8.reduceToNat]; omega)
  · rw [if_neg h, if_neg (by simpa [UInt8.le_iff_toNat_le] using h)]

theorem tolower_tolower (c : UInt8) : tolower (tolower c) = tolower c := by
  rw [← UInt8.toNat_inj, tolower_toNat, if_neg]
  rw [tolower_toNat]
  split <;> omega

theorem fold_fold (name : List UInt8) : fold (fold name) = fold name := by
  unfold fold
  rw [List.map_map]
  exact List.map_congr_left fun c _ => tolower_tolower c

theorem NameChar.toNat {c : UInt8} (h : NameChar c) :
    0x20 < c.toNat ∧ c.toNat < 0x7f ∧ c.toNat ≠ 0x2e := by
  have hdot : c.toNat ≠ (0x2e : UInt8).toNat := fun heq => h.2.2.1 (UInt8.toNat_inj.mp heq)
  exact ⟨UInt8.lt_iff_toNat_lt.mp h.1, UInt8.lt_iff_toNat_lt.mp h.2.1, hdot⟩

theorem NameChar.ne_blank {c : UInt8} (h : NameChar c) : (c != 0x20) = true := by
  rw [bne_iff_ne]
  rintro rfl
  exact absurd h (by decide)

/-- The characters of a part that are not blanks are those before the blanks. -/
theorem Padded.convertPart {part : List UInt8} (h : Padded part) :
    convertPart part = fold (trimmed part) := by
  obtain ⟨n, hblanks⟩ := h.blanks
  have hkept : (trimmed part).filter (· != 0x20) = trimmed part :=
    List.filter_eq_self.mpr fun c hc => (h.chars c hc).ne_blank
  have hgone : (List.replicate n (0x20 : UInt8)).filter (· != 0x20) = [] := by
    rw [List.filter_replicate]
    rfl
  have hfilter := congrArg (List.filter (· != 0x20)) hblanks
  rw [List.filter_append, hkept, hgone, List.append_nil] at hfilter
  unfold Dos.convertPart fold
  rw [hfilter]

theorem Padded.any {part : List UInt8} (h : Padded part) :
    (part.any (· != 0x20)) = true ↔ trimmed part ≠ [] := by
  obtain ⟨n, hblanks⟩ := h.blanks
  constructor
  · intro hany hnil
    rw [hblanks, hnil, List.nil_append, List.any_replicate] at hany
    split at hany <;> simp at hany
  · intro hne
    obtain ⟨c, rest, hcons⟩ := List.exists_cons_of_ne_nil hne
    have hmem : c ∈ trimmed part := by rw [hcons]; exact List.mem_cons_self
    exact List.any_eq_true.mpr
      ⟨c, (List.takeWhile_prefix _).sublist.mem hmem, (h.chars c hmem).ne_blank⟩

/-- The name that the reader makes of an entry is its name in lower case. -/
theorem Ordinary.convertName {raw : List UInt8} (h : Ordinary raw) :
    convertName raw = fold (shortName raw) := by
  unfold Dos.convertName shortName
  simp only
  rw [h.main.convertPart, h.extension.convertPart]
  by_cases hnil : trimmed (raw.drop 8) = []
  · rw [if_neg (fun hany => h.extension.any.mp hany hnil), if_pos hnil, List.append_nil]
  · rw [if_pos (h.extension.any.mpr hnil), if_neg hnil]
    unfold fold
    rw [List.map_append, List.map_cons]
    rfl

theorem mem_shortName {raw : List UInt8} (h : Ordinary raw) {c : UInt8} (hc : c ∈ shortName raw) :
    NameChar c ∨ c = 0x2e := by
  unfold shortName at hc
  split at hc
  · exact Or.inl (h.main.chars c hc)
  · rcases List.mem_append.mp hc with hmain | hmore
    · exact Or.inl (h.main.chars c hmain)
    · rcases List.mem_cons.mp hmore with rfl | hext
      · exact Or.inr rfl
      · exact Or.inl (h.extension.chars c hext)

/-- The name starts with the first byte of the entry. -/
theorem Ordinary.shortName_cons {raw : List UInt8} (h : Ordinary raw) :
    ∃ c rest, raw.headD 0 = c ∧ NameChar c ∧ shortName raw = c :: rest := by
  obtain ⟨c, rest, hcons⟩ := List.exists_cons_of_ne_nil h.nonempty
  obtain ⟨n, hblanks⟩ := h.main.blanks
  have hchar := h.main.chars c (by rw [hcons]; exact List.mem_cons_self)
  have hhead : raw.headD 0 = c := by
    have hsplit := List.take_append_drop 8 raw
    rw [hblanks, hcons] at hsplit
    rw [← hsplit]
    rfl
  unfold shortName
  rw [hcons]
  split
  · exact ⟨c, rest, hhead, hchar, rfl⟩
  · exact ⟨c, _, hhead, hchar, rfl⟩

/-- A component matches an ordinary entry if it is its name in lower case. -/
theorem Ordinary.matches {entry : MsdosDirEntry} (h : Ordinary entry.name) (name : List UInt8) :
    nameMatches name entry = true ↔ name = fold (shortName entry.name) := by
  have hnul : (fold (shortName entry.name)).takeWhile (· != 0) = fold (shortName entry.name) := by
    rw [List.takeWhile_eq_self_iff]
    intro c hc
    obtain ⟨d, hd, rfl⟩ := List.mem_map.mp hc
    have htoNat := tolower_toNat d
    rw [bne_iff_ne, ne_eq, ← UInt8.toNat_inj, htoNat]
    rcases mem_shortName h hd with hchar | rfl
    · have hrange := hchar.toNat
      simp only [UInt8.reduceToNat]
      split <;> omega
    · decide
  unfold nameMatches
  rw [h.convertName, hnul, beq_iff_eq]

/-- It is none of the names of the first two entries. -/
theorem Ordinary.ne_dots {raw : List UInt8} (h : Ordinary raw) :
    fold (shortName raw) ≠ dot ∧ fold (shortName raw) ≠ dotdot := by
  obtain ⟨c, rest, _, hchar, hcons⟩ := h.shortName_cons
  have hne : tolower c ≠ 0x2e := by
    have hrange := hchar.toNat
    rw [ne_eq, ← UInt8.toNat_inj, tolower_toNat]
    simp only [UInt8.reduceToNat]
    split <;> omega
  rw [hcons]
  constructor
  · intro heq
    exact hne (List.cons.inj heq).1
  · intro heq
    exact hne (List.cons.inj heq).1

/-- The reader takes a slot for valid if it holds an entry with such a first
character. -/
theorem validEntry_iff {entry : MsdosDirEntry} (h : Live entry →
    entry.name.headD 0 ≠ 5 ∧ entry.name.headD 0 ≠ 0xf6) : validEntry entry = true ↔ Live entry := by
  unfold validEntry isFreeName
  simp only [Bool.and_eq_true, bne_iff_ne, Bool.not_eq_true', Bool.or_eq_false_iff, beq_iff_eq,
    beq_eq_false_iff_ne]
  constructor
  · intro ⟨⟨_, hfree⟩, hlabel⟩
    exact ⟨hfree.1.1, hfree.1.2, hlabel⟩
  · intro hlive
    exact ⟨⟨(h hlive).1, ⟨hlive.1, hlive.2.1⟩, (h hlive).2⟩, hlive.2.2⟩

theorem Ordinary.valid {entry : MsdosDirEntry} (h : Live entry → Ordinary entry.name) :
    validEntry entry = true ↔ Live entry := by
  refine validEntry_iff fun hlive => ?_
  obtain ⟨c, _, hhead, hchar, _⟩ := (h hlive).shortName_cons
  have hrange := hchar.toNat
  rw [hhead]
  constructor
  · rintro rfl
    exact absurd hrange.1 (by decide)
  · rintro rfl
    exact absurd hrange.2.1 (by decide)

section
variable {entry : MsdosDirEntry} {start : Nat}

theorem DotEntry.hits {given : List UInt8} (h : DotEntry entry given start)
    (hfirst : given.headD 0 ≠ 5 ∧ given.headD 0 ≠ 0xf6) (name : List UInt8) :
    (validEntry entry && nameMatches name entry) = true ↔
      name = (convertName given).takeWhile (· != 0) := by
  have hvalid := (validEntry_iff fun _ => by rwa [h.name_eq]).mpr h.live
  unfold nameMatches
  rw [hvalid, Bool.true_and, h.name_eq, beq_iff_eq]

theorem DotEntry.own_hits (h : DotEntry entry dotName start) (name : List UInt8) :
    (validEntry entry && nameMatches name entry) = true ↔ name = dot := h.hits (by decide) name

theorem DotEntry.up_hits (h : DotEntry entry dotdotName start) (name : List UInt8) :
    (validEntry entry && nameMatches name entry) = true ↔ name = dotdot := h.hits (by decide) name

end

end Milo.Fs.Dos
