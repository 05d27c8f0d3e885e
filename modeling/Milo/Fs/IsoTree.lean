import Milo.Foundation.FileTree
import Milo.Fs.IsoLookup

/-! # Directories on an iso9660 disc

The records of a directory follow each other from the start of each of its
sectors; the first two stand for the directory and its parent, and each of the
others for a file or a directory of the tree.
-/

namespace Milo.Fs.Isofs

open Foundation

/-! ## Records -/

section
variable (sb : IsofsSb) (contents : ByteMemory) (a : Nat)

/-- The record at a byte of the disc, as seen from its address. -/
def rawAt : ByteMemory := fun i => contents (a + i)

def recLength : Nat := (contents a).toNat

def recIdentifier : List UInt8 := bytesAt contents (a + recName) (contents (a + recNameLen)).toNat

def recIsDir : Bool := recordFlags sb (rawAt contents a) &&& 2 != 0

/-- Neither hidden nor associated. -/
def recVisible : Bool := recordFlags sb (rawAt contents a) &&& 5 == 0

/-- The first byte of the file. -/
def recBase : Nat :=
  (isonum733 (rawAt contents a) recExtent + isonum711 (rawAt contents a) recExtAttrLength) *
    2 ^ sb.logZoneSize

/-- The size of the file. -/
def recBytes : Nat := isonum733 (rawAt contents a) recSize

end

/-! ## Names -/

/-- The name of an identifier: in lower case and without the version 1; any other
version is behind a period. -/
def mapIdentifier : List UInt8 → List UInt8
  | [] => []
  | c :: rest =>
      if c = 0x3b ∧ rest = [0x31] then []
      else (if c = 0x3b then 0x2e else toLower c) :: mapIdentifier rest

/-- A name that ends in a period may be given without it. -/
def NameOf (name identifier : List UInt8) : Prop :=
  name = mapIdentifier identifier ∨ name ++ [0x2e] = mapIdentifier identifier

instance (name identifier : List UInt8) : Decidable (NameOf name identifier) :=
  inferInstanceAs (Decidable (_ ∨ _))

/-- The identifier of a file or a directory, not that of one of the first two
records. -/
structure Ordinary (identifier : List UInt8) : Prop where
  printable : ∀ c ∈ identifier, 0x20 < c
  nonempty : ¬ NameOf [] identifier
  notDot : ¬ NameOf dot identifier
  notDotdot : ¬ NameOf dotdot identifier

/-- It is not one of the identifiers of the first two records. -/
theorem Ordinary.ne_byte {identifier : List UInt8} (h : Ordinary identifier) {c : UInt8}
    (hc : ¬ 0x20 < c) : identifier ≠ [c] := by
  intro heq
  exact hc (h.printable c (by rw [heq]; exact List.mem_cons_self))

/-! ## Directories -/

/-- The records from `a` up to `stop`, the end of a sector, or to a byte of zero. -/
inductive SectorRecords (contents : ByteMemory) (stop : Nat) : Nat → List Nat → Prop where
  | full : SectorRecords contents stop stop []
  | zero (a : Nat) (hinside : a < stop) (hzero : contents a = 0) : SectorRecords contents stop a []
  | record (a : Nat) (rest : List Nat)
      (hname : recName + (contents (a + recNameLen)).toNat ≤ recLength contents a)
      (hfits : a + recLength contents a ≤ stop)
      (hrest : SectorRecords contents stop (a + recLength contents a) rest) :
      SectorRecords contents stop a (a :: rest)

theorem SectorRecords.of_cons {contents : ByteMemory} {stop a b : Nat} {recs : List Nat}
    (h : SectorRecords contents stop a (b :: recs)) :
    b = a ∧ SectorRecords contents stop (a + recLength contents a) recs := by
  cases h with
  | record _ _ _ _ hrest => exact ⟨rfl, hrest⟩

/-- The records from a byte on, checked one after the other. -/
def checkSector (contents : ByteMemory) (stop a : Nat) : List Nat → Bool
  | [] => a == stop || (decide (a < stop) && contents a == 0)
  | b :: recs =>
      b == a && decide (recName + (contents (a + recNameLen)).toNat ≤ recLength contents a) &&
        decide (a + recLength contents a ≤ stop) &&
        checkSector contents stop (a + recLength contents a) recs

theorem SectorRecords.of_check {contents : ByteMemory} {stop a : Nat} {recs : List Nat}
    (h : checkSector contents stop a recs = true) : SectorRecords contents stop a recs := by
  induction recs generalizing a with
  | nil =>
      simp only [checkSector, Bool.or_eq_true, Bool.and_eq_true, beq_iff_eq, decide_eq_true_eq] at h
      rcases h with rfl | ⟨hinside, hzero⟩
      · exact .full
      · exact .zero a hinside hzero
  | cons b recs ih =>
      simp only [checkSector, Bool.and_eq_true, beq_iff_eq, decide_eq_true_eq] at h
      obtain ⟨⟨⟨rfl, hname⟩, hfits⟩, hrest⟩ := h
      exact .record b recs hname hfits (ih hrest)

/-- The records of a directory, sector by sector. -/
structure HoldsRecords (contents : ByteMemory) (base size : Nat) (records : List (List Nat)) :
    Prop where
  sectors : ∀ k recs, records[k]? = some recs →
    SectorRecords contents (base + isofsBlockSize * (k + 1)) (base + isofsBlockSize * k) recs
  size : size = isofsBlockSize * records.length
  aligned : base % isofsBlockSize = 0
  positive : 0 < base

theorem HoldsRecords.of_checks {contents : ByteMemory} {base size : Nat}
    {records : List (List Nat)}
    (hchecks : ∀ k (hk : k < records.length), checkSector contents (base + isofsBlockSize * (k + 1))
      (base + isofsBlockSize * k) records[k] = true)
    (hsize : size = isofsBlockSize * records.length) (haligned : base % isofsBlockSize = 0)
    (hpositive : 0 < base) : HoldsRecords contents base size records := by
  refine ⟨fun k recs hk => ?_, hsize, haligned, hpositive⟩
  obtain ⟨hlt, rfl⟩ := List.getElem?_eq_some_iff.mp hk
  exact .of_check (hchecks k hlt)

/-- The records of the files and directories in a directory, after the first two. -/
structure Entries (sb : IsofsSb) (contents : ByteMemory) (records : List (List Nat))
    (entries : List Nat) : Prop where
  layout : ∃ self up rest tail, records = (self :: up :: rest) :: tail ∧
    entries = rest ++ tail.flatten ∧
    recIdentifier contents self = [0] ∧ recVisible sb contents self = true ∧
    recIdentifier contents up = [1] ∧ recVisible sb contents up = true
  ordinary : ∀ a ∈ entries, Ordinary (recIdentifier contents a)

/-- The disc holds the tree: each node has a record, and each directory the
records of its entries. The root is its own first record. -/
structure IsTree {ν : Type _} (sb : IsofsSb) (contents : ByteMemory) (tree : FileTree ν)
    (place : ν → Nat) (records : ν → List (List Nat)) (entries : ν → List Nat) : Prop where
  root_place : place tree.root = sb.rootInode
  root_base : recBase sb contents (place tree.root) = sb.rootInode
  kind : ∀ n, recIsDir sb contents (place n) = tree.isDir n
  whole : ∀ n, recName + (contents (place n + recNameLen)).toNat ≤ recLength contents (place n)
  holds : ∀ n, tree.isDir n = true →
    HoldsRecords contents (recBase sb contents (place n)) (recBytes contents (place n)) (records n)
  listed : ∀ n, tree.isDir n = true → Entries sb contents (records n) (entries n)
  child_record : ∀ n name m, tree.isDir n = true → tree.child n name = some m →
    place m ∈ entries n ∧ recVisible sb contents (place m) = true ∧
      NameOf name (recIdentifier contents (place m))
  record_child : ∀ n name a, tree.isDir n = true → a ∈ entries n →
    recVisible sb contents a = true → NameOf name (recIdentifier contents a) →
      ∃ m, tree.child n name = some m ∧ place m = a

/-- No file ends behind the 700 Mb that the reader takes for the end of a disc,
and none is interleaved. -/
structure FitsDisc {ν : Type _} (sb : IsofsSb) (contents : ByteMemory) (place : ν → Nat) :
    Prop where
  inside : ∀ n, recBase sb contents (place n) + recBytes contents (place n) ≤ 700000000
  plain : ∀ n, contents (place n + recInterleave) = 0

end Milo.Fs.Isofs
