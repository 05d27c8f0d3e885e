import Milo.Foundation.LinkTree
import Milo.Fs.Ext2Geometry

/-! # The tree on an ext2 volume

A directory is a chain of records in each of its blocks; a record with the inode
number 0 is one whose entry has been deleted. A link has its text in its inode, or
in its block if it has one.
-/

namespace Milo.Fs.Ext2

open Foundation

/-! ## Records -/

section
variable (contents : ByteMemory) (a : Nat)

/-- The fields of the record at a byte of the device. -/
def recInode : Nat := readLe contents a 4
def recLength : Nat := readLe contents (a + 4) 2
def recNameLen : Nat := (contents (a + 6)).toNat
def recName : List UInt8 := (List.range (recNameLen contents a)).map fun i => contents (a + 8 + i)

end

def IsNamed (contents : ByteMemory) (name : List UInt8) (a : Nat) : Bool :=
  recName contents a == name

/-- The record of an entry that has not been deleted. -/
def IsEntry (contents : ByteMemory) (name : List UInt8) (a : Nat) : Bool :=
  IsNamed contents name a && recInode contents a != 0

/-- The records from `a` up to `stop`, the end of a block. -/
inductive BlockRecords (contents : ByteMemory) (stop : Nat) : Nat → List Nat → Prop where
  | full : BlockRecords contents stop stop []
  | record (a : Nat) (rest : List Nat) (hname : 8 + recNameLen contents a ≤ recLength contents a)
      (hfits : a + recLength contents a ≤ stop)
      (hrest : BlockRecords contents stop (a + recLength contents a) rest) :
      BlockRecords contents stop a (a :: rest)

/-- The records from a byte on, checked one after the other. -/
def checkRecords (contents : ByteMemory) (stop a : Nat) : List Nat → Bool
  | [] => a == stop
  | b :: rest =>
      b == a && decide (8 + recNameLen contents a ≤ recLength contents a) &&
        decide (a + recLength contents a ≤ stop) &&
        checkRecords contents stop (a + recLength contents a) rest

theorem BlockRecords.of_check {contents : ByteMemory} {stop a : Nat} {recs : List Nat}
    (h : checkRecords contents stop a recs = true) : BlockRecords contents stop a recs := by
  induction recs generalizing a with
  | nil =>
      obtain rfl := beq_iff_eq.mp h
      exact .full
  | cons b recs ih =>
      simp only [checkRecords, Bool.and_eq_true, beq_iff_eq, decide_eq_true_eq] at h
      obtain ⟨⟨⟨rfl, hname⟩, hfits⟩, hrest⟩ := h
      exact .record b recs hname hfits (ih hrest)

/-! ## Inodes -/

/-- An inode where the format has it. -/
def inodeAt (contents : ByteMemory) (ino : Nat) : Inode :=
  fun j => contents ((superBlockAt contents).inodePlace contents ino + j)

/-- The block of the device that a block of an inode is. -/
def blockAt (contents : ByteMemory) (blocksize ino b : Nat) : Nat :=
  blockPointer contents blocksize (inodeAt contents ino) b

/-- Two inodes have the same bytes. -/
def SameInode (ip ip' : Inode) : Prop := ∀ j < inodeSize, ip j = ip' j

theorem SameInode.mode {ip ip' : Inode} (h : SameInode ip ip') : ip.mode = ip'.mode :=
  readLe_congr 2 (by omega) (by omega) fun i hi => h _ (by unfold inodeSize; omega)

theorem SameInode.size {ip ip' : Inode} (h : SameInode ip ip') : ip.size = ip'.size :=
  readLe_congr 4 (by omega) (by omega) fun i hi => h _ (by unfold inodeSize; omega)

theorem SameInode.blocks {ip ip' : Inode} (h : SameInode ip ip') : ip.blocks = ip'.blocks :=
  readLe_congr 4 (by omega) (by omega) fun i hi => h _ (by unfold inodeSize; omega)

theorem SameInode.block {ip ip' : Inode} (h : SameInode ip ip') {i : Nat} (hi : i < 15) :
    ip.block i = ip'.block i := by
  unfold Inode.block
  have hplace : ((40 + 4 * (i : Int)) % 2 ^ 64).toNat = 40 + 4 * i := by omega
  rw [hplace]
  exact readLe_congr 4 (by omega) (by omega) fun j hj => h _ (by unfold inodeSize; omega)

theorem SameInode.blockPointer {ip ip' : Inode} (h : SameInode ip ip') (contents : ByteMemory)
    (blocksize b : Nat) :
    blockPointer contents blocksize ip b = blockPointer contents blocksize ip' b := by
  unfold Ext2.blockPointer
  have h12 : ip.block 12 = ip'.block 12 := h.block (i := 12) (by omega)
  have h13 : ip.block 13 = ip'.block 13 := h.block (i := 13) (by omega)
  have h14 : ip.block 14 = ip'.block 14 := h.block (i := 14) (by omega)
  simp only [h12, h13, h14]
  split
  · exact h.block (by omega)
  · rfl

/-! ## The volume -/

/-- The device holds the tree: each node has an inode, each directory the records of
its entries, and each link its text. -/
structure HoldsTree {ν : Type _} (contents : ByteMemory) (blocksize : Nat) (tree : LinkTree ν)
    (number : ν → Nat) (records : ν → List (List Nat)) : Prop where
  root : number tree.root = rootIno
  counted : ∀ n, 1 ≤ number n ∧ number n ≤ inodesCount contents
  dir : ∀ n, isDir (inodeAt contents (number n)).mode = tree.isDir n
  link : ∀ n, isLink (inodeAt contents (number n)).mode = (tree.text n).isSome
  size : ∀ n, tree.isDir n = true →
    (inodeAt contents (number n)).size = blocksize * (records n).length
  chain : ∀ n b recs, tree.isDir n = true → (records n)[b]? = some recs →
    blockAt contents blocksize (number n) b ≠ 0 ∧
      BlockRecords contents (blockAt contents blocksize (number n) b * blocksize + blocksize)
        (blockAt contents blocksize (number n) b * blocksize) recs
  listed : ∀ n name, tree.isDir n = true → IsToken name →
    ((records n).flatten.find? (IsEntry contents name)).map (recInode contents) =
      (tree.step n name).map number
  named : ∀ n text, tree.text n = some text → text ≠ [] ∧ 0 ∉ text
  inInode : ∀ n text, tree.text n = some text → (inodeAt contents (number n)).blocks = 0 →
    text.length < 60 ∧ HoldsBytes (inodeAt contents (number n)) 40 (text ++ [0])
  inBlock : ∀ n text, tree.text n = some text → (inodeAt contents (number n)).blocks ≠ 0 →
    text.length < blocksize ∧ blockAt contents blocksize (number n) 0 ≠ 0 ∧
      HoldsBytes contents (blockAt contents blocksize (number n) 0 * blocksize) (text ++ [0])

/-- A volume with a tree, on a device that makes no errors. -/
structure LinkVolume (ν : Type _) where
  drive : Drive
  t : Nat
  vol : Volume
  tree : LinkTree ν
  number : ν → Nat
  records : ν → List (List Nat)
  mount : ext2Mount drive t = some vol
  valid : ValidSuper drive.contents
  holds : HoldsTree drive.contents vol.blocksize tree number records
  reads : ∀ t, (drive.device t).Succeeds

namespace LinkVolume

variable {ν : Type _} (volume : LinkVolume ν)

/-- The limits of the volume are those of its block size. -/
theorem sized : volume.vol.Sized := by
  refine ext2Mount_sized volume.mount ?_
  have hcases := volume.valid.blocksize_cases
  rw [(ext2Mount_some volume.mount).volume, volume.valid.volume_blocksize]
  omega

/-- The inode of a node. -/
def inode (n : ν) : Inode := inodeAt volume.drive.contents (volume.number n)

/-- The block of the device that a block of a node is. -/
def pointer (n : ν) (b : Nat) : Nat :=
  blockAt volume.drive.contents volume.vol.blocksize (volume.number n) b

/-- A block that the reader maps as the format does. -/
structure Mapped (n : ν) (b : Nat) : Prop where
  inside : b < 12 + volume.vol.blocksize / 4 * (volume.vol.blocksize / 4)
  positive : volume.pointer n b < 2 ^ 31

/-- The first record with a name, if there is one, is that of an entry, and the
blocks up to it are mapped. -/
structure Searchable (n : ν) (name : List UInt8) : Prop where
  live : ∀ a, (volume.records n).flatten.find? (IsNamed volume.drive.contents name) = some a →
    0 < recInode volume.drive.contents a ∧ recInode volume.drive.contents a < 2 ^ 31
  mapped : ∀ b < (volume.records n).length,
    (∀ recs ∈ (volume.records n).take b, recs.find? (IsNamed volume.drive.contents name) = none) →
      volume.Mapped n b

end LinkVolume

end Milo.Fs.Ext2
