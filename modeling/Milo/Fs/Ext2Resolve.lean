import Milo.Fs.Ext2Walk

/-! # Where a path leads on an ext2 volume

The walk of a lookup is compared with the way that the tree has for the path, component
by component and link by link.
-/

namespace Milo.Fs.Ext2

open Foundation Foundation.LinkTree

/-! ## Walks that have ended -/

namespace LinkVolume

variable {ν : Type _} {volume : LinkVolume ν} {base r : Reader} {i k : Nat} {s : Standing}
  {n m : ν} {w : Walk}

/-! ## Whole paths -/

/-- The expansion of a link fits the buffer. -/
def Fits (volume : LinkVolume ν) : Visit ν → Prop
  | .lookup _ _ => True
  | .follow link rest => ∀ text, volume.tree.text link = some text →
      (extendPath text rest).length < namebufSize

/-- A directory is one that the reader can search, and a link at the end of the
path lies in its inode. -/
def Readable (volume : LinkVolume ν) : Visit ν → Prop
  | .lookup dir name => volume.Searchable dir name
  | .follow link rest =>
      if rest = [] then (volume.inode link).blocks = 0 else volume.LinkRead link

end LinkVolume

/-! ## A volume with links -/

inductive LinkedNode where
  | root
  | file
  | dir
  | link
  | target
  | dirLink
  | blockLink
  deriving DecidableEq

namespace LinkedNode

/-- The root holds the file `f`, the directory `d` and the link `k` to it. The directory
holds the file `g` and the links `l` and `b` to it. -/
def entries : LinkedNode → List (List UInt8 × LinkedNode)
  | root => [([0x66], file), ([0x64], dir), ([0x6b], dirLink)]
  | dir => [([0x6c], link), ([0x67], target), ([0x62], blockLink)]
  | _ => []

def parent (n : LinkedNode) : LinkedNode :=
  if n = link ∨ n = target ∨ n = blockLink then dir else root

theorem parent_entries (n : LinkedNode) : ∀ found ∈ entries n, parent found.2 = n := by
  cases n <;> decide

def tree : LinkTree LinkedNode where
  root := root
  isDir n := n == root || n == dir
  child n name := ((entries n).find? (·.1 == name)).map (·.2)
  parent := parent
  root_isDir := rfl
  parent_root := rfl
  parent_child n name m h := by
    obtain ⟨found, hfound, rfl⟩ := Option.map_eq_some_iff.mp h
    exact parent_entries n found (List.mem_of_find?_eq_some hfound)
  text
    | link => some [0x67]
    | dirLink => some [0x64]
    | blockLink => some [0x67]
    | _ => none
  text_dir n h := by
    cases n <;> first | rfl | cases h

def number : LinkedNode → Nat
  | root => 2
  | link => 3
  | file => 4
  | dir => 5
  | target => 6
  | dirLink => 7
  | blockLink => 8

def records : LinkedNode → List (List Nat)
  | root => [[6144, 6156, 6168, 6180, 6192, 6204]]
  | dir => [[7168, 7180, 7192, 7204, 7216]]
  | _ => []

end LinkedNode

namespace LinkVolume

variable {ν : Type _} {volume : LinkVolume ν} {n : ν}

end LinkVolume

end Milo.Fs.Ext2
