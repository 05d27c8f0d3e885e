import Milo.Foundation.PathName

/-! # Trees of directories

What a path means: each component leads from a directory to one of its entries,
to itself or to its parent, whose parent at the root is the root.
-/

namespace Foundation

/-- The component `.`. -/
def dot : List UInt8 := [0x2e]

/-- The component `..`. -/
def dotdot : List UInt8 := [0x2e, 0x2e]

structure FileTree (ν : Type _) where
  root : ν
  isDir : ν → Bool
  child : ν → List UInt8 → Option ν
  parent : ν → ν
  root_isDir : isDir root = true
  parent_root : parent root = root
  parent_child : ∀ n name m, child n name = some m → parent m = n

namespace FileTree

variable {ν : Type _} (tree : FileTree ν)

/-- One component, looked for in a node; an empty one stays there. -/
def step (n : ν) (name : List UInt8) : Option ν :=
  if tree.isDir n = false then none
  else if name = [] ∨ name = dot then some n
  else if name = dotdot then some (tree.parent n)
  else tree.child n name

/-- The node that a path leads to. -/
def resolve (n : ν) : List (List UInt8) → Option ν
  | [] => some n
  | name :: rest => (tree.step n name).bind fun m => resolve m rest

variable {tree}

theorem step_stay {n : ν} {name : List UInt8} (hdir : tree.isDir n = true)
    (hname : name = [] ∨ name = dot) : tree.step n name = some n := by
  rw [step, if_neg (by simp [hdir]), if_pos hname]

theorem step_up {n : ν} (hdir : tree.isDir n = true) :
    tree.step n dotdot = some (tree.parent n) := by
  rw [step, if_neg (by simp [hdir]), if_neg (by decide), if_pos rfl]

theorem step_down {n : ν} {name : List UInt8} (hdir : tree.isDir n = true)
    (hstay : ¬ (name = [] ∨ name = dot)) (hup : name ≠ dotdot) :
    tree.step n name = tree.child n name := by
  rw [step, if_neg (by simp [hdir]), if_neg hstay, if_neg hup]

theorem step_file {n : ν} (name : List UInt8) (hfile : tree.isDir n = false) :
    tree.step n name = none := by
  rw [step, if_pos hfile]

end FileTree

end Foundation
