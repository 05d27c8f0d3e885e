import Milo.Foundation.FileTree

/-! # Directories by their paths

Directories under names, where a name may also lead to a directory that lies
somewhere else. A path leads from a directory to another one, component by
component, and what stands before its last slash leads to the parent only if the
last component goes down.
-/

namespace Foundation

/-- The part of a path before its last slash, and the part behind it. -/
def EndsAt (path before last : List UInt8) : Prop :=
  slash ∉ last ∧ (path = before ++ slash :: last ∨ path = last ∧ before = [])

/-- A component that names an entry. -/
structure IsName (name : List UInt8) : Prop extends IsComponent name where
  ne_dot : name ≠ dot
  ne_dotdot : name ≠ dotdot

structure Directories (ν : Type _) where
  root : ν
  parent : ν → ν
  /-- The directory that a name leads to. -/
  entry : ν → List UInt8 → Option ν
  parent_root : parent root = root

namespace Directories

variable {ν : Type _} (dirs : Directories ν)

def step (n : ν) (name : List UInt8) : Option ν :=
  if name = dot then some n
  else if name = dotdot then some (dirs.parent n)
  else dirs.entry n name

/-- The directory that a path leads to. -/
def walk (n : ν) (path : List UInt8) : Option ν := (components path).foldlM dirs.step n

/-- Behind the last slash stands a name of a directory that lies in the one
before it; anything else may stand there only behind the root. -/
def EndsInChild (path : List UInt8) : Prop :=
  ∀ before last n, EndsAt path before last → dirs.walk dirs.root before = some n →
    (IsName last → ∀ m, dirs.entry n last = some m → dirs.parent m = n) ∧
    (¬ IsName last → n = dirs.root)

variable {dirs}

@[simp] theorem walk_nil (n : ν) : dirs.walk n [] = some n := rfl

/-- A path and another one behind a slash. -/
theorem walk_append_slash (n : ν) (path rest : List UInt8) :
    dirs.walk n (path ++ slash :: rest) = (dirs.walk n path).bind fun m => dirs.walk m rest := by
  unfold walk
  rw [components_append_slash, List.foldlM_append]
  rfl

theorem walk_slash (n : ν) (path : List UInt8) : dirs.walk n (slash :: path) = dirs.walk n path :=
  walk_append_slash n [] path

theorem walk_component {name : List UInt8} (n : ν) (h : IsComponent name) :
    dirs.walk n name = dirs.step n name := by
  unfold walk
  rw [components_name h]
  simp only [List.foldlM_cons, List.foldlM_nil, bind_pure]

/-- A path whose first component stays. -/
theorem walk_dot_slash (n : ν) (path : List UInt8) :
    dirs.walk n (dot ++ slash :: path) = dirs.walk n path := by
  rw [walk_append_slash]
  rfl

/-- A path whose first component goes up. -/
theorem walk_dotdot_slash (n : ν) (path : List UInt8) :
    dirs.walk n (dotdot ++ slash :: path) = dirs.walk (dirs.parent n) path := by
  rw [walk_append_slash]
  rfl

theorem step_name {name : List UInt8} (n : ν) (h : IsName name) :
    dirs.step n name = dirs.entry n name := by
  unfold step
  rw [if_neg h.ne_dot, if_neg h.ne_dotdot]

/-- What is not a name leads from the root to the root. -/
theorem walk_root_of_not_name {last : List UInt8} (hslash : slash ∉ last) (h : ¬ IsName last) :
    dirs.walk dirs.root last = some dirs.root := by
  by_cases hnil : last = []
  · rw [hnil, walk_nil]
  have hcomp : IsComponent last := ⟨hnil, hslash⟩
  rw [walk_component _ hcomp]
  unfold step
  split
  · rfl
  · rename_i hdot
    split
    · rw [dirs.parent_root]
    · rename_i hup
      exact absurd ⟨hcomp, hdot, hup⟩ h

theorem walk_endsAt {path before last : List UInt8} (n : ν) (h : EndsAt path before last) :
    dirs.walk n path = (dirs.walk n before).bind fun m => dirs.walk m last := by
  rcases h.2 with rfl | ⟨rfl, rfl⟩
  · exact walk_append_slash n before last
  · rfl

/-- Without its last component, a path that ends in a child leads to the parent. -/
theorem walk_before {path before last : List UInt8} {m : ν}
    (hm : dirs.walk dirs.root path = some m) (hchild : dirs.EndsInChild path)
    (hat : EndsAt path before last) : dirs.walk dirs.root before = some (dirs.parent m) := by
  rw [walk_endsAt _ hat] at hm
  obtain ⟨n, hn, hlast⟩ := Option.bind_eq_some_iff.mp hm
  have hends := hchild before last n hat hn
  rw [hn]
  by_cases hname : IsName last
  · rw [walk_component n hname.toIsComponent, step_name n hname] at hlast
    rw [hends.1 hname m hlast]
  · have hroot := hends.2 hname
    rw [hroot, walk_root_of_not_name hat.1 hname] at hlast
    rw [← Option.some.inj hlast, dirs.parent_root, hroot]

end Directories

end Foundation
