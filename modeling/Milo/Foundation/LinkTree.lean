import Milo.Foundation.FileTree

/-! # Trees with symbolic links

A link stands for a path: it is followed from the root if its text starts with a
slash, and from the directory that it was found in otherwise. What a path leads to
is given together with the way there, which is all that a reader's own walk is
compared with.
-/

namespace Foundation

/-- The text of a link that is followed from the root. -/
def isAbsolute (text : List UInt8) : Bool := text.head? == some slash

structure LinkTree (ν : Type _) extends FileTree ν where
  /-- The text of a symbolic link. -/
  text : ν → Option (List UInt8)
  text_dir : ∀ n, isDir n = true → text n = none

namespace LinkTree

variable {ν : Type _}

/-- What happens on the way: a component is looked for in a directory, or a link is
followed that some components are still behind. -/
inductive Visit (ν : Type _) where
  | lookup (dir : ν) (name : List UInt8)
  | follow (link : ν) (rest : List (List UInt8))

/-- The way along a path and what it leads to, if it leads to something. -/
structure Route (ν : Type _) where
  visits : List (Visit ν)
  result : Option ν

def Route.after (visit : Visit ν) (route : Route ν) : Route ν :=
  { route with visits := visit :: route.visits }

variable (tree : LinkTree ν)

/-- Where the text of a link that was found in `dir` is followed from. -/
def origin (dir : ν) (text : List UInt8) : ν := if isAbsolute text then tree.root else dir

/-- One component after the other, up to a link. -/
def routeWith (onLink : ν → List (List UInt8) → Option (Route ν)) (n : ν) :
    List (List UInt8) → Option (Route ν)
  | [] => some ⟨[], some n⟩
  | name :: rest =>
      if tree.isDir n = false then some ⟨[], none⟩
      else
        match tree.step n name with
        | none => some ⟨[.lookup n name], none⟩
        | some m =>
            match tree.text m with
            | none => (routeWith onLink m rest).map (Route.after (.lookup n name))
            | some text =>
                (onLink (tree.origin n text) (components text ++ rest)).map fun route =>
                  (route.after (.follow m rest)).after (.lookup n name)

/-- The way along a path from a node, with at most `links` links. -/
def route : Nat → ν → List (List UInt8) → Option (Route ν)
  | 0 => tree.routeWith fun _ _ => none
  | links + 1 => tree.routeWith (route links)

end LinkTree

/-! ## The bytes of components -/

theorem mem_componentsFrom {current path name : List UInt8} {c : UInt8}
    (h : name ∈ componentsFrom current path) (hc : c ∈ name) : c ∈ current ∨ c ∈ path := by
  induction path generalizing current with
  | nil =>
      unfold componentsFrom at h
      split at h
      · cases h
      · rw [List.mem_singleton] at h
        exact Or.inl (h ▸ hc)
  | cons b path ih =>
      unfold componentsFrom at h
      split at h
      · split at h
        · rcases ih h with hmem | hmem
          · cases hmem
          · exact Or.inr (List.mem_cons_of_mem b hmem)
        · rcases List.mem_cons.mp h with rfl | h
          · exact Or.inl hc
          · rcases ih h with hmem | hmem
            · cases hmem
            · exact Or.inr (List.mem_cons_of_mem b hmem)
      · rcases ih h with hmem | hmem
        · rcases List.mem_append.mp hmem with hmem | hmem
          · exact Or.inl hmem
          · rw [List.mem_singleton] at hmem
            exact Or.inr (hmem ▸ List.mem_cons_self)
        · exact Or.inr (List.mem_cons_of_mem b hmem)

/-- A string that `strtok` hands out. -/
structure IsToken (name : List UInt8) : Prop where
  component : IsComponent name
  noNul : 0 ∉ name

theorem components_isToken {path name : List UInt8} (hnul : 0 ∉ path)
    (h : name ∈ components path) : IsToken name := by
  refine ⟨components_isComponent h, fun hc => ?_⟩
  rcases mem_componentsFrom h hc with hmem | hmem
  · cases hmem
  · exact hnul hmem

end Foundation
