import Mathlib.Data.List.Basic

/-! # Components of a path

A path is a string of bytes, and its components are the maximal runs of bytes
between slashes, as `strtok` hands them out. Joining paths with a slash joins
their components, which is all a path walk relies on.
-/

namespace Foundation

/-- The character `/`. -/
def slash : UInt8 := 0x2f

/-- The components of what is left of a path; `current` is the component that
has been read so far. -/
def componentsFrom (current : List UInt8) : List UInt8 → List (List UInt8)
  | [] => if current = [] then [] else [current]
  | c :: path =>
      if c = slash then
        if current = [] then componentsFrom [] path else current :: componentsFrom [] path
      else componentsFrom (current ++ [c]) path

def components (path : List UInt8) : List (List UInt8) := componentsFrom [] path

/-- A string that can be a component. -/
structure IsComponent (name : List UInt8) : Prop where
  nonempty : name ≠ []
  noSlash : slash ∉ name

/-- The path with further components behind it. -/
def extendPath (path : List UInt8) (names : List (List UInt8)) : List UInt8 :=
  path ++ names.flatMap (slash :: ·)

theorem componentsFrom_append_slash (current path rest : List UInt8) :
    componentsFrom current (path ++ slash :: rest) =
      componentsFrom current path ++ components rest := by
  induction path generalizing current with
  | nil =>
      rw [List.nil_append, componentsFrom, componentsFrom, if_pos rfl]
      split
      · rfl
      · rfl
  | cons c path ih =>
      rw [List.cons_append, componentsFrom, componentsFrom]
      split
      · split
        · exact ih []
        · rw [ih [], List.cons_append]
      · exact ih (current ++ [c])

theorem components_append_slash (path rest : List UInt8) :
    components (path ++ slash :: rest) = components path ++ components rest :=
  componentsFrom_append_slash [] path rest

theorem componentsFrom_name {current name : List UInt8} (hslash : slash ∉ name)
    (hne : current ++ name ≠ []) : componentsFrom current name = [current ++ name] := by
  induction name generalizing current with
  | nil =>
      rw [List.append_nil] at hne ⊢
      rw [componentsFrom, if_neg hne]
  | cons c name ih =>
      have hc : c ≠ slash := fun h => hslash (h ▸ List.mem_cons_self)
      have hassoc : current ++ [c] ++ name = current ++ c :: name := by simp
      rw [componentsFrom, if_neg hc, ih (fun h => hslash (List.mem_cons_of_mem c h)) (by simp),
        hassoc]

theorem components_name {name : List UInt8} (h : IsComponent name) : components name = [name] :=
  componentsFrom_name h.noSlash h.nonempty

/-- Components put behind a path come out behind its own. -/
theorem components_extendPath {names : List (List UInt8)} (path : List UInt8)
    (h : ∀ name ∈ names, IsComponent name) :
    components (extendPath path names) = components path ++ names := by
  unfold extendPath
  induction names generalizing path with
  | nil => simp
  | cons name names ih =>
      have hname := h name List.mem_cons_self
      have hnames := ih name fun n hn => h n (List.mem_cons_of_mem name hn)
      rw [List.flatMap_cons, List.cons_append, components_append_slash, hnames,
        components_name hname, List.singleton_append]

theorem componentsFrom_isComponent {current path name : List UInt8} (hcurrent : slash ∉ current)
    (h : name ∈ componentsFrom current path) : IsComponent name := by
  induction path generalizing current with
  | nil =>
      unfold componentsFrom at h
      split at h
      · cases h
      · rename_i hne
        rw [List.mem_singleton] at h
        exact ⟨h ▸ hne, h ▸ hcurrent⟩
  | cons c path ih =>
      unfold componentsFrom at h
      split at h
      · split at h
        · exact ih (by simp) h
        · rename_i hne
          rcases List.mem_cons.mp h with rfl | h
          · exact ⟨hne, hcurrent⟩
          · exact ih (by simp) h
      · rename_i hc
        apply ih _ h
        simp [hcurrent, Ne.symm hc]

theorem components_isComponent {path name : List UInt8} (h : name ∈ components path) :
    IsComponent name := componentsFrom_isComponent (by simp) h

theorem componentsFrom_ne_nil {current : List UInt8} (path : List UInt8) (h : current ≠ []) :
    componentsFrom current path ≠ [] := by
  induction path generalizing current with
  | nil => simp [componentsFrom, h]
  | cons c path ih =>
      unfold componentsFrom
      split
      · simp
      · exact ih (by simp)

/-- A path that starts with another character than a slash has a component. -/
theorem components_ne_nil {path : List UInt8} (hne : path ≠ []) (hrel : path.head? ≠ some slash) :
    components path ≠ [] := by
  cases path with
  | nil => contradiction
  | cons c path =>
      have hc : c ≠ slash := fun h => hrel (by rw [h]; rfl)
      unfold components componentsFrom
      rw [if_neg hc]
      exact componentsFrom_ne_nil path (by simp)

/-- A path has at most as many components as characters. -/
theorem componentsFrom_length_le (current path : List UInt8) :
    (componentsFrom current path).length ≤ path.length + 1 := by
  induction path generalizing current with
  | nil =>
      unfold componentsFrom
      split <;> simp
  | cons c path ih =>
      unfold componentsFrom
      have hnil := ih []
      have hmore := ih (current ++ [c])
      rw [List.length_cons]
      split
      · split
        · omega
        · rw [List.length_cons]
          omega
      · omega

/-- The parts of a path between single slashes, empty ones as well. -/
def fieldsFrom (current : List UInt8) : List UInt8 → List (List UInt8)
  | [] => [current]
  | c :: path => if c = slash then current :: fieldsFrom [] path else fieldsFrom (current ++ [c]) path

def fields (path : List UInt8) : List (List UInt8) := fieldsFrom [] path

theorem fieldsFrom_ne_nil (current path : List UInt8) : fieldsFrom current path ≠ [] := by
  induction path generalizing current with
  | nil => simp [fieldsFrom]
  | cons c path ih =>
      unfold fieldsFrom
      split
      · simp
      · exact ih _

theorem fields_ne_nil (path : List UInt8) : fields path ≠ [] := fieldsFrom_ne_nil [] path

end Foundation
