import Mathlib.Data.List.Induction

/-! # Overlays

A table over which one region after the other is laid. What it shows at a place
is the value of the last region that covers the place.
-/

namespace Foundation

section
variable {ι κ α : Type _}

/-- The table with the value of one region laid over it. -/
def overlay (covers : ι → κ → Bool) (value : ι → α) (table : κ → α) (i : ι) : κ → α := fun x =>
  if covers i x then value i else table x

/-- The last region that covers a place. -/
def lastCovering (covers : ι → κ → Bool) (regions : List ι) (x : κ) : Option ι :=
  regions.reverse.find? (covers · x)

theorem lastCovering_concat (covers : ι → κ → Bool) (regions : List ι) (i : ι) (x : κ) :
    lastCovering covers (regions ++ [i]) x =
      if covers i x then some i else lastCovering covers regions x := by
  unfold lastCovering
  rw [List.reverse_append, List.reverse_singleton, List.singleton_append, List.find?_cons]
  cases covers i x with
  | true => rfl
  | false => rfl

theorem lastCovering_eq_none {covers : ι → κ → Bool} {regions : List ι} {x : κ}
    (h : ∀ i ∈ regions, ¬ covers i x = true) : lastCovering covers regions x = none :=
  List.find?_eq_none.mpr fun i hi => h i (List.mem_reverse.mp hi)

theorem foldl_overlay (covers : ι → κ → Bool) (value : ι → α) (table : κ → α) (regions : List ι)
    (x : κ) :
    regions.foldl (overlay covers value) table x =
      (lastCovering covers regions x).elim (table x) value := by
  induction regions using List.reverseRecOn with
  | nil => rfl
  | append_singleton regions i ih =>
      rw [List.foldl_append, List.foldl_cons, List.foldl_nil, lastCovering_concat, overlay, ih]
      cases covers i x with
      | true => rfl
      | false => rfl

end

end Foundation
