import Milo.Foundation.Spans

/-! # Pieces laid out in a file

A piece is data that belongs at an address. A file that starts at a base address
holds pieces when each lies at its distance from the base and the file is blank
everywhere else. Files are built from the front, a piece with the blanks before
it at a time.
-/

namespace Foundation

/-- Data with the address it belongs at. -/
structure Piece (α : Type _) where
  address : Nat
  data : List α

namespace Piece

variable {α : Type _}

def span (p : Piece α) : Span := ⟨p.address, p.data.length⟩

/-- Each piece starts at `start` or behind it, and not before the end of the one
before. -/
def Ascending : Nat → List (Piece α) → Prop
  | _, [] => True
  | start, p :: ps => start ≤ p.address ∧ Ascending (p.address + p.data.length) ps

theorem Ascending.le {start : Nat} {ps : List (Piece α)} (h : Ascending start ps) {p : Piece α}
    (hp : p ∈ ps) : start ≤ p.address := by
  induction ps generalizing start with
  | nil => cases hp
  | cons q ps ih =>
      rcases List.mem_cons.mp hp with rfl | hp
      · exact h.1
      · have hlater := ih h.2 hp
        have hfirst := h.1
        omega

/-- The file that starts at `base` holds the pieces and is blank elsewhere. -/
structure LaidOut (blank : α) (base : Nat) (ps : List (Piece α)) (file : List α) : Prop where
  holds : ∀ p ∈ ps, ∀ k x, p.data[k]? = some x → file[p.address - base + k]? = some x
  blanks : ∀ n x, file[n]? = some x → (∀ p ∈ ps, base + n ∉ p.span) → x = blank

variable {blank : α} {base : Nat} {p : Piece α} {ps : List (Piece α)} {file : List α}

theorem getElem?_behind (n : Nat) (k : Nat) :
    (List.replicate n blank ++ p.data ++ file)[n + p.data.length + k]? = file[k]? := by
  rw [List.getElem?_append_right (by rw [List.length_append, List.length_replicate]; omega),
    List.length_append, List.length_replicate, Nat.add_sub_cancel_left]

theorem getElem?_inside (n : Nat) {k : Nat} (hk : k < p.data.length) :
    (List.replicate n blank ++ p.data ++ file)[n + k]? = p.data[k]? := by
  rw [List.getElem?_append_left (by rw [List.length_append, List.length_replicate]; omega),
    List.getElem?_append_right (by rw [List.length_replicate]; omega), List.length_replicate,
    Nat.add_sub_cancel_left]

theorem getElem?_before {n m : Nat} (h : m < n) :
    (List.replicate n blank ++ p.data ++ file)[m]? = some blank := by
  rw [List.getElem?_append_left (by rw [List.length_append, List.length_replicate]; omega),
    List.getElem?_append_left (by rwa [List.length_replicate]), List.getElem?_replicate,
    if_pos h]

/-- A piece at its place is followed by a file that starts at its end. -/
theorem laidOut_cons (hbase : base ≤ p.address)
    (hps : Ascending (p.address + p.data.length) ps) :
    LaidOut blank base (p :: ps)
        (List.replicate (p.address - base) blank ++ p.data ++ file) ↔
      LaidOut blank (p.address + p.data.length) ps file := by
  constructor
  · intro h
    refine ⟨fun q hq k x hk => ?_, fun n x hx hout => ?_⟩
    · have hle := hps.le hq
      have hheld := h.holds q (List.mem_cons_of_mem p hq) k x hk
      rwa [show q.address - base + k =
        p.address - base + p.data.length + (q.address - (p.address + p.data.length) + k) by omega,
        getElem?_behind] at hheld
    · rw [← getElem?_behind (p.address - base)] at hx
      refine h.blanks _ x hx fun q hq hin => ?_
      rw [show base + (p.address - base + p.data.length + n) =
        p.address + p.data.length + n by omega] at hin
      rcases List.mem_cons.mp hq with rfl | hq
      · exact absurd (Span.mem_def.mp hin).2 (by simp only [span]; omega)
      · exact hout q hq hin
  · intro h
    refine ⟨fun q hq k x hk => ?_, fun n x hx hout => ?_⟩
    · rcases List.mem_cons.mp hq with rfl | hq
      · rw [getElem?_inside _ (List.getElem?_eq_some_iff.mp hk).1]
        exact hk
      · have hle := hps.le hq
        rw [show q.address - base + k =
          p.address - base + p.data.length + (q.address - (p.address + p.data.length) + k) by omega,
          getElem?_behind]
        exact h.holds q hq k x hk
    · by_cases hbefore : n < p.address - base
      · rw [getElem?_before hbefore] at hx
        exact (Option.some.inj hx).symm
      · by_cases hinside : n < p.address - base + p.data.length
        · exact absurd (Span.mem_def.mpr (by simp only [span]; omega))
            (hout p List.mem_cons_self)
        · obtain ⟨m, rfl⟩ := Nat.exists_eq_add_of_le (Nat.le_of_not_lt hinside)
          rw [getElem?_behind] at hx
          refine h.blanks m x hx fun q hq hin => ?_
          apply hout q (List.mem_cons_of_mem p hq)
          rwa [show base + (p.address - base + p.data.length + m) =
            p.address + p.data.length + m by omega]

end Piece

end Foundation
