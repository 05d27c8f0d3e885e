import Milo.Foundation.Layout

/-! # Flat images

A flat image of pieces starts at the lowest of them and ends with the highest.
Pieces that follow each other without a gap are joined to such an image, and it
is one of some of the pieces only if the others are blank and do not stick out.
-/

namespace Foundation.Piece

variable {α : Type _} {blank : α} {p q : Piece α} {ps qs : List (Piece α)} {file : List α}
  {start : Nat}

/-- Where the piece ends. -/
def last (p : Piece α) : Nat := p.address + p.data.length

def lowest (ps : List (Piece α)) : Nat := (ps.map address).min?.getD 0

def highest (ps : List (Piece α)) : Nat := (ps.map last).max?.getD 0

theorem lowest_le (h : p ∈ ps) : lowest ps ≤ p.address := by
  cases hmin : (ps.map address).min? with
  | none => simp_all
  | some a =>
      rw [lowest, hmin]
      exact (List.min?_eq_some_iff.mp hmin).2 _ (List.mem_map_of_mem h)

theorem exists_lowest (h : ps ≠ []) : ∃ p ∈ ps, p.address = lowest ps := by
  cases hmin : (ps.map address).min? with
  | none => simp_all
  | some a =>
      rw [lowest, hmin]
      exact List.mem_map.mp (List.min?_eq_some_iff.mp hmin).1

theorem le_highest (h : p ∈ ps) : p.last ≤ highest ps := by
  cases hmax : (ps.map last).max? with
  | none => simp_all
  | some a =>
      rw [highest, hmax]
      exact (List.max?_eq_some_iff.mp hmax).2 _ (List.mem_map_of_mem h)

theorem exists_highest (h : ps ≠ []) : ∃ p ∈ ps, p.last = highest ps := by
  cases hmax : (ps.map last).max? with
  | none => simp_all
  | some a =>
      rw [highest, hmax]
      exact List.mem_map.mp (List.max?_eq_some_iff.mp hmax).1

theorem lowest_anti (hne : ps ≠ []) (h : ps ⊆ qs) : lowest qs ≤ lowest ps := by
  obtain ⟨p, hp, hlow⟩ := exists_lowest hne
  exact hlow ▸ lowest_le (h hp)

theorem highest_mono (hne : ps ≠ []) (h : ps ⊆ qs) : highest ps ≤ highest qs := by
  obtain ⟨p, hp, hhigh⟩ := exists_highest hne
  exact hhigh ▸ le_highest (h hp)

theorem eq_nil_iff_of_mem_iff (h : ∀ p, p ∈ ps ↔ p ∈ qs) : ps = [] ↔ qs = [] := by
  simp only [List.eq_nil_iff_forall_not_mem, h]

theorem lowest_eq_of_mem_iff (h : ∀ p, p ∈ ps ↔ p ∈ qs) : lowest ps = lowest qs := by
  by_cases hnil : ps = []
  · rw [hnil, (eq_nil_iff_of_mem_iff h).mp hnil]
  · have hqs : qs ≠ [] := mt (eq_nil_iff_of_mem_iff h).mpr hnil
    exact Nat.le_antisymm (lowest_anti hqs fun p => (h p).mpr) (lowest_anti hnil fun p => (h p).mp)

theorem highest_eq_of_mem_iff (h : ∀ p, p ∈ ps ↔ p ∈ qs) : highest ps = highest qs := by
  by_cases hnil : ps = []
  · rw [hnil, (eq_nil_iff_of_mem_iff h).mp hnil]
  · have hqs : qs ≠ [] := mt (eq_nil_iff_of_mem_iff h).mpr hnil
    exact Nat.le_antisymm (highest_mono hnil fun p => (h p).mp) (highest_mono hqs fun p => (h p).mpr)

/-- The file runs from the lowest piece to the end of the highest one, and it is
blank between them. -/
structure Flat (blank : α) (ps : List (Piece α)) (file : List α) : Prop where
  laidOut : LaidOut blank (lowest ps) ps file
  length_eq : file.length = highest ps - lowest ps

theorem Flat.of_mem_iff (h : ∀ p, p ∈ ps ↔ p ∈ qs) (hflat : Flat blank ps file) :
    Flat blank qs file where
  laidOut := by
    rw [← lowest_eq_of_mem_iff h]
    exact ⟨fun p hp => hflat.laidOut.holds p ((h p).mpr hp),
      fun n x hx hout => hflat.laidOut.blanks n x hx fun p hp => hout p ((h p).mp hp)⟩
  length_eq := by rw [← lowest_eq_of_mem_iff h, ← highest_eq_of_mem_iff h, hflat.length_eq]

/-- Blanks at the end do not matter. -/
theorem LaidOut.append_blanks {base : Nat} (h : LaidOut blank base ps file) (n : Nat) :
    LaidOut blank base ps (file ++ List.replicate n blank) where
  holds p hp k x hk := by
    have hheld := h.holds p hp k x hk
    rw [List.getElem?_append_left (List.getElem?_eq_some_iff.mp hheld).1]
    exact hheld
  blanks m x hx hout := by
    by_cases hm : m < file.length
    · rw [List.getElem?_append_left hm] at hx
      exact h.blanks m x hx hout
    · rw [List.getElem?_append_right (Nat.le_of_not_lt hm), List.getElem?_replicate] at hx
      split at hx
      · exact (Option.some.inj hx).symm
      · cases hx

/-! ## Pieces without gaps -/

theorem Ascending.of_pairwise (h : ps.Pairwise fun p q => p.last ≤ q.address)
    (hstart : ∀ p ∈ ps, start ≤ p.address) : Ascending start ps := by
  induction ps generalizing start with
  | nil => trivial
  | cons p ps ih =>
      obtain ⟨hp, hps⟩ := List.pairwise_cons.mp h
      exact ⟨hstart p (by simp), ih hps hp⟩

/-- Each piece starts where the one before ends. -/
def Contiguous : Nat → List (Piece α) → Prop
  | _, [] => True
  | start, p :: ps => p.address = start ∧ Contiguous p.last ps

theorem Contiguous.ascending (h : Contiguous start ps) : Ascending start ps := by
  induction ps generalizing start with
  | nil => trivial
  | cons p ps ih => exact ⟨Nat.le_of_eq h.1.symm, ih h.2⟩

theorem Contiguous.laidOut (h : Contiguous start ps) :
    LaidOut blank start ps (ps.flatMap data) := by
  induction ps generalizing start with
  | nil => exact ⟨by simp, by simp⟩
  | cons p ps ih =>
      obtain ⟨rfl, hps⟩ := h
      have hjoined := (laidOut_cons (Nat.le_refl p.address) hps.ascending).mpr (ih hps)
      rw [Nat.sub_self] at hjoined
      simpa using hjoined

theorem Contiguous.length_eq (h : Contiguous start ps) (hp : p ∈ ps)
    (hlast : ∀ q ∈ ps, q.last ≤ p.last) (hpos : ∀ q ∈ ps, q.data ≠ []) :
    start + (ps.flatMap data).length = p.last := by
  induction ps generalizing start with
  | nil => cases hp
  | cons q ps ih =>
      obtain ⟨rfl, hps⟩ := h
      rw [List.flatMap_cons, List.length_append]
      cases ps with
      | nil =>
          obtain rfl := List.mem_singleton.mp hp
          rw [List.flatMap_nil, List.length_nil, last]
          omega
      | cons r ps =>
          have hnext : r.address = q.last := hps.1
          have hrpos := List.length_pos_iff.mpr (hpos r (by simp))
          have hrest : p ∈ r :: ps := by
            rcases List.mem_cons.mp hp with rfl | hp
            · have hr := hlast r (by simp)
              rw [last] at hr
              omega
            · exact hp
          have htail := ih hps hrest (fun q hq => hlast q (List.mem_cons_of_mem _ hq))
            fun q hq => hpos q (List.mem_cons_of_mem _ hq)
          rw [last] at htail
          omega

theorem address_lt_last (h : p.data ≠ []) : p.address < p.last := by
  have hlen := List.length_pos_iff.mpr h
  rw [last]
  omega

/-- Each piece ends where another one starts, or no piece ends behind it. -/
def NoGap (ps : List (Piece α)) : Prop :=
  ∀ p ∈ ps, (∃ q ∈ ps, q.address = p.last) ∨ ∀ q ∈ ps, q.last ≤ p.last

theorem NoGap.of_mem_iff (h : ∀ p, p ∈ ps ↔ p ∈ qs) : NoGap ps ↔ NoGap qs := by
  simp only [NoGap, h]

theorem Contiguous.noGap (h : Contiguous start ps) : NoGap ps := by
  induction ps generalizing start with
  | nil => simp [NoGap]
  | cons p ps ih =>
      obtain ⟨-, hps⟩ := h
      have hle := fun q (hq : q ∈ ps) => hps.ascending.le hq
      intro q hq
      rcases List.mem_cons.mp hq with rfl | hq
      · cases ps with
        | nil => exact .inr fun r hr => Nat.le_of_eq (by rw [List.mem_singleton.mp hr])
        | cons r rest => exact .inl ⟨r, by simp, hps.1⟩
      · have hfirst := hle q hq
        rcases ih hps q hq with ⟨r, hr, heq⟩ | hhighest
        · exact .inl ⟨r, List.mem_cons_of_mem _ hr, heq⟩
        · refine .inr fun r hr => ?_
          rcases List.mem_cons.mp hr with rfl | hr
          · exact Nat.le_trans hfirst (Nat.le_add_right _ _)
          · exact hhighest r hr

theorem NoGap.contiguous (hgap : NoGap (p :: ps)) (h : Ascending p.last ps)
    (hpos : ∀ q ∈ p :: ps, q.data ≠ []) : Contiguous p.last ps := by
  induction ps generalizing p with
  | nil => trivial
  | cons q ps ih =>
      have hp := address_lt_last (hpos p (by simp))
      have hq := address_lt_last (hpos q (by simp))
      have hfirst : p.last ≤ q.address := h.1
      have hrest : Ascending q.last ps := h.2
      have hnext : q.address = p.last := by
        rcases hgap p (by simp) with ⟨r, hr, heq⟩ | hhighest
        · rcases List.mem_cons.mp hr with rfl | hr
          · omega
          · rcases List.mem_cons.mp hr with rfl | hr
            · exact heq
            · have hle := hrest.le hr
              omega
        · have hle := hhighest q (by simp)
          omega
      refine ⟨hnext, ih (fun r hr => ?_) hrest fun r hr => hpos r (List.mem_cons_of_mem _ hr)⟩
      have hr' := address_lt_last (hpos r (List.mem_cons_of_mem _ hr))
      have hle : q.address ≤ r.address := by
        rcases List.mem_cons.mp hr with rfl | hr
        · exact Nat.le_refl _
        · have := hrest.le hr
          omega
      rcases hgap r (List.mem_cons_of_mem _ hr) with ⟨t, ht, heq⟩ | hhighest
      · rcases List.mem_cons.mp ht with rfl | ht
        · omega
        · exact .inl ⟨t, ht, heq⟩
      · exact .inr fun t ht => hhighest t (List.mem_cons_of_mem _ ht)

/-- Joined together they are a flat image. -/
theorem Contiguous.flat (h : Contiguous start ps) (hpos : ∀ p ∈ ps, p.data ≠ []) :
    Flat blank ps (ps.flatMap data) := by
  by_cases hnil : ps = []
  · subst hnil
    exact ⟨⟨by simp, by simp⟩, rfl⟩
  · obtain ⟨p, hp, hhigh⟩ := exists_highest hnil
    have hlength := h.length_eq hp (fun q hq => hhigh ▸ le_highest hq) hpos
    have hlow : lowest ps = start := by
      obtain ⟨q, hq, hlow⟩ := exists_lowest hnil
      obtain ⟨r, rest, rfl⟩ := List.exists_cons_of_ne_nil hnil
      have hfirst := lowest_le (List.mem_cons_self (a := r) (l := rest))
      have hstart := h.ascending.le hq
      rw [h.1] at hfirst
      omega
    exact ⟨hlow ▸ h.laidOut, by rw [← hhigh, hlow]; omega⟩

/-! ## Some of the pieces -/

section
variable (h : Flat blank ps file) (hsub : ∀ q ∈ qs, q ∈ ps) (hpos : ∀ p ∈ ps, p.data ≠ [])
include h hsub hpos

/-- Images of the same length have the same bounds. -/
theorem Flat.bounds_eq (hqs : Flat blank qs file) (hp : p ∈ ps) :
    lowest qs = lowest ps ∧ highest qs = highest ps := by
  have hlength := h.length_eq.symm.trans hqs.length_eq
  have hlow := lowest_le hp
  have hhigh := le_highest hp
  have hsize := address_lt_last (hpos p hp)
  by_cases hnil : qs = []
  · subst hnil
    rw [show lowest ([] : List (Piece α)) = 0 from rfl,
      show highest ([] : List (Piece α)) = 0 from rfl] at hlength
    omega
  · obtain ⟨a, ha, hlow'⟩ := exists_lowest hnil
    obtain ⟨b, hb, hhigh'⟩ := exists_highest hnil
    have hla := lowest_le (hsub a ha)
    have hhb := le_highest (hsub b hb)
    have hab := le_highest ha
    have hsa := address_lt_last (hpos a (hsub a ha))
    omega

theorem Flat.sub_of_blank (hp : ∃ p, p ∈ ps)
    (hothers : ∀ p ∈ ps, p ∉ qs →
      (∀ x ∈ p.data, x = blank) ∧ lowest qs ≤ p.address ∧ p.last ≤ highest qs) :
    Flat blank qs file := by
  have hne : ps ≠ [] := by
    obtain ⟨p, hp⟩ := hp
    exact List.ne_nil_of_mem hp
  obtain ⟨a, ha, hlow⟩ := exists_lowest hne
  obtain ⟨b, hb, hhigh⟩ := exists_highest hne
  have hqne : qs ≠ [] := by
    rintro rfl
    have hlast := (hothers a ha List.not_mem_nil).2.2
    have hsize := address_lt_last (hpos a ha)
    rw [show highest ([] : List (Piece α)) = 0 from rfl] at hlast
    omega
  obtain ⟨a', ha', hlow'⟩ := exists_lowest hqne
  obtain ⟨b', hb', hhigh'⟩ := exists_highest hqne
  have hleft := lowest_le (hsub a' ha')
  have hright := le_highest (hsub b' hb')
  have hlow_eq : lowest qs = lowest ps := by
    by_cases hin : a ∈ qs
    · have := lowest_le hin
      omega
    · have := (hothers a ha hin).2.1
      omega
  have hhigh_eq : highest qs = highest ps := by
    by_cases hin : b ∈ qs
    · have := le_highest hin
      omega
    · have := (hothers b hb hin).2.2
      omega
  refine ⟨⟨fun q hq k x hk => ?_, fun n x hx hout => ?_⟩, by rw [hlow_eq, hhigh_eq, h.length_eq]⟩
  · rw [hlow_eq]
    exact h.laidOut.holds q (hsub q hq) k x hk
  · rw [hlow_eq] at hout
    by_cases hcover : ∀ p ∈ ps, lowest ps + n ∉ p.span
    · exact h.laidOut.blanks n x hx hcover
    · -- a byte of one of the others
      push Not at hcover
      obtain ⟨p, hp, hin⟩ := hcover
      have hpq : p ∉ qs := fun hq => hout p hq hin
      obtain ⟨hlo, hhi⟩ := Span.mem_def.mp hin
      simp only [span] at hlo hhi
      have hle := lowest_le hp
      obtain ⟨k, hk⟩ : ∃ k, n = p.address - lowest ps + k := ⟨lowest ps + n - p.address, by omega⟩
      have hklt : k < p.data.length := by omega
      have hheld := h.laidOut.holds p hp k _ (List.getElem?_eq_getElem hklt)
      rw [← hk, hx] at hheld
      exact (hothers p hp hpq).1 x (Option.some.inj hheld ▸ List.getElem_mem hklt)

variable (hapart : ∀ p ∈ ps, ∀ q ∈ ps, p ≠ q → p.span.Disjoint q.span)
include hapart

theorem Flat.others_blank (hqs : Flat blank qs file) (hp : p ∈ ps) (hout : p ∉ qs) :
    ∀ x ∈ p.data, x = blank := by
  obtain ⟨hlow, -⟩ := h.bounds_eq hsub hpos hqs hp
  have hle := lowest_le hp
  intro x hx
  obtain ⟨k, hk⟩ := List.mem_iff_getElem?.mp hx
  have hklt := (List.getElem?_eq_some_iff.mp hk).1
  refine hqs.laidOut.blanks _ x (h.laidOut.holds p hp k x hk) fun q hq => ?_
  refine hapart p hp q (hsub q hq) (fun heq => hout (heq ▸ hq)) _ (Span.mem_def.mpr ?_)
  simp only [span]
  omega

/-- A flat image of all pieces is one of some of them exactly if the others are
blank and lie between them. -/
theorem Flat.sub_iff :
    Flat blank qs file ↔
      ∀ p ∈ ps, p ∉ qs →
        (∀ x ∈ p.data, x = blank) ∧ lowest qs ≤ p.address ∧ p.last ≤ highest qs := by
  constructor
  · intro hqs p hp hout
    obtain ⟨hlow, hhigh⟩ := h.bounds_eq hsub hpos hqs hp
    exact ⟨h.others_blank hsub hpos hapart hqs hp hout, hlow ▸ lowest_le hp, hhigh ▸ le_highest hp⟩
  · intro hothers
    by_cases hp : ∃ p, p ∈ ps
    · exact h.sub_of_blank hsub hpos hp hothers
    · have hsame : ∀ p, p ∈ ps ↔ p ∈ qs := fun p =>
        ⟨fun hin => absurd ⟨p, hin⟩ hp, fun hin => absurd ⟨p, hsub p hin⟩ hp⟩
      exact h.of_mem_iff hsame

end

end Foundation.Piece
