import Milo.Zip.HuftTables

/-! # Placing the codes

Each turn of the loop over the codes opens the tables that the code needs, fills its
slots and closes the tables that the counter leaves. No turn touches a slot of a
leaf in front of the counter.
-/

namespace Milo.Zip

open Foundation

/-! ## A further table in the tree -/

section
variable {T : TableTree} {t u level start bits : Nat}

@[simp] theorem TableTree.put_level_self : (T.put t level start bits).level t = level :=
  Function.update_self ..

@[simp] theorem TableTree.put_start_self : (T.put t level start bits).start t = start :=
  Function.update_self ..

@[simp] theorem TableTree.put_bits_self : (T.put t level start bits).bits t = bits :=
  Function.update_self ..

theorem TableTree.put_level (h : u ≠ t) : (T.put t level start bits).level u = T.level u :=
  Function.update_of_ne h ..

theorem TableTree.put_start (h : u ≠ t) : (T.put t level start bits).start u = T.start u :=
  Function.update_of_ne h ..

theorem TableTree.put_bits (h : u ≠ t) : (T.put t level start bits).bits u = T.bits u :=
  Function.update_of_ne h ..

variable {l g leaf : Nat}

theorem holds_put (h : u ≠ t) :
    Holds l g (T.put t level start bits) u leaf ↔ Holds l g T u leaf := by
  rw [Holds, Holds, TableTree.put_level h, TableTree.put_start h]

theorem slotOf_put (h : u ≠ t) :
    slotOf l g (T.put t level start bits) u leaf = slotOf l g T u leaf := by
  rw [slotOf, slotOf, TableTree.put_level h, TableTree.put_bits h]

end

section
variable {n s : Nat} {d e : List Nat} {v c : Nat → Nat} {l g : Nat} {T : TableTree}
  {tables : HuftTables} {pos : Nat}

theorem Answer.put {count t leaf level start bits : Nat} {entry : Huft}
    (h : Answer n s d e v c l g T count t leaf entry) (ht : t < count) :
    Answer n s d e v c l g (T.put count level start bits) (count + 1) t leaf entry := by
  have hne : t ≠ count := Nat.ne_of_lt ht
  cases h with
  | code hk hg hr hbelow hlevel hfit hentry =>
      rw [← TableTree.put_level hne] at hlevel hfit hentry
      rw [← TableTree.put_bits hne] at hfit
      exact .code hk hg hr hbelow hlevel hfit hentry
  | link hnext hcount hlevel hholds hpos hlookup hbits hwide =>
      have hne' := Nat.ne_of_lt hcount
      rw [← TableTree.put_bits hne'] at hpos hlookup ⊢
      refine .link hnext (Nat.lt_succ_of_lt hcount) ?_ ((holds_put hne').mpr hholds) hpos
        hlookup ?_ ?_
      · rw [TableTree.put_level hne', TableTree.put_level hne, hlevel]
      · rw [TableTree.put_level hne', TableTree.put_bits hne']
        exact hbits
      · rw [TableTree.put_bits hne, hwide]

/-- A table for the leaves from `pos` on answers nothing yet. -/
theorem Answers.push (h : Answers n s d e v c l g T pos tables) (table : HuftTable)
    (level bits : Nat) (hroot : tables = [] → level = 0 ∧ pos = 0 ∧ bits = l) :
    Answers n s d e v c l g (T.put tables.length level pos bits) pos (tables ++ [table]) where
  root := by
    intro _
    by_cases hempty : tables = []
    · obtain ⟨rfl, rfl, rfl⟩ := hroot hempty
      subst hempty
      simp
    · have hne : (0 : Nat) ≠ tables.length := (List.length_pos_iff.mpr hempty).ne
      rw [TableTree.put_level hne, TableTree.put_start hne, TableTree.put_bits hne]
      exact h.root hempty
  answer := by
    intro t found hfound leaf hleaf hholds
    rw [List.length_append, List.length_singleton]
    by_cases ht : t < tables.length
    · have hne : t ≠ tables.length := Nat.ne_of_lt ht
      rw [List.getElem?_append_left ht] at hfound
      rw [slotOf_put hne]
      obtain ⟨hsize, hanswer⟩ := h.answer t found hfound leaf hleaf ((holds_put hne).mp hholds)
      exact ⟨hsize, hanswer.put ht⟩
    · have hlt := (List.getElem?_eq_some_iff.mp hfound).1
      rw [List.length_append, List.length_singleton] at hlt
      obtain rfl : t = tables.length := by omega
      have hstart := hholds.1
      rw [TableTree.put_start_self] at hstart
      omega

/-- A table whose slots in front of the counter stay as they are. -/
theorem Answers.set (h : Answers n s d e v c l g T pos tables) {t : Nat} {table table' : HuftTable}
    (htable : tables[t]? = some table) (hsize : table'.size = table.size)
    (hsame : ∀ leaf < pos, Holds l g T t leaf →
      table'.entry (slotOf l g T t leaf) = table.entry (slotOf l g T t leaf)) :
    Answers n s d e v c l g T pos (tables.set t table') where
  root := by
    intro hne
    exact h.root fun hempty => hne (by rw [hempty, List.set_nil])
  answer := by
    intro u found hfound leaf hleaf hholds
    rw [List.length_set]
    by_cases hut : u = t
    · subst hut
      have hlt := (List.getElem?_eq_some_iff.mp htable).1
      rw [List.getElem?_set_self hlt] at hfound
      obtain rfl := Option.some.inj hfound
      obtain ⟨hslot, hanswer⟩ := h.answer u table htable leaf hleaf hholds
      rw [hsize, hsame leaf hleaf hholds]
      exact ⟨hslot, hanswer⟩
    · rw [List.getElem?_set_ne (Ne.symm hut)] at hfound
      exact h.answer u found hfound leaf hleaf hholds

end

/-! ## Opening tables -/

section
variable {n s : Nat} {d e : List Nat} {v c : Nat → Nat} {l g : Nat} {T : TableTree}
  {pos k r : Nat} {st : Builder}

/-- The stack grows, so no table is on it twice. -/
theorem Stacked.lt_of_lt (h : Stacked c l g T pos k st) {m m' : Nat} (hlt : m < m')
    (hm' : m' < st.depth) : st.u m < st.u m' := by
  induction m' with
  | zero => omega
  | succ m' ih =>
      have hlast := h.ordered m' hm'
      by_cases heq : m = m'
      · exact heq ▸ hlast
      · exact Nat.lt_trans (ih (by omega) (by omega)) hlast

theorem Stacked.depth_zero (h : Stacked c l g T pos k st) (hdepth : st.depth = 0)
    (hlt : pos < 2 ^ g) : pos = 0 ∧ st.tables = [] := by
  have hpos : pos = 0 := by
    have hdvd := h.aligned
    rw [hdepth, Nat.mul_zero, Nat.sub_zero] at hdvd
    exact Nat.eq_zero_of_dvd_of_lt hdvd hlt
  refine ⟨hpos, ?_⟩
  by_contra hne
  have hlen := List.length_pos_iff.mpr hne
  rcases h.passed 0 hlen with ⟨m, hm, -⟩ | hend
  · omega
  · have := Nat.two_pow_pos (g - l * T.level 0)
    omega

/-- A table in which the counter needs a longer code than fits is looked up with all
`l` bits. -/
theorem Stacked.bits_eq (h : Stacked c l g T pos k st) {m : Nat} (hm : m < st.depth)
    (hk : l * (m + 1) < k) (hg : k ≤ g) (hpos : pos = leafOf c g k r) :
    T.bits (st.u m) = l := by
  obtain ⟨-, hle, hg', hend | hall | hfull⟩ := h.fits m hm
  · have hmono := taken_mono (c := c) (g := g)
      (show l * m + T.bits (st.u m) + 1 ≤ k by rw [Nat.mul_succ] at hk; omega)
    have hstart := taken_le_leafOf (c := c) (g := g) k r
    have hholds := (h.holds m hm).2
    rw [h.level m hm] at hholds
    omega
  · rw [Nat.mul_succ] at hk
    omega
  · exact hfull

variable (hc : Fillable c l g)
include hc

theorem openTable_root (fresh : Nat → Nat → Huft)
    (hans : Answers n s d e v c l g T pos st.tables) (hst : Stacked c l g T pos k st)
    (hk : 1 ≤ k) (hg : k ≤ g) (hr : r < c k) (hpos : pos = leafOf c g k r)
    (hdepth : st.depth = 0) :
    ∃ T' st', openTable c l g fresh k (c k - r - 1) st = some st' ∧
      Answers n s d e v c l g T' pos st'.tables ∧ Stacked c l g T' pos k st' ∧
      st'.i = st.i ∧ st'.p = st.p ∧ st'.depth = st.depth + 1 ∧ k ≤ l * st'.depth := by
  have hlt : pos < 2 ^ g := by
    have := hc.leaf_lt hk hg hr
    have := Nat.two_pow_pos (g - k)
    omega
  obtain ⟨rfl, hempty⟩ := hst.depth_zero hdepth hlt
  have hkl : k ≤ l := by
    by_contra hlong
    have := hc.leafOf_pos (r := r) (Nat.lt_of_not_le hlong)
    omega
  have hwide := le_tableBits_root hc hk hkl hr hpos.symm
  have hle := hc.lookup_le
  have hpush := hans.push ⟨2 ^ tableBits c l g 0 k (c k - r - 1), fresh 0⟩ 0 l
    fun _ => ⟨rfl, rfl, rfl⟩
  unfold openTable
  rw [if_pos hdepth, hdepth, hempty, Nat.mul_zero]
  rw [hempty] at hpush
  refine ⟨_, _, rfl, hpush, ?_, rfl, rfl, rfl, by simpa using hkl⟩
  have hzero : ∀ m < 1, m = 0 := fun m hm => by omega
  exact {
    aligned := Nat.dvd_zero _
    known := fun m hm => by simp [hzero m hm]
    ordered := fun m hm => by simp at hm
    level := fun m hm => by simp [hzero m hm]
    below := fun m hm => by
      rw [hzero m hm, Nat.mul_zero]
      exact hk
    holds := fun m hm => by
      have := Nat.two_pow_pos g
      simpa [hzero m hm, Holds] using this
    start := fun m hm => by simp [hzero m hm]
    pattern := fun m hm => by simp [hzero m hm, hst.first, reverseBits_zero]
    first := hst.first
    passed := fun t ht => by
      refine .inl ⟨0, Nat.one_pos, ?_⟩
      simp at ht
      simp [ht]
    linked := fun m hm => by simp at hm
    fits := fun m hm => by
      rw [hzero m hm]
      have hl : 0 < l := hc.lookup_pos
      simp [Fits, hle, hl]
    slots := fun m hm table htable => by
      rw [hzero m hm] at htable ⊢
      simp only [Function.update_self, List.length_nil, List.nil_append,
        List.getElem?_cons_zero, Option.some.injEq] at htable
      subst htable
      simpa using Nat.pow_le_pow_right (Nat.succ_pos 1) hwide
    current := fun _ => ⟨by simp, fun table htable => by
      simp only [List.length_nil, List.nil_append, List.getElem?_cons_zero,
        Option.some.injEq] at htable
      subst htable
      rfl⟩ }

theorem openTable_deeper (fresh : Nat → Nat → Huft)
    (hans : Answers n s d e v c l g T pos st.tables) (hst : Stacked c l g T pos k st)
    (hk : 1 ≤ k) (hg : k ≤ g) (hr : r < c k) (hpos : pos = leafOf c g k r)
    (hi : st.i = reverseBits g pos) {h : Nat} (hdepth : st.depth = h + 1)
    (hopen : l * (h + 1) < k) :
    ∃ T' st', openTable c l g fresh k (c k - r - 1) st = some st' ∧
      Answers n s d e v c l g T' pos st'.tables ∧ Stacked c l g T' pos k st' ∧
      st'.i = st.i ∧ st'.p = st.p ∧ st'.depth = st.depth + 1 ∧ k ≤ l * st'.depth := by
  have hend := hc.leaf_lt hk hg hr
  have hlt : pos < 2 ^ g := by
    have := Nat.two_pow_pos (g - k)
    omega
  have hw : l * (h + 1) = l * h + l := Nat.mul_succ l h
  have htop : h < st.depth := by omega
  have hbits := hst.bits_eq htop hopen hg hpos
  have hknown := hst.known h htop
  have haligned := hst.aligned
  rw [hdepth] at haligned
  obtain ⟨upper, hupper⟩ : ∃ upper, st.tables[st.u h]? = some upper :=
    ⟨_, List.getElem?_eq_getElem hknown⟩
  have hsize := hst.slots h htop upper hupper
  rw [hbits] at hsize
  have hholds := hst.holds h htop
  rw [Holds, hst.level h htop] at hholds
  -- the new table lies in the first slot that no code has used
  have hslot : reverseBits g pos >>> (l * h) < 2 ^ l := by
    rw [Nat.shiftRight_eq_div_pow]
    apply Nat.div_lt_of_lt_mul
    rw [← Nat.pow_add, ← hw]
    exact reverseBits_mul_lt (by omega) haligned
  have hfits := tableBits_fits hc hg hr (show l ≤ l * (h + 1) by omega) hopen (by
    have hdvd : 2 ^ (g - l * (h + 1)) ∣ 2 ^ g := Nat.pow_dvd_pow 2 (Nat.sub_le _ _)
    have hin : pos ≤ pos ∧ pos < pos + 2 ^ (g - l * (h + 1)) :=
      ⟨Nat.le_refl _, Nat.lt_add_of_pos_right (Nat.two_pow_pos _)⟩
    have hnested := block_nested hdvd (Nat.dvd_zero _) haligned (by omega) hin
    rw [← hpos]
    omega)
  rw [← hpos] at hfits
  generalize hj : tableBits c l g (l * (h + 1)) k (c k - r - 1) = j at hfits
  let link : Huft := ⟨16 + j, l, .t st.tables.length⟩
  let upper' : HuftTable :=
    { upper with entry := Function.update upper.entry (reverseBits g pos >>> (l * h)) link }
  have hset : Answers n s d e v c l g T pos (st.tables.set (st.u h) upper') := by
    refine hans.set hupper rfl fun leaf hleaf hin => ?_
    have hin' := hin
    rw [Holds, hst.level h htop] at hin'
    refine Function.update_of_ne ?_ _ _
    rw [slotOf, hst.level h htop, hbits]
    intro heq
    have hmeet := (slot_eq_iff (w := l * h) (k := l * (h + 1)) (by omega) (by omega)
      (hst.start h htop) haligned hholds hin' hlt (by omega)).mp (by
        rw [show l * (h + 1) - l * h = l by omega]
        exact heq)
    omega
  have hpush := hset.push ⟨2 ^ j, fresh st.tables.length⟩ (h + 1) j fun hempty => by
    rw [List.set_eq_nil_iff] at hempty
    rw [hempty] at hknown
    exact absurd hknown (Nat.not_lt_zero _)
  rw [List.length_set] at hpush
  refine ⟨T.put st.tables.length (h + 1) pos j, { st with
      depth := h + 1 + 1, q := st.tables.length, z := 2 ^ j, r := link
      x := Function.update st.x (h + 1) st.i
      u := Function.update st.u (h + 1) st.tables.length
      tables := st.tables.set (st.u h) upper' ++ [⟨2 ^ j, fresh st.tables.length⟩] },
    ?_, hpush, ?_, rfl, rfl, by simp only [hdepth], ?_⟩
  · have hshift : l * (h + 1) - l = l * h := by omega
    unfold openTable
    simp only [hdepth, Nat.succ_ne_zero, if_false, Nat.add_sub_cancel, hupper, hj, hi, hshift]
    simp only [Option.bind_eq_bind, Option.bind_some, HuftTable.store,
      if_pos (Nat.lt_of_lt_of_le hslot hsize)]
    rfl
  · -- the tables that were on the stack, and the new one
    have hold : ∀ {m}, m < h + 1 → Function.update st.u (h + 1) st.tables.length m = st.u m :=
      fun hm => Function.update_of_ne (Nat.ne_of_lt hm) _ _
    have hne : ∀ {m}, m < h + 1 → st.u m ≠ st.tables.length := fun {m} hm =>
      Nat.ne_of_lt (hst.known m (by omega))
    have hnew : ∀ {m}, m < h + 1 + 1 → ¬ m < h + 1 → m = h + 1 := fun _ _ => by omega
    have hfound : ∀ t, t < st.tables.length →
        (st.tables.set (st.u h) upper' ++ [⟨2 ^ j, fresh st.tables.length⟩])[t]? =
          (st.tables.set (st.u h) upper')[t]? := fun t ht =>
      List.getElem?_append_left (by rwa [List.length_set])
    have hlast : (st.tables.set (st.u h) upper' ++
        [(⟨2 ^ j, fresh st.tables.length⟩ : HuftTable)])[st.tables.length]? =
          some ⟨2 ^ j, fresh st.tables.length⟩ := by
      rw [List.getElem?_append_right (by rw [List.length_set]), List.length_set, Nat.sub_self]
      rfl
    exact {
      aligned := Nat.dvd_trans (Nat.pow_dvd_pow 2 (by simp only [Nat.mul_succ]; omega)) haligned
      known := fun m hm => by
        simp only [List.length_append, List.length_set, List.length_singleton] at hm ⊢
        by_cases hmh : m < h + 1
        · rw [hold hmh]
          exact Nat.lt_succ_of_lt (hst.known m (by omega))
        · rw [hnew hm hmh, Function.update_self]
          exact Nat.lt_succ_self _
      ordered := fun m hm => by
        simp only at hm ⊢
        rw [hold (by omega)]
        by_cases hmh : m + 1 < h + 1
        · rw [hold hmh]
          exact hst.ordered m (by omega)
        · rw [show m + 1 = h + 1 by omega, Function.update_self]
          exact hst.known m (by omega)
      level := fun m hm => by
        simp only at hm ⊢
        by_cases hmh : m < h + 1
        · rw [hold hmh, TableTree.put_level (hne hmh)]
          exact hst.level m (by omega)
        · rw [hnew hm hmh, Function.update_self, TableTree.put_level_self]
      below := fun m hm => by
        simp only at hm
        by_cases hmh : m < h + 1
        · exact hst.below m (by omega)
        · rwa [hnew hm hmh]
      holds := fun m hm => by
        simp only at hm ⊢
        by_cases hmh : m < h + 1
        · rw [hold hmh, holds_put (hne hmh)]
          exact hst.holds m (by omega)
        · rw [hnew hm hmh, Function.update_self, Holds, TableTree.put_start_self,
            TableTree.put_level_self]
          exact ⟨Nat.le_refl _, Nat.lt_add_of_pos_right (Nat.two_pow_pos _)⟩
      start := fun m hm => by
        simp only at hm ⊢
        by_cases hmh : m < h + 1
        · rw [hold hmh, TableTree.put_start (hne hmh)]
          exact hst.start m (by omega)
        · rw [hnew hm hmh, Function.update_self, TableTree.put_start_self]
          exact haligned
      pattern := fun m hm => by
        simp only at hm ⊢
        by_cases hmh : m < h + 1
        · rw [hold hmh, TableTree.put_start (hne hmh), Function.update_of_ne (Nat.ne_of_lt hmh)]
          exact hst.pattern m (by omega)
        · rw [hnew hm hmh, Function.update_self, Function.update_self, TableTree.put_start_self, hi]
      first := by
        simp only
        rw [Function.update_of_ne (Nat.succ_ne_zero h).symm]
        exact hst.first
      passed := fun t ht => by
        simp only [List.length_append, List.length_set, List.length_singleton] at ht ⊢
        by_cases hlen : t < st.tables.length
        · have hne' := Nat.ne_of_lt hlen
          rw [TableTree.put_start hne', TableTree.put_level hne']
          rcases hst.passed t hlen with ⟨m, hm, rfl⟩ | hdone
          · exact .inl ⟨m, by omega, (hold (by omega)).symm⟩
          · exact .inr hdone
        · refine .inl ⟨h + 1, Nat.lt_succ_self _, ?_⟩
          rw [Function.update_self]
          omega
      linked := fun m hm => by
        simp only at hm ⊢
        rw [hold (by omega), TableTree.put_bits (hne (by omega)), hfound _ (hst.known m (by omega))]
        by_cases hmh : m + 1 < h + 1
        · have hother : st.u h ≠ st.u m := (Nat.ne_of_lt (hst.lt_of_lt (by omega) htop)).symm
          rw [hold hmh, TableTree.put_bits (hne hmh), List.getElem?_set_ne hother,
            Function.update_of_ne (Nat.ne_of_lt hmh)]
          exact hst.linked m (by omega)
        · obtain rfl : m = h := by omega
          simp only [Function.update_self, TableTree.put_bits_self]
          refine ⟨hbits, fun table htable => ?_⟩
          rw [List.getElem?_set_self hknown] at htable
          obtain rfl := Option.some.inj htable
          rw [hi]
          exact Function.update_self ..
      fits := fun m hm => by
        simp only at hm ⊢
        by_cases hmh : m < h + 1
        · rw [hold hmh, TableTree.put_start (hne hmh), TableTree.put_bits (hne hmh)]
          exact hst.fits m (by omega)
        · rw [hnew hm hmh, Function.update_self, TableTree.put_start_self,
            TableTree.put_bits_self]
          exact hfits.2
      slots := fun m hm table htable => by
        simp only at hm htable ⊢
        by_cases hmh : m < h + 1
        · rw [hold hmh, hfound _ (hst.known m (by omega))] at htable
          rw [hold hmh, TableTree.put_bits (hne hmh)]
          by_cases hum : st.u m = st.u h
          · rw [hum, List.getElem?_set_self hknown] at htable
            obtain rfl := Option.some.inj htable
            rw [hum, hbits]
            exact hsize
          · rw [List.getElem?_set_ne (Ne.symm hum)] at htable
            exact hst.slots m (by omega) table htable
        · rw [hnew hm hmh, Function.update_self, hlast] at htable
          obtain rfl := Option.some.inj htable
          rw [hnew hm hmh, Function.update_self, TableTree.put_bits_self]
      current := fun _ => ⟨by simp, fun table htable => by
        simp only [hlast] at htable
        obtain rfl := Option.some.inj htable
        rfl⟩ }
  · simp only [Nat.mul_succ] at hfits ⊢
    have := hfits.1
    have := hfits.2.2.1
    omega

theorem openTables_spec (fresh : Nat → Nat → Huft)
    (hans : Answers n s d e v c l g T pos st.tables) (hst : Stacked c l g T pos k st)
    (hk : 1 ≤ k) (hg : k ≤ g) (hr : r < c k) (hpos : pos = leafOf c g k r)
    (hi : st.i = reverseBits g pos) :
    ∃ T' st', openTables c l g fresh k (c k - r - 1) k st = some st' ∧
      Answers n s d e v c l g T' pos st'.tables ∧ Stacked c l g T' pos k st' ∧
      st'.i = st.i ∧ st'.p = st.p ∧ k ≤ l * st'.depth := by
  obtain ⟨left, rfl⟩ : ∃ left, k = left + 1 := ⟨k - 1, by omega⟩
  by_cases hopen : left + 1 > l * st.depth
  · have hone : ∃ T' st', openTable c l g fresh (left + 1) (c (left + 1) - r - 1) st = some st' ∧
        Answers n s d e v c l g T' pos st'.tables ∧ Stacked c l g T' pos (left + 1) st' ∧
        st'.i = st.i ∧ st'.p = st.p ∧ st'.depth = st.depth + 1 ∧
        left + 1 ≤ l * st'.depth := by
      cases hdepth : st.depth with
      | zero =>
          have hroot := openTable_root hc fresh hans hst hk hg hr hpos hdepth
          rwa [hdepth] at hroot
      | succ h =>
          rw [hdepth] at hopen
          have hnext := openTable_deeper hc fresh hans hst hk hg hr hpos hi hdepth hopen
          rwa [hdepth] at hnext
    obtain ⟨T', st', hrun, hans', hst', hi', hp', -, hfit⟩ := hone
    refine ⟨T', st', ?_, hans', hst', hi', hp', hfit⟩
    rw [openTables, if_pos hopen, hrun, Option.bind_some]
    cases left with
    | zero => rfl
    | succ left => rw [openTables, if_neg (by omega)]
  · exact ⟨T, st, by rw [openTables, if_neg hopen], hans, hst, rfl, rfl, by omega⟩

end

/-! ## Filling and closing tables -/

section
variable {n s : Nat} {d e : List Nat} {v c : Nat → Nat} {l g : Nat} {T : TableTree}
  {pos k r h : Nat} {st : Builder}

/-- A code that is not too long for the look-up fits in its table. -/
theorem Stacked.code_fits (hst : Stacked c l g T pos k st) (hdepth : st.depth = h + 1)
    (hg : k ≤ g) (hpos : pos = leafOf c g k r) (hfit : k ≤ l * (h + 1)) :
    k ≤ l * h + T.bits (st.u h) := by
  have htop : h < st.depth := by omega
  rw [Nat.mul_succ] at hfit
  obtain ⟨-, -, -, hend | hall | hfull⟩ := hst.fits h htop
  · by_contra hlong
    have hmono := taken_mono (c := c) (g := g)
      (show l * h + T.bits (st.u h) + 1 ≤ k by omega)
    have hstart := taken_le_leafOf (c := c) (g := g) k r
    have hholds := (hst.holds h htop).2
    rw [hst.level h htop] at hholds
    omega
  · omega
  · omega

/-- The leaves of the code lie below every table on the stack. -/
theorem Stacked.holds_code (hst : Stacked c l g T pos k st) (hg : k ≤ g)
    (hpos : 2 ^ (g - k) ∣ pos) {m leaf : Nat} (hm : m < st.depth)
    (hleaf : pos ≤ leaf ∧ leaf < pos + 2 ^ (g - k)) : Holds l g T (st.u m) leaf := by
  have hholds := hst.holds m hm
  have hbelow := hst.below m hm
  rw [Holds, hst.level m hm] at hholds ⊢
  have hdvd : 2 ^ (g - k) ∣ 2 ^ (g - l * m) := Nat.pow_dvd_pow 2 (by omega)
  have hnested := block_nested hdvd (hst.start m hm) hpos hholds
    ⟨Nat.le_refl _, Nat.lt_add_of_pos_right (Nat.two_pow_pos _)⟩
  omega

/-- The table with the slots of a code filled. -/
def HuftTable.fill (table : HuftTable) (entry : Huft) (bits first : Nat) : HuftTable :=
  { table with entry := fillEntries entry (2 ^ bits) table.size table.size first table.entry }

theorem Answers.place {table : HuftTable} {entry old : Huft} {p : Nat}
    (hans : Answers n s d e v c l g T pos st.tables) (hst : Stacked c l g T pos k st)
    (hk : 1 ≤ k) (hg : k ≤ g) (hr : r < c k) (hpos : pos = leafOf c g k r)
    (hend : pos + 2 ^ (g - k) ≤ 2 ^ g) (hdepth : st.depth = h + 1) (hfit : k ≤ l * (h + 1))
    (htable : st.tables[st.u h]? = some table)
    (hentry : codeEntry n s d e v old (placeOf c n k r) (k - l * h) = some (entry, p)) :
    Answers n s d e v c l g T (pos + 2 ^ (g - k))
      (st.tables.set (st.u h) (table.fill entry (k - l * h) (reverseBits g pos >>> (l * h)))) := by
  have htop : h < st.depth := by omega
  have hbelow := hst.below h htop
  have hcode := hst.code_fits hdepth hg hpos hfit
  have hdvd : 2 ^ (g - k) ∣ pos := hpos ▸ dvd_leafOf r hg
  have hword := Nat.two_pow_pos (g - k)
  have hholds := hst.holds h htop
  rw [Holds, hst.level h htop] at hholds
  have hslots := hst.slots h htop table htable
  have hfirst : reverseBits g pos >>> (l * h) < 2 ^ (k - l * h) := by
    rw [Nat.shiftRight_eq_div_pow]
    apply Nat.div_lt_of_lt_mul
    rw [← Nat.pow_add, Nat.add_sub_cancel' (Nat.le_of_lt hbelow)]
    exact reverseBits_mul_lt hg hdvd
  -- which slots are filled
  have hfilled : ∀ leaf < 2 ^ g, Holds l g T (st.u h) leaf →
      (table.fill entry (k - l * h) (reverseBits g pos >>> (l * h))).entry
          (slotOf l g T (st.u h) leaf) =
        if pos ≤ leaf ∧ leaf < pos + 2 ^ (g - k) then entry
        else table.entry (slotOf l g T (st.u h) leaf) := by
    intro leaf hleaf hin
    have hslot : slotOf l g T (st.u h) leaf < table.size :=
      Nat.lt_of_lt_of_le (Nat.mod_lt _ (Nat.two_pow_pos _)) hslots
    have hmod : slotOf l g T (st.u h) leaf % 2 ^ (k - l * h) =
        (reverseBits g leaf >>> (l * h)) % 2 ^ (k - l * h) := by
      rw [slotOf, hst.level h htop]
      exact Nat.mod_mod_of_dvd _ (Nat.pow_dvd_pow 2 (by omega))
    rw [Holds, hst.level h htop] at hin
    have hmeet := slot_eq_iff (Nat.le_of_lt hbelow) hg (hst.start h htop) hdvd hholds hin
      (by omega) hleaf
    rw [HuftTable.fill]
    simp only [fillEntries_mod entry hfirst, hmod, hmeet, hslot, true_and]
  have hsize : (table.fill entry (k - l * h) (reverseBits g pos >>> (l * h))).size = table.size :=
    rfl
  have hset := hans.set htable hsize fun leaf hleaf hin => by
    rw [hfilled leaf (by omega) hin, if_neg (by omega)]
  refine ⟨hset.root, fun t found hfound leaf hleaf hin => ?_⟩
  by_cases hold : leaf < pos
  · exact hset.answer t found hfound leaf hold hin
  have hcodeLeaf : pos ≤ leaf ∧ leaf < pos + 2 ^ (g - k) := ⟨by omega, hleaf⟩
  have hlt := (List.getElem?_eq_some_iff.mp hfound).1
  rw [List.length_set] at hlt
  rcases hst.passed t hlt with ⟨m, hm, rfl⟩ | hdone
  · by_cases hmh : m = h
    · -- the table of the code itself
      subst hmh
      rw [List.getElem?_set_self hlt] at hfound
      obtain rfl := Option.some.inj hfound
      rw [hfilled leaf (by omega) hin, if_pos hcodeLeaf]
      refine ⟨Nat.lt_of_lt_of_le (Nat.mod_lt _ (Nat.two_pow_pos _)) hslots, ?_⟩
      rw [← hst.level m hm] at hbelow hentry
      exact .code hk hg hr (by rwa [Below, ← hpos]) hbelow (by rwa [hst.level m hm]) hentry
    · -- a table that leads to the next one on the stack
      have hnext : m + 1 < st.depth := by omega
      have hother : st.u h ≠ st.u m := (Nat.ne_of_lt (hst.lt_of_lt (by omega) htop)).symm
      rw [List.getElem?_set_ne hother] at hfound
      obtain ⟨hbits, hlink⟩ := hst.linked m hnext
      have hslots' := hst.slots m hm found hfound
      have hinNext := hst.holds_code hg hdvd hnext hcodeLeaf
      have hin' := hin
      have hposNext := hst.holds (m + 1) hnext
      have hposHere := hst.holds m hm
      rw [Holds, hst.level _ hnext] at hinNext hposNext
      rw [Holds, hst.level _ hm] at hin' hposHere
      have hnested := block_nested (Nat.pow_dvd_pow 2 (by simp only [Nat.mul_succ]; omega))
        (hst.start m hm) (hst.start (m + 1) hnext) hposHere hposNext
      obtain ⟨hwidth, hlookup, hw, -⟩ := hst.fits (m + 1) hnext
      have hslot : slotOf l g T (st.u m) leaf = st.x (m + 1) >>> (l * m) := by
        have hmeet := (slot_eq_iff (g := g) (w := l * m) (k := l * (m + 1))
          (by simp only [Nat.mul_succ]; omega) (by omega) (hst.start m hm)
          (hst.start (m + 1) hnext)
          ⟨hnested.1, by have := Nat.two_pow_pos (g - l * (m + 1)); omega⟩ hin'
          (by omega) (by omega)).mpr hinNext
        rw [slotOf, hst.level m hm, hbits, hst.pattern _ hnext, ← hmeet]
        congr 2
        simp only [Nat.mul_succ]
        omega
      refine ⟨Nat.lt_of_lt_of_le (Nat.mod_lt _ (Nat.two_pow_pos _)) hslots', ?_⟩
      rw [hslot, hlink found hfound]
      refine .link (hst.ordered m hnext) ?_ ?_ ?_ hwidth hlookup ?_ hbits
      · rw [List.length_set]
        exact hst.known _ hnext
      · rw [hst.level _ hnext, hst.level _ hm]
      · rw [Holds, hst.level _ hnext]
        exact hinNext
      · rw [hst.level _ hnext]
        exact hw
  · have := hin.2
    omega

/-- The tables stay on the stack that still hold the counter. -/
theorem Stacked.close {table : HuftTable} {entry : Huft} {bits first p : Nat}
    (hst : Stacked c l g T pos k st) (hg : k ≤ g) (hdvd : 2 ^ (g - k) ∣ pos)
    (hend : pos + 2 ^ (g - k) < 2 ^ g) (hdepth : st.depth = h + 1) (hfit : k ≤ l * (h + 1))
    (htable : st.tables[st.u h]? = some table) :
    Stacked c l g T (pos + 2 ^ (g - k)) k
      { st with
        i := reverseBits g (pos + 2 ^ (g - k)), p := p, r := entry
        tables := st.tables.set (st.u h) (table.fill entry bits first)
        depth := backUp l (reverseBits g (pos + 2 ^ (g - k))) st.x st.depth } := by
  have hword := Nat.two_pow_pos (g - k)
  have htop : h < st.depth := by omega
  obtain ⟨hopen, hle, hstay, hleft⟩ := backUp_spec l (reverseBits g (pos + 2 ^ (g - k))) st.x
    st.depth hst.first (by omega)
  generalize backUp l (reverseBits g (pos + 2 ^ (g - k))) st.x st.depth = depth at *
  -- a table is left when the counter passes its last leaf
  have hhere : ∀ m < st.depth, T.start (st.u m) ≤ pos ∧ pos < T.start (st.u m) + 2 ^ (g - l * m) :=
    fun m hm => by
      have hholds := hst.holds m hm
      rwa [Holds, hst.level m hm] at hholds
  have hpattern : ∀ m < st.depth,
      reverseBits g (pos + 2 ^ (g - k)) % 2 ^ (l * m) = st.x m ↔
        T.start (st.u m) ≤ pos + 2 ^ (g - k) ∧
          pos + 2 ^ (g - k) < T.start (st.u m) + 2 ^ (g - l * m) := fun m hm => by
    have hin := hhere m hm
    have hw := (hst.fits m hm).2.2.1
    rw [hst.pattern m hm]
    exact reverse_mod_iff (by omega) (hst.start m hm) (by omega) hend
  have hkept : ∀ m < depth, T.start (st.u m) ≤ pos + 2 ^ (g - k) ∧
      pos + 2 ^ (g - k) < T.start (st.u m) + 2 ^ (g - l * m) := by
    intro m hm
    have hlast := (hpattern (depth - 1) (by omega)).mp hstay
    have hmul := Nat.mul_le_mul_left l (show m ≤ depth - 1 by omega)
    have hnested := block_nested (Nat.pow_dvd_pow 2 (Nat.sub_le_sub_left hmul g))
      (hst.start m (by omega)) (hst.start (depth - 1) (by omega)) (hhere m (by omega))
      (hhere (depth - 1) (by omega))
    omega
  have hclosed : ∀ m, depth ≤ m → m < st.depth →
      T.start (st.u m) + 2 ^ (g - l * m) = pos + 2 ^ (g - k) := by
    intro m hm hmd
    have hout := mt (hpattern m hmd).mpr (hleft m hm hmd)
    have hin := hhere m hmd
    have hbelow := hst.below m hmd
    have hnested := block_nested (Nat.pow_dvd_pow 2 (show g - k ≤ g - l * m by omega))
      (hst.start m hmd) hdvd hin ⟨Nat.le_refl _, Nat.lt_add_of_pos_right hword⟩
    omega
  have hset : ∀ {m found}, (st.tables.set (st.u h) (table.fill entry bits first))[st.u m]? =
      some found → ∃ before, st.tables[st.u m]? = some before ∧ found.size = before.size := by
    intro m found hfound
    by_cases hum : st.u m = st.u h
    · rw [hum, List.getElem?_set_self (hst.known h htop)] at hfound
      obtain rfl := Option.some.inj hfound
      exact ⟨table, by rw [hum, htable], rfl⟩
    · rw [List.getElem?_set_ne (Ne.symm hum)] at hfound
      exact ⟨found, hfound, rfl⟩
  exact {
    aligned := by
      by_cases hall : depth = st.depth
      · have hstep : 2 ^ (g - l * depth) ∣ 2 ^ (g - k) :=
          Nat.pow_dvd_pow 2 (by rw [hall, hdepth]; omega)
        exact Nat.dvd_add (Nat.dvd_trans hstep hdvd) hstep
      · rw [← hclosed depth (Nat.le_refl _) (by omega)]
        exact Nat.dvd_add (hst.start depth (by omega)) (Nat.dvd_refl _)
    known := fun m hm => by
      rw [List.length_set]
      exact hst.known m (Nat.lt_of_lt_of_le hm hle)
    ordered := fun m hm => hst.ordered m (Nat.lt_of_lt_of_le hm hle)
    level := fun m hm => hst.level m (Nat.lt_of_lt_of_le hm hle)
    below := fun m hm => hst.below m (Nat.lt_of_lt_of_le hm hle)
    holds := fun m hm => by
      rw [Holds, hst.level m (Nat.lt_of_lt_of_le hm hle)]
      exact hkept m hm
    start := fun m hm => hst.start m (Nat.lt_of_lt_of_le hm hle)
    pattern := fun m hm => hst.pattern m (Nat.lt_of_lt_of_le hm hle)
    first := hst.first
    passed := fun t ht => by
      simp only [List.length_set] at ht
      rcases hst.passed t ht with ⟨m, hm, rfl⟩ | hdone
      · by_cases hmd : m < depth
        · exact .inl ⟨m, hmd, rfl⟩
        · rw [hst.level m hm]
          exact .inr (Nat.le_of_eq (hclosed m (by omega) hm))
      · exact .inr (by omega)
    linked := fun m hm => by
      have hnext : m + 1 < st.depth := Nat.lt_of_lt_of_le hm hle
      have hother : st.u h ≠ st.u m := (Nat.ne_of_lt (hst.lt_of_lt (by omega) htop)).symm
      simp only [List.getElem?_set_ne hother]
      exact hst.linked m hnext
    fits := fun m hm => hst.fits m (Nat.lt_of_lt_of_le hm hle)
    slots := fun m hm found hfound => by
      obtain ⟨before, hbefore, hsize⟩ := hset hfound
      rw [hsize]
      exact hst.slots m (Nat.lt_of_lt_of_le hm hle) before hbefore
    current := fun hk => by
      have hbelow := hst.below h htop
      have hall : depth = h + 1 := by
        by_contra hne
        have := Nat.mul_le_mul_left l (show depth ≤ h by omega)
        simp only at hk
        omega
      have hcurrent := hst.current (by rw [hdepth]; exact hfit)
      rw [hdepth] at hcurrent
      simp only [hall]
      refine ⟨hcurrent.1, fun found hfound => ?_⟩
      rw [hcurrent.1] at hfound
      obtain ⟨before, hbefore, hsize⟩ := hset hfound
      rw [hsize]
      exact hcurrent.2 before (by rwa [hcurrent.1]) }

/-- Longer codes find the same stack. -/
theorem Stacked.mono {k' : Nat} (hst : Stacked c l g T pos k st) (h : k ≤ k') :
    Stacked c l g T pos k' st :=
  { hst with
    below := fun m hm => Nat.lt_of_lt_of_le (hst.below m hm) h
    current := fun hk => hst.current (Nat.le_trans h hk) }

end

/-! ## All codes -/

section
variable (n s : Nat) (d e : List Nat) (v c : Nat → Nat) (l g : Nat)

/-- The codes in front of code `r` of length `k` have been placed. -/
def Placed (k r : Nat) (st : Builder) : Prop :=
  ∃ T, Answers n s d e v c l g T (leafOf c g k r) st.tables ∧
    (leafOf c g k r < 2 ^ g → Stacked c l g T (leafOf c g k r) k st) ∧
    (0 < leafOf c g k r → st.tables ≠ []) ∧
    st.i = reverseBits g (leafOf c g k r) ∧ st.p = placeOf c n k r

/-- No code needs a value that has not been stored. -/
def Valued : Prop :=
  ∀ k r old bits, 1 ≤ k → k ≤ g → r < c k →
    ∃ entry, codeEntry n s d e v old (placeOf c n k r) bits = some (entry, placeOf c n k (r + 1))

variable {n s d e v c l g} {k r : Nat} {st : Builder}

theorem placeCode_spec (hc : Fillable c l g) (hv : Valued n s d e v c g)
    (fresh : Nat → Nat → Huft) (hk : 1 ≤ k) (hg : k ≤ g) (hr : r < c k)
    (h : Placed n s d e v c l g k r st) :
    ∃ st', placeCode n s d e v c l g fresh k (c k - r - 1) st = some st' ∧
      Placed n s d e v c l g k (r + 1) st' := by
  obtain ⟨T, hans, hst, -, hi, hp⟩ := h
  have hend := hc.leaf_lt hk hg hr
  have hdvd := dvd_leafOf (c := c) (g := g) r hg
  have hword := Nat.two_pow_pos (g - k)
  obtain ⟨T', mid, hopened, hans', hst', hi', hp', hfit⟩ :=
    openTables_spec hc fresh hans (hst (by omega)) hk hg hr rfl hi
  obtain ⟨h, hdepth⟩ : ∃ h, mid.depth = h + 1 := by
    refine ⟨mid.depth - 1, ?_⟩
    by_contra hzero
    rw [show mid.depth = 0 by omega, Nat.mul_zero] at hfit
    omega
  rw [hdepth] at hfit
  obtain ⟨entry, hentry⟩ := hv k r mid.r (k - l * h) hk hg hr
  have htop : h < mid.depth := by omega
  obtain ⟨table, htable⟩ : ∃ table, mid.tables[mid.u h]? = some table :=
    ⟨_, List.getElem?_eq_getElem (hst'.known h htop)⟩
  have hcurrent := hst'.current (by rw [hdepth]; exact hfit)
  rw [hdepth, Nat.add_sub_cancel] at hcurrent
  have hq := hcurrent.1
  have hz := hcurrent.2 table (by rw [hq]; exact htable)
  have hi'' := hi'.trans hi
  have hrun : placeCode n s d e v c l g fresh k (c k - r - 1) st = some { mid with
      i := reverseBits g (leafOf c g k r + 2 ^ (g - k)), p := placeOf c n k (r + 1), r := entry
      tables := mid.tables.set (mid.u h)
        (table.fill entry (k - l * h) (reverseBits g (leafOf c g k r) >>> (l * h)))
      depth := backUp l (reverseBits g (leafOf c g k r + 2 ^ (g - k))) mid.x mid.depth } := by
    unfold placeCode
    simp only [hopened, Option.bind_eq_bind, Option.bind_some, hdepth, Nat.add_sub_cancel, hp',
      hp, hentry, hq, htable, hz, hi'', backInc_leaf hg hdvd]
    rfl
  refine ⟨_, hrun, T', ?_, ?_, ?_, ?_, rfl⟩
  · rw [leafOf_succ]
    exact hans'.place hst' hk hg hr rfl hend hdepth hfit htable hentry
  · rw [leafOf_succ]
    intro hlt
    exact hst'.close hg hdvd hlt hdepth hfit htable
  · intro _ hempty
    rw [List.set_eq_nil_iff] at hempty
    rw [hempty] at htable
    cases htable
  · rw [leafOf_succ]

theorem placeCodes_spec (hc : Fillable c l g) (hv : Valued n s d e v c g)
    (fresh : Nat → Nat → Huft) (hk : 1 ≤ k) (hg : k ≤ g) {a : Nat} (ha : a ≤ c k)
    (h : Placed n s d e v c l g k (c k - a) st) :
    ∃ st', placeCodes n s d e v c l g fresh k a st = some st' ∧
      Placed n s d e v c l g k (c k) st' := by
  induction a generalizing st with
  | zero => exact ⟨st, rfl, h⟩
  | succ a ih =>
      obtain ⟨mid, hfirst, hmid⟩ := placeCode_spec hc hv fresh hk hg (by omega) h
      rw [show c k - (c k - (a + 1)) - 1 = a by omega] at hfirst
      rw [show c k - (a + 1) + 1 = c k - a by omega] at hmid
      obtain ⟨st', hrest, hend⟩ := ih (by omega) hmid
      exact ⟨st', by rw [placeCodes, hfirst, Option.bind_some, hrest], hend⟩

/-- Behind the last code of a length comes the first one of the next length. -/
theorem Placed.next (h : Placed n s d e v c l g k (c k) st) (hk : 1 ≤ k) :
    Placed n s d e v c l g (k + 1) 0 st := by
  obtain ⟨T, hans, hst, hmade, hi, hp⟩ := h
  rw [leafOf_count hk] at hans hst hmade hi
  refine ⟨T, hans, fun hlt => (hst hlt).mono (Nat.le_succ k), hmade, hi, ?_⟩
  rw [hp, placeOf, placeOf, offset, if_neg (by omega), Nat.add_zero]

theorem placeLengths_spec (hc : Fillable c l g) (hv : Valued n s d e v c g)
    (fresh : Nat → Nat → Huft) {left : Nat} (hk : 1 ≤ k) (hleft : k + left = g + 1)
    (h : Placed n s d e v c l g k 0 st) :
    ∃ st', placeLengths n s d e v c l g fresh left k st = some st' ∧
      Placed n s d e v c l g (g + 1) 0 st' := by
  induction left generalizing k st with
  | zero =>
      obtain rfl : k = g + 1 := hleft
      exact ⟨st, rfl, h⟩
  | succ left ih =>
      obtain ⟨mid, hfirst, hmid⟩ := placeCodes_spec hc hv fresh hk (by omega) (Nat.le_refl (c k))
        (by rw [Nat.sub_self]; exact h)
      obtain ⟨st', hrest, hend⟩ := ih (Nat.le_succ_of_le hk) (by omega) (hmid.next hk)
      exact ⟨st', by rw [placeLengths, hfirst, Option.bind_some, hrest], hend⟩

end

end Milo.Zip
