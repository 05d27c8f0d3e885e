import Mathlib.Algebra.Order.BigOperators.Group.Multiset
import Mathlib.Algebra.BigOperators.Group.Finset.Basic
import Milo.Zip.HuftSteps

/-! # What the tables decode

A stream walks through the tables, each of which is looked up with the next bits of
the stream. The tables that `huft_build` makes lead every stream that goes on with a
word of the code to the entry of its symbol, and no further than the word.
-/

namespace Milo.Zip

open Foundation

/-- The way through the tables, from table `t` that is looked up with `bits` bits at
`p`, to an entry of a table that is looked up at `q`, with `m` bits at most after the
first time. -/
inductive Walk (tables : HuftTables) (m : Nat) (stream : Nat → Bool) :
    Nat → Nat → Nat → Huft → Nat → Prop where
  | found {t bits p : Nat} {table : HuftTable} (htable : tables[t]? = some table)
      (hslot : lowFirst stream p bits < table.size)
      (hend : (table.entry (lowFirst stream p bits)).e ≤ 16 ∨
        (table.entry (lowFirst stream p bits)).e = 99)
      (hwidth : (table.entry (lowFirst stream p bits)).b ≤ bits) :
      Walk tables m stream t bits p (table.entry (lowFirst stream p bits)) p
  | next {t bits p : Nat} {table : HuftTable} {t' bits' b q : Nat} {entry : Huft}
      (htable : tables[t]? = some table) (hslot : lowFirst stream p bits < table.size)
      (hbits : 0 < bits' ∧ bits' ≤ m)
      (hlink : table.entry (lowFirst stream p bits) = ⟨16 + bits', b, .t t'⟩) (hlater : t < t')
      (hwidth : 0 < b ∧ b ≤ bits)
      (hrest : Walk tables m stream t' bits' (p + b) entry q) :
      Walk tables m stream t bits p entry q

theorem Walk.le {tables : HuftTables} {m t bits p q : Nat} {stream : Nat → Bool} {entry : Huft}
    (h : Walk tables m stream t bits p entry q) : p ≤ q := by
  induction h with
  | found => exact Nat.le_refl _
  | next _ _ _ _ _ _ _ ih => omega

section
variable {n s : Nat} {d e : List Nat} {v c : Nat → Nat} {l g : Nat} {T : TableTree}
  {tables : HuftTables}

theorem codeEntry_e {old entry : Huft} {p bits p' : Nat} (he : ∀ x ∈ e, x ≤ 16 ∨ x = 99)
    (h : codeEntry n s d e v old p bits = some (entry, p')) : entry.e ≤ 16 ∨ entry.e = 99 := by
  unfold codeEntry at h
  split at h
  · cases h
    exact .inr rfl
  · split at h
    · cases h
      left
      dsimp only
      split <;> omega
    · obtain ⟨extra, hextra, hrest⟩ := Option.bind_eq_some_iff.mp h
      obtain ⟨base, -, hentry⟩ := Option.bind_eq_some_iff.mp hrest
      cases hentry
      rcases he extra (List.mem_of_getElem? hextra) with hle | rfl
      · left
        dsimp only
        omega
      · exact .inr rfl

theorem codeEntry_b {old entry : Huft} {p bits p' : Nat}
    (h : codeEntry n s d e v old p bits = some (entry, p')) : entry.b = bits := by
  unfold codeEntry at h
  split at h
  · cases h
    rfl
  · split at h
    · cases h
      rfl
    · obtain ⟨extra, -, hrest⟩ := Option.bind_eq_some_iff.mp h
      obtain ⟨base, -, hentry⟩ := Option.bind_eq_some_iff.mp hrest
      cases hentry
      rfl

/-- Where the leaf of a stream lies in a table is what the table is looked up with. -/
theorem slotOf_highFirst (stream : Nat → Bool) (p t : Nat)
    (hbits : l * T.level t + T.bits t ≤ g) :
    slotOf l g T t (highFirst stream p g) =
      lowFirst stream (p + l * T.level t) (T.bits t) := by
  have hrest : lowFirst stream p g >>> (l * T.level t) =
      lowFirst stream (p + l * T.level t) (g - l * T.level t) := by
    rw [← lowFirst_shiftRight, Nat.add_sub_cancel' (by omega)]
  rw [slotOf, highFirst_eq_reverse, reverseBits_reverseBits,
    Nat.mod_eq_of_lt (lowFirst_lt stream p g), hrest]
  exact lowFirst_mod _ _ (by omega)

/-- A leaf that is answered is reached through the tables, the later ones of which lie
behind the earlier ones. -/
theorem exists_walk (hans : Answers n s d e v c l g T (2 ^ g) tables)
    (he : ∀ x ∈ e, x ≤ 16 ∨ x = 99) (hl : 1 ≤ l) (stream : Nat → Bool) (p : Nat) {t left : Nat}
    (hleft : tables.length = t + left) (ht : t < tables.length)
    (hbits : l * T.level t + T.bits t ≤ g) (hholds : Holds l g T t (highFirst stream p g)) :
    ∃ k r old entry p' q, 1 ≤ k ∧ k ≤ g ∧ r < c k ∧ Below c g k r (highFirst stream p g) ∧
      q < p + k ∧ (l = g → q = p + l * T.level t) ∧
      codeEntry n s d e v old (placeOf c n k r) (p + k - q) = some (entry, p') ∧
      Walk tables l stream t (T.bits t) (p + l * T.level t) entry q := by
  induction left using Nat.strongRecOn generalizing t with
  | _ left ih =>
  obtain ⟨table, htable⟩ : ∃ table, tables[t]? = some table := ⟨_, List.getElem?_eq_getElem ht⟩
  obtain ⟨hslot, hanswer⟩ := hans.answer t table htable _ (highFirst_lt stream p g) hholds
  rw [slotOf_highFirst stream p t hbits] at hslot hanswer
  generalize hentry : table.entry (lowFirst stream (p + l * T.level t) (T.bits t)) = entry
    at hanswer
  cases hanswer with
  | @code k r p' old _ hk hkg hr hbelow hlevel hfit hcode =>
      refine ⟨k, r, old, entry, p', p + l * T.level t, hk, hkg, hr, hbelow, by omega, fun _ => rfl,
        ?_, ?_⟩
      · rw [show p + k - (p + l * T.level t) = k - l * T.level t by omega]
        exact hcode
      · have hend := codeEntry_e he hcode
        have hb := codeEntry_b hcode
        rw [← hentry] at hend hb ⊢
        exact .found htable hslot hend (by omega)
  | @link next hnext hcount hlevel hin hpos hlookup hwidth hwide =>
      obtain ⟨k, r, old, entry, p', q, hk, hkg, hr, hbelow, hq, -, hcode, hwalk⟩ :=
        ih (tables.length - next) (by omega) (by omega) hcount hwidth hin
      rw [hlevel, Nat.mul_succ] at hwidth hwalk
      refine ⟨k, r, old, entry, p', q, hk, hkg, hr, hbelow, hq, fun _ => by omega, hcode, ?_⟩
      rw [← Nat.add_assoc] at hwalk
      exact .next htable hslot ⟨hpos, hlookup⟩ hentry hnext ⟨hl, Nat.le_of_eq hwide.symm⟩ hwalk

end

/-! ## The value table -/

section
variable {p : List Nat} {x v : Nat → Nat}

/-- The ranges of values of different lengths do not meet. -/
def Apart (x count : Nat → Nat) : Prop :=
  ∀ k k', k ≠ 0 → k < k' → x k + count k ≤ x k'

theorem Apart.tail {j : Nat} (h : Apart x (List.count · (j :: p))) :
    Apart (if j ≠ 0 then Function.update x j (x j + 1) else x) (List.count · p) := by
  intro k k' hk hlt
  have hkk := h k k' hk hlt
  dsimp only at hkk
  by_cases hj : j ≠ 0
  · rw [if_pos hj]
    by_cases hjk : k = j
    · subst hjk
      rw [List.count_cons_self] at hkk
      rw [Function.update_self, Function.update_of_ne (Nat.ne_of_gt hlt)]
      change x k + 1 + p.count k ≤ x k'
      omega
    · rw [List.count_cons_of_ne (Ne.symm hjk)] at hkk
      rw [Function.update_of_ne hjk]
      by_cases hjk' : k' = j
      · subst hjk'
        rw [Function.update_self]
        exact Nat.le_succ_of_le hkk
      · rw [Function.update_of_ne hjk']
        exact hkk
  · have hne : j ≠ k := fun heq => hk (heq ▸ not_not.mp hj)
    rw [List.count_cons_of_ne hne] at hkk
    rw [if_neg hj]
    exact hkk

/-- Values are stored in the ranges only. -/
theorem sortValues_other {i place : Nat}
    (h : ∀ k, k ≠ 0 → place < x k ∨ x k + p.count k ≤ place) :
    sortValues p i x v place = v place := by
  induction p generalizing i x v with
  | nil => rfl
  | cons j p ih =>
      rw [sortValues]
      by_cases hj : j ≠ 0
      · have hjp := h j hj
        rw [List.count_cons_self] at hjp
        rw [if_pos hj, ih, Function.update_of_ne (by omega)]
        intro k hk
        by_cases hjk : k = j
        · subst hjk
          rw [Function.update_self]
          omega
        · have hkp := h k hk
          rw [List.count_cons_of_ne (Ne.symm hjk)] at hkp
          rwa [Function.update_of_ne hjk]
      · rw [if_neg hj]
        refine ih fun k hk => ?_
        have hkp := h k hk
        have hne : j ≠ k := fun heq => hk (heq ▸ not_not.mp hj)
        rwa [List.count_cons_of_ne hne] at hkp

/-- A value is stored at its place among those of its length. -/
theorem sortValues_spec {i sym : Nat} (hx : Apart x (List.count · p)) (hsym : p.getD sym 0 ≠ 0) :
    sortValues p i x v (x (p.getD sym 0) + (p.take sym).count (p.getD sym 0)) = i + sym := by
  induction p generalizing i sym x v with
  | nil => exact absurd rfl hsym
  | cons j p ih =>
      have htail := hx.tail
      rw [sortValues]
      cases sym with
      | zero =>
          have hj : j ≠ 0 := hsym
          simp only [List.getD_cons_zero, List.take_zero, List.count_nil, Nat.add_zero, if_pos hj]
          rw [sortValues_other, Function.update_self]
          intro k hk
          by_cases hjk : k = j
          · subst hjk
            rw [Function.update_self]
            exact .inl (Nat.lt_succ_self _)
          · rw [Function.update_of_ne hjk]
            rcases Nat.lt_or_gt_of_ne hjk with hlt | hgt
            · have hkj := hx k j hk hlt
              dsimp only at hkj
              rw [List.count_cons_of_ne (Ne.symm hjk)] at hkj
              exact .inr hkj
            · have hjk' := hx j k hj hgt
              dsimp only at hjk'
              rw [List.count_cons_self] at hjk'
              exact .inl (by omega)
      | succ sym =>
          rw [List.getD_cons_succ] at hsym ⊢
          rw [List.take_succ_cons]
          by_cases hj : j ≠ 0
          · rw [if_pos hj] at htail ⊢
            have hrest := ih (i := i + 1) (v := Function.update v (x j) i) htail hsym
            by_cases hjk : p.getD sym 0 = j
            · rw [hjk] at hrest ⊢
              rw [Function.update_self] at hrest
              rw [List.count_cons_self, show x j + (List.count j (List.take sym p) + 1) =
                x j + 1 + List.count j (List.take sym p) by omega, hrest]
              omega
            · rw [Function.update_of_ne hjk] at hrest
              rw [List.count_cons_of_ne (Ne.symm hjk), hrest]
              omega
          · have hne : j ≠ p.getD sym 0 := fun heq => hsym (heq ▸ not_not.mp hj)
            rw [if_neg hj] at htail ⊢
            rw [List.count_cons_of_ne hne, ih htail hsym]
            omega

end

theorem offset_succ {c : Nat → Nat} {k : Nat} (h : k ≠ 0) :
    offset c (k + 1) = offset c k + c k := by
  rw [offset, if_neg h]

theorem offset_mono (c : Nat → Nat) {k k' : Nat} (h : k ≤ k') : offset c k ≤ offset c k' := by
  induction k' with
  | zero => rw [Nat.le_zero.mp h]
  | succ k' ih =>
      by_cases heq : k = k' + 1
      · rw [heq]
      · have hle := ih (by omega)
        rw [offset]
        split
        · rename_i hzero
          subst hzero
          rw [Nat.le_zero.mp (show k ≤ 0 by omega)]
          exact Nat.le_refl _
        · omega

theorem offset_apart (c : Nat → Nat) : Apart (offset c) c := by
  intro k k' hk hlt
  rw [← offset_succ hk]
  exact offset_mono c hlt

theorem offset_eq_sum (c : Nat → Nat) (k : Nat) : offset c k = ∑ j ∈ Finset.Ico 1 k, c j := by
  induction k with
  | zero => rfl
  | succ k ih =>
      by_cases hk : k = 0
      · simp [offset, hk]
      · rw [offset_succ hk, ih, Finset.sum_Ico_succ_top (Nat.pos_of_ne_zero hk)]

/-- Every length is used or zero. -/
theorem sum_count_add_zero {lens : List Nat} {g : Nat} (h : ∀ len ∈ lens, len ≤ g) :
    ∑ j ∈ Finset.Ico 1 (g + 1), lens.count j + lens.count 0 = lens.length := by
  have hall := Multiset.sum_count_eq_card (s := Finset.range (g + 1)) (m := (lens : Multiset Nat))
    (by
      intro len hlen
      rw [Finset.mem_range]
      exact Nat.lt_succ_of_le (h len (Multiset.mem_coe.mp hlen)))
  rw [Finset.range_eq_Ico, Finset.sum_eq_sum_Ico_succ_bot (Nat.succ_pos g)] at hall
  simp only [Multiset.coe_count, Multiset.coe_card] at hall
  rw [Nat.add_comm]
  exact hall

/-! ## What `huft_build` returns -/

/-- The entry of a symbol that has `bits` bits in its table. -/
def symbolEntry (s : Nat) (d e : List Nat) (sym bits : Nat) : Huft :=
  if sym < s then ⟨if sym < 256 then 16 else 15, bits, .n sym⟩
  else ⟨e.getD (sym - s) 0 % 256, bits, .n (d.getD (sym - s) 0)⟩

theorem codeEntry_symbol {n s sym p : Nat} {d e : List Nat} {v : Nat → Nat} (hp : p < n)
    (hv : v p = sym) (hd : sym < s + d.length) (he : sym < s + e.length) (old : Huft)
    (bits : Nat) :
    codeEntry n s d e v old p bits = some (symbolEntry s d e sym bits, p + 1) := by
  subst hv
  unfold codeEntry symbolEntry
  rw [if_neg (by omega)]
  by_cases hs : v p < s
  · rw [if_pos hs, if_pos hs]
  · have hextra : e[v p - s]? = some (e.getD (v p - s) 0) := by
      rw [List.getD_eq_getElem _ _ (by omega)]
      exact List.getElem?_eq_getElem _
    have hbase : d[v p - s]? = some (d.getD (v p - s) 0) := by
      rw [List.getD_eq_getElem _ _ (by omega)]
      exact List.getElem?_eq_getElem _
    rw [if_neg hs, if_neg hs, hextra, hbase]
    rfl

/-- The lengths are below the limit, and not all of them are zero. -/
structure Usable (b : List Nat) : Prop where
  bound : ∀ len ∈ b, len ≤ bmax
  used : ∃ len ∈ b, len ≠ 0

section
variable {b : List Nat}

theorem Usable.count_ne_zero (h : Usable b) : ∃ k, 1 ≤ k ∧ k ≤ bmax ∧ b.count k ≠ 0 := by
  obtain ⟨len, hmem, hlen⟩ := h.used
  exact ⟨len, Nat.pos_of_ne_zero hlen, h.bound len hmem,
    Nat.ne_of_gt (List.count_pos_iff.mpr hmem)⟩

theorem Usable.count_zero_ne (h : Usable b) : b.count 0 ≠ b.length := by
  obtain ⟨len, hmem, hlen⟩ := h.used
  exact fun hall => hlen (List.count_eq_length.mp hall len hmem).symm

theorem Usable.maxLength_spec (h : Usable b) :
    1 ≤ maxLength b.count ∧ maxLength b.count ≤ bmax ∧ b.count (maxLength b.count) ≠ 0 ∧
      ∀ len ∈ b, len ≤ maxLength b.count := by
  obtain ⟨hpos, hle, hused, hlong⟩ := lastUsed_spec h.count_ne_zero
  refine ⟨hpos, hle, hused, fun len hmem => ?_⟩
  by_contra hlt
  have hzero := hlong len (Nat.lt_of_not_le hlt) (h.bound len hmem)
  exact List.count_eq_zero.mp hzero hmem

theorem Usable.minLength_spec (h : Usable b) :
    1 ≤ minLength b.count ∧ minLength b.count ≤ maxLength b.count ∧
      b.count (minLength b.count) ≠ 0 ∧ ∀ k, 1 ≤ k → k < minLength b.count → b.count k = 0 := by
  have hexists : ∃ k, 1 ≤ k ∧ k < 1 + bmax ∧ b.count k ≠ 0 := by
    obtain ⟨k, hlo, hhi, hk⟩ := h.count_ne_zero
    exact ⟨k, hlo, by omega, hk⟩
  obtain ⟨hpos, hle, hused, hshort⟩ := firstUsed_spec hexists
  refine ⟨hpos, ?_, hused, hshort⟩
  by_contra hlt
  have hzero := hshort (maxLength b.count) h.maxLength_spec.1 (Nat.lt_of_not_le hlt)
  exact h.maxLength_spec.2.2.1 hzero

theorem Usable.lookupBits_spec (h : Usable b) (m : Nat) :
    minLength b.count ≤ lookupBits b.count m ∧
      lookupBits b.count m ≤ maxLength b.count := by
  have := h.minLength_spec.2.1
  unfold lookupBits
  dsimp only
  split <;> split <;> omega

/-- The dummy codes fill the tree, if there is room. -/
theorem Usable.dummies_eq (h : Usable b) :
    dummies b.count =
      if leaves b (maxLength b.count) ≤ 2 ^ maxLength b.count then
        some (2 ^ maxLength b.count - leaves b (maxLength b.count))
      else none := by
  obtain ⟨hpos, hle, -, hshort⟩ := h.minLength_spec
  refine dummyCodes_spec hpos (by omega) ?_
  have hnone : taken b.count (maxLength b.count) (minLength b.count) = 0 := by
    apply Finset.sum_eq_zero
    intro j hj
    rw [Finset.mem_Ico] at hj
    change b.count j * _ = 0
    rw [hshort j hj.1 hj.2, Nat.zero_mul]
  rw [hnone, Nat.zero_add, ← Nat.pow_add]
  congr 1
  omega

theorem Usable.leaves_iff (h : Usable b) :
    (leaves b bmax ≤ 2 ^ bmax ↔ leaves b (maxLength b.count) ≤ 2 ^ maxLength b.count) ∧
      (leaves b bmax = 2 ^ bmax ↔ leaves b (maxLength b.count) = 2 ^ maxLength b.count) := by
  obtain ⟨-, hle, -, hbound⟩ := h.maxLength_spec
  have hpow : 2 ^ bmax = 2 ^ maxLength b.count * 2 ^ (bmax - maxLength b.count) := by
    rw [← Nat.pow_add]
    congr 1
    omega
  rw [leaves_scale hbound hle, hpow]
  have hpos := Nat.two_pow_pos (bmax - maxLength b.count)
  exact ⟨Nat.mul_le_mul_right_iff hpos, Nat.mul_left_inj (Nat.ne_of_gt hpos)⟩

end

/-- A set of lengths that `huft_build` makes good tables for: it is not too large, a
value that was never stored is not needed, and the look-up is wide enough. -/
structure Buildable (b : List Nat) (s : Nat) (d e : List Nat) (m : Nat) : Prop
    extends Usable b where
  room : leaves b bmax ≤ 2 ^ bmax
  values : leaves b bmax = 2 ^ bmax ∨ 0 ∉ b
  lookup : maxLength b.count ≤ 2 * lookupBits b.count m ∨
    leaves b bmax = 2 ^ bmax ∧ b.length < 2 ^ lookupBits b.count m
  bases : b.length ≤ s + d.length
  extras : b.length ≤ s + e.length
  codes : ∀ x ∈ e, x ≤ 16 ∨ x = 99

section
variable {b : List Nat} {s : Nat} {d e : List Nat} {m : Nat}

/-- The counts with the dummy codes. -/
def filledCount (b : List Nat) : Nat → Nat :=
  Function.update b.count (maxLength b.count)
    (b.count (maxLength b.count) +
      (2 ^ maxLength b.count - leaves b (maxLength b.count)))

theorem filledCount_of_ne {k : Nat} (h : k ≠ maxLength b.count) :
    filledCount b k = b.count k := Function.update_of_ne h ..

theorem filledCount_last : filledCount b (maxLength b.count) =
    b.count (maxLength b.count) + (2 ^ maxLength b.count - leaves b (maxLength b.count)) :=
  Function.update_self ..

theorem count_le_filledCount (k : Nat) : b.count k ≤ filledCount b k := by
  by_cases hk : k = maxLength b.count
  · rw [hk, filledCount_last]
    exact Nat.le_add_right _ _
  · rw [filledCount_of_ne hk]

theorem offset_filledCount {k : Nat} (h : k ≤ maxLength b.count) :
    offset (filledCount b) k = offset b.count k := by
  rw [offset_eq_sum, offset_eq_sum]
  apply Finset.sum_congr rfl
  intro j hj
  rw [Finset.mem_Ico] at hj
  exact filledCount_of_ne (by omega)

theorem Buildable.fillable (h : Buildable b s d e m) :
    Fillable (filledCount b) (lookupBits b.count m) (maxLength b.count) := by
  obtain ⟨hmin, -, hused, -⟩ := h.minLength_spec
  obtain ⟨hmax, -, hlast, hbound⟩ := h.maxLength_spec
  obtain ⟨hlow, hhigh⟩ := h.lookupBits_spec m
  have hroom := h.leaves_iff.1.mp h.room
  have htaken : taken (filledCount b) (maxLength b.count) (maxLength b.count) =
      taken b.count (maxLength b.count) (maxLength b.count) :=
    taken_congr fun j _ hj => filledCount_of_ne (Nat.ne_of_lt hj)
  have hleaves : leaves b (maxLength b.count) =
      taken b.count (maxLength b.count) (maxLength b.count) + b.count (maxLength b.count) := by
    rw [leaves, taken_succ hmax, Nat.sub_self, Nat.pow_zero, Nat.mul_one]
  exact {
    full := by
      rw [taken_succ hmax, htaken, filledCount_last, Nat.sub_self, Nat.pow_zero, Nat.mul_one]
      omega
    last := by
      rw [filledCount_last]
      omega
    lookup_pos := by omega
    lookup_le := hhigh
    shortest := ⟨minLength b.count, hmin, hlow, by
      have := count_le_filledCount (b := b) (minLength b.count)
      omega⟩
    shallow := by
      rcases h.lookup with hdeep | ⟨hfull, hfew⟩
      · exact .inl hdeep
      · right
        have hsame : ∑ j ∈ Finset.Ico 1 (maxLength b.count + 1), filledCount b j =
            ∑ j ∈ Finset.Ico 1 (maxLength b.count + 1), b.count j := by
          apply Finset.sum_congr rfl
          intro j _
          by_cases hj : j = maxLength b.count
          · rw [hj, filledCount_last, h.leaves_iff.2.mp hfull, Nat.sub_self, Nat.add_zero]
          · exact filledCount_of_ne hj
        have hall := sum_count_add_zero hbound
        omega }

/-- The value at the place of a code is the symbol that has the code. -/
theorem Usable.value_at (h : Usable b) (stale : Nat → Nat) {k r : Nat} (hk : 1 ≤ k)
    (hg : k ≤ maxLength b.count) (hr : r < b.count k) :
    offset b.count k + r < b.length ∧ ∃ sym, sym < b.length ∧ b.getD sym 0 = k ∧
      (b.take sym).count k = r ∧
      sortValues b 0 (offset b.count) stale (offset b.count k + r) = sym := by
  have hall := sum_count_add_zero h.maxLength_spec.2.2.2
  rw [← offset_eq_sum] at hall
  have hmono := offset_mono b.count (show k + 1 ≤ maxLength b.count + 1 by omega)
  rw [offset_succ (by omega)] at hmono
  obtain ⟨sym, hsym, hrank⟩ := exists_rank hr
  have hused : b.getD sym 0 ≠ 0 := by omega
  have hvalue := sortValues_spec (i := 0) (v := stale) (offset_apart b.count) hused
  rw [hsym, hrank, Nat.zero_add] at hvalue
  exact ⟨by omega, sym, lt_length_of_getD_ne_zero hused, hsym, hrank, hvalue⟩

/-- A code that no symbol has is a dummy, behind the last value. -/
theorem Buildable.dummy_place (h : Buildable b s d e m) {k r : Nat}
    (hg : k ≤ maxLength b.count) (hr : r < filledCount b k) (hno : ¬ r < b.count k) :
    b.length ≤ offset b.count k + r := by
  have hlast : k = maxLength b.count := by
    by_contra hne
    rw [filledCount_of_ne hne] at hr
    exact hno hr
  subst hlast
  have hzero : b.count 0 = 0 := by
    rcases h.values with hfull | hzero
    · rw [filledCount_last, h.leaves_iff.2.mp hfull] at hr
      omega
    · exact List.count_eq_zero.mpr hzero
  have hall := sum_count_add_zero h.maxLength_spec.2.2.2
  rw [← offset_eq_sum, offset_succ (Nat.ne_of_gt h.maxLength_spec.1), hzero] at hall
  omega

theorem Buildable.valued (h : Buildable b s d e m) (stale : Nat → Nat) :
    Valued b.length s d e (sortValues b 0 (offset b.count) stale) (filledCount b)
      (maxLength b.count) := by
  have hbases := h.bases
  have hextras := h.extras
  intro k r old bits hk hg hr
  rw [placeOf, placeOf, offset_filledCount hg]
  by_cases hreal : r < b.count k
  · obtain ⟨hplace, sym, hsym, -, -, hvalue⟩ := h.value_at stale hk hg hreal
    refine ⟨symbolEntry s d e sym bits, ?_⟩
    rw [Nat.min_eq_left (by omega), Nat.min_eq_left (by omega),
      codeEntry_symbol hplace hvalue (by omega) (by omega)]
    rfl
  · have hplace := h.dummy_place hg hr hreal
    refine ⟨{ old with e := 99, b := bits }, ?_⟩
    rw [Nat.min_eq_right hplace, Nat.min_eq_right (by omega), codeEntry,
      if_pos (Nat.le_refl _)]

/-- What tables have to do with a list of lengths: every stream walks to the entry of
the symbol that it goes on with, and to an invalid entry if there is none. -/
structure Decodes (b : List Nat) (s : Nat) (d e : List Nat) (tables : HuftTables) (m : Nat) :
    Prop where
  symbol : ∀ stream p sym, Spells b stream p sym → ∃ q, q < p + b.getD sym 0 ∧
    (m = maxLength b.count → q = p) ∧
    Walk tables m stream 0 m p (symbolEntry s d e sym (p + b.getD sym 0 - q)) q
  invalid : ∀ stream p, (∀ sym, ¬ Spells b stream p sym) →
    ∃ entry q, entry.e = 99 ∧ Walk tables m stream 0 m p entry q

theorem Buildable.decodes (h : Buildable b s d e m) (stale : Nat → Nat) {st : Builder}
    (hst : Placed b.length s d e (sortValues b 0 (offset b.count) stale) (filledCount b)
      (lookupBits b.count m) (maxLength b.count) (maxLength b.count + 1) 0 st) :
    Decodes b s d e st.tables (lookupBits b.count m) := by
  have hbases := h.bases
  have hextras := h.extras
  have hbound := h.maxLength_spec.2.2.2
  have hc := h.fillable
  have hwalk : ∀ stream p, ∃ k r old entry p' q, 1 ≤ k ∧ k ≤ maxLength b.count ∧
      r < filledCount b k ∧ Below b.count (maxLength b.count) k r
        (highFirst stream p (maxLength b.count)) ∧ q < p + k ∧
      (lookupBits b.count m = maxLength b.count → q = p) ∧
      codeEntry b.length s d e (sortValues b 0 (offset b.count) stale) old
        (min (offset b.count k + r) b.length) (p + k - q) = some (entry, p') ∧
      Walk st.tables (lookupBits b.count m) stream 0 (lookupBits b.count m) p entry q := by
    intro stream p
    obtain ⟨T, hans, -, hmade, -, -⟩ := hst
    have hend : leafOf (filledCount b) (maxLength b.count) (maxLength b.count + 1) 0 =
        2 ^ maxLength b.count := by
      rw [leafOf, Nat.zero_mul, Nat.add_zero, hc.full]
    rw [hend] at hans hmade
    have hne := hmade (Nat.two_pow_pos _)
    obtain ⟨hlevel, hstart, hbits⟩ := hans.root hne
    obtain ⟨k, r, old, entry, p', q, hk, hg, hr, hbelow, hq, hdirect, hentry, hw⟩ :=
      exists_walk hans h.codes hc.lookup_pos stream p (t := 0) (Nat.zero_add _).symm
        (List.length_pos_iff.mpr hne) (by rw [hlevel, hbits]; simpa using hc.lookup_le)
        (by
          rw [Holds, hlevel, hstart, Nat.mul_zero, Nat.zero_add]
          exact ⟨Nat.zero_le _, highFirst_lt stream p _⟩)
    rw [hlevel, Nat.mul_zero, Nat.add_zero] at hdirect
    rw [hlevel, hbits, Nat.mul_zero, Nat.add_zero] at hw
    rw [placeOf, offset_filledCount hg] at hentry
    rw [below_congr fun j _ hj => filledCount_of_ne (by omega)] at hbelow
    exact ⟨k, r, old, entry, p', q, hk, hg, hr, hbelow, hq, hdirect, hentry, hw⟩
  constructor
  · intro stream p sym hsym
    obtain ⟨k, r, old, entry, p', q, hk, hg, hr, hbelow, hq, hdirect, hentry, hw⟩ := hwalk stream p
    -- the word of the symbol is the only one over the leaf
    have hlen := hbound _ (getD_mem_of_ne_zero hsym.used)
    have hbelow' := hsym.below hlen
    have hrank := count_take_lt (lt_length_of_getD_ne_zero hsym.used)
    rw [below_congr (d := filledCount b) fun j _ hj =>
      (filledCount_of_ne (by omega)).symm] at hbelow hbelow'
    obtain ⟨rfl, rfl⟩ := hbelow.unique hk (Nat.pos_of_ne_zero hsym.used) hr
      (Nat.lt_of_lt_of_le hrank (count_le_filledCount _)) hbelow'
    obtain ⟨hplace, sym', hlt, hsym', hrank', hvalue⟩ := h.value_at stale hk hg hrank
    obtain rfl := count_take_inj hsym' rfl hsym.used hrank'
    rw [Nat.min_eq_left (Nat.le_of_lt hplace),
      codeEntry_symbol hplace hvalue (by omega) (by omega)] at hentry
    obtain ⟨rfl, rfl⟩ := Prod.mk.inj (Option.some.inj hentry)
    exact ⟨q, hq, hdirect, hw⟩
  · intro stream p hnone
    obtain ⟨k, r, old, entry, p', q, hk, hg, hr, hbelow, hq, -, hentry, hw⟩ := hwalk stream p
    have hdummy : ¬ r < b.count k := by
      intro hreal
      obtain ⟨-, sym, -, hsym, hrank, -⟩ := h.value_at stale hk hg hreal
      exact hnone sym (.of_below (Nat.ne_of_gt hk) hg hsym hrank hbelow)
    have hplace := h.dummy_place hg hr hdummy
    rw [Nat.min_eq_right hplace, codeEntry, if_pos (Nat.le_refl _)] at hentry
    obtain ⟨rfl, -⟩ := Prod.mk.inj (Option.some.inj hentry)
    exact ⟨_, q, rfl, hw⟩

theorem huftBuild_decodes (h : Buildable b s d e m) (stale : Nat → Nat)
    (fresh : Nat → Nat → Huft) :
    ∃ res, huftBuild stale fresh b s d e m = some res ∧
      res.code = (if leaves b bmax = 2 ^ bmax ∨ maxLength b.count = 1 then 0 else 1) ∧
      res.m = lookupBits b.count m ∧ Decodes b s d e res.tables res.m := by
  obtain ⟨hmin, hle, -, hshort⟩ := h.minLength_spec
  have hstart : Placed b.length s d e (sortValues b 0 (offset b.count) stale) (filledCount b)
      (lookupBits b.count m) (maxLength b.count) (minLength b.count) 0
      ⟨0, 0, fun _ => 0, fun _ => 0, 0, 0, 0, ⟨0, 0, .n 0⟩, []⟩ := by
    have hleaf : leafOf (filledCount b) (maxLength b.count) (minLength b.count) 0 = 0 := by
      rw [leafOf, Nat.zero_mul, Nat.add_zero,
        taken_congr fun j _ hj => filledCount_of_ne (b := b) (by omega)]
      apply Finset.sum_eq_zero
      intro j hj
      rw [Finset.mem_Ico] at hj
      change b.count j * _ = 0
      rw [hshort j hj.1 hj.2, Nat.zero_mul]
    have hoffset : offset (filledCount b) (minLength b.count) = 0 := by
      rw [offset_filledCount hle, offset_eq_sum]
      apply Finset.sum_eq_zero
      intro j hj
      rw [Finset.mem_Ico] at hj
      exact hshort j hj.1 hj.2
    refine ⟨⟨fun _ => 0, fun _ => 0, fun _ => 0⟩, ?_, fun _ => ?_, ?_, ?_, ?_⟩
    · exact ⟨fun hne => absurd rfl hne, fun t table htable => by simp at htable⟩
    · rw [hleaf]
      constructor <;> simp
    · intro hpos
      omega
    · rw [hleaf, reverseBits_zero]
    · simp [placeOf, hoffset]
  obtain ⟨st, hrun, hend⟩ := placeLengths_spec h.fillable (h.valued stale) fresh hmin
    (show minLength b.count + (maxLength b.count + 1 - minLength b.count) =
      maxLength b.count + 1 by omega) hstart
  have hroom := h.leaves_iff.1.mp h.room
  have hfull := h.leaves_iff.2
  refine ⟨⟨if 2 ^ maxLength b.count - leaves b (maxLength b.count) ≠ 0 ∧ maxLength b.count ≠ 1
    then 1 else 0, st.tables, lookupBits b.count m⟩, ?_, ?_, rfl, h.decodes stale hend⟩
  · unfold huftBuild
    simp only [if_neg h.count_zero_ne, h.dummies_eq, if_pos hroom]
    change (placeLengths b.length s d e (sortValues b 0 (offset b.count) stale) (filledCount b)
      (lookupBits b.count m) (maxLength b.count) fresh (maxLength b.count + 1 - minLength b.count)
      (minLength b.count) _ >>= _) = _
    rw [hrun]
    rfl
  · simp only [hfull]
    by_cases hcomplete : leaves b (maxLength b.count) = 2 ^ maxLength b.count
    · rw [if_neg (by omega), if_pos (.inl hcomplete)]
    · by_cases hone : maxLength b.count = 1
      · rw [if_neg (by omega), if_pos (.inr hone)]
      · rw [if_pos ⟨by omega, hone⟩, if_neg (by omega)]

end

/-! ## Result codes -/

/-- When `huft_build` returns for lengths that are used, its result tells whether the
words are too many, as many as there may be, or too few, but for a single word of one
bit. -/
theorem huftBuild_code {b : List Nat} {s : Nat} {d e : List Nat} {m : Nat} (h : Usable b)
    {stale : Nat → Nat} {fresh : Nat → Nat → Huft} {res : HuftResult}
    (hrun : huftBuild stale fresh b s d e m = some res) :
    res.code = if leaves b bmax ≤ 2 ^ bmax then
      if leaves b bmax = 2 ^ bmax ∨ maxLength b.count = 1 then 0 else 1 else 2 := by
  obtain ⟨hroom, hfull⟩ := h.leaves_iff
  unfold huftBuild at hrun
  simp only [if_neg h.count_zero_ne, h.dummies_eq] at hrun
  by_cases hfits : leaves b (maxLength b.count) ≤ 2 ^ maxLength b.count
  · rw [if_pos hfits] at hrun
    obtain ⟨st, -, hres⟩ := Option.bind_eq_some_iff.mp hrun
    obtain rfl := Option.some.inj hres
    rw [if_pos (hroom.mpr hfits)]
    simp only [hfull]
    by_cases hcomplete : leaves b (maxLength b.count) = 2 ^ maxLength b.count
    · rw [if_neg (by omega), if_pos (.inl hcomplete)]
    · by_cases hone : maxLength b.count = 1
      · rw [if_neg (by omega), if_pos (.inr hone)]
      · rw [if_pos ⟨by omega, hone⟩, if_neg (by omega)]
  · rw [if_neg hfits] at hrun
    obtain rfl := Option.some.inj hrun
    rw [if_neg (fun hle => hfits (hroom.mp hle))]

theorem lone_of_room {b : List Nat} (h : Usable b) (hone : maxLength b.count = 1)
    (hroom : leaves b bmax ≤ 2 ^ bmax) (hfull : leaves b bmax ≠ 2 ^ bmax) : Lone b := by
  obtain ⟨hroom', hfull'⟩ := h.leaves_iff
  obtain ⟨-, -, hlast, hlong⟩ := h.maxLength_spec
  rw [hone] at hroom' hfull' hlast hlong
  have hleaves : leaves b 1 = b.count 1 := by
    simp [leaves, taken]
  rw [hleaves] at hroom' hfull'
  have hle := hroom'.mp hroom
  have hne := mt hfull'.mpr hfull
  exact ⟨by omega, hlong⟩

/-- The sets that `huft_build` returns 0 for. -/
theorem huftBuild_zero {b : List Nat} {s : Nat} {d e : List Nat} {m : Nat}
    (hbound : ∀ len ∈ b, len ≤ bmax) {stale : Nat → Nat} {fresh : Nat → Nat → Huft}
    {res : HuftResult} (hrun : huftBuild stale fresh b s d e m = some res) (hzero : res.code = 0) :
    (∀ len ∈ b, len = 0) ∨ CompleteCode b bmax ∨ Lone b := by
  by_cases hused : ∃ len ∈ b, len ≠ 0
  · right
    have husable : Usable b := ⟨hbound, hused⟩
    have hcode := huftBuild_code husable hrun
    rw [hzero] at hcode
    by_cases hroom : leaves b bmax ≤ 2 ^ bmax
    · rw [if_pos hroom] at hcode
      by_cases hfull : leaves b bmax = 2 ^ bmax
      · exact .inl ⟨hbound, hfull⟩
      · right
        have hone : maxLength b.count = 1 := by
          by_contra hne
          rw [if_neg fun h => h.elim hfull hne] at hcode
          exact absurd hcode (by decide)
        exact lone_of_room husable hone hroom hfull
    · rw [if_neg hroom] at hcode
      exact absurd hcode (by decide)
  · left
    intro len hmem
    by_contra hne
    exact hused ⟨len, hmem, hne⟩

/-! ## Complete codes -/

section
variable {b : List Nat} {m : Nat} (h : CompleteCode b bmax)
include h

theorem usable_of_complete : Usable b where
  bound := h.bound
  used := by
    by_contra hnone
    have hzero : leaves b bmax = 0 := by
      unfold leaves taken
      apply Finset.sum_eq_zero
      intro j hj
      rw [Finset.mem_Ico] at hj
      change b.count j * _ = 0
      rw [List.count_eq_zero_of_not_mem fun hmem => hnone ⟨j, hmem, by omega⟩, Nat.zero_mul]
    have hfull := h.full
    rw [hzero] at hfull
    exact absurd hfull (by decide)

/-- The shorter the words are, the fewer there are. -/
theorem two_pow_minLength_le : 2 ^ minLength b.count ≤ b.length := by
  obtain ⟨hmin, hle, -, hshort⟩ := (usable_of_complete h).minLength_spec
  have hmax := (usable_of_complete h).maxLength_spec.2.1
  have hterms : leaves b bmax ≤
      ∑ j ∈ Finset.Ico 1 (bmax + 1), b.count j * 2 ^ (bmax - minLength b.count) := by
    unfold leaves taken
    refine Finset.sum_le_sum fun j hj => ?_
    rw [Finset.mem_Ico] at hj
    by_cases hlong : minLength b.count ≤ j
    · exact Nat.mul_le_mul_left _ (Nat.pow_le_pow_right (by decide) (by omega))
    · have hzero := hshort j hj.1 (by omega)
      simp [hzero]
  have hall := sum_count_add_zero h.bound
  have hwords : ∑ j ∈ Finset.Ico 1 (bmax + 1), b.count j ≤ b.length := by omega
  rw [h.full, ← Finset.sum_mul] at hterms
  have htotal := Nat.le_trans hterms (Nat.mul_le_mul_right _ hwords)
  rw [show bmax = minLength b.count + (bmax - minLength b.count) by omega, Nat.pow_add,
    Nat.add_sub_cancel_left] at htotal
  exact Nat.le_of_mul_le_mul_right htotal (Nat.two_pow_pos _)

theorem lookupBits_of_complete (hlen : b.length < 2 ^ m) :
    lookupBits b.count m ≤ m ∧
      (maxLength b.count ≤ lookupBits b.count m ∨ m ≤ lookupBits b.count m) := by
  have hmin := (Nat.pow_lt_pow_iff_right (by decide)).mp
    (Nat.lt_of_le_of_lt (two_pow_minLength_le h) hlen)
  have := (usable_of_complete h).minLength_spec.2.1
  unfold lookupBits
  dsimp only
  split <;> split <;> omega

/-- A complete code gets its tables, if it is not too large for the look-up. -/
theorem buildable_of_complete (hlen : b.length < 2 ^ m) {s : Nat} {d e : List Nat}
    (hbases : b.length ≤ s + d.length) (hextras : b.length ≤ s + e.length)
    (hcodes : ∀ x ∈ e, x ≤ 16 ∨ x = 99) : Buildable b s d e m where
  toUsable := usable_of_complete h
  room := Nat.le_of_eq h.full
  values := .inl h.full
  lookup := by
    rcases (lookupBits_of_complete h hlen).2 with hle | hle
    · left
      omega
    · exact .inr ⟨h.full, Nat.lt_of_lt_of_le hlen (Nat.pow_le_pow_right (by decide) hle)⟩
  bases := hbases
  extras := hextras
  codes := hcodes

end

/-! ## Tables for a set of lengths -/

/-- The tables lead a stream that goes on with a word to the entry of its symbol, which
takes the rest of the word, and any other stream to an entry that is invalid. -/
theorem huftBuild_tables {b : List Nat} {s : Nat} {d e : List Nat} {m : Nat}
    (h : Buildable b s d e m) (stale : Nat → Nat) (fresh : Nat → Nat → Huft) :
    ∃ res, huftBuild stale fresh b s d e m = some res ∧ res.m = lookupBits b.count m ∧
      (∀ stream p sym, Spells b stream p sym → ∃ q, q < p + b.getD sym 0 ∧
        Walk res.tables res.m stream 0 res.m p
          (symbolEntry s d e sym (p + b.getD sym 0 - q)) q) ∧
      ∀ stream p, (∀ sym, ¬ Spells b stream p sym) →
        ∃ entry q, entry.e = 99 ∧ Walk res.tables res.m stream 0 res.m p entry q := by
  obtain ⟨res, hrun, -, hm, hdecodes⟩ := huftBuild_decodes h stale fresh
  refine ⟨res, hrun, hm, fun stream p sym hsym => ?_, hdecodes.invalid⟩
  obtain ⟨q, hq, -, hwalk⟩ := hdecodes.symbol stream p sym hsym
  exact ⟨q, hq, hwalk⟩

theorem huftBuild_tables_four :
    ∃ res, huftBuild (fun _ => 0) (fun _ _ => ⟨0, 0, .n 0⟩) [1, 2, 3, 3] 4 [] [] 3 = some res ∧
      res.m = lookupBits [1, 2, 3, 3].count 3 ∧
      (∀ stream p sym, Spells [1, 2, 3, 3] stream p sym → ∃ q,
        q < p + [1, 2, 3, 3].getD sym 0 ∧ Walk res.tables res.m stream 0 res.m p
          (symbolEntry 4 [] [] sym (p + [1, 2, 3, 3].getD sym 0 - q)) q) ∧
      ∀ stream p, (∀ sym, ¬ Spells [1, 2, 3, 3] stream p sym) →
        ∃ entry q, entry.e = 99 ∧ Walk res.tables res.m stream 0 res.m p entry q :=
  huftBuild_tables (buildable_of_complete ⟨by decide, by decide⟩ (by decide) (by decide)
    (by decide) (by decide)) _ _

end Milo.Zip
