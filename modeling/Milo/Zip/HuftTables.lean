import Milo.Zip.HuftLoops

/-! # The tables of `huft_build`

The tables are followed leaf by leaf. A table belongs to the leaves that start with
the bits in front of it; while the codes are placed, every leaf in front of the
counter is answered by the tables that it runs through, and the tables that the
counter is in lie on a stack.
-/

namespace Milo.Zip

open Foundation

/-- Lengths that fill the tree, and look-ups that reach every code in two tables. -/
structure Fillable (c : Nat → Nat) (l g : Nat) : Prop where
  full : taken c g (g + 1) = 2 ^ g
  last : c g ≠ 0
  lookup_pos : 1 ≤ l
  lookup_le : l ≤ g
  shortest : ∃ k, 1 ≤ k ∧ k ≤ l ∧ c k ≠ 0
  shallow : g ≤ 2 * l ∨ ∑ j ∈ Finset.Ico 1 (g + 1), c j < 2 ^ l

section
variable {c : Nat → Nat} {l g : Nat}

/-! ## The width of a table -/

theorem taken_le_leafOf_add (k r : Nat) (hk : k ≤ g + 1) :
    taken c g (g + 1) ≤
      leafOf c g k r + (∑ j ∈ Finset.Ico 1 (g + 1), c j) * 2 ^ (g - k) := by
  by_cases hzero : k = 0
  · subst hzero
    have hle : taken c g (g + 1) ≤ ∑ j ∈ Finset.Ico 1 (g + 1), c j * 2 ^ g :=
      Finset.sum_le_sum fun j _ =>
        Nat.mul_le_mul_left _ (Nat.pow_le_pow_right (by omega) (Nat.sub_le g j))
    rw [← Finset.sum_mul] at hle
    exact Nat.le_trans hle (Nat.le_add_left _ _)
  · have hpos : 1 ≤ k := Nat.pos_of_ne_zero hzero
    have hsplit := Finset.sum_Ico_consecutive (fun j => c j * 2 ^ (g - j)) hpos hk
    have hwords := Finset.sum_Ico_consecutive c hpos hk
    have hle : ∑ j ∈ Finset.Ico k (g + 1), c j * 2 ^ (g - j) ≤
        ∑ j ∈ Finset.Ico k (g + 1), c j * 2 ^ (g - k) := by
      refine Finset.sum_le_sum fun j hj => Nat.mul_le_mul_left _ ?_
      rw [Finset.mem_Ico] at hj
      exact Nat.pow_le_pow_right (by omega) (by omega)
    rw [← Finset.sum_mul] at hle
    have hmono := Nat.mul_le_mul_right (2 ^ (g - k))
      (show ∑ j ∈ Finset.Ico k (g + 1), c j ≤ ∑ j ∈ Finset.Ico 1 (g + 1), c j by omega)
    have hstart := taken_le_leafOf (c := c) (g := g) k r
    unfold taken at hstart ⊢
    omega

/-- The loop stops at the first width at which the codes below the table end before
`last`, where the leaves of the table end. -/
theorem smallerTable_spec {w last z left j f : Nat} (hz : w + z ≤ g) (hj : j < z)
    (hleft : z ≤ j + left) (hf : taken c g (w + j + 1) + f * 2 ^ (g - (w + j)) = last) :
    j < smallerTable c z left j (w + j) f ∧ smallerTable c z left j (w + j) f ≤ z ∧
      (last ≤ taken c g (w + smallerTable c z left j (w + j) f + 1) ∨
        smallerTable c z left j (w + j) f = z) := by
  induction left generalizing j f with
  | zero => omega
  | succ left ih =>
      have hpow : 2 ^ (g - (w + j)) = 2 * 2 ^ (g - (w + j + 1)) := by
        rw [← Nat.pow_succ', show g - (w + j) = g - (w + j + 1) + 1 by omega]
      have htaken := taken_succ (c := c) (g := g) (Nat.le_add_left 1 (w + j))
      have htwice : f * 2 ^ (g - (w + j)) = 2 * f * 2 ^ (g - (w + j + 1)) := by
        rw [hpow, Nat.mul_comm 2 f, Nat.mul_assoc]
      rw [smallerTable]
      by_cases hnext : j + 1 < z
      · rw [if_pos hnext]
        by_cases hfull : 2 * f ≤ c (w + j + 1)
        · have hle := Nat.mul_le_mul_right (2 ^ (g - (w + j + 1))) hfull
          rw [if_pos hfull, show w + (j + 1) = w + j + 1 by omega]
          exact ⟨Nat.lt_succ_self j, Nat.le_of_lt hnext, .inl (by omega)⟩
        · have hle := Nat.mul_le_mul_right (2 ^ (g - (w + j + 1))) (Nat.le_of_not_le hfull)
          have hsub := Nat.sub_mul (2 * f) (c (w + j + 1)) (2 ^ (g - (w + j + 1)))
          have hrest := ih (j := j + 1) (f := 2 * f - c (w + j + 1)) hnext (by omega) (by
            rw [show w + (j + 1) = w + j + 1 by omega]
            omega)
          rw [if_neg hfull]
          rw [show w + (j + 1) = w + j + 1 by omega] at hrest
          exact ⟨by omega, hrest.2⟩
      · rw [if_neg hnext]
        exact ⟨Nat.lt_succ_self j, by omega, .inr (by omega)⟩

/-- All codes below the table fit in `j` bits, or the longer ones are looked up with
`l` bits first. -/
def Fits (c : Nat → Nat) (l g w last j : Nat) : Prop :=
  0 < j ∧ j ≤ l ∧ w + j ≤ g ∧ (last ≤ taken c g (w + j + 1) ∨ w + j = g ∨ j = l)

variable (hc : Fillable c l g)
include hc

/-- A code behind the last one of the length has a leaf, so it is longer. -/
theorem Fillable.leaf_lt {k r : Nat} (hk : 1 ≤ k) (hg : k ≤ g) (hr : r < c k) :
    leafOf c g k r + 2 ^ (g - k) ≤ 2 ^ g := by
  have hle := leafOf_le_taken (g := g) hk hr
  have hmono := taken_mono (c := c) (g := g) (show k + 1 ≤ g + 1 by omega)
  rw [hc.full] at hmono
  omega

/-- Only the longest codes fill the tree. -/
theorem Fillable.taken_lt {k : Nat} (hk : k ≤ g) : taken c g k < 2 ^ g := by
  have hpos := hc.lookup_pos
  have hle := hc.lookup_le
  have hmono := taken_mono (c := c) (g := g) hk
  have hfull := hc.full
  rw [taken_succ (by omega), Nat.sub_self, Nat.pow_zero, Nat.mul_one] at hfull
  have hlast := Nat.pos_of_ne_zero hc.last
  omega

theorem Fillable.leafOf_pos {k r : Nat} (hk : l < k) : 0 < leafOf c g k r := by
  obtain ⟨j, hj, hjl, hused⟩ := hc.shortest
  have hmono := taken_mono (c := c) (g := g) (show j + 1 ≤ k by omega)
  rw [taken_succ hj] at hmono
  have hword := Nat.mul_pos (Nat.pos_of_ne_zero hused) (Nat.two_pow_pos (g - j))
  have hstart := taken_le_leafOf (c := c) (g := g) k r
  omega

/-- The words that are left fill the leaves that are left. -/
theorem Fillable.longest_left {k r : Nat} (hk : k = g) (hr : r < c k) :
    leafOf c g k r + (c k - r) = 2 ^ g := by
  subst hk
  have hpos := hc.lookup_pos
  have hle := hc.lookup_le
  have hfull := hc.full
  rw [taken_succ (by omega)] at hfull
  rw [leafOf]
  simp only [Nat.sub_self, Nat.pow_zero, Nat.mul_one] at hfull ⊢
  omega

/-- A table for a code that does not fit in the one before. -/
theorem tableBits_fits {k r w : Nat} (hg : k ≤ g) (hr : r < c k) (hw : l ≤ w) (hwk : w < k)
    (hlast : leafOf c g k r + 2 ^ (g - w) ≤ 2 ^ g) :
    k ≤ w + tableBits c l g w k (c k - r - 1) ∧
      Fits c l g w (leafOf c g k r + 2 ^ (g - w)) (tableBits c l g w k (c k - r - 1)) := by
  have hpow : 2 ^ (g - w) = 2 ^ (k - w) * 2 ^ (g - k) := by
    rw [← Nat.pow_add]
    congr 1
    omega
  have htaken : taken c g (k + 1) = leafOf c g k r + (c k - r) * 2 ^ (g - k) := by
    rw [taken_succ (by omega), leafOf, Nat.add_assoc, ← Nat.add_mul]
    congr 2
    omega
  -- the table is not reached by codes that are too long for it
  have hnarrow : k - w ≤ l ∧ (k - w < g - w → k - w < l) := by
    rcases hc.shallow with hdeep | hfew
    · omega
    · have hall := taken_le_leafOf_add (c := c) k r (show k ≤ g + 1 by omega)
      rw [hc.full] at hall
      have hlt : 2 ^ (k - w) * 2 ^ (g - k) < 2 ^ l * 2 ^ (g - k) := by
        have := Nat.mul_lt_mul_of_pos_right hfew (Nat.two_pow_pos (g - k))
        omega
      have := (Nat.pow_lt_pow_iff_right (by omega)).mp (Nat.lt_of_mul_lt_mul_right hlt)
      omega
  have hcount : c k - r - 1 + 1 = c k - r := by omega
  unfold tableBits
  simp only [hcount]
  by_cases hmany : 2 ^ (k - w) > c k - r
  · -- the codes of this length do not fill the table
    have hshort : k ≠ g := by
      rintro rfl
      have hleft := hc.longest_left rfl hr
      omega
    have hz : (if g - w > l then l else g - w) = min (g - w) l := by
      split <;> omega
    have hsub := Nat.sub_mul (2 ^ (k - w)) (c k - r) (2 ^ (g - k))
    have hle := Nat.mul_le_mul_right (2 ^ (g - k)) (Nat.le_of_lt hmany)
    have hfree : taken c g (w + (k - w) + 1) +
        (2 ^ (k - w) - (c k - r)) * 2 ^ (g - (w + (k - w))) = leafOf c g k r + 2 ^ (g - w) := by
      rw [show w + (k - w) = k by omega]
      omega
    have hspec := smallerTable_spec (show w + min (g - w) l ≤ g by omega) (by omega)
      (Nat.le_add_left _ _) hfree
    rw [show w + (k - w) = k by omega] at hspec
    rw [if_pos hmany, hz]
    refine ⟨by omega, by omega, by omega, by omega, ?_⟩
    rcases hspec.2.2 with hend | hwide
    · exact .inl hend
    · omega
  · have hle := Nat.mul_le_mul_right (2 ^ (g - k)) (Nat.le_of_not_lt hmany)
    have hwidth : w + (k - w) = k := by omega
    rw [if_neg hmany, Fits, hwidth]
    exact ⟨Nat.le_refl k, by omega, hnarrow.1, hg, .inl (by omega)⟩

/-- The first table has all slots that it is looked up with. -/
theorem le_tableBits_root {k r : Nat} (hk : 1 ≤ k) (hkl : k ≤ l) (hr : r < c k)
    (h0 : leafOf c g k r = 0) : l ≤ tableBits c l g 0 k (c k - r - 1) := by
  have hle := hc.lookup_le
  have htaken : taken c g (k + 1) = (c k - r) * 2 ^ (g - k) := by
    rw [leafOf] at h0
    rw [taken_succ hk, Nat.sub_mul]
    omega
  have hwide : ∀ j, 2 ^ g ≤ taken c g (j + 1) → g ≤ j := by
    intro j hj
    by_contra hlt
    have := hc.taken_lt (show j + 1 ≤ g by omega)
    omega
  have hpow : 2 ^ g = 2 ^ k * 2 ^ (g - k) := by
    rw [← Nat.pow_add]
    congr 1
    omega
  have hcount : c k - r - 1 + 1 = c k - r := by omega
  have hz : (if g > l then l else g) = l := by
    split <;> omega
  unfold tableBits
  simp only [hcount, Nat.sub_zero, hz]
  by_cases hmany : 2 ^ k > c k - r
  · rw [if_pos hmany]
    by_cases hnext : k < l
    · have hsub := Nat.sub_mul (2 ^ k) (c k - r) (2 ^ (g - k))
      have hmul := Nat.mul_le_mul_right (2 ^ (g - k)) (Nat.le_of_lt hmany)
      have hfree : taken c g (0 + k + 1) + (2 ^ k - (c k - r)) * 2 ^ (g - (0 + k)) = 2 ^ g := by
        rw [Nat.zero_add]
        omega
      have hspec := smallerTable_spec (show 0 + l ≤ g by omega) hnext (Nat.le_add_left _ _) hfree
      rw [Nat.zero_add] at hspec
      rcases hspec.2.2 with hend | heq
      · rw [Nat.zero_add] at hend
        exact Nat.le_trans hle (hwide _ hend)
      · exact Nat.le_of_eq heq.symm
    · cases l with
      | zero => exact Nat.zero_le _
      | succ l =>
          rw [smallerTable, if_neg (by omega)]
          omega
  · have hmul := Nat.mul_le_mul_right (2 ^ (g - k)) (Nat.le_of_not_lt hmany)
    rw [if_neg hmany]
    exact Nat.le_trans hle (hwide k (by omega))

end

/-! ## Leaves and slots -/

/-- Of two aligned blocks that share a leaf the smaller one lies in the larger. -/
theorem block_nested {small large a b leaf : Nat} (hdvd : small ∣ large) (ha : large ∣ a)
    (hb : small ∣ b) (hleaf : a ≤ leaf ∧ leaf < a + large)
    (hleaf' : b ≤ leaf ∧ leaf < b + small) : a ≤ b ∧ b + small ≤ a + large := by
  obtain ⟨n, rfl⟩ := hdvd
  obtain ⟨i, rfl⟩ := Nat.dvd_trans (Nat.dvd_mul_right small n) ha
  obtain ⟨j, rfl⟩ := hb
  have hlow : small * i < small * (j + 1) := by
    rw [Nat.mul_succ]
    omega
  have hhigh : small * j < small * (i + n) := by
    rw [Nat.mul_add]
    omega
  have hij := Nat.mul_le_mul_left small (Nat.le_of_lt_succ (Nat.lt_of_mul_lt_mul_left hlow))
  have hji := Nat.mul_le_mul_left small (Nat.succ_le_of_lt (Nat.lt_of_mul_lt_mul_left hhigh))
  rw [Nat.mul_succ, Nat.mul_add] at hji
  exact ⟨hij, hji⟩

section
variable {g w k a pos leaf : Nat}

/-- A leaf below an aligned block starts with the bits of the block. -/
theorem reverse_mod_iff (hw : w ≤ g) (ha : 2 ^ (g - w) ∣ a) (hlt : a < 2 ^ g)
    (hleaf : leaf < 2 ^ g) :
    reverseBits g leaf % 2 ^ w = reverseBits g a ↔ a ≤ leaf ∧ leaf < a + 2 ^ (g - w) := by
  rw [mod_eq_reverse_iff_mem _ hw ha hlt, reverseBits_reverseBits, Nat.mod_eq_of_lt hleaf]

/-- In a table behind `w` bits, a leaf and a code of `k` bits meet in the slots of the
code exactly if the leaf is below the code. -/
theorem slot_eq_iff (hwk : w ≤ k) (hk : k ≤ g) (ha : 2 ^ (g - w) ∣ a) (hpos : 2 ^ (g - k) ∣ pos)
    (hpa : a ≤ pos ∧ pos < a + 2 ^ (g - w)) (hla : a ≤ leaf ∧ leaf < a + 2 ^ (g - w))
    (hplt : pos < 2 ^ g) (hllt : leaf < 2 ^ g) :
    (reverseBits g leaf >>> w) % 2 ^ (k - w) = reverseBits g pos >>> w ↔
      pos ≤ leaf ∧ leaf < pos + 2 ^ (g - k) := by
  have hw : w ≤ g := by omega
  have hsame : reverseBits g leaf % 2 ^ w = reverseBits g pos % 2 ^ w :=
    ((reverse_mod_iff hw ha (by omega) hllt).mpr hla).trans
      ((reverse_mod_iff hw ha (by omega) hplt).mpr hpa).symm
  have hpow : 2 ^ k = 2 ^ w * 2 ^ (k - w) := by
    rw [← Nat.pow_add]
    congr 1
    omega
  have hsplit := Nat.div_add_mod (reverseBits g pos) (2 ^ w)
  rw [← reverse_mod_iff hk hpos hplt hllt, hpow, Nat.mod_mul, Nat.shiftRight_eq_div_pow,
    Nat.shiftRight_eq_div_pow, hsame]
  constructor
  · intro h
    rw [h]
    omega
  · intro h
    refine Nat.eq_of_mul_eq_mul_left (Nat.two_pow_pos w) ?_
    omega

end

/-! ## The tables while they are made -/

/-- What the tables stand for: how many tables lie in front of each, its first leaf,
and how many bits it is looked up with. -/
structure TableTree where
  level : Nat → Nat
  start : Nat → Nat
  bits : Nat → Nat

/-- The tree with one more table. -/
def TableTree.put (T : TableTree) (t level start bits : Nat) : TableTree where
  level := Function.update T.level t level
  start := Function.update T.start t start
  bits := Function.update T.bits t bits

/-- `p` for the code `r` of length `k`: it stays behind the last value. -/
def placeOf (c : Nat → Nat) (n k r : Nat) : Nat := min (offset c k + r) n

section
variable (n s : Nat) (d e : List Nat) (v c : Nat → Nat) (l g : Nat) (T : TableTree)

/-- The leaf lies below the table. -/
def Holds (t leaf : Nat) : Prop :=
  T.start t ≤ leaf ∧ leaf < T.start t + 2 ^ (g - l * T.level t)

/-- The slot of the leaf in the table. -/
def slotOf (t leaf : Nat) : Nat := (reverseBits g leaf >>> (l * T.level t)) % 2 ^ T.bits t

/-- What the leaf finds in the table: the entry of the code above the leaf, or the
table with the next bits. -/
inductive Answer (count t leaf : Nat) : Huft → Prop where
  | code {k r p : Nat} {old entry : Huft} (hk : 1 ≤ k) (hg : k ≤ g) (hr : r < c k)
      (hbelow : Below c g k r leaf) (hlevel : l * T.level t < k)
      (hfit : k ≤ l * T.level t + T.bits t)
      (hentry : codeEntry n s d e v old (placeOf c n k r) (k - l * T.level t) = some (entry, p)) :
      Answer count t leaf entry
  | link {next : Nat} (hnext : t < next) (hcount : next < count)
      (hlevel : T.level next = T.level t + 1) (hholds : Holds l g T next leaf)
      (hpos : 0 < T.bits next) (hlookup : T.bits next ≤ l)
      (hbits : l * T.level next + T.bits next ≤ g) (hwide : T.bits t = l) :
      Answer count t leaf ⟨16 + T.bits next, l, .t next⟩

/-- All leaves in front of `pos` are answered. -/
structure Answers (pos : Nat) (tables : HuftTables) : Prop where
  root : tables ≠ [] → T.level 0 = 0 ∧ T.start 0 = 0 ∧ T.bits 0 = l
  answer : ∀ t table, tables[t]? = some table → ∀ leaf < pos, Holds l g T t leaf →
    slotOf l g T t leaf < table.size ∧
      Answer n s d e v c l g T tables.length t leaf (table.entry (slotOf l g T t leaf))

/-- The tables on the stack are those that the counter is in. -/
structure Stacked (pos k : Nat) (st : Builder) : Prop where
  aligned : 2 ^ (g - l * st.depth) ∣ pos
  known : ∀ m < st.depth, st.u m < st.tables.length
  ordered : ∀ m, m + 1 < st.depth → st.u m < st.u (m + 1)
  level : ∀ m < st.depth, T.level (st.u m) = m
  below : ∀ m < st.depth, l * m < k
  holds : ∀ m < st.depth, Holds l g T (st.u m) pos
  start : ∀ m < st.depth, 2 ^ (g - l * m) ∣ T.start (st.u m)
  pattern : ∀ m < st.depth, st.x m = reverseBits g (T.start (st.u m))
  first : st.x 0 = 0
  passed : ∀ t < st.tables.length,
    (∃ m < st.depth, t = st.u m) ∨ T.start t + 2 ^ (g - l * T.level t) ≤ pos
  linked : ∀ m, m + 1 < st.depth → T.bits (st.u m) = l ∧
    ∀ table, st.tables[st.u m]? = some table → table.entry (st.x (m + 1) >>> (l * m)) =
      ⟨16 + T.bits (st.u (m + 1)), l, .t (st.u (m + 1))⟩
  fits : ∀ m < st.depth,
    Fits c l g (l * m) (T.start (st.u m) + 2 ^ (g - l * m)) (T.bits (st.u m))
  slots : ∀ m < st.depth, ∀ table, st.tables[st.u m]? = some table →
    2 ^ T.bits (st.u m) ≤ table.size
  current : k ≤ l * st.depth → st.q = st.u (st.depth - 1) ∧
    ∀ table, st.tables[st.q]? = some table → st.z = table.size

end

end Milo.Zip
