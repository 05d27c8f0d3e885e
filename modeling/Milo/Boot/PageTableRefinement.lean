import Milo.Boot.PageTable
import Milo.Foundation.FirstInsert
import Milo.Foundation.Transition

/-! # Page tables as a finite map

The tables that `add_VA` builds stand for a map from virtual pages to the call
that mapped them first. The invariant names the page that each table lives in:
the pages are apart from each other and never free, so a table taken from
`allocate_pfn` cannot be one that is already in use.
-/

namespace Milo.Boot

open Foundation Milo.Memory

/-! ## The tables -/

/-- The tables of the tree: one L1, one L2, and an L3 for each entry of L2. -/
inductive Table where
  | l1
  | l2
  | l3 (i : Nat)
  deriving DecidableEq

/-- The table that an entry leads to. -/
def Table.child : Table → Nat → Option Table
  | .l1, i => if i = 0 then some .l2 else none
  | .l2, i => some (.l3 i)
  | .l3 _, _ => none

/-- The entry that leads to a table. -/
def Table.parent : Table → Option (Table × Nat)
  | .l1 => none
  | .l2 => some (.l1, 0)
  | .l3 i => some (.l2, i)

theorem Table.parent_of_child {n c : Table} {i : Nat} (h : n.child i = some c) :
    c.parent = some (n, i) := by
  cases n with
  | l1 =>
      obtain ⟨rfl, rfl⟩ : i = 0 ∧ Table.l2 = c := by simpa [Table.child] using h
      rfl
  | l2 =>
      obtain rfl := Option.some.inj h
      rfl
  | l3 => cases h

theorem Table.child_inj {n n' c : Table} {i i' : Nat} (h : n.child i = some c)
    (h' : n'.child i' = some c) : n = n' ∧ i = i' := by
  have hsame := (Table.parent_of_child h).symm.trans (Table.parent_of_child h')
  exact Prod.mk.inj (Option.some.inj hsame)

/-- The page of each table that exists. -/
abbrev Placement := Table → Option Nat

/-- The page number of an address, and of the address of a call. -/
def vpage (va : Nat) : Nat := va / 2 ^ 13 % 2 ^ 19

def VaCall.vpage (c : VaCall) : Nat := Boot.vpage c.va

theorem vpage_eq (va : Nat) : vpage va = 1024 * l2Index va + l3Index va := by
  simp only [vpage, l2Index, l3Index]
  omega

def l1Pfn : Nat := physicalToPfn swapperPgd

theorem l1Pfn_lt : l1Pfn < 2 ^ 29 := physicalToPfn_lt _

section
variable (H : PteHeader)

def tableEntry : Option Nat → Nat
  | none => 0
  | some pfn => tablePte H pfn

def leafPte (c : VaCall) : Nat := buildPte H (u32 c.vpfn) (u32 c.protection)

def leafEntry : Option VaCall → Nat
  | none => 0
  | some c => leafPte H c

/-- Entries that lead to no table: the self-map of L1 and the mappings of L3. -/
def ownEntry (m : Nat → Option VaCall) : Table → Nat → Nat
  | .l1, i => if i = 0x3ff then tablePte H l1Pfn else 0
  | .l2, _ => 0
  | .l3 i, j => leafEntry H (m (1024 * i + j))

/-- The entry that stands for a placement and a map. -/
def expected (t : Placement) (m : Nat → Option VaCall) (n : Table) (i : Nat) : Nat :=
  match n.child i with
  | some c => tableEntry H (t c)
  | none => ownEntry H m n i

/-- The state holds the tables of the placement, filled for the map. -/
structure Represents (s : MmState) (t : Placement) (m : Nat → Option VaCall) : Prop where
  ptbr_eq : s.ptbr = l1Pfn
  lastpfn_lt : s.mem.lastpfn < 2 ^ 29
  root : t .l1 = some l1Pfn
  used : ∀ n p, t n = some p → p < 2 ^ 29 ∧ s.mem.memoryMap p ≠ freePage
  apart : ∀ n n' p, t n = some p → t n' = some p → n = n'
  closed : ∀ n i c, n.child i = some c → t n = none → t c = none
  unmapped : ∀ i j, j < 1024 → t (.l3 i) = none → m (1024 * i + j) = none
  content : ∀ n p, t n = some p → ∀ i < 1024, s.slot p i = expected H t m n i

variable {H}

theorem leafPte_ne_zero (c : VaCall) : leafPte H c ≠ 0 :=
  buildPte_ne_zero H (u32_lt _) (u32_lt _)

/-- `build_mm` leaves an L1 page with nothing but its self-map entry. -/
theorem buildMm_represents {s : MmState} (hlast : s.mem.lastpfn < 2 ^ 29)
    (hroot : s.mem.memoryMap l1Pfn ≠ freePage) :
    Represents H (buildMm H s) (Function.update (fun _ => none) .l1 (some l1Pfn))
      (fun _ => none) where
  ptbr_eq := rfl
  lastpfn_lt := hlast
  root := Function.update_self _ _ _
  used := by
    intro n p hn
    obtain ⟨rfl, rfl⟩ : n = .l1 ∧ l1Pfn = p := by simpa [Function.update_apply] using hn
    exact ⟨l1Pfn_lt, hroot⟩
  apart := by
    intro n n' p hn hn'
    have h : n = .l1 ∧ l1Pfn = p := by simpa [Function.update_apply] using hn
    have h' : n' = .l1 ∧ l1Pfn = p := by simpa [Function.update_apply] using hn'
    rw [h.1, h'.1]
  closed := by
    intro n i c hc hn
    cases n with
    | l1 => simp at hn
    | l2 =>
        obtain rfl := Option.some.inj hc
        simp
    | l3 => cases hc
  unmapped := fun _ _ _ _ => rfl
  content := by
    intro n p hn i hi
    obtain ⟨rfl, rfl⟩ : n = .l1 ∧ l1Pfn = p := by simpa [Function.update_apply] using hn
    have hslot : (buildMm H s).slot l1Pfn i = if i = 0x3ff then tablePte H l1Pfn else 0 := by
      show Function.update (zeropagePhys s.quads l1Pfn) (pfnToPhysical l1Pfn + 8 * 0x3ff)
        (tablePte H l1Pfn) (pfnToPhysical l1Pfn + 8 * i) = _
      by_cases he : i = 0x3ff
      · rw [he, Function.update_self, if_pos rfl]
      · rw [Function.update_of_ne (by omega), zeropagePhys_slot _ l1Pfn_lt l1Pfn_lt hi, if_pos rfl,
          if_neg he]
    rw [hslot]
    by_cases h0 : i = 0
    · simp [expected, Table.child, h0, tableEntry]
    · simp [expected, Table.child, h0, ownEntry]

/-! ## A new table -/

theorem expected_update {t : Placement} {m : Nat → Option VaCall} {n c : Table} {i q : Nat}
    (hc : n.child i = some c) (n' : Table) (i' : Nat) :
    expected H (Function.update t c (some q)) m n' i' =
      if n' = n ∧ i' = i then tablePte H q else expected H t m n' i' := by
  unfold expected
  by_cases hsame : n' = n ∧ i' = i
  · obtain ⟨rfl, rfl⟩ := hsame
    simp [hc, tableEntry]
  · rw [if_neg hsame]
    cases hc' : n'.child i' with
    | none => rfl
    | some c' =>
        have hne : c' ≠ c := by
          rintro rfl
          exact hsame (Table.child_inj hc' hc)
        simp only [Function.update_of_ne hne]

/-- A table that does not exist yet is empty. -/
theorem Represents.expected_absent {s : MmState} {t : Placement} {m : Nat → Option VaCall}
    (h : Represents H s t m) {c : Table} (hc : t c = none) {i : Nat} (hi : i < 1024) :
    expected H t m c i = 0 := by
  unfold expected
  cases hchild : c.child i with
  | some c' => simp [h.closed c i c' hchild hc, tableEntry]
  | none =>
      cases c with
      | l1 => simp [h.root] at hc
      | l2 => cases hchild
      | l3 k => simp [ownEntry, h.unmapped k i hi hc, leafEntry]

/-- A free page becomes the table behind an empty entry. -/
theorem Represents.newTable {s s' : MmState} {t : Placement} {m : Nat → Option VaCall}
    (h : Represents H s t m) {n c : Table} {i p q : Nat} (hn : t n = some p) (hi : i < 1024)
    (hc : n.child i = some c) (habsent : t c = none) (hq : q < 2 ^ 29)
    (hfree : s.mem.memoryMap q = freePage) (hptbr : s'.ptbr = s.ptbr)
    (hmem : s'.mem = { s.mem with memoryMap := Function.update s.mem.memoryMap q allocatedPage })
    (hquads : s'.quads = Function.update (zeropagePhys s.quads q) (pfnToPhysical p + 8 * i)
      (tablePte H q)) :
    Represents H s' (Function.update t c (some q)) m := by
  have hfresh : ∀ k r, t k = some r → r ≠ q := by
    rintro k r hk rfl
    exact (h.used k r hk).2 hfree
  have hplaced : ∀ k r, Function.update t c (some q) k = some r →
      (k = c ∧ r = q) ∨ (k ≠ c ∧ t k = some r) := by
    intro k r hk
    by_cases hkc : k = c
    · rw [hkc, Function.update_self] at hk
      exact Or.inl ⟨hkc, (Option.some.inj hk).symm⟩
    · rw [Function.update_of_ne hkc] at hk
      exact Or.inr ⟨hkc, hk⟩
  have hp := (h.used n p hn).1
  have hslot : ∀ r j, r < 2 ^ 29 → j < 1024 → s'.slot r j =
      if r = p ∧ j = i then tablePte H q else if r = q then 0 else s.slot r j := by
    intro r j hr hj
    rw [MmState.slot, hquads]
    by_cases hsame : r = p ∧ j = i
    · rw [hsame.1, hsame.2, Function.update_self, if_pos ⟨rfl, rfl⟩]
    · have hne : pfnToPhysical r + 8 * j ≠ pfnToPhysical p + 8 * i :=
        fun he => hsame ((slot_address_inj hr hp hj hi).mp he)
      rw [Function.update_of_ne hne, zeropagePhys_slot _ hr hq hj, if_neg hsame]
      rfl
  constructor
  · exact hptbr.trans h.ptbr_eq
  · simpa only [hmem] using h.lastpfn_lt
  · have hne : (.l1 : Table) ≠ c := by
      rintro rfl
      simp [h.root] at habsent
    rw [Function.update_of_ne hne, h.root]
  · intro k r hk
    simp only [hmem]
    rcases hplaced k r hk with ⟨_, rfl⟩ | ⟨_, hk⟩
    · exact ⟨hq, by simp [allocatedPage, freePage]⟩
    · rw [Function.update_of_ne (hfresh k r hk)]
      exact h.used k r hk
  · intro k k' r hk hk'
    rcases hplaced k r hk with ⟨rfl, hr⟩ | ⟨_, hold⟩ <;>
      rcases hplaced k' r hk' with ⟨rfl, hr'⟩ | ⟨_, hold'⟩
    · rfl
    · exact absurd hr (hfresh k' r hold')
    · exact absurd hr' (hfresh k r hold)
    · exact h.apart k k' r hold hold'
  · intro k j d hd hk
    by_cases hkc : k = c
    · simp [hkc] at hk
    · rw [Function.update_of_ne hkc] at hk
      have hdc : d ≠ c := by
        rintro rfl
        rw [(Table.child_inj hd hc).1, hn] at hk
        cases hk
      rw [Function.update_of_ne hdc]
      exact h.closed k j d hd hk
  · intro k j hj hk
    by_cases hkc : Table.l3 k = c
    · simp [hkc] at hk
    · rw [Function.update_of_ne hkc] at hk
      exact h.unmapped k j hj hk
  · intro k r hk j hj
    rw [expected_update hc]
    rcases hplaced k r hk with ⟨rfl, rfl⟩ | ⟨hkc, hk⟩
    · -- the new table is not its own parent, and it is empty
      have hkn : k ≠ n := by
        rintro rfl
        rw [hn] at habsent
        cases habsent
      rw [hslot _ _ hq hj, if_neg (fun he => hfresh n p hn he.1.symm), if_pos rfl,
        if_neg (fun he => hkn he.1), h.expected_absent habsent hj]
    · rw [hslot _ _ (h.used k r hk).1 hj]
      by_cases hkn : k = n
      · subst hkn
        obtain rfl : p = r := Option.some.inj (hn.symm.trans hk)
        rw [if_neg (hfresh k p hk), h.content k p hk j hj]
        simp only [true_and]
      · have hrp : r ≠ p := by
          rintro rfl
          exact hkn (h.apart k n r hk hn)
        rw [if_neg (fun he => hrp he.1), if_neg (hfresh k r hk), if_neg (fun he => hkn he.1),
          h.content k r hk j hj]

/-- Tables stay where they are. -/
def Placement.le (t t' : Placement) : Prop := ∀ n p, t n = some p → t' n = some p

theorem Represents.entry_table {s : MmState} {t : Placement} {m : Nat → Option VaCall}
    (h : Represents H s t m) {n c : Table} {i p : Nat} (hn : t n = some p) (hi : i < 1024)
    (hc : n.child i = some c) : s.slot p i = tableEntry H (t c) := by
  rw [h.content n p hn i hi, expected, hc]

theorem Represents.tableAt {s s' : MmState} {t : Placement} {m : Nat → Option VaCall}
    (h : Represents H s t m) {n c : Table} {i p pte : Nat} (count : MmState → MmState)
    (hcount : ∀ u, (count u).ptbr = u.ptbr ∧ (count u).mem = u.mem ∧ (count u).quads = u.quads)
    (hn : t n = some p) (hi : i < 1024) (hc : n.child i = some c)
    (hstep : tableAt H count s (pfnToPhysical p + 8 * i) = some (pte, s')) :
    ∃ t' q, t.le t' ∧ t' c = some q ∧ q < 2 ^ 29 ∧ pte = tablePte H q ∧ Represents H s' t' m := by
  have hentry := h.entry_table hn hi hc
  rw [MmState.slot] at hentry
  unfold Boot.tableAt at hstep
  cases hold : t c with
  | some q =>
      have hq := (h.used c q hold).1
      rw [hold, tableEntry] at hentry
      rw [if_neg (by rw [hentry]; exact tablePte_ne_zero H hq), hentry, Option.some.injEq,
        Prod.mk.injEq] at hstep
      obtain ⟨rfl, rfl⟩ := hstep
      exact ⟨t, q, fun _ _ hp => hp, hold, hq, rfl, h⟩
  | none =>
      rw [hold, tableEntry] at hentry
      rw [if_pos hentry, Option.map_eq_some_iff] at hstep
      obtain ⟨⟨q, mem⟩, halloc, hmade⟩ := hstep
      obtain ⟨hle, hfree, rfl⟩ := allocatePfn_spec h.lastpfn_lt halloc
      obtain ⟨rfl, rfl⟩ := Prod.mk.inj hmade
      have hlast := h.lastpfn_lt
      have hq : q < 2 ^ 29 := by omega
      obtain ⟨hptbr, hmem, hquads⟩ := hcount
        { s with
          mem := { s.mem with memoryMap := Function.update s.mem.memoryMap q allocatedPage }
          quads := Function.update (zeropagePhys s.quads q) (pfnToPhysical p + 8 * i)
            (tablePte H q) }
      refine ⟨Function.update t c (some q), q, ?_, Function.update_self _ _ _, hq, rfl,
        h.newTable hn hi hc hold hq hfree hptbr hmem hquads⟩
      intro k r hk
      rw [Function.update_of_ne ?_]
      · exact hk
      · rintro rfl
        rw [hold] at hk
        cases hk

/-! ## A new mapping -/

theorem Represents.mapAt {s : MmState} {t : Placement} {m : Nat → Option VaCall}
    (h : Represents H s t m) {i j q : Nat} (hq : t (.l3 i) = some q) (hj : j < 1024) (c : VaCall) :
    Represents H (mapAt H s (pfnToPhysical q + 8 * j) c) t
      (insertIfAbsent m (1024 * i + j) c) := by
  have hlt := (h.used _ q hq).1
  have hentry : s.quads (pfnToPhysical q + 8 * j) = leafEntry H (m (1024 * i + j)) :=
    h.content (.l3 i) q hq j hj
  unfold Boot.mapAt
  cases hold : m (1024 * i + j) with
  | some old =>
      rw [hold, leafEntry] at hentry
      rw [insertIfAbsent_present c hold, if_neg (by rw [hentry]; exact leafPte_ne_zero old)]
      exact h
  | none =>
      rw [hold, leafEntry] at hentry
      rw [insertIfAbsent_absent c hold, if_pos hentry]
      refine ⟨h.ptbr_eq, h.lastpfn_lt, h.root, h.used, h.apart, h.closed, ?_, ?_⟩
      · intro i' j' hj' habsent
        have hne : 1024 * i' + j' ≠ 1024 * i + j := by
          intro he
          obtain rfl : i' = i := by omega
          rw [hq] at habsent
          cases habsent
        rw [Function.update_of_ne hne]
        exact h.unmapped i' j' hj' habsent
      · intro n p hn k hk
        have hkeep := h.content n p hn k hk
        have hp := (h.used n p hn).1
        rw [MmState.slot]
        dsimp only
        by_cases hsame : p = q ∧ k = j
        · obtain ⟨rfl, rfl⟩ := hsame
          obtain rfl := h.apart n _ p hn hq
          rw [Function.update_self]
          simp [expected, Table.child, ownEntry, leafEntry, leafPte]
        · have hne : pfnToPhysical p + 8 * k ≠ pfnToPhysical q + 8 * j :=
            fun he => hsame ((slot_address_inj hp hlt hk hj).mp he)
          rw [Function.update_of_ne hne]
          rw [MmState.slot] at hkeep
          rw [hkeep]
          cases n with
          | l1 => rfl
          | l2 => rfl
          | l3 i' =>
              have hkey : 1024 * i' + k ≠ 1024 * i + j := by
                intro he
                obtain rfl : i' = i := by omega
                rw [hq] at hn
                exact hsame ⟨(Option.some.inj hn).symm, by omega⟩
              simp [expected, Table.child, ownEntry, Function.update_of_ne hkey]

/-! ## One call -/

theorem addVA_represents {s s' : MmState} {t : Placement} {m : Nat → Option VaCall} {c : VaCall}
    (h : Represents H s t m) (hstep : addVA H s c = some s') :
    ∃ t', t.le t' ∧ Represents H s' t' (insertIfAbsent m c.vpage c) := by
  simp only [addVA, Option.bind_eq_some_iff, Option.map_eq_some_iff, Prod.exists] at hstep
  obtain ⟨l1, s₁, hl1, l2, s₂, hl2, rfl⟩ := hstep
  have hi : l2Index c.va < 1024 := by
    unfold l2Index
    omega
  have hj : l3Index c.va < 1024 := Nat.mod_lt _ (by decide)
  rw [h.ptbr_eq] at hl1
  obtain ⟨t₁, p, hle₁, hp, hplt, rfl, h₁⟩ :=
    h.tableAt (i := 0) countL2 (fun _ => ⟨rfl, rfl, rfl⟩) h.root (by decide) rfl hl1
  rw [entryAddress_tablePte H _ hplt, l2Offset_eq] at hl2
  obtain ⟨t₂, q, hle₂, hq, hqlt, rfl, h₂⟩ :=
    h₁.tableAt countL3 (fun _ => ⟨rfl, rfl, rfl⟩) hp hi rfl hl2
  refine ⟨t₂, fun n r hn => hle₂ n r (hle₁ n r hn), ?_⟩
  rw [entryAddress_tablePte H _ hqlt, l3Offset_eq, VaCall.vpage, vpage_eq]
  exact h₂.mapAt hq hj c

/-! ## The walk -/

/-- The entries of a walk, read off the placement and the map. -/
def path (H : PteHeader) (t : Placement) (m : Nat → Option VaCall) (va : Nat) : List Nat :=
  match t .l2, t (.l3 (l2Index va)), m (vpage va) with
  | none, _, _ => []
  | some p, none, _ => [tablePte H p]
  | some p, some q, none => [tablePte H p, tablePte H q]
  | some p, some q, some c => [tablePte H p, tablePte H q, leafPte H c]

theorem Represents.walkEntries_eq {s : MmState} {t : Placement} {m : Nat → Option VaCall}
    (h : Represents H s t m) (va : Nat) : walkEntries H s va = path H t m va := by
  have hi : l2Index va < 1024 := by
    unfold l2Index
    omega
  have hj : l3Index va < 1024 := Nat.mod_lt _ (by decide)
  have hl1 : s.quads (pfnToPhysical s.ptbr) = tableEntry H (t .l2) := by
    rw [h.ptbr_eq]
    exact h.entry_table (i := 0) h.root (by decide) rfl
  unfold walkEntries path
  cases hp : t .l2 with
  | none => simp [hl1, hp, tableEntry]
  | some p =>
      have hplt := (h.used _ p hp).1
      have hl2 : s.quads (pfnToPhysical p + 8 * l2Index va) = tableEntry H (t (.l3 (l2Index va))) :=
        h.entry_table hp hi rfl
      simp only [hl1, hp, tableEntry, tablePte_ne_zero H hplt, if_false,
        entryAddress_tablePte H _ hplt, l2Offset_eq]
      cases hq : t (.l3 (l2Index va)) with
      | none => simp [hl2, hq, tableEntry]
      | some q =>
          have hqlt := (h.used _ q hq).1
          have hl3 : s.quads (pfnToPhysical q + 8 * l3Index va) = leafEntry H (m (vpage va)) := by
            rw [vpage_eq]
            exact h.content _ q hq _ hj
          simp only [hl2, hq, tableEntry, tablePte_ne_zero H hqlt, if_false,
            entryAddress_tablePte H _ hqlt, l3Offset_eq, hl3]
          cases m (vpage va) with
          | none => simp [leafEntry]
          | some c => simp [leafEntry, leafPte_ne_zero]

theorem path_prefix {t t' : Placement} {m m' : Nat → Option VaCall} (hle : t.le t')
    (hm : ∀ k c, m k = some c → m' k = some c) (va : Nat) : path H t m va <+: path H t' m' va := by
  unfold path
  cases hp : t .l2 with
  | none => exact List.nil_prefix
  | some p =>
      rw [hle _ p hp]
      cases hq : t (.l3 (l2Index va)) with
      | none =>
          cases t' (.l3 (l2Index va)) with
          | none => exact List.prefix_rfl
          | some _ => cases m' (vpage va) <;> simp
      | some q =>
          rw [hle _ q hq]
          cases hc : m (vpage va) with
          | none => cases m' (vpage va) <;> simp
          | some c => simp [hm _ c hc]

/-- What a call translates its page to: the frame number cut to the 29 bits an
address in the segment holds, and the protection with the valid bit. -/
def translation (H : PteHeader) (c : VaCall) : Nat × Nat :=
  (u32 c.vpfn % 2 ^ 29, u32 c.protection ||| H.valid)

theorem leafPte_decode (c : VaCall) :
    (leafPte H c >>> 32, leafPte H c % 2 ^ 32) = translation H c := by
  have hlow := or_lt (u32_lt c.protection) H.valid_lt
  rw [leafPte, buildPte_eq H (u32_lt _) (u32_lt _), Nat.shiftRight_eq_div_pow, translation,
    Prod.mk.injEq]
  omega

theorem Represents.walk_eq {s : MmState} {t : Placement} {m : Nat → Option VaCall}
    (h : Represents H s t m) (va : Nat) : walk H s va = (m (vpage va)).map (translation H) := by
  have hj : l3Index va < 1024 := Nat.mod_lt _ (by decide)
  rw [walk, h.walkEntries_eq, path]
  cases hc : m (vpage va) with
  | none => cases t .l2 <;> cases t (.l3 (l2Index va)) <;> simp
  | some c =>
      cases hq : t (.l3 (l2Index va)) with
      | none =>
          rw [vpage_eq, h.unmapped _ _ hj hq] at hc
          cases hc
      | some q =>
          cases hp : t .l2 with
          | none =>
              rw [h.closed .l2 _ _ rfl hp] at hq
              cases hq
          | some p => simpa using leafPte_decode c

end

/-! ## Runs -/

/-- After any calls the walk finds what the first call for each page asked for,
the self-map entry is as `build_mm` left it, and one more call only ever adds
entries to a walk. -/
theorem addVA_run_walk (H : PteHeader) (s₀ : MmState) (calls : List VaCall) (s : MmState)
    (hlast : s₀.mem.lastpfn < 2 ^ 29) (hroot : s₀.mem.memoryMap l1Pfn ≠ freePage)
    (hrun : run (addVA H) (buildMm H s₀) calls = some s) :
    (∀ va, walk H s va = (firstEntry VaCall.vpage calls (vpage va)).map (translation H)) ∧
      s.slot l1Pfn 0x3ff = (buildMm H s₀).slot l1Pfn 0x3ff ∧
      ∀ c s', addVA H s c = some s' → ∀ va, walkEntries H s va <+: walkEntries H s' va := by
  have hboot := buildMm_represents (H := H) hlast hroot
  obtain ⟨t, ht⟩ := run_simulates (R := fun s m => ∃ t, Represents H s t m)
    (fun _ _ _ _ hR _ hstep => by
      obtain ⟨t, ht⟩ := hR
      obtain ⟨t', _, ht'⟩ := addVA_represents ht hstep
      exact ⟨t', ht'⟩) ⟨_, hboot⟩ (stepsMeet_true _ _) hrun
  refine ⟨?_, ?_, ?_⟩
  · intro va
    rw [ht.walk_eq, foldl_insertIfAbsent, Option.none_or]
  · rw [ht.content _ _ ht.root _ (by decide), hboot.content _ _ hboot.root _ (by decide)]
    rfl
  · intro c s' hstep va
    obtain ⟨t', hle, ht'⟩ := addVA_represents ht hstep
    rw [ht.walkEntries_eq, ht'.walkEntries_eq]
    exact path_prefix hle (fun k d hd => insertIfAbsent_keeps hd) va

theorem linuxPte_mkPte (pfn prot : Nat) (hpfn : pfn < 2 ^ 29) (hprot : prot < 2 ^ 32) :
    u64 (sub64 (pfnToPhysical pfn) pageOffset <<< 19) ||| prot = 2 ^ 32 * pfn + prot := by
  have hpage : u64 (sub64 (pfnToPhysical pfn) pageOffset <<< 19) = 2 ^ 32 * pfn := by
    rw [pfnToPhysical_eq hpfn, sub64_of_le (by simp only [pageOffset]; omega) (by omega),
      Nat.shiftLeft_eq, u64_of_lt (by omega)]
    omega
  rw [hpage, ← Nat.two_pow_add_eq_or_of_lt hprot]

theorem linuxPte_ptePage (pfn low : Nat) (hpfn : pfn < 2 ^ 29) (hlow : low < 2 ^ 32) :
    pageOffset + ((2 ^ 32 * pfn + low) &&& 0xffffffff00000000) >>> 19 = pfnToPhysical pfn := by
  rw [pfnToPhysical_eq hpfn, show 0xffffffff00000000 = (2 ^ 32 - 1) * 2 ^ 32 by decide,
    and_field_eq, Nat.shiftRight_eq_div_pow]
  omega

/-- The header of Linux 2.2. -/
def linuxPte : PteHeader where
  mkPte page prot := u64 (sub64 page pageOffset <<< 19) ||| prot
  ptePage pte := pageOffset + (pte &&& 0xffffffff00000000) >>> 19
  valid := 0x0001
  kre := 0x0100
  kwe := 0x1000
  mkPte_eq := linuxPte_mkPte
  ptePage_eq := linuxPte_ptePage
  valid_pos := by decide
  valid_lt := by decide
  kre_lt := by decide
  kwe_lt := by decide

/-- A 16 Mb machine in which only the L1 page is taken. -/
def emptyMachine : MmState where
  mem :=
    { memoryMap := fun page => if page = l1Pfn then allocatedPage else freePage
      mapAt := 0
      lastpfn := 2047
      memorySize := miloMinMemorySize
      tempMemoryPtr := 0
      rebootMemorySize := none }
  quads := fun _ => 0
  ptbr := 0
  numL2Pages := 0
  numL3Pages := 0

theorem addVA_run_walk_two :
    ∃ s, run (addVA linuxPte) (buildMm linuxPte emptyMachine)
        [⟨0x20000000, 7, 0x100⟩, ⟨0x20001fff, 9, 0x1100⟩] = some s ∧
      walk linuxPte s 0x20000abc = some (7, 0x101) := by
  have hruns : (run (addVA linuxPte) (buildMm linuxPte emptyMachine)
      [⟨0x20000000, 7, 0x100⟩, ⟨0x20001fff, 9, 0x1100⟩]).isSome = true := by decide +kernel
  obtain ⟨s, hs⟩ := Option.isSome_iff_exists.mp hruns
  have hwalk := (addVA_run_walk linuxPte emptyMachine _ s (by decide) (by decide) hs).1 0x20000abc
  exact ⟨s, hs, hwalk.trans (by decide)⟩

/-- A frame number past the segment loses its high bits on the way into the entry. -/
theorem addVA_cuts_frame_number :
    ∃ s, run (addVA linuxPte) (buildMm linuxPte emptyMachine) [⟨0, 2 ^ 29, 0x100⟩] = some s ∧
      walk linuxPte s 0 = some (0, 0x101) ∧
      walk linuxPte s 0 ≠ some (2 ^ 29, 0x100 ||| linuxPte.valid) := by
  have hrun : (run (addVA linuxPte) (buildMm linuxPte emptyMachine) [⟨0, 2 ^ 29, 0x100⟩]).map
      (fun s => walk linuxPte s 0) = some (some (0, 0x101)) := by decide +kernel
  obtain ⟨s, hs, hwalk⟩ := Option.map_eq_some_iff.mp hrun
  refine ⟨s, hs, hwalk, ?_⟩
  rw [hwalk]
  decide

end Milo.Boot
