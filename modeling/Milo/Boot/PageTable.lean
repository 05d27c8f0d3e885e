import Milo.Foundation.Words
import Milo.Memory.Sizing

/-! # The page-table builder

`add_VA` maps one page of virtual memory for the kernel. It walks from the L1
page through one L2 and one L3 page, makes the tables that are missing from
pages of `allocate_pfn`, and writes the last entry unless there is one. Memory
is seen as quadwords at their addresses; `ReadQ` and `WriteQ` are its lookup
and update.
-/

namespace Milo.Boot

open Foundation Milo.Memory

/-- What the code relies on from the page-table header of Linux: an entry holds
the frame number in its high half and the protection bits in its low half. -/
structure PteHeader where
  mkPte : Nat → Nat → Nat
  ptePage : Nat → Nat
  valid : Nat
  kre : Nat
  kwe : Nat
  mkPte_eq : ∀ pfn prot, pfn < 2 ^ 29 → prot < 2 ^ 32 →
    mkPte (pfnToPhysical pfn) prot = 2 ^ 32 * pfn + prot
  ptePage_eq : ∀ pfn low, pfn < 2 ^ 29 → low < 2 ^ 32 →
    ptePage (2 ^ 32 * pfn + low) = pfnToPhysical pfn
  valid_pos : 0 < valid
  valid_lt : valid < 2 ^ 32
  kre_lt : kre < 2 ^ 32
  kwe_lt : kwe < 2 ^ 32

/-- The globals of the builder, over the memory it writes to. -/
structure MmState where
  mem : MemState
  quads : Nat → Nat
  ptbr : Nat
  numL2Pages : Nat
  numL3Pages : Nat

/-- The arguments of one call of `add_VA`, `unsigned int`s but for the address. -/
structure VaCall where
  va : Nat
  vpfn : Nat
  protection : Nat
  deriving DecidableEq

section
variable (H : PteHeader)

/-- `build_pte` -/
def buildPte (pfn protection : Nat) : Nat :=
  H.mkPte (pfnToPhysical pfn) protection ||| H.valid

/-- The entry that `add_VA` and `build_mm` write for a table. -/
def tablePte (pfn : Nat) : Nat := buildPte H pfn (H.kwe ||| H.kre)

/-- The loop of `zeropage_phys`. -/
def zeroQuads (quads : Nat → Nat) (pa : Nat) : Nat → Nat → Nat
  | 0 => quads
  | n + 1 => zeroQuads (Function.update quads pa 0) (pa + 8) n

def zeropagePhys (quads : Nat → Nat) (pfn : Nat) : Nat → Nat :=
  zeroQuads quads (pfnToPhysical pfn) (pageSize / 8)

def l2Offset (va : Nat) : Nat := (va &&& 0xff800000) >>> 20
def l3Offset (va : Nat) : Nat := (va &&& 0x007fe000) >>> 10

def countL2 (s : MmState) : MmState := { s with numL2Pages := u32 (s.numL2Pages + 1) }
def countL3 (s : MmState) : MmState := { s with numL3Pages := u32 (s.numL3Pages + 1) }

/-- The L1 and the L2 step: the entry at `pa`, which first gets a zeroed table
if it is empty. -/
def tableAt (count : MmState → MmState) (s : MmState) (pa : Nat) : Option (Nat × MmState) :=
  if s.quads pa = 0 then
    (allocatePfn s.mem allocatedPage).map fun (newpfn, mem) =>
      (tablePte H newpfn,
        count { s with
          mem
          quads := Function.update (zeropagePhys s.quads newpfn) pa (tablePte H newpfn) })
  else some (s.quads pa, s)

/-- The L3 step. -/
def mapAt (s : MmState) (pa : Nat) (c : VaCall) : MmState :=
  if s.quads pa = 0 then
    { s with quads := Function.update s.quads pa (buildPte H (u32 c.vpfn) (u32 c.protection)) }
  else s

/-- The address of an entry, from the entry that leads to its table. -/
def entryAddress (pte offset : Nat) : Nat :=
  pfnToPhysical (physicalToPfn (H.ptePage pte)) + offset

/-- `add_VA`; `none` when `allocate_pfn` ends in `error()`. -/
def addVA (s : MmState) (c : VaCall) : Option MmState :=
  (tableAt H countL2 s (pfnToPhysical s.ptbr)).bind fun (l1, s) =>
    (tableAt H countL3 s (entryAddress H l1 (l2Offset c.va))).map fun (l2, s) =>
      mapAt H s (entryAddress H l2 (l3Offset c.va)) c

/-- `SWAPPER_PGD`, the first page of the kernel. -/
def swapperPgd : Nat := kernelStart

/-- `build_mm` -/
def buildMm (s : MmState) : MmState :=
  let ptbr := physicalToPfn swapperPgd
  { s with
    ptbr
    quads := Function.update (zeropagePhys s.quads ptbr) (pfnToPhysical ptbr + 8 * 0x3ff)
      (tablePte H ptbr) }

/-! ## The walk -/

/-- The nonempty entries that a walk for `va` meets, from L1 on. -/
def walkEntries (s : MmState) (va : Nat) : List Nat :=
  let l1 := s.quads (pfnToPhysical s.ptbr)
  if l1 = 0 then [] else
    let l2 := s.quads (entryAddress H l1 (l2Offset va))
    if l2 = 0 then [l1] else
      let l3 := s.quads (entryAddress H l2 (l3Offset va))
      if l3 = 0 then [l1, l2] else [l1, l2, l3]

/-- The frame number and the protection that `va` translates to. -/
def walk (s : MmState) (va : Nat) : Option (Nat × Nat) :=
  (walkEntries H s va)[2]?.map fun pte => (pte >>> 32, pte % 2 ^ 32)

/-! ## Entries -/

theorem or_lt {a b : Nat} (ha : a < 2 ^ 32) (hb : b < 2 ^ 32) : a ||| b < 2 ^ 32 :=
  Nat.or_lt_two_pow ha hb

/-- An address in the segment has room for 29 bits of frame number. -/
theorem pfnToPhysical_mod (pfn : Nat) (h : pfn < 2 ^ 32) :
    pfnToPhysical pfn = pfnToPhysical (pfn % 2 ^ 29) := by
  rw [pfnToPhysical_eq (Nat.mod_lt _ (by decide)), pfnToPhysical_segment h]
  omega

theorem buildPte_eq {pfn protection : Nat} (hpfn : pfn < 2 ^ 32) (hprot : protection < 2 ^ 32) :
    buildPte H pfn protection = 2 ^ 32 * (pfn % 2 ^ 29) + (protection ||| H.valid) := by
  have hmod : pfn % 2 ^ 29 < 2 ^ 29 := Nat.mod_lt _ (by decide)
  rw [buildPte, pfnToPhysical_mod pfn hpfn, H.mkPte_eq _ _ hmod hprot,
    Nat.two_pow_add_eq_or_of_lt hprot, Nat.or_assoc,
    ← Nat.two_pow_add_eq_or_of_lt (or_lt hprot H.valid_lt)]

theorem buildPte_ne_zero {pfn protection : Nat} (hpfn : pfn < 2 ^ 32) (hprot : protection < 2 ^ 32) :
    buildPte H pfn protection ≠ 0 := by
  have hvalid : H.valid ≤ protection ||| H.valid := Nat.right_le_or
  have hpos := H.valid_pos
  rw [buildPte_eq H hpfn hprot]
  omega

theorem tablePte_ne_zero {pfn : Nat} (h : pfn < 2 ^ 29) : tablePte H pfn ≠ 0 :=
  buildPte_ne_zero H (by omega) (or_lt H.kwe_lt H.kre_lt)

theorem entryAddress_tablePte {pfn : Nat} (offset : Nat) (h : pfn < 2 ^ 29) :
    entryAddress H (tablePte H pfn) offset = pfnToPhysical pfn + offset := by
  rw [entryAddress, tablePte, buildPte_eq H (by omega) (or_lt H.kwe_lt H.kre_lt),
    Nat.mod_eq_of_lt h, H.ptePage_eq _ _ h (or_lt (or_lt H.kwe_lt H.kre_lt) H.valid_lt),
    physicalToPfn_pfnToPhysical h]

end

/-! ## Entries of a page -/

/-- Entry `i` of the page `pfn`. -/
def MmState.slot (s : MmState) (pfn i : Nat) : Nat := s.quads (pfnToPhysical pfn + 8 * i)

def l2Index (va : Nat) : Nat := va / 2 ^ 23 % 2 ^ 9
def l3Index (va : Nat) : Nat := va / 2 ^ 13 % 2 ^ 10

theorem l2Offset_eq (va : Nat) : l2Offset va = 8 * l2Index va := by
  rw [l2Offset, show 0xff800000 = (2 ^ 9 - 1) * 2 ^ 23 by decide, and_field_eq,
    Nat.shiftRight_eq_div_pow, l2Index]
  omega

theorem l3Offset_eq (va : Nat) : l3Offset va = 8 * l3Index va := by
  rw [l3Offset, show 0x007fe000 = (2 ^ 10 - 1) * 2 ^ 13 by decide, and_field_eq,
    Nat.shiftRight_eq_div_pow, l3Index]
  omega

theorem slot_address_inj {p q i j : Nat} (hp : p < 2 ^ 29) (hq : q < 2 ^ 29) (hi : i < 1024)
    (hj : j < 1024) : pfnToPhysical p + 8 * i = pfnToPhysical q + 8 * j ↔ p = q ∧ i = j := by
  rw [pfnToPhysical_eq hp, pfnToPhysical_eq hq]
  omega

theorem zeroQuads_apply (quads : Nat → Nat) (pa n a : Nat) :
    zeroQuads quads pa n a = if ∃ i < n, a = pa + 8 * i then 0 else quads a := by
  induction n generalizing quads pa with
  | zero => simp [zeroQuads]
  | succ n ih =>
      rw [zeroQuads, ih]
      by_cases hin : ∃ i < n, a = pa + 8 + 8 * i
      · obtain ⟨i, hi, ha⟩ := hin
        rw [if_pos ⟨i, hi, ha⟩, if_pos ⟨i + 1, by omega, by omega⟩]
      · rw [if_neg hin]
        by_cases ha : a = pa
        · rw [ha, Function.update_self, if_pos ⟨0, by omega, by omega⟩]
        · rw [Function.update_of_ne ha, if_neg]
          rintro ⟨i, hi, hai⟩
          exact hin ⟨i - 1, by omega, by omega⟩

theorem zeropagePhys_slot (quads : Nat → Nat) {p q i : Nat} (hp : p < 2 ^ 29) (hq : q < 2 ^ 29)
    (hi : i < 1024) :
    zeropagePhys quads q (pfnToPhysical p + 8 * i) =
      if p = q then 0 else quads (pfnToPhysical p + 8 * i) := by
  rw [zeropagePhys, zeroQuads_apply]
  congr 1
  apply propext
  constructor
  · rintro ⟨j, hj, heq⟩
    exact ((slot_address_inj hp hq hi hj).mp heq).1
  · rintro rfl
    exact ⟨i, hi, rfl⟩

end Milo.Boot
