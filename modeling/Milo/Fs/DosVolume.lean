import Mathlib.Data.Finset.Card
import Mathlib.Order.Interval.Finset.Nat
import Mathlib.Tactic.Ring
import Milo.Foundation.LinkChain
import Milo.Fs.Dos

/-! # FAT volumes

What the boot sector of a FAT volume says about the place of its parts, in
numbers without bounds, and the chain of clusters of a file. On a volume whose
data area starts early enough the mounted super block says the same.
-/

namespace Milo.Fs.Dos

open Foundation

namespace BootSector

variable (b : BootSector)

/-- Device sectors for each sector of the volume. -/
def sectorMult : Nat := b.sectorSize / 512

def rootSectors : Nat := (b.dirEntries * 32 + b.sectorSize - 1) / b.sectorSize

/-- The sectors of the volume before its first cluster. -/
def systemSectors : Nat := b.reserved + b.fats * b.fatLength + b.rootSectors

def totalSectors : Nat := if b.sectors ≠ 0 then b.sectors else b.totalSect

def clusterCount : Nat := (b.totalSectors - b.systemSectors) / b.clusterSize

/-- The device sector of the first cluster. -/
def dataStart : Nat := b.systemSectors * b.sectorMult

/-- Device sectors for each cluster. -/
def clusterSectors : Nat := b.clusterSize * b.sectorMult

def fatBits : Nat := if b.clusterCount > msdosFat12 then 16 else 12

/-- How many entries each table has. -/
def fatEntries : Nat := b.fatLength * b.sectorSize * 8 / b.fatBits

/-- The little-endian word at a device address. -/
def word (contents : ByteMemory) (a : Nat) : Nat := (contents a).toNat + 256 * (contents (a + 1)).toNat

/-- The entry of a cluster in the first table. -/
def fatEntry (contents : ByteMemory) (c : Nat) : Nat :=
  let fatAt := b.reserved * b.sectorSize
  if b.fatBits = 16 then word contents (fatAt + 2 * c)
  else if c % 2 = 0 then word contents (fatAt + 3 * c / 2) % 4096
  else word contents (fatAt + 3 * c / 2) / 16

/-- The link from a cluster to the next one of its file. -/
def fatNext (contents : ByteMemory) (c : Nat) : Option Nat :=
  let last := if b.fatBits = 16 then 0xfff8 else 0xff8
  if last ≤ b.fatEntry contents c then none else some (b.fatEntry contents c)

/-- The device sector of the `i`-th sector of a file. -/
def deviceSector (chain : List Nat) (i : Nat) : Nat :=
  (chain[i / b.clusterSectors]?.getD 0 - 2) * b.clusterSectors + b.dataStart + i % b.clusterSectors

/-- The parts of the volume follow each other, and it has no more clusters than
the 16-bit format has numbers for. -/
structure WellFormed : Prop where
  reserved_pos : 0 < b.reserved
  parts : b.systemSectors ≤ b.totalSectors
  clusters : b.clusterCount ≤ 0xfff4

/-- The clusters of a file of `size` bytes, from its first one on. -/
structure FileChain (contents : ByteMemory) (entry : DirEntry) (chain : List Nat) : Prop where
  linked : LinkChain (b.fatNext contents) entry.start chain
  inside : ∀ c ∈ chain, 2 ≤ c ∧ c < b.clusterCount + 2 ∧ c < b.fatEntries
  covers : entry.size ≤ chain.length * (b.clusterSectors * 512)
  exact : (chain.length - 1) * (b.clusterSectors * 512) < entry.size

end BootSector

/-! ## The super block -/

theorem u16_of_lt {n : Nat} (h : n < 2 ^ 16) : u16 n = n := by
  rw [u16]
  omega

theorem s16_u16 {n : Nat} {x : Int} (hn : n < 2 ^ 15) (hx : x % 2 ^ 16 = n) : s16 (u16 x) = n := by
  rw [u16, hx, Int.toNat_natCast, s16_of_lt hn]

theorem roundToMultiple_eq (n m : Nat) : roundToMultiple n m = (n + m - 1) / m * m := by
  rw [roundToMultiple]
  split
  · rename_i h
    have hdiv := Nat.div_add_mod (n - 1) m
    have hnext : (n + m - 1) / m = (n - 1) / m + 1 := by
      rw [show n + m - 1 = n - 1 + m by omega, Nat.add_div_right _ (by omega)]
    have hmod := Nat.mod_lt (n - 1) (show 0 < m by omega)
    rw [hnext, Nat.add_mul, Nat.one_mul, Nat.mul_comm]
    omega
  · rename_i h
    by_cases hm : m = 0
    · simp [hm]
    · have hn : n = 0 := by omega
      rw [hn, Nat.zero_add, Nat.div_eq_of_lt (by omega), Nat.zero_mul]

theorem rootSectors_mul {b : BootSector} (hentries : b.dirEntries % 16 = 0)
    (hsector : b.sectorSize % 512 = 0) :
    roundToMultiple (b.dirEntries <<< 5 >>> 9) b.sectorMult = b.rootSectors * b.sectorMult := by
  rw [roundToMultiple_eq, BootSector.rootSectors]
  congr 1
  have hsize : b.sectorSize = 512 * b.sectorMult := by
    rw [BootSector.sectorMult]
    omega
  rw [Nat.shiftLeft_eq, Nat.shiftRight_eq_div_pow, hsize, ← Nat.div_div_eq_div_mul]
  congr 1
  omega

/-- The bounds that the types of the fields give. -/
structure BootSector.InRange (b : BootSector) : Prop where
  sectorSize : b.sectorSize < 2 ^ 16
  clusterSize : b.clusterSize < 2 ^ 8
  total : b.totalSectors < 2 ^ 32

theorem bootSectorAt_inRange (contents : ByteMemory) : (bootSectorAt contents).InRange where
  sectorSize := readLe_lt contents 11 2
  clusterSize := readLe_lt contents 13 1
  total := by
    have hsmall : readLe contents 19 2 < 256 ^ 2 := readLe_lt contents 19 2
    have hlarge : readLe contents 32 4 < 256 ^ 4 := readLe_lt contents 32 4
    rw [BootSector.totalSectors]
    split
    · exact Nat.lt_trans hsmall (by decide)
    · exact hlarge

/-- The super block says what the boot sector says. -/
structure Mounted (b : BootSector) (sb : MsdosSb) : Prop where
  sectors : b.sectorSize = 512 * b.sectorMult
  mult_pos : 0 < b.sectorMult
  cluster_pos : 0 < b.clusterSize
  fats_pos : 0 < b.fats
  clusterSize : sb.clusterSize = b.clusterSectors
  fatBits : sb.fatBits = b.fatBits
  fatStart : sb.fatStart = b.reserved * b.sectorMult
  fatLength : sb.fatLength = b.fatLength * b.sectorMult
  dataStart : sb.dataStart = b.dataStart
  clusters : 2 ≤ b.fatEntries → sb.clusters = min b.clusterCount (b.fatEntries - 2)

/-- The code's count of clusters does not leave the range of an `int`. -/
theorem dataSectors_eq {b : BootSector} (hb : b.InRange) (hwf : b.WellFormed)
    (hcluster : 0 < b.clusterSize) (hstart : b.dataStart < 2 ^ 16) :
    s32 (sub32 (u32 (b.totalSectors * b.sectorMult)) b.dataStart) =
      ((b.totalSectors - b.systemSectors) * b.sectorMult : Nat) := by
  have hcount : b.totalSectors - b.systemSectors < (b.clusterCount + 1) * b.clusterSize := by
    have hmod := Nat.mod_lt (b.totalSectors - b.systemSectors) hcluster
    have hdiv := Nat.div_add_mod (b.totalSectors - b.systemSectors) b.clusterSize
    rw [BootSector.clusterCount, Nat.add_mul, Nat.one_mul, Nat.mul_comm]
    omega
  have hclusters : (b.clusterCount + 1) * b.clusterSize ≤ 65525 * 255 :=
    Nat.mul_le_mul (by have := hwf.clusters; omega) (by have := hb.clusterSize; omega)
  have hmult : b.sectorMult ≤ 127 := by
    have hsize := hb.sectorSize
    rw [BootSector.sectorMult]
    omega
  have hdata : (b.totalSectors - b.systemSectors) * b.sectorMult ≤ 65525 * 255 * 127 :=
    Nat.mul_le_mul (by omega) hmult
  have hsplit : (b.totalSectors - b.systemSectors) * b.sectorMult =
      b.totalSectors * b.sectorMult - b.dataStart := by
    rw [Nat.sub_mul, BootSector.dataStart]
  have hparts : b.dataStart ≤ b.totalSectors * b.sectorMult :=
    Nat.mul_le_mul_right b.sectorMult hwf.parts
  rw [u32_of_lt (by omega), sub32_of_le (by omega) hparts, ← hsplit, s32_of_lt (by omega)]

theorem countClusters_eq {b : BootSector} (hb : b.InRange) (hwf : b.WellFormed)
    (hcluster : 0 < b.clusterSize) (hmult : 0 < b.sectorMult) (hstart : b.dataStart < 2 ^ 16) :
    countClusters b b.sectorMult b.dataStart = b.clusterCount := by
  have hdata := dataSectors_eq hb hwf hcluster hstart
  have hcount := hwf.clusters
  rw [BootSector.totalSectors] at hdata
  rw [countClusters, hdata, ← Int.ofNat_tdiv, ← Int.ofNat_tdiv, Nat.div_div_eq_div_mul,
    Nat.mul_div_mul_right _ _ hmult]
  change (((b.clusterCount : Nat) : Int) % 2 ^ 64).toNat = b.clusterCount
  omega

/-- The super block before the check, when the data area starts early enough:
the parts before it then fit in their variables too. -/
theorem superOf_eq {b : BootSector} (hb : b.InRange) (hwf : b.WellFormed)
    (hcluster : 0 < b.clusterSize) (hmult : 0 < b.sectorMult) (hfats : 0 < b.fats)
    (hentries : b.dirEntries % 16 = 0) (hsector : b.sectorSize % 512 = 0)
    (hstart : b.dataStart < 2 ^ 16) :
    superOf b b.sectorMult =
      { clusterSize := b.clusterSectors
        fats := b.fats
        fatBits := b.fatBits
        fatStart := b.reserved * b.sectorMult
        fatLength := b.fatLength * b.sectorMult
        dirStart := (b.reserved + b.fats * b.fatLength) * b.sectorMult
        dirEntries := b.dirEntries
        dataStart := b.dataStart
        clusters := b.clusterCount } := by
  have hfats' : 1 * b.fatLength ≤ b.fats * b.fatLength := Nat.mul_le_mul_right _ hfats
  have hdir : (b.reserved + b.fats * b.fatLength) * b.sectorMult < 2 ^ 16 :=
    Nat.lt_of_le_of_lt (Nat.mul_le_mul_right _ (Nat.le_add_right _ _)) hstart
  have hreserved : b.reserved * b.sectorMult < 2 ^ 16 :=
    Nat.lt_of_le_of_lt (Nat.mul_le_mul_right _ (Nat.le_add_right _ _)) hdir
  have hlength : b.fatLength * b.sectorMult < 2 ^ 16 :=
    Nat.lt_of_le_of_lt (Nat.mul_le_mul_right _ (by omega)) hdir
  have hspc : b.clusterSize * b.sectorMult < 2 ^ 16 := by
    have hsize := hb.sectorSize
    have hle : b.clusterSize * b.sectorMult ≤ 255 * 127 :=
      Nat.mul_le_mul (by have := hb.clusterSize; omega) (by rw [BootSector.sectorMult]; omega)
    omega
  have hdirStart : u16 (((b.reserved : Int) + b.fats * b.fatLength) * b.sectorMult) =
      (b.reserved + b.fats * b.fatLength) * b.sectorMult := by
    exact_mod_cast u16_of_lt hdir
  have hdataStart : u16 (((b.reserved + b.fats * b.fatLength) * b.sectorMult : Nat) +
      (roundToMultiple (b.dirEntries <<< 5 >>> 9) b.sectorMult : Nat)) = b.dataStart := by
    rw [rootSectors_mul hentries hsector, ← Int.natCast_add, ← Nat.add_mul]
    exact u16_of_lt hstart
  simp only [superOf, hdirStart, hdataStart, countClusters_eq hb hwf hcluster hmult hstart]
  congr 1
  · exact_mod_cast u16_of_lt hspc
  · exact_mod_cast u16_of_lt hreserved
  · exact_mod_cast u16_of_lt hlength

theorem readSuper_mounted {b : BootSector} {sb : MsdosSb} (hb : b.InRange) (hwf : b.WellFormed)
    (hstart : b.dataStart < 2 ^ 16) (h : readSuper b = some sb) : Mounted b sb := by
  have hmult : b.sectorSize >>> 9 = b.sectorMult := Nat.shiftRight_eq_div_pow _ _
  simp only [readSuper, hmult] at h
  split at h
  · cases h
  rename_i hpos
  rw [not_or] at hpos
  split at h
  · cases h
  rename_i hvalid
  simp only [not_or, Decidable.not_not] at hvalid
  obtain ⟨hfats, hentries, -, hsector, -, -⟩ := hvalid
  have heq := superOf_eq hb hwf (Nat.pos_of_ne_zero hpos.1) (Nat.pos_of_ne_zero hpos.2)
    (Nat.pos_of_ne_zero hfats) hentries hsector hstart
  have hsize : b.sectorSize = 512 * b.sectorMult := by
    rw [BootSector.sectorMult]
    exact (Nat.mul_div_cancel' (Nat.dvd_of_mod_eq_zero hsector)).symm
  have hentriesOf : (superOf b b.sectorMult).fatClusters = b.fatEntries := by
    rw [heq, MsdosSb.fatClusters, BootSector.fatEntries, hsize, sectorSize, Nat.mul_assoc b.fatLength,
      Nat.mul_comm b.sectorMult]
  have hbound : b.fatEntries < 2 ^ 64 := by
    have hlength : (superOf b b.sectorMult).fatLength < 2 ^ 16 := by
      simp only [superOf, u16]
      omega
    rw [← hentriesOf, MsdosSb.fatClusters]
    refine Nat.lt_of_le_of_lt (Nat.div_le_self _ _) ?_
    rw [sectorSize]
    omega
  have hcount := hwf.clusters
  rw [hentriesOf, show (superOf b b.sectorMult).clusters = b.clusterCount by rw [heq],
    u64_of_lt (by omega)] at h
  have hsb : sb = { superOf b b.sectorMult with
      clusters := if b.clusterCount + 2 > b.fatEntries then sub64 b.fatEntries 2
        else b.clusterCount } := by
    split at h <;> rename_i hcap
    · rw [if_pos hcap, ← Option.some.inj h]
    · rw [if_neg hcap, ← Option.some.inj h, heq]
  rw [heq] at hsb
  subst hsb
  refine ⟨hsize, Nat.pos_of_ne_zero hpos.2, Nat.pos_of_ne_zero hpos.1, Nat.pos_of_ne_zero hfats,
    rfl, rfl, rfl, rfl, rfl, ?_⟩
  intro htwo
  change (if b.clusterCount + 2 > b.fatEntries then sub64 b.fatEntries 2 else b.clusterCount) = _
  rw [sub64_of_le hbound htwo]
  split <;> omega

/-! ## The table -/

theorem BootSector.fatBits_cases (b : BootSector) : b.fatBits = 16 ∨ b.fatBits = 12 := by
  rw [fatBits]
  split
  · exact Or.inl rfl
  · exact Or.inr rfl

theorem readLe_two {mem : ByteMemory} {a : Nat} (ha : a + 1 < 2 ^ 64) :
    readLe mem a 2 = BootSector.word mem a := by
  rw [readLe, readLe, readLe, u64_of_lt ha, BootSector.word, Nat.mul_zero, Nat.add_zero]

theorem word_lt (mem : ByteMemory) (a : Nat) : BootSector.word mem a < 2 ^ 16 := by
  have hlow := (mem a).toNat_lt
  have hhigh := (mem (a + 1)).toNat_lt
  rw [BootSector.word]
  omega

/-- The value that the format gives to a cluster, in a table at address 0: a word,
or the low or high 12 bits of one. -/
def entryValue (fatBits : Nat) (tfat : ByteMemory) (c : Nat) : Nat :=
  if fatBits = 16 then BootSector.word tfat (2 * c)
  else if c % 2 = 0 then BootSector.word tfat (3 * c / 2) % 4096
  else BootSector.word tfat (3 * c / 2) / 16

theorem readFat_value {fatBits c : Nat} {tfat : ByteMemory} (hbits : fatBits = 16 ∨ fatBits = 12)
    (hc : c < 2 ^ 32) : readFat fatBits tfat c = entryValue fatBits tfat c := by
  have hmask16 : ∀ n, n < 2 ^ 16 → n &&& 0xffff = n := fun n hn => by
    rw [show 0xffff = 2 ^ 16 - 1 from rfl, Nat.and_two_pow_sub_one_eq_mod, Nat.mod_eq_of_lt hn]
  have hmask12 : ∀ n, n &&& 0xfff = n % 4096 := fun n => Nat.and_two_pow_sub_one_eq_mod n 12
  rw [readFat, entryValue]
  rcases hbits with rfl | rfl
  · simp only [if_true, Nat.reduceEqDiff, false_and, if_false]
    rw [readLe_two (by omega), hmask16 _ (word_lt _ _), Nat.mul_comm]
  · have hlt := word_lt tfat (3 * c / 2)
    simp only [Nat.reduceEqDiff, if_false, true_and, Nat.and_one_is_mod]
    rw [readLe_two (by omega), Nat.mul_comm c 3, hmask12]
    by_cases hodd : c % 2 = 0
    · simp only [hodd, ne_eq, not_true_eq_false, if_false, if_true]
    · rw [if_pos hodd, if_neg hodd, Nat.shiftRight_eq_div_pow]
      omega

/-- The table is decoded as the format says. -/
theorem readFat_eq {b : BootSector} {contents : ByteMemory} {start c : Nat}
    (hstart : start = b.reserved * b.sectorSize) (hc : c < 2 ^ 32) :
    readFat b.fatBits (fun i => contents (start + i)) c = b.fatEntry contents c := by
  rw [readFat_value b.fatBits_cases hc, hstart]
  rfl

/-- The mounted table has the entry of every cluster that the table covers. -/
theorem translateFat_entry {b : BootSector} {sb : MsdosSb} {device : Device} {fat : List Nat}
    (hsb : Mounted b sb) (h : translateFat device sb = some fat) {c : Nat}
    (hc : c < b.fatEntries) (hsmall : c < 2 ^ 32) :
    fat[c]?.getD 0 = b.fatEntry device.contents c := by
  rw [translateFat] at h
  split at h
  · cases h
  rename_i hread
  rw [Decidable.not_not] at hread
  obtain rfl := Option.some.inj h
  have hsize : sectorSize * sb.fatLength = b.fatLength * b.sectorSize := by
    rw [hsb.fatLength, hsb.sectors]
    exact Nat.mul_left_comm 512 b.fatLength b.sectorMult
  have hwords : c < (if sb.fatBits = 16 then device.count (sb.fatStart * sectorSize)
      (sectorSize * sb.fatLength) / 2 else device.count (sb.fatStart * sectorSize)
      (sectorSize * sb.fatLength) * 2 / 3) := by
    rw [hread, hsize, hsb.fatBits]
    rw [BootSector.fatEntries] at hc
    rcases b.fatBits_cases with hbits | hbits
    · rw [hbits] at hc
      rw [if_pos hbits]
      omega
    · rw [hbits] at hc
      rw [if_neg (by rw [hbits]; decide)]
      omega
  rw [List.getElem?_map, List.getElem?_range hwords, Option.map_some, Option.getD_some, hsb.fatBits]
  refine readFat_eq ?_ hsmall
  rw [hsb.fatStart, hsb.sectors, sectorSize, Nat.mul_assoc, Nat.mul_comm b.sectorMult]

/-! ## The block list -/

/-- The end marks are the last eight values of an entry. -/
theorem isEof_iff {b : BootSector} {contents : ByteMemory} {c : Nat} :
    isEof b.fatBits (b.fatEntry contents c) = true ↔ b.fatNext contents c = none := by
  have hlt : b.fatEntry contents c < if b.fatBits = 16 then 2 ^ 16 else 2 ^ 12 := by
    have hword := word_lt contents
    rw [BootSector.fatEntry]
    split
    · exact hword _
    · split
      · exact Nat.mod_lt _ (by decide)
      · have := hword (b.reserved * b.sectorSize + 3 * c / 2)
        omega
  rw [isEof, BootSector.fatNext, beq_iff_eq]
  rcases b.fatBits_cases with hbits | hbits
  · simp only [hbits, if_true, Nat.reduceEqDiff, if_false, ite_eq_left_iff, reduceCtorEq, imp_false,
      Decidable.not_not] at hlt ⊢
    have hmask := and_not_low_eq (b.fatEntry contents c) 3 16 hlt (by decide)
    rw [show 0xfff8 = 2 ^ 16 - 2 ^ 3 from rfl, hmask]
    omega
  · simp only [hbits, if_true, Nat.reduceEqDiff, if_false, ite_eq_left_iff, reduceCtorEq, imp_false,
      Decidable.not_not] at hlt ⊢
    have hmask := and_not_low_eq (b.fatEntry contents c) 3 12 hlt (by decide)
    rw [show 0xff8 = 2 ^ 12 - 2 ^ 3 from rfl, hmask]
    omega

/-- A super block and a table that agree with the volume. -/
structure Agrees (b : BootSector) (contents : ByteMemory) (sb : MsdosSb) (fat : List Nat) : Prop where
  mounted : Mounted b sb
  entry : ∀ c < b.fatEntries, c < 2 ^ 16 → fat[c]?.getD 0 = b.fatEntry contents c

theorem msdosMount_some {device : Device} {sb : MsdosSb} {fat : List Nat}
    (h : msdosMount device = some (sb, fat)) :
    readSuper (bootSectorAt device.contents) = some sb ∧ translateFat device sb = some fat := by
  rw [msdosMount] at h
  split at h
  · cases h
  obtain ⟨sb', hsuper, hfat⟩ := Option.bind_eq_some_iff.mp h
  obtain ⟨fat', htranslate, hpair⟩ := Option.map_eq_some_iff.mp hfat
  obtain ⟨rfl, rfl⟩ := Prod.mk.inj hpair
  exact ⟨hsuper, htranslate⟩

/-- What mounting leaves agrees with a volume whose data area starts early enough. -/
theorem Agrees.of_mount {device : Device} {sb : MsdosSb} {fat : List Nat}
    (h : msdosMount device = some (sb, fat)) (hwf : (bootSectorAt device.contents).WellFormed)
    (hstart : (bootSectorAt device.contents).dataStart < 2 ^ 16) :
    Agrees (bootSectorAt device.contents) device.contents sb fat := by
  obtain ⟨hsuper, hfat⟩ := msdosMount_some h
  have hmounted := readSuper_mounted (bootSectorAt_inRange device.contents) hwf hstart hsuper
  exact ⟨hmounted, fun c hc hsmall => translateFat_entry hmounted hfat hc (by omega)⟩

/-- A cluster with an entry passes the test of the loop. -/
theorem Agrees.valid {b : BootSector} {contents : ByteMemory} {sb : MsdosSb} {fat : List Nat}
    (h : Agrees b contents sb fat) {c : Nat}
    (hc : 2 ≤ c ∧ c < b.clusterCount + 2 ∧ c < b.fatEntries) (hsmall : c < 2 ^ 64) :
    sub64 c 2 < sb.clusters := by
  rw [sub64_of_le hsmall hc.1, h.mounted.clusters (by omega)]
  omega

theorem fatNext_eq_some {b : BootSector} {contents : ByteMemory} {c d : Nat}
    (h : b.fatNext contents c = some d) : b.fatEntry contents c = d := by
  simp only [BootSector.fatNext, Option.ite_none_left_eq_some, Option.some.injEq] at h
  exact h.2

/-- The loop reads a chain of valid clusters to its end. -/
theorem fillLoop_chain {b : BootSector} {contents : ByteMemory} {sb : MsdosSb} {fat : List Nat}
    (hagrees : Agrees b contents sb fat) (hcount : b.clusterCount ≤ 0xfff4)
    {start : Nat} {chain : List Nat} (hchain : LinkChain (b.fatNext contents) start chain)
    (hinside : ∀ c ∈ chain, 2 ≤ c ∧ c < b.clusterCount + 2 ∧ c < b.fatEntries)
    (list : Nat → Nat) {block n : Nat} (hblock : block + chain.length ≤ sb.clusters)
    (hn : chain.length ≤ n) :
    ∃ list', fillLoop sb fat list block start n = some (list', block + chain.length) ∧
      (∀ j < block, list' j = list j) ∧
      ∀ j c, chain[j]? = some c → list' (block + j) = c := by
  induction hchain generalizing list block n with
  | @last c hend =>
      have hc := hinside c List.mem_cons_self
      rw [List.length_singleton] at hblock hn ⊢
      obtain ⟨n, rfl⟩ := Nat.exists_eq_add_of_le' hn
      have hround : ¬ (sub64 c 2 ≥ sb.clusters ∨ block ≥ sb.clusters) := by
        have hvalid := hagrees.valid hc (by omega)
        omega
      have heof : isEof sb.fatBits (fat[c]?.getD 0) = true := by
        rw [hagrees.mounted.fatBits, hagrees.entry c hc.2.2 (by omega)]
        exact isEof_iff.mpr hend
      refine ⟨Function.update list block (u16 c), ?_, ?_, ?_⟩
      · rw [fillLoop, if_neg hround]
        simp only [heof, if_true]
      · exact fun j hj => Function.update_of_ne (by omega) _ _
      · intro j d hd
        obtain ⟨rfl, rfl⟩ : j = 0 ∧ c = d := by
          rw [List.getElem?_singleton] at hd
          split at hd
          · exact ⟨by assumption, Option.some.inj hd⟩
          · cases hd
        rw [Nat.add_zero, Function.update_self, u16_of_lt (by omega)]
  | @link c d nodes hnext hrest ih =>
      have hc := hinside c List.mem_cons_self
      rw [List.length_cons] at hblock hn ⊢
      obtain ⟨n, rfl⟩ := Nat.exists_eq_add_of_le' (show 1 ≤ n by omega)
      have hround : ¬ (sub64 c 2 ≥ sb.clusters ∨ block ≥ sb.clusters) := by
        have hvalid := hagrees.valid hc (by omega)
        omega
      have hentry : fat[c]?.getD 0 = d := by
        rw [hagrees.entry c hc.2.2 (by omega)]
        exact fatNext_eq_some hnext
      have heof : isEof sb.fatBits (fat[c]?.getD 0) = false := by
        rw [← Bool.not_eq_true, hagrees.mounted.fatBits, hagrees.entry c hc.2.2 (by omega), isEof_iff,
          hnext]
        simp
      obtain ⟨list', hloop, hkept, hread⟩ :=
        ih (fun e he => hinside e (List.mem_cons_of_mem c he)) (Function.update list block (u16 c))
          (show block + 1 + nodes.length ≤ sb.clusters by omega)
          (show nodes.length ≤ n by omega)
      refine ⟨list', ?_, ?_, ?_⟩
      · rw [fillLoop, if_neg hround]
        simp only [heof, Bool.false_eq_true, if_false]
        rw [hentry, hloop, Nat.add_assoc, Nat.add_comm 1]
      · intro j hj
        rw [hkept j (by omega), Function.update_of_ne (by omega)]
      · intro j e he
        cases j with
        | zero =>
            obtain rfl : c = e := by simpa using he
            rw [Nat.add_zero, hkept block (by omega), Function.update_self, u16_of_lt (by omega)]
        | succ j =>
            rw [List.getElem?_cons_succ] at he
            have hlater := hread j e he
            rwa [show block + 1 + j = block + (j + 1) by omega] at hlater

/-- A chain has no cycle, so it is no longer than there are clusters. -/
theorem chain_length_le {b : BootSector} {contents : ByteMemory} {entry : DirEntry}
    {chain : List Nat} (h : b.FileChain contents entry chain) :
    chain.length ≤ min b.clusterCount (b.fatEntries - 2) := by
  have hcard : chain.toFinset.card = chain.length := List.toFinset_card_of_nodup h.linked.nodup
  have hsubset : chain.toFinset ⊆ Finset.Ico 2 (2 + min b.clusterCount (b.fatEntries - 2)) := by
    intro c hc
    have hin := h.inside c (List.mem_toFinset.mp hc)
    rw [Finset.mem_Ico]
    omega
  have hle := Finset.card_le_card hsubset
  rw [hcard, Nat.card_Ico] at hle
  omega

theorem fillCluster_eq (list : Nat → Nat) (base n : Nat) :
    (∀ x, x ≤ base ∨ base + n < x → fillCluster list base n x = list x) ∧
      ∀ j, 0 < j → j ≤ n → fillCluster list base n (base + j) = u16 (list base + j) := by
  induction n with
  | zero => exact ⟨fun _ _ => rfl, fun j hj hjn => absurd hj (by omega)⟩
  | succ n ih =>
      obtain ⟨hkept, hset⟩ := ih
      constructor
      · intro x hx
        rw [fillCluster, Function.update_of_ne (by omega), hkept x (by omega)]
      · intro j hj hjn
        rw [fillCluster]
        by_cases hlast : j = n + 1
        · subst hlast
          rw [Function.update_self]
          by_cases hn : n = 0
          · subst hn
            simp [fillCluster]
          · rw [hset n (by omega) (Nat.le_refl n)]
            simp only [u16]
            omega
        · rw [Function.update_of_ne (by omega), hset j hj (by omega)]

theorem convertClusters_eq (sb : MsdosSb) (clusters newList : Nat → Nat) {count i r : Nat}
    (hi : i < count) (hr : r < sb.clusterSize) :
    convertClusters sb clusters newList count (i * sb.clusterSize + r) =
      u16 ((s16 (clusters i) - 2) * sb.clusterSize + sb.dataStart + r) := by
  induction count with
  | zero => omega
  | succ k ih =>
      rw [convertClusters]
      obtain ⟨hkept, hset⟩ := fillCluster_eq
        (Function.update (convertClusters sb clusters newList k) (k * sb.clusterSize)
          (u16 ((s16 (clusters k) - 2) * sb.clusterSize + sb.dataStart)))
        (k * sb.clusterSize) (sb.clusterSize - 1)
      by_cases hik : i = k
      · subst hik
        by_cases hzero : r = 0
        · rw [hzero, Nat.add_zero, hkept _ (by omega), Function.update_self]
          simp
        · rw [hset r (by omega) (by omega), Function.update_self]
          simp only [u16]
          omega
      · have hbefore : (i + 1) * sb.clusterSize ≤ k * sb.clusterSize :=
          Nat.mul_le_mul_right _ (by omega)
        rw [Nat.add_mul, Nat.one_mul] at hbefore
        rw [hkept _ (by omega), Function.update_of_ne (by omega)]
        exact ih (by omega)

theorem convertSectors_eq (sb : MsdosSb) (list : Nat → Nat) (count : Nat) :
    (∀ i, count ≤ i → convertSectors sb list count i = list i) ∧
      ∀ i < count, convertSectors sb list count i = u16 (s16 (list i) - 2 + sb.dataStart) := by
  induction count with
  | zero => exact ⟨fun _ _ => rfl, fun i hi => absurd hi (by omega)⟩
  | succ k ih =>
      obtain ⟨hkept, hset⟩ := ih
      constructor
      · intro i hi
        rw [convertSectors, Function.update_of_ne (by omega), hkept i (by omega)]
      · intro i hi
        rw [convertSectors]
        by_cases hik : i = k
        · rw [hik, Function.update_self, hkept k (Nat.le_refl k)]
        · rw [Function.update_of_ne hik, hset i (by omega)]

/-- A cluster number that was kept in a `short` still names its first sector,
as far as that is below the sign bit: the sum is taken modulo `2 ^ 16`. -/
theorem s16_sector {c cs : Nat} (start r : Nat) (hc : 2 ≤ c) (hsmall : c < 2 ^ 16)
    (hlow : (c - 2) * cs + start + r < 2 ^ 15) :
    s16 (u16 ((s16 c - 2) * cs + start + r)) = ((c - 2) * cs + start + r : Nat) := by
  apply s16_u16 hlow
  obtain ⟨e, he⟩ : ∃ e : Int, s16 c = c - 2 ^ 16 * e := by
    rw [s16, Nat.mod_eq_of_lt hsmall]
    split
    · exact ⟨0, by omega⟩
    · exact ⟨1, by omega⟩
  have hsum : (s16 c - 2) * cs + start + r =
      (((c - 2) * cs + start + r : Nat) : Int) - 2 ^ 16 * (e * cs) := by
    rw [he]
    push_cast [Nat.cast_sub hc]
    ring
  rw [hsum]
  generalize e * (cs : Int) = m
  omega

/-! ## An open file -/

/-- How many sectors a file of `size` bytes has. -/
def sectorsOf (size : Nat) : Nat := (size + 511) / 512

section
variable {b : BootSector} {contents : ByteMemory} {entry : DirEntry} {chain : List Nat}

/-- Every sector of the file lies in a cluster of the chain. -/
theorem BootSector.FileChain.cluster (h : b.FileChain contents entry chain)
    (hcs : 0 < b.clusterSectors) {i : Nat} (hi : i < sectorsOf entry.size) :
    ∃ hlt : i / b.clusterSectors < chain.length,
      b.deviceSector chain i = (chain[i / b.clusterSectors] - 2) * b.clusterSectors + b.dataStart +
        i % b.clusterSectors := by
  have hlt : i / b.clusterSectors < chain.length := by
    rw [Nat.div_lt_iff_lt_mul hcs]
    have hcovers := h.covers
    rw [← Nat.mul_assoc] at hcovers
    rw [sectorsOf] at hi
    omega
  refine ⟨hlt, ?_⟩
  rw [BootSector.deviceSector, List.getElem?_eq_getElem hlt, Option.getD_some]

theorem mul_add_inj {a a' r r' n : Nat} (hr : r < n) (hr' : r' < n) (h : a * n + r = a' * n + r') :
    a = a' ∧ r = r' := by
  have hdiv := congrArg (· / n) h
  have hmod := congrArg (· % n) h
  simp only [Nat.mul_comm _ n, Nat.mul_add_div (show 0 < n by omega), Nat.mul_add_mod,
    Nat.div_eq_of_lt hr, Nat.div_eq_of_lt hr', Nat.mod_eq_of_lt hr, Nat.mod_eq_of_lt hr',
    Nat.add_zero] at hdiv hmod
  exact ⟨hdiv, hmod⟩

/-- No two sectors of a file are at the same place. -/
theorem BootSector.FileChain.sector_inj (h : b.FileChain contents entry chain)
    (hcs : 0 < b.clusterSectors) {i j : Nat} (hi : i < sectorsOf entry.size)
    (hj : j < sectorsOf entry.size) (hij : b.deviceSector chain i = b.deviceSector chain j) :
    i = j := by
  obtain ⟨hilt, hieq⟩ := h.cluster hcs hi
  obtain ⟨hjlt, hjeq⟩ := h.cluster hcs hj
  have hci := (h.inside _ (List.getElem_mem hilt)).1
  have hcj := (h.inside _ (List.getElem_mem hjlt)).1
  obtain ⟨hcluster, hmod⟩ := mul_add_inj (Nat.mod_lt i hcs) (Nat.mod_lt j hcs)
    (show (chain[i / b.clusterSectors] - 2) * b.clusterSectors + i % b.clusterSectors =
      (chain[j / b.clusterSectors] - 2) * b.clusterSectors + j % b.clusterSectors by omega)
  have hdiv : i / b.clusterSectors = j / b.clusterSectors :=
    (h.linked.nodup.getElem_inj_iff).mp (show chain[i / b.clusterSectors] = _ by omega)
  rw [← Nat.div_add_mod i b.clusterSectors, hdiv, hmod, Nat.div_add_mod]

/-- If all sectors are below a bound, there are only as many as fit between the
start of the data area and that bound. -/
theorem BootSector.FileChain.sectors_le (h : b.FileChain contents entry chain)
    (hcs : 0 < b.clusterSectors) {bound : Nat}
    (hlow : ∀ i < sectorsOf entry.size, b.deviceSector chain i < bound) :
    sectorsOf entry.size ≤ bound - b.dataStart := by
  have hmaps : Set.MapsTo (b.deviceSector chain) (Finset.range (sectorsOf entry.size))
      (Finset.Ico b.dataStart bound) := by
    intro i hi
    rw [Finset.mem_coe, Finset.mem_range] at hi
    rw [Finset.mem_coe, Finset.mem_Ico]
    refine ⟨?_, hlow i hi⟩
    rw [BootSector.deviceSector]
    omega
  have hinj : Set.InjOn (b.deviceSector chain) (Finset.range (sectorsOf entry.size)) := by
    intro i hi j hj hij
    exact h.sector_inj hcs (Finset.mem_range.mp hi) (Finset.mem_range.mp hj) hij
  have hcard := Finset.card_le_card_of_injOn _ hmaps hinj
  rwa [Finset.card_range, Nat.card_Ico] at hcard

theorem Mounted.clusterSectors_pos {sb : MsdosSb} (h : Mounted b sb) : 0 < b.clusterSectors :=
  Nat.mul_pos h.cluster_pos h.mult_pos

/-- The data area starts behind the boot sector and the tables. -/
theorem Mounted.dataStart_two {sb : MsdosSb} (h : Mounted b sb) (hwf : b.WellFormed)
    (hentries : 0 < b.fatEntries) : 2 ≤ b.dataStart := by
  have hlength : 0 < b.fatLength := by
    rw [Nat.pos_iff_ne_zero]
    intro hzero
    rw [BootSector.fatEntries, hzero] at hentries
    simp at hentries
  have htables : 1 * 1 ≤ b.fats * b.fatLength := Nat.mul_le_mul h.fats_pos hlength
  have hreserved := hwf.reserved_pos
  have hsystem : 2 ≤ b.systemSectors := by
    rw [BootSector.systemSectors]
    omega
  exact Nat.mul_le_mul hsystem h.mult_pos

/-- The chain has as many clusters as the file needs. -/
theorem BootSector.FileChain.length_bounds (h : b.FileChain contents entry chain)
    (hcs : 0 < b.clusterSectors) :
    0 < chain.length ∧ chain.length ≤ sectorsOf entry.size ∧
      (b.clusterSectors = 1 → chain.length = sectorsOf entry.size) := by
  have hpos : 0 < chain.length := by
    cases h.linked <;> simp
  have hexact := h.exact
  have hcovers := h.covers
  have hle : (chain.length - 1) * 512 ≤ (chain.length - 1) * (b.clusterSectors * 512) :=
    Nat.mul_le_mul_left _ (by omega)
  refine ⟨hpos, ?_, fun hone => ?_⟩
  · rw [sectorsOf]
    omega
  · rw [hone] at hexact hcovers
    rw [sectorsOf]
    omega

/-- What opening a file leaves in its inode, if all sectors of the file are
below the sign bit of a `short`: the place of each sector, and a count that is
one more than it should be when full sectors make up clusters of several. -/
theorem fillBlockList_spec {sb : MsdosSb} {fat : List Nat} {list newList : Nat → Nat}
    {inode : Inode} (hagrees : Agrees b contents sb fat) (hwf : b.WellFormed)
    (hchain : b.FileChain contents entry chain)
    (hlow : ∀ i < sectorsOf entry.size, b.deviceSector chain i < 2 ^ 15)
    (h : fillBlockList sb fat list newList entry = some inode) :
    (∀ i < sectorsOf entry.size, s16 (inode.blockList i) = b.deviceSector chain i) ∧
      inode.blocks =
        if b.clusterSectors = 1 then sectorsOf entry.size else entry.size / 512 + 1 := by
  have hmounted := hagrees.mounted
  have hcs := hmounted.clusterSectors_pos
  obtain ⟨hpos, hlength, hone⟩ := hchain.length_bounds hcs
  have hfirst := hchain.inside _ (List.getElem_mem hpos)
  have hsectors := hchain.sectors_le hcs hlow
  have hstart := hmounted.dataStart_two hwf (by omega)
  have hclusters := hmounted.clusters (by omega)
  have hle := chain_length_le hchain
  obtain ⟨read, hloop, -, hread⟩ := fillLoop_chain hagrees hwf.clusters hchain.linked hchain.inside
    list (show 0 + chain.length ≤ sb.clusters by omega) (show chain.length ≤ sb.clusters + 1 by omega)
  rw [fillBlockList, hloop, Option.map_some, Nat.zero_add] at h
  obtain rfl : convertBlockList sb newList ⟨entry, read, s16 chain.length⟩ = inode :=
    Option.some.inj h
  have hcount : s16 chain.length = chain.length := s16_of_lt (by omega)
  have hcluster : ∀ i < sectorsOf entry.size, ∃ c, read (i / b.clusterSectors) = c ∧ 2 ≤ c ∧
      c < 2 ^ 16 ∧ b.deviceSector chain i =
        (c - 2) * b.clusterSectors + b.dataStart + i % b.clusterSectors := by
    intro i hi
    obtain ⟨hlt, heq⟩ := hchain.cluster hcs hi
    have hin := hchain.inside _ (List.getElem_mem hlt)
    have hvalue := hread _ _ (List.getElem?_eq_getElem hlt)
    have hfew := hwf.clusters
    rw [Nat.zero_add] at hvalue
    exact ⟨_, hvalue, hin.1, by omega, heq⟩
  rw [convertBlockList]
  by_cases hcsOne : b.clusterSectors = 1
  · rw [if_neg (by rw [hmounted.clusterSize]; omega), if_pos hcsOne]
    simp only [hcount, Int.toNat_natCast]
    refine ⟨fun i hi => ?_, by rw [hone hcsOne]⟩
    obtain ⟨c, hc, htwo, hsmall, heq⟩ := hcluster i hi
    have hsum := hlow i hi
    rw [hcsOne, Nat.div_one] at hc
    rw [hcsOne] at heq
    rw [(convertSectors_eq sb read chain.length).2 i (by rw [hone hcsOne]; exact hi), hc,
      hmounted.dataStart]
    have hs := s16_sector b.dataStart (i % 1) htwo hsmall (heq ▸ hsum)
    rw [← heq, Nat.mod_one, Int.natCast_one, Int.mul_one, Int.natCast_zero, Int.add_zero] at hs
    exact hs
  · rw [if_pos (by rw [hmounted.clusterSize]; omega), if_neg hcsOne]
    simp only [hcount, Int.toNat_natCast]
    constructor
    · intro i hi
      obtain ⟨c, hc, htwo, hsmall, heq⟩ := hcluster i hi
      obtain ⟨hlt, -⟩ := hchain.cluster hcs hi
      have hsum := hlow i hi
      have hconvert := convertClusters_eq sb read newList hlt
        (show i % b.clusterSectors < sb.clusterSize by
          rw [hmounted.clusterSize]; exact Nat.mod_lt i hcs)
      rw [hmounted.clusterSize, hmounted.dataStart, Nat.div_add_mod', hc] at hconvert
      rw [hconvert, s16_sector _ _ htwo hsmall (heq ▸ hsum), heq]
    · have hfew : entry.size ≤ sectorsOf entry.size * 512 := by
        rw [sectorsOf]
        omega
      rw [sectorSize, u32_of_lt (by omega), Nat.add_div_right _ (by decide), s16_of_lt (by omega)]

end

/-! ## One cluster in use -/

/-- A table in sector 1 with nothing but the end of a chain in cluster 2. -/
theorem readFat_oneCluster {contents : ByteMemory} (hlow : contents 515 = 0xff)
    (hhigh : contents 516 = 0x0f)
    (hfree : ∀ i, 512 ≤ i → i < 1024 → i ≠ 515 → i ≠ 516 → contents i = 0) {c : Nat}
    (hc : c < 341) :
    readFat 12 (fun i => contents (512 + i)) c = if c = 2 then 0xfff else 0 := by
  have hvalue : readLe (fun i => contents (512 + i)) (c * 3 / 2) 2 =
      (contents (512 + c * 3 / 2)).toNat + 256 * (contents (512 + (c * 3 / 2 + 1))).toNat := by
    rw [readLe, readLe, readLe, u64_of_lt (by omega)]
    rfl
  simp only [readFat, show ¬ (12 : Nat) = 16 by decide, if_false, true_and, hvalue]
  obtain rfl | rfl | hother : c = 2 ∨ c = 3 ∨ c ≠ 2 ∧ c ≠ 3 := by omega
  · rw [hlow, hhigh]
    rfl
  · rw [hhigh, hfree (512 + (3 * 3 / 2 + 1)) (by omega) (by omega) (by omega) (by omega)]
    rfl
  · rw [hfree _ (by omega) (by omega) (by omega) (by omega),
      hfree _ (by omega) (by omega) (by omega) (by omega), if_neg hother.1]
    simp

theorem msdosMount_oneCluster {bytes : List (Nat × UInt8)} {sb : MsdosSb}
    (hsuper : readSuper (bootSectorAt (image bytes)) = some sb) (hbits : sb.fatBits = 12)
    (hstart : sb.fatStart = 1) (hlength : sb.fatLength = 1) (hlow : image bytes 515 = 0xff)
    (hhigh : image bytes 516 = 0x0f)
    (hplaces : ∀ entry ∈ bytes,
      entry.1 < 512 ∨ entry.1 = 515 ∨ entry.1 = 516 ∨ 1024 ≤ entry.1) :
    msdosMount (.sound (image bytes)) =
      some (sb, (List.range 341).map fun c => if c = 2 then 0xfff else 0) := by
  have hread : ∀ c < 341, readFat 12 (fun i => image bytes (512 + i)) c =
      if c = 2 then 0xfff else 0 := fun c hc => by
    apply readFat_oneCluster hlow hhigh _ hc
    intro i hlo hhi hne hne'
    apply image_zero
    intro entry hentry
    have hplace := hplaces entry hentry
    omega
  have hfat : translateFat (.sound (image bytes)) sb =
      some ((List.range 341).map fun c => if c = 2 then 0xfff else 0) := by
    simpa [translateFat, hbits, hstart, hlength, Device.sound, sectorSize] using hread
  have hcount : ¬ (Device.sound (image bytes)).count 0 36 ≠ 36 := not_not.mpr rfl
  have hsound : readSuper (bootSectorAt (Device.sound (image bytes)).contents) = some sb := hsuper
  rw [msdosMount, if_neg hcount, hsound, Option.bind_some, hfat]
  rfl

end Milo.Fs.Dos
