import Milo.Tools.SrmBootFat

/-! # The extent that `srmbootfat` writes

Where the layout of a volume is taken right, this is the condition under which the
boot sector gets the sectors of the file, or none.
-/

namespace Milo.Tools

open Foundation
open Foundation.QuadText (leValue leValue_lt)
open Milo.Fs (image image_zero)
open Milo.Fs.Dos (BootSector sectorsOf)

variable {vol : FatVolume} {arg : List UInt8}

/-! ## The extent -/

section
variable {b : BootSector}

/-- The place of the file as the program computes it. -/
def extentStart (b : BootSector) (start : Nat) : Nat :=
  u32 (u32 (sub32 start 2 * b.clusterSize) + b.reserved + b.fats * b.fatLength + b.dirEntries / 16)

theorem extentStart_eq (hr : FieldRanges b) {start : Nat} (hlo : 2 ≤ start)
    (hhi : start < 2 ^ 16) : extentStart b start =
      (start - 2) * b.clusterSize + b.reserved + b.fats * b.fatLength + b.dirEntries / 16 := by
  have hcluster : (start - 2) * b.clusterSize ≤ 2 ^ 16 * 2 ^ 8 :=
    Nat.mul_le_mul (by omega) (Nat.le_of_lt hr.clusterSize)
  have htables : b.fats * b.fatLength ≤ 2 ^ 8 * 2 ^ 16 :=
    Nat.mul_le_mul (Nat.le_of_lt hr.fats) (Nat.le_of_lt hr.fatLength)
  have hreserved := hr.reserved
  have hentries := hr.dirEntries
  rw [extentStart, sub32_of_le (by omega) hlo, u32_of_lt (show (start - 2) * b.clusterSize < 2 ^ 32
    by omega), u32_of_lt (by omega)]

/-- A sector of a contiguous file. -/
theorem deviceSector_range' (hsector : b.sectorSize = 512) {start n i : Nat} (hlo : 2 ≤ start)
    (hi : i < n * b.clusterSize) :
    b.deviceSector (List.range' start n) i =
      (start - 2) * b.clusterSize + b.systemSectors + i := by
  have hmult : b.sectorMult = 1 := by
    rw [BootSector.sectorMult, hsector]
  have hindex : i / b.clusterSize < n := Nat.div_lt_of_lt_mul (Nat.mul_comm n _ ▸ hi)
  have hdiv := Nat.div_add_mod i b.clusterSize
  rw [BootSector.deviceSector, BootSector.clusterSectors, BootSector.dataStart, hmult, Nat.mul_one,
    Nat.mul_one, List.getElem?_range' hindex, Option.getD_some, Nat.one_mul, Nat.sub_add_comm hlo,
    Nat.add_mul, Nat.mul_comm (i / b.clusterSize)]
  omega

end

/-- The sectors of the file as the program counts them. -/
def RootFile.count (file : RootFile vol arg) : Nat := u32 (file.size + 511) / 512

/-- What the program makes of the number of clusters. -/
def RootFile.finish (file : RootFile vol arg) (clusters : Nat) : Except Nat (List UInt8) :=
  if u32 (file.count + sub32 vol.block.clusterSize 1) / vol.block.clusterSize ≠ clusters then
    .error 3
  else
    .ok (patch vol.disk 0 (fillSector (slice vol.disk 0 sectorSize)
      (extentStart vol.block file.start) file.count))

theorem RootFile.srmbootfat_eq (file : RootFile vol arg) :
    srmbootfat vol.disk vol.table file.bootFile =
      (countClusters vol.table vol.fatBits (2 ^ vol.fatBits - 9) file.start 1).map fun
        | .error code => .error code
        | .ok clusters => file.finish clusters := by
  unfold srmbootfat
  rw [vol.readAt_sector]
  rfl

theorem RootFile.recorded_iff (file : RootFile vol arg) (hcontiguous : file.Contiguous)
    (hcount : file.count = sectorsOf file.size) (hpos : 0 < file.count) (hlo : 2 ≤ file.start)
    (hhi : file.start < 2 ^ 16) (hfits : file.count ≤ file.chain.length * vol.block.clusterSize) :
    Recorded file (fillSector (slice vol.disk 0 sectorSize) (extentStart vol.block file.start)
        file.count) ↔ vol.block.dirEntries % 16 = 0 := by
  have hlength := readAt_length vol.readAt_sector
  have hstart := extentStart_eq vol.ranges hlo hhi
  have hroot := rootSectors_of_sector (b := vol.block) vol.sector
  have hcount64 : file.count < 2 ^ 64 := by
    have hu32 := u32_lt (file.size + 511)
    rw [RootFile.count]
    omega
  have hstart64 : extentStart vol.block file.start < 2 ^ 64 :=
    Nat.lt_trans (u32_lt _) (by decide)
  have hsector : ∀ i < file.count, vol.block.deviceSector file.chain i =
      (file.start - 2) * vol.block.clusterSize + vol.block.systemSectors + i := fun i hi => by
    rw [hcontiguous]
    exact deviceSector_range' vol.sector hlo (Nat.lt_of_lt_of_le hi hfits)
  have hquad := (quadAt_fillSector hlength file.count hstart64).2
  have hplace : extentStart vol.block file.start =
      (file.start - 2) * vol.block.clusterSize + vol.block.systemSectors ↔
        vol.block.dirEntries % 16 = 0 := by
    rw [hstart, BootSector.systemSectors, hroot]
    omega
  rw [← hplace]
  constructor
  · rintro ⟨-, -, hsectors⟩
    have hfirst := hsectors 0 (hcount ▸ hpos)
    rw [hquad, hsector 0 hpos] at hfirst
    omega
  · intro heq
    refine ⟨hcontiguous, ?_, fun i hi => ?_⟩
    · rw [quadAt_fillSector_count hlength _ hcount64, hcount]
    · rw [hquad, heq, hsector i (hcount ▸ hi)]

/-- No sectors are not the sectors of any clusters. -/
theorem RootFile.finish_zero (file : RootFile vol arg) (hcount : file.count = 0) {clusters : Nat}
    (hpos : 0 < clusters) : file.finish clusters = .error 3 := by
  have hcluster : 0 < vol.block.clusterSize := vol.cluster_pos
  have hrange := vol.ranges.clusterSize
  unfold RootFile.finish
  rw [if_pos]
  rw [hcount, Nat.zero_add, sub32_of_le (by omega) hcluster, u32_of_lt (by omega),
    Nat.div_eq_of_lt (by omega)]
  exact Nat.ne_of_lt hpos

/-- An empty file never gets an extent: its first entry is that of the media
descriptor. -/
theorem RootFile.empty_iff (file : RootFile vol arg) (hstart : file.start = 0)
    (hsize : file.size = 0) : (∃ result, srmbootfat vol.disk vol.table file.bootFile =
      some result ∧ ∀ new, result = .ok new → Recorded file (slice new 0 sectorSize)) ↔
        vol.EntryDefined 0 := by
  have hentry := vol.getFatEntry_eq (c := 0) (Nat.zero_lt_succ _)
  have hfirst : 2 ^ vol.fatBits - 256 ≤ vol.entry 0 := vol.first
  have hcount : file.count = 0 := by
    rw [RootFile.count, hsize]
    rfl
  have hfinish := file.finish_zero hcount Nat.one_pos
  rw [file.srmbootfat_eq, hstart]
  by_cases hdefined : vol.EntryDefined 0
  · rw [if_pos hdefined] at hentry
    rw [countClusters_of_some hentry]
    refine ⟨fun _ => hdefined, fun _ => ?_⟩
    split
    · rw [if_neg]
      · exact ⟨_, rfl, fun new hnew => absurd hnew (by simp)⟩
      · have hbits : 2 ^ 12 ≤ 2 ^ vol.fatBits := by
          obtain hbits | hbits := vol.bits
          · rw [hbits]
          · rw [hbits]
            decide
        omega
    · exact ⟨_, rfl, fun new hnew => absurd (hfinish.symm.trans hnew) (by simp)⟩
  · rw [if_neg hdefined] at hentry
    rw [countClusters_of_none hentry]
    refine ⟨?_, fun h => absurd h hdefined⟩
    rintro ⟨_, hnone, _⟩
    cases hnone

/-- The clusters of a file are as many as the sectors of its size need. -/
theorem clusters_of_sectors {size cs n : Nat} (hcs : 0 < cs) (hn : 0 < n)
    (hcovers : size ≤ n * (cs * 512)) (hexact : (n - 1) * (cs * 512) < size) :
    sectorsOf size ≤ n * cs ∧ (sectorsOf size + (cs - 1)) / cs = n := by
  obtain ⟨m, rfl⟩ := Nat.exists_eq_add_of_lt hn
  rw [Nat.zero_add, ← Nat.mul_assoc] at hcovers
  rw [Nat.zero_add, Nat.add_sub_cancel, ← Nat.mul_assoc] at hexact
  rw [Nat.zero_add]
  have hle : sectorsOf size ≤ (m + 1) * cs := by
    rw [sectorsOf]
    omega
  have hlt : m * cs < sectorsOf size := by
    rw [sectorsOf]
    omega
  refine ⟨hle, Nat.div_eq_of_lt_le ?_ ?_⟩
  · rw [Nat.add_mul, Nat.one_mul]
    omega
  · rw [Nat.add_mul (m + 1) 1, Nat.one_mul]
    omega

theorem RootFile.size_lt (file : RootFile vol arg) : file.size < 2 ^ 32 := by
  have hlength : (slice vol.rootdir (32 * file.slot + 28) 4).length ≤ 4 := List.length_take_le _ _
  have hlt := leValue_lt (slice vol.rootdir (32 * file.slot + 28) 4)
  exact Nat.lt_of_lt_of_le hlt (Nat.pow_le_pow_right (by decide) hlength)

/-- The size is rounded up in 32 bits. -/
theorem RootFile.count_eq (file : RootFile vol arg) :
    file.count = if 2 ^ 32 ≤ file.size + 511 then 0 else sectorsOf file.size := by
  have hsize := file.size_lt
  split
  · rw [RootFile.count, u32]
    omega
  · rw [RootFile.count, u32_of_lt (by omega)]
    rfl

theorem RootFile.finish_ok (file : RootFile vol arg) (hcount : file.count = sectorsOf file.size)
    {clusters : Nat} (h : (sectorsOf file.size + (vol.block.clusterSize - 1)) /
      vol.block.clusterSize = clusters) :
    file.finish clusters = .ok (patch vol.disk 0 (fillSector (slice vol.disk 0 sectorSize)
      (extentStart vol.block file.start) file.count)) := by
  have hcluster : 0 < vol.block.clusterSize := vol.cluster_pos
  have hrange := vol.ranges.clusterSize
  have hsize := file.size_lt
  have hsmall : sectorsOf file.size < 2 ^ 24 := by
    rw [sectorsOf]
    omega
  unfold RootFile.finish
  rw [if_neg]
  rw [hcount, sub32_of_le (by omega) hcluster, u32_of_lt (by omega), h]
  exact not_not.mpr rfl

/-- What is written for a contiguous file is right if the root directory is made of
whole sectors. -/
theorem RootFile.finish_iff (file : RootFile vol arg) (hcontiguous : file.Contiguous)
    (hinside : 2 ≤ file.start ∧ file.start < vol.block.clusterCount + 2) (hpos : 0 < file.size)
    (hcount : file.count = sectorsOf file.size)
    (hfits : sectorsOf file.size ≤ file.chain.length * vol.block.clusterSize)
    {clusters : Nat} (h : (sectorsOf file.size + (vol.block.clusterSize - 1)) /
      vol.block.clusterSize = clusters) :
    (∀ new, file.finish clusters = .ok new → Recorded file (slice new 0 sectorSize)) ↔
      vol.block.dirEntries % 16 = 0 := by
  have hfinish := file.finish_ok hcount h
  have hfilled : slice (patch vol.disk 0 (fillSector (slice vol.disk 0 sectorSize)
      (extentStart vol.block file.start) file.count)) 0 sectorSize =
        fillSector (slice vol.disk 0 sectorSize) (extentStart vol.block file.start) file.count :=
    slice_filled (readAt_length vol.readAt_sector) _ _
  have hbits : 2 ^ vol.fatBits ≤ 2 ^ 16 :=
    Nat.pow_le_pow_right (by decide) (by obtain hbits | hbits := vol.bits <;> omega)
  have hclusterCount : vol.block.clusterCount + 12 ≤ 2 ^ vol.fatBits := vol.clusters
  have hrecorded := file.recorded_iff hcontiguous hcount (by rw [hcount, sectorsOf]; omega)
    hinside.1 (by omega) (hcount ▸ hfits)
  rw [← hrecorded, ← hfilled]
  constructor
  · exact fun hnew => hnew _ hfinish
  · intro hnew new hok
    rw [← Except.ok.inj (hfinish.symm.trans hok)]
    exact hnew

theorem RootFile.clusters_iff (file : RootFile vol arg)
    (hlinked : LinkChain vol.next file.start file.chain)
    (hinside : ∀ c ∈ file.chain, 2 ≤ c ∧ c < vol.block.clusterCount + 2)
    (hcovers : file.size ≤ file.chain.length * (vol.block.clusterSize * 512))
    (hexact : (file.chain.length - 1) * (vol.block.clusterSize * 512) < file.size) :
    (∃ result, srmbootfat vol.disk vol.table file.bootFile = some result ∧
        ∀ new, result = .ok new → Recorded file (slice new 0 sectorSize)) ↔
      (∀ c ∈ adjacentRun file.chain, vol.EntryDefined c) ∧
        (2 ^ 32 ≤ file.size + 511 ∨ ¬ file.Contiguous ∨ vol.block.dirEntries % 16 = 0) := by
  have hstart : file.start ∈ file.chain := by
    obtain ⟨rest, hcons⟩ := hlinked.eq_cons
    rw [hcons]
    exact List.mem_cons_self
  have hpos := List.length_pos_of_mem hstart
  obtain ⟨hfits, hclusters⟩ := clusters_of_sectors vol.cluster_pos hpos hcovers hexact
  rw [file.srmbootfat_eq,
    vol.countClusters_chain hlinked (fun c hc => (hinside c hc).2) 1, Nat.add_sub_cancel' hpos]
  by_cases hdefined : ∀ c ∈ adjacentRun file.chain, vol.EntryDefined c
  · rw [if_pos hdefined, and_iff_right hdefined]
    by_cases hcontiguous : file.chain = List.range' file.start file.chain.length
    · rw [if_pos hcontiguous, or_iff_right (show ¬ ¬ file.Contiguous from not_not.mpr hcontiguous)]
      have hcount := file.count_eq
      by_cases hwraps : 2 ^ 32 ≤ file.size + 511
      · rw [if_pos hwraps] at hcount
        refine iff_of_true ⟨_, rfl, fun new hnew => ?_⟩ (.inl hwraps)
        cases (file.finish_zero hcount hpos).symm.trans hnew
      · rw [if_neg hwraps] at hcount
        rw [or_iff_right hwraps, ← file.finish_iff hcontiguous (hinside file.start hstart)
          (Nat.zero_lt_of_lt hexact) hcount hfits hclusters]
        constructor
        · rintro ⟨result, hresult, hnew⟩ new hok
          exact hnew new ((Option.some.inj hresult).symm.trans hok)
        · exact fun hnew => ⟨_, rfl, hnew⟩
    · rw [if_neg hcontiguous]
      exact iff_of_true ⟨_, rfl, nofun⟩ (.inr (.inl hcontiguous))
  · rw [if_neg hdefined]
    refine iff_of_false ?_ fun h => hdefined h.1
    rintro ⟨_, hnone, _⟩
    cases hnone

/-- For a layout that is taken right, the program does what it should if and only
if it finds no FAT type, or all entries that it looks at are defined, and the file
is empty or too large to be counted, or fragmented, or the root directory is made
of whole sectors. -/
theorem recordsExtent_iff (file : RootFile vol arg) (h : vol.LayoutTaken) :
    RecordsExtent file ↔ takenLayout vol.disk = none ∨
      (∀ c ∈ file.visited, vol.EntryDefined c) ∧
        (file.size = 0 ∨ 2 ^ 32 ≤ file.size + 511 ∨ ¬ file.Contiguous ∨
          vol.block.dirEntries % 16 = 0) := by
  unfold RecordsExtent
  cases hlayout : takenLayout vol.disk with
  | none =>
      refine iff_of_true ⟨.error 3, ?_, nofun⟩ (.inl rfl)
      unfold srmbootfatMain
      rw [vol.readAt_sector, hlayout]
  | some l =>
      rw [file.srmbootfatMain_eq h hlayout, or_iff_right (by exact nofun)]
      have hstored : vol.Stored file.start file.size file.chain := file.stored
      obtain ⟨hzero, hsize, hchain⟩ | ⟨hlinked, hinside, hcovers, hexact⟩ := hstored.empty_or
      · rw [file.empty_iff hzero hsize, RootFile.visited, hzero, hchain, and_iff_left (.inl hsize)]
        exact List.forall_mem_singleton.symm
      · obtain ⟨rest, hcons⟩ := hlinked.eq_cons
        have hvisited : file.visited = adjacentRun file.chain := by
          rw [RootFile.visited, hcons, List.tail_cons]
        have hsize : file.size ≠ 0 := by omega
        rw [file.clusters_iff hlinked hinside hcovers hexact, hvisited, or_iff_right hsize]

/-! ## Small volumes -/

/-- The first bytes of a disk. -/
@[irreducible] def diskOf (contents : ByteMemory) (n : Nat) : List UInt8 :=
  (List.range n).map contents

section
variable (contents : ByteMemory) {n : Nat}

theorem diskOf_length : (diskOf contents n).length = n := by
  rw [diskOf, List.length_map, List.length_range]

theorem bytesAt_diskOf {bytes : List (Nat × UInt8)} (h : ∀ entry ∈ bytes, entry.1 < n) :
    bytesAt (diskOf (image bytes) n) = image bytes := by
  funext i
  rw [bytesAt, diskOf, List.getD_eq_getElem?_getD, List.getElem?_map]
  by_cases hi : i < n
  · rw [List.getElem?_range hi, Option.map_some, Option.getD_some]
  · have hzero : image bytes i = 0 := image_zero fun entry hentry => by
      have hplace := h entry hentry
      omega
    rw [List.getElem?_eq_none (by rw [List.length_range]; omega), hzero]
    rfl

theorem slice_diskOf {a k : Nat} (h : a + k ≤ n) :
    slice (diskOf contents n) a k = (List.range' a k).map contents := by
  apply List.ext_getElem?
  intro i
  rw [getElem?_slice, diskOf, List.getElem?_map, List.getElem?_map]
  split
  · rw [List.getElem?_range (by omega), List.getElem?_range' (by omega), Nat.one_mul]
  · rw [List.getElem?_eq_none (by rw [List.length_range']; omega)]
    rfl

end

def miloName : List UInt8 := [0x6d, 0x69, 0x6c, 0x6f]

/-- The entry of a file `milo` of 512 bytes that begins in the first cluster. -/
def miloSlot : List UInt8 :=
  [0x4d, 0x49, 0x4c, 0x4f, 0x20, 0x20, 0x20, 0x20, 0x20, 0x20, 0x20] ++ List.replicate 15 0 ++
    [2, 0, 0, 2, 0, 0]

/-- The entry on a disk. -/
def miloBytes (i : Nat) : List (Nat × UInt8) := (List.range' i 32).zip miloSlot

section
variable (hslot : slice vol.rootdir 0 32 = miloSlot)
include hslot

theorem slice_milo {a k : Nat} (h : a + k ≤ 32) :
    slice vol.rootdir a k = slice miloSlot a k := by
  rw [← hslot, slice_slice _ h, Nat.zero_add]

theorem milo_start : slotStart vol.rootdir 0 = 2 := by
  rw [slotStart, slice_milo hslot (by decide)]
  decide

theorem milo_size : slotSize vol.rootdir 0 = 512 := by
  rw [slotSize, slice_milo hslot (by decide)]
  decide

end

/-- The file of one cluster in the first slot. -/
def miloFile (vol : FatVolume) (hslot : slice vol.rootdir 0 32 = miloSlot)
    (hdir : 0 < vol.block.dirEntries) (hclusters : 0 < vol.block.clusterCount)
    (hlast : vol.next 2 = none) : RootFile vol miloName where
  slot := 0
  slot_lt := hdir
  names := ⟨miloName, [], by decide, by decide, by decide, by decide, .inr ⟨rfl, rfl⟩, by
    rw [slotName, slice_milo hslot (by decide)]
    decide⟩
  regular := by
    rw [slotAttr, slice_milo hslot (by decide)]
    decide
  unique := nofun
  chain := [2]
  stored := by
    have hcluster : 0 < vol.block.clusterSize := vol.cluster_pos
    rw [milo_start hslot, milo_size hslot]
    apply FatVolume.Stored.clusters (.last hlast)
    · rw [List.forall_mem_singleton]
      omega
    · rw [List.length_singleton]
      omega
    · rw [List.length_singleton]
      omega

/-! The file in the last but one sector of a volume of five sectors. -/

def smallBytes : ByteMemory :=
  image ([(12, 2), (13, 1), (14, 1), (16, 1), (17, 16), (19, 5), (21, 0xf0), (22, 1), (54, 0x46),
    (55, 0x41), (56, 0x54), (57, 0x31), (58, 0x32), (512, 0xf0), (513, 0xff), (514, 0xff),
    (515, 0xff), (516, 0x0f)] ++ miloBytes 1024)

def small : List UInt8 := diskOf smallBytes 2560

theorem bytesAt_small : bytesAt small = smallBytes := bytesAt_diskOf (by decide)

theorem small_block : parameterBlock small = ⟨512, 1, 1, 1, 16, 5, 1, 0, 0, 0⟩ := by
  rw [parameterBlock, bytesAt_small]
  rfl

theorem small_fatType : fatType small = fat12 := by
  rw [fatType, small, slice_diskOf _ (by decide)]
  decide

def smallVolume : FatVolume where
  disk := small
  fatBits := 12
  bits := .inl rfl
  sector := by rw [small_block]
  cluster_pos := by rw [small_block]; decide
  reserved_pos := by rw [small_block]; decide
  fats_pos := by rw [small_block]; decide
  parts := by rw [small_block]; decide
  whole := by rw [small_block, small, diskOf_length]; decide
  clusters := by rw [small_block]; decide
  entries := by rw [small_block]; decide
  first := by rw [small_block, bytesAt_small]; decide
  named12 _ := rfl
  named16 := by rw [small_fatType]; decide

theorem smallVolume_disk : smallVolume.disk = small := rfl

theorem smallVolume_block : smallVolume.block = ⟨512, 1, 1, 1, 16, 5, 1, 0, 0, 0⟩ := by
  rw [FatVolume.block, smallVolume_disk, small_block]

theorem small_slot : slice smallVolume.rootdir 0 32 = miloSlot := by
  have hroot : smallVolume.rootdir = slice small 1024 512 := by
    simp only [FatVolume.rootdir, smallVolume_block, smallVolume_disk]
  rw [hroot, slice_slice _ (by decide), small, slice_diskOf _ (by decide)]
  decide

theorem small_next : smallVolume.next 2 = none := by
  rw [FatVolume.next, FatVolume.entry, smallVolume_block, smallVolume_disk, bytesAt_small]
  rfl

def smallFile : RootFile smallVolume miloName :=
  miloFile smallVolume small_slot (by rw [smallVolume_block]; decide)
    (by rw [smallVolume_block]; decide) small_next

theorem small_layoutTaken : smallVolume.LayoutTaken where
  layout l hl := by
    have htaken : takenLayout small = some (blockLayout small 12) := by
      unfold takenLayout
      simp only [bytesAt_small, small_fatType]
      rfl
    exact Option.some.inj (hl.symm.trans htaken)
  tables := by
    rw [smallVolume_block]
    decide

theorem smallFile_recordsExtent : RecordsExtent smallFile := by
  have hvisited : smallFile.visited = [2] :=
    congrArg (fun start => adjacentRun [start]) (milo_start small_slot)
  refine (recordsExtent_iff smallFile small_layoutTaken).mpr (.inr ⟨?_, .inr (.inr (.inr ?_))⟩)
  · rw [hvisited, List.forall_mem_singleton, FatVolume.EntryDefined, smallVolume_block]
    decide
  · rw [smallVolume_block]
    decide

/-! The same file on a floppy of 720K. -/

def floppyBytes : ByteMemory :=
  image ([(12, 2), (13, 2), (14, 1), (16, 2), (17, 112), (19, 0xa0), (20, 5), (21, 0xf9), (22, 3),
    (512, 0xf9), (513, 0xff), (514, 0xff), (515, 0xff), (516, 0x0f)] ++ miloBytes 3584)

def floppy : List UInt8 := diskOf floppyBytes 737280

theorem bytesAt_floppy : bytesAt floppy = floppyBytes := bytesAt_diskOf (by decide)

theorem floppy_block : parameterBlock floppy = ⟨512, 2, 1, 2, 112, 1440, 3, 0, 0, 0⟩ := by
  rw [parameterBlock, bytesAt_floppy]
  rfl

def floppyVolume : FatVolume where
  disk := floppy
  fatBits := 12
  bits := .inl rfl
  sector := by rw [floppy_block]
  cluster_pos := by rw [floppy_block]; decide
  reserved_pos := by rw [floppy_block]; decide
  fats_pos := by rw [floppy_block]; decide
  parts := by rw [floppy_block]; decide
  whole := by rw [floppy_block, floppy, diskOf_length]; decide
  clusters := by rw [floppy_block]; decide
  entries := by rw [floppy_block]; decide
  first := by rw [floppy_block, bytesAt_floppy]; decide
  named12 _ := rfl
  named16 := by rw [fatType, floppy, slice_diskOf _ (by decide)]; decide

theorem floppyVolume_disk : floppyVolume.disk = floppy := rfl

theorem floppyVolume_block : floppyVolume.block = ⟨512, 2, 1, 2, 112, 1440, 3, 0, 0, 0⟩ := by
  rw [FatVolume.block, floppyVolume_disk, floppy_block]

theorem floppy_rootdir : floppyVolume.rootdir = slice floppy 3584 3584 := by
  simp only [FatVolume.rootdir, floppyVolume_block, floppyVolume_disk]

theorem floppy_slot : slice floppyVolume.rootdir 0 32 = miloSlot := by
  rw [floppy_rootdir, slice_slice _ (by decide), floppy, slice_diskOf _ (by decide)]
  decide

theorem floppy_next : floppyVolume.next 2 = none := by
  rw [FatVolume.next, FatVolume.entry, floppyVolume_block, floppyVolume_disk, bytesAt_floppy]
  rfl

def floppyFile : RootFile floppyVolume miloName :=
  miloFile floppyVolume floppy_slot (by rw [floppyVolume_block]; decide)
    (by rw [floppyVolume_block]; decide) floppy_next

theorem floppy_fatsize : 2 < 2 ^ 16 := by decide

/-- The old format that is taken for it. -/
def floppyLayout : FatLayout := ⟨2, 1, 2, 112, 2, 12, floppy_fatsize⟩

theorem floppy_taken : takenLayout floppy = some floppyLayout := by
  unfold takenLayout
  simp only [bytesAt_floppy]
  rfl

theorem floppy_read {position n : Nat} (h : position + n ≤ 737280) :
    readAt floppy position n = some (slice floppy position n) :=
  readAt_of_le (by rw [floppy, diskOf_length]; exact h)

/-- A slot, in the directory as it is read. -/
theorem slice_floppy {a k : Nat} (h : a + k ≤ 32) :
    slice (slice floppy 2560 3584) (1024 + a) k = slice miloSlot a k := by
  rw [← slice_milo floppy_slot h, floppy_rootdir, slice_slice _ (by omega),
    slice_slice _ (by omega), ← Nat.add_assoc]

/-- The format has tables of two sectors, so the search begins two sectors in front of
the root directory. -/
theorem floppy_found : findSlot (dosName miloName) (slice floppy 2560 3584) 112 = some 32 := by
  rw [findSlot, List.find?_range_eq_some]
  refine ⟨?_, by decide, fun j hj => ?_⟩
  · have hname : slotName (slice floppy 2560 3584) 32 = slice miloSlot 0 11 :=
      slice_floppy (a := 0) (k := 11) (by decide)
    have hattr : slotAttr (slice floppy 2560 3584) 32 = leValue (slice miloSlot 11 1) :=
      congrArg leValue (slice_floppy (a := 11) (k := 1) (by decide))
    rw [isEntryFor, hname, hattr]
    decide
  · have hname : slotName (slice floppy 2560 3584) j =
        (List.range' (2560 + 32 * j) 11).map floppyBytes := by
      rw [slotName, slice_slice _ (by omega), floppy, slice_diskOf _ (by omega)]
    have hother : ∀ j < 32, (List.range' (2560 + 32 * j) 11).map floppyBytes ≠
        (dosName miloName).take 11 := by decide +kernel
    rw [isEntryFor, hname, beq_eq_false_iff_ne.mpr (hother j hj)]
    rfl

theorem floppy_main : srmbootfatMain floppy miloName =
    srmbootfat floppy (floppyLayout.table floppy)
      { fatbits := 12
        clusize := 2
        fatstart := 1
        nfat := 2
        fatsize := 2
        dirents := 112
        start := 2
        size := 512 } := by
  have hroot : readAt floppy floppyLayout.rootAt (floppyLayout.dirents * 32) =
      some (slice floppy 2560 3584) := floppy_read (by decide)
  have hstart : slotStart (slice floppy 2560 3584) 32 = 2 := by
    rw [slotStart, slice_floppy (by decide)]
    decide
  have hsize : slotSize (slice floppy 2560 3584) 32 = 512 := by
    rw [slotSize, slice_floppy (by decide)]
    decide
  have hmain := srmbootfatMain_of_found (floppy_read (by decide))
    floppy_taken (by rw [floppy_block]) (floppy_read (by decide)) hroot floppy_found
    (by rw [hstart]; decide)
  rw [hstart, hsize] at hmain
  exact hmain

theorem floppy_clusters :
    countClusters (floppyLayout.table floppy) 12 (2 ^ 12 - 9) 2 1 = some (.ok 1) := by
  have hentry : getFatEntry (floppyLayout.table floppy) 12 2 = some 0xfff := by
    rw [FatLayout.table, bytesAt_floppy]
    decide
  rw [countClusters_of_some hentry]
  rfl

/-- The file is taken to lie in sector 12, it lies in sector 14. -/
theorem floppy_extent_wrong : ¬ RecordsExtent floppyFile := by
  rintro ⟨result, hresult, hrecorded⟩
  have hboot : readAt floppy 0 sectorSize = some (slice floppy 0 sectorSize) :=
    floppy_read (by decide)
  have hmain : srmbootfatMain floppy miloName =
      some (.ok (patch floppy 0 (fillSector (slice floppy 0 sectorSize) 12 1))) := by
    rw [floppy_main, srmbootfat, hboot]
    simp only [floppy_clusters]
    rfl
  have hsectors := (hrecorded _ (Option.some.inj (hresult.symm.trans hmain))).sectors 0
  have hquad : quadAt (fillSector (slice floppy 0 sectorSize) 12 1) 61 = 12 :=
    (quadAt_fillSector (readAt_length hboot) 1 (by decide)).2
  have hsize : floppyFile.size = 512 := milo_size floppy_slot
  rw [slice_filled (readAt_length hboot), hquad, hsize, floppyVolume_block] at hsectors
  exact absurd (hsectors (by decide)) (by decide)

end Milo.Tools
