import Milo.Fs.DosVolume
import Milo.Tools.SrmBoot

/-! # Finding the boot file on a FAT volume

`srmbootfat` takes the layout of the volume from its parameter block, or for some
media descriptors from a table of old formats. It looks for the file in the root
directory and writes down the extent of its clusters.
-/

namespace Milo.Tools

open Foundation
open Foundation.QuadText (leValue)
open Milo.Fs.Dos (BootSector bootSectorAt entryValue readFat readFat_value sectorsOf)

/-! ## The layout of the volume -/

def bytesAt (disk : List UInt8) : ByteMemory := fun i => disk.getD i 0

/-- `struct OldDos_t`, the fields that are used. -/
structure OldDos where
  dirLen : Nat
  clusterSize : Nat
  fatLen : Nat
  fatLen_lt : fatLen < 2 ^ 16

/-- `old_dos` -/
def oldDos : List OldDos :=
  [⟨4, 1, 2, by decide⟩, ⟨7, 2, 2, by decide⟩, ⟨4, 1, 1, by decide⟩, ⟨7, 2, 1, by decide⟩,
    ⟨7, 2, 3, by decide⟩, ⟨14, 1, 7, by decide⟩, ⟨14, 1, 9, by decide⟩, ⟨15, 2, 9, by decide⟩,
    ⟨1, 1, 1, by decide⟩]

/-- The variables of `main` that say where the parts of the volume lie. -/
structure FatLayout where
  clusize : Nat
  fatstart : Nat
  nfat : Nat
  dirents : Nat
  fatsize : Nat
  fatbits : Nat
  fatsize_lt : fatsize < 2 ^ 16
deriving DecidableEq

/-- The first five characters of `fat_type`. -/
def fatType (disk : List UInt8) : List UInt8 := slice disk 54 5

def fat12 : List UInt8 := [0x46, 0x41, 0x54, 0x31, 0x32]

def fat16 : List UInt8 := [0x46, 0x41, 0x54, 0x31, 0x36]

/-- The layout as the parameter block has it. -/
def blockLayout (disk : List UInt8) (fatbits : Nat) : FatLayout where
  clusize := (bootSectorAt (bytesAt disk)).clusterSize
  fatstart := (bootSectorAt (bytesAt disk)).reserved
  nfat := (bootSectorAt (bytesAt disk)).fats
  dirents := (bootSectorAt (bytesAt disk)).dirEntries
  fatsize := (bootSectorAt (bytesAt disk)).fatLength
  fatbits := fatbits
  fatsize_lt := readLe_lt _ 22 2

/-- The layout that `main` takes; `none` for an unrecognisable FAT type. -/
def takenLayout (disk : List UInt8) : Option FatLayout :=
  let media := (bytesAt disk 21).toNat
  if media &&& (2 ^ 32 - 8) = 0xf8 then
    have hi : media &&& 3 < oldDos.length := Nat.lt_of_le_of_lt Nat.and_le_right (by decide)
    let old := oldDos[media &&& 3]
    some ⟨old.clusterSize, 1, 2, old.dirLen * (512 / 32), old.fatLen, 12, old.fatLen_lt⟩
  else if fatType disk = fat12 then some (blockLayout disk 12)
  else if fatType disk = fat16 then some (blockLayout disk 16)
  else none

namespace FatLayout

variable (l : FatLayout)

/-- Where the root directory is read: the position behind the first table, and the
length of the others in 32 bits. -/
def rootAt : Nat := l.fatstart * 512 + l.fatsize * 512 + u32 (sub32 l.nfat 1 * (l.fatsize * 512))

/-- The first table, as it has been read. -/
def table (disk : List UInt8) : FatTable where
  bytes := fun i => bytesAt disk (l.fatstart * 512 + i)
  sectors := l.fatsize
  sectors_lt := l.fatsize_lt

end FatLayout

/-! ## The search -/

/-- `toupper` -/
def toUpper (c : UInt8) : UInt8 := if 0x61 ≤ c ∧ c ≤ 0x7a then c - 0x20 else c

def dot : UInt8 := 0x2e

/-- One round of the loop over the characters of the argument. -/
def dosNameStep (s : Nat × List UInt8) (p : UInt8) : Nat × List UInt8 :=
  if p = dot then (8, s.2)
  else if s.1 < 12 then (s.1 + 1, s.2.set s.1 (toUpper p))
  else s

/-- `dosname` -/
def dosName (arg : List UInt8) : List UInt8 :=
  (arg.foldl dosNameStep (0, List.replicate 12 0x20)).2

section
variable (rootdir : List UInt8) (k : Nat)

/-- The fields of `rootdir[k]`. -/
def slotName : List UInt8 := slice rootdir (32 * k) 11
def slotAttr : Nat := leValue (slice rootdir (32 * k + 11) 1)
def slotStart : Nat := leValue (slice rootdir (32 * k + 26) 2)
def slotSize : Nat := leValue (slice rootdir (32 * k + 28) 4)

end

/-- The entry is one for a file with this name. -/
def isEntryFor (name rootdir : List UInt8) (k : Nat) : Bool :=
  slotName rootdir k == name && slotAttr rootdir k &&& 24 == 0

/-- The loop over the directory. -/
def findSlot (dosname rootdir : List UInt8) (dirents : Nat) : Option Nat :=
  (List.range dirents).find? (isEntryFor (dosname.take 11) rootdir)

/-- `main` -/
def srmbootfatMain (disk arg : List UInt8) : Option (Except Nat (List UInt8)) :=
  match readAt disk 0 sectorSize, takenLayout disk with
  | none, _ => some (.error 2)
  | some _, none => some (.error 3)
  | some _, some l =>
      if (bootSectorAt (bytesAt disk)).sectorSize ≠ 512 then some (.error 3)
      else
        match readAt disk (l.fatstart * 512) (l.fatsize * 512), readAt disk l.rootAt (l.dirents * 32)
        with
        | some _, some rootdir =>
            match findSlot (dosName arg) rootdir l.dirents with
            | none => some (.error 4)
            | some k =>
                if slotStart rootdir k * l.fatbits > l.fatsize * 512 * 8 then some (.error 3)
                else
                  srmbootfat disk (l.table disk)
                    { fatbits := l.fatbits
                      clusize := l.clusize
                      fatstart := l.fatstart
                      nfat := l.nfat
                      fatsize := l.fatsize
                      dirents := l.dirents
                      start := slotStart rootdir k
                      size := slotSize rootdir k }
        | _, _ => some (.error 2)

/-! ## Names -/

/-- A part of a name with the blanks that fill it up. -/
def blankPadded (n : Nat) (part : List UInt8) : List UInt8 :=
  part.map toUpper ++ List.replicate (n - part.length) 0x20

/-- The argument is a name of up to eight characters, with up to three more behind
a period, and `raw` is how the directory has it. -/
structure Names (arg raw main extension : List UInt8) : Prop where
  main_dot : dot ∉ main
  extension_dot : dot ∉ extension
  main_le : main.length ≤ 8
  extension_le : extension.length ≤ 3
  arg_eq : arg = main ++ dot :: extension ∨ arg = main ∧ extension = []
  raw_eq : raw = blankPadded 8 main ++ blankPadded 3 extension

theorem foldl_dosNameStep {part : List UInt8} (hdot : dot ∉ part) {i : Nat} {name : List UInt8}
    (hname : name.length = 12) (hfits : i + part.length ≤ 12) :
    part.foldl dosNameStep (i, name) = (i + part.length, patch name i (part.map toUpper)) := by
  induction part generalizing i name with
  | nil => simp [patch]
  | cons c part ih =>
      obtain ⟨hc, hpart⟩ := not_or.mp (List.mem_cons.not.mp hdot)
      rw [List.length_cons] at hfits
      have hset : name.set i (toUpper c) = patch name i [toUpper c] := by
        rw [patch, List.set_eq_take_append_cons_drop, if_pos (by omega)]
        simp
      have hstep : dosNameStep (i, name) c = (i + 1, patch name i [toUpper c]) := by
        unfold dosNameStep
        rw [if_neg (Ne.symm hc), if_pos (by simp only; omega), hset]
      have hnext : patch (patch name i [toUpper c]) (i + 1) (part.map toUpper) =
          patch name i ([toUpper c] ++ part.map toUpper) :=
        patch_patch (by rw [List.length_singleton]; omega)
      rw [List.foldl_cons, hstep, ih hpart
        (by rw [patch_length (by rw [List.length_singleton]; omega), hname]) (by omega), hnext]
      simp [Nat.add_comm, Nat.add_left_comm]

/-- A field laid over blanks. -/
theorem patch_blanks (front part : List UInt8) (n : Nat) :
    patch (front ++ List.replicate n 0x20) front.length (part.map toUpper) =
      front ++ blankPadded n part := by
  rw [patch, List.take_left, List.drop_append, List.drop_of_length_le (Nat.le_add_right _ _),
    Nat.add_sub_cancel_left, List.drop_replicate, List.nil_append, List.append_assoc,
    List.length_map, blankPadded]

theorem blankPadded_length {n : Nat} {part : List UInt8} (h : part.length ≤ n) :
    (blankPadded n part).length = n := by
  rw [blankPadded, List.length_append, List.length_map, List.length_replicate]
  omega

theorem blankPadded_add {n : Nat} (m : Nat) {part : List UInt8} (h : part.length ≤ n) :
    blankPadded (n + m) part = blankPadded n part ++ List.replicate m 0x20 := by
  rw [blankPadded, blankPadded, List.append_assoc, List.replicate_append_replicate,
    Nat.sub_add_comm h]

/-- The name in the form of the directory. -/
theorem Names.dosName {arg raw main extension : List UInt8} (h : Names arg raw main extension) :
    (dosName arg).take 11 = raw := by
  have hmain_le := h.main_le
  have hextension_le := h.extension_le
  have hlength := blankPadded_length hmain_le
  have hmain : main.foldl dosNameStep (0, List.replicate 12 0x20) =
      (main.length, blankPadded 8 main ++ List.replicate 4 0x20) := by
    rw [foldl_dosNameStep h.main_dot List.length_replicate (by omega), Nat.zero_add,
      ← blankPadded_add 4 hmain_le]
    exact congrArg (Prod.mk _) (patch_blanks [] main 12)
  have hextension : (blankPadded 8 main ++ blankPadded 4 extension).take 11 = raw := by
    rw [h.raw_eq, blankPadded_add 1 hextension_le, ← List.append_assoc]
    apply List.take_left'
    rw [List.length_append, hlength, blankPadded_length hextension_le]
  unfold Tools.dosName
  obtain harg | ⟨harg, hnone⟩ := h.arg_eq
  · have hpatch := patch_blanks (blankPadded 8 main) extension 4
    rw [hlength] at hpatch
    rw [harg, List.foldl_append, hmain, List.foldl_cons,
      show ∀ s, dosNameStep s dot = (8, s.2) from fun s => if_pos rfl,
      foldl_dosNameStep h.extension_dot _ (by omega)]
    · exact hpatch ▸ hextension
    · rw [List.length_append, hlength, List.length_replicate]
  · rw [harg, hmain]
    rw [hnone] at hextension
    exact hextension

/-! ## Volumes -/

/-- The parameter block of a disk. -/
def parameterBlock (disk : List UInt8) : BootSector := bootSectorAt (bytesAt disk)

/-- A FAT12 or FAT16 volume with sectors of 512 bytes. Where the boot sector names
the width of the entries, it is the right one. -/
structure FatVolume where
  disk : List UInt8
  fatBits : Nat
  bits : fatBits = 12 ∨ fatBits = 16
  sector : (parameterBlock disk).sectorSize = 512
  cluster_pos : 0 < (parameterBlock disk).clusterSize
  reserved_pos : 0 < (parameterBlock disk).reserved
  fats_pos : 0 < (parameterBlock disk).fats
  parts : (parameterBlock disk).systemSectors ≤ (parameterBlock disk).totalSectors
  whole : (parameterBlock disk).totalSectors * 512 ≤ disk.length
  clusters : (parameterBlock disk).clusterCount + 12 ≤ 2 ^ fatBits
  entries : fatBits * ((parameterBlock disk).clusterCount + 2) ≤
    (parameterBlock disk).fatLength * 512 * 8
  first : 2 ^ fatBits - 256 ≤
    entryValue fatBits (fun i => bytesAt disk ((parameterBlock disk).reserved * 512 + i)) 0
  named12 : fatType disk = fat12 → fatBits = 12
  named16 : fatType disk = fat16 → fatBits = 16

namespace FatVolume

variable (vol : FatVolume)

def block : BootSector := parameterBlock vol.disk

/-- The entry of a cluster in the first table. -/
def entry (c : Nat) : Nat :=
  entryValue vol.fatBits (fun i => bytesAt vol.disk (vol.block.reserved * 512 + i)) c

/-- The link from a cluster to the next one of its file. -/
def next (c : Nat) : Option Nat :=
  if 2 ^ vol.fatBits - 8 ≤ vol.entry c then none else some (vol.entry c)

/-- The bytes of the root directory. -/
def rootdir : List UInt8 :=
  slice vol.disk ((vol.block.reserved + vol.block.fats * vol.block.fatLength) * 512)
    (vol.block.dirEntries * 32)

end FatVolume

/-- The clusters of a file of `size` bytes, from its first one on; an empty file
has none. -/
inductive FatVolume.Stored (vol : FatVolume) : Nat → Nat → List Nat → Prop where
  | empty : vol.Stored 0 0 []
  | clusters {start size : Nat} {chain : List Nat} (linked : LinkChain vol.next start chain)
      (inside : ∀ c ∈ chain, 2 ≤ c ∧ c < vol.block.clusterCount + 2)
      (covers : size ≤ chain.length * (vol.block.clusterSize * 512))
      (exact : (chain.length - 1) * (vol.block.clusterSize * 512) < size) :
      vol.Stored start size chain

theorem FatVolume.Stored.empty_or {vol : FatVolume} {start size : Nat} {chain : List Nat}
    (h : vol.Stored start size chain) : (start = 0 ∧ size = 0 ∧ chain = []) ∨
      LinkChain vol.next start chain ∧
        (∀ c ∈ chain, 2 ≤ c ∧ c < vol.block.clusterCount + 2) ∧
        size ≤ chain.length * (vol.block.clusterSize * 512) ∧
        (chain.length - 1) * (vol.block.clusterSize * 512) < size := by
  cases h with
  | empty => exact .inl ⟨rfl, rfl, rfl⟩
  | clusters linked inside covers exact => exact .inr ⟨linked, inside, covers, exact⟩

/-- A file in the root directory, the first one with its name. -/
structure RootFile (vol : FatVolume) (arg : List UInt8) where
  slot : Nat
  slot_lt : slot < vol.block.dirEntries
  names : ∃ main extension, Names arg (slotName vol.rootdir slot) main extension
  regular : slotAttr vol.rootdir slot &&& 24 = 0
  unique : ∀ j < slot, slotName vol.rootdir j = slotName vol.rootdir slot →
    slotAttr vol.rootdir j &&& 24 ≠ 0
  chain : List Nat
  stored : vol.Stored (slotStart vol.rootdir slot) (slotSize vol.rootdir slot) chain

section
variable {vol : FatVolume} {arg : List UInt8}

def RootFile.start (file : RootFile vol arg) : Nat := slotStart vol.rootdir file.slot

def RootFile.size (file : RootFile vol arg) : Nat := slotSize vol.rootdir file.slot

/-- The clusters are consecutive. -/
def RootFile.Contiguous (file : RootFile vol arg) : Prop :=
  file.chain = List.range' file.start file.chain.length

instance (file : RootFile vol arg) : Decidable file.Contiguous :=
  inferInstanceAs (Decidable (_ = _))

/-- The boot sector gives the extent of the file, sector for sector. -/
structure Recorded (file : RootFile vol arg) (boot : List UInt8) : Prop where
  contiguous : file.Contiguous
  count : quadAt boot 60 = sectorsOf file.size
  sectors : ∀ i < sectorsOf file.size,
    vol.block.deviceSector file.chain i = quadAt boot 61 + i

/-- The program leaves the disk as it is, or with the extent of the file. -/
def RecordsExtent (file : RootFile vol arg) : Prop :=
  ∃ result, srmbootfatMain vol.disk arg = some result ∧
    ∀ new, result = .ok new → Recorded file (slice new 0 sectorSize)

/-- The clusters up to the first one that the next is not behind. -/
def adjacentRun : List Nat → List Nat
  | [] => []
  | [c] => [c]
  | c :: d :: rest => if d = c + 1 then c :: adjacentRun (d :: rest) else [c]

/-- The clusters whose entries the program looks at. -/
def RootFile.visited (file : RootFile vol arg) : List Nat :=
  adjacentRun (file.start :: file.chain.tail)

/-- An entry that the program reads without a shift by 32 bits or a word behind the
table. -/
def FatVolume.EntryDefined (vol : FatVolume) (c : Nat) : Prop :=
  vol.fatBits = 16 ∨ c % 8 ≠ 0 ∧ 3 * c / 8 + 1 < vol.block.fatLength * 128

instance (c : Nat) : Decidable (vol.EntryDefined c) := inferInstanceAs (Decidable (_ ∨ _))

/-- The layout that the program takes is that of the parameter block, and it finds
the root directory behind the tables. -/
structure FatVolume.LayoutTaken (vol : FatVolume) : Prop where
  layout : ∀ l, takenLayout vol.disk = some l → l = blockLayout vol.disk vol.fatBits
  tables : (vol.block.fats - 1) * (vol.block.fatLength * 512) < 2 ^ 32

/-! ## Up to the file -/

/-- The steps up to the clusters of the file. -/
theorem srmbootfatMain_of_found {disk arg boot fat rootdir : List UInt8} {l : FatLayout} {k : Nat}
    (hboot : readAt disk 0 sectorSize = some boot) (hl : takenLayout disk = some l)
    (hsector : (parameterBlock disk).sectorSize = 512)
    (hfat : readAt disk (l.fatstart * 512) (l.fatsize * 512) = some fat)
    (hroot : readAt disk l.rootAt (l.dirents * 32) = some rootdir)
    (hfound : findSlot (dosName arg) rootdir l.dirents = some k)
    (hstart : slotStart rootdir k * l.fatbits ≤ l.fatsize * 512 * 8) :
    srmbootfatMain disk arg = srmbootfat disk (l.table disk)
      { fatbits := l.fatbits
        clusize := l.clusize
        fatstart := l.fatstart
        nfat := l.nfat
        fatsize := l.fatsize
        dirents := l.dirents
        start := slotStart rootdir k
        size := slotSize rootdir k } := by
  have hsize : ¬ (bootSectorAt (bytesAt disk)).sectorSize ≠ 512 := not_not.mpr hsector
  unfold srmbootfatMain
  simp only [hboot, hl]
  rw [if_neg hsize, hfat, hroot]
  simp only [hfound]
  rw [if_neg (Nat.not_lt.mpr hstart)]

/-- The bounds that the types of the fields give. -/
structure FieldRanges (b : BootSector) : Prop where
  clusterSize : b.clusterSize < 2 ^ 8
  reserved : b.reserved < 2 ^ 16
  fats : b.fats < 2 ^ 8
  dirEntries : b.dirEntries < 2 ^ 16
  fatLength : b.fatLength < 2 ^ 16

theorem bootSectorAt_ranges (contents : ByteMemory) : FieldRanges (bootSectorAt contents) where
  clusterSize := readLe_lt contents 13 1
  reserved := readLe_lt contents 14 2
  fats := readLe_lt contents 16 1
  dirEntries := readLe_lt contents 17 2
  fatLength := readLe_lt contents 22 2

section
variable {b : BootSector}

theorem rootSectors_of_sector (h : b.sectorSize = 512) :
    b.rootSectors = (b.dirEntries * 32 + 511) / 512 := by
  rw [BootSector.rootSectors, h]
  rfl

theorem system_le_of_sector (h : b.sectorSize = 512) (hparts : b.systemSectors ≤ b.totalSectors) :
    (b.reserved + b.fats * b.fatLength) * 512 + b.dirEntries * 32 ≤ b.totalSectors * 512 := by
  have hroot := rootSectors_of_sector h
  rw [BootSector.systemSectors] at hparts
  omega

/-- The first table lies in front of the root directory. -/
theorem table_le_of_fats (h : 0 < b.fats) : b.reserved * 512 + b.fatLength * 512 ≤
    (b.reserved + b.fats * b.fatLength) * 512 := by
  have hfats : 1 * b.fatLength ≤ b.fats * b.fatLength := Nat.mul_le_mul_right _ h
  omega

/-- The root directory lies behind all tables, if these have less than 4 GB. -/
theorem rootAt_of_tables (hr : FieldRanges b) (h : 0 < b.fats)
    (htables : (b.fats - 1) * (b.fatLength * 512) < 2 ^ 32) :
    b.reserved * 512 + b.fatLength * 512 + u32 (sub32 b.fats 1 * (b.fatLength * 512)) =
      (b.reserved + b.fats * b.fatLength) * 512 := by
  have hfats := hr.fats
  obtain ⟨n, hn⟩ := Nat.exists_eq_add_of_lt h
  rw [sub32_of_le (by omega) h, u32_of_lt htables, hn, Nat.zero_add, Nat.add_sub_cancel,
    Nat.add_mul, Nat.add_mul n 1, Nat.one_mul, Nat.add_mul, ← Nat.mul_assoc]
  omega

end

namespace FatVolume

variable (vol)

theorem ranges : FieldRanges vol.block := bootSectorAt_ranges (bytesAt vol.disk)

/-- The parts in front of the clusters lie on the disk. -/
theorem system_le : (vol.block.reserved + vol.block.fats * vol.block.fatLength) * 512 +
    vol.block.dirEntries * 32 ≤ vol.disk.length :=
  Nat.le_trans (system_le_of_sector vol.sector vol.parts) vol.whole

variable {vol}

theorem LayoutTaken.rootAt (h : vol.LayoutTaken) : (blockLayout vol.disk vol.fatBits).rootAt =
    (vol.block.reserved + vol.block.fats * vol.block.fatLength) * 512 :=
  rootAt_of_tables vol.ranges vol.fats_pos h.tables

end FatVolume

theorem RootFile.findSlot (file : RootFile vol arg) :
    findSlot (dosName arg) vol.rootdir vol.block.dirEntries = some file.slot := by
  obtain ⟨main, extension, hnames⟩ := file.names
  rw [Tools.findSlot, hnames.dosName, List.find?_range_eq_some]
  refine ⟨?_, List.mem_range.mpr file.slot_lt, fun j hj => ?_⟩
  · unfold isEntryFor
    rw [file.regular, beq_self_eq_true, Bool.true_and]
    rfl
  · have hunique := file.unique j hj
    unfold isEntryFor
    rw [Bool.not_eq_true', Bool.and_eq_false_imp, beq_iff_eq]
    exact fun hname => beq_eq_false_iff_ne.mpr (hunique hname)

/-- The numbers of the clusters have entries in the table. -/
theorem RootFile.start_le (file : RootFile vol arg) :
    file.start * vol.fatBits ≤ vol.block.fatLength * 512 * 8 := by
  have hentries : vol.fatBits * (vol.block.clusterCount + 2) ≤ vol.block.fatLength * 512 * 8 :=
    vol.entries
  have hstart : file.start ≤ vol.block.clusterCount + 2 := by
    have hstored : vol.Stored file.start file.size file.chain := file.stored
    obtain ⟨hzero, -⟩ | ⟨hlinked, hinside, -⟩ := hstored.empty_or
    · rw [hzero]
      exact Nat.zero_le _
    · obtain ⟨rest, hcons⟩ := hlinked.eq_cons
      rw [hcons] at hinside
      exact Nat.le_of_lt (hinside _ List.mem_cons_self).2
  have hmul := Nat.mul_le_mul_left vol.fatBits hstart
  rw [Nat.mul_comm]
  exact Nat.le_trans hmul hentries

/-- The first table, and what has been found. -/
def FatVolume.table (vol : FatVolume) : FatTable := (blockLayout vol.disk vol.fatBits).table vol.disk

def RootFile.bootFile (file : RootFile vol arg) : BootFile where
  fatbits := vol.fatBits
  clusize := vol.block.clusterSize
  fatstart := vol.block.reserved
  nfat := vol.block.fats
  fatsize := vol.block.fatLength
  dirents := vol.block.dirEntries
  start := file.start
  size := file.size

theorem FatVolume.readAt_sector (vol : FatVolume) :
    readAt vol.disk 0 sectorSize = some (slice vol.disk 0 sectorSize) := by
  have hsystem := vol.system_le
  have hreserved : 0 < vol.block.reserved := vol.reserved_pos
  have hfirst := Nat.mul_le_mul_right 512
    (Nat.le_trans hreserved (Nat.le_add_right _ (vol.block.fats * vol.block.fatLength)))
  exact readAt_of_le (Nat.le_trans hfirst (Nat.le_trans (Nat.le_add_right _ _) hsystem))

/-- With the right layout the program gets to the clusters of the file. -/
theorem RootFile.srmbootfatMain_eq (file : RootFile vol arg) (h : vol.LayoutTaken) {l : FatLayout}
    (hl : takenLayout vol.disk = some l) :
    srmbootfatMain vol.disk arg = srmbootfat vol.disk vol.table file.bootFile := by
  obtain rfl := h.layout l hl
  have hsystem := vol.system_le
  have htable : readAt vol.disk ((blockLayout vol.disk vol.fatBits).fatstart * 512)
      ((blockLayout vol.disk vol.fatBits).fatsize * 512) = some _ :=
    readAt_of_le (Nat.le_trans (table_le_of_fats vol.fats_pos)
      (Nat.le_trans (Nat.le_add_right _ _) hsystem))
  have hroot : readAt vol.disk (blockLayout vol.disk vol.fatBits).rootAt
      ((blockLayout vol.disk vol.fatBits).dirents * 32) = some vol.rootdir := by
    rw [h.rootAt]
    exact readAt_of_le hsystem
  exact srmbootfatMain_of_found vol.readAt_sector hl vol.sector htable hroot file.findSlot
    file.start_le

/-! ## The clusters -/

theorem FatVolume.getFatEntry_eq (vol : FatVolume) {c : Nat} (h : c < vol.block.clusterCount + 2) :
    getFatEntry vol.table vol.fatBits c =
      if vol.EntryDefined c then some (vol.entry c) else none := by
  have hentries : vol.fatBits * (vol.block.clusterCount + 2) ≤ vol.block.fatLength * 512 * 8 :=
    vol.entries
  have hentry : vol.table.HasEntry vol.fatBits c := by
    have hmul := Nat.mul_le_mul_left vol.fatBits (show c + 1 ≤ vol.block.clusterCount + 2 by omega)
    have hsize : vol.table.size = vol.block.fatLength * 512 := rfl
    rw [FatTable.HasEntry, hsize]
    omega
  have hsmall : c < 2 ^ 32 := by
    have hclusters : vol.block.clusterCount + 12 ≤ 2 ^ vol.fatBits := vol.clusters
    obtain hbits | hbits := vol.bits
    · rw [hbits] at hclusters
      omega
    · rw [hbits] at hclusters
      omega
  have hvalue : readFat vol.fatBits vol.table.bytes c = vol.entry c :=
    readFat_value vol.bits.symm hsmall
  obtain hbits | hbits := vol.bits
  · have hdefined : vol.EntryDefined c ↔ c % 8 ≠ 0 ∧ 3 * c / 8 + 1 < vol.table.sectors * 128 := by
      unfold FatVolume.EntryDefined
      rw [hbits]
      exact or_iff_right (by decide)
    rw [hbits] at hentry hvalue ⊢
    rw [getFatEntry_twelve vol.table hentry, hvalue]
    exact if_congr hdefined.symm rfl rfl
  · have hdefined : vol.EntryDefined c := .inl hbits
    rw [hbits] at hentry hvalue ⊢
    rw [getFatEntry_sixteen vol.table hentry, hvalue, if_pos hdefined]

theorem countClusters_of_none {fat : FatTable} {fatbits fatEnd c i : Nat}
    (h : getFatEntry fat fatbits c = none) : countClusters fat fatbits fatEnd c i = none := by
  rw [countClusters, h]

theorem countClusters_of_some {fat : FatTable} {fatbits fatEnd c i j : Nat}
    (h : getFatEntry fat fatbits c = some j) :
    countClusters fat fatbits fatEnd c i =
      if j < fatEnd then
        if j = c + 1 then countClusters fat fatbits fatEnd (c + 1) (i + 1) else some (.error 4)
      else some (.ok i) := by
  rw [countClusters, h]
  simp only
  split
  · split
    · rfl
    · rfl
  · rfl

theorem head_mem_adjacentRun (c : Nat) (rest : List Nat) : c ∈ adjacentRun (c :: rest) := by
  cases rest with
  | nil => exact List.mem_cons_self
  | cons d rest =>
      unfold adjacentRun
      split
      · exact List.mem_cons_self
      · exact List.mem_cons_self

/-- The walk along a chain: it ends at the first gap, and counts the clusters if
there is none. -/
theorem FatVolume.countClusters_chain (vol : FatVolume) {start : Nat} {chain : List Nat}
    (h : LinkChain vol.next start chain) (hinside : ∀ c ∈ chain, c < vol.block.clusterCount + 2)
    (i : Nat) :
    countClusters vol.table vol.fatBits (2 ^ vol.fatBits - 9) start i =
      if ∀ c ∈ adjacentRun chain, vol.EntryDefined c then
        if chain = List.range' start chain.length then some (.ok (i + (chain.length - 1)))
        else some (.error 4)
      else none := by
  have hclusters : vol.block.clusterCount + 12 ≤ 2 ^ vol.fatBits := vol.clusters
  induction h generalizing i with
  | @last c hend =>
      have hentry := vol.getFatEntry_eq (hinside c List.mem_cons_self)
      have hrun : (∀ d ∈ adjacentRun [c], vol.EntryDefined d) ↔ vol.EntryDefined c := by
        simp [adjacentRun]
      by_cases hdefined : vol.EntryDefined c
      · have hlast : ¬ vol.entry c < 2 ^ vol.fatBits - 9 := by
          unfold FatVolume.next at hend
          split at hend
          · omega
          · cases hend
        rw [if_pos hdefined] at hentry
        rw [countClusters_of_some hentry, if_neg hlast, if_pos (hrun.mpr hdefined),
          if_pos (show [c] = List.range' c [c].length from rfl)]
        rfl
      · rw [if_neg hdefined] at hentry
        rw [countClusters_of_none hentry, if_neg (mt hrun.mp hdefined)]
  | @link c d nodes hnext hrest ih =>
      have hentry := vol.getFatEntry_eq (hinside c List.mem_cons_self)
      have hrest_inside := fun b hb => hinside b (List.mem_cons_of_mem c hb)
      have hvalue : vol.entry c = d := by
        unfold FatVolume.next at hnext
        split at hnext
        · cases hnext
        · exact Option.some.inj hnext
      obtain ⟨tail, rfl⟩ := hrest.eq_cons
      have hlink : d < 2 ^ vol.fatBits - 9 := by
        have hd := hrest_inside d List.mem_cons_self
        omega
      by_cases hdefined : vol.EntryDefined c
      · rw [if_pos hdefined, hvalue] at hentry
        rw [countClusters_of_some hentry, if_pos hlink, adjacentRun]
        by_cases hadjacent : d = c + 1
        · have hrange : c :: d :: tail = List.range' c (c :: d :: tail).length ↔
              d :: tail = List.range' d (d :: tail).length := by
            rw [List.length_cons, List.range'_succ, List.cons.injEq, hadjacent]
            exact and_iff_right rfl
          have hrun : (∀ b ∈ c :: adjacentRun (d :: tail), vol.EntryDefined b) ↔
              ∀ b ∈ adjacentRun (d :: tail), vol.EntryDefined b := by
            rw [List.forall_mem_cons]
            exact and_iff_right hdefined
          rw [if_pos hadjacent, if_pos hadjacent, ← hadjacent, ih hrest_inside (i + 1)]
          refine if_congr hrun.symm (if_congr hrange.symm ?_ rfl) rfl
          simp only [List.length_cons, Nat.add_sub_cancel]
          rw [Nat.add_assoc, Nat.add_comm 1]
        · have hrange : c :: d :: tail ≠ List.range' c (c :: d :: tail).length := by
            rw [List.length_cons, List.length_cons, List.range'_succ, List.range'_succ]
            intro heq
            exact hadjacent (List.cons.inj (List.cons.inj heq).2).1
          rw [if_neg hadjacent, if_neg hadjacent, if_neg hrange,
            if_pos (List.forall_mem_singleton.mpr hdefined)]
      · have hrun : ¬ ∀ b ∈ adjacentRun (c :: d :: tail), vol.EntryDefined b :=
          fun hall => hdefined (hall c (head_mem_adjacentRun c _))
        rw [if_neg hdefined] at hentry
        rw [countClusters_of_none hentry, if_neg hrun]

end

end Milo.Tools
