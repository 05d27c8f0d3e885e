import Milo.Fs.DosVolume

/-! # The blocks of an open FAT file

Opening a file turns its chain into a list of device blocks, two for each block
that a caller reads. The list is right exactly if no sector of the file needs the
sign bit of a `short`, and its length is right exactly if the file does not end
with a full sector in a cluster of several.
-/

namespace Milo.Fs.Dos

open Foundation

/-- The device block that `msdos_bread` reads for a sector of the file, if the
sector is not behind the end. -/
def blockFor (inode : Inode) (k : Nat) : Option Int :=
  if (k : Int) ≥ inode.blocks then none else some (s16 (inode.blockList k))

/-- Each call reads two sectors of the file. -/
theorem msdosBread_eq (inode : Inode) (device : Device) (blkno : Nat) (mem : ByteMemory)
    (buffer : Nat) :
    msdosBread inode device blkno mem buffer =
      match blockFor inode (blkno * 2) with
      | none => (-1, mem)
      | some first =>
          let (count, mem) := deviceRead device mem buffer 512 (blockOffset first)
          if count ≠ 512 then (-1, mem)
          else
            match blockFor inode (blkno * 2 + 1) with
            | none => (0, mem)
            | some second =>
                (0, (deviceRead device mem (buffer + 512) 512 (blockOffset second)).2) := by
  unfold msdosBread blockFor
  by_cases hfirst : ((blkno * 2 : Nat) : Int) ≥ inode.blocks
  · rw [if_pos hfirst, if_pos hfirst]
  · rw [if_neg hfirst, if_neg hfirst]
    by_cases hsecond : ((blkno * 2 + 1 : Nat) : Int) ≥ inode.blocks
    · rw [if_pos hsecond]
      simp only [if_pos hsecond]
    · rw [if_neg hsecond]
      simp only [if_neg hsecond]

/-- An open file has the blocks that the format gives it. -/
structure MapsChain (b : BootSector) (chain : List Nat) (entry : DirEntry) (inode : Inode) :
    Prop where
  blocks : inode.blocks = sectorsOf entry.size
  sector : ∀ k < sectorsOf entry.size, blockFor inode k = some (b.deviceSector chain k : Int)

section
variable {b : BootSector} {contents : ByteMemory} {entry : DirEntry} {chain : List Nat}
  {sb : MsdosSb} {fat : List Nat}

/-- The chain of a file can be read to its end. -/
theorem fillBlockList_succeeds (hagrees : Agrees b contents sb fat) (hwf : b.WellFormed)
    (hchain : b.FileChain contents entry chain) (list newList : Nat → Nat) :
    ∃ inode, fillBlockList sb fat list newList entry = some inode := by
  obtain ⟨hpos, -, -⟩ := hchain.length_bounds hagrees.mounted.clusterSectors_pos
  have hfirst := hchain.inside _ (List.getElem_mem hpos)
  have hclusters := hagrees.mounted.clusters (by omega)
  have hle := chain_length_le hchain
  obtain ⟨read, hloop, -, -⟩ := fillLoop_chain hagrees hwf.clusters hchain.linked hchain.inside list
    (show 0 + chain.length ≤ sb.clusters by omega) (show chain.length ≤ sb.clusters + 1 by omega)
  rw [fillBlockList, hloop]
  exact ⟨_, rfl⟩

theorem sectorsOf_pos (hchain : b.FileChain contents entry chain) : 0 < sectorsOf entry.size := by
  have hexact := hchain.exact
  rw [sectorsOf]
  omega

theorem dataStart_le_deviceSector (chain : List Nat) (k : Nat) :
    b.dataStart ≤ b.deviceSector chain k := by
  rw [BootSector.deviceSector]
  omega

/-- A block that is kept in a `short` is below its sign bit. -/
theorem sector_low {inode : Inode} {k n : Nat} (h : blockFor inode k = some (n : Int)) :
    n < 2 ^ 15 := by
  rw [blockFor] at h
  split at h
  · cases h
  · have hsector := Option.some.inj h
    rw [s16] at hsector
    split at hsector <;> omega

theorem MapsChain.low {inode : Inode} (h : MapsChain b chain entry inode) {k : Nat}
    (hk : k < sectorsOf entry.size) : b.deviceSector chain k < 2 ^ 15 :=
  sector_low (h.sector k hk)

/-- The count of blocks is one too many for a full sector at the end. -/
theorem blocks_eq_iff {cs size : Nat} :
    (if cs = 1 then sectorsOf size else size / 512 + 1) = sectorsOf size ↔
      cs = 1 ∨ size % 512 ≠ 0 := by
  rw [sectorsOf]
  split <;> omega

end

/-- A file is opened with the blocks that the format gives it exactly if their
numbers are below the sign bit of a `short`, and its clusters are single sectors
or its last sector is not full. -/
theorem sectors_mapped_iff {device : Device} {sb : MsdosSb} {fat : List Nat} {entry : DirEntry}
    {chain : List Nat} (hwf : (bootSectorAt device.contents).WellFormed)
    (hmount : msdosMount device = some (sb, fat))
    (hchain : (bootSectorAt device.contents).FileChain device.contents entry chain)
    (list newList : Nat → Nat) :
    (∃ inode, fillBlockList sb fat list newList entry = some inode ∧
      MapsChain (bootSectorAt device.contents) chain entry inode) ↔
    (∀ k < sectorsOf entry.size,
        (bootSectorAt device.contents).deviceSector chain k < 2 ^ 15) ∧
      ((bootSectorAt device.contents).clusterSectors = 1 ∨ entry.size % 512 ≠ 0) := by
  have hpos := sectorsOf_pos hchain
  have hspec : (∀ k < sectorsOf entry.size,
      (bootSectorAt device.contents).deviceSector chain k < 2 ^ 15) →
      Agrees (bootSectorAt device.contents) device.contents sb fat := fun hlow => by
    have hstart := dataStart_le_deviceSector (b := bootSectorAt device.contents) chain 0
    have hfirst := hlow 0 hpos
    exact .of_mount hmount hwf (by omega)
  constructor
  · rintro ⟨inode, hopen, hmaps⟩
    have hlow := fun k hk => hmaps.low (k := k) hk
    obtain ⟨-, hblocks⟩ := fillBlockList_spec (hspec hlow) hwf hchain hlow hopen
    rw [hmaps.blocks] at hblocks
    exact ⟨hlow, blocks_eq_iff.mp (by exact_mod_cast hblocks.symm)⟩
  · rintro ⟨hlow, hlast⟩
    obtain ⟨inode, hopen⟩ := fillBlockList_succeeds (hspec hlow) hwf hchain list newList
    obtain ⟨hlist, hblocks⟩ := fillBlockList_spec (hspec hlow) hwf hchain hlow hopen
    have hcount : inode.blocks = sectorsOf entry.size := by
      rw [hblocks]
      exact_mod_cast blocks_eq_iff.mpr hlast
    refine ⟨inode, hopen, hcount, fun k hk => ?_⟩
    rw [blockFor, if_neg (by rw [hcount]; omega), hlist k hk]

/-! ## A volume with clusters of two sectors -/

/-- 40 sectors, with a file in the first cluster. -/
def pairVolume : ByteMemory :=
  image [(12, 2), (13, 2), (14, 1), (16, 1), (17, 16), (19, 40), (22, 1), (24, 1), (26, 1),
    (515, 0xff), (516, 0x0f)]

def pairSuper : MsdosSb := ⟨2, 1, 12, 1, 1, 2, 16, 3, 18⟩

def pairFat : List Nat := (List.range 341).map fun c => if c = 2 then 0xfff else 0

theorem pairVolume_wellFormed : (bootSectorAt pairVolume).WellFormed :=
  ⟨by decide +kernel, by decide +kernel, by decide +kernel⟩

theorem pairVolume_mounted : msdosMount (.sound pairVolume) = some (pairSuper, pairFat) :=
  msdosMount_oneCluster (by decide +kernel) rfl rfl rfl rfl rfl (by decide)

/-- A file of at most one cluster. -/
theorem pairVolume_chain {size : Nat} (hpos : 0 < size) (hsize : size ≤ 1024) :
    (bootSectorAt pairVolume).FileChain pairVolume ⟨2, size⟩ [2] := by
  have hcluster : (bootSectorAt pairVolume).clusterSectors = 2 := by decide +kernel
  have hend : (bootSectorAt pairVolume).fatNext pairVolume 2 = none := by decide +kernel
  refine ⟨.last hend, by decide +kernel, ?_, ?_⟩
  · rw [hcluster]
    exact hsize
  · rw [hcluster]
    exact hpos

/-- A file of one sector is opened with two blocks. -/
theorem full_sector_counted_twice :
    (bootSectorAt pairVolume).WellFormed ∧
      msdosMount (.sound pairVolume) = some (pairSuper, pairFat) ∧
      (bootSectorAt pairVolume).FileChain pairVolume ⟨2, 512⟩ [2] ∧
      ¬ ∃ inode, fillBlockList pairSuper pairFat (fun _ => 0) (fun _ => 0) ⟨2, 512⟩ = some inode ∧
        MapsChain (bootSectorAt pairVolume) [2] ⟨2, 512⟩ inode := by
  refine ⟨pairVolume_wellFormed, pairVolume_mounted, pairVolume_chain (by decide) (by decide), ?_⟩
  rintro ⟨inode, hopen, hmaps⟩
  have htwo : inode.blocks = 2 := by
    have hcount : (fillBlockList pairSuper pairFat (fun _ => 0) (fun _ => 0) ⟨2, 512⟩).map
        Inode.blocks = some 2 := by decide +kernel
    rw [hopen] at hcount
    exact Option.some.inj hcount
  have hone := hmaps.blocks
  rw [htwo] at hone
  cases hone

theorem part_of_sector_mapped :
    ∃ inode, fillBlockList pairSuper pairFat (fun _ => 0) (fun _ => 0) ⟨2, 100⟩ = some inode ∧
      MapsChain (bootSectorAt pairVolume) [2] ⟨2, 100⟩ inode :=
  (sectors_mapped_iff pairVolume_wellFormed pairVolume_mounted
    (pairVolume_chain (by decide) (by decide)) (fun _ => 0) (fun _ => 0)).mpr
    ⟨by decide +kernel, .inr (by decide)⟩

end Milo.Fs.Dos
