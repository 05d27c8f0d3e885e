import Milo.Foundation.GuardedLoop
import Milo.Fs.DosMapping
import Milo.Fs.FatTable

/-! # What a chain can make the reader do

`fill_block_list` follows the links of a chain to its end or to an invalid one,
and the list that it fills has room for as many clusters as the size field of the
file has blocks. Every access of the table and of the lists is guarded here; the
chain and the size are any numbers that an image can hold.
-/

namespace Milo.Fs.Dos

open Foundation
open Foundation.Guarded

/-! ## Filling the list -/

/-- The variables of the loop of `fill_block_list`. -/
structure Filling where
  block : Nat
  index : Nat
  list : Nat → Nat

/-- The list has room for an entry, if it is to be filled. -/
def roomFor (room : Option Nat) (block : Nat) : Guarded Unit :=
  match room with
  | none => .ok ()
  | some n => access block 1 n

/-- The list after a write of the cluster. -/
def stored (room : Option Nat) (s : Filling) : Nat → Nat :=
  if room.isSome then Function.update s.list s.block (u16 s.index) else s.list

/-- A round of the loop. The number of rounds is an `int` that is compared with an
`unsigned long`; on a volume with a proper number of clusters it stays small. -/
def fillRound (sb : MsdosSb) (fat : List Nat) (room : Option Nat) (s : Filling) :
    Guarded (Filling ⊕ Option ((Nat → Nat) × Nat)) :=
  if sub64 s.index 2 ≥ sb.clusters ∨ s.block ≥ sb.clusters then .ok (.inr none)
  else do
    roomFor room s.block
    access s.index 1 fat.length
    let index := fat[s.index]?.getD 0
    if isEof sb.fatBits index then .ok (.inr (some (stored room s, s.block + 1)))
    else .ok (.inl ⟨s.block + 1, index, stored room s⟩)

/-- How many entries the list is allocated with: `size_in_blocks`. -/
def sizeInBlocks (size : Nat) : Nat := u32 (size + (sectorSize - 1)) / sectorSize

/-- `__convert_block_list`, for a list with some room. -/
def guardedConvert (sb : MsdosSb) (room : Nat) (newList : Nat → Nat) (inode : Inode) :
    Guarded Inode := do
  if sb.clusterSize > 1 then
    let newRoom := ((2 * inode.blocks * sb.clusterSize) % 2 ^ 64).toNat / 2
    (List.range inode.blocks.toNat).forM fun i => do
      access i 1 room
      access (i * sb.clusterSize) 1 newRoom
      (List.range (sb.clusterSize - 1)).forM fun j => do
        access (i * sb.clusterSize + j) 1 newRoom
        access (i * sb.clusterSize + (j + 1)) 1 newRoom
  else
    (List.range inode.blocks.toNat).forM fun i => access i 1 room
  .ok (convertBlockList sb newList inode)

/-- `fill_block_list` with `alloc` ends without a fault. -/
structure SafeFill (sb : MsdosSb) (fat : List Nat) (list newList : Nat → Nat) (entry : DirEntry) :
    Prop where
  fill : Ends (fillRound sb fat (some (sizeInBlocks entry.size))) ⟨0, entry.start, list⟩
  convert : ∀ read block,
    Yields (fillRound sb fat (some (sizeInBlocks entry.size))) ⟨0, entry.start, list⟩
      (some (read, block)) →
    Safe (guardedConvert sb (sizeInBlocks entry.size) newList ⟨entry, read, s16 block⟩)

/-- The size that `msdos_readdir` gives to a directory of some clusters. -/
def directorySize (sb : MsdosSb) (count : Nat) : Nat := u32 (count * sectorSize * sb.clusterSize)

/-- The two calls of `fill_block_list` in `msdos_readdir` end without a fault. A
directory that has a size is not filled. -/
structure SafeReaddir (sb : MsdosSb) (fat : List Nat) (list newList : Nat → Nat)
    (entry : DirEntry) : Prop where
  count : entry.size = 0 → Ends (fillRound sb fat none) ⟨0, entry.start, list⟩
  fill : entry.size = 0 → ∀ read count,
    Yields (fillRound sb fat none) ⟨0, entry.start, list⟩ (some (read, count)) →
    SafeFill sb fat list newList { entry with size := directorySize sb count }

/-! ## The chain -/

/-- The clusters that the links lead to, one after the other. -/
def chainCluster (fat : List Nat) (start : Nat) : Nat → Nat
  | 0 => start
  | k + 1 => fat[chainCluster fat start k]?.getD 0

/-- The links lead to a cluster number `k`: no earlier one is the last or invalid,
it is not invalid itself, and there are enough clusters. -/
structure HasCluster (sb : MsdosSb) (fat : List Nat) (start k : Nat) : Prop where
  valid : ∀ j ≤ k, sub64 (chainCluster fat start j) 2 < sb.clusters
  goes_on : ∀ j < k, isEof sb.fatBits (chainCluster fat start (j + 1)) = false
  counted : k < sb.clusters

/-- The chain ends after some clusters. -/
def EndsAfter (sb : MsdosSb) (fat : List Nat) (start count : Nat) : Prop :=
  ∃ k, count = k + 1 ∧ HasCluster sb fat start k ∧
    isEof sb.fatBits (chainCluster fat start (k + 1)) = true

section
variable {sb : MsdosSb} {fat : List Nat} {room : Option Nat} {start : Nat} {list : Nat → Nat}

/-- There is room for an entry. -/
def InRoom (room : Option Nat) (k : Nat) : Prop := ∀ n, room = some n → k < n

theorem roomFor_eq_ok {k : Nat} {u : Unit} : roomFor room k = .ok u ↔ InRoom room k := by
  unfold roomFor InRoom
  cases room with
  | none => simp
  | some n =>
      rw [access_eq_ok]
      simp only [Option.some.injEq, forall_eq']
      omega

/-- A round that goes on or ends at the last cluster has room for the cluster and
looks at an entry of the table. -/
theorem fillRound_eq_ok {s : Filling} {x : Filling ⊕ Option ((Nat → Nat) × Nat)}
    (hvalid : sub64 s.index 2 < sb.clusters) (hblock : s.block < sb.clusters) :
    fillRound sb fat room s = .ok x ↔
      InRoom room s.block ∧ s.index < fat.length ∧
        x = if isEof sb.fatBits (fat[s.index]?.getD 0) then .inr (some (stored room s, s.block + 1))
          else .inl ⟨s.block + 1, fat[s.index]?.getD 0, stored room s⟩ := by
  rw [fillRound, if_neg (by omega), bind_eq_ok]
  constructor
  · rintro ⟨_, hroom, hrest⟩
    obtain ⟨_, haccess, hx⟩ := bind_eq_ok.mp hrest
    have htable := access_eq_ok.mp haccess
    refine ⟨roomFor_eq_ok.mp hroom, by omega, ?_⟩
    simp only at hx
    split at hx <;> rename_i heof
    · rw [if_pos heof, ← Except.ok.inj hx]
    · rw [if_neg heof, ← Except.ok.inj hx]
  · rintro ⟨hroom, htable, rfl⟩
    refine ⟨(), roomFor_eq_ok.mpr hroom, ?_⟩
    refine bind_eq_ok.mpr ⟨(), access_eq_ok.mpr (.inr (by omega)), ?_⟩
    simp only
    split
    · rfl
    · rfl

/-- A round passes the test, or the loop is left there. -/
theorem fillRound_cases (sb : MsdosSb) (fat : List Nat) (room : Option Nat) (s : Filling) :
    (sub64 s.index 2 < sb.clusters ∧ s.block < sb.clusters) ∨
      ((sub64 s.index 2 ≥ sb.clusters ∨ s.block ≥ sb.clusters) ∧
        fillRound sb fat room s = .ok (.inr none)) := by
  by_cases hstop : sub64 s.index 2 ≥ sb.clusters ∨ s.block ≥ sb.clusters
  · exact Or.inr ⟨hstop, by rw [fillRound, if_pos hstop]⟩
  · rw [not_or, Nat.not_le, Nat.not_le] at hstop
    exact Or.inl hstop

/-- The loop is at a cluster of the chain, and it was at all clusters before. -/
structure AtCluster (sb : MsdosSb) (fat : List Nat) (start : Nat) (s : Filling) : Prop where
  index : s.index = chainCluster fat start s.block
  valid : ∀ j < s.block, sub64 (chainCluster fat start j) 2 < sb.clusters
  goes_on : ∀ j < s.block, isEof sb.fatBits (chainCluster fat start (j + 1)) = false

theorem AtCluster.hasCluster {s : Filling} (h : AtCluster sb fat start s)
    (hvalid : sub64 s.index 2 < sb.clusters) (hblock : s.block < sb.clusters) :
    HasCluster sb fat start s.block where
  valid j hj := by
    rcases Nat.lt_or_eq_of_le hj with hlt | rfl
    · exact h.valid j hlt
    · rw [← h.index]
      exact hvalid
  goes_on := h.goes_on
  counted := hblock

theorem atCluster_step (s t : Filling) (h : AtCluster sb fat start s)
    (hround : fillRound sb fat room s = .ok (.inl t)) : AtCluster sb fat start t := by
  obtain ⟨hvalid, hblock⟩ | ⟨-, hstop⟩ := fillRound_cases sb fat room s
  · obtain ⟨-, -, hnext⟩ := (fillRound_eq_ok hvalid hblock).mp hround
    split at hnext
    · cases hnext
    · rename_i heof
      cases hnext
      have hcluster := h.hasCluster hvalid hblock
      have hlink : chainCluster fat start (s.block + 1) = fat[s.index]?.getD 0 := by
        rw [chainCluster, ← h.index]
      refine ⟨hlink.symm, fun j hj => hcluster.valid j (Nat.le_of_lt_succ hj), fun j hj => ?_⟩
      rcases Nat.lt_or_eq_of_le (Nat.le_of_lt_succ hj) with hlt | rfl
      · exact h.goes_on j hlt
      · rw [hlink]
        simpa using heof
  · rw [hstop] at hround
    cases hround

theorem reaches_atCluster {s : Filling}
    (h : Reaches (fillRound sb fat room) ⟨0, start, list⟩ s) : AtCluster sb fat start s :=
  h.invariant ⟨rfl, fun _ hj => absurd hj (Nat.not_lt_zero _), fun _ hj => absurd hj (Nat.not_lt_zero _)⟩
    atCluster_step

theorem HasCluster.before {k : Nat} (h : HasCluster sb fat start (k + 1)) :
    HasCluster sb fat start k :=
  ⟨fun j hj => h.valid j (by omega), fun j hj => h.goes_on j (by omega), Nat.lt_of_succ_lt h.counted⟩

/-- A loop that ends comes to each cluster of the chain. -/
theorem reaches_cluster (hends : Ends (fillRound sb fat room) ⟨0, start, list⟩) {k : Nat}
    (hk : HasCluster sb fat start k) :
    ∃ read, Reaches (fillRound sb fat room) ⟨0, start, list⟩ ⟨k, chainCluster fat start k, read⟩ ∧
      InRoom room k ∧ chainCluster fat start k < fat.length := by
  induction k with
  | zero =>
      obtain ⟨x, hx⟩ := hends.round_ok
      have hvalid : sub64 start 2 < sb.clusters := hk.valid 0 (Nat.le_refl 0)
      obtain ⟨hroom, htable, -⟩ :=
        (fillRound_eq_ok (s := ⟨0, start, list⟩) hvalid hk.counted).mp hx
      exact ⟨list, .refl, hroom, htable⟩
  | succ k ih =>
      obtain ⟨read, hreach, hroom, htable⟩ := ih hk.before
      have hlink : isEof sb.fatBits (fat[chainCluster fat start k]?.getD 0) = false :=
        hk.goes_on k (Nat.lt_succ_self k)
      have hnext : fillRound sb fat room ⟨k, chainCluster fat start k, read⟩ =
          .ok (.inl ⟨k + 1, chainCluster fat start (k + 1),
            stored room ⟨k, chainCluster fat start k, read⟩⟩) := by
        refine (fillRound_eq_ok (s := ⟨k, chainCluster fat start k, read⟩)
          (hk.valid k (Nat.le_succ k)) hk.before.counted).mpr ⟨hroom, htable, ?_⟩
        rw [if_neg (by rw [hlink]; exact Bool.false_ne_true)]
        rfl
      have hthere := Reaches.step hreach hnext
      obtain ⟨x, hx⟩ := (hends.of_reaches hthere).round_ok
      obtain ⟨hroom', htable', -⟩ := (fillRound_eq_ok
        (s := ⟨k + 1, chainCluster fat start (k + 1), stored room ⟨k, chainCluster fat start k, read⟩⟩)
        (hk.valid (k + 1) (Nat.le_refl _)) hk.counted).mp hx
      exact ⟨_, hthere, hroom', htable'⟩

/-- The loop ends without a fault exactly if there is room for all clusters of the
chain and their entries are in the table. -/
theorem fill_ends_iff :
    Ends (fillRound sb fat room) ⟨0, start, list⟩ ↔
      ∀ k, HasCluster sb fat start k → InRoom room k ∧ chainCluster fat start k < fat.length := by
  constructor
  · intro hends k hk
    obtain ⟨-, -, hroom, htable⟩ := reaches_cluster hends hk
    exact ⟨hroom, htable⟩
  · intro hall
    refine ends_of_measure (fun s => sb.clusters - s.block) fun s hs => ?_
    have hat := reaches_atCluster hs
    obtain ⟨hvalid, hblock⟩ | ⟨-, hstop⟩ := fillRound_cases sb fat room s
    · obtain ⟨hroom, htable⟩ := hall s.block (hat.hasCluster hvalid hblock)
      rw [← hat.index] at htable
      refine ⟨_, (fillRound_eq_ok hvalid hblock).mpr ⟨hroom, htable, rfl⟩, fun u hu => ?_⟩
      split at hu
      · cases hu
      · cases hu
        simp only
        omega
    · exact ⟨_, hstop, fun u hu => by cases hu⟩

/-- A filled list ends where the chain does, and had room for its last cluster. -/
theorem yields_endsAfter {read : Nat → Nat} {block : Nat}
    (h : Yields (fillRound sb fat room) ⟨0, start, list⟩ (some (read, block))) :
    ∃ k, block = k + 1 ∧ InRoom room k ∧ HasCluster sb fat start k ∧
      isEof sb.fatBits (chainCluster fat start (k + 1)) = true := by
  obtain ⟨s, hreach, hdone⟩ := h
  have hat := reaches_atCluster hreach
  obtain ⟨hvalid, hblock⟩ | ⟨-, hstop⟩ := fillRound_cases sb fat room s
  · obtain ⟨hroom, -, hlast⟩ := (fillRound_eq_ok hvalid hblock).mp hdone
    split at hlast
    · rename_i heof
      cases hlast
      refine ⟨s.block, rfl, hroom, hat.hasCluster hvalid hblock, ?_⟩
      rw [chainCluster, ← hat.index]
      exact heof
    · cases hlast
  · rw [hstop] at hdone
    cases hdone

theorem endsAfter_yields (hends : Ends (fillRound sb fat room) ⟨0, start, list⟩) {count : Nat}
    (h : EndsAfter sb fat start count) :
    ∃ read, Yields (fillRound sb fat room) ⟨0, start, list⟩ (some (read, count)) := by
  obtain ⟨k, rfl, hk, heof⟩ := h
  obtain ⟨read, hreach, hroom, htable⟩ := reaches_cluster hends hk
  refine ⟨stored room ⟨k, chainCluster fat start k, read⟩, _, hreach,
    (fillRound_eq_ok (s := ⟨k, chainCluster fat start k, read⟩) (hk.valid k (Nat.le_refl k))
      hk.counted).mpr ⟨hroom, htable, ?_⟩⟩
  rw [chainCluster] at heof
  rw [if_pos heof]

theorem HasCluster.lt_of_endsAfter {k count : Nat} (hk : HasCluster sb fat start k)
    (h : EndsAfter sb fat start count) : k < count := by
  obtain ⟨n, rfl, -, heof⟩ := h
  by_contra hle
  rw [hk.goes_on n (by omega)] at heof
  cases heof

/-- A loop that ends without a fault does what the loop without guards does. -/
theorem fillLoop_of_ends {n room : Nat} {s : Filling}
    (h : Ends (fillRound sb fat (some room)) s) (hn : sb.clusters - s.block < n) :
    Yields (fillRound sb fat (some room)) s (fillLoop sb fat s.list s.block s.index n) := by
  induction h generalizing n with
  | @done s a hdone =>
      refine ⟨s, .refl, hdone.trans (congrArg (fun a => Except.ok (Sum.inr a)) ?_)⟩
      obtain ⟨n, rfl⟩ := Nat.exists_eq_add_of_le' (show 1 ≤ n by omega)
      obtain ⟨hvalid, hblock⟩ | ⟨hout, hstop⟩ := fillRound_cases sb fat (some room) s
      · rw [fillLoop, if_neg (by omega)]
        obtain ⟨-, -, hlast⟩ := (fillRound_eq_ok hvalid hblock).mp hdone
        split at hlast <;> rename_i heof
        · rw [if_pos heof]
          cases hlast
          rfl
        · cases hlast
      · rw [hstop] at hdone
        cases hdone
        rw [fillLoop, if_pos hout]
  | @next s t hnext _ ih =>
      obtain ⟨n, rfl⟩ := Nat.exists_eq_add_of_le' (show 1 ≤ n by omega)
      obtain ⟨hvalid, hblock⟩ | ⟨-, hstop⟩ := fillRound_cases sb fat (some room) s
      · rw [fillLoop, if_neg (by omega)]
        obtain ⟨-, -, hgoes⟩ := (fillRound_eq_ok hvalid hblock).mp hnext
        split at hgoes <;> rename_i heof
        · cases hgoes
        · simp only [if_neg heof]
          cases hgoes
          obtain ⟨u, hreach, hdone⟩ := ih (n := n) (by simp only; omega)
          exact ⟨u, hreach.head hnext, hdone⟩
      · rw [hstop] at hnext
        cases hnext

/-! ## Converting the list -/

/-- The size of the new list, for a number of clusters that a `short` keeps. -/
theorem newRoom_eq {blocks : Int} {cs : Nat} (hpos : 0 ≤ blocks) (hblocks : blocks < 2 ^ 15)
    (hcs : cs < 2 ^ 16) : ((2 * blocks * cs) % 2 ^ 64).toNat / 2 = blocks.toNat * cs := by
  obtain ⟨n, rfl⟩ := Int.eq_ofNat_of_zero_le hpos
  have hsmall : n * cs ≤ 2 ^ 15 * 2 ^ 16 := Nat.mul_le_mul (by omega) (by omega)
  have hcast : (2 * (n : Int) * cs) = ((2 * (n * cs) : Nat) : Int) := by
    push_cast
    ring
  rw [hcast, Int.toNat_natCast]
  omega

/-- A list with room for the clusters is converted inside both lists. -/
theorem guardedConvert_safe {n block : Nat} (hsize : sb.clusterSize < 2 ^ 16) (hroom : block ≤ n)
    (newList : Nat → Nat) (entry : DirEntry) (read : Nat → Nat) :
    Safe (guardedConvert sb n newList ⟨entry, read, s16 block⟩) := by
  have hle : (s16 block).toNat ≤ n := by
    rw [s16]
    split <;> omega
  have hlt : s16 block < 2 ^ 15 := by
    rw [s16]
    split <;> omega
  unfold guardedConvert
  simp only
  generalize s16 block = blocks at hle hlt
  split
  · refine safe_bind.mpr ⟨(), forM_eq_ok.mpr fun i hi => ?_, safe_ok _⟩
    rw [List.mem_range] at hi
    rw [newRoom_eq (by omega) hlt hsize]
    have hcluster : (i + 1) * sb.clusterSize ≤ blocks.toNat * sb.clusterSize :=
      Nat.mul_le_mul_right _ hi
    rw [Nat.add_mul, Nat.one_mul] at hcluster
    refine bind_eq_ok.mpr ⟨(), access_eq_ok.mpr (.inr (by omega)), ?_⟩
    refine bind_eq_ok.mpr ⟨(), access_eq_ok.mpr (.inr (by omega)), ?_⟩
    refine forM_eq_ok.mpr fun j hj => ?_
    rw [List.mem_range] at hj
    refine bind_eq_ok.mpr ⟨(), access_eq_ok.mpr (.inr (by omega)), ?_⟩
    exact access_eq_ok.mpr (.inr (by omega))
  · refine safe_bind.mpr ⟨(), forM_eq_ok.mpr fun i hi => ?_, safe_ok _⟩
    rw [List.mem_range] at hi
    exact access_eq_ok.mpr (.inr (by omega))

/-! ## The table of a mounted volume -/

/-- What the reader can rely on after a mount: the numbers in the table are words,
and it has an entry for each cluster unless the number of clusters is not one. -/
structure TableOf (sb : MsdosSb) (fat : List Nat) : Prop where
  clusterSize : sb.clusterSize < 2 ^ 16
  link : ∀ i : Nat, fat[i]?.getD 0 < 2 ^ 16
  covers : sb.clusters < 2 ^ 64 - 2 → sb.clusters + 2 ≤ fat.length

theorem countClusters_lt (b : BootSector) (sectorMult dataStart : Nat) :
    countClusters b sectorMult dataStart < 2 ^ 64 := by
  unfold countClusters
  simp only
  omega

theorem fatClusters_clusters (sb : MsdosSb) (n : Nat) :
    MsdosSb.fatClusters { sb with clusters := n } = sb.fatClusters := by
  simp only [MsdosSb.fatClusters]

/-- What the check of the super block leaves. -/
theorem readSuper_spec {b : BootSector} (h : readSuper b = some sb) :
    (sb.fatBits = 16 ∨ sb.fatBits = 12) ∧ sb.fatLength < 2 ^ 16 ∧ sb.clusterSize < 2 ^ 16 ∧
      (sb.clusters < 2 ^ 64 - 2 → sb.clusters + 2 ≤ sb.fatClusters) := by
  unfold readSuper at h
  simp only at h
  split at h
  · cases h
  split at h
  · cases h
  have hbits : (superOf b (b.sectorSize >>> 9)).fatBits = 16 ∨
      (superOf b (b.sectorSize >>> 9)).fatBits = 12 := by
    simp only [superOf]
    split
    · exact Or.inl rfl
    · exact Or.inr rfl
  have hclusters : (superOf b (b.sectorSize >>> 9)).clusters < 2 ^ 64 := countClusters_lt b _ _
  have hlength : (superOf b (b.sectorSize >>> 9)).fatLength < 2 ^ 16 := by
    simp only [superOf, u16]
    omega
  have hsize : (superOf b (b.sectorSize >>> 9)).clusterSize < 2 ^ 16 := by
    simp only [superOf, u16]
    omega
  generalize superOf b (b.sectorSize >>> 9) = super at *
  have hentries : super.fatClusters < 2 ^ 64 := by
    rw [MsdosSb.fatClusters, sectorSize]
    exact Nat.lt_of_le_of_lt (Nat.div_le_self _ _) (by omega)
  split at h <;> rename_i hcap
  · obtain rfl := Option.some.inj h
    refine ⟨hbits, hlength, hsize, fun hlt => ?_⟩
    have hsame := fatClusters_clusters super (sub64 super.fatClusters 2)
    generalize hcut : sub64 super.fatClusters 2 = cut at hlt hsame ⊢
    simp only [sub64, u64] at hcut
    rw [hsame]
    simp only at hlt ⊢
    omega
  · obtain rfl := Option.some.inj h
    refine ⟨hbits, hlength, hsize, fun hlt => ?_⟩
    rw [u64_of_lt (by omega)] at hcap
    omega

theorem readFat_lt (fatBits : Nat) (tfat : ByteMemory) (c : Nat) :
    readFat fatBits tfat c < 2 ^ 16 := by
  unfold readFat
  refine Nat.lt_of_le_of_lt Nat.and_le_right ?_
  split <;> decide

theorem TableOf.of_mount {device : Device} (h : msdosMount device = some (sb, fat)) :
    TableOf sb fat := by
  obtain ⟨hsuper, htable⟩ := msdosMount_some h
  obtain ⟨hbits, hlength, hsize, hcovers⟩ := readSuper_spec hsuper
  have hread : device.count (sb.fatStart * sectorSize) (sectorSize * sb.fatLength) =
      sectorSize * sb.fatLength := by
    by_contra hshort
    rw [translateFat, if_pos hshort] at htable
    cases htable
  rw [translateFat_eq hbits hread] at htable
  obtain rfl := Option.some.inj htable
  refine ⟨hsize, fun i => ?_, fun hlt => ?_⟩
  · rw [List.getElem?_map]
    cases (List.range _)[i]? with
    | none => exact Nat.two_pow_pos 16
    | some c => exact readFat_lt _ _ c
  · rw [List.length_map, List.length_range, wholeEntries, Nat.mul_comm sectorSize]
    exact hcovers hlt

theorem chainCluster_lt (h : TableOf sb fat) (hstart : start < 2 ^ 16) (k : Nat) :
    chainCluster fat start k < 2 ^ 16 := by
  cases k with
  | zero => exact hstart
  | succ k => exact h.link _

/-- The table has an entry for each cluster that passes the test of the loop. -/
theorem HasCluster.inside {k : Nat} (hk : HasCluster sb fat start k) (h : TableOf sb fat)
    (hstart : start < 2 ^ 16) (hlt : sb.clusters < 2 ^ 64 - 2) :
    chainCluster fat start k < fat.length := by
  have hcovers := h.covers hlt
  have hsmall := chainCluster_lt h hstart k
  have hvalid := hk.valid k (Nat.le_refl k)
  generalize chainCluster fat start k = c at *
  simp only [sub64, u64] at hvalid
  omega

/-! ## The chains that are followed safely -/

variable {newList : Nat → Nat} {entry : DirEntry}

theorem safeFill_iff (h : TableOf sb fat) :
    SafeFill sb fat list newList entry ↔
      ∀ k, HasCluster sb fat entry.start k →
        k < sizeInBlocks entry.size ∧ chainCluster fat entry.start k < fat.length := by
  have hroom : ∀ k, InRoom (some (sizeInBlocks entry.size)) k ↔ k < sizeInBlocks entry.size :=
    fun k => ⟨fun hk => hk _ rfl, fun hk n hn => Option.some.inj hn ▸ hk⟩
  constructor
  · intro hsafe k hk
    obtain ⟨hin, htable⟩ := fill_ends_iff.mp hsafe.fill k hk
    exact ⟨(hroom k).mp hin, htable⟩
  · intro hall
    refine ⟨fill_ends_iff.mpr fun k hk => ?_, fun read block hyields => ?_⟩
    · obtain ⟨hin, htable⟩ := hall k hk
      exact ⟨(hroom k).mpr hin, htable⟩
    · obtain ⟨k, rfl, hin, -⟩ := yields_endsAfter hyields
      exact guardedConvert_safe h.clusterSize ((hroom k).mp hin) newList entry read

theorem safeReaddir_iff (h : TableOf sb fat) :
    SafeReaddir sb fat list newList entry ↔
      (entry.size = 0 →
        (∀ k, HasCluster sb fat entry.start k → chainCluster fat entry.start k < fat.length) ∧
        ∀ count, EndsAfter sb fat entry.start count →
          count ≤ sizeInBlocks (directorySize sb count)) := by
  have hanywhere : ∀ k, InRoom none k := fun k n hn => by cases hn
  constructor
  · intro hsafe hzero
    have hends := hsafe.count hzero
    refine ⟨fun k hk => (fill_ends_iff.mp hends k hk).2, fun count hcount => ?_⟩
    obtain ⟨read, hyields⟩ := endsAfter_yields hends hcount
    have hfill := (safeFill_iff h).mp (hsafe.fill hzero read count hyields)
    obtain ⟨k, rfl, hk, -⟩ := hcount
    exact (hfill k hk).1
  · intro hall
    refine ⟨fun hzero => fill_ends_iff.mpr fun k hk => ⟨hanywhere k, (hall hzero).1 k hk⟩,
      fun hzero read count hyields => (safeFill_iff h).mpr fun k hk => ?_⟩
    obtain ⟨n, hn, -, hlast⟩ := yields_endsAfter hyields
    have hcount : EndsAfter sb fat entry.start count := ⟨n, hn, hlast⟩
    have hroom := (hall hzero).2 count hcount
    have hlt : k < count := hk.lt_of_endsAfter hcount
    exact ⟨Nat.lt_of_lt_of_le hlt hroom, (hall hzero).1 k hk⟩

/-- An open file is the one that `fillBlockList` leaves. -/
theorem SafeFill.opens (h : SafeFill sb fat list newList entry) :
    Yields (fillRound sb fat (some (sizeInBlocks entry.size))) ⟨0, entry.start, list⟩
      (fillLoop sb fat list 0 entry.start (sb.clusters + 1)) :=
  fillLoop_of_ends h.fill (by simp only; omega)

/-- On a mounted volume the list of an open file is filled and converted safely
exactly if it has room for all clusters that the links lead to, and that of a
directory exactly if its size does not wrap to less than its clusters. The table
is too short only if the number of clusters is one that is less than zero. -/
theorem chain_walks_safe_iff {device : Device} (hmount : msdosMount device = some (sb, fat))
    (entry : DirEntry) (hstart : entry.start < 2 ^ 16) (list newList : Nat → Nat) :
    (SafeFill sb fat list newList entry ↔
      ∀ k, HasCluster sb fat entry.start k →
        k < sizeInBlocks entry.size ∧
          (2 ^ 64 - 2 ≤ sb.clusters → chainCluster fat entry.start k < fat.length)) ∧
    (SafeReaddir sb fat list newList entry ↔
      (entry.size = 0 →
        (∀ k, HasCluster sb fat entry.start k →
          2 ^ 64 - 2 ≤ sb.clusters → chainCluster fat entry.start k < fat.length) ∧
        ∀ count, EndsAfter sb fat entry.start count →
          count ≤ sizeInBlocks (directorySize sb count))) := by
  have htable := TableOf.of_mount hmount
  have hinside : ∀ k, HasCluster sb fat entry.start k →
      (chainCluster fat entry.start k < fat.length ↔
        (2 ^ 64 - 2 ≤ sb.clusters → chainCluster fat entry.start k < fat.length)) := by
    intro k hk
    refine ⟨fun hlt _ => hlt, fun hcond => ?_⟩
    by_cases hwrapped : 2 ^ 64 - 2 ≤ sb.clusters
    · exact hcond hwrapped
    · exact hk.inside htable hstart (Nat.lt_of_not_le hwrapped)
  constructor
  · rw [safeFill_iff htable]
    exact forall₂_congr fun k hk => and_congr_right fun _ => hinside k hk
  · rw [safeReaddir_iff htable]
    exact forall_congr' fun _ => and_congr_left fun _ => forall₂_congr hinside

end

/-! ## Two entries of one cluster -/

theorem pair_endsAfter : EndsAfter pairSuper pairFat 2 1 := by
  refine ⟨0, rfl, ⟨fun j hj => ?_, fun j hj => absurd hj (Nat.not_lt_zero j), by decide⟩,
    by decide +kernel⟩
  rw [Nat.le_zero.mp hj]
  decide

/-- An entry with a cluster but no size: the cluster is written behind a list of no
entries. -/
theorem cluster_without_size :
    msdosMount (.sound pairVolume) = some (pairSuper, pairFat) ∧
      fillRound pairSuper pairFat (some (sizeInBlocks 0)) ⟨0, 2, fun _ => 0⟩ = .error .outside ∧
      ¬ SafeFill pairSuper pairFat (fun _ => 0) (fun _ => 0) ⟨2, 0⟩ := by
  have hfault : fillRound pairSuper pairFat (some (sizeInBlocks 0)) ⟨0, 2, fun _ => 0⟩ =
      .error .outside := rfl
  refine ⟨pairVolume_mounted, hfault, fun hsafe => ?_⟩
  obtain ⟨x, hx⟩ := hsafe.fill.round_ok
  rw [hfault] at hx
  cases hx

/-- A file with a size for its cluster, and a directory, which has none. -/
theorem cluster_followed_safely :
    SafeFill pairSuper pairFat (fun _ => 0) (fun _ => 0) ⟨2, 100⟩ ∧
      SafeReaddir pairSuper pairFat (fun _ => 0) (fun _ => 0) ⟨2, 0⟩ := by
  have hfew : ¬ 2 ^ 64 - 2 ≤ pairSuper.clusters := by decide
  refine ⟨?_, ?_⟩
  · refine (chain_walks_safe_iff pairVolume_mounted ⟨2, 100⟩ (by decide) _ _).1.mpr
      fun k hk => ⟨?_, fun hmany => absurd hmany hfew⟩
    exact Nat.lt_of_lt_of_le (hk.lt_of_endsAfter pair_endsAfter) (by decide)
  · refine (chain_walks_safe_iff pairVolume_mounted ⟨2, 0⟩ (by decide) _ _).2.mpr
      fun _ => ⟨fun k hk hmany => absurd hmany hfew, fun count hcount => ?_⟩
    obtain ⟨k, rfl, hk, -⟩ := hcount
    have hone := hk.lt_of_endsAfter pair_endsAfter
    obtain rfl : k = 0 := by omega
    decide

end Milo.Fs.Dos
