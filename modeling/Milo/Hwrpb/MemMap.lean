import Milo.Foundation.RunLength
import Milo.Memory.PageMap

/-! # The memory description for the kernel

`build_HWRPB_mem_map` frees the temporary pages and describes the map that
results as a list of clusters behind the HWRPB. The list is built in place:
`cluster` points at the last one, which grows as long as the usage stays the
same. `usage` is wider than the map's `char`, so it keeps the value of an entry.
-/

namespace Milo.Hwrpb

open Foundation Milo.Memory

/-- The fields of `struct memclust_struct` that are set. -/
structure Cluster where
  startPfn : Nat
  numpages : Nat
  usage : UInt8
  deriving DecidableEq

structure Memdesc where
  numclusters : Nat
  cluster : Nat → Cluster

/-- The loop that frees temporary pages. -/
def freeTemporary (map : PageMap) (pfn : Nat) : Nat → PageMap
  | 0 => map
  | n + 1 =>
      freeTemporary
        (if map pfn = temporaryPage then Function.update map pfn freePage else map) (pfn + 1) n

/-- The description with the index that `cluster` points at. -/
structure ClusterScan where
  memdesc : Memdesc
  current : Nat

/-- The body of the cluster loop. -/
def scanPage (map : PageMap) (pfn : Nat) (s : ClusterScan) : ClusterScan :=
  let cells := s.memdesc.cluster
  let cluster := cells s.current
  if map pfn = cluster.usage then
    { s with
      memdesc := { s.memdesc with
        cluster := Function.update cells s.current
          { cluster with numpages := cluster.numpages + 1 } } }
  else
    { memdesc :=
        { numclusters := s.memdesc.numclusters + 1
          cluster := Function.update cells s.memdesc.numclusters
            { startPfn := pfn, numpages := 1, usage := map pfn } }
      current := s.memdesc.numclusters }

def scanClusters (map : PageMap) (pfn : Nat) : Nat → ClusterScan → ClusterScan
  | 0, s => s
  | n + 1, s => scanClusters map (pfn + 1) n (scanPage map pfn s)

/-- The description with the first page in the first cluster. -/
def firstCluster (map : PageMap) (memdesc : Memdesc) : ClusterScan where
  memdesc :=
    { numclusters := 1
      cluster := Function.update memdesc.cluster 0
        { startPfn := 0, numpages := 1, usage := map 0 } }
  current := 0

/-- `build_HWRPB_mem_map`. The second loop starts at page 1. -/
def buildHwrpbMemMap (map : PageMap) (lastpfn : Nat) (memdesc : Memdesc) : PageMap × Memdesc :=
  let map := freeTemporary map 0 (u32 (lastpfn + 1))
  (map, (scanClusters map 1 (u32 (lastpfn + 1) - 1) (firstCluster map memdesc)).memdesc)

/-! ## The map -/

theorem freeTemporary_apply (map : PageMap) (pfn n page : Nat) :
    freeTemporary map pfn n page =
      if (pfn ≤ page ∧ page < pfn + n) ∧ map page = temporaryPage then freePage
      else map page := by
  induction n generalizing map pfn with
  | zero =>
      rw [if_neg (by omega)]
      rfl
  | succ n ih =>
      rw [freeTemporary, ih]
      by_cases hpage : page = pfn
      · subst hpage
        rw [if_neg (by omega)]
        by_cases htemp : map page = temporaryPage
        · rw [if_pos htemp, Function.update_self, if_pos ⟨by omega, htemp⟩]
        · rw [if_neg htemp, if_neg (fun h => htemp h.2)]
      · have hrange : (pfn + 1 ≤ page ∧ page < pfn + 1 + n) ↔ (pfn ≤ page ∧ page < pfn + (n + 1)) := by
          omega
        have hkeep : (if map pfn = temporaryPage then Function.update map pfn freePage else map) page =
            map page := by
          split
          · exact Function.update_of_ne hpage _ _
          · rfl
        simp only [hkeep, hrange]

/-! ## The clusters -/

def Cluster.toRun (c : Cluster) : Run UInt8 := ⟨c.startPfn, c.numpages, c.usage⟩

/-- The clusters that the description counts. -/
def Memdesc.clusters (d : Memdesc) : List Cluster := (List.range d.numclusters).map d.cluster

/-- The first `k` cells and cell `k`, also when it has just been written. -/
theorem cells_succ (cells : Nat → Cluster) (k : Nat) :
    (List.range (k + 1)).map cells = (List.range k).map cells ++ [cells k] := by
  rw [List.range_succ, List.map_append, List.map_singleton]

theorem cells_write (cells : Nat → Cluster) (k : Nat) (c : Cluster) :
    (List.range (k + 1)).map (Function.update cells k c) = (List.range k).map cells ++ [c] := by
  rw [cells_succ, Function.update_self]
  congr 1
  apply List.map_congr_left
  intro i hi
  rw [Function.update_of_ne (Nat.ne_of_lt (List.mem_range.mp hi))]

/-- The pages before `pfn` are described, and `cluster` is the last one. -/
structure ClusterScan.Inv (map : PageMap) (pfn : Nat) (cells : Nat → Cluster)
    (s : ClusterScan) : Prop where
  count : s.memdesc.numclusters = s.current + 1
  described : IsRunLength map pfn (s.memdesc.clusters.map Cluster.toRun)
  beyond : ∀ i, s.memdesc.numclusters ≤ i → s.memdesc.cluster i = cells i

theorem firstCluster_inv (map : PageMap) (memdesc : Memdesc) :
    (firstCluster map memdesc).Inv map 1 memdesc.cluster where
  count := rfl
  described := by
    simpa [Memdesc.clusters, firstCluster, Cluster.toRun] using isRunLength_one
  beyond := by
    intro i hi
    have hone : (firstCluster map memdesc).memdesc.numclusters = 1 := rfl
    exact Function.update_of_ne (by omega) _ _

theorem scanPage_inv {map : PageMap} {pfn : Nat} {cells : Nat → Cluster} {s : ClusterScan}
    (h : s.Inv map pfn cells) : (scanPage map pfn s).Inv map (pfn + 1) cells := by
  obtain ⟨⟨count, written⟩, current⟩ := s
  obtain ⟨hcount, hdescribed, hbeyond⟩ := h
  dsimp only at hcount hbeyond
  subst hcount
  rw [Memdesc.clusters, cells_succ, List.map_append, List.map_singleton] at hdescribed
  by_cases hsame : map pfn = (written current).usage
  · simp only [scanPage, if_pos hsame]
    refine ⟨rfl, ?_, ?_⟩
    · rw [Memdesc.clusters, cells_write, List.map_append, List.map_singleton]
      exact hdescribed.extend hsame
    · intro i hi
      dsimp only at hi ⊢
      rw [Function.update_of_ne (by omega)]
      exact hbeyond i hi
  · simp only [scanPage, if_neg hsame]
    refine ⟨rfl, ?_, ?_⟩
    · rw [Memdesc.clusters, cells_write, cells_succ, List.map_append, List.map_append,
        List.map_singleton, List.map_singleton]
      exact hdescribed.append hsame
    · intro i hi
      dsimp only at hi ⊢
      rw [Function.update_of_ne (by omega)]
      exact hbeyond i (by omega)

theorem scanClusters_inv {map : PageMap} {pfn : Nat} {cells : Nat → Cluster} {s : ClusterScan}
    (n : Nat) (h : s.Inv map pfn cells) :
    (scanClusters map pfn n s).Inv map (pfn + n) cells := by
  induction n generalizing pfn s with
  | zero => exact h
  | succ n ih =>
      have hrest := ih (scanPage_inv h)
      rwa [show pfn + 1 + n = pfn + (n + 1) by omega] at hrest

/-! ## The whole description -/

/-- Temporary pages become free and nothing else changes; the clusters are the
maximal run-length encoding of the resulting map, counted by `numclusters`, and
no cell after them is written. -/
theorem buildHwrpbMemMap_describes (map : PageMap) (lastpfn : Nat) (memdesc : Memdesc)
    (hlast : lastpfn + 1 < 2 ^ 32) :
    let (map', memdesc') := buildHwrpbMemMap map lastpfn memdesc
    (∀ page, map' page = if page ≤ lastpfn ∧ map page = temporaryPage then freePage else map page) ∧
      IsRunLength map' (lastpfn + 1) (memdesc'.clusters.map Cluster.toRun) ∧
      memdesc'.clusters.length = memdesc'.numclusters ∧
      ∀ i, memdesc'.numclusters ≤ i → memdesc'.cluster i = memdesc.cluster i := by
  have hbound := u32_of_lt hlast
  have hscan := scanClusters_inv (u32 (lastpfn + 1) - 1)
    (firstCluster_inv (freeTemporary map 0 (u32 (lastpfn + 1))) memdesc)
  rw [show 1 + (u32 (lastpfn + 1) - 1) = lastpfn + 1 by omega] at hscan
  refine ⟨?_, hscan.described, ?_, hscan.beyond⟩
  · intro page
    have hrange : (0 ≤ page ∧ page < 0 + u32 (lastpfn + 1)) ↔ page ≤ lastpfn := by omega
    simp only [freeTemporary_apply, hrange]
  · rw [Memdesc.clusters, List.length_map, List.length_range]

theorem buildHwrpbMemMap_describes_three :
    let (map, memdesc) := buildHwrpbMemMap (fun page => if page = 1 then temporaryPage else 2) 2
      ⟨0, fun _ => ⟨0, 0, 0⟩⟩
    map 1 = freePage ∧ IsRunLength map 3 (memdesc.clusters.map Cluster.toRun) := by
  have h := buildHwrpbMemMap_describes (fun page => if page = 1 then temporaryPage else 2) 2
    ⟨0, fun _ => ⟨0, 0, 0⟩⟩ (by decide)
  exact ⟨h.1 1, h.2.1⟩

/-- With the largest `lastpfn` the loop bound wraps to zero: no page is freed
and one cluster of one page is all that is described. -/
theorem buildHwrpbMemMap_wraps :
    let (map, memdesc) := buildHwrpbMemMap (fun _ => temporaryPage) 0xffffffff
      ⟨0, fun _ => ⟨0, 0, 0⟩⟩
    map 0 = temporaryPage ∧ memdesc.clusters = [⟨0, 1, temporaryPage⟩] ∧
      ¬ IsRunLength map (0xffffffff + 1) (memdesc.clusters.map Cluster.toRun) := by
  refine ⟨rfl, rfl, ?_⟩
  intro h
  have htotal := h.total
  revert htotal
  decide

end Milo.Hwrpb
