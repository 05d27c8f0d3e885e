import Milo.Foundation.ByteMemory
import Milo.Foundation.CInt

/-! # Reading a block device

`block_read` goes from block to block. Of the first one it takes the bytes from the
position of the file on, of the others those from their start on. The buffers of
`bread` are memories that start at address 0, with whatever lies behind the block.
A product of `int`s that overflows keeps its low half.
-/

namespace Milo.Devices

open Foundation

/-- `BLOCK_SIZE` -/
def blockSize : Nat := 1024

/-- A block device: whether `blk_dev` has a request function for it, its entry of
`blksize_size`, and what the `t`-th call of `bread` returns as `b_data`. -/
structure BlockDevice where
  requestFn : Bool
  blksizeSize : Option Nat
  bread : Nat → Int → Option ByteMemory

/-- `blocksize` -/
def BlockDevice.blocksize (dev : BlockDevice) : Nat :=
  match dev.blksizeSize with
  | some size => if size ≠ 0 then size else blockSize
  | none => blockSize

/-- A block that could not be read, or the bytes that were copied of one. -/
inductive BlockEvent where
  | failed (block : Int)
  | copied (block offset : Int) (size : Nat)
  deriving DecidableEq

/-- The bytes read so far, the position of the file, and the memory of the caller. -/
structure Reading where
  read : Nat
  fPos : Nat
  mem : ByteMemory
  events : List BlockEvent

/-- The block that a position lies in, an `int`. -/
def blockAt (fPos blocksize : Nat) : Int := toInt (fPos / blocksize : Nat)

/-- Where the bytes start that are wanted of a block, and how many they are. -/
def chunk (blocksize count : Nat) (s : Reading) (block : Int) : Int × Nat :=
  if s.read = 0 then
    let first := toInt (block * blocksize)
    let offset := toInt (s.fPos - first)
    (offset, if count > blocksize then blocksize else count)
  else (0, if count - s.read > blocksize then blocksize else count - s.read)

def Reading.copy (s : Reading) (dst : Nat) (data : ByteMemory) (block offset : Int) (size : Nat) :
    Reading where
  read := s.read + size
  fPos := s.fPos + size
  mem := fill s.mem (dst + s.read) (fun i => data (offset + i).toNat) size
  events := s.events ++ [.copied block offset size]

/-- The loop of `block_read`, for at most `n` blocks. -/
def readLoop (dev : BlockDevice) (count dst t : Nat) (s : Reading) : Nat → Reading
  | 0 => s
  | n + 1 =>
      if count ≤ s.read then s
      else
        let block := blockAt s.fPos dev.blocksize
        match dev.bread t block with
        | none => { s with events := s.events ++ [.failed block] }
        | some data =>
            let (offset, size) := chunk dev.blocksize count s block
            let s := s.copy dst data block offset size
            if s.read = count then s else readLoop dev count dst (t + 1) s n

/-- `block_read` into the memory at `dst`, with `*ppos`. -/
def blockRead (dev : BlockDevice) (fPos count dst : Nat) (mem : ByteMemory) (ppos : Nat) :
    Reading × Nat :=
  let s : Reading := ⟨0, fPos, mem, []⟩
  if dev.requestFn = false then (s, ppos)
  else
    let s := readLoop dev count dst 0 s count
    (s, ppos + s.read)

/-! ## What a read should do -/

/-- Whatever `bread` returns is the right block, followed by anything. -/
structure RightBlocks (ok : Nat → Int → Bool) (contents : ByteMemory) (dev : BlockDevice) :
    Prop where
  failed : ∀ t block, ok t block = false → dev.bread t block = none
  right : ∀ t block, ok t block = true → ∃ data, dev.bread t block = some data ∧
    ∀ i < dev.blocksize, data i = contents (block.toNat * dev.blocksize + i)

/-- The bytes of the device from `fPos` on are read, up to a block that fails, and
from inside of the blocks. -/
structure ReadsDevice (blocksize : Nat) (contents : ByteMemory) (fPos count dst : Nat)
    (s : Reading) : Prop where
  le : s.read ≤ count
  bytes : ∀ i < s.read, s.mem (dst + i) = contents (fPos + i)
  short : s.read < count → ∃ block, .failed block ∈ s.events
  inside : ∀ (block offset : Int) (size : Nat), .copied block offset size ∈ s.events →
    0 ≤ offset ∧ offset + size ≤ blocksize

/-! ## Block by block -/

theorem toInt_of_lt {n : Nat} (h : n < 2 ^ 31) : toInt n = n :=
  toInt_of_inInt (inInt_iff.mpr (by omega))

theorem first_offset (fPos : Nat) {blocksize : Nat} (hpos : 0 < blocksize)
    (hsmall : blocksize < 2 ^ 31) :
    toInt (fPos - toInt (blockAt fPos blocksize * blocksize)) = (fPos % blocksize : Nat) := by
  have hmod := Nat.mod_lt fPos hpos
  have hdiv : (fPos : Int) - (fPos / blocksize : Nat) * blocksize = (fPos % blocksize : Nat) := by
    have h : ((fPos / blocksize * blocksize + fPos % blocksize : Nat) : Int) = fPos := by
      rw [Nat.div_add_mod']
    rw [Int.natCast_add, Int.natCast_mul] at h
    omega
  have hwrap : toInt (fPos - toInt ((fPos / blocksize : Nat) * blocksize)) =
      toInt (fPos - (fPos / blocksize : Nat) * blocksize) := Int.sub_bmod_bmod
  unfold blockAt
  rw [toInt_toInt_mul, hwrap, hdiv, toInt_of_lt (by omega)]

section
variable {dev : BlockDevice} {ok : Nat → Int → Bool} {contents : ByteMemory}
  {fPos count dst : Nat}

/-- The first `k + 1` blocks are read. -/
def ReadUpTo (ok : Nat → Int → Bool) (first k : Nat) : Prop :=
  ∀ j ≤ k, ok j (toInt (first + j : Nat)) = true

/-- Byte `i` of what is read, in the block that was read for it. -/
def byteFrom (blocksize : Nat) (contents : ByteMemory) (fPos i : Nat) : UInt8 :=
  contents ((toInt (fPos / blocksize + i / blocksize : Nat)).toNat * blocksize +
    (fPos % blocksize + i % blocksize))

/-- What is read, if nothing is taken from behind a block. -/
structure ReadsBlocks (dev : BlockDevice) (ok : Nat → Int → Bool) (contents : ByteMemory)
    (fPos count dst : Nat) (s : Reading) : Prop where
  le : s.read ≤ count
  extent : ∀ i < count, i < s.read ↔ ReadUpTo ok (fPos / dev.blocksize) (i / dev.blocksize)
  bytes : ∀ i < s.read, s.mem (dst + i) = byteFrom dev.blocksize contents fPos i
  short : s.read < count → ∃ block, .failed block ∈ s.events
  inside : ∀ (block offset : Int) (size : Nat), .copied block offset size ∈ s.events →
    0 ≤ offset ∧ offset + size ≤ dev.blocksize

/-- The state in which block `k` is read. -/
structure ReadingAt (dev : BlockDevice) (ok : Nat → Int → Bool) (contents : ByteMemory)
    (fPos count dst k : Nat) (s : Reading) : Prop where
  more : k * dev.blocksize < count
  read : s.read = k * dev.blocksize
  position : s.fPos = fPos + k * dev.blocksize
  earlier : ∀ j < k, ok j (toInt (fPos / dev.blocksize + j : Nat)) = true
  bytes : ∀ i < s.read, s.mem (dst + i) = byteFrom dev.blocksize contents fPos i
  inside : ∀ (block offset : Int) (size : Nat), .copied block offset size ∈ s.events →
    0 ≤ offset ∧ offset + size ≤ dev.blocksize

theorem ReadingAt.block {k : Nat} {s : Reading} (h : ReadingAt dev ok contents fPos count dst k s)
    (hpos : 0 < dev.blocksize) :
    blockAt s.fPos dev.blocksize = toInt (fPos / dev.blocksize + k : Nat) := by
  unfold blockAt
  rw [h.position, Nat.add_mul_div_right _ _ hpos]

/-- The part of block `k` that is wanted starts behind the position in the first
block, and lies inside of the block. -/
theorem ReadingAt.chunk_eq {k : Nat} {s : Reading}
    (h : ReadingAt dev ok contents fPos count dst k s) (hpos : 0 < dev.blocksize)
    (hsmall : dev.blocksize < 2 ^ 31)
    (hfits : fPos % dev.blocksize + min count dev.blocksize ≤ dev.blocksize) :
    chunk dev.blocksize count s (blockAt s.fPos dev.blocksize) =
      (((fPos % dev.blocksize : Nat) : Int), min (count - k * dev.blocksize) dev.blocksize) := by
  have hread := h.read
  have hmore := h.more
  unfold chunk
  by_cases hk : k = 0
  · subst hk
    have hposition := h.position
    rw [Nat.zero_mul] at hread hposition
    rw [if_pos hread, hposition, Nat.add_zero, Nat.zero_mul, Nat.sub_zero]
    simp only [first_offset fPos hpos hsmall]
    split
    · rw [Nat.min_eq_right (by omega)]
    · rw [Nat.min_eq_left (by omega)]
  · have hlong := Nat.le_mul_of_pos_left dev.blocksize (Nat.pos_of_ne_zero hk)
    have haligned : fPos % dev.blocksize = 0 := by
      rw [Nat.min_eq_right (by omega)] at hfits
      omega
    rw [if_neg (by omega), hread, haligned]
    split
    · rw [Nat.min_eq_right (by omega)]
      rfl
    · rw [Nat.min_eq_left (by omega)]
      rfl

/-- A byte of block `k`. -/
theorem byteFrom_block {blocksize k i : Nat} (hlo : k * blocksize ≤ i)
    (hhi : i < k * blocksize + blocksize) :
    byteFrom blocksize contents fPos i =
      contents ((toInt (fPos / blocksize + k : Nat)).toNat * blocksize +
        (fPos % blocksize + (i - k * blocksize))) := by
  have hdiv : i / blocksize = k := Nat.div_eq_of_lt_le hlo (by rw [Nat.succ_mul]; omega)
  have hmod := Nat.div_add_mod' i blocksize
  rw [hdiv] at hmod
  unfold byteFrom
  rw [hdiv, show i % blocksize = i - k * blocksize by omega]

/-- A turn whose block is read. -/
theorem ReadingAt.copied {k : Nat} {s : Reading} {data : ByteMemory}
    (h : ReadingAt dev ok contents fPos count dst k s) (hpos : 0 < dev.blocksize)
    (hfits : fPos % dev.blocksize + min count dev.blocksize ≤ dev.blocksize) (block : Int)
    (hok : ok k (toInt (fPos / dev.blocksize + k : Nat)) = true)
    (hdata : ∀ i < dev.blocksize, data i =
      contents ((toInt (fPos / dev.blocksize + k : Nat)).toNat * dev.blocksize + i))
    {s' : Reading} (hs : s' = s.copy dst data block (fPos % dev.blocksize : Nat)
      (min (count - k * dev.blocksize) dev.blocksize)) :
    (s'.read = count → ReadsBlocks dev ok contents fPos count dst s') ∧
      (s'.read ≠ count → ReadingAt dev ok contents fPos count dst (k + 1) s') := by
  subst hs
  have hmore := h.more
  have hread := h.read
  have hposition := h.position
  have hsucc : (k + 1) * dev.blocksize = k * dev.blocksize + dev.blocksize := Nat.succ_mul _ _
  have hinner : fPos % dev.blocksize + min (count - k * dev.blocksize) dev.blocksize ≤
      dev.blocksize := by
    have hle : min (count - k * dev.blocksize) dev.blocksize ≤ min count dev.blocksize := by omega
    omega
  have hearlier : ∀ j < k + 1, ok j (toInt (fPos / dev.blocksize + j : Nat)) = true := by
    intro j hj
    rcases Nat.lt_succ_iff_lt_or_eq.mp hj with hj | rfl
    · exact h.earlier j hj
    · exact hok
  have hbytes : ∀ i < s.read + min (count - k * dev.blocksize) dev.blocksize,
      fill s.mem (dst + s.read) (fun i => data ((fPos % dev.blocksize : Nat) + (i : Int)).toNat)
        (min (count - k * dev.blocksize) dev.blocksize) (dst + i) =
          byteFrom dev.blocksize contents fPos i := by
    intro i hi
    by_cases hold : i < s.read
    · rw [fill_outside (by rw [Span.mem_mk]; omega)]
      exact h.bytes i hold
    · have haddr : dst + i = dst + s.read + (i - s.read) := by omega
      rw [haddr, fill_inside (by omega), ← Int.natCast_add, Int.toNat_natCast,
        hdata _ (by omega), @byteFrom_block contents fPos _ k i (by omega) (by omega), hread]
  have hinside : ∀ (b offset : Int) (size : Nat), BlockEvent.copied b offset size ∈
      s.events ++ [.copied block (fPos % dev.blocksize : Nat)
        (min (count - k * dev.blocksize) dev.blocksize)] →
      0 ≤ offset ∧ offset + size ≤ dev.blocksize := by
    intro b offset size hevent
    rcases List.mem_append.mp hevent with hevent | hevent
    · exact h.inside b offset size hevent
    · cases List.mem_singleton.mp hevent
      omega
  have htotal : (s.copy dst data block (fPos % dev.blocksize : Nat)
      (min (count - k * dev.blocksize) dev.blocksize)).read =
        k * dev.blocksize + min (count - k * dev.blocksize) dev.blocksize := by rw [← hread]; rfl
  constructor
  · intro hlast
    refine ⟨Nat.le_of_eq hlast, fun i hi => ?_, hbytes, fun hlt => absurd hlast (by omega), hinside⟩
    have hblock : i / dev.blocksize < k + 1 := (Nat.div_lt_iff_lt_mul hpos).mpr (by omega)
    exact iff_of_true (by omega) fun j hj => hearlier j (by omega)
  · intro hmany
    have hwhole : min (count - k * dev.blocksize) dev.blocksize = dev.blocksize := by omega
    refine ⟨by omega, by omega, ?_, hearlier, hbytes, hinside⟩
    show s.fPos + min (count - k * dev.blocksize) dev.blocksize = _
    omega

/-- A turn whose block cannot be read. -/
theorem ReadingAt.failed {k : Nat} {s : Reading}
    (h : ReadingAt dev ok contents fPos count dst k s) (hpos : 0 < dev.blocksize) (block : Int)
    (hfail : ok k (toInt (fPos / dev.blocksize + k : Nat)) = false) :
    ReadsBlocks dev ok contents fPos count dst { s with events := s.events ++ [.failed block] } where
  le := by
    have hmore := h.more
    have hread := h.read
    exact show s.read ≤ count by omega
  extent i _ := by
    show i < s.read ↔ _
    rw [h.read, ← Nat.div_lt_iff_lt_mul hpos]
    constructor
    · intro hlt j hj
      exact h.earlier j (by omega)
    · intro hall
      by_contra hge
      rw [hall k (by omega)] at hfail
      cases hfail
  bytes := h.bytes
  short _ := ⟨block, List.mem_append_right _ (List.mem_singleton_self _)⟩
  inside b offset size hevent := by
    rcases List.mem_append.mp hevent with hevent | hevent
    · exact h.inside b offset size hevent
    · cases List.mem_singleton.mp hevent

theorem readLoop_spec (hpos : 0 < dev.blocksize) (hsmall : dev.blocksize < 2 ^ 31)
    (hright : RightBlocks ok contents dev)
    (hfits : fPos % dev.blocksize + min count dev.blocksize ≤ dev.blocksize) {k n : Nat}
    {s : Reading} (h : ReadingAt dev ok contents fPos count dst k s)
    (hfuel : count - k * dev.blocksize ≤ n) :
    ReadsBlocks dev ok contents fPos count dst (readLoop dev count dst k s n) := by
  induction n generalizing k s with
  | zero =>
      have hmore := h.more
      omega
  | succ n ih =>
      have hmore := h.more
      have hread := h.read
      have hblock := h.block hpos
      have hchunk := h.chunk_eq hpos hsmall hfits
      have hsucc : (k + 1) * dev.blocksize = k * dev.blocksize + dev.blocksize := Nat.succ_mul _ _
      rw [readLoop, if_neg (by omega)]
      simp only [hchunk]
      cases hok : ok k (blockAt s.fPos dev.blocksize) with
      | false =>
          rw [hright.failed k _ hok]
          rw [hblock] at hok
          exact h.failed hpos _ hok
      | true =>
          obtain ⟨data, hdata, hbytes⟩ := hright.right k _ hok
          rw [hblock] at hok hbytes
          have hturn := h.copied hpos hfits (blockAt s.fPos dev.blocksize) hok hbytes rfl
          rw [hdata]
          simp only
          split
          · rename_i hlast
            exact hturn.1 hlast
          · rename_i hmany
            exact ih (hturn.2 hmany) (by omega)

/-- The first block is wanted. -/
theorem ReadingAt.start (mem : ByteMemory) (hcount : 0 < count) :
    ReadingAt dev ok contents fPos count dst 0 ⟨0, fPos, mem, []⟩ where
  more := by omega
  read := (Nat.zero_mul _).symm
  position := by rw [Nat.zero_mul, Nat.add_zero]
  earlier j hj := by omega
  bytes i hi := by cases hi
  inside block offset size h := by cases h

/-- What has been copied stays in the record of the loop. -/
theorem readLoop_events {t n : Nat} {s : Reading} {e : BlockEvent} (h : e ∈ s.events) :
    e ∈ (readLoop dev count dst t s n).events := by
  induction n generalizing t s with
  | zero => exact h
  | succ n ih =>
      rw [readLoop]
      split
      · exact h
      · simp only
        split
        · exact List.mem_append_left _ h
        · split
          · exact List.mem_append_left _ h
          · exact ih (List.mem_append_left _ h)

/-- Of the first block as many bytes are copied as a block has, or as are wanted. -/
theorem first_copied (hpos : 0 < dev.blocksize) (hsmall : dev.blocksize < 2 ^ 31)
    (hright : RightBlocks ok contents dev) (mem : ByteMemory) (hcount : 0 < count)
    (hok : ok 0 (blockAt fPos dev.blocksize) = true) :
    BlockEvent.copied (blockAt fPos dev.blocksize) (fPos % dev.blocksize : Nat)
        (min count dev.blocksize) ∈
      (readLoop dev count dst 0 ⟨0, fPos, mem, []⟩ count).events := by
  obtain ⟨data, hdata, _⟩ := hright.right 0 _ hok
  obtain ⟨n, rfl⟩ : ∃ n, count = n + 1 := ⟨count - 1, by omega⟩
  have hsize : (if n + 1 > dev.blocksize then dev.blocksize else n + 1) =
      min (n + 1) dev.blocksize := by
    split <;> omega
  have hmem : ∀ s : Reading, BlockEvent.copied (blockAt fPos dev.blocksize)
      (fPos % dev.blocksize : Nat) (min (n + 1) dev.blocksize) ∈
        (s.copy dst data (blockAt fPos dev.blocksize) (fPos % dev.blocksize : Nat)
          (min (n + 1) dev.blocksize)).events :=
    fun s => List.mem_append_right _ (List.mem_singleton_self _)
  rw [readLoop, if_neg (by simp)]
  simp only [hdata, chunk, if_true, first_offset fPos hpos hsmall, hsize]
  split
  · exact hmem _
  · exact readLoop_events (hmem _)

/-- Nothing is read if nothing is wanted, or if the first block fails. -/
theorem readLoop_nothing (hright : RightBlocks ok contents dev) (mem : ByteMemory)
    (h : count = 0 ∨ ok 0 (blockAt fPos dev.blocksize) = false) :
    ReadsDevice dev.blocksize contents fPos count dst
      (readLoop dev count dst 0 ⟨0, fPos, mem, []⟩ count) := by
  cases count with
  | zero =>
      exact ⟨Nat.le_refl 0, fun i hi => absurd hi (Nat.not_lt_zero i),
        fun h => absurd h (Nat.lt_irrefl 0), fun b offset size h => absurd h List.not_mem_nil⟩
  | succ n =>
      have hnone := hright.failed 0 _ (h.resolve_left (Nat.succ_ne_zero n))
      rw [readLoop, if_neg (by simp)]
      simp only [hnone]
      refine ⟨Nat.zero_le _, fun i hi => absurd hi (Nat.not_lt_zero i),
        fun _ => ⟨_, List.mem_singleton_self _⟩, fun b offset size h => ?_⟩
      cases List.mem_singleton.mp h

/-- The blocks are the right ones as long as their numbers are `int`s. -/
theorem ReadsBlocks.reads {s : Reading} (h : ReadsBlocks dev ok contents fPos count dst s)
    (hnumbers : ∀ k, k * dev.blocksize < count → ReadUpTo ok (fPos / dev.blocksize) k →
      fPos / dev.blocksize + k < 2 ^ 31) :
    ReadsDevice dev.blocksize contents fPos count dst s := by
  refine ⟨h.le, fun i hi => ?_, h.short, h.inside⟩
  have hle := h.le
  have hdiv := Nat.div_add_mod' fPos dev.blocksize
  have hmod := Nat.div_add_mod' i dev.blocksize
  have hnumber := hnumbers (i / dev.blocksize) (by omega) ((h.extent i (by omega)).mp hi)
  rw [h.bytes i hi, byteFrom, toInt_of_lt hnumber, Int.toNat_natCast]
  refine congrArg contents ?_
  rw [Nat.add_mul]
  omega

/-- A block with another number has other bytes if only the byte at the start of
block `k` is 1. -/
theorem ReadsBlocks.number_lt {s : Reading} {k : Nat}
    (hblocks : ReadsBlocks dev ok (fun a => if a = fPos + k * dev.blocksize then 1 else 0) fPos
      count dst s)
    (hdevice : ReadsDevice dev.blocksize (fun a => if a = fPos + k * dev.blocksize then 1 else 0)
      fPos count dst s)
    (hok : ∀ t block, ok t block = true → 0 ≤ block) (hpos : 0 < dev.blocksize)
    (hk : k * dev.blocksize < count) (hupTo : ReadUpTo ok (fPos / dev.blocksize) k) :
    fPos / dev.blocksize + k < 2 ^ 31 := by
  by_contra hlarge
  have hread := (hblocks.extent _ hk).mpr (by rwa [Nat.mul_div_cancel _ hpos])
  have hbyte := hblocks.bytes _ hread
  have hwrap : (toInt (fPos / dev.blocksize + k : Nat)).toNat < fPos / dev.blocksize + k := by
    have hnonneg := hok _ _ (hupTo k (Nat.le_refl k))
    have hlt : toInt (fPos / dev.blocksize + k : Nat) < 2 ^ 31 := Int.bmod_lt (by decide)
    omega
  have hlt := Nat.mul_lt_mul_of_pos_right hwrap hpos
  have hmod := Nat.div_add_mod' fPos dev.blocksize
  rw [Nat.add_mul] at hlt
  rw [hdevice.bytes _ hread, if_pos rfl, byteFrom_block (Nat.le_refl _) (by omega), Nat.sub_self,
    Nat.add_zero, if_neg (by omega)] at hbyte
  exact absurd hbyte (by decide)

end

/-- What the position, the count and the blocks that can be read must be like. -/
def ReadsRight (ok : Nat → Int → Bool) (blocksize fPos count : Nat) : Prop :=
  count = 0 ∨ ok 0 (blockAt fPos blocksize) = false ∨
    (fPos % blocksize + min count blocksize ≤ blocksize ∧
      ∀ k, k * blocksize < count → ReadUpTo ok (fPos / blocksize) k →
        fPos / blocksize + k < 2 ^ 31)

/-- A device whose blocks can be read as `ok` says. -/
def deviceOf (ok : Nat → Int → Bool) (contents : ByteMemory) (blocksize : Nat) : BlockDevice where
  requestFn := true
  blksizeSize := some blocksize
  bread t block :=
    if ok t block then some fun i => contents (block.toNat * blocksize + i) else none

theorem deviceOf_blocksize (ok : Nat → Int → Bool) (contents : ByteMemory) {blocksize : Nat}
    (hpos : 0 < blocksize) : (deviceOf ok contents blocksize).blocksize = blocksize :=
  if_pos (Nat.ne_of_gt hpos)

theorem deviceOf_rightBlocks (ok : Nat → Int → Bool) (contents : ByteMemory) {blocksize : Nat}
    (hpos : 0 < blocksize) : RightBlocks ok contents (deviceOf ok contents blocksize) where
  failed t block h := by
    unfold deviceOf
    simp only [h, Bool.false_eq_true, if_false]
  right t block h := by
    rw [deviceOf_blocksize ok contents hpos]
    unfold deviceOf
    simp only [h, if_true]
    exact ⟨_, rfl, fun _ _ => rfl⟩

theorem blockRead_fst {dev : BlockDevice} (hrequest : dev.requestFn = true) (fPos count dst : Nat)
    (mem : ByteMemory) (ppos : Nat) :
    (blockRead dev fPos count dst mem ppos).1 =
      readLoop dev count dst 0 ⟨0, fPos, mem, []⟩ count := by
  unfold blockRead
  rw [if_neg (by rw [hrequest]; decide)]

/-- `block_read` reads the bytes of a device, whatever they are and whatever lies
behind the blocks, exactly if it wants nothing from behind the first block and the
numbers of the blocks are `int`s. -/
theorem blockRead_reads_iff {ok : Nat → Int → Bool} (hok : ∀ t block, ok t block = true → 0 ≤ block)
    {blocksize : Nat} (hpos : 0 < blocksize) (hsmall : blocksize < 2 ^ 31) (fPos count : Nat) :
    (∀ dev contents, dev.requestFn = true → dev.blocksize = blocksize →
        RightBlocks ok contents dev → ∀ dst mem ppos,
          ReadsDevice blocksize contents fPos count dst
            (blockRead dev fPos count dst mem ppos).1) ↔
      ReadsRight ok blocksize fPos count := by
  constructor
  · intro hreads
    by_cases hcount : count = 0
    · exact Or.inl hcount
    · cases hfirst : ok 0 (blockAt fPos blocksize) with
      | false => exact Or.inr (Or.inl hfirst)
      | true =>
          have hevery : ∀ contents, ∃ dev : BlockDevice, dev.blocksize = blocksize ∧
              RightBlocks ok contents dev ∧ ReadsDevice blocksize contents fPos count 0
                (readLoop dev count 0 0 ⟨0, fPos, fun _ => 0, []⟩ count) := by
            intro contents
            have hsize := deviceOf_blocksize ok contents hpos
            have hright := deviceOf_rightBlocks ok contents hpos
            have h := hreads _ contents rfl hsize hright 0 (fun _ => 0) 0
            rw [blockRead_fst rfl] at h
            exact ⟨_, hsize, hright, h⟩
          have hfits : fPos % blocksize + min count blocksize ≤ blocksize := by
            obtain ⟨dev, rfl, hright, hdevice⟩ := hevery fun _ => 0
            have hcopied := @first_copied dev ok _ fPos count 0 hpos hsmall hright (fun _ => 0)
              (Nat.pos_of_ne_zero hcount) hfirst
            have hinside := hdevice.inside _ _ _ hcopied
            omega
          refine Or.inr (Or.inr ⟨hfits, fun k hk hupTo => ?_⟩)
          obtain ⟨dev, rfl, hright, hdevice⟩ :=
            hevery fun a => if a = fPos + k * blocksize then 1 else 0
          have hblocks : ReadsBlocks dev ok _ fPos count 0 _ := readLoop_spec hpos hsmall hright hfits
            (ReadingAt.start (fun _ => 0) (Nat.pos_of_ne_zero hcount))
            (show count - 0 * dev.blocksize ≤ count by omega)
          exact hblocks.number_lt hdevice hok hpos hk hupTo
  · intro hright dev contents hrequest hsize hblocks dst mem ppos
    subst hsize
    rw [blockRead_fst hrequest]
    rcases hright with hzero | hfail | ⟨hfits, hnumbers⟩
    · exact readLoop_nothing hblocks mem (Or.inl hzero)
    · exact readLoop_nothing hblocks mem (Or.inr hfail)
    · by_cases hcount : count = 0
      · exact readLoop_nothing hblocks mem (Or.inl hcount)
      · have hread : ReadsBlocks dev ok _ fPos count dst _ := readLoop_spec hpos hsmall hblocks hfits
          (ReadingAt.start mem (Nat.pos_of_ne_zero hcount))
          (show count - 0 * dev.blocksize ≤ count by omega)
        exact hread.reads hnumbers

/-- The reads of a screen at a time start in the middle of a block, and the second
one wants bytes from behind it. -/
theorem second_screen_misread :
    (blockRead (deviceOf (fun _ _ => true) (fun a => if a < 1024 then 0 else 1) 512) 384 384 0
        (fun _ => 0) 0).1.events = [.copied 0 384 384] ∧
      ¬ ReadsDevice 512 (fun a => if a < 1024 then 0 else 1) 384 384 0
        (blockRead (deviceOf (fun _ _ => true) (fun a => if a < 1024 then 0 else 1) 512) 384 384 0
          (fun _ => 0) 0).1 := by
  have hevents : (blockRead (deviceOf (fun _ _ => true) (fun a => if a < 1024 then 0 else 1) 512)
      384 384 0 (fun _ => 0) 0).1.events = [.copied 0 384 384] := by decide +kernel
  refine ⟨hevents, fun h => ?_⟩
  have hinside := h.inside 0 384 384 (by rw [hevents]; exact List.mem_singleton_self _)
  omega

/-- Three blocks, of which only a part of the last one is wanted. -/
theorem three_blocks_read :
    ReadsDevice 1024 (fun a => UInt8.ofNat a) 2048 2500 0
      (blockRead (deviceOf (fun _ block => decide (0 ≤ block)) (fun a => UInt8.ofNat a) 1024) 2048
        2500 0 (fun _ => 0) 0).1 := by
  have hreads := blockRead_reads_iff (fun _ _ h => of_decide_eq_true h)
    (show 0 < 1024 by decide) (by decide) 2048 2500
  refine hreads.mpr (Or.inr (Or.inr ⟨by decide, fun k hk _ => by omega⟩)) _ _ rfl
    (deviceOf_blocksize _ _ (by decide)) (deviceOf_rightBlocks _ _ (by decide)) 0 _ 0

end Milo.Devices
