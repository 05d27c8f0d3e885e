import Milo.Fs.BlockReader

/-! # The ext2 reader

Mounting, the reading of inodes and the mapping of a file's blocks through the
two cached indirect blocks. Each function that reads the device is given the
number of its first read, so that reads may fail in any pattern.
-/

namespace Milo.Fs.Ext2

open Foundation

/-- `EXT2_SUPER_MAGIC` -/
def superMagic : Nat := 0xEF53

/-- `EXT2_MAX_BLOCK_SIZE`, the size of the block buffers. -/
def maxBlockSize : Nat := 4096

/-- `EXT2_NDIR_BLOCKS` -/
def ndirBlocks : Nat := 12

/-- `struct ext2_super_block`, the fields that are read. -/
structure SuperBlock where
  blocksCount : Nat
  firstDataBlock : Nat
  logBlockSize : Nat
  blocksPerGroup : Nat
  inodesPerGroup : Nat
  magic : Nat

/-- The first super block as it lies on the device. -/
def superBlockAt (contents : ByteMemory) : SuperBlock where
  blocksCount := readLe contents (1024 + 4) 4
  firstDataBlock := readLe contents (1024 + 20) 4
  logBlockSize := readLe contents (1024 + 24) 4
  blocksPerGroup := readLe contents (1024 + 32) 4
  inodesPerGroup := readLe contents (1024 + 40) 4
  magic := readLe contents (1024 + 56) 2

/-- What a mount leaves in the variables of the reader. -/
structure Volume where
  inodesPerGroup : Nat
  /-- `bg_inode_table` of each entry of `gds` -/
  inodeTables : List Nat
  blocksize : Nat
  directlim : Nat
  ptrsPerBlk : Nat
  ind1lim : Nat
  ind2lim : Nat
  deriving DecidableEq

/-- The volume with the geometry that its block size gives. -/
def volumeOf (sb : SuperBlock) (inodeTables : List Nat) : Volume :=
  let blocksize := u32 (1024 <<< sb.logBlockSize)
  let directlim := ndirBlocks - 1
  let ptrsPerBlk := blocksize / 4
  { inodesPerGroup := sb.inodesPerGroup
    inodeTables := inodeTables
    blocksize := blocksize
    directlim := directlim
    ptrsPerBlk := ptrsPerBlk
    ind1lim := ptrsPerBlk + directlim
    ind2lim := ptrsPerBlk * ptrsPerBlk + directlim }

/-- `ngroups` -/
def groupsOf (sb : SuperBlock) : Nat :=
  sub32 (u32 (sub32 sb.blocksCount sb.firstDataBlock + sb.blocksPerGroup)) 1 / sb.blocksPerGroup

/-- `ext2_mount`: the super block is read first, then the group descriptors,
which the code takes to follow it immediately. -/
def ext2Mount (drive : Drive) (t : Nat) : Option Volume :=
  if (drive.device t).count 1024 1024 ≠ 1024 then none
  else
    let sb := superBlockAt drive.contents
    if sb.magic ≠ superMagic then none
    else
      let size := groupsOf sb * 32
      if (drive.device (t + 1)).count 2048 size ≠ size then none
      else
        some (volumeOf sb ((List.range (groupsOf sb)).map fun g =>
          readLe drive.contents (2048 + 32 * g + 8) 4))

/-! ## Inodes -/

/-- `struct ext2_inode`: the memory as seen from its address. -/
abbrev Inode := ByteMemory

def Inode.mode (ip : Inode) : Nat := readLe ip 0 2

def Inode.size (ip : Inode) : Nat := readLe ip 4 4

def Inode.blocks (ip : Inode) : Nat := readLe ip 28 4

/-- `i_block[i]`, or the word at that place in the memory around the array. -/
def Inode.block (ip : Inode) (i : Int) : Nat := readLe ip ((40 + 4 * i) % 2 ^ 64).toNat 4

/-- The place of an inode on the device. -/
def inodeOffset (vol : Volume) (ino : Nat) : Nat :=
  let group := sub32 ino 1 / vol.inodesPerGroup
  u64 (vol.inodeTables[group]?.getD 0 * vol.blocksize + sub32 ino 1 % vol.inodesPerGroup * 128)

/-! ## Block mapping -/

/-- A buffer for a block and the number of the block that was read into it last. -/
structure BlockCache where
  blkno : Nat
  buf : ByteMemory

/-- The two cached blocks, `iblkbuf` and `diblkbuf`. -/
structure Caches where
  ind : BlockCache
  dind : BlockCache

/-- The number that stands for no block: -1 as an `unsigned long`. -/
def noBlock : Nat := 2 ^ 64 - 1

/-- Have a block in the buffer. A read that fails leaves the old number. -/
def BlockCache.load (device : Device) (blocksize : Nat) (cache : BlockCache) (blkno : Nat) :
    Bool × BlockCache :=
  if cache.blkno ≠ blkno then
    let (count, buf) := deviceRead device cache.buf 0 blocksize (u64 (blkno * blocksize))
    if count ≠ blocksize then (false, { cache with buf := buf }) else (true, ⟨blkno, buf⟩)
  else (true, cache)

/-- An entry of a block of pointers. -/
def BlockCache.entry (cache : BlockCache) (i : Nat) : Nat := readLe cache.buf (4 * i) 4

/-- The mapping through the single indirect block. -/
def singleIndirect (device : Device) (vol : Volume) (caches : Caches) (iblkno index : Nat) :
    Int × Caches :=
  if iblkno = 0 then (0, caches)
  else
    let (ok, ind) := caches.ind.load device vol.blocksize iblkno
    if ok then (s32 (ind.entry index), { caches with ind := ind })
    else (0, { caches with ind := ind })

/-- `ext2_blkno`, without its `allocate` argument. -/
def ext2Blkno (drive : Drive) (t : Nat) (vol : Volume) (caches : Caches) (ip : Inode)
    (blkoff : Int) : Int × Caches :=
  if blkoff ≤ vol.directlim then (s32 (ip.block blkoff), caches)
  else if blkoff ≤ vol.ind1lim then
    singleIndirect (drive.device t) vol caches (ip.block 12) (blkoff - (vol.directlim + 1)).toNat
  else if blkoff ≤ vol.ind2lim then
    let diblkno := ip.block 13
    if diblkno = 0 then (0, caches)
    else
      let (ok, dind) := caches.dind.load (drive.device t) vol.blocksize diblkno
      let caches := { caches with dind := dind }
      if ok then
        let rest := (blkoff - (vol.ind1lim + 1)).toNat
        singleIndirect (drive.device (t + 1)) vol caches (dind.entry (rest / vol.ptrsPerBlk))
          (rest % vol.ptrsPerBlk)
      else (0, caches)
  else (0, caches)

/-- `ext2_breadi`: the block is put at `buffer`; an error is only printed. -/
def ext2Breadi (drive : Drive) (t : Nat) (vol : Volume) (caches : Caches) (ip : Inode)
    (blkno : Nat) (mem : ByteMemory) (buffer : Nat) : ByteMemory × Caches :=
  let (devBlkno, caches) := ext2Blkno drive t vol caches ip (s32 blkno)
  if devBlkno = 0 then (fill mem buffer (fun _ => 0) vol.blocksize, caches)
  else
    let offset := ((devBlkno * vol.blocksize) % 2 ^ 64).toNat
    ((deviceRead (drive.device (t + 2)) mem buffer vol.blocksize offset).2, caches)

/-- `ext2_bread`, with the caches that it leaves. -/
def ext2Bread (drive : Drive) (t : Nat) (vol : Volume) (caches : Caches) (ip : Inode)
    (blkno : Nat) (mem : ByteMemory) (buffer : Nat) : Int × ByteMemory × Caches :=
  (0, ext2Breadi drive t vol caches ip blkno mem buffer)

/-! ## The format -/

/-- The block that the format assigns to a file's block `n`; 0 is a hole. -/
def blockPointer (contents : ByteMemory) (blocksize : Nat) (ip : Inode) (n : Nat) : Nat :=
  let p := blocksize / 4
  let entry (blk i : Nat) := if blk = 0 then 0 else readLe contents (blk * blocksize + 4 * i) 4
  if n < 12 then ip.block n
  else if n < 12 + p then entry (ip.block 12) (n - 12)
  else if n < 12 + p + p * p then
    let rest := n - 12 - p
    entry (entry (ip.block 13) (rest / p)) (rest % p)
  else
    let rest := n - 12 - p - p * p
    entry (entry (entry (ip.block 14) (rest / (p * p))) (rest / p % p)) (rest % p)

/-- Where the bytes of a file are. -/
def layout (contents : ByteMemory) (blocksize : Nat) (ip : Inode) : FileLayout where
  size := ip.size
  addr pos :=
    let blk := blockPointer contents blocksize ip (pos / blocksize)
    if blk = 0 then none else some (blk * blocksize + pos % blocksize)

end Milo.Fs.Ext2
