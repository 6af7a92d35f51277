import OmegaOS.Common
import OmegaOS.Lib.ByteMem

/-!
# The ext2 driver: blocks, inodes and allocation

`fs/ext2.c` on a disk of blocks. Group descriptors, inodes and blocks are images of bytes, as on the disk. `g_tmpBuf` is left out:
every function that uses it fills it first, so it is a local there. The functions run one at a time.
-/

namespace OmegaOS

open ByteMem Function

/-! ## The driver's state -/

/-- The fields of `SuperBlock_t` that the driver reads. -/
structure SuperBlock where
  inodesCount : Nat
  blocksCount : Nat
  logBlockSize : Nat
  blocksPerGroup : Nat
  inodesPerGroup : Nat
  magic : Nat
  inodeSize : Nat
deriving DecidableEq, Repr

/-- The disk, and the driver's global variables. -/
structure Ext2 where
  /-- What the drive holds, block by block. -/
  disk : Nat → Mem
  /-- The blocks that the drive can read. A write to the drive reports no error. -/
  readable : Nat → Bool
  /-- Whether `kmalloc` returns memory. -/
  heapOk : Bool
  /-- The words that lie behind `g_tmpBuf` in memory. -/
  stray : Nat → Nat
  /-- `g_superBlock`. -/
  superBlock : SuperBlock
  /-- `g_blockGroupDescriptors`. -/
  groups : Mem
  /-- `g_blockSize`. -/
  blockSize : Nat
  /-- `g_blockGroupDescriptorCount`. -/
  groupCount : Nat
  /-- `g_inodesPerGroup`. -/
  inodesPerGroup : Nat
  /-- The blocks of the drive written so far, the last one first. -/
  written : List Nat

/-- `ATA_SECTOR_SIZE`. -/
def ataSectorSize : Nat := 512

/-- `BLOCK_GROUP_START`. -/
def blockGroupStart : Nat := 2

/-- `INODE_ROOT`. -/
def inodeRoot : Nat := 2

/-- `EXT2_NDIR_BLOCKS`, which is also `EXT2_IND_BLOCK`. -/
def ndirBlocks : Nat := 12

/-- `EXT2_DIND_BLOCK`. -/
def dindBlock : Nat := 13

/-- `EXT2_TIND_BLOCK`. -/
def tindBlock : Nat := 14

def iFile : Nat := 0x8000

def iDir : Nat := 0x4000

namespace Ext2

/-- `SECTORS_PER_BLOCK`. -/
def sectorsPerBlock (fs : Ext2) : Nat := fs.blockSize / ataSectorSize

/-- `INODES_PER_BLOCK`. -/
def inodesPerBlock (fs : Ext2) : Nat := fs.blockSize / fs.superBlock.inodeSize

/-- `PTR_BLOCKS_PER_BLOCK`. -/
def ptrBlocksPerBlock (fs : Ext2) : Nat := fs.blockSize / 4

/-- `SECTOR2BLOCK(sector)`, on 32 bits. -/
def sector2Block (fs : Ext2) (sector : Nat) : Nat := (sector + 1) % 2 ^ 32 * ataSectorSize % 2 ^ 32 / fs.blockSize

/-- The block of the drive that a block number stands for: `b2s` computes a sector in 32 bits, and the drive is sent 28 of them. -/
def physical (fs : Ext2) (block : Nat) : Nat := block * fs.sectorsPerBlock % 2 ^ 32 % 2 ^ 28 / fs.sectorsPerBlock

/-- `readBlock`. -/
def readBlock (fs : Ext2) (block : Nat) : Option Mem :=
  if fs.readable (fs.physical block) then some (fs.disk (fs.physical block)) else none

/-- `writeBlock`. -/
def writeBlock (fs : Ext2) (block : Nat) (buffer : Mem) : Ext2 :=
  let p := fs.physical block
  { fs with disk := update fs.disk p (copy (fs.disk p) 0 buffer 0 fs.blockSize), written := p :: fs.written }

end Ext2

/-! ## Group descriptors -/

/-- Which bitmaps an allocation is from: the blocks' or the inodes'. -/
inductive Pool where
  | blocks
  | inodes
deriving DecidableEq, Repr

/-- The offset of `bg_block_bitmap` or `bg_inode_bitmap` in a descriptor. -/
def Pool.bitmapAt : Pool → Nat
  | .blocks => 0
  | .inodes => 4

/-- The offset of `bg_free_blocks_count` or `bg_free_inodes_count`. -/
def Pool.countAt : Pool → Nat
  | .blocks => 12
  | .inodes => 14

/-- `sizeof(BlockGroupDescriptor_t)`. -/
def descSize : Nat := 32

namespace Ext2

/-- How many numbers each group has. -/
def perGroup (fs : Ext2) : Pool → Nat
  | .blocks => fs.superBlock.blocksPerGroup
  | .inodes => fs.inodesPerGroup

/-- `g_blockGroupDescriptors[i].bg_block_bitmap`, or the same for inodes. -/
def bitmapBlock (fs : Ext2) (pool : Pool) (i : Nat) : Nat := load fs.groups (descSize * i + pool.bitmapAt) 4

/-- `g_blockGroupDescriptors[i].bg_inode_table`. -/
def inodeTable (fs : Ext2) (i : Nat) : Nat := load fs.groups (descSize * i + 8) 4

/-- `g_blockGroupDescriptors[i].bg_free_blocks_count`, or the same for inodes. -/
def freeCount (fs : Ext2) (pool : Pool) (i : Nat) : Nat := load fs.groups (descSize * i + pool.countAt) 2

def setFreeCount (fs : Ext2) (pool : Pool) (i v : Nat) : Ext2 :=
  { fs with groups := store fs.groups (descSize * i + pool.countAt) 2 v }

end Ext2

namespace Ext2

/-- `groupBlockSpan` of `ext2_init`: how many blocks of descriptors are read. -/
def groupBlockSpan (fs : Ext2) : Nat := fs.groupCount * descSize / fs.blockSize + 1

/-- The loop of `ext2_init` that reads the descriptors into their buffer, from the `i`-th of their blocks on, of which `fuel` are left. -/
def readDescriptors (fs : Ext2) (buffer : Mem) : Nat → Nat → Option Mem
  | 0, _ => some buffer
  | fuel + 1, i =>
    match fs.readBlock (blockGroupStart + i) with
    | none => none
    | some block => fs.readDescriptors (copy buffer (i * fs.blockSize) block 0 fs.blockSize) fuel (i + 1)

end Ext2

/-! ## Bitmaps -/

/-- The inner loop of `FIND_AND_MARK_BIT`: the first clear bit of a byte from `j` on, of which `fuel` are left. -/
def findBitInByte (byte : BitVec 8) : Nat → Nat → Option Nat
  | 0, _ => none
  | fuel + 1, j => if byte.getLsbD j = false then some j else findBitInByte byte fuel (j + 1)

/-- The outer loop of `FIND_AND_MARK_BIT`: the first clear bit of the bytes from `k` on, of which `fuel` are left. -/
def findBit (bitmap : Mem) : Nat → Nat → Option Nat
  | 0, _ => none
  | fuel + 1, k =>
    if bitmap k ≠ 0xFF then
      match findBitInByte (bitmap k) 8 0 with
      | some j => some (8 * k + j)
      | none => findBit bitmap fuel (k + 1)
    else findBit bitmap fuel (k + 1)

/-- `bitmap[bit / 8] |= 1 << (bit % 8)`. -/
def markBit (bitmap : Mem) (bit : Nat) : Mem := update bitmap (bit / 8) (bitmap (bit / 8) ||| 1#8 <<< (bit % 8))

/-- `CLEAR_BIT(bitmap, bit)`. -/
def clearBit (bitmap : Mem) (bit : Nat) : Mem := update bitmap (bit / 8) (bitmap (bit / 8) &&& ~~~(1#8 <<< (bit % 8)))

namespace Ext2

/-- From `found_bit` on: the bit is marked, counted and written back. A bit 0 counts as no bit. The result is the number that the
bit stands for, 0 for a failure. -/
def takeBit (fs : Ext2) (pool : Pool) (i bit : Nat) (bitmap : Mem) : Nat × Ext2 :=
  if bit = 0 then (0, fs)
  else
    let number := (bit + fs.perGroup pool * i + 1) % 2 ^ 32
    let fs := fs.setFreeCount pool i ((fs.freeCount pool i + (2 ^ 16 - 1)) % 2 ^ 16)
    let fs := fs.writeBlock (fs.bitmapBlock pool i) (markBit bitmap bit)
    let fs := fs.writeBlock blockGroupStart fs.groups
    (number, fs)

/-- The loop over the groups of `allocateBlock` and of `allocateAndCreateInode`, from group `i` on, of which `fuel` are left. A group
whose counter is 0 is entered at `found_bit` with no bit. -/
def allocateBit (fs : Ext2) (pool : Pool) : Nat → Nat → Nat × Ext2
  | 0, _ => (0, fs)
  | fuel + 1, i =>
    if 0 < fs.freeCount pool i then
      match fs.readBlock (fs.bitmapBlock pool i) with
      | none => (0, fs)
      | some bitmap =>
        match findBit bitmap fs.blockSize 0 with
        | some bit => fs.takeBit pool i bit bitmap
        | none => fs.allocateBit pool fuel (i + 1)
    else fs.takeBit pool i 0 (fun _ => 0)

/-! ## Inodes -/

/-- `(ino - 1)`, on 32 bits. -/
def inodeNumber (ino : Nat) : Nat := (ino + (2 ^ 32 - 1)) % 2 ^ 32

/-- The group of an inode. -/
def inodeGroup (fs : Ext2) (ino : Nat) : Nat := inodeNumber ino / fs.superBlock.inodesPerGroup

/-- The block of the inode table that holds an inode. -/
def inodeBlock (fs : Ext2) (ino : Nat) : Nat :=
  (fs.inodeTable (fs.inodeGroup ino) + inodeNumber ino % fs.superBlock.inodesPerGroup / fs.inodesPerBlock) % 2 ^ 32

/-- Where in that block it lies. -/
def inodeOffset (fs : Ext2) (ino : Nat) : Nat :=
  inodeNumber ino % fs.superBlock.inodesPerGroup % fs.inodesPerBlock * fs.superBlock.inodeSize

/-- `readInode`. -/
def readInode (fs : Ext2) (ino : Nat) : Option Mem :=
  if fs.groupCount ≤ fs.inodeGroup ino then none
  else
    match fs.readBlock (fs.inodeBlock ino) with
    | none => none
    | some tmpBuf => if fs.heapOk then some (copy (fun _ => 0) 0 tmpBuf (fs.inodeOffset ino) fs.superBlock.inodeSize) else none

/-- `writeInode`. -/
def writeInode (fs : Ext2) (ino : Nat) (inode : Mem) : Bool × Ext2 :=
  if fs.groupCount ≤ fs.inodeGroup ino then (false, fs)
  else
    match fs.readBlock (fs.inodeBlock ino) with
    | none => (false, fs)
    | some tmpBuf => (true, fs.writeBlock (fs.inodeBlock ino) (copy tmpBuf (fs.inodeOffset ino) inode 0 fs.superBlock.inodeSize))

end Ext2

/-- `inode->i_mode`. -/
def iMode (inode : Mem) : Nat := load inode 0 2

/-- `inode->i_size`. -/
def iSize (inode : Mem) : Nat := load inode 4 4

/-- `inode->i_sectors`. -/
def iSectors (inode : Mem) : Nat := load inode 28 4

/-- `inode->i_block[k]`. -/
def iBlock (inode : Mem) (k : Nat) : Nat := load inode (40 + 4 * k) 4

def setISize (inode : Mem) (v : Nat) : Mem := store inode 4 4 v

def setISectors (inode : Mem) (v : Nat) : Mem := store inode 28 4 v

def setIBlock (inode : Mem) (k v : Nat) : Mem := store inode (40 + 4 * k) 4 v

/-- `INODE_FILE(ino)`. -/
def inodeFile (inode : Mem) : Bool := iMode inode &&& 0xF000 &&& iFile == iFile

/-- `INODE_DIR(ino)`. -/
def inodeDir (inode : Mem) : Bool := iMode inode &&& 0xF000 &&& iDir == iDir

/-! ## The block map of an inode -/

namespace Ext2

/-- `((uint32_t *)g_tmpBuf)[k]`. -/
def entry (fs : Ext2) (tmpBuf : Mem) (k : Nat) : Nat := if k < fs.ptrBlocksPerBlock then load tmpBuf (4 * k) 4 else fs.stray k

/-- Read a table of block numbers and look up an entry. -/
def follow (fs : Ext2) (table k : Nat) : Option Nat := (fs.readBlock table).map fun tmpBuf => fs.entry tmpBuf k

/-- The entries of the two tables that lead to a block of the double indirect range. -/
def doublePath (fs : Ext2) (block : Nat) : Nat × Nat :=
  let b := (block - dindBlock) / fs.ptrBlocksPerBlock
  let c := b / fs.ptrBlocksPerBlock
  (c, b - c * fs.ptrBlocksPerBlock)

/-- The entries of the three tables that lead to a block of the triple indirect range; `c` is below 0 for the first two blocks. -/
def triplePath (fs : Ext2) (block : Nat) : Nat × Nat × Nat :=
  let ptr := fs.ptrBlocksPerBlock
  let b := block - tindBlock - ptr
  let c := (b + (2 ^ 32 - ptr * ptr % 2 ^ 32)) % 2 ^ 32
  let d := c / (ptr * ptr)
  let e := c - d * ptr * ptr
  let f := e / ptr
  (d, f, e - f * ptr)

/-- The tables from the inode's on and the entries to follow in them, for a block that is not direct. -/
def indirectPath (fs : Ext2) (inode : Mem) (block : Nat) : Option (Nat × List Nat) :=
  let single := fs.ptrBlocksPerBlock
  let double := single * fs.ptrBlocksPerBlock
  let triple := double * fs.ptrBlocksPerBlock
  if block < ndirBlocks + single then some (iBlock inode ndirBlocks, [block - ndirBlocks])
  else if block < ndirBlocks + double + single then
    let (c, d) := fs.doublePath block
    some (iBlock inode dindBlock, [c, d])
  else if block < ndirBlocks + triple + double + single then
    let (d, f, g) := fs.triplePath block
    some (iBlock inode tindBlock, [d, f, g])
  else none

/-- Read table after table. -/
def followPath (fs : Ext2) : Nat → List Nat → Option Nat
  | table, [] => some table
  | table, k :: path => (fs.follow table k).bind fun next => fs.followPath next path

/-- `getRealBlock`, 0 for a failure. -/
def getRealBlock (fs : Ext2) (inode : Mem) (block : Nat) : Nat :=
  if block < ndirBlocks then iBlock inode block
  else
    match fs.indirectPath inode block with
    | none => 0
    | some (table, path) => (fs.followPath table path).getD 0

/-- `setRealBlock`. Behind the direct blocks the entry is changed in `g_tmpBuf` only: the tables are read, none is written. -/
def setRealBlock (fs : Ext2) (inode : Mem) (block real : Nat) : Bool × Mem :=
  if block < ndirBlocks then (true, setIBlock inode block real)
  else
    match fs.indirectPath inode block with
    | none => (false, inode)
    | some (table, path) => ((fs.followPath table path).isSome, inode)

/-! ## Blocks of a file -/

/-- `allocateBlock`; the results are its own and the inode that it changes. -/
def allocateBlock (fs : Ext2) (inode : Mem) (ino block : Nat) : Bool × Mem × Ext2 :=
  if !fs.heapOk then (false, inode, fs)
  else
    let (newBlock, fs) := fs.allocateBit .blocks fs.groupCount 0
    if newBlock = 0 then (false, inode, fs)
    else
      match fs.setRealBlock inode block newBlock with
      | (false, inode) => (false, inode, fs)
      | (true, inode) =>
        let inode := setISectors inode ((iSectors inode + fs.sectorsPerBlock) % 2 ^ 32)
        let inode := setISize inode ((iSize inode + fs.blockSize) % 2 ^ 32)
        (true, inode, (fs.writeInode ino inode).2)

/-- `readInodeBlock`. -/
def readInodeBlock (fs : Ext2) (inode : Mem) (block : Nat) : Option Mem := fs.readBlock (fs.getRealBlock inode block)

/-- The loop of `writeInodeBlock`, which allocates blocks until the inode has sectors for `block`. -/
def growTo (fs : Ext2) (inode : Mem) (ino block : Nat) : Nat → Bool × Mem × Ext2
  | 0 => (false, inode, fs)
  | fuel + 1 =>
    if fs.sector2Block (iSectors inode) ≤ block then
      match fs.allocateBlock inode ino (fs.sector2Block (iSectors inode)) with
      | (false, inode, fs) => (false, inode, fs)
      | (true, inode, fs) => fs.growTo inode ino block fuel
    else (true, inode, fs)

/-- How many bits the block bitmaps have; each round of `growTo` marks one. -/
def bitCount (fs : Ext2) : Nat := fs.groupCount * (8 * fs.blockSize)

/-- `writeInodeBlock`. -/
def writeInodeBlock (fs : Ext2) (inode : Mem) (ino block : Nat) (buffer : Mem) : Bool × Mem × Ext2 :=
  match fs.growTo inode ino block (fs.bitCount + 1) with
  | (false, inode, fs) => (false, inode, fs)
  | (true, inode, fs) => (true, inode, fs.writeBlock (fs.getRealBlock inode block) buffer)

end Ext2

end OmegaOS
