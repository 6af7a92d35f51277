import OmegaOS.Ext2Dir

/-!
# Mounting the filesystem

`ext2_init`, and the functions of `fs/ext2.c` that divide by what it took from the superblock, here with the exception that a division
by zero raises.
-/

namespace OmegaOS

open ByteMem

/-- What stops the driver. -/
inductive Trap where
  /-- The divide error of the processor. -/
  | divideError
  /-- A copy from or to `g_tmpBuf` that leaves it. -/
  | overrun
  | assertion (expr : String)
deriving DecidableEq, Repr

/-- `a / b`. -/
def quo (a b : Nat) : Except Trap Nat := if b = 0 then .error .divideError else .ok (a / b)

/-- `a % b`. -/
def rem (a b : Nat) : Except Trap Nat := if b = 0 then .error .divideError else .ok (a % b)

/-- `assert(expr)`, for a driver that can trap. -/
def check (b : Bool) (expr : String) : Except Trap Unit := if b then .ok () else .error (.assertion expr)

namespace Ext2.Trapping

/-! ## Inodes -/

/-- The block and the offset of an inode, as `readInode` and `writeInode` compute them; none for a group that does not exist. -/
def inodeSlot (fs : Ext2) (ino : Nat) : Except Trap (Option (Nat × Nat)) := do
  let group ← quo (inodeNumber ino) fs.superBlock.inodesPerGroup
  if fs.groupCount ≤ group then return none
  else
    let inodeIndex ← rem (inodeNumber ino) fs.superBlock.inodesPerGroup
    let inodesPerBlock ← quo fs.blockSize fs.superBlock.inodeSize
    let row ← quo inodeIndex inodesPerBlock
    let column ← rem inodeIndex inodesPerBlock
    return some ((fs.inodeTable group + row) % 2 ^ 32, column * fs.superBlock.inodeSize)

/-- The bytes of an inode at an offset of `g_tmpBuf` are inside it. -/
def inodeInside (fs : Ext2) (blockOffset : Nat) : Except Trap Unit :=
  if blockOffset + fs.superBlock.inodeSize ≤ fs.blockSize then .ok () else .error .overrun

/-- `readInode`. -/
def readInode (fs : Ext2) (ino : Nat) : Except Trap (Option Mem) := do
  match ← inodeSlot fs ino with
  | none => return none
  | some (block, blockOffset) =>
    match fs.readBlock block with
    | none => return none
    | some tmpBuf =>
      if !fs.heapOk then return none
      else
        inodeInside fs blockOffset
        return some (copy (fun _ => 0) 0 tmpBuf blockOffset fs.superBlock.inodeSize)

/-- `writeInode`. -/
def writeInode (fs : Ext2) (ino : Nat) (inode : Mem) : Except Trap (Bool × Ext2) := do
  match ← inodeSlot fs ino with
  | none => return (false, fs)
  | some (block, blockOffset) =>
    match fs.readBlock block with
    | none => return (false, fs)
    | some tmpBuf =>
      inodeInside fs blockOffset
      return (true, fs.writeBlock block (copy tmpBuf blockOffset inode 0 fs.superBlock.inodeSize))

/-- `ino2vfs`. -/
def ino2vfs (fs : Ext2) (ino : Nat) (raw : FsNode) : Except Trap (Option FsNode) := do
  match ← readInode fs ino with
  | none => return none
  | some inode => if !fs.heapOk then return none else return some (raw.fill ino inode)

/-! ## Blocks -/

/-- The entries of the two tables that lead to a block of the double indirect range. -/
def doublePath (fs : Ext2) (block : Nat) : Except Trap (Nat × Nat) := do
  let b ← quo (block - dindBlock) fs.ptrBlocksPerBlock
  let c ← quo b fs.ptrBlocksPerBlock
  return (c, b - c * fs.ptrBlocksPerBlock)

/-- The entries of the three tables that lead to a block of the triple indirect range. -/
def triplePath (fs : Ext2) (block : Nat) : Except Trap (Nat × Nat × Nat) := do
  let ptr := fs.ptrBlocksPerBlock
  let b := block - tindBlock - ptr
  let c := (b + (2 ^ 32 - ptr * ptr % 2 ^ 32)) % 2 ^ 32
  let d ← quo c (ptr * ptr)
  let e := c - d * ptr * ptr
  let f ← quo e ptr
  return (d, f, e - f * ptr)

/-- The tables from the inode's on and the entries to follow in them, for a block that is not direct. -/
def indirectPath (fs : Ext2) (inode : Mem) (block : Nat) : Except Trap (Option (Nat × List Nat)) :=
  let single := fs.ptrBlocksPerBlock
  let double := single * fs.ptrBlocksPerBlock
  let triple := double * fs.ptrBlocksPerBlock
  if block < ndirBlocks + single then return some (iBlock inode ndirBlocks, [block - ndirBlocks])
  else if block < ndirBlocks + double + single then do
    let (c, d) ← doublePath fs block
    return some (iBlock inode dindBlock, [c, d])
  else if block < ndirBlocks + triple + double + single then do
    let (d, f, g) ← triplePath fs block
    return some (iBlock inode tindBlock, [d, f, g])
  else return none

/-- `getRealBlock`. -/
def getRealBlock (fs : Ext2) (inode : Mem) (block : Nat) : Except Trap Nat :=
  if block < ndirBlocks then return iBlock inode block
  else do
    match ← indirectPath fs inode block with
    | none => return 0
    | some (table, path) => return (fs.followPath table path).getD 0

/-- `setRealBlock`. -/
def setRealBlock (fs : Ext2) (inode : Mem) (block real : Nat) : Except Trap (Bool × Mem) :=
  if block < ndirBlocks then return (true, setIBlock inode block real)
  else do
    match ← indirectPath fs inode block with
    | none => return (false, inode)
    | some (table, path) => return ((fs.followPath table path).isSome, inode)

/-- `allocateBlock`. -/
def allocateBlock (fs : Ext2) (inode : Mem) (ino block : Nat) : Except Trap (Bool × Mem × Ext2) :=
  if !fs.heapOk then return (false, inode, fs)
  else
    let (newBlock, fs) := fs.allocateBit .blocks fs.groupCount 0
    if newBlock = 0 then return (false, inode, fs)
    else do
      match ← setRealBlock fs inode block newBlock with
      | (false, inode) => return (false, inode, fs)
      | (true, inode) =>
        let inode := setISectors inode ((iSectors inode + fs.sectorsPerBlock) % 2 ^ 32)
        let inode := setISize inode ((iSize inode + fs.blockSize) % 2 ^ 32)
        let (_, fs) ← writeInode fs ino inode
        return (true, inode, fs)

/-! ## Deleting -/

/-- `deleteBlockBuffer`. -/
def deleteBlockBuffer (fs : Ext2) (block : Nat) : Except Trap (Int × Ext2) :=
  if block = 0 then return (eio, fs)
  else do
    let blockIndex ← quo block fs.superBlock.blocksPerGroup
    let blockOffset ← rem block fs.superBlock.blocksPerGroup
    if fs.groupCount ≤ blockIndex then return (eperm, fs)
    else
      match fs.releaseBit .blocks blockIndex blockOffset with
      | none => return (eio, fs)
      | some fs => return (enoer, fs)

/-- `deleteBlock`. -/
def deleteBlock (fs : Ext2) (block : Nat) : Except Trap (Int × Ext2) :=
  if !fs.heapOk then return (enomem, fs) else deleteBlockBuffer fs block

/-- The loop of `deleteInode` over the data blocks, from `block` on, of which `fuel` are left. -/
def deleteBlocks (fs : Ext2) (inode : Mem) (block : Nat) : Nat → Except Trap (Int × Ext2)
  | 0 => return (enoer, fs)
  | fuel + 1 => do
    let (ret, fs) ← deleteBlockBuffer fs (← getRealBlock fs inode block)
    if ret ≠ enoer then return (ret, fs) else deleteBlocks fs inode (block + 1) fuel

/-- `deleteInode`. -/
def deleteInode (fs : Ext2) (inode : Mem) (ino : Nat) : Except Trap (Int × Ext2) :=
  if !fs.heapOk then return (enomem, fs)
  else do
    let inodeIndex ← quo ino fs.inodesPerGroup
    let inodeOffset ← rem ino fs.inodesPerGroup
    if fs.groupCount ≤ inodeIndex then return (eperm, fs)
    else
      match fs.releaseBit .inodes inodeIndex inodeOffset with
      | none => return (eio, fs)
      | some fs =>
        if iSize inode = 0 then return (enoer, fs)
        else
          let endBlock ← quo (iSize inode) fs.blockSize
          let rest ← rem (iSize inode) fs.blockSize
          deleteBlocks fs inode 0 (if rest ≠ 0 then endBlock + 1 else endBlock)

end Ext2.Trapping

/-! ## `ext2_init` -/

/-- `EXT2_SIGNATURE`. -/
def ext2Signature : Nat := 0xEF53

/-- `1024 << s_log_block_size`, on 32 bits; the processor shifts by the last five bits of the count. -/
def SuperBlock.blockSize (sb : SuperBlock) : Nat := 1024 * 2 ^ (sb.logBlockSize % 32) % 2 ^ 32

namespace Ext2

/-- The loop of `ext2_init` that verifies the descriptors, from group `i` on, of which `fuel` are left. -/
def verifyGroups (fs : Ext2) : Nat → Nat → Except Trap Unit
  | 0, _ => return ()
  | fuel + 1, i => do
    check ((fs.bitmapBlock .inodes i + (2 ^ 32 - fs.bitmapBlock .blocks i)) % 2 ^ 32 == 1)
      "group->bg_inode_bitmap - group->bg_block_bitmap == 1"
    check ((fs.inodeTable i + (2 ^ 32 - fs.bitmapBlock .inodes i)) % 2 ^ 32 == 1)
      "group->bg_inode_table - group->bg_inode_bitmap == 1"
    fs.verifyGroups fuel (i + 1)

/-- The first part of `ext2_init`: what the driver computes from the superblock, and how many blocks of descriptors there are. The
superblock has been read. -/
def readSuperBlock (fs : Ext2) : Except Trap (Ext2 × Nat) := do
  check (fs.superBlock.magic == ext2Signature) "g_superBlock.s_magic == EXT2_SIGNATURE"
  let byBlocks ← quo fs.superBlock.blocksCount fs.superBlock.blocksPerGroup
  let byInodes ← quo fs.superBlock.inodesCount fs.superBlock.inodesPerGroup
  let groupCount := if byBlocks < byInodes then byInodes else byBlocks
  let inodesPerGroup ← quo fs.superBlock.inodesCount groupCount
  let span ← quo (groupCount * descSize) fs.superBlock.blockSize
  return ({ fs with blockSize := fs.superBlock.blockSize, groupCount := groupCount, inodesPerGroup := inodesPerGroup }, span + 1)

/-- The second part: the descriptors are read and verified. -/
def readGroups (fs : Ext2) (groupBlockSpan : Nat) : Except Trap Ext2 := do
  check fs.heapOk "g_blockGroupDescriptors"
  match fs.readDescriptors fs.groups groupBlockSpan 0 with
  | none => throw (.assertion "readBlock(BLOCK_GROUP_START + i, bufOffset + i * g_blockSize)")
  | some groups =>
    let fs := { fs with groups := groups }
    fs.verifyGroups fs.groupCount 0
    return fs

/-- `ext2_init`, with `_RootFS`; the memory of the root's node holds `raw`. -/
def ext2Init (fs : Ext2) (raw : FsNode) : Except Trap (Ext2 × FsNode) := do
  let (fs, groupBlockSpan) ← fs.readSuperBlock
  let fs ← fs.readGroups groupBlockSpan
  check fs.heapOk "g_tmpBuf = (uint8_t *)kmalloc(g_blockSize)"
  match ← Trapping.ino2vfs fs inodeRoot raw with
  | none => throw (.assertion "_RootFS = ino2vfs(INODE_ROOT, \"/\")")
  | some root =>
    check (root.flags &&& fsDir == fsDir) "(_RootFS->flags & FS_DIR) == FS_DIR"
    return (fs, root)

end Ext2

end OmegaOS
