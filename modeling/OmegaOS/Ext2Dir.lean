import OmegaOS.Ext2File
import OmegaOS.Lib.CStr

/-!
# The ext2 driver: directories

Records of a directory, the search for a name, and the functions that create and delete files and directories. Where the source walks
over records it keeps the offset in the block twice, as a pointer and as a count; here it is one number.
-/

namespace OmegaOS

open ByteMem CStr

def enoer : Int := 0

def eperm : Int := 1

def enoent : Int := 2

def eacces : Int := 13

def enotdir : Int := 20

def fsFile : Nat := 0x1

def fsDir : Nat := 0x2

def fsChardev : Nat := 0x4

def fsBlkdev : Nat := 0x8

def fsFifo : Nat := 0x10

def fsSymlink : Nat := 0x40

def iFifo : Nat := 0x1000

def iChardev : Nat := 0x2000

def iBlkdev : Nat := 0x6000

def iSymlink : Nat := 0xA000

def iSock : Nat := 0xC000

/-- A function pointer of a node: `NULL`, the ext2 driver's function for the field, the function of the standard files for it, or what
the memory of the node held before. -/
inductive Callback where
  | null
  | ext2
  | std
  | stray (target : Nat)
deriving DecidableEq, Repr

/-- The fields of `VfsNode_t` that the kernel reads; `openFile` is the field `open`. -/
structure FsNode extends VfsNode where
  attr : Nat
  flags : Nat
  read : Callback
  write : Callback
  openFile : Callback
  close : Callback
  readdir : Callback
  finddir : Callback
  create : Callback
  mkdir : Callback
  delete : Callback
deriving DecidableEq, Repr

/-- A node of `kcalloc`. -/
def emptyNode : FsNode :=
  { inode := 0, size := 0, offset := 0, attr := 0, flags := 0, read := .null, write := .null, openFile := .null, close := .null,
    readdir := .null, finddir := .null, create := .null, mkdir := .null, delete := .null }

namespace FsNode

/-- `if ((mask & bits) == bits) node->flags |= flag`. -/
def mark (node : FsNode) (mask bits flag : Nat) : FsNode :=
  if mask &&& bits = bits then { node with flags := node.flags ||| flag } else node

/-- The part of `ino2vfs` for regular files: the functions of a directory are not there. -/
def markFile (node : FsNode) (mask : Nat) : FsNode :=
  if mask &&& iFile = iFile then
    { node with flags := node.flags ||| fsFile, readdir := .null, finddir := .null, create := .null, mkdir := .null, delete := .null }
  else node

/-- The part for directories. -/
def markDir (node : FsNode) (mask : Nat) : FsNode :=
  if mask &&& iDir = iDir then
    { node with flags := node.flags ||| fsDir, readdir := .ext2, finddir := .ext2, create := .ext2, mkdir := .ext2, delete := .ext2 }
  else node

/-- What `ino2vfs` makes of the memory of a node: the flags are set on top of what it held, and what no branch sets stays. `node->name`,
which nothing here reads, is left out: with a name of `FS_MAX_PATH` bytes or more `strcpy` runs on into the other fields. -/
def fill (raw : FsNode) (ino : Nat) (inode : Mem) : FsNode :=
  let mask := iMode inode &&& 0xF000
  let node := { raw with inode := ino, size := iSize inode, offset := 0 }
  let node := (node.markFile mask).markDir mask
  let node := (node.mark mask iBlkdev fsBlkdev).mark mask iChardev fsChardev
  let node := (node.mark mask iFifo fsFifo).mark mask iSymlink fsSymlink
  { node with read := .ext2, write := .ext2, openFile := .ext2, close := .ext2 }

end FsNode

/-! ## Records -/

/-- `FS_MAX_PATH`. -/
def fsMaxPath : Nat := 256

/-- `sizeof(Directory_t)`. -/
def dirHeader : Nat := 8

/-- `dir->inode`, for the record at an offset of a block. -/
def dirInode (tmpBuf : Mem) (d : Nat) : Nat := load tmpBuf d 4

/-- `dir->rec_len`. -/
def recLen (tmpBuf : Mem) (d : Nat) : Nat := load tmpBuf (d + 4) 2

/-- `dir->name_len`. -/
def nameLen (tmpBuf : Mem) (d : Nat) : Nat := load tmpBuf (d + 6) 1

def setRecLen (tmpBuf : Mem) (d v : Nat) : Mem := store tmpBuf (d + 4) 2 v

/-- `GET_DIR_ENTRY_SIZE(nl)`. -/
def getDirEntrySize (nl : Nat) : Nat :=
  let es := dirHeader + nl + 1
  es + if es % 2 = 0 then 2 else 1

/-- From `write` on in `insertInodeInDir`: the fields of a new record. -/
def writeRecord (tmpBuf : Mem) (d newIno : Nat) (name : Str) (size ft : Nat) : Mem :=
  let tmpBuf := store tmpBuf d 4 newIno
  let tmpBuf := strcpy tmpBuf (d + dirHeader) name
  let tmpBuf := store tmpBuf (d + 6) 1 name.length
  let tmpBuf := setRecLen tmpBuf d size
  store tmpBuf (d + 7) 1 ft

/-- `getFileType`. The tests come in this order, and some of the values share bits. -/
def getFileType (attr : Nat) : Nat :=
  let fileType := attr &&& 0xF000
  if fileType &&& iFifo = iFifo then 5
  else if fileType &&& iChardev = iChardev then 3
  else if fileType &&& iDir = iDir then 2
  else if fileType &&& iBlkdev = iBlkdev then 4
  else if fileType &&& iFile = iFile then 1
  else if fileType &&& iSymlink = iSymlink then 7
  else if fileType &&& iSock = iSock then 6
  else 0

/-- The search of one block for a name, from the record at `d` on: the offset of the first record that has it. Each round but those at a
record of length 0 moves on by a byte at least; such a record keeps the driver where it is. -/
def findRecord (blockSize : Nat) (tmpBuf : Mem) (name : Str) : Nat → Nat → Except Halt (Option Nat)
  | 0, _ => .error .spin
  | fuel + 1, d =>
    if strEq tmpBuf (d + dirHeader) name then .ok (some d)
    else if blockSize ≤ d + recLen tmpBuf d then .ok none
    else findRecord blockSize tmpBuf name fuel (d + recLen tmpBuf d)

/-- The last record of a block, from the record at `d` on. -/
def lastRecord (blockSize : Nat) (tmpBuf : Mem) : Nat → Nat → Except Halt Nat
  | 0, _ => .error .spin
  | fuel + 1, d =>
    if blockSize ≤ d + recLen tmpBuf d then .ok d else lastRecord blockSize tmpBuf fuel (d + recLen tmpBuf d)

namespace Ext2

/-! ## Searching -/

/-- `ino2vfs`. The memory of the new node holds `raw`. -/
def ino2vfs (fs : Ext2) (ino : Nat) (raw : FsNode) : Option FsNode :=
  match fs.readInode ino with
  | none => none
  | some inode => if !fs.heapOk then none else some (raw.fill ino inode)

/-- The loop of `ext2_finddir` over the blocks, from `block` on, of which `fuel` are left: the inode of the first record that has the
name. A block that cannot be read ends it. -/
def findInBlocks (fs : Ext2) (inode : Mem) (name : Str) (block : Nat) : Nat → Except Halt (Option Nat)
  | 0 => .ok none
  | fuel + 1 =>
    match fs.readInodeBlock inode block with
    | none => .ok none
    | some tmpBuf => do
      match ← findRecord fs.blockSize tmpBuf name fs.blockSize 0 with
      | some d => return some (dirInode tmpBuf d)
      | none => fs.findInBlocks inode name (block + 1) fuel

/-- `ext2_finddir`. -/
def ext2Finddir (fs : Ext2) (node : VfsNode) (name : Str) (raw : FsNode) : Except Halt (Option FsNode) :=
  match fs.readInode node.inode with
  | none => .ok none
  | some inode =>
    if !inodeDir inode then .ok none
    else if !fs.heapOk then .ok none
    else do
      match ← fs.findInBlocks inode name 0 (iSize inode / fs.blockSize) with
      | none => return none
      | some ino => return fs.ino2vfs ino raw

/-- `struct dirent`: the inode, and the memory that the name is copied from, to an array of `FS_MAX_PATH` bytes. -/
structure Dirent where
  ino : Nat
  name : Mem

/-- The inner loop of `ext2_readdir` from the record at `d` on: the offset of the record that `skip` others precede, or how many are
left to skip in the next blocks. -/
def nthRecord (blockSize : Nat) (tmpBuf : Mem) : Nat → Nat → Nat ⊕ Nat
  | 0, d => .inl d
  | skip + 1, d => if blockSize ≤ d + recLen tmpBuf d then .inr skip else nthRecord blockSize tmpBuf skip (d + recLen tmpBuf d)

/-- The loop of `ext2_readdir` over the blocks, from `block` on, of which `fuel` are left. -/
def readdirBlocks (fs : Ext2) (inode : Mem) (block : Nat) : Nat → Nat → Option Dirent
  | 0, _ => none
  | fuel + 1, skip =>
    match fs.readInodeBlock inode block with
    | none => none
    | some tmpBuf =>
      match nthRecord fs.blockSize tmpBuf skip 0 with
      | .inl d => some ⟨dirInode tmpBuf d, fun x => tmpBuf (d + dirHeader + x)⟩
      | .inr skip => fs.readdirBlocks inode (block + 1) fuel skip

/-- `ext2_readdir`. -/
def ext2Readdir (fs : Ext2) (node : VfsNode) (index : Nat) : Option Dirent :=
  match fs.readInode node.inode with
  | none => none
  | some inode =>
    if !inodeDir inode then none
    else if !fs.heapOk then none
    else fs.readdirBlocks inode 0 (iSize inode / fs.blockSize) index

/-! ## Creating -/

/-- The end of `insertInodeInDir` when the last block is full or there is none: a new block holds the new record alone. -/
def insertInNewBlock (fs : Ext2) (parentInode : Mem) (pino newIno : Nat) (name : Str) (ft block : Nat) : Bool × Mem × Ext2 :=
  match fs.allocateBlock parentInode pino block with
  | (false, parentInode, fs) => (false, parentInode, fs)
  | (true, parentInode, fs) =>
    match fs.readInodeBlock parentInode block with
    | none => (false, parentInode, fs)
    | some tmpBuf => fs.writeInodeBlock parentInode pino block (writeRecord tmpBuf 0 newIno name fs.blockSize ft)

/-- `insertInodeInDir`; the results are its own, and the parent's inode, which it changes. A directory without blocks has a last block
that no inode has. -/
def insertInodeInDir (fs : Ext2) (parentInode : Mem) (pino newIno : Nat) (name : Str) (ft : Nat) : Except Halt (Bool × Mem × Ext2) :=
  if !fs.heapOk then .ok (false, parentInode, fs)
  else
    let lastBlock := (iSize parentInode / fs.blockSize + (2 ^ 32 - 1)) % 2 ^ 32
    match fs.readInodeBlock parentInode lastBlock with
    | none => .ok (false, parentInode, fs)
    | some tmpBuf =>
      if lastBlock = 2 ^ 32 - 1 then .ok (fs.insertInNewBlock parentInode pino newIno name ft 0)
      else do
        let d ← lastRecord fs.blockSize tmpBuf fs.blockSize 0
        let oldSize := recLen tmpBuf d
        let currentEntrySize := getDirEntrySize (nameLen tmpBuf d)
        if currentEntrySize + getDirEntrySize name.length ≤ oldSize then
          let tmpBuf := setRecLen tmpBuf d currentEntrySize
          return fs.writeInodeBlock parentInode pino lastBlock
            (writeRecord tmpBuf (d + currentEntrySize) newIno name (oldSize - currentEntrySize) ft)
        else return fs.insertInNewBlock parentInode pino newIno name ft (lastBlock + 1)

/-- `INIT_INODE(inode)`. -/
def initInode (attr : Nat) : Mem := store (fun _ => 0) 0 2 attr

/-- `createInode`; the results are the new inode, the parent's and the state. -/
def createInode (fs : Ext2) (parentInode : Mem) (pino : Nat) (name : Str) (attr ino : Nat) : Except Halt (Option Mem × Mem × Ext2) :=
  match fs.readInode ino with
  | none => .ok (none, parentInode, fs)
  | some _ =>
    match fs.writeInode ino (initInode attr) with
    | (false, fs) => .ok (none, parentInode, fs)
    | (true, fs) => do
      match ← fs.insertInodeInDir parentInode pino ino name (getFileType attr) with
      | (false, parentInode, fs) => return (none, parentInode, fs)
      | (true, parentInode, fs) => return (some (initInode attr), parentInode, fs)

/-- `allocateAndCreateInode`; the results are the new inode and its number, the parent's inode and the state. -/
def allocateAndCreateInode (fs : Ext2) (parentInode : Mem) (pino : Nat) (name : Str) (attr : Nat) :
    Except Halt (Option (Mem × Nat) × Mem × Ext2) :=
  if !fs.heapOk then .ok (none, parentInode, fs)
  else
    let (newIno, fs) := fs.allocateBit .inodes fs.groupCount 0
    if newIno = 0 then .ok (none, parentInode, fs)
    else do
      let (inode, parentInode, fs) ← fs.createInode parentInode pino name attr newIno
      return (inode.map (·, newIno), parentInode, fs)

/-- `~mask`, on 32 bits. -/
def without (mask : Nat) : Nat := (2 ^ 32 - 1) ^^^ mask

/-- `ext2_create`. -/
def ext2Create (fs : Ext2) (node : VfsNode) (name : Str) (attr : Nat) (raw : FsNode) : Except Halt (Int × Ext2) := do
  match ← fs.ext2Finddir node name raw with
  | some _ => return (eexist, fs)
  | none =>
    match fs.readInode node.inode with
    | none => return (enoent, fs)
    | some parentInode =>
      if !inodeDir parentInode then return (enotdir, fs)
      else
        match ← fs.allocateAndCreateInode parentInode node.inode name (attr &&& without iDir ||| iFile) with
        | (none, _, fs) => return (eperm, fs)
        | (some _, _, fs) => return (enoer, fs)

/-- `FS_PATH_CURR_DIR`. -/
def pathCurrDir : Str := [0x2E]

/-- `FS_PATH_UP_DIR`. -/
def pathUpDir : Str := [0x2E, 0x2E]

/-- `ext2_mkdir`. The entries `.` and `..` are files of their own. -/
def ext2Mkdir (fs : Ext2) (node : VfsNode) (name : Str) (attr : Nat) (raw : FsNode) : Except Halt (Int × Ext2) := do
  match ← fs.ext2Finddir node name raw with
  | some _ => return (eexist, fs)
  | none =>
    match fs.readInode node.inode with
    | none => return (enoent, fs)
    | some parentInode =>
      if !inodeDir parentInode then return (enotdir, fs)
      else
        match ← fs.allocateAndCreateInode parentInode node.inode name (attr &&& without iFile ||| iDir) with
        | (none, _, fs) => return (eperm, fs)
        | (some (newInode, newIno), _, fs) =>
          match ← fs.allocateAndCreateInode newInode newIno pathCurrDir iFile with
          | (none, _, fs) => return (eperm, fs)
          | (some _, newInode, fs) =>
            match ← fs.allocateAndCreateInode newInode newIno pathUpDir iFile with
            | (none, _, fs) => return (eperm, fs)
            | (some _, _, fs) => return (enoer, fs)

/-! ## Deleting -/

/-- Clear the bit before `offset` in the bitmap of a group, count it and write both back; nothing when the bitmap cannot be read. Before
offset 0 that is bit `2 ^ 32 - 1`, whose byte is in no mapped page: the source does not come back from there, the model goes on
(`ClearsInside`). -/
def releaseBit (fs : Ext2) (pool : Pool) (i offset : Nat) : Option Ext2 :=
  match fs.readBlock (fs.bitmapBlock pool i) with
  | none => none
  | some bitmap =>
    let fs := fs.setFreeCount pool i ((fs.freeCount pool i + 1) % 2 ^ 16)
    let fs := fs.writeBlock (fs.bitmapBlock pool i) (clearBit bitmap ((offset + (2 ^ 32 - 1)) % 2 ^ 32))
    some (fs.writeBlock blockGroupStart fs.groups)

/-- `deleteBlockBuffer`. -/
def deleteBlockBuffer (fs : Ext2) (block : Nat) : Int × Ext2 :=
  if block = 0 then (eio, fs)
  else if fs.groupCount ≤ block / fs.superBlock.blocksPerGroup then (eperm, fs)
  else
    match fs.releaseBit .blocks (block / fs.superBlock.blocksPerGroup) (block % fs.superBlock.blocksPerGroup) with
    | none => (eio, fs)
    | some fs => (enoer, fs)

/-- If `deleteBlockBuffer` comes to `CLEAR_BIT`, the bit is one of the bitmap that it has read. -/
def ClearsInside (fs : Ext2) (block : Nat) : Prop :=
  block ≠ 0 → block / fs.superBlock.blocksPerGroup < fs.groupCount →
    fs.readable (fs.physical (fs.bitmapBlock .blocks (block / fs.superBlock.blocksPerGroup))) = true →
    (block % fs.superBlock.blocksPerGroup + (2 ^ 32 - 1)) % 2 ^ 32 < 8 * fs.blockSize

/-- `deleteBlock`. -/
def deleteBlock (fs : Ext2) (block : Nat) : Int × Ext2 := if !fs.heapOk then (enomem, fs) else fs.deleteBlockBuffer block

/-- The search of `deleteInodeFromDir` in a block, from the record at `d` on: the record that has the name and the one before it. -/
def findWithPrev (blockSize : Nat) (tmpBuf : Mem) (name : Str) : Nat → Option Nat → Nat → Except Halt (Option (Option Nat × Nat))
  | 0, _, _ => .error .spin
  | fuel + 1, prev, d =>
    if strEq tmpBuf (d + dirHeader) name then .ok (some (prev, d))
    else if blockSize ≤ d + recLen tmpBuf d then .ok none
    else findWithPrev blockSize tmpBuf name fuel (some d) (d + recLen tmpBuf d)

/-- The loop after `delete_middle_entry`: the record to lengthen. Its count does not start where its pointer does. -/
def findShifted (blockSize : Nat) (tmpBuf : Mem) : Nat → Nat → Nat → Except Halt Nat
  | 0, _, _ => .error .spin
  | fuel + 1, csTmp, tmpDir =>
    if blockSize ≤ csTmp + recLen tmpBuf tmpDir then .ok tmpDir
    else findShifted blockSize tmpBuf fuel (csTmp + recLen tmpBuf tmpDir) (tmpDir + recLen tmpBuf tmpDir)

/-- `ret ? ENOER : EIO`. -/
def enoerOrEio (done : Bool) : Int := if done then enoer else eio

/-- Delete the record at `d` of the first block, after the record `prev`. The caller has found that there is memory, so `deleteBlock` is
`deleteBlockBuffer` here. -/
def deleteRecord (fs : Ext2) (parentInode : Mem) (pino : Nat) (tmpBuf : Mem) (prev : Option Nat) (d : Nat) : Except Halt (Int × Ext2) :=
  if d = 0 ∧ fs.blockSize ≤ recLen tmpBuf d then
    match fs.deleteBlockBuffer (fs.getRealBlock parentInode 0) with
    | (ret, fs) =>
      if ret ≠ enoer then .ok (ret, fs)
      else
        let parentInode := setISectors parentInode ((iSectors parentInode + (2 ^ 32 - fs.sectorsPerBlock)) % 2 ^ 32)
        let parentInode := setISize parentInode ((iSize parentInode + (2 ^ 32 - fs.blockSize)) % 2 ^ 32)
        let (done, fs) := fs.writeInode pino parentInode
        .ok (enoerOrEio done, fs)
  else if fs.blockSize ≤ d + recLen tmpBuf d then
    match prev with
    | none => .error .nullAccess
    | some prev =>
      let (done, _, fs) := fs.writeInodeBlock parentInode pino 0 (setRecLen tmpBuf prev (recLen tmpBuf prev + recLen tmpBuf d))
      .ok (enoerOrEio done, fs)
  else do
    let feLen := recLen tmpBuf d
    let tmpBuf := copy tmpBuf d tmpBuf (d + feLen) (fs.blockSize - feLen - d)
    let tmpDir ← findShifted fs.blockSize tmpBuf fs.blockSize (d + feLen) 0
    let (done, _, fs) := fs.writeInodeBlock parentInode pino 0 (setRecLen tmpBuf tmpDir (recLen tmpBuf tmpDir + feLen))
    return (enoerOrEio done, fs)

/-- `deleteInodeFromDir`; the results are its own, the number of the inode and the state. The search of the first block ends in every
case with a jump out of the loop over the blocks; without a block the code behind the loop has no record to look at. -/
def deleteInodeFromDir (fs : Ext2) (parentInode : Mem) (pino : Nat) (name : Str) : Except Halt (Int × Nat × Ext2) :=
  if name = pathCurrDir ∨ name = pathUpDir then .ok (eacces, 0, fs)
  else if !fs.heapOk then .ok (enomem, 0, fs)
  else if iSize parentInode / fs.blockSize = 0 then .error .nullAccess
  else
    match fs.readInodeBlock parentInode 0 with
    | none => .ok (enoent, 0, fs)
    | some tmpBuf => do
      match ← findWithPrev fs.blockSize tmpBuf name fs.blockSize none 0 with
      | none => return (enoent, 0, fs)
      | some (prev, d) =>
        let (ret, fs) ← fs.deleteRecord parentInode pino tmpBuf prev d
        return (ret, dirInode tmpBuf d, fs)

/-- The loop of `deleteInode` over the data blocks, from `block` on, of which `fuel` are left. -/
def deleteBlocks (fs : Ext2) (inode : Mem) (block : Nat) : Nat → Int × Ext2
  | 0 => (enoer, fs)
  | fuel + 1 =>
    match fs.deleteBlockBuffer (fs.getRealBlock inode block) with
    | (ret, fs) => if ret ≠ enoer then (ret, fs) else fs.deleteBlocks inode (block + 1) fuel

/-- `deleteInode`. -/
def deleteInode (fs : Ext2) (inode : Mem) (ino : Nat) : Int × Ext2 :=
  if !fs.heapOk then (enomem, fs)
  else if fs.groupCount ≤ ino / fs.inodesPerGroup then (eperm, fs)
  else
    match fs.releaseBit .inodes (ino / fs.inodesPerGroup) (ino % fs.inodesPerGroup) with
    | none => (eio, fs)
    | some fs =>
      if iSize inode = 0 then (enoer, fs)
      else
        let endBlock := iSize inode / fs.blockSize
        fs.deleteBlocks inode 0 (if iSize inode % fs.blockSize ≠ 0 then endBlock + 1 else endBlock)

/-- `ext2_delete`. -/
def ext2Delete (fs : Ext2) (node : VfsNode) (name : Str) : Except Halt (Int × Ext2) :=
  match fs.readInode node.inode with
  | none => .ok (enoent, fs)
  | some parentInode =>
    if !inodeDir parentInode then .ok (enotdir, fs)
    else do
      let (ret, cino, fs) ← fs.deleteInodeFromDir parentInode node.inode name
      if ret ≠ enoer then return (ret, fs)
      else
        match fs.readInode cino with
        | none => return (enoent, fs)
        | some cInode => if inodeDir cInode then return (eisdir, fs) else return fs.deleteInode cInode cino

end Ext2

end OmegaOS
