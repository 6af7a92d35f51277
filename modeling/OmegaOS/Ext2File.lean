import OmegaOS.Ext2

/-!
# The ext2 driver: reading and writing files

`ext2_read` and `ext2_write`, block by block.
-/

namespace OmegaOS

open ByteMem

/-- The fields of `VfsNode_t` that reads and writes use. -/
structure VfsNode where
  inode : Nat
  size : Nat
  offset : Int
deriving DecidableEq, Repr

def eio : Int := 5

def enomem : Int := 12

def eexist : Int := 17

def eisdir : Int := 21

def espipe : Int := 29

namespace Ext2

/-- The last block of a range, `(offset + size) / g_blockSize` on 64 bits, kept in 32. -/
def endBlock (fs : Ext2) (offset size : Nat) : Nat := (offset + size) % 2 ^ 64 / fs.blockSize % 2 ^ 32

/-- `intrnCount`: how many bytes of the range lie in its first block. -/
def intrnCount (fs : Ext2) (offset size : Nat) : Nat :=
  if (size + offset % fs.blockSize) % 2 ^ 64 ≤ fs.blockSize then size % 2 ^ 32 else fs.blockSize - offset % fs.blockSize

/-- `remainingBytes`: how many lie in its last one. -/
def remainingBytes (fs : Ext2) (offset size : Nat) : Nat := (offset + size) % 2 ^ 64 % fs.blockSize

/-! ## `ext2_write` -/

/-- What a round of the loop writes to a block, and how many bytes of it are the caller's. The first block and the last one are read
first. -/
def blockImage (fs : Ext2) (inode : Mem) (offset size : Nat) (buffer : Mem) (written block : Nat) : Option (Mem × Nat) :=
  if block = offset / fs.blockSize then
    (fs.readInodeBlock inode block).map fun tmpBuf =>
      (copy tmpBuf (offset % fs.blockSize) buffer 0 (fs.intrnCount offset size), fs.intrnCount offset size)
  else if block = fs.endBlock offset size then
    (fs.readInodeBlock inode block).map fun tmpBuf =>
      (copy tmpBuf 0 buffer written (fs.remainingBytes offset size), fs.remainingBytes offset size)
  else some (fun x => buffer (written + x), fs.blockSize)

/-- The loop of `ext2_write` from `block` on, for `fuel` blocks; the results are whether no round failed, the inode, the bytes written
and the state. -/
def writeLoop (fs : Ext2) (inode : Mem) (ino offset size : Nat) (buffer : Mem) (written block : Nat) :
    Nat → Bool × Mem × Nat × Ext2
  | 0 => (true, inode, written, fs)
  | fuel + 1 =>
    match fs.blockImage inode offset size buffer written block with
    | none => (false, inode, written, fs)
    | some (image, count) =>
      match fs.writeInodeBlock inode ino block image with
      | (false, inode, fs) => (false, inode, written, fs)
      | (true, inode, fs) => fs.writeLoop inode ino offset size buffer (written + count) (block + 1) fuel

/-- The end of `ext2_write`: the inode's size is set when the file has grown, and the inode is written back. -/
def finishWrite (fs : Ext2) (node : VfsNode) (inode : Mem) (offset osize : Nat) (writtenBytes : Int) : Int × VfsNode × Ext2 :=
  if writtenBytes = 0 then (0, node, fs)
  else
    let inode :=
      if (offset : Int) + writtenBytes > osize then
        let inode := setISize inode (((offset : Int) + writtenBytes).toNat % 2 ^ 32)
        setISectors inode (rndup (iSize inode) ataSectorSize / ataSectorSize)
      else inode
    match fs.writeInode node.inode inode with
    | (false, fs) => (-eio, node, fs)
    | (true, fs) => (writtenBytes, { node with size := iSize inode, offset := (offset : Int) + writtenBytes }, fs)

/-- `ext2_write`. The size of an inode that could not be read is loaded all the same. -/
def ext2Write (fs : Ext2) (node : VfsNode) (offset size : Nat) (buffer : Mem) : Except Halt (Int × VfsNode × Ext2) :=
  match fs.readInode node.inode with
  | none => .error .nullAccess
  | some inode =>
    let osize := iSize inode
    if !inodeFile inode then .ok (-eisdir, node, fs)
    else if osize < offset then .ok (-espipe, node, fs)
    else if !fs.heapOk then .ok (-enomem, node, fs)
    else
      let startBlock := offset / fs.blockSize
      let (done, inode, written, fs) :=
        fs.writeLoop inode node.inode offset size buffer 0 startBlock (fs.endBlock offset size + 1 - startBlock)
      .ok (fs.finishWrite node inode offset osize (if done then (written : Int) else -eio))

/-! ## `ext2_read` -/

/-- The loop of `ext2_read` from `block` on, for `fuel` blocks; the results are whether no round failed, the bytes read and the
buffer. A range whose end wraps makes the count of the first round wrap, and the source then copies from far behind `tmpBuf`. -/
def readLoop (fs : Ext2) (inode : Mem) (offset size : Nat) (buffer : Mem) (read block : Nat) : Nat → Bool × Nat × Mem
  | 0 => (true, read, buffer)
  | fuel + 1 =>
    match fs.readInodeBlock inode block with
    | none => (false, read, buffer)
    | some tmpBuf =>
      let (buffer, count) :=
        if block = offset / fs.blockSize then
          (copy buffer 0 tmpBuf (offset % fs.blockSize) (fs.intrnCount offset size), fs.intrnCount offset size)
        else if block = fs.endBlock offset size then
          (copy buffer read tmpBuf 0 (fs.remainingBytes offset size), fs.remainingBytes offset size)
        else (copy buffer read tmpBuf 0 fs.blockSize, fs.blockSize)
      fs.readLoop inode offset size buffer (read + count) (block + 1) fuel

/-- `ext2_read`; the results are its own, the node and the caller's buffer. -/
def ext2Read (fs : Ext2) (node : VfsNode) (offset size : Nat) (buffer : Mem) : Int × VfsNode × Mem :=
  match fs.readInode node.inode with
  | none => (-eexist, node, buffer)
  | some inode =>
    if !inodeFile inode then (-eisdir, node, buffer)
    else if iSize inode < (size + offset) % 2 ^ 64 then (-espipe, node, buffer)
    else if !fs.heapOk then (-enomem, node, buffer)
    else
      let startBlock := offset / fs.blockSize
      match fs.readLoop inode offset size buffer 0 startBlock (fs.endBlock offset size + 1 - startBlock) with
      | (false, _, buffer) => (-eio, node, buffer)
      | (true, read, buffer) => (read, { node with offset := (offset : Int) + read }, buffer)

end Ext2

end OmegaOS
