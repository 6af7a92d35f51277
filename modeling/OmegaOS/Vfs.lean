import Mathlib.Algebra.GroupWithZero.Nat
import OmegaOS.Ext2Dir

/-!
# The virtual filesystem

`fs/vfs.c` over the ext2 driver: paths, and the functions that look up, read, write, create and delete files by them. `vfs_open` is left
out, since the function behind it does nothing. Strings are their bytes before the terminator.
-/

namespace OmegaOS

open ByteMem CStr

def einval : Int := 22

/-- `FS_PATH_SEPERATOR`. -/
def pathSeperator : BitVec 8 := 0x2F

/-- `O_RDONLY`. -/
def oRdonly : Nat := 0x0000

/-- `O_WRONLY`. -/
def oWronly : Nat := 0x0001

/-- `O_RDWR`. -/
def oRdwr : Nat := 0x0002

/-- `O_ACCMODE`. -/
def oAccmode : Nat := 0x0003

/-- `O_CREAT`. -/
def oCreat : Nat := 0x0200

/-! ## Paths -/

/-- `strtok` with the separator for its delimiter: the next token and what the function keeps for the call after. -/
def strtok (s : Str) : Option (Str × Str) :=
  let s := s.dropWhile (· == pathSeperator)
  if s = [] then none else some (s.takeWhile (· != pathSeperator), (s.dropWhile (· != pathSeperator)).drop 1)

/-- A loop over the tokens of a string, of which `fuel` are left. -/
def strtokLoop : Nat → Str → List Str
  | 0, _ => []
  | fuel + 1, s =>
    match strtok s with
    | none => []
    | some (token, rest) => token :: strtokLoop fuel rest

/-- All tokens of a string; each has a byte at least. -/
def tokens (s : Str) : List Str := strtokLoop s.length s

/-- What `normalizePath` does with a token of the path. -/
def pushToken (lst : List Str) (token : Str) : List Str :=
  if token = Ext2.pathUpDir then lst.dropLast else if token = Ext2.pathCurrDir then lst else lst ++ [token]

/-- `normalizePath`, with the memory it needs. `krealloc(output, 2)`, for the root's path, is taken to leave other blocks alone, although it
copies the whole old block into the new one. -/
def normalizePath (cwd path : Str) : Str :=
  let lst := if path ≠ [] ∧ path.head? ≠ some pathSeperator then tokens cwd else []
  let lst := (tokens path).foldl pushToken lst
  let fSize : Nat := (lst.map fun item => item.length + 1).sum
  if fSize = 0 then [pathSeperator] else lst.flatMap fun item => pathSeperator :: item

/-! ## Looking up -/

/-- `vfs_finddir`. -/
def vfsFinddir (fs : Ext2) (node : FsNode) (name : Str) (raw : FsNode) : Except Halt (Option FsNode) :=
  if node.finddir = .null then .ok none
  else if node.flags &&& fsDir ≠ fsDir then .ok none
  else
    match node.finddir with
    | .ext2 => fs.ext2Finddir node.toVfsNode name raw
    | _ => .error .nullAccess

/-- `vfs_readdir`. -/
def vfsReaddir (fs : Ext2) (node : FsNode) (index : Nat) : Except Halt (Option Ext2.Dirent) :=
  if node.readdir = .null then .ok none
  else if node.flags &&& fsDir ≠ fsDir then .ok none
  else
    match node.readdir with
    | .ext2 => .ok (fs.ext2Readdir node.toVfsNode index)
    | _ => .error .nullAccess

/-- The string at an offset of the buffer that holds the path. -/
def stringAt (buf : Str) (offset : Nat) : Str := (buf.drop offset).takeWhile (· != 0)

/-- The loop of `vfs_openFile`, from `depth` on, of which `fuel` rounds are left. The node of each depth gets memory that holds
`heap depth`. -/
def openLoop (fs : Ext2) (heap : Nat → FsNode) (path : Str) (pathDepth : Nat) (newNode : FsNode) (pathOffset depth : Nat) :
    Nat → Except Halt (Option FsNode)
  | 0 => .ok (some newNode)
  | fuel + 1 => do
    match ← vfsFinddir fs newNode (stringAt path pathOffset) (heap depth) with
    | none => return none
    | some newNode =>
      if depth = pathDepth - 1 then return some newNode
      else openLoop fs heap path pathDepth newNode (pathOffset + (stringAt path pathOffset).length + 1) (depth + 1) fuel

/-- `vfs_openFile`, for a process with the working directory `cwd`. Without memory `list_create` stores to page 0, which is mapped, and
`normalizePath` returns `NULL`. -/
def vfsOpenFile (fs : Ext2) (rootFS : FsNode) (cwd name : Str) (heap : Nat → FsNode) : Except Halt (Option FsNode) :=
  if !fs.heapOk then .ok none
  else
    let path := normalizePath cwd name
    if path.length = 1 then .ok (some rootFS)
    else
      let pathDepth := path.count pathSeperator
      let path := path.map (fun c => if c = pathSeperator then 0 else c) ++ [0]
      openLoop fs heap path pathDepth rootFS 1 0 pathDepth

/-- A path as the caller passes it: a string, and behind it memory that holds other strings. -/
structure RawPath where
  text : Str
  /-- The string that starts so many bytes behind the terminator. -/
  behind : Nat → Str

/-- The string at `name + i`. -/
def RawPath.drop (name : RawPath) (i : Nat) : Str :=
  if i ≤ name.text.length then name.text.drop i else name.behind (i - name.text.length - 1)

/-- The loop of `getParent` from `i` downwards: the last separator of the path. -/
def lastSeperator (path : Str) : Nat → Option Nat
  | 0 => if path.getD 0 0 = pathSeperator then some 0 else none
  | i + 1 => if path.getD (i + 1) 0 = pathSeperator then some (i + 1) else lastSeperator path i

/-- `getParent`; the results are its own, the parent and the name of the file. The index is one of the normalised path, and the name
that it is used on is the caller's. -/
def getParent (fs : Ext2) (rootFS : FsNode) (cwd : Str) (name : RawPath) (heap : Nat → FsNode) :
    Except Halt (Int × Option FsNode × Option Str) :=
  if !fs.heapOk then .ok (eperm, none, none)
  else do
    let path := normalizePath cwd name.text
    let fileName := (lastSeperator path (path.length - 1)).map name.drop
    let parent ← vfsOpenFile fs rootFS cwd (path ++ pathSeperator :: Ext2.pathUpDir) heap
    return (if parent.isSome then enoer else eperm, parent, fileName)

/-- What `vfs_create`, `vfs_mkdir` and `vfs_delete` share: the parent is asked through one of its functions. -/
def withParent (fs : Ext2) (rootFS : FsNode) (cwd : Str) (name : RawPath) (heap : Nat → FsNode) (callback : FsNode → Callback)
    (call : FsNode → Str → Except Halt (Int × Ext2)) : Except Halt (Int × Ext2) := do
  match ← getParent fs rootFS cwd name heap with
  | (ret, parent, fileName) =>
    if ret ≠ enoer then return (ret, fs)
    else
      match parent, fileName with
      | some parent, some fileName =>
        match callback parent with
        | .null => return (eperm, fs)
        | .ext2 => call parent fileName
        | _ => throw .nullAccess
      | _, _ => return (eperm, fs)

/-- `vfs_create`. -/
def vfsCreate (fs : Ext2) (rootFS : FsNode) (cwd : Str) (name : RawPath) (attr : Nat) (heap : Nat → FsNode) (raw : FsNode) :
    Except Halt (Int × Ext2) :=
  withParent fs rootFS cwd name heap (·.create) fun parent fileName => fs.ext2Create parent.toVfsNode fileName attr raw

/-- `vfs_mkdir`. -/
def vfsMkdir (fs : Ext2) (rootFS : FsNode) (cwd : Str) (name : RawPath) (attr : Nat) (heap : Nat → FsNode) (raw : FsNode) :
    Except Halt (Int × Ext2) :=
  withParent fs rootFS cwd name heap (·.mkdir) fun parent fileName => fs.ext2Mkdir parent.toVfsNode fileName attr raw

/-- `vfs_delete`. -/
def vfsDelete (fs : Ext2) (rootFS : FsNode) (cwd : Str) (name : RawPath) (heap : Nat → FsNode) : Except Halt (Int × Ext2) :=
  withParent fs rootFS cwd name heap (·.delete) fun parent fileName => fs.ext2Delete parent.toVfsNode fileName

/-! ## Reading and writing -/

/-- `stdinRead`, when the keyboard gives `c`. -/
def stdinRead (c : Int) (buffer : Mem) : Int × Mem := if c ≤ 0 then (-1, buffer) else (1, store buffer 0 1 (c % 256).toNat)

/-- `vfs_read`; the results are its own, the node and the caller's buffer. -/
def vfsRead (fs : Ext2) (node : FsNode) (kbd : Int) (offset size : Nat) (buffer : Mem) : Except Halt (Int × FsNode × Mem) :=
  if node.read = .null ∨ node.attr &&& oWronly ≠ 0 then .ok (-eperm, node, buffer)
  else if node.flags &&& fsFile ≠ fsFile then .ok (-eisdir, node, buffer)
  else if size = 0 then .ok (0, node, buffer)
  else
    match node.read with
    | .ext2 =>
      let (ret, vnode, buffer) := fs.ext2Read node.toVfsNode offset size buffer
      .ok (ret, { node with toVfsNode := vnode }, buffer)
    | .std =>
      let (ret, buffer) := stdinRead kbd buffer
      .ok (ret, node, buffer)
    | _ => .error .nullAccess

/-- `vfs_write`. The mode is tested against `O_RDONLY`, which is no bit. -/
def vfsWrite (fs : Ext2) (node : FsNode) (offset size : Nat) (buffer : Mem) : Except Halt (Int × FsNode × Ext2) :=
  if node.write = .null ∨ node.attr &&& oRdonly ≠ 0 then .ok (-eperm, node, fs)
  else if node.flags &&& fsFile ≠ fsFile then .ok (-eisdir, node, fs)
  else if size = 0 then .ok (0, node, fs)
  else
    match node.write with
    | .ext2 => do
      let (ret, vnode, fs) ← fs.ext2Write node.toVfsNode offset size buffer
      return (ret, { node with toVfsNode := vnode }, fs)
    | .std => .ok (size, node, fs)
    | _ => .error .nullAccess

/-- `vfs_close`. The only function behind it does nothing. -/
def vfsClose (node : FsNode) : Except Halt Unit :=
  match node.close with
  | .stray _ => .error .nullAccess
  | _ => .ok ()

/-- `vfs_ftell`. -/
def vfsFtell (node : FsNode) : Int := if node.flags &&& fsFile ≠ fsFile then -eisdir else node.offset

/-- `vfs_fseek`; its errors are positive numbers. -/
def vfsFseek (node : FsNode) (offset whence : Int) : Int × FsNode :=
  if node.flags &&& fsFile ≠ fsFile then (eisdir, node)
  else if whence = 0 then (enoer, { node with offset := offset })
  else if whence = 1 then (enoer, { node with offset := (node.offset + offset).bmod (2 ^ 64) })
  else if whence = 2 then (enoer, { node with offset := node.size })
  else (einval, node)

end OmegaOS
