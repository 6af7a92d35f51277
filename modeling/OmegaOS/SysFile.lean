import Mathlib.Algebra.Group.Int.Defs
import OmegaOS.Vfs

/-!
# System calls on files

`fs/sysfile.c` and the table of descriptors of a process. A descriptor is a position in the list `fdt`, whose nodes nothing else points
to. What a call finds outside the table may differ from call to call: other processes run in between.
-/

namespace OmegaOS

open ByteMem CStr Function

/-- What a call finds besides the table: the filesystem, the process's working directory, the keyboard, and what the heap does. -/
structure FileWorld where
  fs : Ext2
  rootFS : FsNode
  cwd : Str
  /-- What `ps2_kbd_getc` returns. -/
  kbd : Int
  /-- What the memory of new nodes holds, for each function that makes some. -/
  heap : Nat → Nat → FsNode
  /-- Whether there is memory for a node of the list. -/
  listOk : Bool
  /-- Whether there is memory for a `DIR`. -/
  dirOk : Bool
  /-- What the memory of a node holds once it is freed. -/
  freed : FsNode

/-- What a call returns, and what it leaves: the table, the filesystem and the caller's buffer. -/
structure FileResult where
  ret : Int
  fdt : List FsNode
  fs : Ext2
  buf : Option Mem := none

/-! ## Strings in memory -/

/-- `memset`. -/
def memset (m : Mem) (s : Nat) (c : BitVec 8) (n : Nat) : Mem := fun x => if s ≤ x ∧ x < s + n then c else m x

/-- `strncpy`: the terminator comes behind the bytes that are copied, also when there are `n` of them. -/
def strncpy (m : Mem) (dst : Nat) : Str → Nat → Mem
  | c :: src, n + 1 => strncpy (update m dst c) (dst + 1) src n
  | _, _ => update m dst 0

/-- `strncpy` from memory, which may change the bytes that are still to be read. -/
def strncpyFrom (m : Mem) (dst src : Nat) : Nat → Mem
  | 0 => update m dst 0
  | n + 1 => if m src = 0 then update m dst 0 else strncpyFrom (update m dst (m src)) (dst + 1) (src + 1) n

/-- The offset of `cwd` in `Process_t`: the context, three pointers and the name are before it. -/
def processCwd : Nat := 176 + 3 * 8 + 50

/-! ## The table -/

/-- `list_find_index`, which gives `NULL` for the length too. -/
def listFindIndex (fdt : List FsNode) (index : Nat) : Option FsNode :=
  if fdt.length < index then none else (fdt.drop index).head?

/-- `process_add_file`, on a table of nodes or of pointers to them. `list_insert` returns a position as an `int`. -/
def processAddFile {α : Type} (listOk : Bool) (fdt : List α) (node : α) : Int × List α :=
  if listOk then
    let fd : Int := (fdt.length : Int).bmod (2 ^ 32)
    (if 0 ≤ fd then fd else -enomem, fdt ++ [node])
  else (-enomem, fdt)

/-- The table as pointers to nodes, and the blocks of the heap that are allocated. -/
structure NodeTable where
  fdt : List Nat
  live : List Nat
deriving DecidableEq, Repr

/-- A block is allocated. -/
def NodeTable.kmalloc (t : NodeTable) (addr : Nat) : NodeTable := { t with live := addr :: t.live }

/-- A block is freed. -/
def NodeTable.kfree (t : NodeTable) (addr : Nat) : NodeTable := { t with live := t.live.erase addr }

/-- `process_close_file`. The node stays in the list. -/
def processCloseFile (fdt : List FsNode) (fd : Nat) : Except Halt Bool :=
  match listFindIndex fdt fd with
  | none => .ok false
  | some vfsNode => do
    vfsClose vfsNode
    return true

/-- `node->offset`, as `vfs_read` and `vfs_write` get it. -/
def FsNode.offset32 (node : FsNode) : Nat := (node.offset % 2 ^ 32).toNat

/-! ## The calls -/

section

variable (w : FileWorld) (fdt : List FsNode)

/-- A call that fails before it does anything. -/
def FileResult.failed (err : Int) (buf : Option Mem) : FileResult := { ret := -err, fdt := fdt, fs := w.fs, buf := buf }

/-- The end of `sys_open`. -/
def sysOpenNode (fs : Ext2) (node : FsNode) (flags : Nat) : FileResult :=
  let (ret, fdt) := processAddFile w.listOk fdt { node with attr := flags }
  { ret := ret, fdt := fdt, fs := fs }

/-- `sys_open`. -/
def sysOpen (path : Option RawPath) (flags : Nat) : Except Halt FileResult :=
  match path with
  | none => .ok (.failed w fdt einval none)
  | some path => do
    match ← vfsOpenFile w.fs w.rootFS w.cwd path.text (w.heap 0) with
    | some node => return sysOpenNode w fdt w.fs node flags
    | none =>
      if flags &&& oCreat ≠ oCreat then return .failed w fdt enoent none
      else
        let (ret, fs) ← vfsCreate w.fs w.rootFS w.cwd path flags (w.heap 1) (w.heap 2 0)
        if ret ≠ enoer then return { ret := -ret, fdt := fdt, fs := fs }
        else
          match ← vfsOpenFile fs w.rootFS w.cwd path.text (w.heap 3) with
          | none => return { ret := -eperm, fdt := fdt, fs := fs }
          | some node => return sysOpenNode w fdt fs node flags

/-- `sys_close`. -/
def sysClose (fd : Nat) : Except Halt FileResult := do
  let closed ← processCloseFile fdt fd
  return { ret := if closed then enoer else -enoent, fdt := fdt, fs := w.fs }

/-- `sys_read`. -/
def sysRead (fd : Nat) (buf : Option Mem) (count : Nat) : Except Halt FileResult :=
  match buf with
  | none => .ok (.failed w fdt einval buf)
  | some buffer =>
    match fdt[fd]? with
    | none => .ok (.failed w fdt enoent buf)
    | some node => do
      let (ret, node, buffer) ← vfsRead w.fs node w.kbd node.offset32 count buffer
      return { ret := ret, fdt := fdt.set fd node, fs := w.fs, buf := some buffer }

/-- `sys_write`. -/
def sysWrite (fd : Nat) (buf : Option Mem) (count : Nat) : Except Halt FileResult :=
  match buf with
  | none => .ok (.failed w fdt einval buf)
  | some buffer =>
    match fdt[fd]? with
    | none => .ok (.failed w fdt enoent buf)
    | some node => do
      let (ret, node, fs) ← vfsWrite w.fs node node.offset32 count buffer
      return { ret := ret, fdt := fdt.set fd node, fs := fs, buf := buf }

/-- `sys_ftell`. -/
def sysFtell (fd : Nat) : FileResult :=
  match fdt[fd]? with
  | none => .failed w fdt enoent none
  | some node => { ret := vfsFtell node, fdt := fdt, fs := w.fs }

/-- `sys_lseek`. -/
def sysLseek (fd : Nat) (offset whence : Int) : FileResult :=
  match fdt[fd]? with
  | none => .failed w fdt enoent none
  | some node =>
    let (ret, node) := vfsFseek node offset whence
    { ret := ret, fdt := fdt.set fd node, fs := w.fs }
/-- `sys_chdir`; the results are its own and the working directory. -/
def sysChdir (path : Option Str) : Except Halt (Int × Str) :=
  match path with
  | none => .ok (einval, w.cwd)
  | some path => do
    let newPath := normalizePath w.cwd path
    match ← vfsOpenFile w.fs w.rootFS w.cwd newPath (w.heap 0) with
    | none => return (enoent, w.cwd)
    | some node => if node.flags &&& fsDir = 0 then return (enotdir, w.cwd) else return (enoer, newPath.take fsMaxPath)

/-- `sys_chdir` on the memory that holds the process `current`. -/
def sysChdirAt (m : Mem) (current : Nat) (path : Option Str) : Except Halt (Int × Mem) :=
  match path with
  | none => .ok (einval, m)
  | some path => do
    let newPath := normalizePath w.cwd path
    match ← vfsOpenFile w.fs w.rootFS w.cwd newPath (w.heap 0) with
    | none => return (enoent, m)
    | some node =>
      if node.flags &&& fsDir = 0 then return (enotdir, m)
      else return (enoer, strncpy (memset m (current + processCwd) 0 fsMaxPath) (current + processCwd) newPath fsMaxPath)

/-- `sys_getcwd`; the results are the pointer that it returns and the memory. -/
def sysGetcwd (m : Mem) (current buf size : Nat) : Nat × Mem :=
  if buf = null ∨ size = 0 then (null, m) else (buf, strncpyFrom m buf (current + processCwd) size)

/-- `sys_opendir`; the result is the descriptor in the `DIR`, or -1 for no `DIR`. When there is no memory for one the node is freed, and
the list keeps it. -/
def sysOpendir (name : Option Str) : Except Halt FileResult :=
  match name with
  | none => .ok { ret := -1, fdt := fdt, fs := w.fs }
  | some name => do
    match ← vfsOpenFile w.fs w.rootFS w.cwd name (w.heap 0) with
    | none => return { ret := -1, fdt := fdt, fs := w.fs }
    | some node =>
      let (fd, fdt') := processAddFile w.listOk fdt node
      if fd < 0 then return { ret := -1, fdt := fdt', fs := w.fs }
      else if w.dirOk then return { ret := fd, fdt := fdt', fs := w.fs }
      else return { ret := -1, fdt := fdt ++ [w.freed], fs := w.fs }

/-- `sys_opendir` from the entry in the table on, for a node at `node`; the result says whether there is a `DIR`. -/
def opendirEnter (t : NodeTable) (node : Nat) : Bool × NodeTable :=
  let (fd, fdt) := processAddFile w.listOk t.fdt node
  let t := { t with fdt := fdt }
  if fd < 0 then (false, t.kfree node)
  else if w.dirOk then (true, t)
  else (false, t.kfree node)

/-- `sys_opendir` on pointers, with the memory `node` for the node that `vfs_openFile` makes. -/
def sysOpendirAt (t : NodeTable) (name : Option Str) (node : Nat) : Except Halt (Bool × NodeTable) :=
  match name with
  | none => .ok (false, t)
  | some name => do
    let opened ← vfsOpenFile w.fs w.rootFS w.cwd name (w.heap 0)
    if opened.isNone ∨ node = null then return (false, t) else return opendirEnter w (t.kmalloc node) node

/-- `sys_closedir`, on a `DIR` with this descriptor; the result says whether there was such a descriptor. -/
def sysClosedir (fd : Nat) : Except Halt FileResult := sysClose w fdt fd

end

/-- The calls on files. -/
inductive FileCall where
  | openFile (path : Option RawPath) (flags : Nat)
  | opendir (name : Option Str)
  | close (fd : Nat)
  | closedir (fd : Nat)
  | read (fd : Nat) (buf : Option Mem) (count : Nat)
  | write (fd : Nat) (buf : Option Mem) (count : Nat)
  | lseek (fd : Nat) (offset whence : Int)
  | ftell (fd : Nat)

/-- Perform a call. -/
def FileCall.run (w : FileWorld) (fdt : List FsNode) : FileCall → Except Halt FileResult
  | .openFile path flags => sysOpen w fdt path flags
  | .opendir name => sysOpendir w fdt name
  | .close fd => sysClose w fdt fd
  | .closedir fd => sysClosedir w fdt fd
  | .read fd buf count => sysRead w fdt fd buf count
  | .write fd buf count => sysWrite w fdt fd buf count
  | .lseek fd offset whence => .ok (sysLseek w fdt fd offset whence)
  | .ftell fd => .ok (sysFtell w fdt fd)

/-- `createStdinNode`. -/
def createStdinNode : FsNode := { emptyNode with flags := fsFile, attr := oRdonly, read := .std }

/-- `createStdoutNode`, which is `createStderrNode` too. -/
def createStdoutNode : FsNode := { emptyNode with flags := fsFile, attr := oWronly, write := .std }

/-- `createStandardFiles`: the table of a new process. -/
def createStandardFiles : List FsNode := [createStdinNode, createStdoutNode, createStdoutNode]

end OmegaOS
