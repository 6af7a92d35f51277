import OmegaOS.AddressSpace
import OmegaOS.Heap
import OmegaOS.SysFile

/-!
# Creating a process on the heap

`process_create` and `process_delete` with all that they allocate: the lists of `misc/list.c`, the tree of `misc/tree.c` and the queues of
`misc/queue.c` lie in the memory of the heap, byte by byte. A field is read at its offset; memory that `kmalloc` returns holds what it held.
Page 0 is mapped, so that an access through `NULL` is an access to address 0. The loops over lists have a bound on their rounds.
-/

namespace OmegaOS

namespace InMemory

open ByteMem CStr X86

/-- The state of the kernel that creates a process. -/
structure Kernel where
  pg : Paging
  heap : Heap
  /-- The counter of `getNextID`. -/
  nextID : Nat
  /-- `g_processTree`. -/
  processTree : Nat
  /-- `g_processQueues`. -/
  processQueues : Nat
  /-- The addresses of the functions `stdinRead` and `stdoutWrite`. -/
  stdinRead : Nat
  stdoutWrite : Nat

/-- An assignment to a pointer or a `size_t`. -/
def put (hp : Heap) (a v : Nat) : Heap := { hp with mem := store hp.mem a 8 v }

/-- A pointer or a `size_t`. -/
def get (hp : Heap) (a : Nat) : Nat := load hp.mem a 8

/-- An assignment to an `int` or a `uint32_t`. -/
def put32 (hp : Heap) (a v : Nat) : Heap := { hp with mem := store hp.mem a 4 v }

/-- `lock_acquire`. The bit was clear, so that setting it adds one. -/
def lockAcquire (hp : Heap) (lock : Nat) : Except Halt Heap :=
  if load hp.mem lock 4 % 2 = 1 then .error .spin else .ok (put32 hp lock (load hp.mem lock 4 + 1))

/-- `lock_release`. -/
def lockRelease (hp : Heap) (lock : Nat) : Heap := put32 hp lock 0

/-- `kcalloc`. -/
def kcalloc (hp : Heap) (size : Nat) : Nat × Heap :=
  let (addr, hp) := kmalloc hp size
  if addr = null then (null, hp) else (addr, { hp with mem := memset hp.mem addr 0 size })

/-! ## Lists

`list_t` is `head`, `tail`, `length`; `node_t` is `next`, `prev`, `value`. -/

/-- `list_create`. -/
def listCreate (hp : Heap) : Nat × Heap :=
  let (out, hp) := kmalloc hp 24
  let hp := put hp out null
  let hp := put hp (out + 8) null
  (out, put hp (out + 16) 0)

/-- `list_append`. -/
def listAppend (hp : Heap) (list node : Nat) : Heap :=
  let hp := put hp node null
  let hp :=
    if get hp (list + 8) = null then put (put hp list node) (node + 8) null
    else
      let hp := put hp (get hp (list + 8)) node
      put hp (node + 8) (get hp (list + 8))
  let hp := put hp (list + 8) node
  put hp (list + 16) (get hp (list + 16) + 1)

/-- `list_insert`. -/
def listInsert (hp : Heap) (list item : Nat) : Int × Heap :=
  let (node, hp) := kmalloc hp 24
  if node = null then (-1, hp)
  else
    let hp := put hp (node + 16) item
    let hp := put hp node null
    let hp := put hp (node + 8) null
    let hp := listAppend hp list node
    (((get hp (list + 16) : Int) - 1).bmod (2 ^ 32), hp)

/-- The loop of `list_find` from `item` on. -/
def listFind (hp : Heap) (value : Nat) : Nat → Nat → Except Halt Nat
  | 0, _ => .error .spin
  | fuel + 1, item =>
    if item = null then .ok null
    else if get hp (item + 16) = value then .ok item
    else listFind hp value fuel (get hp item)

/-- `list_delete`. -/
def listDelete (hp : Heap) (list node : Nat) : Heap :=
  let hp := if node = get hp list then put hp list (get hp node) else hp
  let hp := if node = get hp (list + 8) then put hp (list + 8) (get hp (node + 8)) else hp
  let hp := if get hp (node + 8) ≠ null then put hp (get hp (node + 8)) (get hp node) else hp
  let hp := if get hp node ≠ null then put hp (get hp node + 8) (get hp (node + 8)) else hp
  let hp := put hp (node + 8) null
  let hp := put hp node null
  put hp (list + 16) (get hp (list + 16) + (2 ^ 64 - 1))

/-- `list_merge`. -/
def listMerge (hp : Heap) (target source : Nat) : Except Halt Heap :=
  let hp := if get hp (target + 8) ≠ null then put hp (get hp (target + 8)) (get hp source) else put hp target (get hp source)
  let hp := if get hp (source + 8) ≠ null then put hp (target + 8) (get hp (source + 8)) else hp
  let hp := put hp (target + 16) (get hp (target + 16) + get hp (source + 16))
  kfree hp source

/-- The loop of `list_destroy` from `n` on. -/
def listDestroy (hp : Heap) : Nat → Nat → Except Halt Heap
  | 0, _ => .error .spin
  | fuel + 1, n =>
    if n = null then .ok hp
    else do
      let hp ← kfree hp (get hp (n + 16))
      listDestroy hp fuel (get hp n)

/-- The loop of `list_free` from `n` on. -/
def listFree (hp : Heap) : Nat → Nat → Except Halt Heap
  | 0, _ => .error .spin
  | fuel + 1, n =>
    if n = null then .ok hp
    else do
      let s := get hp n
      let hp ← kfree hp n
      listFree hp fuel s

/-! ## The tree

`TreeNode_t` is `value`, `children`, `parent`; `Tree_t` is `root`, `nodes`, `lock`. -/

/-- `tree_create_node`. -/
def treeCreateNode (hp : Heap) (value : Nat) : Except Halt (Nat × Heap) := do
  let (node, hp) := kmalloc hp 24
  let hp := put hp node value
  let (children, hp) := listCreate hp
  let hp := put hp (node + 8) children
  let hp := put hp (node + 16) null
  if get hp (node + 8) = null then
    let hp ← kfree hp node
    return (null, hp)
  return (node, hp)

/-- `tree_insert`. -/
def treeInsert (hp : Heap) (tree parent node : Nat) : Except Halt Heap := do
  let hp ← lockAcquire hp (tree + 16)
  let (_, hp) := listInsert hp (get hp (parent + 8)) node
  let hp := put hp (node + 16) parent
  let hp := put hp (tree + 8) (get hp (tree + 8) + 1)
  return lockRelease hp (tree + 16)

/-- The loop of `tree_remove` over the children of the node, from `child` on. -/
def setParents (hp : Heap) (parent : Nat) : Nat → Nat → Except Halt Heap
  | 0, _ => .error .spin
  | fuel + 1, child =>
    if child = null then .ok hp
    else
      let hp := put hp (get hp (child + 16) + 16) parent
      setParents hp parent fuel (get hp child)

/-- `tree_remove`. -/
def treeRemove (hp : Heap) (tree node fuel : Nat) : Except Halt Heap := do
  let parent := get hp (node + 16)
  let hp := put hp (tree + 8) (get hp (tree + 8) + (2 ^ 64 - 1))
  let hp ← lockAcquire hp (tree + 16)
  let cell ← listFind hp node fuel (get hp (get hp (parent + 8)))
  let hp := listDelete hp (get hp (parent + 8)) cell
  let hp ← setParents hp parent fuel (get hp (get hp (node + 8)))
  let hp ← listMerge hp (get hp (parent + 8)) (get hp (node + 8))
  let hp ← kfree hp node
  return lockRelease hp (tree + 16)

/-! ## The ready queues

`Queue_t` is `front`, `rear`, `count`, `lock`; `QueueNode_t` is `data`, `next`. -/

/-- `queue_enqueue`. The node is allocated with the size of a pointer to it. -/
def queueEnqueue (hp : Heap) (q data : Nat) : Except Halt Heap := do
  let hp ← lockAcquire hp (q + 24)
  let (tmp, hp) := kmalloc hp 8
  let hp := put hp tmp data
  let hp := put hp (tmp + 8) null
  let hp :=
    if get hp (q + 8) = null then put (put hp (q + 8) tmp) q tmp
    else
      let hp := put hp (get hp (q + 8) + 8) tmp
      put hp (q + 8) tmp
  let hp := put hp (q + 16) (get hp (q + 16) + 1)
  return lockRelease hp (q + 24)

/-- `process->priority`. -/
def processPriority (hp : Heap) (process : Nat) : Int := (BitVec.ofNat 32 (load hp.mem (process + 512) 4)).toInt

/-- `scheduler_add`. -/
def schedulerAdd (hp : Heap) (processQueues process : Nat) : Except Halt Heap := do
  let priority := processPriority hp process
  assert (0 ≤ priority && priority < 4) "process->priority >= 0 && process->priority < PROCESS_PRIORITIES_COUNT"
  queueEnqueue hp (get hp (processQueues + 8 * priority.toNat)) process

/-! ## The standard files -/

/-- A node of `fs/std.c`, with its attributes and its function `f` in the field at `field`. -/
def createStdNode (hp : Heap) (attr field f : Nat) : Nat × Heap :=
  let (node, hp) := kcalloc hp 384
  if node = null then (null, hp)
  else
    let hp := put32 hp (node + 272) 1
    let hp := put32 hp (node + 260) attr
    (node, put hp (node + field) f)

/-- `createStdinNode`. -/
def createStdinNode (k : Kernel) (hp : Heap) : Nat × Heap := createStdNode hp 0 312 k.stdinRead

/-- `createStdoutNode`, and `createStderrNode`, which calls it. -/
def createStdoutNode (k : Kernel) (hp : Heap) : Nat × Heap := createStdNode hp 1 320 k.stdoutWrite

/-- `process_add_file`. -/
def processAddFile (hp : Heap) (process node : Nat) : Int × Heap :=
  let (fd, hp) := listInsert hp (get hp (process + 192)) node
  (if 0 ≤ fd then fd else -enomem, hp)

/-- `createStandardFiles`. A node that is `NULL` is added like any other. -/
def createStandardFiles (k : Kernel) (hp : Heap) (process : Nat) : Bool × Heap :=
  let (node, hp) := createStdinNode k hp
  let (fd, hp) := processAddFile hp process node
  if fd < 0 then (false, hp)
  else
    let (node, hp) := createStdoutNode k hp
    let (fd, hp) := processAddFile hp process node
    if fd < 0 then (false, hp)
    else
      let (node, hp) := createStdoutNode k hp
      let (fd, hp) := processAddFile hp process node
      (0 ≤ fd, hp)

/-! ## Processes

`Process_t` is `ctx`, of 176 bytes, then `pml4`, `treeNode`, `fdt`, `name`, `cwd`, `id`, `priority`, `time`. -/

/-- The loop of `process_delete` over the open files, from `node` on. The only `close` there is, `ext2_close`, does nothing. -/
def closeFiles (hp : Heap) : Nat → Nat → Except Halt Unit
  | 0, _ => .error .spin
  | fuel + 1, node => if node = null then .ok () else closeFiles hp fuel (get hp node)

/-- The first part of `process_delete`: `parentProcess`, and the heap without the node of the tree. -/
def leaveTree (hp : Heap) (processTree process fuel : Nat) : Except Halt (Nat × Heap) :=
  let treeNode := get hp (process + 184)
  if treeNode = null then .ok (null, hp)
  else do
    let parentProcess := get hp (get hp (treeNode + 16))
    assert (parentProcess != null) "parentProcess"
    let hp ← treeRemove hp processTree treeNode fuel
    return (parentProcess, hp)

/-- The last part of `process_delete`, for `process->fdt`. -/
def deleteFiles (hp : Heap) (fdt fuel : Nat) : Except Halt Heap :=
  if fdt = null then .ok hp
  else do
    closeFiles hp fuel (get hp fdt)
    let hp ← listDestroy hp fuel (get hp fdt)
    let hp ← listFree hp fuel (get hp fdt)
    kfree hp fdt

/-- `process_delete`. `vmm_destroyAddressSpace` returns at once, and the switch to `_KernelPML4` is left out. -/
def processDelete (hp : Heap) (processTree process fuel : Nat) : Except Halt Heap := do
  let (parentProcess, hp) ← leaveTree hp processTree process fuel
  assert (get hp (process + 176) == null || parentProcess != null) "parentProcess"
  let hp ← deleteFiles hp (get hp (process + 192)) fuel
  kfree hp process

/-- The assignments of `createProcess` to the fields of `process`, from `pml4` to `time`. -/
def initProcess (hp : Heap) (process : Nat) (name : Str) (addressSpace : Nat) (entry : Word) (priority : BitVec 32)
    (stackButtom stackSize cs ds : Word) (id : Nat) : Heap :=
  let hp := put hp (process + 176) addressSpace
  let hp := { hp with mem := strcpy hp.mem (process + 200) name }
  let hp := { hp with mem := strcpy hp.mem (process + processCwd) [0x2F] }
  let hp := { hp with mem := memset hp.mem process 0 176 }
  let hp := put hp process entry.toNat
  let hp := put hp (process + 8) cs.toNat
  let hp := put hp (process + 16) (stackButtom + stackSize).toNat
  let hp := put hp (process + 160) stackButtom.toNat
  let hp := put hp (process + 24) userRflags.toNat
  let hp := put hp (process + 32) ds.toNat
  let hp := put hp (process + 168) stackSize.toNat
  let priority := (priority.setWidth 16).signExtend 32
  let hp := put32 hp (process + 512) priority.toNat
  let hp := put32 hp (process + 508) id
  put32 hp (process + 516) (BitVec.ofNat 32 processTimeConst + priority * BitVec.ofNat 32 processTimeConst).toNat

/-- `createProcess`. The word of `treeNode` is what it was when `process_delete` reads it. -/
def createProcess (k : Kernel) (name : Str) (addressSpace : Nat) (entry : Word) (priority : BitVec 32)
    (stackButtom stackSize cs ds : Word) (fuel : Nat) : Except Halt (Nat × Kernel) := do
  let (process, hp) := kmalloc k.heap 520
  if process = null then
    return (null, { k with heap := hp })
  let hp := initProcess hp process name addressSpace entry priority stackButtom stackSize cs ds k.nextID
  let k := { k with nextID := k.nextID + 1 }
  let (fdt, hp) := listCreate hp
  let hp := put hp (process + 192) fdt
  if fdt = null then
    let hp ← processDelete hp k.processTree process fuel
    return (null, { k with heap := hp })
  let (created, hp) := createStandardFiles k hp process
  if !created then
    let hp ← processDelete hp k.processTree process fuel
    return (null, { k with heap := hp })
  return (process, { k with heap := hp })

/-- The end of `process_create`: the process enters the tree and its queue. -/
def enterProcess (hp : Heap) (processTree processQueues process fuel : Nat) : Except Halt (Nat × Heap) := do
  let (treeNode, hp) ← treeCreateNode hp process
  let hp := put hp (process + 184) treeNode
  if treeNode = null then
    let hp ← processDelete hp processTree process fuel
    return (null, hp)
  let hp ← treeInsert hp processTree (get hp processTree) treeNode
  let hp ← schedulerAdd hp processQueues process
  return (process, hp)

/-- `process_create`. -/
def processCreate (k : Kernel) (parent : Nat) (name : Str) (entry : Word) (priority : BitVec 32) (fuel : Nat) :
    Except Halt (Nat × Kernel) := do
  let (pml4, pg) ← vmmCreateAddressSpace k.pg (get k.heap (parent + 176))
  if pml4 = null then
    return (null, { k with pg := pg })
  let (addr, pg) ← vmmCreatePages pg pml4 userStackStart (userStackSize / pageSize) vmmUserAttributes
  -- `vmm_destroyAddressSpace` does nothing
  if addr = null then
    return (null, { k with pg := pg })
  let (process, k) ← createProcess { k with pg := pg } name pml4 entry priority userStackStart (BitVec.ofNat 64 userStackSize)
    gdtUserCs gdtUserDs fuel
  if process = null then
    return (null, k)
  let (process, hp) ← enterProcess k.heap k.processTree k.processQueues process fuel
  return (process, { k with heap := hp })

end InMemory

end OmegaOS
