import OmegaOS.Process
import OmegaOS.Queue

/-!
# The scheduler

`sys/scheduler.c`, and the parts of `sys/process.c`, `sys/sysproc.c`, `dev/timer.c` and `main.c` that move a process between
the processor and the ready queues, on one processor. A process is named by the address of its `Process_t`. The process tree
is the list of its members, the root first: `process_create` hangs every process under the root. The addresses that `kmalloc`
returns are arguments.
-/

namespace OmegaOS

open X86 Function

/-- The kernel's state, as far as scheduling goes. -/
structure Sched where
  /-- The `Process_t` at an address. -/
  procs : Nat → Process
  nodes : Nodes
  /-- `g_processQueues`. -/
  queues : ProcessPriority → Queue
  /-- `currentCPU()->currentProcess`. -/
  current : Nat
  /-- The members of `g_processTree`. -/
  tree : List Nat
  /-- The counter of `getNextID`. -/
  nextID : Nat

/-- The nodes of a ready queue. -/
def Sched.readyNodes (σ : Sched) (i : ProcessPriority) : List Nat := queueNodes σ.nodes (σ.queues i)

/-- The processes of a ready queue, the next one first. -/
def Sched.ready (σ : Sched) (i : ProcessPriority) : List Nat := dataOf σ.nodes (σ.readyNodes i)

/-- `PROCESS_PRIORITIES_COUNT` queues, searched from the last: the first nonempty one gives its front process. -/
def getNextProcessFrom (σ : Sched) : List ProcessPriority → Except Halt (Nat × Sched)
  | [] => .error (.panic "No processes in scheduler")
  | i :: is =>
    if 0 < (σ.queues i).count then do
      let (p, q) ← queueDeqeueue σ.nodes (σ.queues i)
      return (p, { σ with queues := update σ.queues i q })
    else getNextProcessFrom σ is

/-- `getNextProcess`. -/
def getNextProcess (σ : Sched) : Except Halt (Nat × Sched) := getNextProcessFrom σ ProcessPriority.descending

/-- `queue_enqueue(g_processQueues[process->priority], process)`, with `tmp` the node `kmalloc` gave: the body of
`scheduler_add`, whose assertion the type of the priority carries, and the end of `dispatch`. -/
def schedulerAdd (σ : Sched) (tmp process : Nat) : Except Halt Sched := do
  let i := (σ.procs process).priority
  let (nodes, q) ← queueEnqueue σ.nodes (σ.queues i) tmp process
  return { σ with nodes := nodes, queues := update σ.queues i q }

/-- The context that `dispatch` saves: `ss` is taken from `ds`, and the two stack bounds stay. -/
def Context.save (ctx : Context) (stack : InterruptStack) : Context :=
  { ctx with
    rip := stack.rip, cs := stack.cs, rsp := stack.rsp, rflags := stack.rflags, ss := stack.ds
    rax := stack.rax, rbx := stack.rbx, rcx := stack.rcx, rdx := stack.rdx, rdi := stack.rdi, rsi := stack.rsi
    rbp := stack.rbp, r8 := stack.r8, r9 := stack.r9, r10 := stack.r10, r11 := stack.r11, r12 := stack.r12
    r13 := stack.r13, r14 := stack.r14, r15 := stack.r15 }

/-- Save the interrupted registers in the current process. -/
def saveContext (σ : Sched) (stack : InterruptStack) : Sched :=
  let current := σ.procs σ.current
  { σ with procs := update σ.procs σ.current { current with ctx := current.ctx.save stack } }

/-- `dispatch`. -/
def dispatch (σ : Sched) (tmp : Nat) (stack : InterruptStack) : Except Halt (Nat × Sched) := do
  let σ := saveContext σ stack
  let σ ← schedulerAdd σ tmp σ.current
  getNextProcess σ

/-- `yield`, up to the context switch: the process given, or the next one for `NULL`. -/
def yield (σ : Sched) (process : Nat) : Except Halt Sched := do
  if process ≠ null then
    return { σ with current := process }
  else
    let (next, σ) ← getNextProcess σ
    return { σ with current := next }

/-- The registers `yield` leaves: those of the context of the current process, loaded by `x64_context_switch` from the
processor `c`, the context lying at the start of the `Process_t`. -/
def switchProcess (σ : Sched) (c : Cpu) : Cpu := contextSwitch (σ.procs σ.current).ctx (BitVec.ofNat 64 σ.current) c

/-- The handler of the timer interrupt (`interruptHandler` of `dev/timer.c`), up to the context switch. -/
def timerInterrupt (σ : Sched) (tmp : Nat) (stack : InterruptStack) : Except Halt Sched :=
  if σ.current ≠ null then do
    let (next, σ) ← dispatch σ tmp stack
    yield σ next
  else .ok σ

/-- `getNextID`: the value before the increment, as the `int` the counter is declared as. -/
def getNextID (σ : Sched) : Int × Sched := ((BitVec.ofNat 32 σ.nextID).toInt, { σ with nextID := σ.nextID + 1 })

/-- A new process in memory and in the process tree: `createProcess` on the user stack, then `tree_insert`. -/
def insertProcess (σ : Sched) (process pml4 : Nat) (entry : Word) (priority : ProcessPriority) : Sched :=
  let (id, σ) := getNextID σ
  { σ with
    procs := update σ.procs process
      (createProcess pml4 entry priority 0x7FFFFFFF0000 (8 * 4096) gdtUserCs gdtUserDs id)
    tree := σ.tree ++ [process] }

/-- `process_create` with its allocations successful: `process` is the new `Process_t`, in the address space `pml4`, and `tmp`
the queue node. -/
def processCreate (σ : Sched) (process pml4 tmp : Nat) (entry : Word) (priority : ProcessPriority) : Except Halt Sched :=
  schedulerAdd (insertProcess σ process pml4 entry priority) tmp process

/-- `process_delete`: the process leaves the tree and its memory is freed. -/
def processDelete (σ : Sched) (process : Nat) : Sched := { σ with tree := σ.tree.filter (· ≠ process) }

/-- `sys_exit`, up to the context switch of its `yield(NULL)`. -/
def sysExit (σ : Sched) : Except Halt Sched := do
  assert ((σ.procs σ.current).id != rootPid) "current->id != ROOT_PID"
  yield (processDelete σ σ.current) null

/-- `process_init`: the idle process is the root of the tree and current. The counter of `getNextID` starts at `ROOT_PID`. -/
def processInit (procs : Nat → Process) (nodes : Nodes) (idle kernelPml4 : Nat) (entry : Word) : Sched :=
  let (id, σ) := getNextID
    { procs := procs, nodes := nodes, queues := fun _ => queueCreate, current := null, tree := [], nextID := 1 }
  { σ with
    procs := update procs idle (createProcess kernelPml4 entry .idle 0 0 0x8 gdtKernelDs id)
    tree := [idle]
    current := idle }

/-- The end of `_entry`: `process_init`, `scheduler_init` (which enqueues the current process), `process_create` of the shell
and `yield(NULL)`. -/
def boot (procs : Nat → Process) (nodes : Nodes) (idle shell pml4 kernelPml4 n1 n2 : Nat) (idleEntry entry : Word) :
    Except Halt Sched := do
  let σ := processInit procs nodes idle kernelPml4 idleEntry
  let σ ← schedulerAdd σ n1 σ.current
  let σ ← processCreate σ shell pml4 n2 entry .interactive
  yield σ null

end OmegaOS
