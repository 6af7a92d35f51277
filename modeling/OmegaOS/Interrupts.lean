import OmegaOS.Lemmas.Scheduler

/-!
# The scheduler between two instructions

`sys_exit`, the timer handler and `yield` cut at the places where a timer interrupt finds a different kernel state, on one
processor. A tick may be taken wherever interrupts are enabled. The entry of the timer vector in the IDT is a trap gate and the
end of interrupt is sent before the handler is called, so the processor stays interruptible inside the handler; system calls
and faults go through interrupt gates, so `process_create` is one step.
-/

namespace OmegaOS

open X86 Function

/-- Where the processor is. -/
inductive Pc where
  /-- The program of the current process. -/
  | program
  /-- `sys_exit` after `process_delete`, before `__STI`. -/
  | exitDeleted
  /-- `sys_exit` after `__STI`, in `yield(NULL)` before `getNextProcess`. -/
  | exitEnabled
  /-- `yield(NULL)`, with the result of `getNextProcess` not stored yet. -/
  | exitPicked (next : Nat)
  /-- The timer handler at the call of `dispatch`; it interrupted `interrupted`. -/
  | tickStart (stack : InterruptStack) (interrupted : Pc)
  /-- `dispatch` with the context saved. -/
  | tickSaved
  /-- `dispatch` with the process queued. -/
  | tickQueued
  /-- The timer handler after `dispatch`, up to the store of `yield(next)`. -/
  | tickPicked (next : Nat)
  /-- `SWITCH_PROCESS(core->currentProcess)`, before the `cli` of `x64_context_switch`. -/
  | switching

/-- `RFLAGS.IF`: `sys_exit` clears it before it deletes the process, and sets it before `yield`. -/
def Pc.interruptsEnabled : Pc → Bool
  | .exitDeleted => false
  | _ => true

/-- The kernel between two steps. -/
structure Kernel where
  sched : Sched
  pc : Pc
  /-- Where a process runs on when it is switched to: the place that its saved `rip` stands for. -/
  resume : Nat → Pc
  /-- The deleted processes whose memory is not a new process yet. -/
  dead : List Nat

/-- What a step does to a process, as far as its termination goes. -/
inductive Label where
  | tick
  | saved (p : Nat)
  | enqueued (p : Nat)
  | chosen (p : Nat)
  | other

/-- One step of the processor. -/
inductive KernelStep : Kernel → Label → Kernel → Prop where
  /-- The timer interrupt is taken. -/
  | tick {k : Kernel} (stack : InterruptStack) : k.pc.interruptsEnabled = true →
      KernelStep k .tick { k with pc := .tickStart stack k.pc }
  /-- Without a current process the handler returns. -/
  | ignore {k : Kernel} {stack : InterruptStack} {interrupted : Pc} :
      k.pc = .tickStart stack interrupted → k.sched.current = null → KernelStep k .other { k with pc := interrupted }
  /-- The first half of `dispatch`. -/
  | save {k : Kernel} {stack : InterruptStack} {interrupted : Pc} :
      k.pc = .tickStart stack interrupted → k.sched.current ≠ null →
      KernelStep k (.saved k.sched.current)
        { k with
          sched := saveContext k.sched stack
          resume := update k.resume k.sched.current interrupted
          pc := .tickSaved }
  /-- `queue_enqueue` of `dispatch`. -/
  | enqueue {k : Kernel} {σ : Sched} (tmp : Nat) :
      k.pc = .tickSaved → FreshNode k.sched tmp → schedulerAdd k.sched tmp k.sched.current = .ok σ →
      KernelStep k (.enqueued k.sched.current) { k with sched := σ, pc := .tickQueued }
  /-- `getNextProcess` of `dispatch`. -/
  | pick {k : Kernel} {σ : Sched} {next : Nat} : k.pc = .tickQueued → getNextProcess k.sched = .ok (next, σ) →
      KernelStep k .other { k with sched := σ, pc := .tickPicked next }
  /-- `yield(next)`. -/
  | store {k : Kernel} {σ : Sched} {next : Nat} : k.pc = .tickPicked next → yield k.sched next = .ok σ →
      KernelStep k (.chosen σ.current) { k with sched := σ, pc := .switching }
  /-- `x64_context_switch`. -/
  | switch {k : Kernel} : k.pc = .switching → KernelStep k .other { k with pc := k.resume k.sched.current }
  /-- `sys_exit` up to the end of `process_delete`. -/
  | exit {k : Kernel} : k.pc = .program → (k.sched.procs k.sched.current).id ≠ rootPid →
      KernelStep k .other
        { k with
          sched := processDelete k.sched k.sched.current
          dead := k.sched.current :: k.dead
          pc := .exitDeleted }
  /-- `__STI` of `sys_exit`. -/
  | enable {k : Kernel} : k.pc = .exitDeleted → KernelStep k .other { k with pc := .exitEnabled }
  /-- `getNextProcess` of `yield(NULL)`. -/
  | exitPick {k : Kernel} {σ : Sched} {next : Nat} : k.pc = .exitEnabled → getNextProcess k.sched = .ok (next, σ) →
      KernelStep k .other { k with sched := σ, pc := .exitPicked next }
  /-- The store of `yield(NULL)`. -/
  | exitStore {k : Kernel} {next : Nat} : k.pc = .exitPicked next →
      KernelStep k (.chosen next) { k with sched := { k.sched with current := next }, pc := .switching }
  /-- `process_create`, called by the current process. The memory of the new process may be that of a deleted one. -/
  | create {k : Kernel} {σ : Sched} (process pml4 tmp : Nat) (entry : Word) (priority : ProcessPriority) :
      k.pc = .program → process ≠ null → process ∉ k.sched.tree → FreshNode k.sched tmp →
      processCreate k.sched process pml4 tmp entry priority = .ok σ →
      KernelStep k .other
        { k with
          sched := σ
          resume := update k.resume process .program
          dead := k.dead.filter (· ≠ process) }

/-- The kernel that initialization leaves: every process starts in its program, and none has exited. -/
def bootKernel (σ : Sched) : Kernel := { sched := σ, pc := .switching, resume := fun _ => .program, dead := [] }

/-- The kernels reached by steps that `allowed` permits, from the first switch to a process. -/
inductive KernelReachable (allowed : Kernel → Label → Prop) : Kernel → Prop where
  | boot {σ : Sched} (procs : Nat → Process) (nodes : Nodes) (idle shell pml4 kernelPml4 n1 n2 : Nat) (idleEntry entry : Word) :
      idle ≠ null → shell ≠ null → shell ≠ idle → n1 ≠ null → n2 ≠ null → n2 ≠ n1 →
      boot procs nodes idle shell pml4 kernelPml4 n1 n2 idleEntry entry = .ok σ → KernelReachable allowed (bootKernel σ)
  | step {k k' : Kernel} {l : Label} : KernelReachable allowed k → allowed k l → KernelStep k l k' → KernelReachable allowed k'

end OmegaOS
