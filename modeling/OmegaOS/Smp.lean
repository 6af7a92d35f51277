import OmegaOS.Vmm

/-!
# Starting the other processors

The loop of `smp_init` and the trampoline of `arch/trampoline.asm`, cut at their accesses to the launch block. A processor is named
by its index in `_MADT.coreIDs`. The trampoline's descriptor table and its jump pointer, `trampoline_spring`, are left out. The pointer is
copied once, and a processor stores `GDT_SYSTEM_SEG` in it before the second of its two far jumps. A processor that comes to its first
one after that faults in the source; here it goes on, so that what holds in every run here holds in every run of the source.
-/

namespace OmegaOS

open Function

/-- `CORE_STACK_SIZE`. -/
def coreStackSize : Nat := 16 * pageSize

/-- `sizeof(CoreContext_t)`: a byte and two quadwords, packed. -/
def coreContextSize : Nat := 17

/-- `AP_TIMEOUT_RETRY`. -/
def apTimeoutRetry : Nat := 10

/-- `CoreContext_t`. -/
structure CoreContext where
  id : Nat
  stack : Nat
  currentProcess : Nat
deriving DecidableEq, Repr

/-- `CoreLaunchInfo_t`. -/
structure CoreLaunchInfo where
  apStatus : Nat
  bspStatus : Nat
  pml4 : Nat
  stackTop : Nat
  apEntry : Nat
  context : Nat
deriving DecidableEq, Repr

/-- What the loop reads and does not change: `_CoreCount`, `_MADT.coreIDs`, `_BspID`, `_Cores`, `_KernelPML4` and `ap_entry`. -/
structure SmpConfig where
  coreCount : Nat
  coreIDs : Nat → Nat
  bspID : Nat
  cores : Nat
  kernelPml4 : Nat
  apEntry : Nat

/-- `&_Cores[i]`. -/
def SmpConfig.contextAt (cfg : SmpConfig) (i : Nat) : Nat := cfg.cores + i * coreContextSize

/-- Where the BSP is in a round of its loop. -/
inductive BspStage where
  | next
  /-- `bspStatus` is cleared, `apStatus` is not. -/
  | clearAp
  | wakeup
  /-- `WAIT_FOR_CORE`, with as many tries left. -/
  | poll (retries : Nat)
  /-- The test of `WAIT_FOR_CORE` after its loop. -/
  | check
  | create
  | storeContext
  | storePml4
  | storeStackTop
  | storeEntry
  | signal
  /-- In `panic` or in a failed `assert`. -/
  | halted
deriving DecidableEq, Repr

/-- Where a processor is in the trampoline, with the registers it has loaded from the launch block. -/
inductive ApStage where
  | off
  | start
  | spin
  | seen
  | loadPml4
  | loadStack (cr3 : Nat)
  | ready (cr3 rsp : Nat)
  | loadContext (cr3 rsp : Nat)
  | callEntry (cr3 rsp rdi : Nat)
  /-- At the first instruction of the function called, `rip`. -/
  | entered (cr3 rsp rdi rip : Nat)
deriving DecidableEq, Repr

/-- The processors and the memory they share. -/
structure Smp where
  info : CoreLaunchInfo
  /-- The BSP's loop variable. -/
  i : Nat
  bsp : BspStage
  aps : Nat → ApStage
  /-- `_Cores`. -/
  contexts : Nat → CoreContext
  pg : Paging

/-- A new stack of `CORE_STACK_SIZE` bytes: its end, `none` when there is no memory for it. -/
def createStack (cfg : SmpConfig) (pg : Paging) : Except Halt (Option Nat × Paging) := do
  let (kstack, pg) ← vmmCreateIdentityPages pg cfg.kernelPml4 (coreStackSize / pageSize) vmmKernelAttributes
  return (if kstack = null then none else some (kstack + coreStackSize), pg)

/-- `bsp_init`: the BSP's own context is the first one. `apic_get_id` is the high byte of the register that is `_BspID`. -/
def bspInit (cfg : SmpConfig) (pg : Paging) (contexts : Nat → CoreContext) : Except Halt (Paging × (Nat → CoreContext)) := do
  let (stack, pg) ← createStack cfg pg
  match stack with
  | none => .error (.assertion "kstack")
  | some stack =>
    return (pg, update contexts 0 { id := cfg.bspID / 2 ^ 24 % 2 ^ 8, stack := stack, currentProcess := null })

/-- `currentCPU` on the processor with the id `cid`: the index of its entry in `_Cores`. -/
def currentCPU (coreCount : Nat) (contexts : Nat → CoreContext) (cid : Nat) : Except Halt Nat :=
  match (List.range coreCount).find? fun i => (contexts i).id = cid with
  | some i => .ok i
  | none => .error (.panic "Failed finding core with id %u\n")

/-- One step of the BSP in `smp_init`; `none` when it has left the loop or does not go on. -/
def bspStep (cfg : SmpConfig) (s : Smp) : Option Smp :=
  match s.bsp with
  | .next =>
    if s.i < cfg.coreCount then
      if cfg.coreIDs s.i = cfg.bspID then some { s with i := s.i + 1 }
      else some { s with info := { s.info with bspStatus := 0 }, bsp := .clearAp }
    else none
  | .clearAp => some { s with info := { s.info with apStatus := 0 }, bsp := .wakeup }
  | .wakeup => some { s with aps := update s.aps s.i .start, bsp := .poll apTimeoutRetry }
  | .poll 0 => some { s with bsp := .check }
  | .poll (retries + 1) => if s.info.apStatus = 1 then some { s with bsp := .check } else some { s with bsp := .poll retries }
  | .check => if s.info.apStatus ≠ 1 then some { s with bsp := .halted } else some { s with bsp := .create }
  | .create =>
    match createStack cfg s.pg with
    | .ok (some stack, pg) =>
      some { s with
        contexts := update s.contexts s.i { id := cfg.coreIDs s.i % 2 ^ 8, stack := stack, currentProcess := null }
        pg := pg
        bsp := .storeContext }
    | .ok (none, pg) => some { s with pg := pg, bsp := .halted }
    | .error _ => some { s with bsp := .halted }
  | .storeContext => some { s with info := { s.info with context := cfg.contextAt s.i }, bsp := .storePml4 }
  | .storePml4 => some { s with info := { s.info with pml4 := cfg.kernelPml4 % 2 ^ 32 }, bsp := .storeStackTop }
  | .storeStackTop => some { s with info := { s.info with stackTop := (s.contexts s.i).stack % 2 ^ 32 }, bsp := .storeEntry }
  | .storeEntry => some { s with info := { s.info with apEntry := cfg.apEntry }, bsp := .signal }
  | .signal => some { s with info := { s.info with bspStatus := 1 }, i := s.i + 1, bsp := .next }
  | .halted => none

/-- A processor goes on to the stage. -/
def Smp.setAp (s : Smp) (j : Nat) (stage : ApStage) : Smp := { s with aps := update s.aps j stage }

/-- A processor stores its status and goes on to the stage. -/
def Smp.setStatus (s : Smp) (j apStatus : Nat) (stage : ApStage) : Smp :=
  { s.setAp j stage with info := { s.info with apStatus := apStatus } }

/-- One step of a processor in the trampoline; `none` when it is not in it. -/
def apStep (j : Nat) (s : Smp) : Option Smp :=
  match s.aps j with
  | .off => none
  | .start => some (s.setStatus j 1 .spin)
  | .spin => if s.info.bspStatus = 0 then some s else some (s.setAp j .seen)
  | .seen => some (s.setStatus j 0 .loadPml4)
  | .loadPml4 => some (s.setAp j (.loadStack s.info.pml4))
  | .loadStack cr3 => some (s.setAp j (.ready cr3 s.info.stackTop))
  | .ready cr3 rsp => some (s.setStatus j 1 (.loadContext cr3 rsp))
  | .loadContext cr3 rsp => some (s.setAp j (.callEntry cr3 rsp s.info.context))
  | .callEntry cr3 rsp rdi => some (s.setAp j (.entered cr3 rsp rdi s.info.apEntry))
  | .entered _ _ _ _ => none

/-- The state in which `smp_init` starts its loop. -/
def smpInit (info : CoreLaunchInfo) (pg : Paging) (contexts : Nat → CoreContext) : Smp where
  info := info
  i := 0
  bsp := .next
  aps := fun _ => .off
  contexts := contexts
  pg := pg

end OmegaOS
