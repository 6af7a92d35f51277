import OmegaOS.Scheduler
import OmegaOS.Vmm

/-!
# Creating a process in memory

`process_create` with the address space it makes.
-/

namespace OmegaOS

open X86

/-- `USER_STACK_START`, `USER_STACK_SIZE`. -/
def userStackStart : PageWord := 0x7FFFFFFF0000

@[inherit_doc userStackStart] def userStackSize : Nat := 8 * pageSize

/-- `process_create(parent, ...)`. `process` is the memory `kmalloc` has for the new `Process_t`, `NULL` when `createProcess` or
`tree_create_node` fails, and `tmp` the queue node. The second result is `none` when `NULL` is returned. -/
def processCreateIn (pg : Paging) (σ : Sched) (parent process tmp : Nat) (entry : Word) (priority : ProcessPriority) :
    Except Halt (Paging × Option Sched) := do
  let (pml4, pg) ← vmmCreateAddressSpace pg (σ.procs parent).pml4
  if pml4 = null then
    return (pg, none)
  let (addr, pg) ← vmmCreatePages pg pml4 userStackStart (userStackSize / pageSize) vmmUserAttributes
  -- `vmm_destroyAddressSpace` does nothing
  if addr = null then
    return (pg, none)
  if process = null then
    return (pg, none)
  let σ ← processCreate σ process pml4 tmp entry priority
  return (pg, some σ)

end OmegaOS
