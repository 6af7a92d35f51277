import OmegaOS.Scheduler
import OmegaOS.Syscalls
import OmegaOS.Vmm

/-!
# Page faults

`pageFaultHandler` of `mem/vmm.c`, the handler of the page-fault exception. The log and the translation cache are left out.
-/

namespace OmegaOS

open X86

/-- `PF_PRESENT`, `PF_WRITABLE`, `PF_USER`. -/
def pfPresent : Word := 1

@[inherit_doc pfPresent] def pfWritable : Word := 2

@[inherit_doc pfPresent] def pfUser : Word := 4

/-- `pageFaultHandler`, with the faulting address in `virtAddr`. A fault of a user on a present page or on a write gets a new frame, at
the address as the macro rounds it; any other fault of a user ends the process. -/
def pageFaultHandler (pg : Paging) (σ : Sched) (virtAddr : PageWord) (stack : InterruptStack) : Except Halt (Paging × Sched) :=
  let errCode := stack.errorCode
  if !isUserInterrupt stack || errCode &&& pfUser == 0 then
    .error (.panic "Kernel attempted to access an illegal address %p (0x%x)")
  else
    let virtAddr := BitVec.ofNat 64 (rndwn virtAddr.toNat pageSize)
    let pml4 := (σ.procs σ.current).pml4
    if errCode &&& pfPresent != 0 || errCode &&& pfWritable != 0 then do
      let (frame, pm) := pmmGetFrame pg.pm
      assert (frame != null) "frame"
      let pg ← vmmMapPage { pg with pm := pm } pml4 (BitVec.ofNat 64 frame) virtAddr vmmUserAttributes
      return (pg, σ)
    else do
      let σ ← sysExit σ
      return (pg, σ)

end OmegaOS
