import OmegaOS.Process

/-!
# System calls

`isr_interrupt_handler` and the handler of vector `0x80`, over a state `σ` of the kernel that the system calls work on.
-/

namespace OmegaOS

open X86

/-- `IRQ0`, `IRQ15`, `TIMER_ISR` and `SYSCALL_ISR`. -/
def irq0 : Word := 0x20

@[inherit_doc irq0] def irq15 : Word := 0x2F

@[inherit_doc irq0] def timerIsr : Word := irq0

@[inherit_doc irq0] def syscallIsr : Word := 0x80

/-- `ENOSYS`. -/
def enosys : Word := 78

/-- The fields of the struct, in the order of their addresses. -/
def InterruptStack.toStack (s : InterruptStack) : List Word :=
  [s.ds, s.r15, s.r14, s.r13, s.r12, s.r11, s.r10, s.r9, s.r8, s.rbp, s.rsi, s.rdi, s.rdx, s.rcx, s.rbx, s.rax,
    s.interruptNumber, s.errorCode, s.rip, s.cs, s.rflags, s.rsp, s.ss]

/-- What a handler does besides changing its stack and the kernel's state. -/
inductive IsrEvent where
  /-- A quadword of `g_syscalls` is read, at this address. -/
  | readSlot (address : Word)
  /-- The code at the address is called. -/
  | call (func : Word)
  /-- `sys_exit(status)` is called. -/
  | sysExit (status : Int)
  /-- `ipanic` is called. -/
  | ipanic (message : String)
deriving DecidableEq, Repr

/-- A handler: its events, and what it leaves when it returns. -/
abbrev IsrHandler (σ : Type) := InterruptStack → σ → List IsrEvent × Option (InterruptStack × σ)

/-! ## `isr_interrupt_handler` -/

/-- `isr_registerHandler`, as far as the table goes. -/
def isrRegisterHandler {σ : Type} (handlers : Word → Option (IsrHandler σ)) (interrupt : Word) (handler : IsrHandler σ) :
    Word → Option (IsrHandler σ) := Function.update handlers interrupt (some handler)

/-- `sendEOI`; `eoi` is `apic_eoi` or `pic_eoi` of the interrupt's number. -/
def sendEOI {σ : Type} (eoi : Word → σ → σ) (isr : Word) (s : σ) : σ :=
  if irq0 ≤ isr ∧ isr ≤ irq15 then eoi (isr - irq0) s else s

/-- `isUserInterrupt`. -/
def isUserInterrupt (stack : InterruptStack) : Bool := stack.cs = gdtUserCs && stack.ds = gdtUserDs

/-- `isr_interrupt_handler`. It does not return where it ends in `sys_exit` or `ipanic`. -/
def isrInterruptHandler {σ : Type} (handlers : Word → Option (IsrHandler σ)) (eoi : Word → σ → σ) : IsrHandler σ :=
  fun stack s =>
    let intNum := stack.interruptNumber
    match handlers intNum with
    | some handler =>
      if intNum = timerIsr then handler stack (sendEOI eoi intNum s)
      else
        let (events, left) := handler stack s
        (events, left.map fun (stack, s) => (stack, sendEOI eoi intNum s))
    | none => if isUserInterrupt stack then ([.sysExit 0], none) else ([.ipanic "Unhandled interrupt"], none)

/-! ## `syscallHandler` -/

/-- The functions of `g_syscalls`. -/
inductive SyscallFunc where
  | sysRead | sysWrite | sysOpen | sysClose | sysExit | sysMkdir | sysFtell | sysLseek | sysOpendir | sysReaddir | sysClosedir
  | sysChdir | sysGetcwd
deriving DecidableEq, Repr

/-- `g_syscalls`, in the order of the numbers `SYSCALL_READ` to `SYSCALL_GETCWD`. -/
def gSyscalls : List SyscallFunc :=
  [.sysRead, .sysWrite, .sysOpen, .sysClose, .sysExit, .sysMkdir, .sysFtell, .sysLseek, .sysOpendir, .sysReaddir, .sysClosedir,
    .sysChdir, .sysGetcwd]

/-- The kernel in memory, as far as `syscallHandler` looks: where the table is, what the quadwords of memory are, where the
functions are, and what the code at an address does when it is called with six arguments (`none` when it does not return). -/
structure SyscallImage (σ : Type) where
  table : Word
  mem : Word → Word
  entry : SyscallFunc → Word
  code : Word → Word → Word → Word → Word → Word → Word → σ → Option (Word × σ)
  /-- The initialiser of `g_syscalls`. -/
  mem_table : ∀ i f, gSyscalls[i]? = some f → mem (table + 8 * BitVec.ofNat 64 i) = entry f
  entry_ne_null : ∀ f, entry f ≠ 0

/-- The address of `g_syscalls[num]`. -/
def SyscallImage.slot {σ : Type} (k : SyscallImage σ) (num : Word) : Word := k.table + 8 * num

/-- `syscallHandler`. -/
def syscallHandler {σ : Type} (k : SyscallImage σ) : IsrHandler σ := fun stack s =>
  let num := stack.rax
  let func := k.mem (k.slot num)
  if func = 0 then ([.readSlot (k.slot num)], some ({ stack with rax := enosys }, s))
  else
    ([.readSlot (k.slot num), .readSlot (k.slot num), .call func],
      (k.code func stack.rdi stack.rsi stack.rdx stack.r10 stack.r8 stack.r9 s).map fun (result, s) =>
        ({ stack with rax := result }, s))

/-- The table of handlers after `syscalls_init`. -/
def syscallsInit {σ : Type} (k : SyscallImage σ) (handlers : Word → Option (IsrHandler σ)) : Word → Option (IsrHandler σ) :=
  isrRegisterHandler handlers syscallIsr (syscallHandler k)

/-- One `int 0x80`. The compiled `isr_interrupt_handler` returns with its struct as the C code leaves it, in a processor whose
other parts, `left`, are whatever the compiler made of a function without a result. -/
def syscallRun {σ : Type} (k : SyscallImage σ) (handlers : Word → Option (IsrHandler σ)) (eoi : Word → σ → σ) (left : Cpu)
    (ksp : Word) (kstack : List Word) (c : Cpu) (s : σ) : List IsrEvent × Option (Cpu × σ) :=
  let entered := isrEnter syscallInt 0 ksp kstack c
  let (events, returned) :=
    isrInterruptHandler (syscallsInit k handlers) eoi (InterruptStack.ofStack entered.stack) s
  (events, returned.map fun (stack, s) => (isrExit { left with stack := stack.toStack ++ kstack }, s))

end OmegaOS
