import OmegaOS.Lib.X86

/-!
# The interrupt stub

`arch/isra.asm` and `arch/isra.inc`: what the processor pushes on an interrupt, the stub `INTn` of a vector, the common entry
that saves the registers and calls `isr_interrupt_handler`, and the common exit that restores them and executes `iretq`.
-/

namespace OmegaOS

open X86 Function

/-- `KERNEL_DS`. -/
def kernelDs : Selector := 0x10

/-- `GDT_KERNEL_CS`. -/
def gdtKernelCs : Selector := 0x8

/-- `SYSCALL_INT`. -/
def syscallInt : Nat := 0x80

/-- The stack an interrupt handler is given (`InterruptStack_t`): the fields in the order of their addresses. -/
structure InterruptStack where
  ds : Word
  r15 : Word
  r14 : Word
  r13 : Word
  r12 : Word
  r11 : Word
  r10 : Word
  r9 : Word
  r8 : Word
  rbp : Word
  rsi : Word
  rdi : Word
  rdx : Word
  rcx : Word
  rbx : Word
  rax : Word
  interruptNumber : Word
  errorCode : Word
  rip : Word
  cs : Word
  rflags : Word
  rsp : Word
  ss : Word
deriving DecidableEq, Repr

/-- The struct read off the quadwords at its address. -/
def InterruptStack.ofStack (st : List Word) : InterruptStack where
  ds := st.getD 0 0
  r15 := st.getD 1 0
  r14 := st.getD 2 0
  r13 := st.getD 3 0
  r12 := st.getD 4 0
  r11 := st.getD 5 0
  r10 := st.getD 6 0
  r9 := st.getD 7 0
  r8 := st.getD 8 0
  rbp := st.getD 9 0
  rsi := st.getD 10 0
  rdi := st.getD 11 0
  rdx := st.getD 12 0
  rcx := st.getD 13 0
  rbx := st.getD 14 0
  rax := st.getD 15 0
  interruptNumber := st.getD 16 0
  errorCode := st.getD 17 0
  rip := st.getD 18 0
  cs := st.getD 19 0
  rflags := st.getD 20 0
  rsp := st.getD 21 0
  ss := st.getD 22 0

/-! ## Entry -/

/-- The vectors for which the processor itself pushes an error code. -/
def errorCodeVectors : List Nat := [8, 10, 11, 12, 13, 14, 17, 21, 29, 30]

/-- The second argument of `ISR_EXCEPTION` in `isra.inc`, for the vectors `0` to `255`: `true` where the stub pushes a dummy error code. -/
def isrException (v : Nat) : Bool := !([8, 10, 11, 12, 13, 14, 17, 21, 29, 30].contains v)

/-- The number of stubs, `INT0` to `INT255`. The table `interruptHandlers` has `%rep 0xFF` of them; for the last vector `idt_load` reads the
quadword behind the table. -/
def stubCount : Nat := 0x100

/-- The frame the processor pushes: `ss`, `rsp`, `rflags`, `cs`, `rip`, and the error code of a vector that has one. The
handler stack is the list `kstack`, with `rsp` at `ksp` before the pushes. -/
def hwInterrupt (v : Nat) (err ksp : Word) (kstack : List Word) (c : Cpu) : Cpu :=
  let frame := (if v ∈ errorCodeVectors then [err] else []) ++
    [c.rip, (c.seg .cs).zeroExtend 64, c.rflags, c.reg .rsp, (c.seg .ss).zeroExtend 64]
  { c with
    reg := update c.reg .rsp (ksp - 8 * frame.length)
    seg := update c.seg .cs gdtKernelCs
    stack := frame ++ kstack }

/-- `INTn`: a dummy error code where the processor pushes none, then the vector. -/
def intStub (v : Nat) : List Instr :=
  (if isrException v then [.pushImm 0] else []) ++ [.pushImm v]

/-- The macro `pushaq`. -/
def pushaq : List Reg :=
  [.rax, .rbx, .rcx, .rdx, .rdi, .rsi, .rbp, .r8, .r9, .r10, .r11, .r12, .r13, .r14, .r15]

/-- The macro `popaq`. The twelfth and thirteenth pops both name `rdx`. -/
def popaq : List Reg :=
  [.r15, .r14, .r13, .r12, .r11, .r10, .r9, .r8, .rbp, .rsi, .rdi, .rdx, .rdx, .rbx]

/-- `isr_common` up to the call of `isr_interrupt_handler`. -/
def isrCommonEntry : List Instr :=
  [.cld] ++ pushaq.map .push ++
    [.zero .rax, .movFromSeg .rax .ds, .push .rax,
     .movImm16 .rax kernelDs, .movToSeg .ds .rax, .movToSeg .es .rax, .movToSeg .fs .rax, .movToSeg .gs .rax,
     .mov .rdi .rsp]

/-! ## Exit -/

/-- `isr_common` from the return of the handler to the end of `popaq`. -/
def isrCommonRestore : List Instr :=
  [.pop .rbx, .movToSeg .ds .rbx, .movToSeg .es .rbx, .movToSeg .fs .rbx, .movToSeg .gs .rbx] ++ popaq.map .pop

/-- The rest of `isr_common`: `rax` is popped unless the low half-word of the interrupt number, at `[rsp + 8]`, is the system
call vector; then the interrupt number and the error code are dropped. -/
def isrCommonLeave (c : Cpu) : Cpu :=
  let c' := if (c.stack.getD 1 0).setWidth 16 = BitVec.ofNat 16 syscallInt then run [.dropStack 1] c else run [.pop .rax] c
  run [.dropStack 2, .iretq] c'

/-- The processor at the call of `isr_interrupt_handler`. -/
def isrEnter (v : Nat) (err ksp : Word) (kstack : List Word) (c : Cpu) : Cpu :=
  run (intStub v ++ isrCommonEntry) (hwInterrupt v err ksp kstack c)

/-- The exit path, from the state the handler returns in. -/
def isrExit (c : Cpu) : Cpu := isrCommonLeave (run isrCommonRestore c)

/-- One interrupt: entry, the handler, exit. -/
def isrRun (handler : Cpu → Cpu) (v : Nat) (err ksp : Word) (kstack : List Word) (c : Cpu) : Cpu :=
  isrExit (handler (isrEnter v err ksp kstack c))

end OmegaOS
