import OmegaOS.Isr
import OmegaOS.Common

/-!
# Processes and their contexts

`sys/process.h` and `sys/switcha.asm`: the saved context of a process, with the offsets of its fields, and the assembly that
loads it.
-/

namespace OmegaOS

open X86

/-- `ProcessPriority_t`, and the index of each in the array of ready queues. -/
inductive ProcessPriority where
  | idle | low | high | interactive
deriving DecidableEq, Repr

/-- The priorities, from the last index of the array to the first: the order `getNextProcess` searches in. -/
def ProcessPriority.descending : List ProcessPriority := [.interactive, .high, .low, .idle]

/-- The value of the enumeration constant. -/
def ProcessPriority.value : ProcessPriority → Nat
  | .idle => 0
  | .low => 1
  | .high => 2
  | .interactive => 3

/-- `Context_t`. -/
structure Context where
  rip : Word
  cs : Word
  rsp : Word
  rflags : Word
  ss : Word
  rax : Word
  rbx : Word
  rcx : Word
  rdx : Word
  rdi : Word
  rsi : Word
  rbp : Word
  r8 : Word
  r9 : Word
  r10 : Word
  r11 : Word
  r12 : Word
  r13 : Word
  r14 : Word
  r15 : Word
  stackButtom : Word
  stackSize : Word
deriving DecidableEq, Repr

/-- The quadwords of the struct, in the order of its declaration: field `i` is at byte offset `8 * i`. -/
def Context.fields (ctx : Context) : List Word :=
  [ctx.rip, ctx.cs, ctx.rsp, ctx.rflags, ctx.ss, ctx.rax, ctx.rbx, ctx.rcx, ctx.rdx, ctx.rdi, ctx.rsi, ctx.rbp, ctx.r8,
    ctx.r9, ctx.r10, ctx.r11, ctx.r12, ctx.r13, ctx.r14, ctx.r15, ctx.stackButtom, ctx.stackSize]

/-- Data memory that holds the struct at an address. -/
def Context.memoryAt (ctx : Context) (base : Word) : Word → Word := fun a => ctx.fields.getD ((a - base).toNat / 8) 0

/-- `Process_t`: the fields the scheduler reads and writes. -/
structure Process where
  ctx : Context
  pml4 : Nat
  id : Int
  priority : ProcessPriority
  time : Nat
deriving DecidableEq, Repr

/-- `PROCESS_TIME_CONST`. -/
def processTimeConst : Nat := 5

/-- `GDT_USER_CS`, `GDT_USER_DS`, `GDT_KERNEL_DS`. -/
def gdtUserCs : Word := 0x23

@[inherit_doc gdtUserCs] def gdtUserDs : Word := 0x2B

@[inherit_doc gdtUserCs] def gdtKernelDs : Word := 0x10

/-- `USER_RFLAGS`. -/
def userRflags : Word := 0x202

/-- The fields `createProcess` fills in; every other register of the context is zeroed. -/
def createProcess (addressSpace : Nat) (entry : Word) (priority : ProcessPriority) (stackButtom stackSize cs ds : Word)
    (id : Int) : Process where
  ctx :=
    { rip := entry, cs := cs, rsp := stackButtom + stackSize, rflags := userRflags, ss := ds
      rax := 0, rbx := 0, rcx := 0, rdx := 0, rdi := 0, rsi := 0, rbp := 0
      r8 := 0, r9 := 0, r10 := 0, r11 := 0, r12 := 0, r13 := 0, r14 := 0, r15 := 0
      stackButtom := stackButtom, stackSize := stackSize }
  pml4 := addressSpace
  id := id
  priority := priority
  time := processTimeConst + priority.value * processTimeConst

/-- `x64_context_switch`, with the address of the `Context_t` in `rdi`. -/
def x64ContextSwitch : List Instr :=
  [.cli,
   .zero .rax, .load16 .rax .rdi 0x20, .movToSeg .ds .rax, .movToSeg .es .rax, .movToSeg .fs .rax, .movToSeg .gs .rax,
   .push .rax, .pushMem .rdi 0x10, .pushMem .rdi 0x18,
   -- make sure interrupts are enabled
   .pop .rax, .orImm .rax 0x200, .push .rax,
   .pushMem .rdi 0x8, .pushMem .rdi 0,
   -- load basic registers
   .load .rax .rdi 0x28, .load .rbx .rdi 0x30, .load .rcx .rdi 0x38, .load .rdx .rdi 0x40, .load .rsi .rdi 0x50,
   .load .rbp .rdi 0x58, .load .r8 .rdi 0x60, .load .r9 .rdi 0x68, .load .r10 .rdi 0x70, .load .r11 .rdi 0x78,
   .load .r12 .rdi 0x80, .load .r13 .rdi 0x88, .load .r14 .rdi 0x90, .load .r15 .rdi 0x98, .load .rdi .rdi 0x48,
   .iretq]

/-- The call `x64_context_switch(&process->ctx)`, the context lying at `base`. -/
def contextSwitch (ctx : Context) (base : Word) (c : Cpu) : Cpu :=
  run x64ContextSwitch { c.setReg .rdi base with mem := ctx.memoryAt base }

end OmegaOS
