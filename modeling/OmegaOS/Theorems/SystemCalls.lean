import OmegaOS.Syscalls
import OmegaOS.Theorems.InterruptReturn

/-!
# The contract of a system call

`syscallHandler` stores the result in the saved `rax`, which the stub does not restore for vector `0x80`; nothing bounds the
number before it is used as an index; and `popaq` loads `rdx` from the slot of `rcx`.
-/

namespace OmegaOS

open X86

section

variable {σ : Type} (k : SyscallImage σ) (handlers : Word → Option (IsrHandler σ)) (eoi : Word → σ → σ) (left : Cpu) (ksp : Word)
  (kstack : List Word) (c : Cpu) (s : σ)

/-- The call of a function with the six argument registers of the program. -/
def SyscallImage.callWith (func : Word) : Option (Word × σ) :=
  k.code func (c.reg .rdi) (c.reg .rsi) (c.reg .rdx) (c.reg .r10) (c.reg .r8) (c.reg .r9) s

/-- What a program may rely on when it executes `int 0x80`. -/
structure SyscallContract : Prop where
  /-- A defined number: when its function returns, so does the interrupt, with the function's result in `rax`. -/
  defined : ∀ f, gSyscalls[(c.reg .rax).toNat]? = some f → ∀ result s', k.callWith c s (k.entry f) = some (result, s') →
    ∃ c', (syscallRun k handlers eoi left ksp kstack c s).2 = some (c', s') ∧ c'.reg .rax = result
  /-- Any other number: no slot outside the table is read, nothing is called, and `rax` is `ENOSYS`. -/
  undefined : gSyscalls[(c.reg .rax).toNat]? = none →
    (∀ a, .readSlot a ∈ (syscallRun k handlers eoi left ksp kstack c s).1 → ∃ i < gSyscalls.length, a = k.slot (BitVec.ofNat 64 i)) ∧
      (∀ f, .call f ∉ (syscallRun k handlers eoi left ksp kstack c s).1) ∧
      ∃ c' s', (syscallRun k handlers eoi left ksp kstack c s).2 = some (c', s') ∧ c'.reg .rax = enosys
  /-- The registers that the interrupt gives back. -/
  kept : ∀ c' s', (syscallRun k handlers eoi left ksp kstack c s).2 = some (c', s') →
    ∀ r, r ≠ .rax → r ≠ .rcx → r ≠ .r11 → c'.reg r = c.reg r

/-! ## The path of a system call -/

theorem sendEOI_syscall : sendEOI eoi syscallIsr s = s := by
  have h : ¬ (irq0 ≤ syscallIsr ∧ syscallIsr ≤ irq15) := by decide
  rw [sendEOI, if_neg h]

/-- The interrupt runs `syscallHandler` on the saved registers. -/
theorem isrInterruptHandler_syscall (stack : InterruptStack) (h : stack.interruptNumber = syscallIsr) :
    isrInterruptHandler (syscallsInit k handlers) eoi stack s = syscallHandler k stack s := by
  have hne : syscallIsr ≠ timerIsr := by decide
  rw [isrInterruptHandler, h, syscallsInit, isrRegisterHandler, Function.update_self]
  have heoi : (fun r : InterruptStack × σ => (r.1, sendEOI eoi syscallIsr r.2)) = id := by
    funext r
    rw [sendEOI_syscall]
    rfl
  rw [heoi, Option.map_id]
  rfl

/-- The processor that a system call leaves when its handler stores `result` in the saved `rax`. -/
def syscallLeave (result : Word) : Cpu :=
  let stack := { InterruptStack.ofStack (isrEnter syscallInt 0 ksp kstack c).stack with rax := result }
  isrExit { left with stack := stack.toStack ++ kstack }

/-- The registers after the exit path of a system call whose `rax` slot was overwritten: all are back but `rax` and `rcx`, which
are what the compiled handler left there, and `rdx`, which is the program's `rcx`. -/
theorem syscallLeave_reg (result : Word) : let c' := syscallLeave left ksp kstack c result
    c'.reg .rax = left.reg .rax ∧ c'.reg .rdx = c.reg .rcx ∧ ∀ r, r ≠ .rax → r ≠ .rcx → r ≠ .rdx → c'.reg r = c.reg r := by
  intro c'
  have hstack : InterruptStack.toStack { InterruptStack.ofStack (isrEnter syscallInt 0 ksp kstack c).stack with rax := result } ++
      kstack = (c.seg .ds).zeroExtend 64 :: ((pushaq.map c.reg).reverse.take popaq.length ++
      [result, BitVec.ofNat 64 syscallInt, 0, c.rip, (c.seg .cs).zeroExtend 64, c.rflags, c.reg .rsp,
        (c.seg .ss).zeroExtend 64] ++ kstack) := by
    rw [isrEnter_interruptStack]
    rfl
  obtain ⟨hrsp, hrax, hreg, hrbx, -⟩ := isrExit_eq { left with stack := _ } _ _ rfl _ _ _ _ _ _ _ _ _ hstack
  refine ⟨hrax, hreg .rdx (by decide) (by decide) (by decide), fun r h1 h2 h3 => ?_⟩
  cases r
  case rsp => exact hrsp
  case rbx => exact hrbx
  case rax => exact absurd rfl h1
  case rcx => exact absurd rfl h2
  case rdx => exact absurd rfl h3
  all_goals exact hreg _ (by decide) (by decide) (by decide)

/-- The run of a system call, from the function that the slot names. -/
theorem syscallRun_eq : syscallRun k handlers eoi left ksp kstack c s =
      if k.mem (k.slot (c.reg .rax)) = 0 then
        ([.readSlot (k.slot (c.reg .rax))], some (syscallLeave left ksp kstack c enosys, s))
      else
        ([.readSlot (k.slot (c.reg .rax)), .readSlot (k.slot (c.reg .rax)), .call (k.mem (k.slot (c.reg .rax)))],
          (k.callWith c s (k.mem (k.slot (c.reg .rax)))).map fun r => (syscallLeave left ksp kstack c r.1, r.2)) := by
  have hnum : (InterruptStack.ofStack (isrEnter syscallInt 0 ksp kstack c).stack).interruptNumber = syscallIsr := by
    rw [isrEnter_interruptStack]
    rfl
  rw [syscallRun, isrInterruptHandler_syscall k handlers eoi s _ hnum]
  have hargs := isrEnter_interruptStack syscallInt 0 ksp kstack c
  have hslot : k.slot (InterruptStack.ofStack (isrEnter syscallInt 0 ksp kstack c).stack).rax = k.slot (c.reg .rax) := by
    rw [hargs]
  simp only [syscallHandler, hslot]
  split
  · rfl
  · rw [Option.map_map, hargs, SyscallImage.callWith]
    simp only [syscallLeave, hargs]
    rfl

theorem SyscallImage.mem_slot {num : Word} (h : gSyscalls[num.toNat]? = some f) : k.mem (k.slot num) = k.entry f := by
  have := k.mem_table num.toNat f h
  rwa [BitVec.ofNat_toNat, BitVec.setWidth_eq] at this

/-- A number that is not defined makes the handler read outside the table, or call a function. -/
theorem undefined_misbehaves (h : ∀ a, .readSlot a ∈ (syscallRun k handlers eoi left ksp kstack c s).1 →
      ∃ i < gSyscalls.length, a = k.slot (BitVec.ofNat 64 i)) :
    ∃ f, .call f ∈ (syscallRun k handlers eoi left ksp kstack c s).1 := by
  have hrun := syscallRun_eq k handlers eoi left ksp kstack c s
  generalize syscallRun k handlers eoi left ksp kstack c s = run at h hrun
  obtain ⟨i, hi, hslot⟩ := h (k.slot (c.reg .rax)) (by rw [hrun]; split <;> simp)
  have hmem : k.mem (k.slot (c.reg .rax)) = k.entry gSyscalls[i] := by
    rw [hslot]
    exact k.mem_table i _ (List.getElem?_eq_getElem hi)
  refine ⟨k.mem (k.slot (c.reg .rax)), ?_⟩
  rw [hrun, if_neg (by rw [hmem]; exact k.entry_ne_null _)]
  simp

/-- The contract, for one state that the compiled handler returns in: a defined number, the same value in `rcx` and `rdx`, and the function's
result in the `rax` of that state. -/
theorem syscallContract_left : SyscallContract k handlers eoi left ksp kstack c s ↔
      ∃ f, gSyscalls[(c.reg .rax).toNat]? = some f ∧ ∀ result s', k.callWith c s (k.entry f) = some (result, s') →
        c.reg .rcx = c.reg .rdx ∧ left.reg .rax = result := by
  have hrun := syscallRun_eq k handlers eoi left ksp kstack c s
  constructor
  · intro h
    cases hf : gSyscalls[(c.reg .rax).toNat]? with
    | none =>
      obtain ⟨hslots, hcalls, -⟩ := h.undefined hf
      obtain ⟨f, hcall⟩ := undefined_misbehaves k handlers eoi left ksp kstack c s hslots
      exact absurd hcall (hcalls f)
    | some f =>
      refine ⟨f, rfl, fun result s' hcall => ?_⟩
      obtain ⟨c', hret, hrax⟩ := h.defined f hf result s' hcall
      have hkept := h.kept c' s' hret .rdx (by decide) (by decide) (by decide)
      rw [hrun, k.mem_slot hf, if_neg (k.entry_ne_null f), hcall] at hret
      cases hret
      obtain ⟨hleft, hrdx, -⟩ := syscallLeave_reg left ksp kstack c result
      exact ⟨hrdx.symm.trans hkept, hleft.symm.trans hrax⟩
  · rintro ⟨f, hf, hcond⟩
    rw [k.mem_slot hf, if_neg (k.entry_ne_null f)] at hrun
    refine ⟨fun f' hf' result s' hcall => ?_, fun hnone => ?_, fun c' s' hret r h1 h2 h3 => ?_⟩
    · obtain rfl := Option.some.inj (hf.symm.trans hf')
      obtain ⟨hleft, -⟩ := syscallLeave_reg left ksp kstack c result
      refine ⟨_, by rw [hrun, hcall]; rfl, hleft.trans (hcond result s' hcall).2⟩
    · rw [hf] at hnone
      cases hnone
    · rw [hrun] at hret
      obtain ⟨⟨result, s''⟩, hcall, heq⟩ := Option.map_eq_some_iff.mp hret
      cases heq
      obtain ⟨-, hrdx, hreg⟩ := syscallLeave_reg left ksp kstack c result
      by_cases h4 : r = .rdx
      · subst h4
        exact hrdx.trans (hcond result _ hcall).1
      · exact hreg r h1 h2 h4

/-- `isr_interrupt_handler` has no result, so it may return with anything in `rax`. Whatever it leaves there, the contract holds exactly for a
defined number whose function does not return. -/
theorem syscallContract_iff : (∀ left, SyscallContract k handlers eoi left ksp kstack c s) ↔
    ∃ f, gSyscalls[(c.reg .rax).toNat]? = some f ∧ k.callWith c s (k.entry f) = none := by
  constructor
  · intro h
    obtain ⟨f, hf, -⟩ := (syscallContract_left k handlers eoi c ksp kstack c s).mp (h c)
    refine ⟨f, hf, Option.eq_none_iff_forall_ne_some.mpr fun r hcall => ?_⟩
    -- a handler that leaves another value
    obtain ⟨f', hf', hleft⟩ := (syscallContract_left k handlers eoi (c.setReg .rax (r.1 + 1)) ksp kstack c s).mp (h _)
    obtain rfl := Option.some.inj (hf.symm.trans hf')
    have hrax := (hleft r.1 r.2 hcall).2
    simp [Cpu.setReg] at hrax
  · rintro ⟨f, hf, hnone⟩ left
    refine (syscallContract_left k handlers eoi left ksp kstack c s).mpr ⟨f, hf, fun result s' hcall => ?_⟩
    rw [hnone] at hcall
    cases hcall

end

/-- A kernel image with the table at `0x1000`, followed by zeroes, and functions that return their third argument. -/
def exampleImage : SyscallImage Unit where
  table := 0x1000
  mem := fun a => ((gSyscalls[((a - 0x1000) / 8).toNat]?).map fun f => BitVec.ofNat 64 (0x2000 + f.ctorIdx)).getD 0
  entry := fun f => BitVec.ofNat 64 (0x2000 + f.ctorIdx)
  code := fun _ _ _ count _ _ _ s => some (count, s)
  mem_table := by
    intro i f h
    obtain ⟨hi, rfl⟩ := List.getElem?_eq_some_iff.mp h
    revert i
    decide
  entry_ne_null := by
    intro f
    cases f <;> decide

/-- A program with a system call's number in `rax` and the two registers given. -/
def callingCpu (rax rcx rdx : Word) : Cpu := (userCpu rcx rdx).setReg .rax rax

/-- `write` of 5 bytes with 7 in `rcx`, in a kernel whose compiled handler returns with the argument of `sendEOI` in `rax`: the
program sees `0x80` in `rax` and 7 in `rdx`. With the number 13 the kernel reads the quadword after the table. -/
theorem syscall_contract_broken :
    (∃ c' s', (syscallRun exampleImage (fun _ => none) (fun _ s => s) (callingCpu 0x80 0 0) 0 [] (callingCpu 1 7 5) ()).2 =
        some (c', s') ∧ exampleImage.callWith (callingCpu 1 7 5) () (exampleImage.entry .sysWrite) = some (5, s') ∧
        c'.reg .rax = 0x80 ∧ c'.reg .rdx = 7) ∧
      ¬ SyscallContract exampleImage (fun _ => none) (fun _ s => s) (callingCpu 0x80 0 0) 0 [] (callingCpu 1 7 5) () ∧
      .readSlot 0x1068 ∈ (syscallRun exampleImage (fun _ => none) (fun _ s => s) (callingCpu 78 0 0) 0 [] (callingCpu 13 0 0) ()).1 ∧
      ¬ SyscallContract exampleImage (fun _ => none) (fun _ s => s) (callingCpu 78 0 0) 0 [] (callingCpu 13 0 0) () := by
  have hrun := syscallRun_eq exampleImage (fun _ => none) (fun _ s => s) (callingCpu 0x80 0 0) 0 [] (callingCpu 1 7 5) ()
  obtain ⟨hrax, hrdx, -⟩ := syscallLeave_reg (callingCpu 0x80 0 0) 0 [] (callingCpu 1 7 5) 5
  have hret : (syscallRun exampleImage (fun _ => none) (fun _ s => s) (callingCpu 0x80 0 0) 0 [] (callingCpu 1 7 5) ()).2 =
      some (syscallLeave (callingCpu 0x80 0 0) 0 [] (callingCpu 1 7 5) 5, ()) := by
    rw [hrun, if_neg (by decide)]
    rfl
  refine ⟨⟨_, (), hret, rfl, hrax, hrdx⟩, fun h => ?_, by decide, fun h => ?_⟩
  · have := (h.kept _ () hret .rdx (by decide) (by decide) (by decide)).symm.trans hrdx
    exact absurd this (by decide)
  · obtain ⟨i, hi, hslot⟩ := (h.undefined (by decide)).1 0x1068 (by decide)
    revert i
    decide

end OmegaOS
