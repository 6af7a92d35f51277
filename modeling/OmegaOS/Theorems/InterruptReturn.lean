import OmegaOS.Isr

/-!
# Return from an interrupt

What `isr_common` leaves in each register, for a handler that gives its `InterruptStack_t` back unchanged and may clobber
every register. The save list `pushaq` and the restore list `popaq` are not mirrors of each other: the slot of `rcx` is popped
into `rdx`, after the slot of `rdx`, and nothing is popped into `rcx`.
-/

namespace OmegaOS

open X86 List Function

/-- A handler that returns with the stack it was called with: its `InterruptStack_t` and everything above it. -/
def KeepsInterruptStack (handler : Cpu → Cpu) : Prop := ∀ c, (handler c).stack = c.stack

/-- The interrupted context is back: every general register, the data segments, and what `iretq` loads (`rip`, `cs`, `rflags`,
`rsp`, `ss`). -/
structure Resumed (c c' : Cpu) : Prop where
  reg : ∀ r, c'.reg r = c.reg r
  data : ∀ s ∈ [Seg.ds, .es, .fs, .gs], c'.seg s = c.seg s
  rip : c'.rip = c.rip
  cs : c'.seg .cs = c.seg .cs
  rflags : c'.rflags = c.rflags
  ss : c'.seg .ss = c.seg .ss

/-! ## Entry -/

section

variable (v : Nat) (err ksp : Word) (kstack : List Word) (c : Cpu)

include v err ksp kstack c

/-- The stub completes the frame of every vector it is written for to one shape: the vector, an error code, the five quadwords
of `iretq`. -/
theorem intStub_stack : (run (intStub v) (hwInterrupt v err ksp kstack c)).stack =
      [BitVec.ofNat 64 v, if v ∈ errorCodeVectors then err else 0, c.rip, (c.seg .cs).zeroExtend 64, c.rflags, c.reg .rsp,
        (c.seg .ss).zeroExtend 64] ++ kstack := by
  by_cases hv : v ∈ errorCodeVectors
  · have hs : isrException v = false := by
      simpa [isrException, errorCodeVectors, or_iff_not_imp_left] using hv
    simp [intStub, hs, hwInterrupt, hv, Instr.exec, Cpu.pushWord, Cpu.setReg]
  · have hs : isrException v = true := by
      simpa [isrException, errorCodeVectors] using hv
    simp [intStub, hs, hwInterrupt, hv, Instr.exec, Cpu.pushWord, Cpu.setReg]

/-- The processor's entry and the stub keep every register but `rsp`, and every segment register but `cs`. -/
theorem intStub_regs : (∀ r, r ≠ .rsp → (run (intStub v) (hwInterrupt v err ksp kstack c)).reg r = c.reg r) ∧
      ∀ s, s ≠ .cs → (run (intStub v) (hwInterrupt v err ksp kstack c)).seg s = c.seg s := by
  constructor
  · intro r hr
    by_cases hs : isrException v <;>
      simp [intStub, hs, hwInterrupt, Instr.exec, Cpu.pushWord, Cpu.setReg, update_of_ne hr]
  · intro s hs'
    by_cases hs : isrException v <;>
      simp [intStub, hs, hwInterrupt, Instr.exec, Cpu.pushWord, Cpu.setReg, update_of_ne hs']

/-- The stack `isr_interrupt_handler` is given: the data segment, the fifteen registers, the vector and the frame. -/
theorem isrEnter_stack : (isrEnter v err ksp kstack c).stack = (c.seg .ds).zeroExtend 64 :: (pushaq.map c.reg).reverse ++
        [BitVec.ofNat 64 v, if v ∈ errorCodeVectors then err else 0, c.rip, (c.seg .cs).zeroExtend 64, c.rflags, c.reg .rsp,
          (c.seg .ss).zeroExtend 64] ++ kstack := by
  obtain ⟨hreg, hseg⟩ := intStub_regs v err ksp kstack c
  have hstub := intStub_stack v err ksp kstack c
  generalize hb : run (intStub v) (hwInterrupt v err ksp kstack c) = b at hreg hseg hstub
  obtain ⟨hst, -, hsg⟩ := run_pushes pushaq (by decide) b
  have hmap : pushaq.map b.reg = pushaq.map c.reg := map_congr_left fun r hr => hreg r (by rintro rfl; exact absurd hr (by decide))
  rw [isrEnter, isrCommonEntry, run_append, hb, run_append, run_append]
  simp only [run_cons, run_nil, Instr.exec, Cpu.setReg, Cpu.setReg16, Cpu.setSeg, Cpu.pushWord, update_self,
    setReg16_zero, hst, hsg, hmap, hstub, hseg .ds (by decide), cons_append, append_assoc]

/-- The struct the handler reads holds the registers at the interrupt. -/
theorem isrEnter_interruptStack : InterruptStack.ofStack (isrEnter v err ksp kstack c).stack =
      { ds := (c.seg .ds).zeroExtend 64, r15 := c.reg .r15, r14 := c.reg .r14, r13 := c.reg .r13, r12 := c.reg .r12,
        r11 := c.reg .r11, r10 := c.reg .r10, r9 := c.reg .r9, r8 := c.reg .r8, rbp := c.reg .rbp, rsi := c.reg .rsi,
        rdi := c.reg .rdi, rdx := c.reg .rdx, rcx := c.reg .rcx, rbx := c.reg .rbx, rax := c.reg .rax,
        interruptNumber := BitVec.ofNat 64 v, errorCode := if v ∈ errorCodeVectors then err else 0, rip := c.rip,
        cs := (c.seg .cs).zeroExtend 64, rflags := c.rflags, rsp := c.reg .rsp, ss := (c.seg .ss).zeroExtend 64 } := by
  rw [isrEnter_stack]
  rfl

end

/-! ## Exit -/

/-- The vectors of the stubs other than the system call take the branch that pops `rax`. -/
theorem vector_ne_syscall (hv : v < stubCount) (hs : v ≠ syscallInt) : (BitVec.ofNat 64 v).setWidth 16 ≠ BitVec.ofNat 16 syscallInt := by
  intro h
  have := congrArg BitVec.toNat h
  simp only [BitVec.toNat_setWidth, BitVec.toNat_ofNat, stubCount, syscallInt] at this hv hs
  omega

/-- The branch on the vector: the slot of `rax` comes off the stack, and goes into `rax` unless the vector is the system call. -/
theorem leaveBranch_eq (q : Cpu) (rax v : Word) (rest : List Word) (hst : q.stack = rax :: v :: rest) :
    let q' := if (q.stack.getD 1 0).setWidth 16 = BitVec.ofNat 16 syscallInt then run [.dropStack 1] q else run [.pop .rax] q
    q'.stack = v :: rest ∧ (∀ r, r ≠ .rsp → r ≠ .rax → q'.reg r = q.reg r) ∧ q'.seg = q.seg ∧
      q'.reg .rax = if v.setWidth 16 = BitVec.ofNat 16 syscallInt then q.reg .rax else rax := by
  have hv : q.stack.getD 1 0 = v := by simp [hst]
  simp only [hv]
  split
  · refine ⟨by simp [Instr.exec, Cpu.setReg, hst], fun r h1 h2 => ?_, rfl, rfl⟩
    simp [Instr.exec, Cpu.setReg, update_of_ne h1]
  · refine ⟨by simp [Instr.exec, Cpu.popWord, Cpu.setReg, hst], fun r h1 h2 => ?_, rfl, ?_⟩
    · simp [Instr.exec, Cpu.popWord, Cpu.setReg, update_of_ne h1, update_of_ne h2]
    · simp [Instr.exec, Cpu.popWord, Cpu.setReg, hst]

/-- What `isr_common` leaves, over a stack that holds a data segment `d`, the values `vs` of `popaq`'s slots, `rax`, and the rest
of the frame. -/
theorem isrExit_eq (b : Cpu) (d : Word) (vs : List Word) (hvs : vs.length = popaq.length)
    (rax v err rip cs rflags rsp ss : Word) (kstack : List Word)
    (hst : b.stack = d :: (vs ++ [rax, v, err, rip, cs, rflags, rsp, ss] ++ kstack)) : (isrExit b).reg .rsp = rsp ∧ (isrExit b).reg .rax =
        (if v.setWidth 16 = BitVec.ofNat 16 syscallInt then lastPopped popaq vs .rax (b.reg .rax) else rax) ∧
      (∀ r, r ≠ .rsp → r ≠ .rax → r ≠ .rbx → (isrExit b).reg r = lastPopped popaq vs r (b.reg r)) ∧
      (isrExit b).reg .rbx = lastPopped popaq vs .rbx d ∧
      (∀ s ∈ [Seg.ds, .es, .fs, .gs], (isrExit b).seg s = d.setWidth 16) ∧
      (isrExit b).rip = rip ∧ (isrExit b).seg .cs = cs.setWidth 16 ∧ (isrExit b).rflags = rflags ∧
      (isrExit b).seg .ss = ss.setWidth 16 := by
  -- the segments are reloaded before any register is popped
  generalize hm : run [.pop .rbx, .movToSeg .ds .rbx, .movToSeg .es .rbx, .movToSeg .fs .rbx, .movToSeg .gs .rbx] b = m
  have hmst : m.stack = vs ++ [rax, v, err, rip, cs, rflags, rsp, ss] ++ kstack := by
    simp [← hm, Instr.exec, Cpu.popWord, Cpu.setReg, Cpu.setSeg, hst]
  have hmreg : ∀ r, r ≠ .rsp → r ≠ .rbx → m.reg r = b.reg r := by
    intro r h1 h2
    simp [← hm, Instr.exec, Cpu.popWord, Cpu.setReg, Cpu.setSeg, update_of_ne h1, update_of_ne h2]
  have hmrbx : m.reg .rbx = d := by
    simp [← hm, Instr.exec, Cpu.popWord, Cpu.setReg, Cpu.setSeg, hst]
  have hmseg : ∀ s ∈ [Seg.ds, .es, .fs, .gs], m.seg s = d.setWidth 16 := by
    intro s hs
    simp only [mem_cons, not_mem_nil, or_false] at hs
    rcases hs with rfl | rfl | rfl | rfl <;>
      simp [← hm, Instr.exec, Cpu.popWord, Cpu.setReg, Cpu.setSeg, hst]
  obtain ⟨hpst, hpreg, hpseg⟩ := run_pops popaq (by decide) vs ([rax, v, err, rip, cs, rflags, rsp, ss] ++ kstack) hvs m
    (by rw [hmst, append_assoc])
  have hexit : isrExit b = isrCommonLeave (run (popaq.map .pop) m) := by
    rw [isrExit, isrCommonRestore, run_append, hm]
  generalize run (popaq.map .pop) m = q at hpst hpreg hpseg hexit
  obtain ⟨hqst, hqreg, hqseg, hqrax⟩ := leaveBranch_eq q rax v _ hpst
  rw [hexit, isrCommonLeave]
  generalize (if (q.stack.getD 1 0).setWidth 16 = BitVec.ofNat 16 syscallInt then run [.dropStack 1] q
    else run [.pop .rax] q) = q' at hqst hqreg hqseg hqrax
  refine ⟨?_, ?_, fun r h1 h2 h3 => ?_, ?_, fun s hs => ?_, ?_, ?_, ?_, ?_⟩
  · simp [Instr.exec, Cpu.setReg, hqst]
  · rw [← hmreg .rax (by decide) (by decide), ← hpreg .rax (by decide), ← hqrax]
    rfl
  · simp only [run_cons, run_nil, Instr.exec, Cpu.setReg, update_of_ne h1]
    rw [hqreg r h1 h2, hpreg r h1, hmreg r h1 h3]
  · rw [← hmrbx, ← hpreg .rbx (by decide), ← hqreg .rbx (by decide) (by decide)]
    rfl
  · rw [← hmseg s hs, ← hpseg, ← hqseg]
    simp only [mem_cons, not_mem_nil, or_false] at hs
    rcases hs with rfl | rfl | rfl | rfl <;> simp [Instr.exec, Cpu.setReg]
  all_goals simp [Instr.exec, Cpu.setReg, hqst]

/-! ## Whole interrupts -/

/-- What an interrupt other than the system call leaves: every register is back but `rdx`, which holds the interrupted `rcx`,
and `rcx`, which holds what the handler left there; the data segments are all the interrupted `ds`. -/
theorem isrRun_eq (handler : Cpu → Cpu) (hk : KeepsInterruptStack handler) (hv : v < stubCount)
    (hs : v ≠ syscallInt) (err ksp : Word) (kstack : List Word) (c : Cpu) : let c' := isrRun handler v err ksp kstack c
    (∀ r, r ≠ .rcx → r ≠ .rdx → c'.reg r = c.reg r) ∧ c'.reg .rdx = c.reg .rcx ∧
      c'.reg .rcx = (handler (isrEnter v err ksp kstack c)).reg .rcx ∧
      (∀ s ∈ [Seg.ds, .es, .fs, .gs], c'.seg s = c.seg .ds) ∧
      c'.rip = c.rip ∧ c'.seg .cs = c.seg .cs ∧ c'.rflags = c.rflags ∧ c'.seg .ss = c.seg .ss := by
  intro c'
  have hst : (handler (isrEnter v err ksp kstack c)).stack = (c.seg .ds).zeroExtend 64 ::
      ((pushaq.map c.reg).reverse.take popaq.length ++ [c.reg .rax, BitVec.ofNat 64 v,
        if v ∈ errorCodeVectors then err else 0, c.rip, (c.seg .cs).zeroExtend 64, c.rflags, c.reg .rsp,
        (c.seg .ss).zeroExtend 64] ++ kstack) := by
    rw [hk, isrEnter_stack]
    rfl
  obtain ⟨h1, h2, h3, h4, h5, h6, h7, h8, h9⟩ := isrExit_eq (handler (isrEnter v err ksp kstack c)) _ _ rfl _ _ _ _ _ _ _ _ _ hst
  rw [if_neg (vector_ne_syscall hv hs)] at h2
  refine ⟨fun r hrcx hrdx => ?_, ?_, ?_, fun s hs => (h5 s hs).trans (by simp), h6, h7.trans (by simp), h8, h9.trans (by simp)⟩
  · cases r
    case rsp => exact h1
    case rax => exact h2
    case rbx => exact h4
    case rcx => exact absurd rfl hrcx
    case rdx => exact absurd rfl hrdx
    all_goals exact h3 _ (by decide) (by decide) (by decide)
  · exact h3 .rdx (by decide) (by decide) (by decide)
  · exact h3 .rcx (by decide) (by decide) (by decide)

/-- The interrupted context is back exactly when `rcx` and `rdx` held the same value, the handler returned with that value in
`rcx`, and the four data segment registers were equal. -/
theorem isrRun_resumed_iff (handler : Cpu → Cpu) (hk : KeepsInterruptStack handler) (v : Nat) (hv : v < stubCount)
    (hs : v ≠ syscallInt) (err ksp : Word) (kstack : List Word) (c : Cpu) : Resumed c (isrRun handler v err ksp kstack c) ↔
      c.reg .rcx = c.reg .rdx ∧ (handler (isrEnter v err ksp kstack c)).reg .rcx = c.reg .rcx ∧
        c.seg .es = c.seg .ds ∧ c.seg .fs = c.seg .ds ∧ c.seg .gs = c.seg .ds := by
  obtain ⟨hreg, hrdx, hrcx, hseg, hrip, hcs, hfl, hss⟩ := isrRun_eq handler hk hv hs err ksp kstack c
  constructor
  · intro h
    refine ⟨hrdx.symm.trans (h.reg .rdx), hrcx.symm.trans (h.reg .rcx), ?_, ?_, ?_⟩
    · exact (h.data .es (by decide)).symm.trans (hseg .es (by decide))
    · exact (h.data .fs (by decide)).symm.trans (hseg .fs (by decide))
    · exact (h.data .gs (by decide)).symm.trans (hseg .gs (by decide))
  · rintro ⟨hcd, hh, hes, hfs, hgs⟩
    refine ⟨fun r => ?_, fun s hs => ?_, hrip, hcs, hfl, hss⟩
    · by_cases h1 : r = .rcx
      · subst h1
        rw [hrcx, hh]
      by_cases h2 : r = .rdx
      · subst h2
        rw [hrdx, hcd]
      exact hreg r h1 h2
    · rw [hseg s hs]
      simp only [List.mem_cons, List.not_mem_nil, or_false] at hs
      rcases hs with rfl | rfl | rfl | rfl
      · rfl
      · exact hes.symm
      · exact hfs.symm
      · exact hgs.symm

/-- A processor in a user program: the two registers given, flat user segments, everything else zero. -/
def userCpu (rcx rdx : Word) : Cpu where
  reg := update (update (fun _ => 0) .rcx rcx) .rdx rdx
  seg := fun s => if s = .cs then 0x23 else 0x2B
  rip := 0x400000
  rflags := 0x202
  stack := []
  mem := fun _ => 0

/-- The handler of the keyboard vector, at a program with equal `rcx` and `rdx` and a handler that keeps `rcx`. -/
theorem isrRun_resumed_keyboard : Resumed (userCpu 7 7) (isrRun id 0x21 0 0 [] (userCpu 7 7)) :=
  (isrRun_resumed_iff id (fun _ => rfl) 0x21 (by decide) (by decide) 0 0 [] (userCpu 7 7)).mpr
    ⟨by decide, by decide, by decide, by decide, by decide⟩

/-- A keyboard interrupt with 1 in `rcx` and 2 in `rdx`, whose handler zeroes `rcx` and gives its stack back, returns with 1 in
`rdx` and 0 in `rcx`. -/
theorem isrRun_swaps_registers : KeepsInterruptStack (fun c => c.setReg .rcx 0) ∧
      (isrRun (fun c => c.setReg .rcx 0) 0x21 0 0 [] (userCpu 1 2)).reg .rdx = 1 ∧
      (isrRun (fun c => c.setReg .rcx 0) 0x21 0 0 [] (userCpu 1 2)).reg .rcx = 0 ∧
      ¬ Resumed (userCpu 1 2) (isrRun (fun c => c.setReg .rcx 0) 0x21 0 0 [] (userCpu 1 2)) := by
  have hrdx : (isrRun (fun c => c.setReg .rcx 0) 0x21 0 0 [] (userCpu 1 2)).reg .rdx = 1 := by decide
  refine ⟨fun _ => rfl, hrdx, by decide, fun h => ?_⟩
  have := (h.reg .rdx).symm.trans hrdx
  exact absurd this (by decide)

end OmegaOS
