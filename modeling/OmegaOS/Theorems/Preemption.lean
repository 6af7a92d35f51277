import OmegaOS.Theorems.InterruptReturn
import OmegaOS.Theorems.ReadyQueues

/-!
# Preemption is transparent

A process interrupted with an interrupt frame is switched back to with the registers of that frame, whatever other processes
ran and were interrupted in between. The context of a process is written only by `dispatch`, and only while the process is
current; `x64_context_switch` loads each register from the offset `dispatch` stored it at.
-/

namespace OmegaOS

open X86

/-- A sequence of timer ticks, each with the queue node `kmalloc` gives it and the frame of the process it interrupts. -/
def ticks (σ : Sched) : List (Nat × InterruptStack) → Except Halt Sched
  | [] => .ok σ
  | (tmp, stack) :: rest => do
    let σ ← timerInterrupt σ tmp stack
    ticks σ rest

/-- The processor runs on from an interrupt frame: every register is the frame's, with the interrupt flag set. -/
structure RunsFrom (c : Cpu) (s : InterruptStack) : Prop where
  rip : c.rip = s.rip
  cs : c.seg .cs = s.cs.setWidth 16
  rflags : c.rflags = s.rflags ||| flagIF
  ss : c.seg .ss = s.ss.setWidth 16
  data : ∀ d ∈ [Seg.ds, .es, .fs, .gs], c.seg d = s.ss.setWidth 16
  rsp : c.reg .rsp = s.rsp
  rax : c.reg .rax = s.rax
  rbx : c.reg .rbx = s.rbx
  rcx : c.reg .rcx = s.rcx
  rdx : c.reg .rdx = s.rdx
  rdi : c.reg .rdi = s.rdi
  rsi : c.reg .rsi = s.rsi
  rbp : c.reg .rbp = s.rbp
  r8 : c.reg .r8 = s.r8
  r9 : c.reg .r9 = s.r9
  r10 : c.reg .r10 = s.r10
  r11 : c.reg .r11 = s.r11
  r12 : c.reg .r12 = s.r12
  r13 : c.reg .r13 = s.r13
  r14 : c.reg .r14 = s.r14
  r15 : c.reg .r15 = s.r15

/-- What `x64_context_switch` loads, by the offset from `rdi` it loads it from. -/
theorem run_x64ContextSwitch (c : Cpu) : let c' := run x64ContextSwitch c
    let at_ : Word → Word := fun off => c.mem (c.reg .rdi + off)
    let ss : Word := (0 &&& 0xFFFFFFFFFFFF0000#64) ||| ((at_ 0x20).setWidth 16).zeroExtend 64
    (c'.rip = at_ 0 ∧ c'.seg .cs = (at_ 0x8).setWidth 16 ∧ c'.reg .rsp = at_ 0x10 ∧ c'.rflags = at_ 0x18 ||| 0x200 ∧
      c'.seg .ss = ss.setWidth 16 ∧ c'.seg .ds = ss.setWidth 16 ∧ c'.seg .es = ss.setWidth 16 ∧
      c'.seg .fs = ss.setWidth 16 ∧ c'.seg .gs = ss.setWidth 16) ∧
    (c'.reg .rax = at_ 0x28 ∧ c'.reg .rbx = at_ 0x30 ∧ c'.reg .rcx = at_ 0x38 ∧ c'.reg .rdx = at_ 0x40 ∧
      c'.reg .rdi = at_ 0x48 ∧ c'.reg .rsi = at_ 0x50 ∧ c'.reg .rbp = at_ 0x58) ∧
    c'.reg .r8 = at_ 0x60 ∧ c'.reg .r9 = at_ 0x68 ∧ c'.reg .r10 = at_ 0x70 ∧ c'.reg .r11 = at_ 0x78 ∧
      c'.reg .r12 = at_ 0x80 ∧ c'.reg .r13 = at_ 0x88 ∧ c'.reg .r14 = at_ 0x90 ∧ c'.reg .r15 = at_ 0x98 :=
  ⟨⟨rfl, rfl, rfl, rfl, rfl, rfl, rfl, rfl, rfl⟩, ⟨rfl, rfl, rfl, rfl, rfl, rfl, rfl⟩, rfl, rfl, rfl, rfl, rfl, rfl, rfl, rfl⟩

/-- A quadword of the struct, by its offset. -/
theorem Context.memoryAt_add (ctx : Context) (base off : Word) : ctx.memoryAt base (base + off) = ctx.fields.getD (off.toNat / 8) 0 := by
  rw [Context.memoryAt, BitVec.add_comm, BitVec.add_sub_cancel]

/-- `x64_context_switch` on a context that `dispatch` saved from a frame loads the frame. -/
theorem contextSwitch_save (ctx : Context) (s : InterruptStack) (hds : s.ds = s.ss) (base : Word) (c : Cpu) :
    RunsFrom (contextSwitch (ctx.save s) base c) s := by
  obtain ⟨⟨hrip, hcs, hrsp, hfl, hss, hd, he, hf, hg⟩, ⟨hax, hbx, hcx, hdx, hdi, hsi, hbp⟩, h8, h9, h10, h11, h12, h13, h14,
    h15⟩ := run_x64ContextSwitch { c.setReg .rdi base with mem := (ctx.save s).memoryAt base }
  have hrdi : (c.setReg .rdi base).reg .rdi = base := by simp [Cpu.setReg]
  simp only [hrdi, Context.memoryAt_add, Context.fields, Context.save, hds, setReg16_zero] at *
  have hsel : ∀ v : Word, ((v.setWidth 16).zeroExtend 64).setWidth 16 = v.setWidth 16 := by
    intro v
    simp
  refine ⟨hrip, hcs, hfl, hss.trans (hsel _), ?_, hrsp, hax, hbx, hcx, hdx, hdi, hsi, hbp, h8, h9, h10, h11, h12, h13, h14, h15⟩
  intro d hd'
  simp only [List.mem_cons, List.not_mem_nil, or_false] at hd'
  rcases hd' with rfl | rfl | rfl | rfl
  · exact hd.trans (hsel _)
  · exact he.trans (hsel _)
  · exact hf.trans (hsel _)
  · exact hg.trans (hsel _)

/-! ## Who writes a context -/

theorem yield_procs (h : yield σ p = .ok σ') : σ'.procs = σ.procs := by
  rw [yield] at h
  split at h
  · cases h
    rfl
  · obtain ⟨⟨n, σ1⟩, hg, hr⟩ := bind_eq_ok.mp h
    cases hr
    have hkeep : σ1.procs = σ.procs := by rw [getNextProcess_frame hg]
    exact hkeep

/-- A tick saves the frame in the process it interrupts and writes no other process. -/
theorem timerInterrupt_procs {tmp : Nat} {stack : InterruptStack} (hcur : σ.current ≠ null) (h : timerInterrupt σ tmp stack = .ok σ') :
    (σ'.procs σ.current).ctx = (σ.procs σ.current).ctx.save stack ∧ ∀ p, p ≠ σ.current → σ'.procs p = σ.procs p := by
  rw [timerInterrupt, if_pos hcur] at h
  obtain ⟨⟨next, σ2⟩, hd, hy⟩ := bind_eq_ok.mp h
  obtain ⟨σ1, ha, hg⟩ := bind_eq_ok.mp hd
  have hprocs : σ'.procs = (saveContext σ stack).procs := by
    rw [yield_procs hy, getNextProcess_frame hg, schedulerAdd_frame ha]
  rw [hprocs]
  refine ⟨by simp [saveContext], fun p hp => ?_⟩
  simp [saveContext, Function.update_of_ne hp]

/-- While a process is not current, no tick writes its context. -/
theorem ticks_procs {rest : List (Nat × InterruptStack)} (h : ticks σ rest = .ok σ')
    (hp : ∀ k < rest.length, ∀ σₖ, ticks σ (rest.take k) = .ok σₖ → σₖ.current ≠ p) : σ'.procs p = σ.procs p := by
  induction rest generalizing σ with
  | nil =>
    cases h
    rfl
  | cons t rest ih =>
    obtain ⟨tmp, stack⟩ := t
    obtain ⟨σ1, ht, hr⟩ := bind_eq_ok.mp h
    have h0 : σ.current ≠ p := hp 0 (by simp) σ rfl
    have hkeep : σ1.procs p = σ.procs p := by
      by_cases hcur : σ.current = null
      · rw [timerInterrupt, if_neg (by simpa using hcur)] at ht
        cases ht
        rfl
      · exact (timerInterrupt_procs hcur ht).2 p h0.symm
    rw [ih hr, hkeep]
    intro k hk σₖ hσₖ
    refine hp (k + 1) (by simpa using hk) σₖ ?_
    exact bind_eq_ok.mpr ⟨σ1, ht, hσₖ⟩

/-- Preemption is transparent: a process interrupted with a frame, and then, after any ticks, switched to for the first time
again, runs on from that frame. -/
theorem preemption_transparent {σ σ' : Sched} (hcur : σ.current ≠ null) (tmp : Nat) (s : InterruptStack) (hds : s.ds = s.ss)
    (rest : List (Nat × InterruptStack)) (hrun : ticks σ ((tmp, s) :: rest) = .ok σ')
    (hother : ∀ k < rest.length, ∀ σₖ, ticks σ ((tmp, s) :: rest.take k) = .ok σₖ → σₖ.current ≠ σ.current)
    (hback : σ'.current = σ.current) (c : Cpu) : RunsFrom (switchProcess σ' c) s := by
  obtain ⟨σ₁, ht, hr⟩ := bind_eq_ok.mp hrun
  have hsaved := (timerInterrupt_procs hcur ht).1
  have hkept : σ'.procs σ.current = σ₁.procs σ.current :=
    ticks_procs hr fun k hk σₖ hσₖ => hother k hk σₖ (bind_eq_ok.mpr ⟨σ₁, ht, hσₖ⟩)
  rw [switchProcess, hback, hkept, hsaved]
  exact contextSwitch_save _ s hds _ c

/-- A frame in a user program: the quadwords between the equal `ds` and `ss` count up from `n`. -/
def exampleFrame (n : Word) : InterruptStack :=
  InterruptStack.ofStack ([0x2B] ++ (List.range 21).map (fun i => n + BitVec.ofNat 64 i) ++ [0x2B])

/-- The kernel after initialization and the creation of a second interactive process, at address 5. -/
def twoShells : Except Halt Sched := do
  let σ ← bootExample
  processCreate σ 5 0x4000 6 0x500000 .interactive

/-- The shell is interrupted, the second process runs and is interrupted, and the shell runs on from its frame. -/
theorem preemption_transparent_twoShells : ∃ σ σ', twoShells = .ok σ ∧ σ.current = 2 ∧
    ticks σ [(7, exampleFrame 100), (8, exampleFrame 200)] = .ok σ' ∧ RunsFrom (switchProcess σ' (userCpu 0 0)) (exampleFrame 100) := by
  obtain ⟨σ, hσ⟩ : ∃ σ, twoShells = .ok σ := ⟨_, rfl⟩
  have hcur : σ.current = 2 := by
    cases hσ
    rfl
  obtain ⟨σ', hσ'⟩ : ∃ σ', ticks σ [(7, exampleFrame 100), (8, exampleFrame 200)] = .ok σ' := by
    cases hσ
    exact ⟨_, rfl⟩
  have hback : σ'.current = 2 := by
    cases hσ
    cases hσ'
    rfl
  refine ⟨σ, σ', hσ, hcur, hσ', preemption_transparent (by simp [hcur, null]) 7 (exampleFrame 100) rfl
    [(8, exampleFrame 200)] hσ' ?_ (hback.trans hcur.symm) _⟩
  intro k hk σₖ hσₖ
  obtain rfl : k = 0 := by simpa using hk
  cases hσ
  cases hσₖ
  decide

end OmegaOS
