import OmegaOS.Lemmas.Scheduler

/-!
# Conservation of processes

Timer ticks, process creation and process exit as atomic steps, from the state after the first `yield(NULL)`. In every state
reached, a live process (a member of the process tree) is the current one or is once in the ready queue of its priority, and
no step stops the kernel: `getNextProcess` finds a process because the root is always current or ready.
-/

namespace OmegaOS

open X86 List

variable {σ : Sched} {p tmp process : Nat}

/-- One atomic step. The addresses are what `kmalloc` may return; `sys_exit` is called by a process other than the root. -/
inductive SchedStep : Sched → Sched → Prop where
  | tick {σ σ' : Sched} (tmp : Nat) (stack : InterruptStack) :
      FreshNode σ tmp → timerInterrupt σ tmp stack = .ok σ' → SchedStep σ σ'
  | create {σ σ' : Sched} (process pml4 tmp : Nat) (entry : Word) (priority : ProcessPriority) :
      process ≠ null → process ∉ σ.tree → FreshNode σ tmp →
      processCreate σ process pml4 tmp entry priority = .ok σ' → SchedStep σ σ'
  | exit {σ σ' : Sched} : (σ.procs σ.current).id ≠ rootPid → sysExit σ = .ok σ' → SchedStep σ σ'

/-- The states that steps lead to, from the one the kernel leaves initialization in. -/
inductive SchedReachable : Sched → Prop where
  | boot {σ : Sched} (procs : Nat → Process) (nodes : Nodes) (idle shell pml4 kernelPml4 n₁ n₂ : Nat) (idleEntry entry : Word) :
      idle ≠ null → shell ≠ null → shell ≠ idle → n₁ ≠ null → n₂ ≠ null → n₂ ≠ n₁ →
      boot procs nodes idle shell pml4 kernelPml4 n₁ n₂ idleEntry entry = .ok σ → SchedReachable σ
  | step {σ σ' : Sched} : SchedReachable σ → SchedStep σ σ' → SchedReachable σ'

/-- The invariant: the queues are well linked, every queued process is live and in the queue of its priority, and every live
process is queued once, except the one given, which is in no queue. The root, whose id is `ROOT_PID`, is live. -/
structure Placed (σ : Sched) (running : Option Nat) : Prop where
  linked : WellLinked σ
  notNull : null ∉ σ.tree
  rootLive : ∃ r ∈ σ.tree, (σ.procs r).id = rootPid
  queued : ∀ i, ∀ p ∈ σ.ready i, p ∈ σ.tree ∧ (σ.procs p).priority = i
  once : ∀ p ∈ σ.tree, (σ.ready (σ.procs p).priority).count p = if running = some p then 0 else 1

/-- Between two steps the current process is live, and it is the one that is in no queue. -/
structure Conserved (σ : Sched) : Prop where
  placed : Placed σ (some σ.current)
  currentLive : σ.current ∈ σ.tree

/-! ## Steps keep the invariant -/

/-- With every live process queued, `getNextProcess` finds one, and making it current conserves the processes. -/
theorem Placed.next (h : Placed σ none) : ∃ p σ', getNextProcess σ = .ok (p, σ') ∧ p ≠ null ∧ Conserved { σ' with current := p } := by
  obtain ⟨r, hr, hrid⟩ := h.rootLive
  have hne : ∃ i, σ.ready i ≠ [] := by
    refine ⟨(σ.procs r).priority, fun he => ?_⟩
    have := h.once r hr
    simp [he] at this
  obtain ⟨i, p, σ', hget, hw, hσ', hi, hj⟩ := getNextProcess_ok h.linked hne
  have hp := h.queued i p (by rw [hi]; exact mem_cons_self)
  have htree : σ'.tree = σ.tree := by rw [hσ']
  have hprocs : σ'.procs = σ.procs := by rw [hσ']
  have hsub : ∀ j, ∀ x ∈ σ'.ready j, x ∈ σ.ready j := by
    intro j x hx
    by_cases hji : j = i
    · subst hji
      rw [hi]
      exact .tail p hx
    · rwa [← hj j hji]
  refine ⟨p, σ', hget, fun e => h.notNull (e ▸ hp.1), ⟨⟨hw.holds, hw.disjoint⟩, ?_, ?_, ?_, ?_⟩, ?_⟩
  · exact htree ▸ h.notNull
  · exact ⟨r, htree ▸ hr, by rwa [hprocs]⟩
  · intro j x hx
    obtain ⟨hxt, hxp⟩ := h.queued j x (hsub j x hx)
    exact ⟨htree ▸ hxt, by rwa [hprocs]⟩
  · intro x hx
    have hxo : (σ.ready (σ.procs x).priority).count x = 1 := h.once x (htree ▸ hx)
    show (σ'.ready (σ'.procs x).priority).count x = if some p = some x then 0 else 1
    rw [hprocs]
    by_cases hxp : (σ.procs x).priority = i
    · rw [hxp] at hxo ⊢
      rw [hi, count_cons] at hxo
      by_cases hxe : p = x
      · simp only [hxe, beq_self_eq_true, if_true] at hxo ⊢
        omega
      · simpa [hxe] using hxo
    · rw [hj _ hxp, hxo, if_neg]
      rintro ⟨⟩
      exact hxp hp.2
  · exact htree ▸ hp.1

/-- Queueing the running process leaves every live process queued. -/
theorem Placed.add (h : Placed σ (some p)) (hp : p ∈ σ.tree) (hf : FreshNode σ tmp) :
    ∃ σ', schedulerAdd σ tmp p = .ok σ' ∧ Placed σ' none ∧ σ'.tree = σ.tree ∧ ∀ x, x ≠ tmp → FreshNode σ x → FreshNode σ' x := by
  obtain ⟨σ', hadd, hw, hσ', hr, hfresh⟩ := schedulerAdd_ok h.linked hf p
  have htree : σ'.tree = σ.tree := by rw [hσ']
  have hprocs : σ'.procs = σ.procs := by rw [hσ']
  refine ⟨σ', hadd, ⟨hw, htree ▸ h.notNull, ?_, ?_, ?_⟩, htree, hfresh⟩
  · obtain ⟨r, hr, hrid⟩ := h.rootLive
    exact ⟨r, htree ▸ hr, by rwa [hprocs]⟩
  · intro i x hx
    rw [hprocs, htree]
    rw [hr i] at hx
    split at hx
    · rename_i hi
      rcases mem_append.mp hx with hx | hx
      · exact h.queued i x hx
      · rw [mem_singleton] at hx
        subst hx
        exact ⟨hp, hi.symm⟩
    · exact h.queued i x hx
  · intro x hx
    have ho := h.once x (htree ▸ hx)
    rw [hprocs, hr]
    by_cases hxp : p = x
    · subst hxp
      rw [if_pos rfl] at ho
      simp [ho]
    · rw [if_neg (by simpa using hxp)] at ho
      split
      · rw [count_append, ho, count_singleton]
        simp [hxp]
      · simpa using ho

/-- A new process that is put in the tree is in no queue yet. -/
theorem insertProcess_eq (σ : Sched) (process pml4 : Nat) (entry : Word) (priority : ProcessPriority) :
    (insertProcess σ process pml4 entry priority).tree = σ.tree ++ [process] ∧
      ((insertProcess σ process pml4 entry priority).procs process).priority = priority ∧
      (∀ x, x ≠ process → (insertProcess σ process pml4 entry priority).procs x = σ.procs x) ∧
      (insertProcess σ process pml4 entry priority).current = σ.current := by
  refine ⟨rfl, ?_, fun x hx => ?_, rfl⟩
  · simp [insertProcess, createProcess]
  · simp [insertProcess, getNextID, Function.update_of_ne hx]

/-- Process creation returns and keeps every other process where it is. -/
theorem Placed.create {running : Option Nat} (h : Placed σ running) (pml4 : Nat)
    (entry : Word) (priority : ProcessPriority) (hne : process ≠ null) (hpt : process ∉ σ.tree)
    (hrun : running ≠ some process) (hf : FreshNode σ tmp) :
    ∃ σ', processCreate σ process pml4 tmp entry priority = .ok σ' ∧ Placed σ' running ∧ σ'.current = σ.current ∧
      σ'.tree = σ.tree ++ [process] := by
  obtain ⟨htree1, hnew, hold, hcur1⟩ := insertProcess_eq σ process pml4 entry priority
  have hready : ∀ i, (insertProcess σ process pml4 entry priority).ready i = σ.ready i := fun _ => rfl
  have hw1 : WellLinked (insertProcess σ process pml4 entry priority) := ⟨h.linked.holds, h.linked.disjoint⟩
  obtain ⟨σ', hadd, hw, hσ', hr, -⟩ := schedulerAdd_ok hw1 hf process
  have htree : σ'.tree = σ.tree ++ [process] := by rw [hσ', ← htree1]
  have hprocs : σ'.procs = (insertProcess σ process pml4 entry priority).procs := by rw [hσ']
  have hne' : ∀ x ∈ σ.tree, x ≠ process := fun x hx e => hpt (e ▸ hx)
  refine ⟨σ', hadd, ⟨hw, ?_, ?_, ?_, ?_⟩, by rw [hσ', ← hcur1], htree⟩
  · rw [htree, mem_append, mem_singleton]
    rintro (hx | hx)
    · exact h.notNull hx
    · exact hne hx.symm
  · obtain ⟨r, hr, hrid⟩ := h.rootLive
    exact ⟨r, by rw [htree]; exact mem_append_left _ hr, by rwa [hprocs, hold r (hne' r hr)]⟩
  · intro i p hp
    rw [hprocs, htree]
    rw [hr i, hnew, hready] at hp
    have hin : p ∈ σ.ready i → p ∈ σ.tree ++ [process] ∧ ((insertProcess σ process pml4 entry priority).procs p).priority = i := by
      intro hp
      obtain ⟨hpt', hpp⟩ := h.queued i p hp
      exact ⟨mem_append_left _ hpt', by rwa [hold p (hne' p hpt')]⟩
    split at hp
    · rename_i hi
      rcases mem_append.mp hp with hp | hp
      · exact hin hp
      · rw [mem_singleton] at hp
        subst hp
        exact ⟨by simp, by rw [hnew, hi]⟩
    · exact hin hp
  · intro p hp
    rw [htree, mem_append, mem_singleton] at hp
    rw [hprocs, hr, hnew, hready]
    rcases hp with hp | rfl
    · rw [hold p (hne' p hp)]
      split
      · rw [count_append, h.once p hp, count_singleton]
        simp [Ne.symm (hne' p hp)]
      · exact h.once p hp
    · have hq : p ∉ σ.ready priority := fun hq => hpt (h.queued _ _ hq).1
      rw [hnew, if_pos rfl, if_neg hrun, count_append, count_eq_zero_of_not_mem hq]
      simp

/-- Deleting the running process, when it is not the root, leaves every live process queued. -/
theorem Placed.delete (h : Placed σ (some p)) (hp : p ∈ σ.tree) (hid : (σ.procs p).id ≠ rootPid) : Placed (processDelete σ p) none := by
  have hmem : ∀ x, x ∈ (processDelete σ p).tree ↔ x ∈ σ.tree ∧ x ≠ p := by
    intro x
    simp [processDelete]
  refine ⟨⟨h.linked.holds, h.linked.disjoint⟩, fun hn => h.notNull ((hmem _).mp hn).1, ?_, ?_, ?_⟩
  · obtain ⟨r, hr, hrid⟩ := h.rootLive
    exact ⟨r, (hmem r).mpr ⟨hr, fun e => hid (e ▸ hrid)⟩, hrid⟩
  · intro i x hx
    obtain ⟨hxt, hxp⟩ := h.queued i x hx
    refine ⟨(hmem x).mpr ⟨hxt, ?_⟩, hxp⟩
    rintro rfl
    have ho := h.once x hp
    rw [if_pos rfl, hxp] at ho
    exact count_eq_zero.mp ho hx
  · intro x hx
    obtain ⟨hxt, hxp⟩ := (hmem x).mp hx
    have ho := h.once x hxt
    rwa [if_neg (by simpa using Ne.symm hxp)] at ho

/-- Saving a context touches nothing the invariant reads. -/
theorem Conserved.saveContext (h : Conserved σ) (stack : InterruptStack) : Conserved (saveContext σ stack) := by
  have hp := saveContext_procs σ stack
  obtain ⟨⟨hl, hn, hroot, hq, ho⟩, hc⟩ := h
  refine ⟨⟨⟨hl.holds, hl.disjoint⟩, hn, ?_, ?_, ?_⟩, hc⟩
  · obtain ⟨r, hr, hrid⟩ := hroot
    exact ⟨r, hr, (hp r).2.trans hrid⟩
  · intro i p hpi
    exact ⟨(hq i p hpi).1, (hp p).1.trans (hq i p hpi).2⟩
  · intro p hpt
    rw [(hp p).1]
    exact ho p hpt

theorem Conserved.tick (h : Conserved σ) (hf : FreshNode σ tmp) (stack : InterruptStack) :
    ∃ σ', timerInterrupt σ tmp stack = .ok σ' ∧ Conserved σ' := by
  have hcur : σ.current ≠ null := fun e => h.placed.notNull (e ▸ h.currentLive)
  have hs := h.saveContext stack
  obtain ⟨σ1, hadd, h1, -, -⟩ := hs.placed.add hs.currentLive hf
  obtain ⟨p, σ2, hget, hp, h2⟩ := h1.next
  refine ⟨_, ?_, h2⟩
  rw [timerInterrupt, if_pos hcur]
  refine bind_eq_ok.mpr ⟨(p, σ2), ?_, ?_⟩
  · exact bind_eq_ok.mpr ⟨σ1, hadd, hget⟩
  · simp only [yield, if_pos hp]
    rfl

theorem Conserved.create (h : Conserved σ) (pml4 : Nat) (entry : Word)
    (priority : ProcessPriority) (hne : process ≠ null) (hpt : process ∉ σ.tree) (hf : FreshNode σ tmp) :
    ∃ σ', processCreate σ process pml4 tmp entry priority = .ok σ' ∧ Conserved σ' := by
  have hrun : some σ.current ≠ some process := by
    rintro ⟨⟩
    exact hpt h.currentLive
  obtain ⟨σ', hc, hp, hcur, htree⟩ := h.placed.create pml4 entry priority hne hpt hrun hf
  exact ⟨σ', hc, by rwa [hcur], by rw [hcur, htree]; exact mem_append_left _ h.currentLive⟩

theorem Placed.yield_null (h : Placed σ none) : ∃ σ', yield σ null = .ok σ' ∧ Conserved σ' := by
  obtain ⟨p, σ', hget, -, h'⟩ := h.next
  refine ⟨_, ?_, h'⟩
  rw [yield, if_neg (by simp)]
  exact bind_eq_ok.mpr ⟨(p, σ'), hget, rfl⟩

/-- An exit by a process other than the root returns, and conserves the processes. -/
theorem Conserved.exit (h : Conserved σ) (hid : (σ.procs σ.current).id ≠ rootPid) : ∃ σ', sysExit σ = .ok σ' ∧ Conserved σ' := by
  obtain ⟨σ', hy, h'⟩ := (h.placed.delete h.currentLive hid).yield_null
  have hassert : ((σ.procs σ.current).id != rootPid) = true := by simpa using hid
  refine ⟨σ', ?_, h'⟩
  rwa [sysExit, hassert]

/-! ## Initialization -/

/-- The state `process_init` leaves: the idle process is the root, and in no queue. -/
theorem processInit_placed (procs : Nat → Process) (nodes : Nodes) (idle kernelPml4 : Nat) (entry : Word) (hi : idle ≠ null) :
    Placed (processInit procs nodes idle kernelPml4 entry) (some idle) := by
  generalize hσ : processInit procs nodes idle kernelPml4 entry = σ
  have htree : σ.tree = [idle] := by rw [← hσ]; rfl
  have hid : (σ.procs idle).id = rootPid := by
    rw [← hσ]
    simp [processInit, getNextID, createProcess, rootPid]
  have hnodes : ∀ i, σ.readyNodes i = [] := by
    intro i
    rw [← hσ]
    rfl
  have hready : ∀ i, σ.ready i = [] := fun i => by rw [Sched.ready, hnodes i]; rfl
  refine ⟨⟨fun i => ?_, fun i j _ => ?_⟩, ?_, ?_, ?_, ?_⟩
  · rw [hnodes i, ← hσ]
    exact holds_queueCreate _
  · rw [hnodes i]
    exact disjoint_nil_left _
  · rw [htree]
    simpa using Ne.symm hi
  · exact ⟨idle, by rw [htree]; simp, hid⟩
  · intro i p hp
    rw [hready i] at hp
    exact absurd hp not_mem_nil
  · intro p hp
    rw [htree, mem_singleton] at hp
    subst hp
    rw [hready]
    simp

/-- Initialization returns, and conserves the processes: the idle process is queued although it is current, and the first
`yield(NULL)` replaces it. -/
theorem boot_conserved (procs : Nat → Process) (nodes : Nodes) {idle shell n1 n2 : Nat} (pml4 kernelPml4 : Nat)
    (idleEntry entry : Word) (hi : idle ≠ null) (hs : shell ≠ null) (hsi : shell ≠ idle) (hn1 : n1 ≠ null) (hn2 : n2 ≠ null)
    (hn : n2 ≠ n1) : ∃ σ, boot procs nodes idle shell pml4 kernelPml4 n1 n2 idleEntry entry = .ok σ ∧ Conserved σ := by
  have h0 := processInit_placed procs nodes idle kernelPml4 idleEntry hi
  generalize hσ : processInit procs nodes idle kernelPml4 idleEntry = σ0 at h0
  have htree0 : σ0.tree = [idle] := by rw [← hσ]; rfl
  have hcur0 : σ0.current = idle := by rw [← hσ]; rfl
  have hf0 : ∀ x, x ≠ null → FreshNode σ0 x := fun x hx => ⟨hx, fun i => by rw [← hσ]; exact not_mem_nil⟩
  obtain ⟨σ1, hadd, h1, htree1, hf1⟩ := h0.add (by rw [htree0]; simp) (hf0 n1 hn1)
  obtain ⟨σ2, hcreate, h2, -, -⟩ := h1.create pml4 entry .interactive hs
    (by rw [htree1, htree0]; simpa using hsi) (by simp) (hf1 n2 hn (hf0 n2 hn2))
  obtain ⟨σ3, hyield, h3⟩ := h2.yield_null
  refine ⟨σ3, ?_, h3⟩
  rw [boot, hσ, hcur0]
  exact bind_eq_ok.mpr ⟨σ1, hadd, bind_eq_ok.mpr ⟨σ2, hcreate, hyield⟩⟩

/-! ## Whole runs -/

theorem SchedReachable.conserved (h : SchedReachable σ) : Conserved σ := by
  induction h with
  | boot procs nodes idle shell pml4 kernelPml4 n1 n2 idleEntry entry hi hs hsi hn1 hn2 hn hb =>
    obtain ⟨σ', hb', h'⟩ := boot_conserved procs nodes pml4 kernelPml4 idleEntry entry hi hs hsi hn1 hn2 hn
    rw [hb] at hb'
    cases hb'
    exact h'
  | step _ hstep ih =>
    cases hstep with
    | tick tmp stack hf ht =>
      obtain ⟨σ', ht', h'⟩ := ih.tick hf stack
      rw [ht] at ht'
      cases ht'
      exact h'
    | create process pml4 tmp entry priority hne hpt hf hc =>
      obtain ⟨σ', hc', h'⟩ := ih.create pml4 entry priority hne hpt hf
      rw [hc] at hc'
      cases hc'
      exact h'
    | exit hid he =>
      obtain ⟨σ', he', h'⟩ := ih.exit hid
      rw [he] at he'
      cases he'
      exact h'

/-- A process is in exactly one place: it is current and in no queue, or it is not current, once in the queue of its priority
and in no other. -/
def InOnePlace (σ : Sched) (p : Nat) : Prop :=
  (p = σ.current ∧ ∀ i, p ∉ σ.ready i) ∨
    (p ≠ σ.current ∧ (σ.ready (σ.procs p).priority).count p = 1 ∧ ∀ i, i ≠ (σ.procs p).priority → p ∉ σ.ready i)

theorem Conserved.inOnePlace (h : Conserved σ) (hp : p ∈ σ.tree) : InOnePlace σ p := by
  have ho := h.placed.once p hp
  have hother : ∀ i, i ≠ (σ.procs p).priority → p ∉ σ.ready i := fun i hi hpi => hi (h.placed.queued i p hpi).2.symm
  by_cases hc : σ.current = p
  · left
    rw [if_pos (by rw [hc])] at ho
    refine ⟨hc.symm, fun i => ?_⟩
    by_cases hi : i = (σ.procs p).priority
    · subst hi
      exact count_eq_zero.mp ho
    · exact hother i hi
  · right
    rw [if_neg (by simpa using hc)] at ho
    exact ⟨Ne.symm hc, ho, hother⟩

/-- Conservation of the ready queues. In every state reached by ticks, creations and exits, every live process is in one place,
the current process is live, every queued process is live (an exited one is in no queue), and the next tick, the next creation
and the next exit all return: `getNextProcess` does not panic. -/
theorem schedReachable_conservation {σ : Sched} (h : SchedReachable σ) :
    (∀ p ∈ σ.tree, InOnePlace σ p) ∧ σ.current ∈ σ.tree ∧ (∀ i, ∀ p ∈ σ.ready i, p ∈ σ.tree) ∧
      (∀ tmp stack, FreshNode σ tmp → ∃ σ', timerInterrupt σ tmp stack = .ok σ') ∧
      (∀ process pml4 tmp entry priority, process ≠ null → process ∉ σ.tree → FreshNode σ tmp →
        ∃ σ', processCreate σ process pml4 tmp entry priority = .ok σ') ∧
      ((σ.procs σ.current).id ≠ rootPid → ∃ σ', sysExit σ = .ok σ') := by
  have hc := h.conserved
  refine ⟨fun p hp => hc.inOnePlace hp, hc.currentLive, fun i p hp => (hc.placed.queued i p hp).1, ?_, ?_, ?_⟩
  · intro tmp stack hf
    obtain ⟨σ', ht, -⟩ := hc.tick hf stack
    exact ⟨σ', ht⟩
  · intro process pml4 tmp entry priority hne hpt hf
    obtain ⟨σ', hcr, -⟩ := hc.create pml4 entry priority hne hpt hf
    exact ⟨σ', hcr⟩
  · intro hid
    obtain ⟨σ', he, -⟩ := hc.exit hid
    exact ⟨σ', he⟩

/-- Initialization on a memory of idle processes and empty nodes: the idle process at 1, the shell at 2. -/
def bootExample : Except Halt Sched :=
  boot (fun _ => createProcess 0 0 .idle 0 0 0 0 0) (fun _ => ⟨null, null⟩) 1 2 0x3000 0x2000 3 4 0x100000 0x400000

/-- After initialization the shell is current and the idle process is ready. -/
theorem schedReachable_conservation_boot : ∃ σ, bootExample = .ok σ ∧ σ.current = 2 ∧ σ.ready .idle = [1] ∧
    (∀ p ∈ σ.tree, InOnePlace σ p) :=
  ⟨_, rfl, by decide, by decide, (schedReachable_conservation (SchedReachable.boot (fun _ => createProcess 0 0 .idle 0 0 0 0 0)
    (fun _ => ⟨null, null⟩) 1 2 0x3000 0x2000 3 4 0x100000 0x400000 (by decide) (by decide) (by decide) (by decide)
    (by decide) (by decide) rfl)).1⟩

end OmegaOS
