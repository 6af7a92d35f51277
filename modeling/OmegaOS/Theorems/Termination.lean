import OmegaOS.Interrupts
import OmegaOS.Theorems.Preemption

/-!
# A terminated process does not run again

`sys_exit` enables interrupts while the deleted process is still the current one, and the timer handler saves and queues
whatever process is current. A deleted process stays out of the scheduler in the runs that take no tick there, nor inside the
timer handler before it has replaced the current process.
-/

namespace OmegaOS

open X86 List Function

/-- A place where the current process is live and out of the queues: its program, or a switch to it. -/
def Pc.Quiet (pc : Pc) : Prop := pc = .program ∨ pc = .switching

/-- The steps that keep terminated processes out: no tick is taken from the `__STI` of `sys_exit` to the store of its
`yield(NULL)`, nor from the start of the timer handler to the store of its `yield(next)`. -/
def QuietTick (k : Kernel) (l : Label) : Prop := l = .tick → k.pc.Quiet

/-- What holds of the scheduler at each place. -/
def PlacedAt (σ : Sched) : Pc → Prop
  | .program | .switching | .tickSaved => Conserved σ
  | .tickStart _ interrupted => Conserved σ ∧ interrupted.Quiet
  | .exitDeleted | .exitEnabled | .tickQueued => Placed σ none
  | .exitPicked next | .tickPicked next => Conserved { σ with current := next }

/-- The invariant of the runs without a tick in the wrong place. -/
structure Tracked (k : Kernel) : Prop where
  placed : PlacedAt k.sched k.pc
  resumes : ∀ p ∈ k.sched.tree, (k.resume p).Quiet
  deadGone : ∀ p ∈ k.dead, p ∉ k.sched.tree

/-! ## Steps keep the invariant -/

/-- At a quiet place the processes are conserved, and conversely. -/
theorem placedAt_of_quiet {pc : Pc} (hq : pc.Quiet) : PlacedAt σ pc ↔ Conserved σ := by
  rcases hq with rfl | rfl <;> exact .rfl

/-- What `getNextProcess` returns when every live process is queued. -/
theorem Placed.next_eq (h : Placed σ none) (hg : getNextProcess σ = .ok (p, σ')) : Conserved { σ' with current := p } := by
  obtain ⟨q, τ, hg', -, hc⟩ := h.next
  rw [hg] at hg'
  cases hg'
  exact hc

/-- Every step but a tick in the wrong place keeps the invariant. -/
theorem Tracked.step (h : Tracked k) (hl : QuietTick k l) (hs : KernelStep k l k') : Tracked k' := by
  have hp := h.placed
  cases hs with
  | tick stack _ =>
    have hq : k.pc.Quiet := hl rfl
    exact ⟨⟨(placedAt_of_quiet hq).mp hp, hq⟩, h.resumes, h.deadGone⟩
  | ignore hpc _ =>
    rw [hpc] at hp
    exact ⟨(placedAt_of_quiet hp.2).mpr hp.1, h.resumes, h.deadGone⟩
  | @save stack interrupted hpc _ =>
    rw [hpc] at hp
    refine ⟨hp.1.saveContext stack, fun p hpt => ?_, h.deadGone⟩
    by_cases hpc' : p = k.sched.current
    · subst hpc'
      simpa using hp.2
    · simpa [update_of_ne hpc'] using h.resumes p hpt
  | enqueue tmp hpc hf hadd =>
    rw [hpc] at hp
    obtain ⟨σ', hadd', hplaced, htree, -⟩ := hp.placed.add hp.currentLive hf
    rw [hadd] at hadd'
    cases hadd'
    exact ⟨hplaced, fun p hpt => h.resumes p (htree ▸ hpt), fun p hpd => htree ▸ h.deadGone p hpd⟩
  | @pick σ next hpc hget | @exitPick σ next hpc hget =>
    rw [hpc] at hp
    have htree : σ.tree = k.sched.tree := by rw [getNextProcess_frame hget]
    exact ⟨hp.next_eq hget, fun p hpt => h.resumes p (htree ▸ hpt), fun p hpd => htree ▸ h.deadGone p hpd⟩
  | @store σ next hpc hy =>
    rw [hpc] at hp
    have hne : next ≠ null := fun e => hp.placed.notNull (e ▸ hp.currentLive)
    rw [yield, if_pos hne] at hy
    cases hy
    exact ⟨hp, h.resumes, h.deadGone⟩
  | switch hpc =>
    rw [hpc] at hp
    exact ⟨(placedAt_of_quiet (h.resumes _ hp.currentLive)).mpr hp, h.resumes, h.deadGone⟩
  | exit hpc hid =>
    rw [hpc] at hp
    have hmem : ∀ x, x ∈ (processDelete k.sched k.sched.current).tree ↔ x ∈ k.sched.tree ∧ x ≠ k.sched.current := by
      intro x
      simp [processDelete]
    refine ⟨hp.placed.delete hp.currentLive hid, fun p hpt => h.resumes p ((hmem p).mp hpt).1, fun p hpd hpt => ?_⟩
    obtain ⟨hpt, hpc'⟩ := (hmem p).mp hpt
    rcases mem_cons.mp hpd with hpd | hpd
    · exact hpc' hpd
    · exact h.deadGone p hpd hpt
  | enable hpc | exitStore hpc =>
    rw [hpc] at hp
    exact ⟨hp, h.resumes, h.deadGone⟩
  | @create σ process pml4 tmp entry priority hpc hne hpt hf hc =>
    rw [hpc] at hp
    have hrun : some k.sched.current ≠ some process := by
      rintro ⟨⟩
      exact hpt hp.currentLive
    obtain ⟨σ', hc', hplaced, hcur, htree⟩ := hp.placed.create pml4 entry priority hne hpt hrun hf
    rw [hc] at hc'
    cases hc'
    refine ⟨?_, fun p hp' => ?_, fun p hpd => ?_⟩
    · rw [hpc]
      exact ⟨by rwa [hcur], by rw [hcur, htree]; exact mem_append_left _ hp.currentLive⟩
    · by_cases hpp : p = process
      · subst hpp
        simp [Pc.Quiet]
      · rw [htree, mem_append, mem_singleton, or_iff_left hpp] at hp'
        simpa [update_of_ne hpp] using h.resumes p hp'
    · obtain ⟨hpd, hpp⟩ := mem_filter.mp hpd
      rw [htree, mem_append, mem_singleton, or_iff_left (by simpa using hpp)]
      exact h.deadGone p hpd

/-! ## Whole runs -/

/-- Every kernel reached without a tick in the wrong place meets the invariant. -/
theorem KernelReachable.tracked (h : KernelReachable QuietTick k) : Tracked k := by
  induction h with
  | boot procs nodes idle shell pml4 kernelPml4 n1 n2 idleEntry entry hi hs hsi hn1 hn2 hn hb =>
    obtain ⟨σ', hb', h'⟩ := boot_conserved procs nodes pml4 kernelPml4 idleEntry entry hi hs hsi hn1 hn2 hn
    rw [hb] at hb'
    cases hb'
    exact ⟨h', fun _ _ => .inl rfl, fun p hp => absurd hp not_mem_nil⟩
  | step _ hl hs ih => exact ih.step hl hs

/-- At no place is a process queued that is not live. -/
theorem PlacedAt.live_of_ready {pc : Pc} (h : PlacedAt σ pc) (hp : p ∈ σ.ready i) : p ∈ σ.tree := by
  cases pc with
  | program | switching | tickSaved | exitPicked next | tickPicked next => exact (h.placed.queued i p hp).1
  | tickStart stack interrupted => exact (h.1.placed.queued i p hp).1
  | exitDeleted | exitEnabled | tickQueued => exact (Placed.queued h i p hp).1

/-- A terminated process never runs again, when no tick is taken between the `__STI` of `sys_exit` and the store of the new
current process, nor inside the timer handler before its store: it is in no ready queue, and no step saves a context into it,
queues it or chooses it. -/
theorem terminated_never_runs {k k' : Kernel} {l : Label} (h : KernelReachable QuietTick k) (hs : KernelStep k l k') {p : Nat}
    (hp : p ∈ k.dead) : (∀ i, p ∉ k.sched.ready i) ∧ l ≠ .saved p ∧ l ≠ .enqueued p ∧ l ≠ .chosen p := by
  have ht := h.tracked
  have hgone := ht.deadGone p hp
  have hplaced := ht.placed
  refine ⟨fun i hi => hgone (hplaced.live_of_ready hi), ?_⟩
  suffices hlive : ∀ q, l = .saved q ∨ l = .enqueued q ∨ l = .chosen q → q ∈ k.sched.tree by
    refine ⟨fun e => ?_, fun e => ?_, fun e => ?_⟩
    · exact hgone (hlive p (Or.inl e))
    · exact hgone (hlive p (Or.inr (Or.inl e)))
    · exact hgone (hlive p (Or.inr (Or.inr e)))
  intro q hq
  cases hs with
  | save hpc _ =>
    rw [hpc] at hplaced
    rcases hq with hq | hq | hq <;> cases hq
    exact hplaced.1.currentLive
  | enqueue tmp hpc _ _ =>
    rw [hpc] at hplaced
    rcases hq with hq | hq | hq <;> cases hq
    exact hplaced.currentLive
  | @store σ next hpc hy =>
    rw [hpc] at hplaced
    have hne : next ≠ null := fun e => hplaced.placed.notNull (e ▸ hplaced.currentLive)
    rw [yield, if_pos hne] at hy
    cases hy
    rcases hq with hq | hq | hq <;> cases hq
    exact hplaced.currentLive
  | exitStore hpc =>
    rw [hpc] at hplaced
    rcases hq with hq | hq | hq <;> cases hq
    exact hplaced.currentLive
  | _ => rcases hq with hq | hq | hq <;> cases hq

/-- The booted kernel at the first switch, which no step has left yet. -/
theorem bootKernel_reachable (allowed : Kernel → Label → Prop) (hσ : bootExample = .ok σ) : KernelReachable allowed (bootKernel σ) :=
  .boot _ _ 1 2 0x3000 0x2000 3 4 0x100000 0x400000 (by decide) (by decide) (by decide) (by decide) (by decide) (by decide) hσ

/-- The shell exits without a tick: the idle process is chosen, and the shell is in no queue. -/
theorem terminated_never_runs_shell : ∃ k k', KernelReachable QuietTick k ∧ KernelStep k (.chosen 1) k' ∧ 2 ∈ k.dead ∧
    ∀ i, 2 ∉ k.sched.ready i := by
  obtain ⟨σ, hσ⟩ : ∃ σ, bootExample = .ok σ := ⟨_, rfl⟩
  have hid : (σ.procs σ.current).id ≠ rootPid := by
    cases hσ
    decide
  have hother : ∀ k, QuietTick k .other := fun _ h => nomatch h
  have hrun := (bootKernel_reachable QuietTick hσ).step (hother _) (.switch rfl)
  have hexit := hrun.step (hother _) (.exit rfl hid)
  have henabled := hexit.step (hother _) (.enable rfl)
  cases hσ
  have hpicked := henabled.step (hother _) (.exitPick rfl rfl)
  exact ⟨_, _, hpicked, .exitStore rfl, by decide, (terminated_never_runs hpicked (.exitStore rfl) (by decide)).1⟩

/-! ## A tick after `__STI` -/

theorem storeStep {next : Nat} (hpc : k.pc = .tickPicked next) (hne : next ≠ null) :
    KernelStep k (.chosen next) { k with sched := { k.sched with current := next }, pc := .switching } := by
  have hy : yield k.sched next = .ok { k.sched with current := next } := by
    rw [yield, if_pos hne]
    rfl
  exact .store hpc hy

/-- The shell exits, and a tick is taken after the `__STI` of `sys_exit`: the handler saves the interrupted registers into the
deleted process, queues it, and chooses it as the next process to run. -/
theorem terminated_runs_again : ∃ k1, KernelReachable (fun _ _ => True) k1 ∧ 2 ∈ k1.dead ∧
    ∃ k2, KernelStep k1 (.saved 2) k2 ∧ 2 ∈ k2.dead ∧ ∃ k3, KernelStep k2 (.enqueued 2) k3 ∧ 2 ∈ k3.dead ∧
      ∃ k4, KernelStep k3 .other k4 ∧ 2 ∈ k4.dead ∧ ∃ k5, KernelStep k4 (.chosen 2) k5 := by
  obtain ⟨σ, hσ⟩ : ∃ σ, bootExample = .ok σ := ⟨_, rfl⟩
  have hid : (σ.procs σ.current).id ≠ rootPid := by
    cases hσ
    decide
  have hrun := (bootKernel_reachable (fun _ _ => True) hσ).step trivial (.switch rfl)
  have hexit := hrun.step trivial (.exit rfl hid)
  have henabled := hexit.step trivial (.enable rfl)
  have htick := henabled.step trivial (.tick (exampleFrame 100) rfl)
  refine ⟨_, htick, ?_⟩
  cases hσ
  refine ⟨by decide, _, .save rfl (by decide), by decide, ?_⟩
  refine ⟨_, .enqueue 9 rfl ⟨by decide, fun i => ?_⟩ rfl, by decide, ?_⟩
  · cases i <;> decide
  · exact ⟨_, .pick rfl rfl, by decide, _, storeStep rfl (by decide)⟩

end OmegaOS
