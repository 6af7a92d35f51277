import Mathlib.Data.List.Rotate
import OmegaOS.Theorems.Preemption

/-!
# Round robin among the processes of the highest priority

The running process and the ready queue of its priority, in this order, are a list that a timer tick rotates by one place: `dispatch`
puts the running process at the rear, and `getNextProcess` takes the front. The other queues stay as they are.
-/

namespace OmegaOS

open X86 List

variable {rest : List (Nat × InterruptStack)}

variable {σ σ' : Sched} {l : List Nat} {tmp : Nat}

/-- The running process, then the processes of its priority that are ready, the next one first. -/
def Sched.turn (σ : Sched) : List Nat := σ.current :: σ.ready (σ.procs σ.current).priority

/-- No ready process has a higher priority than the running one. -/
def Sched.RunsHighest (σ : Sched) : Prop := ∀ i, σ.ready i ≠ [] → i.value ≤ (σ.procs σ.current).priority.value

/-- Each tick of a sequence gets a queue node from `kmalloc` that no queue holds then. -/
def FreshTicks (σ : Sched) : List (Nat × InterruptStack) → Prop
  | [] => True
  | (tmp, stack) :: rest => FreshNode σ tmp ∧ ∀ σ', timerInterrupt σ tmp stack = .ok σ' → FreshTicks σ' rest

/-- The process that runs after the first `j` ticks, if they return. -/
def runningAfter (σ : Sched) (rest : List (Nat × InterruptStack)) (j : Nat) : Option Nat := (ticks σ (rest.take j)).toOption.map (·.current)

/-! ## One tick -/

/-- Processes of the highest priority take turns in the order `l`. -/
structure Turns (σ : Sched) (l : List Nat) : Prop where
  conserved : Conserved σ
  highest : σ.RunsHighest
  order : σ.turn = l

theorem Turns.ne_null (h : Turns σ l) : σ.current ≠ null := fun e => h.conserved.placed.notNull (e ▸ h.conserved.currentLive)

/-- A tick turns the order by one. -/
theorem Turns.tick (h : Turns σ l) (hf : FreshNode σ tmp) (stack : InterruptStack) :
    ∃ σ', timerInterrupt σ tmp stack = .ok σ' ∧ Turns σ' (l.rotate 1) := by
  generalize hk : (σ.procs σ.current).priority = k
  have hs := h.conserved.saveContext stack
  have hsaved : ((saveContext σ stack).procs σ.current).priority = k := (saveContext_procs σ stack σ.current).1.trans hk
  obtain ⟨σ1, hadd, hw1, hσ1, hready1, -⟩ := schedulerAdd_ok hs.placed.linked hf σ.current
  rw [hsaved] at hready1
  -- the running process is behind the others of its priority now
  have hrear : σ1.ready k = σ.ready k ++ [σ.current] := by
    rw [hready1, if_pos rfl]
    rfl
  have hothers : ∀ j, j ≠ k → σ1.ready j = σ.ready j := by
    intro j hj
    rw [hready1, if_neg hj]
    rfl
  have htop : ∀ j, σ1.ready j ≠ [] → j.value ≤ k.value := by
    intro j hj
    by_cases hjk : j = k
    · rw [hjk]
    · rw [hothers j hjk] at hj
      have hle := h.highest j hj
      rwa [hk] at hle
  obtain ⟨p, σ2, hget, -, hσ2, hfront, hrest⟩ := getNextProcess_top hw1 (by rw [hrear]; simp) htop
  obtain ⟨σ', hrun, hconserved⟩ := h.conserved.tick hf stack
  have hp : p ∈ σ1.ready k := by
    rw [hfront]
    exact mem_cons_self
  have hprocs : ∀ q, (σ2.procs q).priority = (σ.procs q).priority := by
    intro q
    rw [hσ2, hσ1]
    exact (saveContext_procs σ stack q).1
  have hpk : (σ.procs p).priority = k := by
    rw [hrear, mem_append, mem_singleton] at hp
    rcases hp with hp | rfl
    · exact (h.conserved.placed.queued k p hp).2
    · exact hk
  have hpne : p ≠ null := by
    rw [hrear, mem_append, mem_singleton] at hp
    rcases hp with hp | rfl
    · exact fun e => h.conserved.placed.notNull (e ▸ (h.conserved.placed.queued k p hp).1)
    · exact h.ne_null
  have hresult : timerInterrupt σ tmp stack = .ok { σ2 with current := p } := by
    rw [timerInterrupt, if_pos h.ne_null]
    refine bind_eq_ok.mpr ⟨(p, σ2), bind_eq_ok.mpr ⟨σ1, hadd, hget⟩, ?_⟩
    simp only [yield, if_pos hpne]
    rfl
  rw [hresult] at hrun
  cases hrun
  refine ⟨_, hresult, hconserved, ?_, ?_⟩
  · intro j hj
    rw [hprocs, hpk]
    by_cases hjk : j = k
    · rw [hjk]
    · exact htop j (by rwa [← hrest j hjk])
  · show p :: σ2.ready (σ2.procs p).priority = l.rotate 1
    simp [hprocs, hpk, ← hfront, hrear, ← h.order, Sched.turn, hk]

/-! ## Any number of ticks -/

theorem Turns.ticks (h : Turns σ l) (hfresh : FreshTicks σ rest) : ∃ σ', ticks σ rest = .ok σ' ∧ Turns σ' (l.rotate rest.length) := by
  induction rest generalizing σ l with
  | nil => exact ⟨σ, rfl, by simpa using h⟩
  | cons first rest ih =>
    obtain ⟨tmp, stack⟩ := first
    obtain ⟨hf, hlater⟩ := hfresh
    obtain ⟨σ1, htick, h1⟩ := h.tick hf stack
    obtain ⟨σ', hrun, h'⟩ := ih h1 (hlater σ1 htick)
    rw [rotate_rotate, add_comm] at h'
    exact ⟨σ', bind_eq_ok.mpr ⟨σ1, htick, hrun⟩, h'⟩

theorem FreshTicks.take (h : FreshTicks σ rest) (j : Nat) : FreshTicks σ (rest.take j) := by
  induction rest generalizing σ j with
  | nil => simpa using h
  | cons first rest ih =>
    cases j with
    | zero => trivial
    | succ j => exact ⟨h.1, fun σ' hrun => ih (h.2 σ' hrun) j⟩

theorem Turns.runningAfter (h : Turns σ l) (hfresh : FreshTicks σ rest)
    (hj : j ≤ rest.length) : runningAfter σ rest j = l[j % l.length]? := by
  obtain ⟨σ', hrun, h'⟩ := h.ticks (hfresh.take j)
  rw [length_take, Nat.min_eq_left hj, ← rotate_mod] at h'
  have hpos : 0 < l.length := by
    rw [← h.order]
    exact Nat.succ_pos _
  rw [OmegaOS.runningAfter, hrun, ← head?_rotate (Nat.mod_lt j hpos), ← h'.order]
  rfl

/-- The processes that take turns are those with the priority of the running one, each once. -/
theorem Conserved.mem_turn (h : Conserved σ) (p : Nat) : p ∈ σ.turn ↔ p ∈ σ.tree ∧ (σ.procs p).priority = (σ.procs σ.current).priority := by
  rw [Sched.turn, mem_cons]
  constructor
  · rintro (rfl | hp)
    · exact ⟨h.currentLive, rfl⟩
    · exact h.placed.queued _ p hp
  · rintro ⟨hlive, hpriority⟩
    by_cases hp : p = σ.current
    · exact .inl hp
    · have honce := h.placed.once p hlive
      rw [if_neg (by simpa using Ne.symm hp), hpriority] at honce
      exact .inr (count_pos_iff.mp (by omega))

theorem Conserved.nodup_turn (h : Conserved σ) : σ.turn.Nodup := by
  rw [Sched.turn, nodup_cons]
  have hcurrent := h.placed.once σ.current h.currentLive
  rw [if_pos rfl] at hcurrent
  refine ⟨count_eq_zero.mp hcurrent, nodup_iff_count_le_one.mpr fun p => ?_⟩
  by_cases hp : p ∈ σ.ready (σ.procs σ.current).priority
  · obtain ⟨hlive, hpriority⟩ := h.placed.queued _ p hp
    have honce := h.placed.once p hlive
    rw [hpriority] at honce
    rw [honce]
    split <;> omega
  · rw [count_eq_zero.mpr hp]
    omega

/-- As long as no process is created or exits, the processes of the highest priority run in turn: after `j` ticks the one with place `j`
in the order, counted around, and in a window of as many ticks as there are such processes each of them once. -/
theorem round_robin {rest : List (Nat × InterruptStack)} (h : Conserved σ) (hhighest : σ.RunsHighest) (hfresh : FreshTicks σ rest) :
    (∀ j ≤ rest.length, runningAfter σ rest j = σ.turn[j % σ.turn.length]?) ∧
      (∀ j, j + σ.turn.length ≤ rest.length + 1 →
        ((List.range σ.turn.length).map fun d => runningAfter σ rest (j + d)).Perm (σ.turn.map some)) ∧
      σ.turn.Nodup ∧ ∀ p, p ∈ σ.turn ↔ p ∈ σ.tree ∧ (σ.procs p).priority = (σ.procs σ.current).priority := by
  have hturns : Turns σ σ.turn := ⟨h, hhighest, rfl⟩
  refine ⟨fun j hj => hturns.runningAfter hfresh hj, fun j hj => ?_, h.nodup_turn, h.mem_turn⟩
  have hwindow : ((List.range σ.turn.length).map fun d => runningAfter σ rest (j + d)) = (σ.turn.rotate j).map some := by
    refine List.ext_getElem (by simp) fun d hd _ => ?_
    have hd : d < σ.turn.length := by simpa using hd
    have hin : (j + d) % σ.turn.length < σ.turn.length := Nat.mod_lt _ (by omega)
    rw [List.getElem_map, List.getElem_range, hturns.runningAfter hfresh (by omega), List.getElem_map, List.getElem_rotate,
      List.getElem?_eq_getElem hin]
    simp only [Nat.add_comm]
  rw [hwindow]
  exact (List.rotate_perm σ.turn j).map some

/-! ## Two interactive processes -/

theorem twoShells_conserved (hσ : twoShells = .ok σ) : Conserved σ := by
  obtain ⟨σ0, hboot, hcreate⟩ := bind_eq_ok.mp hσ
  have hreachable : SchedReachable σ0 := .boot (fun _ => createProcess 0 0 .idle 0 0 0 0 0) (fun _ => ⟨null, null⟩) 1 2 0x3000 0x2000 3 4
    0x100000 0x400000 (by decide) (by decide) (by decide) (by decide) (by decide) (by decide) hboot
  cases hboot
  exact (hreachable.step (.create 5 0x4000 6 0x500000 .interactive (by decide) (by decide)
    ⟨by decide, fun i => by cases i <;> decide⟩ hcreate)).conserved

/-- The shell and the second process take turns, and the idle process does not run. -/
theorem round_robin_twoShells : ∃ σ, twoShells = .ok σ ∧ σ.turn = [2, 5] ∧
    (∀ j ≤ 2, runningAfter σ [(7, exampleFrame 100), (8, exampleFrame 200)] j = [2, 5][j % 2]?) := by
  obtain ⟨σ, hσ⟩ : ∃ σ, twoShells = .ok σ := ⟨_, rfl⟩
  have hturn : σ.turn = [2, 5] := by
    cases hσ
    decide
  have hhighest : σ.RunsHighest := by
    intro i _
    cases hσ
    cases i <;> decide
  have hfresh : FreshTicks σ [(7, exampleFrame 100), (8, exampleFrame 200)] := by
    cases hσ
    refine ⟨⟨by decide, fun i => by cases i <;> decide⟩, fun σ₁ hrun => ?_⟩
    cases hrun
    exact ⟨⟨by decide, fun i => by cases i <;> decide⟩, fun _ _ => trivial⟩
  have hrun := (round_robin (twoShells_conserved hσ) hhighest hfresh).1
  rw [hturn] at hrun
  exact ⟨σ, hσ, hturn, hrun⟩

end OmegaOS
