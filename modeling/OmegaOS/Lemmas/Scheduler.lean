import Mathlib.Data.List.Lattice
import OmegaOS.Scheduler
import OmegaOS.Lemmas.Queue

/-!
# What the scheduler's functions do to the ready queues

One statement for each function: the ready queues as lists (`Sched.ready`) before and after, and what stays.
-/

namespace OmegaOS

open X86 List Function

/-- The four queues hold their nodes, and no node is in two queues. -/
structure WellLinked (σ : Sched) : Prop where
  holds : ∀ i, Holds σ.nodes (σ.queues i) (σ.readyNodes i)
  disjoint : ∀ i j, i ≠ j → (σ.readyNodes i).Disjoint (σ.readyNodes j)

/-- An address `kmalloc` can return for a queue node: not `NULL`, and no node of a queue. -/
def FreshNode (σ : Sched) (tmp : Nat) : Prop := tmp ≠ null ∧ ∀ i, tmp ∉ σ.readyNodes i

/-- Queues that hold given nodes, no node twice, are well linked, and their nodes are the given ones. -/
theorem wellLinked_of_holds {A : ProcessPriority → List Nat} (h : ∀ i, Holds σ.nodes (σ.queues i) (A i))
    (hd : ∀ i j, i ≠ j → (A i).Disjoint (A j)) : WellLinked σ ∧ ∀ i, σ.readyNodes i = A i := by
  have hA : ∀ i, σ.readyNodes i = A i := fun i => (h i).queueNodes_eq
  refine ⟨⟨fun i => ?_, fun i j hij => ?_⟩, hA⟩
  · rw [hA i]
    exact h i
  · rw [hA i, hA j]
    exact hd i j hij

/-- Enqueueing a process appends it to the queue of its priority. -/
theorem schedulerAdd_ok (h : WellLinked σ) {tmp : Nat} (hf : FreshNode σ tmp) (p : Nat) :
    ∃ σ', schedulerAdd σ tmp p = .ok σ' ∧ WellLinked σ' ∧ σ' = { σ with nodes := σ'.nodes, queues := σ'.queues } ∧
      (∀ i, σ'.ready i = if i = (σ.procs p).priority then σ.ready i ++ [p] else σ.ready i) ∧
      ∀ x, x ≠ tmp → FreshNode σ x → FreshNode σ' x := by
  generalize hk : (σ.procs p).priority = k
  obtain ⟨m', q', hq, hq', hdata, hout⟩ := queueEnqueue_holds p (h.holds k) hf.1 (hf.2 k)
  -- the new node is in no other queue, so the other queues keep their nodes
  have hkeep : ∀ i, i ≠ k → ∀ x ∈ σ.readyNodes i, m' x = σ.nodes x := by
    intro i hi x hx
    exact hout x (fun e => hf.2 i (e ▸ hx)) fun hxk => h.disjoint i k hi hx hxk
  let σ' : Sched := { σ with nodes := m', queues := update σ.queues k q' }
  have hadd : schedulerAdd σ tmp p = .ok σ' := by
    simp only [schedulerAdd, hk, hq]
    rfl
  let A : ProcessPriority → List Nat := fun i => if i = k then σ.readyNodes k ++ [tmp] else σ.readyNodes i
  have hA : ∀ i, Holds σ'.nodes (σ'.queues i) (A i) := by
    intro i
    by_cases hi : i = k
    · subst hi
      simpa [A, σ'] using hq'
    · simpa [A, σ', hi] using (h.holds i).congr (hkeep i hi)
  have hdis : ∀ i j, i ≠ j → (A i).Disjoint (A j) := by
    intro i j hij
    by_cases hi : i = k <;> by_cases hj : j = k
    · exact absurd (hi.trans hj.symm) hij
    · subst hi
      simpa [A, hj, disjoint_append_left] using ⟨h.disjoint i j hij, hf.2 j⟩
    · subst hj
      simpa [A, hi, disjoint_append_right] using ⟨h.disjoint i j hij, hf.2 i⟩
    · simpa [A, hi, hj] using h.disjoint i j hij
  obtain ⟨hw, hnodes⟩ := wellLinked_of_holds hA hdis
  refine ⟨σ', hadd, hw, rfl, fun i => ?_, fun x hx hfx => ⟨hfx.1, fun i => ?_⟩⟩
  · rw [Sched.ready, hnodes i]
    by_cases hi : i = k
    · subst hi
      simpa [A, Sched.ready] using hdata
    · simpa [A, hi, Sched.ready] using dataOf_congr (hkeep i hi)
  · rw [hnodes i]
    by_cases hi : i = k
    · subst hi
      simpa [A, hx] using hfx.2 i
    · simpa [A, hi] using hfx.2 i

/-- The search of `getNextProcess` takes the front process of the first nonempty queue. -/
theorem getNextProcessFrom_ok {σ : Sched} (h : WellLinked σ) (is : List ProcessPriority) (hne : ∃ i ∈ is, σ.ready i ≠ []) :
    ∃ i before after p σ', is = before ++ i :: after ∧ (∀ j ∈ before, σ.ready j = []) ∧ getNextProcessFrom σ is = .ok (p, σ') ∧
      WellLinked σ' ∧ σ' = { σ with queues := σ'.queues } ∧ σ.ready i = p :: σ'.ready i ∧ ∀ j, j ≠ i → σ'.ready j = σ.ready j := by
  induction is with
  | nil =>
    obtain ⟨i, hi, -⟩ := hne
    exact absurd hi not_mem_nil
  | cons k is ih =>
    have hcount : (σ.queues k).count = (σ.readyNodes k).length := (h.holds k).count
    rw [getNextProcessFrom]
    cases hk : σ.readyNodes k with
    | nil =>
      rw [if_neg (by rw [hcount, hk]; simp)]
      obtain ⟨i, hi, hin⟩ := hne
      have hik : i ∈ is := by
        rcases mem_cons.mp hi with rfl | hi
        · exact absurd (by rw [Sched.ready, hk]; rfl) hin
        · exact hi
      obtain ⟨i, before, after, p, σ', his, hempty, hrest⟩ := ih ⟨i, hik, hin⟩
      refine ⟨i, k :: before, after, p, σ', by rw [his]; rfl, ?_, hrest⟩
      intro j hj
      rcases mem_cons.mp hj with rfl | hj
      · rw [Sched.ready, hk]
        rfl
      · exact hempty j hj
    | cons a as =>
      rw [if_pos (by rw [hcount, hk]; simp)]
      have hh := h.holds k
      rw [hk] at hh
      obtain ⟨q', hq, hq'⟩ := queueDeqeueue_holds hh
      let σ' : Sched := { σ with queues := update σ.queues k q' }
      let A : ProcessPriority → List Nat := fun i => if i = k then as else σ.readyNodes i
      have hA : ∀ i, Holds σ'.nodes (σ'.queues i) (A i) := by
        intro i
        by_cases hi : i = k
        · subst hi
          simpa [A, σ'] using hq'
        · simpa [A, σ', hi] using h.holds i
      have hsub : ∀ i, A i ⊆ σ.readyNodes i := by
        intro i
        by_cases hi : i = k
        · subst hi
          simp [A, hk]
        · simp [A, hi]
      obtain ⟨hw, hnodes⟩ := wellLinked_of_holds hA fun i j hij x hx hx' => h.disjoint i j hij (hsub i hx) (hsub j hx')
      refine ⟨k, [], is, (σ.nodes a).data, σ', rfl, by simp, ?_, hw, rfl, ?_, fun j hj => ?_⟩
      · rw [hq]
        rfl
      · rw [Sched.ready, Sched.ready, hnodes k, hk]
        simp [A, dataOf, σ']
      · rw [Sched.ready, Sched.ready, hnodes j]
        simp [A, hj, σ']

/-- `getNextProcess` returns whenever some queue has a process. -/
theorem getNextProcess_ok (h : WellLinked σ) (hne : ∃ i, σ.ready i ≠ []) :
    ∃ i p σ', getNextProcess σ = .ok (p, σ') ∧ WellLinked σ' ∧ σ' = { σ with queues := σ'.queues } ∧
      σ.ready i = p :: σ'.ready i ∧ ∀ j, j ≠ i → σ'.ready j = σ.ready j := by
  obtain ⟨i, hi⟩ := hne
  have hmem : i ∈ ProcessPriority.descending := by cases i <;> decide
  obtain ⟨i, -, -, p, σ', -, -, hrest⟩ := getNextProcessFrom_ok h ProcessPriority.descending ⟨i, hmem, hi⟩
  exact ⟨i, p, σ', hrest⟩

/-- The search goes from the highest priority to the lowest. -/
theorem ProcessPriority.descending_pairwise : ProcessPriority.descending.Pairwise fun i j => j.value < i.value := by decide

/-- When no process has a higher priority than `i`, `getNextProcess` takes the front process of the queue `i`. -/
theorem getNextProcess_top (h : WellLinked σ) (hne : σ.ready i ≠ []) (htop : ∀ j, σ.ready j ≠ [] → j.value ≤ i.value) :
    ∃ p σ', getNextProcess σ = .ok (p, σ') ∧ WellLinked σ' ∧ σ' = { σ with queues := σ'.queues } ∧
      σ.ready i = p :: σ'.ready i ∧ ∀ j, j ≠ i → σ'.ready j = σ.ready j := by
  have hmem : i ∈ ProcessPriority.descending := by cases i <;> decide
  obtain ⟨k, before, after, p, σ', his, hempty, hget, hw, hσ', hk, hrest⟩ :=
    getNextProcessFrom_ok h ProcessPriority.descending ⟨i, hmem, hne⟩
  have hki : k = i := by
    have hsorted := ProcessPriority.descending_pairwise
    rw [his, pairwise_append, pairwise_cons] at hsorted
    rw [his, mem_append, mem_cons] at hmem
    rcases hmem with hbefore | heq | hafter
    · exact absurd (hempty i hbefore) hne
    · exact heq.symm
    · have hlt := hsorted.2.1.1 i hafter
      have hle := htop k (by rw [hk]; simp)
      omega
  subst hki
  exact ⟨p, σ', hget, hw, hσ', hk, hrest⟩

/-! ## What stays -/

theorem schedulerAdd_frame (h : schedulerAdd σ tmp p = .ok σ') : σ' = { σ with nodes := σ'.nodes, queues := σ'.queues } := by
  obtain ⟨⟨m, q⟩, -, hr⟩ := bind_eq_ok.mp h
  cases hr
  rfl

theorem getNextProcess_frame (h : getNextProcess σ = .ok (p, σ')) : σ' = { σ with queues := σ'.queues } := by
  unfold getNextProcess at h
  generalize ProcessPriority.descending = is at h
  induction is with
  | nil => cases h
  | cons i is ih =>
    rw [getNextProcessFrom] at h
    split at h
    · obtain ⟨⟨_, q⟩, -, hr⟩ := bind_eq_ok.mp h
      cases hr
      rfl
    · exact ih h

/-- Saving a context changes the context of the current process and nothing else. -/
theorem saveContext_procs (σ : Sched) (stack : InterruptStack) (p : Nat) : ((saveContext σ stack).procs p).priority = (σ.procs p).priority ∧
      ((saveContext σ stack).procs p).id = (σ.procs p).id := by
  by_cases hp : p = σ.current
  · subst hp
    simp [saveContext]
  · simp [saveContext, update_of_ne hp]

end OmegaOS
