import Mathlib.Data.List.Infix
import OmegaOS.Lemmas.Queue
import OmegaOS.Lib.Runs

/-!
# The queue as a sequence

A queue is to be a list: enqueueing appends, dequeueing takes the head, removing erases the first occurrence. `queue_remove` keeps the
rear pointer and leaves by the end of its loop with the lock held, so a run follows the list exactly as long as no call removes the last
element or an element that is not there.
-/

namespace OmegaOS

open Runs List

/-- What is called, with the node that `kmalloc` gives an enqueue. Between the calls other code writes to the memory that is no node of
the queue. -/
inductive QueueCall where
  | enqueue (tmp data : Nat)
  | dequeue
  | remove (data : Nat)
  | other (heap : Nodes)

/-- A queue and the memory of its nodes. -/
structure QueueState where
  nodes : Nodes
  queue : Queue

/-- The call, with what it returns. -/
def QueueCall.run (s : QueueState) : QueueCall → Except Halt (Option Nat × QueueState)
  | .enqueue tmp data => do
    let (nodes, queue) ← queueEnqueue s.nodes s.queue tmp data
    return (none, ⟨nodes, queue⟩)
  | .dequeue => do
    let (ret, queue) ← queueDeqeueue s.nodes s.queue
    return (some ret, ⟨s.nodes, queue⟩)
  | .remove data => do
    let (nodes, queue) ← queueRemove s.nodes s.queue data
    return (none, ⟨nodes, queue⟩)
  | .other heap => .ok (none, ⟨fun a => if a ∈ queueNodes s.nodes s.queue then s.nodes a else heap a, s.queue⟩)

/-- The call on the list that the queue stands for. -/
def QueueCall.spec (l : List Nat) : QueueCall → Option Nat × List Nat
  | .enqueue _ data => (none, l ++ [data])
  | .dequeue => (some (l.headD null), l.tail)
  | .remove data => (none, l.erase data)
  | .other _ => (none, l)

/-- The queue is unlocked and its cells, from the front to the rear, hold the list. -/
def Represents (s : QueueState) (l : List Nat) : Prop := ∃ as, Holds s.nodes s.queue as ∧ dataOf s.nodes as = l

/-- `kmalloc` returns memory that is no node of the queue. -/
def QueueCall.Fresh (s : QueueState) (_ : List Nat) (c : QueueCall) : Prop :=
  ∀ tmp data, c = .enqueue tmp data → tmp ≠ null ∧ tmp ∉ queueNodes s.nodes s.queue

/-- What is removed is in the list, and not only at its end. -/
def QueueCall.InFront (l : List Nat) (c : QueueCall) : Prop := ∀ data, c = .remove data → data ∈ l.dropLast

variable {s : QueueState} {l : List Nat} {tmp data : Nat} {m : Nodes}

theorem Represents.enqueue (h : Represents s l) (data : Nat) (hne : tmp ≠ null) (hfresh : tmp ∉ queueNodes s.nodes s.queue) :
    ∃ s', QueueCall.run s (.enqueue tmp data) = .ok (none, s') ∧ Represents s' (l ++ [data]) := by
  obtain ⟨as, hholds, rfl⟩ := h
  rw [hholds.queueNodes_eq] at hfresh
  obtain ⟨m', q', hrun, hholds', hdata, -⟩ := queueEnqueue_holds data hholds hne hfresh
  exact ⟨⟨m', q'⟩, by rw [QueueCall.run, hrun]; rfl, _, hholds', hdata⟩

theorem Represents.dequeue (h : Represents s l) :
    ∃ s', QueueCall.run s .dequeue = .ok (some (l.headD null), s') ∧ Represents s' l.tail := by
  obtain ⟨as, hholds, rfl⟩ := h
  cases as with
  | nil =>
    have hcount : s.queue.count = 0 := hholds.count
    refine ⟨s, ?_, [], hholds, rfl⟩
    rw [QueueCall.run, queueDeqeueue, if_pos hcount]
    rfl
  | cons a as =>
    obtain ⟨q', hrun, hholds'⟩ := queueDeqeueue_holds hholds
    exact ⟨⟨s.nodes, q'⟩, by rw [QueueCall.run, hrun]; rfl, as, hholds', rfl⟩

theorem Represents.other (h : Represents s l) (heap : Nodes) : ∃ s', QueueCall.run s (.other heap) = .ok (none, s') ∧ Represents s' l := by
  obtain ⟨as, hholds, rfl⟩ := h
  have hsame : ∀ x ∈ as, (if x ∈ queueNodes s.nodes s.queue then s.nodes x else heap x) = s.nodes x := by
    intro x hx
    rw [hholds.queueNodes_eq, if_pos hx]
  exact ⟨_, rfl, as, hholds.congr hsame, dataOf_congr hsame⟩

/-- A list with the data in it, cut at the first node that holds it. -/
theorem exists_first {as : List Nat} (h : data ∈ dataOf m as) : ∃ xs t ys, as = xs ++ t :: ys ∧ (m t).data = data ∧ data ∉ dataOf m xs := by
  induction as with
  | nil => cases h
  | cons a as ih =>
    by_cases ha : (m a).data = data
    · exact ⟨[], a, as, rfl, ha, not_mem_nil⟩
    · obtain ⟨xs, t, ys, rfl, ht, hno⟩ := ih ((mem_cons.mp h).resolve_left fun he => ha he.symm)
      refine ⟨a :: xs, t, ys, rfl, ht, fun hmem => ?_⟩
      exact (mem_cons.mp hmem).elim (fun he => ha he.symm) hno

theorem erase_dataOf {xs ys : List Nat} (hno : (m t).data ∉ dataOf m xs) :
    (dataOf m (xs ++ t :: ys)).erase (m t).data = dataOf m (xs ++ ys) := by
  simp only [dataOf, map_append, map_cons] at hno ⊢
  rw [erase_append_right _ hno, erase_cons_head]

/-- `queue_remove` does its work exactly on what is in front of the last element. -/
theorem Represents.remove_iff (h : Represents s l) (data : Nat) :
    (∃ s', QueueCall.run s (.remove data) = .ok (none, s') ∧ Represents s' (l.erase data)) ↔ data ∈ l.dropLast := by
  obtain ⟨as, hholds, rfl⟩ := h
  by_cases hmem : data ∈ dataOf s.nodes as
  · obtain ⟨xs, t, ys, rfl, rfl, hno⟩ := exists_first hmem
    obtain ⟨m', q', hrun, hchain, hrear, hcount, hlock, hdata⟩ := queueRemove_chain hholds hno
    have hrun' : QueueCall.run s (.remove (s.nodes t).data) = .ok (none, ⟨m', q'⟩) := by
      rw [QueueCall.run, hrun]
      rfl
    have hnodup : (xs ++ ys).Nodup := hholds.nodup.sublist (List.Sublist.append_left (sublist_cons_self t ys) xs)
    have hlast := hrear.trans hholds.rear
    have hlen := hholds.count
    rw [length_append, length_cons] at hlen
    rw [erase_dataOf hno]
    rcases eq_nil_or_concat' ys with rfl | ⟨ys', b, rfl⟩
    · -- the last cell is gone and the rear still points to it
      refine iff_of_false ?_ ?_
      · rintro ⟨s', hs', as', hholds', -⟩
        rw [hrun'] at hs'
        cases hs'
        have has : as' = xs ++ [] := hholds'.chain.unique hchain
        have hend : q'.rear = xs.getLastD null := by
          rw [← append_nil xs, ← has]
          exact hholds'.rear
        have ht : t = xs.getLastD null := by
          rw [← hend, hlast]
          simp
        rcases eq_nil_or_concat' xs with rfl | ⟨init, p, rfl⟩
        · exact (hholds.chain.ne_null t (by simp)) ht
        · have htp : t = p := by simpa using ht
          exact (nodup_append.mp hholds.nodup).2.2 p (by simp) t (by simp) htp.symm
      · rwa [dataOf, map_append, map_singleton, dropLast_concat]
    · refine iff_of_true ⟨⟨m', q'⟩, hrun', xs ++ (ys' ++ [b]), ⟨hchain, hnodup, ?_, ?_, hlock⟩, ?_⟩ ?_
      · rw [hlast, ← append_assoc, ← cons_append, ← append_assoc, getLastD_concat, getLastD_concat]
      · show q'.count = _
        rw [length_append]
        omega
      · exact map_congr_left fun x _ => hdata x
      · rw [dataOf, ← cons_append, ← append_assoc, map_append, map_singleton, dropLast_concat, map_append]
        exact mem_append_right _ mem_cons_self
  · -- the loop ends and the lock is held
    have hfind : queueFind s.nodes data s.queue.count s.queue.front null = none := by
      rw [hholds.count]
      exact queueFind_none hholds.chain hmem
    refine iff_of_false ?_ fun h => hmem (mem_of_mem_dropLast h)
    rintro ⟨s', hs', as', hholds', -⟩
    rw [QueueCall.run, queueRemove, hholds.unlocked, hfind] at hs'
    cases hs'
    exact absurd hholds'.unlocked (by simp)

theorem Represents.run_iff (h : Represents s l) (c : QueueCall) (hfresh : c.Fresh s l) :
    (∃ s', QueueCall.run s c = .ok ((c.spec l).1, s') ∧ Represents s' (c.spec l).2) ↔ c.InFront l := by
  cases c with
  | enqueue tmp data =>
    obtain ⟨hne, hnot⟩ := hfresh tmp data rfl
    exact iff_of_true (h.enqueue data hne hnot) fun _ he => by cases he
  | dequeue => exact iff_of_true h.dequeue fun _ he => by cases he
  | remove data =>
    refine (h.remove_iff data).trans ⟨fun hmem _ he => ?_, fun hfront => hfront data rfl⟩
    cases he
    exact hmem
  | other heap => exact iff_of_true (h.other heap) fun _ he => by cases he

/-- A run from `queue_create` in which every `kmalloc` succeeds follows the list exactly when every call to `queue_remove` is for an
element that is in the list, and not only at its end. -/
theorem queueRun_follows_iff (m : Nodes) {cs : List QueueCall}
    (halloc : Along QueueCall.run QueueCall.spec QueueCall.Fresh ⟨m, queueCreate⟩ [] cs) :
    Follows QueueCall.run QueueCall.spec Represents ⟨m, queueCreate⟩ [] cs ↔ Throughout QueueCall.spec QueueCall.InFront [] cs :=
  follows_iff (fun _ _ c hrep hfresh => hrep.run_iff c hfresh) ⟨[], holds_queueCreate m, rfl⟩ halloc

/-! ## Two runs -/

theorem fresh_enqueue (hne : tmp ≠ null) (hnot : tmp ∉ queueNodes s.nodes s.queue) : QueueCall.Fresh s l (.enqueue tmp data) := by
  rintro _ _ ⟨⟩
  exact ⟨hne, hnot⟩

/-- Memory that holds nothing. -/
def emptyNodes : Nodes := fun _ => ⟨0, 0⟩

/-- Of two elements the first is removed. -/
theorem queueRun_follows_remove :
    Follows QueueCall.run QueueCall.spec Represents ⟨emptyNodes, queueCreate⟩ [] [.enqueue 16 5, .enqueue 32 6, .remove 5] := by
  refine (queueRun_follows_iff emptyNodes ?_).mpr ⟨?_, ?_, ?_, trivial⟩
  · refine Along.cons (fresh_enqueue (by decide) (by decide)) rfl (Along.cons (fresh_enqueue (by decide) (by decide)) rfl ?_)
    exact Along.cons (by rintro _ _ ⟨⟩) rfl trivial
  · rintro _ ⟨⟩
  · rintro _ ⟨⟩
  · rintro _ ⟨⟩
    decide

/-- The only element is removed: the queue is empty and its rear still points to the cell, which has been freed. A removal from an empty
queue does not give the lock back. -/
theorem queue_rear_stale :
    (∃ s, (QueueCall.run ⟨emptyNodes, queueCreate⟩ (.enqueue 16 5) >>= fun r => QueueCall.run r.2 (.remove 5)) = .ok (none, s) ∧
      s.queue = ⟨null, 16, 0, false⟩ ∧ ¬ Represents s []) ∧
    ∃ s, QueueCall.run ⟨emptyNodes, queueCreate⟩ (.remove 5) = .ok (none, s) ∧ s.queue = ⟨null, null, 0, true⟩ ∧
      ¬ Represents s [] ∧ QueueCall.run s (.enqueue 16 5) = .error .spin := by
  refine ⟨⟨_, rfl, rfl, ?_⟩, ⟨_, rfl, rfl, ?_, rfl⟩⟩
  · rintro ⟨as, hholds, hnil⟩
    rw [dataOf, List.map_eq_nil_iff] at hnil
    have hrear := hholds.rear
    rw [hnil] at hrear
    exact absurd hrear (by decide)
  · rintro ⟨as, hholds, -⟩
    exact absurd hholds.unlocked (by decide)

end OmegaOS
