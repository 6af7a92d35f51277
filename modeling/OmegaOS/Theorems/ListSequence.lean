import Mathlib.Data.List.InsertIdx
import Mathlib.Data.List.Perm.Subperm
import OmegaOS.Heap
import OmegaOS.Lemmas.Tree
import OmegaOS.Lib.Runs

/-!
# The list as a sequence

A list of `misc/list.c` is to be a sequence of nodes with their values. Every operation has cases for the empty list and for the first, the
last and a middle node, and all of them keep both directions of the links, the ends and the length.
-/

namespace OmegaOS

open Runs List Function

/-- What is called on a list, with the node that `kmalloc` gives an insertion. Between the calls other code writes to the memory that is not
the list's. -/
inductive ListCall where
  | insert (item node : Nat)
  | insertAfter (before item node : Nat)
  | delete (node : Nat)
  | pop
  | dequeue
  | findIndex (index : Nat)
  | other (heap : TreeHeap)

/-- What a call returns: nothing, an `int` or a node. -/
inductive ListResult where
  | nothing
  | position (i : Int)
  | node (n : Nat)
deriving DecidableEq

/-- The call. `list_insert` returns the length less one as an `int`. -/
def ListCall.run (list : Nat) (h : TreeHeap) : ListCall → Except Halt (ListResult × TreeHeap)
  | .insert item node =>
    let (i, h) := h.listInsert list item node
    .ok (.position (i.bmod (2 ^ 32)), h)
  | .insertAfter before item node => do
    let h ← h.listInsertAfter list before item node
    return (.nothing, h)
  | .delete node => do
    let h ← h.listDelete list node
    return (.nothing, h)
  | .pop => do
    let (n, h) ← h.listPop list
    return (.node n, h)
  | .dequeue => do
    let (n, h) ← h.listDequeue list
    return (.node n, h)
  | .findIndex index => do
    let n ← h.listFindIndex list index
    return (.node n, h)
  | .other heap => .ok (.nothing, { heap with
      cells := fun a => if a ∈ h.cellsOf list then h.cells a else heap.cells a
      lists := update heap.lists list (h.lists list) })

/-- The nodes of a sequence. -/
def nodesOf (l : List (Nat × Nat)) : List Nat := l.map Prod.fst

/-- The call on a sequence of nodes with their values. A node that is inserted after `NULL` becomes the first. -/
def ListCall.spec (l : List (Nat × Nat)) : ListCall → ListResult × List (Nat × Nat)
  | .insert item node => (.position l.length, l ++ [(node, item)])
  | .insertAfter before item node => (.nothing, l.insertIdx ((null :: nodesOf l).idxOf before) (node, item))
  | .delete node => (.nothing, l.eraseP fun p => p.1 = node)
  | .pop => (.node ((nodesOf l).getLastD null), l.dropLast)
  | .dequeue => (.node ((nodesOf l).headD null), l.tail)
  | .findIndex index => (.node ((nodesOf l).getD index null), l)
  | .other _ => (.nothing, l)

/-- `kmalloc` returns memory of the kernel heap that is no node of the list. -/
def NewNode (l : List (Nat × Nat)) (node : Nat) : Prop :=
  (kernelHeapStart ≤ node ∧ node < kernelHeapStart + kernelHeapSize) ∧ node ∉ nodesOf l

instance (l : List (Nat × Nat)) (node : Nat) : Decidable (NewNode l node) := inferInstanceAs (Decidable (_ ∧ _))

/-- The allocations succeed, `before` is `NULL` or a member, and a member is deleted. -/
def ListCall.Valid (l : List (Nat × Nat)) : ListCall → Prop
  | .insert _ node => NewNode l node
  | .insertAfter before _ node => before ∈ null :: nodesOf l ∧ NewNode l node
  | .delete node => node ∈ nodesOf l
  | _ => True

/-- A well-formed list with these nodes and values: the ends are `NULL` together, `next` leads from the head over the nodes, `prev` is its
inverse, the first node has no `prev` and the last one no `next`. -/
structure ShowsList (list : Nat) (h : TreeHeap) (l : List (Nat × Nat)) : Prop where
  nodes : h.cellsOf list = nodesOf l
  values : ∀ p ∈ l, (h.cells p.1).value = p.2
  ends : (h.lists list).head = null ↔ (h.lists list).tail = null
  inverse : ∀ a ∈ nodesOf l, ∀ b ∈ nodesOf l, (h.cells a).next = b ↔ (h.cells b).prev = a
  first : ∀ a ∈ nodesOf l, a = (h.lists list).head ↔ (h.cells a).prev = null
  last : ∀ a ∈ nodesOf l, a = (h.lists list).tail ↔ (h.cells a).next = null
  length : (h.lists list).length = l.length

/-- What the calls keep: the nodes are a ring through `NULL`, and memory of the kernel heap. -/
structure HoldsList (list : Nat) (h : TreeHeap) (l : List (Nat × Nat)) : Prop where
  ok : ListOk h list (nodesOf l)
  values : ∀ p ∈ l, (h.cells p.1).value = p.2
  inHeap : ∀ a ∈ nodesOf l, kernelHeapStart ≤ a ∧ a < kernelHeapStart + kernelHeapSize

variable {h : TreeHeap} {list node item : Nat} {l : List (Nat × Nat)}

theorem HoldsList.shows (hl : HoldsList list h l) : ShowsList list h l := by
  refine ⟨hl.ok.cellsOf_eq, hl.values, hl.ok.head_eq_null, fun a ha b hb => ?_, fun a => hl.ok.head_eq_iff, fun a => hl.ok.tail_eq_iff, ?_⟩
  · have hlink := hl.ok.next_eq_iff (.tail null ha) (.tail null hb)
    simpa only [TreeHeap.around, if_neg (hl.ok.ne_null ha), if_neg (hl.ok.ne_null hb)] using hlink
  · rw [hl.ok.length, nodesOf, length_map]

/-- The kernel heap has memory for fewer nodes than an `int` can count. -/
theorem HoldsList.length_lt (hl : HoldsList list h l) : l.length < 2 ^ 31 := by
  have hsub : nodesOf l ⊆ range' kernelHeapStart kernelHeapSize := fun a ha => mem_range'_1.mpr (hl.inHeap a ha)
  have hle := ((nodup_cons.mp hl.ok.nodup).2.subperm hsub).length_le
  rw [nodesOf, length_map, length_range'] at hle
  exact Nat.lt_of_le_of_lt hle (by decide)

theorem NewNode.ne_null (ha : NewNode l node) : node ≠ null := by
  rintro rfl
  exact absurd ha.1.1 (by decide)

/-! ## One call -/

/-- Insertion at the end. -/
theorem HoldsList.insert (hl : HoldsList list h l) (item : Nat) (ha : NewNode l node) :
    ∃ h', ListCall.run list h (.insert item node) = .ok (.position l.length, h') ∧ HoldsList list h' (l ++ [(node, item)]) := by
  have hins := hl.ok.listInsert item ha.ne_null ha.2
  have hnodes : nodesOf (l ++ [(node, item)]) = nodesOf l ++ [node] := by simp [nodesOf]
  have hposition : (h.listInsert list item node).1 = l.length := by
    have hlength := hins.ok.length
    rw [length_append, nodesOf, length_map, length_singleton] at hlength
    have hreturn : (h.listInsert list item node).1 = ((h.listInsert list item node).2.lists list).length - 1 := by
      rw [TreeHeap.listInsert, if_neg ha.ne_null]
    omega
  have hlt := hl.length_lt
  refine ⟨_, ?_, by rw [hnodes]; exact hins.ok, fun p hp => ?_, fun a hmem => ?_⟩
  · rw [← Int.bmod_eq_of_le (n := l.length) (m := 2 ^ 32) (by omega) (by omega), ← hposition]
    rfl
  · rcases mem_append.mp hp with hp | hp
    · rw [hins.values p.1 fun he => ha.2 (he ▸ mem_map_of_mem hp)]
      exact hl.values p hp
    · rw [mem_singleton.mp hp]
      exact hins.value
  · rw [hnodes] at hmem
    rcases mem_append.mp hmem with hmem | hmem
    · exact hl.inHeap a hmem
    · rw [mem_singleton.mp hmem]
      exact ha.1

/-- Insertion behind a node. -/
theorem HoldsList.insertAfter {before : Nat} (hl : HoldsList list h l) (item : Nat) (hbefore : before ∈ null :: nodesOf l)
    (ha : NewNode l node) : ∃ h', ListCall.run list h (.insertAfter before item node) = .ok (.nothing, h') ∧
      HoldsList list h' (l.insertIdx ((null :: nodesOf l).idxOf before) (node, item)) := by
  obtain ⟨xs, ys, hsplit⟩ := append_of_mem hbefore
  have hindex : (null :: nodesOf l).idxOf before = xs.length := by
    have hnodup := hl.ok.nodup
    rw [hsplit] at hnodup ⊢
    rw [idxOf_append_of_notMem fun hmem => (nodup_append.mp hnodup).2.2 before hmem before mem_cons_self rfl, idxOf_cons_self, add_zero]
  obtain ⟨h', hrun, hok, hvalues⟩ := hl.ok.listInsertAfter hsplit item ha.ne_null ha.2
  have hnodes : nodesOf (l.insertIdx xs.length (node, item)) = (nodesOf l).insertIdx xs.length node := map_insertIdx ..
  rw [hindex]
  refine ⟨h', by rw [ListCall.run, hrun]; rfl, by rwa [hnodes], fun p hp => ?_, fun a hmem => ?_⟩
  · rw [hvalues]
    rcases eq_or_mem_of_mem_insertIdx hp with rfl | hp
    · exact if_pos rfl
    · have hne : p.1 ≠ node := fun he => ha.2 (he ▸ mem_map_of_mem hp)
      rw [if_neg hne]
      exact hl.values p hp
  · rw [hnodes] at hmem
    rcases eq_or_mem_of_mem_insertIdx hmem with rfl | hmem
    · exact ha.1
    · exact hl.inHeap a hmem

theorem HoldsList.listDelete {xs ys : List (Nat × Nat)} (hl : HoldsList list h (xs ++ p :: ys)) :
    ∃ h', h.listDelete list p.1 = .ok h' ∧ HoldsList list h' (xs ++ ys) := by
  have hok := hl.ok
  rw [nodesOf, map_append, map_cons] at hok
  obtain ⟨h', hrun, hdel⟩ := hok.listDelete
  have hsub : xs ++ ys ⊆ xs ++ p :: ys := (List.Sublist.append_left (sublist_cons_self p ys) xs).subset
  refine ⟨h', hrun, ?_, fun q hq => ?_, fun a ha => hl.inHeap a (map_subset _ hsub ha)⟩
  · rw [nodesOf, map_append]
    exact hdel.ok
  · rw [hdel.values]
    exact hl.values q (hsub hq)

section

variable (hl : HoldsList list h l)

include hl

theorem HoldsList.delete (hmem : node ∈ nodesOf l) :
    ∃ h', ListCall.run list h (.delete node) = .ok (.nothing, h') ∧ HoldsList list h' (l.eraseP fun p => p.1 = node) := by
  obtain ⟨p, hp, rfl⟩ := mem_map.mp hmem
  obtain ⟨xs, ys, rfl⟩ := append_of_mem hp
  have hno : ∀ q ∈ xs, ¬ (decide (q.1 = p.1)) = true := by
    intro q hq he
    have hnodup := (nodup_cons.mp hl.ok.nodup).2
    rw [nodesOf, map_append, map_cons] at hnodup
    exact (nodup_append.mp hnodup).2.2 q.1 (mem_map_of_mem hq) p.1 mem_cons_self (of_decide_eq_true he)
  obtain ⟨h', hrun, hheld⟩ := hl.listDelete
  rw [eraseP_append_right _ hno, eraseP_cons_of_pos (by simp)]
  exact ⟨h', by rw [ListCall.run, hrun]; rfl, hheld⟩

theorem HoldsList.pop : ∃ h', ListCall.run list h .pop = .ok (.node ((nodesOf l).getLastD null), h') ∧ HoldsList list h' l.dropLast := by
  have htail := hl.ok.ends.2
  rcases eq_nil_or_concat' l with rfl | ⟨init, p, rfl⟩
  · refine ⟨h, ?_, hl⟩
    rw [ListCall.run, TreeHeap.listPop, htail]
    rfl
  · obtain ⟨h', hrun, hheld⟩ := hl.listDelete
    have hp : (nodesOf (init ++ [p])).getLastD null = p.1 := by simp [nodesOf]
    have hne : p.1 ≠ null := hl.ok.ne_null (mem_map_of_mem (by simp))
    rw [hp] at htail ⊢
    rw [dropLast_concat]
    rw [append_nil] at hheld
    refine ⟨h', ?_, hheld⟩
    rw [ListCall.run, TreeHeap.listPop, htail, if_neg hne, hrun]
    rfl

theorem HoldsList.dequeue : ∃ h', ListCall.run list h .dequeue = .ok (.node ((nodesOf l).headD null), h') ∧ HoldsList list h' l.tail := by
  cases l with
  | nil =>
    have hhead := hl.ok.ends.1
    refine ⟨h, ?_, hl⟩
    rw [ListCall.run, TreeHeap.listDequeue, hhead]
    rfl
  | cons p l =>
    have hhead : (h.lists list).head = p.1 := hl.ok.ends.1
    have hne : p.1 ≠ null := hl.ok.ne_null (mem_map_of_mem mem_cons_self)
    obtain ⟨h', hrun, hheld⟩ := (show HoldsList list h ([] ++ p :: l) from hl).listDelete
    refine ⟨h', ?_, hheld⟩
    rw [ListCall.run, TreeHeap.listDequeue, hhead, if_neg hne, hrun]
    rfl

theorem HoldsList.other (heap : TreeHeap) : ∃ h', ListCall.run list h (.other heap) = .ok (.nothing, h') ∧ HoldsList list h' l := by
  have hsame : ∀ a ∈ nodesOf l, (if a ∈ h.cellsOf list then h.cells a else heap.cells a) = h.cells a := by
    intro a ha
    rw [hl.ok.cellsOf_eq, if_pos ha]
  refine ⟨_, rfl, hl.ok.congr (update_self ..) hsame, fun p hp => ?_, hl.inHeap⟩
  exact (congrArg ListNode.value (hsame p.1 (mem_map_of_mem hp))).trans (hl.values p hp)

theorem HoldsList.run (c : ListCall) (hc : c.Valid l) :
    ∃ h', ListCall.run list h c = .ok ((c.spec l).1, h') ∧ HoldsList list h' (c.spec l).2 := by
  cases c with
  | insert item node => exact hl.insert item hc
  | insertAfter before item node => exact hl.insertAfter item hc.1 hc.2
  | delete node => exact hl.delete hc
  | pop => exact hl.pop
  | dequeue => exact hl.dequeue
  | findIndex index =>
    refine ⟨h, ?_, hl⟩
    rw [ListCall.run, hl.ok.listFindIndex]
    rfl
  | other heap => exact hl.other heap

end

/-! ## Runs -/

/-- Every run of calls on a list from `list_create` follows the sequence of its nodes and values: the list is well formed in every state,
and every call returns what it returns on the sequence. `list_find_index` returns the node of the index, and `NULL` for an index that is
not below the length. -/
theorem listRun_follows (h : TreeHeap) (list : Nat) {cs : List ListCall} (hvalid : Throughout ListCall.spec ListCall.Valid [] cs) :
    Follows (ListCall.run list) ListCall.spec (ShowsList list) (h.listCreate list) [] cs :=
  Follows.of_invariant (fun _ _ => HoldsList.shows) (fun _ _ c hl hc => hl.run c hc)
    ⟨listOk_nil (update_self ..), nofun, nofun⟩ hvalid

/-- Three nodes, one of them in front of the others and one in the middle, are found and taken out again. -/
theorem listRun_follows_three : Follows (ListCall.run 200) ListCall.spec (ShowsList 200) (emptyTreeHeap.listCreate 200) []
    [.insert 5 (kernelHeapStart + 64), .insertAfter null 6 (kernelHeapStart + 128),
      .insertAfter (kernelHeapStart + 128) 7 (kernelHeapStart + 192), .findIndex 2, .findIndex 3, .delete (kernelHeapStart + 192), .pop,
      .dequeue, .dequeue] := by
  refine listRun_follows emptyTreeHeap 200 ⟨?_, ⟨?_, ?_⟩, ⟨?_, ?_⟩, trivial, trivial, ?_, trivial, trivial, trivial, trivial⟩
  · show NewNode _ _
    decide
  · decide
  · decide
  · decide
  · decide
  · show _ ∈ nodesOf _
    decide

end OmegaOS
