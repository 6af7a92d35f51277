import OmegaOS.Lemmas.DList

/-!
# The lists of `g_freeChunks`

A list of free chunks is a ring of the nodes in their payloads and a pointer to the first chunk. Popping, removing and pushing
do to the chunks what the list operations do.
-/

namespace OmegaOS

open ByteMem Ring List Function

variable {l : List Nat} {c head n : Nat} {m : Mem} {hp : Heap}

/-- The node in the payload of a chunk, `&chunk->free`. -/
def freeNode (chunk : Nat) : Nat := chunk + headerSize

/-- The chunks of a free list, the first one at `head`. -/
structure FreeList (m : Mem) (head : Nat) (l : List Nat) : Prop where
  head : head = l.headD null
  ring : IsRing (linksOf m) (l.map freeNode)

theorem freeNode_injective (h : freeNode a = freeNode b) : a = b := Nat.add_right_cancel h

theorem nodup_map_freeNode (h : l.Nodup) : (l.map freeNode).Nodup :=
  List.Pairwise.map freeNode (fun _ _ hne e => hne (freeNode_injective e)) h

theorem mem_map_freeNode : freeNode c ∈ l.map freeNode ↔ c ∈ l := by
  constructor
  · intro h
    obtain ⟨x, hx, he⟩ := mem_map.mp h
    exact freeNode_injective he ▸ hx
  · exact fun h => mem_map_of_mem h

theorem FreeList.congr (h : FreeList m head l)
    (heq : ∀ c ∈ l, nextPtr m' (freeNode c) = nextPtr m (freeNode c) ∧ prevPtr m' (freeNode c) = prevPtr m (freeNode c)) :
    FreeList m' head l := by
  refine ⟨h.head, h.ring.congr fun x hx => ?_⟩
  obtain ⟨c, hc, rfl⟩ := mem_map.mp hx
  exact heq c hc

variable {S : Nat → Prop}

/-- A chunk is taken out of a free list. -/
theorem FreeList.remove (hS : NodeSet S) (h : FreeList m head (l1 ++ c :: l2))
    (hnd : (l1 ++ c :: l2).Nodup) (hsub : ∀ x ∈ l1 ++ c :: l2, S (freeNode x)) :
    FreeList (dlistRemove m (freeNode c)) ((l1 ++ l2).headD null) (l1 ++ l2) ∧
      nextPtr (dlistRemove m (freeNode c)) (freeNode c) = freeNode c ∧
      prevPtr (dlistRemove m (freeNode c)) (freeNode c) = freeNode c ∧
      (∀ y, S y → y ∉ (l1 ++ c :: l2).map freeNode →
        nextPtr (dlistRemove m (freeNode c)) y = nextPtr m y ∧ prevPtr (dlistRemove m (freeNode c)) y = prevPtr m y) ∧
      SameOutside ((l1 ++ c :: l2).map freeNode) m (dlistRemove m (freeNode c)) := by
  have hring := h.ring
  rw [map_append, map_cons] at hring
  have hrot : IsRing (linksOf m) (freeNode c :: (l2.map freeNode ++ l1.map freeNode)) :=
    (isRing_rotate (l1.map freeNode) (freeNode c :: l2.map freeNode)).mp hring
  have hperm : (freeNode c :: (l2.map freeNode ++ l1.map freeNode)).Perm ((l1 ++ c :: l2).map freeNode) := by
    rw [map_append, map_cons, ← cons_append]
    exact perm_append_comm
  have hsub' : ∀ x ∈ freeNode c :: (l2.map freeNode ++ l1.map freeNode), S x := by
    intro x hx
    obtain ⟨y, hy, rfl⟩ := mem_map.mp (hperm.mem_iff.mp hx)
    exact hsub y hy
  obtain ⟨hrest, hn, hp, hkeepNext, hkeepPrev, hout⟩ := dlistRemove_ring hS hrot (hperm.nodup_iff.mpr (nodup_map_freeNode hnd)) hsub'
  obtain ⟨hnin, hpin, -, -⟩ := hrot.neighbours mem_cons_self
  refine ⟨⟨rfl, ?_⟩, hn, hp, ?_, hout.mono fun x hx => hperm.mem_iff.mp hx⟩
  · rw [map_append]
    exact (isRing_rotate _ _).mp hrest
  · intro y hy hnot
    have hy' : y ∉ freeNode c :: (l2.map freeNode ++ l1.map freeNode) := fun hm => hnot (hperm.mem_iff.mp hm)
    have hne : y ≠ freeNode c := fun e => hy' (e ▸ mem_cons_self)
    exact ⟨hkeepNext y hy hne fun e => hy' (e ▸ hpin), hkeepPrev y hy hne fun e => hy' (e ▸ hnin)⟩

theorem nextPtr_freeNode (h : FreeList m head (c :: l)) : nextPtr m (freeNode c) = freeNode (l.headD c) := by
  have hring := h.ring
  cases l with
  | nil => exact hring.1
  | cons x l => exact hring.1.1

theorem freeListPop_eq (h : FreeList hp.mem (hp.freeChunks n) (c :: l)) (hnd : (c :: l).Nodup) : freeListPop hp n = (c, { hp with
      mem := dlistRemove hp.mem (freeNode c), freeChunks := update hp.freeChunks n (l.headD null) }) := by
  have hhead : hp.freeChunks n + headerSize = freeNode c := by rw [h.head]; rfl
  have hnext := nextPtr_freeNode h
  have hsub : freeNode c - headerSize = c := Nat.add_sub_cancel c headerSize
  simp only [freeListPop, dlistPop, hhead, hnext, hsub]
  cases l with
  | nil => simp
  | cons x l =>
    have hne : freeNode c ≠ freeNode x := by
      intro e
      obtain rfl := freeNode_injective e
      exact (nodup_cons.mp hnd).1 mem_cons_self
    have hnull : freeNode x ≠ null := Nat.succ_ne_zero _
    have hback : freeNode x - headerSize = x := Nat.add_sub_cancel x headerSize
    simp [hne, hnull, hback]

theorem freeListRemoveFrom_eq (h : FreeList hp.mem (hp.freeChunks n) (l1 ++ c :: l2)) (hnd : (l1 ++ c :: l2).Nodup) :
    freeListRemoveFrom hp n c = { hp with
      mem := dlistRemove hp.mem (freeNode c), freeChunks := update hp.freeChunks n ((l1 ++ l2).headD null) } := by
  cases l1 with
  | nil =>
    have hpop := freeListPop_eq h hnd
    have hhead : hp.freeChunks n + headerSize = freeNode c := by rw [h.head]; rfl
    have hboth : freeListRemoveFrom hp n c = (freeListPop hp n).2 := by
      have hnode : c + headerSize = freeNode c := rfl
      simp only [freeListRemoveFrom, dlistRemoveFrom, freeListPop, hhead, hnode, if_true]
    rw [hboth, hpop]
    rfl
  | cons y l1 =>
    have hhead : hp.freeChunks n + headerSize = freeNode y := by rw [h.head]; rfl
    have hne : freeNode y ≠ freeNode c := by
      intro e
      obtain rfl := freeNode_injective e
      exact (nodup_cons.mp hnd).1 (by simp)
    have hnull : freeNode y ≠ null := Nat.succ_ne_zero _
    have hback : freeNode y - headerSize = y := Nat.add_sub_cancel y headerSize
    have hnode : c + headerSize = freeNode c := rfl
    simp only [freeListRemoveFrom, dlistRemoveFrom, hhead, hnode, if_neg hne, if_neg hnull, hback]
    rfl

/-- `DLIST_PUSH` of a chunk whose node is single puts it first. -/
theorem freeListPush_spec (hS : NodeSet S) (h : FreeList hp.mem (hp.freeChunks n) l)
    (hnd : l.Nodup) (hsub : ∀ x ∈ v :: l, S (freeNode x)) (hnotNull : ∀ x ∈ l, x ≠ null) (hv : v ∉ l)
    (hnext : nextPtr hp.mem (freeNode v) = freeNode v) (hprev : prevPtr hp.mem (freeNode v) = freeNode v) :
    ∃ m, freeListPush hp n v = { hp with mem := m, freeChunks := update hp.freeChunks n v } ∧ FreeList m v (v :: l) ∧
      (∀ y, S y → y ∉ (v :: l).map freeNode → nextPtr m y = nextPtr hp.mem y ∧ prevPtr m y = prevPtr hp.mem y) ∧
      SameOutside ((v :: l).map freeNode) hp.mem m := by
  have hback : freeNode v - headerSize = v := Nat.add_sub_cancel v headerSize
  have hnode : v + headerSize = freeNode v := rfl
  cases l with
  | nil =>
    have hhead := h.head
    refine ⟨hp.mem, ?_, ⟨rfl, hnext, hprev⟩, fun _ _ _ => ⟨rfl, rfl⟩, fun _ _ => rfl⟩
    simp [freeListPush, dlistPush, hhead, hnode, hback]
  | cons x l =>
    have hhead : hp.freeChunks n = x := h.head
    have hx : x ≠ null := hnotNull x mem_cons_self
    have hnull : freeNode x ≠ null := Nat.succ_ne_zero _
    have hnode' : x + headerSize = freeNode x := rfl
    have hnew : freeNode v ∉ freeNode x :: l.map freeNode := fun hm => hv (mem_map_freeNode.mp hm)
    have hnodes : ∀ y ∈ (x :: l).map freeNode, S y := by
      intro y hy
      obtain ⟨z, hz, rfl⟩ := mem_map.mp hy
      exact hsub z (.tail v hz)
    obtain ⟨hring, hframe, hout⟩ := dlistInsertBefore_ring hS h.ring (nodup_map_freeNode hnd) hnodes (hsub v mem_cons_self) hnew hprev
    refine ⟨dlistInsertBefore hp.mem (freeNode x) (freeNode v), ?_, ⟨rfl, hring⟩, hframe, hout⟩
    simp [freeListPush, dlistPush, hhead, hx, hnode, hnode', hnull, hback]

end OmegaOS
