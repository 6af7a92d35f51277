import OmegaOS.Heap
import OmegaOS.Lib.Ring

/-!
# Doubly linked lists in memory

The functions `dlist_*` on nodes that do not overlap are the assignments to links of `Ring`, so they do to a ring in memory
what the list operation does to the list of its nodes; and they write to nodes of the ring only.
-/

namespace OmegaOS

open ByteMem Ring List

variable {d d1 d2 v : Nat} {m : Mem} {T l : List Nat} {s : Links Nat}

/-- The links that the memory holds. -/
def linksOf (m : Mem) : Links Nat := { next := nextPtr m, prev := prevPtr m }

/-- Nodes that may be linked with each other: they do not overlap, and their addresses fit a pointer. -/
structure NodeSet (S : Nat → Prop) : Prop where
  apart : ∀ x y, S x → S y → x ≠ y → x + 16 ≤ y ∨ y + 16 ≤ x
  bound : ∀ x, S x → x < 2 ^ 64

/-- The same links at the nodes of a set. -/
def SameLinks (S : Nat → Prop) (s s' : Links Nat) : Prop := ∀ x, S x → s'.next x = s.next x ∧ s'.prev x = s.prev x

/-- The same bytes outside some nodes. -/
def SameOutside (T : List Nat) (m m' : Mem) : Prop := ∀ b, (∀ x ∈ T, b < x ∨ x + 16 ≤ b) → m' b = m b

theorem SameOutside.trans (h : SameOutside T m1 m2) (h' : SameOutside T m2 m3) : SameOutside T m1 m3 := fun b hb => (h' b hb).trans (h b hb)

theorem SameOutside.mono (h : SameOutside T m m') (hsub : ∀ x ∈ T, x ∈ T') : SameOutside T' m m' :=
  fun b hb => h b fun x hx => hb x (hsub x hx)

theorem sameOutside_setNextPtr (m : Mem) (v : Nat) (hd : d ∈ T) : SameOutside T m (setNextPtr m d v) := by
  intro b hb
  have := hb d hd
  exact store_outside m v (by omega)

theorem sameOutside_setPrevPtr (m : Mem) (v : Nat) (hd : d ∈ T) : SameOutside T m (setPrevPtr m d v) := by
  intro b hb
  have := hb d hd
  exact store_outside m v (by omega)

/-! ## Assignments -/

variable {S : Nat → Prop}

/-- An assignment to a pointer in memory is the one to the link. -/
theorem SameLinks.setNextPtr (h : SameLinks S s (linksOf m)) (hS : NodeSet S) (hd : S d) (hv : S v) :
    SameLinks S (s.setNext d v) (linksOf (setNextPtr m d v)) := by
  intro x hx
  obtain ⟨hnext, hprev⟩ := h x hx
  have hap := hS.apart x d hx hd
  refine ⟨?_, (load_store_disjoint m v (by omega)).trans hprev⟩
  rw [setNext_next]
  by_cases hxd : x = d
  · rw [if_pos hxd, ← hxd]
    exact load_store_same m x 8 (hS.bound v hv)
  · rw [if_neg hxd]
    exact (load_store_disjoint m v (by omega)).trans hnext

theorem SameLinks.setPrevPtr (h : SameLinks S s (linksOf m)) (hS : NodeSet S) (hd : S d) (hv : S v) :
    SameLinks S (s.setPrev d v) (linksOf (setPrevPtr m d v)) := by
  intro x hx
  obtain ⟨hnext, hprev⟩ := h x hx
  have hap := hS.apart x d hx hd
  refine ⟨(load_store_disjoint m v (by omega)).trans hnext, ?_⟩
  rw [setPrev_prev]
  by_cases hxd : x = d
  · rw [if_pos hxd, ← hxd]
    exact load_store_same m (x + 8) 8 (hS.bound v hv)
  · rw [if_neg hxd]
    exact (load_store_disjoint m v (by omega)).trans hprev

theorem sameLinks_refl (s : Links Nat) : SameLinks S s s := fun _ _ => ⟨rfl, rfl⟩

/-! ## The functions -/

theorem dlistInit_links (hS : NodeSet S) (m : Mem) (hd : S d) : nextPtr (dlistInit m d) d = d ∧ prevPtr (dlistInit m d) d = d := by
  have h := ((sameLinks_refl (linksOf m)).setNextPtr hS hd hd).setPrevPtr hS hd hd d hd
  exact ⟨h.1.trans (by simp), h.2.trans (by simp)⟩

theorem dlistInsertAfter_links (hS : NodeSet S) (m : Mem) (h1 : S d1) (h2 : S d2) (hn : S (nextPtr m d1))
    (he : S (prevPtr m d2)) : SameLinks S ((linksOf m).insertAfter d1 d2) (linksOf (dlistInsertAfter m d1 d2)) :=
  ((((sameLinks_refl (linksOf m)).setNextPtr hS h1 h2).setPrevPtr hS h2 h1).setNextPtr hS he hn).setPrevPtr hS hn he

theorem dlistInsertBefore_eq (h : nextPtr m (prevPtr m d1) = d1) : dlistInsertBefore m d1 d2 = dlistInsertAfter m (prevPtr m d1) d2 := by
  simp only [dlistInsertBefore, dlistInsertAfter, h]

section

variable (hS : NodeSet S)

include hS

/-- `dlist_remove` reads `d->next` and `d->prev` once more after its first assignment; they are still the neighbours. -/
theorem dlistRemove_eq (m : Mem) (hd : S d) (hn : S (nextPtr m d)) (hp : S (prevPtr m d)) :
    dlistRemove m d = setPrevPtr (setNextPtr (setPrevPtr (setNextPtr m (prevPtr m d) (nextPtr m d)) (nextPtr m d) (prevPtr m d))
      d d) d d := by
  have h := (sameLinks_refl (linksOf m)).setNextPtr hS hp hn d hd
  have hnext : nextPtr (setNextPtr m (prevPtr m d) (nextPtr m d)) d = nextPtr m d := by
    refine h.1.trans ?_
    rw [setNext_next]
    split <;> rfl
  have hprev : prevPtr (setNextPtr m (prevPtr m d) (nextPtr m d)) d = prevPtr m d := h.2
  simp only [dlistRemove, hnext, hprev]

theorem dlistRemove_links (m : Mem) (hd : S d) (hn : S (nextPtr m d)) (hp : S (prevPtr m d)) :
    SameLinks S ((linksOf m).remove d) (linksOf (dlistRemove m d)) := by
  have hlinks : (linksOf m).remove d =
      ((((linksOf m).setNext (prevPtr m d) (nextPtr m d)).setPrev (nextPtr m d) (prevPtr m d)).setNext d d).setPrev d d := by
    have hnext : ((linksOf m).setNext (prevPtr m d) (nextPtr m d)).next d = nextPtr m d := by
      rw [setNext_next]
      split <;> rfl
    simp only [Links.remove, setNext_prev]
    rw [show (linksOf m).next d = nextPtr m d from rfl, show (linksOf m).prev d = prevPtr m d from rfl, hnext]
  rw [hlinks, dlistRemove_eq hS m hd hn hp]
  exact ((((sameLinks_refl (linksOf m)).setNextPtr hS hp hn).setPrevPtr hS hn hp).setNextPtr hS hd hd).setPrevPtr hS hd hd

/-! ## Rings in memory -/

/-- `dlist_remove` takes a node out of the ring. -/
theorem dlistRemove_ring (hring : IsRing (linksOf m) (d :: l)) (hnd : (d :: l).Nodup) (hsub : ∀ x ∈ d :: l, S x) :
    IsRing (linksOf (dlistRemove m d)) l ∧ nextPtr (dlistRemove m d) d = d ∧ prevPtr (dlistRemove m d) d = d ∧
      (∀ y, S y → y ≠ d → y ≠ prevPtr m d → nextPtr (dlistRemove m d) y = nextPtr m y) ∧
      (∀ y, S y → y ≠ d → y ≠ nextPtr m d → prevPtr (dlistRemove m d) y = prevPtr m y) ∧
      SameOutside (d :: l) m (dlistRemove m d) := by
  obtain ⟨hn, hp, -, -⟩ := hring.neighbours mem_cons_self
  have hd : S d := hsub d mem_cons_self
  have hlinks := dlistRemove_links hS m hd (hsub _ hn) (hsub _ hp)
  obtain ⟨hrest, hnext, hprev⟩ := hring.remove hnd
  refine ⟨?_, (hlinks d hd).1.trans hnext, (hlinks d hd).2.trans hprev, ?_, ?_, ?_⟩
  · exact hrest.congr fun x hx => hlinks x (hsub x (mem_cons_of_mem d hx))
  · exact fun y hy hyd hyp => (hlinks y hy).1.trans (remove_next hyd hyp)
  · exact fun y hy hyd hyn => (hlinks y hy).2.trans (remove_prev hyd hyn)
  · rw [dlistRemove_eq hS m hd (hsub _ hn) (hsub _ hp)]
    exact (((sameOutside_setNextPtr m _ hp).trans (sameOutside_setPrevPtr _ _ hn)).trans
      (sameOutside_setNextPtr _ _ mem_cons_self)).trans (sameOutside_setPrevPtr _ _ mem_cons_self)

/-- The node before the one taken out is followed by the node after it. -/
theorem dlistRemove_joins (hring : IsRing (linksOf m) (d :: l))
    (hsub : ∀ x ∈ d :: l, S x) (hne : prevPtr m d ≠ d) : nextPtr (dlistRemove m d) (prevPtr m d) = nextPtr m d := by
  obtain ⟨hn, hp, -, -⟩ := hring.neighbours mem_cons_self
  have hlinks := dlistRemove_links hS m (hsub d mem_cons_self) (hsub _ hn) (hsub _ hp)
  refine (hlinks _ (hsub _ hp)).1.trans ?_
  simp only [Links.remove, setPrev_next, setNext_next]
  rw [if_neg (show (linksOf m).prev d ≠ d from hne), if_pos trivial]
  rfl

section

variable (hring : IsRing (linksOf m) (d1 :: l)) (hnd : (d1 :: l).Nodup) (hsub : ∀ x ∈ d1 :: l, S x) (h2 : S d2) (hnew : d2 ∉ d1 :: l)

include hring hnd hsub h2 hnew

/-- Splicing a single node in after the first node of a ring. -/
theorem dlistInsertAfter_ring (hsingle : prevPtr m d2 = d2) : IsRing (linksOf (dlistInsertAfter m d1 d2)) (d1 :: d2 :: l) ∧
      (∀ y, S y → y ≠ d1 → y ≠ d2 → nextPtr (dlistInsertAfter m d1 d2) y = nextPtr m y) ∧
      (∀ y, S y → y ∉ d2 :: d1 :: l → nextPtr (dlistInsertAfter m d1 d2) y = nextPtr m y ∧
        prevPtr (dlistInsertAfter m d1 d2) y = prevPtr m y) ∧
      SameOutside (d2 :: d1 :: l) m (dlistInsertAfter m d1 d2) := by
  obtain ⟨hn, -, -, -⟩ := hring.neighbours mem_cons_self
  have h1 : S d1 := hsub d1 mem_cons_self
  have hlinks := dlistInsertAfter_links hS m h1 h2 (hsub _ hn) (by rwa [hsingle])
  have hnode1 : d1 ∈ d2 :: d1 :: l := by simp
  have hnode := mem_cons_of_mem d2 hn
  refine ⟨?_, ?_, ?_, ?_⟩
  · refine (hring.insertAfter hnd hnew hsingle).congr fun x hx => hlinks x ?_
    rcases mem_cons.mp hx with rfl | hx
    · exact h1
    · rcases mem_cons.mp hx with rfl | hx
      · exact h2
      · exact hsub x (mem_cons_of_mem d1 hx)
  · intro y hy hy1 hy2
    refine (hlinks y hy).1.trans ?_
    have hsingle' : (linksOf m).prev d2 = d2 := hsingle
    simp only [Links.insertAfter, setPrev_next, setNext_next, hsingle', if_neg hy1, if_neg hy2]
    rfl
  · intro y hy hout
    obtain ⟨hy2, hy1, hyl⟩ : y ≠ d2 ∧ y ≠ d1 ∧ y ∉ l := by simpa using hout
    have hyn : y ≠ (linksOf m).next d1 := fun e => hout (e ▸ hnode)
    obtain ⟨h3, h4⟩ := insertAfter_frame hsingle hy1 hy2 hyn
    exact ⟨(hlinks y hy).1.trans h3, (hlinks y hy).2.trans h4⟩
  · have hwrites : SameOutside (d2 :: d1 :: l) m
        (setPrevPtr (setNextPtr (setPrevPtr (setNextPtr m d1 d2) d2 d1) d2 (nextPtr m d1)) (nextPtr m d1) d2) :=
      (((sameOutside_setNextPtr m _ hnode1).trans (sameOutside_setPrevPtr _ _ mem_cons_self)).trans
        (sameOutside_setNextPtr _ _ mem_cons_self)).trans (sameOutside_setPrevPtr _ _ hnode)
    simpa only [dlistInsertAfter, hsingle] using hwrites

/-- Splicing a single node in before the first node of a ring. -/
theorem dlistInsertBefore_ring (hsingle : prevPtr m d2 = d2) : IsRing (linksOf (dlistInsertBefore m d1 d2)) (d2 :: d1 :: l) ∧
      (∀ y, S y → y ∉ d2 :: d1 :: l → nextPtr (dlistInsertBefore m d1 d2) y = nextPtr m y ∧
        prevPtr (dlistInsertBefore m d1 d2) y = prevPtr m y) ∧
      SameOutside (d2 :: d1 :: l) m (dlistInsertBefore m d1 d2) := by
  rw [dlistInsertBefore_eq (hring.neighbours mem_cons_self).2.2.1]
  obtain ⟨l', hrot, hl, hperm⟩ := hring.rotate_back
  obtain ⟨hring', -, hkept, hsame⟩ := dlistInsertAfter_ring hS hrot (hperm.nodup_iff.mpr hnd) (fun x hx => hsub x (hperm.mem_iff.mp hx)) h2
    (fun hm => hnew (hperm.mem_iff.mp hm)) hsingle
  refine ⟨?_, fun y hy hout => hkept y hy fun hm => hout ((hperm.cons d2).mem_iff.mp hm),
    hsame.mono fun x hx => (hperm.cons d2).mem_iff.mp hx⟩
  rw [hl]
  exact (isRing_rotate [prevPtr m d1] (d2 :: l')).mp hring'

end

end

end OmegaOS
