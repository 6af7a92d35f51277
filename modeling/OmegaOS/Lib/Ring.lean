import Mathlib.Data.List.Basic
import Mathlib.Logic.Function.Basic

/-!
# Circular doubly linked lists

Nodes with a next and a previous node. A ring is a list of nodes, from any one of them on, whose links lead around. Splicing a
node in and taking one out are four assignments each, and what they do to the ring is what the list operation does to the list.
-/

namespace Ring

open List Function

variable {α : Type*}

/-- The links of all nodes. -/
structure Links (α : Type*) where
  next : α → α
  prev : α → α

/-- Linked nodes, from `a` over the nodes of the list to `b`. -/
def Seg (s : Links α) : α → List α → α → Prop
  | a, [], b => s.next a = b ∧ s.prev b = a
  | a, x :: l, b => (s.next a = x ∧ s.prev x = a) ∧ Seg s x l b

/-- The nodes of the list, linked around. -/
def IsRing (s : Links α) : List α → Prop
  | [] => True
  | h :: l => Seg s h l h

variable {s s' : Links α}

theorem seg_append : Seg s a (l1 ++ x :: l2) b ↔ Seg s a l1 x ∧ Seg s x l2 b := by
  induction l1 generalizing a with
  | nil => rfl
  | cons y l1 ih =>
    rw [cons_append, Seg, Seg, ih]
    exact and_assoc.symm

/-- A ring may be read from any of its nodes on. -/
theorem isRing_rotate (l1 l2 : List α) : IsRing s (l1 ++ l2) ↔ IsRing s (l2 ++ l1) := by
  cases l1 with
  | nil => simp
  | cons a l1 =>
    cases l2 with
    | nil => simp
    | cons x l2 =>
      show Seg s a (l1 ++ x :: l2) a ↔ Seg s x (l2 ++ a :: l1) x
      rw [seg_append, seg_append]
      exact and_comm

theorem Seg.congr (h : Seg s a l b) (hnext : ∀ x ∈ a :: l, s'.next x = s.next x)
    (hprev : ∀ x ∈ l ++ [b], s'.prev x = s.prev x) : Seg s' a l b := by
  induction l generalizing a with
  | nil => exact ⟨(hnext a (by simp)).trans h.1, (hprev b (by simp)).trans h.2⟩
  | cons x l ih =>
    refine ⟨⟨(hnext a (by simp)).trans h.1.1, (hprev x (by simp)).trans h.1.2⟩, ih h.2 ?_ ?_⟩
    · exact fun y hy => hnext y (.tail a hy)
    · exact fun y hy => hprev y (.tail x hy)

theorem IsRing.congr (h : IsRing s l) (heq : ∀ x ∈ l, s'.next x = s.next x ∧ s'.prev x = s.prev x) : IsRing s' l := by
  cases l with
  | nil => trivial
  | cons a l =>
    refine Seg.congr h (fun x hx => (heq x hx).1) fun x hx => (heq x ?_).2
    rcases mem_append.mp hx with hx | hx
    · exact .tail a hx
    · rw [mem_singleton.mp hx]
      exact mem_cons_self

/-- The first and the last link of linked nodes. -/
theorem Seg.ends (h : Seg s a l b) : s.next a ∈ l ++ [b] ∧ s.prev b ∈ a :: l := by
  induction l generalizing a with
  | nil => exact ⟨by simp [h.1], by simp [h.2]⟩
  | cons x l ih =>
    refine ⟨?_, .tail a (ih h.2).2⟩
    rw [h.1.1]
    simp

/-- The neighbours of a node of a ring are in the ring, and link back. -/
theorem IsRing.neighbours (h : IsRing s l) (hd : d ∈ l) : s.next d ∈ l ∧ s.prev d ∈ l ∧ s.next (s.prev d) = d ∧ s.prev (s.next d) = d := by
  obtain ⟨l1, l2, rfl⟩ := append_of_mem hd
  have hrot : IsRing s (d :: (l2 ++ l1)) := by
    rw [← cons_append]
    exact (isRing_rotate l1 (d :: l2)).mp h
  have hmem : ∀ x, x ∈ d :: (l2 ++ l1) → x ∈ l1 ++ d :: l2 := by
    intro x hx
    simp only [mem_cons, mem_append] at hx ⊢
    tauto
  generalize l2 ++ l1 = l at hrot hmem
  have hseg : Seg s d l d := hrot
  obtain ⟨hn, hp⟩ := hseg.ends
  refine ⟨hmem _ ?_, hmem _ hp, ?_, ?_⟩
  · rcases mem_append.mp hn with hn | hn
    · exact .tail d hn
    · rw [mem_singleton.mp hn]
      exact mem_cons_self
  · rcases eq_nil_or_concat' l with rfl | ⟨q, p, rfl⟩
    · rw [hseg.2]
      exact hseg.1
    · have hlast := (seg_append.mp hseg).2
      rw [hlast.2]
      exact hlast.1
  · cases l with
    | nil =>
      rw [hseg.1]
      exact hseg.2
    | cons x l =>
      rw [hseg.1.1]
      exact hseg.1.2

/-- In a ring the links are inverse to each other. -/
theorem IsRing.next_eq_iff (h : IsRing s l) (ha : a ∈ l) (hb : b ∈ l) : s.next a = b ↔ s.prev b = a := by
  constructor
  · rintro rfl
    exact (h.neighbours ha).2.2.2
  · rintro rfl
    exact (h.neighbours hb).2.2.1

/-- Links do not lead out of a ring. -/
theorem IsRing.mem_of_seg (h : IsRing s r) (hseg : Seg s a l b) (ha : a ∈ r) : b ∈ r := by
  induction l generalizing a with
  | nil =>
    rw [← hseg.1]
    exact (h.neighbours ha).1
  | cons x l ih =>
    refine ih hseg.2 ?_
    rw [← hseg.1.1]
    exact (h.neighbours ha).1

/-- Two nodes that follow each other in the list are linked. -/
theorem IsRing.link (h : IsRing s (l1 ++ a :: b :: l2)) : s.next a = b ∧ s.prev b = a := by
  have hrot : Seg s a (b :: l2 ++ l1) a := (isRing_rotate l1 (a :: b :: l2)).mp h
  exact hrot.1

/-- A ring from the node before its first one. -/
theorem IsRing.rotate_back (h : IsRing s (d :: l)) :
    ∃ l', IsRing s (s.prev d :: l') ∧ d :: l = l' ++ [s.prev d] ∧ (s.prev d :: l').Perm (d :: l) := by
  rcases eq_nil_or_concat' l with rfl | ⟨q, p, rfl⟩
  · have hp : s.prev d = d := h.2
    rw [hp]
    exact ⟨[], h, rfl, .refl _⟩
  · have hp : s.prev d = p := ((seg_append.mp h).2).2
    rw [hp]
    exact ⟨d :: q, (isRing_rotate (d :: q) [p]).mp h, rfl, (perm_append_comm : ([p] ++ (d :: q)).Perm _)⟩

/-! ## The assignments -/

variable [DecidableEq α]

def Links.setNext (s : Links α) (d v : α) : Links α := { s with next := update s.next d v }

def Links.setPrev (s : Links α) (d v : α) : Links α := { s with prev := update s.prev d v }

@[simp] theorem setNext_next (d v x : α) : (s.setNext d v).next x = if x = d then v else s.next x := by
  simp [Links.setNext, update_apply]

@[simp] theorem setNext_prev (d v : α) : (s.setNext d v).prev = s.prev := rfl

@[simp] theorem setPrev_prev (d v x : α) : (s.setPrev d v).prev x = if x = d then v else s.prev x := by
  simp [Links.setPrev, update_apply]

@[simp] theorem setPrev_next (d v : α) : (s.setPrev d v).next = s.next := rfl

/-- Splice the ring of `d₂` in after `d₁`. -/
def Links.insertAfter (s : Links α) (d₁ d₂ : α) : Links α :=
  let n1 := s.next d₁
  let e2 := s.prev d₂
  (((s.setNext d₁ d₂).setPrev d₂ d₁).setNext e2 n1).setPrev n1 e2

/-- Splice the ring of `d₂` in before `d₁`. -/
def Links.insertBefore (s : Links α) (d₁ d₂ : α) : Links α :=
  let e1 := s.prev d₁
  let e2 := s.prev d₂
  (((s.setNext e1 d₂).setPrev d₂ e1).setNext e2 d₁).setPrev d₁ e2

/-- Take a node out of its ring; it is a ring of its own then. -/
def Links.remove (s : Links α) (d : α) : Links α :=
  let s := s.setNext (s.prev d) (s.next d)
  let s := s.setPrev (s.next d) (s.prev d)
  (s.setNext d d).setPrev d d

/-- A single node is spliced in after the first node of a ring. -/
theorem IsRing.insertAfter (h : IsRing s (d1 :: l)) (hnd : (d1 :: l).Nodup) (hd2 : d2 ∉ d1 :: l)
    (hsingle : s.prev d2 = d2) : IsRing (s.insertAfter d1 d2) (d1 :: d2 :: l) := by
  obtain ⟨hne, hd2l⟩ : d2 ≠ d1 ∧ d2 ∉ l := by simpa using hd2
  obtain ⟨hd1l, hndl⟩ := nodup_cons.mp hnd
  have hseg : Seg s d1 l d1 := h
  cases l with
  | nil =>
    obtain ⟨hn, hp⟩ := hseg
    refine ⟨⟨?_, ?_⟩, ?_, ?_⟩ <;> simp [Links.insertAfter, hn, hsingle, hne, Ne.symm hne]
  | cons x l =>
    obtain ⟨⟨hn, hp⟩, hrest⟩ := hseg
    have hx1 : x ≠ d1 := fun e => hd1l (by simp [e])
    have hx2 : x ≠ d2 := fun e => hd2l (by simp [e])
    have hxl : x ∉ l := (nodup_cons.mp hndl).1
    refine ⟨⟨?_, ?_⟩, ⟨?_, ?_⟩, ?_⟩
    · simp [Links.insertAfter, hn, hsingle, Ne.symm hne]
    · simp [Links.insertAfter, hn, hsingle, Ne.symm hx2]
    · simp [Links.insertAfter, hn, hsingle]
    · simp [Links.insertAfter, hn, hsingle]
    · refine hrest.congr (fun y hy => ?_) fun y hy => ?_
      · have hy1 : y ≠ d1 := fun e => hd1l (e ▸ hy)
        have hy2 : y ≠ d2 := fun e => hd2l (e ▸ hy)
        simp [Links.insertAfter, hsingle, hy1, hy2]
      · have hyx : y ≠ x ∧ y ≠ d2 := by
          rcases mem_append.mp hy with hy | hy
          · exact ⟨fun e => hxl (e ▸ hy), fun e => hd2l (by simp [← e, hy])⟩
          · rw [mem_singleton.mp hy]
            exact ⟨Ne.symm hx1, Ne.symm hne⟩
        simp [Links.insertAfter, hn, hsingle, hyx.1, hyx.2]

/-- Before a node is after the one that precedes it. -/
theorem insertBefore_eq (d2 : α) (h : s.next (s.prev d1) = d1) : s.insertBefore d1 d2 = s.insertAfter (s.prev d1) d2 := by
  simp only [Links.insertBefore, Links.insertAfter, h]

/-- A single node is spliced in before the first node of a ring, and becomes the first. -/
theorem IsRing.insertBefore (h : IsRing s (d1 :: l)) (hnd : (d1 :: l).Nodup) (hd2 : d2 ∉ d1 :: l)
    (hsingle : s.prev d2 = d2) : IsRing (s.insertBefore d1 d2) (d2 :: d1 :: l) := by
  rw [insertBefore_eq d2 (h.neighbours mem_cons_self).2.2.1]
  obtain ⟨l', hrot, hl, hperm⟩ := h.rotate_back
  have hins := hrot.insertAfter (hperm.nodup_iff.mpr hnd) (fun hm => hd2 (hperm.mem_iff.mp hm)) hsingle
  rw [hl]
  exact (isRing_rotate [s.prev d1] (d2 :: l')).mp hins

/-- The first node is taken out of a ring. -/
theorem IsRing.remove (h : IsRing s (d :: l)) (hnd : (d :: l).Nodup) :
    IsRing (s.remove d) l ∧ (s.remove d).next d = d ∧ (s.remove d).prev d = d := by
  obtain ⟨hdl, hndl⟩ := nodup_cons.mp hnd
  refine ⟨?_, by simp [Links.remove], by simp [Links.remove]⟩
  cases l with
  | nil => trivial
  | cons x l =>
    obtain ⟨⟨hn, hp⟩, hrest⟩ := h
    have hxd : x ≠ d := fun e => hdl (by simp [e])
    have hxl : x ∉ l := (nodup_cons.mp hndl).1
    rcases eq_nil_or_concat' l with rfl | ⟨q, p, rfl⟩
    · have hpd : s.prev d = x := hrest.2
      refine ⟨?_, ?_⟩ <;> simp [Links.remove, hn, hpd, hxd, Ne.symm hxd]
    · obtain ⟨hq, hpn, hpd⟩ := seg_append.mp hrest
      have hdp : d ≠ p := fun e => hdl (by simp [e])
      have hxp : x ≠ p := fun e => hxl (by simp [e])
      refine seg_append.mpr ⟨hq.congr (fun y hy => ?_) (fun y hy => ?_), ?_, ?_⟩
      · have hyp : y ≠ p := by
          rcases mem_cons.mp hy with rfl | hy
          · exact hxp
          · rintro rfl
            exact (nodup_append.mp (nodup_cons.mp hndl).2).2.2 y hy y (by simp) rfl
        have hyd : y ≠ d := by
          rintro rfl
          refine hdl ?_
          rcases mem_cons.mp hy with rfl | hy
          · exact mem_cons_self
          · simp [hy]
        simp [Links.remove, hn, hpd, hyp, hyd]
      · have hyx : y ≠ x := by
          rintro rfl
          exact hxl hy
        have hyd : y ≠ d := by
          rintro rfl
          exact hdl (.tail x hy)
        simp [Links.remove, hn, hpd, hdp, hyx, hyd]
      · simp [Links.remove, hn, hpd, Ne.symm hdp]
      · simp [Links.remove, hn, hpd, hdp, hxd]

/-! ## What stays -/

/-- The assignments of an insertion are to the two nodes and to the one that follows. -/
theorem insertAfter_frame (hsingle : s.prev d2 = d2) (h1 : y ≠ d1) (h2 : y ≠ d2) (hn : y ≠ s.next d1) :
    (s.insertAfter d1 d2).next y = s.next y ∧ (s.insertAfter d1 d2).prev y = s.prev y := by
  simp [Links.insertAfter, hsingle, h1, h2, hn]

theorem remove_next_of_ne (hd : y ≠ d) : (s.remove d).next y = if y = s.prev d then s.next d else s.next y := by
  simp [Links.remove, hd]

theorem remove_prev_of_ne (hd : y ≠ d) : (s.remove d).prev y = if y = s.next d then s.prev d else s.prev y := by
  simp [Links.remove, hd]

/-- A removal assigns to the `next` of the node and of the one before it. -/
theorem remove_next (hd : y ≠ d) (hp : y ≠ s.prev d) : (s.remove d).next y = s.next y := by
  rw [remove_next_of_ne hd, if_neg hp]

/-- A removal assigns to the `prev` of the node and of the one after it. -/
theorem remove_prev (hd : y ≠ d) (hn : y ≠ s.next d) : (s.remove d).prev y = s.prev y := by
  rw [remove_prev_of_ne hd, if_neg hn]

end Ring
