import OmegaOS.Queue

/-!
# The pointer queue holds a list

`Chain m a as` follows the `next` pointers from `a`: the nodes met are `as`, and the last one points to `NULL`. A queue
represents the nodes of such a chain from its front, with the rear at its end and the count its length (`Holds`). Enqueueing
at a fresh node appends one element to the list of data; dequeueing takes its head.
-/

namespace OmegaOS

open List Function

variable {m m' : Nodes} {as xs ys : List Nat} {a t tmp data prev : Nat} {q : Queue}

/-- The nodes met by following `next` from an address to `NULL`. -/
def Chain (m : Nodes) : Nat → List Nat → Prop
  | a, [] => a = null
  | a, b :: bs => a = b ∧ a ≠ null ∧ Chain m (m a).next bs

/-- The queue is unlocked and its nodes, from the front to the rear, are `as`. -/
structure Holds (m : Nodes) (q : Queue) (as : List Nat) : Prop where
  chain : Chain m q.front as
  nodup : as.Nodup
  rear : q.rear = as.getLastD null
  count : q.count = as.length
  unlocked : q.lock = false

theorem Chain.ne_null (h : Chain m a as) : ∀ x ∈ as, x ≠ null := by
  induction as generalizing a with
  | nil => simp
  | cons b bs ih =>
    obtain ⟨rfl, hne, hr⟩ := h
    intro x hx
    rcases mem_cons.mp hx with rfl | hx
    · exact hne
    · exact ih hr x hx

theorem Chain.nodesFrom_eq (h : Chain m a as) : nodesFrom m as.length a = as := by
  induction as generalizing a with
  | nil => rfl
  | cons b bs ih =>
    obtain ⟨rfl, -, hr⟩ := h
    rw [length_cons, nodesFrom, ih hr]

theorem Holds.queueNodes_eq (h : Holds m q as) : queueNodes m q = as := by
  rw [queueNodes, h.count, h.chain.nodesFrom_eq]

theorem Chain.congr (h : Chain m a as) (hm : ∀ x ∈ as, m' x = m x) : Chain m' a as := by
  induction as generalizing a with
  | nil => exact h
  | cons b bs ih =>
    obtain ⟨rfl, hne, hr⟩ := h
    refine ⟨rfl, hne, ?_⟩
    rw [hm a mem_cons_self]
    exact ih hr fun x hx => hm x (.tail a hx)

theorem dataOf_congr (hm : ∀ x ∈ as, m' x = m x) : dataOf m' as = dataOf m as := map_congr_left fun x hx => by rw [hm x hx]

theorem Holds.congr (h : Holds m q as) (hm : ∀ x ∈ as, m' x = m x) : Holds m' q as := { h with chain := h.chain.congr hm }

theorem holds_queueCreate (m : Nodes) : Holds m queueCreate [] := ⟨rfl, nodup_nil, rfl, rfl, rfl⟩

/-- Linking a fresh node after the last node of a chain extends the chain by it. -/
theorem Chain.snoc (h : Chain m a (as ++ [l])) (hnd : (as ++ [l]).Nodup) (hne : tmp ≠ null) (hf : tmp ∉ as ++ [l]) :
    Chain (update (update m tmp ⟨d, null⟩) l ⟨(m l).data, tmp⟩) a (as ++ [l] ++ [tmp]) := by
  induction as generalizing a with
  | nil =>
    obtain ⟨rfl, hane, _⟩ := h
    have hta : tmp ≠ a := fun e => hf (by simp [e])
    refine ⟨rfl, hane, ?_⟩
    simp only [update_self]
    refine ⟨rfl, hne, ?_⟩
    simp [update_of_ne hta, Chain]
  | cons b bs ih =>
    obtain ⟨rfl, hane, hr⟩ := h
    have hta : a ≠ tmp := fun e => hf (by simp [e])
    have hla : a ≠ l := by
      rintro rfl
      simp at hnd
    refine ⟨rfl, hane, ?_⟩
    rw [update_of_ne hla, update_of_ne hta]
    exact ih hr (nodup_cons.mp hnd).2 fun hx => hf (.tail _ hx)

theorem queueEnqueue_nil (tmp data : Nat) (hl : q.lock = false) (hr : q.rear = null) : queueEnqueue m q tmp data =
      .ok (update m tmp ⟨data, null⟩, { q with front := tmp, rear := tmp, count := q.count + 1 }) := by
  simp [queueEnqueue, hl, hr]

theorem queueEnqueue_rear (tmp data : Nat) (hl : q.lock = false) (hr : q.rear ≠ null) (hrt : q.rear ≠ tmp) : queueEnqueue m q tmp data =
      .ok (update (update m tmp ⟨data, null⟩) q.rear ⟨(m q.rear).data, tmp⟩,
        { q with rear := tmp, count := q.count + 1 }) := by
  simp [queueEnqueue, hl, hr, update_of_ne hrt]

/-- `queue_enqueue` appends the data. -/
theorem queueEnqueue_holds (data : Nat) (h : Holds m q as) (hne : tmp ≠ null) (hf : tmp ∉ as) :
    ∃ m' q', queueEnqueue m q tmp data = .ok (m', q') ∧ Holds m' q' (as ++ [tmp]) ∧
      dataOf m' (as ++ [tmp]) = dataOf m as ++ [data] ∧ ∀ x, x ≠ tmp → x ∉ as → m' x = m x := by
  rcases eq_nil_or_concat as with rfl | ⟨init, l, rfl⟩
  · have hr : q.rear = null := h.rear
    refine ⟨_, _, queueEnqueue_nil tmp data h.unlocked hr, ⟨⟨rfl, hne, ?_⟩, ?_, rfl, ?_, h.unlocked⟩, ?_, ?_⟩
    · simp [Chain]
    · simp
    · simp [h.count]
    · simp [dataOf]
    · intro x hx _
      simp [update_of_ne hx]
  · rw [concat_eq_append] at h hf ⊢
    have hr : q.rear = l := by simpa using h.rear
    have hl : l ≠ null := h.chain.ne_null l (by simp)
    have hlt : l ≠ tmp := fun e => hf (by simp [e])
    have hinit : ∀ x ∈ init, x ≠ l ∧ x ≠ tmp := by
      intro x hx
      exact ⟨fun e => (nodup_append.mp h.nodup).2.2 x hx l (by simp) e, fun e => hf (by simp [← e, hx])⟩
    refine ⟨_, _, queueEnqueue_rear tmp data h.unlocked (hr ▸ hl) (hr ▸ hlt), ⟨?_, ?_, ?_, ?_, h.unlocked⟩, ?_, ?_⟩
    · rw [hr]
      exact h.chain.snoc h.nodup hne hf
    · exact nodup_append.mpr ⟨h.nodup, by simp, fun x hx y hy e => hf (by simp_all)⟩
    · simp
    · simp [h.count]
    · have hmap : init.map (fun a => (update (update m tmp ⟨data, null⟩) l ⟨(m l).data, tmp⟩ a).data) = init.map fun a => (m a).data := by
        refine map_congr_left fun x hx => ?_
        rw [update_of_ne (hinit x hx).1, update_of_ne (hinit x hx).2]
      simp [dataOf, hr, hmap, update_of_ne hlt.symm]
    · intro x hxt hx
      have hxl : x ≠ l := fun e => hx (by simp [e])
      rw [hr, update_of_ne hxl, update_of_ne hxt]

theorem queueDeqeueue_pos (hl : q.lock = false) (hc : q.count ≠ 0) : queueDeqeueue m q = .ok ((m q.front).data, { q with
      front := (m q.front).next
      rear := if (m q.front).next = null then null else q.rear
      count := q.count - 1 }) := by
  simp [queueDeqeueue, hl, hc]

/-- `queue_deqeueue` of a queue that holds a node takes the front node off and returns its data. -/
theorem queueDeqeueue_holds (h : Holds m q (a :: as)) : ∃ q', queueDeqeueue m q = .ok ((m a).data, q') ∧ Holds m q' as := by
  obtain ⟨rfl, hne, hr⟩ := h.chain
  have hc : q.count ≠ 0 := by simp [h.count]
  refine ⟨_, queueDeqeueue_pos h.unlocked hc, hr, (nodup_cons.mp h.nodup).2, ?_, ?_, h.unlocked⟩
  · cases as with
    | nil =>
      have hn : (m q.front).next = null := hr
      simp [hn]
    | cons b bs =>
      obtain ⟨rfl, hbn, -⟩ := hr
      have hlast := h.rear
      rw [getLastD_cons, getLastD_cons] at hlast
      rw [if_neg hbn, hlast, getLastD_cons]
  · simp [h.count]

/-! ## Removing -/

theorem Chain.unique {bs : List Nat} (h : Chain m a as) (h' : Chain m a bs) : as = bs := by
  induction as generalizing a bs with
  | nil =>
    cases bs with
    | nil => rfl
    | cons b bs => exact absurd h h'.2.1
  | cons x as ih =>
    cases bs with
    | nil => exact absurd h' h.2.1
    | cons b bs =>
      obtain ⟨rfl, -, hr⟩ := h
      obtain ⟨rfl, -, hr'⟩ := h'
      rw [ih hr hr']

theorem Chain.split (h : Chain m a (xs ++ t :: ys)) : t ≠ null ∧ Chain m (m t).next ys := by
  induction xs generalizing a with
  | nil =>
    obtain ⟨rfl, hne, hr⟩ := h
    exact ⟨hne, hr⟩
  | cons x xs ih => exact ih h.2.2

theorem queueFind_none (h : Chain m a as) (hno : data ∉ dataOf m as) : queueFind m data as.length a prev = none := by
  induction as generalizing a prev with
  | nil => rfl
  | cons x as ih =>
    obtain ⟨rfl, hne, hr⟩ := h
    rw [dataOf, map_cons, mem_cons, not_or] at hno
    rw [length_cons, queueFind, if_neg hne, if_neg fun he => hno.1 he.symm]
    exact ih hr hno.2

/-- The search finds the first node that holds the data, and the node before it. -/
theorem queueFind_first (h : Chain m a (xs ++ t :: ys)) (hno : data ∉ dataOf m xs)
    (ht : (m t).data = data) : queueFind m data (xs ++ t :: ys).length a prev = some (t, xs.getLastD prev) := by
  induction xs generalizing a prev with
  | nil =>
    obtain ⟨rfl, hne, -⟩ := h
    rw [nil_append, length_cons, queueFind, if_neg hne, if_pos ht]
    rfl
  | cons x xs ih =>
    obtain ⟨rfl, hne, hr⟩ := h
    rw [dataOf, map_cons, mem_cons, not_or] at hno
    rw [cons_append, length_cons, queueFind, if_neg hne, if_neg fun he => hno.1 he.symm, ih hr hno.2, getLastD_cons]

/-- Leading the last node before `t` past it takes `t` out of the chain. -/
theorem Chain.unlink (h : Chain m a (xs ++ p :: t :: ys)) (hnd : (xs ++ p :: t :: ys).Nodup) :
    Chain (update m p { m p with next := (m t).next }) a (xs ++ p :: ys) := by
  induction xs generalizing a with
  | nil =>
    obtain ⟨rfl, hne, hr⟩ := h
    obtain ⟨-, hys⟩ := (show Chain m (m a).next ([] ++ t :: ys) from hr).split
    have hnot : a ∉ ys := by
      rw [nil_append] at hnd
      exact fun hmem => (nodup_cons.mp hnd).1 (.tail t hmem)
    refine ⟨rfl, hne, ?_⟩
    rw [update_self]
    refine hys.congr fun x hx => update_of_ne ?_ _ _
    rintro rfl
    exact hnot hx
  | cons x xs ih =>
    obtain ⟨rfl, hne, hr⟩ := h
    have hap : a ≠ p := by
      rintro rfl
      simp at hnd
    refine ⟨rfl, hne, ?_⟩
    rw [update_of_ne hap]
    exact ih hr (nodup_cons.mp hnd).2

/-- `queue_remove` of data that is there: the first node that holds it is out of the chain. The rear is as before. -/
theorem queueRemove_chain (h : Holds m q (xs ++ t :: ys)) (hno : (m t).data ∉ dataOf m xs) :
    ∃ m' q', queueRemove m q (m t).data = .ok (m', q') ∧ Chain m' q'.front (xs ++ ys) ∧ q'.rear = q.rear ∧ q'.count + 1 = q.count ∧
      q'.lock = false ∧ ∀ x, (m' x).data = (m x).data := by
  have hfind : queueFind m (m t).data (xs ++ t :: ys).length q.front null = some (t, xs.getLastD null) := queueFind_first h.chain hno rfl
  rw [← h.count] at hfind
  have hcount : q.count - 1 + 1 = q.count := by
    rw [h.count, length_append, length_cons]
    omega
  rw [queueRemove, h.unlocked, hfind]
  rcases eq_nil_or_concat xs with rfl | ⟨init, p, rfl⟩
  · obtain ⟨rfl, -, hr⟩ := h.chain
    exact ⟨m, _, rfl, hr, rfl, hcount, rfl, fun _ => rfl⟩
  · rw [concat_eq_append] at h ⊢
    have hp : p ≠ null := h.chain.ne_null p (by simp)
    have hchain := h.chain
    have hnodup := h.nodup
    rw [append_assoc] at hchain hnodup
    have hlast : (init ++ [p]).getLastD null = p := by simp
    rw [hlast]
    dsimp only
    rw [if_neg hp]
    refine ⟨_, _, rfl, ?_, rfl, hcount, rfl, fun x => ?_⟩
    · rw [append_assoc]
      exact hchain.unlink hnodup
    · by_cases hxp : x = p
      · rw [hxp, update_self]
      · rw [update_of_ne hxp]

end OmegaOS
