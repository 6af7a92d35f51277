import OmegaOS.Lemmas.HeapSteps

/-!
# Chunks that come and go

Taking a chunk out of the list of all chunks joins it to the one before it; adding one splits a chunk in two. Both happen to
chunks that are not free at that moment, so the free lists stay as they are.
-/

namespace OmegaOS

open ByteMem Ring List

variable {m m' : Mem} {b c2 x v : Nat} {loose' : Nat → Prop}

variable {hp : Heap} {B : Nat → List Nat} {loose : Nat → Prop} {m1 m2 : List Nat} {c : Nat}

/-- Other chunks may come and go as long as the free ones and their sizes stay. -/
theorem HeapInv.relayout {mid mid' : List Nat} (h : HeapInv hp mid B loose) (hlay : Layout { hp with mem := m' } mid')
    (hsent : chunkUsed m' hp.first ≠ 0 ∧ chunkUsed m' hp.last ≠ 0)
    (hfree : ∀ x ∈ mid', IsFree m' loose' x → x ∈ mid ∧ IsFree hp.mem loose x)
    (hstay : ∀ x ∈ mid, IsFree hp.mem loose x → x ∈ mid' ∧ IsFree m' loose' x ∧ nextPtr m' x = nextPtr hp.mem x)
    (hnodes : ∀ n, ∀ x ∈ B n, nextPtr m' (freeNode x) = nextPtr hp.mem (freeNode x) ∧
      prevPtr m' (freeNode x) = prevPtr hp.mem (freeNode x)) :
    HeapInv { hp with mem := m' } mid' B loose' := by
  refine ⟨hlay, hsent, ?_, fun n => (h.lists n).congr (hnodes n), h.nodup, ?_⟩
  · intro x hx hf hf'
    obtain ⟨hxm, hxf⟩ := hfree x hx hf
    have hkeep := (hstay x hxm hxf).2.2
    have hsucc := (hlay.succ (.tail _ hx)).1
    rcases mem_append.mp hsucc with hm | hm
    · have hold := (hfree _ hm hf').2
      have hnext := hkeep
      rw [show nextPtr ({ hp with mem := m' } : Heap).mem x = nextPtr hp.mem x from hnext] at hold
      exact h.noTwoFree x hxm hxf hold
    · rw [mem_singleton.mp hm] at hf'
      exact hsent.2 hf'.1
  · intro n x
    rw [h.listed n x]
    show _ ↔ x ∈ mid' ∧ IsFree m' loose' x ∧ Nat.log2 (nextPtr m' x - x - headerSize) = n
    constructor
    · rintro ⟨hx, hf, hs⟩
      obtain ⟨hx', hf', hn⟩ := hstay x hx hf
      exact ⟨hx', hf', by rwa [hn]⟩
    · rintro ⟨hx, hf, hs⟩
      obtain ⟨hx', hf'⟩ := hfree x hx hf
      exact ⟨hx', hf', by rw [← hs, (hstay x hx' hf').2.2]; rfl⟩

theorem chunks_split (hp : Heap) (m1 m2 : List Nat) (c : Nat) : chunks hp (m1 ++ c :: m2) = (hp.first :: m1) ++ c :: (m2 ++ [hp.last]) := by
  simp [chunks]

theorem chunks_perm (hp : Heap) (m1 m2 : List Nat) (c : Nat) :
    (c :: ((m2 ++ [hp.last]) ++ (hp.first :: m1))).Perm (chunks hp (m1 ++ c :: m2)) := by
  rw [chunks_split, ← cons_append]
  exact perm_append_comm

theorem chunks_without (hp : Heap) (m1 m2 : List Nat) : chunks hp (m1 ++ m2) = (hp.first :: m1) ++ (m2 ++ [hp.last]) := by
  simp [chunks]

theorem MarkApart.without (h : MarkApart (chunks hp (m1 ++ c :: m2)) x) : MarkApart (chunks hp (m1 ++ m2)) x := by
  refine h.subset fun u hu => ?_
  rw [chunks_without] at hu
  rw [chunks_split]
  exact ((sublist_cons_self c _).append_left _).subset hu

theorem mem_link (m1 m2 : List Nat) (c c2 x : Nat) : x ∈ m1 ++ c :: c2 :: m2 ↔ x = c2 ∨ x ∈ m1 ++ c :: m2 := by
  simp only [mem_append, mem_cons]
  tauto

theorem mem_chunks_link (hp : Heap) (m1 m2 : List Nat) (c c2 x : Nat) :
    x ∈ chunks hp (m1 ++ c :: c2 :: m2) ↔ x = c2 ∨ x ∈ chunks hp (m1 ++ c :: m2) := by
  rw [mem_chunks, mem_chunks, mem_link]
  tauto

theorem Layout.headers_frame {mid : List Nat} (h : Layout hp mid) (hT : ∀ x ∈ T, x ∈ chunks hp mid) (hout : SameOutside T m m') :
    (∀ x ∈ chunks hp mid, chunkUsed m' x = chunkUsed m x) ∧ (∀ x ∈ chunks hp mid, nextPtr m' (freeNode x) = nextPtr m (freeNode x) ∧
        prevPtr m' (freeNode x) = prevPtr m (freeNode x)) ∧
      Untouched (chunks hp mid) (fun _ => False) m m' := by
  refine ⟨fun x hx => ?_, fun x hx => ?_, untouched_of_sameOutside hout fun x hx => .inl (hT x hx)⟩
  · exact h.used_of_sameOutside (fun y hy => ⟨y, hT y hy, .inl rfl⟩) hout hx
  · constructor
    all_goals
      refine load_congr fun b hlo hhi => hout b fun y hy => ?_
      have := h.apart hx (hT y hy)
      unfold freeNode headerSize at hlo hhi
      omega

/-- Taking a chunk that is not free out of the list of all chunks, behind one that is not free. -/
theorem HeapInv.unlink (h : HeapInv hp (m1 ++ c :: m2) B loose) (hc : ¬ IsFree hp.mem loose c)
    (hprev : ¬ IsFree hp.mem loose (prevPtr hp.mem c)) : HeapInv { hp with mem := dlistRemove hp.mem c } (m1 ++ m2) B loose ∧
      nextPtr (dlistRemove hp.mem c) (prevPtr hp.mem c) = nextPtr hp.mem c ∧
      (∀ x ∈ chunks hp (m1 ++ m2), x ≠ nextPtr hp.mem c → prevPtr (dlistRemove hp.mem c) x = prevPtr hp.mem x) ∧
      (∀ u ∈ hp.first :: (m1 ++ m2), u ≠ prevPtr hp.mem c → SameBlock hp.mem (dlistRemove hp.mem c) u) ∧
      (∀ x ∈ chunks hp (m1 ++ c :: m2), chunkUsed (dlistRemove hp.mem c) x = chunkUsed hp.mem x) ∧
      (∀ x ∈ chunks hp (m1 ++ c :: m2), nextPtr (dlistRemove hp.mem c) (freeNode x) = nextPtr hp.mem (freeNode x) ∧
        prevPtr (dlistRemove hp.mem c) (freeNode x) = prevPtr hp.mem (freeNode x)) ∧
      Untouched (chunks hp (m1 ++ c :: m2)) (fun _ => False) hp.mem (dlistRemove hp.mem c) := by
  have hsplit := chunks_split hp m1 m2 c
  have hring := h.ring
  have hgaps := h.gaps
  have hnd := nodup_of_gaps h.gaps
  rw [hsplit] at hring hgaps hnd
  have hrot := (isRing_rotate _ _).mp hring
  have hperm := chunks_perm hp m1 m2 c
  have hnd' := (hperm.nodup_iff.mpr (nodup_of_gaps h.gaps))
  have hsub : ∀ x ∈ c :: ((m2 ++ [hp.last]) ++ (hp.first :: m1)), IsNode (chunks hp (m1 ++ c :: m2)) x :=
    fun x hx => ⟨x, hperm.mem_iff.mp hx, .inl rfl⟩
  obtain ⟨hrest, -, -, hkeep, hkeepPrev, hout⟩ := dlistRemove_ring h.nodeSet hrot hnd' hsub
  obtain ⟨hused, hnodes, huntouched⟩ := h.headers_frame (fun x hx => hperm.mem_iff.mp hx) hout
  have hcmid : c ∈ m1 ++ c :: m2 := by simp
  obtain ⟨hpmem, hpnext⟩ := h.pred hcmid
  have hsubset : ∀ x ∈ chunks hp (m1 ++ m2), x ∈ chunks hp (m1 ++ c :: m2) ∧ x ≠ c := by
    intro x hx
    rw [chunks_without] at hx
    rw [hsplit]
    exact (mem_without hnd x).mp hx
  have hnext : ∀ x ∈ chunks hp (m1 ++ m2), x ≠ prevPtr hp.mem c → nextPtr (dlistRemove hp.mem c) x = nextPtr hp.mem x := by
    intro x hx hne
    obtain ⟨hx', hxc⟩ := hsubset x hx
    exact hkeep x ⟨x, hx', .inl rfl⟩ hxc hne
  have hlay : Layout { hp with mem := dlistRemove hp.mem c } (m1 ++ m2) := by
    refine ⟨h.firstAt, h.lastAt, ?_, ?_⟩
    · rw [chunks_without]
      exact hgaps.sublist ((sublist_cons_self c _).append_left _)
    · rw [chunks_without]
      exact (isRing_rotate _ _).mp hrest
  have hne : prevPtr hp.mem c ≠ c := by
    intro e
    have := (h.succ hpmem).2.2.1
    omega
  have hmid : ∀ x ∈ m1 ++ m2, x ∈ m1 ++ c :: m2 := fun x hx => by
    rcases mem_append.mp hx with hx | hx
    · exact mem_append_left _ hx
    · exact mem_append_right _ (.tail c hx)
  refine ⟨h.relayout hlay ?_ ?_ ?_ ?_, dlistRemove_joins h.nodeSet hrot hsub hne, ?_, ?_, hused, hnodes, huntouched⟩
  · rw [hused _ (mem_chunks.mpr (.inl rfl)), hused _ (mem_chunks.mpr (.inr (.inr rfl)))]
    exact h.sentinels
  · intro x hx hf
    exact ⟨hmid x hx, by rwa [IsFree, ← hused x (mid_sub_chunks (hmid x hx))]⟩
  · intro x hx hf
    have hxc : x ≠ c := fun e => hc (e ▸ hf)
    have hxp : x ≠ prevPtr hp.mem c := fun e => hprev (e ▸ hf)
    have hx' : x ∈ m1 ++ m2 := by
      rcases mem_append.mp hx with hx | hx
      · exact mem_append_left _ hx
      · exact mem_append_right _ ((mem_cons.mp hx).resolve_left hxc)
    exact ⟨hx', by rwa [IsFree, hused x (mid_sub_chunks hx)], hnext x (mid_sub_chunks hx') hxp⟩
  · exact fun n x hx => hnodes x (mid_sub_chunks (h.listed_mid hx))
  · intro x hx hne
    obtain ⟨hx', hxc⟩ := hsubset x hx
    exact hkeepPrev x ⟨x, hx', .inl rfl⟩ hxc hne
  · intro u hu hne
    have hu' := mem_cons.mpr ((mem_cons.mp hu).imp id (hmid u))
    exact ⟨hnext u (front_sub_chunks hu) hne, hused u (front_sub_chunks hu'), huntouched.payload h.toLayout hu' id⟩

/-! ## A new chunk -/

/-- A chunk that `memory_chunk_init` has just made: unused, and alone in both its lists. -/
structure FreshChunk (m : Mem) (c : Nat) : Prop where
  next : nextPtr m c = c
  prev : prevPtr m c = c
  used : chunkUsed m c = 0
  freeNext : nextPtr m (freeNode c) = freeNode c
  freePrev : prevPtr m (freeNode c) = freeNode c

theorem dlistInit_outside (m : Mem) (h : b < d ∨ d + 16 ≤ b) : dlistInit m d b = m b := by
  rw [dlistInit, setPrevPtr, store_outside _ _ (by omega), setNextPtr, store_outside _ _ (by omega)]

theorem memoryChunkInit_outside (m : Mem) (h : b < c ∨ c + 40 ≤ b) : memoryChunkInit m c b = m b := by
  have hb : b < c + headerSize ∨ c + headerSize + 16 ≤ b := by
    unfold headerSize
    omega
  rw [memoryChunkInit, dlistInit_outside _ hb, setChunkUsed, store_outside _ _ (by omega), dlistInit_outside _ (by omega)]

theorem memoryChunkInit_fresh (m : Mem) (hc : c + 40 ≤ 2 ^ 64) : FreshChunk (memoryChunkInit m c) c := by
  have hS : NodeSet fun x => x = c ∨ x = freeNode c := by
    unfold freeNode headerSize
    exact ⟨fun x y hx hy hne => by omega, fun x hx => by omega⟩
  obtain ⟨hn, hp⟩ := dlistInit_links hS m (.inl rfl)
  obtain ⟨hfn, hfp⟩ := dlistInit_links hS (setChunkUsed (dlistInit m c) c 0) (.inr rfl)
  -- the last writes are to the node in the payload, behind the header
  have hhead : ∀ b, b < c + 24 → memoryChunkInit m c b = setChunkUsed (dlistInit m c) c 0 b := fun b hb => dlistInit_outside _ (.inl hb)
  refine ⟨?_, ?_, ?_, hfn, hfp⟩
  · refine (load_congr fun b _ hb => hhead b (by omega)).trans ?_
    exact (load_store_disjoint _ _ (by omega)).trans hn
  · refine (load_congr fun b _ hb => hhead b (by omega)).trans ?_
    exact (load_store_disjoint _ _ (by omega)).trans hp
  · refine (load_congr fun b _ hb => hhead b (by omega)).trans ?_
    exact load_store_same _ _ 4 (by decide)

/-- What a write to one place leaves of the nodes and marks elsewhere. -/
theorem loads_outside {lo hi : Nat} (h : ∀ b, b < lo ∨ hi ≤ b → m' b = m b) (hx : x + 40 ≤ lo ∨ hi ≤ x) :
    (nextPtr m' x = nextPtr m x ∧ prevPtr m' x = prevPtr m x ∧ chunkUsed m' x = chunkUsed m x) ∧
      nextPtr m' (freeNode x) = nextPtr m (freeNode x) ∧ prevPtr m' (freeNode x) = prevPtr m (freeNode x) := by
  unfold freeNode headerSize
  refine ⟨⟨?_, ?_, ?_⟩, ?_, ?_⟩
  all_goals exact load_congr fun b hlo hhi => h b (by omega)

section

variable (h : Layout hp (m1 ++ c :: m2))

include h

theorem Layout.gaps_link (hlo : c + 40 ≤ c2) (hhi : c2 + 40 ≤ nextPtr hp.mem c) :
    (chunks hp (m1 ++ c :: c2 :: m2)).Pairwise fun a b => a + chunkStructSize ≤ b := by
  have hcmid : c ∈ m1 ++ c :: m2 := by simp
  have hsucc := (h.succ (.tail _ hcmid)).2.2.2
  have hgaps := h.gaps
  rw [chunks_split] at hgaps
  obtain ⟨hleft, hright, hcross⟩ := pairwise_append.mp hgaps
  obtain ⟨hcr, hright⟩ := pairwise_cons.mp hright
  have hnew : ∀ y ∈ m2 ++ [hp.last], c2 + chunkStructSize ≤ y := by
    intro y hy
    have hafter := hcr y hy
    have := hsucc y (by rw [chunks_split]; exact mem_append_right _ (.tail c hy))
    unfold chunkStructSize at *
    omega
  rw [chunks_split, cons_append]
  refine pairwise_append.mpr ⟨hleft, pairwise_cons.mpr ⟨?_, pairwise_cons.mpr ⟨hnew, hright⟩⟩, ?_⟩
  · intro y hy
    rcases mem_cons.mp hy with rfl | hy
    · exact hlo
    · exact hcr y hy
  · intro x hx y hy
    have hxc := hcross x hx c mem_cons_self
    rcases mem_cons.mp hy with rfl | hy
    · exact hxc
    · rcases mem_cons.mp hy with rfl | hy
      · omega
      · exact hcross x hx y (.tail c hy)

/-- A chunk `c2` was made behind `c`; the other headers, and the payloads of the other chunks, are as they were. -/
structure ChunkAdded (hp : Heap) (m1 m2 : List Nat) (c c2 : Nat) (m : Mem) : Prop where
  layout : Layout { hp with mem := m } (m1 ++ c :: c2 :: m2)
  new : c2 ∉ chunks hp (m1 ++ c :: m2)
  nextOld : nextPtr m c = c2
  nextNew : nextPtr m c2 = nextPtr hp.mem c
  next : ∀ x ∈ chunks hp (m1 ++ c :: m2), x ≠ c → nextPtr m x = nextPtr hp.mem x
  used : ∀ x ∈ chunks hp (m1 ++ c :: m2), chunkUsed m x = chunkUsed hp.mem x
  nodes : ∀ x ∈ chunks hp (m1 ++ c :: m2), nextPtr m (freeNode x) = nextPtr hp.mem (freeNode x) ∧
    prevPtr m (freeNode x) = prevPtr hp.mem (freeNode x)
  unmarked : chunkUsed m c2 = 0
  alone : nextPtr m (freeNode c2) = freeNode c2 ∧ prevPtr m (freeNode c2) = freeNode c2
  blocks : ∀ u ∈ hp.first :: (m1 ++ c :: m2), u ≠ c → SameBlock hp.mem m u
  untouched : Untouched (chunks hp (m1 ++ c :: c2 :: m2)) (fun x => x = c2) hp.mem m

/-- In a ring, what follows an element is the head of the rest. -/
theorem Layout.next_eq (hb : m2 ++ [hp.last] = b :: l) : nextPtr hp.mem c = b := by
  have hring := h.ring
  rw [chunks_split, hb] at hring
  exact hring.link.1

/-- A new chunk in the payload of `c`. -/
theorem Layout.link (hlo : c + 40 ≤ c2) (hhi : c2 + 40 ≤ nextPtr hp.mem c) :
    ChunkAdded hp m1 m2 c c2 (dlistInsertAfter (memoryChunkInit hp.mem c2) c c2) := by
  have hcmid : c ∈ m1 ++ c :: m2 := by simp
  have hcs : c ∈ chunks hp (m1 ++ c :: m2) := mid_sub_chunks hcmid
  have hsplit := chunks_split hp m1 m2 c
  have hgaps := h.gaps_link hlo hhi
  have hsucc := (h.succ (.tail _ hcmid)).2.2.2
  have hold : ∀ x ∈ chunks hp (m1 ++ c :: m2), x + 40 ≤ c2 ∨ c2 + 40 ≤ x := by
    intro x hx
    have := hsucc x hx
    omega
  have hmem := fun x => mem_chunks_link hp m1 m2 c c2 x
  have hbound : ∀ x ∈ chunks hp (m1 ++ c :: c2 :: m2), x + 40 ≤ 2 ^ 64 := by
    intro x hx
    rcases (hmem x).mp hx with rfl | hx
    · have := (h.bounds (.tail _ (h.succ (.tail _ hcmid)).1)).2
      omega
    · exact (h.bounds hx).2
  have hc2 : c2 ∈ chunks hp (m1 ++ c :: c2 :: m2) := (hmem c2).mpr (.inl rfl)
  have hnew : c2 ∉ chunks hp (m1 ++ c :: m2) := by
    intro hm
    have := hold c2 hm
    omega
  have hS := nodeSet_of_gaps hgaps hbound
  have hfresh := memoryChunkInit_fresh hp.mem (hbound c2 hc2)
  have hinit := fun b hb => memoryChunkInit_outside (c := c2) hp.mem (b := b) hb
  generalize memoryChunkInit hp.mem c2 = m0 at hfresh hinit ⊢
  have hkept := fun x hx => loads_outside hinit (hold x hx)
  have hring := h.ring.congr (fun x hx => ⟨(hkept x hx).1.1, (hkept x hx).1.2.1⟩ : ∀ x ∈ chunks hp (m1 ++ c :: m2),
    (linksOf m0).next x = (linksOf hp.mem).next x ∧ (linksOf m0).prev x = (linksOf hp.mem).prev x)
  rw [hsplit] at hring
  have hperm := chunks_perm hp m1 m2 c
  have hsub : ∀ x ∈ c :: ((m2 ++ [hp.last]) ++ (hp.first :: m1)), IsNode (chunks hp (m1 ++ c :: c2 :: m2)) x :=
    fun x hx => ⟨x, (hmem x).mpr (.inr (hperm.mem_iff.mp hx)), .inl rfl⟩
  obtain ⟨hring', hnext, -, hout⟩ := dlistInsertAfter_ring hS ((isRing_rotate _ _).mp hring)
    (hperm.nodup_iff.mpr (nodup_of_gaps h.gaps)) hsub ⟨c2, hc2, .inl rfl⟩ (fun hm => hnew (hperm.mem_iff.mp hm)) hfresh.prev
  have hsplit2 : chunks hp (m1 ++ c :: c2 :: m2) = (hp.first :: m1) ++ c :: c2 :: (m2 ++ [hp.last]) := by simp [chunks]
  have hlay : Layout { hp with mem := dlistInsertAfter m0 c c2 } (m1 ++ c :: c2 :: m2) := by
    refine ⟨h.firstAt, h.lastAt, hgaps, ?_⟩
    show IsRing _ (chunks hp (m1 ++ c :: c2 :: m2))
    rw [hsplit2]
    exact (isRing_rotate (c :: c2 :: (m2 ++ [hp.last])) (hp.first :: m1)).mp hring'
  obtain ⟨hused, hnodes, huntouched⟩ := hlay.headers_frame (fun x hx => (hmem x).mpr ((mem_cons.mp hx).imp id hperm.mem_iff.mp)) hout
  have hnext' : ∀ x ∈ chunks hp (m1 ++ c :: m2), x ≠ c → nextPtr (dlistInsertAfter m0 c c2) x = nextPtr hp.mem x := by
    intro x hx hne
    rw [hnext x ⟨x, (hmem x).mpr (.inr hx), .inl rfl⟩ hne (fun e => hnew (e ▸ hx))]
    exact (hkept x hx).1.1
  have hused' : ∀ x ∈ chunks hp (m1 ++ c :: m2), chunkUsed (dlistInsertAfter m0 c c2) x = chunkUsed hp.mem x := by
    intro x hx
    rw [hused x ((hmem x).mpr (.inr hx))]
    exact (hkept x hx).1.2.2
  have hnextc2 : nextPtr (dlistInsertAfter m0 c c2) c2 = nextPtr hp.mem c := by
    obtain ⟨b, l, hb⟩ := exists_cons_of_ne_nil (concat_ne_nil hp.last m2)
    have hlay2 := hlay
    rw [append_cons] at hlay2
    exact (hlay2.next_eq hb).trans (h.next_eq hb).symm
  refine ⟨hlay, hnew, hlay.next_eq rfl, hnextc2, hnext', hused', ?_, (hused c2 hc2).trans hfresh.used,
    ⟨(hnodes c2 hc2).1.trans hfresh.freeNext, (hnodes c2 hc2).2.trans hfresh.freePrev⟩, ?_, ?_⟩
  · intro x hx
    obtain ⟨hn, hp'⟩ := hnodes x ((hmem x).mpr (.inr hx))
    exact ⟨hn.trans (hkept x hx).2.1, hp'.trans (hkept x hx).2.2⟩
  · intro u hu hne
    have hus := front_sub_chunks hu
    have hu' := mem_cons.mpr ((mem_cons.mp hu).imp id fun hm => (mem_link m1 m2 c c2 u).mpr (.inr hm))
    refine ⟨hnext' u hus hne, hused' u hus, fun a hlo hhi => ?_⟩
    rw [← hnext' u hus hne] at hhi
    refine (huntouched.payload hlay hu' id a hlo hhi).trans (hinit a ?_)
    have hout := (h.succ hu).2.2.2 c hcs
    have hold' := hold u hus
    have hsucc' := hsucc u hus
    rw [hnext' u hus hne] at hhi
    omega
  · intro b hhead hpay
    refine (huntouched b hhead fun _ _ hf => hf.elim).trans (hinit b ?_)
    have := hhead c2 hc2
    have := hpay c2 hc2 rfl
    omega

end

/-- Splitting a loose chunk: a new loose chunk in its payload. -/
theorem HeapInv.link (h : HeapInv hp (m1 ++ c :: m2) B loose) (hl : loose c) (hadd : ChunkAdded hp m1 m2 c c2 m) :
    HeapInv { hp with mem := m } (m1 ++ c :: c2 :: m2) B (fun x => loose x ∨ x = c2) := by
  have hmid := fun x => mem_link m1 m2 c c2 x
  refine h.relayout hadd.layout ?_ ?_ ?_ fun n x hx => hadd.nodes x (mid_sub_chunks (h.listed_mid hx))
  · rw [hadd.used _ (mem_chunks.mpr (.inl rfl)), hadd.used _ (mem_chunks.mpr (.inr (.inr rfl)))]
    exact h.sentinels
  · intro x hx hf
    have hx' : x ∈ m1 ++ c :: m2 := ((hmid x).mp hx).resolve_left fun e => hf.2 (.inr e)
    exact ⟨hx', by rw [← hadd.used x (mid_sub_chunks hx')]; exact hf.1, fun hlx => hf.2 (.inl hlx)⟩
  · intro x hx hf
    have hxs : x ∈ chunks hp (m1 ++ c :: m2) := mid_sub_chunks hx
    refine ⟨(hmid x).mpr (.inr hx), ⟨by rw [hadd.used x hxs]; exact hf.1, ?_⟩, hadd.next x hxs fun e => hf.2 (e ▸ hl)⟩
    exact fun hlx => hlx.elim hf.2 fun e => hadd.new (e ▸ hxs)

/-! ## Marks and payloads -/

variable {mid : List Nat}

theorem chunkUsed_setChunkUsed (m : Mem) (c : Nat) (hv : v < 2 ^ 32) : chunkUsed (setChunkUsed m c v) c = v :=
  load_store_same m (c + 16) 4 hv

section

variable (h : HeapInv hp mid B loose) (hc : c ∈ mid)

include h hc

/-- Writing a mark keeps the invariant. -/
theorem HeapInv.setUsed (hv : v < 2 ^ 32)
    (hl : ∀ x, x ≠ c → (loose' x ↔ loose x)) (hbefore : ¬ IsFree hp.mem loose c) (hafter : v ≠ 0 ∨ loose' c) :
    HeapInv { hp with mem := setChunkUsed hp.mem c v } mid B loose' ∧
      (∀ x ∈ chunks hp mid, nextPtr (setChunkUsed hp.mem c v) x = nextPtr hp.mem x ∧
        prevPtr (setChunkUsed hp.mem c v) x = prevPtr hp.mem x) ∧
      (∀ x ∈ chunks hp mid, x ≠ c → chunkUsed (setChunkUsed hp.mem c v) x = chunkUsed hp.mem x) ∧
      Untouched (chunks hp mid) (fun _ => False) hp.mem (setChunkUsed hp.mem c v) := by
  have hcs : c ∈ chunks hp mid := mid_sub_chunks hc
  have hmark : ∀ b, b < c + 16 ∨ c + 20 ≤ b → setChunkUsed hp.mem c v b = hp.mem b := fun b hb => store_outside _ _ (by omega)
  have hlinks : ∀ x ∈ chunks hp mid, nextPtr (setChunkUsed hp.mem c v) x = nextPtr hp.mem x ∧
      prevPtr (setChunkUsed hp.mem c v) x = prevPtr hp.mem x := by
    intro x hx
    have hap := h.apart hx hcs
    exact ⟨load_congr fun b hlo hhi => hmark b (by omega), load_congr fun b hlo hhi => hmark b (by omega)⟩
  have hused : ∀ x ∈ chunks hp mid, x ≠ c → chunkUsed (setChunkUsed hp.mem c v) x = chunkUsed hp.mem x := by
    intro x hx hne
    have hap := h.apart hx hcs
    exact load_congr fun b hlo hhi => hmark b (by omega)
  have hnotFirst : hp.first ≠ c := fun e => (nodup_cons.mp (nodup_of_gaps h.gaps)).1 (by simp [e, hc])
  have hnotLast : hp.last ≠ c := by
    intro e
    have hpair := (pairwise_cons.mp h.gaps).2
    have := (pairwise_append.mp hpair).2.2 c hc hp.last (by simp)
    unfold chunkStructSize at this
    omega
  refine ⟨h.congr hlinks ?_ ?_ ?_, hlinks, hused, ?_⟩
  · intro x hx
    by_cases hxc : x = c
    · subst hxc
      refine iff_of_false ?_ hbefore
      rintro ⟨hu, hlx⟩
      rw [chunkUsed_setChunkUsed hp.mem x hv] at hu
      exact hafter.elim (fun hne => hne hu) hlx
    · unfold IsFree
      rw [hused x hx hxc, hl x hxc]
  · rw [hused _ (mem_chunks.mpr (.inl rfl)) hnotFirst, hused _ (mem_chunks.mpr (.inr (.inr rfl))) hnotLast]
    exact h.sentinels
  · intro n x hx
    have hap := h.apart (mid_sub_chunks (h.listed_mid hx)) hcs
    unfold freeNode headerSize
    exact ⟨load_congr fun b hlo hhi => hmark b (by omega), load_congr fun b hlo hhi => hmark b (by omega)⟩
  · intro b hhead _
    have := hhead c hcs
    exact hmark b (by omega)

theorem HeapInv.payload (hnot : ¬ IsFree hp.mem loose c) (hout : ∀ b, b < c + 24 ∨ nextPtr hp.mem c ≤ b → m' b = hp.mem b) :
    HeapInv { hp with mem := m' } mid B loose ∧ SameHeaders (chunks hp mid) hp.mem m' := by
  have hsucc := (h.succ (.tail _ hc)).2.2
  have hheads : SameHeaders (chunks hp mid) hp.mem m' := by
    intro x hx
    have := hsucc.2 x hx
    refine ⟨?_, ?_, ?_⟩
    all_goals exact load_congr fun b hlo hhi => hout b (by omega)
  refine ⟨h.relist hheads h.noTwoFree (fun n => (h.lists n).congr fun x hx => ?_) h.nodup h.listed, hheads⟩
  have hxc : x ≠ c := fun e => hnot (e ▸ ((h.listed n x).mp hx).2.1)
  have := hsucc.2 x (mid_sub_chunks (h.listed_mid hx))
  unfold freeNode headerSize
  exact ⟨load_congr fun b hlo hhi => hout b (by omega), load_congr fun b hlo hhi => hout b (by omega)⟩

/-- Making the node in the payload of a chunk that is not free single. -/
theorem HeapInv.initNode (hnot : ¬ IsFree hp.mem loose c) : HeapInv { hp with mem := dlistInit hp.mem (freeNode c) } mid B loose ∧
      nextPtr (dlistInit hp.mem (freeNode c)) (freeNode c) = freeNode c ∧
      prevPtr (dlistInit hp.mem (freeNode c)) (freeNode c) = freeNode c ∧
      SameHeaders (chunks hp mid) hp.mem (dlistInit hp.mem (freeNode c)) ∧
      Untouched (chunks hp mid) (fun x => x = c) hp.mem (dlistInit hp.mem (freeNode c)) := by
  have hcs : c ∈ chunks hp mid := mid_sub_chunks hc
  have hgap := (h.succ (.tail _ hc)).2.2.1
  have hinit : ∀ b, b < c + 24 ∨ c + 40 ≤ b → dlistInit hp.mem (freeNode c) b = hp.mem b := by
    intro b hb
    refine dlistInit_outside hp.mem ?_
    unfold freeNode headerSize
    omega
  obtain ⟨hinv, hheads⟩ := h.payload hc hnot fun b hb => hinit b (by omega)
  obtain ⟨hn, hp'⟩ := dlistInit_links h.nodeSet hp.mem ⟨c, hcs, .inr rfl⟩
  exact ⟨hinv, hn, hp', hheads, fun b _ hpay => hinit b (hpay c hcs rfl)⟩

end

end OmegaOS
