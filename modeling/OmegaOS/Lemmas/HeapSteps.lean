import OmegaOS.Lemmas.Heap

/-!
# Steps of the heap's operations

Taking a chunk out of its free list, putting it into one, taking it out of the list of all chunks, adding one there, and
setting a mark: each keeps the invariant, with one chunk more or less loose.
-/

namespace OmegaOS

open ByteMem Ring List Function

variable {c n u x size : Nat} {m m' : Mem} {W loose' : Nat → Prop} {cs T l1 l2 : List Nat}

variable {hp : Heap} {mid : List Nat} {B : Nat → List Nat} {loose : Nat → Prop}

/-! ## What the invariant reads -/

/-- The invariant reads the links of the chunks, their marks, and the links of the listed chunks. -/
theorem HeapInv.congr (h : HeapInv hp mid B loose)
    (hall : ∀ x ∈ chunks hp mid, nextPtr m' x = nextPtr hp.mem x ∧ prevPtr m' x = prevPtr hp.mem x)
    (hfree : ∀ x ∈ chunks hp mid, IsFree m' loose' x ↔ IsFree hp.mem loose x) (hsent : chunkUsed m' hp.first ≠ 0 ∧ chunkUsed m' hp.last ≠ 0)
    (hnodes : ∀ n, ∀ x ∈ B n, nextPtr m' (freeNode x) = nextPtr hp.mem (freeNode x) ∧
      prevPtr m' (freeNode x) = prevPtr hp.mem (freeNode x)) :
    HeapInv { hp with mem := m' } mid B loose' := by
  refine ⟨⟨h.firstAt, h.lastAt, h.gaps, h.ring.congr hall⟩, hsent, ?_, fun n => (h.lists n).congr (hnodes n), h.nodup, ?_⟩
  · intro c hc hf
    have hcs : c ∈ chunks hp mid := mid_sub_chunks hc
    have hsucc := (h.succ (.tail _ hc)).1
    have hncs : nextPtr hp.mem c ∈ chunks hp mid := .tail _ hsucc
    rw [(hall c hcs).1, hfree _ hncs]
    exact h.noTwoFree c hc ((hfree c hcs).mp hf)
  · intro n c
    rw [h.listed n c]
    refine and_congr_right fun hc => ?_
    have hcs : c ∈ chunks hp mid := mid_sub_chunks hc
    show _ ↔ IsFree m' loose' c ∧ Nat.log2 (nextPtr m' c - c - headerSize) = n
    rw [hfree c hcs, (hall c hcs).1]
    rfl

theorem Layout.used_of_sameOutside (h : Layout hp mid)
    (hT : ∀ x ∈ T, IsNode (chunks hp mid) x) (hout : SameOutside T m m') (hc : c ∈ chunks hp mid) : chunkUsed m' c = chunkUsed m c := by
  refine load_congr fun b hlo hhi => hout b fun x hx => ?_
  obtain ⟨c', hc', hx⟩ := hT x hx
  have := h.apart hc hc'
  unfold freeNode headerSize at hx
  omega

/-- The same headers. -/
def SameHeaders (cs : List Nat) (m m' : Mem) : Prop :=
  ∀ x ∈ cs, nextPtr m' x = nextPtr m x ∧ prevPtr m' x = prevPtr m x ∧ chunkUsed m' x = chunkUsed m x

/-- The bytes that may change: headers, and the place of the free links in the chunks of a set. -/
def Untouched (cs : List Nat) (W : Nat → Prop) (m m' : Mem) : Prop :=
  ∀ b, (∀ x ∈ cs, b < x ∨ x + 24 ≤ b) → (∀ x ∈ cs, W x → b < x + 24 ∨ x + 40 ≤ b) → m' b = m b

theorem untouched_of_sameOutside (hout : SameOutside T m m')
    (hT : ∀ x ∈ T, x ∈ cs ∨ ∃ c ∈ cs, W c ∧ x = freeNode c) : Untouched cs W m m' := by
  intro b hhead hpay
  refine hout b fun x hx => ?_
  rcases hT x hx with hx | ⟨c, hc, hw, rfl⟩
  · have := hhead x hx
    omega
  · have := hpay c hc hw
    unfold freeNode headerSize
    omega

/-- The links of the chunks leave out the mark of a header at `x`. -/
def MarkApart (cs : List Nat) (x : Nat) : Prop := ∀ u ∈ cs, u = x ∨ u + 40 ≤ x + 16 ∨ x + 20 ≤ u

theorem MarkApart.subset {cs' : List Nat} (h : MarkApart cs x) (hsub : ∀ u ∈ cs', u ∈ cs) : MarkApart cs' x := fun u hu => h u (hsub u hu)

theorem Layout.markApart (h : Layout hp mid) (hx : x ∈ chunks hp mid) : MarkApart (chunks hp mid) x := by
  intro u hu
  have := h.apart hu hx
  omega

/-- A mark where no chunk is stays as it is, and so does every mark when those of the chunks do. -/
theorem Untouched.mark (h : Untouched cs W m m') (hx : MarkApart cs x)
    (hused : x ∈ cs → chunkUsed m' x = chunkUsed m x) : chunkUsed m' x = chunkUsed m x := by
  by_cases hmem : x ∈ cs
  · exact hused hmem
  · refine load_congr fun b hlo hhi => h b (fun u hu => ?_) fun u hu _ => ?_
    all_goals
      have hne : u ≠ x := fun e => hmem (e ▸ hu)
      have := hx u hu
      omega

theorem SameHeaders.mark (h : SameHeaders cs m m') (hun : Untouched cs W m m')
    (hx : MarkApart cs x) : chunkUsed m' x = chunkUsed m x := hun.mark hx fun hmem => (h x hmem).2.2

/-- A chunk that keeps its size, its mark and its payload. -/
structure SameBlock (m m' : Mem) (u : Nat) : Prop where
  next : nextPtr m' u = nextPtr m u
  used : chunkUsed m' u = chunkUsed m u
  bytes : ∀ b, u + headerSize ≤ b → b < nextPtr m u → m' b = m b

theorem SameBlock.refl (m : Mem) (u : Nat) : SameBlock m m u := ⟨rfl, rfl, fun _ _ _ => rfl⟩

theorem SameBlock.trans {m1 m2 m3 : Mem} (h : SameBlock m1 m2 u) (h' : SameBlock m2 m3 u) : SameBlock m1 m3 u :=
  ⟨h'.next.trans h.next, h'.used.trans h.used, fun b hlo hhi =>
    (h'.bytes b hlo (hhi.trans_eq h.next.symm)).trans (h.bytes b hlo hhi)⟩

/-- Writes to headers and to free links do not reach the payload of another chunk. -/
theorem Untouched.payload (h : Untouched (chunks hp mid) W m m') (hlay : Layout hp mid)
    (hu : u ∈ hp.first :: mid) (hw : ¬ W u) : ∀ b, u + headerSize ≤ b → b < nextPtr hp.mem u → m' b = m b := by
  intro b hlo hhi
  have hsucc := (hlay.succ hu).2.2.2
  unfold headerSize at hlo
  refine h b (fun x hx => ?_) fun x hx hwx => ?_
  · have := hsucc x hx
    omega
  · have hne : x ≠ u := fun e => hw (e ▸ hwx)
    have := hsucc x hx
    omega

theorem SameHeaders.sameBlock (h : SameHeaders (chunks hp mid) hp.mem m')
    (hun : Untouched (chunks hp mid) W hp.mem m') (hlay : Layout hp mid) (hu : u ∈ hp.first :: mid) (hw : ¬ W u) : SameBlock hp.mem m' u :=
  ⟨(h u (front_sub_chunks hu)).1, (h u (front_sub_chunks hu)).2.2, hun.payload hlay hu hw⟩

theorem HeapInv.list_unique (h : HeapInv hp mid B loose) {k : Nat} (hn : c ∈ B n) (hk : c ∈ B k) : n = k :=
  ((h.listed n c).mp hn).2.2.symm.trans ((h.listed k c).mp hk).2.2

theorem HeapInv.listed_mid (h : HeapInv hp mid B loose) (hc : c ∈ B n) : c ∈ mid := ((h.listed n c).mp hc).1

theorem HeapInv.isNode_freeNode (h : HeapInv hp mid B loose) (hc : c ∈ B n) : IsNode (chunks hp mid) (freeNode c) :=
  ⟨c, mid_sub_chunks (h.listed_mid hc), .inr rfl⟩

/-! ## Out of a free list and into one -/

theorem mem_without (hnd : (l1 ++ c :: l2).Nodup) (x : Nat) : x ∈ l1 ++ l2 ↔ x ∈ l1 ++ c :: l2 ∧ x ≠ c := by
  have hc : c ∉ l1 ++ l2 := (nodup_cons.mp (perm_middle.nodup_iff.mp hnd)).1
  rw [perm_middle.mem_iff, mem_cons]
  constructor
  · exact fun hx => ⟨.inr hx, fun e => hc (e ▸ hx)⟩
  · rintro ⟨hx, hne⟩
    exact hx.resolve_left hne

/-- The free lists may change as long as they list the chunks that are free then. -/
theorem HeapInv.relist (h : HeapInv hp mid B loose) {heads : Nat → Nat} {B' : Nat → List Nat}
    (hheads : SameHeaders (chunks hp mid) hp.mem m') (hno : ∀ c ∈ mid, IsFree hp.mem loose' c → ¬ IsFree hp.mem loose' (nextPtr hp.mem c))
    (hlists : ∀ n, FreeList m' (heads n) (B' n)) (hnd : ∀ n, (B' n).Nodup)
    (hlisted : ∀ n c, c ∈ B' n ↔ c ∈ mid ∧ IsFree hp.mem loose' c ∧ Nat.log2 (chunkSize hp.mem c) = n) :
    HeapInv { hp with mem := m', freeChunks := heads } mid B' loose' := by
  have hfree : ∀ x ∈ chunks hp mid, IsFree m' loose' x ↔ IsFree hp.mem loose' x := by
    intro x hx
    rw [IsFree, (hheads x hx).2.2]
    rfl
  refine ⟨⟨h.firstAt, h.lastAt, h.gaps, h.ring.congr fun x hx => ⟨(hheads x hx).1, (hheads x hx).2.1⟩⟩, ?_, ?_, hlists, hnd, ?_⟩
  · rw [(hheads hp.first (mem_chunks.mpr (.inl rfl))).2.2, (hheads hp.last (mem_chunks.mpr (.inr (.inr rfl)))).2.2]
    exact h.sentinels
  · intro x hx hf
    have hxs : x ∈ chunks hp mid := mid_sub_chunks hx
    have hncs : nextPtr hp.mem x ∈ chunks hp mid := .tail _ (h.succ (.tail _ hx)).1
    rw [(hheads x hxs).1, hfree _ hncs]
    exact hno x hx ((hfree x hxs).mp hf)
  · intro n x
    rw [hlisted n x]
    refine and_congr_right fun hx => ?_
    have hxs : x ∈ chunks hp mid := mid_sub_chunks hx
    show _ ↔ IsFree m' loose' x ∧ Nat.log2 (nextPtr m' x - x - headerSize) = n
    rw [hfree x hxs, (hheads x hxs).1]
    rfl

theorem HeapInv.nodes_frame (h : HeapInv hp mid B loose) {l : List Nat} (hl : ∀ x ∈ l, x ∈ mid ∧ chunkUsed hp.mem x = 0)
    (hframe : ∀ y, IsNode (chunks hp mid) y → y ∉ l.map freeNode → nextPtr m' y = nextPtr hp.mem y ∧ prevPtr m' y = prevPtr hp.mem y)
    (hout : SameOutside (l.map freeNode) hp.mem m') :
    SameHeaders (chunks hp mid) hp.mem m' ∧ Untouched (chunks hp mid) (fun x => chunkUsed hp.mem x = 0) hp.mem m' := by
  have hnodes : ∀ x ∈ l.map freeNode, IsNode (chunks hp mid) x := by
    intro x hx
    obtain ⟨y, hy, rfl⟩ := mem_map.mp hx
    exact ⟨y, mid_sub_chunks (hl y hy).1, .inr rfl⟩
  refine ⟨fun x hx => ?_, untouched_of_sameOutside hout fun x hx => ?_⟩
  · have hnot : x ∉ l.map freeNode := by
      intro hm
      obtain ⟨y, hy, he⟩ := mem_map.mp hm
      have := h.apart hx (mid_sub_chunks (hl y hy).1)
      unfold freeNode headerSize at *
      omega
    obtain ⟨hn, hp'⟩ := hframe x ⟨x, hx, .inl rfl⟩ hnot
    exact ⟨hn, hp', h.used_of_sameOutside hnodes hout hx⟩
  · obtain ⟨y, hy, rfl⟩ := mem_map.mp hx
    exact .inr ⟨y, mid_sub_chunks (hl y hy).1, (hl y hy).2, rfl⟩

/-- Taking a chunk out of its list. -/
theorem HeapInv.detach (h : HeapInv hp mid B loose) (hB : B n = l1 ++ c :: l2) : HeapInv { hp with
        mem := dlistRemove hp.mem (freeNode c), freeChunks := update hp.freeChunks n ((l1 ++ l2).headD null) }
        mid (update B n (l1 ++ l2)) (fun x => loose x ∨ x = c) ∧
      nextPtr (dlistRemove hp.mem (freeNode c)) (freeNode c) = freeNode c ∧
      prevPtr (dlistRemove hp.mem (freeNode c)) (freeNode c) = freeNode c ∧
      SameHeaders (chunks hp mid) hp.mem (dlistRemove hp.mem (freeNode c)) ∧
      Untouched (chunks hp mid) (fun x => chunkUsed hp.mem x = 0) hp.mem (dlistRemove hp.mem (freeNode c)) := by
  have hlist := h.lists n
  have hnd := h.nodup n
  have hsub : ∀ x ∈ B n, IsNode (chunks hp mid) (freeNode x) := fun x hx => h.isNode_freeNode hx
  have hl : ∀ x ∈ B n, x ∈ mid ∧ chunkUsed hp.mem x = 0 := fun x hx => ⟨h.listed_mid hx, ((h.listed n x).mp hx).2.1.1⟩
  have hcB : c ∈ B n := by rw [hB]; simp
  rw [hB] at hlist hnd hsub hl
  obtain ⟨hrest, hself, hself', hframe, hout⟩ := hlist.remove h.nodeSet hnd hsub
  obtain ⟨hheads, huntouched⟩ := h.nodes_frame hl hframe hout
  refine ⟨h.relist hheads ?_ ?_ ?_ ?_, hself, hself', hheads, huntouched⟩
  · exact fun x hx hf hn => h.noTwoFree x hx ⟨hf.1, fun hl => hf.2 (.inl hl)⟩ ⟨hn.1, fun hl => hn.2 (.inl hl)⟩
  · intro k
    by_cases hk : k = n
    · subst hk
      simpa using hrest
    · simp only [update_of_ne hk]
      refine (h.lists k).congr fun x hx => hframe _ (h.isNode_freeNode hx) fun hm => hk ?_
      rw [← hB] at hm
      exact h.list_unique hx (mem_map_freeNode.mp hm)
  · intro k
    by_cases hk : k = n
    · subst hk
      rw [update_self]
      exact hnd.sublist ((sublist_cons_self c l2).append_left l1)
    · rw [update_of_ne hk]
      exact h.nodup k
  · intro k x
    have hiff : x ∈ update B n (l1 ++ l2) k ↔ x ∈ B k ∧ x ≠ c := by
      by_cases hk : k = n
      · subst hk
        rw [update_self, hB]
        exact mem_without hnd x
      · rw [update_of_ne hk]
        refine ⟨fun hx => ⟨hx, fun e => hk ?_⟩, fun hx => hx.1⟩
        exact h.list_unique (e ▸ hx) hcB
    rw [hiff, h.listed k x]
    constructor
    · rintro ⟨⟨hx, hf, hs⟩, hne⟩
      exact ⟨hx, ⟨hf.1, fun hl => hl.elim hf.2 hne⟩, hs⟩
    · rintro ⟨hx, hf, hs⟩
      exact ⟨⟨hx, ⟨hf.1, fun hl => hf.2 (.inl hl)⟩, hs⟩, fun e => hf.2 (.inr e)⟩

/-! ## Sizes and lists -/

theorem memoryChunkSlotLoop_eq (fuel : Nat) (n : Int) (hpos : 0 < size) (hlt : size < 2 ^ fuel) :
    memoryChunkSlotLoop fuel n size = n + 1 + Nat.log2 size := by
  induction fuel generalizing n size with
  | zero => omega
  | succ fuel ih =>
    rw [memoryChunkSlotLoop, if_pos hpos, Nat.log2_def]
    by_cases hone : 2 ≤ size
    · rw [ih (n + 1) (by omega) (by rw [Nat.pow_succ] at hlt; omega), if_pos hone]
      push_cast
      omega
    · have hz : size / 2 = 0 := by omega
      rw [if_neg hone, hz]
      cases fuel <;> simp [memoryChunkSlotLoop]

/-- `memory_chunk_slot` is the integer part of the binary logarithm. -/
theorem memoryChunkSlot_eq (hpos : 0 < size) (hlt : size < 2 ^ 64) : memoryChunkSlot size = Nat.log2 size := by
  rw [memoryChunkSlot, memoryChunkSlotLoop_eq 64 (-1) hpos hlt]
  omega

section

variable (h : Layout hp mid) (hc : c ∈ hp.first :: mid)

include h hc

theorem Layout.size_bounds :
    minSize ≤ chunkSize hp.mem c ∧ chunkSize hp.mem c < 2 ^ 22 ∧ nextPtr hp.mem c = c + headerSize + chunkSize hp.mem c := by
  obtain ⟨hnext, -, hgap, -⟩ := h.succ hc
  have hcs : c ∈ chunks hp mid := by
    rcases mem_cons.mp hc with rfl | hc
    · exact mem_chunks.mpr (.inl rfl)
    · exact mid_sub_chunks hc
  have hlo := (h.bounds hcs).1
  have hhi : nextPtr hp.mem c ≤ hp.last := by
    rcases mem_append.mp hnext with hm | hm
    · have hpair := (pairwise_cons.mp h.gaps).2
      have := (pairwise_append.mp hpair).2.2 _ hm hp.last (by simp)
      omega
    · rw [mem_singleton.mp hm]
  have hlast := h.lastAt
  unfold chunkSize
  unfold headerSize minSize kernelHeapSize pageSize chunkStructSize at *
  omega

theorem Layout.memoryChunkSize_eq : memoryChunkSize hp.mem c = chunkSize hp.mem c := by
  obtain ⟨hmin, hmax, hnext⟩ := h.size_bounds hc
  have hcs : c ∈ chunks hp mid := by
    rcases mem_cons.mp hc with rfl | hc
    · exact mem_chunks.mpr (.inl rfl)
    · exact mid_sub_chunks hc
  have hb := (h.bounds hcs).2
  rw [memoryChunkSize, hnext]
  unfold headerSize minSize at *
  omega

/-- The list that `push_free` and `remove_free` use. -/
theorem Layout.slot_eq : (memoryChunkSlot (memoryChunkSize hp.mem c)).toNat = Nat.log2 (chunkSize hp.mem c) := by
  obtain ⟨hmin, hmax, -⟩ := h.size_bounds hc
  unfold minSize at hmin
  rw [h.memoryChunkSize_eq hc, memoryChunkSlot_eq (by omega) (by omega)]
  exact Int.toNat_natCast _

end

theorem HeapInv.removeFree (h : HeapInv hp mid B loose) (hc : c ∈ mid) (hf : IsFree hp.mem loose c) :
    ∃ m heads B', removeFree hp c = { hp with mem := m, freeChunks := heads } ∧
      HeapInv { hp with mem := m, freeChunks := heads } mid B' (fun x => loose x ∨ x = c) ∧
      nextPtr m (freeNode c) = freeNode c ∧ prevPtr m (freeNode c) = freeNode c ∧
      SameHeaders (chunks hp mid) hp.mem m ∧ Untouched (chunks hp mid) (fun x => chunkUsed hp.mem x = 0) hp.mem m := by
  have hlisted : c ∈ B (Nat.log2 (chunkSize hp.mem c)) := (h.listed _ c).mpr ⟨hc, hf, rfl⟩
  obtain ⟨l1, l2, hB⟩ := append_of_mem hlisted
  have hlist := h.lists (Nat.log2 (chunkSize hp.mem c))
  have hnd := h.nodup (Nat.log2 (chunkSize hp.mem c))
  rw [hB] at hlist hnd
  refine ⟨_, _, _, ?_, h.detach hB⟩
  rw [OmegaOS.removeFree, h.slot_eq (.tail _ hc), freeListRemoveFrom_eq hlist hnd]

/-- `push_free` of a loose chunk between chunks that are not free makes it free. -/
theorem HeapInv.pushFree (h : HeapInv hp mid B loose) (hc : c ∈ mid) (hu : chunkUsed hp.mem c = 0) (hl : loose c)
    (hnext : ¬ IsFree hp.mem loose (nextPtr hp.mem c)) (hprev : ¬ IsFree hp.mem loose (prevPtr hp.mem c))
    (hn : nextPtr hp.mem (freeNode c) = freeNode c) (hp' : prevPtr hp.mem (freeNode c) = freeNode c) :
    ∃ m heads B', pushFree hp c = { hp with mem := m, freeChunks := heads } ∧
      HeapInv { hp with mem := m, freeChunks := heads } mid B' (fun x => loose x ∧ x ≠ c) ∧
      SameHeaders (chunks hp mid) hp.mem m ∧ Untouched (chunks hp mid) (fun x => chunkUsed hp.mem x = 0) hp.mem m := by
  generalize hk : Nat.log2 (chunkSize hp.mem c) = n
  have hnot : ∀ k, c ∉ B k := fun k hm => ((h.listed k c).mp hm).2.1.2 hl
  have hl' : ∀ x ∈ c :: B n, x ∈ mid ∧ chunkUsed hp.mem x = 0 := by
    intro x hx
    rcases mem_cons.mp hx with rfl | hx
    · exact ⟨hc, hu⟩
    · exact ⟨h.listed_mid hx, ((h.listed n x).mp hx).2.1.1⟩
  have hsub : ∀ x ∈ c :: B n, IsNode (chunks hp mid) (freeNode x) := fun x hx => ⟨x, mid_sub_chunks (hl' x hx).1, .inr rfl⟩
  have hnull : ∀ x ∈ B n, x ≠ null := by
    intro x hx e
    have := (h.bounds (mid_sub_chunks (h.listed_mid hx))).1
    unfold kernelHeapStart null at *
    omega
  obtain ⟨m, heq, hlist, hframe, hout⟩ := freeListPush_spec h.nodeSet (h.lists n) (h.nodup n) hsub hnull (hnot n) hn hp'
  obtain ⟨hheads, huntouched⟩ := h.nodes_frame hl' hframe hout
  have hfree : ∀ x, IsFree hp.mem (fun x => loose x ∧ x ≠ c) x ↔ IsFree hp.mem loose x ∨ x = c := by
    intro x
    constructor
    · rintro ⟨hu, hl⟩
      by_cases hx : x = c
      · exact .inr hx
      · exact .inl ⟨hu, fun hlx => hl ⟨hlx, hx⟩⟩
    · rintro (⟨hu, hl⟩ | rfl)
      · exact ⟨hu, fun hlx => hl hlx.1⟩
      · exact ⟨hu, fun hlx => hlx.2 rfl⟩
  refine ⟨m, update hp.freeChunks n c, update B n (c :: B n), ?_, h.relist hheads ?_ ?_ ?_ ?_, hheads, huntouched⟩
  · rw [OmegaOS.pushFree, h.slot_eq (.tail _ hc), hk, heq]
  · intro x hx hf hf'
    rw [hfree] at hf hf'
    rcases hf with hf | rfl
    · rcases hf' with hf' | he
      · exact h.noTwoFree x hx hf hf'
      · rw [← he, (h.succ (.tail _ hx)).2.1] at hprev
        exact hprev hf
    · rcases hf' with hf' | he
      · exact hnext hf'
      · have := (h.succ (.tail _ hx)).2.2.1
        omega
  · intro k
    by_cases hkn : k = n
    · subst hkn
      simpa using hlist
    · simp only [update_of_ne hkn]
      refine (h.lists k).congr fun x hx => hframe _ (h.isNode_freeNode hx) fun hm => ?_
      rcases mem_cons.mp (mem_map_freeNode.mp hm) with rfl | hm
      · exact hnot k hx
      · exact hkn (h.list_unique hx hm)
  · intro k
    by_cases hkn : k = n
    · subst hkn
      rw [update_self]
      exact nodup_cons.mpr ⟨hnot k, h.nodup k⟩
    · rw [update_of_ne hkn]
      exact h.nodup k
  · intro k x
    have hiff : x ∈ update B n (c :: B n) k ↔ x ∈ B k ∨ (x = c ∧ k = n) := by
      by_cases hkn : k = n
      · subst hkn
        simp [or_comm]
      · simp [hkn]
    rw [hiff, h.listed k x, hfree x]
    constructor
    · rintro (⟨hx, hf, hs⟩ | ⟨rfl, rfl⟩)
      · exact ⟨hx, .inl hf, hs⟩
      · exact ⟨hc, .inr rfl, hk⟩
    · rintro ⟨hx, hf | rfl, hs⟩
      · exact .inl ⟨hx, hf, hs⟩
      · exact .inr ⟨rfl, hs.symm.trans hk⟩

end OmegaOS
