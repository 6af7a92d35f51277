import OmegaOS.Lemmas.HeapChunks

/-!
# `heap_init` and `kmalloc`

Between two operations no chunk is loose. `heap_init` makes such a heap, and `kmalloc` keeps it one: it takes a free chunk that is
large enough, splits it, and leaves the blocks in use as they are.
-/

namespace OmegaOS

open ByteMem Ring List

variable {hp : Heap} {mid : List Nat} {B : Nat → List Nat} {c u s fuel n size : Nat} {m : Mem} {f : Nat → Nat}

/-- No chunk is loose: what holds between two operations. -/
def noLoose : Nat → Prop := fun _ => False

/-- The chunks in use. -/
def InUse (hp : Heap) (mid : List Nat) (u : Nat) : Prop := u ∈ mid ∧ chunkUsed hp.mem u ≠ 0

/-- The chunks that no operation on others touches: those in use, and the first sentinel. -/
def Marked (hp : Heap) (mid : List Nat) (u : Nat) : Prop := u ∈ hp.first :: mid ∧ chunkUsed hp.mem u ≠ 0

theorem InUse.marked (h : InUse hp mid u) : Marked hp mid u := ⟨.tail _ h.1, h.2⟩

theorem HeapInv.tighten {loose loose' : Nat → Prop} (h : HeapInv hp mid B loose) (hl : ∀ x ∈ mid, loose' x ↔ loose x) :
    HeapInv hp mid B loose' := by
  refine h.congr (fun x _ => ⟨rfl, rfl⟩) (fun x hx => ?_) h.sentinels fun _ _ _ => ⟨rfl, rfl⟩
  rcases mem_chunks.mp hx with rfl | hx | rfl
  · exact iff_of_false (fun hf => h.sentinels.1 hf.1) fun hf => h.sentinels.1 hf.1
  · rw [IsFree, hl x hx]
    rfl
  · exact iff_of_false (fun hf => h.sentinels.2 hf.1) fun hf => h.sentinels.2 hf.1

/-! ## `heap_init` -/

theorem FreshChunk.outside {m' : Mem} {x lo hi : Nat} (hx : FreshChunk m x) (h : ∀ b, b < lo ∨ hi ≤ b → m' b = m b)
    (hout : x + 40 ≤ lo ∨ hi ≤ x) : FreshChunk m' x := by
  obtain ⟨⟨hn, hp, hu⟩, hfn, hfp⟩ := loads_outside h hout
  exact ⟨hn.trans hx.next, hp.trans hx.prev, hu.trans hx.used, hfn.trans hx.freeNext, hfp.trans hx.freePrev⟩

/-- Three chunks, linked as `heap_init` links them. -/
theorem threeChunks_ring {f l : Nat} (hfs : f + 40 ≤ s) (hsl : s + 40 ≤ l) (hl : l + 40 ≤ 2 ^ 64) (hf : FreshChunk m f)
    (hs : FreshChunk m s) (hlast : FreshChunk m l) : IsRing (linksOf (dlistInsertAfter (dlistInsertAfter m f s) s l)) [f, s, l] ∧
      SameOutside [f, s, l] m (dlistInsertAfter (dlistInsertAfter m f s) s l) := by
  have hS : NodeSet fun x => x = f ∨ x = s ∨ x = l := ⟨fun x y hx hy hne => by omega, fun x hx => by omega⟩
  have hsingle : IsRing (linksOf m) [f] := ⟨hf.next, hf.prev⟩
  obtain ⟨hring, -, hframe, hout⟩ := dlistInsertAfter_ring hS hsingle (by simp) (by simp) (.inr (.inl rfl)) (by simp; omega) hs.prev
  have hrot : IsRing (linksOf (dlistInsertAfter m f s)) [s, f] := (isRing_rotate [f] [s]).mp hring
  have hlprev := (hframe l (.inr (.inr rfl)) (by simp; omega)).2
  obtain ⟨hring', -, -, hout'⟩ := dlistInsertAfter_ring hS hrot (by simp; omega) (by simp) (.inr (.inr rfl))
    (by simp; omega) (hlprev.trans hlast.prev)
  refine ⟨(isRing_rotate [s, l] [f]).mp hring', SameOutside.trans (hout.mono ?_) (hout'.mono ?_)⟩
  · intro x hx
    simp only [mem_cons, not_mem_nil, or_false] at hx ⊢
    omega
  · intro x hx
    simp only [mem_cons, not_mem_nil, or_false] at hx ⊢
    omega

/-- `heap_init` makes one free chunk between the sentinels. -/
theorem heapInit_inv (m : Mem) : ∃ B, HeapInv (heapInit m) [kernelHeapStart + chunkStructSize] B noLoose ∧
      chunkUsed (heapInit m).mem (kernelHeapStart + chunkStructSize) = 0 := by
  unfold heapInit
  dsimp only
  generalize hf : kernelHeapStart = f
  have hl : f + kernelHeapSize - chunkStructSize + 40 ≤ 2 ^ 64 := by
    subst hf
    decide
  have hgap : f + chunkStructSize + 40 ≤ f + kernelHeapSize - chunkStructSize := by
    subst hf
    decide
  have hlast : f + kernelHeapSize - chunkStructSize = kernelHeapStart + kernelHeapSize - chunkStructSize := by rw [hf]
  have hsecond : f + 40 ≤ f + chunkStructSize := le_refl _
  generalize f + chunkStructSize = s at *
  generalize f + kernelHeapSize - chunkStructSize = l at *
  -- each `memory_chunk_init` leaves the chunks made before it alone
  have hfresh := memoryChunkInit_fresh (memoryChunkInit (memoryChunkInit m f) s) hl
  have hsfresh := (memoryChunkInit_fresh (memoryChunkInit m f) (show s + 40 ≤ 2 ^ 64 by omega)).outside
    (fun b hb => memoryChunkInit_outside (c := l) _ hb) (by omega)
  have hffresh := ((memoryChunkInit_fresh m (show f + 40 ≤ 2 ^ 64 by omega)).outside
    (fun b hb => memoryChunkInit_outside (c := s) _ hb) (by omega)).outside
    (fun b hb => memoryChunkInit_outside (c := l) _ hb) (by omega)
  obtain ⟨hring, hout⟩ := threeChunks_ring hsecond hgap hl hffresh hsfresh hfresh
  generalize memoryChunkInit (memoryChunkInit (memoryChunkInit m f) s) l = m0 at *
  generalize dlistInsertAfter (dlistInsertAfter m0 f s) s l = m1 at *
  have hmark : ∀ (m : Mem) (x c : Nat), x + 40 ≤ c ∨ c + 40 ≤ x → chunkUsed (setChunkUsed m c 1) x = chunkUsed m x :=
    fun m x c hap => load_store_disjoint m 1 (by omega)
  have hinv : HeapInv { mem := setChunkUsed (setChunkUsed m1 f 1) l 1, freeChunks := fun _ => null, first := f, last := l } [s]
      (fun _ => []) (fun x => x = s) := by
    refine ⟨⟨hf.symm, hlast, ?_, ?_⟩, ⟨?_, ?_⟩, ?_, fun n => ⟨rfl, trivial⟩, fun n => nodup_nil, ?_⟩
    · simp [chunks, chunkStructSize]
      omega
    · refine hring.congr fun x hx => ?_
      simp only [mem_cons, not_mem_nil, or_false] at hx
      constructor
      all_goals exact (load_store_disjoint _ _ (by omega)).trans (load_store_disjoint _ _ (by omega))
    · show chunkUsed (setChunkUsed (setChunkUsed m1 f 1) l 1) f ≠ 0
      rw [hmark (setChunkUsed m1 f 1) f l (by omega), chunkUsed_setChunkUsed m1 f (by decide)]
      exact Nat.one_ne_zero
    · show chunkUsed (setChunkUsed (setChunkUsed m1 f 1) l 1) l ≠ 0
      rw [chunkUsed_setChunkUsed _ l (by decide)]
      exact Nat.one_ne_zero
    · exact fun x hx hf' => absurd (mem_singleton.mp hx) hf'.2
    · exact fun n x => iff_of_false not_mem_nil fun hx => hx.2.1.2 (mem_singleton.mp hx.1)
  -- the links of the list of all chunks and the marks of the sentinels lie outside the rest of the second chunk
  have hrest : ∀ b, s + 16 ≤ b → b < s + 40 → setChunkUsed (setChunkUsed m1 f 1) l 1 b = m0 b := by
    intro b hlo hhi
    rw [setChunkUsed, store_outside _ _ (by omega), setChunkUsed, store_outside _ _ (by omega)]
    refine hout b fun x hx => ?_
    simp only [mem_cons, not_mem_nil, or_false] at hx
    omega
  have hs : s ∈ [s] := mem_singleton.mpr rfl
  have hused : chunkUsed (setChunkUsed (setChunkUsed m1 f 1) l 1) s = 0 :=
    (load_congr fun b hlo hhi => hrest b (by omega) (by omega)).trans hsfresh.used
  have hnodes : nextPtr (setChunkUsed (setChunkUsed m1 f 1) l 1) (freeNode s) = freeNode s ∧
      prevPtr (setChunkUsed (setChunkUsed m1 f 1) l 1) (freeNode s) = freeNode s := by
    refine ⟨(load_congr fun b hlo hhi => hrest b ?_ ?_).trans hsfresh.freeNext,
      (load_congr fun b hlo hhi => hrest b ?_ ?_).trans hsfresh.freePrev⟩
    all_goals
      unfold freeNode headerSize at hlo hhi
      omega
  have hnext : nextPtr (setChunkUsed (setChunkUsed m1 f 1) l 1) s = l :=
    (IsRing.link (show IsRing _ ([f] ++ s :: l :: []) from hinv.ring)).1
  have hprev : prevPtr (setChunkUsed (setChunkUsed m1 f 1) l 1) s = f :=
    (IsRing.link (show IsRing _ ([] ++ f :: s :: [l]) from hinv.ring)).2
  generalize setChunkUsed (setChunkUsed m1 f 1) l 1 = m2 at *
  obtain ⟨m', heads, B', heq, hinv', hheads, -⟩ := hinv.pushFree hs hused rfl (by
      show ¬ IsFree m2 _ (nextPtr m2 s)
      rw [hnext]
      exact fun hf' => hinv.sentinels.2 hf'.1)
    (by
      show ¬ IsFree m2 _ (prevPtr m2 s)
      rw [hprev]
      exact fun hf' => hinv.sentinels.1 hf'.1)
    hnodes.1 hnodes.2
  rw [heq]
  exact ⟨B', hinv'.tighten fun x _ => iff_of_false id fun hx => hx.2 hx.1, (hheads s (mid_sub_chunks hs)).2.2.trans hused⟩

/-! ## `kmalloc` -/

theorem findFreeList_some {k : Nat} (h : findFreeList f fuel n = some k) : n ≤ k ∧ k < n + fuel ∧ f k ≠ null := by
  induction fuel generalizing n with
  | zero => simp [findFreeList] at h
  | succ fuel ih =>
    rw [findFreeList] at h
    split at h
    · cases h
      exact ⟨le_refl _, by omega, ‹_›⟩
    · obtain ⟨hlo, hhi, hne⟩ := ih h
      exact ⟨by omega, by omega, hne⟩

theorem findFreeList_none (h : findFreeList f fuel n = none) : ∀ k, n ≤ k → k < n + fuel → f k = null := by
  induction fuel generalizing n with
  | zero => intro k hlo hhi; omega
  | succ fuel ih =>
    rw [findFreeList] at h
    split at h
    · cases h
    · rename_i hnull
      intro k hlo hhi
      rcases Nat.eq_or_lt_of_le hlo with rfl | hlt
      · exact not_not.mp hnull
      · exact ih h k hlt (by omega)

theorem kmallocSize_bounds (size : Nat) : minSize ≤ kmallocSize size ∧ kmallocSize size < 2 ^ 64 := by
  unfold kmallocSize minSize heapAlign
  dsimp only
  split <;> omega

theorem kmalloc_slot (size : Nat) : (memoryChunkSlot (kmallocSize size - 1) + 1).toNat = Nat.log2 (kmallocSize size - 1) + 1 := by
  obtain ⟨hlo, hhi⟩ := kmallocSize_bounds size
  unfold minSize at hlo
  rw [memoryChunkSlot_eq (by omega) (by omega)]
  omega

/-- Every chunk of the lists that `kmalloc` looks at is large enough. -/
theorem kmallocSize_le (hn : Nat.log2 (kmallocSize size - 1) + 1 ≤ n) (hs : Nat.log2 s = n) : kmallocSize size ≤ s := by
  obtain ⟨hlo, -⟩ := kmallocSize_bounds size
  have hs0 : s ≠ 0 := by
    rintro rfl
    rw [Nat.log2_zero] at hs
    omega
  have hlow : 2 ^ n ≤ s := hs ▸ Nat.log2_self_le hs0
  have hup : kmallocSize size - 1 < 2 ^ (Nat.log2 (kmallocSize size - 1) + 1) := Nat.lt_log2_self
  have hpow : 2 ^ (Nat.log2 (kmallocSize size - 1) + 1) ≤ 2 ^ n := Nat.pow_le_pow_right (by omega) hn
  omega

/-- The size that `splitChunk` leaves a chunk of `size2` bytes. -/
def splitSize (size2 size : Nat) : Nat := if size + chunkStructSize ≤ size2 then size else size2

theorem le_splitSize {size2 : Nat} (h : size ≤ size2) : size ≤ splitSize size2 size := by
  unfold splitSize
  split
  · exact le_refl size
  · exact h

/-- The size of the chunk that a request gets: the first chunk of the first list that has one, less what is split off. -/
def grantedSize (hp : Heap) (size : Nat) : Option Nat :=
  let n := (memoryChunkSlot (kmallocSize size - 1) + 1).toNat
  (findFreeList hp.freeChunks (numSizes - n) n).map fun k => splitSize (memoryChunkSize hp.mem (hp.freeChunks k)) (kmallocSize size)

section

variable (h : HeapInv hp mid B (fun x => x = c)) (hc : c ∈ mid) (hnext : ¬ IsFree hp.mem (fun x => x = c) (nextPtr hp.mem c))

include h hc hnext

/-- The split at the end of `kmalloc`, of a loose chunk that is large enough. -/
theorem splitChunk_inv (hmin : minSize ≤ size) : ∃ m heads mid' B', splitChunk hp c size = { hp with mem := m, freeChunks := heads } ∧
      HeapInv { hp with mem := m, freeChunks := heads } mid' B' (fun x => x = c) ∧ c ∈ mid' ∧
      chunkSize m c = splitSize (chunkSize hp.mem c) size ∧ (∀ u ∈ mid, u ≠ c → u ∈ mid') ∧
      (∀ x, x ∉ mid' → MarkApart (chunks hp mid) x → MarkApart (chunks hp mid') x → chunkUsed m x = chunkUsed hp.mem x) ∧
      (∀ u ∈ hp.first :: mid, u ≠ c → chunkUsed hp.mem u ≠ 0 → SameBlock hp.mem m u) ∧
      (∀ u ∈ mid', u ≠ c → chunkUsed m u ≠ 0 → u ∈ mid ∧ chunkUsed hp.mem u ≠ 0) := by
  have hcs : c ∈ hp.first :: mid := .tail _ hc
  obtain ⟨-, -, hend⟩ := h.size_bounds hcs
  unfold OmegaOS.splitChunk
  rw [h.memoryChunkSize_eq hcs]
  dsimp only
  split
  · rename_i hroom
    obtain ⟨m1, m2, rfl⟩ := append_of_mem hc
    have hlo : c + 40 ≤ c + headerSize + size := by
      unfold headerSize minSize at *
      omega
    have hhi : c + headerSize + size + 40 ≤ nextPtr hp.mem c := by
      unfold headerSize chunkStructSize at *
      omega
    have hadd := h.toLayout.link hlo hhi
    generalize dlistInsertAfter (memoryChunkInit hp.mem (c + headerSize + size)) c (c + headerSize + size) = m at hadd
    have hinv := h.link rfl hadd
    have hsizec : chunkSize m c = size := by
      rw [chunkSize, hadd.nextOld]
      omega
    generalize c + headerSize + size = c2 at *
    have hmid := fun u => mem_link m1 m2 c c2 u
    have hold : ∀ u ∈ m1 ++ c :: m2, u ∈ m1 ++ c :: c2 :: m2 := fun u hu => (hmid u).mpr (.inr hu)
    have hcnext : nextPtr hp.mem c ∈ chunks hp (m1 ++ c :: m2) := .tail _ (h.succ hcs).1
    have hprev : prevPtr m c2 = c := by
      have := (hinv.succ (.tail _ (hold c hc))).2.1
      rwa [show nextPtr ({ hp with mem := m } : Heap).mem c = c2 from hadd.nextOld] at this
    obtain ⟨m', heads, B', heq, hinv', hheads, hun'⟩ := hinv.pushFree ((hmid c2).mpr (.inl rfl)) hadd.unmarked (.inr rfl) (by
        show ¬ IsFree m _ (nextPtr m c2)
        rw [hadd.nextNew]
        exact fun hf => hnext ⟨by rw [← hadd.used _ hcnext]; exact hf.1, fun e => hf.2 (.inl e)⟩)
      (by
        show ¬ IsFree m _ (prevPtr m c2)
        rw [hprev]
        exact fun hf => hf.2 (.inl rfl))
      hadd.alone.1 hadd.alone.2
    have hne : c ≠ c2 := fun e => hadd.new (e ▸ mid_sub_chunks hc)
    refine ⟨m', heads, _, B', heq, hinv'.tighten fun x hx => ?_, hold c hc, ?_, fun u hu _ => hold u hu, ?_, ?_, ?_⟩
    · exact ⟨fun e => ⟨.inl e, e ▸ hne⟩, fun hx => hx.1.resolve_right hx.2⟩
    · rwa [chunkSize, (hheads c (mid_sub_chunks (hold c hc))).1, splitSize, if_pos hroom]
    · intro x hx hapart hapart'
      refine (hheads.mark hun' hapart').trans (hadd.untouched.mark hapart' fun hxs => hadd.used x ?_)
      refine ((mem_chunks_link hp m1 m2 c c2 x).mp hxs).resolve_left ?_
      rintro rfl
      exact hx ((hmid x).mpr (.inl rfl))
    · intro u hu huc hne0
      have hus := front_sub_chunks hu
      have hu' := mem_cons.mpr ((mem_cons.mp hu).imp id (hold u))
      exact (hadd.blocks u hu huc).trans (hheads.sameBlock hun' hinv.toLayout hu' (by rwa [hadd.used u hus]))
    · intro u hu huc hne0
      rw [(hheads u (mid_sub_chunks hu)).2.2] at hne0
      have hu' : u ∈ m1 ++ c :: m2 := ((hmid u).mp hu).resolve_left fun e => hne0 (e ▸ hadd.unmarked)
      exact ⟨hu', by rwa [← hadd.used u (mid_sub_chunks hu')]⟩
  · rename_i hroom
    exact ⟨hp.mem, hp.freeChunks, mid, B, rfl, h, hc, (if_neg hroom).symm, fun u hu _ => hu, fun _ _ _ _ => rfl, fun u _ _ _ => .refl _ u,
      fun u hu _ hne => ⟨hu, hne⟩⟩

/-- The end of `kmalloc`: a loose chunk is split and marked. -/
theorem takeChunk_inv (hu : chunkUsed hp.mem c = 0) (hmin : minSize ≤ size) :
    ∃ hp' mid' B', { splitChunk hp c size with mem := setChunkUsed (splitChunk hp c size).mem c 1 } = hp' ∧
      HeapInv hp' mid' B' noLoose ∧ chunkSize hp'.mem c = splitSize (chunkSize hp.mem c) size ∧
      (∀ u, InUse hp' mid' u ↔ InUse hp mid u ∨ u = c) ∧
      (∀ x, x ∉ mid' → MarkApart (chunks hp mid) x → MarkApart (chunks hp' mid') x → chunkUsed hp'.mem x = chunkUsed hp.mem x) ∧
      ∀ u, Marked hp mid u → SameBlock hp.mem hp'.mem u := by
  obtain ⟨m, heads, mid', B', heq, hinv, hc', hsize', hkeep, hmarks, hblocks, hback⟩ := splitChunk_inv h hc hnext hmin
  obtain ⟨hinv', hlinks, hused, hun⟩ := hinv.setUsed hc' (show 1 < 2 ^ 32 by decide) (fun x hne => iff_of_false id hne)
    (fun hf => hf.2 rfl) (.inl Nat.one_ne_zero)
  have hnotc : ∀ u, Marked hp mid u → u ≠ c := fun u huse e => huse.2 (e ▸ hu)
  have hmark : ∀ u ∈ hp.first :: mid', u ≠ c → SameBlock m (setChunkUsed m c 1) u := fun u hu' hne =>
    ⟨(hlinks u (front_sub_chunks hu')).1, hused u (front_sub_chunks hu') hne, hun.payload hinv.toLayout hu' id⟩
  have hsame : ∀ u, Marked hp mid u → SameBlock hp.mem (setChunkUsed m c 1) u := fun u huse =>
    (hblocks u huse.1 (hnotc u huse) huse.2).trans (hmark u (mem_cons.mpr ((mem_cons.mp huse.1).imp id fun hm =>
      hkeep u hm (hnotc u huse))) (hnotc u huse))
  rw [heq]
  refine ⟨_, mid', B', rfl, hinv', ?_, ?_, fun x hx hapart hapart' => ?_, hsame⟩
  · show nextPtr (setChunkUsed m c 1) c - c - headerSize = _
    rwa [(hlinks c (mid_sub_chunks hc')).1]
  · intro u
    constructor
    · rintro ⟨hu', hne0⟩
      by_cases huc : u = c
      · exact .inr huc
      · have hne0' : chunkUsed m u ≠ 0 := by
          rwa [← hused u (mid_sub_chunks hu') huc]
        exact .inl (hback u hu' huc hne0')
    · rintro (huse | rfl)
      · exact ⟨hkeep u huse.1 (hnotc u huse.marked), by rw [(hsame u huse.marked).used]; exact huse.2⟩
      · refine ⟨hc', ?_⟩
        show chunkUsed (setChunkUsed m u 1) u ≠ 0
        rw [chunkUsed_setChunkUsed m u (by decide)]
        exact Nat.one_ne_zero
  · refine (hun.mark hapart' fun hxs => hused x hxs ?_).trans (hmarks x hx hapart hapart')
    exact fun e => hx (e ▸ hc')

end

/-- The list of a free chunk is not empty, and its number is below `NUM_SIZES`. -/
theorem HeapInv.head_of_free (h : HeapInv hp mid B noLoose) (hu : u ∈ mid) (hfree : chunkUsed hp.mem u = 0) :
    hp.freeChunks (Nat.log2 (chunkSize hp.mem u)) ≠ null ∧ Nat.log2 (chunkSize hp.mem u) < numSizes := by
  have hin : u ∈ B (Nat.log2 (chunkSize hp.mem u)) := (h.listed _ u).mpr ⟨hu, ⟨hfree, id⟩, rfl⟩
  obtain ⟨hmin, hmax, -⟩ := h.size_bounds (.tail _ hu)
  unfold minSize at hmin
  refine ⟨?_, (Nat.log2_lt (by omega)).mpr (by unfold numSizes; omega)⟩
  rw [(h.lists _).head]
  cases hB : B (Nat.log2 (chunkSize hp.mem u)) with
  | nil =>
    rw [hB] at hin
    exact absurd hin not_mem_nil
  | cons x l =>
    have hx := hB ▸ mem_cons_self
    have := (h.bounds (mid_sub_chunks (h.listed_mid hx))).1
    show x ≠ null
    unfold kernelHeapStart null at *
    omega

/-- `kmalloc` fails when no free chunk is in the lists it looks at. Otherwise it takes one and marks it. -/
theorem kmalloc_inv (h : HeapInv hp mid B noLoose) (size : Nat) : (kmalloc hp size = (null, hp) ∧
      ∀ u ∈ mid, chunkUsed hp.mem u = 0 → Nat.log2 (chunkSize hp.mem u) < Nat.log2 (kmallocSize size - 1) + 1) ∨
    ∃ c hp' mid' B', kmalloc hp size = (c + headerSize, hp') ∧ HeapInv hp' mid' B' noLoose ∧ c ∈ mid ∧
      chunkUsed hp.mem c = 0 ∧ (grantedSize hp size = some (chunkSize hp'.mem c) ∧ kmallocSize size ≤ chunkSize hp'.mem c) ∧
      (∀ u, InUse hp' mid' u ↔ InUse hp mid u ∨ u = c) ∧
      (∀ x, x ∉ mid' → MarkApart (chunks hp mid) x → MarkApart (chunks hp' mid') x → chunkUsed hp'.mem x = chunkUsed hp.mem x) ∧
      ∀ u, Marked hp mid u → SameBlock hp.mem hp'.mem u := by
  unfold OmegaOS.kmalloc
  dsimp only
  rw [kmalloc_slot]
  generalize hn : Nat.log2 (kmallocSize size - 1) + 1 = n
  split
  · rename_i hbig
    refine .inl ⟨rfl, fun u hu hfree => ?_⟩
    have := (h.head_of_free hu hfree).2
    omega
  · rename_i hsmall
    cases hfind : findFreeList hp.freeChunks (numSizes - n) n with
    | none =>
      refine .inl ⟨rfl, fun u hu hfree => ?_⟩
      obtain ⟨hne, hlt⟩ := h.head_of_free hu hfree
      by_contra hge
      exact hne (findFreeList_none hfind _ (by omega) (by omega))
    | some k =>
      obtain ⟨hnk, -, hhead⟩ := findFreeList_some hfind
      have hlist := h.lists k
      have hnd := h.nodup k
      cases hB : B k with
      | nil =>
        rw [hB] at hlist
        exact absurd hlist.head hhead
      | cons c l =>
        rw [hB] at hlist hnd
        obtain ⟨hc, hfree, hk⟩ := (h.listed k c).mp (hB ▸ mem_cons_self)
        obtain ⟨hinv, -, -, hheads, hun⟩ := h.detach (show B k = [] ++ c :: l from hB)
        have hcs : c ∈ chunks hp mid := mid_sub_chunks hc
        dsimp only
        rw [freeListPop_eq hlist hnd]
        have hnext : ¬ IsFree (dlistRemove hp.mem (freeNode c)) (fun x => x = c) (nextPtr (dlistRemove hp.mem (freeNode c)) c) := by
          rw [(hheads c hcs).1]
          intro hf
          refine h.noTwoFree c hc hfree ⟨?_, id⟩
          rw [← (hheads _ (.tail _ (h.succ (.tail _ hc)).1)).2.2]
          exact hf.1
        obtain ⟨hp', mid', B', heq, hinv', hsize, huse, hmarks, hsame⟩ := takeChunk_inv
          (hinv.tighten fun x _ => (or_iff_right id).symm) hc hnext ((hheads c hcs).2.2.trans hfree.1)
          (kmallocSize_bounds size).1
        have hkeep : chunkSize (dlistRemove hp.mem (freeNode c)) c = chunkSize hp.mem c := by
          rw [chunkSize, (hheads c hcs).1]
          rfl
        have hsize' := hsize.trans (congrArg (splitSize · (kmallocSize size)) hkeep)
        have hgranted : grantedSize hp size = some (chunkSize hp'.mem c) := by
          have hcfirst : hp.freeChunks k = c := hlist.head
          rw [grantedSize, kmalloc_slot, hn, hfind, Option.map_some, hcfirst, h.memoryChunkSize_eq (.tail _ hc), hsize']
        have hle := hsize' ▸ le_splitSize (kmallocSize_le (by omega) hk)
        have hpop : ∀ u, (u ∈ mid ∧ chunkUsed (dlistRemove hp.mem (freeNode c)) u ≠ 0) ↔ InUse hp mid u := fun u =>
          and_congr_right fun hu => by rw [(hheads u (mid_sub_chunks hu)).2.2]
        refine .inr ⟨c, hp', mid', B', by rw [← heq]; rfl, hinv', hc, hfree.1, ⟨hgranted, hle⟩, fun u => ?_,
          fun x hx hapart hapart' => (hmarks x hx hapart hapart').trans (hheads.mark hun hapart), fun u hu => ?_⟩
        · rw [huse u, ← hpop u]
          rfl
        · refine (hheads.sameBlock hun h.toLayout hu.1 hu.2).trans (hsame u ⟨hu.1, ?_⟩)
          rw [show chunkUsed _ u = _ from (hheads u (front_sub_chunks hu.1)).2.2]
          exact hu.2

end OmegaOS
