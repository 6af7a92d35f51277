import Mathlib.Data.List.Nodup
import OmegaOS.Lemmas.Kfree

/-!
# The heap over whole runs

From `heap_init` on, any sequence of `kmalloc`, of `kfree` of blocks in use, and of writes into blocks in use, keeps the two
lists of the heap exact and the blocks apart.
-/

namespace OmegaOS

open ByteMem Ring List Function

/-! ## Runs -/

/-- The bytes of the block at a pointer that `kmalloc` has returned: up to the next chunk. -/
def InPayload (m : Mem) (p b : Nat) : Prop := p ≤ b ∧ b < nextPtr m (p - headerSize)

/-- A step of a run. `live` are the pointers that `kmalloc` has returned and that are not yet freed. -/
inductive HeapStep : Heap → List Nat → Heap → List Nat → Prop
  | kmalloc {hp : Heap} {live : List Nat} (size : Nat) : HeapStep hp live (kmalloc hp size).2
      (if (kmalloc hp size).1 = null then live else (kmalloc hp size).1 :: live)
  | kfree {hp hp' : Heap} {live : List Nat} {p : Nat} : p ∈ live → kfree hp p = .ok hp' → HeapStep hp live hp' (live.erase p)
  | write {hp : Heap} {live : List Nat} {p b : Nat} (v : BitVec 8) : p ∈ live → InPayload hp.mem p b →
      HeapStep hp live { hp with mem := update hp.mem b v } live

/-- The heaps that runs reach, with the blocks in use there. -/
inductive HeapReachable : Heap → List Nat → Prop
  | init (m : Mem) : HeapReachable (heapInit m) []
  | step {hp hp' : Heap} {live live' : List Nat} : HeapReachable hp live → HeapStep hp live hp' live' → HeapReachable hp' live'

/-- The pointers to the chunks in use are the live ones. -/
structure LiveBlocks (hp : Heap) (mid live : List Nat) : Prop where
  distinct : live.Nodup
  pointers : ∀ p, p ∈ live ↔ ∃ c, InUse hp mid c ∧ p = c + headerSize

variable {hp hp' : Heap} {mid mid' live : List Nat} {B : Nat → List Nat} {c : Nat}

theorem LiveBlocks.inUse (h : LiveBlocks hp mid live) : c + headerSize ∈ live ↔ InUse hp mid c := by
  rw [h.pointers]
  constructor
  · rintro ⟨c', huse, he⟩
    rwa [Nat.add_right_cancel he]
  · exact fun huse => ⟨c, huse, rfl⟩

theorem LiveBlocks.push (h : LiveBlocks hp mid live) (hnew : ¬ InUse hp mid c)
    (huse : ∀ u, InUse hp' mid' u ↔ InUse hp mid u ∨ u = c) : LiveBlocks hp' mid' ((c + headerSize) :: live) := by
  refine ⟨nodup_cons.mpr ⟨fun hm => hnew (h.inUse.mp hm), h.distinct⟩, fun p => ?_⟩
  rw [mem_cons, h.pointers p]
  constructor
  · rintro (rfl | ⟨u, hu, rfl⟩)
    · exact ⟨c, (huse c).mpr (.inr rfl), rfl⟩
    · exact ⟨u, (huse u).mpr (.inl hu), rfl⟩
  · rintro ⟨u, hu, rfl⟩
    rcases (huse u).mp hu with hu | rfl
    · exact .inr ⟨u, hu, rfl⟩
    · exact .inl rfl

theorem LiveBlocks.erase (h : LiveBlocks hp mid live) (huse : ∀ u, InUse hp' mid' u ↔ InUse hp mid u ∧ u ≠ c) :
    LiveBlocks hp' mid' (live.erase (c + headerSize)) := by
  refine ⟨h.distinct.erase _, fun p => ?_⟩
  rw [h.distinct.mem_erase_iff, h.pointers p]
  constructor
  · rintro ⟨hne, u, hu, rfl⟩
    exact ⟨u, (huse u).mpr ⟨hu, fun e => hne (e ▸ rfl)⟩, rfl⟩
  · rintro ⟨u, hu, rfl⟩
    obtain ⟨hu, hne⟩ := (huse u).mp hu
    exact ⟨fun e => hne (Nat.add_right_cancel e), u, hu, rfl⟩

/-- No block in use covers a byte of the header at `x`. -/
def HeaderUncovered (hp : Heap) (live : List Nat) (x : Nat) : Prop :=
  ∀ q ∈ live, x + headerSize ≤ q - headerSize ∨ nextPtr hp.mem (q - headerSize) ≤ x

theorem HeaderUncovered.of_inUse (h : HeaderUncovered hp live x) (hlive : LiveBlocks hp mid live) (huse : InUse hp mid c) :
    x + headerSize ≤ c ∨ nextPtr hp.mem c ≤ x := by
  have := h _ (hlive.inUse.mpr huse)
  rwa [Nat.add_sub_cancel] at this

/-- A step keeps the invariant, the chunk that follows the first sentinel, and a mark that is left behind in a free chunk. -/
theorem heapStep_inv (h : HeapInv hp mid B noLoose) (hlive : LiveBlocks hp mid live)
    (hstep : HeapStep hp live hp' live') : ∃ mid' B', HeapInv hp' mid' B' noLoose ∧ LiveBlocks hp' mid' live' ∧
      nextPtr hp'.mem hp'.first = nextPtr hp.mem hp.first ∧
      ∀ x, HeaderUncovered hp live x → x ∉ mid' → MarkApart (chunks hp mid) x → MarkApart (chunks hp' mid') x →
        chunkUsed hp'.mem x = chunkUsed hp.mem x := by
  have hfirst : Marked hp mid hp.first := ⟨mem_cons_self, h.sentinels.1⟩
  cases hstep with
  | kmalloc size =>
    rcases kmalloc_inv h size with ⟨heq, -⟩ | ⟨c, hp', mid', B', heq, hinv, hc, hfree, -, huse, hmarks, hsame⟩
    · rw [heq]
      exact ⟨mid, B, h, hlive, rfl, fun _ _ _ _ _ => rfl⟩
    · rw [heq]
      rw [if_neg (show c + headerSize ≠ null from Nat.succ_ne_zero _)]
      refine ⟨mid', B', hinv, hlive.push (fun hu => hu.2 hfree) huse, ?_, fun x _ => hmarks x⟩
      rw [hinv.firstAt, ← h.firstAt]
      exact (hsame hp.first hfirst).next
  | kfree hmem heq =>
    obtain ⟨c, hu, rfl⟩ := (hlive.pointers _).mp hmem
    obtain ⟨hp'', mid', B', heq', hinv, huse, ⟨-, hmarks⟩, hsame⟩ := kfree_inv h hu
    cases heq.symm.trans heq'
    refine ⟨mid', B', hinv, hlive.erase huse, ?_, fun x hcover _ hapart _ => hmarks x ?_ hapart⟩
    · have hne : hp.first ≠ c := fun e => (nodup_cons.mp (nodup_of_gaps h.gaps)).1 (by simp [e, hu.1])
      rw [hinv.firstAt, ← h.firstAt]
      exact (hsame hp.first hfirst hne).next
    · rintro rfl
      have hcovered := hcover.of_inUse hlive hu
      have hgap := (h.succ (.tail _ hu.1)).2.2.1
      unfold headerSize at hcovered
      omega
  | @write _ _ b v hmem hb =>
    obtain ⟨c, hu, rfl⟩ := (hlive.pointers _).mp hmem
    unfold InPayload at hb
    rw [Nat.add_sub_cancel] at hb
    have hout : ∀ b', b' < c + 24 ∨ nextPtr hp.mem c ≤ b' → update hp.mem b v b' = hp.mem b' := by
      intro b' hb'
      unfold headerSize at hb
      rw [update_apply, if_neg (by omega)]
    obtain ⟨hinv, hheads⟩ := h.payload hu.1 (fun hf => hu.2 hf.1) hout
    refine ⟨mid, B, hinv, ⟨hlive.distinct, fun p => ?_⟩, (hheads hp.first (front_sub_chunks mem_cons_self)).1, fun x hcover _ _ _ => ?_⟩
    · rw [hlive.pointers p]
      refine exists_congr fun u => and_congr_left fun _ => and_congr_right fun hmem => ?_
      rw [show chunkUsed _ u = _ from (hheads u (mid_sub_chunks hmem)).2.2]
    · have hcovered := hcover.of_inUse hlive hu
      exact load_congr fun b hlo hhi => hout b (by omega)

/-- Every run keeps the invariant, and `second` of `heap_init` behind the first sentinel. -/
theorem heapReachable_inv (h : HeapReachable hp live) : ∃ mid B, HeapInv hp mid B noLoose ∧ LiveBlocks hp mid live ∧
    nextPtr hp.mem hp.first = kernelHeapStart + chunkStructSize := by
  induction h with
  | init m =>
    obtain ⟨B, hinv, hfree⟩ := heapInit_inv m
    refine ⟨_, B, hinv, ⟨nodup_nil, fun p => iff_of_false not_mem_nil ?_⟩, ?_⟩
    · rintro ⟨c, ⟨hc, hu⟩, -⟩
      rw [mem_singleton.mp hc] at hu
      exact hu hfree
    · exact (IsRing.link (show IsRing _ ([] ++ (heapInit m).first :: (kernelHeapStart + chunkStructSize) :: [(heapInit m).last])
        from hinv.ring)).1
  | step _ hstep ih =>
    obtain ⟨mid, B, hinv, hlive, hnext⟩ := ih
    obtain ⟨mid', B', hinv', hlive', hnext', -⟩ := heapStep_inv hinv hlive hstep
    exact ⟨mid', B', hinv', hlive', hnext'.trans hnext⟩

theorem HeapReachable.kfree (h : HeapReachable hp live) (hmem : p ∈ live) :
    ∃ hp', kfree hp p = .ok hp' ∧ HeapReachable hp' (live.erase p) := by
  obtain ⟨mid, B, hinv, hlive, -⟩ := heapReachable_inv h
  obtain ⟨c, huse, rfl⟩ := (hlive.pointers p).mp hmem
  obtain ⟨hp', -, -, heq, -⟩ := kfree_inv hinv huse
  exact ⟨hp', heq, h.step (HeapStep.kfree hmem heq)⟩

/-! ## What a heap looks like -/

/-- The heap's representation: `mid` are the chunks between the sentinels, `B n` those of `g_freeChunks[n]`. -/
structure HeapRepresentation (hp : Heap) (live mid : List Nat) (B : Nat → List Nat) : Prop where
  /-- The list `all` visits the chunks once each, from `g_first` to `g_last`, and closes. -/
  all : IsRing (linksOf hp.mem) (chunks hp mid)
  increasing : (chunks hp mid).Pairwise (· < ·)
  /-- The chunks tile the heap: each one ends where the next one starts. -/
  start : hp.first = kernelHeapStart
  tiled : ∀ c ∈ hp.first :: mid, nextPtr hp.mem c = c + headerSize + memoryChunkSize hp.mem c
  stop : hp.last + chunkStructSize = kernelHeapStart + kernelHeapSize
  sizes : ∀ c ∈ mid, minSize ≤ memoryChunkSize hp.mem c
  sentinels : chunkUsed hp.mem hp.first ≠ 0 ∧ chunkUsed hp.mem hp.last ≠ 0
  noNeighbours : ∀ c ∈ mid, chunkUsed hp.mem c = 0 → chunkUsed hp.mem (nextPtr hp.mem c) ≠ 0
  /-- Each free list goes once through its chunks. -/
  lists : ∀ n, n < numSizes → FreeList hp.mem (hp.freeChunks n) (B n)
  once : ∀ n, (B n).Nodup
  /-- The chunks that are free are those of the lists, each in the list of its size. -/
  listed : ∀ n c, c ∈ B n ↔ c ∈ mid ∧ chunkUsed hp.mem c = 0 ∧ n = Nat.log2 (memoryChunkSize hp.mem c)
  numbers : ∀ n c, c ∈ B n → n < numSizes
  /-- The chunks in use are those of the live pointers. -/
  distinct : live.Nodup
  pointers : ∀ p, p ∈ live ↔ ∃ c ∈ mid, chunkUsed hp.mem c ≠ 0 ∧ p = c + headerSize

theorem HeapInv.representation (h : HeapInv hp mid B noLoose) (hlive : LiveBlocks hp mid live) : HeapRepresentation hp live mid B := by
  have hsize : ∀ c ∈ mid, memoryChunkSize hp.mem c = chunkSize hp.mem c := fun c hc => h.memoryChunkSize_eq (.tail _ hc)
  refine ⟨h.ring, h.gaps.imp ?_, h.firstAt, ?_, ?_, ?_, h.sentinels, ?_, fun n _ => h.lists n, h.nodup, ?_, ?_, hlive.distinct, ?_⟩
  · intro a b hab
    unfold chunkStructSize at hab
    omega
  · intro c hc
    rw [h.memoryChunkSize_eq hc]
    exact (h.size_bounds hc).2.2
  · rw [h.lastAt]
    decide
  · intro c hc
    rw [hsize c hc]
    exact (h.size_bounds (.tail _ hc)).1
  · exact fun c hc hf hn => h.noTwoFree c hc ⟨hf, id⟩ ⟨hn, id⟩
  · intro n c
    rw [h.listed n c]
    refine and_congr_right fun hc => ?_
    rw [hsize c hc]
    exact and_congr (and_iff_left id) eq_comm
  · intro n c hc
    obtain ⟨hmem, hf, hn⟩ := (h.listed n c).mp hc
    exact hn ▸ (h.head_of_free hmem hf.1).2
  · intro p
    rw [hlive.pointers p]
    exact exists_congr fun c => and_assoc

/-- A block that keeps its extent and its bytes. -/
def SamePayload (m m' : Mem) (p : Nat) : Prop := ∀ b, (InPayload m' p b ↔ InPayload m p b) ∧ (InPayload m p b → m' b = m b)

theorem SameBlock.samePayload (h : SameBlock m m' c) : SamePayload m m' (c + headerSize) := by
  intro b
  unfold InPayload
  rw [Nat.add_sub_cancel, h.next]
  exact ⟨.rfl, fun hb => h.bytes b hb.1 hb.2⟩

theorem Layout.payload_disjoint (h : Layout hp mid) (h1 : c1 ∈ mid) (h2 : c2 ∈ mid) (hne : c1 ≠ c2)
    (hb : InPayload hp.mem (c1 + headerSize) b) : ¬ InPayload hp.mem (c2 + headerSize) b := by
  unfold InPayload at *
  rw [Nat.add_sub_cancel] at *
  have hs1 := (h.succ (.tail _ h1)).2.2.2 c2 (mid_sub_chunks h2)
  have hs2 := (h.succ (.tail _ h2)).2.2.2 c1 (mid_sub_chunks h1)
  omega

/-- Whatever the run, the heap is represented exactly, blocks in use do not overlap, and neither `kmalloc` nor `kfree` changes a
byte of another block in use. -/
theorem heap_represented (h : HeapReachable hp live) : (∃ mid B, HeapRepresentation hp live mid B) ∧
      (∀ p ∈ live, ∀ q ∈ live, p ≠ q → ∀ b, InPayload hp.mem p b → ¬ InPayload hp.mem q b) ∧
      (∀ size, ∀ q ∈ live, SamePayload hp.mem (kmalloc hp size).2.mem q) ∧
      ∀ p ∈ live, ∃ hp', kfree hp p = .ok hp' ∧ ∀ q ∈ live, q ≠ p → SamePayload hp.mem hp'.mem q := by
  obtain ⟨mid, B, hinv, hlive, -⟩ := heapReachable_inv h
  refine ⟨⟨mid, B, hinv.representation hlive⟩, ?_, ?_, ?_⟩
  · intro p hp q hq hne b hb
    obtain ⟨c₁, hu1, rfl⟩ := (hlive.pointers p).mp hp
    obtain ⟨c₂, hu2, rfl⟩ := (hlive.pointers q).mp hq
    exact hinv.payload_disjoint hu1.1 hu2.1 (fun e => hne (e ▸ rfl)) hb
  · intro size q hq
    obtain ⟨c, hu, rfl⟩ := (hlive.pointers q).mp hq
    rcases kmalloc_inv hinv size with ⟨heq, -⟩ | ⟨c', hp', mid', B', heq, -, -, -, -, -, -, hsame⟩
    · rw [heq]
      exact (SameBlock.refl _ c).samePayload
    · rw [heq]
      exact (hsame c hu.marked).samePayload
  · intro p hp
    obtain ⟨c, hu, rfl⟩ := (hlive.pointers p).mp hp
    obtain ⟨hp', mid', B', heq, -, -, -, hsame⟩ := kfree_inv hinv hu
    refine ⟨hp', heq, fun q hq hne => ?_⟩
    obtain ⟨c', hu', rfl⟩ := (hlive.pointers q).mp hq
    exact (hsame c' hu'.marked fun e => hne (e ▸ rfl)).samePayload

/-- One block of 100 bytes in a heap of zeros. -/
theorem heap_represented_one : (kmalloc (heapInit fun _ => 0) 100).1 = kernelHeapStart + chunkStructSize + headerSize ∧
      ∃ mid B, HeapRepresentation (kmalloc (heapInit fun _ => 0) 100).2 [kernelHeapStart + chunkStructSize + headerSize] mid B := by
  have hp : (kmalloc (heapInit fun _ => 0) 100).1 = kernelHeapStart + chunkStructSize + headerSize := by decide +kernel
  have hstep : HeapStep (heapInit fun _ => 0) [] _ _ := HeapStep.kmalloc 100
  rw [hp, if_neg (by decide)] at hstep
  exact ⟨hp, (heap_represented ((HeapReachable.init _).step hstep)).1⟩

/-! ## All blocks freed -/

/-- The heap as `heap_init` makes it: between the sentinels one free chunk, alone in the list of its size. -/
structure Pristine (hp : Heap) : Prop where
  first : hp.first = kernelHeapStart
  last : hp.last = kernelHeapStart + kernelHeapSize - chunkStructSize
  all : IsRing (linksOf hp.mem) [hp.first, kernelHeapStart + chunkStructSize, hp.last]
  sentinels : chunkUsed hp.mem hp.first ≠ 0 ∧ chunkUsed hp.mem hp.last ≠ 0
  free : chunkUsed hp.mem (kernelHeapStart + chunkStructSize) = 0
  size : memoryChunkSize hp.mem (kernelHeapStart + chunkStructSize) = kernelHeapSize - 2 * chunkStructSize - headerSize
  lists : ∀ n < numSizes, FreeList hp.mem (hp.freeChunks n)
    (if n = Nat.log2 (kernelHeapSize - 2 * chunkStructSize - headerSize) then [kernelHeapStart + chunkStructSize] else [])

/-- Free chunks that are no neighbours are one chunk at most. -/
theorem HeapInv.mid_of_free (h : HeapInv hp mid B noLoose) (hfree : ∀ u ∈ mid, chunkUsed hp.mem u = 0) : mid = [] ∨ ∃ c, mid = [c] := by
  match mid, h, hfree with
  | [], _, _ => exact .inl rfl
  | [c], _, _ => exact .inr ⟨c, rfl⟩
  | c :: d :: l, h, hfree =>
    have hnext : nextPtr hp.mem c = d := (IsRing.link (show IsRing _ ([hp.first] ++ c :: d :: (l ++ [hp.last])) from h.ring)).1
    refine absurd ⟨?_, id⟩ (h.noTwoFree c mem_cons_self ⟨hfree c mem_cons_self, id⟩)
    rw [hnext]
    exact hfree d (.tail c mem_cons_self)

/-- What follows the first sentinel is the first of the chunks. -/
theorem HeapInv.next_first (h : HeapInv hp mid B noLoose) : nextPtr hp.mem hp.first = (mid ++ [hp.last]).headD null := by
  cases mid with
  | nil => exact (IsRing.link (show IsRing _ ([] ++ hp.first :: hp.last :: []) from h.ring)).1
  | cons c l => exact (IsRing.link (show IsRing _ ([] ++ hp.first :: c :: (l ++ [hp.last])) from h.ring)).1

/-- A list that goes through no chunk but one, or through none. -/
theorem HeapInv.list_of_single (h : HeapInv hp [c] B noLoose) (hfree : chunkUsed hp.mem c = 0) (n : Nat) :
    B n = if n = Nat.log2 (chunkSize hp.mem c) then [c] else [] := by
  have hlisted := h.listed n
  split
  · rename_i hn
    have hmem : ∀ x, x ∈ B n ↔ x = c := by
      intro x
      rw [hlisted x, mem_singleton]
      refine ⟨And.left, ?_⟩
      rintro rfl
      exact ⟨rfl, ⟨hfree, id⟩, hn.symm⟩
    exact perm_singleton.mp ((perm_ext_iff_of_nodup (h.nodup n) (nodup_singleton c)).mpr fun x =>
      (hmem x).trans mem_singleton.symm)
  · rename_i hn
    refine eq_nil_iff_forall_not_mem.mpr fun x hx => hn ?_
    obtain ⟨hx, -, hlog⟩ := (hlisted x).mp hx
    rw [mem_singleton.mp hx] at hlog
    exact hlog.symm

/-- With no block in use every chunk is free, and so there is one. -/
theorem pristine_of_reachable (h : HeapReachable hp []) : Pristine hp := by
  obtain ⟨mid, B, hinv, hlive, hnext⟩ := heapReachable_inv h
  have hfree : ∀ u ∈ mid, chunkUsed hp.mem u = 0 := by
    intro u hu
    by_contra hne
    exact not_mem_nil (hlive.inUse.mpr ⟨hu, hne⟩)
  rw [hinv.next_first] at hnext
  rcases hinv.mid_of_free hfree with rfl | ⟨c, rfl⟩
  · have hlast := hnext
    rw [hinv.lastAt] at hlast
    exact absurd hlast (by decide)
  · have hc := hnext
    subst hc
    have hc := hfree _ mem_cons_self
    have hnext' : nextPtr hp.mem (kernelHeapStart + chunkStructSize) = hp.last :=
      (IsRing.link (show IsRing _ ([hp.first] ++ (kernelHeapStart + chunkStructSize) :: hp.last :: []) from hinv.ring)).1
    have hsize : chunkSize hp.mem (kernelHeapStart + chunkStructSize) = kernelHeapSize - 2 * chunkStructSize - headerSize := by
      rw [chunkSize, hnext', hinv.lastAt]
      decide
    refine ⟨hinv.firstAt, hinv.lastAt, hinv.ring, hinv.sentinels, hc, ?_, fun n _ => ?_⟩
    · rw [hinv.memoryChunkSize_eq (.tail _ mem_cons_self), hsize]
    · rw [← hsize, ← hinv.list_of_single hc n]
      exact hinv.lists n

/-- Once every block has been freed, whatever the order, the heap has the chunks and the lists that `heap_init` makes. -/
theorem heap_coalesced (h : HeapReachable hp []) : Pristine hp ∧ ∀ m, Pristine (heapInit m) :=
  ⟨pristine_of_reachable h, fun m => pristine_of_reachable (HeapReachable.init m)⟩

/-- A block of 100 bytes, freed again. -/
theorem heap_coalesced_one :
    ∃ hp, kfree (kmalloc (heapInit fun _ => 0) 100).2 (kmalloc (heapInit fun _ => 0) 100).1 = .ok hp ∧ Pristine hp := by
  have hne : (kmalloc (heapInit fun _ => 0) 100).1 ≠ null := by decide +kernel
  have hstep : HeapStep (heapInit fun _ => 0) [] _ _ := HeapStep.kmalloc 100
  rw [if_neg hne] at hstep
  have hreach := (HeapReachable.init _).step hstep
  obtain ⟨hp', heq, hreach'⟩ := hreach.kfree List.mem_cons_self
  rw [List.erase_cons_head] at hreach'
  exact ⟨hp', heq, (heap_coalesced hreach').1⟩

end OmegaOS
