import OmegaOS.Theorems.HeapInvariant

/-!
# What a request gets

How large the block is that `kmalloc` returns, and what `krealloc` does to the block that it moves and to the others.
-/

namespace OmegaOS

open ByteMem Ring List

variable {hp hp' : Heap} {mid live : List Nat} {B : Nat → List Nat} {c p q n size : Nat}

/-! ## The size of a block -/

/-- The bytes from a pointer on lie in its chunk, before the header of the next one. -/
def HoldsBytes (m : Mem) (p size : Nat) : Prop := p + size ≤ nextPtr m (p - headerSize)

/-- A request that does not wrap around is rounded up. -/
theorem le_kmallocSize (h : size + heapAlign - 1 < 2 ^ 64) : size ≤ kmallocSize size := by
  unfold kmallocSize minSize heapAlign at *
  dsimp only
  split <;> omega

/-- A request that wraps around is rounded to nothing. -/
theorem kmallocSize_wrap (hsize : size < 2 ^ 64) (h : ¬ size + heapAlign - 1 < 2 ^ 64) : kmallocSize size = minSize := by
  unfold kmallocSize minSize heapAlign at *
  rw [if_pos]
  omega

theorem Layout.holdsBytes_iff (h : Layout hp mid) (hc : c ∈ hp.first :: mid) :
    HoldsBytes hp.mem (c + headerSize) size ↔ size ≤ chunkSize hp.mem c := by
  rw [HoldsBytes, Nat.add_sub_cancel, (h.size_bounds hc).2.2]
  omega

/-- A list with a chunk in it has one of its size. -/
theorem HeapInv.free_of_head (h : HeapInv hp mid B noLoose) (hne : hp.freeChunks n ≠ null) :
    ∃ u ∈ mid, chunkUsed hp.mem u = 0 ∧ Nat.log2 (chunkSize hp.mem u) = n := by
  have hlist := h.lists n
  cases hB : B n with
  | nil =>
    rw [hB] at hlist
    exact absurd hlist.head hne
  | cons u l =>
    obtain ⟨hu, hfree, hlog⟩ := (h.listed n u).mp (hB ▸ mem_cons_self)
    exact ⟨u, hu, hfree.1, hlog⟩

/-- The block of a request holds it exactly when rounding the request up does not wrap around, or when there is no chunk to
return for one that does. -/
theorem kmalloc_holds_iff (h : HeapReachable hp live) (hsize : size < 2 ^ 64) :
    ((kmalloc hp size).1 ≠ null → HoldsBytes (kmalloc hp size).2.mem (kmalloc hp size).1 size) ↔
      size + heapAlign - 1 < 2 ^ 64 ∨ ∀ n, 4 ≤ n → n < numSizes → hp.freeChunks n = null := by
  obtain ⟨mid, B, hinv, -, -⟩ := heapReachable_inv h
  by_cases hwrap : size + heapAlign - 1 < 2 ^ 64
  · refine iff_of_true ?_ (Or.inl hwrap)
    rcases kmalloc_inv hinv size with ⟨heq, -⟩ | ⟨c, hp', mid', B', heq, hinv', -, -, ⟨-, hle⟩, huse, -⟩
    · rw [heq]
      exact fun hne => absurd rfl hne
    · rw [heq]
      intro _
      have hc : c ∈ mid' := ((huse c).mpr (Or.inr rfl)).1
      exact (hinv'.holdsBytes_iff (.tail _ hc)).mpr ((le_kmallocSize hwrap).trans hle)
  · have hmin := kmallocSize_wrap hsize hwrap
    have hslot : Nat.log2 (kmallocSize size - 1) + 1 = 4 := by
      rw [hmin]
      decide
    rw [or_iff_right hwrap]
    rcases kmalloc_inv hinv size with ⟨heq, hnone⟩ | ⟨c, hp', mid', B', heq, hinv', -, -, ⟨hgranted, -⟩, huse, -⟩
    · rw [heq]
      refine iff_of_true (fun hne => absurd rfl hne) fun n hlo hhi => ?_
      by_contra hne
      obtain ⟨u, hu, hfree, hlog⟩ := hinv.free_of_head hne
      have := hnone u hu hfree
      omega
    · rw [heq]
      have hc : c ∈ hp'.first :: mid' := List.mem_cons_of_mem _ ((huse c).mpr (Or.inr rfl)).1
      refine iff_of_false (fun hholds => ?_) fun hnone => ?_
      · have hle := (hinv'.holdsBytes_iff hc).mp (hholds (Nat.succ_ne_zero _))
        have hmax := (hinv'.size_bounds hc).2.1
        unfold heapAlign at hwrap
        omega
      · rw [grantedSize, kmalloc_slot, hslot] at hgranted
        obtain ⟨k, hfind, -⟩ := Option.map_eq_some_iff.mp hgranted
        obtain ⟨hlo, hhi, hne⟩ := findFreeList_some hfind
        exact hne (hnone k hlo (by unfold numSizes at *; omega))

/-- The first block, of 100 bytes. -/
theorem kmalloc_holds_first : (kmalloc (heapInit fun _ => 0) 100).1 ≠ null ∧
      HoldsBytes (kmalloc (heapInit fun _ => 0) 100).2.mem (kmalloc (heapInit fun _ => 0) 100).1 100 := by
  have hne : (kmalloc (heapInit fun _ => 0) 100).1 ≠ null := by decide +kernel
  exact ⟨hne, (kmalloc_holds_iff (HeapReachable.init fun _ => 0) (by decide)).mpr (Or.inl (by decide)) hne⟩

/-- The largest request of all gets the smallest block. -/
theorem kmalloc_wraps : HeapReachable (heapInit fun _ => 0) [] ∧ (kmalloc (heapInit fun _ => 0) (2 ^ 64 - 1)).1 ≠ null ∧
      ¬ HoldsBytes (kmalloc (heapInit fun _ => 0) (2 ^ 64 - 1)).2.mem (kmalloc (heapInit fun _ => 0) (2 ^ 64 - 1)).1
        (2 ^ 64 - 1) := by
  refine ⟨HeapReachable.init _, by decide +kernel, ?_⟩
  unfold HoldsBytes
  decide +kernel

/-! ## Moving a block -/

/-- The block that a request gets is not smaller than the block that is to be moved, or there is none. -/
def ReallocFits (hp : Heap) (p n : Nat) : Prop := ∀ s, grantedSize hp n = some s → memoryChunkSize hp.mem (p - headerSize) ≤ s

/-- `krealloc` returns; if it has moved the block, it has copied its bytes, left the other blocks alone and kept the heap
represented, and if not, it has left the heap as it was. -/
def ReallocPreserves (hp : Heap) (live : List Nat) (p n : Nat) : Prop :=
  ∃ q hp', krealloc hp p n = .ok (q, hp') ∧ (q = null → hp' = hp) ∧
    (q ≠ null → (∀ i, i < min n (memoryChunkSize hp.mem (p - headerSize)) → hp'.mem (q + i) = hp.mem (p + i)) ∧
      (∀ x ∈ live, x ≠ p → SamePayload hp.mem hp'.mem x) ∧ ∃ mid B, HeapRepresentation hp' (q :: live.erase p) mid B)

/-- A step of a run that also moves blocks. -/
inductive HeapCall : Heap → List Nat → Heap → List Nat → Prop
  | basic {hp hp' : Heap} {live live' : List Nat} : HeapStep hp live hp' live' → HeapCall hp live hp' live'
  | krealloc {hp hp' : Heap} {live : List Nat} {p q n : Nat} : p ∈ live → ReallocFits hp p n → krealloc hp p n = .ok (q, hp') →
      HeapCall hp live hp' (if q = null then live else q :: live.erase p)

/-- The heaps that such runs reach. -/
inductive HeapRun : Heap → List Nat → Prop
  | init (m : Mem) : HeapRun (heapInit m) []
  | step {hp hp' : Heap} {live live' : List Nat} : HeapRun hp live → HeapCall hp live hp' live' → HeapRun hp' live'

/-- Bytes written to the payload of a chunk in use. -/
theorem HeapInv.fillPayload (h : HeapInv hp mid B noLoose) (huse : InUse hp mid c)
    (hout : ∀ b, b < c + headerSize ∨ nextPtr hp.mem c ≤ b → m b = hp.mem b) :
    HeapInv { hp with mem := m } mid B noLoose ∧ (∀ u, InUse { hp with mem := m } mid u ↔ InUse hp mid u) ∧
      nextPtr m c = nextPtr hp.mem c ∧ ∀ u, InUse hp mid u → u ≠ c → SameBlock hp.mem m u := by
  obtain ⟨hinv, hheads⟩ := h.payload huse.1 (fun hf => huse.2 hf.1) hout
  refine ⟨hinv, fun u => and_congr_right fun hu => ?_, (hheads c (mid_sub_chunks huse.1)).1, fun u hu hne => ?_⟩
  · rw [show chunkUsed _ u = _ from (hheads u (mid_sub_chunks hu)).2.2]
  · obtain ⟨hnext, -, hused⟩ := hheads u (mid_sub_chunks hu.1)
    refine ⟨hnext, hused, fun b hlo hhi => hout b ?_⟩
    by_contra hin
    have hc : InPayload hp.mem (c + headerSize) b := ⟨by omega, by rw [Nat.add_sub_cancel]; omega⟩
    exact h.payload_disjoint huse.1 hu.1 hne.symm hc ⟨hlo, by rwa [Nat.add_sub_cancel]⟩

/-- `krealloc` of a block that fits: it is moved to a new chunk, or nothing happens. -/
theorem krealloc_inv (h : HeapInv hp mid B noLoose) (hlive : LiveBlocks hp mid live) (huse : InUse hp mid c)
    (hfits : ReallocFits hp (c + headerSize) n) : krealloc hp (c + headerSize) n = .ok (null, hp) ∨
      ∃ c' hp' mid' B', krealloc hp (c + headerSize) n = .ok (c' + headerSize, hp') ∧ HeapInv hp' mid' B' noLoose ∧
        LiveBlocks hp' mid' ((c' + headerSize) :: live.erase (c + headerSize)) ∧
        (∀ i, i < chunkSize hp.mem c → hp'.mem (c' + headerSize + i) = hp.mem (c + headerSize + i)) ∧
        ∀ u, InUse hp mid u → u ≠ c → SameBlock hp.mem hp'.mem u := by
  unfold krealloc
  rw [if_neg (show c + headerSize ≠ null from Nat.succ_ne_zero _), Nat.add_sub_cancel]
  rcases kmalloc_inv h n with ⟨heq, -⟩ | ⟨c', hp1, mid1, B1, heq, hinv1, hc', hfree, ⟨hgranted, -⟩, huse1, -, hsame1⟩
  · left
    rw [heq]
    rfl
  · right
    have hne : c ≠ c' := fun e => huse.2 (e ▸ hfree)
    have hsize := h.memoryChunkSize_eq (.tail _ huse.1)
    have hroom := hfits _ hgranted
    rw [Nat.add_sub_cancel, hsize] at hroom
    rw [heq]
    dsimp only
    rw [hsize, if_neg (show c' + headerSize ≠ null from Nat.succ_ne_zero _)]
    have hc1 : InUse hp1 mid1 c := (huse1 c).mpr (.inl huse)
    have hc1' : InUse hp1 mid1 c' := (huse1 c').mpr (.inr rfl)
    -- the copy stays inside the new block
    have hend := (hinv1.size_bounds (.tail _ hc1'.1)).2.2
    obtain ⟨hinv2, huse2, hnext2, hsame2⟩ := hinv1.fillPayload hc1'
      (m := copy hp1.mem (c' + headerSize) hp1.mem (c + headerSize) (chunkSize hp.mem c)) fun b hb =>
        copy_outside _ _ _ (by omega)
    obtain ⟨hp3, mid3, B3, heq3, hinv3, huse3, -, hsame3⟩ := kfree_inv hinv2 ((huse2 c).mpr hc1)
    rw [heq3]
    refine ⟨c', hp3, mid3, B3, rfl, hinv3, ?_, fun i hi => ?_, fun u hu huc => ?_⟩
    · have hlive3 : LiveBlocks hp3 mid3 (((c' + headerSize) :: live).erase (c + headerSize)) :=
        (hlive.push (fun hu => hu.2 hfree) huse1).erase fun u => (huse3 u).trans (and_congr_left fun _ => huse2 u)
      have hother : ¬ (c' + headerSize == c + headerSize) = true := by simpa using Ne.symm hne
      rwa [erase_cons_tail hother] at hlive3
    · have hkept := (hsame3 c' ((huse2 c').mpr hc1').marked hne.symm).bytes (c' + headerSize + i) (by omega)
        (by rw [hnext2, hend]; omega)
      have hend' := (h.size_bounds (.tail _ huse.1)).2.2
      have hcopied := copy_inside hp1.mem hp1.mem (c + headerSize) (show c' + headerSize ≤ c' + headerSize + i by omega)
        (show _ < c' + headerSize + chunkSize hp.mem c by omega)
      rw [Nat.add_sub_cancel_left] at hcopied
      exact hkept.trans (hcopied.trans ((hsame1 c huse.marked).bytes _ (by omega) (by omega)))
    · have hu1 : InUse hp1 mid1 u := (huse1 u).mpr (.inl hu)
      have huc' : u ≠ c' := fun e => hu.2 (e ▸ hfree)
      exact ((hsame1 u hu.marked).trans (hsame2 u hu1 huc')).trans (hsame3 u ((huse2 u).mpr hu1).marked huc)

theorem heapRun_inv (h : HeapRun hp live) : ∃ mid B, HeapInv hp mid B noLoose ∧ LiveBlocks hp mid live := by
  induction h with
  | init m =>
    obtain ⟨mid, B, hinv, hlive, -⟩ := heapReachable_inv (HeapReachable.init m)
    exact ⟨mid, B, hinv, hlive⟩
  | step _ hcall ih =>
    obtain ⟨mid, B, hinv, hlive⟩ := ih
    cases hcall with
    | basic hstep =>
      obtain ⟨mid', B', hinv', hlive', -⟩ := heapStep_inv hinv hlive hstep
      exact ⟨mid', B', hinv', hlive'⟩
    | krealloc hmem hfits heq =>
      obtain ⟨c, huse, rfl⟩ := (hlive.pointers _).mp hmem
      rcases krealloc_inv hinv hlive huse hfits with hnull | ⟨c', hp', mid', B', hmoved, hinv', hlive', -, -⟩
      · cases heq.symm.trans hnull
        rw [if_pos rfl]
        exact ⟨mid, B, hinv, hlive⟩
      · cases heq.symm.trans hmoved
        rw [if_neg (show c' + headerSize ≠ null from Nat.succ_ne_zero _)]
        exact ⟨mid', B', hinv', hlive'⟩

/-- In every run whose calls of `krealloc` fit, the heap is represented exactly, and `krealloc` of a block that fits moves it, bytes
and all, and touches no other. -/
theorem krealloc_preserves (h : HeapRun hp live) :
    (∃ mid B, HeapRepresentation hp live mid B) ∧ ∀ p ∈ live, ∀ n, ReallocFits hp p n → ReallocPreserves hp live p n := by
  obtain ⟨mid, B, hinv, hlive⟩ := heapRun_inv h
  refine ⟨⟨mid, B, hinv.representation hlive⟩, fun p hp n hfits => ?_⟩
  obtain ⟨c, huse, rfl⟩ := (hlive.pointers p).mp hp
  rcases krealloc_inv hinv hlive huse hfits with hnull | ⟨c', hp', mid', B', hmoved, hinv', hlive', hbytes, hsame⟩
  · exact ⟨null, _, hnull, fun _ => rfl, fun hne => absurd rfl hne⟩
  · refine ⟨c' + headerSize, hp', hmoved, fun hnull => absurd hnull (Nat.succ_ne_zero _), fun _ => ⟨fun i hi => hbytes i ?_, ?_, ?_⟩⟩
    · rw [Nat.add_sub_cancel, hinv.memoryChunkSize_eq (.tail _ huse.1)] at hi
      omega
    · intro x hx hne
      obtain ⟨u, hu, rfl⟩ := (hlive.pointers x).mp hx
      exact (hsame u hu fun e => hne (e ▸ rfl)).samePayload
    · exact ⟨mid', B', hinv'.representation hlive'⟩

theorem HeapReachable.kmalloc (h : HeapReachable hp live) (size : Nat) (hne : (kmalloc hp size).1 ≠ null) :
    HeapReachable (kmalloc hp size).2 ((kmalloc hp size).1 :: live) := by
  have hstep := h.step (HeapStep.kmalloc size)
  rwa [if_neg hne] at hstep

theorem HeapReachable.run (h : HeapReachable hp live) : HeapRun hp live := by
  induction h with
  | init m => exact HeapRun.init m
  | step _ hstep ih => exact ih.step (HeapCall.basic hstep)

/-- A heap with a block of 100 bytes. -/
def oneBlock : Nat × Heap := kmalloc (heapInit fun b => if b < kernelHeapStart + 256 then 0 else 1) 100

theorem oneBlock_reachable : HeapReachable oneBlock.2 [oneBlock.1] := (HeapReachable.init _).kmalloc 100 (by decide +kernel)

/-- The block grows to 200 bytes. -/
theorem krealloc_preserves_one : HeapRun oneBlock.2 [oneBlock.1] ∧ ReallocPreserves oneBlock.2 [oneBlock.1] oneBlock.1 200 := by
  have hgranted : grantedSize oneBlock.2 200 = some 200 := by decide +kernel
  have hsize : memoryChunkSize oneBlock.2.mem (oneBlock.1 - headerSize) = 100 := by decide +kernel
  refine ⟨oneBlock_reachable.run, (krealloc_preserves oneBlock_reachable.run).2 _ List.mem_cons_self 200 fun s hs => ?_⟩
  cases hgranted.symm.trans hs
  rw [hsize]
  decide

/-- Behind it a block of 16 bytes. -/
def twoBlocks : Nat × Heap := kmalloc oneBlock.2 16

/-- And a third one, of 100 bytes. -/
def threeBlocks : Nat × Heap := kmalloc twoBlocks.2 100

theorem threeBlocks_reachable : HeapReachable threeBlocks.2 [threeBlocks.1, twoBlocks.1, oneBlock.1] :=
  (oneBlock_reachable.kmalloc 16 (by decide +kernel)).kmalloc 100 (by decide +kernel)

/-- The second block is freed and the first one is cut to 16 bytes, into the place of the second: its other bytes are written over
the third block. -/
theorem krealloc_overruns : ∃ hp, kfree threeBlocks.2 twoBlocks.1 = .ok hp ∧ HeapReachable hp [threeBlocks.1, oneBlock.1] ∧
    ¬ ReallocPreserves hp [threeBlocks.1, oneBlock.1] oneBlock.1 16 := by
  have hmem : twoBlocks.1 ∈ [threeBlocks.1, twoBlocks.1, oneBlock.1] := by simp
  obtain ⟨hp, heq, hreach⟩ := threeBlocks_reachable.kfree hmem
  have hrun : ((kfree threeBlocks.2 twoBlocks.1).toOption.bind fun hp => (krealloc hp oneBlock.1 16).toOption.map fun r =>
      (r.1 == null, hp.mem (threeBlocks.1 + 40), r.2.mem (threeBlocks.1 + 40), nextPtr hp.mem (threeBlocks.1 - headerSize))) =
        some (false, 1, 0, threeBlocks.1 + 100) := by decide +kernel
  rw [heq] at hrun
  refine ⟨hp, heq, ?_, ?_⟩
  · rwa [show [threeBlocks.1, twoBlocks.1, oneBlock.1].erase twoBlocks.1 = [threeBlocks.1, oneBlock.1] by decide +kernel] at hreach
  · rintro ⟨q, hp', hmoved, -, hkept⟩
    rw [Except.toOption, Option.bind_some, hmoved] at hrun
    injection hrun with hrun
    injection hrun with hnull hrun
    injection hrun with hbefore hrun
    injection hrun with hafter hend
    have hne : threeBlocks.1 ≠ oneBlock.1 := by decide +kernel
    have hsame := (hkept (by simpa using hnull)).2.1 threeBlocks.1 List.mem_cons_self hne (threeBlocks.1 + 40)
    have hin : InPayload hp.mem threeBlocks.1 (threeBlocks.1 + 40) := ⟨by omega, by rw [hend]; omega⟩
    have hbyte := hsame.2 hin
    rw [hbefore, hafter] at hbyte
    exact absurd hbyte (by decide)

/-! ## A request that fails -/

/-- The first list that `kmalloc` looks at is that of the smallest power of two that holds the request. -/
theorem kmalloc_clog (size : Nat) : Nat.log2 (kmallocSize size - 1) + 1 = Nat.clog 2 (kmallocSize size) := by
  have hmin := (kmallocSize_bounds size).1
  unfold minSize at hmin
  generalize kmallocSize size = s at hmin ⊢
  have hlow : 2 ^ Nat.log2 (s - 1) ≤ s - 1 := Nat.log2_self_le (by omega)
  have hup : s - 1 < 2 ^ (Nat.log2 (s - 1) + 1) := Nat.lt_log2_self
  apply le_antisymm
  · exact (Nat.lt_clog_iff_pow_lt Nat.one_lt_two).mpr (by omega)
  · exact Nat.clog_le_of_le_pow (by omega)

/-- A chunk is in a list below the `n`th exactly when it is smaller than the `n`th power of two. -/
theorem HeapInv.log2_lt_iff (h : HeapInv hp mid B noLoose) (hc : c ∈ mid) :
    Nat.log2 (chunkSize hp.mem c) < n ↔ memoryChunkSize hp.mem c < 2 ^ n := by
  obtain ⟨hmin, -, -⟩ := h.size_bounds (.tail _ hc)
  unfold minSize at hmin
  rw [h.memoryChunkSize_eq (.tail _ hc)]
  exact Nat.log2_lt (by omega)

/-- In every run a request fails exactly when no free chunk holds the smallest power of two that holds the rounded request, and a
request that fails leaves the heap as it was. -/
theorem kmalloc_null_iff (h : HeapRun hp live) (size : Nat) : ∃ mid B, HeapRepresentation hp live mid B ∧ ((kmalloc hp size).1 = null ↔
      ∀ c ∈ mid, chunkUsed hp.mem c = 0 → memoryChunkSize hp.mem c < 2 ^ Nat.clog 2 (kmallocSize size)) ∧
    ((kmalloc hp size).1 = null → (kmalloc hp size).2 = hp) := by
  obtain ⟨mid, B, hinv, hlive⟩ := heapRun_inv h
  refine ⟨mid, B, hinv.representation hlive, ?_⟩
  rcases kmalloc_inv hinv size with ⟨heq, hnone⟩ | ⟨c, hp', mid', B', heq, -, -, -, ⟨hgranted, -⟩, -, -⟩
  · rw [heq]
    refine ⟨iff_of_true rfl fun c hc hfree => ?_, fun _ => rfl⟩
    rw [← kmalloc_clog]
    exact (hinv.log2_lt_iff hc).mp (hnone c hc hfree)
  · rw [heq]
    refine ⟨iff_of_false (Nat.succ_ne_zero _) fun hsmall => ?_, fun hnull => absurd hnull (Nat.succ_ne_zero _)⟩
    -- the list that the chunk was taken from holds a chunk that is large enough
    rw [grantedSize, kmalloc_slot] at hgranted
    obtain ⟨k, hfind, -⟩ := Option.map_eq_some_iff.mp hgranted
    obtain ⟨hlo, -, hne⟩ := findFreeList_some hfind
    obtain ⟨u, hu, hfree, hlog⟩ := hinv.free_of_head hne
    have hlt := hsmall u hu hfree
    rw [← kmalloc_clog] at hlt
    have := (hinv.log2_lt_iff hu).mpr hlt
    omega

/-- A request for three quarters of the new heap fails. -/
theorem kmalloc_null_first : (kmalloc (heapInit fun _ => 0) (3 * 2 ^ 20)).1 = null ∧
    ∃ mid B, HeapRepresentation (heapInit fun _ => 0) [] mid B ∧ ∀ c ∈ mid, chunkUsed (heapInit fun _ => 0).mem c = 0 →
      memoryChunkSize (heapInit fun _ => 0).mem c < 2 ^ Nat.clog 2 (kmallocSize (3 * 2 ^ 20)) := by
  have hnull : (kmalloc (heapInit fun _ => 0) (3 * 2 ^ 20)).1 = null := by decide
  obtain ⟨mid, B, hrep, hiff, -⟩ := kmalloc_null_iff (HeapRun.init fun _ => 0) (3 * 2 ^ 20)
  exact ⟨hnull, mid, B, hrep, hiff.mp hnull⟩

end OmegaOS
