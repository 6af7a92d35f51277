import OmegaOS.Theorems.HeapRequests

/-!
# Blocks that are freed twice

`kfree` clears the mark of a chunk only when it does not join the chunk to a free one before it. A header that is joined keeps the
mark, and `assert(chunk->used)` reads it when the block is freed again.
-/

namespace OmegaOS

open ByteMem Ring List

variable {hp hp' : Heap} {mid live live' : List Nat} {B : Nat → List Nat} {c : Nat}

/-- No block in use ends in the bytes of a header before `c`. A chunk made there would have links over the mark of `c`. -/
def EndsClear (hp : Heap) (live : List Nat) (c : Nat) : Prop :=
  ∀ q ∈ live, nextPtr hp.mem (q - headerSize) < c → nextPtr hp.mem (q - headerSize) + headerSize ≤ c

/-- A block in use ends at `c`. -/
def EndsAt (hp : Heap) (live : List Nat) (c : Nat) : Prop := ∃ q ∈ live, nextPtr hp.mem (q - headerSize) = c

/-- The runs after the block of the chunk `c` was freed, as long as no block in use covers the header of `c` or ends in the bytes
before it. `cleared` says that a chunk in use ended at `c` when the block was freed, or that a block in use did since. -/
inductive FreedRun (c : Nat) : Prop → Heap → List Nat → Prop
  | freed {hp hp' : Heap} {live : List Nat} : HeapReachable hp live → c + headerSize ∈ live → kfree hp (c + headerSize) = .ok hp' →
      FreedRun c (chunkUsed hp.mem (prevPtr hp.mem c) ≠ 0) hp' (live.erase (c + headerSize))
  | step {cleared : Prop} {hp hp' : Heap} {live live' : List Nat} : FreedRun c cleared hp live → HeapStep hp live hp' live' →
      HeaderUncovered hp' live' c → EndsClear hp' live' c → FreedRun c (cleared ∨ EndsAt hp' live' c) hp' live'

/-! ## Where the header lies -/

/-- The second chunk, of `heap_init`. -/
def secondChunk : Nat := kernelHeapStart + chunkStructSize

/-- The header is that of the second chunk, or lies behind it. -/
def BehindSecond (c : Nat) : Prop := (c = secondChunk ∨ secondChunk + chunkStructSize ≤ c) ∧
  c + chunkStructSize ≤ kernelHeapStart + kernelHeapSize - chunkStructSize

section

variable (h : HeapInv hp mid B noLoose) (hlive : LiveBlocks hp mid live) (hsecond : nextPtr hp.mem hp.first = secondChunk)

include h hlive hsecond

/-- A free chunk follows a block in use, or it is the second chunk. -/
theorem HeapInv.free_after (hc : c ∈ mid) (hfree : chunkUsed hp.mem c = 0) :
    c = secondChunk ∨ ∃ v, InUse hp mid v ∧ v + headerSize ∈ live ∧ nextPtr hp.mem v = c := by
  obtain ⟨hpmem, hpnext⟩ := h.pred hc
  rcases mem_cons.mp hpmem with hfirst | hmid
  · rw [hfirst, hsecond] at hpnext
    exact .inl hpnext.symm
  · have huse : InUse hp mid (prevPtr hp.mem c) := ⟨hmid, fun hu => h.prev_not_free hc ⟨hfree, id⟩ ⟨hu, id⟩⟩
    exact .inr ⟨_, huse, hlive.inUse.mpr huse, hpnext⟩

/-- The chunks of the heap leave out the mark of a header that the blocks in use spare. -/
theorem HeapInv.markApart_of_clear (hbehind : BehindSecond c) (hcover : HeaderUncovered hp live c)
    (hclear : EndsClear hp live c) : MarkApart (chunks hp mid) c := by
  obtain ⟨hlo, hhi⟩ := hbehind
  have hfirst := h.firstAt
  have hlast := h.lastAt
  unfold secondChunk at hlo hsecond
  unfold chunkStructSize at *
  intro u hu
  rcases mem_chunks.mp hu with rfl | hmid | rfl
  · omega
  · by_cases hfree : chunkUsed hp.mem u = 0
    · rcases h.free_after hlive hsecond hmid hfree with rfl | ⟨v, huse, hmem, rfl⟩
      · unfold secondChunk chunkStructSize
        omega
      · have hcovered := hcover.of_inUse hlive huse
        have hends := hclear _ hmem
        have hgap := (h.succ (.tail _ huse.1)).2.2.1
        rw [Nat.add_sub_cancel] at hends
        unfold headerSize at *
        omega
    · have hcovered := hcover.of_inUse hlive ⟨hmid, hfree⟩
      have hgap := (h.succ (.tail _ hmid)).2.2.1
      unfold headerSize at hcovered
      omega
  · omega

end

/-! ## The mark over a run -/

/-- What a run keeps: the mark of the header is 0 exactly when it was cleared. -/
structure FreedInv (c : Nat) (cleared : Prop) (hp : Heap) (live mid : List Nat) (B : Nat → List Nat) : Prop where
  inv : HeapInv hp mid B noLoose
  blocks : LiveBlocks hp mid live
  second : nextPtr hp.mem hp.first = secondChunk
  behind : BehindSecond c
  cover : HeaderUncovered hp live c
  apart : MarkApart (chunks hp mid) c
  mark : chunkUsed hp.mem c = 0 ↔ cleared
  ofSecond : c = secondChunk → cleared

/-- Freeing a block starts such a run. -/
theorem freedInv_kfree (h : HeapReachable hp live) (hmem : c + headerSize ∈ live) (heq : kfree hp (c + headerSize) = .ok hp') :
    ∃ mid B, FreedInv c (chunkUsed hp.mem (prevPtr hp.mem c) ≠ 0) hp' (live.erase (c + headerSize)) mid B := by
  obtain ⟨mid, B, hinv, hlive, hsecond⟩ := heapReachable_inv h
  have huse := hlive.inUse.mp hmem
  obtain ⟨hp'', mid', B', heq', hinv', huse', ⟨hmark, -⟩, hsame⟩ := kfree_inv hinv huse
  cases heq.symm.trans heq'
  have hcs : c ∈ chunks hp mid := mid_sub_chunks huse.1
  have hfirst : Marked hp mid hp.first := ⟨mem_cons_self, hinv.sentinels.1⟩
  have hnotFirst : hp.first ≠ c := fun e => (nodup_cons.mp (nodup_of_gaps hinv.gaps)).1 (by simp [e, huse.1])
  have hlive' := hlive.erase huse'
  have hsecond' : nextPtr hp'.mem hp'.first = secondChunk := by
    rwa [hinv'.firstAt, ← hinv.firstAt, (hsame hp.first hfirst hnotFirst).next]
  -- the chunks around `c` before it was freed
  have hends : ∀ q ∈ live.erase (c + headerSize), (c + headerSize ≤ q - headerSize ∧ c < nextPtr hp'.mem (q - headerSize)) ∨
      nextPtr hp'.mem (q - headerSize) = c ∨ nextPtr hp'.mem (q - headerSize) + chunkStructSize ≤ c := by
    intro q hq
    obtain ⟨u, hu, rfl⟩ := (hlive'.pointers q).mp hq
    obtain ⟨hu, hne⟩ := (huse' u).mp hu
    rw [Nat.add_sub_cancel, (hsame u hu.marked hne).next]
    obtain ⟨hnext, -, hgap, hafter⟩ := hinv.succ (.tail _ hu.1)
    have hbetween := hafter c hcs
    have hap := hinv.apart (.tail _ hnext) hcs
    unfold headerSize chunkStructSize
    omega
  have hbehind : BehindSecond c := by
    have hafter := (hinv.succ (mem_cons_self : hp.first ∈ hp.first :: mid)).2.2.2 c hcs
    have hap := hinv.apart hcs (.tail _ (hinv.succ (mem_cons_self : hp.first ∈ hp.first :: mid)).1)
    have hlo := (hinv.bounds hcs).1
    have hpair := (pairwise_append.mp (pairwise_cons.mp hinv.gaps).2).2.2 c huse.1 hp.last (by simp)
    have hfirstAt := hinv.firstAt
    have hlastAt := hinv.lastAt
    unfold BehindSecond secondChunk
    unfold chunkStructSize at *
    omega
  have hcover : HeaderUncovered hp' (live.erase (c + headerSize)) c := by
    intro q hq
    have := hends q hq
    omega
  have hclear : EndsClear hp' (live.erase (c + headerSize)) c := by
    intro q hq hlt
    have := hends q hq
    unfold headerSize chunkStructSize at *
    omega
  refine ⟨mid', B', hinv', hlive', hsecond', hbehind, hcover, hinv'.markApart_of_clear hlive' hsecond' hbehind hcover hclear, hmark, ?_⟩
  rintro rfl
  have hback := (hinv.succ (mem_cons_self : hp.first ∈ hp.first :: mid)).2.1
  rw [hsecond] at hback
  rw [show prevPtr hp.mem secondChunk = hp.first from hback]
  exact hinv.sentinels.1

/-- One step: the mark is cleared when a chunk is made at `c` again, and stays as it is otherwise. -/
theorem FreedInv.step {cleared : Prop} (h : FreedInv c cleared hp live mid B) (hstep : HeapStep hp live hp' live')
    (hcover : HeaderUncovered hp' live' c) (hclear : EndsClear hp' live' c) :
    ∃ mid' B', FreedInv c (cleared ∨ EndsAt hp' live' c) hp' live' mid' B' := by
  obtain ⟨mid', B', hinv', hlive', hnext, hmarks⟩ := heapStep_inv h.inv h.blocks hstep
  have hsecond := hnext.trans h.second
  have hapart := hinv'.markApart_of_clear hlive' hsecond h.behind hcover hclear
  refine ⟨mid', B', hinv', hlive', hsecond, h.behind, hcover, hapart, ?_, fun hc => .inl (h.ofSecond hc)⟩
  by_cases hmid : c ∈ mid'
  · have hfree : chunkUsed hp'.mem c = 0 := by
      by_contra hne
      have hcovered := hcover.of_inUse hlive' ⟨hmid, hne⟩
      have hgap := (hinv'.succ (.tail _ hmid)).2.2.1
      unfold headerSize at hcovered
      omega
    refine iff_of_true hfree ?_
    rcases hinv'.free_after hlive' hsecond hmid hfree with hc | ⟨v, -, hmem, hends⟩
    · exact .inl (h.ofSecond hc)
    · exact .inr ⟨v + headerSize, hmem, by rwa [Nat.add_sub_cancel]⟩
  · have hnotEnds : ¬ EndsAt hp' live' c := by
      rintro ⟨q, hq, hends⟩
      obtain ⟨u, hu, rfl⟩ := (hlive'.pointers q).mp hq
      rw [Nat.add_sub_cancel] at hends
      rcases mem_append.mp (hinv'.succ (.tail _ hu.1)).1 with hin | hlast
      · exact hmid (hends ▸ hin)
      · have hlastAt := hinv'.lastAt
        have hbehind := h.behind.2
        rw [mem_singleton, hends] at hlast
        unfold chunkStructSize at *
        omega
    rw [hmarks c h.cover hmid h.apart hapart, h.mark]
    exact (or_iff_left hnotEnds).symm

theorem freedRun_inv {cleared : Prop} (h : FreedRun c cleared hp live) : ∃ mid B, FreedInv c cleared hp live mid B := by
  induction h with
  | freed hreach hmem heq => exact freedInv_kfree hreach hmem heq
  | step _ hstep hcover hclear ih =>
    obtain ⟨mid, B, hinv⟩ := ih
    exact hinv.step hstep hcover hclear

/-- `kfree` of a block stops exactly when the mark of its chunk is 0. -/
theorem kfree_stops_iff (hp : Heap) (c : Nat) : kfree hp (c + headerSize) = .error (.assertion "chunk->used") ↔ chunkUsed hp.mem c = 0 := by
  unfold kfree
  rw [if_neg (show c + headerSize ≠ null from Nat.succ_ne_zero _), show c + headerSize - headerSize = c from Nat.add_sub_cancel c _]
  by_cases hused : chunkUsed hp.mem c = 0
  · refine iff_of_true ?_ hused
    have hassert : (chunkUsed hp.mem c != 0) = false := by simpa using hused
    dsimp only
    rw [hassert, assert_false]
    rfl
  · refine iff_of_false ?_ hused
    have hassert : (chunkUsed hp.mem c != 0) = true := by simpa using hused
    dsimp only
    rw [hassert, assert_true]
    split
    · exact fun h => nomatch h
    · exact fun h => nomatch h

/-- Double frees. As long as no block in use covers the header of a freed block, or ends in the bytes before it, a further `kfree`
of the block stops exactly when the mark was cleared: a chunk in use ended at the header when the block was freed, or a block
in use ended there since. -/
theorem double_free_stops_iff {cleared : Prop} (h : FreedRun c cleared hp live) :
    kfree hp (c + headerSize) = .error (.assertion "chunk->used") ↔ cleared := by
  obtain ⟨mid, B, hinv⟩ := freedRun_inv h
  rw [kfree_stops_iff, hinv.mark]

/-- The first block, freed twice. -/
theorem double_free_stops_first : ∃ hp, kfree oneBlock.2 oneBlock.1 = .ok hp ∧ kfree hp oneBlock.1 = .error (.assertion "chunk->used") := by
  have hptr : oneBlock.1 = secondChunk + headerSize := by decide +kernel
  have hmem : secondChunk + headerSize ∈ [oneBlock.1] := List.mem_singleton.mpr hptr.symm
  have hprev : chunkUsed oneBlock.2.mem (prevPtr oneBlock.2.mem secondChunk) ≠ 0 := by decide +kernel
  obtain ⟨hp, heq, -⟩ := oneBlock_reachable.kfree List.mem_cons_self
  rw [hptr] at heq ⊢
  exact ⟨hp, heq, (double_free_stops_iff (FreedRun.freed oneBlock_reachable hmem heq)).mpr hprev⟩

/-- Two blocks, freed in their order: the second is joined to the first, and freeing it once more does not stop. -/
theorem double_free_missed : ∃ hp1 hp2 hp3, kfree threeBlocks.2 oneBlock.1 = .ok hp1 ∧ kfree hp1 twoBlocks.1 = .ok hp2 ∧
    HeapReachable hp2 [threeBlocks.1] ∧ HeaderUncovered hp2 [threeBlocks.1] (twoBlocks.1 - headerSize) ∧
    kfree hp2 twoBlocks.1 = .ok hp3 := by
  have hmem1 : oneBlock.1 ∈ [threeBlocks.1, twoBlocks.1, oneBlock.1] := by simp
  have herase1 : [threeBlocks.1, twoBlocks.1, oneBlock.1].erase oneBlock.1 = [threeBlocks.1, twoBlocks.1] := by decide +kernel
  have herase2 : [threeBlocks.1, twoBlocks.1].erase twoBlocks.1 = [threeBlocks.1] := by decide +kernel
  obtain ⟨hp1, heq1, hreach1⟩ := threeBlocks_reachable.kfree hmem1
  rw [herase1] at hreach1
  have hmem2 : twoBlocks.1 ∈ [threeBlocks.1, twoBlocks.1] := by simp
  obtain ⟨hp2, heq2, hreach2⟩ := hreach1.kfree hmem2
  rw [herase2] at hreach2
  have hrun : ((kfree threeBlocks.2 oneBlock.1).toOption.bind fun hp => (kfree hp twoBlocks.1).toOption.bind fun hp =>
      (kfree hp twoBlocks.1).toOption).isSome = true := by decide +kernel
  rw [heq1, Except.toOption, Option.bind_some, heq2, Except.toOption, Option.bind_some] at hrun
  obtain ⟨hp3, hsome⟩ := Option.isSome_iff_exists.mp hrun
  refine ⟨hp1, hp2, hp3, heq1, heq2, hreach2, ?_, ok_of_toOption hsome⟩
  intro q hq
  rw [List.mem_singleton.mp hq]
  exact Or.inl (by decide +kernel)

end OmegaOS
