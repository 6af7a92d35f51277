import OmegaOS.Lemmas.Kmalloc

/-!
# `kfree`

`kfree` joins the chunk to the free chunks on both sides of it, so that no two free chunks are neighbours, and leaves the other
blocks in use as they are.
-/

namespace OmegaOS

open ByteMem Ring List

variable {hp : Heap} {mid : List Nat} {B : Nat → List Nat} {c : Nat}

theorem Layout.mid_nodup (h : Layout hp mid) : mid.Nodup := (nodup_append.mp (nodup_cons.mp (nodup_of_gaps h.gaps)).2).1

theorem HeapInv.inner_of_free (h : HeapInv hp mid B loose) (hx : x ∈ chunks hp mid) (hfree : chunkUsed hp.mem x = 0) : x ∈ mid := by
  rcases mem_chunks.mp hx with rfl | hm | rfl
  · exact absurd hfree h.sentinels.1
  · exact hm
  · exact absurd hfree h.sentinels.2

/-- What the first half of `kfree` does: the chunk behind a chunk in use is not free any more. -/
theorem joinNext_inv (h : HeapInv hp mid B noLoose) (hc : c ∈ mid) (hu : chunkUsed hp.mem c ≠ 0) :
    ∃ m heads mid' B', joinNext hp (nextPtr hp.mem c) = { hp with mem := m, freeChunks := heads } ∧
      HeapInv { hp with mem := m, freeChunks := heads } mid' B' noLoose ∧ c ∈ mid' ∧ chunkUsed m (nextPtr m c) ≠ 0 ∧
      prevPtr m c = prevPtr hp.mem c ∧
      (∀ u, InUse { hp with mem := m, freeChunks := heads } mid' u ↔ InUse hp mid u) ∧
      (∀ x, MarkApart (chunks hp mid) x → MarkApart (chunks hp mid') x ∧ chunkUsed m x = chunkUsed hp.mem x) ∧
      ∀ u, Marked hp mid u → u ≠ c → SameBlock hp.mem m u := by
  have hcs : c ∈ chunks hp mid := mid_sub_chunks hc
  obtain ⟨hnmem, hnprev, -, -⟩ := h.succ (.tail _ hc)
  unfold joinNext
  split
  · rename_i hfree
    have hn := h.inner_of_free (.tail _ hnmem) hfree
    obtain ⟨m, heads, B', heq, hinv, -, -, hheads, hun⟩ := h.removeFree hn ⟨hfree, id⟩
    rw [heq]
    have hncs : nextPtr hp.mem c ∈ chunks hp mid := mid_sub_chunks hn
    have hafter := h.noTwoFree _ hn ⟨hfree, id⟩
    have hafterMem : nextPtr hp.mem (nextPtr hp.mem c) ∈ chunks hp mid := .tail _ (h.succ (.tail _ hn)).1
    have hpback : prevPtr m (nextPtr hp.mem c) = c := by
      rw [(hheads _ hncs).2.1, hnprev]
    have hagap := (h.succ (.tail _ hn)).2.2.1
    have hngap := (h.succ (.tail _ hc)).2.2.1
    generalize nextPtr hp.mem c = next at *
    obtain ⟨m1, m2, rfl⟩ := append_of_mem hn
    have hwithout := mem_without h.mid_nodup
    obtain ⟨hinv', hjoin, hprevs, hblocks, hused, -, hun'⟩ := hinv.unlink (fun hf => hf.2 (.inr rfl)) (by
        rw [hpback]
        exact fun hf => hu ((hheads c hcs).2.2.symm.trans hf.1))
    have hjoin' := hjoin
    rw [hpback, (hheads next hncs).1] at hjoin'
    have hused' : ∀ x ∈ chunks hp (m1 ++ next :: m2), chunkUsed (dlistRemove m next) x = chunkUsed hp.mem x :=
      fun x hx => (hused x hx).trans (hheads x hx).2.2
    have hcin : c ∈ m1 ++ m2 := (hwithout c).mpr ⟨hc, by omega⟩
    refine ⟨_, heads, m1 ++ m2, B', rfl, hinv'.tighten fun x hx => ?_, hcin, ?_, ?_, fun u => ?_, fun x hapart =>
      ⟨hapart.without, (hun'.mark hapart (hused x)).trans (hheads.mark hun hapart)⟩, fun u huse hne => ?_⟩
    · exact (or_iff_left ((hwithout x).mp hx).2).symm
    · rw [hjoin', hused' _ hafterMem]
      exact fun he => hafter ⟨he, id⟩
    · refine (hprevs c (mid_sub_chunks hcin) ?_).trans (hheads c hcs).2.1
      rw [(hheads next hncs).1]
      omega
    · constructor
      · rintro ⟨hu', hne0⟩
        have hu'' := ((hwithout u).mp hu').1
        exact ⟨hu'', by rwa [← hused' u (mid_sub_chunks hu'')]⟩
      · rintro ⟨hu', hne0⟩
        refine ⟨(hwithout u).mpr ⟨hu', fun e => hne0 (e ▸ hfree)⟩, ?_⟩
        rwa [hused' u (mid_sub_chunks hu')]
    · have huin := mem_cons.mpr ((mem_cons.mp huse.1).imp id fun hm => (hwithout u).mpr ⟨hm, fun e => huse.2 (e ▸ hfree)⟩)
      refine (hheads.sameBlock hun h.toLayout huse.1 huse.2).trans (hblocks u huin ?_)
      rwa [hpback]
  · rename_i hused
    exact ⟨hp.mem, hp.freeChunks, mid, B, rfl, h, hc, hused, rfl, fun u => .rfl, fun x hapart => ⟨hapart, rfl⟩,
      fun u _ _ => .refl _ u⟩

theorem HeapInv.prev_not_free (h : HeapInv hp mid B loose) (hc : c ∈ mid) (hf : IsFree hp.mem loose c) :
    ¬ IsFree hp.mem loose (prevPtr hp.mem c) := by
  obtain ⟨hmem, hnext⟩ := h.pred hc
  intro hf'
  refine h.noTwoFree _ (h.inner_of_free (front_sub_chunks hmem) hf'.1) hf' ?_
  rwa [hnext]

section

variable (h : HeapInv hp mid B noLoose)

include h

/-- The second half of `kfree` behind a chunk in use: the chunk becomes free. -/
theorem freeAlone_inv (hc : c ∈ mid) (hu : chunkUsed hp.mem c ≠ 0)
    (hnext : chunkUsed hp.mem (nextPtr hp.mem c) ≠ 0) (hprev : chunkUsed hp.mem (prevPtr hp.mem c) ≠ 0) :
    ∃ hp' B', pushFree { hp with mem := dlistInit (setChunkUsed hp.mem c 0) (freeNode c) } c = hp' ∧
      HeapInv hp' mid B' noLoose ∧ (∀ u, InUse hp' mid u ↔ InUse hp mid u ∧ u ≠ c) ∧
      (chunkUsed hp'.mem c = 0 ∧ ∀ x, x ≠ c → MarkApart (chunks hp mid) x → chunkUsed hp'.mem x = chunkUsed hp.mem x) ∧
      ∀ u, Marked hp mid u → u ≠ c → SameBlock hp.mem hp'.mem u := by
  have hcs : c ∈ chunks hp mid := mid_sub_chunks hc
  have hncs : nextPtr hp.mem c ∈ chunks hp mid := .tail _ (h.succ (.tail _ hc)).1
  have hngap := (h.succ (.tail _ hc)).2.2.1
  obtain ⟨hpmem, hpnext⟩ := h.pred hc
  have hpcs := front_sub_chunks hpmem
  have hpgap := (h.succ hpmem).2.2.1
  rw [hpnext] at hpgap
  obtain ⟨hinv, hlinks, hused, hun⟩ := h.setUsed hc (show 0 < 2 ^ 32 by decide) (fun x hne => iff_of_false hne id)
    (fun hf => hu hf.1) (.inr (rfl : c = c))
  obtain ⟨hinv', hfn, hfp, hheads, hun'⟩ := hinv.initNode hc fun hf => hf.2 rfl
  have hzero : chunkUsed (setChunkUsed hp.mem c 0) c = 0 := chunkUsed_setChunkUsed hp.mem c (by decide)
  generalize setChunkUsed hp.mem c 0 = m at *
  generalize dlistInit _ (freeNode c) = m' at *
  have hused' : ∀ x ∈ chunks hp mid, x ≠ c → chunkUsed m' x = chunkUsed hp.mem x :=
    fun x hx hne => ((hheads x hx).2.2).trans (hused x hx hne)
  obtain ⟨m'', heads, B', heq, hinv'', hheads', hun''⟩ := hinv'.pushFree hc ((hheads c hcs).2.2.trans hzero) rfl (by
      rw [(hheads c hcs).1, (hlinks c hcs).1]
      exact fun hf => hnext ((hused' _ hncs (by omega)).symm.trans hf.1))
    (by
      rw [(hheads c hcs).2.1, (hlinks c hcs).2]
      exact fun hf => hprev ((hused' _ hpcs (by omega)).symm.trans hf.1))
    hfn hfp
  have hsame : ∀ u, Marked hp mid u → u ≠ c → SameBlock hp.mem m'' u := by
    intro u huse hne
    have hus : u ∈ chunks hp mid := front_sub_chunks huse.1
    have hmark : SameBlock hp.mem m u := ⟨(hlinks u hus).1, hused u hus hne, hun.payload h.toLayout huse.1 id⟩
    have hinit : SameBlock m m' u := hheads.sameBlock hun' hinv.toLayout huse.1 hne
    refine (hmark.trans hinit).trans (hheads'.sameBlock hun'' hinv'.toLayout huse.1 ?_)
    rw [hused' u hus hne]
    exact huse.2
  refine ⟨_, B', heq, hinv''.tighten fun x _ => iff_of_false id fun hx => hx.2 hx.1, fun u => ?_, ⟨?_, fun x hne hapart => ?_⟩, hsame⟩
  · constructor
    · rintro ⟨hmem, hne0⟩
      have hus : u ∈ chunks hp mid := mid_sub_chunks hmem
      have hne0' : chunkUsed m' u ≠ 0 := by
        rwa [← show chunkUsed m'' u = chunkUsed m' u from (hheads' u hus).2.2]
      have hne : u ≠ c := by
        rintro rfl
        exact hne0' ((hheads u hus).2.2.trans hzero)
      exact ⟨⟨hmem, by rwa [← hused' u hus hne]⟩, hne⟩
    · rintro ⟨huse, hne⟩
      exact ⟨huse.1, by rw [show chunkUsed _ u = _ from (hsame u huse.marked hne).used]; exact huse.2⟩
  · exact ((hheads' c hcs).2.2.trans (hheads c hcs).2.2).trans hzero
  · have hmark := hun.mark hapart fun hxs => hused x hxs hne
    exact (hheads'.mark hun'' hapart).trans ((hheads.mark hun' hapart).trans hmark)

/-- The second half of `kfree` behind a free chunk: the chunk is joined to it. -/
theorem freeIntoPrev_inv (hc : c ∈ mid) (hu : chunkUsed hp.mem c ≠ 0)
    (hnext : chunkUsed hp.mem (nextPtr hp.mem c) ≠ 0) (hprev : chunkUsed hp.mem (prevPtr hp.mem c) = 0) :
    ∃ hp' mid' B', pushFree { removeFree hp (prevPtr hp.mem c) with
        mem := dlistRemove (removeFree hp (prevPtr hp.mem c)).mem c } (prevPtr hp.mem c) = hp' ∧
      HeapInv hp' mid' B' noLoose ∧ (∀ u, InUse hp' mid' u ↔ InUse hp mid u ∧ u ≠ c) ∧
      (∀ x, MarkApart (chunks hp mid) x → chunkUsed hp'.mem x = chunkUsed hp.mem x) ∧
      ∀ u, Marked hp mid u → u ≠ c → SameBlock hp.mem hp'.mem u := by
  have hcs : c ∈ chunks hp mid := mid_sub_chunks hc
  obtain ⟨hnmem, -, hngap, -⟩ := h.succ (.tail _ hc)
  have hncs : nextPtr hp.mem c ∈ chunks hp mid := .tail _ hnmem
  obtain ⟨hpmem, hpnext⟩ := h.pred hc
  have hpmid := h.inner_of_free (front_sub_chunks hpmem) hprev
  have hpgap := (h.succ hpmem).2.2.1
  rw [hpnext] at hpgap
  have hpp := h.prev_not_free hpmid ⟨hprev, id⟩
  obtain ⟨m, heads, B', heq, hinv, hfn, hfp, hheads, hun⟩ := h.removeFree hpmid ⟨hprev, id⟩
  rw [heq]
  have hpback : prevPtr m c = prevPtr hp.mem c := (hheads c hcs).2.1
  generalize prevPtr hp.mem c = prev at *
  have hpcs : prev ∈ chunks hp mid := mid_sub_chunks hpmid
  obtain ⟨m1, m2, rfl⟩ := append_of_mem hc
  have hwithout := mem_without h.mid_nodup
  obtain ⟨hinv', hjoin, hprevs, hblocks, hused, hnodes, hcut⟩ := hinv.unlink (fun hf => hu ((hheads c hcs).2.2.symm.trans hf.1)) (by
      rw [hpback]
      exact fun hf => hf.2 (.inr rfl))
  have hused' : ∀ x ∈ chunks hp (m1 ++ c :: m2), chunkUsed (dlistRemove m c) x = chunkUsed hp.mem x :=
    fun x hx => (hused x hx).trans (hheads x hx).2.2
  have hpin : prev ∈ m1 ++ m2 := (hwithout prev).mpr ⟨hpmid, by omega⟩
  have hjoin' : nextPtr (dlistRemove m c) prev = nextPtr hp.mem c := by
    have hj := hjoin
    rwa [hpback, (hheads c hcs).1] at hj
  have hprev' : prevPtr (dlistRemove m c) prev = prevPtr hp.mem prev := by
    refine (hprevs prev (mid_sub_chunks hpin) ?_).trans (hheads prev hpcs).2.1
    rw [(hheads c hcs).1]
    omega
  have hppcs := front_sub_chunks (h.pred hpmid).1
  obtain ⟨hfn', hfp'⟩ := hnodes prev hpcs
  generalize dlistRemove m c = m' at *
  obtain ⟨m'', heads', B'', heq', hinv'', hheads', hun'⟩ := hinv'.pushFree hpin ((hused' prev hpcs).trans hprev) (.inr rfl) (by
      rw [hjoin']
      exact fun hf => hnext ((hused' _ hncs).symm.trans hf.1))
    (by
      rw [hprev']
      exact fun hf => hpp ⟨(hused' _ hppcs).symm.trans hf.1, id⟩)
    (hfn'.trans hfn) (hfp'.trans hfp)
  have hsame : ∀ u, Marked hp (m1 ++ c :: m2) u → u ≠ c → SameBlock hp.mem m'' u := by
    intro u huse hne
    have hus := front_sub_chunks huse.1
    have huin := mem_cons.mpr ((mem_cons.mp huse.1).imp id fun hm => (hwithout u).mpr ⟨hm, hne⟩)
    have hup : u ≠ prev := fun e => huse.2 (e ▸ hprev)
    have hout : SameBlock hp.mem m u := hheads.sameBlock hun h.toLayout huse.1 huse.2
    have hcut : SameBlock m m' u := hblocks u huin (by rwa [show prevPtr _ c = _ from hpback])
    refine (hout.trans hcut).trans (hheads'.sameBlock hun' hinv'.toLayout huin ?_)
    rw [hused' u hus]
    exact huse.2
  refine ⟨_, m1 ++ m2, B'', heq', hinv''.tighten fun x hx => ?_, fun u => ?_, fun x hapart => ?_, hsame⟩
  · exact iff_of_false id fun hx => hx.1.elim id hx.2
  · constructor
    · rintro ⟨hmem, hne0⟩
      obtain ⟨hmem', hne⟩ := (hwithout u).mp hmem
      refine ⟨⟨hmem', ?_⟩, hne⟩
      rwa [← hused' u (mid_sub_chunks hmem'), ← show chunkUsed m'' u = chunkUsed m' u from (hheads' u (mid_sub_chunks hmem)).2.2]
    · rintro ⟨huse, hne⟩
      exact ⟨(hwithout u).mpr ⟨huse.1, hne⟩, by rw [show chunkUsed _ u = _ from (hsame u huse.marked hne).used]; exact huse.2⟩
  · exact (hheads'.mark hun' hapart.without).trans ((hcut.mark hapart (hused x)).trans (hheads.mark hun hapart))

/-- `kfree` of a chunk in use returns, and frees that chunk only. -/
theorem kfree_inv (huse : InUse hp mid c) : ∃ hp' mid' B', kfree hp (c + headerSize) = .ok hp' ∧ HeapInv hp' mid' B' noLoose ∧
      (∀ u, InUse hp' mid' u ↔ InUse hp mid u ∧ u ≠ c) ∧
      ((chunkUsed hp'.mem c = 0 ↔ chunkUsed hp.mem (prevPtr hp.mem c) ≠ 0) ∧
        ∀ x, x ≠ c → MarkApart (chunks hp mid) x → chunkUsed hp'.mem x = chunkUsed hp.mem x) ∧
      ∀ u, Marked hp mid u → u ≠ c → SameBlock hp.mem hp'.mem u := by
  obtain ⟨hc, hu⟩ := huse
  obtain ⟨m, heads, mid1, B1, heq, hinv, hc', hnext, hprev, huse1, hmarks1, hsame1⟩ := joinNext_inv h hc hu
  have hprevMark : chunkUsed m (prevPtr hp.mem c) = chunkUsed hp.mem (prevPtr hp.mem c) :=
    (hmarks1 _ (h.markApart (front_sub_chunks (h.pred hc).1))).2
  have hu' : chunkUsed m c ≠ 0 := ((huse1 c).mpr ⟨hc, hu⟩).2
  unfold kfree
  rw [if_neg (show c + headerSize ≠ null from Nat.succ_ne_zero _), show c + headerSize - headerSize = c from Nat.add_sub_cancel c _]
  have hassert : (chunkUsed hp.mem c != 0) = true := by simpa using hu
  dsimp only
  rw [← hprev] at hprevMark
  rw [hassert, assert_true, heq, ← hprev]
  have huse' := huse1
  have hmarked : ∀ u, Marked hp mid u → u ≠ c → u ∈ hp.first :: mid1 ∧ chunkUsed m u ≠ 0 := by
    intro u hu1 hne
    refine ⟨mem_cons.mpr ((mem_cons.mp hu1.1).imp id fun hm => ((huse' u).mpr ⟨hm, hu1.2⟩).1), ?_⟩
    rw [(hsame1 u hu1 hne).used]
    exact hu1.2
  split
  · rename_i hfree
    obtain ⟨hp', mid', B', heq', hinv', huse2, hmarks2, hsame2⟩ := freeIntoPrev_inv hinv hc' hu' hnext hfree
    have hmarks : ∀ x, MarkApart (chunks hp mid) x → chunkUsed hp'.mem x = chunkUsed hp.mem x :=
      fun x hx => (hmarks2 x (hmarks1 x hx).1).trans (hmarks1 x hx).2
    refine ⟨hp', mid', B', congrArg Except.ok heq', hinv', fun u => ?_, ⟨iff_of_false ?_ ?_, fun x _ => hmarks x⟩, fun u hu1 hne => ?_⟩
    · rw [huse2 u, huse1 u]
    · rwa [hmarks c (h.markApart (mid_sub_chunks hc))]
    · exact fun hne => hne (hprevMark.symm.trans hfree)
    · exact (hsame1 u hu1 hne).trans (hsame2 u (hmarked u hu1 hne) hne)
  · rename_i hused
    obtain ⟨hp', B', heq', hinv', huse2, ⟨hzero, hmarks2⟩, hsame2⟩ := freeAlone_inv hinv hc' hu' hnext hused
    refine ⟨hp', mid1, B', congrArg Except.ok heq', hinv', fun u => ?_, ⟨iff_of_true hzero ?_, fun x hne hx => ?_⟩, fun u hu1 hne => ?_⟩
    · rw [huse2 u, huse1 u]
    · exact fun hz => hused (hprevMark.trans hz)
    · exact (hmarks2 x hne (hmarks1 x hx).1).trans (hmarks1 x hx).2
    · exact (hsame1 u hu1 hne).trans (hsame2 u (hmarked u hu1 hne) hne)

end

end OmegaOS
