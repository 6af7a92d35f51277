import OmegaOS.Lemmas.Ext2Content
import OmegaOS.Lemmas.Ext2Ledger
import OmegaOS.Lemmas.Ext2Release

/-!
# Blocks that are out

A file takes blocks while it grows, and its deletion gives blocks back. Here, the bitmaps and the counters of a state in terms of those of an
earlier one and of the blocks that have been taken since and not given back.
-/

namespace OmegaOS

open ByteMem Splice List

variable {fs fs1 fs' : Ext2} {ino n b k i block fuel : Nat} {inode inode' : Mem} {data : Nat → Prop} {out ns : List Nat} {pool : Pool}

/-! ## The bit that a deletion clears -/

/-- The bit that deletion reads out of a number is the one that stands for it, unless the number is the last of its group. -/
theorem releasedBit_iff (fs : Ext2) (pool : Pool) (hb : b < fs.perGroup pool) (hlt : b < 2 ^ 32) :
    fs.bitNumber pool i b / fs.perGroup pool = i ∧ bitBefore (fs.bitNumber pool i b % fs.perGroup pool) = b ↔
      fs.bitNumber pool i b % fs.perGroup pool ≠ 0 := by
  obtain ⟨hdiv, hmod⟩ := bitNumber_split fs pool i b (by omega)
  rw [hdiv, hmod]
  rcases Nat.lt_or_ge (b + 1) (fs.perGroup pool) with hin | hlast
  · rw [Nat.div_eq_of_lt hin, Nat.mod_eq_of_lt hin, bitBefore_succ hlt]
    simp
  · rw [show b + 1 = fs.perGroup pool by omega, Nat.div_self (by omega), Nat.mod_self]
    simp

/-- The number that a deletion reads a bit out of. -/
theorem number_of_releasedBit (pool : Pool) (hword : n < 2 ^ 32) (hb : b < 2 ^ 32 - 1)
    (hgroup : n / fs.perGroup pool = i) (hbit : bitBefore (n % fs.perGroup pool) = b) : n = fs.bitNumber pool i b := by
  have hmod := Nat.mod_le n (fs.perGroup pool)
  have hsplit := Nat.div_add_mod n (fs.perGroup pool)
  rw [hgroup] at hsplit
  rw [bitBefore] at hbit
  rw [Ext2.bitNumber]
  omega

/-! ## Blocks that are out -/

theorem BitmapsKept.samePool (h : BitmapsKept fs fs') (pool : Pool) : SamePool pool fs fs' :=
  ⟨h.shape, fun _ b hi _ => h.bit pool hi b, h.freeCount pool⟩

theorem blocksOut_nil : BlocksOut fs fs' [] ↔ SamePool .blocks fs fs' := by
  constructor
  · intro h
    refine ⟨h.shape, fun i b hi hb => ?_, h.counts⟩
    have hbit := h.bits i b hi hb
    cases hnew : fs'.bit .blocks i b <;> cases hold : fs.bit .blocks i b <;> simp_all
  · intro h
    refine ⟨h.shape, fun n hn => absurd hn not_mem_nil, nodup_nil, fun i b hi hb => ?_, h.counts⟩
    rw [h.bits i b hi hb]
    simp

theorem BlocksOut.same (h : BlocksOut fs fs1 out) (hs : SamePool .blocks fs1 fs') : BlocksOut fs fs' out := by
  refine ⟨h.shape.trans hs.shape, h.fresh, h.distinct, fun i b hi hb => ?_, fun i => by rw [hs.counts, h.counts]⟩
  rw [hs.bits i b (by rwa [h.shape.groupCount]) (by rwa [h.shape.blockSize]), h.bits i b hi hb]

theorem BlocksOut.perm (h : BlocksOut fs fs' out) (hp : out.Perm ns) : BlocksOut fs fs' ns := by
  refine ⟨h.shape, fun n hn => h.fresh n (hp.mem_iff.mpr hn), hp.nodup_iff.mp h.distinct, fun i b hi hb => ?_, fun i => ?_⟩
  · rw [h.bits i b hi hb, hp.mem_iff]
  · rw [← hp.countP_eq]
    exact h.counts i

theorem BlocksOut.grown (h : BlocksOut fs fs1 out) (hg : Grown fs1 inode ino k ns data fs' inode') : BlocksOut fs fs' (out ++ ns) :=
  h.append hg.blocksOut

/-- A release takes its block off what is out. -/
theorem BlocksOut.released (h : BlocksOut fs fs1 (n :: out)) (g : Geometry fs) (hfree : FreeOk fs)
    (hlast : n % fs.superBlock.blocksPerGroup ≠ 0)
    (hr : BitReleased fs1 fs' .blocks (n / fs.superBlock.blocksPerGroup) (bitBefore (n % fs.superBlock.blocksPerGroup))) :
    BlocksOut fs fs' out := by
  have hs := h.shape
  obtain ⟨hnot, hdistinct⟩ := nodup_cons.mp h.distinct
  obtain ⟨j, c, hj, hc, hclear, rfl⟩ := h.fresh n mem_cons_self
  obtain ⟨hcpg, -⟩ := hfree j c hj hc hclear
  obtain ⟨-, hsmall, -⟩ := g.blockSize_bounds
  obtain ⟨hgroup, hbit⟩ := (releasedBit_iff fs .blocks hcpg (by omega)).mpr hlast
  rw [show fs.bitNumber .blocks j c / fs.superBlock.blocksPerGroup = j from hgroup,
    show bitBefore (fs.bitNumber .blocks j c % fs.superBlock.blocksPerGroup) = c from hbit] at hr
  refine ⟨hs.trans hr.shape, fun m hm => h.fresh m (.tail _ hm), hdistinct, fun i b hi hb => ?_, fun i => ?_⟩
  · have hold := h.bits i b hi hb
    rw [hr.bits .blocks i b (by rwa [hs.groupCount]) (by rwa [hs.blockSize])]
    by_cases hsame : i = j ∧ b = c
    · obtain ⟨rfl, rfl⟩ := hsame
      simp [hclear, hnot]
    · -- another bit stands for another number
      have hne : fs.bit .blocks i b = false → fs.bitNumber .blocks i b ≠ fs.bitNumber .blocks j c := fun hfalse he =>
        hsame (bitNumber_injective (p := .blocks) (hfree i b hi hb hfalse).1 hcpg he)
      simp only [hsame, and_false, decide_false, Bool.not_false, Bool.and_true, hold, mem_cons, not_or]
      exact ⟨fun hout => ⟨hout.1, hout.2.2⟩, fun hout => ⟨hout.1, hne hout.1, hout.2⟩⟩
  · have hcount := h.counts i
    have hlt : fs.freeCount .blocks i < 2 ^ 16 := load_lt _ _ 2
    rw [countP_cons, groupOf_bitNumber hcpg] at hcount
    by_cases hij : j = i
    · subst hij
      rw [hr.counted]
      simp only [decide_true, if_true] at hcount
      omega
    · rw [hr.counts .blocks i fun he => hij (Prod.mk.inj he).2.symm]
      simpa [hij] using hcount

/-- The loop over the data blocks gives back what is out, when that is the blocks of its indices and none is the last of a group. -/
theorem BlocksOut.deleteBlocks (g : Geometry fs) (hfree : FreeOk fs) (hdirect : block + fuel ≤ ndirBlocks)
    (hlast : ∀ k, block ≤ k → k < block + fuel → iBlock inode k % fs.superBlock.blocksPerGroup ≠ 0)
    (h : BlocksOut fs fs1 ((List.range' block fuel).map (iBlock inode))) (hr : fs1.deleteBlocks inode block fuel = (enoer, fs')) :
    SamePool .blocks fs fs' := by
  induction fuel generalizing fs1 block with
  | zero =>
    cases hr
    exact blocksOut_nil.mp h
  | succ fuel ih =>
    rw [Ext2.deleteBlocks, getRealBlock_direct fs1 inode (by omega)] at hr
    rcases deleteBlockBuffer_cases (g.bitmapLayout.congr h.shape) (iBlock inode block) with ⟨ret, hret, heq⟩ | ⟨fs2, heq, -, hreleased⟩
    · rw [heq] at hr
      dsimp only at hr
      rw [if_pos hret] at hr
      exact absurd (Prod.mk.inj hr).1 hret
    · rw [heq] at hr
      dsimp only at hr
      rw [if_neg (by simp)] at hr
      rw [h.shape.superBlock] at hreleased
      rw [range'_succ, map_cons] at h
      exact ih (by omega) (fun k hlo hhi => hlast k (by omega) (by omega))
        (h.released g hfree (hlast block .refl (by omega)) hreleased) hr

/-- A bit that is set stays so when it is none of those that the loop reads out of the numbers. -/
theorem deleteBlocks_bit (l : BitmapLayout fs) (hdirect : block + fuel ≤ ndirBlocks) (hi : i < fs.groupCount)
    (hb : b < 8 * fs.blockSize) (hset : fs.bit .blocks i b = true) (hnot : ∀ k, block ≤ k → k < block + fuel →
      ¬ (iBlock inode k / fs.superBlock.blocksPerGroup = i ∧ bitBefore (iBlock inode k % fs.superBlock.blocksPerGroup) = b)) :
    (fs.deleteBlocks inode block fuel).2.bit .blocks i b = true := by
  induction fuel generalizing fs block with
  | zero => exact hset
  | succ fuel ih =>
    rw [Ext2.deleteBlocks, getRealBlock_direct fs inode (by omega)]
    rcases deleteBlockBuffer_cases l (iBlock inode block) with ⟨ret, hret, heq⟩ | ⟨fs1, heq, -, hreleased⟩
    · rw [heq]
      dsimp only
      rwa [if_pos hret]
    · have hs := hreleased.shape
      have hother := hnot block .refl (by omega)
      rw [heq]
      dsimp only
      rw [if_neg (by simp)]
      refine ih (l.congr hs) (by omega) (by rwa [hs.groupCount]) (by rwa [hs.blockSize]) ?_ fun k hlo hhi => ?_
      · rw [hreleased.bits .blocks i b hi hb, hset, decide_eq_false fun he => hother ⟨he.2.1.symm, he.2.2.symm⟩]
        rfl
      · rw [hs.superBlock]
        exact hnot k (by omega) (by omega)

/-! ## The rounds of a write -/

/-- The rounds of a write that all succeed allocate a block for each that the inode is short of. -/
theorem FileOk.writeLoop_grown (h : FileOk fs inode data) (ho : Opened fs ino) (hfree : FreeOk fs) {offset size last written total : Nat}
    {buffer : Mem} (hlast : last < ndirBlocks) (hfuel : b + fuel = last + 1) (hreach : b ≤ fs.sector2Block (iSectors inode))
    (hr : fs.writeLoop inode ino offset size buffer written b fuel = (true, inode', total, fs')) :
    ∃ ns, ns.length = last + 1 - fs.sector2Block (iSectors inode) ∧
      Grown fs inode ino (fs.sector2Block (iSectors inode)) ns data fs' inode' := by
  induction fuel generalizing fs inode b written with
  | zero =>
    cases hr
    exact ⟨[], by rw [length_nil]; omega, grown_nil h.image _ _⟩
  | succ fuel ih =>
    rw [Ext2.writeLoop] at hr
    cases himage : fs.blockImage inode offset size buffer written b with
    | none =>
      simp [himage] at hr
    | some round =>
      obtain ⟨image, count⟩ := round
      rw [himage] at hr
      dsimp only at hr
      rcases h.writeInodeBlock ho hfree (by omega) hreach image with
        ⟨hfail, -⟩ | ⟨ns, fs1, inode1, hrun, hlen, hgrown, hfile, hsectors, -⟩
      · simp [hfail] at hr
      · rw [hrun] at hr
        obtain ⟨ms, hmlen, hgrown'⟩ := ih hfile (ho.congr hgrown.shape) (hgrown.freeOk hfree) (by omega) (by rw [hsectors]; omega) hr
        rw [hsectors] at hmlen hgrown'
        refine ⟨ns ++ ms, ?_, hgrown.append hgrown'⟩
        rw [length_append, hmlen, hlen]
        omega

end OmegaOS
