import OmegaOS.Ext2Dir
import OmegaOS.Lemmas.Ext2

/-!
# Numbers that the ext2 driver gives back

What `deleteBlockBuffer` and `deleteInode` do to the bitmaps and to the counters.
-/

namespace OmegaOS

open ByteMem Ext2

variable {fs fs' : Ext2} {pool : Pool}

/-- What a release does: one bit is cleared and counted. -/
structure BitReleased (fs fs' : Ext2) (pool : Pool) (j b : Nat) : Prop extends BitmapWritten fs fs' pool j where
  bits : ∀ pool' i b', i < fs.groupCount → b' < 8 * fs.blockSize →
    fs'.bit pool' i b' = (fs.bit pool' i b' && !decide (pool' = pool ∧ i = j ∧ b' = b))
  counted : fs'.freeCount pool j = (fs.freeCount pool j + 1) % 2 ^ 16

/-- The bit before an offset, on 32 bits. -/
def bitBefore (offset : Nat) : Nat := (offset + (2 ^ 32 - 1)) % 2 ^ 32

theorem bitNumber_split (fs : Ext2) (pool : Pool) (i b : Nat) (hpos : 0 < fs.perGroup pool) :
    fs.bitNumber pool i b / fs.perGroup pool = i + (b + 1) / fs.perGroup pool ∧
      fs.bitNumber pool i b % fs.perGroup pool = (b + 1) % fs.perGroup pool := by
  have hsum : fs.bitNumber pool i b = b + 1 + fs.perGroup pool * i := by
    rw [bitNumber]
    omega
  rw [hsum, Nat.add_mul_div_left _ _ hpos, add_comm i, Nat.add_mul_mod_self_left]
  exact ⟨rfl, rfl⟩

theorem bitBefore_succ (hb : b < 2 ^ 32) : bitBefore (b + 1) = b := by
  rw [bitBefore]
  omega

theorem releaseBit_released (l : BitmapLayout fs) (hj : j < fs.groupCount)
    (hread : fs.readable (fs.bitmapBlock pool j) = true) (offset : Nat) :
    ∃ fs', fs.releaseBit pool j offset = some fs' ∧ BitReleased fs fs' pool j (bitBefore offset) := by
  have hput := putBitmap_put l pool hj (Nat.mod_lt (fs.freeCount pool j + 1) (by decide))
    (clearBit (fs.disk (fs.bitmapBlock pool j)) (bitBefore offset))
  refine ⟨fs.putBitmap pool j ((fs.freeCount pool j + 1) % 2 ^ 16) (clearBit (fs.disk (fs.bitmapBlock pool j)) (bitBefore offset)), ?_,
    hput.toBitmapWritten, fun pool' i b' hi hb' => ?_, hput.count⟩
  · rw [releaseBit, readBlock, l.physical_bitmap pool hj, if_pos hread]
    rfl
  · by_cases hsame : pool' = pool ∧ i = j
    · obtain ⟨rfl, rfl⟩ := hsame
      rw [hput.bits b' hb', bitOf_clearBit, bit]
      simp
    · rw [hput.others pool' i b' hi fun he => hsame (Prod.mk.inj he), decide_eq_false (fun h => hsame ⟨h.1, h.2.1⟩)]
      simp

theorem releaseBit_none (l : BitmapLayout fs) (hj : j < fs.groupCount) (hread : fs.readable (fs.bitmapBlock pool j) = false)
    (offset : Nat) : fs.releaseBit pool j offset = none := by
  rw [releaseBit, readBlock, l.physical_bitmap pool hj, if_neg (by simp [hread])]

/-- `deleteBlockBuffer` releases the bit that it reads out of the number. -/
theorem deleteBlockBuffer_released (l : BitmapLayout fs) (hn : n ≠ 0) (hgroup : n / fs.superBlock.blocksPerGroup < fs.groupCount)
    (hread : fs.readable (fs.bitmapBlock .blocks (n / fs.superBlock.blocksPerGroup)) = true) :
    ∃ fs', fs.deleteBlockBuffer n = (enoer, fs') ∧
      BitReleased fs fs' .blocks (n / fs.superBlock.blocksPerGroup) (bitBefore (n % fs.superBlock.blocksPerGroup)) := by
  obtain ⟨fs', heq, hreleased⟩ := releaseBit_released l hgroup hread (n % fs.superBlock.blocksPerGroup)
  refine ⟨fs', ?_, hreleased⟩
  rw [deleteBlockBuffer, if_neg hn, if_neg (Nat.not_le.mpr hgroup), heq]

theorem deleteBlockBuffer_eperm (hn : n ≠ 0) (hgroup : fs.groupCount ≤ n / fs.superBlock.blocksPerGroup) :
    fs.deleteBlockBuffer n = (eperm, fs) := by
  rw [deleteBlockBuffer, if_neg hn, if_pos hgroup]

/-- `deleteBlockBuffer` fails and does nothing, or releases a bit. -/
theorem deleteBlockBuffer_cases (l : BitmapLayout fs) (n : Nat) : (∃ ret, ret ≠ enoer ∧ fs.deleteBlockBuffer n = (ret, fs)) ∨
      ∃ fs', fs.deleteBlockBuffer n = (enoer, fs') ∧ n ≠ 0 ∧
        BitReleased fs fs' .blocks (n / fs.superBlock.blocksPerGroup) (bitBefore (n % fs.superBlock.blocksPerGroup)) := by
  by_cases hn : n = 0
  · exact .inl ⟨eio, by decide, by rw [deleteBlockBuffer, if_pos hn]⟩
  · by_cases hgroup : fs.groupCount ≤ n / fs.superBlock.blocksPerGroup
    · exact .inl ⟨eperm, by decide, deleteBlockBuffer_eperm hn hgroup⟩
    · replace hgroup : n / fs.superBlock.blocksPerGroup < fs.groupCount := Nat.lt_of_not_le hgroup
      cases hread : fs.readable (fs.bitmapBlock .blocks (n / fs.superBlock.blocksPerGroup)) with
      | false =>
        refine .inl ⟨eio, by decide, ?_⟩
        rw [deleteBlockBuffer, if_neg hn, if_neg (Nat.not_le.mpr hgroup), releaseBit_none l hgroup hread]
      | true =>
        obtain ⟨fs', heq, hreleased⟩ := deleteBlockBuffer_released l hn hgroup hread
        exact .inr ⟨fs', heq, hn, hreleased⟩

theorem deleteBlock_eq (hheap : fs.heapOk = true) (n : Nat) : fs.deleteBlock n = fs.deleteBlockBuffer n := by
  rw [deleteBlock, hheap]
  rfl

/-! ## The data blocks of an inode -/

/-- The bitmaps and the counters of the blocks, or of the inodes, are the same. -/
structure SamePool (pool : Pool) (fs fs' : Ext2) : Prop where
  shape : SameShape fs fs'
  bits : ∀ i b, i < fs.groupCount → b < 8 * fs.blockSize → fs'.bit pool i b = fs.bit pool i b
  counts : ∀ i, fs'.freeCount pool i = fs.freeCount pool i

theorem SamePool.refl (pool : Pool) (fs : Ext2) : SamePool pool fs fs := ⟨.refl fs, fun _ _ _ _ => rfl, fun _ => rfl⟩

theorem SamePool.symm (h : SamePool pool fs fs') : SamePool pool fs' fs := by
  refine ⟨h.shape.symm, fun i b hi hb => ?_, fun i => (h.counts i).symm⟩
  rw [h.bits i b (by rwa [← h.shape.groupCount]) (by rwa [← h.shape.blockSize])]

theorem SamePool.trans (h : SamePool pool fs fs') (h' : SamePool pool fs' fs'') : SamePool pool fs fs'' := by
  refine ⟨h.shape.trans h'.shape, fun i b hi hb => ?_, fun i => (h'.counts i).trans (h.counts i)⟩
  rw [h'.bits i b (by rwa [h.shape.groupCount]) (by rwa [h.shape.blockSize]), h.bits i b hi hb]

theorem BitReleased.samePool (h : BitReleased fs fs' pool j b) (hne : pool' ≠ pool) : SamePool pool' fs fs' := by
  refine ⟨h.shape, fun i b' hi hb' => ?_, fun i => h.counts pool' i fun he => hne (Prod.mk.inj he).1⟩
  rw [h.bits pool' i b' hi hb', decide_eq_false fun he => hne he.1]
  simp

/-- The loop over the data blocks leaves what belongs to the inodes. -/
theorem deleteBlocks_samePool (l : BitmapLayout fs) (inode : Mem) (block fuel : Nat) :
    SamePool .inodes fs (fs.deleteBlocks inode block fuel).2 := by
  induction fuel generalizing fs block with
  | zero => exact .refl _ fs
  | succ fuel ih =>
    rw [deleteBlocks]
    rcases deleteBlockBuffer_cases l (fs.getRealBlock inode block) with ⟨ret, hret, heq⟩ | ⟨fs', heq, -, hreleased⟩
    · rw [heq]
      dsimp only
      rw [if_pos hret]
      exact .refl _ fs
    · rw [heq]
      dsimp only
      rw [if_neg (by simp)]
      exact (hreleased.samePool (by decide)).trans (ih (l.congr hreleased.shape) (block + 1))

/-- How many data blocks `deleteInode` deletes. -/
def Ext2.deletedBlocks (fs : Ext2) (inode : Mem) : Nat :=
  if iSize inode % fs.blockSize ≠ 0 then iSize inode / fs.blockSize + 1 else iSize inode / fs.blockSize

/-- `deleteInode`, for an inode of a group that there is: it releases the bit that it reads out of the number, then the data blocks. -/
theorem deleteInode_eq (l : BitmapLayout fs) (hheap : fs.heapOk = true) (hgroup : n / fs.inodesPerGroup < fs.groupCount)
    (hread : fs.readable (fs.bitmapBlock .inodes (n / fs.inodesPerGroup)) = true) :
    ∃ fs', BitReleased fs fs' .inodes (n / fs.inodesPerGroup) (bitBefore (n % fs.inodesPerGroup)) ∧
      ∀ inode, fs.deleteInode inode n = fs'.deleteBlocks inode 0 (fs.deletedBlocks inode) := by
  obtain ⟨fs', heq, hreleased⟩ := releaseBit_released l hgroup hread (n % fs.inodesPerGroup)
  refine ⟨fs', hreleased, fun inode => ?_⟩
  rw [deleteInode, hheap, if_neg (show ¬ fs.groupCount ≤ n / fs.inodesPerGroup by omega), heq]
  dsimp only
  rw [deletedBlocks, ← hreleased.shape.blockSize]
  split
  · rename_i hf
    cases hf
  · split
    · rename_i hzero
      simp [hzero, deleteBlocks]
    · rfl

theorem deleteInode_eperm (hheap : fs.heapOk = true) (hgroup : fs.groupCount ≤ n / fs.inodesPerGroup) (inode : Mem) :
    fs.deleteInode inode n = (eperm, fs) := by
  rw [deleteInode, hheap, if_pos hgroup]
  rfl

/-- `deleteInode` fails at once, or releases a bit and goes on to the data blocks. -/
theorem deleteInode_cases (l : BitmapLayout fs) (inode : Mem) (n : Nat) : (∃ ret, ret ≠ enoer ∧ fs.deleteInode inode n = (ret, fs)) ∨
      ∃ fs', BitReleased fs fs' .inodes (n / fs.inodesPerGroup) (bitBefore (n % fs.inodesPerGroup)) ∧
        fs.deleteInode inode n = fs'.deleteBlocks inode 0 (fs.deletedBlocks inode) := by
  cases hheap : fs.heapOk with
  | false => exact .inl ⟨enomem, by decide, by rw [deleteInode, hheap]; rfl⟩
  | true =>
    by_cases hgroup : fs.groupCount ≤ n / fs.inodesPerGroup
    · exact .inl ⟨eperm, by decide, deleteInode_eperm hheap hgroup inode⟩
    · replace hgroup : n / fs.inodesPerGroup < fs.groupCount := Nat.lt_of_not_le hgroup
      cases hread : fs.readable (fs.bitmapBlock .inodes (n / fs.inodesPerGroup)) with
      | false =>
        refine .inl ⟨eio, by decide, ?_⟩
        rw [deleteInode, hheap, if_neg (Nat.not_le.mpr hgroup), releaseBit_none l hgroup hread]
        rfl
      | true =>
        obtain ⟨fs', hreleased, heq⟩ := deleteInode_eq l hheap hgroup hread
        exact .inr ⟨fs', hreleased, heq inode⟩

end OmegaOS
