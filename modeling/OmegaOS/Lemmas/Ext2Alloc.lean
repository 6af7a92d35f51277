import OmegaOS.Lemmas.Ext2Inode

/-!
# Blocks that the ext2 driver allocates

What one round of allocation does to the bitmaps and to the inode, and when several rounds in a row succeed.
-/

namespace OmegaOS

open ByteMem

variable {fs fs' : Ext2} {pool : Pool} {ino : Nat} {inode : Mem}

/-- A clear bit of a block bitmap stands for a block of its group that holds nothing of the filesystem's own. -/
def FreeOk (fs : Ext2) : Prop :=
  ∀ i b, i < fs.groupCount → b < 8 * fs.blockSize → fs.bit .blocks i b = false →
    b < fs.superBlock.blocksPerGroup ∧ ∀ x : MetaBlock, x.Valid fs → x.number fs ≠ fs.bitNumber .blocks i b

theorem SameShape.bitNumber (h : SameShape fs fs') (pool : Pool) (i b : Nat) : fs'.bitNumber pool i b = fs.bitNumber pool i b := by
  rw [Ext2.bitNumber, h.perGroup]
  rfl

theorem FreeOk.mono (h : FreeOk fs) (hs : SameShape fs fs')
    (hbits : ∀ i b, i < fs.groupCount → b < 8 * fs.blockSize → fs'.bit .blocks i b = false → fs.bit .blocks i b = false) : FreeOk fs' := by
  intro i b hi hb hclear
  rw [hs.groupCount] at hi
  rw [hs.blockSize] at hb
  obtain ⟨hlt, hmeta⟩ := h i b hi hb (hbits i b hi hb hclear)
  refine ⟨by rwa [hs.superBlock], fun x hx => ?_⟩
  rw [hs.metaNumber, hs.bitNumber]
  exact hmeta x ((hs.metaValid x).mp hx)

/-- The block that a clear bit stands for is one of the filesystem. -/
theorem bitNumber_le (hi : i < fs.groupCount) (hb : b < fs.superBlock.blocksPerGroup) : fs.bitNumber .blocks i b ≤ fs.lastBlock := by
  have hmul := Nat.mul_le_mul_left fs.superBlock.blocksPerGroup (show i + 1 ≤ fs.groupCount from hi)
  rw [Nat.mul_add] at hmul
  show b + fs.superBlock.blocksPerGroup * i + 1 ≤ fs.superBlock.blocksPerGroup * fs.groupCount
  omega

theorem Geometry.lastBlock_lt (g : Geometry fs) : fs.lastBlock < 2 ^ 27 := by
  have hcap := g.capacity
  obtain ⟨-, -, -, hspb⟩ := g.blockSize_bounds
  have := Nat.mul_le_mul_left (fs.lastBlock + 1) hspb
  omega

/-- Different bits of the groups stand for different numbers. -/
theorem bitNumber_injective (hb : b < fs.perGroup p) (hb' : b' < fs.perGroup p)
    (h : fs.bitNumber p i b = fs.bitNumber p i' b') : i = i' ∧ b = b' := by
  have heq := Nat.succ.inj h
  have hdiv : ∀ a k : Nat, a < fs.perGroup p → (a + fs.perGroup p * k) / fs.perGroup p = k :=
    fun a k ha => by rw [Nat.add_mul_div_left _ _ (by omega), Nat.div_eq_of_lt ha, zero_add]
  have hi : i = i' := by rw [← hdiv b i hb, heq, hdiv b' i' hb']
  subst hi
  exact ⟨rfl, by omega⟩

/-! ## One round -/

/-- The block of an allocation, for the blocks' bitmaps. -/
theorem allocateBit_blocks (g : Geometry fs) (hfree : FreeOk fs) : fs.allocateBit .blocks fs.groupCount 0 = (0, fs) ∨
      ∃ j b fs1, fs.allocateBit .blocks fs.groupCount 0 = (fs.bitNumber .blocks j b, fs1) ∧ BitTaken fs fs1 .blocks j b ∧ b ≠ 0 := by
  rcases allocateBit_spec .blocks g.bitmapLayout (show 0 + fs.groupCount ≤ fs.groupCount by omega) with h | ⟨j, b, hb0, hn, htaken⟩
  · exact .inl h
  · obtain ⟨hb, -⟩ := hfree j b htaken.group htaken.inBitmap htaken.clear
    have hle := bitNumber_le htaken.group hb
    have hlt := g.lastBlock_lt
    rw [Nat.mod_eq_of_lt (by omega)] at hn
    exact .inr ⟨j, b, _, Prod.ext hn rfl, htaken, hb0⟩

/-- The inode with one block more at logical index `k`. Behind the direct blocks no pointer is kept. -/
def grownInode (fs : Ext2) (inode : Mem) (k n : Nat) : Mem :=
  let inode := if k < ndirBlocks then setIBlock inode k n else inode
  setISize (setISectors inode ((iSectors inode + fs.sectorsPerBlock) % 2 ^ 32)) ((iSize inode + fs.blockSize) % 2 ^ 32)

/-- How many blocks the block map covers. -/
def Ext2.mapLimit (fs : Ext2) : Nat :=
  ndirBlocks + fs.ptrBlocksPerBlock * fs.ptrBlocksPerBlock * fs.ptrBlocksPerBlock +
    fs.ptrBlocksPerBlock * fs.ptrBlocksPerBlock + fs.ptrBlocksPerBlock

theorem Working.followPath (h : Working fs) (table : Nat) (path : List Nat) : ∃ n, fs.followPath table path = some n := by
  induction path generalizing table with
  | nil => exact ⟨table, rfl⟩
  | cons k path ih =>
    obtain ⟨n, hn⟩ := ih (fs.entry (fs.disk (fs.physical table)) k)
    refine ⟨n, ?_⟩
    rwa [Ext2.followPath, Ext2.follow, h.readBlock]

theorem indirectPath_isSome (inode : Mem) (hk : k < fs.mapLimit) : ∃ t, fs.indirectPath inode k = some t := by
  unfold Ext2.mapLimit at hk
  unfold Ext2.indirectPath
  dsimp only
  split
  · exact ⟨_, rfl⟩
  · split
    · exact ⟨_, rfl⟩
    · exact ⟨_, rfl⟩

theorem Working.setRealBlock (h : Working fs) (inode : Mem) (hk : k < fs.mapLimit) (n : Nat) :
    fs.setRealBlock inode k n = (true, if k < ndirBlocks then setIBlock inode k n else inode) := by
  rw [Ext2.setRealBlock]
  split
  · rfl
  · obtain ⟨⟨table, path⟩, ht⟩ := indirectPath_isSome inode hk
    obtain ⟨r, hr⟩ := h.followPath table path
    rw [ht]
    dsimp only
    rw [hr]
    rfl

theorem setRealBlock_direct (fs : Ext2) (inode : Mem) (hk : k < ndirBlocks) (n : Nat) :
    fs.setRealBlock inode k n = (true, setIBlock inode k n) := by
  rw [Ext2.setRealBlock, if_pos hk]

theorem setRealBlock_inode (fs : Ext2) (inode : Mem) (k n : Nat) :
    (fs.setRealBlock inode k n).2 = if k < ndirBlocks then setIBlock inode k n else inode := by
  unfold Ext2.setRealBlock
  split
  · rfl
  · split <;> rfl

/-- `allocateBlock` in full. A block that was found is lost when the tables on the way to its entry cannot be read. -/
theorem Opened.allocateBlock (h : Opened fs ino) (hfree : FreeOk fs) (inode : Mem) (k : Nat) :
    (fs.allocateBlock inode ino k = (false, inode, fs) ∧ (fs.heapOk = true → fs.allocateBit .blocks fs.groupCount 0 = (0, fs))) ∨
      ∃ j b fs1, fs.allocateBit .blocks fs.groupCount 0 = (fs.bitNumber .blocks j b, fs1) ∧ BitTaken fs fs1 .blocks j b ∧
        (fs.allocateBlock inode ino k = (false, inode, fs1) ∧ (fs1.setRealBlock inode k (fs.bitNumber .blocks j b)).1 = false ∨
          ∃ fs', InodeWritten fs1 fs' ino (grownInode fs inode k (fs.bitNumber .blocks j b)) ∧
            fs.allocateBlock inode ino k = (true, grownInode fs inode k (fs.bitNumber .blocks j b), fs')) := by
  rw [Ext2.allocateBlock]
  cases hheap : fs.heapOk with
  | false => exact .inl ⟨rfl, fun hf => by cases hf⟩
  | true =>
    rcases allocateBit_blocks h.geometry hfree with halloc | ⟨j, b, fs1, halloc, htaken, -⟩
    · rw [halloc]
      exact .inl ⟨rfl, fun _ => rfl⟩
    · have hne : fs.bitNumber .blocks j b ≠ 0 := Nat.succ_ne_zero _
      refine .inr ⟨j, b, fs1, halloc, htaken, ?_⟩
      rw [halloc]
      simp only [Bool.not_true, Bool.false_eq_true, if_false, if_neg hne]
      cases hset : fs1.setRealBlock inode k (fs.bitNumber .blocks j b) with
      | mk done inode1 =>
        have hinode1 := setRealBlock_inode fs1 inode k (fs.bitNumber .blocks j b)
        rw [hset] at hinode1
        dsimp only at hinode1
        cases done with
        | false =>
          left
          have hk : ¬ k < ndirBlocks := by
            intro hk
            simp [setRealBlock_direct fs1 inode hk] at hset
          rw [if_neg hk] at hinode1
          rw [hinode1]
          exact ⟨rfl, rfl⟩
        | true =>
          right
          obtain ⟨fs', hwrite, hwritten⟩ := (h.congr htaken.shape).writeInode (grownInode fs inode k (fs.bitNumber .blocks j b))
          refine ⟨fs', hwritten, ?_⟩
          dsimp only
          rw [iSize_setISectors, htaken.shape.sectorsPerBlock, htaken.shape.blockSize]
          have hgrown : setISize (setISectors inode1 ((iSectors inode1 + fs.sectorsPerBlock) % 2 ^ 32))
              ((iSize inode1 + fs.blockSize) % 2 ^ 32) = grownInode fs inode k (fs.bitNumber .blocks j b) := by
            rw [hinode1]
            rfl
          rw [hgrown, hwrite]

end OmegaOS
