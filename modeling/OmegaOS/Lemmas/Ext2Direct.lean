import OmegaOS.Lemmas.Ext2Grow
import OmegaOS.Lib.Splice

/-!
# Files in the direct blocks

What a file looks like whose data lies in the direct blocks, and what one round of `ext2_write` does to it. The data blocks of such a
file are among the blocks `data`, so that what is known about other blocks stays.
-/

namespace OmegaOS

open ByteMem Splice List

variable {b k n : Nat} {ns : List Nat}

variable {fs fs' : Ext2} {ino : Nat} {inode inode' : Mem} {data : Nat → Prop}

/-! ## Used blocks -/

/-- A block that its bit marks used and that holds nothing of the filesystem's own. -/
def UsedBlock (fs : Ext2) (n : Nat) : Prop :=
  (∃ i b, i < fs.groupCount ∧ b < fs.superBlock.blocksPerGroup ∧ fs.bit .blocks i b = true ∧ n = fs.bitNumber .blocks i b) ∧
    ∀ x : MetaBlock, x.Valid fs → x.number fs ≠ n

theorem UsedBlock.physical (h : UsedBlock fs n) (g : Geometry fs) : fs.physical n = n := by
  obtain ⟨⟨i, b, hi, hb, -, rfl⟩, -⟩ := h
  exact g.physical_eq (bitNumber_le hi hb)

theorem UsedBlock.ne_free (h : UsedBlock fs n) (hm : FreeBlock fs m) (hfree : FreeOk fs) : n ≠ m := by
  obtain ⟨⟨i, b, hi, hb, hset, rfl⟩, -⟩ := h
  obtain ⟨j, c, hj, hc, hclear, rfl⟩ := hm
  intro he
  obtain ⟨rfl, rfl⟩ := bitNumber_injective hb (hfree j c hj hc hclear).1 he
  simp [hset] at hclear

/-- Bits that are set stay set. -/
structure Kept (fs fs' : Ext2) : Prop where
  shape : SameShape fs fs'
  bits : ∀ i b, i < fs.groupCount → b < 8 * fs.blockSize → fs'.bit .blocks i b = false → fs.bit .blocks i b = false

theorem Kept.used (h : Kept fs fs') (g : Geometry fs) (hn : UsedBlock fs n) : UsedBlock fs' n := by
  obtain ⟨⟨i, b, hi, hb, hset, rfl⟩, hmeta⟩ := hn
  have hbs := g.blocksPerGroup.2
  refine ⟨⟨i, b, by rwa [h.shape.groupCount], by rwa [h.shape.superBlock], ?_, by rw [h.shape.bitNumber]⟩, ?_⟩
  · cases hbit : fs'.bit .blocks i b with
    | true => rfl
    | false =>
      simp [h.bits i b hi (by omega) hbit] at hset
  · intro x hx
    rw [h.shape.metaNumber]
    exact hmeta x ((h.shape.metaValid x).mp hx)

theorem Kept.free (h : Kept fs fs') (hn : FreeBlock fs' n) : FreeBlock fs n := by
  obtain ⟨i, b, hi, hb, hclear, rfl⟩ := hn
  rw [h.shape.groupCount] at hi
  rw [h.shape.blockSize] at hb
  exact ⟨i, b, hi, hb, h.bits i b hi hb hclear, by rw [h.shape.bitNumber]⟩

theorem Kept.trans {fs1 : Ext2} (h : Kept fs fs1) (h' : Kept fs1 fs') : Kept fs fs' := by
  refine ⟨h.shape.trans h'.shape, fun i b hi hb hclear => h.bits i b hi hb (h'.bits i b ?_ ?_ hclear)⟩
  · rwa [h.shape.groupCount]
  · rwa [h.shape.blockSize]

theorem Kept.freeOk (h : Kept fs fs') (hfree : FreeOk fs) : FreeOk fs' := hfree.mono h.shape h.bits

theorem Grown.kept (h : Grown fs inode ino k ns data fs' inode') : Kept fs fs' :=
  ⟨h.shape, fun i b hi hb hclear => ((h.bits i b hi hb).mp hclear).1⟩

theorem Grown.used (h : Grown fs inode ino k ns data fs' inode') (hfree : FreeOk fs) (hn : n ∈ ns) : UsedBlock fs' n := by
  obtain ⟨i, b, hi, hb, hclear, rfl⟩ := h.fresh n hn
  obtain ⟨hlt, hmeta⟩ := hfree i b hi hb hclear
  refine ⟨⟨i, b, by rwa [h.shape.groupCount], by rwa [h.shape.superBlock], ?_, by rw [h.shape.bitNumber]⟩, ?_⟩
  · cases hbit : fs'.bit .blocks i b with
    | true => rfl
    | false => exact absurd hn ((h.bits i b hi hb).mp hbit).2
  · intro x hx
    rw [h.shape.metaNumber]
    exact hmeta x ((h.shape.metaValid x).mp hx)

/-! ## Files -/

/-- A file whose blocks are the direct ones. The inode has sectors for the blocks that its size covers in full, and every block that it
has sectors for is mapped; more blocks may be. -/
structure FileOk (fs : Ext2) (inode : Mem) (data : Nat → Prop) : Prop where
  image : IsImage fs inode
  covers : iSize inode / fs.blockSize ≤ fs.sector2Block (iSectors inode)
  mapped : ∀ k < ndirBlocks, k < fs.sector2Block (iSectors inode) → iBlock inode k ≠ 0
  used : ∀ k < ndirBlocks, iBlock inode k ≠ 0 → UsedBlock fs (iBlock inode k) ∧ data (iBlock inode k)
  distinct : ∀ j k, j < ndirBlocks → k < ndirBlocks → iBlock inode j ≠ 0 → iBlock inode j = iBlock inode k → j = k
  indirect : iBlock inode ndirBlocks = 0
  free : ∀ n, FreeBlock fs n → data n

theorem fileOk_empty (g : Geometry fs) (himage : IsImage fs inode) (hsize : iSize inode = 0)
    (hsectors : iSectors inode = 0) (hpointers : ∀ k ≤ ndirBlocks, iBlock inode k = 0) (hdata : ∀ n, FreeBlock fs n → data n) :
    FileOk fs inode data ∧ fs.sector2Block (iSectors inode) = 0 := by
  obtain ⟨hlo, -⟩ := g.blockSize_bounds
  have hblocks : fs.sector2Block (iSectors inode) = 0 := by
    rw [hsectors, Ext2.sector2Block, show ataSectorSize = 512 from rfl, Nat.div_eq_of_lt (by omega)]
  refine ⟨⟨himage, ?_, fun k _ hk => ?_, fun k hk hne => ?_, fun j k hj _ hne => ?_, hpointers _ .refl, hdata⟩, hblocks⟩
  · rw [hsize, Nat.zero_div]
    exact Nat.zero_le _
  · omega
  · exact absurd (hpointers k (Nat.le_of_lt hk)) hne
  · exact absurd (hpointers j (Nat.le_of_lt hj)) hne

theorem SameShape.isImage (hs : SameShape fs fs') (h : IsImage fs inode) : IsImage fs' inode := by
  intro o ho
  rw [hs.superBlock] at ho
  exact h o ho

theorem FileOk.kept (h : FileOk fs inode data) (g : Geometry fs) (hk : Kept fs fs') : FileOk fs' inode data := by
  have hs := hk.shape
  refine ⟨hs.isImage h.image, ?_, ?_, ?_, h.distinct, h.indirect, fun n hn => h.free n (hk.free hn)⟩
  · rw [hs.blockSize, hs.sector2Block]
    exact h.covers
  · intro k hk12 hlt
    rw [hs.sector2Block] at hlt
    exact h.mapped k hk12 hlt
  · intro k hk12 hne
    exact ⟨hk.used g (h.used k hk12 hne).1, (h.used k hk12 hne).2⟩

/-- A pointer of the file leads to a data block or to the boot block. -/
theorem FileOk.pointer (h : FileOk fs inode data) (ho : Opened fs ino) (hk : k < ndirBlocks) :
    fs.physical (iBlock inode k) = iBlock inode k ∧ (∀ i < fs.groupCount, iBlock inode k ≠ fs.bitmapBlock .blocks i) ∧
      iBlock inode k ≠ blockGroupStart ∧ iBlock inode k ≠ fs.inodeBlock ino := by
  have g := ho.geometry
  by_cases hzero : iBlock inode k = 0
  · rw [hzero]
    refine ⟨g.physical_eq (Nat.zero_le _), fun i hi => ?_, by decide, (g.inodeBlock_ne_zero ho.group).symm⟩
    exact (g.number_ne_zero (x := .bitmap .blocks i) hi nofun).symm
  · obtain ⟨hused, -⟩ := h.used k hk hzero
    obtain ⟨hvalid, hblock⟩ := g.inodeBlock_number ho.group
    rw [hblock]
    exact ⟨hused.physical g, fun i hi he => hused.2 (.bitmap .blocks i) hi he.symm, fun he => hused.2 .descriptors trivial he.symm,
      fun he => hused.2 _ hvalid he.symm⟩

/-- A byte of a file, as the driver finds it. -/
def Ext2.fileByte (fs : Ext2) (inode : Mem) (x : Nat) : BitVec 8 :=
  fs.disk (fs.physical (fs.getRealBlock inode (x / fs.blockSize))) (x % fs.blockSize)

theorem fileByte_direct (fs : Ext2) (inode : Mem) (hx : x / fs.blockSize < ndirBlocks) :
    fs.fileByte inode x = fs.disk (fs.physical (iBlock inode (x / fs.blockSize))) (x % fs.blockSize) := by
  rw [Ext2.fileByte, Ext2.getRealBlock, if_pos hx]

/-! ## One round -/

/-- Bounds that keep the sizes of a file in the direct blocks below 32 bits. -/
theorem FileOk.size_lt (h : FileOk fs inode data) (g : Geometry fs) (hk : fs.sector2Block (iSectors inode) ≤ k) :
    iSize inode < (k + 1) * fs.blockSize := by
  obtain ⟨hlo, -⟩ := g.blockSize_bounds
  have hcovers := h.covers
  exact (Nat.div_lt_iff_lt_mul (by omega)).mp (by omega)

/-- One block more at the index that the sectors reach. -/
theorem FileOk.grow (h : FileOk fs inode data) (ho : Opened fs ino) (hfree : FreeOk fs)
    (hk : fs.sector2Block (iSectors inode) = k) (hk12 : k < ndirBlocks) (hg : Grown fs inode ino k [n] (fun _ => False) fs' inode') :
    FileOk fs' inode' data ∧ fs'.sector2Block (iSectors inode') = k + 1 ∧
      ∀ x, x / fs.blockSize < ndirBlocks → x / fs.blockSize ≠ k → fs'.fileByte inode' x = fs.fileByte inode x := by
  have g := ho.geometry
  have hs := hg.shape
  have hkept := hg.kept
  obtain ⟨hlo, hhi, -, -⟩ := g.blockSize_bounds
  have hpointer : ∀ y, iBlock inode' y = if y = k then n else iBlock inode y := by
    intro y
    rw [hg.pointers y, length_singleton]
    by_cases hy : y = k
    · rw [if_pos (by omega), if_pos hy, hy, Nat.sub_self]
      rfl
    · rw [if_neg (by omega), if_neg hy]
  have hn : FreeBlock fs n := hg.fresh n mem_cons_self
  have hn0 : n ≠ 0 := by
    obtain ⟨i, b, -, -, -, rfl⟩ := hn
    exact Nat.succ_ne_zero _
  have hmul : (k + 2) * fs.blockSize ≤ 14 * 65536 := Nat.mul_le_mul (by unfold ndirBlocks at hk12; omega) hhi
  have hsectors : fs'.sector2Block (iSectors inode') = k + 1 := by
    rw [hs.sector2Block, hg.sectors, length_singleton, mul_one, ← hk]
    exact sector2Block_add g (by rw [hk]; omega)
  have hsize : iSize inode' = iSize inode + fs.blockSize := by
    have := h.size_lt g (Nat.le_of_eq hk)
    rw [hg.size, length_singleton, mul_one, Nat.mod_eq_of_lt]
    rw [Nat.add_mul] at hmul this
    omega
  refine ⟨⟨hs.isImage hg.image, ?_, ?_, ?_, ?_, ?_, fun m hm => h.free m (hkept.free hm)⟩, hsectors, ?_⟩
  · rw [hsectors, hsize, hs.blockSize, Nat.add_div_right _ (by omega), ← hk]
    exact Nat.succ_le_succ h.covers
  · intro y hy hlt
    rw [hsectors] at hlt
    rw [hpointer]
    split
    · exact hn0
    · exact h.mapped y hy (by omega)
  · intro y hy hne
    rw [hpointer] at hne ⊢
    split
    · exact ⟨hg.used hfree mem_cons_self, h.free n hn⟩
    · rename_i hyk
      rw [if_neg hyk] at hne
      exact ⟨hkept.used g (h.used y hy hne).1, (h.used y hy hne).2⟩
  · -- the new block is none of the old ones
    have hnew : ∀ y < ndirBlocks, n ≠ iBlock inode y := by
      intro y hy he
      exact (h.used y hy (he ▸ hn0)).1.ne_free hn hfree he.symm
    intro y z hy hz hne he
    rw [hpointer] at hne he
    rw [hpointer] at he
    split at he <;> split at he
    · omega
    · exact absurd he (hnew z hz)
    · exact absurd he.symm (hnew y hy)
    · rename_i hyk _
      rw [if_neg hyk] at hne
      exact h.distinct y z hy hz hne he
  · rw [hpointer, if_neg (by omega)]
    exact h.indirect
  · intro x hx hne
    obtain ⟨hph, hbitmap, hdesc, hinode⟩ := h.pointer ho hx
    rw [fileByte_direct fs inode hx, fileByte_direct fs' inode' (by rwa [hs.blockSize]), hs.blockSize, hpointer, if_neg hne,
      hs.physical, hph, hg.disk _ hbitmap hdesc hinode id]

theorem FileOk.writeBlock (h : FileOk fs inode data) (ho : Opened fs ino) (hb : b < ndirBlocks)
    (hmapped : iBlock inode b ≠ 0) (k : Nat) (image : Mem) :
    Grown fs inode ino k [] data (fs.writeBlock (iBlock inode b) image) inode ∧ FileOk (fs.writeBlock (iBlock inode b) image) inode data ∧
      ∀ x, x / fs.blockSize < ndirBlocks → (fs.writeBlock (iBlock inode b) image).fileByte inode x =
        if x / fs.blockSize = b then image (x % fs.blockSize) else fs.fileByte inode x := by
  obtain ⟨hused, hdata⟩ := h.used b hb hmapped
  have hph := hused.physical ho.geometry
  have hg : Grown fs inode ino k [] data (fs.writeBlock (iBlock inode b) image) inode :=
    grown_writeBlock ho h.image k image (by rwa [hph]) (by rw [hph]; exact hused.2)
  refine ⟨hg, h.kept ho.geometry hg.kept, fun x hx => ?_⟩
  obtain ⟨hlo, -⟩ := ho.geometry.blockSize_bounds
  obtain ⟨hphx, -⟩ := h.pointer ho hx
  rw [fileByte_direct _ inode (by rwa [hg.shape.blockSize]), fileByte_direct fs inode hx, hg.shape.blockSize, hg.shape.physical, hphx]
  split
  · rename_i he
    rw [he]
    exact disk_writeBlock_inside fs hph image (Nat.mod_lt _ (by omega))
  · rename_i hne
    rw [disk_writeBlock_ne fs _ _ (by rw [hph]; exact fun he => hne (h.distinct b _ hb hx hmapped he.symm).symm)]

theorem growTo_stop {fuel : Nat} (h : b < fs.sector2Block (iSectors inode)) : fs.growTo inode ino b (fuel + 1) = (true, inode, fs) := by
  rw [Ext2.growTo, if_neg (by omega)]

theorem Opened.bitCount_pos (h : Opened fs ino) : 0 < fs.bitCount := by
  obtain ⟨hlo, -⟩ := h.geometry.blockSize_bounds
  have hgroup : 0 < fs.groupCount := Nat.zero_lt_of_lt h.group
  exact Nat.mul_pos hgroup (by omega)

/-- `writeInodeBlock` on a direct block that the sectors reach. It allocates at most this block, and fails only when it finds none. -/
theorem FileOk.writeInodeBlock (h : FileOk fs inode data) (ho : Opened fs ino) (hfree : FreeOk fs) (hb : b < ndirBlocks)
    (hreach : b ≤ fs.sector2Block (iSectors inode)) (image : Mem) : (fs.writeInodeBlock inode ino b image = (false, inode, fs) ∧
        (fs.heapOk = true → ¬ Room fs (b + 1 - fs.sector2Block (iSectors inode)))) ∨
      ∃ ns fs' inode', fs.writeInodeBlock inode ino b image = (true, inode', fs') ∧ ns.length = b + 1 - fs.sector2Block (iSectors inode) ∧
        Grown fs inode ino (fs.sector2Block (iSectors inode)) ns data fs' inode' ∧ FileOk fs' inode' data ∧
        fs'.sector2Block (iSectors inode') = fs.sector2Block (iSectors inode) + ns.length ∧
        ∀ x, x / fs.blockSize < ndirBlocks →
          fs'.fileByte inode' x = if x / fs.blockSize = b then image (x % fs.blockSize) else fs.fileByte inode x := by
  have hdirect : ∀ (fs : Ext2) (inode : Mem), fs.getRealBlock inode b = iBlock inode b := fun fs inode => by
    rw [Ext2.getRealBlock, if_pos hb]
  rw [Ext2.writeInodeBlock]
  by_cases hin : b < fs.sector2Block (iSectors inode)
  · obtain ⟨hgrown, hfile, hbytes⟩ := h.writeBlock ho hb (h.mapped b hb hin) (fs.sector2Block (iSectors inode)) image
    rw [growTo_stop hin]
    refine .inr ⟨[], _, inode, rfl, ?_, ?_, ?_, ?_, ?_⟩
    · rw [length_nil]
      omega
    · rwa [hdirect]
    · rwa [hdirect]
    · simp [hdirect, hgrown.shape.sector2Block]
    · rwa [hdirect]
  · have hk : fs.sector2Block (iSectors inode) = b := by omega
    rw [Ext2.growTo, hk, if_pos .refl, show b + 1 - b = 1 by omega]
    rcases ho.allocateBlock hfree inode b with ⟨heq, hnone⟩ | ⟨j, c, fs1, halloc, htaken, ⟨-, hset⟩ | ⟨fs2, hwritten, heq⟩⟩
    · rw [heq]
      refine .inl ⟨rfl, fun hheap hroom => hroom.1 ?_⟩
      rw [hnone hheap]
    · simp [setRealBlock_direct fs1 inode hb] at hset
    · have hgrown := grown_single ho hfree h.image b (fun _ => False) halloc htaken hwritten
      rw [heq]
      generalize fs.bitNumber .blocks j c = n at *
      obtain ⟨hfile, hnext, hbytes⟩ := h.grow ho hfree hk hb hgrown
      have ho2 := ho.congr hgrown.shape
      obtain ⟨hgrown', hfile', hbytes'⟩ := hfile.writeBlock ho2 hb (hfile.mapped b hb (by omega)) (b + 1) image
      obtain ⟨bits, hbits⟩ := Nat.exists_eq_succ_of_ne_zero (Nat.ne_of_gt ho.bitCount_pos)
      dsimp only
      rw [hbits, growTo_stop (by omega)]
      dsimp only
      rw [hdirect]
      refine .inr ⟨[n], _, _, rfl, rfl, ?_, hfile', ?_, ?_⟩
      · exact (hgrown.mono fun _ hf => hf.elim).append hgrown'
      · rw [hgrown'.shape.sector2Block, hnext, length_singleton]
      · intro x hx
        have hx2 := hbytes' x (by rwa [hgrown.shape.blockSize])
        rw [hgrown.shape.blockSize] at hx2
        rw [hx2]
        split
        · rfl
        · exact hbytes x hx ‹_›

end OmegaOS
