import Mathlib.Data.List.Perm.Subperm
import OmegaOS.Theorems.FileMap
import OmegaOS.Theorems.FileRead

/-!
# The blocks that `ext2_write` writes to

A write is to touch blocks of the file, blocks that were free, the bitmaps, the descriptors and the block of its inode. Where the block map
does not lead to a block, `getRealBlock` gives what it finds in the boot block, and the write goes there.
-/

namespace OmegaOS

open ByteMem List Ext2

variable {fs fs' fs1 : Ext2} {ino b j c fuel : Nat} {inode inode' : Mem}

/-! ## Writes that stay inside -/

/-- The blocks that a write to the file may touch. -/
def AllowedBlock (fs : Ext2) (ino q : Nat) : Prop :=
  (∃ k path, FileMaps fs (fs.storedInode ino) k path q) ∨ FreeBlock fs q ∨ (∃ pool i, i < fs.groupCount ∧ q = fs.bitmapBlock pool i) ∨
    q = blockGroupStart ∨ q = fs.inodeBlock ino

/-- The blocks that it must leave alone: the boot block, the superblock and the blocks of other files. -/
def ForeignBlock (fs : Ext2) (ino q : Nat) : Prop :=
  q = 0 ∨ q = 1 ∨ ∃ n, fs.InodeUsed n ∧ Ext2.inodeNumber n ≠ Ext2.inodeNumber ino ∧ ∃ k path, FileMaps fs (fs.storedInode n) k path q

/-- Whatever the boot block and the memory behind `g_tmpBuf` hold, the write touches blocks only that it may: no other is written to or
changes. -/
def WriteIsolated (fs : Ext2) (node : VfsNode) (offset size : Nat) (buffer : Mem) : Prop :=
  ∀ boot stray, ∃ ret node' fs', (fs.withBoot boot stray).ext2Write node offset size buffer = .ok (ret, node', fs') ∧
    ∀ q, q ∈ fs'.written ∨ fs'.disk q ≠ (fs.withBoot boot stray).disk q → AllowedBlock fs node.inode q ∧ ¬ ForeignBlock fs node.inode q

/-! ## Rounds that allocate -/

theorem BitTaken.kept (h : BitTaken fs fs' .blocks j c) : Kept fs fs' := by
  refine ⟨h.shape, fun i b hi hb hclear => ?_⟩
  rw [h.bits .blocks i b hi hb, Bool.or_eq_false_iff] at hclear
  exact hclear.1

theorem BlocksOut.length_le {ns : List Nat} (h : BlocksOut fs fs' ns) (g : Geometry fs) (hfree : FreeOk fs) : ns.length ≤ fs.bitCount := by
  have hsub : ns ⊆ range' 1 fs.lastBlock := by
    intro n hn
    obtain ⟨i, b, hi, hb, hclear, rfl⟩ := h.fresh n hn
    have hle := bitNumber_le hi (hfree i b hi hb hclear).1
    rw [mem_range'_1]
    exact ⟨Nat.le_add_left 1 _, by omega⟩
  have hle := (h.distinct.subperm hsub).length_le
  rw [length_range'] at hle
  refine Nat.le_trans hle ?_
  rw [lastBlock, bitCount, Nat.mul_comm]
  exact Nat.mul_le_mul_left _ g.blocksPerGroup.2

/-- Every block of a file of 32 bits is in the range of the block map. -/
theorem Geometry.lt_mapLimit (g : Geometry fs) (h : (b + 2) * fs.blockSize ≤ 2 ^ 32) : b < fs.mapLimit := by
  obtain ⟨hlo, -⟩ := g.blockSize_bounds
  have hptr : 256 ≤ fs.ptrBlocksPerBlock := by
    unfold ptrBlocksPerBlock
    omega
  have hcube := Nat.mul_le_mul (Nat.mul_le_mul hptr hptr) hptr
  have hb : (b + 2) * 1024 ≤ (b + 2) * fs.blockSize := Nat.mul_le_mul_left _ hlo
  unfold mapLimit
  omega

section

variable {data : Nat → Prop} {k last : Nat} {ns : List Nat}

/-- A round makes the inode as long as its block needs. -/
theorem Grown.round (hw : Working fs) (hfree : FreeOk fs) (hv : fs.inodeGroup ino < fs.groupCount)
    (hg : Grown fs inode ino (fs.sector2Block (iSectors inode)) ns data fs1 inode')
    (hlen : ns.length ≤ b - fs.sector2Block (iSectors inode)) (hfits : (b + 2) * fs.blockSize ≤ 2 ^ 32) (hb : b ≤ last)
    (hroom : Room fs (last + 1 - fs.sector2Block (iSectors inode))) :
    ∃ ms fs2 inode2, fs1.growTo inode' ino b (fs1.bitCount + 1) = (true, inode2, fs2) ∧
      Grown fs inode ino (fs.sector2Block (iSectors inode)) ms data fs2 inode2 ∧
      ms.length = max ns.length (b + 1 - fs.sector2Block (iSectors inode)) := by
  have g := hw.geometry
  have hs := hg.shape
  have hnext := hg.sector2Block g fun hne => Nat.le_trans (Nat.mul_le_mul_right _ (by omega)) hfits
  generalize fs.sector2Block (iSectors inode) = k at *
  have hroom1 : Room fs1 (b + 1 - (k + ns.length)) := hg.room _ (hroom.le (by omega))
  have hgrow := fun fuel (hfuel : _ < fuel) => (hw.congr hs).growTo (hg.freeOk hfree) (by rwa [hs.inodeGroup, hs.groupCount])
    (hs.isImage hg.image) data (by rw [hs.mapLimit]; exact g.lt_mapLimit hfits) (by rwa [hs.blockSize]) (by rwa [hnext]) hfuel
  rw [hnext] at hgrow
  -- blocks that are allocated in a row are different, so the loop does not run out of rounds
  obtain ⟨_, _, _, -, hlen1, hg1⟩ := hgrow _ (Nat.lt_succ_self _)
  have hbound := hg1.blocksOut.length_le (g.congr hs) (hg.freeOk hfree)
  obtain ⟨ms, fs2, inode2, hrun, hmslen, hg2⟩ := hgrow (fs1.bitCount + 1) (by omega)
  exact ⟨ns ++ ms, fs2, inode2, hrun, hg.append hg2, by rw [length_append, hmslen]; omega⟩

end

/-! ## Rounds that touch the filesystem's own blocks only -/

/-- The run touches the block bitmaps, the descriptors and the block of the inode. -/
structure MetaTouched (fs : Ext2) (ino : Nat) (fs' : Ext2) : Prop where
  kept : Kept fs fs'
  disk : ∀ q, (∀ i < fs.groupCount, q ≠ fs.bitmapBlock .blocks i) → q ≠ blockGroupStart → q ≠ fs.inodeBlock ino → fs'.disk q = fs.disk q
  log : ∀ q ∈ fs'.written, q ∈ fs.written ∨ (∃ i < fs.groupCount, q = fs.bitmapBlock .blocks i) ∨ q = blockGroupStart ∨
    q = fs.inodeBlock ino

theorem MetaTouched.refl (fs : Ext2) (ino : Nat) : MetaTouched fs ino fs :=
  ⟨⟨.refl fs, fun _ _ _ _ h => h⟩, fun _ _ _ _ => rfl, fun _ hq => .inl hq⟩

theorem MetaTouched.trans (h : MetaTouched fs ino fs1) (h' : MetaTouched fs1 ino fs') : MetaTouched fs ino fs' := by
  have hs := h.kept.shape
  refine ⟨h.kept.trans h'.kept, fun q hq hq2 hqi => ?_, fun q hq => ?_⟩
  · rw [h'.disk q (fun i hi => by rw [hs.bitmapBlock]; exact hq i (by rwa [hs.groupCount] at hi)) hq2 (by rwa [hs.inodeBlock]),
      h.disk q hq hq2 hqi]
  · rcases h'.log q hq with hq | ⟨i, hi, hq⟩ | hq | hq
    · exact h.log q hq
    · rw [hs.groupCount] at hi
      exact .inr (.inl ⟨i, hi, by rw [hq, hs.bitmapBlock]⟩)
    · exact .inr (.inr (.inl hq))
    · exact .inr (.inr (.inr (by rw [hq, hs.inodeBlock])))

theorem BitTaken.metaTouched (h : BitTaken fs fs' .blocks j c) (ino : Nat) : MetaTouched fs ino fs' := by
  refine ⟨h.kept, fun q hq hq2 _ => h.disk q (hq j h.group) hq2, fun q hq => ?_⟩
  rw [h.written, mem_cons, mem_cons] at hq
  rcases hq with rfl | rfl | hq
  · exact .inr (.inr (.inl rfl))
  · exact .inr (.inl ⟨j, h.group, rfl⟩)
  · exact .inl hq

theorem InodeWritten.metaTouched (h : InodeWritten fs fs' ino inode) (g : Geometry fs) (hv : fs.inodeGroup ino < fs.groupCount) :
    MetaTouched fs ino fs' := by
  have hbm := h.sameBitmaps g hv
  refine ⟨⟨h.shape, fun i b hi _ hclear => by rwa [hbm.bit hi] at hclear⟩, fun q _ _ hqi => h.disk q hqi, fun q hq => ?_⟩
  rw [h.written, mem_cons] at hq
  rcases hq with rfl | hq
  · exact .inr (.inr (.inr rfl))
  · exact .inl hq

/-- The loop that allocates touches nothing else, whether it comes to its end or not. -/
theorem Opened.growTo_touched (ho : Opened fs ino) (hfree : FreeOk fs) (inode : Mem) (b fuel : Nat) :
    ∃ done inode' fs', fs.growTo inode ino b fuel = (done, inode', fs') ∧ MetaTouched fs ino fs' ∧
      (done = true → b < fs'.sector2Block (iSectors inode')) := by
  induction fuel generalizing fs inode with
  | zero => exact ⟨false, inode, fs, rfl, .refl fs ino, nofun⟩
  | succ fuel ih =>
    rw [growTo]
    by_cases hle : fs.sector2Block (iSectors inode) ≤ b
    · rw [if_pos hle]
      rcases ho.allocateBlock hfree inode (fs.sector2Block (iSectors inode)) with
        ⟨heq, -⟩ | ⟨j, c, fs1, -, htaken, ⟨heq, -⟩ | ⟨fs2, hwritten, heq⟩⟩
      · rw [heq]
        exact ⟨false, inode, fs, rfl, .refl fs ino, nofun⟩
      · rw [heq]
        exact ⟨false, inode, fs1, rfl, htaken.metaTouched ino, nofun⟩
      · have ho1 := ho.congr htaken.shape
        have htouched := (htaken.metaTouched ino).trans (hwritten.metaTouched ho1.geometry ho1.group)
        obtain ⟨done, inode', fs', hrun, hrest, hdone⟩ := ih (ho.congr htouched.kept.shape) (htouched.kept.freeOk hfree)
          (grownInode fs inode (fs.sector2Block (iSectors inode)) (fs.bitNumber .blocks j c))
        rw [heq]
        exact ⟨done, inode', fs', hrun, htouched.trans hrest, hdone⟩
    · rw [if_neg hle]
      exact ⟨true, inode, fs, rfl, .refl fs ino, fun _ => by omega⟩

/-- The sectors of an inode are those of a file of 32 bits. -/
theorem Geometry.sector2Block_fits (g : Geometry fs) (s : Nat) : (fs.sector2Block s + 1) * fs.blockSize ≤ 2 ^ 32 := by
  obtain ⟨k, hk, hbs⟩ := g.blockSize
  have hsplit : 2 ^ 32 = 2 ^ (22 - k) * fs.blockSize := by
    rw [hbs, show (1024 : Nat) = 2 ^ 10 from rfl, ← Nat.pow_add, ← Nat.pow_add]
    congr 1
    omega
  have hlt : (s + 1) % 2 ^ 32 * ataSectorSize % 2 ^ 32 < 2 ^ (22 - k) * fs.blockSize := by
    rw [← hsplit]
    exact Nat.mod_lt _ (by decide)
  rw [hsplit]
  exact Nat.mul_le_mul_right _ (Nat.div_lt_of_lt_mul (by rwa [mul_comm fs.blockSize]))

/-! ## The whole write -/

/-- What the blocks that a run touches are, for a run that starts with an empty log. -/
structure Stays (fs : Ext2) (ino : Nat) (data : Nat → Prop) (fs' : Ext2) : Prop where
  kept : Kept fs fs'
  touched : ∀ q, q ∈ fs'.written ∨ fs'.disk q ≠ fs.disk q → (∃ i < fs.groupCount, q = fs.bitmapBlock .blocks i) ∨ q = blockGroupStart ∨
    q = fs.inodeBlock ino ∨ data q

theorem Grown.stays {ns : List Nat} {data : Nat → Prop} (hg : Grown fs inode ino k ns data fs' inode') (hlog : fs.written = []) :
    Stays fs ino data fs' := by
  refine ⟨hg.kept, fun q hq => ?_⟩
  rcases hq with hq | hq
  · have := hg.log q hq
    rw [hlog] at this
    exact this.resolve_left (not_mem_nil)
  · by_contra hnone
    simp only [not_or, not_exists, not_and] at hnone
    exact hq (hg.disk q hnone.1 hnone.2.1 hnone.2.2.1 hnone.2.2.2)

theorem Stays.touch {data : Nat → Prop} (h : Stays fs ino data fs1) (h' : MetaTouched fs1 ino fs') : Stays fs ino data fs' := by
  have hs := h.kept.shape
  have hown : ∀ q, (∃ i < fs1.groupCount, q = fs1.bitmapBlock .blocks i) ∨ q = blockGroupStart ∨ q = fs1.inodeBlock ino →
      (∃ i < fs.groupCount, q = fs.bitmapBlock .blocks i) ∨ q = blockGroupStart ∨ q = fs.inodeBlock ino ∨ data q := by
    rintro q (⟨i, hi, rfl⟩ | rfl | rfl)
    · exact .inl ⟨i, by rwa [hs.groupCount] at hi, hs.bitmapBlock .blocks i⟩
    · exact .inr (.inl rfl)
    · exact .inr (.inr (.inl (hs.inodeBlock ino)))
  refine ⟨h.kept.trans h'.kept, fun q hq => ?_⟩
  rcases hq with hq | hq
  · rcases h'.log q hq with hq | hq
    · exact h.touched q (.inl hq)
    · exact hown q hq
  · by_cases hsame : fs'.disk q = fs1.disk q
    · exact h.touched q (.inr (by rwa [hsame] at hq))
    · refine hown q ?_
      by_contra hnone
      simp only [not_or, not_exists, not_and] at hnone
      exact hsame (h'.disk q hnone.1 hnone.2.1 hnone.2.2)

/-- The state before a write to a file, with free blocks up to its block `last`. -/
structure WriteCall (fs : Ext2) (ino last : Nat) : Prop where
  working : Working fs
  consistent : MapConsistent fs
  used : fs.InodeUsed ino
  room : Room fs (last + 1 - fs.sector2Block (iSectors (fs.storedInode ino)))

/-- The block is a direct one that the write allocates, or the block map has it. -/
def Ext2.GoodBlock (fs : Ext2) (inode : Mem) (b : Nat) : Prop :=
  b < ndirBlocks ∧ fs.sector2Block (iSectors inode) ≤ b ∨ fs.MapsBlock inode b

/-- The state between two rounds, when every round so far wrote to data of the file. -/
def WriteCall.Between (fs : Ext2) (ino : Nat) (boot : Mem) (stray : Nat → Nat) (block : Nat) (fs1 : Ext2) (inode1 : Mem) : Prop :=
  ∃ ns, Grown (fs.withBoot boot stray) (fs.storedInode ino) ino (fs.sector2Block (iSectors (fs.storedInode ino))) ns
      (fileData fs (fs.storedInode ino)) fs1 inode1 ∧
    ns.length ≤ block - fs.sector2Block (iSectors (fs.storedInode ino))

section

variable {last block : Nat} {boot : Mem} {stray : Nat → Nat} {inode1 : Mem} (h : WriteCall fs ino last)
include h

section

variable (hb : WriteCall.Between fs ino boot stray block fs1 inode1)

include hb

theorem WriteCall.opened : Opened fs1 ino := by
  obtain ⟨ns, hg, -⟩ := hb
  exact ((h.working.withBoot boot stray).opened h.used.1).congr hg.shape

theorem WriteCall.freeOk : FreeOk fs1 := by
  obtain ⟨ns, hg, -⟩ := hb
  exact hg.freeOk (withBoot_freeOk h.working.geometry boot stray h.consistent.free)

theorem WriteCall.blockImage (offset size : Nat) (buffer : Mem) (written : Nat) :
    ∃ image count, fs1.blockImage inode1 offset size buffer written block = some (image, count) := by
  obtain ⟨ns, hg, -⟩ := hb
  have hread : ∀ q, fs1.readable q = true := fun q => by
    rw [hg.shape.readable]
    exact h.working.readable q
  unfold Ext2.blockImage
  rw [Ext2.readInodeBlock, Ext2.readBlock, if_pos (hread _)]
  split
  · exact ⟨_, _, rfl⟩
  · split
    · exact ⟨_, _, rfl⟩
    · exact ⟨_, _, rfl⟩

/-- In the rounds that 32 bits can count, the blocks are allocated. -/
theorem WriteCall.round (hfits : (block + 2) * fs.blockSize ≤ 2 ^ 32) (hlast : block ≤ last) (image : Mem) :
    ∃ fs2 inode2 ms, fs1.writeInodeBlock inode1 ino block image = (true, inode2, fs2.writeBlock (fs2.getRealBlock inode2 block) image) ∧
      Grown (fs.withBoot boot stray) (fs.storedInode ino) ino (fs.sector2Block (iSectors (fs.storedInode ino))) ms
        (fileData fs (fs.storedInode ino)) fs2 inode2 ∧
      ms.length ≤ block + 1 - fs.sector2Block (iSectors (fs.storedInode ino)) ∧
      (fs.sector2Block (iSectors (fs.storedInode ino)) ≤ block → block < fs.sector2Block (iSectors (fs.storedInode ino)) + ms.length) := by
  obtain ⟨ns, hg, hlen⟩ := hb
  obtain ⟨ms, fs2, inode2, hrun, hg2, hmslen⟩ := hg.round (h.working.withBoot boot stray)
    (withBoot_freeOk h.working.geometry boot stray h.consistent.free) h.used.1 hlen hfits hlast
    (withBoot_room h.working.geometry boot stray h.room)
  have hsame : (fs.withBoot boot stray).sector2Block (iSectors (fs.storedInode ino)) = fs.sector2Block (iSectors (fs.storedInode ino)) := rfl
  rw [hsame] at hmslen
  refine ⟨fs2, inode2, ms, ?_, hg2, by omega, fun hle => by omega⟩
  rw [writeInodeBlock, hrun]

/-- One round on a good block. -/
theorem WriteCall.next (hfits : (block + 2) * fs.blockSize ≤ 2 ^ 32)
    (hlast : block ≤ last) (hgood : fs.GoodBlock (fs.storedInode ino) block) (image : Mem) :
    ∃ fs2 inode2, fs1.writeInodeBlock inode1 ino block image = (true, inode2, fs2) ∧
      WriteCall.Between fs ino boot stray (block + 1) fs2 inode2 := by
  have g := h.working.geometry
  obtain ⟨fs2, inode2, ms, hrun, hg2, hlen, hin⟩ := h.round hb hfits hlast image
  have hs := hg2.shape
  have hread : ∀ q, fs2.readable q = true := fun q => by
    rw [hs.readable]
    exact h.working.readable q
  obtain ⟨hord, hdata⟩ := h.consistent.target g h.used hg2 hread (g.lt_mapLimit hfits) hin hgood
  have hphysical : fs2.physical (fs2.getRealBlock inode2 block) = fs2.getRealBlock inode2 block := by
    rw [hs.physical]
    exact hord.2
  have ho2 : Opened fs2 ino := ((h.working.withBoot boot stray).opened h.used.1).congr hs
  have hdata2 : fileData fs (fs.storedInode ino) (fs2.physical (fs2.getRealBlock inode2 block)) := by rwa [hphysical]
  have hg3 := grown_writeBlock ho2 (hs.isImage hg2.image) (fs.sector2Block (iSectors (fs.storedInode ino)) + ms.length) image hdata2
    (fun x hx => by
      rw [hphysical, hs.metaNumber]
      exact hord.1 x ((hs.metaValid x).mp hx))
  exact ⟨_, inode2, hrun, ms ++ [], hg2.append hg3, by rwa [append_nil]⟩

end

end

/-- The loop touches data of the file and the filesystem's own blocks, when all its blocks are good. Where 32 bits cannot count the sectors
the allocation does not come to its end. -/
theorem WriteCall.writeLoop {last block : Nat} {boot : Mem} {stray : Nat → Nat} {inode1 : Mem} (h : WriteCall fs ino last)
    (hb : WriteCall.Between fs ino boot stray block fs1 inode1) (offset size : Nat) (buffer : Mem) (written : Nat)
    (hlast : fuel ≤ last + 1 - block)
    (hgood : ∀ b, block ≤ b → b < block + fuel → (b + 2) * fs.blockSize ≤ 2 ^ 32 → fs.GoodBlock (fs.storedInode ino) b) :
    ∃ done inode' w fs', fs1.writeLoop inode1 ino offset size buffer written block fuel = (done, inode', w, fs') ∧
      Stays (fs.withBoot boot stray) ino (fileData fs (fs.storedInode ino)) fs' := by
  induction fuel generalizing block fs1 inode1 written with
  | zero =>
    obtain ⟨ns, hg, -⟩ := hb
    exact ⟨true, inode1, written, fs1, rfl, hg.stays rfl⟩
  | succ fuel ih =>
    obtain ⟨image, count, himage⟩ := h.blockImage hb offset size buffer written
    rw [writeLoop, himage]
    dsimp only
    by_cases hfits : (block + 2) * fs.blockSize ≤ 2 ^ 32
    · obtain ⟨fs2, inode2, hrun, hb2⟩ := h.next hb hfits (by omega) (hgood block .refl (by omega) hfits) image
      rw [hrun]
      exact ih hb2 (written + count) (by omega) fun b hle hlt => hgood b (by omega) (by omega)
    · have ho := h.opened hb
      obtain ⟨done, inode2, fs2, hrun, htouched, hdone⟩ := ho.growTo_touched (h.freeOk hb) inode1 block (fs1.bitCount + 1)
      obtain ⟨ns, hg, -⟩ := hb
      have hfailed : done = false := by
        rw [← Bool.not_eq_true]
        intro htrue
        have hfits2 := (ho.congr htouched.kept.shape).geometry.sector2Block_fits (iSectors inode2)
        rw [htouched.kept.shape.blockSize, hg.shape.blockSize] at hfits2
        exact hfits (Nat.le_trans (Nat.mul_le_mul_right _ (by have := hdone htrue; omega)) hfits2)
      rw [writeInodeBlock, hrun, hfailed]
      exact ⟨false, inode2, written, fs2, rfl, (hg.stays rfl).touch htouched⟩

theorem Opened.finishWrite_touched {node : VfsNode} (ho : Opened fs node.inode) (inode : Mem) (offset osize : Nat) (writtenBytes : Int) :
    ∃ ret node' fs', fs.finishWrite node inode offset osize writtenBytes = (ret, node', fs') ∧ MetaTouched fs node.inode fs' := by
  unfold finishWrite
  split
  · exact ⟨0, node, fs, rfl, .refl fs _⟩
  · dsimp only
    generalize (if (offset : Int) + writtenBytes > osize then _ else inode) = inode'
    obtain ⟨fs', hwrite, hwritten⟩ := ho.writeInode inode'
    rw [hwrite]
    exact ⟨_, _, fs', rfl, hwritten.metaTouched ho.geometry ho.group⟩

/-! ## The log only grows -/

section

variable (fs : Ext2)

theorem writeBlock_log (n : Nat) (buffer : Mem) : fs.written ⊆ (fs.writeBlock n buffer).written := subset_cons_self _ _

theorem writeInode_log (ino : Nat) (inode : Mem) : fs.written ⊆ (fs.writeInode ino inode).2.written := by
  unfold writeInode
  split
  · exact List.Subset.refl _
  · split
    · exact List.Subset.refl _
    · exact writeBlock_log fs _ _

theorem takeBit_log (pool : Pool) (i bit : Nat) (bitmap : Mem) : fs.written ⊆ (fs.takeBit pool i bit bitmap).2.written := by
  unfold takeBit
  split
  · exact List.Subset.refl _
  · refine List.Subset.trans ?_ (writeBlock_log _ _ _)
    exact writeBlock_log (fs.setFreeCount pool i _) _ _

theorem allocateBit_log (pool : Pool) (fuel i : Nat) : fs.written ⊆ (fs.allocateBit pool fuel i).2.written := by
  induction fuel generalizing i with
  | zero => exact List.Subset.refl _
  | succ fuel ih =>
    rw [allocateBit]
    split
    · split
      · exact List.Subset.refl _
      · split
        · exact takeBit_log fs ..
        · exact ih (i + 1)
    · exact takeBit_log fs ..

theorem allocateBlock_log (inode : Mem) (ino k : Nat) : fs.written ⊆ (fs.allocateBlock inode ino k).2.2.written := by
  have halloc := allocateBit_log fs .blocks fs.groupCount 0
  unfold allocateBlock
  split
  · exact List.Subset.refl _
  · dsimp only
    split
    · exact halloc
    · split
      · exact halloc
      · exact List.Subset.trans halloc (writeInode_log _ _ _)

theorem growTo_log (inode : Mem) (ino b fuel : Nat) : fs.written ⊆ (fs.growTo inode ino b fuel).2.2.written := by
  induction fuel generalizing fs inode with
  | zero => exact List.Subset.refl _
  | succ fuel ih =>
    rw [growTo]
    split
    · have hstep := allocateBlock_log fs inode ino (fs.sector2Block (iSectors inode))
      split
      · rename_i heq
        rwa [heq] at hstep
      · rename_i heq
        rw [heq] at hstep
        exact List.Subset.trans hstep (ih _ _)
    · exact List.Subset.refl _

theorem writeInodeBlock_log (inode : Mem) (ino b : Nat) (image : Mem) : fs.written ⊆ (fs.writeInodeBlock inode ino b image).2.2.written := by
  have hgrow := growTo_log fs inode ino b (fs.bitCount + 1)
  unfold writeInodeBlock
  split
  · rename_i heq
    rwa [heq] at hgrow
  · rename_i heq
    rw [heq] at hgrow
    exact List.Subset.trans hgrow (writeBlock_log _ _ _)

/-- The log of writes only grows. -/
theorem writeLoop_log (inode : Mem) (ino offset size : Nat) (buffer : Mem) (written block fuel : Nat) :
    fs.written ⊆ (fs.writeLoop inode ino offset size buffer written block fuel).2.2.2.written := by
  induction fuel generalizing fs inode written block with
  | zero => exact List.Subset.refl _
  | succ fuel ih =>
    rw [writeLoop]
    split
    · exact List.Subset.refl _
    · rename_i image count _
      have hstep := writeInodeBlock_log fs inode ino block image
      split
      · rename_i heq
        rwa [heq] at hstep
      · rename_i heq
        rw [heq] at hstep
        exact List.Subset.trans hstep (ih ..)

theorem finishWrite_log (node : VfsNode) (inode : Mem) (offset osize : Nat) (writtenBytes : Int) :
    fs.written ⊆ (fs.finishWrite node inode offset osize writtenBytes).2.2.written := by
  unfold finishWrite
  split
  · exact List.Subset.refl _
  · dsimp only
    generalize (if (offset : Int) + writtenBytes > osize then _ else inode) = inode'
    have hwrite := writeInode_log fs node.inode inode'
    split
    · rename_i heq
      rwa [heq] at hwrite
    · rename_i heq
      rwa [heq] at hwrite

end

/-! ## Isolation -/

/-- With a boot block of zeros, the loop writes to it when one of its blocks is not good. -/
theorem WriteCall.writeLoop_bad {last block : Nat} {inode1 : Mem} (h : WriteCall fs ino last)
    (hb : WriteCall.Between fs ino (fun _ => 0) (fun _ => 0) block fs1 inode1) (offset size : Nat) (buffer : Mem) (written : Nat)
    (hlast : fuel ≤ last + 1 - block)
    (hbad : ∃ b, block ≤ b ∧ b < block + fuel ∧ (b + 2) * fs.blockSize ≤ 2 ^ 32 ∧ ¬ fs.GoodBlock (fs.storedInode ino) b) :
    0 ∈ (fs1.writeLoop inode1 ino offset size buffer written block fuel).2.2.2.written := by
  induction fuel generalizing block fs1 inode1 written with
  | zero =>
    obtain ⟨b, hle, hlt, -⟩ := hbad
    omega
  | succ fuel ih =>
    obtain ⟨b, hle, hlt, hfits, hnot⟩ := hbad
    have hfits0 : (block + 2) * fs.blockSize ≤ 2 ^ 32 := Nat.le_trans (Nat.mul_le_mul_right _ (by omega)) hfits
    obtain ⟨image, count, himage⟩ := h.blockImage hb offset size buffer written
    rw [Ext2.writeLoop, himage]
    dsimp only
    by_cases hgood : fs.GoodBlock (fs.storedInode ino) block
    · obtain ⟨fs2, inode2, hrun, hb2⟩ := h.next hb hfits0 (by omega) hgood image
      have hne : b ≠ block := fun he => hnot (he ▸ hgood)
      rw [hrun]
      exact ih hb2 (written + count) (by omega) ⟨b, by omega, by omega, hfits, hnot⟩
    · obtain ⟨fs2, inode2, ms, hrun, hg2, -, -⟩ := h.round hb hfits0 (by omega) image
      have g := h.working.geometry
      have hread : ∀ q, fs2.readable q = true := fun q => by
        rw [hg2.shape.readable]
        exact h.working.readable q
      have hzero := h.consistent.target_missing g h.used hg2 hread (g.lt_mapLimit hfits0) hgood
      rw [hrun]
      refine writeLoop_log _ _ _ _ _ _ _ _ _ ?_
      rw [hzero, Ext2.writeBlock, show fs2.physical 0 = 0 by simp [Ext2.physical]]
      exact mem_cons_self

/-- On a consistent filesystem no block that the write may touch is one that it must leave alone. -/
theorem AllowedBlock.not_foreign (hq : AllowedBlock fs ino q) (hc : MapConsistent fs) (g : Geometry fs) (hn : fs.InodeUsed ino) :
    ¬ ForeignBlock fs ino q := by
  have hcases : OrdinaryBlock fs q ∨ ∃ x : MetaBlock, x.Valid fs ∧ x.number fs = q ∧ x ≠ .boot ∧ x ≠ .superBlock := by
    rcases hq with ⟨k, path, hp⟩ | hfree | ⟨pool, i, hi, rfl⟩ | rfl | rfl
    · exact .inl ((hc.used ino hn k path q hp).ordinary g)
    · exact .inl (hfree.ordinary g hc.free)
    · exact .inr ⟨.bitmap pool i, hi, rfl, nofun, nofun⟩
    · exact .inr ⟨.descriptors, trivial, rfl, nofun, nofun⟩
    · obtain ⟨⟨x, hvalid, hblock⟩, -⟩ := g.inodeBlock_meta hn.1
      exact .inr ⟨_, hvalid, hblock.symm, nofun, nofun⟩
  rintro (rfl | rfl | ⟨n, hused, hne, k, path, hp⟩)
  · rcases hcases with hord | ⟨x, hx, he, hboot, -⟩
    · exact hord.1 .boot trivial rfl
    · exact hboot (g.distinct x .boot hx trivial he)
  · rcases hcases with hord | ⟨x, hx, he, -, hsuper⟩
    · exact hord.1 .superBlock trivial rfl
    · exact hsuper (g.distinct x .superBlock hx trivial he)
  · have hforeign := hc.used n hused k path q hp
    rcases hq with ⟨k', path', hp'⟩ | hfree | ⟨pool, i, hi, rfl⟩ | rfl | rfl
    · exact hne (hc.once n ino hused hn k k' path path' q hp hp').1
    · exact hforeign.ne_free hfree hc.free rfl
    · exact hforeign.2 (.bitmap pool i) hi rfl
    · exact hforeign.2 .descriptors trivial rfl
    · obtain ⟨⟨x, hvalid, hblock⟩, -⟩ := g.inodeBlock_meta hn.1
      exact hforeign.2 _ hvalid hblock.symm

/-- The rounds of `ext2_write`. -/
def Ext2.writeRounds (fs : Ext2) (node : VfsNode) (offset size : Nat) (buffer : Mem) : Bool × Mem × Nat × Ext2 :=
  fs.writeLoop (fs.storedInode node.inode) node.inode offset size buffer 0 (offset / fs.blockSize)
    (fs.endBlock offset size + 1 - offset / fs.blockSize)

theorem ext2Write_eq {node : VfsNode} {offset : Nat} (hw : Working fs) (hv : fs.inodeGroup node.inode < fs.groupCount)
    (hfile : inodeFile (fs.storedInode node.inode) = true) (hoff : offset ≤ iSize (fs.storedInode node.inode)) (size : Nat) (buffer : Mem) :
    ∃ w : Int, fs.ext2Write node offset size buffer = .ok ((fs.writeRounds node offset size buffer).2.2.2.finishWrite node
      (fs.writeRounds node offset size buffer).2.1 offset (iSize (fs.storedInode node.inode)) w) := by
  refine ⟨if (fs.writeRounds node offset size buffer).1 then ((fs.writeRounds node offset size buffer).2.2.1 : Int) else -eio, ?_⟩
  rw [ext2Write, (hw.opened hv).readInode hw.heapOk]
  dsimp only
  rw [if_neg (by simp [hfile]), if_neg (by omega), if_neg (by simp [hw.heapOk])]
  rfl

section

variable {node : VfsNode} {offset size : Nat} {buffer : Mem} (h : WriteCall fs node.inode (fs.endBlock offset size))
include h

theorem WriteCall.between_start (boot : Mem) (stray : Nat → Nat) :
    WriteCall.Between fs node.inode boot stray (offset / fs.blockSize) (fs.withBoot boot stray)
      ((fs.withBoot boot stray).storedInode node.inode) := by
  rw [withBoot_storedInode h.working.geometry boot stray h.used.1]
  have himage : IsImage (fs.withBoot boot stray) (fs.storedInode node.inode) := isImage_storedInode fs node.inode
  exact ⟨[], grown_nil himage _ _, Nat.zero_le _⟩

variable (hfile : inodeFile (fs.storedInode node.inode) = true) (hoff : offset ≤ iSize (fs.storedInode node.inode))
include hfile hoff

theorem WriteCall.run (boot : Mem) (stray : Nat → Nat) (buffer : Mem) : ∃ (osize : Nat) (w : Int),
    (fs.withBoot boot stray).ext2Write node offset size buffer =
      .ok (((fs.withBoot boot stray).writeRounds node offset size buffer).2.2.2.finishWrite node
        ((fs.withBoot boot stray).writeRounds node offset size buffer).2.1 offset osize w) := by
  have hstored := withBoot_storedInode h.working.geometry boot stray h.used.1
  have hinside : offset ≤ iSize ((fs.withBoot boot stray).storedInode node.inode) := by rwa [hstored]
  obtain ⟨w, hrun⟩ := ext2Write_eq (h.working.withBoot boot stray) h.used.1 (by rwa [hstored]) hinside size buffer
  exact ⟨_, w, hrun⟩

/-- Good blocks make the write isolated. -/
theorem WriteCall.isolated (hgood : ∀ b, offset / fs.blockSize ≤ b → b ≤ fs.endBlock offset size → (b + 2) * fs.blockSize ≤ 2 ^ 32 →
      fs.GoodBlock (fs.storedInode node.inode) b) : WriteIsolated fs node offset size buffer := by
  intro boot stray
  obtain ⟨osize, w, hrun⟩ := h.run hfile hoff boot stray buffer
  obtain ⟨done, inode', n, fs1, hloop, hstays⟩ := h.writeLoop (h.between_start boot stray) offset size buffer 0
    .refl fun b hle hlt => hgood b hle (by omega)
  rw [show (fs.withBoot boot stray).writeRounds node offset size buffer = (done, inode', n, fs1) from hloop] at hrun
  have ho : Opened fs1 node.inode := ((h.working.withBoot boot stray).opened h.used.1).congr hstays.kept.shape
  obtain ⟨ret, node', fs', hfinish, htouched⟩ := ho.finishWrite_touched inode' offset osize w
  refine ⟨ret, node', fs', by rw [hrun, hfinish], fun q hq => ?_⟩
  have hallowed : AllowedBlock fs node.inode q := by
    rcases (hstays.touch htouched).touched q hq with ⟨i, hi, rfl⟩ | rfl | rfl | ⟨k, path, hp, -⟩ | hfree
    · exact .inr (.inr (.inl ⟨.blocks, i, hi, rfl⟩))
    · exact .inr (.inr (.inr (.inl rfl)))
    · exact .inr (.inr (.inr (.inr rfl)))
    · exact .inl ⟨k, path, hp⟩
    · exact .inr (.inl hfree)
  exact ⟨hallowed, hallowed.not_foreign h.consistent h.working.geometry h.used⟩

/-- The write is isolated when every block of its range is a direct one that it allocates or one that the block map leads to. Blocks that 32
bits of sectors do not reach are never written. -/
theorem ext2Write_isolated_iff : WriteIsolated fs node offset size buffer ↔
    ∀ b, offset / fs.blockSize ≤ b → b ≤ fs.endBlock offset size → (b + 2) * fs.blockSize ≤ 2 ^ 32 →
      fs.GoodBlock (fs.storedInode node.inode) b := by
  refine ⟨fun hiso b hle hlast hfits => ?_, fun hgood => h.isolated hfile hoff hgood⟩
  by_contra hnot
  obtain ⟨ret, node', fs', hok, hallowed⟩ := hiso (fun _ => 0) fun _ => 0
  obtain ⟨osize, w, hrun⟩ := h.run hfile hoff (fun _ => 0) (fun _ => 0) buffer
  have hzero := h.writeLoop_bad (h.between_start _ _) offset size buffer 0
    .refl ⟨b, hle, by omega, hfits, hnot⟩
  have hlog : 0 ∈ fs'.written := by
    rw [hok] at hrun
    rw [show fs' = _ from congrArg (fun r => r.2.2) (Except.ok.inj hrun)]
    exact finishWrite_log _ _ _ _ _ _ hzero
  exact (hallowed 0 (Or.inl hlog)).2 (Or.inl rfl)

end

/-- One byte into the only block of a file. -/
theorem ext2Write_isolated_small :
    WriteCall smallFs smallFile.inode (smallFs.endBlock 0 1) ∧ WriteIsolated smallFs smallFile 0 1 fun _ => 0x41 := by
  have hcall : WriteCall smallFs smallFile.inode (smallFs.endBlock 0 1) :=
    ⟨smallFs_working, smallFs_files.mapConsistent, ⟨by decide, by decide⟩, trivial⟩
  refine ⟨hcall, (ext2Write_isolated_iff hcall (by decide) (Nat.zero_le _)).mpr fun b _ hle _ => ?_⟩
  obtain rfl : b = 0 := Nat.le_zero.mp hle
  exact Or.inr (show iBlock (smallFs.storedInode 3) 0 ≠ 0 by decide)

/-! ## The thirteenth block -/

/-- The inode of a file that fills its twelve direct blocks. -/
def fullInode : Mem :=
  (List.range ndirBlocks).foldl (fun inode k => setIBlock inode k (7 + k)) (setISectors (setISize (store (fun _ => 0) 0 2 iFile) 12288) 24)

/-- The filesystem with thirty-two blocks, of which the file `a` has twelve. -/
def fullFs : Ext2 :=
  { smallFs with
    disk := fun
      | 3 => fun x => if x < 2 then 0xFF else if x = 2 then 0x03 else if x = 3 then 0 else 0xFF
      | 5 => copy smallTable 256 fullInode 0 128
      | n => smallFs.disk n
    superBlock := ⟨8, 32, 0, 32, 8, 0xEF53, 128⟩
    groups := store smallFs.groups 12 2 14 }

theorem fullFs_working : Working fullFs :=
  ⟨⟨⟨0, by decide, rfl⟩, by decide, by decide, rfl, by decide, by decide, by decide, forall_metaBlocks (by decide) (by decide),
    metaBlocks_distinct (by decide) (by decide)⟩, fun _ => rfl, rfl⟩

theorem fullFs_files : DirectFiles fullFs := by
  have hown : ∀ x : MetaBlock, x.Valid fullFs → x.number fullFs ≤ 5 := forall_metaBlocks (by decide) (by decide)
  have hfree : FreeOk fullFs := by
    refine freeOk_of_bitmap rfl hown (by decide) fun x hx => ?_
    replace hx : 4 ≤ x := hx
    rw [show fullFs.bitmapBlock .blocks 0 = 3 by decide]
    show (if x < 2 then 0xFF else if x = 2 then 0x03 else if x = 3 then 0 else 0xFF : BitVec 8) = 0xFF
    rw [if_neg (by omega), if_neg (by omega), if_neg (by omega)]
  refine ⟨rfl, rfl, hfree, hown, ?_, ?_, ?_, ?_⟩
  all_goals decide

/-- The node of the file that fills its direct blocks. -/
def fullFile : VfsNode := ⟨3, 12288, 0⟩

/-- A byte appended to a file of twelve blocks goes to the boot block: `setRealBlock` allocates no table for the thirteenth block, so
`getRealBlock` takes its number from the boot block as well. -/
theorem append_overwrites_boot :
    WriteCall fullFs fullFile.inode (fullFs.endBlock 12288 1) ∧ inodeFile (fullFs.storedInode fullFile.inode) = true ∧
      12288 ≤ iSize (fullFs.storedInode fullFile.inode) ∧ fullFs.disk 0 0 = 0 ∧
      (fullFs.ext2Write fullFile 12288 1 fun _ => 0x41).map (fun r => (r.1, r.2.2.disk 0 0)) = .ok (1, 0x41) ∧
      ¬ WriteIsolated fullFs fullFile 12288 1 fun _ => 0x41 := by
  have hroom : Room fullFs 1 := ⟨by decide, trivial⟩
  have hlog : (((fullFs.withBoot (fun _ => 0) fun _ => 0).ext2Write fullFile 12288 1 fun _ => 0x41).map fun r =>
      decide (0 ∈ r.2.2.written)) = .ok true := by decide
  have hsectors : fullFs.endBlock 12288 1 + 1 - fullFs.sector2Block (iSectors (fullFs.storedInode fullFile.inode)) = 1 := by
    decide
  refine ⟨⟨fullFs_working, fullFs_files.mapConsistent, ⟨by decide, by decide⟩, hsectors ▸ hroom⟩, by decide,
    by decide +kernel, rfl, by decide +kernel, fun hiso => ?_⟩
  obtain ⟨ret, node', fs', hok, hallowed⟩ := hiso (fun _ => 0) fun _ => 0
  rw [hok] at hlog
  have hmem : 0 ∈ fs'.written := of_decide_eq_true (Except.ok.inj hlog)
  exact (hallowed 0 (Or.inl hmem)).2 (Or.inl rfl)

end OmegaOS
