import OmegaOS.Lemmas.Ext2Write

/-!
# The content of a file

What `ext2_read` returns of any file, and what a whole `ext2_write` makes of one in the direct blocks. A range that ends where the direct
blocks do is followed by a round on the block behind them, which reads a block by way of the boot block and writes it back.
-/

namespace OmegaOS

open ByteMem Splice Ext2

variable {fs1 : Ext2} {image inode1 : Mem} {fuel k p last : Nat} {ns : List Nat}

variable {fs fs' : Ext2} {ino : Nat} {inode inode' : Mem} {data : Nat → Prop} {offset n b : Nat}

/-! ## Reading -/

theorem readInodeBlock_readable (hread : fs.readable (fs.physical (fs.getRealBlock inode b)) = true) :
    fs.readInodeBlock inode b = some (fs.disk (fs.physical (fs.getRealBlock inode b))) := by
  rw [readInodeBlock, readBlock, if_pos hread]

theorem copy_block (buffer : Mem) (start count : Nat)
    (hcount : before fs.blockSize offset n b + count = before fs.blockSize offset n (b + 1))
    (hstart : b * fs.blockSize + start = offset + before fs.blockSize offset n b) (hend : start + count ≤ fs.blockSize) :
    copy buffer (before fs.blockSize offset n b) (fs.disk (fs.physical (fs.getRealBlock inode b))) start count =
      fun x => if before fs.blockSize offset n b ≤ x ∧ x < before fs.blockSize offset n (b + 1) then fs.fileByte inode (offset + x)
        else buffer x := by
  funext x
  rw [copy, hcount]
  split
  · rw [show offset + x = b * fs.blockSize + (start + (x - before fs.blockSize offset n b)) by omega, fileByte_block fs inode b (by omega)]
  · rfl

theorem before_le_succ (size offset n b : Nat) : before size offset n b ≤ before size offset n (b + 1) := by
  unfold before
  rw [Nat.add_mul, one_mul]
  omega

/-- What a round of `ext2_read` makes of the buffer, and how many bytes it counts. -/
theorem readRound (hsize : 0 < fs.blockSize) (hfits : offset + n < 2 ^ 32) (buffer : Mem) (hstart : offset / fs.blockSize ≤ b)
    (hend : b ≤ (offset + n) / fs.blockSize) : (if b = offset / fs.blockSize then
        (copy buffer 0 (fs.disk (fs.physical (fs.getRealBlock inode b))) (offset % fs.blockSize) (fs.intrnCount offset n), fs.intrnCount offset n)
      else if b = fs.endBlock offset n then
        (copy buffer (before fs.blockSize offset n b) (fs.disk (fs.physical (fs.getRealBlock inode b))) 0 (fs.remainingBytes offset n),
          fs.remainingBytes offset n)
      else (copy buffer (before fs.blockSize offset n b) (fs.disk (fs.physical (fs.getRealBlock inode b))) 0 fs.blockSize, fs.blockSize)) =
      ((fun x => if before fs.blockSize offset n b ≤ x ∧ x < before fs.blockSize offset n (b + 1) then fs.fileByte inode (offset + x)
          else buffer x),
        before fs.blockSize offset n (b + 1) - before fs.blockSize offset n b) := by
  have hle := before_le_succ fs.blockSize offset n b
  obtain ⟨hpos, hmod⟩ := position hsize offset
  by_cases hfirst : b = offset / fs.blockSize
  · rw [if_pos hfirst]
    have hzero : before fs.blockSize offset n b = 0 := by rw [hfirst, before_start hsize]
    have hcount : before fs.blockSize offset n (b + 1) = fs.intrnCount offset n := by
      rw [hfirst, before_first hsize, intrnCount_eq hsize hfits]
    have hin := intrnCount_eq hsize hfits
    rw [← copy_block buffer (offset % fs.blockSize) (fs.intrnCount offset n) (by rw [hzero, hcount, zero_add]) (by rw [hzero, hfirst]; omega) (by omega),
      hzero, hcount, Nat.sub_zero]
  · rw [if_neg hfirst, endBlock_eq hfits, remainingBytes_eq hfits]
    have hlt : offset / fs.blockSize < b := by omega
    have hlo := block_le hsize hlt
    have hbefore := before_later hsize hlt hend
    by_cases hlast : b = (offset + n) / fs.blockSize
    · rw [if_pos hlast]
      obtain ⟨hpos', hmod'⟩ := position hsize (offset + n)
      have hall := before_all hsize (show (offset + n) / fs.blockSize < b + 1 by omega)
      rw [← hlast] at hpos'
      rw [← copy_block buffer 0 ((offset + n) % fs.blockSize) (by omega) (by omega) (by omega), hall]
      congr 1
      omega
    · rw [if_neg hlast]
      have hnext := before_later hsize (by omega) (show b + 1 ≤ (offset + n) / fs.blockSize by omega)
      rw [Nat.add_mul, one_mul] at hnext
      rw [← copy_block buffer 0 fs.blockSize (by omega) (by omega) (by omega), hnext, hbefore]
      congr 1
      omega

/-- The loop of `ext2_read` copies the bytes of the file. -/
theorem readLoop_spec (inode : Mem) (hsize : 0 < fs.blockSize) (hfits : offset + n < 2 ^ 32) (buffer : Mem)
    (hstart : offset / fs.blockSize ≤ b) (hfuel : b + fuel = (offset + n) / fs.blockSize + 1)
    (hread : ∀ k, b ≤ k → k ≤ (offset + n) / fs.blockSize → fs.readable (fs.physical (fs.getRealBlock inode k)) = true) :
    fs.readLoop inode offset n buffer (before fs.blockSize offset n b) b fuel =
      (true, n, fun x => if before fs.blockSize offset n b ≤ x ∧ x < n then fs.fileByte inode (offset + x) else buffer x) := by
  induction fuel generalizing b buffer with
  | zero =>
    rw [before_all hsize (by omega), readLoop]
    congr
    funext x
    rw [if_neg (by omega)]
  | succ fuel ih =>
    have hle := before_le_succ fs.blockSize offset n b
    have hmax : before fs.blockSize offset n (b + 1) ≤ n := Nat.min_le_left _ _
    rw [readLoop, readInodeBlock_readable (hread b .refl (by omega))]
    dsimp only
    rw [readRound hsize hfits buffer hstart (by omega)]
    dsimp only
    rw [Nat.add_sub_cancel' hle, ih _ (by omega) (by omega) fun k hk => hread k (by omega)]
    congr
    funext x
    split
    · rw [if_pos (by omega)]
    · split
      · rw [if_pos (by omega)]
      · rw [if_neg (by omega)]

/-- `ext2_read` of a range inside a file whose blocks the drive reads. -/
theorem ext2Read_spec (hsize : 0 < fs.blockSize) {node : VfsNode} (hinode : fs.readInode node.inode = some inode)
    (hfile : inodeFile inode = true) (hheap : fs.heapOk = true) (hrange : offset + n ≤ iSize inode)
    (hread : ∀ k, offset / fs.blockSize ≤ k → k ≤ (offset + n) / fs.blockSize → fs.readable (fs.physical (fs.getRealBlock inode k)) = true)
    (buffer : Mem) : fs.ext2Read node offset n buffer =
      ((n : Int), { node with offset := (offset : Int) + n }, fun x => if x < n then fs.fileByte inode (offset + x) else buffer x) := by
  have hlt := iSize_lt inode
  have hle : offset / fs.blockSize ≤ (offset + n) / fs.blockSize := Nat.div_le_div_right (Nat.le_add_right _ _)
  have hloop := readLoop_spec inode hsize (by omega) buffer .refl
    (show offset / fs.blockSize + ((offset + n) / fs.blockSize + 1 - offset / fs.blockSize) = _ by omega) hread
  rw [before_start hsize] at hloop
  simp only [Nat.zero_le, true_and] at hloop
  rw [ext2Read, hinode]
  dsimp only
  rw [hfile, hheap, Nat.mod_eq_of_lt (by omega), endBlock_eq (by omega), if_neg (by decide), if_neg (by omega), if_neg (by decide), hloop]

/-! ## The block behind the direct ones -/

/-- The pointers stay, and the sectors reach no further than they did. -/
theorem FileOk.update (h : FileOk fs inode data) (himage : IsImage fs inode') (hpointers : ∀ k, iBlock inode' k = iBlock inode k)
    (hcovers : iSize inode' / fs.blockSize ≤ fs.sector2Block (iSectors inode'))
    (hreach : ∀ k < ndirBlocks, k < fs.sector2Block (iSectors inode') → k < fs.sector2Block (iSectors inode)) : FileOk fs inode' data := by
  refine ⟨himage, hcovers, fun k hk hlt => ?_, fun k hk => ?_, fun j k hj hk => ?_, ?_, h.free⟩
  · rw [hpointers]
    exact h.mapped k hk (hreach k hk hlt)
  · rw [hpointers]
    exact h.used k hk
  · rw [hpointers, hpointers]
    exact h.distinct j k hj hk
  · rw [hpointers]
    exact h.indirect

theorem Geometry.boot_grown (g : Geometry fs) (h : Grown fs inode ino k ns data fs' inode')
    (hv : fs.inodeGroup ino < fs.groupCount) (hdata : ¬ data 0) : fs'.disk 0 = fs.disk 0 := by
  refine h.disk 0 (fun i hi => ?_) (by decide) (g.inodeBlock_ne_zero hv).symm hdata
  exact (g.number_ne_zero (x := .bitmap .blocks i) hi nofun).symm

/-- Without a table the block behind the direct ones is found by way of the boot block. -/
theorem Working.getRealBlock_behind (hw : Working fs) (h : iBlock inode ndirBlocks = 0) :
    fs.getRealBlock inode ndirBlocks = fs.entry (fs.disk 0) 0 := by
  obtain ⟨hlo, -⟩ := hw.geometry.blockSize_bounds
  have hptr : 0 < fs.ptrBlocksPerBlock := Nat.div_pos (by omega) (by decide)
  have hpath : fs.indirectPath inode ndirBlocks = some (0, [0]) := by
    unfold Ext2.indirectPath
    rw [if_pos (by omega), h, Nat.sub_self]
  rw [Ext2.getRealBlock, if_neg (Nat.lt_irrefl _), hpath]
  dsimp only
  rw [Ext2.followPath, Ext2.follow, hw.readBlock, hw.geometry.physical_eq (Nat.zero_le _)]
  rfl

/-- Every block is as in one of two states. -/
def EitherDisk (fs1 fs2 fs' : Ext2) : Prop :=
  ∀ q, (∀ o < fs1.blockSize, fs'.disk q o = fs1.disk q o) ∨ ∀ o < fs1.blockSize, fs'.disk q o = fs2.disk q o

theorem SameShape.writeBack (hs : SameShape fs fs1)
    (himage : ∀ o < fs.blockSize, image o = fs.disk (fs.physical p) o) : EitherDisk fs fs1 (fs1.writeBlock p image) := by
  intro q
  by_cases hq : q = fs.physical p
  · left
    intro o ho
    rw [disk_writeBlock_inside fs1 (by rw [hs.physical, hq]) image (by rwa [hs.blockSize]), himage o ho, hq]
  · right
    intro o _
    rw [disk_writeBlock_ne fs1 p image (by rwa [hs.physical])]

theorem EitherDisk.kept (h : EitherDisk fs fs1 fs') (hk : Kept fs fs1) (hs : SameShape fs fs') : Kept fs fs' := by
  refine ⟨hs, fun i c hi hc hclear => ?_⟩
  rw [bit, hs.bitmapBlock, bitOf] at hclear
  rcases h (fs.bitmapBlock .blocks i) with heq | heq
  · rwa [heq _ (by omega)] at hclear
  · rw [heq _ (by omega)] at hclear
    refine hk.bits i c hi hc ?_
    rwa [bit, hk.shape.bitmapBlock, bitOf]

theorem EitherDisk.storedInode (h : EitherDisk fs fs1 fs') (hs1 : SameShape fs fs1) (hs : SameShape fs fs') (ho : Opened fs ino) :
    fs'.storedInode ino = fs.storedInode ino ∨ fs'.storedInode ino = fs1.storedInode ino := by
  obtain ⟨-, hin⟩ := ho.geometry.inodeBlock_meta ho.group
  have hcongr : ∀ m m' : Mem, (∀ o < fs.blockSize, m' o = m o) →
      copy (fun _ => 0) 0 m' (fs.inodeOffset ino) fs.superBlock.inodeSize = copy (fun _ => 0) 0 m (fs.inodeOffset ino) fs.superBlock.inodeSize := by
    intro m m' heq
    funext o
    rw [copy, copy]
    split
    · rw [heq _ (by omega)]
    · rfl
  rw [Ext2.storedInode, hs.inodeBlock, hs.inodeOffset, hs.superBlock, Ext2.storedInode, Ext2.storedInode, hs1.inodeBlock, hs1.inodeOffset,
    hs1.superBlock]
  exact (h (fs.inodeBlock ino)).imp (hcongr _ _) (hcongr _ _)

/-- What rounds of a write leave, whether they come to the end or not. -/
structure RoundsKept (fs : Ext2) (inode : Mem) (ino : Nat) (data : Nat → Prop) (fs' : Ext2) (inode' : Mem) : Prop where
  kept : Kept fs fs'
  file : FileOk fs' inode' data
  mode : iMode inode' = iMode inode
  stored : fs.storedInode ino = inode → FileOk fs' (fs'.storedInode ino) data ∧ iMode (fs'.storedInode ino) = iMode inode

/-- What rounds up to the block `last` leave when they come to the end: an inode with a block more for each that it was short of, and
these bytes in the direct blocks. -/
structure RoundsDone (fs : Ext2) (inode : Mem) (last : Nat) (bytes : Nat → BitVec 8) (fs' : Ext2) (inode' : Mem) : Prop where
  sectors : fs'.sector2Block (iSectors inode') = max (fs.sector2Block (iSectors inode)) (last + 1)
  size : iSize inode' = iSize inode + fs.blockSize * (last + 1 - fs.sector2Block (iSectors inode))
  bytes : ∀ x, x / fs.blockSize < ndirBlocks → fs'.fileByte inode' x = bytes x

/-- The pointers that rounds up to the block `last` leave when they come to the end, and the inode on the disk when these are direct. -/
structure RoundsRecorded (fs : Ext2) (inode : Mem) (ino last : Nat) (fs' : Ext2) (inode' : Mem) : Prop where
  pointers : ∀ k < ndirBlocks, iBlock inode' k ≠ 0 ↔ iBlock inode k ≠ 0 ∨ fs.sector2Block (iSectors inode) ≤ k ∧ k ≤ last
  stored : last < ndirBlocks → fs.storedInode ino = inode → fs'.storedInode ino = inode'

section

variable (h : FileOk fs inode data)

include h

/-- The inode grows by blocks behind the direct ones, and then a block is written back. -/
theorem FileOk.writeBack (ho : Opened fs ino)
    (hg : Grown fs inode ino k ns (fun _ => False) fs1 inode') (hpointers : ∀ k, iBlock inode' k = iBlock inode k)
    (hsectors : fs1.sector2Block (iSectors inode') = max (fs.sector2Block (iSectors inode)) (ndirBlocks + 1))
    (hsize : iSize inode' = iSize inode + fs.blockSize * (ndirBlocks + 1 - fs.sector2Block (iSectors inode)))
    (hreach : ndirBlocks ≤ fs.sector2Block (iSectors inode)) (himage : ∀ o < fs.blockSize, image o = fs.disk (fs.physical p) o) :
    RoundsKept fs inode ino data (fs1.writeBlock p image) inode' ∧
      RoundsDone fs inode ndirBlocks (fs.fileByte inode) (fs1.writeBlock p image) inode' := by
  have g := ho.geometry
  obtain ⟨hlo, -⟩ := g.blockSize_bounds
  have hs := hg.shape
  have heither := hs.writeBack himage
  have hs' := hs.trans (SameShape.writeBlock fs1 p image)
  have hkept := heither.kept hg.kept hs'
  have hsectors' : (fs1.writeBlock p image).sector2Block (iSectors inode') = max (fs.sector2Block (iSectors inode)) (ndirBlocks + 1) := by
    rw [← hsectors]
    exact (SameShape.writeBlock fs1 p image).sector2Block _
  have hfile : FileOk (fs1.writeBlock p image) inode' data := by
    refine (h.kept g hkept).update (hs'.isImage hg.image) hpointers ?_ fun k hk _ => ?_
    · rw [hsectors', hs'.blockSize, hsize, Nat.add_mul_div_left _ _ (by omega)]
      have := h.covers
      omega
    · rw [hs'.sector2Block]
      omega
  refine ⟨⟨hkept, hfile, hg.mode, fun hstored => ?_⟩, hsectors', hsize, fun x hx => ?_⟩
  · rcases heither.storedInode hs hs' ho with heq | heq
    · rw [heq, hstored]
      exact ⟨h.kept g hkept, rfl⟩
    · rw [heq, hg.stored hstored]
      exact ⟨hfile, hg.mode⟩
  · obtain ⟨hph, hbitmap, hdesc, hinode⟩ := h.pointer ho hx
    have ho' : x % fs.blockSize < fs.blockSize := Nat.mod_lt _ (by omega)
    rw [fileByte_direct fs inode hx, fileByte_direct _ inode' (by rwa [hs'.blockSize]), hs'.blockSize, hpointers, hs'.physical, hph]
    rcases heither (iBlock inode (x / fs.blockSize)) with heq | heq
    · exact heq _ ho'
    · rw [heq _ ho', hg.disk _ hbitmap hdesc hinode id]

/-- The round on the block behind the direct ones writes back what it reads. -/
theorem FileOk.writeBehind (hw : Working fs) (hv : fs.inodeGroup ino < fs.groupCount) (hfree : FreeOk fs)
    (hreach : ndirBlocks ≤ fs.sector2Block (iSectors inode))
    (himage : ∀ o < fs.blockSize, image o = fs.disk (fs.physical (fs.getRealBlock inode ndirBlocks)) o) :
    (fs.writeInodeBlock inode ino ndirBlocks image = (false, inode, fs) ∧ ¬ Room fs (ndirBlocks + 1 - fs.sector2Block (iSectors inode))) ∨
      ∃ fs' inode', fs.writeInodeBlock inode ino ndirBlocks image = (true, inode', fs') ∧ RoundsKept fs inode ino data fs' inode' ∧
        RoundsDone fs inode ndirBlocks (fs.fileByte inode) fs' inode' ∧ RoundsRecorded fs inode ino ndirBlocks fs' inode' := by
  have ho := hw.opened hv
  have g := hw.geometry
  obtain ⟨hlo, hhi, -, -⟩ := g.blockSize_bounds
  have hbits := ho.bitCount_pos
  have hfits : 14 * fs.blockSize ≤ 2 ^ 32 := Nat.le_trans (Nat.mul_le_mul_left 14 hhi) (by decide)
  by_cases hroom : Room fs (ndirBlocks + 1 - fs.sector2Block (iSectors inode))
  · have hlimit : ndirBlocks < fs.mapLimit := by
      have hptr : 0 < fs.ptrBlocksPerBlock := Nat.div_pos (by omega) (by decide)
      rw [Ext2.mapLimit]
      omega
    obtain ⟨ns, fs1, inode', hrun, hlen, hgrown⟩ := hw.growTo hfree hv h.image (fun _ => False) hlimit hfits hroom
      (show _ < fs.bitCount + 1 by omega)
    have hs := hgrown.shape
    have hpointers : ∀ k, iBlock inode' k = iBlock inode k := by
      intro k
      rw [hgrown.pointers, if_neg (by omega)]
    have hone : ns.length ≠ 0 → fs.sector2Block (iSectors inode) = 12 ∧ ns.length = 1 := by
      intro hne
      unfold ndirBlocks at hreach hlen
      omega
    have hsectors : fs1.sector2Block (iSectors inode') = max (fs.sector2Block (iSectors inode)) (ndirBlocks + 1) := by
      rw [hgrown.sector2Block g fun hne => by rw [(hone hne).1, (hone hne).2]; exact hfits]
      omega
    have hsize : iSize inode' = iSize inode + fs.blockSize * (ndirBlocks + 1 - fs.sector2Block (iSectors inode)) := by
      rw [hgrown.size, ← hlen]
      refine Nat.mod_eq_of_lt ?_
      by_cases hne : ns.length = 0
      · rw [hne]
        exact iSize_lt inode
      · have hlt := h.size_lt g (Nat.le_of_eq (hone hne).1)
        rw [(hone hne).2]
        omega
    have hboot : fs1.getRealBlock inode' ndirBlocks = fs.getRealBlock inode ndirBlocks := by
      have hdisk := g.boot_grown hgrown hv id
      rw [(hw.congr hs).getRealBlock_behind (by rw [hpointers]; exact h.indirect), hw.getRealBlock_behind h.indirect, hdisk, Ext2.entry,
        hs.ptrBlocksPerBlock, hs.stray]
      rfl
    right
    rw [Ext2.writeInodeBlock, hrun]
    dsimp only
    rw [hboot]
    obtain ⟨hkept, hdone⟩ := h.writeBack ho hgrown hpointers hsectors hsize hreach himage
    refine ⟨_, inode', rfl, hkept, hdone, fun k hk => ?_, fun hlt => absurd hlt (Nat.lt_irrefl _)⟩
    rw [hpointers]
    omega
  · left
    have hk : fs.sector2Block (iSectors inode) = ndirBlocks := by
      by_contra hne
      rw [show ndirBlocks + 1 - fs.sector2Block (iSectors inode) = 0 by omega] at hroom
      exact hroom trivial
    refine ⟨?_, hroom⟩
    rw [hk, Nat.add_sub_cancel_left] at hroom
    rw [Ext2.writeInodeBlock, Ext2.growTo, hk, if_pos .refl]
    rcases ho.allocateBlock hfree inode ndirBlocks with ⟨heq, -⟩ | ⟨j, c, fs1, halloc, -⟩
    · rw [heq]
    · exact absurd ⟨by rw [halloc]; exact Nat.succ_ne_zero _, trivial⟩ hroom

/-! ## The loop of `ext2_write` -/

/-- One round on a direct block. -/
theorem FileOk.writeDirect (ho : Opened fs ino) (hfree : FreeOk fs) (hb : b < ndirBlocks)
    (hreach : b ≤ fs.sector2Block (iSectors inode)) (image : Mem) : (fs.writeInodeBlock inode ino b image = (false, inode, fs) ∧
        (fs.heapOk = true → ¬ Room fs (b + 1 - fs.sector2Block (iSectors inode)))) ∨
      ∃ fs' inode', fs.writeInodeBlock inode ino b image = (true, inode', fs') ∧ RoundsKept fs inode ino data fs' inode' ∧
        RoundsDone fs inode b (fun x => if x / fs.blockSize = b then image (x % fs.blockSize) else fs.fileByte inode x) fs' inode' ∧
        RoundsRecorded fs inode ino b fs' inode' ∧
        ∀ r, Room fs (b + 1 - fs.sector2Block (iSectors inode) + r) → Room fs' r := by
  have g := ho.geometry
  obtain ⟨-, hhi, -, -⟩ := g.blockSize_bounds
  rcases h.writeInodeBlock ho hfree hb hreach image with hfail | ⟨ns, fs', inode', hrun, hlen, hgrown, hfile, hsectors, hbytes⟩
  · exact .inl hfail
  · refine .inr ⟨fs', inode', hrun, ⟨hgrown.kept, hfile, hgrown.mode, fun hstored => ?_⟩, ⟨?_, ?_, hbytes⟩,
      ⟨fun k hk => ?_, fun _ => hgrown.stored⟩, fun r hr => hgrown.room r (by rwa [hlen])⟩
    · rw [hgrown.stored hstored]
      exact ⟨hfile, hgrown.mode⟩
    · rw [hsectors]
      omega
    · rw [hgrown.size, hlen]
      refine Nat.mod_eq_of_lt ?_
      by_cases hlt : b < fs.sector2Block (iSectors inode)
      · rw [show b + 1 - fs.sector2Block (iSectors inode) = 0 by omega]
        exact iSize_lt inode
      · have hsize := h.size_lt g (show fs.sector2Block (iSectors inode) ≤ b by omega)
        have hmul : (b + 2) * fs.blockSize ≤ 14 * 65536 := Nat.mul_le_mul (by unfold ndirBlocks at hb; omega) hhi
        rw [show b + 1 - fs.sector2Block (iSectors inode) = 1 by omega]
        rw [Nat.add_mul] at hmul hsize
        omega
    · rw [hgrown.mapped hk, hlen]
      omega

theorem RoundsKept.refl (ino : Nat) : RoundsKept fs inode ino data fs inode :=
  ⟨⟨.refl fs, fun _ _ _ _ hclear => hclear⟩, h, rfl, fun hstored => by rw [hstored]; exact ⟨h, rfl⟩⟩

end

theorem RoundsKept.trans (h : RoundsKept fs inode ino data fs1 inode1)
    (hstored : fs.storedInode ino = inode → fs1.storedInode ino = inode1) (h' : RoundsKept fs1 inode1 ino data fs' inode') :
    RoundsKept fs inode ino data fs' inode' :=
  ⟨h.kept.trans h'.kept, h'.file, h'.mode.trans h.mode, fun hs => (h'.stored (hstored hs)).imp_right fun hmode => hmode.trans h.mode⟩

theorem RoundsDone.trans {bytes bytes1 bytes' : Nat → BitVec 8}
    (h : RoundsDone fs inode b bytes1 fs1 inode1) (h' : RoundsDone fs1 inode1 last bytes' fs' inode') (hs : SameShape fs fs1) (hb : b ≤ last)
    (hbytes : ∀ x, x / fs.blockSize < ndirBlocks → bytes' x = bytes x) : RoundsDone fs inode last bytes fs' inode' := by
  refine ⟨?_, ?_, fun x hx => ?_⟩
  · rw [h'.sectors, h.sectors]
    omega
  · rw [h'.size, h.size, h.sectors, hs.blockSize, add_assoc, ← Nat.mul_add]
    congr 2
    omega
  · rw [h'.bytes x (by rwa [hs.blockSize]), hbytes x hx]

theorem RoundsRecorded.trans (h : RoundsRecorded fs inode ino b fs1 inode1)
    (h' : RoundsRecorded fs1 inode1 ino last fs' inode') (hsectors : fs1.sector2Block (iSectors inode1) = max (fs.sector2Block (iSectors inode)) (b + 1))
    (hb : b ≤ last) : RoundsRecorded fs inode ino last fs' inode' := by
  refine ⟨fun k hk => ?_, fun hlt hstored => h'.stored hlt (h.stored (Nat.lt_of_le_of_lt hb hlt) hstored)⟩
  rw [h'.pointers k hk, h.pointers k hk, hsectors]
  omega

theorem Geometry.direct_range (g : Geometry fs) (hend : offset + n ≤ ndirBlocks * fs.blockSize) :
    0 < fs.blockSize ∧ offset + n < 2 ^ 31 ∧ (offset + n) / fs.blockSize ≤ ndirBlocks := by
  obtain ⟨hlo, hhi, -, -⟩ := g.blockSize_bounds
  have hsize : 0 < fs.blockSize := by omega
  have hmul : ndirBlocks * fs.blockSize ≤ 12 * 65536 := Nat.mul_le_mul_left _ hhi
  refine ⟨hsize, by omega, ?_⟩
  have := Nat.div_le_div_right (c := fs.blockSize) hend
  rwa [Nat.mul_div_cancel _ hsize] at this

/-- The rounds from block `b` on, up to the end of a range that ends in the direct blocks. -/
theorem FileOk.writeLoop (h : FileOk fs inode data) (hw : Working fs) (hv : fs.inodeGroup ino < fs.groupCount) (hfree : FreeOk fs)
    (hend : offset + n ≤ ndirBlocks * fs.blockSize) (buffer : Mem) (hstart : offset / fs.blockSize ≤ b)
    (hfuel : b + fuel = (offset + n) / fs.blockSize + 1) (hreach : b ≤ fs.sector2Block (iSectors inode)) :
    ∃ done inode' written fs', fs.writeLoop inode ino offset n buffer (before fs.blockSize offset n b) b fuel = (done, inode', written, fs') ∧
      RoundsKept fs inode ino data fs' inode' ∧
      (Room fs ((offset + n) / fs.blockSize + 1 - fs.sector2Block (iSectors inode)) → done = true) ∧
      (done = true → written = n ∧ RoundsDone fs inode ((offset + n) / fs.blockSize)
        (fun x => if b ≤ x / fs.blockSize then splice (fs.fileByte inode) buffer offset n x else fs.fileByte inode x) fs' inode' ∧
        RoundsRecorded fs inode ino ((offset + n) / fs.blockSize) fs' inode') := by
  obtain ⟨hsize, hsmall, hlast⟩ := hw.geometry.direct_range hend
  have hfits : offset + n < 2 ^ 32 := by omega
  induction fuel generalizing fs inode b with
  | zero =>
    rw [before_all hsize (by omega)]
    refine ⟨true, inode, n, fs, rfl, .refl h ino, fun _ => rfl, fun _ => ⟨rfl, ⟨?_, ?_, fun x hx => ?_⟩, fun k _ => by omega, fun _ => id⟩⟩
    · omega
    · rw [show (offset + n) / fs.blockSize + 1 - fs.sector2Block (iSectors inode) = 0 by omega]
      rfl
    · split
      · exact (splice_behind _ _ (show (offset + n) / fs.blockSize < x / fs.blockSize by omega)).symm
      · rfl
  | succ fuel ih =>
    have hlast' : b ≤ (offset + n) / fs.blockSize := by omega
    have hcount := before_le_succ fs.blockSize offset n b
    obtain ⟨-, hnone⟩ | ⟨image, hround, himage⟩ := blockImage_spec inode hsize hfits buffer hstart hlast'
    · simp [readInodeBlock_readable (hw.readable _)] at hnone
    rw [writeLoop, hround]
    dsimp only
    by_cases hb : b < ndirBlocks
    · rcases h.writeDirect (hw.opened hv) hfree hb hreach image with ⟨hfail, hno⟩ | ⟨fs1, inode1, hrun, hkept, hdone, hrecorded, hroom⟩
      · rw [hfail]
        exact ⟨false, inode, _, fs, rfl, .refl h ino, fun hroom => absurd (hroom.le (by omega)) (hno hw.heapOk), fun hf => by cases hf⟩
      · have hs := hkept.kept.shape
        have hsectors := hdone.sectors
        obtain ⟨done, inode', written, fs', hrest, hkept', hroom', hdone'⟩ := ih hkept.file (hw.congr hs)
          (by rwa [hs.inodeGroup, hs.groupCount]) (hkept.kept.freeOk hfree) (by rwa [hs.blockSize]) (b := b + 1)
          (by rw [hs.blockSize]; omega) (by rw [hs.blockSize]; omega) (by omega) (by rwa [hs.blockSize])
          (by rwa [hs.blockSize])
        rw [hs.blockSize] at hrest hroom' hdone'
        rw [hrun]
        rw [Nat.add_sub_cancel' hcount]
        refine ⟨done, inode', written, fs', hrest, hkept.trans (hrecorded.stored hb) hkept', fun hr => hroom' (hroom _ ?_), fun hd => ?_⟩
        · rwa [hsectors, show ∀ s, b + 1 - s + ((offset + n) / fs.blockSize + 1 - max s (b + 1)) = (offset + n) / fs.blockSize + 1 - s by omega]
        · obtain ⟨hwritten, hdone', hrecorded'⟩ := hdone' hd
          refine ⟨hwritten, hdone.trans hdone' hs hlast' fun x hx => ?_, hrecorded.trans hrecorded' hsectors hlast'⟩
          have hbyte := hdone.bytes x hx
          by_cases hxb : x / fs.blockSize = b
          · obtain ⟨hpos, hmod⟩ := position hsize x
            rw [if_neg (by omega), if_pos (by omega), hbyte, if_pos hxb, himage _ hmod, ← hxb, hpos]
          · rw [if_neg hxb] at hbyte
            rw [hbyte, splice_congr buffer hbyte]
            by_cases hlt : b ≤ x / fs.blockSize
            · rw [if_pos (by omega), if_pos hlt]
            · rw [if_neg (by omega), if_neg hlt]
    · -- only a range that ends with the direct blocks gets here, and this is the last round
      obtain rfl : b = ndirBlocks := by omega
      obtain rfl : fuel = 0 := by omega
      have hback : ∀ o < fs.blockSize, image o = fs.disk (fs.physical (fs.getRealBlock inode ndirBlocks)) o := by
        intro o ho
        rw [himage o ho, splice_outside _ _ (.inr (by omega)), fileByte_block fs inode _ ho]
      rcases h.writeBehind hw hv hfree hreach hback with ⟨hfail, hno⟩ | ⟨fs', inode', hrun, hkept, hdone, hrecorded⟩
      · rw [hfail]
        refine ⟨false, inode, _, fs, rfl, .refl h ino, fun hroom => absurd (hroom.le (by omega)) hno, fun hf => by cases hf⟩
      · rw [hrun]
        rw [Nat.add_sub_cancel' hcount]
        refine ⟨true, inode', _, fs', rfl, hkept, fun _ => rfl, fun _ => ⟨before_all hsize (by omega), ?_⟩⟩
        rw [show (offset + n) / fs.blockSize = ndirBlocks by omega]
        refine ⟨⟨hdone.sectors, hdone.size, fun x hx => ?_⟩, hrecorded⟩
        rw [hdone.bytes x hx, if_neg (by omega)]

/-! ## The end of `ext2_write` -/

/-- The inode of a file that has grown to a size. -/
def sizedInode (inode : Mem) (size : Nat) : Mem := setISectors (setISize inode size) (rndup size ataSectorSize / ataSectorSize)

/-- The sectors of a size reach the block that it ends in, or stop before it. -/
theorem sector2Block_rndup (g : Geometry fs) {size : Nat} (hsize : size < 2 ^ 31) :
    size / fs.blockSize ≤ fs.sector2Block (rndup size ataSectorSize / ataSectorSize) ∧
      fs.sector2Block (rndup size ataSectorSize / ataSectorSize) ≤ size / fs.blockSize + 1 := by
  obtain ⟨hlo, -⟩ := g.blockSize_bounds
  have hsectors : ∃ s, rndup size ataSectorSize / ataSectorSize = s ∧ size < (s + 1) * 512 ∧ (s + 1) * 512 ≤ size + 1024 ∧
      ((s + 1) * 512 ≤ size + 512 ∨ (s + 1) * 512 ≤ 1024) := by
    refine ⟨_, rfl, ?_⟩
    unfold rndup ataSectorSize
    split <;> omega
  obtain ⟨s, hs, hlt, hle, hcases⟩ := hsectors
  rw [hs, sector2Block, show ataSectorSize = 512 from rfl, Nat.mod_eq_of_lt (by omega), Nat.mod_eq_of_lt (by omega)]
  refine ⟨Nat.div_le_div_right (by omega), ?_⟩
  rw [← Nat.add_div_right _ (by omega)]
  refine Nat.div_le_div_right ?_
  omega

section

variable (inode) {size : Nat}

theorem iSize_sizedInode (h : size < 2 ^ 32) : iSize (sizedInode inode size) = size := by
  rw [sizedInode, iSize_setISectors, iSize_setISize _ h]

theorem iSectors_sizedInode (h : size < 2 ^ 32) : iSectors (sizedInode inode size) = rndup size ataSectorSize / ataSectorSize := by
  rw [sizedInode, iSectors_setISectors]
  unfold rndup ataSectorSize
  split <;> omega

theorem iMode_sizedInode (size : Nat) : iMode (sizedInode inode size) = iMode inode := by
  simp [sizedInode]

theorem iBlock_sizedInode (size k : Nat) : iBlock (sizedInode inode size) k = iBlock inode k := by
  rw [sizedInode, iBlock_setISectors, iBlock_setISize]

end

/-- The size is set to one that ends in a block for which the inode has sectors. -/
theorem FileOk.sized (h : FileOk fs inode data) (g : Geometry fs) {size : Nat} (hsize : size < 2 ^ 31)
    (hreach : size / fs.blockSize < fs.sector2Block (iSectors inode)) : FileOk fs (sizedInode inode size) data := by
  obtain ⟨hlo, hhi⟩ := sector2Block_rndup g hsize
  have hsize32 : size < 2 ^ 32 := by omega
  refine h.update ?_ (iBlock_sizedInode inode size) ?_ fun k _ hk => ?_
  · exact (h.image.store g _ (by omega)).store g _ (by omega)
  · rwa [iSize_sizedInode inode hsize32, iSectors_sizedInode inode hsize32]
  · rw [iSectors_sizedInode inode hsize32] at hk
    omega

theorem fileByte_sizedInode (fs : Ext2) (inode : Mem) (size : Nat) (hx : x / fs.blockSize < ndirBlocks) :
    fs.fileByte (sizedInode inode size) x = fs.fileByte inode x := by
  rw [fileByte_direct fs _ hx, fileByte_direct fs inode hx, iBlock_sizedInode]

theorem FileOk.writeInode (h : FileOk fs inode data) (ho : Opened fs ino) :
    ∃ fs', fs.writeInode ino inode = (true, fs') ∧ Kept fs fs' ∧ FileOk fs' inode data ∧ fs'.storedInode ino = inode ∧
      ∀ x, x / fs.blockSize < ndirBlocks → fs'.fileByte inode x = fs.fileByte inode x := by
  obtain ⟨fs', hrun, hwritten⟩ := ho.writeInode inode
  have hs := hwritten.shape
  have hkept : Kept fs fs' := ⟨hs, fun i b hi _ hclear => by rwa [(hwritten.sameBitmaps ho.geometry ho.group).bit hi] at hclear⟩
  refine ⟨fs', hrun, hkept, h.kept ho.geometry hkept, hwritten.storedInode h.image, fun x hx => ?_⟩
  obtain ⟨hph, -, -, hinode⟩ := h.pointer ho hx
  rw [fileByte_direct fs inode hx, fileByte_direct fs' inode (by rwa [hs.blockSize]), hs.blockSize, hs.physical, hph,
    hwritten.disk _ hinode]

end OmegaOS
