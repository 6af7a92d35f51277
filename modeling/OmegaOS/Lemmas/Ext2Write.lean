import OmegaOS.Lemmas.Ext2Direct

/-!
# `ext2_write` in the direct blocks

The rounds of `ext2_write` together: each block of the range is replaced by its part of the spliced file. No round fails when the drive
reads every block and the allocator has a block for each that the file is short of.
-/

namespace OmegaOS

open ByteMem Splice Ext2

variable {k last : Nat}

variable {fs fs' : Ext2} {ino : Nat} {inode inode' : Mem} {data : Nat → Prop} {offset n b : Nat}

/-! ## The image that a round writes -/

section

variable (hsize : 0 < fs.blockSize) (hfits : offset + n < 2 ^ 32)

include hfits

theorem endBlock_eq : fs.endBlock offset n = (offset + n) / fs.blockSize := by
  rw [endBlock, Nat.mod_eq_of_lt (show offset + n < 2 ^ 64 by omega)]
  exact Nat.mod_eq_of_lt (Nat.lt_of_le_of_lt (Nat.div_le_self _ _) hfits)

theorem remainingBytes_eq : fs.remainingBytes offset n = (offset + n) % fs.blockSize := by
  rw [remainingBytes, Nat.mod_eq_of_lt (show offset + n < 2 ^ 64 by omega)]

include hsize

theorem intrnCount_eq : fs.intrnCount offset n = min n (fs.blockSize - offset % fs.blockSize) := by
  have hmod := Nat.mod_lt offset hsize
  have hle := Nat.mod_le offset fs.blockSize
  rw [intrnCount, Nat.mod_eq_of_lt (by omega), Nat.mod_eq_of_lt (show n < 2 ^ 32 by omega)]
  split <;> omega

end

theorem fileByte_block (fs : Ext2) (inode : Mem) (b : Nat) (ho : o < fs.blockSize) :
    fs.fileByte inode (b * fs.blockSize + o) = fs.disk (fs.physical (fs.getRealBlock inode b)) o := by
  have hdiv : (b * fs.blockSize + o) / fs.blockSize = b := by
    rw [mul_comm, Nat.mul_add_div (by omega), Nat.div_eq_of_lt ho, add_zero]
  rw [fileByte, hdiv, mul_comm, Nat.mul_add_mod, Nat.mod_eq_of_lt ho]

/-- A round writes to its block what the spliced file has there. -/
theorem blockImage_spec (inode : Mem) (hsize : 0 < fs.blockSize) (hfits : offset + n < 2 ^ 32) (buffer : Mem) (hstart : offset / fs.blockSize ≤ b)
    (hend : b ≤ (offset + n) / fs.blockSize) :
    (fs.blockImage inode offset n buffer (before fs.blockSize offset n b) b = none ∧ fs.readInodeBlock inode b = none) ∨
      ∃ image, fs.blockImage inode offset n buffer (before fs.blockSize offset n b) b =
          some (image, before fs.blockSize offset n (b + 1) - before fs.blockSize offset n b) ∧
        ∀ o < fs.blockSize, image o = splice (fs.fileByte inode) buffer offset n (b * fs.blockSize + o) := by
  have hread : fs.readInodeBlock inode b = none ∨ fs.readInodeBlock inode b = some (fs.disk (fs.physical (fs.getRealBlock inode b))) := by
    rw [readInodeBlock, readBlock]
    split
    · exact .inr rfl
    · exact .inl rfl
  rw [blockImage, intrnCount_eq hsize hfits, endBlock_eq hfits, remainingBytes_eq hfits]
  by_cases hfirst : b = offset / fs.blockSize
  · rw [if_pos hfirst]
    rcases hread with hread | hread
    · exact .inl ⟨by rw [hread]; rfl, hread⟩
    · rw [hread]
      refine .inr ⟨copy (fs.disk (fs.physical (fs.getRealBlock inode b))) (offset % fs.blockSize) buffer 0
        (min n (fs.blockSize - offset % fs.blockSize)), ?_, fun o ho => ?_⟩
      · rw [hfirst, before_first hsize, before_start hsize]
        rfl
      · rw [hfirst, splice_first _ _ hsize ho, fileByte_block fs inode _ ho, copy, zero_add]
  · rw [if_neg hfirst]
    by_cases hlast : b = (offset + n) / fs.blockSize
    · rw [if_pos hlast]
      rcases hread with hread | hread
      · exact .inl ⟨by rw [hread]; rfl, hread⟩
      · have hlt : offset / fs.blockSize < (offset + n) / fs.blockSize := by omega
        have hlo := block_le hsize hlt
        obtain ⟨hpos, -⟩ := position hsize (offset + n)
        have hcount : (offset + n) % fs.blockSize = before fs.blockSize offset n (b + 1) - before fs.blockSize offset n b := by
          rw [before_all hsize (by omega), hlast, before_later hsize hlt .refl]
          omega
        rw [hread]
        refine .inr ⟨copy (fs.disk (fs.physical (fs.getRealBlock inode b))) 0 buffer (before fs.blockSize offset n b)
          ((offset + n) % fs.blockSize), ?_, fun o ho => ?_⟩
        · rw [← hcount]
          rfl
        · rw [hlast, splice_last _ _ hsize hlt, fileByte_block fs inode _ ho, copy, Nat.sub_zero, zero_add]
          simp only [Nat.zero_le, true_and]
    · rw [if_neg hlast]
      have hlt : offset / fs.blockSize < b := by omega
      have hlt' : b < (offset + n) / fs.blockSize := by omega
      refine .inr ⟨fun x => buffer (before fs.blockSize offset n b + x), ?_, fun o ho => (splice_middle _ _ hsize hlt hlt' ho).symm⟩
      have hlo := block_le hsize hlt
      rw [before_later hsize (show offset / fs.blockSize < b + 1 by omega) hlt', before_later hsize hlt hend, Nat.add_mul, one_mul,
        show b * fs.blockSize + fs.blockSize - offset - (b * fs.blockSize - offset) = fs.blockSize by omega]

/-! ## Rounds that do not fail -/

theorem sector2Block_mod (fs : Ext2) (s : Nat) : fs.sector2Block (s % 2 ^ 32) = fs.sector2Block s := by
  rw [sector2Block, Nat.mod_add_mod, sector2Block]

theorem sector2Block_add_mul (g : Geometry fs) (h : (fs.sector2Block s + k + 1) * fs.blockSize ≤ 2 ^ 32) :
    fs.sector2Block ((s + fs.sectorsPerBlock * k) % 2 ^ 32) = fs.sector2Block s + k := by
  induction k with
  | zero => exact sector2Block_mod fs s
  | succ k ih =>
    have hprev := ih (Nat.le_trans (Nat.mul_le_mul_right _ (by omega)) h)
    rw [Nat.mul_succ, ← add_assoc, ← Nat.mod_add_mod, sector2Block_add g (by rwa [hprev]), hprev, add_assoc]

theorem Grown.sector2Block (h : Grown fs inode ino k ns data fs' inode') (g : Geometry fs)
    (hfits : ns.length ≠ 0 → (fs.sector2Block (iSectors inode) + ns.length + 1) * fs.blockSize ≤ 2 ^ 32) :
    fs'.sector2Block (iSectors inode') = fs.sector2Block (iSectors inode) + ns.length := by
  rw [h.shape.sector2Block, h.sectors]
  by_cases hnil : ns.length = 0
  · rw [hnil]
    exact sector2Block_mod fs _
  · exact sector2Block_add_mul g (hfits hnil)

/-- A direct block that is not one of the block bitmaps. -/
def PointersApart (fs : Ext2) (inode : Mem) : Prop :=
  ∀ k < ndirBlocks, ∀ i < fs.groupCount, fs.bitmapBlock .blocks i ≠ fs.physical (iBlock inode k)

/-- The allocator has the blocks that a file is short of up to block `last`, which is a direct one. -/
structure Growable (fs : Ext2) (inode : Mem) (ino last : Nat) : Prop where
  working : Working fs
  free : FreeOk fs
  group : fs.inodeGroup ino < fs.groupCount
  image : IsImage fs inode
  apart : PointersApart fs inode
  direct : last < ndirBlocks
  room : Room fs (last + 1 - fs.sector2Block (iSectors inode))

theorem Grown.pointersApart (h : Grown fs inode ino k ns data fs' inode') (g : Geometry fs) (hfree : FreeOk fs)
    (hapart : PointersApart fs inode) : PointersApart fs' inode' := by
  intro x hx i hi
  have hs := h.shape
  rw [h.pointers x, hs.bitmapBlock]
  split
  · rename_i hnew
    have hlen : x - k < ns.length := by omega
    have hused : UsedBlock fs' (ns.getD (x - k) 0) := by
      rw [List.getD_eq_getElem _ _ hlen]
      exact h.used hfree (List.getElem_mem hlen)
    rw [hused.physical (g.congr hs), ← hs.bitmapBlock]
    exact hused.2 (.bitmap .blocks i) hi
  · rw [hs.physical]
    exact hapart x hx i (by rwa [← hs.groupCount])

/-- The blocks that the file is short of are allocated, and what is left is enough for the rest. -/
theorem Growable.growTo (h : Growable fs inode ino last) (hb : b ≤ last) :
    ∃ fs' inode', fs.growTo inode ino b (fs.bitCount + 1) = (true, inode', fs') ∧ Growable fs' inode' ino last := by
  have g := h.working.geometry
  obtain ⟨hlo, hhi, -, -⟩ := g.blockSize_bounds
  have hdirect : last < 12 := h.direct
  have hbits : 8 * fs.blockSize ≤ fs.bitCount := Nat.le_mul_of_pos_left _ (Nat.zero_lt_of_lt h.group)
  have hfits : ∀ m ≤ 14, m * fs.blockSize ≤ 2 ^ 32 := fun m hm => Nat.le_trans (Nat.mul_le_mul hm hhi) (by decide)
  have hlimit : 12 ≤ fs.mapLimit := by
    rw [mapLimit, add_assoc, add_assoc]
    exact Nat.le_add_right _ _
  obtain ⟨ns, fs', inode', hrun, hlen, hgrown⟩ := h.working.growTo h.free h.group h.image (fun _ => False)
    (by omega) (hfits (b + 2) (by omega)) (h.room.le (by omega))
    (show b + 1 - fs.sector2Block (iSectors inode) < fs.bitCount + 1 by omega)
  have hs := hgrown.shape
  have hsectors := hgrown.sector2Block g fun hne => hfits _ (by omega)
  refine ⟨fs', inode', hrun, h.working.congr hs, hgrown.freeOk h.free, ?_, hs.isImage hgrown.image,
    hgrown.pointersApart g h.free h.apart, h.direct, hgrown.room _ ?_⟩
  · rw [hs.inodeGroup, hs.groupCount]
    exact h.group
  · rw [hsectors, show ns.length + (last + 1 - (fs.sector2Block (iSectors inode) + ns.length)) =
      last + 1 - fs.sector2Block (iSectors inode) by omega]
    exact h.room

theorem Growable.writeBlock (h : Growable fs inode ino last) (hb : b ≤ last) (buffer : Mem) :
    Growable (fs.writeBlock (iBlock inode b) buffer) inode ino last := by
  have hs := SameShape.writeBlock fs (iBlock inode b) buffer
  have hbm : SameBitmaps fs (fs.writeBlock (iBlock inode b) buffer) :=
    ⟨hs, rfl, fun i hi => disk_writeBlock_ne fs _ buffer (h.apart b (Nat.lt_of_le_of_lt hb h.direct) i hi)⟩
  exact ⟨h.working.congr hs, h.free.mono hs fun i c hi _ hclear => by rwa [hbm.bit hi] at hclear, h.group, h.image, h.apart, h.direct,
    hbm.room h.working.geometry h.room⟩

/-- What the rounds up to block `last` need: the drive reads every block, and the inode has the blocks or can get them. -/
structure WriteReady (fs : Ext2) (inode : Mem) (ino last : Nat) : Prop where
  readable : ∀ q, fs.readable q = true
  blocks : last < fs.sector2Block (iSectors inode) ∨ Growable fs inode ino last

section

variable (h : WriteReady fs inode ino last)

include h

theorem WriteReady.readBlock (block : Nat) : fs.readBlock block = some (fs.disk (fs.physical block)) := by
  rw [Ext2.readBlock, if_pos (h.readable _)]

theorem WriteReady.writeInodeBlock (hb : b ≤ last) (buffer : Mem) :
    ∃ fs' inode', fs.writeInodeBlock inode ino b buffer = (true, inode', fs') ∧ WriteReady fs' inode' ino last := by
  rw [Ext2.writeInodeBlock]
  rcases h.blocks with hblocks | hgrow
  · rw [growTo_stop (Nat.lt_of_le_of_lt hb hblocks)]
    exact ⟨_, inode, rfl, h.readable, .inl hblocks⟩
  · obtain ⟨fs', inode', hrun, hgrow'⟩ := hgrow.growTo hb
    have hwritten := hgrow'.writeBlock hb buffer
    rw [hrun]
    dsimp only
    rw [Ext2.getRealBlock, if_pos (Nat.lt_of_le_of_lt hb hgrow'.direct)]
    exact ⟨_, inode', rfl, hwritten.working.readable, .inr hwritten⟩

theorem WriteReady.blockImage (offset size : Nat) (buffer : Mem) (written block : Nat) :
    ∃ image count, fs.blockImage inode offset size buffer written block = some (image, count) := by
  rw [Ext2.blockImage, Ext2.readInodeBlock, h.readBlock]
  split
  · exact ⟨_, _, rfl⟩
  · split
    · exact ⟨_, _, rfl⟩
    · exact ⟨_, _, rfl⟩

theorem WriteReady.writeLoop (offset size : Nat) (buffer : Mem) (written block : Nat) (hlast : fuel ≤ last + 1 - block) :
    ∃ inode' written' fs', fs.writeLoop inode ino offset size buffer written block fuel = (true, inode', written', fs') := by
  induction fuel generalizing fs inode written block with
  | zero => exact ⟨inode, written, fs, rfl⟩
  | succ fuel ih =>
    obtain ⟨image, count, himage⟩ := h.blockImage offset size buffer written block
    obtain ⟨fs1, inode1, hround, h1⟩ := h.writeInodeBlock (show block ≤ last by omega) image
    rw [writeLoop, himage]
    dsimp only
    rw [hround]
    exact ih h1 (written + count) (block + 1) (by omega)

end

end OmegaOS
