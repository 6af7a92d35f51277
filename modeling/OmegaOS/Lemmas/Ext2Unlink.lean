import OmegaOS.Lemmas.Ext2Create
import OmegaOS.Lemmas.Ext2Ledger
import OmegaOS.Lemmas.Ext2Release
import OmegaOS.Lemmas.Ext2Remove

/-!
# Taking an entry out of a directory

What `deleteInodeFromDir` returns and writes, for a well-formed directory. It never gets behind the first block.
-/

namespace OmegaOS

open ByteMem CStr Ext2

variable {fs fs' : Ext2} {ino d o : Nat} {name : Str} {pre post : List Nat} {image : Mem}

/-! ## The first block -/

def Ext2.firstBlock (fs : Ext2) (ino : Nat) : Mem := fs.dirBlock (fs.storedInode ino) 0

/-- The offsets of the records of the first block. -/
def Ext2.firstRecords (fs : Ext2) (ino : Nat) : List Nat := recordsFrom fs.blockSize (fs.firstBlock ino) fs.blockSize 0

/-- The entries of the blocks behind the first one. -/
def Ext2.laterEntries (fs : Ext2) (ino : Nat) : List (Str × Nat) :=
  (List.range' 1 (fs.dirCount ino - 1)).flatMap fun k => blockEntries fs.blockSize (fs.dirBlock (fs.storedInode ino) k)

theorem dirEntries_first (hn : 0 < fs.dirCount ino) :
    fs.dirEntries (fs.storedInode ino) = blockEntries fs.blockSize (fs.firstBlock ino) ++ fs.laterEntries ino := by
  obtain ⟨k, hk⟩ := Nat.exists_eq_add_one_of_ne_zero (Nat.ne_of_gt hn)
  have hcount : iSize (fs.storedInode ino) / fs.blockSize = k + 1 := hk
  rw [dirEntries, hcount, List.range_eq_range', List.range'_succ, List.flatMap_cons, laterEntries, hk, Nat.add_sub_cancel]
  rfl

theorem dirEntries_empty (hn : fs.dirCount ino = 0) : fs.dirEntries (fs.storedInode ino) = [] := by
  have hcount : iSize (fs.storedInode ino) / fs.blockSize = 0 := hn
  rw [dirEntries, hcount]
  rfl

theorem WellFormedDir.firstTiles (h : WellFormedDir fs ino) (hn : 0 < fs.dirCount ino) :
    Tiles (fs.firstBlock ino) fs.blockSize 0 (fs.firstRecords ino) := h.tiled 0 hn

section

variable (h : WellFormedDir fs ino) (g : Geometry fs) (hn : 0 < fs.dirCount ino)
  (hfs' : fs' = fs.writeBlock (iBlock (fs.storedInode ino) 0) image)

include h g hn hfs'

/-- The first block is written: what is in the other blocks stays. -/
theorem WellFormedDir.writeFirst :
    DirKept fs fs' ino 0 ∧ DirShape fs' ino (fs.dirCount ino) ∧ (∀ x < fs.blockSize, fs'.firstBlock ino x = image x) ∧
      (∀ k, 0 < k → k < fs.dirCount ino → fs'.dirBlock (fs'.storedInode ino) k = fs.dirBlock (fs.storedInode ino) k) ∧
      fs'.laterEntries ino = fs.laterEntries ino := by
  have hused := h.dirShape.used 0 hn
  have hkept : DirKept fs fs' ino 0 := hfs' ▸ g.dirKept_writeBlock h.dirShape.exists_ hused image fun j hj => absurd hj (Nat.not_lt_zero j)
  have hshape := h.dirShape.kept g hkept
  have g' := g.congr hkept.kept.shape
  have hlater : ∀ k, 0 < k → k < fs.dirCount ino → fs'.dirBlock (fs'.storedInode ino) k = fs.dirBlock (fs.storedInode ino) k := by
    intro k hk hlt
    rw [hshape.dirBlock g' hlt, h.dirShape.dirBlock g hlt, hkept.stored, hfs']
    refine disk_writeBlock_ne fs _ image fun he => ?_
    rw [hused.physical g] at he
    have := h.dirShape.distinct k 0 hlt hn he
    omega
  refine ⟨hkept, hshape, fun x hx => ?_, hlater, ?_⟩
  · rw [firstBlock, hshape.dirBlock g' hn, hkept.stored, hfs']
    exact disk_writeBlock_inside fs (hused.physical g) image hx
  · rw [laterEntries, laterEntries, hkept.dirCount, hkept.kept.shape.blockSize]
    refine List.flatMap_congr fun k hk => ?_
    obtain ⟨hlo, hhi⟩ := List.mem_range'_1.mp hk
    rw [hlater k (by omega) (by omega)]

/-- The directory is well formed when the new contents of its first block are. -/
theorem WellFormedDir.replaceFirst : (WellFormedDir fs' ino ↔ Tiled fs.blockSize image) ∧ (Tiled fs.blockSize image →
        fs'.dirEntries (fs'.storedInode ino) = blockEntries fs.blockSize image ++ fs.laterEntries ino) := by
  obtain ⟨hkept, hshape, hfirst, hlater, hentries⟩ := h.writeFirst g hn hfs'
  have hbs := hkept.kept.shape.blockSize
  have hcount := hkept.dirCount
  refine ⟨⟨fun hdir => ?_, fun himage => ⟨by rwa [hcount], fun k hk => ?_⟩⟩, fun himage => ?_⟩
  · have htiled : Tiled fs'.blockSize (fs'.firstBlock ino) := hdir.firstTiles (by rwa [hcount])
    rw [hbs] at htiled
    exact (htiled.congr fun x hx => (hfirst x hx).symm).1
  · replace hk : k < fs.dirCount ino := hcount ▸ hk
    rw [hbs]
    by_cases h0 : k = 0
    · subst h0
      exact (himage.congr hfirst).1
    · rw [hlater k (by omega) hk]
      exact h.tiled k hk
  · rw [dirEntries_first (by rwa [hcount]), hentries, hbs, blockEntries_eq, (himage.congr hfirst).2, ← blockEntries_eq]

end

/-! ## The search -/

/-- A name to delete from a well-formed directory, while reads and allocations succeed. -/
structure DeleteCall (fs : Ext2) (ino : Nat) (name : Str) : Prop where
  working : Working fs
  dir : WellFormedDir fs ino
  noNul : NoNul name
  notDot : ¬ (name = Ext2.pathCurrDir ∨ name = Ext2.pathUpDir)

section

variable (h : DeleteCall fs ino name)

include h

theorem DeleteCall.empty (hn : fs.dirCount ino = 0) : fs.deleteInodeFromDir (fs.storedInode ino) ino name = .error .nullAccess := by
  have hcount : iSize (fs.storedInode ino) / fs.blockSize = 0 := hn
  rw [deleteInodeFromDir, if_neg h.notDot, h.working.heapOk, if_pos hcount]
  rfl

section

variable (hn : 0 < fs.dirCount ino)

include hn

theorem DeleteCall.absent (hnot : ∀ o ∈ fs.firstRecords ino, recName (fs.firstBlock ino) o ≠ name) :
    fs.deleteInodeFromDir (fs.storedInode ino) ino name = .ok (enoent, 0, fs) := by
  have hcount : iSize (fs.storedInode ino) / fs.blockSize ≠ 0 := Nat.ne_of_gt hn
  obtain ⟨hlo, -⟩ := h.working.geometry.blockSize_bounds
  have hfind := findWithPrev_none (h.dir.firstTiles hn) (by omega) h.noNul (show fs.blockSize ≤ 0 + fs.blockSize by omega) hnot none
  rw [deleteInodeFromDir, if_neg h.notDot, h.working.heapOk, if_neg hcount, readInodeBlock_dirBlock h.working.readable]
  dsimp only
  rw [← firstBlock, hfind]
  rfl

theorem DeleteCall.found (hsplit : fs.firstRecords ino = pre ++ d :: post)
    (hnot : ∀ o ∈ pre, recName (fs.firstBlock ino) o ≠ name) (hhit : recName (fs.firstBlock ino) d = name) :
    fs.deleteInodeFromDir (fs.storedInode ino) ino name =
      (fs.deleteRecord (fs.storedInode ino) ino (fs.firstBlock ino) pre.getLast? d).map fun r => (r.1, dirInode (fs.firstBlock ino) d, r.2) := by
  have hcount : iSize (fs.storedInode ino) / fs.blockSize ≠ 0 := Nat.ne_of_gt hn
  have htiles := h.dir.firstTiles hn
  rw [hsplit] at htiles
  have hfind := findWithPrev_some htiles h.noNul (show fs.blockSize ≤ 0 + fs.blockSize by omega) hnot hhit none
  rw [Option.or_none] at hfind
  rw [deleteInodeFromDir, if_neg h.notDot, h.working.heapOk, if_neg hcount, readInodeBlock_dirBlock h.working.readable]
  dsimp only
  rw [← firstBlock, hfind]
  simp only [Bool.not_true, Bool.false_eq_true, if_false, bind, Except.bind, pure, Except.pure]
  cases fs.deleteRecord (fs.storedInode ino) ino (fs.firstBlock ino) pre.getLast? d <;> rfl

/-! ## The record -/

theorem DeleteCall.deleteLast (hsplit : fs.firstRecords ino = pre ++ [o, d]) :
    fs.deleteRecord (fs.storedInode ino) ino (fs.firstBlock ino) (some o) d = .ok (enoer, fs.writeBlock (iBlock (fs.storedInode ino) 0)
        (setRecLen (fs.firstBlock ino) o (recLen (fs.firstBlock ino) o + recLen (fs.firstBlock ino) d))) := by
  have htiles := h.dir.firstTiles hn
  rw [hsplit] at htiles
  obtain ⟨_, -, rfl, hok, rfl, -, hend⟩ := tiles_append.mp htiles
  have hpos := hok.recLen_pos
  rw [deleteRecord, if_neg (by omega), if_pos (Nat.le_of_eq hend.symm), h.dir.dirShape.writeInodeBlock h.working.geometry hn]
  rfl

theorem DeleteCall.deleteMiddle (hd : d + recLen (fs.firstBlock ino) d < fs.blockSize)
    (hwalk : Ext2.findShifted fs.blockSize (removed fs.blockSize (fs.firstBlock ino) d) fs.blockSize (d + recLen (fs.firstBlock ino) d) 0 =
      .ok o) (prev : Option Nat) : fs.deleteRecord (fs.storedInode ino) ino (fs.firstBlock ino) prev d =
      .ok (enoer, fs.writeBlock (iBlock (fs.storedInode ino) 0) (closed fs.blockSize (fs.firstBlock ino) d o)) := by
  unfold deleteRecord
  rw [if_neg (by omega), if_neg (by omega)]
  dsimp only
  rw [← removed, hwalk]
  simp only [bind, Except.bind, pure, Except.pure]
  rw [h.dir.dirShape.writeInodeBlock h.working.geometry hn]
  rfl

end

end

/-- The inode of a directory with one block less. -/
def shrunkInode (fs : Ext2) (inode : Mem) : Mem :=
  let inode := setISectors inode ((iSectors inode + (2 ^ 32 - fs.sectorsPerBlock)) % 2 ^ 32)
  setISize inode ((iSize inode + (2 ^ 32 - fs.blockSize)) % 2 ^ 32)

/-- The first block is given back and its contents stay where they are. -/
structure BlockDropped (fs fs' : Ext2) (ino : Nat) : Prop where
  shape : SameShape fs fs'
  stored : fs'.storedInode ino = shrunkInode fs (fs.storedInode ino)
  inodes : ∀ n, fs.InodeExists n → Ext2.inodeNumber n ≠ Ext2.inodeNumber ino → fs'.storedInode n = fs.storedInode n
  inodeBits : ∀ i b, i < fs.groupCount → b < 8 * fs.blockSize → fs'.bit .inodes i b = fs.bit .inodes i b
  disk : ∀ q, OffBitmaps fs q → q ≠ fs.inodeBlock ino → fs'.disk q = fs.disk q

theorem BitReleased.storedInode {pool : Pool} (h : BitReleased fs fs' pool j b) (g : Geometry fs) (hn : fs.InodeExists n) :
    fs'.storedInode n = fs.storedInode n :=
  storedInode_congr h.shape (h.disk _ (g.inodeBlock_ne_bitmap hn pool h.group) (g.inodeBlock_ne_descriptors hn))

/-- The only record of the first block goes with the block, if the number of the block has a group for the driver. -/
theorem DeleteCall.deleteOnly (h : DeleteCall fs ino name) (hn : 0 < fs.dirCount ino)
    (hlen : recLen (fs.firstBlock ino) 0 = fs.blockSize) (prev : Option Nat) :
    (fs.groupCount ≤ iBlock (fs.storedInode ino) 0 / fs.superBlock.blocksPerGroup ∧
        fs.deleteRecord (fs.storedInode ino) ino (fs.firstBlock ino) prev 0 = .ok (eperm, fs)) ∨
      iBlock (fs.storedInode ino) 0 / fs.superBlock.blocksPerGroup < fs.groupCount ∧
        ∃ fs', fs.deleteRecord (fs.storedInode ino) ino (fs.firstBlock ino) prev 0 = .ok (enoer, fs') ∧ BlockDropped fs fs' ino := by
  have g := h.working.geometry
  have hexists := h.dir.dirShape.exists_
  have hne : iBlock (fs.storedInode ino) 0 ≠ 0 := by
    obtain ⟨⟨i, b, -, -, -, heq⟩, -⟩ := h.dir.dirShape.used 0 hn
    rw [heq]
    exact Nat.succ_ne_zero _
  have hreal : fs.getRealBlock (fs.storedInode ino) 0 = iBlock (fs.storedInode ino) 0 := getRealBlock_direct fs _ (by decide)
  unfold deleteRecord
  rw [if_pos ⟨rfl, Nat.le_of_eq hlen.symm⟩, hreal]
  rcases Nat.lt_or_ge (iBlock (fs.storedInode ino) 0 / fs.superBlock.blocksPerGroup) fs.groupCount with hgroup | hgroup
  · obtain ⟨fs1, heq, hreleased⟩ := deleteBlockBuffer_released g.bitmapLayout hne hgroup (h.working.readable _)
    have hs := hreleased.shape
    have hw1 := h.working.congr hs
    have hexists1 : fs1.InodeExists ino := (hs.inodeExists ino).mpr hexists
    obtain ⟨fs2, hwrite, hwritten⟩ := (hw1.opened hexists1).writeInode (shrunkInode fs (fs.storedInode ino))
    refine .inr ⟨hgroup, fs2, ?_, hs.trans hwritten.shape, ?_, fun n hn hother => ?_, fun i b hi hb => ?_, fun q hq hblock => ?_⟩
    · rw [heq]
      dsimp only
      rw [if_neg (by simp), hs.sectorsPerBlock, hs.blockSize]
      exact congrArg (fun r : Bool × Ext2 => Except.ok (enoerOrEio r.1, r.2)) hwrite
    · refine hwritten.storedInode (IsImage.store hw1.geometry (IsImage.store hw1.geometry ?_ _ (by omega)) _ (by omega))
      exact hs.isImage (isImage_storedInode fs ino)
    · rw [hwritten.storedInode_other hw1.geometry hexists1 ((hs.inodeExists n).mpr hn) hother, hreleased.storedInode g hn]
    · rw [hwritten.bit hw1.geometry hexists1 .inodes (by rwa [hs.groupCount]), (hreleased.samePool (by decide)).bits i b hi hb]
    · rw [hwritten.disk q (by rwa [hs.inodeBlock]), hreleased.disk q (hq.2 .blocks _ hreleased.group) hq.1]
  · rw [deleteBlockBuffer_eperm hne hgroup]
    dsimp only
    rw [if_pos (by decide)]
    exact .inl ⟨hgroup, rfl⟩

section

variable {n : Nat}

theorem DirShape.shrunk (h : DirShape fs ino (n + 1)) (g : Geometry fs) :
    iSize (shrunkInode fs (fs.storedInode ino)) = fs.blockSize * n ∧ iSectors (shrunkInode fs (fs.storedInode ino)) = fs.sectorsPerBlock * n ∧
      iMode (shrunkInode fs (fs.storedInode ino)) = iMode (fs.storedInode ino) ∧
      ∀ k, iBlock (shrunkInode fs (fs.storedInode ino)) k = iBlock (fs.storedInode ino) k := by
  obtain ⟨hlo, hhi, hspb, hpos⟩ := g.blockSize_bounds
  have hn : n + 1 ≤ 12 := h.count
  have hbs := Nat.mul_le_mul hhi hn
  have hsp : fs.sectorsPerBlock * (n + 1) ≤ 128 * 12 := Nat.mul_le_mul (by omega) hn
  rw [Nat.mul_succ] at hbs hsp
  unfold shrunkInode
  refine ⟨?_, ?_, by simp, by simp⟩
  · rw [iSize_setISize _ (Nat.mod_lt _ (by decide)), iSize_setISectors, h.size, Nat.mul_succ]
    omega
  · rw [iSectors_setISize, iSectors_setISectors _ (Nat.mod_lt _ (by decide)), h.sectors, Nat.mul_succ]
    omega

section

variable (hd : BlockDropped fs fs' ino)

include hd

theorem BlockDropped.dirCount (h : DirShape fs ino (n + 1)) (g : Geometry fs) : fs'.dirCount ino = n := by
  obtain ⟨hlo, -⟩ := g.blockSize_bounds
  rw [Ext2.dirCount, hd.stored, (h.shrunk g).1, hd.shape.blockSize, Nat.mul_div_cancel_left _ (by omega)]

theorem BlockDropped.firstBlock (h : DirShape fs ino (n + 1)) (g : Geometry fs) : fs'.firstBlock ino = fs.firstBlock ino := by
  have hused := h.used 0 (Nat.succ_pos n)
  have hblock : iBlock (fs'.storedInode ino) 0 = iBlock (fs.storedInode ino) 0 := by rw [hd.stored, (h.shrunk g).2.2.2]
  rw [Ext2.firstBlock, Ext2.firstBlock, Ext2.dirBlock, Ext2.dirBlock, getRealBlock_direct _ _ (by decide), getRealBlock_direct _ _ (by decide),
    hblock, hd.shape.physical, hused.physical g, hd.disk _ hused.offBitmaps (g.used_ne_inodeBlock h.exists_ hused)]

/-- A directory that had one block has none, and no entries. -/
theorem BlockDropped.emptied (h : DirShape fs ino 1) (g : Geometry fs) :
    WellFormedDir fs' ino ∧ fs'.dirEntries (fs'.storedInode ino) = [] := by
  have hs := hd.shape
  have hcount : fs'.dirCount ino = 0 := hd.dirCount h g
  obtain ⟨hsize, hsectors, hmode, -⟩ := h.shrunk g
  have hindex : fs.inodeIndex ino < 8 * fs.blockSize := Nat.lt_of_lt_of_le (Nat.mod_lt _ g.inodesPerGroup.1) g.inodesPerGroup.2
  refine ⟨⟨⟨(hs.inodeExists ino).mpr h.exists_, ?_, ?_, ?_, ?_, ?_, ?_, ?_⟩, fun k hk => ?_⟩, dirEntries_empty hcount⟩
  · rw [hs.inodeGroup, hs.inodeIndex, hd.inodeBits _ _ h.exists_ hindex]
    exact h.inUse
  · rw [hd.stored, inodeDir_congr hmode]
    exact h.isDir
  · rw [hd.stored, hsize, hcount, hs.blockSize]
  · rw [hd.stored, hsectors, hcount, hs.sectorsPerBlock]
  · rw [hcount]
    exact Nat.zero_le _
  · intro k hk
    omega
  · intro i j hi
    omega
  · replace hk : k < fs'.dirCount ino := hk
    omega

end

end

end OmegaOS
