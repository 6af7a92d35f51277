import OmegaOS.Lemmas.Ext2Dir

/-!
# Adding an entry to a directory

What `insertInodeInDir` does to a well-formed directory: one entry more behind the others, in the last block or in a new one.
-/

namespace OmegaOS

open ByteMem CStr List Ext2

variable {inode' : Mem} {b i j newIno p m : Nat} {data : Nat → Prop} {ns : List Nat} {fs1 : Ext2}

variable {fs fs' : Ext2} {ino n k : Nat} {inode : Mem} {name : Str}

/-! ## Well-formed directories -/

/-- An inode in use that is a directory of `n` direct blocks, which are its own. -/
structure DirShape (fs : Ext2) (ino n : Nat) : Prop where
  exists_ : fs.InodeExists ino
  inUse : fs.bit .inodes (fs.inodeGroup ino) (fs.inodeIndex ino) = true
  isDir : inodeDir (fs.storedInode ino) = true
  size : iSize (fs.storedInode ino) = fs.blockSize * n
  sectors : iSectors (fs.storedInode ino) = fs.sectorsPerBlock * n
  count : n ≤ ndirBlocks
  used : ∀ j < n, UsedBlock fs (iBlock (fs.storedInode ino) j)
  distinct : ∀ i j, i < n → j < n → iBlock (fs.storedInode ino) i = iBlock (fs.storedInode ino) j → i = j

/-- How many blocks a directory has. -/
def Ext2.dirCount (fs : Ext2) (ino : Nat) : Nat := iSize (fs.storedInode ino) / fs.blockSize

/-- A directory whose blocks are tiled by records. -/
structure WellFormedDir (fs : Ext2) (ino : Nat) : Prop where
  dirShape : DirShape fs ino (fs.dirCount ino)
  tiled : TiledDir fs (fs.storedInode ino)

/-- The size of the inode counts the directory's blocks. -/
theorem DirShape.dirCount (h : DirShape fs ino n) (g : Geometry fs) : fs.dirCount ino = n := by
  obtain ⟨hbs, -⟩ := g.blockSize_bounds
  rw [Ext2.dirCount, h.size, Nat.mul_div_cancel_left _ (by omega)]

/-- The sectors of some blocks reach the last one and no further. -/
theorem Geometry.sector2Block_mul (g : Geometry fs) (hn : n ≤ ndirBlocks + 1) : fs.sector2Block (fs.sectorsPerBlock * n) = n := by
  obtain ⟨hlo, hhi, hspb, -⟩ := g.blockSize_bounds
  have hmul : fs.sectorsPerBlock * n ≤ 128 * 13 := Nat.mul_le_mul (by omega) hn
  rw [sector2Block, ataSectorSize, Nat.mod_eq_of_lt (by omega), Nat.mod_eq_of_lt (by omega), Nat.add_mul,
    mul_comm, ← mul_assoc, ← hspb, add_comm, Nat.add_mul_div_left _ _ (by omega), Nat.div_eq_of_lt (by omega), zero_add]

section

variable (h : DirShape fs ino n) (g : Geometry fs)

include h g

/-- So do its sectors. -/
theorem DirShape.sector2Block : fs.sector2Block (iSectors (fs.storedInode ino)) = n := by
  rw [h.sectors]
  exact g.sector2Block_mul (Nat.le_succ_of_le h.count)

/-- The pointer of a block is where the block is on the drive. -/
theorem DirShape.physical (hj : j < n) : fs.physical (fs.getRealBlock (fs.storedInode ino) j) = iBlock (fs.storedInode ino) j := by
  have hn := h.count
  rw [getRealBlock, if_pos (by omega)]
  exact (h.used j hj).physical g

theorem DirShape.dirBlock (hj : j < n) : fs.dirBlock (fs.storedInode ino) j = fs.disk (iBlock (fs.storedInode ino) j) := by
  rw [Ext2.dirBlock, h.physical g hj]

/-- The entries of the first blocks. -/
def Ext2.entriesBelow (fs : Ext2) (inode : Mem) (k : Nat) : List (Str × Nat) :=
  (List.range k).flatMap fun j => blockEntries fs.blockSize (fs.dirBlock inode j)

/-- The entries are those of the `n` blocks. -/
theorem DirShape.dirEntries : fs.dirEntries (fs.storedInode ino) = fs.entriesBelow (fs.storedInode ino) n := by
  rw [← h.dirCount g]
  rfl

end

/-- The records of the first blocks. -/
def Ext2.recordsBelow (fs : Ext2) (inode : Mem) (k : Nat) : List (Str × Nat × Nat) :=
  (List.range k).flatMap fun j => blockRecords fs.blockSize (fs.dirBlock inode j)

theorem entriesBelow_eq (fs : Ext2) (inode : Mem) (k : Nat) : fs.entriesBelow inode k = (fs.recordsBelow inode k).map untyped := by
  simp only [entriesBelow, recordsBelow, map_flatMap, blockEntries_eq]

theorem DirShape.dirRecords (h : DirShape fs ino n) (g : Geometry fs) :
    fs.dirRecords (fs.storedInode ino) = fs.recordsBelow (fs.storedInode ino) n := by
  rw [← h.dirCount g]
  rfl

theorem recordsBelow_succ (fs : Ext2) (inode : Mem) (k : Nat) :
    fs.recordsBelow inode (k + 1) = fs.recordsBelow inode k ++ blockRecords fs.blockSize (fs.dirBlock inode k) := by
  rw [recordsBelow, range_succ, flatMap_append]
  simp [recordsBelow]

/-- Blocks that hold the same have the same records. -/
theorem recordsBelow_congr (hbs : fs'.blockSize = fs.blockSize)
    (h : ∀ j < k, fs'.dirBlock inode' j = fs.dirBlock inode j) : fs'.recordsBelow inode' k = fs.recordsBelow inode k := by
  rw [recordsBelow, recordsBelow, hbs]
  refine flatMap_congr fun j hj => ?_
  rw [h j (mem_range.mp hj)]

/-! ## What leaves a directory -/

/-- A step that keeps the bits that are set, the inode and the blocks before `k`. -/
structure DirKept (fs fs' : Ext2) (ino k : Nat) : Prop where
  kept : Kept fs fs'
  inUse : fs'.bit .inodes (fs.inodeGroup ino) (fs.inodeIndex ino) = fs.bit .inodes (fs.inodeGroup ino) (fs.inodeIndex ino)
  stored : fs'.storedInode ino = fs.storedInode ino
  blocks : ∀ j < k, fs'.disk (iBlock (fs.storedInode ino) j) = fs.disk (iBlock (fs.storedInode ino) j)

theorem SameShape.inodeIndex (h : SameShape fs fs') (ino : Nat) : fs'.inodeIndex ino = fs.inodeIndex ino := by
  rw [Ext2.inodeIndex, h.superBlock]
  rfl

section

variable (h : DirShape fs ino n) (g : Geometry fs) (hk : DirKept fs fs' ino k)

include h g hk

/-- A directory that is kept has as many blocks as before. -/
theorem DirShape.kept : DirShape fs' ino n := by
  have hs := hk.kept.shape
  refine ⟨(hs.inodeExists ino).mpr h.exists_, ?_, ?_, ?_, ?_, h.count, ?_, ?_⟩
  · rw [hs.inodeGroup, hs.inodeIndex, hk.inUse]
    exact h.inUse
  · rw [hk.stored]
    exact h.isDir
  · rw [hk.stored, hs.blockSize]
    exact h.size
  · rw [hk.stored, hs.sectorsPerBlock]
    exact h.sectors
  · rw [hk.stored]
    exact fun j hj => hk.kept.used g (h.used j hj)
  · rw [hk.stored]
    exact h.distinct

/-- Its blocks hold what they held. -/
theorem DirShape.kept_dirBlock (hj : j < k) (hn : j < n) : fs'.dirBlock (fs'.storedInode ino) j = fs.dirBlock (fs.storedInode ino) j := by
  rw [(h.kept g hk).dirBlock (g.congr hk.kept.shape) hn, h.dirBlock g hn, hk.stored, hk.blocks j hj]

theorem DirShape.kept_recordsBelow (hkn : k ≤ n) : fs'.recordsBelow (fs'.storedInode ino) k = fs.recordsBelow (fs.storedInode ino) k :=
  recordsBelow_congr hk.kept.shape.blockSize fun _ hj => h.kept_dirBlock g hk hj (by omega)

end

/-- It is well formed, with the same entries. -/
theorem WellFormedDir.kept (h : WellFormedDir fs ino) (g : Geometry fs) (hk : DirKept fs fs' ino (fs.dirCount ino)) :
    WellFormedDir fs' ino ∧ fs'.dirEntries (fs'.storedInode ino) = fs.dirEntries (fs.storedInode ino) := by
  have hshape := h.dirShape.kept g hk
  have g' := g.congr hk.kept.shape
  refine ⟨⟨by rwa [hshape.dirCount g'], fun j hj => ?_⟩, ?_⟩
  · replace hj : j < fs.dirCount ino := by
      rwa [← hshape.dirCount g']
    rw [h.dirShape.kept_dirBlock g hk hj hj, hk.kept.shape.blockSize]
    exact h.tiled j hj
  · rw [hshape.dirEntries g', h.dirShape.dirEntries g, entriesBelow_eq, entriesBelow_eq, h.dirShape.kept_recordsBelow g hk .refl]

theorem DirKept.trans (h : DirKept fs fs1 ino k) (h' : DirKept fs1 fs' ino k) : DirKept fs fs' ino k := by
  have hs := h.kept.shape
  refine ⟨h.kept.trans h'.kept, ?_, h'.stored.trans h.stored, fun j hj => ?_⟩
  · rw [← h.inUse, ← hs.inodeGroup, ← hs.inodeIndex]
    exact h'.inUse
  · rw [← h.blocks j hj, ← h.stored]
    exact h'.blocks j hj

theorem DirKept.dirCount (h : DirKept fs fs' ino k) : fs'.dirCount ino = fs.dirCount ino := by
  rw [Ext2.dirCount, h.stored, h.kept.shape.blockSize]
  rfl

/-- The blocks of one directory are none of another's. -/
def BlocksApart (fs : Ext2) (ino ino₂ : Nat) : Prop :=
  ∀ j < fs.dirCount ino, ∀ k < fs.dirCount ino₂, iBlock (fs.storedInode ino) j ≠ iBlock (fs.storedInode ino₂) k

/-- Directories that are both kept still share no block. -/
theorem BlocksApart.kept {ino2 k2 : Nat} (h : BlocksApart fs ino ino2) (hk : DirKept fs fs' ino k) (hk2 : DirKept fs fs' ino2 k2) :
    BlocksApart fs' ino ino2 := by
  unfold BlocksApart
  rwa [hk.dirCount, hk2.dirCount, hk.stored, hk2.stored]

/-! ## The steps of an insertion -/

section

variable (g : Geometry fs) (hino : fs.InodeExists ino)

include g hino

/-- A block in use for data holds no inode. -/
theorem Geometry.used_ne_inodeBlock (hp : UsedBlock fs p) : p ≠ fs.inodeBlock ino := by
  obtain ⟨hvalid, heq⟩ := g.inodeBlock_number hino
  rw [heq]
  exact (hp.2 _ hvalid).symm

end

/-- Taking an inode bit keeps every directory. -/
theorem DirShape.bitTaken (h : DirShape fs ino n) (g : Geometry fs) (ht : BitTaken fs fs' .inodes j b) : DirKept fs fs' ino n := by
  have hindex : fs.inodeIndex ino < 8 * fs.blockSize := Nat.lt_of_lt_of_le (Nat.mod_lt _ g.inodesPerGroup.1) g.inodesPerGroup.2
  refine ⟨⟨ht.shape, fun i c hi hc hclear => ?_⟩, ?_, ?_, fun j' hj' => ?_⟩
  · rw [ht.bits .blocks i c hi hc] at hclear
    simpa using hclear
  · rw [ht.bits .inodes _ _ h.exists_ hindex, h.inUse, Bool.true_or]
  · exact storedInode_congr ht.shape (ht.disk _ (g.inodeBlock_ne_bitmap h.exists_ .inodes ht.group) (g.inodeBlock_ne_descriptors h.exists_))
  · obtain ⟨-, hmeta⟩ := h.used j' hj'
    exact ht.disk _ (hmeta (.bitmap .inodes j) ht.group).symm (hmeta .descriptors trivial).symm

/-- Writing an inode changes no bitmap. -/
theorem InodeWritten.bit (hw : InodeWritten fs fs' newIno inode) (g : Geometry fs) (hnew : fs.InodeExists newIno) (pool : Pool)
    (hi : i < fs.groupCount) (b : Nat) : fs'.bit pool i b = fs.bit pool i b := by
  rw [Ext2.bit, hw.shape.bitmapBlock, hw.disk _ (g.inodeBlock_ne_bitmap hnew pool hi).symm]
  rfl

/-- Writing an inode keeps the directories of other inodes. -/
theorem DirShape.inodeWritten (h : DirShape fs ino n) (g : Geometry fs) (hnew : fs.InodeExists newIno)
    (hne : Ext2.inodeNumber ino ≠ Ext2.inodeNumber newIno) (hw : InodeWritten fs fs' newIno inode) : DirKept fs fs' ino n := by
  refine ⟨⟨hw.shape, fun i b hi hb hclear => ?_⟩, hw.bit g hnew .inodes h.exists_ _, hw.storedInode_other g hnew h.exists_ hne,
    fun j hj => hw.disk _ (g.used_ne_inodeBlock hnew (h.used j hj))⟩
  rwa [hw.bit g hnew .blocks hi] at hclear

/-- Writing a block that is in use for data changes no inode. -/
theorem storedInode_writeBlock (g : Geometry fs) (hp : UsedBlock fs p) (image : Mem) (hino : fs.InodeExists ino) :
    (fs.writeBlock p image).storedInode ino = fs.storedInode ino := by
  refine storedInode_congr (SameShape.writeBlock fs p image) (disk_writeBlock_ne fs p image ?_)
  rw [hp.physical g]
  exact (g.used_ne_inodeBlock hino hp).symm

/-- Nor does it change a bitmap. -/
theorem bit_writeBlock (g : Geometry fs) (hp : UsedBlock fs p) (image : Mem) (pool : Pool) (hi : i < fs.groupCount)
    (b : Nat) : (fs.writeBlock p image).bit pool i b = fs.bit pool i b := by
  have hdisk : (fs.writeBlock p image).disk (fs.bitmapBlock pool i) = fs.disk (fs.bitmapBlock pool i) := by
    refine disk_writeBlock_ne fs p image ?_
    rw [hp.physical g]
    exact hp.2 (.bitmap pool i) hi
  show bitOf ((fs.writeBlock p image).disk (fs.bitmapBlock pool i)) b = _
  rw [hdisk]
  rfl

/-- A data block is written that is none of the first blocks. -/
theorem Geometry.dirKept_writeBlock (g : Geometry fs) (hino : fs.InodeExists ino) (hp : UsedBlock fs p) (image : Mem)
    (hne : ∀ j < k, iBlock (fs.storedInode ino) j ≠ p) : DirKept fs (fs.writeBlock p image) ino k := by
  refine ⟨⟨SameShape.writeBlock .., fun i b hi hb hclear => ?_⟩, bit_writeBlock g hp image .inodes hino _,
    storedInode_writeBlock g hp image hino, fun j hj => ?_⟩
  · rwa [bit_writeBlock g hp image .blocks hi] at hclear
  · refine disk_writeBlock_ne fs _ image ?_
    rw [hp.physical g]
    exact hne j hj

/-- Writing the last block keeps the blocks before it. -/
theorem DirShape.writeBlock (h : DirShape fs ino (k + 1)) (g : Geometry fs) (image : Mem) :
    DirKept fs (fs.writeBlock (iBlock (fs.storedInode ino) k) image) ino k :=
  g.dirKept_writeBlock h.exists_ (h.used k (Nat.lt_succ_self k)) image fun j hj he =>
    absurd (h.distinct j k (by omega) (by omega) he) (by omega)

theorem DirShape.dirCount_writeBlock (h : DirShape fs ino (k + 1)) (g : Geometry fs) (image : Mem) :
    (fs.writeBlock (iBlock (fs.storedInode ino) k) image).dirCount ino = k + 1 :=
  (h.kept g (h.writeBlock g image)).dirCount (g.congr (SameShape.writeBlock ..))

/-- The directory has one entry more, in a block of its own or in one that was free. No other directory changes. -/
structure DirExtended (fs fs' : Ext2) (ino : Nat) (e : Str × Nat) : Prop where
  kept : Kept fs fs'
  dir : WellFormedDir fs' ino
  entries : fs'.dirEntries (fs'.storedInode ino) = fs.dirEntries (fs.storedInode ino) ++ [e]
  mode : iMode (fs'.storedInode ino) = iMode (fs.storedInode ino)
  count : fs'.dirCount ino ≤ fs.dirCount ino + 1
  blocks : ∀ k < fs'.dirCount ino, (k < fs.dirCount ino ∧ iBlock (fs'.storedInode ino) k = iBlock (fs.storedInode ino) k) ∨
    FreeBlock fs (iBlock (fs'.storedInode ino) k)
  others : ∀ x, WellFormedDir fs x → Ext2.inodeNumber x ≠ Ext2.inodeNumber ino → BlocksApart fs x ino →
    DirKept fs fs' x (fs.dirCount x)

/-- What an insertion does. No other inode changes. -/
structure EntryAdded (fs fs' : Ext2) (ino : Nat) (e : Str × Nat) : Prop extends DirExtended fs fs' ino e where
  inodes : ∀ n, fs.InodeExists n → Ext2.inodeNumber n ≠ Ext2.inodeNumber ino → fs'.storedInode n = fs.storedInode n
  inodeBits : ∀ i b, i < fs.groupCount → fs'.bit .inodes i b = fs.bit .inodes i b

theorem dirEntries_append {r : Str × Nat × Nat} (h : fs'.dirRecords inode' = fs.dirRecords inode ++ [r]) :
    fs'.dirEntries inode' = fs.dirEntries inode ++ [untyped r] := by
  simp [dirEntries_eq, h]

/-- The last block is replaced by one that is tiled: the records before it stay. -/
theorem DirShape.writeLast (h : DirShape fs ino (k + 1)) (g : Geometry fs) (ht : ∀ j < k, Tiled fs.blockSize (fs.dirBlock (fs.storedInode ino) j))
    {image : Mem} (himage : Tiled fs.blockSize image) (hfs' : fs' = fs.writeBlock (iBlock (fs.storedInode ino) k) image) :
    WellFormedDir fs' ino ∧ fs'.dirRecords (fs'.storedInode ino) =
      fs.recordsBelow (fs.storedInode ino) k ++ blockRecords fs.blockSize image := by
  have hkept : DirKept fs fs' ino k := hfs' ▸ h.writeBlock g image
  have hshape := h.kept g hkept
  have hs := hkept.kept.shape
  have g' := g.congr hs
  have hlast : Tiled fs.blockSize (fs'.dirBlock (fs'.storedInode ino) k) ∧
      blockRecords fs.blockSize (fs'.dirBlock (fs'.storedInode ino) k) = blockRecords fs.blockSize image := by
    refine himage.congr fun x hx => ?_
    rw [hshape.dirBlock g' (Nat.lt_succ_self k), hkept.stored, hfs']
    exact disk_writeBlock_inside fs ((h.used k (Nat.lt_succ_self k)).physical g) image hx
  refine ⟨⟨by rwa [hshape.dirCount g'], fun j hj => ?_⟩, ?_⟩
  · replace hj : j < k + 1 := by
      rwa [← hshape.dirCount g']
    rw [hs.blockSize]
    rcases Nat.lt_succ_iff_lt_or_eq.mp hj with hlt | rfl
    · rw [h.kept_dirBlock g hkept hlt hj]
      exact ht j hlt
    · exact hlast.1
  · rw [hshape.dirRecords g', recordsBelow_succ, h.kept_recordsBelow g hkept (by omega), hs.blockSize, hlast.2]

/-! ## A new block -/

theorem inodeDir_congr {inode : Mem} (h : iMode inode' = iMode inode) : inodeDir inode' = inodeDir inode := by
  rw [inodeDir, h]
  rfl

section

variable (hg : Grown fs inode ino k ns data fs' inode') (g : Geometry fs)

include hg g

/-- Growth of an inode changes the block bitmaps, the descriptors and its own block only, of the filesystem's blocks. -/
theorem Grown.disk_meta {x : MetaBlock} (hx : x.Valid fs) (hbitmap : ∀ i, x ≠ .bitmap .blocks i) (hdesc : x ≠ .descriptors)
    (hdata : ¬ data (x.number fs)) (hblock : x.number fs ≠ fs.inodeBlock ino) : fs'.disk (x.number fs) = fs.disk (x.number fs) :=
  hg.disk _ (fun i hi he => hbitmap i (g.distinct x (.bitmap .blocks i) hx hi he))
    (fun he => hdesc (g.distinct x .descriptors hx trivial he)) hblock hdata

section

variable (hino : fs.InodeExists ino) (hdata : ∀ x : MetaBlock, x.Valid fs → ¬ data (x.number fs))

include hino hdata

/-- It takes no inode. -/
theorem Grown.inodeBit (hi : i < fs.groupCount) (b : Nat) : fs'.bit .inodes i b = fs.bit .inodes i b := by
  have hdisk : fs'.disk (fs.bitmapBlock .inodes i) = fs.disk (fs.bitmapBlock .inodes i) := by
    refine hg.disk_meta g (show (MetaBlock.bitmap .inodes i).Valid fs from hi) (fun _ he => ?_) (fun he => ?_) (hdata _ hi) ?_
    · cases he
    · cases he
    · exact (g.inodeBlock_ne_bitmap hino .inodes hi).symm
  rw [bit, hg.shape.bitmapBlock, hdisk]
  rfl

/-- The other inodes are as before. -/
theorem Grown.storedInode_other (hm : fs.InodeExists m)
    (hne : Ext2.inodeNumber m ≠ Ext2.inodeNumber ino) : fs'.storedInode m = fs.storedInode m := by
  refine g.storedInode_other hg.shape hino hm hne hg.rest fun hblock => ?_
  obtain ⟨hvalid, heq⟩ := g.inodeBlock_number hm
  rw [heq] at hblock ⊢
  refine hg.disk_meta g hvalid (fun _ he => ?_) (fun he => ?_) (hdata _ hvalid) hblock
  · cases he
  · cases he

end

/-- So are the blocks in use. -/
theorem Grown.disk_used (hino : fs.InodeExists ino) (hdata : ¬ data p) (hp : UsedBlock fs p) : fs'.disk p = fs.disk p :=
  hg.disk p (fun i hi he => hp.2 (.bitmap .blocks i) hi he.symm) (fun he => hp.2 .descriptors trivial he.symm)
    (g.used_ne_inodeBlock hino hp) hdata

end

/-- One block more is one pointer more. -/
theorem Grown.pointer (hg : Grown fs inode ino n [b] data fs' inode') (hn : n < ndirBlocks)
    (j : Nat) : iBlock inode' j = if j = n then b else iBlock inode j := by
  rw [hg.pointers j, length_singleton]
  by_cases hj : j = n
  · rw [if_pos (by omega), if_pos hj, hj, Nat.sub_self]
    rfl
  · rw [if_neg (by omega), if_neg hj]

/-- Growth of an inode keeps the other directories. -/
theorem DirShape.grown_other {x : Nat} (h : DirShape fs x m)
    (hg : Grown fs inode ino k ns data fs' inode') (g : Geometry fs) (hino : fs.InodeExists ino)
    (hmeta : ∀ x : MetaBlock, x.Valid fs → ¬ data (x.number fs)) (hdata : ∀ j < m, ¬ data (iBlock (fs.storedInode x) j))
    (hne : Ext2.inodeNumber x ≠ Ext2.inodeNumber ino) : DirKept fs fs' x m :=
  ⟨hg.kept, hg.inodeBit g hino hmeta h.exists_ _, hg.storedInode_other g hino hmeta h.exists_ hne,
    fun j hj => hg.disk_used g hino (hdata j hj) (h.used j hj)⟩

section

variable (h : DirShape fs ino n) (g : Geometry fs)

include h g

/-- A directory that has grown by a block has its old blocks, and the new one behind them. -/
theorem DirShape.grown (hfree : FreeOk fs) (hn : n < ndirBlocks)
    (hg : Grown fs (fs.storedInode ino) ino n [b] (fun _ => False) fs' inode') :
    fs'.storedInode ino = inode' ∧ DirShape fs' ino (n + 1) ∧ ∀ j < n, fs'.dirBlock inode' j = fs.dirBlock (fs.storedInode ino) j := by
  have hs := hg.shape
  have g' := g.congr hs
  have hstored : fs'.storedInode ino = inode' := hg.stored rfl
  obtain ⟨hlo, hhi, hspb, -⟩ := g.blockSize_bounds
  have hb : FreeBlock fs b := hg.fresh b mem_cons_self
  have hused : ∀ j < n + 1, UsedBlock fs' (iBlock inode' j) := by
    intro j hj
    rw [hg.pointer hn]
    split
    · exact hg.used hfree mem_cons_self
    · exact hg.kept.used g (h.used j (by omega))
  have hbs : fs.blockSize * (n + 1) ≤ 65536 * 12 := Nat.mul_le_mul hhi hn
  have hsp : fs.sectorsPerBlock * (n + 1) ≤ 128 * 12 := Nat.mul_le_mul (by omega) hn
  have hshape : DirShape fs' ino (n + 1) := by
    refine ⟨(hs.inodeExists ino).mpr h.exists_, ?_, ?_, ?_, ?_, hn, ?_, ?_⟩
    · rw [hs.inodeGroup, hs.inodeIndex, hg.inodeBit g h.exists_ (fun _ _ => id) h.exists_]
      exact h.inUse
    · rw [hstored, inodeDir_congr hg.mode]
      exact h.isDir
    · rw [hstored, hg.size, length_singleton, mul_one, h.size, hs.blockSize, ← Nat.mul_add_one, Nat.mod_eq_of_lt (by omega)]
    · rw [hstored, hg.sectors, length_singleton, mul_one, h.sectors, hs.sectorsPerBlock, ← Nat.mul_add_one, Nat.mod_eq_of_lt (by omega)]
    · rwa [hstored]
    · -- the new block is none of the old ones
      have hnew : ∀ j < n, b ≠ iBlock (fs.storedInode ino) j := fun j hj he => (h.used j hj).ne_free hb hfree he.symm
      rw [hstored]
      intro i j hi hj he
      rw [hg.pointer hn, hg.pointer hn] at he
      split at he <;> split at he
      · omega
      · exact absurd he (hnew j (by omega))
      · exact absurd he.symm (hnew i (by omega))
      · exact h.distinct i j (by omega) (by omega) he
  refine ⟨hstored, hshape, fun j hj => ?_⟩
  rw [← hstored, hshape.dirBlock g' (by omega), h.dirBlock g hj, hstored, hg.pointer hn, if_neg (by omega)]
  exact hg.disk_used g h.exists_ id (h.used j hj)

/-- An `allocateBlock` that succeeds grows the directory by one block. -/
theorem DirShape.allocateBlock (hread : fs.readable (fs.inodeBlock ino) = true) (hfree : FreeOk fs)
    (hn : n < ndirBlocks) (hr : fs.allocateBlock (fs.storedInode ino) ino n = (true, inode', fs')) :
    ∃ b, Grown fs (fs.storedInode ino) ino n [b] (fun _ => False) fs' inode' := by
  have ho : Opened fs ino := ⟨g, h.exists_, hread⟩
  rcases ho.allocateBlock hfree (fs.storedInode ino) n with ⟨heq, -⟩ | ⟨j, b, fs1, halloc, htaken, ⟨-, hset⟩ | ⟨fs2, hwritten, heq⟩⟩
  · simp [heq] at hr
  · simp [setRealBlock_direct fs1 _ hn] at hset
  · rw [heq] at hr
    cases hr
    exact ⟨_, grown_single ho hfree (isImage_storedInode fs ino) n _ halloc htaken hwritten⟩

/-- `writeInodeBlock` of a block that is there writes to it and allocates nothing. -/
theorem DirShape.writeInodeBlock (hj : j < n) (image : Mem) : fs.writeInodeBlock (fs.storedInode ino) ino j image =
      (true, fs.storedInode ino, fs.writeBlock (iBlock (fs.storedInode ino) j) image) := by
  have hn := h.count
  rw [Ext2.writeInodeBlock, growTo_stop (by rwa [h.sector2Block g])]
  dsimp only
  rw [Ext2.getRealBlock, if_pos (by omega)]

end

/-! ## The insertion -/

section

variable {ft : Nat}

/-- The conditions on what is inserted: a name that fits a record, and an inode number. -/
structure EntryOk (fs : Ext2) (name : Str) (newIno : Nat) : Prop where
  noNul : NoNul name
  length : name.length ≤ 255
  number : newIno < 2 ^ 32
  blockSize : fs.blockSize < 2 ^ 16

section

variable (h : WellFormedDir fs ino)

include h

section

variable (g : Geometry fs)

include g

/-- The end of `insertInodeInDir`, when it succeeds: the new entry is alone in the new block. -/
theorem WellFormedDir.insertInNewBlock (hread : fs.readable (fs.inodeBlock ino) = true) (hfree : FreeOk fs)
    (hn : fs.dirCount ino < ndirBlocks) (he : EntryOk fs name newIno)
    (hr : fs.insertInNewBlock (fs.storedInode ino) ino newIno name ft (fs.dirCount ino) = (true, inode', fs')) :
    inode' = fs'.storedInode ino ∧ EntryAdded fs fs' ino (name, newIno) ∧
      fs'.dirRecords (fs'.storedInode ino) = fs.dirRecords (fs.storedInode ino) ++ [(name, newIno, ft % 256)] := by
  rw [Ext2.insertInNewBlock] at hr
  split at hr
  · cases hr
  · rename_i inode1 fs1 halloc
    obtain ⟨b, hg⟩ := h.dirShape.allocateBlock g hread hfree hn halloc
    obtain ⟨hstored, hshape, hblocks⟩ := h.dirShape.grown g hfree hn hg
    have hs := hg.shape
    have g1 := g.congr hs
    subst hstored
    split at hr
    · cases hr
    · rename_i tmpBuf _
      rw [hshape.writeInodeBlock g1 (Nat.lt_succ_self _)] at hr
      cases hr
      obtain ⟨hlo, -⟩ := g.blockSize_bounds
      have hbs := hs.blockSize
      have hlength := he.length
      obtain ⟨htiles, hmap⟩ := tiles_single tmpBuf ft he.noNul he.length he.number
        (show fs1.blockSize < 2 ^ 16 by rw [hbs]; exact he.blockSize) (by unfold dirHeader; omega)
      obtain ⟨htiled, hentries⟩ := htiles.tiled
      obtain ⟨hdir, hall⟩ := hshape.writeLast g1 (fun j hj => by rw [hblocks j hj, hbs]; exact h.tiled j hj) htiled rfl
      have hp := hshape.used _ (Nat.lt_succ_self _)
      have hexists := h.dirShape.exists_
      have hstored := storedInode_writeBlock g1 hp (writeRecord tmpBuf 0 newIno name fs1.blockSize ft) ((hs.inodeExists ino).mpr hexists)
      have hrecords := hall.trans (show _ = fs.dirRecords (fs.storedInode ino) ++ [(name, newIno, ft % 256)] by
        rw [hentries, hmap, h.dirShape.dirRecords g, recordsBelow_congr hbs hblocks])
      refine ⟨hstored.symm, ⟨⟨hg.kept.trans (hshape.writeBlock g1 _).kept, hdir, dirEntries_append hrecords, by rw [hstored]; exact hg.mode,
        ?_, fun k hk => ?_, fun x hx hne _ => ?_⟩, fun m hm hne => ?_, fun i b' hi => ?_⟩, hrecords⟩
      · exact Nat.le_of_eq (hshape.dirCount_writeBlock g1 _)
      · rw [hshape.dirCount_writeBlock g1] at hk
        rw [hstored, hg.pointer hn]
        split
        · exact .inr (hg.fresh b mem_cons_self)
        · exact .inl ⟨by omega, rfl⟩
      · -- the new block is none of the other directory's, whose blocks are in use
        have hgrown := hx.dirShape.grown_other hg g hexists (fun _ _ => id) (fun _ _ => id) hne
        refine hgrown.trans (g1.dirKept_writeBlock ((hs.inodeExists x).mpr hx.dirShape.exists_) hp _ fun j hj => ?_)
        rw [hgrown.stored, hg.pointer hn, if_pos rfl]
        exact fun he => (hx.dirShape.used j hj).ne_free (hg.fresh b mem_cons_self) hfree he
      · rw [storedInode_writeBlock g1 hp _ ((hs.inodeExists m).mpr hm), hg.storedInode_other g hexists (fun _ _ => id) hm hne]
      · rw [bit_writeBlock g1 hp _ _ (by rwa [hs.groupCount]), hg.inodeBit g hexists (fun _ _ => id) hi]

/-- The last record of the directory has room for another one behind its name. -/
def Ext2.LastRoom (fs : Ext2) (inode : Mem) (name : Str) : Prop :=
  ∃ k d, iSize inode / fs.blockSize = k + 1 ∧ lastRecord fs.blockSize (fs.dirBlock inode k) fs.blockSize 0 = .ok d ∧
    getDirEntrySize (nameLen (fs.dirBlock inode k) d) + getDirEntrySize name.length ≤ recLen (fs.dirBlock inode k) d

/-- The block with its last record `d` split for a new one. -/
def splitLast (tmpBuf : Mem) (d newIno : Nat) (name : Str) (ft : Nat) : Mem :=
  writeRecord (setRecLen tmpBuf d (getDirEntrySize (nameLen tmpBuf d))) (d + getDirEntrySize (nameLen tmpBuf d)) newIno name
    (recLen tmpBuf d - getDirEntrySize (nameLen tmpBuf d)) ft

/-- What `insertInodeInDir` comes to: the last block is written when its last record has room, and otherwise a new one. It fails at once
when there is no memory or the last block cannot be read. -/
theorem WellFormedDir.insertInodeInDir_cases (name : Str) (newIno ft : Nat) :
    (¬ Working fs ∧ fs.insertInodeInDir (fs.storedInode ino) ino newIno name ft = .ok (false, fs.storedInode ino, fs)) ∨
    (∃ k ds d, fs.dirCount ino = k + 1 ∧ Tiles (fs.dirBlock (fs.storedInode ino) k) fs.blockSize 0 (ds ++ [d]) ∧
      getDirEntrySize (nameLen (fs.dirBlock (fs.storedInode ino) k) d) + getDirEntrySize name.length ≤
        recLen (fs.dirBlock (fs.storedInode ino) k) d ∧
      fs.LastRoom (fs.storedInode ino) name ∧ fs.insertInodeInDir (fs.storedInode ino) ino newIno name ft = .ok (true, fs.storedInode ino,
        fs.writeBlock (iBlock (fs.storedInode ino) k) (splitLast (fs.dirBlock (fs.storedInode ino) k) d newIno name ft))) ∨
    (¬ fs.LastRoom (fs.storedInode ino) name ∧ fs.insertInodeInDir (fs.storedInode ino) ino newIno name ft =
      .ok (fs.insertInNewBlock (fs.storedInode ino) ino newIno name ft (fs.dirCount ino))) := by
  have hcount : iSize (fs.storedInode ino) / fs.blockSize = fs.dirCount ino := rfl
  obtain ⟨hlo, -⟩ := g.blockSize_bounds
  have hle : fs.dirCount ino ≤ 12 := h.dirShape.count
  rw [insertInodeInDir, hcount]
  split
  · rename_i hheap
    exact .inl ⟨fun hw => by simp [hw.heapOk] at hheap, rfl⟩
  dsimp only
  split
  · rename_i hblock
    refine .inl ⟨fun hw => ?_, rfl⟩
    simp [readInodeBlock_dirBlock hw.readable] at hblock
  rename_i tmpBuf hblock
  obtain rfl := readInodeBlock_eq_dirBlock hblock
  refine .inr ?_
  cases hk : fs.dirCount ino with
  | zero =>
    refine .inr ⟨?_, if_pos (by decide)⟩
    rintro ⟨k, d, hk', -⟩
    simp [hcount, hk] at hk'
  | succ k =>
    have hlast : (k + 1 + (2 ^ 32 - 1)) % 2 ^ 32 = k := by omega
    have hshape := hk ▸ h.dirShape
    have htiled := h.tiled k (by rw [hcount]; omega)
    obtain ⟨ds, d, hds⟩ := htiled.exists_last (by omega)
    have htiles : Tiles (fs.dirBlock (fs.storedInode ino) k) fs.blockSize 0 (ds ++ [d]) := hds ▸ htiled
    have hfind := lastRecord_eq htiles (show fs.blockSize ≤ 0 + fs.blockSize by omega)
    rw [hlast, if_neg (by omega), hfind]
    simp only [bind, Except.bind, pure, Except.pure]
    by_cases hfits : getDirEntrySize (nameLen (fs.dirBlock (fs.storedInode ino) k) d) + getDirEntrySize name.length ≤
        recLen (fs.dirBlock (fs.storedInode ino) k) d
    · rw [if_pos hfits, hshape.writeInodeBlock g (Nat.lt_succ_self k)]
      exact .inl ⟨k, ds, d, rfl, htiles, hfits, ⟨k, d, hcount.trans hk, hfind, hfits⟩, rfl⟩
    · refine .inr ⟨?_, if_neg hfits⟩
      rintro ⟨k', d', hk', hd', hfits'⟩
      rw [hcount, hk] at hk'
      cases hk'
      rw [hfind] at hd'
      cases hd'
      exact hfits hfits'

/-- The other case: the last record is split, and the new entry gets what it does not need. -/
theorem WellFormedDir.insertInLast (he : EntryOk fs name newIno) {k d : Nat} {ds : List Nat}
    (hk : fs.dirCount ino = k + 1) (htiles : Tiles (fs.dirBlock (fs.storedInode ino) k) fs.blockSize 0 (ds ++ [d]))
    (hroom : getDirEntrySize (nameLen (fs.dirBlock (fs.storedInode ino) k) d) + getDirEntrySize name.length ≤
      recLen (fs.dirBlock (fs.storedInode ino) k) d)
    (hfs' : fs' = fs.writeBlock (iBlock (fs.storedInode ino) k) (splitLast (fs.dirBlock (fs.storedInode ino) k) d newIno name ft)) :
    fs'.storedInode ino = fs.storedInode ino ∧ EntryAdded fs fs' ino (name, newIno) ∧
      fs'.dirRecords (fs'.storedInode ino) = fs.dirRecords (fs.storedInode ino) ++ [(name, newIno, ft % 256)] := by
  have hcount : iSize (fs.storedInode ino) / fs.blockSize = fs.dirCount ino := rfl
  have hshape := hk ▸ h.dirShape
  obtain ⟨htiles', hmap⟩ := tiles_split htiles he.blockSize ft he.noNul he.length he.number rfl hroom rfl
  obtain ⟨htiled, hentries⟩ := htiles'.tiled
  obtain ⟨hdir, hall⟩ := hshape.writeLast g (fun j hj => h.tiled j (by rw [hcount]; omega)) htiled hfs'
  have hp := hshape.used k (Nat.lt_succ_self k)
  have hstored := hfs' ▸ storedInode_writeBlock g hp _ h.dirShape.exists_
  have hcount' := hfs' ▸ hshape.dirCount_writeBlock g _
  have hrecords := hall.trans (show _ = fs.dirRecords (fs.storedInode ino) ++ [(name, newIno, ft % 256)] by
    rw [hentries, hmap, hshape.dirRecords g, recordsBelow_succ, append_assoc, htiles.tiled.2])
  refine ⟨hstored, ⟨⟨hfs' ▸ (hshape.writeBlock g _).kept, hdir, dirEntries_append hrecords, by rw [hstored], ?_, fun j hj => ?_,
    fun x hx hne hapart => ?_⟩, fun m hm _ => hfs' ▸ storedInode_writeBlock g hp _ hm,
    fun i b hi => hfs' ▸ bit_writeBlock g hp _ _ hi b⟩, hrecords⟩
  · rw [hcount', hk]
    exact Nat.le_succ _
  · rw [hcount', ← hk] at hj
    exact .inl ⟨hj, by rw [hstored]⟩
  · rw [hfs']
    exact g.dirKept_writeBlock hx.dirShape.exists_ hp _ fun j hj => hapart j hj k (by rw [hk]; exact Nat.lt_succ_self k)

/-- `insertInodeInDir` adds the entry behind the others, when it succeeds. -/
theorem WellFormedDir.insertInodeInDir (hread : fs.readable (fs.inodeBlock ino) = true)
    (hfree : FreeOk fs) (hspace : fs.LastRoom (fs.storedInode ino) name ∨ fs.dirCount ino < ndirBlocks) (he : EntryOk fs name newIno)
    (hr : fs.insertInodeInDir (fs.storedInode ino) ino newIno name ft = .ok (true, inode', fs')) :
    inode' = fs'.storedInode ino ∧ EntryAdded fs fs' ino (name, newIno) ∧
      fs'.dirRecords (fs'.storedInode ino) = fs.dirRecords (fs.storedInode ino) ++ [(name, newIno, ft % 256)] := by
  obtain ⟨-, hrun⟩ | ⟨k, ds, d, hk, htiles, hroom, -, hrun⟩ | ⟨hfull, hrun⟩ := h.insertInodeInDir_cases g name newIno ft
  · simp [hrun] at hr
  · rw [hrun] at hr
    cases hr
    obtain ⟨hstored, hadded⟩ := h.insertInLast g he hk htiles hroom rfl
    exact ⟨hstored.symm, hadded⟩
  · rw [hrun] at hr
    exact h.insertInNewBlock g hread hfree (hspace.resolve_left hfull) he (Except.ok.inj hr)

/-- The insertion into a directory ends, whatever can be read. -/
theorem WellFormedDir.insertInodeInDir_ends (newIno : Nat) (name : Str) (ft : Nat) :
    ∃ r, fs.insertInodeInDir (fs.storedInode ino) ino newIno name ft = .ok r := by
  rcases h.insertInodeInDir_cases g name newIno ft with ⟨-, hrun⟩ | ⟨_, _, _, _, _, _, _, hrun⟩ | ⟨-, hrun⟩ <;> exact ⟨_, hrun⟩

end

/-- A block more is all that a new block for an entry needs. -/
theorem WellFormedDir.insertInNewBlock_returns (hw : Working fs) (hfree : FreeOk fs) (newIno : Nat) (name : Str) (ft : Nat) :
    ∃ done inode' fs', fs.insertInNewBlock (fs.storedInode ino) ino newIno name ft (fs.dirCount ino) = (done, inode', fs') ∧
      (done = true ↔ (fs.allocateBit .blocks fs.groupCount 0).1 ≠ 0) ∧ (done = false → fs' = fs) := by
  have g := hw.geometry
  have hn := h.dirShape.count
  rw [Ext2.insertInNewBlock]
  rcases (hw.opened h.dirShape.exists_).allocateBlock hfree (fs.storedInode ino) (fs.dirCount ino) with
    ⟨heq, hnone⟩ | ⟨j, b, fs1, halloc, htaken, ⟨-, hset⟩ | ⟨fs2, hwritten, heq⟩⟩
  · rw [heq]
    refine ⟨false, _, _, rfl, ?_, fun _ => rfl⟩
    rw [hnone hw.heapOk]
    simp
  · -- the first block that is not direct has a pointer too, in a table that can be read
    have hlimit : fs.dirCount ino < fs1.mapLimit := by
      obtain ⟨hlo, -⟩ := (g.congr htaken.shape).blockSize_bounds
      unfold Ext2.mapLimit Ext2.ptrBlocksPerBlock
      omega
    simp [(hw.congr htaken.shape).setRealBlock _ hlimit] at hset
  · have hs := htaken.shape.trans hwritten.shape
    have hspb : fs.sectorsPerBlock * (fs.dirCount ino + 1) < 2 ^ 32 := by
      obtain ⟨-, hhi, hspb, -⟩ := g.blockSize_bounds
      have hmul : fs.sectorsPerBlock * (fs.dirCount ino + 1) ≤ 128 * 13 := Nat.mul_le_mul (by omega) (Nat.succ_le_succ hn)
      omega
    have hstop : fs.dirCount ino <
        fs2.sector2Block (iSectors (grownInode fs (fs.storedInode ino) (fs.dirCount ino) (fs.bitNumber .blocks j b))) := by
      rw [iSectors_grownInode, h.dirShape.sectors, ← Nat.mul_succ, Nat.mod_eq_of_lt hspb, hs.sector2Block, g.sector2Block_mul (Nat.succ_le_succ hn)]
      exact Nat.lt_succ_self _
    rw [heq]
    dsimp only
    rw [readInodeBlock_dirBlock (hw.congr hs).readable]
    dsimp only
    rw [Ext2.writeInodeBlock, growTo_stop hstop]
    refine ⟨true, _, _, rfl, ?_, fun hf => by cases hf⟩
    rw [halloc]
    simp [Ext2.bitNumber]

/-- What `insertInodeInDir` comes to when nothing fails but the allocation. -/
theorem WellFormedDir.insertInodeInDir_eq (hw : Working fs) (name : Str) (newIno ft : Nat) :
    (fs.LastRoom (fs.storedInode ino) name ∧ ∃ k image, fs.dirCount ino = k + 1 ∧
      fs.insertInodeInDir (fs.storedInode ino) ino newIno name ft =
        .ok (true, fs.storedInode ino, fs.writeBlock (iBlock (fs.storedInode ino) k) image)) ∨
    ¬ fs.LastRoom (fs.storedInode ino) name ∧ fs.insertInodeInDir (fs.storedInode ino) ino newIno name ft =
      .ok (fs.insertInNewBlock (fs.storedInode ino) ino newIno name ft (fs.dirCount ino)) := by
  obtain ⟨hnot, -⟩ | ⟨k, _, d, hk, -, -, hroom, hrun⟩ | hnew := h.insertInodeInDir_cases hw.geometry name newIno ft
  · exact absurd hw hnot
  · exact .inl ⟨hroom, k, _, hk, hrun⟩
  · exact .inr hnew

/-- `insertInodeInDir` returns, and it succeeds when the last record has room or the allocator has a block. Otherwise nothing changes. -/
theorem WellFormedDir.insertInodeInDir_returns (hw : Working fs) (hfree : FreeOk fs) (name : Str) (newIno ft : Nat) :
    ∃ done inode' fs', fs.insertInodeInDir (fs.storedInode ino) ino newIno name ft = .ok (done, inode', fs') ∧
      (done = true ↔ fs.LastRoom (fs.storedInode ino) name ∨ (fs.allocateBit .blocks fs.groupCount 0).1 ≠ 0) ∧
      (done = false → fs' = fs) := by
  rcases h.insertInodeInDir_eq hw name newIno ft with ⟨hroom, k, image, -, hrun⟩ | ⟨hroom, hrun⟩
  · exact ⟨true, _, _, hrun, by simp [hroom], fun hf => by cases hf⟩
  · obtain ⟨done, inode', fs', hnew, hdone, hfail⟩ := h.insertInNewBlock_returns hw hfree newIno name ft
    rw [hnew] at hrun
    exact ⟨done, inode', fs', hrun, hdone.trans (by simp [hroom]), hfail⟩

end

end

/-! ## A new inode -/

/-- An inode number whose bit is clear. -/
def FreeInode (fs : Ext2) (ino : Nat) : Prop :=
  ∃ i b, i < fs.groupCount ∧ b < fs.superBlock.inodesPerGroup ∧ fs.bit .inodes i b = false ∧ ino = fs.bitNumber .inodes i b

/-- The number of an inode bit leads back to its group and its place. -/
theorem Geometry.inode_bitNumber (g : Geometry fs) (hi : i < fs.groupCount) (hb : b < fs.superBlock.inodesPerGroup) :
    fs.bitNumber .inodes i b < 2 ^ 32 ∧ fs.inodeGroup (fs.bitNumber .inodes i b) = i ∧ fs.inodeIndex (fs.bitNumber .inodes i b) = b := by
  have hmul := Nat.mul_le_mul_left fs.superBlock.inodesPerGroup (show i + 1 ≤ fs.groupCount from hi)
  rw [Nat.mul_add] at hmul
  have hlt := g.inodeNumbers
  have heq : fs.bitNumber .inodes i b = b + fs.superBlock.inodesPerGroup * i + 1 := by
    rw [bitNumber, perGroup, g.sameInodes]
  have hnumber : inodeNumber (fs.bitNumber .inodes i b) = b + fs.superBlock.inodesPerGroup * i := by
    rw [inodeNumber, heq]
    omega
  refine ⟨by omega, ?_, ?_⟩
  · rw [inodeGroup, hnumber, Nat.add_mul_div_left _ _ g.inodesPerGroup.1, Nat.div_eq_of_lt hb, zero_add]
  · rw [inodeIndex, hnumber, Nat.add_mul_mod_self_left, Nat.mod_eq_of_lt hb]

theorem FreeInode.exists_ (h : FreeInode fs ino) (g : Geometry fs) : fs.InodeExists ino := by
  obtain ⟨i, b, hi, hb, -, rfl⟩ := h
  rwa [Ext2.InodeExists, (g.inode_bitNumber hi hb).2.1]

/-- A free inode is not that of a directory. -/
theorem DirShape.ne_free (h : DirShape fs ino n) (g : Geometry fs) (hnew : FreeInode fs newIno) :
    Ext2.inodeNumber ino ≠ Ext2.inodeNumber newIno := by
  obtain ⟨i, b, hi, hb, hclear, rfl⟩ := hnew
  obtain ⟨-, hgroup, hindex⟩ := g.inode_bitNumber hi hb
  intro he
  have hgroup' : fs.inodeGroup ino = i := by
    rw [inodeGroup, he]
    exact hgroup
  have hindex' : fs.inodeIndex ino = b := by
    rw [inodeIndex, he]
    exact hindex
  have hused := h.inUse
  simp [hgroup', hindex', hclear] at hused

/-- An inode that is taken and written keeps every directory. -/
theorem WellFormedDir.inodeTaken (h : WellFormedDir fs ino) (g : Geometry fs) (hnew : FreeInode fs newIno)
    (htaken : BitTaken fs fs1 .inodes j b) (hwritten : InodeWritten fs1 fs' newIno inode) : DirKept fs fs' ino (fs.dirCount ino) := by
  have htook := h.dirShape.bitTaken g htaken
  have hexists : fs1.InodeExists newIno := (htaken.shape.inodeExists newIno).mpr (hnew.exists_ g)
  exact htook.trans ((h.dirShape.kept g htook).inodeWritten (g.congr htaken.shape) hexists (h.dirShape.ne_free g hnew) hwritten)

theorem iSize_initInode (attr : Nat) : iSize (Ext2.initInode attr) = 0 := by
  rw [iSize, initInode, load_store_disjoint _ _ (by omega)]
  rfl

end OmegaOS
