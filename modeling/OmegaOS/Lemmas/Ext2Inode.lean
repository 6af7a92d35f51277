import OmegaOS.Lemmas.Ext2

/-!
# Inodes of the ext2 driver

The fields of an inode's image, and the inode table as a map from inode numbers to images.
-/

namespace OmegaOS

open ByteMem Ext2 Function

variable {ino n v : Nat}

/-! ## Fields -/

section

variable (inode : Mem)

@[simp] theorem iSize_setISize (h : v < 2 ^ 32) : iSize (setISize inode v) = v := load_store_same inode 4 4 h

@[simp] theorem iSize_setISectors (v : Nat) : iSize (setISectors inode v) = iSize inode := load_store_disjoint inode v (by omega)

@[simp] theorem iSize_setIBlock (k v : Nat) : iSize (setIBlock inode k v) = iSize inode := load_store_disjoint inode v (by omega)

@[simp] theorem iSectors_setISectors (h : v < 2 ^ 32) : iSectors (setISectors inode v) = v := load_store_same inode 28 4 h

@[simp] theorem iSectors_setISize (v : Nat) : iSectors (setISize inode v) = iSectors inode := load_store_disjoint inode v (by omega)

@[simp] theorem iSectors_setIBlock (k v : Nat) : iSectors (setIBlock inode k v) = iSectors inode := load_store_disjoint inode v (by omega)

@[simp] theorem iMode_setISize (v : Nat) : iMode (setISize inode v) = iMode inode := load_store_disjoint inode v (by omega)

@[simp] theorem iMode_setISectors (v : Nat) : iMode (setISectors inode v) = iMode inode := load_store_disjoint inode v (by omega)

@[simp] theorem iMode_setIBlock (k v : Nat) : iMode (setIBlock inode k v) = iMode inode := load_store_disjoint inode v (by omega)

@[simp] theorem iBlock_setISize (k v : Nat) : iBlock (setISize inode v) k = iBlock inode k := load_store_disjoint inode v (by omega)

@[simp] theorem iBlock_setISectors (k v : Nat) : iBlock (setISectors inode v) k = iBlock inode k := load_store_disjoint inode v (by omega)

theorem iBlock_setIBlock (j k : Nat) (h : v < 2 ^ 32) : iBlock (setIBlock inode j v) k = if k = j then v else iBlock inode k := by
  split
  · subst k
    exact load_store_same inode (40 + 4 * j) 4 h
  · exact load_store_disjoint inode v (by omega)

theorem iSize_lt : iSize inode < 2 ^ 32 := load_lt inode 4 4

theorem iSectors_lt : iSectors inode < 2 ^ 32 := load_lt inode 28 4

end

/-- An image of an inode: nothing behind its last byte. -/
def IsImage (fs : Ext2) (inode : Mem) : Prop := ∀ o, fs.superBlock.inodeSize ≤ o → inode o = 0

theorem IsImage.store {fs : Ext2} (g : Geometry fs) {inode : Mem} (h : IsImage fs inode) {a : Nat} (v : Nat) (ha : a + n ≤ 128) :
    IsImage fs (store inode a n v) := by
  intro o ho
  have := g.inodeSize.1
  rw [store_outside inode v (by omega)]
  exact h o ho

/-! ## The inode table -/

/-- The drive reads every block and the heap has memory. -/
structure Working (fs : Ext2) : Prop where
  geometry : Geometry fs
  readable : ∀ b, fs.readable b = true
  heapOk : fs.heapOk = true

variable {fs fs' : Ext2}

theorem Working.congr (h : Working fs) (hs : SameShape fs fs') : Working fs' :=
  ⟨h.geometry.congr hs, fun b => by rw [hs.readable]; exact h.readable b, by rw [hs.heapOk]; exact h.heapOk⟩

/-- A drive that works reads every block. -/
theorem Working.readBlock (h : Working fs) (n : Nat) : fs.readBlock n = some (fs.disk (fs.physical n)) := by
  rw [Ext2.readBlock, if_pos (h.readable _)]

/-- The place of an inode in the table of its group. -/
def Ext2.inodeIndex (fs : Ext2) (ino : Nat) : Nat := Ext2.inodeNumber ino % fs.superBlock.inodesPerGroup

theorem inodeNumber_ne {m : Nat} (hn : n < 2 ^ 32) (hm : m < 2 ^ 32) (hne : n ≠ m) : Ext2.inodeNumber n ≠ Ext2.inodeNumber m := by
  unfold inodeNumber
  omega

theorem inodeOffset_inside (hpos : 0 < fs.superBlock.inodeSize) (hle : fs.superBlock.inodeSize ≤ fs.blockSize) (n : Nat) :
    fs.inodeOffset n + fs.superBlock.inodeSize ≤ fs.blockSize := by
  have hcol : fs.inodeIndex n % fs.inodesPerBlock + 1 ≤ fs.inodesPerBlock := Nat.mod_lt _ (Nat.div_pos hle hpos)
  calc fs.inodeOffset n + fs.superBlock.inodeSize
      = (fs.inodeIndex n % fs.inodesPerBlock + 1) * fs.superBlock.inodeSize := (Nat.succ_mul _ _).symm
    _ ≤ fs.inodesPerBlock * fs.superBlock.inodeSize := Nat.mul_le_mul_right _ hcol
    _ ≤ fs.blockSize := Nat.div_mul_le_self _ _

/-- The block of the drive that holds block `k` of the inode table of group `i`. -/
def Ext2.tableBlock (fs : Ext2) (i k : Nat) : Nat := fs.physical ((fs.inodeTable i + k) % 2 ^ 32)

/-- Inodes fit a block, and no two blocks of the groups' inode tables are the same block of the drive. -/
structure InodeTables (fs : Ext2) : Prop where
  inodeSize : 0 < fs.superBlock.inodeSize ∧ fs.superBlock.inodeSize ≤ fs.blockSize
  inodesPerGroup : 0 < fs.superBlock.inodesPerGroup
  apart : ∀ i j k l, i < fs.groupCount → j < fs.groupCount → k * fs.inodesPerBlock < fs.superBlock.inodesPerGroup →
    l * fs.inodesPerBlock < fs.superBlock.inodesPerGroup → fs.tableBlock i k = fs.tableBlock j l → i = j ∧ k = l

section

variable {n m : Nat}

theorem InodeTables.row (h : InodeTables fs) (n : Nat) :
    fs.inodeIndex n / fs.inodesPerBlock * fs.inodesPerBlock < fs.superBlock.inodesPerGroup :=
  Nat.lt_of_le_of_lt (Nat.div_mul_le_self _ _) (Nat.mod_lt _ h.inodesPerGroup)

/-- Two inodes of one block do not overlap. -/
theorem InodeTables.disjoint (h : InodeTables fs) (hn : fs.inodeGroup n < fs.groupCount) (hm : fs.inodeGroup m < fs.groupCount)
    (hne : Ext2.inodeNumber m ≠ Ext2.inodeNumber n) (hblock : fs.physical (fs.inodeBlock m) = fs.physical (fs.inodeBlock n)) :
    fs.inodeOffset m + fs.superBlock.inodeSize ≤ fs.inodeOffset n ∨ fs.inodeOffset n + fs.superBlock.inodeSize ≤ fs.inodeOffset m := by
  obtain ⟨hgroup, hrow⟩ := h.apart _ _ _ _ hm hn (h.row m) (h.row n) hblock
  -- the same row of the same table, so another column
  have hcol : fs.inodeIndex m % fs.inodesPerBlock ≠ fs.inodeIndex n % fs.inodesPerBlock := by
    intro hcol
    have hindex : fs.inodeIndex m = fs.inodeIndex n := by
      rw [← Nat.div_add_mod (fs.inodeIndex m) fs.inodesPerBlock, hrow, hcol, Nat.div_add_mod]
    apply hne
    rw [← Nat.div_add_mod (inodeNumber m) fs.superBlock.inodesPerGroup]
    rw [← Nat.div_add_mod (inodeNumber n) fs.superBlock.inodesPerGroup]
    exact congr (congrArg _ (congrArg _ hgroup)) hindex
  have hmul : ∀ a b, a < b → a * fs.superBlock.inodeSize + fs.superBlock.inodeSize ≤ b * fs.superBlock.inodeSize := by
    intro a b hab
    rw [← Nat.succ_mul]
    exact Nat.mul_le_mul_right _ hab
  rcases Nat.lt_or_gt_of_ne hcol with hlt | hlt
  · exact .inl (hmul _ _ hlt)
  · exact .inr (hmul _ _ hlt)

end

section

variable (g : Geometry fs)

include g

theorem Geometry.tableNumber {i k : Nat} (hvalid : (MetaBlock.inodes i k).Valid fs) :
    (fs.inodeTable i + k) % 2 ^ 32 = (MetaBlock.inodes i k).number fs := by
  have hrange := g.inRange _ hvalid
  have hcap := g.capacity
  obtain ⟨-, -, -, hspb⟩ := g.blockSize_bounds
  have hmul : (fs.lastBlock + 1) * 2 ≤ (fs.lastBlock + 1) * fs.sectorsPerBlock := Nat.mul_le_mul_left _ hspb
  exact Nat.mod_eq_of_lt (Nat.lt_of_le_of_lt hrange (by omega))

/-- The inode tables of such a filesystem are apart. -/
theorem Geometry.inodeTables : InodeTables fs where
  inodeSize := ⟨Nat.lt_of_lt_of_le (by decide) g.inodeSize.1, g.inodeSize.2⟩
  inodesPerGroup := g.inodesPerGroup.1
  apart := by
    intro i j k l hi hj hk hl heq
    have hv : (MetaBlock.inodes i k).Valid fs := ⟨hi, hk⟩
    have hv' : (MetaBlock.inodes j l).Valid fs := ⟨hj, hl⟩
    rw [tableBlock, tableBlock, g.tableNumber hv, g.tableNumber hv', g.physical_meta hv, g.physical_meta hv'] at heq
    exact MetaBlock.inodes.inj (g.distinct _ _ hv hv' heq)

section

variable (hv : fs.inodeGroup ino < fs.groupCount)

include hv

/-- The block of an inode is the one of its group's inode table that its place says. -/
theorem Geometry.inodeBlock_number : (MetaBlock.inodes (fs.inodeGroup ino) (fs.inodeIndex ino / fs.inodesPerBlock)).Valid fs ∧
      fs.inodeBlock ino = (MetaBlock.inodes (fs.inodeGroup ino) (fs.inodeIndex ino / fs.inodesPerBlock)).number fs :=
  have hvalid : (MetaBlock.inodes (fs.inodeGroup ino) (fs.inodeIndex ino / fs.inodesPerBlock)).Valid fs := ⟨hv, g.inodeTables.row ino⟩
  ⟨hvalid, g.tableNumber hvalid⟩

/-- The block of an inode is one of its group's inode table, and the inode lies inside it. -/
theorem Geometry.inodeBlock_meta : (∃ k, (MetaBlock.inodes (fs.inodeGroup ino) k).Valid fs ∧
      fs.inodeBlock ino = (MetaBlock.inodes (fs.inodeGroup ino) k).number fs) ∧
      fs.inodeOffset ino + fs.superBlock.inodeSize ≤ fs.blockSize :=
  ⟨⟨_, g.inodeBlock_number hv⟩, inodeOffset_inside g.inodeTables.inodeSize.1 g.inodeTables.inodeSize.2 ino⟩

theorem Geometry.physical_inodeBlock : fs.physical (fs.inodeBlock ino) = fs.inodeBlock ino := by
  obtain ⟨⟨k, hvalid, heq⟩, -⟩ := g.inodeBlock_meta hv
  rw [heq]
  exact g.physical_meta hvalid

theorem Geometry.inodeBlock_ne_bitmap (pool : Pool) {i : Nat} (hi : i < fs.groupCount) : fs.inodeBlock ino ≠ fs.bitmapBlock pool i := by
  obtain ⟨hvalid, heq⟩ := g.inodeBlock_number hv
  rw [heq]
  intro he
  cases g.distinct _ (.bitmap pool i) hvalid hi he

theorem Geometry.inodeBlock_ne_descriptors : fs.inodeBlock ino ≠ blockGroupStart := by
  obtain ⟨hvalid, heq⟩ := g.inodeBlock_number hv
  rw [heq]
  intro he
  cases g.distinct _ .descriptors hvalid trivial he

end

/-- None of the filesystem's own blocks but the first is the boot block. -/
theorem Geometry.number_ne_zero {x : MetaBlock} (hx : x.Valid fs) (hne : x ≠ .boot) : x.number fs ≠ 0 :=
  fun he => hne (g.distinct x .boot hx trivial he)

theorem Geometry.inodeBlock_ne_zero (hv : fs.inodeGroup ino < fs.groupCount) : fs.inodeBlock ino ≠ 0 := by
  obtain ⟨hvalid, heq⟩ := g.inodeBlock_number hv
  rw [heq]
  exact g.number_ne_zero hvalid nofun

end

/-- The image of an inode on the disk. -/
def Ext2.storedInode (fs : Ext2) (ino : Nat) : Mem :=
  copy (fun _ => 0) 0 (fs.disk (fs.inodeBlock ino)) (fs.inodeOffset ino) fs.superBlock.inodeSize

theorem storedInode_number {n' : Nat} (h : Ext2.inodeNumber n = Ext2.inodeNumber n') (fs : Ext2) : fs.storedInode n = fs.storedInode n' := by
  simp only [storedInode, inodeBlock, inodeOffset, inodeGroup, h]

theorem isImage_storedInode (fs : Ext2) (ino : Nat) : IsImage fs (fs.storedInode ino) := fun _ ho => copy_outside _ _ _ (.inr (by omega))

/-- The driver reads the block of this inode. -/
structure Opened (fs : Ext2) (ino : Nat) : Prop where
  geometry : Geometry fs
  group : fs.inodeGroup ino < fs.groupCount
  readable : fs.readable (fs.inodeBlock ino) = true

variable {ino : Nat} {inode : Mem}

theorem Opened.congr (h : Opened fs ino) (hs : SameShape fs fs') : Opened fs' ino :=
  ⟨h.geometry.congr hs, by rw [hs.inodeGroup, hs.groupCount]; exact h.group, by rw [hs.readable, hs.inodeBlock]; exact h.readable⟩

theorem Working.opened (h : Working fs) (hv : fs.inodeGroup ino < fs.groupCount) : Opened fs ino := ⟨h.geometry, hv, h.readable _⟩

theorem Opened.readBlock (h : Opened fs ino) : fs.readBlock (fs.inodeBlock ino) = some (fs.disk (fs.inodeBlock ino)) := by
  rw [Ext2.readBlock, h.geometry.physical_inodeBlock h.group, if_pos h.readable]

/-- `readInode` reads the image on the disk. -/
theorem Opened.readInode (h : Opened fs ino) (hheap : fs.heapOk = true) : fs.readInode ino = some (fs.storedInode ino) := by
  have := h.group
  rw [Ext2.readInode, if_neg (by omega), h.readBlock]
  dsimp only
  rw [if_pos hheap]
  rfl

/-- What `writeInode` does. -/
structure InodeWritten (fs fs' : Ext2) (ino : Nat) (inode : Mem) : Prop where
  shape : SameShape fs fs'
  groups : fs'.groups = fs.groups
  disk : ∀ q, q ≠ fs.inodeBlock ino → fs'.disk q = fs.disk q
  image : ∀ o, o < fs.superBlock.inodeSize → fs'.disk (fs.inodeBlock ino) (fs.inodeOffset ino + o) = inode o
  rest : ∀ o, o < fs.inodeOffset ino ∨ fs.inodeOffset ino + fs.superBlock.inodeSize ≤ o →
    fs'.disk (fs.inodeBlock ino) o = fs.disk (fs.inodeBlock ino) o
  written : fs'.written = fs.inodeBlock ino :: fs.written

/-- `writeInode` succeeds. -/
theorem Opened.writeInode (h : Opened fs ino) (inode : Mem) :
    ∃ fs', fs.writeInode ino inode = (true, fs') ∧ InodeWritten fs fs' ino inode := by
  have hv := h.group
  have hph := h.geometry.physical_inodeBlock hv
  obtain ⟨-, hin⟩ := h.geometry.inodeBlock_meta hv
  refine ⟨_, by rw [Ext2.writeInode, if_neg (by omega), h.readBlock], SameShape.writeBlock _ _ _, rfl, ?_, ?_, ?_, ?_⟩
  · intro q hq
    exact disk_writeBlock_ne fs _ _ (by rwa [hph])
  · intro o ho
    rw [disk_writeBlock_inside fs hph _ (by omega), copy_inside _ _ _ (by omega) (by omega)]
    congr 1
    omega
  · intro o ho
    by_cases hlt : o < fs.blockSize
    · rw [disk_writeBlock_inside fs hph _ hlt, copy_outside _ _ _ ho]
    · show update fs.disk (fs.physical (fs.inodeBlock ino)) _ (fs.inodeBlock ino) o = _
      rw [hph, update_self, copy_outside _ _ _ (by omega)]
  · show fs.physical (fs.inodeBlock ino) :: fs.written = _
    rw [hph]

theorem InodeWritten.storedInode (h : InodeWritten fs fs' ino inode) (himage : IsImage fs inode) : fs'.storedInode ino = inode := by
  funext o
  rw [Ext2.storedInode, h.shape.inodeBlock, h.shape.inodeOffset, h.shape.superBlock]
  by_cases ho : o < fs.superBlock.inodeSize
  · rw [copy_inside _ _ _ (Nat.zero_le o) (by omega), Nat.sub_zero, h.image o ho]
  · rw [copy_outside _ _ _ (by omega), himage o (by omega)]

theorem storedInode_congr (hs : SameShape fs fs') (hdisk : fs'.disk (fs.inodeBlock ino) = fs.disk (fs.inodeBlock ino)) :
    fs'.storedInode ino = fs.storedInode ino := by
  rw [storedInode, hs.inodeBlock, hs.inodeOffset, hs.superBlock, hdisk]
  rfl

/-- What changes of its block no more than the place of one inode leaves the others. -/
theorem Geometry.storedInode_other (g : Geometry fs) (hs : SameShape fs fs') (hv : fs.inodeGroup ino < fs.groupCount)
    (hn : fs.inodeGroup n < fs.groupCount) (hne : Ext2.inodeNumber n ≠ Ext2.inodeNumber ino)
    (hrest : ∀ o, o < fs.inodeOffset ino ∨ fs.inodeOffset ino + fs.superBlock.inodeSize ≤ o →
      fs'.disk (fs.inodeBlock ino) o = fs.disk (fs.inodeBlock ino) o)
    (hdisk : fs.inodeBlock n ≠ fs.inodeBlock ino → fs'.disk (fs.inodeBlock n) = fs.disk (fs.inodeBlock n)) :
    fs'.storedInode n = fs.storedInode n := by
  by_cases hblock : fs.inodeBlock n = fs.inodeBlock ino
  · have hdisjoint := g.inodeTables.disjoint hv hn hne (congrArg fs.physical hblock)
    funext o
    rw [storedInode, storedInode, hs.inodeBlock, hs.inodeOffset, hs.superBlock]
    by_cases ho : o < fs.superBlock.inodeSize
    · rw [copy_inside _ _ _ (Nat.zero_le o) (by omega), copy_inside _ _ _ (Nat.zero_le o) (by omega), hblock]
      exact hrest _ (by omega)
    · rw [copy_outside _ _ _ (by omega), copy_outside _ _ _ (by omega)]
  · exact storedInode_congr hs (hdisk hblock)

/-- Every other inode stays. -/
theorem InodeWritten.storedInode_other (h : InodeWritten fs fs' ino inode) (g : Geometry fs)
    (hv : fs.inodeGroup ino < fs.groupCount) (hn : fs.inodeGroup n < fs.groupCount) (hne : Ext2.inodeNumber n ≠ Ext2.inodeNumber ino) :
    fs'.storedInode n = fs.storedInode n :=
  g.storedInode_other h.shape hv hn hne h.rest (h.disk _)

end OmegaOS
