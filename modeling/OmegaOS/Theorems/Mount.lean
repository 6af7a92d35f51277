import OmegaOS.Ext2Mount
import OmegaOS.Theorems.DirectoryCreate

/-!
# Mounting a superblock that nobody vouches for

Which superblocks, of those that pass the assertions of `ext2_init`, let the driver divide by zero.
-/

namespace OmegaOS

open ByteMem Ext2

variable {fs fs' : Ext2} {a b : Nat} {inode : Mem} {raw : FsNode}

/-! ## Divisors -/

/-- What the driver divides by is not zero, and an inode fits a block. -/
structure Divisors (fs : Ext2) : Prop where
  blocksPerGroup : 0 < fs.superBlock.blocksPerGroup
  tableInodes : 0 < fs.superBlock.inodesPerGroup
  inodesPerGroup : 0 < fs.inodesPerGroup
  blockSize : 0 < fs.blockSize
  inodeSize : 0 < fs.superBlock.inodeSize ∧ fs.superBlock.inodeSize ≤ fs.blockSize

/-- The same superblock has been mounted. -/
structure SameMount (fs fs' : Ext2) : Prop where
  superBlock : fs'.superBlock = fs.superBlock
  blockSize : fs'.blockSize = fs.blockSize
  groupCount : fs'.groupCount = fs.groupCount
  inodesPerGroup : fs'.inodesPerGroup = fs.inodesPerGroup

theorem SameMount.refl (fs : Ext2) : SameMount fs fs := ⟨rfl, rfl, rfl, rfl⟩

theorem Divisors.congr (h : Divisors fs) (hs : SameMount fs fs') : Divisors fs' := by
  constructor <;> simp only [hs.superBlock, hs.blockSize, hs.inodesPerGroup]
  · exact h.blocksPerGroup
  · exact h.tableInodes
  · exact h.inodesPerGroup
  · exact h.blockSize
  · exact h.inodeSize

@[simp] theorem quo_of_pos (h : 0 < b) : quo a b = .ok (a / b) := if_neg (Nat.ne_of_gt h)

@[simp] theorem rem_of_pos (h : 0 < b) : rem a b = .ok (a % b) := if_neg (Nat.ne_of_gt h)

theorem quo_eq_ok : quo a b = .ok c ↔ 0 < b ∧ a / b = c := by
  rcases Nat.eq_zero_or_pos b with rfl | hb
  · simp [quo]
  · simp [hb]

@[simp] theorem ok_bind {α β : Type} (a : α) (f : α → Except Trap β) : Except.ok a >>= f = f a := rfl

/-! ## The functions of the driver do not trap -/

theorem SameMount.takeBit (fs : Ext2) (pool : Pool) (i bit : Nat) (bitmap : Mem) : SameMount fs (fs.takeBit pool i bit bitmap).2 := by
  rw [Ext2.takeBit]
  split
  · exact .refl fs
  · exact ⟨rfl, rfl, rfl, rfl⟩

theorem SameMount.allocateBit (fs : Ext2) (pool : Pool) (fuel i : Nat) : SameMount fs (fs.allocateBit pool fuel i).2 := by
  induction fuel generalizing i with
  | zero => exact .refl fs
  | succ fuel ih =>
    rw [Ext2.allocateBit]
    split
    · split
      · exact .refl fs
      · split
        · exact takeBit ..
        · exact ih (i + 1)
    · exact takeBit ..

theorem SameMount.releaseBit {pool : Pool} {i offset : Nat} (h : fs.releaseBit pool i offset = some fs') : SameMount fs fs' := by
  rw [Ext2.releaseBit] at h
  split at h
  · cases h
  · cases h
    exact ⟨rfl, rfl, rfl, rfl⟩

theorem SameMount.deleteBlockBuffer (fs : Ext2) (block : Nat) : SameMount fs (fs.deleteBlockBuffer block).2 := by
  rw [Ext2.deleteBlockBuffer]
  split
  · exact .refl fs
  · split
    · exact .refl fs
    · split
      · exact .refl fs
      · rename_i hrelease
        exact .releaseBit hrelease

namespace Divisors

section

variable (h : Divisors fs) (ino : Nat)

include h ino

/-- The place of an inode is computed, and lies inside `g_tmpBuf`. -/
theorem inodeSlot :
    Trapping.inodeSlot fs ino = .ok (if fs.groupCount ≤ fs.inodeGroup ino then none else some (fs.inodeBlock ino, fs.inodeOffset ino)) ∧
      Trapping.inodeInside fs (fs.inodeOffset ino) = .ok () := by
  obtain ⟨hpos, hle⟩ := h.inodeSize
  refine ⟨?_, if_pos (inodeOffset_inside hpos hle ino)⟩
  have hrow := Nat.div_pos hle hpos
  simp only [Trapping.inodeSlot, quo_of_pos, rem_of_pos, h.tableInodes, hpos, hrow, ok_bind]
  show (if fs.groupCount ≤ fs.inodeGroup ino then _ else _) = _
  split <;> rfl

theorem readInode : Trapping.readInode fs ino = .ok (fs.readInode ino) := by
  obtain ⟨hslot, hinside⟩ := h.inodeSlot ino
  rw [Trapping.readInode, hslot, Ext2.readInode, ok_bind]
  by_cases hgroup : fs.groupCount ≤ fs.inodeGroup ino
  · simp only [if_pos hgroup]
    rfl
  · simp only [if_neg hgroup]
    cases fs.readBlock (fs.inodeBlock ino) with
    | none => rfl
    | some tmpBuf => cases fs.heapOk <;> simp [hinside, pure, Except.pure]

theorem ino2vfs (raw : FsNode) : Trapping.ino2vfs fs ino raw = .ok (fs.ino2vfs ino raw) := by
  rw [Trapping.ino2vfs, Ext2.ino2vfs, h.readInode, ok_bind]
  cases fs.readInode ino with
  | none => rfl
  | some inode => cases fs.heapOk <;> rfl

theorem writeInode (inode : Mem) : Trapping.writeInode fs ino inode = .ok (fs.writeInode ino inode) := by
  obtain ⟨hslot, hinside⟩ := h.inodeSlot ino
  rw [Trapping.writeInode, hslot, Ext2.writeInode, ok_bind]
  by_cases hgroup : fs.groupCount ≤ fs.inodeGroup ino
  · simp only [if_pos hgroup]
    rfl
  · simp only [if_neg hgroup]
    cases fs.readBlock (fs.inodeBlock ino) with
    | none => rfl
    | some tmpBuf => simp [hinside, pure, Except.pure]

end

end Divisors

/-- A block that is not direct is looked up only where a table has entries, so nothing is divided by zero. -/
theorem indirectPath_ok (fs : Ext2) (inode : Mem) (block : Nat) (hblock : ndirBlocks ≤ block) :
    Trapping.indirectPath fs inode block = .ok (fs.indirectPath inode block) := by
  rcases Nat.eq_zero_or_pos fs.ptrBlocksPerBlock with hptr | hptr
  · simp [Trapping.indirectPath, indirectPath, hptr, Nat.not_lt.mpr hblock, pure, Except.pure]
  · have hsquare := Nat.mul_pos hptr hptr
    simp only [Trapping.indirectPath, indirectPath, Trapping.doublePath, Trapping.triplePath, quo_of_pos, hptr, hsquare, ok_bind]
    split
    · rfl
    · split
      · rfl
      · split <;> rfl

theorem getRealBlock_ok (fs : Ext2) (inode : Mem) (block : Nat) :
    Trapping.getRealBlock fs inode block = .ok (fs.getRealBlock inode block) := by
  rw [Trapping.getRealBlock, getRealBlock]
  split
  · rfl
  · rename_i hblock
    rw [indirectPath_ok fs inode block (Nat.not_lt.mp hblock), ok_bind]
    cases fs.indirectPath inode block <;> rfl

theorem setRealBlock_ok (fs : Ext2) (inode : Mem) (block real : Nat) :
    Trapping.setRealBlock fs inode block real = .ok (fs.setRealBlock inode block real) := by
  rw [Trapping.setRealBlock, setRealBlock]
  split
  · rfl
  · rename_i hblock
    rw [indirectPath_ok fs inode block (Nat.not_lt.mp hblock), ok_bind]
    cases fs.indirectPath inode block <;> rfl

namespace Divisors

section

variable (h : Divisors fs)

include h

theorem allocateBlock (inode : Mem) (ino block : Nat) :
    Trapping.allocateBlock fs inode ino block = .ok (fs.allocateBlock inode ino block) := by
  rw [Trapping.allocateBlock, Ext2.allocateBlock]
  split
  · rfl
  · have h' := h.congr (SameMount.allocateBit fs .blocks fs.groupCount 0)
    generalize fs.allocateBit .blocks fs.groupCount 0 = taken at h' ⊢
    obtain ⟨newBlock, fs'⟩ := taken
    dsimp only at h' ⊢
    split
    · rfl
    · rw [setRealBlock_ok, ok_bind]
      generalize fs'.setRealBlock inode block newBlock = set
      obtain ⟨done, inode'⟩ := set
      cases done with
      | false => rfl
      | true =>
        dsimp only
        rw [h'.writeInode, ok_bind]
        rfl

theorem deleteBlockBuffer (block : Nat) : Trapping.deleteBlockBuffer fs block = .ok (fs.deleteBlockBuffer block) := by
  rw [Trapping.deleteBlockBuffer, Ext2.deleteBlockBuffer]
  split
  · rfl
  · rw [quo_of_pos h.blocksPerGroup, ok_bind, rem_of_pos h.blocksPerGroup, ok_bind]
    split
    · rfl
    · cases fs.releaseBit .blocks (block / fs.superBlock.blocksPerGroup) (block % fs.superBlock.blocksPerGroup) <;> rfl

theorem deleteBlock (block : Nat) : Trapping.deleteBlock fs block = .ok (fs.deleteBlock block) := by
  rw [Trapping.deleteBlock, Ext2.deleteBlock]
  split
  · rfl
  · exact h.deleteBlockBuffer block

theorem deleteBlocks (inode : Mem) (block fuel : Nat) :
    Trapping.deleteBlocks fs inode block fuel = .ok (fs.deleteBlocks inode block fuel) := by
  induction fuel generalizing fs block with
  | zero => rfl
  | succ fuel ih =>
    have h' := h.congr (SameMount.deleteBlockBuffer fs (fs.getRealBlock inode block))
    rw [Trapping.deleteBlocks, deleteBlocks, getRealBlock_ok, ok_bind, h.deleteBlockBuffer, ok_bind]
    generalize fs.deleteBlockBuffer (fs.getRealBlock inode block) = deleted at h' ⊢
    obtain ⟨ret, fs'⟩ := deleted
    dsimp only at h' ⊢
    split
    · rfl
    · exact ih h' (block + 1)

theorem deleteInode (inode : Mem) (ino : Nat) : Trapping.deleteInode fs inode ino = .ok (fs.deleteInode inode ino) := by
  rw [Trapping.deleteInode, Ext2.deleteInode]
  split
  · rfl
  · rw [quo_of_pos h.inodesPerGroup, ok_bind, rem_of_pos h.inodesPerGroup, ok_bind]
    split
    · rfl
    · cases hrelease : fs.releaseBit .inodes (ino / fs.inodesPerGroup) (ino % fs.inodesPerGroup) with
      | none => rfl
      | some fs' =>
        have h' := h.congr (.releaseBit hrelease)
        dsimp only
        split
        · rfl
        · rw [quo_of_pos h'.blockSize, ok_bind, rem_of_pos h'.blockSize, ok_bind]
          exact h'.deleteBlocks inode 0 _

end

end Divisors

/-- No function of the driver divides by zero or copies an inode from or to a place outside `g_tmpBuf`, whatever it is called with. -/
structure DriverSafe (fs : Ext2) : Prop where
  blockSize : fs.blockSize ≠ 0
  readInode : ∀ ino, ∃ r, Trapping.readInode fs ino = .ok r
  writeInode : ∀ ino inode, ∃ r, Trapping.writeInode fs ino inode = .ok r
  allocateBlock : ∀ inode ino block, ∃ r, Trapping.allocateBlock fs inode ino block = .ok r
  deleteBlock : ∀ block, ∃ r, Trapping.deleteBlock fs block = .ok r
  deleteInode : ∀ inode ino, ∃ r, Trapping.deleteInode fs inode ino = .ok r

/-- With no divisor 0 the driver is safe. -/
theorem Divisors.driverSafe (h : Divisors fs) : DriverSafe fs where
  blockSize := Nat.ne_of_gt h.blockSize
  readInode ino := ⟨_, h.readInode ino⟩
  writeInode ino inode := ⟨_, h.writeInode ino inode⟩
  allocateBlock inode ino block := ⟨_, h.allocateBlock inode ino block⟩
  deleteBlock block := ⟨_, h.deleteBlock block⟩
  deleteInode inode ino := ⟨_, h.deleteInode inode ino⟩

/-! ## Mounting -/

/-- The groups that `ext2_init` counts. -/
def SuperBlock.groupCount (sb : SuperBlock) : Nat :=
  if sb.blocksCount / sb.blocksPerGroup < sb.inodesCount / sb.inodesPerGroup then sb.inodesCount / sb.inodesPerGroup
  else sb.blocksCount / sb.blocksPerGroup

/-- What nothing in `ext2_init` asserts of a superblock: groups are not empty, there is one, the block size fits 32 bits, an inode fits a
block, and there are no fewer inodes than groups of blocks. -/
structure SuperBlock.Sound (sb : SuperBlock) : Prop where
  blocksPerGroup : 0 < sb.blocksPerGroup
  inodesPerGroup : 0 < sb.inodesPerGroup
  someGroup : sb.blocksPerGroup ≤ sb.blocksCount ∨ sb.inodesPerGroup ≤ sb.inodesCount
  logBlockSize : sb.logBlockSize % 32 < 22
  inodeSize : 0 < sb.inodeSize ∧ sb.inodeSize ≤ 1024 * 2 ^ (sb.logBlockSize % 32)
  inodes : sb.blocksCount / sb.blocksPerGroup ≤ sb.inodesCount

/-- The block size is not zero where the shift leaves a bit, and is what it should be there. -/
theorem SuperBlock.blockSize_pos (sb : SuperBlock) :
    (0 < sb.blockSize ↔ sb.logBlockSize % 32 < 22) ∧ (0 < sb.blockSize → sb.blockSize = 1024 * 2 ^ (sb.logBlockSize % 32)) := by
  have hpow : 1024 * 2 ^ (sb.logBlockSize % 32) = 2 ^ (10 + sb.logBlockSize % 32) := (Nat.pow_add 2 10 _).symm
  by_cases hlog : sb.logBlockSize % 32 < 22
  · have hlt : 2 ^ (10 + sb.logBlockSize % 32) < 2 ^ 32 := Nat.pow_lt_pow_right (by decide) (by omega)
    have heq : sb.blockSize = 1024 * 2 ^ (sb.logBlockSize % 32) := by rw [blockSize, hpow, Nat.mod_eq_of_lt hlt]
    exact ⟨⟨fun _ => hlog, fun _ => heq ▸ Nat.mul_pos (by decide) (Nat.two_pow_pos _)⟩, fun _ => heq⟩
  · have hzero : sb.blockSize = 0 := by
      rw [blockSize, hpow]
      exact Nat.mod_eq_zero_of_dvd (Nat.pow_dvd_pow 2 (by omega))
    exact ⟨⟨fun h => absurd h (by omega), fun h => absurd h hlog⟩, fun h => absurd h (by omega)⟩

theorem SuperBlock.groupCount_pos (sb : SuperBlock) (hb : 0 < sb.blocksPerGroup) (hi : 0 < sb.inodesPerGroup) :
    0 < sb.groupCount ↔ sb.blocksPerGroup ≤ sb.blocksCount ∨ sb.inodesPerGroup ≤ sb.inodesCount := by
  have hblocks : 0 < sb.blocksCount / sb.blocksPerGroup ↔ sb.blocksPerGroup ≤ sb.blocksCount := by simp [Nat.div_pos_iff, hb]
  have hinodes : 0 < sb.inodesCount / sb.inodesPerGroup ↔ sb.inodesPerGroup ≤ sb.inodesCount := by simp [Nat.div_pos_iff, hi]
  rw [← hblocks, ← hinodes, groupCount]
  split <;> omega

/-- The groups are no more than the inodes when the groups of blocks are not. -/
theorem SuperBlock.groupCount_le (sb : SuperBlock) :
    sb.groupCount ≤ sb.inodesCount ↔ sb.blocksCount / sb.blocksPerGroup ≤ sb.inodesCount := by
  have hle : sb.inodesCount / sb.inodesPerGroup ≤ sb.inodesCount := Nat.div_le_self _ _
  rw [groupCount]
  split <;> omega

/-- The driver's variables after the superblock has been read. -/
def Ext2.withSuperBlock (fs : Ext2) : Ext2 :=
  { fs with blockSize := fs.superBlock.blockSize, groupCount := fs.superBlock.groupCount,
            inodesPerGroup := fs.superBlock.inodesCount / fs.superBlock.groupCount }

theorem check_eq_ok {b : Bool} {expr : String} {u : Unit} : check b expr = .ok u ↔ b = true := by cases b <;> simp [check]

/-- When the first part of `ext2_init` returns, and what it computes. -/
theorem readSuperBlock_eq_ok {r : Ext2 × Nat} :
    fs.readSuperBlock = .ok r ↔ fs.superBlock.magic = ext2Signature ∧ 0 < fs.superBlock.blocksPerGroup ∧
      0 < fs.superBlock.inodesPerGroup ∧ 0 < fs.superBlock.groupCount ∧ 0 < fs.superBlock.blockSize ∧
      r = (fs.withSuperBlock, fs.superBlock.groupCount * descSize / fs.superBlock.blockSize + 1) := by
  simp only [readSuperBlock, bind_eq_ok, check_eq_ok, quo_eq_ok, beq_iff_eq]
  constructor
  · rintro ⟨_, hmagic, _, ⟨hb, rfl⟩, _, ⟨hi, rfl⟩, _, ⟨hg, rfl⟩, _, ⟨hs, rfl⟩, hr⟩
    exact ⟨hmagic, hb, hi, hg, hs, (Except.ok.inj hr).symm⟩
  · rintro ⟨hmagic, hb, hi, hg, hs, rfl⟩
    exact ⟨(), hmagic, _, ⟨hb, rfl⟩, _, ⟨hi, rfl⟩, _, ⟨hg, rfl⟩, _, ⟨hs, rfl⟩, rfl⟩

/-- What stops a computation, if anything, is an assertion. -/
def OnlyAsserts {α : Type} (x : Except Trap α) : Prop := ∀ e, x = .error e → ∃ expr, e = .assertion expr

namespace OnlyAsserts

variable {α β : Type} {x : Except Trap α} {f : α → Except Trap β}

theorem ok (a : α) : OnlyAsserts (.ok a) := fun _ h => nomatch h

theorem assertion (expr : String) : OnlyAsserts (.error (.assertion expr) : Except Trap α) := fun _ h => ⟨expr, (Except.error.inj h).symm⟩

theorem check (b : Bool) (expr : String) : OnlyAsserts (check b expr) := by
  cases b
  · exact assertion expr
  · exact ok ()

theorem bind (hx : OnlyAsserts x) (hf : ∀ a, x = .ok a → OnlyAsserts (f a)) : OnlyAsserts (x >>= f) := by
  cases x with
  | ok a => exact hf a rfl
  | error e =>
    intro e' h
    exact hx e' (congrArg _ (Except.error.inj h))

theorem verifyGroups (fs : Ext2) (fuel i : Nat) : OnlyAsserts (fs.verifyGroups fuel i) := by
  induction fuel generalizing i with
  | zero => exact ok ()
  | succ fuel ih => exact bind (check _ _) fun _ _ => bind (check _ _) fun _ _ => ih (i + 1)

theorem readGroups (fs : Ext2) (span : Nat) : OnlyAsserts (fs.readGroups span) := by
  refine bind (check _ _) fun _ _ => ?_
  cases fs.readDescriptors fs.groups span 0 with
  | none => exact assertion _
  | some groups => exact bind (verifyGroups _ _ _) fun _ _ => ok _

end OnlyAsserts

/-- A sound superblock gives no divisor 0. -/
theorem SuperBlock.Sound.divisors (h : fs.superBlock.Sound) : Divisors fs.withSuperBlock := by
  have hsize := fs.superBlock.blockSize_pos
  have hpos := hsize.1.mpr h.logBlockSize
  have hgroups := (fs.superBlock.groupCount_pos h.blocksPerGroup h.inodesPerGroup).mpr h.someGroup
  refine ⟨h.blocksPerGroup, h.inodesPerGroup, ?_, hpos, h.inodeSize.1, ?_⟩
  · exact Nat.div_pos (fs.superBlock.groupCount_le.mpr h.inodes) hgroups
  · exact Nat.le_trans h.inodeSize.2 (Nat.le_of_eq (hsize.2 hpos).symm)

theorem SameMount.readGroups {span : Nat} (h : fs.readGroups span = .ok fs') : SameMount fs fs' ∧ fs'.heapOk = true := by
  obtain ⟨_, hheap, h⟩ := bind_eq_ok.mp h
  cases hread : fs.readDescriptors fs.groups span 0 with
  | none => simp [hread, throw, throwThe, MonadExceptOf.throw] at h
  | some groups =>
    rw [hread] at h
    obtain ⟨_, -, h⟩ := bind_eq_ok.mp h
    cases h
    exact ⟨⟨rfl, rfl, rfl, rfl⟩, check_eq_ok.mp hheap⟩

/-- A superblock that is sound is mounted, or an assertion fails. -/
theorem SuperBlock.Sound.onlyAsserts (h : fs.superBlock.Sound) (raw : FsNode) : OnlyAsserts (fs.ext2Init raw) := by
  refine .bind ?_ fun r hr => .bind (.readGroups _ _) fun fs' hgroups => .bind (.check _ _) fun _ _ => ?_
  · have hcount := (fs.superBlock.groupCount_pos h.blocksPerGroup h.inodesPerGroup).mpr h.someGroup
    have hsize := fs.superBlock.blockSize_pos.1.mpr h.logBlockSize
    refine .bind (.check _ _) fun _ hmagic => ?_
    rw [quo_of_pos h.blocksPerGroup, ok_bind, quo_of_pos h.inodesPerGroup, ok_bind]
    show OnlyAsserts (quo _ fs.superBlock.groupCount >>= _)
    rw [quo_of_pos hcount, ok_bind, quo_of_pos hsize, ok_bind]
    exact .ok _
  · obtain ⟨-, -, -, -, -, rfl⟩ := readSuperBlock_eq_ok.mp hr
    have hdiv := h.divisors.congr (SameMount.readGroups hgroups).1
    rw [hdiv.ino2vfs, ok_bind]
    cases fs'.ino2vfs inodeRoot raw with
    | none => exact .assertion _
    | some root => exact .bind (.check _ _) fun _ _ => .ok _

/-- What holds of the driver once `ext2_init` has returned. -/
structure MountedFrom (fs fs' : Ext2) : Prop where
  mount : SameMount fs.withSuperBlock fs'
  heapOk : fs'.heapOk = true
  blocksPerGroup : 0 < fs.superBlock.blocksPerGroup
  inodesPerGroup : 0 < fs.superBlock.inodesPerGroup
  groupCount : 0 < fs.superBlock.groupCount
  blockSize : 0 < fs.superBlock.blockSize
  inodeSize : 0 < fs.superBlock.inodeSize ∧ fs.superBlock.inodeSize ≤ fs.superBlock.blockSize

/-- An inode that was read has a place in a block. -/
theorem inodeSize_of_readInode {ino : Nat} (h : Trapping.readInode fs ino = .ok (some inode)) :
    0 < fs.superBlock.inodeSize ∧ fs.superBlock.inodeSize ≤ fs.blockSize := by
  obtain ⟨slot, hslot, h⟩ := bind_eq_ok.mp h
  obtain ⟨group, -, hslot⟩ := bind_eq_ok.mp hslot
  split at hslot
  · cases hslot
    cases h
  · obtain ⟨index, -, hslot⟩ := bind_eq_ok.mp hslot
    obtain ⟨inodesPerBlock, hrow, hslot⟩ := bind_eq_ok.mp hslot
    obtain ⟨row, hquo, -⟩ := bind_eq_ok.mp hslot
    obtain ⟨hpos, rfl⟩ := quo_eq_ok.mp hrow
    exact ⟨hpos, (Nat.div_pos_iff.mp (quo_eq_ok.mp hquo).1).2⟩

/-- What `ext2_init` has mounted when it returns. -/
theorem ext2Init_mounted {root : FsNode} (h : fs.ext2Init raw = .ok (fs', root)) : MountedFrom fs fs' := by
  obtain ⟨r, hr, h⟩ := bind_eq_ok.mp h
  obtain ⟨-, hb, hi, hg, hs, rfl⟩ := readSuperBlock_eq_ok.mp hr
  obtain ⟨fs1, hgroups, h⟩ := bind_eq_ok.mp h
  obtain ⟨hmount, hheap⟩ := SameMount.readGroups hgroups
  obtain ⟨_, -, h⟩ := bind_eq_ok.mp h
  obtain ⟨node, hnode, h⟩ := bind_eq_ok.mp h
  obtain ⟨inode, hinode, hnode⟩ := bind_eq_ok.mp hnode
  cases node with
  | none => cases h
  | some node =>
    obtain ⟨_, -, h⟩ := bind_eq_ok.mp h
    cases h
    cases inode with
    | none => cases hnode
    | some inode =>
      have hsize := inodeSize_of_readInode hinode
      rw [hmount.superBlock, hmount.blockSize] at hsize
      exact ⟨hmount, hheap, hb, hi, hg, hs, hsize⟩

/-- The driver can delete inodes only when it does not divide by zero for it. -/
theorem inodesPerGroup_of_deleteInode {ino : Nat} (hheap : fs.heapOk = true)
    (h : Trapping.deleteInode fs inode ino = .ok r) : 0 < fs.inodesPerGroup := by
  rw [Trapping.deleteInode, hheap] at h
  obtain ⟨_, hquo, -⟩ := bind_eq_ok.mp h
  exact (quo_eq_ok.mp hquo).1

/-- No assertion of `ext2_init` fails. -/
def Accepts (fs : Ext2) (raw : FsNode) : Prop := ∀ expr, fs.ext2Init raw ≠ .error (.assertion expr)

/-- The filesystem is mounted, and from then on the driver is safe, whatever has become of the rest of its state. -/
def MountSafe (fs : Ext2) (raw : FsNode) : Prop :=
  ∃ fs' root, fs.ext2Init raw = .ok (fs', root) ∧ ∀ state, SameMount fs' state → DriverSafe state

/-- A filesystem that `ext2_init` accepts is safe exactly when its superblock is sound. -/
theorem mountSafe_iff {raw : FsNode} (h : Accepts fs raw) : MountSafe fs raw ↔ fs.superBlock.Sound := by
  constructor
  · rintro ⟨fs', root, hinit, hsafe⟩
    have hm := ext2Init_mounted hinit
    have hsize := fs.superBlock.blockSize_pos
    obtain ⟨r, hdelete⟩ := (hsafe fs' (.refl fs')).deleteInode (fun _ => 0) 0
    have hdiv := inodesPerGroup_of_deleteInode hm.heapOk hdelete
    rw [hm.mount.inodesPerGroup] at hdiv
    refine ⟨hm.blocksPerGroup, hm.inodesPerGroup, ?_, hsize.1.mp hm.blockSize, ⟨hm.inodeSize.1, ?_⟩, ?_⟩
    · exact (fs.superBlock.groupCount_pos hm.blocksPerGroup hm.inodesPerGroup).mp hm.groupCount
    · exact Nat.le_trans hm.inodeSize.2 (Nat.le_of_eq (hsize.2 hm.blockSize))
    · exact fs.superBlock.groupCount_le.mp (Nat.div_pos_iff.mp hdiv).2
  · intro hsound
    cases hinit : fs.ext2Init raw with
    | error e =>
      obtain ⟨expr, rfl⟩ := hsound.onlyAsserts raw e hinit
      exact absurd hinit (h expr)
    | ok r =>
      have hdiv := hsound.divisors.congr (ext2Init_mounted hinit).mount
      exact ⟨r.1, r.2, hinit, fun state hstate => (hdiv.congr hstate).driverSafe⟩

/-- The descriptors of two groups. -/
def twoGroups : Mem := store (store (store (store (store (store (fun _ => 0) 0 4 3) 4 4 4) 8 4 5) 32 4 11) 36 4 12) 40 4 13

/-- The driver before `ext2_init`, with a superblock of a drive that has these descriptors and a root directory. -/
def unmounted (sb : SuperBlock) : Ext2 :=
  { smallFs with superBlock := sb, disk := Function.update smallFs.disk 2 twoGroups, groups := fun _ => 0, blockSize := 0, groupCount := 0,
                 inodesPerGroup := 0 }

/-- Sixteen blocks and eight inodes in one group. -/
theorem mountSafe_small : MountSafe (unmounted ⟨8, 16, 0, 16, 8, 0xEF53, 128⟩) emptyNode := by
  refine (mountSafe_iff fun expr h => ?_).mpr ⟨by decide, by decide, by decide, by decide, by decide, by decide⟩
  have hok : ((unmounted ⟨8, 16, 0, 16, 8, 0xEF53, 128⟩).ext2Init emptyNode).toBool = true := by decide
  rw [h] at hok
  cases hok

/-- One inode in two groups: the filesystem is mounted with no inodes a group, and no inode can be deleted without a division by zero.
Inodes of no bytes are not noticed before `ext2_init` divides by their size. -/
theorem mount_divides_by_zero : (∃ fs' root, (unmounted ⟨1, 16, 0, 8, 8, 0xEF53, 128⟩).ext2Init emptyNode = .ok (fs', root) ∧
      Trapping.deleteInode fs' (smallInode iFile 4 7) 3 = .error .divideError) ∧
    ¬ MountSafe (unmounted ⟨1, 16, 0, 8, 8, 0xEF53, 128⟩) emptyNode ∧
    (unmounted ⟨8, 16, 0, 16, 8, 0xEF53, 0⟩).ext2Init emptyNode = .error .divideError := by
  have hdelete : ∀ fs' root, (unmounted ⟨1, 16, 0, 8, 8, 0xEF53, 128⟩).ext2Init emptyNode = .ok (fs', root) →
      Trapping.deleteInode fs' (smallInode iFile 4 7) 3 = .error .divideError := by
    intro fs' root hinit
    have hm := ext2Init_mounted hinit
    have hzero : fs'.inodesPerGroup = 0 := hm.mount.inodesPerGroup
    simp [Trapping.deleteInode, hm.heapOk, quo, hzero]
    rfl
  refine ⟨exists_ok_pair (by decide) hdelete, ?_, rfl⟩
  rintro ⟨fs', root, hinit, hsafe⟩
  obtain ⟨_, h⟩ := (hsafe fs' (.refl fs')).deleteInode (smallInode iFile 4 7) 3
  rw [hdelete fs' root hinit] at h
  cases h

end OmegaOS
