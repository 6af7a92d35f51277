import OmegaOS.Theorems.GroupAccounting

/-!
# Allocation while there is space

The loop over the groups ends at the first group: a group without a clear bit is entered behind the search as if bit 0 had been found, and
bit 0 stands for nothing found. So an allocation succeeds when the first group has a clear bit and bit 0 is none.
-/

namespace OmegaOS

open ByteMem CStr Ext2

variable {fs fs' fs2 : Ext2} {pool : Pool} {ino i b newIno : Nat} {name : Str}

/-! ## The first group -/

/-- Some group has a free block, or a free inode. -/
def Ext2.SomeFree (fs : Ext2) (pool : Pool) : Prop := ∃ i < fs.groupCount, (fs.clearBits pool i).Nonempty

/-- The first group has a clear bit, and bit 0 is not clear. -/
def Ext2.FirstReady (fs : Ext2) (pool : Pool) : Prop := (fs.clearBits pool 0).Nonempty ∧ fs.bit pool 0 0 = true

theorem mem_clearBits : b ∈ fs.clearBits pool i ↔ b < 8 * fs.blockSize ∧ fs.bit pool i b = false := by
  simp [clearBits]

/-- What the loop over the groups comes to: it takes a bit of the first group, or nothing. -/
theorem Working.allocateBit (hw : Working fs) (hcount : FreeCounted fs) (hgroups : 0 < fs.groupCount) (pool : Pool) :
    (¬ fs.FirstReady pool ∧ fs.allocateBit pool fs.groupCount 0 = (0, fs)) ∨
      (fs.FirstReady pool ∧ ∃ b fs', fs.allocateBit pool fs.groupCount 0 = (fs.bitNumber pool 0 b, fs') ∧ BitTaken fs fs' pool 0 b) := by
  obtain ⟨hlo, hhi, -⟩ := hw.geometry.blockSize_bounds
  obtain ⟨rest, hrest⟩ := Nat.exists_eq_succ_of_ne_zero (ne_of_gt hgroups)
  have hfree : 0 < fs.freeCount pool 0 ↔ (fs.clearBits pool 0).Nonempty := by
    rw [hcount.counts pool 0 hgroups]
    exact Finset.card_pos
  rw [hrest, Ext2.allocateBit]
  by_cases hsome : (fs.clearBits pool 0).Nonempty
  · obtain ⟨c, hc⟩ := hsome
    obtain ⟨hc, hclear⟩ := mem_clearBits.mp hc
    rw [if_pos (hfree.mpr ⟨c, mem_clearBits.mpr ⟨hc, hclear⟩⟩), hw.readBlock, hw.geometry.physical_bitmap pool hgroups]
    dsimp only
    cases hfind : findBit (fs.disk (fs.bitmapBlock pool 0)) fs.blockSize 0 with
    | none =>
      have hset : fs.bit pool 0 c = true := findBit_none hfind (by omega) (by omega)
      simp [hset] at hclear
    | some b =>
      obtain ⟨hb, hlt⟩ := findBit_some hfind
      dsimp only
      by_cases hb0 : b = 0
      · left
        rw [hb0] at hb
        refine ⟨fun h => ?_, by rw [Ext2.takeBit, if_pos hb0]⟩
        have hset := h.2
        simp [Ext2.bit, hb] at hset
      · right
        have hfirst : fs.bit pool 0 0 = true := by
          cases hbit : fs.bit pool 0 0 with
          | true => rfl
          | false =>
            obtain ⟨size, hsize⟩ := Nat.exists_eq_succ_of_ne_zero (show fs.blockSize ≠ 0 by omega)
            rw [hsize, findBit_zero size hbit] at hfind
            exact absurd (Option.some.inj hfind).symm hb0
        obtain ⟨hnumber, htaken⟩ := takeBit_taken hw.geometry.bitmapLayout hgroups hb0 (by omega) hb (hfree.mpr ⟨c, mem_clearBits.mpr ⟨hc, hclear⟩⟩)
        have hword : fs.bitNumber pool 0 b < 2 ^ 32 := by
          rw [Ext2.bitNumber, Nat.mul_zero]
          omega
        rw [Nat.mod_eq_of_lt hword] at hnumber
        exact ⟨⟨⟨c, mem_clearBits.mpr ⟨hc, hclear⟩⟩, hfirst⟩, b, _, Prod.ext hnumber rfl, htaken⟩
  · left
    rw [if_neg fun h => hsome (hfree.mp h), Ext2.takeBit, if_pos rfl]
    exact ⟨fun h => hsome h.1, rfl⟩

theorem Working.allocateBit_ne_zero (hw : Working fs) (hcount : FreeCounted fs) (hgroups : 0 < fs.groupCount) (pool : Pool) :
    (fs.allocateBit pool fs.groupCount 0).1 ≠ 0 ↔ fs.FirstReady pool := by
  rcases hw.allocateBit hcount hgroups pool with ⟨hready, heq⟩ | ⟨hready, b, fs', heq, -⟩
  · rw [heq]
    simp [hready]
  · rw [heq]
    simp [hready, bitNumber]

/-! ## Blocks -/

/-- `allocateBlock` succeeds, and the block that the inode gets was free and is in use after it. -/
def AllocatesFree (fs : Ext2) (inode : Mem) (ino k : Nat) : Prop :=
  ∃ i b inode' fs', fs.allocateBlock inode ino k = (true, inode', fs') ∧ i < fs.groupCount ∧ b < fs.superBlock.blocksPerGroup ∧
    fs.bit .blocks i b = false ∧ fs'.bit .blocks i b = true ∧ iBlock inode' k = fs.bitNumber .blocks i b

/-- When `allocateBlock` gives a free block. -/
theorem Consistent.allocatesFree_iff (hc : Consistent fs) (hw : Working fs) (hcount : FreeCounted fs) (inode : Mem) (hino : fs.InodeExists ino)
    (hk : k < ndirBlocks) : AllocatesFree fs inode ino k ↔ fs.FirstReady .blocks := by
  have hready := hw.allocateBit_ne_zero hcount (Nat.zero_lt_of_lt hino) .blocks
  rcases (hw.opened hino).allocateBlock hc.freeBlocks inode k with ⟨heq, hnone⟩ | ⟨j, b, fs1, halloc, htaken, ⟨-, hset⟩ | ⟨fs2, hwritten, heq⟩⟩
  · rw [← hready, hnone hw.heapOk]
    refine ⟨?_, fun h => absurd rfl h⟩
    rintro ⟨i, b, inode', fs', hrun, -⟩
    simp [heq] at hrun
  · simp [setRealBlock_direct fs1 inode hk] at hset
  · obtain ⟨hb, -⟩ := hc.freeBlocks j b htaken.group htaken.inBitmap htaken.clear
    have hlt := hc.geometry.lastBlock_lt
    have hle := bitNumber_le htaken.group hb
    refine ⟨fun _ => hready.mp ?_, fun _ => ⟨j, b, _, fs2, heq, htaken.group, hb, htaken.clear, ?_, ?_⟩⟩
    · rw [halloc]
      exact Nat.succ_ne_zero _
    · rw [hwritten.bit (hc.geometry.congr htaken.shape) ((htaken.shape.inodeExists ino).mpr hino) .blocks
        (by rw [htaken.shape.groupCount]; exact htaken.group), htaken.bits .blocks j b htaken.group htaken.inBitmap]
      simp
    · rw [iBlock_grownInode fs inode (by omega), if_pos ⟨hk, rfl⟩]

/-! ## Inodes -/

/-- `allocateAndCreateInode` returns an inode that was free. -/
def ObtainsInode (fs : Ext2) (ino : Nat) (name : Str) (attr : Nat) : Prop :=
  ∃ newInode newIno parent fs', fs.allocateAndCreateInode (fs.storedInode ino) ino name attr = .ok (some (newInode, newIno), parent, fs') ∧
    FreeInode fs newIno

/-- The directory has room for the entry: behind its last record, or in a block more, of which it may have one and some group has one. -/
def HasRoom (fs : Ext2) (ino : Nat) (name : Str) : Prop :=
  fs.LastRoom (fs.storedInode ino) name ∨ fs.dirCount ino < ndirBlocks ∧ fs.SomeFree .blocks

theorem SameShape.firstReady (hs : SameShape fs fs') (hbits : ∀ b < 8 * fs.blockSize, fs'.bit pool 0 b = fs.bit pool 0 b)
    (hsize : 0 < fs.blockSize) : fs'.FirstReady pool ↔ fs.FirstReady pool := by
  have hclear : fs'.clearBits pool 0 = fs.clearBits pool 0 := by
    ext b
    rw [mem_clearBits, mem_clearBits, hs.blockSize]
    exact and_congr_right fun hb => by rw [hbits b hb]
  rw [Ext2.FirstReady, hclear, hbits 0 (by omega)]
  rfl

theorem WellFormedDir.kept_lastRoom (h : WellFormedDir fs ino) (g : Geometry fs) (hk : DirKept fs fs' ino (fs.dirCount ino)) (name : Str) :
    fs'.LastRoom (fs'.storedInode ino) name ↔ fs.LastRoom (fs.storedInode ino) name := by
  have hcount : ∀ k, iSize (fs'.storedInode ino) / fs'.blockSize = k + 1 ↔ iSize (fs.storedInode ino) / fs.blockSize = k + 1 := by
    intro k
    rw [hk.stored, hk.kept.shape.blockSize]
  refine exists_congr fun k => exists_congr fun d => ?_
  rw [hcount]
  refine and_congr_right fun hlast => ?_
  have hlt : k < fs.dirCount ino := by
    rw [dirCount, hlast]
    exact Nat.lt_succ_self k
  rw [h.dirShape.kept_dirBlock g hk hlt hlt, hk.kept.shape.blockSize]

/-- The directory and the blocks' bitmaps, when a free inode is taken and written. -/
theorem Consistent.inodeTaken (hc : Consistent fs) (hcount : FreeCounted fs) (h : WellFormedDir fs ino) {fs1 : Ext2}
    {inode : Mem} (htaken : BitTaken fs fs1 .inodes 0 b) (hnew : FreeInode fs newIno) (hwritten : InodeWritten fs1 fs2 newIno inode)
    (hwrite : fs1.writeInode newIno inode = (true, fs2)) :
    DirKept fs fs2 ino (fs.dirCount ino) ∧ FreeCounted fs2 ∧ (fs2.FirstReady .blocks ↔ fs.FirstReady .blocks) := by
  obtain ⟨hlo, -⟩ := hc.geometry.blockSize_bounds
  have hguarded := (guarded_of_geometry hc.geometry hc.freeBlocks).taken htaken
  obtain ⟨hbitmaps, -⟩ := hguarded.writeInode newIno inode
  rw [hwrite] at hbitmaps
  refine ⟨h.inodeTaken hc.geometry hnew htaken hwritten, (hcount.taken htaken).kept hbitmaps, ?_⟩
  refine (htaken.shape.trans hwritten.shape).firstReady (fun c hc' => ?_) (by omega)
  rw [hbitmaps.bit .blocks (by rw [htaken.shape.groupCount]; exact htaken.group), htaken.bits .blocks 0 c htaken.group hc']
  simp

/-- A free inode of the first group is taken, and written as a new one. -/
def InodeTaken (fs fs₂ : Ext2) (newIno attr : Nat) : Prop :=
  ∃ b fs₁, newIno = fs.bitNumber .inodes 0 b ∧ BitTaken fs fs₁ .inodes 0 b ∧
    fs₁.writeInode newIno (Ext2.initInode attr) = (true, fs₂) ∧ InodeWritten fs₁ fs₂ newIno (Ext2.initInode attr)

theorem InodeTaken.free {attr : Nat} (h : InodeTaken fs fs2 newIno attr) (hc : Consistent fs) : FreeInode fs newIno := by
  obtain ⟨b, fs1, hnumber, htaken, -⟩ := h
  exact ⟨0, b, htaken.group, hc.freeInodes 0 b htaken.group htaken.inBitmap htaken.clear, htaken.clear, hnumber⟩

/-- How a creation ends: without an inode there is nothing done; otherwise one is taken and written, and the insertion decides. It fails when
there is no room for the entry, and has then changed nothing. -/
theorem Consistent.creation (hc : Consistent fs) (hw : Working fs) (hcount : FreeCounted fs) (h : WellFormedDir fs ino) (name : Str) (attr : Nat) :
    (¬ fs.FirstReady .inodes ∧ fs.allocateAndCreateInode (fs.storedInode ino) ino name attr = .ok (none, fs.storedInode ino, fs)) ∨
      fs.FirstReady .inodes ∧ ∃ newIno fs2, InodeTaken fs fs2 newIno attr ∧ ∃ done parent fs',
        fs2.insertInodeInDir (fs2.storedInode ino) ino newIno name (getFileType attr) = .ok (done, parent, fs') ∧
        (done = true ↔ fs.LastRoom (fs.storedInode ino) name ∨ fs.FirstReady .blocks) ∧ (done = false → fs' = fs2) ∧
        fs.allocateAndCreateInode (fs.storedInode ino) ino name attr =
          .ok (if done then some (Ext2.initInode attr, newIno) else none, parent, fs') := by
  have g := hc.geometry
  have hgroups : 0 < fs.groupCount := Nat.zero_lt_of_lt h.dirShape.exists_
  rcases hw.allocateBit hcount hgroups .inodes with ⟨hready, heq⟩ | ⟨hready, b, fs1, heq, htaken⟩
  · refine .inl ⟨hready, ?_⟩
    rw [allocateAndCreateInode, hw.heapOk, heq]
    rfl
  · have hb := hc.freeInodes 0 b hgroups htaken.inBitmap htaken.clear
    have hnew : FreeInode fs (fs.bitNumber .inodes 0 b) := ⟨0, b, hgroups, hb, htaken.clear, rfl⟩
    have hne : fs.bitNumber .inodes 0 b ≠ 0 := Nat.succ_ne_zero _
    have hw1 := hw.congr htaken.shape
    have hexists1 := (htaken.shape.inodeExists _).mpr (hnew.exists_ g)
    obtain ⟨fs2, hwrite, hwritten⟩ := (hw1.opened hexists1).writeInode (initInode attr)
    obtain ⟨hkept, hcount2, hready2⟩ := hc.inodeTaken hcount h htaken hnew hwritten hwrite
    have hw2 := hw1.congr hwritten.shape
    obtain ⟨done, parent, fs', hinsert, hdone, hfail⟩ := (h.kept g hkept).1.insertInodeInDir_returns hw2 (hkept.kept.freeOk hc.freeBlocks) name
      (fs.bitNumber .inodes 0 b) (getFileType attr)
    rw [h.kept_lastRoom g hkept name, hw2.allocateBit_ne_zero hcount2 (by rwa [hkept.kept.shape.groupCount]), hready2] at hdone
    refine .inr ⟨hready, _, fs2, ⟨b, fs1, rfl, htaken, hwrite, hwritten⟩, done, parent, fs', hinsert, hdone, hfail, ?_⟩
    rw [hkept.stored] at hinsert
    rw [allocateAndCreateInode, hw.heapOk, heq]
    simp only [Bool.not_true, Bool.false_eq_true, if_false, if_neg hne]
    rw [createInode, (hw1.opened hexists1).readInode hw1.heapOk]
    rw [hwrite]
    dsimp only
    rw [hinsert]
    cases done <;> rfl

theorem Consistent.obtainsInode_iff (hc : Consistent fs) (hw : Working fs) (hcount : FreeCounted fs) (h : WellFormedDir fs ino) (attr : Nat) :
    ObtainsInode fs ino name attr ↔ fs.FirstReady .inodes ∧ (fs.LastRoom (fs.storedInode ino) name ∨ fs.FirstReady .blocks) := by
  rcases hc.creation hw hcount h name attr with ⟨hready, hrun⟩ | ⟨hready, newIno, fs2, htaken, done, parent, fs', -, hdone, -, hrun⟩
  · refine ⟨?_, fun hboth => absurd hboth.1 hready⟩
    rintro ⟨newInode, newIno, parent, fs', hrun', -⟩
    simp [hrun] at hrun'
  · constructor
    · rintro ⟨newInode, newIno, parent', fs'', hrun', -⟩
      rw [hrun] at hrun'
      cases done with
      | false => cases hrun'
      | true => exact ⟨hready, hdone.mp rfl⟩
    · rintro ⟨-, hboth⟩
      rw [hdone.mpr hboth, if_pos rfl] at hrun
      exact ⟨_, _, parent, fs', hrun, htaken.free hc⟩

/-- An allocation succeeds when the first group has what it needs and bit 0 of the bitmap is set, whatever the other groups have. A new
inode also needs a block for its directory, unless the last record has room. -/
theorem allocation_succeeds_iff (hc : Consistent fs) (hw : Working fs) (hcount : FreeCounted fs) :
    (∀ inode ino k, fs.InodeExists ino → k < ndirBlocks → (AllocatesFree fs inode ino k ↔ fs.FirstReady .blocks)) ∧
      ∀ ino name attr, WellFormedDir fs ino → HasRoom fs ino name →
        (ObtainsInode fs ino name attr ↔ fs.FirstReady .inodes ∧ (fs.LastRoom (fs.storedInode ino) name ∨ fs.FirstReady .blocks)) :=
  ⟨fun inode _ _ hino hk => hc.allocatesFree_iff hw hcount inode hino hk, fun _ _ attr h _ => hc.obtainsInode_iff hw hcount h attr⟩

/-- A second block for the file `a`, and a new file in the root directory. -/
theorem allocation_succeeds_small : AllocatesFree smallFs (smallFs.storedInode 3) 3 1 ∧ ObtainsInode smallFs 2 [0x63] iFile := by
  obtain ⟨hblocks, hinodes⟩ := allocation_succeeds_iff smallFs_consistent smallFs_working smallFs_counted
  have hroom : smallFs.LastRoom (smallFs.storedInode 2) [0x63] :=
    ⟨0, 12, by decide, by decide, by decide⟩
  refine ⟨(hblocks _ 3 1 (by decide) (by decide)).mpr ⟨⟨7, mem_clearBits.mpr ⟨by decide, by decide⟩⟩, by decide⟩,
    (hinodes 2 _ iFile smallFs_root (Or.inl hroom)).mpr ⟨⟨⟨3, mem_clearBits.mpr ⟨by decide, by decide⟩⟩, by decide⟩, Or.inl hroom⟩⟩

/-! ## A full first group -/

/-- A filesystem of two groups, with sixteen blocks and eight inodes each. Every block of the first one is in use, and the second one has
thirteen free blocks. -/
def twoGroupFs : Ext2 where
  disk
    | 3 => fun _ => 0xFF
    | 4 => fun x => if x = 0 then 0x07 else 0xFF
    | 17 => fun x => if x = 0 then 0x07 else if x = 1 then 0 else 0xFF
    | 18 => fun x => if x = 0 then 0 else 0xFF
    | _ => fun _ => 0
  readable _ := true
  heapOk := true
  stray _ := 0
  superBlock := ⟨16, 32, 0, 16, 8, 0xEF53, 128⟩
  groups :=
    let first := store (store (store (store (store (fun _ => 0) 0 4 3) 4 4 4) 8 4 5) 12 2 0) 14 2 5
    store (store (store (store (store first 32 4 17) 36 4 18) 40 4 19) 44 2 13) 46 2 8
  blockSize := 1024
  groupCount := 2
  inodesPerGroup := 8
  written := []

theorem twoGroupFs_geometry : Geometry twoGroupFs :=
  ⟨⟨0, by decide, rfl⟩, by decide, by decide, rfl, by decide, by decide, by decide, forall_metaBlocks (by decide) (by decide),
    metaBlocks_distinct (by decide) (by decide)⟩

/-- Where its clear bits begin and end. -/
def twoGroupClear : Pool → Nat → Nat × Nat
  | .blocks, 0 => (16, 16)
  | .blocks, _ => (3, 16)
  | .inodes, 0 => (3, 8)
  | .inodes, _ => (0, 8)

theorem twoGroupFs_bit (pool : Pool) (hi : i < 2) (b : Nat) :
    twoGroupFs.bit pool i b = false ↔ (twoGroupClear pool i).1 ≤ b ∧ b < (twoGroupClear pool i).2 := by
  have hcases : i = 0 ∨ i = 1 := by omega
  rcases lt_or_ge b 16 with hb | hb
  · revert b
    cases pool <;> rcases hcases with rfl | rfl <;> decide
  · have hend : (twoGroupClear pool i).2 ≤ 16 := by cases pool <;> rcases hcases with rfl | rfl <;> decide
    have hones : twoGroupFs.disk (twoGroupFs.bitmapBlock pool i) (b / 8) = 0xFF := by
      have hbitmaps : ∀ i < 2, twoGroupFs.bitmapBlock .blocks i = 3 + 14 * i ∧ twoGroupFs.bitmapBlock .inodes i = 4 + 14 * i := by
        decide
      have h0 : b / 8 ≠ 0 := by omega
      have h1 : b / 8 ≠ 1 := by omega
      cases pool <;> rcases hcases with rfl | rfl <;> simp only [hbitmaps _ hi] <;> simp [twoGroupFs, h0, h1]
    rw [bit, bitOf_ones hones]
    constructor
    · intro h
      cases h
    · omega

theorem twoGroupFs_consistent : Consistent twoGroupFs := by
  refine ⟨twoGroupFs_geometry, fun i b hi _ hclear => ?_, fun i b hi _ hclear => ?_⟩
  · obtain ⟨hlo, hhi⟩ := (twoGroupFs_bit .blocks hi b).mp hclear
    replace hi : i < 2 := hi
    have hsecond : i = 1 ∧ 3 ≤ b ∧ b < 16 := by
      have hcases : i = 0 ∨ i = 1 := by omega
      rcases hcases with rfl | rfl
      · exact absurd (lt_of_le_of_lt hlo hhi) (lt_irrefl _)
      · exact ⟨rfl, hlo, hhi⟩
    obtain ⟨rfl, hlo, hhi⟩ := hsecond
    refine ⟨hhi, fun x hx => ?_⟩
    have hx19 := forall_metaBlocks (P := fun x => x.number twoGroupFs ≤ 19) (by decide) (by decide) x hx
    have heq : twoGroupFs.bitNumber .blocks 1 b = b + 16 * 1 + 1 := rfl
    omega
  · obtain ⟨-, hhi⟩ := (twoGroupFs_bit .inodes hi b).mp hclear
    have hend : ∀ i < 2, (twoGroupClear .inodes i).2 = 8 := by decide
    rwa [hend i hi] at hhi

theorem twoGroupFs_counted : FreeCounted twoGroupFs := by
  refine twoGroupFs_consistent.freeCounted fun pool i hi => ?_
  have hcounts : ∀ i < 2, twoGroupFs.freeCount pool i =
      ((Finset.range (twoGroupFs.perGroup pool)).filter fun b => twoGroupFs.bit pool i b = false).card := by
    cases pool <;> decide
  exact hcounts i hi

/-- The allocation of a block fails although the second group has thirteen. -/
theorem full_first_group_fails :
    Consistent twoGroupFs ∧ Working twoGroupFs ∧ FreeCounted twoGroupFs ∧ twoGroupFs.SomeFree .blocks ∧ twoGroupFs.InodeExists 3 ∧
      (twoGroupFs.allocateBlock (fun _ => 0) 3 0).1 = false ∧ ¬ AllocatesFree twoGroupFs (fun _ => 0) 3 0 := by
  have hret : (twoGroupFs.allocateBlock (fun _ => 0) 3 0).1 = false := by decide
  refine ⟨twoGroupFs_consistent, ⟨twoGroupFs_geometry, fun _ => rfl, rfl⟩, twoGroupFs_counted, ⟨1, by decide, 3, ?_⟩, by decide, hret, ?_⟩
  · exact mem_clearBits.mpr ⟨by decide, (twoGroupFs_bit .blocks (by decide) 3).mpr (by decide)⟩
  · rintro ⟨i, b, inode', fs', hrun, -⟩
    rw [hrun] at hret
    cases hret

end OmegaOS
