import OmegaOS.Lemmas.Ext2Ledger
import OmegaOS.Lemmas.Ext2Release

/-!
# The descriptors on the disk

`ext2_init` reads as many blocks of descriptors as the groups need, and every update writes the first of them back. So what is read at the
next start is what the driver had in memory, when the descriptors are one block.
-/

namespace OmegaOS

open ByteMem CStr Ext2

variable {fs fs' : Ext2} {pool : Pool} {ts : List (Pool × Nat × Nat)} {j b n : Nat}

/-! ## Reading the table -/

/-- A byte of the table of descriptors on the disk. -/
def Ext2.tableByte (fs : Ext2) (x : Nat) : BitVec 8 := fs.disk (fs.physical (blockGroupStart + x / fs.blockSize)) (x % fs.blockSize)

/-- The loop reads the table byte by byte as the drive has it. -/
theorem readDescriptors_eq (hread : ∀ q, fs.readable q = true) (hpos : 0 < fs.blockSize) (buffer : Mem) (fuel i : Nat) :
    ∃ table, fs.readDescriptors buffer fuel i = some table ∧
      ∀ x, table x = if i * fs.blockSize ≤ x ∧ x < (i + fuel) * fs.blockSize then fs.tableByte x else buffer x := by
  induction fuel generalizing buffer i with
  | zero => exact ⟨buffer, rfl, fun x => by rw [add_zero, if_neg (by omega)]⟩
  | succ fuel ih =>
    obtain ⟨table, heq, htable⟩ := ih (copy buffer (i * fs.blockSize) (fs.disk (fs.physical (blockGroupStart + i))) 0 fs.blockSize) (i + 1)
    refine ⟨table, ?_, fun x => ?_⟩
    · rwa [readDescriptors, readBlock, if_pos (hread _)]
    · have hnext : (i + 1) * fs.blockSize = i * fs.blockSize + fs.blockSize := Nat.succ_mul _ _
      have hend : (i + 1) * fs.blockSize ≤ (i + (fuel + 1)) * fs.blockSize := Nat.mul_le_mul_right _ (by omega)
      rw [htable, show i + 1 + fuel = i + (fuel + 1) by omega]
      by_cases hlater : (i + 1) * fs.blockSize ≤ x ∧ x < (i + (fuel + 1)) * fs.blockSize
      · rw [if_pos hlater, if_pos (by omega)]
      · rw [if_neg hlater]
        by_cases hhere : i * fs.blockSize ≤ x ∧ x < i * fs.blockSize + fs.blockSize
        · have hdiv : x / fs.blockSize = i := by
            rw [Nat.div_eq_iff hpos]
            omega
          have hmod : x % fs.blockSize = x - i * fs.blockSize := by
            have := Nat.div_add_mod x fs.blockSize
            rw [hdiv, mul_comm] at this
            omega
          rw [copy_inside _ _ _ hhere.1 hhere.2, if_pos (by omega), tableByte, hdiv, hmod, zero_add]
        · rw [copy_outside _ _ _ (by omega), if_neg (by omega)]

/-- The descriptors that `ext2_init` would read are the ones in memory, for every group. -/
def OnDisk (fs : Ext2) : Prop :=
  ∃ table, fs.readDescriptors (fun _ => 0) fs.groupBlockSpan 0 = some table ∧ ∀ x < fs.groupCount * descSize, table x = fs.groups x

theorem span_le (hpos : 0 < fs.blockSize) : fs.groupCount * descSize < fs.groupBlockSpan * fs.blockSize := by
  have := Nat.lt_div_mul_add (a := fs.groupCount * descSize) hpos
  rw [groupBlockSpan, Nat.succ_mul]
  omega

theorem onDisk_iff (hread : ∀ q, fs.readable q = true) (hpos : 0 < fs.blockSize) :
    OnDisk fs ↔ ∀ x < fs.groupCount * descSize, fs.tableByte x = fs.groups x := by
  have hspan := span_le hpos
  obtain ⟨table, heq, htable⟩ := readDescriptors_eq hread hpos (fun _ => 0) fs.groupBlockSpan 0
  have hbyte : ∀ x < fs.groupCount * descSize, table x = fs.tableByte x := by
    intro x hx
    rw [htable, Nat.zero_add, Nat.zero_mul, if_pos (by omega)]
  constructor
  · rintro ⟨table', heq', htable'⟩ x hx
    rw [heq] at heq'
    cases heq'
    rw [← hbyte x hx]
    exact htable' x hx
  · intro h
    exact ⟨table, heq, fun x hx => (hbyte x hx).trans (h x hx)⟩

/-! ## What the calls leave -/

/-- The first block of descriptors is on the disk as it is in memory. -/
def FirstStored (fs : Ext2) : Prop := ∀ x < fs.blockSize, fs.disk blockGroupStart x = fs.groups x

theorem Ledger.firstStored (h : Ledger fs ts fs') (hfirst : FirstStored fs) : FirstStored fs' := by
  induction h with
  | refl => exact hfirst
  | kept hk _ ih =>
    refine ih fun x hx => ?_
    rw [hk.shape.blockSize] at hx
    rw [hk.groups, hk.disk _ fun ha => ha.1 rfl]
    exact hfirst x hx
  | taken ht _ ih =>
    refine ih fun x hx => ?_
    rw [ht.shape.blockSize] at hx
    exact ht.table x hx

theorem BitReleased.firstStored (h : BitReleased fs fs' pool j b) : FirstStored fs' := by
  intro x hx
  rw [h.shape.blockSize] at hx
  exact h.table x hx

theorem BitReleased.dataKept (h : BitReleased fs fs' pool j b) : DataKept fs fs' :=
  ⟨h.shape, fun q hq _ => h.disk q (hq.2 pool j h.group) hq.1⟩

theorem physical_mod (fs : Ext2) (n : Nat) : fs.physical (n % 2 ^ 32) = fs.physical n := by
  rw [physical, Nat.mod_mul_mod]
  rfl

/-- The bit that deletion reads out of a number stands for this number. -/
theorem bitNumber_before (fs : Ext2) (n : Nat) :
    fs.bitNumber .blocks (n / fs.superBlock.blocksPerGroup) (bitBefore (n % fs.superBlock.blocksPerGroup)) % 2 ^ 32 = n % 2 ^ 32 := by
  have hsum := Nat.mod_add_div n fs.superBlock.blocksPerGroup
  show (bitBefore (n % fs.superBlock.blocksPerGroup) +
    fs.superBlock.blocksPerGroup * (n / fs.superBlock.blocksPerGroup) + 1) % 2 ^ 32 = n % 2 ^ 32
  rw [bitBefore]
  omega

theorem Guarded.releasedInode (h : Guarded fs) (hr : BitReleased fs fs' .inodes j b) : Guarded fs' := by
  refine h.mono hr.shape fun i c hi hc hclear => h.free i c hi hc ?_
  rw [hr.bits .blocks i c hi hc] at hclear
  simpa using hclear

theorem Guarded.releasedBlock (h : Guarded fs) (hn : OffBitmaps fs (fs.physical n))
    (hr : BitReleased fs fs' .blocks (n / fs.superBlock.blocksPerGroup) (bitBefore (n % fs.superBlock.blocksPerGroup))) : Guarded fs' := by
  refine h.mono hr.shape fun i c hi hc hclear => ?_
  rw [hr.bits .blocks i c hi hc] at hclear
  by_cases hsame : i = n / fs.superBlock.blocksPerGroup ∧ c = bitBefore (n % fs.superBlock.blocksPerGroup)
  · rwa [hsame.1, hsame.2, bitNumber_before, physical_mod]
  · refine h.free i c hi hc ?_
    simpa [hsame] using hclear

/-- What every call is to keep. -/
structure TableKept (fs fs' : Ext2) : Prop where
  shape : SameShape fs fs'
  guarded : Guarded fs'
  first : FirstStored fs'

variable (hg : Guarded fs) (hfirst : FirstStored fs)

include hg hfirst in
theorem Ledger.tableKept (h : Ledger fs ts fs') : TableKept fs fs' := ⟨h.shape, h.guarded hg, h.firstStored hfirst⟩

include hg hfirst in
theorem deleteBlocks_tableKept {inode : Mem} (block fuel : Nat) (hblocks : ∀ k, block ≤ k → k < block + fuel → FileBlock fs inode k) :
    TableKept fs (fs.deleteBlocks inode block fuel).2 := by
  induction fuel generalizing fs block with
  | zero => exact ⟨.refl fs, hg, hfirst⟩
  | succ fuel ih =>
    rw [deleteBlocks]
    rcases deleteBlockBuffer_cases hg.layout (fs.getRealBlock inode block) with ⟨ret, hret, heq⟩ | ⟨fs1, heq, -, hreleased⟩
    · rw [heq]
      dsimp only
      rw [if_pos hret]
      exact ⟨.refl fs, hg, hfirst⟩
    · rw [heq]
      dsimp only
      rw [if_neg (by simp)]
      have hapart := hblocks block .refl (by omega) fs (.refl fs)
      obtain ⟨hs, hguarded, hstored⟩ := ih (hg.releasedBlock hapart hreleased) hreleased.firstStored (block + 1)
        fun k hlo hhi => (hblocks k (by omega) (by omega)).dataKept hreleased.dataKept
      exact ⟨hreleased.shape.trans hs, hguarded, hstored⟩

/-! ## The calls -/

/-- A call of one of the functions that change bitmaps. -/
inductive TableCall where
  | allocateBlock (inode : Mem) (ino block : Nat)
  | deleteBlock (block : Nat)
  | allocateAndCreateInode (parentInode : Mem) (pino : Nat) (name : Str) (attr : Nat)
  | deleteInode (inode : Mem) (ino : Nat)

/-- What a call is given: blocks of files and of directories, which hold neither a bitmap nor the descriptors. -/
def TableCall.Legal (fs : Ext2) : TableCall → Prop
  | allocateBlock _ _ _ => True
  | deleteBlock block => OffBitmaps fs (fs.physical block)
  | allocateAndCreateInode parentInode _ _ _ => DirBlocks fs parentInode
  | deleteInode inode _ => ∀ k < fs.deletedBlocks inode, FileBlock fs inode k

/-- The call succeeds. -/
def TableCall.Succeeds (fs fs' : Ext2) : TableCall → Prop
  | allocateBlock inode ino block => ∃ inode', fs.allocateBlock inode ino block = (true, inode', fs')
  | deleteBlock block => fs.deleteBlock block = (enoer, fs')
  | allocateAndCreateInode parentInode pino name attr => ∃ created parentInode',
      fs.allocateAndCreateInode parentInode pino name attr = .ok (some created, parentInode', fs')
  | deleteInode inode ino => fs.deleteInode inode ino = (enoer, fs')

/-- Calls that succeed one after another. -/
inductive TableRun : Ext2 → List TableCall → Ext2 → Prop where
  | nil (fs : Ext2) : TableRun fs [] fs
  | cons {fs fs₁ fs' : Ext2} {call : TableCall} {calls : List TableCall} :
    call.Legal fs → call.Succeeds fs fs₁ → TableRun fs₁ calls fs' → TableRun fs (call :: calls) fs'

include hg hfirst in
/-- A legal call that succeeds keeps the table on the disk. -/
theorem TableCall.Succeeds.tableKept {call : TableCall} (h : call.Succeeds fs fs') (hlegal : call.Legal fs) : TableKept fs fs' := by
  cases call with
  | allocateBlock inode ino block =>
    obtain ⟨inode', hr⟩ := h
    obtain ⟨ts, hts, -⟩ := hg.allocateBlock hr
    exact hts.ledger.tableKept hg hfirst
  | deleteBlock block =>
    replace h : fs.deleteBlock block = (enoer, fs') := h
    rw [Ext2.deleteBlock] at h
    split at h
    · cases h
    · rcases deleteBlockBuffer_cases hg.layout block with ⟨ret, hret, heq⟩ | ⟨fs1, heq, -, hreleased⟩
      · rw [heq] at h
        exact absurd (Prod.mk.inj h).1 hret
      · rw [heq] at h
        cases h
        exact ⟨hreleased.shape, hg.releasedBlock hlegal hreleased, hreleased.firstStored⟩
  | allocateAndCreateInode parentInode pino name attr =>
    obtain ⟨created, parentInode', hr⟩ := h
    obtain ⟨ts, hts, -⟩ := hg.allocateAndCreateInode hlegal hr
    exact hts.tableKept hg hfirst
  | deleteInode inode ino =>
    replace h : fs.deleteInode inode ino = (enoer, fs') := h
    rcases deleteInode_cases hg.layout inode ino with ⟨ret, hret, heq⟩ | ⟨fs1, hreleased, heq⟩
    · rw [heq] at h
      exact absurd (Prod.mk.inj h).1 hret
    · rw [heq] at h
      obtain ⟨hs, hguarded, hstored⟩ := deleteBlocks_tableKept (hg.releasedInode hreleased) hreleased.firstStored 0
        (fs.deletedBlocks inode) fun k _ hk => (hlegal k (by omega)).dataKept hreleased.dataKept
      rw [h] at hs hguarded hstored
      exact ⟨hreleased.shape.trans hs, hguarded, hstored⟩

include hg hfirst in
theorem TableRun.tableKept {calls : List TableCall} (h : TableRun fs calls fs') : TableKept fs fs' := by
  induction h with
  | nil fs => exact ⟨.refl fs, hg, hfirst⟩
  | cons hlegal hcall _ ih =>
    obtain ⟨hs, hguarded, hstored⟩ := hcall.tableKept hg hfirst hlegal
    obtain ⟨hs', hguarded', hstored'⟩ := ih hguarded hstored
    exact ⟨hs.trans hs', hguarded', hstored'⟩

/-! ## Mounted filesystems -/

/-- A filesystem that `ext2_init` has mounted, with a drive that reads every block: the blocks of descriptors are none of its bitmaps, and
the descriptors in memory are what was read. -/
structure Ext2Mounted (fs : Ext2) : Prop where
  guarded : Guarded fs
  blockSize : ∃ k ≤ 6, fs.blockSize = 1024 * 2 ^ k
  inodesPerGroup : 1 < fs.inodesPerGroup
  readable : ∀ q, fs.readable q = true
  heapOk : fs.heapOk = true
  table : ∀ k, 0 < k → k < fs.groupBlockSpan → OffBitmaps fs (fs.physical (blockGroupStart + k))
  read : ∃ table, fs.readDescriptors (fun _ => 0) fs.groupBlockSpan 0 = some table ∧
    ∀ x < fs.groupBlockSpan * fs.blockSize, fs.groups x = table x

namespace Ext2Mounted

variable (h : Ext2Mounted fs)

include h

theorem blockSize_eq : ∃ d, 0 < d ∧ fs.blockSize = descSize * d := by
  obtain ⟨k, -, hk⟩ := h.blockSize
  exact ⟨32 * 2 ^ k, Nat.mul_pos (by decide) (Nat.two_pow_pos k), by rw [hk, descSize, ← Nat.mul_assoc]⟩

theorem blockSize_pos : 0 < fs.blockSize := by
  obtain ⟨d, hd, hbs⟩ := h.blockSize_eq
  rw [hbs]
  exact Nat.mul_pos (by decide) hd

theorem tableByte {x : Nat} (hx : x < fs.groupBlockSpan * fs.blockSize) : fs.tableByte x = fs.groups x := by
  obtain ⟨table, heq, htable⟩ := h.read
  obtain ⟨table', heq', htable'⟩ := readDescriptors_eq h.readable h.blockSize_pos (fun _ => 0) fs.groupBlockSpan 0
  rw [heq] at heq'
  cases heq'
  rw [htable x hx, htable', Nat.zero_add, Nat.zero_mul, if_pos ⟨Nat.zero_le x, hx⟩]

theorem firstStored : FirstStored fs := by
  intro x hx
  have hspan : fs.blockSize ≤ fs.groupBlockSpan * fs.blockSize := Nat.le_mul_of_pos_left _ (Nat.succ_pos _)
  rw [← h.tableByte (Nat.lt_of_lt_of_le hx hspan), Ext2.tableByte, Nat.div_eq_of_lt hx, Nat.mod_eq_of_lt hx, Nat.add_zero,
    h.guarded.layout.physical_descriptors]

end Ext2Mounted

/-- One block of descriptors on the disk is all of them when they fit it. -/
theorem FirstStored.onDisk (h : FirstStored fs) (l : BitmapLayout fs) (hread : ∀ q, fs.readable q = true) (hpos : 0 < fs.blockSize)
    (hfits : fs.groupCount * descSize ≤ fs.blockSize) : OnDisk fs := by
  refine (onDisk_iff hread hpos).mpr fun x hx => ?_
  have hlt : x < fs.blockSize := by omega
  rw [tableByte, Nat.div_eq_of_lt hlt, Nat.mod_eq_of_lt hlt, add_zero, l.physical_descriptors]
  exact h x hlt

/-- Deleting an inode of a later group is not written to the disk. -/
theorem Ext2Mounted.not_onDisk (h : Ext2Mounted fs) (hmany : fs.blockSize < fs.groupCount * descSize) :
    ∃ call fs', TableRun fs [call] fs' ∧ ¬ OnDisk fs' := by
  obtain ⟨d, hd, hbs⟩ := h.blockSize_eq
  have hipg := h.inodesPerGroup
  have hgroup : d < fs.groupCount := by
    rw [hbs, mul_comm] at hmany
    exact Nat.lt_of_mul_lt_mul_right hmany
  have hdiv : (fs.inodesPerGroup * d + 1) / fs.inodesPerGroup = d := by
    rw [Nat.mul_add_div (by omega), Nat.div_eq_of_lt hipg, add_zero]
  obtain ⟨fs', hreleased, heq⟩ := deleteInode_eq h.guarded.layout h.heapOk (by rwa [hdiv]) (h.readable _)
  rw [hdiv] at hreleased
  have hnone : fs.deletedBlocks (fun _ => 0) = 0 := by
    have hzero : iSize (fun _ => 0) = 0 := by decide
    rw [Ext2.deletedBlocks, hzero, Nat.zero_mod, Nat.zero_div]
    rfl
  refine ⟨.deleteInode (fun _ => 0) (fs.inodesPerGroup * d + 1), fs', .cons (fun k hk => ?_) ?_ (.nil fs'), fun hdisk => ?_⟩
  · rw [hnone] at hk
    omega
  · show fs.deleteInode (fun _ => 0) (fs.inodesPerGroup * d + 1) = (enoer, fs')
    rw [heq, hnone]
    rfl
  · -- the second block of descriptors has not been written
    have hs := hreleased.shape
    rw [onDisk_iff (fun q => by rw [hs.readable]; exact h.readable q) (by rw [hs.blockSize]; exact h.blockSize_pos), hs.groupCount] at hdisk
    have hspan : 1 < fs.groupBlockSpan := by
      have := Nat.div_pos (Nat.le_of_lt hmany) h.blockSize_pos
      rw [Ext2.groupBlockSpan]
      omega
    have hall := span_le h.blockSize_pos
    have hmul := Nat.mul_le_mul_right descSize (show d + 1 ≤ fs.groupCount from hgroup)
    rw [Nat.add_mul, mul_comm d] at hmul
    have hsame : ∀ x, descSize * d + Pool.inodes.countAt ≤ x → x < descSize * d + Pool.inodes.countAt + 2 → fs'.groups x = fs.groups x := by
      intro x hlo hhi
      have hcount : Pool.inodes.countAt + 2 ≤ descSize := by decide
      have hx : x / fs.blockSize = 1 := by
        rw [Nat.div_eq_iff h.blockSize_pos]
        have : descSize ≤ descSize * d := Nat.le_mul_of_pos_right _ hd
        omega
      obtain ⟨hne, hbitmap⟩ := h.table 1 Nat.one_pos hspan
      rw [← hdisk x (by omega), ← h.tableByte (by omega), Ext2.tableByte, Ext2.tableByte, hs.blockSize, hx, hs.physical,
        hreleased.disk _ (hbitmap .inodes d hgroup) hne]
    have hcounted := hreleased.counted
    have hlt : fs.freeCount .inodes d < 2 ^ 16 := load_lt _ _ 2
    have hcount : fs'.freeCount .inodes d = fs.freeCount .inodes d := load_congr hsame
    omega

/-- The descriptors on the disk are those in memory after every run of calls that succeed, exactly when they fit one block. -/
theorem descriptors_onDisk_iff (h : Ext2Mounted fs) :
    (∀ calls fs', TableRun fs calls fs' → OnDisk fs') ↔ fs.groupCount * descSize ≤ fs.blockSize := by
  constructor
  · intro hall
    by_contra hmany
    obtain ⟨call, fs', hrun, hnot⟩ := h.not_onDisk (Nat.lt_of_not_le hmany)
    exact hnot (hall _ _ hrun)
  · intro hfits calls fs' hrun
    obtain ⟨hs, hguarded, hstored⟩ := hrun.tableKept h.guarded h.firstStored
    exact hstored.onDisk hguarded.layout (fun q => by rw [hs.readable]; exact h.readable q) (by rw [hs.blockSize]; exact h.blockSize_pos)
      (by rwa [hs.groupCount, hs.blockSize])

/-! ## Filesystems of few and of many groups -/

/-- A byte of descriptors that put the bitmaps and the inode table of group `i` in the three blocks from `100 + 3 * i` on. -/
def descByte (x : Nat) : BitVec 8 :=
  BitVec.ofNat 8 (if x % 32 = 0 then 100 + 3 * (x / 32) else if x % 32 = 4 then 101 + 3 * (x / 32)
    else if x % 32 = 8 then 102 + 3 * (x / 32) else 0)

/-- A full filesystem of `count` groups with blocks of 1024 bytes and eight inodes to a group. -/
def groupsFs (count : Nat) : Ext2 where
  disk
    | 2 => descByte
    | 3 => fun x => descByte (1024 + x)
    | _ => fun _ => 0xFF
  readable _ := true
  heapOk := true
  stray _ := 0
  superBlock := ⟨8 * count, 8 * count, 0, 8, 8, 0xEF53, 128⟩
  groups := descByte
  blockSize := 1024
  groupCount := count
  inodesPerGroup := 8
  written := []

section

variable {count : Nat} (hcount : count ≤ 33)

theorem groupsFs_physical (hn : n < 2 ^ 27) : (groupsFs count).physical n = n := by
  have hspb : (groupsFs count).sectorsPerBlock = 2 := by
    show 1024 / 512 = 2
    decide
  rw [physical, hspb]
  omega

include hcount

theorem groupsFs_bitmapBlock (pool : Pool) {i : Nat} (hi : i < count) :
    (groupsFs count).bitmapBlock pool i = 100 + 3 * i + pool.bitmapAt / 4 := by
  have hall : ∀ i < 33, load descByte (32 * i + 0) 4 = 100 + 3 * i + 0 ∧ load descByte (32 * i + 4) 4 = 100 + 3 * i + 1 := by decide
  cases pool with
  | blocks => exact (hall i (by omega)).1
  | inodes => exact (hall i (by omega)).2

theorem groupsFs_offBitmaps {q : Nat} (hq : q ≠ 2) (htable : q < 100 ∨ ∃ i, q = 102 + 3 * i) : OffBitmaps (groupsFs count) q := by
  refine ⟨hq, fun pool i hi he => ?_⟩
  rw [groupsFs_bitmapBlock hcount pool hi] at he
  cases pool <;> simp only [Pool.bitmapAt] at he <;> omega

theorem groupsFs_guarded : Guarded (groupsFs count) := by
  have hbitmap := groupsFs_bitmapBlock hcount
  have hsmall : ∀ pool : Pool, pool.bitmapAt / 4 ≤ 1 := fun pool => by cases pool <;> decide
  refine ⟨⟨fun pool i hi => ?_, groupsFs_physical (by decide), fun pool i hi he => ?_, fun {pool pool' i j} hi hj he => ?_⟩, fun ino hino => ?_,
    fun i b hi hb hclear => ?_⟩
  · have := hsmall pool
    replace hi : i < count := hi
    rw [hbitmap pool hi]
    exact groupsFs_physical (by omega)
  · rw [hbitmap pool hi, blockGroupStart] at he
    omega
  · rw [hbitmap pool hi, hbitmap pool' hj] at he
    cases pool <;> cases pool' <;> simp only [Pool.bitmapAt] at he <;> first | exact ⟨rfl, by omega⟩ | omega
  · have hall : ∀ i < 33, load descByte (32 * i + 8) 4 = 102 + 3 * i := by decide
    replace hino : inodeNumber ino / 8 < count := hino
    have hblock : (groupsFs count).inodeBlock ino = 102 + 3 * (inodeNumber ino / 8) := by
      have hipb : (groupsFs count).inodesPerBlock = 8 := by
        show 1024 / 128 = 8
        decide
      rw [inodeBlock, hipb]
      show (load descByte (32 * (inodeNumber ino / 8) + 8) 4 + inodeNumber ino % 8 / 8) % 2 ^ 32 = _
      rw [hall _ (by omega)]
      omega
    rw [hblock, groupsFs_physical (by omega)]
    exact groupsFs_offBitmaps hcount (by omega) (.inr ⟨_, rfl⟩)
  · -- no bit is clear
    have hones : (groupsFs count).disk ((groupsFs count).bitmapBlock .blocks i) (b / 8) = 0xFF := by
      rw [hbitmap .blocks hi, show 100 + 3 * i + Pool.blocks.bitmapAt / 4 = 96 + 3 * i + 4 by simp only [Pool.bitmapAt]; omega]
      rfl
    simp [bit, bitOf_ones hones] at hclear

theorem groupsFs_ext2Mounted : Ext2Mounted (groupsFs count) := by
  have hspan : (groupsFs count).groupBlockSpan = count * 32 / 1024 + 1 := rfl
  refine ⟨groupsFs_guarded hcount, ⟨0, by decide, rfl⟩, show 1 < 8 by decide, fun _ => rfl, rfl, fun k hpos hk => ?_, ?_⟩
  · obtain rfl : k = 1 := by omega
    rw [groupsFs_physical (by decide)]
    exact groupsFs_offBitmaps hcount (by decide) (.inl (by decide))
  · obtain ⟨table, heq, htable⟩ := readDescriptors_eq (show ∀ q, (groupsFs count).readable q = true from fun _ => rfl)
      (show 0 < 1024 by decide) (fun _ => 0) (groupsFs count).groupBlockSpan 0
    refine ⟨table, heq, fun x hx => ?_⟩
    rw [htable, Nat.zero_add, Nat.zero_mul, if_pos ⟨Nat.zero_le x, hx⟩]
    replace hx : x < (count * 32 / 1024 + 1) * 1024 := hx
    show descByte x = (groupsFs count).disk ((groupsFs count).physical (2 + x / 1024)) (x % 1024)
    rw [groupsFs_physical (by omega)]
    rcases Nat.lt_or_ge x 1024 with hlt | hge
    · rw [Nat.div_eq_of_lt hlt, Nat.mod_eq_of_lt hlt]
      rfl
    · have hdiv : x / 1024 = 1 := by omega
      have hmod : 1024 + x % 1024 = x := by omega
      rw [hdiv]
      show descByte x = descByte (1024 + x % 1024)
      rw [hmod]

end

/-- With two groups, whatever is allocated and deleted. -/
theorem descriptors_onDisk_two : Ext2Mounted (groupsFs 2) ∧ ∀ calls fs', TableRun (groupsFs 2) calls fs' → OnDisk fs' :=
  ⟨groupsFs_ext2Mounted (by decide), (descriptors_onDisk_iff (groupsFs_ext2Mounted (by decide))).mpr (by decide)⟩

/-- With 33 groups the deletion of an inode of the last one is lost: its counter is 1 in memory and 0 on the disk. -/
theorem later_group_not_onDisk :
    Ext2Mounted (groupsFs 33) ∧ ∃ fs', TableRun (groupsFs 33) [.deleteInode (fun _ => 0) 257] fs' ∧ fs'.freeCount .inodes 32 = 1 ∧
      fs'.tableByte (descSize * 32 + Pool.inodes.countAt) = 0 ∧ ¬ OnDisk fs' := by
  refine ⟨groupsFs_ext2Mounted .refl, ((groupsFs 33).deleteInode (fun _ => 0) 257).2, ?_, by decide, by decide,
    fun h => ?_⟩
  · refine .cons (fun k hk => ?_) (Prod.ext (by decide) rfl) (.nil _)
    have hnone : (groupsFs 33).deletedBlocks (fun _ => 0) = 0 := by decide
    rw [hnone] at hk
    omega
  · have hbyte := (onDisk_iff (fun _ => by rfl) (by decide)).mp h (descSize * 32 + Pool.inodes.countAt) (by decide)
    revert hbyte
    decide

end OmegaOS
