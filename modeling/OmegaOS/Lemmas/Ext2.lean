import OmegaOS.Ext2File

/-!
# Blocks, bitmaps and inodes of the ext2 driver

One lemma for each operation on the disk: which block it changes, and what is read back.
-/

namespace OmegaOS

open ByteMem Ext2 Function

variable {b fuel j k n q : Nat} {fs fs' : Ext2} {byte : BitVec 8}

/-! ## Bits -/

/-- A bit of a bitmap. -/
def bitOf (bitmap : Mem) (bit : Nat) : Bool := (bitmap (bit / 8)).getLsbD (bit % 8)

theorem bitOf_ones (h : bitmap (b / 8) = 0xFF) : bitOf bitmap b = true := by
  have hbyte : ∀ j < 8, (0xFF : BitVec 8).getLsbD j = true := by decide
  rw [bitOf, h]
  exact hbyte _ (Nat.mod_lt _ (by decide))

theorem findBitInByte_some (h : findBitInByte byte fuel j = some k) : byte.getLsbD k = false ∧ j ≤ k ∧ k < j + fuel := by
  induction fuel generalizing j with
  | zero => simp [findBitInByte] at h
  | succ fuel ih =>
    rw [findBitInByte] at h
    split at h
    · cases h
      exact ⟨‹_›, .refl, by omega⟩
    · obtain ⟨hk, hlo, hhi⟩ := ih h
      exact ⟨hk, by omega, by omega⟩

/-- `FIND_AND_MARK_BIT` finds a clear bit of the bitmap. -/
theorem findBit_some {bit : Nat} (h : findBit bitmap fuel k = some bit) : bitOf bitmap bit = false ∧ bit < 8 * (k + fuel) := by
  induction fuel generalizing k with
  | zero => simp [findBit] at h
  | succ fuel ih =>
    rw [findBit] at h
    split at h
    · cases hj : findBitInByte (bitmap k) 8 0 with
      | some j =>
        rw [hj] at h
        cases h
        obtain ⟨hclear, -, hlt⟩ := findBitInByte_some hj
        have hdiv : (8 * k + j) / 8 = k := by omega
        have hmod : (8 * k + j) % 8 = j := by omega
        exact ⟨by rwa [bitOf, hdiv, hmod], by omega⟩
      | none =>
        rw [hj] at h
        obtain ⟨hclear, hlt⟩ := ih h
        exact ⟨hclear, by omega⟩
    · obtain ⟨hclear, hlt⟩ := ih h
      exact ⟨hclear, by omega⟩

theorem findBitInByte_none (h : findBitInByte byte fuel j = none) (hlo : j ≤ k) (hhi : k < j + fuel) : byte.getLsbD k = true := by
  induction fuel generalizing j with
  | zero => omega
  | succ fuel ih =>
    rw [findBitInByte] at h
    split at h
    · cases h
    · rename_i hset
      by_cases hk : k = j
      · rw [hk]
        exact eq_true_of_ne_false hset
      · exact ih h (by omega) (by omega)

/-- When the search fails, all the bits are set. -/
theorem findBit_none (h : findBit bitmap fuel k = none) (hlo : 8 * k ≤ b) (hhi : b < 8 * (k + fuel)) : bitOf bitmap b = true := by
  induction fuel generalizing k with
  | zero => omega
  | succ fuel ih =>
    rw [findBit] at h
    by_cases hbyte : b / 8 = k
    · split at h
      · cases hj : findBitInByte (bitmap k) 8 0 with
        | some j =>
          simp [hj] at h
        | none =>
          rw [bitOf, hbyte]
          exact findBitInByte_none hj (Nat.zero_le _) (by omega)
      · rename_i hones
        refine bitOf_ones ?_
        rw [hbyte]
        exact not_not.mp hones
    · have hrest : findBit bitmap fuel (k + 1) = none := by
        split at h
        · cases hj : findBitInByte (bitmap k) 8 0 with
          | some j =>
            simp [hj] at h
          | none =>
            rwa [hj] at h
        · exact h
      exact ih hrest (by omega) (by omega)

/-- A clear bit 0 is found first. -/
theorem findBit_zero (fuel : Nat) (h : bitOf bitmap 0 = false) : findBit bitmap (fuel + 1) 0 = some 0 := by
  have hbyte : bitmap 0 ≠ 0xFF := by
    intro hones
    rw [bitOf_ones hones] at h
    cases h
  have hfirst : findBitInByte (bitmap 0) 8 0 = some 0 := by
    rw [findBitInByte]
    exact if_pos h
  rw [findBit, if_pos hbyte, hfirst]

theorem bitOf_markBit (bitmap : Mem) (bit n : Nat) : bitOf (markBit bitmap bit) n = (bitOf bitmap n || decide (n = bit)) := by
  unfold bitOf markBit
  by_cases hbyte : n / 8 = bit / 8
  · have heq : n = bit ↔ n % 8 = bit % 8 := by omega
    rw [hbyte, update_self, BitVec.getLsbD_or, getLsbD_bit _ (Nat.mod_lt _ (by decide)), decide_eq_decide.mpr heq]
  · have hne : n ≠ bit := fun e => hbyte (e ▸ rfl)
    rw [update_of_ne hbyte]
    simp [hne]

theorem bitOf_clearBit (bitmap : Mem) (bit n : Nat) : bitOf (clearBit bitmap bit) n = (bitOf bitmap n && !decide (n = bit)) := by
  unfold bitOf clearBit
  by_cases hbyte : n / 8 = bit / 8
  · have heq : n = bit ↔ n % 8 = bit % 8 := by omega
    have hn : n % 8 < 8 := Nat.mod_lt _ (by decide)
    rw [hbyte, update_self, BitVec.getLsbD_and, BitVec.getLsbD_not, getLsbD_bit _ hn, decide_eq_decide.mpr heq, decide_eq_true hn,
      Bool.true_and]
  · have hne : n ≠ bit := fun e => hbyte (e ▸ rfl)
    rw [update_of_ne hbyte]
    simp [hne]

/-! ## What stays -/

/-- What no operation on files changes: the superblock, the sizes, and where the groups' bitmaps and inode tables are. -/
structure SameShape (fs fs' : Ext2) : Prop where
  superBlock : fs'.superBlock = fs.superBlock
  blockSize : fs'.blockSize = fs.blockSize
  groupCount : fs'.groupCount = fs.groupCount
  inodesPerGroup : fs'.inodesPerGroup = fs.inodesPerGroup
  readable : fs'.readable = fs.readable
  heapOk : fs'.heapOk = fs.heapOk
  stray : fs'.stray = fs.stray
  bitmapBlock : ∀ pool i, fs'.bitmapBlock pool i = fs.bitmapBlock pool i
  inodeTable : ∀ i, fs'.inodeTable i = fs.inodeTable i

namespace SameShape

variable {fs fs' : Ext2}

theorem refl (fs : Ext2) : SameShape fs fs := ⟨rfl, rfl, rfl, rfl, rfl, rfl, rfl, fun _ _ => rfl, fun _ => rfl⟩

section

variable (h : SameShape fs fs')

include h

theorem trans {fs'' : Ext2} (h' : SameShape fs' fs'') : SameShape fs fs'' :=
  ⟨h'.superBlock.trans h.superBlock, h'.blockSize.trans h.blockSize, h'.groupCount.trans h.groupCount,
    h'.inodesPerGroup.trans h.inodesPerGroup, h'.readable.trans h.readable, h'.heapOk.trans h.heapOk, h'.stray.trans h.stray,
    fun pool i => (h'.bitmapBlock pool i).trans (h.bitmapBlock pool i), fun i => (h'.inodeTable i).trans (h.inodeTable i)⟩

theorem symm : SameShape fs' fs :=
  ⟨h.superBlock.symm, h.blockSize.symm, h.groupCount.symm, h.inodesPerGroup.symm, h.readable.symm, h.heapOk.symm, h.stray.symm,
    fun pool i => (h.bitmapBlock pool i).symm, fun i => (h.inodeTable i).symm⟩

theorem sectorsPerBlock : fs'.sectorsPerBlock = fs.sectorsPerBlock := by
  rw [Ext2.sectorsPerBlock, h.blockSize]
  rfl

theorem inodesPerBlock : fs'.inodesPerBlock = fs.inodesPerBlock := by
  rw [Ext2.inodesPerBlock, h.blockSize, h.superBlock]
  rfl

theorem ptrBlocksPerBlock : fs'.ptrBlocksPerBlock = fs.ptrBlocksPerBlock := by
  rw [Ext2.ptrBlocksPerBlock, h.blockSize]
  rfl

theorem sector2Block (s : Nat) : fs'.sector2Block s = fs.sector2Block s := by
  rw [Ext2.sector2Block, h.blockSize]
  rfl

theorem physical (b : Nat) : fs'.physical b = fs.physical b := by
  rw [Ext2.physical, h.sectorsPerBlock]
  rfl

theorem perGroup (pool : Pool) : fs'.perGroup pool = fs.perGroup pool := by
  cases pool with
  | blocks => rw [Ext2.perGroup, h.superBlock]; rfl
  | inodes => exact h.inodesPerGroup

theorem inodeGroup (ino : Nat) : fs'.inodeGroup ino = fs.inodeGroup ino := by
  rw [Ext2.inodeGroup, h.superBlock]
  rfl

theorem inodeBlock (ino : Nat) : fs'.inodeBlock ino = fs.inodeBlock ino := by
  rw [Ext2.inodeBlock, h.inodeGroup, h.inodeTable, h.superBlock, h.inodesPerBlock]
  rfl

theorem inodeOffset (ino : Nat) : fs'.inodeOffset ino = fs.inodeOffset ino := by
  rw [Ext2.inodeOffset, h.superBlock, h.inodesPerBlock]
  rfl

end

theorem writeBlock (fs : Ext2) (block : Nat) (buffer : Mem) : SameShape fs (fs.writeBlock block buffer) :=
  ⟨rfl, rfl, rfl, rfl, rfl, rfl, rfl, fun _ _ => rfl, fun _ => rfl⟩

/-- The counters lie apart from the block numbers in a descriptor. -/
theorem setFreeCount (fs : Ext2) (pool : Pool) (i v : Nat) : SameShape fs (fs.setFreeCount pool i v) := by
  refine ⟨rfl, rfl, rfl, rfl, rfl, rfl, rfl, fun pool' j => ?_, fun j => ?_⟩
  · refine load_store_disjoint fs.groups v ?_
    cases pool <;> cases pool' <;> simp only [Pool.countAt, Pool.bitmapAt, descSize] <;> omega
  · refine load_store_disjoint fs.groups v ?_
    cases pool <;> simp only [Pool.countAt, descSize] <;> omega

end SameShape

/-! ## Geometry -/

/-- The blocks that hold no file: boot block, superblock, descriptors, bitmaps and inode tables. -/
inductive MetaBlock where
  | boot
  | superBlock
  | descriptors
  | bitmap (pool : Pool) (i : Nat)
  | inodes (i k : Nat)

namespace MetaBlock

def number (fs : Ext2) : MetaBlock → Nat
  | boot => 0
  | superBlock => 1
  | descriptors => blockGroupStart
  | bitmap pool i => fs.bitmapBlock pool i
  | inodes i k => fs.inodeTable i + k

/-- The block is one of the filesystem's groups. -/
def Valid (fs : Ext2) : MetaBlock → Prop
  | bitmap _ i => i < fs.groupCount
  | inodes i k => i < fs.groupCount ∧ k * fs.inodesPerBlock < fs.superBlock.inodesPerGroup
  | _ => True

end MetaBlock

theorem SameShape.metaNumber (h : SameShape fs fs') (x : MetaBlock) : x.number fs' = x.number fs := by
  cases x with
  | bitmap pool i => exact h.bitmapBlock pool i
  | inodes i k => exact congrArg (· + k) (h.inodeTable i)
  | _ => rfl

theorem SameShape.metaValid (h : SameShape fs fs') (x : MetaBlock) : x.Valid fs' ↔ x.Valid fs := by
  cases x with
  | bitmap pool i => rw [MetaBlock.Valid, h.groupCount]; rfl
  | inodes i k => rw [MetaBlock.Valid, h.groupCount, h.inodesPerBlock, h.superBlock]; rfl
  | _ => exact .rfl

/-- The last block of the filesystem. -/
def Ext2.lastBlock (fs : Ext2) : Nat := fs.superBlock.blocksPerGroup * fs.groupCount

/-- The filesystem is laid out as its superblock and descriptors say: it fits the drive, and no two of its own blocks coincide. -/
structure Geometry (fs : Ext2) : Prop where
  blockSize : ∃ k ≤ 6, fs.blockSize = 1024 * 2 ^ k
  blocksPerGroup : 0 < fs.superBlock.blocksPerGroup ∧ fs.superBlock.blocksPerGroup ≤ 8 * fs.blockSize
  inodesPerGroup : 0 < fs.superBlock.inodesPerGroup ∧ fs.superBlock.inodesPerGroup ≤ 8 * fs.blockSize
  sameInodes : fs.inodesPerGroup = fs.superBlock.inodesPerGroup
  inodeSize : 128 ≤ fs.superBlock.inodeSize ∧ fs.superBlock.inodeSize ≤ fs.blockSize
  capacity : (fs.lastBlock + 1) * fs.sectorsPerBlock ≤ 2 ^ 28
  inodeNumbers : fs.superBlock.inodesPerGroup * fs.groupCount < 2 ^ 32
  inRange : ∀ x : MetaBlock, x.Valid fs → x.number fs ≤ fs.lastBlock
  distinct : ∀ x y : MetaBlock, x.Valid fs → y.Valid fs → x.number fs = y.number fs → x = y

namespace Geometry

variable {fs fs' : Ext2}

section

variable (h : Geometry fs)

include h

theorem congr (hs : SameShape fs fs') : Geometry fs' := by
  have hlast : fs'.lastBlock = fs.lastBlock := by rw [lastBlock, hs.superBlock, hs.groupCount]; rfl
  refine ⟨?_, ?_, ?_, ?_, ?_, ?_, ?_, fun x hx => ?_, fun x y hx hy he => ?_⟩
  · rw [hs.blockSize]; exact h.blockSize
  · rw [hs.superBlock, hs.blockSize]; exact h.blocksPerGroup
  · rw [hs.superBlock, hs.blockSize]; exact h.inodesPerGroup
  · rw [hs.superBlock, hs.inodesPerGroup]; exact h.sameInodes
  · rw [hs.superBlock, hs.blockSize]; exact h.inodeSize
  · rw [hlast, hs.sectorsPerBlock]; exact h.capacity
  · rw [hs.superBlock, hs.groupCount]; exact h.inodeNumbers
  · rw [hs.metaNumber, hlast]; exact h.inRange x ((hs.metaValid x).mp hx)
  · rw [hs.metaNumber, hs.metaNumber] at he
    exact h.distinct x y ((hs.metaValid x).mp hx) ((hs.metaValid y).mp hy) he

theorem blockSize_bounds : 1024 ≤ fs.blockSize ∧ fs.blockSize ≤ 65536 ∧ fs.blockSize = 512 * fs.sectorsPerBlock ∧
    2 ≤ fs.sectorsPerBlock := by
  obtain ⟨k, hk, hbs⟩ := h.blockSize
  have hpos : 1 ≤ 2 ^ k := Nat.one_le_two_pow
  have hle : 2 ^ k ≤ 2 ^ 6 := Nat.pow_le_pow_right (by decide) hk
  unfold sectorsPerBlock ataSectorSize
  omega

theorem physical_eq (hn : n ≤ fs.lastBlock) : fs.physical n = n := by
  obtain ⟨-, -, -, hspb⟩ := h.blockSize_bounds
  have hcap := h.capacity
  have hlt : n * fs.sectorsPerBlock < 2 ^ 28 := by
    have := Nat.mul_le_mul_right fs.sectorsPerBlock (show n + 1 ≤ fs.lastBlock + 1 by omega)
    rw [Nat.add_mul] at this
    omega
  rw [physical, Nat.mod_eq_of_lt (show n * fs.sectorsPerBlock < 2 ^ 32 by omega), Nat.mod_eq_of_lt hlt]
  exact Nat.mul_div_cancel n (by omega)

theorem physical_meta {x : MetaBlock} (hx : x.Valid fs) : fs.physical (x.number fs) = x.number fs := h.physical_eq (h.inRange x hx)

theorem physical_bitmap (pool : Pool) {i : Nat} (hi : i < fs.groupCount) : fs.physical (fs.bitmapBlock pool i) = fs.bitmapBlock pool i :=
  h.physical_meta (x := .bitmap pool i) hi

theorem physical_descriptors : fs.physical blockGroupStart = blockGroupStart := h.physical_meta (x := .descriptors) trivial

end

end Geometry

/-- The bitmaps and the descriptors are blocks of the drive, no two of them the same. -/
structure BitmapLayout (fs : Ext2) : Prop where
  physical_bitmap : ∀ (pool : Pool) {i : Nat}, i < fs.groupCount → fs.physical (fs.bitmapBlock pool i) = fs.bitmapBlock pool i
  physical_descriptors : fs.physical blockGroupStart = blockGroupStart
  ne_descriptors : ∀ (pool : Pool) {i : Nat}, i < fs.groupCount → fs.bitmapBlock pool i ≠ blockGroupStart
  injective : ∀ {pool pool' : Pool} {i j : Nat}, i < fs.groupCount → j < fs.groupCount →
    fs.bitmapBlock pool i = fs.bitmapBlock pool' j → pool = pool' ∧ i = j

theorem Geometry.bitmapLayout (g : Geometry fs) : BitmapLayout fs where
  physical_bitmap := g.physical_bitmap
  physical_descriptors := g.physical_descriptors
  ne_descriptors pool i hi he := by
    cases g.distinct (.bitmap pool i) .descriptors hi trivial he
  injective {pool pool' i j} hi hj he := by
    cases g.distinct (.bitmap pool i) (.bitmap pool' j) hi hj he
    exact ⟨rfl, rfl⟩

theorem BitmapLayout.congr (h : BitmapLayout fs) (hs : SameShape fs fs') : BitmapLayout fs' where
  physical_bitmap pool i hi := by
    rw [hs.physical, hs.bitmapBlock]
    exact h.physical_bitmap pool (hs.groupCount ▸ hi)
  physical_descriptors := by
    rw [hs.physical]
    exact h.physical_descriptors
  ne_descriptors pool i hi := by
    rw [hs.bitmapBlock]
    exact h.ne_descriptors pool (hs.groupCount ▸ hi)
  injective hi hj he := by
    rw [hs.bitmapBlock, hs.bitmapBlock] at he
    exact h.injective (hs.groupCount ▸ hi) (hs.groupCount ▸ hj) he

/-- A write changes one block of the drive. -/
theorem disk_writeBlock_ne (fs : Ext2) (n : Nat) (buffer : Mem) (hq : q ≠ fs.physical n) : (fs.writeBlock n buffer).disk q = fs.disk q := by
  exact update_of_ne hq _ _

theorem disk_writeBlock_inside (fs : Ext2) (hq : fs.physical n = q) (buffer : Mem) {o : Nat} (ho : o < fs.blockSize) :
    (fs.writeBlock n buffer).disk q o = buffer o := by
  subst hq
  show update fs.disk (fs.physical n) _ (fs.physical n) o = buffer o
  rw [update_self, copy_inside _ _ _ (Nat.zero_le o) (by omega)]
  simp

/-! ## Allocation from a bitmap -/

/-- A bit of the bitmap of a group on the disk. -/
def Ext2.bit (fs : Ext2) (pool : Pool) (i b : Nat) : Bool := bitOf (fs.disk (fs.bitmapBlock pool i)) b

/-- The number that a bit stands for. -/
def Ext2.bitNumber (fs : Ext2) (pool : Pool) (i b : Nat) : Nat := b + fs.perGroup pool * i + 1

theorem freeCount_setFreeCount_ne (fs : Ext2) (pool pool' : Pool) (i j v : Nat) (hne : (pool', j) ≠ (pool, i)) :
    (fs.setFreeCount pool i v).freeCount pool' j = fs.freeCount pool' j := by
  refine load_store_disjoint fs.groups v ?_
  have hij : pool' = pool → j ≠ i := fun hp hj => hne (by rw [hp, hj])
  cases pool <;> cases pool' <;> simp only [Pool.countAt, descSize] <;> simp at hij <;> omega

variable {fs fs' : Ext2} {pool : Pool}

/-- A bitmap and its counter are replaced and written, and the descriptors after them. -/
def Ext2.putBitmap (fs : Ext2) (pool : Pool) (j v : Nat) (bitmap : Mem) : Ext2 :=
  let fs := fs.setFreeCount pool j v
  let fs := fs.writeBlock (fs.bitmapBlock pool j) bitmap
  fs.writeBlock blockGroupStart fs.groups

/-- A bitmap and the descriptors are written; no counter of another bitmap changes. -/
structure BitmapWritten (fs fs' : Ext2) (pool : Pool) (j : Nat) : Prop where
  shape : SameShape fs fs'
  group : j < fs.groupCount
  counts : ∀ pool' i, (pool', i) ≠ (pool, j) → fs'.freeCount pool' i = fs.freeCount pool' i
  table : ∀ x < fs.blockSize, fs'.disk blockGroupStart x = fs'.groups x
  disk : ∀ q, q ≠ fs.bitmapBlock pool j → q ≠ blockGroupStart → fs'.disk q = fs.disk q

/-- What that changes. -/
structure BitmapPut (fs fs' : Ext2) (pool : Pool) (j v : Nat) (bitmap : Mem) : Prop extends BitmapWritten fs fs' pool j where
  bits : ∀ b, b < 8 * fs.blockSize → fs'.bit pool j b = bitOf bitmap b
  others : ∀ pool' i b, i < fs.groupCount → (pool', i) ≠ (pool, j) → fs'.bit pool' i b = fs.bit pool' i b
  count : fs'.freeCount pool j = v
  written : fs'.written = blockGroupStart :: fs.bitmapBlock pool j :: fs.written

/-- Writing a bitmap and its counter back. -/
theorem putBitmap_put (l : BitmapLayout fs) (pool : Pool) {v : Nat} (hj : j < fs.groupCount) (hv : v < 2 ^ 16) (bitmap : Mem) :
    BitmapPut fs (fs.putBitmap pool j v bitmap) pool j v bitmap := by
  unfold putBitmap
  generalize hfs1 : fs.setFreeCount pool j v = fs1
  dsimp only
  have hshape1 : SameShape fs fs1 := hfs1 ▸ SameShape.setFreeCount fs pool j v
  have hdisk1 : fs1.disk = fs.disk := by rw [← hfs1]; rfl
  have hwritten1 : fs1.written = fs.written := by rw [← hfs1]; rfl
  have hph : fs1.physical (fs.bitmapBlock pool j) = fs.bitmapBlock pool j := by
    rw [hshape1.physical]
    exact l.physical_bitmap pool hj
  rw [hshape1.bitmapBlock]
  generalize hfs2 : fs1.writeBlock (fs.bitmapBlock pool j) bitmap = fs2
  have hshape2 : SameShape fs fs2 := hshape1.trans (hfs2 ▸ SameShape.writeBlock fs1 _ _)
  have hgroups : fs2.groups = fs1.groups := by rw [← hfs2]; rfl
  have hph2 : fs2.physical blockGroupStart = blockGroupStart := (l.congr hshape2).physical_descriptors
  have hshape3 := hshape2.trans (SameShape.writeBlock fs2 blockGroupStart fs2.groups)
  have hdisk : ∀ q, q ≠ fs.bitmapBlock pool j → q ≠ blockGroupStart → (fs2.writeBlock blockGroupStart fs2.groups).disk q = fs.disk q := by
    intro q hq hq2
    rw [disk_writeBlock_ne fs2 _ _ (by rwa [hph2]), ← hfs2, disk_writeBlock_ne fs1 _ _ (by rwa [hph]), hdisk1]
  have hfree : ∀ pool' i, (fs2.writeBlock blockGroupStart fs2.groups).freeCount pool' i = fs1.freeCount pool' i := by
    intro pool' i
    show load fs2.groups _ 2 = load fs1.groups _ 2
    rw [hgroups]
  refine ⟨⟨hshape3, hj, fun pool' i hne => ?_, fun x hx => ?_, hdisk⟩, fun b hb => ?_, fun pool' i b hi hne => ?_, ?_, ?_⟩
  · rw [hfree, ← hfs1]
    exact freeCount_setFreeCount_ne fs pool pool' j i _ hne
  · exact disk_writeBlock_inside fs2 hph2 _ (by rwa [hshape2.blockSize])
  · unfold bit
    rw [hshape3.bitmapBlock, disk_writeBlock_ne fs2 _ _ (by rw [hph2]; exact l.ne_descriptors pool hj), ← hfs2]
    unfold bitOf
    rw [disk_writeBlock_inside fs1 hph _ (by rw [hshape1.blockSize]; omega)]
  · have hne' : fs.bitmapBlock pool' i ≠ fs.bitmapBlock pool j := by
      intro he
      obtain ⟨rfl, rfl⟩ := l.injective hi hj he
      exact hne rfl
    unfold bit
    rw [hshape3.bitmapBlock, hdisk _ hne' (l.ne_descriptors pool' hi)]
  · rw [hfree, ← hfs1]
    exact load_store_same fs.groups _ 2 hv
  · show fs2.physical blockGroupStart :: fs2.written = _
    rw [hph2, ← hfs2]
    show _ :: fs1.physical (fs.bitmapBlock pool j) :: fs1.written = _
    rw [hph, hwritten1]

/-- What an allocation does: one bit is marked and counted. -/
structure BitTaken (fs fs' : Ext2) (pool : Pool) (j b : Nat) : Prop extends BitmapWritten fs fs' pool j where
  inBitmap : b < 8 * fs.blockSize
  clear : fs.bit pool j b = false
  bits : ∀ pool' i b', i < fs.groupCount → b' < 8 * fs.blockSize →
    fs'.bit pool' i b' = (fs.bit pool' i b' || decide (pool' = pool ∧ i = j ∧ b' = b))
  counted : fs'.freeCount pool j + 1 = fs.freeCount pool j
  written : fs'.written = blockGroupStart :: fs.bitmapBlock pool j :: fs.written

theorem takeBit_eq (fs : Ext2) (pool : Pool) (j : Nat) (hb0 : b ≠ 0) (bitmap : Mem) : fs.takeBit pool j b bitmap =
      (fs.bitNumber pool j b % 2 ^ 32, fs.putBitmap pool j ((fs.freeCount pool j + (2 ^ 16 - 1)) % 2 ^ 16) (markBit bitmap b)) := by
  rw [takeBit, if_neg hb0]
  rfl

/-- Any bit but bit 0 is taken. -/
theorem takeBit_taken (l : BitmapLayout fs) (hj : j < fs.groupCount) (hb0 : b ≠ 0) (hb : b < 8 * fs.blockSize)
    (hclear : fs.bit pool j b = false) (hcount : 0 < fs.freeCount pool j) :
    (fs.takeBit pool j b (fs.disk (fs.bitmapBlock pool j))).1 = fs.bitNumber pool j b % 2 ^ 32 ∧
      BitTaken fs (fs.takeBit pool j b (fs.disk (fs.bitmapBlock pool j))).2 pool j b := by
  have hlt : fs.freeCount pool j < 2 ^ 16 := load_lt _ _ 2
  have hdec : (fs.freeCount pool j + (2 ^ 16 - 1)) % 2 ^ 16 = fs.freeCount pool j - 1 := by omega
  have hput := putBitmap_put l pool hj (show fs.freeCount pool j - 1 < 2 ^ 16 by omega) (markBit (fs.disk (fs.bitmapBlock pool j)) b)
  rw [takeBit_eq fs pool j hb0, hdec]
  refine ⟨rfl, hput.toBitmapWritten, hb, hclear, fun pool' i b' hi hb' => ?_, ?_, hput.written⟩
  · by_cases hsame : pool' = pool ∧ i = j
    · obtain ⟨rfl, rfl⟩ := hsame
      rw [hput.bits b' hb', bitOf_markBit, bit]
      simp
    · rw [hput.others pool' i b' hi fun he => hsame (Prod.mk.inj he), decide_eq_false (fun h => hsame ⟨h.1, h.2.1⟩), Bool.or_false]
  · rw [hput.count]
    omega

/-- The loop over the groups marks one clear bit other than bit 0, or changes nothing. -/
theorem allocateBit_spec (pool : Pool) (l : BitmapLayout fs) {i : Nat} (hi : i + fuel ≤ fs.groupCount) :
    fs.allocateBit pool fuel i = (0, fs) ∨ ∃ j b, b ≠ 0 ∧ (fs.allocateBit pool fuel i).1 = fs.bitNumber pool j b % 2 ^ 32 ∧
        BitTaken fs (fs.allocateBit pool fuel i).2 pool j b := by
  induction fuel generalizing i with
  | zero => exact .inl rfl
  | succ fuel ih =>
    rw [allocateBit]
    split
    · rename_i hcount
      rw [readBlock, l.physical_bitmap pool (by omega)]
      split
      · exact .inl rfl
      · rename_i bitmap hread
        split at hread
        · cases hread
          cases hfind : findBit (fs.disk (fs.bitmapBlock pool i)) fs.blockSize 0 with
          | none => exact ih (by omega)
          | some b =>
            obtain ⟨hclear, hb⟩ := findBit_some hfind
            dsimp only
            by_cases hb0 : b = 0
            · left
              rw [takeBit, if_pos hb0]
            · exact .inr ⟨i, b, hb0, takeBit_taken l (by omega) hb0 (by omega) hclear hcount⟩
        · cases hread
    · left
      rw [takeBit, if_pos rfl]

end OmegaOS
