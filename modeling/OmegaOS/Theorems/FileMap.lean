import OmegaOS.Lemmas.Ext2Write
import OmegaOS.Theorems.BlockMap

/-!
# The blocks that files map

On a consistent filesystem every block that a file maps is marked used and is mapped once. The rounds of a write leave the tables of the file
as they are, so `getRealBlock` finds what it found before, and nothing where the block map has nothing.
-/

namespace OmegaOS

open ByteMem List Ext2 Function

variable {k n p q : Nat} {ns path : List Nat} {data : Nat → Prop}

variable {fs fs' fs1 : Ext2} {ino b : Nat} {inode inode' : Mem}

/-! ## Blocks of a file -/

/-- How many tables lie between a pointer of an inode and its data. -/
def tableDepth (k : Nat) : Nat := k + 1 - ndirBlocks

/-- The inode maps a block: by its pointer `k` and then the entries `path`, the last one first, of the tables behind. -/
inductive FileMaps (fs : Ext2) (inode : Mem) (k : Nat) : List Nat → Nat → Prop where
  | pointer : k ≤ tindBlock → iBlock inode k ≠ 0 → FileMaps fs inode k [] (iBlock inode k)
  | entry {path : List Nat} {p j : Nat} : FileMaps fs inode k path p → path.length < tableDepth k → j < fs.ptrBlocksPerBlock →
      fs.tableEntry p j ≠ 0 → FileMaps fs inode k (j :: path) (fs.tableEntry p j)

/-- The inode has its bit set. -/
def Ext2.InodeUsed (fs : Ext2) (n : Nat) : Prop := fs.InodeExists n ∧ fs.bit .inodes (fs.inodeGroup n) (fs.inodeIndex n) = true

/-- Every block that an inode in use maps is marked used, and none is mapped twice. -/
structure MapConsistent (fs : Ext2) : Prop where
  free : FreeOk fs
  used : ∀ n, fs.InodeUsed n → ∀ k path p, FileMaps fs (fs.storedInode n) k path p → UsedBlock fs p
  once : ∀ n n', fs.InodeUsed n → fs.InodeUsed n' → ∀ k k' path path' p, FileMaps fs (fs.storedInode n) k path p →
    FileMaps fs (fs.storedInode n') k' path' p → Ext2.inodeNumber n = Ext2.inodeNumber n' ∧ k = k' ∧ path = path'

/-- Every number on the way from a table to an entry is there. -/
def Ext2.leads (fs : Ext2) : Nat → List Nat → Prop
  | p, [] => p ≠ 0
  | p, j :: path => p ≠ 0 ∧ j < fs.ptrBlocksPerBlock ∧ fs.leads (fs.tableEntry p j) path

/-- The block map has a block where `getRealBlock` looks for block `b`. -/
def Ext2.MapsBlock (fs : Ext2) (inode : Mem) (b : Nat) : Prop :=
  if b < ndirBlocks then iBlock inode b ≠ 0 else ∃ table path, fs.indirectPath inode b = some (table, path) ∧ fs.leads table path

/-! ## The way to a block -/

/-- The pointer that the way to a block starts from and the entries on it do not depend on what the tables hold. -/
theorem indirectPath_slot (hlimit : b < fs.mapLimit) :
    ∃ k path, (∀ inode, fs.indirectPath inode b = some (iBlock inode k, path)) ∧ ndirBlocks ≤ k ∧ k ≤ tindBlock ∧
      path.length = tableDepth k := by
  unfold mapLimit at hlimit
  unfold indirectPath
  by_cases hsingle : b < ndirBlocks + fs.ptrBlocksPerBlock
  · exact ⟨ndirBlocks, [b - ndirBlocks], fun inode => by rw [if_pos hsingle], by decide, by decide, rfl⟩
  · simp only [if_neg hsingle]
    by_cases hdouble : b < ndirBlocks + fs.ptrBlocksPerBlock * fs.ptrBlocksPerBlock + fs.ptrBlocksPerBlock
    · exact ⟨dindBlock, _, fun inode => by rw [if_pos hdouble], by decide, by decide, rfl⟩
    · simp only [if_neg hdouble]
      exact ⟨tindBlock, _, fun inode => by rw [if_pos hlimit], by decide, by decide, rfl⟩

section

variable (hbs : fs'.blockSize = fs.blockSize)
include hbs

theorem ptrBlocksPerBlock_congr : fs'.ptrBlocksPerBlock = fs.ptrBlocksPerBlock := by
  rw [ptrBlocksPerBlock, hbs]
  rfl

theorem physical_congr (n : Nat) : fs'.physical n = fs.physical n := by
  rw [physical, sectorsPerBlock, hbs]
  rfl

theorem indirectPath_congr (inode : Mem) (b : Nat) : fs'.indirectPath inode b = fs.indirectPath inode b := by
  unfold indirectPath doublePath triplePath
  rw [ptrBlocksPerBlock_congr hbs]

end

/-- The tables of the file are as they were. -/
def TablesKept (fs : Ext2) (inode : Mem) (fs' : Ext2) : Prop :=
  ∀ k path p, FileMaps fs inode k path p → path.length < tableDepth k → fs'.disk p = fs.disk p ∧ fs.physical p = p

section

variable {k p : Nat} {path rev : List Nat}

section

variable (hbs : fs'.blockSize = fs.blockSize) (ht : TablesKept fs inode fs')

include hbs ht

theorem TablesKept.entry (hp : FileMaps fs inode k rev p) (hlt : rev.length < tableDepth k) (hj : j < fs.ptrBlocksPerBlock) :
    fs'.entry (fs'.disk (fs'.physical p)) j = fs.tableEntry p j := by
  obtain ⟨hdisk, hphysical⟩ := ht k rev p hp hlt
  rw [physical_congr hbs, hphysical, hdisk, Ext2.entry, ptrBlocksPerBlock_congr hbs, if_pos hj, Ext2.tableEntry, hphysical]

/-- Where every number is there, the way ends at a block of the file. -/
theorem FileMaps.walk (hp : FileMaps fs inode k rev p) (hlen : rev.length + path.length = tableDepth k) (hleads : fs.leads p path) :
    FileMaps fs inode k (path.reverse ++ rev) (fs'.walkTables p path) := by
  induction path generalizing rev p with
  | nil => exact hp
  | cons j path ih =>
    obtain ⟨-, hj, hrest⟩ := hleads
    rw [length_cons] at hlen
    have hne : fs.tableEntry p j ≠ 0 := by
      cases path with
      | nil => exact hrest
      | cons i path => exact hrest.1
    have hnext := ih (.entry hp (by omega) hj hne) (by rw [length_cons]; omega) hrest
    rwa [walkTables, foldl_cons, ht.entry hbs hp (by omega) hj, reverse_cons, append_assoc]

/-- Where some number is not there, a boot block of zeros leads to itself. -/
theorem walkTables_missing (hstray : ∀ k, fs'.stray k = 0)
    (hzero : fs'.disk 0 = fun _ => 0) (hp : p = 0 ∨ FileMaps fs inode k rev p) (hlen : rev.length + path.length = tableDepth k)
    (hmissing : ¬ fs.leads p path) : fs'.walkTables p path = 0 := by
  induction path generalizing rev p with
  | nil => exact not_not.mp hmissing
  | cons j path ih =>
    by_cases hp0 : p = 0
    · rw [hp0]
      exact walkTables_boot hstray hzero _
    · replace hp := hp.resolve_left hp0
      rw [length_cons] at hlen
      rw [walkTables, foldl_cons]
      by_cases hj : j < fs.ptrBlocksPerBlock
      · rw [ht.entry hbs hp (by omega) hj]
        have hnext : fs.tableEntry p j = 0 ∨ FileMaps fs inode k (j :: rev) (fs.tableEntry p j) := by
          by_cases hne : fs.tableEntry p j = 0
          · exact .inl hne
          · exact .inr (.entry hp (by omega) hj hne)
        exact ih hnext (by rw [length_cons]; omega) fun h => hmissing ⟨hp0, hj, h⟩
      · have hout : fs'.entry (fs'.disk (fs'.physical p)) j = 0 := by
          rw [entry, ptrBlocksPerBlock_congr hbs, if_neg hj, hstray]
        rw [hout]
        exact walkTables_boot hstray hzero path

end

end

/-! ## Another boot block -/

/-- The filesystem with another boot block and other memory behind `g_tmpBuf`, and an empty log. -/
def Ext2.withBoot (fs : Ext2) (boot : Mem) (stray : Nat → Nat) : Ext2 :=
  { fs with disk := update fs.disk 0 boot, stray := stray, written := [] }

/-- The memory behind `g_tmpBuf` does not matter to the allocator. -/
def Ext2.withStray (fs : Ext2) (stray : Nat → Nat) : Ext2 := { fs with stray := stray }

section

variable (stray : Nat → Nat)

theorem takeBit_withStray (fs : Ext2) (pool : Pool) (i bit : Nat) (bitmap : Mem) :
    (fs.withStray stray).takeBit pool i bit bitmap = ((fs.takeBit pool i bit bitmap).1, (fs.takeBit pool i bit bitmap).2.withStray stray) := by
  unfold takeBit
  split <;> rfl

theorem allocateBit_withStray (fs : Ext2) (pool : Pool) (fuel i : Nat) :
    (fs.withStray stray).allocateBit pool fuel i = ((fs.allocateBit pool fuel i).1, (fs.allocateBit pool fuel i).2.withStray stray) := by
  induction fuel generalizing i with
  | zero => rfl
  | succ fuel ih =>
    have hcount : (fs.withStray stray).freeCount pool i = fs.freeCount pool i := rfl
    have hread : (fs.withStray stray).readBlock ((fs.withStray stray).bitmapBlock pool i) = fs.readBlock (fs.bitmapBlock pool i) := rfl
    have hbs : (fs.withStray stray).blockSize = fs.blockSize := rfl
    rw [allocateBit, allocateBit, hcount, hread, hbs]
    split
    · split
      · rfl
      · split
        · exact takeBit_withStray stray ..
        · exact ih (i + 1)
    · exact takeBit_withStray stray ..

theorem Room.withStray (h : Room fs k) : Room (fs.withStray stray) k := by
  induction k generalizing fs with
  | zero => trivial
  | succ k ih =>
    obtain ⟨hne, hrest⟩ := h
    have halloc := allocateBit_withStray stray fs .blocks fs.groupCount 0
    refine ⟨?_, ?_⟩
    · rwa [show (fs.withStray stray).groupCount = fs.groupCount from rfl, halloc]
    · rw [show (fs.withStray stray).groupCount = fs.groupCount from rfl, halloc]
      exact ih hrest

end

theorem Geometry.withStray (g : Geometry fs) (stray : Nat → Nat) : Geometry (fs.withStray stray) :=
  ⟨g.blockSize, g.blocksPerGroup, g.inodesPerGroup, g.sameInodes, g.inodeSize, g.capacity, g.inodeNumbers, g.inRange, g.distinct⟩

/-- The other boot block is the only change to what the allocator and the inodes see. -/
theorem withBoot_shape (fs : Ext2) (boot : Mem) (stray : Nat → Nat) : SameShape (fs.withStray stray) (fs.withBoot boot stray) :=
  ⟨rfl, rfl, rfl, rfl, rfl, rfl, rfl, fun _ _ => rfl, fun _ => rfl⟩

theorem withBoot_disk (fs : Ext2) (boot : Mem) (stray : Nat → Nat) (hq : q ≠ 0) : (fs.withBoot boot stray).disk q = fs.disk q := by
  exact update_of_ne hq boot fs.disk

section

variable (g : Geometry fs) (boot : Mem) (stray : Nat → Nat)
include g

theorem withBoot_bit (hi : i < fs.groupCount) (b : Nat) : (fs.withBoot boot stray).bit .blocks i b = fs.bit .blocks i b := by
  have hne : fs.bitmapBlock .blocks i ≠ 0 := g.number_ne_zero (x := .bitmap .blocks i) hi nofun
  rw [bit, show (fs.withBoot boot stray).bitmapBlock .blocks i = fs.bitmapBlock .blocks i from rfl, withBoot_disk fs boot stray hne]
  rfl

theorem withBoot_storedInode (hv : fs.inodeGroup ino < fs.groupCount) : (fs.withBoot boot stray).storedInode ino = fs.storedInode ino := by
  unfold storedInode
  rw [show (fs.withBoot boot stray).inodeBlock ino = fs.inodeBlock ino from rfl, withBoot_disk fs boot stray (g.inodeBlock_ne_zero hv)]
  rfl

theorem withBoot_freeOk (hfree : FreeOk fs) : FreeOk (fs.withBoot boot stray) := fun i b hi hb hclear =>
  hfree i b hi hb (by rwa [withBoot_bit g boot stray hi] at hclear)

theorem withBoot_free (h : FreeBlock (fs.withBoot boot stray) n) : FreeBlock fs n := by
  obtain ⟨i, b, hi, hb, hclear, rfl⟩ := h
  exact ⟨i, b, hi, hb, by rwa [withBoot_bit g boot stray hi] at hclear, rfl⟩

theorem withBoot_room (h : Room fs k) : Room (fs.withBoot boot stray) k := by
  have hsame : SameBitmaps (fs.withStray stray) (fs.withBoot boot stray) := ⟨withBoot_shape fs boot stray, rfl, fun i hi =>
    withBoot_disk fs boot stray (g.number_ne_zero (x := .bitmap .blocks i) hi nofun)⟩
  exact hsame.room (g.withStray stray) (h.withStray stray)

end

theorem Working.withBoot (h : Working fs) (boot : Mem) (stray : Nat → Nat) : Working (fs.withBoot boot stray) :=
  ⟨(h.geometry.withStray stray).congr (withBoot_shape fs boot stray), h.readable, h.heapOk⟩

/-! ## The target of a round -/

/-- The blocks that hold data of the file, and those that were free. -/
def fileData (fs : Ext2) (inode : Mem) (q : Nat) : Prop :=
  (∃ k path, FileMaps fs inode k path q ∧ path.length = tableDepth k) ∨ FreeBlock fs q

/-- The block is none of the filesystem's own, and is a block of the drive. -/
def OrdinaryBlock (fs : Ext2) (q : Nat) : Prop := (∀ x : MetaBlock, x.Valid fs → x.number fs ≠ q) ∧ fs.physical q = q

theorem UsedBlock.ordinary (h : UsedBlock fs q) (g : Geometry fs) : OrdinaryBlock fs q := ⟨h.2, h.physical g⟩

theorem FreeBlock.ordinary (h : FreeBlock fs q) (g : Geometry fs) (hfree : FreeOk fs) : OrdinaryBlock fs q := by
  obtain ⟨i, b, hi, hb, hclear, rfl⟩ := h
  obtain ⟨hlt, hmeta⟩ := hfree i b hi hb hclear
  exact ⟨hmeta, g.physical_eq (bitNumber_le hi hlt)⟩

/-- A block that the rounds before a write leave as it is. -/
theorem OrdinaryBlock.kept {boot : Mem} {stray : Nat → Nat} (h : OrdinaryBlock fs q ∨ q = 0)
    (g : Geometry fs) (hv : fs.inodeGroup ino < fs.groupCount) (hdata : ¬ data q)
    (hg : Grown (fs.withBoot boot stray) inode ino k ns data fs1 inode') : fs1.disk q = (fs.withBoot boot stray).disk q := by
  have hmeta : ∀ x : MetaBlock, x.Valid fs → x ≠ .boot → q ≠ x.number fs := by
    intro x hx hne he
    rcases h with h | rfl
    · exact h.1 x hx he.symm
    · exact g.number_ne_zero hx hne he.symm
  obtain ⟨⟨x, hvalid, hblock⟩, -⟩ := g.inodeBlock_meta hv
  refine hg.disk q (fun i hi => hmeta (.bitmap .blocks i) hi nofun) (hmeta .descriptors trivial nofun) ?_ hdata
  rw [show (fs.withBoot boot stray).inodeBlock ino = fs.inodeBlock ino from rfl, hblock]
  exact hmeta _ hvalid nofun

theorem Grown.pointer_kept (hg : Grown fs inode ino k ns data fs1 inode')
    (hx : x < ndirBlocks → ¬ (k ≤ x ∧ x < k + ns.length)) : iBlock inode' x = iBlock inode x := by
  rw [hg.pointers x, if_neg (by omega)]

/-- The way to a block behind the direct ones starts from the pointer of before. -/
theorem Grown.getRealBlock {boot : Mem} {stray : Nat → Nat}
    (hg : Grown (fs.withBoot boot stray) inode ino k ns data fs1 inode') (hread : ∀ q, fs1.readable q = true) (hlimit : b < fs.mapLimit)
    (hb : ndirBlocks ≤ b) : ∃ slot path, (∀ inode, fs.indirectPath inode b = some (iBlock inode slot, path)) ∧
      slot ≤ tindBlock ∧ path.length = tableDepth slot ∧ fs1.getRealBlock inode' b = fs1.walkTables (iBlock inode slot) path := by
  obtain ⟨slot, path, hpath, hlo, hhi, hlen⟩ := indirectPath_slot hlimit
  have hbs : fs1.blockSize = fs.blockSize := hg.shape.blockSize
  refine ⟨slot, path, hpath, hhi, hlen, ?_⟩
  rw [getRealBlock_walk hread hb (by rw [indirectPath_congr hbs, hpath]), hg.pointer_kept (by omega)]

section

variable (hc : MapConsistent fs) (g : Geometry fs) (hn : fs.InodeUsed ino) {boot : Mem} {stray : Nat → Nat} {k : Nat} {ns : List Nat}
  (hg : Grown (fs.withBoot boot stray) (fs.storedInode ino) ino k ns (fileData fs (fs.storedInode ino)) fs1 inode')
include hc hn

theorem MapConsistent.table_not_data (hp : FileMaps fs (fs.storedInode ino) k path p)
    (hlt : path.length < tableDepth k) : ¬ fileData fs (fs.storedInode ino) p := by
  rintro (⟨k', path', hp', hlen⟩ | hfree)
  · obtain ⟨-, rfl, rfl⟩ := hc.once ino ino hn hn k k' path path' p hp hp'
    omega
  · exact (hc.used ino hn k path p hp).ne_free hfree hc.free rfl

include g

theorem MapConsistent.zero_not_data : ¬ fileData fs (fs.storedInode ino) 0 := by
  rintro (⟨k, path, hp, -⟩ | hfree)
  · exact (hc.used ino hn k path 0 hp).2 .boot trivial rfl
  · exact (hfree.ordinary g hc.free).1 .boot trivial rfl

include hg

theorem MapConsistent.tablesKept : TablesKept fs (fs.storedInode ino) fs1 := by
  intro k path p hp hlt
  have hord := (hc.used ino hn k path p hp).ordinary g
  have hne : p ≠ 0 := fun he => hord.1 .boot trivial he.symm
  refine ⟨?_, hord.2⟩
  rw [OrdinaryBlock.kept (.inl hord) g hn.1 (hc.table_not_data hn hp hlt) hg, withBoot_disk fs boot stray hne]

section

variable (hread : ∀ q, fs1.readable q = true) (hlimit : b < fs.mapLimit)
include hread hlimit

/-- Where the block map has a block, or a direct block has been allocated, a round writes to data of the file. -/
theorem MapConsistent.target (hin : k ≤ b → b < k + ns.length) (hgood : b < ndirBlocks ∧ k ≤ b ∨ fs.MapsBlock (fs.storedInode ino) b) :
    OrdinaryBlock fs (fs1.getRealBlock inode' b) ∧ fileData fs (fs.storedInode ino) (fs1.getRealBlock inode' b) := by
  have hmapped : ∀ slot path p, FileMaps fs (fs.storedInode ino) slot path p → path.length = tableDepth slot →
      OrdinaryBlock fs p ∧ fileData fs (fs.storedInode ino) p := fun slot path p hp hlen =>
    ⟨(hc.used ino hn slot path p hp).ordinary g, .inl ⟨slot, path, hp, hlen⟩⟩
  by_cases hb : b < ndirBlocks
  · rw [getRealBlock, if_pos hb]
    by_cases hk : k ≤ b
    · have hlt : b - k < ns.length := by
        have := hin hk
        omega
      have hmem : iBlock inode' b ∈ ns := by
        rw [hg.pointers b, if_pos ⟨hb, hk, hin hk⟩, getD_eq_getElem _ _ hlt]
        exact getElem_mem hlt
      have hfree := withBoot_free g boot stray (hg.fresh _ hmem)
      exact ⟨hfree.ordinary g hc.free, .inr hfree⟩
    · have hne : iBlock (fs.storedInode ino) b ≠ 0 := by
        rcases hgood with ⟨-, hk'⟩ | hmaps
        · exact absurd hk' hk
        · rwa [Ext2.MapsBlock, if_pos hb] at hmaps
      rw [hg.pointer_kept (by omega)]
      refine hmapped b [] _ (.pointer (by unfold ndirBlocks at hb; unfold tindBlock; omega) hne) ?_
      rw [tableDepth, length_nil]
      omega
  · obtain ⟨slot, path, hpath, hhi, hlen, hblock⟩ := hg.getRealBlock hread hlimit (by omega)
    have hmaps := hgood.resolve_left fun h => hb h.1
    rw [Ext2.MapsBlock, if_neg hb] at hmaps
    obtain ⟨table, path', heq, hleads⟩ := hmaps
    obtain ⟨rfl, rfl⟩ := Prod.mk.inj (Option.some.inj ((hpath _).symm.trans heq))
    have hne : iBlock (fs.storedInode ino) slot ≠ 0 := by
      cases path with
      | nil => exact hleads
      | cons j path => exact hleads.1
    have hbs : fs1.blockSize = fs.blockSize := hg.shape.blockSize
    have hwalk := (FileMaps.pointer hhi hne).walk hbs (hc.tablesKept g hn hg) (by rw [length_nil]; omega) hleads
    rw [hblock]
    exact hmapped slot _ _ hwalk (by simp [hlen])

end

end

/-- Where it has none, a boot block of zeros is the target. -/
theorem MapConsistent.target_missing (hc : MapConsistent fs) (g : Geometry fs) (hn : fs.InodeUsed ino)
    (hg : Grown (fs.withBoot (fun _ => 0) fun _ => 0) (fs.storedInode ino) ino k ns (fileData fs (fs.storedInode ino)) fs1 inode')
    (hread : ∀ q, fs1.readable q = true) (hlimit : b < fs.mapLimit)
    (hbad : ¬ (b < ndirBlocks ∧ k ≤ b ∨ fs.MapsBlock (fs.storedInode ino) b)) : fs1.getRealBlock inode' b = 0 := by
  obtain ⟨hfresh, hmissing⟩ := not_or.mp hbad
  by_cases hb : b < ndirBlocks
  · rw [Ext2.MapsBlock, if_pos hb] at hmissing
    rw [getRealBlock, if_pos hb, hg.pointer_kept (by omega)]
    exact not_not.mp hmissing
  · obtain ⟨slot, path, hpath, hhi, hlen, hblock⟩ := hg.getRealBlock hread hlimit (by omega)
    rw [Ext2.MapsBlock, if_neg hb] at hmissing
    have hzero : fs1.disk 0 = fun _ => 0 := by
      rw [OrdinaryBlock.kept (.inr rfl) g hn.1 (hc.zero_not_data g hn) hg]
      exact update_self 0 _ fs.disk
    have hstart : iBlock (fs.storedInode ino) slot = 0 ∨ FileMaps fs (fs.storedInode ino) slot [] (iBlock (fs.storedInode ino) slot) := by
      by_cases hne : iBlock (fs.storedInode ino) slot = 0
      · exact .inl hne
      · exact .inr (.pointer hhi hne)
    have hbs : fs1.blockSize = fs.blockSize := hg.shape.blockSize
    rw [hblock]
    refine walkTables_missing hbs (hc.tablesKept g hn hg) (fun j => ?_) hzero hstart ?_ fun hleads =>
      hmissing ⟨_, path, hpath _, hleads⟩
    · rw [hg.shape.stray]
      rfl
    · rw [length_nil]
      omega

/-! ## Files in direct blocks -/

/-- Without tables the direct pointers are all that the files map. -/
theorem FileMaps.direct (h : FileMaps fs inode k path p) (htables : ∀ j, ndirBlocks ≤ j → j ≤ tindBlock → iBlock inode j = 0) :
    k < ndirBlocks ∧ path = [] ∧ p = iBlock inode k ∧ iBlock inode k ≠ 0 := by
  induction h with
  | pointer hk hne => exact ⟨Nat.lt_of_not_le fun hle => hne (htables k hle hk), rfl, rfl, hne⟩
  | entry _ hlen _ _ ih =>
    rw [tableDepth] at hlen
    omega

/-- A filesystem of one group, whose first three inodes are in use: the second one maps block 6, and the third one blocks from 7 on. -/
structure DirectFiles (fs : Ext2) : Prop where
  groups : fs.groupCount = 1
  inodesPerGroup : fs.superBlock.inodesPerGroup = 8
  free : FreeOk fs
  own : ∀ x : MetaBlock, x.Valid fs → x.number fs ≤ 5
  inodes : ∀ b < 8, fs.bit .inodes 0 b = true → b < 3
  tables : ∀ n < 3, ∀ k < tindBlock + 1, ndirBlocks ≤ k → iBlock (fs.storedInode (n + 1)) k = 0
  blocks : ∀ n < 3, ∀ k < ndirBlocks, iBlock (fs.storedInode (n + 1)) k ≠ 0 →
    iBlock (fs.storedInode (n + 1)) k = 6 ∧ n = 1 ∧ k = 0 ∨ iBlock (fs.storedInode (n + 1)) k = 7 + k ∧ n = 2
  used : ∀ n < 3, ∀ k < ndirBlocks, iBlock (fs.storedInode (n + 1)) k ≠ 0 → iBlock (fs.storedInode (n + 1)) k ≤ fs.superBlock.blocksPerGroup ∧
    fs.bit .blocks 0 (iBlock (fs.storedInode (n + 1)) k - 1) = true

section

variable (h : DirectFiles fs)
include h

theorem DirectFiles.inodeNumber_lt (hn : fs.InodeUsed n) : Ext2.inodeNumber n < 3 := by
  obtain ⟨hexists, hbit⟩ := hn
  have hzero : fs.inodeGroup n = 0 := Nat.lt_one_iff.mp (h.groups ▸ hexists)
  rw [hzero] at hbit
  rw [inodeGroup, h.inodesPerGroup] at hzero
  rw [inodeIndex, h.inodesPerGroup] at hbit
  have := h.inodes _ (Nat.mod_lt _ (by decide)) hbit
  omega

theorem DirectFiles.storedInode_eq (hn : fs.InodeUsed n) : fs.storedInode n = fs.storedInode (Ext2.inodeNumber n + 1) := by
  have hlt := h.inodeNumber_lt hn
  refine storedInode_number ?_ fs
  rw [inodeNumber] at hlt ⊢
  rw [inodeNumber]
  omega

theorem DirectFiles.maps (hn : fs.InodeUsed n) (hp : FileMaps fs (fs.storedInode n) k path p) :
    k < ndirBlocks ∧ path = [] ∧ p = iBlock (fs.storedInode (Ext2.inodeNumber n + 1)) k ∧
      iBlock (fs.storedInode (Ext2.inodeNumber n + 1)) k ≠ 0 := by
  rw [h.storedInode_eq hn] at hp
  exact hp.direct fun j hle hj => h.tables _ (h.inodeNumber_lt hn) j (Nat.lt_succ_of_le hj) hle

theorem DirectFiles.mapConsistent : MapConsistent fs := by
  refine ⟨h.free, fun n hn k path p hp => ?_, fun n n' hn hn' k k' path path' p hp hp' => ?_⟩
  · obtain ⟨hk, -, rfl, hne⟩ := h.maps hn hp
    obtain ⟨hle, hbit⟩ := h.used _ (h.inodeNumber_lt hn) k hk hne
    have hcases := h.blocks _ (h.inodeNumber_lt hn) k hk hne
    refine ⟨⟨0, _, h.groups ▸ Nat.one_pos, by omega, hbit, ?_⟩, fun x hx => ?_⟩
    · simp only [bitNumber, Nat.mul_zero, Nat.add_zero]
      omega
    · have := h.own x hx
      omega
  · obtain ⟨hk, rfl, rfl, hne⟩ := h.maps hn hp
    obtain ⟨hk', rfl, he, hne'⟩ := h.maps hn' hp'
    have hcases := h.blocks _ (h.inodeNumber_lt hn) k hk hne
    have hcases' := h.blocks _ (h.inodeNumber_lt hn') k' hk' hne'
    exact ⟨by omega, by omega, rfl⟩

end

theorem smallFs_files : DirectFiles smallFs := by
  refine ⟨rfl, rfl, smallFs_consistent.freeBlocks, smallFs_own, ?_, ?_, ?_, ?_⟩
  all_goals decide

end OmegaOS
