import OmegaOS.Ext2Dir
import OmegaOS.Lemmas.Ext2Direct

/-!
# What the ext2 driver does to its bitmaps and counters

The functions that allocate take bits one after another, and otherwise write to blocks that are neither bitmaps nor descriptors. Here, for
each of them, the list of the bits that it takes.
-/

namespace OmegaOS

open ByteMem CStr Ext2

variable {b j p : Nat} {ts : List (Pool × Nat × Nat)} {pool : Pool} {done : Bool}

variable {fs fs' : Ext2} {inode inode' : Mem} {ino k : Nat}

/-! ## Blocks apart from the bitmaps -/

/-- A block of the drive that holds neither a bitmap nor the descriptors. -/
def OffBitmaps (fs : Ext2) (q : Nat) : Prop := q ≠ blockGroupStart ∧ ∀ pool i, i < fs.groupCount → q ≠ fs.bitmapBlock pool i

theorem SameShape.offBitmaps (hs : SameShape fs fs') (q : Nat) : OffBitmaps fs' q ↔ OffBitmaps fs q := by
  simp only [OffBitmaps, hs.groupCount, hs.bitmapBlock]

theorem UsedBlock.offBitmaps (h : UsedBlock fs p) : OffBitmaps fs p :=
  ⟨(h.2 .descriptors trivial).symm, fun pool i hi => (h.2 (.bitmap pool i) hi).symm⟩

theorem UsedBlock.offBitmaps_physical (h : UsedBlock fs p) (g : Geometry fs) : OffBitmaps fs (fs.physical p) := by
  rw [h.physical g]
  exact h.offBitmaps

/-- The bitmaps and the descriptors have blocks of their own: they share none with an inode table, and none of theirs is shown free. -/
structure Guarded (fs : Ext2) : Prop where
  layout : BitmapLayout fs
  inodes : ∀ ino, fs.inodeGroup ino < fs.groupCount → OffBitmaps fs (fs.physical (fs.inodeBlock ino))
  free : ∀ i b, i < fs.groupCount → b < 8 * fs.blockSize → fs.bit .blocks i b = false →
    OffBitmaps fs (fs.physical (fs.bitNumber .blocks i b % 2 ^ 32))

/-- A filesystem that is laid out well, with bitmaps that show none of its own blocks free. -/
theorem guarded_of_geometry (g : Geometry fs) (hfree : FreeOk fs) : Guarded fs := by
  refine ⟨g.bitmapLayout, fun ino hino => ?_, fun i b hi hb hclear => ?_⟩
  · rw [g.physical_inodeBlock hino]
    exact ⟨g.inodeBlock_ne_descriptors hino, fun pool i hi => g.inodeBlock_ne_bitmap hino pool hi⟩
  · obtain ⟨hlt, hmeta⟩ := hfree i b hi hb hclear
    have hle := bitNumber_le hi hlt
    have hlast := g.lastBlock_lt
    rw [Nat.mod_eq_of_lt (by omega), g.physical_eq hle]
    exact ⟨(hmeta .descriptors trivial).symm, fun pool j hj => (hmeta (.bitmap pool j) hj).symm⟩

/-- A step that writes neither to a bitmap nor to the descriptors. -/
structure BitmapsKept (fs fs' : Ext2) : Prop where
  shape : SameShape fs fs'
  groups : fs'.groups = fs.groups
  disk : ∀ q, ¬ OffBitmaps fs q → fs'.disk q = fs.disk q

theorem BitmapsKept.bit (h : BitmapsKept fs fs') (pool : Pool) (hi : i < fs.groupCount) (b : Nat) : fs'.bit pool i b = fs.bit pool i b := by
  rw [Ext2.bit, h.shape.bitmapBlock, h.disk _ fun ha => ha.2 pool i hi rfl]
  rfl

theorem BitmapsKept.freeCount (h : BitmapsKept fs fs') (pool : Pool) (i : Nat) : fs'.freeCount pool i = fs.freeCount pool i := by
  rw [Ext2.freeCount, h.groups]
  rfl

theorem BitmapsKept.refl (fs : Ext2) : BitmapsKept fs fs := ⟨.refl fs, rfl, fun _ _ => rfl⟩

theorem bitmapsKept_writeBlock (h : OffBitmaps fs (fs.physical n)) (buffer : Mem) : BitmapsKept fs (fs.writeBlock n buffer) :=
  ⟨SameShape.writeBlock fs n buffer, rfl, fun _ hq => disk_writeBlock_ne fs n buffer fun he => hq (he ▸ h)⟩

theorem Guarded.mono (h : Guarded fs) (hs : SameShape fs fs')
    (hbits : ∀ i b, i < fs.groupCount → b < 8 * fs.blockSize → fs'.bit .blocks i b = false →
      OffBitmaps fs (fs.physical (fs.bitNumber .blocks i b % 2 ^ 32))) : Guarded fs' := by
  refine ⟨h.layout.congr hs, fun ino hino => ?_, fun i b hi hb hclear => ?_⟩
  · rw [hs.inodeGroup, hs.groupCount] at hino
    rw [hs.offBitmaps, hs.physical, hs.inodeBlock]
    exact h.inodes ino hino
  · rw [hs.groupCount] at hi
    rw [hs.blockSize] at hb
    rw [hs.offBitmaps, hs.physical, hs.bitNumber]
    exact hbits i b hi hb hclear

theorem Guarded.kept (h : Guarded fs) (hk : BitmapsKept fs fs') : Guarded fs' :=
  h.mono hk.shape fun i b hi hb hclear => h.free i b hi hb (by rwa [hk.bit .blocks hi] at hclear)

/-- An allocation keeps the bitmaps apart. -/
theorem Guarded.taken (h : Guarded fs) (ht : BitTaken fs fs' pool j c) : Guarded fs' := by
  refine h.mono ht.shape fun i b hi hb hclear => h.free i b hi hb ?_
  rw [ht.bits .blocks i b hi hb] at hclear
  exact (Bool.or_eq_false_iff.mp hclear).1

/-! ## The bits that are taken -/

/-- A run that takes these bits, in this order, and otherwise leaves bitmaps and descriptors. -/
inductive Ledger : Ext2 → List (Pool × Nat × Nat) → Ext2 → Prop where
  | refl (fs : Ext2) : Ledger fs [] fs
  | kept {fs fs₁ fs' : Ext2} {ts : List (Pool × Nat × Nat)} : BitmapsKept fs fs₁ → Ledger fs₁ ts fs' → Ledger fs ts fs'
  | taken {fs fs₁ fs' : Ext2} {ts : List (Pool × Nat × Nat)} {pool : Pool} {j b : Nat} :
    BitTaken fs fs₁ pool j b → Ledger fs₁ ts fs' → Ledger fs ((pool, j, b) :: ts) fs'

theorem BitmapsKept.ledger (h : BitmapsKept fs fs') : Ledger fs [] fs' := .kept h (.refl fs')

/-- An allocation is one entry of the ledger. -/
theorem BitTaken.ledger (h : BitTaken fs fs' pool j b) : Ledger fs [(pool, j, b)] fs' := .taken h (.refl fs')

namespace Ledger

variable {ts us : List (Pool × Nat × Nat)} {fs'' : Ext2}

section

variable (h : Ledger fs ts fs')

include h

theorem trans (h' : Ledger fs' us fs'') : Ledger fs (ts ++ us) fs'' := by
  induction h with
  | refl => exact h'
  | kept hk _ ih => exact .kept hk (ih h')
  | taken ht _ ih => exact .taken ht (ih h')

theorem shape : SameShape fs fs' := by
  induction h with
  | refl fs => exact .refl fs
  | kept hk _ ih => exact hk.shape.trans ih
  | taken ht _ ih => exact ht.shape.trans ih

theorem guarded (hg : Guarded fs) : Guarded fs' := by
  induction h with
  | refl => exact hg
  | kept hk _ ih => exact ih (hg.kept hk)
  | taken ht _ ih => exact ih (hg.taken ht)

/-- The bits that are taken are clear at the start. -/
theorem fresh : ∀ t ∈ ts, t.2.1 < fs.groupCount ∧ t.2.2 < 8 * fs.blockSize ∧ fs.bit t.1 t.2.1 t.2.2 = false := by
  induction h with
  | refl => exact fun t ht => absurd ht List.not_mem_nil
  | kept hk _ ih =>
    intro t ht
    obtain ⟨hi, hb, hclear⟩ := ih t ht
    rw [hk.shape.groupCount] at hi
    rw [hk.shape.blockSize] at hb
    rw [hk.bit t.1 hi] at hclear
    exact ⟨hi, hb, hclear⟩
  | taken htaken _ ih =>
    intro t ht
    rcases List.mem_cons.mp ht with rfl | ht
    · exact ⟨htaken.group, htaken.inBitmap, htaken.clear⟩
    · obtain ⟨hi, hb, hclear⟩ := ih t ht
      rw [htaken.shape.groupCount] at hi
      rw [htaken.shape.blockSize] at hb
      rw [htaken.bits t.1 t.2.1 t.2.2 hi hb] at hclear
      exact ⟨hi, hb, (Bool.or_eq_false_iff.mp hclear).1⟩

end

end Ledger

/-! ## Inodes -/

/-- A step that writes to bitmaps, to the descriptors and to inode tables only. -/
structure DataKept (fs fs' : Ext2) : Prop where
  shape : SameShape fs fs'
  disk : ∀ q, OffBitmaps fs q → (∀ ino, fs.inodeGroup ino < fs.groupCount → q ≠ fs.physical (fs.inodeBlock ino)) → fs'.disk q = fs.disk q

theorem DataKept.refl (fs : Ext2) : DataKept fs fs := ⟨.refl fs, fun _ _ _ => rfl⟩

theorem DataKept.trans {fs'' : Ext2} (h : DataKept fs fs') (h' : DataKept fs' fs'') : DataKept fs fs'' := by
  refine ⟨h.shape.trans h'.shape, fun q hq hino => ?_⟩
  rw [h'.disk q ((h.shape.offBitmaps q).mpr hq) fun ino hgroup => ?_, h.disk q hq hino]
  rw [h.shape.inodeGroup, h.shape.groupCount] at hgroup
  rw [h.shape.physical, h.shape.inodeBlock]
  exact hino ino hgroup

theorem BitTaken.dataKept (h : BitTaken fs fs' pool j b) : DataKept fs fs' := ⟨h.shape, fun q hq _ => h.disk q (hq.2 pool j h.group) hq.1⟩

/-- `writeInode` changes no bitmap and no data. -/
theorem Guarded.writeInode (h : Guarded fs) (ino : Nat) (inode : Mem) :
    BitmapsKept fs (fs.writeInode ino inode).2 ∧ DataKept fs (fs.writeInode ino inode).2 := by
  rw [Ext2.writeInode]
  split
  · exact ⟨.refl fs, .refl fs⟩
  · rename_i hgroup
    replace hgroup : fs.inodeGroup ino < fs.groupCount := Nat.lt_of_not_le hgroup
    split
    · exact ⟨.refl fs, .refl fs⟩
    · exact ⟨bitmapsKept_writeBlock (h.inodes ino hgroup) _,
        SameShape.writeBlock .., fun q _ hq => disk_writeBlock_ne fs _ _ (hq ino hgroup)⟩

/-- Block `k` of an inode is apart, whatever the bitmaps, the descriptors and the inode tables hold. -/
def FileBlock (fs : Ext2) (inode : Mem) (k : Nat) : Prop := ∀ fs', DataKept fs fs' → OffBitmaps fs (fs.physical (fs'.getRealBlock inode k))

theorem FileBlock.dataKept (h : FileBlock fs inode k) (hu : DataKept fs fs') : FileBlock fs' inode k := by
  intro fs'' hu'
  rw [hu.shape.offBitmaps, hu.shape.physical]
  exact h fs'' (hu.trans hu')

theorem getRealBlock_direct (fs : Ext2) (inode : Mem) (hk : k < ndirBlocks) : fs.getRealBlock inode k = iBlock inode k := by
  rw [getRealBlock, if_pos hk]

/-- The pointers to tables decide which blocks are behind the direct ones. -/
theorem getRealBlock_indirect (fs : Ext2) (hk : ndirBlocks ≤ k) (h : ∀ j, ndirBlocks ≤ j → iBlock inode' j = iBlock inode j) :
    fs.getRealBlock inode' k = fs.getRealBlock inode k := by
  have hpath : fs.indirectPath inode' k = fs.indirectPath inode k := by
    unfold indirectPath
    rw [h ndirBlocks .refl, h dindBlock (by decide), h tindBlock (by decide)]
  rw [getRealBlock, getRealBlock, if_neg (by omega), if_neg (by omega), hpath]

/-! ## Blocks for a file -/

/-- What an allocation for an inode does: the bits `ts` are taken, and the pointers that change are to blocks apart. -/
structure Allocated (fs : Ext2) (inode : Mem) (ts : List (Pool × Nat × Nat)) (fs' : Ext2) (inode' : Mem) : Prop where
  ledger : Ledger fs ts fs'
  dataKept : DataKept fs fs'
  direct : ∀ j < ndirBlocks, iBlock inode' j = iBlock inode j ∨ OffBitmaps fs (fs.physical (iBlock inode' j))
  indirect : ∀ j, ndirBlocks ≤ j → iBlock inode' j = iBlock inode j

theorem Allocated.refl (fs : Ext2) (inode : Mem) : Allocated fs inode [] fs inode :=
  ⟨.refl fs, .refl fs, fun _ _ => .inl rfl, fun _ _ => rfl⟩

theorem Allocated.trans {us : List (Pool × Nat × Nat)} {fs'' : Ext2} {inode'' : Mem} (h : Allocated fs inode ts fs' inode')
    (h' : Allocated fs' inode' us fs'' inode'') : Allocated fs inode (ts ++ us) fs'' inode'' := by
  refine ⟨h.ledger.trans h'.ledger, h.dataKept.trans h'.dataKept, fun j hj => ?_, fun j hj => (h'.indirect j hj).trans (h.indirect j hj)⟩
  have hs := h.dataKept.shape
  rcases h'.direct j hj with heq | hapart
  · rw [heq]
    exact h.direct j hj
  · right
    rwa [hs.offBitmaps, hs.physical] at hapart

theorem Allocated.fileBlock (h : Allocated fs inode ts fs' inode') (hf : FileBlock fs inode k) : FileBlock fs' inode' k := by
  intro fs'' hu
  have hs := h.dataKept.shape
  rw [hs.offBitmaps, hs.physical]
  by_cases hk : k < ndirBlocks
  · rw [getRealBlock_direct fs'' inode' hk]
    rcases h.direct k hk with heq | hapart
    · rw [heq, ← getRealBlock_direct fs inode hk]
      exact hf fs (.refl fs)
    · exact hapart
  · rw [getRealBlock_indirect fs'' (Nat.le_of_not_lt hk) h.indirect]
    exact hf fs'' (h.dataKept.trans hu)

/-- One block is taken, and becomes block `k` of the inode. -/
def OneBlock (fs : Ext2) (inode : Mem) (k : Nat) (ts : List (Pool × Nat × Nat)) (inode' : Mem) : Prop :=
  ∃ j b, ts = [(.blocks, j, b)] ∧ inode' = grownInode fs inode k (fs.bitNumber .blocks j b % 2 ^ 32)

/-- A block that is taken and recorded in the inode. -/
theorem allocated_grown (hg : Guarded fs) {fs1 : Ext2} (htaken : BitTaken fs fs1 .blocks j b) (inode : Mem) (ino k : Nat) :
    Allocated fs inode [(.blocks, j, b)] (fs1.writeInode ino (grownInode fs inode k (fs.bitNumber .blocks j b % 2 ^ 32))).2
      (grownInode fs inode k (fs.bitNumber .blocks j b % 2 ^ 32)) := by
  have hlt : fs.bitNumber .blocks j b % 2 ^ 32 < 2 ^ 32 := Nat.mod_lt _ (by decide)
  obtain ⟨hkept, hdata⟩ := (hg.taken htaken).writeInode ino (grownInode fs inode k (fs.bitNumber .blocks j b % 2 ^ 32))
  refine ⟨.taken htaken hkept.ledger, htaken.dataKept.trans hdata, fun x _ => ?_, fun x hx => ?_⟩
  · rw [iBlock_grownInode fs inode hlt]
    split
    · exact .inr (hg.free j b htaken.group htaken.inBitmap htaken.clear)
    · exact .inl rfl
  · rw [iBlock_grownInode fs inode hlt, if_neg (by omega)]

/-- `allocateBlock`. A bit that was taken is lost when the block map has no place for it. -/
theorem Guarded.allocateBlock (h : Guarded fs) (hr : fs.allocateBlock inode ino k = (done, inode', fs')) :
    ∃ ts, Allocated fs inode ts fs' inode' ∧ (done = true → OneBlock fs inode k ts inode' ∧
        ∀ t ∈ ts, (fs.allocateBit .blocks fs.groupCount 0).1 = fs.bitNumber .blocks t.2.1 t.2.2 % 2 ^ 32) := by
  rw [Ext2.allocateBlock] at hr
  split at hr
  · cases hr
    exact ⟨[], .refl fs inode, fun hf => by cases hf⟩
  · rcases allocateBit_spec .blocks h.layout (show 0 + fs.groupCount ≤ fs.groupCount by omega) with hnone | ⟨j, b, -, hnumber, htaken⟩
    · rw [hnone] at hr
      cases hr
      exact ⟨[], .refl fs inode, fun hf => by cases hf⟩
    · generalize fs.allocateBit .blocks fs.groupCount 0 = alloc at hr hnumber htaken ⊢
      obtain ⟨number, fs1⟩ := alloc
      dsimp only at hr hnumber htaken ⊢
      split at hr
      · cases hr
        exact ⟨_, ⟨htaken.ledger, htaken.dataKept, fun _ _ => .inl rfl, fun _ _ => rfl⟩, fun hf => by cases hf⟩
      · have hset := setRealBlock_inode fs1 inode k number
        split at hr
        · rename_i inode1 heq
          rw [heq] at hset
          dsimp only at hset
          have hk : ¬ k < ndirBlocks := by
            intro hk
            simp [setRealBlock_direct fs1 inode hk] at heq
          rw [if_neg hk] at hset
          cases hr
          rw [hset]
          exact ⟨_, ⟨htaken.ledger, htaken.dataKept, fun _ _ => .inl rfl, fun _ _ => rfl⟩, fun hf => by cases hf⟩
        · rename_i inode1 heq
          rw [heq] at hset
          dsimp only at hset
          have hgrown : setISize (setISectors inode1 ((iSectors inode1 + fs1.sectorsPerBlock) % 2 ^ 32))
              ((iSize (setISectors inode1 ((iSectors inode1 + fs1.sectorsPerBlock) % 2 ^ 32)) + fs1.blockSize) % 2 ^ 32) =
              grownInode fs inode k (fs.bitNumber .blocks j b % 2 ^ 32) := by
            rw [iSize_setISectors, htaken.shape.sectorsPerBlock, htaken.shape.blockSize, hset, hnumber]
            rfl
          rw [hgrown] at hr
          cases hr
          refine ⟨[(.blocks, j, b)], allocated_grown h htaken inode ino k, fun _ => ⟨⟨j, b, rfl, rfl⟩, fun t ht => ?_⟩⟩
          rwa [List.mem_singleton.mp ht]

/-- The loop takes bits only. -/
theorem Guarded.growTo (h : Guarded fs) {fuel : Nat} (hr : fs.growTo inode ino k fuel = (done, inode', fs')) :
    ∃ ts, Allocated fs inode ts fs' inode' := by
  induction fuel generalizing fs inode with
  | zero =>
    cases hr
    exact ⟨[], .refl _ _⟩
  | succ fuel ih =>
    rw [growTo] at hr
    split at hr
    · split at hr
      · rename_i halloc
        cases hr
        obtain ⟨ts, hts, -⟩ := h.allocateBlock halloc
        exact ⟨ts, hts⟩
      · rename_i inode1 fs1 halloc
        obtain ⟨ts, hts, -⟩ := h.allocateBlock halloc
        obtain ⟨us, hus⟩ := ih (hts.ledger.guarded h) hr
        exact ⟨ts ++ us, hts.trans hus⟩
    · cases hr
      exact ⟨[], .refl _ _⟩

/-- `writeInodeBlock` on a block apart. It allocates nothing when the inode has sectors for the block. -/
theorem Guarded.writeInodeBlock (h : Guarded fs) (hf : FileBlock fs inode k) {buffer : Mem}
    (hr : fs.writeInodeBlock inode ino k buffer = (done, inode', fs')) :
    ∃ ts, Ledger fs ts fs' ∧ (k < fs.sector2Block (iSectors inode) → ts = [] ∧ inode' = inode) := by
  have hwrite : ∀ {fs1 : Ext2} {inode1 : Mem}, FileBlock fs1 inode1 k →
      BitmapsKept fs1 (fs1.writeBlock (fs1.getRealBlock inode1 k) buffer) :=
    fun hf1 => bitmapsKept_writeBlock (hf1 _ (.refl _)) buffer
  rw [Ext2.writeInodeBlock] at hr
  by_cases hk : k < fs.sector2Block (iSectors inode)
  · rw [Ext2.growTo, if_neg (by omega)] at hr
    cases hr
    exact ⟨[], (hwrite hf).ledger, fun _ => ⟨rfl, rfl⟩⟩
  · split at hr
    · rename_i hgrow
      cases hr
      obtain ⟨ts, hts⟩ := h.growTo hgrow
      exact ⟨ts, hts.ledger, fun hlt => absurd hlt hk⟩
    · rename_i inode1 fs1 hgrow
      cases hr
      obtain ⟨ts, hts⟩ := h.growTo hgrow
      exact ⟨ts ++ [], hts.ledger.trans (hwrite (hts.fileBlock hf)).ledger, fun hlt => absurd hlt hk⟩

/-! ## Entries of a directory -/

/-- The blocks of a directory are apart; so is the next one, where no direct pointer leads to it. -/
def DirBlocks (fs : Ext2) (inode : Mem) : Prop :=
  ∀ j ≤ iSize inode / fs.blockSize, (j < iSize inode / fs.blockSize ∨ ndirBlocks ≤ j) → FileBlock fs inode j

/-- An inode has sectors for the blocks of its size, and with one block's sectors more for the next one. -/
def SectorsMatch (fs : Ext2) (inode : Mem) : Prop :=
  iSize inode / fs.blockSize ≤ fs.sector2Block (iSectors inode) ∧
    iSize inode / fs.blockSize < fs.sector2Block ((iSectors inode + fs.sectorsPerBlock) % 2 ^ 32)

theorem DirBlocks.dataKept (h : DirBlocks fs inode) (hu : DataKept fs fs') : DirBlocks fs' inode := by
  intro j hj hcase
  rw [hu.shape.blockSize] at hj hcase
  exact (h j hj hcase).dataKept hu

theorem SectorsMatch.congr (h : SectorsMatch fs inode) (hs : SameShape fs fs') : SectorsMatch fs' inode := by
  rwa [SectorsMatch, hs.blockSize, hs.sector2Block, hs.sector2Block, hs.sectorsPerBlock]

theorem SameShape.grownInode (hs : SameShape fs fs') (inode : Mem) (k n : Nat) : grownInode fs' inode k n = grownInode fs inode k n := by
  rw [OmegaOS.grownInode, hs.sectorsPerBlock, hs.blockSize]
  rfl

theorem OneBlock.congr (h : OneBlock fs' inode k ts inode') (hs : SameShape fs fs') : OneBlock fs inode k ts inode' := by
  obtain ⟨j, b, hts, hinode⟩ := h
  exact ⟨j, b, hts, by rw [hinode, hs.grownInode, hs.bitNumber]⟩

/-- The block that was allocated is one of the file. -/
theorem OneBlock.fileBlock (h : OneBlock fs inode k ts inode') (ha : Allocated fs inode ts fs' inode')
    (hg : Guarded fs) (hk : k < ndirBlocks) : FileBlock fs' inode' k := by
  intro fs'' _
  obtain ⟨j, b, rfl, rfl⟩ := h
  have hs := ha.dataKept.shape
  obtain ⟨hj, hb, hclear⟩ := ha.ledger.fresh _ List.mem_cons_self
  rw [hs.offBitmaps, hs.physical, getRealBlock_direct fs'' _ hk, iBlock_grownInode fs inode (Nat.mod_lt _ (by decide)), if_pos ⟨hk, rfl⟩]
  exact hg.free j b hj hb hclear

variable {parent parent' : Mem} {pino newIno ft attr : Nat} {name : Str} {done : Bool}

theorem Guarded.insertInNewBlock (h : Guarded fs) (hk : ndirBlocks ≤ k → FileBlock fs parent k)
    (hr : fs.insertInNewBlock parent pino newIno name ft k = (done, parent', fs')) : ∃ ts, Ledger fs ts fs' ∧
      (done = true → k < fs.sector2Block ((iSectors parent + fs.sectorsPerBlock) % 2 ^ 32) → OneBlock fs parent k ts parent') := by
  rw [Ext2.insertInNewBlock] at hr
  split at hr
  · rename_i halloc
    cases hr
    obtain ⟨ts, hts, -⟩ := h.allocateBlock halloc
    exact ⟨ts, hts.ledger, fun hf => by cases hf⟩
  · rename_i parent1 fs1 halloc
    obtain ⟨ts, hts, hone⟩ := h.allocateBlock halloc
    obtain ⟨hone, -⟩ := hone rfl
    have hfile : FileBlock fs1 parent1 k := by
      by_cases hk12 : k < ndirBlocks
      · exact hone.fileBlock hts h hk12
      · exact hts.fileBlock (hk (Nat.le_of_not_lt hk12))
    split at hr
    · cases hr
      exact ⟨ts, hts.ledger, fun hf => by cases hf⟩
    · obtain ⟨us, hus, hnone⟩ := (hts.ledger.guarded h).writeInodeBlock hfile hr
      refine ⟨ts ++ us, hts.ledger.trans hus, fun _ hlt => ?_⟩
      have hsectors : fs1.sector2Block (iSectors parent1) = fs.sector2Block ((iSectors parent + fs.sectorsPerBlock) % 2 ^ 32) := by
        obtain ⟨j, b, -, hinode⟩ := hone
        rw [hinode, iSectors_grownInode, hts.dataKept.shape.sector2Block]
      obtain ⟨rfl, rfl⟩ := hnone (by rwa [hsectors])
      rwa [List.append_nil]

section

variable (h : Guarded fs) (hdir : DirBlocks fs parent)

include h hdir

/-- `insertInodeInDir`: when the sectors match, a success takes no block, or one that becomes the last block of the directory. -/
theorem Guarded.insertInodeInDir (hr : fs.insertInodeInDir parent pino newIno name ft = .ok (done, parent', fs')) :
    ∃ ts, Ledger fs ts fs' ∧ (done = true → SectorsMatch fs parent →
      ts = [] ∧ parent' = parent ∨ OneBlock fs parent (iSize parent / fs.blockSize) ts parent') := by
  have hsize := iSize_lt parent
  have hle := Nat.div_le_self (iSize parent) fs.blockSize
  generalize hn : iSize parent / fs.blockSize = n at *
  have hnew : ∀ {done : Bool} {parent' : Mem} {fs' : Ext2}, fs.insertInNewBlock parent pino newIno name ft n = (done, parent', fs') →
      ∃ ts, Ledger fs ts fs' ∧ (done = true → SectorsMatch fs parent → ts = [] ∧ parent' = parent ∨ OneBlock fs parent n ts parent') := by
    intro done parent' fs' hr
    obtain ⟨ts, hts, hone⟩ := h.insertInNewBlock (fun hk => hdir n (by omega) (.inr hk)) hr
    exact ⟨ts, hts, fun hdone hmatch => .inr (hone hdone (by rw [← hn]; exact hmatch.2))⟩
  rw [Ext2.insertInodeInDir, hn] at hr
  split at hr
  · cases hr
    exact ⟨[], .refl _, fun hf => by cases hf⟩
  · dsimp only at hr
    split at hr
    · cases hr
      exact ⟨[], .refl _, fun hf => by cases hf⟩
    · split at hr
      · rename_i hlast
        obtain rfl : n = 0 := by omega
        exact hnew (Except.ok.inj hr)
      · rename_i hlast
        have hlastBlock : (n + (2 ^ 32 - 1)) % 2 ^ 32 = n - 1 := by omega
        rw [hlastBlock] at hr
        obtain ⟨d, -, hr⟩ := bind_eq_ok.mp hr
        split at hr
        · obtain ⟨ts, hts, hnone⟩ := h.writeInodeBlock (hdir (n - 1) (by omega) (.inl (by omega))) (Except.ok.inj hr)
          refine ⟨ts, hts, fun _ hmatch => .inl (hnone ?_)⟩
          have := hmatch.1
          omega
        · rw [show n - 1 + 1 = n by omega] at hr
          exact hnew (Except.ok.inj hr)

/-- `createInode` takes what the insertion takes. -/
theorem Guarded.createInode {created : Option Mem} (hr : fs.createInode parent pino name attr ino = .ok (created, parent', fs')) :
    ∃ ts, Ledger fs ts fs' ∧ (created.isSome = true → SectorsMatch fs parent →
      ts = [] ∧ parent' = parent ∨ OneBlock fs parent (iSize parent / fs.blockSize) ts parent') := by
  rw [Ext2.createInode] at hr
  split at hr
  · cases hr
    exact ⟨[], .refl _, fun hf => by cases hf⟩
  · obtain ⟨hkept, hdata⟩ := h.writeInode ino (Ext2.initInode attr)
    split at hr
    · rename_i hwrite
      cases hr
      rw [hwrite] at hkept
      exact ⟨[], hkept.ledger, fun hf => by cases hf⟩
    · rename_i fs1 hwrite
      rw [hwrite] at hkept hdata
      have hs := hkept.shape
      obtain ⟨⟨done, parent1, fs2⟩, hinsert, hr⟩ := bind_eq_ok.mp hr
      obtain ⟨ts, hts, hcases⟩ := (h.kept hkept).insertInodeInDir (hdir.dataKept hdata) hinsert
      cases done with
      | false =>
        cases hr
        exact ⟨ts, .kept hkept hts, fun hf => by cases hf⟩
      | true =>
        cases hr
        refine ⟨ts, .kept hkept hts, fun _ hmatch => ?_⟩
        have hone := hcases rfl (hmatch.congr hs)
        rw [hs.blockSize] at hone
        exact hone.imp_right fun hone => hone.congr hs

/-- `allocateAndCreateInode` takes an inode besides. -/
theorem Guarded.allocateAndCreateInode {created : Option (Mem × Nat)}
    (hr : fs.allocateAndCreateInode parent pino name attr = .ok (created, parent', fs')) :
    ∃ ts, Ledger fs ts fs' ∧ ∀ newInode newIno, created = some (newInode, newIno) → SectorsMatch fs parent →
      ∃ j b us, ts = (.inodes, j, b) :: us ∧ newIno = fs.bitNumber .inodes j b % 2 ^ 32 ∧
        (us = [] ∧ parent' = parent ∨ OneBlock fs parent (iSize parent / fs.blockSize) us parent') := by
  rw [Ext2.allocateAndCreateInode] at hr
  split at hr
  · cases hr
    exact ⟨[], .refl _, fun _ _ hf => by cases hf⟩
  · rcases allocateBit_spec .inodes h.layout (show 0 + fs.groupCount ≤ fs.groupCount by omega) with hnone | ⟨j, b, -, hnumber, htaken⟩
    · rw [hnone] at hr
      cases hr
      exact ⟨[], .refl _, fun _ _ hf => by cases hf⟩
    · generalize fs.allocateBit .inodes fs.groupCount 0 = alloc at hr hnumber htaken
      obtain ⟨number, fs1⟩ := alloc
      dsimp only at hr hnumber htaken
      have hs := htaken.shape
      split at hr
      · cases hr
        exact ⟨_, htaken.ledger, fun _ _ hf => by cases hf⟩
      · obtain ⟨⟨created1, parent1, fs2⟩, hcreate, hr⟩ := bind_eq_ok.mp hr
        obtain ⟨us, hus, hcases⟩ := (h.taken htaken).createInode (hdir.dataKept htaken.dataKept) hcreate
        cases hr
        refine ⟨(.inodes, j, b) :: us, .taken htaken hus, fun newInode newIno hsome hmatch => ⟨j, b, us, rfl, ?_, ?_⟩⟩
        · obtain ⟨_, -, heq⟩ := Option.map_eq_some_iff.mp hsome
          rwa [← (Prod.mk.inj heq).2]
        · have hisSome : created1.isSome = true := by
            obtain ⟨newInode, hsome, -⟩ := Option.map_eq_some_iff.mp hsome
            exact Option.isSome_of_mem hsome
          have hone := hcases hisSome (hmatch.congr hs)
          rw [hs.blockSize] at hone
          exact hone.imp_right fun hone => hone.congr hs

end

end OmegaOS
