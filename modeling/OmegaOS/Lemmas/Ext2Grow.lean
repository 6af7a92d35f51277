import Mathlib.Data.List.GetD
import Mathlib.Data.List.Nodup
import OmegaOS.Lemmas.Ext2Alloc

/-!
# Growing a file

`writeInodeBlock` allocates blocks until the inode has sectors for the block it is to write. Here, what a whole run of such rounds
does, as long as the bitmaps give blocks.
-/

namespace OmegaOS

open ByteMem List Ext2 Function

variable {b fuel k i j block : Nat} {ns ms : List Nat} {data : Nat → Prop} {fs1 : Ext2}

variable {fs fs' fs'' : Ext2} {ino : Nat} {inode inode' : Mem}

/-! ## Room -/

/-- The allocator sees the same: the descriptors and the block bitmaps. -/
structure SameBitmaps (fs fs' : Ext2) : Prop where
  shape : SameShape fs fs'
  groups : fs'.groups = fs.groups
  bitmaps : ∀ i < fs.groupCount, fs'.disk (fs.bitmapBlock .blocks i) = fs.disk (fs.bitmapBlock .blocks i)

section

variable (h : SameBitmaps fs fs')

include h

theorem SameBitmaps.bit (hi : i < fs.groupCount) (b : Nat) : fs'.bit .blocks i b = fs.bit .blocks i b := by
  rw [Ext2.bit, h.shape.bitmapBlock, h.bitmaps i hi]
  rfl

theorem SameBitmaps.freeCount (pool : Pool) (i : Nat) : fs'.freeCount pool i = fs.freeCount pool i := by
  rw [Ext2.freeCount, h.groups]
  rfl

theorem SameBitmaps.writeBlock (n : Nat) (buffer : Mem) : SameBitmaps (fs.writeBlock n buffer) (fs'.writeBlock n buffer) := by
  refine ⟨?_, h.groups, fun i hi => ?_⟩
  · exact ⟨h.shape.superBlock, h.shape.blockSize, h.shape.groupCount, h.shape.inodesPerGroup, h.shape.readable, h.shape.heapOk,
      h.shape.stray, h.shape.bitmapBlock, h.shape.inodeTable⟩
  · have hold := h.bitmaps i hi
    by_cases hq : fs.bitmapBlock .blocks i = fs.physical n
    · show update fs'.disk (fs'.physical n) _ (fs.bitmapBlock .blocks i) =
        update fs.disk (fs.physical n) _ (fs.bitmapBlock .blocks i)
      rw [hq] at hold ⊢
      simp [h.shape.physical, h.shape.blockSize, hold]
    · show (fs'.writeBlock n buffer).disk (fs.bitmapBlock .blocks i) = (fs.writeBlock n buffer).disk (fs.bitmapBlock .blocks i)
      rw [disk_writeBlock_ne fs _ _ hq, disk_writeBlock_ne fs' _ _ (by rwa [h.shape.physical]), hold]

theorem SameBitmaps.setFreeCount (pool : Pool) (i v : Nat) : SameBitmaps (fs.setFreeCount pool i v) (fs'.setFreeCount pool i v) := by
  have hfs := SameShape.setFreeCount fs pool i v
  have hfs' := SameShape.setFreeCount fs' pool i v
  refine ⟨⟨h.shape.superBlock, h.shape.blockSize, h.shape.groupCount, h.shape.inodesPerGroup, h.shape.readable, h.shape.heapOk,
    h.shape.stray, fun p j => ?_, fun j => ?_⟩, ?_, fun j hj => ?_⟩
  · rw [hfs'.bitmapBlock, hfs.bitmapBlock, h.shape.bitmapBlock]
  · rw [hfs'.inodeTable, hfs.inodeTable, h.shape.inodeTable]
  · show store fs'.groups _ 2 v = store fs.groups _ 2 v
    rw [h.groups]
  · rw [hfs.bitmapBlock]
    exact h.bitmaps j hj

theorem SameBitmaps.takeBit (i b : Nat) (bitmap : Mem) : (fs'.takeBit .blocks i b bitmap).1 = (fs.takeBit .blocks i b bitmap).1 ∧
      SameBitmaps (fs.takeBit .blocks i b bitmap).2 (fs'.takeBit .blocks i b bitmap).2 := by
  unfold Ext2.takeBit
  split
  · exact ⟨rfl, h⟩
  · dsimp only
    rw [h.shape.perGroup, h.freeCount]
    refine ⟨rfl, ?_⟩
    have h1 := h.setFreeCount .blocks i ((fs.freeCount .blocks i + (2 ^ 16 - 1)) % 2 ^ 16)
    rw [h1.shape.bitmapBlock]
    have h2 := h1.writeBlock ((fs.setFreeCount .blocks i ((fs.freeCount .blocks i + (2 ^ 16 - 1)) % 2 ^ 16)).bitmapBlock .blocks i)
      (markBit bitmap b)
    rw [h2.groups]
    exact h2.writeBlock blockGroupStart _

theorem SameBitmaps.allocateBit (g : Geometry fs) (hi : i + fuel ≤ fs.groupCount) :
    (fs'.allocateBit .blocks fuel i).1 = (fs.allocateBit .blocks fuel i).1 ∧
      SameBitmaps (fs.allocateBit .blocks fuel i).2 (fs'.allocateBit .blocks fuel i).2 := by
  induction fuel generalizing i with
  | zero => exact ⟨rfl, h⟩
  | succ fuel ih =>
    rw [Ext2.allocateBit, Ext2.allocateBit, h.freeCount]
    split
    · rw [Ext2.readBlock, Ext2.readBlock, h.shape.physical, h.shape.bitmapBlock, h.shape.readable, g.physical_bitmap .blocks (by omega),
        h.bitmaps i (by omega), h.shape.blockSize]
      split
      · exact ⟨rfl, h⟩
      · split
        · exact h.takeBit i _ _
        · exact ih (by omega)
    · exact h.takeBit i 0 _

end

/-- `k` allocations in a row give blocks. -/
def Room (fs : Ext2) : Nat → Prop
  | 0 => True
  | k + 1 => (fs.allocateBit .blocks fs.groupCount 0).1 ≠ 0 ∧ Room (fs.allocateBit .blocks fs.groupCount 0).2 k

theorem Room.le (h : Room fs k) (hm : m ≤ k) : Room fs m := by
  induction m generalizing fs k with
  | zero => trivial
  | succ m ih =>
    cases k with
    | zero => omega
    | succ k => exact ⟨h.1, ih h.2 (by omega)⟩

theorem allocateBit_shape (g : Geometry fs) : SameShape fs (fs.allocateBit .blocks fs.groupCount 0).2 := by
  rcases allocateBit_spec .blocks g.bitmapLayout (show 0 + fs.groupCount ≤ fs.groupCount by omega) with h | ⟨j, b, -, -, htaken⟩
  · rw [h]
    exact .refl fs
  · exact htaken.shape

theorem SameBitmaps.room (h : SameBitmaps fs fs') (g : Geometry fs) (hroom : Room fs k) : Room fs' k := by
  induction k generalizing fs fs' with
  | zero => trivial
  | succ k ih =>
    obtain ⟨hne, hrest⟩ := hroom
    have hshape := allocateBit_shape g
    obtain ⟨hnum, hsame⟩ := h.allocateBit g (show 0 + fs.groupCount ≤ fs.groupCount by omega)
    rw [← h.shape.groupCount] at hnum hsame
    exact ⟨by rwa [hnum, h.shape.groupCount], ih (h.shape.groupCount ▸ hsame) (g.congr hshape) hrest⟩

theorem InodeWritten.sameBitmaps (h : InodeWritten fs fs' ino inode) (g : Geometry fs) (hv : fs.inodeGroup ino < fs.groupCount) :
    SameBitmaps fs fs' :=
  ⟨h.shape, h.groups, fun _ hi => h.disk _ (g.inodeBlock_ne_bitmap hv .blocks hi).symm⟩

/-- Writing a block that is none of the filesystem's own does not matter to the allocator. -/
theorem sameBitmaps_writeBlock (buffer : Mem)
    (hn : ∀ x : MetaBlock, x.Valid fs → x.number fs ≠ fs.physical n) : SameBitmaps fs (fs.writeBlock n buffer) :=
  ⟨SameShape.writeBlock fs n buffer, rfl, fun i hi => disk_writeBlock_ne fs n buffer (hn (.bitmap .blocks i) hi)⟩

/-! ## Rounds of allocation -/

/-- The block was free: its bit is clear. -/
def FreeBlock (fs : Ext2) (n : Nat) : Prop :=
  ∃ i b, i < fs.groupCount ∧ b < 8 * fs.blockSize ∧ fs.bit .blocks i b = false ∧ n = fs.bitNumber .blocks i b

/-- The group that a block belongs to. -/
def Ext2.groupOf (fs : Ext2) (n : Nat) : Nat := (n - 1) / fs.superBlock.blocksPerGroup

/-- The bitmaps and the counters of the blocks are those of `fs`, but for the blocks `out`, which were free and are in use. -/
structure BlocksOut (fs fs' : Ext2) (out : List Nat) : Prop where
  shape : SameShape fs fs'
  fresh : ∀ n ∈ out, FreeBlock fs n
  distinct : out.Nodup
  bits : ∀ i b, i < fs.groupCount → b < 8 * fs.blockSize →
    (fs'.bit .blocks i b = false ↔ fs.bit .blocks i b = false ∧ fs.bitNumber .blocks i b ∉ out)
  counts : ∀ i, fs'.freeCount .blocks i + out.countP (fun n => fs.groupOf n = i) = fs.freeCount .blocks i

/-- What a run does that allocates the blocks `ns` for the logical indices from `k` on and writes to no other blocks than those of
`data`. -/
structure Grown (fs : Ext2) (inode : Mem) (ino k : Nat) (ns : List Nat) (data : Nat → Prop) (fs' : Ext2) (inode' : Mem) : Prop where
  shape : SameShape fs fs'
  fresh : ∀ n ∈ ns, FreeBlock fs n
  distinct : ns.Nodup
  bits : ∀ i b, i < fs.groupCount → b < 8 * fs.blockSize →
    (fs'.bit .blocks i b = false ↔ fs.bit .blocks i b = false ∧ fs.bitNumber .blocks i b ∉ ns)
  counts : ∀ i, fs'.freeCount .blocks i + ns.countP (fun n => fs.groupOf n = i) = fs.freeCount .blocks i
  inodeCounts : ∀ i, fs'.freeCount .inodes i = fs.freeCount .inodes i
  disk : ∀ q, (∀ i < fs.groupCount, q ≠ fs.bitmapBlock .blocks i) → q ≠ blockGroupStart → q ≠ fs.inodeBlock ino → ¬ data q →
    fs'.disk q = fs.disk q
  rest : ∀ o, o < fs.inodeOffset ino ∨ fs.inodeOffset ino + fs.superBlock.inodeSize ≤ o →
    fs'.disk (fs.inodeBlock ino) o = fs.disk (fs.inodeBlock ino) o
  log : ∀ q ∈ fs'.written, q ∈ fs.written ∨ (∃ i < fs.groupCount, q = fs.bitmapBlock .blocks i) ∨ q = blockGroupStart ∨
    q = fs.inodeBlock ino ∨ data q
  room : ∀ r, Room fs (ns.length + r) → Room fs' r
  stored : fs.storedInode ino = inode → fs'.storedInode ino = inode'
  size : iSize inode' = (iSize inode + fs.blockSize * ns.length) % 2 ^ 32
  sectors : iSectors inode' = (iSectors inode + fs.sectorsPerBlock * ns.length) % 2 ^ 32
  mode : iMode inode' = iMode inode
  image : IsImage fs inode'
  pointers : ∀ x, iBlock inode' x = if x < ndirBlocks ∧ k ≤ x ∧ x < k + ns.length then ns.getD (x - k) 0 else iBlock inode x

theorem Grown.freeOk (h : Grown fs inode ino k ns data fs' inode') (hfree : FreeOk fs) : FreeOk fs' :=
  hfree.mono h.shape fun i b hi hb hclear => ((h.bits i b hi hb).mp hclear).1

theorem Grown.mono {data' : Nat → Prop} (h : Grown fs inode ino k ns data fs' inode')
    (hsub : ∀ q, data q → data' q) : Grown fs inode ino k ns data' fs' inode' :=
  ⟨h.shape, h.fresh, h.distinct, h.bits, h.counts, h.inodeCounts,
    fun q hq hq2 hqi hdata => h.disk q hq hq2 hqi fun hd => hdata (hsub q hd), h.rest,
    fun q hq => (h.log q hq).imp_right (Or.imp_right (Or.imp_right (Or.imp_right (hsub q)))), h.room, h.stored, h.size, h.sectors,
    h.mode, h.image, h.pointers⟩

theorem grown_nil (himage : IsImage fs inode) (k : Nat) (data : Nat → Prop) : Grown fs inode ino k [] data fs inode := by
  refine ⟨.refl fs, ?_, nodup_nil, ?_, ?_, ?_, ?_, ?_, ?_, ?_, id, ?_, ?_, rfl, himage, ?_⟩
  · intro n hn
    cases hn
  · intro i b _ _
    simp
  · intro i
    rfl
  · intro i
    rfl
  · intro q _ _ _ _
    rfl
  · intro o _
    rfl
  · intro q hq
    exact .inl hq
  · intro r hr
    rwa [length_nil, zero_add] at hr
  · exact (Nat.mod_eq_of_lt (iSize_lt inode)).symm
  · exact (Nat.mod_eq_of_lt (iSectors_lt inode)).symm
  · intro x
    rw [if_neg (by simp)]

/-- A write to data is growth by none. -/
theorem grown_writeBlock (hw : Opened fs ino) (himage : IsImage fs inode) (k : Nat) (buffer : Mem)
    (hdata : data (fs.physical n)) (hmeta : ∀ x : MetaBlock, x.Valid fs → x.number fs ≠ fs.physical n) :
    Grown fs inode ino k [] data (fs.writeBlock n buffer) inode := by
  have hbm := sameBitmaps_writeBlock buffer hmeta
  obtain ⟨⟨x, hvalid, hblock⟩, -⟩ := hw.geometry.inodeBlock_meta hw.group
  have hinode : (fs.writeBlock n buffer).disk (fs.inodeBlock ino) = fs.disk (fs.inodeBlock ino) :=
    disk_writeBlock_ne fs n buffer (by rw [hblock]; exact hmeta _ hvalid)
  have hnil : Grown fs inode ino k [] data fs inode := grown_nil himage k data
  refine ⟨hbm.shape, hnil.fresh, hnil.distinct, fun i b hi hb => ?_, hnil.counts, hnil.inodeCounts, fun q _ _ _ hq => ?_, fun o _ => ?_,
    fun q hq => ?_, fun r hr => hbm.room hw.geometry (hnil.room r hr), fun hstored => ?_, hnil.size, hnil.sectors, rfl, himage, hnil.pointers⟩
  · rw [hbm.bit hi]
    exact hnil.bits i b hi hb
  · exact disk_writeBlock_ne fs n buffer fun he => hq (he ▸ hdata)
  · rw [hinode]
  · rcases mem_cons.mp hq with rfl | hq
    · exact .inr (.inr (.inr (.inr hdata)))
    · exact .inl hq
  · rw [storedInode_congr hbm.shape hinode, hstored]

section

variable {k n : Nat} (fs) (inode)

theorem iSize_grownInode : iSize (grownInode fs inode k n) = (iSize inode + fs.blockSize) % 2 ^ 32 := by
  unfold grownInode
  rw [iSize_setISize _ (Nat.mod_lt _ (by decide))]
  split
  · rw [iSize_setIBlock]
  · rfl

theorem iSectors_grownInode : iSectors (grownInode fs inode k n) = (iSectors inode + fs.sectorsPerBlock) % 2 ^ 32 := by
  unfold grownInode
  rw [iSectors_setISize, iSectors_setISectors _ (Nat.mod_lt _ (by decide))]
  split
  · rw [iSectors_setIBlock]
  · rfl

theorem iBlock_grownInode (hn : n < 2 ^ 32) (x : Nat) :
    iBlock (grownInode fs inode k n) x = if x < ndirBlocks ∧ x = k then n else iBlock inode x := by
  unfold grownInode
  rw [iBlock_setISize, iBlock_setISectors]
  split
  · rename_i hk
    rw [iBlock_setIBlock inode k x hn]
    by_cases hx : x = k
    · subst hx
      simp [hk]
    · simp [hx]
  · rename_i hk
    rw [if_neg (by rintro ⟨hx, rfl⟩; exact hk hx)]

end

theorem isImage_grownInode (g : Geometry fs) (himage : IsImage fs inode) (k n : Nat) : IsImage fs (grownInode fs inode k n) := by
  unfold grownInode
  refine IsImage.store g (IsImage.store g ?_ _ (by omega)) _ (by omega)
  split
  · rename_i hk
    unfold ndirBlocks at hk
    exact himage.store g _ (by omega)
  · exact himage

theorem groupOf_bitNumber (hb : b < fs.superBlock.blocksPerGroup) : fs.groupOf (fs.bitNumber .blocks j b) = j := by
  show (b + fs.superBlock.blocksPerGroup * j + 1 - 1) / fs.superBlock.blocksPerGroup = j
  rw [Nat.add_sub_cancel, Nat.add_mul_div_left _ _ (by omega), Nat.div_eq_of_lt hb, zero_add]

/-- A block that is taken and recorded is growth by one. -/
theorem grown_single (hw : Opened fs ino) (hfree : FreeOk fs) (himage : IsImage fs inode) (k : Nat) (data : Nat → Prop)
    (halloc : fs.allocateBit .blocks fs.groupCount 0 = (fs.bitNumber .blocks j b, fs1))
    (htaken : BitTaken fs fs1 .blocks j b) (hwritten : InodeWritten fs1 fs' ino (grownInode fs inode k (fs.bitNumber .blocks j b))) :
    Grown fs inode ino k [fs.bitNumber .blocks j b] data fs' (grownInode fs inode k (fs.bitNumber .blocks j b)) := by
  have g := hw.geometry
  have hs1 := htaken.shape
  have hw1 := hw.congr hs1
  have hbm := hwritten.sameBitmaps hw1.geometry hw1.group
  obtain ⟨hbpg, -⟩ := hfree j b htaken.group htaken.inBitmap htaken.clear
  have hnle := bitNumber_le htaken.group hbpg
  have hlast := g.lastBlock_lt
  have himage' := isImage_grownInode g himage k (fs.bitNumber .blocks j b)
  refine ⟨hs1.trans hwritten.shape, ?_, nodup_singleton _, ?_, ?_, ?_, ?_, ?_, ?_, ?_, ?_, ?_, ?_, ?_, himage', ?_⟩
  · intro n hn
    rw [mem_singleton.mp hn]
    exact ⟨j, b, htaken.group, htaken.inBitmap, htaken.clear, rfl⟩
  · intro i b' hi hb'
    rw [hbm.bit (by rwa [hs1.groupCount]), htaken.bits .blocks i b' hi hb', mem_singleton]
    constructor
    · intro hclear
      simp only [Bool.or_eq_false_iff, decide_eq_false_iff_not, true_and] at hclear
      exact ⟨hclear.1, fun he => hclear.2 (bitNumber_injective (p := .blocks) (hfree i b' hi hb' hclear.1).1 hbpg he)⟩
    · grind
  · intro i
    rw [hbm.freeCount, countP_singleton, groupOf_bitNumber hbpg]
    by_cases hij : j = i
    · subst hij
      simpa using htaken.counted
    · simpa [hij] using htaken.counts .blocks i (fun he => hij (Prod.mk.inj he).2.symm)
  · intro i
    rw [hbm.freeCount]
    exact htaken.counts .inodes i (fun he => by cases (Prod.mk.inj he).1)
  · intro q hq hq2 hqi _
    rw [hwritten.disk q (by rwa [hs1.inodeBlock]), htaken.disk q (hq j htaken.group) hq2]
  · intro o ho
    have ho1 := hwritten.rest o (by rwa [hs1.inodeOffset, hs1.superBlock])
    rw [hs1.inodeBlock] at ho1
    rw [ho1, htaken.disk _ (g.inodeBlock_ne_bitmap hw.group .blocks htaken.group) (g.inodeBlock_ne_descriptors hw.group)]
  · intro q hq
    rw [hwritten.written, htaken.written, hs1.inodeBlock] at hq
    rcases mem_cons.mp hq with rfl | hq
    · exact .inr (.inr (.inr (.inl rfl)))
    rcases mem_cons.mp hq with rfl | hq
    · exact .inr (.inr (.inl rfl))
    rcases mem_cons.mp hq with rfl | hq
    · exact .inr (.inl ⟨j, htaken.group, rfl⟩)
    · exact .inl hq
  · intro r hr
    rw [length_singleton, add_comm] at hr
    have hr1 := hr.2
    rw [halloc] at hr1
    exact hbm.room hw1.geometry hr1
  · intro _
    refine hwritten.storedInode fun o ho => ?_
    rw [hs1.superBlock] at ho
    exact himage' o ho
  · simp [iSize_grownInode]
  · simp [iSectors_grownInode]
  · unfold grownInode
    split <;> simp
  · intro y
    rw [iBlock_grownInode fs inode (by omega), length_singleton]
    by_cases hy : y < ndirBlocks ∧ y = k
    · rw [if_pos hy, if_pos (by omega), hy.2, Nat.sub_self]
      rfl
    · rw [if_neg hy, if_neg (by omega)]

/-- A direct block has a pointer when it had one or is one of those that are allocated. -/
theorem Grown.mapped (h : Grown fs inode ino b ns data fs' inode') (hk : k < ndirBlocks) :
    iBlock inode' k ≠ 0 ↔ iBlock inode k ≠ 0 ∨ b ≤ k ∧ k < b + ns.length := by
  rw [h.pointers k]
  split
  · rename_i hin
    obtain ⟨i, c, -, -, -, he⟩ := h.fresh (ns.getD (k - b) 0) (by
      rw [getD_eq_getElem _ _ (by omega)]
      exact getElem_mem _)
    rw [he]
    exact iff_of_true (Nat.succ_ne_zero _) (Or.inr hin.2)
  · omega

theorem Grown.blocksOut (h : Grown fs inode ino k ns data fs' inode') : BlocksOut fs fs' ns :=
  ⟨h.shape, h.fresh, h.distinct, h.bits, h.counts⟩

theorem BlocksOut.append (h : BlocksOut fs fs1 ns) (h' : BlocksOut fs1 fs' ms) : BlocksOut fs fs' (ns ++ ms) := by
  have hs := h.shape
  have hfresh : ∀ m ∈ ms, FreeBlock fs m ∧ m ∉ ns := by
    intro m hm
    obtain ⟨i, b, hi, hb, hclear, rfl⟩ := h'.fresh m hm
    rw [hs.groupCount] at hi
    rw [hs.blockSize] at hb
    obtain ⟨hclear, hnot⟩ := (h.bits i b hi hb).mp hclear
    rw [hs.bitNumber]
    exact ⟨⟨i, b, hi, hb, hclear, rfl⟩, hnot⟩
  refine ⟨hs.trans h'.shape, fun n hn => ?_, nodup_append.mpr ⟨h.distinct, h'.distinct, ?_⟩, fun i b hi hb => ?_, fun i => ?_⟩
  · rcases mem_append.mp hn with hn | hn
    · exact h.fresh n hn
    · exact (hfresh n hn).1
  · rintro n hn _ hm rfl
    exact (hfresh n hm).2 hn
  · rw [h'.bits i b (by rwa [hs.groupCount]) (by rwa [hs.blockSize]), h.bits i b hi hb, hs.bitNumber, mem_append, not_or, and_assoc]
  · have hc := h.counts i
    have hc' := h'.counts i
    have hgroup : ∀ m, fs1.groupOf m = fs.groupOf m := fun m => by rw [groupOf, hs.superBlock]; rfl
    simp only [hgroup] at hc'
    rw [countP_append]
    omega

/-- Growth in two parts. -/
theorem Grown.append {inode1 : Mem}
    (h : Grown fs inode ino k ns data fs1 inode1) (h' : Grown fs1 inode1 ino (k + ns.length) ms data fs' inode') :
    Grown fs inode ino k (ns ++ ms) data fs' inode' := by
  have hs := h.shape
  have hout := h.blocksOut.append h'.blocksOut
  refine ⟨hout.shape, hout.fresh, hout.distinct, hout.bits, hout.counts, ?_, ?_, ?_, ?_, ?_, ?_, ?_, ?_, ?_, ?_, ?_⟩
  · intro i
    rw [h'.inodeCounts, h.inodeCounts]
  · intro q hq hq2 hqi hdata
    rw [h'.disk q (fun i hi => by rw [hs.bitmapBlock]; exact hq i (by rwa [hs.groupCount] at hi)) hq2
      (by rwa [hs.inodeBlock]) hdata, h.disk q hq hq2 hqi hdata]
  · intro o ho
    have ho' := h'.rest o (by rwa [hs.inodeOffset, hs.superBlock])
    rw [hs.inodeBlock] at ho'
    rw [ho', h.rest o ho]
  · intro q hq
    rcases h'.log q hq with hq | ⟨i, hi, hq⟩ | hq | hq | hq
    · exact h.log q hq
    · rw [hs.groupCount] at hi
      exact .inr (.inl ⟨i, hi, by rw [hq, hs.bitmapBlock]⟩)
    · exact .inr (.inr (.inl hq))
    · exact .inr (.inr (.inr (.inl (by rw [hq, hs.inodeBlock]))))
    · exact .inr (.inr (.inr (.inr hq)))
  · intro r hr
    rw [length_append, add_assoc] at hr
    exact h'.room r (h.room _ hr)
  · exact fun hstored => h'.stored (h.stored hstored)
  · rw [h'.size, h.size, hs.blockSize, Nat.mod_add_mod, length_append, Nat.mul_add, add_assoc]
  · rw [h'.sectors, h.sectors, hs.sectorsPerBlock, Nat.mod_add_mod, length_append, Nat.mul_add, add_assoc]
  · rw [h'.mode, h.mode]
  · intro o ho
    exact h'.image o (by rwa [hs.superBlock])
  · intro y
    rw [h'.pointers, h.pointers, length_append]
    by_cases hlow : y < ndirBlocks
    · by_cases hns : k ≤ y ∧ y < k + ns.length
      · rw [if_neg (by omega), if_pos ⟨hlow, hns⟩, if_pos (by omega), getD_append _ _ _ _ (by omega)]
      · by_cases hms : k + ns.length ≤ y ∧ y < k + ns.length + ms.length
        · rw [if_pos ⟨hlow, hms⟩, if_pos (by omega), getD_append_right _ _ _ _ (by omega), Nat.sub_sub]
        · rw [if_neg (by omega), if_neg (by omega), if_neg (by omega)]
    · rw [if_neg (by omega), if_neg (by omega), if_neg (by omega)]

/-! ## The loop of `writeInodeBlock` -/

theorem sector2Block_add (g : Geometry fs) (h : (fs.sector2Block s + 2) * fs.blockSize ≤ 2 ^ 32) :
    fs.sector2Block ((s + fs.sectorsPerBlock) % 2 ^ 32) = fs.sector2Block s + 1 := by
  obtain ⟨hlo, -, hbs, -⟩ := g.blockSize_bounds
  generalize hv : (s + 1) % 2 ^ 32 * ataSectorSize % 2 ^ 32 = v
  have hs : fs.sector2Block s = v / fs.blockSize := by rw [sector2Block, hv]
  have hvlt : v < (v / fs.blockSize + 1) * fs.blockSize := by
    have := Nat.lt_div_mul_add (a := v) (show 0 < fs.blockSize by omega)
    rw [Nat.add_mul]
    omega
  have hnew : ((s + fs.sectorsPerBlock) % 2 ^ 32 + 1) % 2 ^ 32 * ataSectorSize % 2 ^ 32 = (v + fs.blockSize) % 2 ^ 32 := by
    have hsum : (s + fs.sectorsPerBlock + 1) * ataSectorSize = (s + 1) * ataSectorSize + 512 * fs.sectorsPerBlock := by
      unfold ataSectorSize
      omega
    simp [← hv, hbs, hsum]
  rw [hs] at h ⊢
  have hlt : v + fs.blockSize < 2 ^ 32 := by grind
  rw [sector2Block, hnew, Nat.mod_eq_of_lt hlt, Nat.add_div_right _ (by omega)]

theorem SameShape.mapLimit (h : SameShape fs fs') : fs'.mapLimit = fs.mapLimit := by
  rw [Ext2.mapLimit, h.ptrBlocksPerBlock]
  rfl

theorem Opened.allocateBlock_grown (ho : Opened fs ino) (hfree : FreeOk fs) (himage : IsImage fs inode) (data : Nat → Prop)
    (hk : fs.sector2Block (iSectors inode) = k) (hfits : (k + 2) * fs.blockSize ≤ 2 ^ 32)
    (hrun : fs.allocateBlock inode ino k = (true, inode', fs')) :
    (∃ n, Grown fs inode ino k [n] data fs' inode') ∧ fs'.sector2Block (iSectors inode') = k + 1 := by
  rcases ho.allocateBlock hfree inode k with ⟨heq, -⟩ | ⟨j, b, fs1, halloc, htaken, ⟨heq, -⟩ | ⟨fs2, hwritten, heq⟩⟩
  · simp [heq] at hrun
  · simp [heq] at hrun
  · rw [heq] at hrun
    cases hrun
    have hgrown := grown_single ho hfree himage k data halloc htaken hwritten
    refine ⟨⟨_, hgrown⟩, ?_⟩
    rw [hgrown.shape.sector2Block, iSectors_grownInode, ← hk]
    exact sector2Block_add ho.geometry (by rwa [hk])

/-- When the loop comes to its end it has allocated the blocks from the inode's last one up to the one asked for. -/
theorem Opened.growTo_grown (ho : Opened fs ino) (hfree : FreeOk fs) (himage : IsImage fs inode) (data : Nat → Prop)
    (hfits : (block + 2) * fs.blockSize ≤ 2 ^ 32) (hrun : fs.growTo inode ino block fuel = (true, inode', fs')) :
    ∃ ns, ns.length = block + 1 - fs.sector2Block (iSectors inode) ∧ Grown fs inode ino (fs.sector2Block (iSectors inode)) ns data fs' inode' := by
  induction fuel generalizing fs inode with
  | zero => cases hrun
  | succ fuel ih =>
    generalize hk : fs.sector2Block (iSectors inode) = k at *
    rw [growTo, hk] at hrun
    by_cases hle : k ≤ block
    · rw [if_pos hle] at hrun
      cases hround : fs.allocateBlock inode ino k with
      | mk done round =>
        obtain ⟨inode1, fs1⟩ := round
        rw [hround] at hrun
        cases done with
        | false => cases hrun
        | true =>
          obtain ⟨⟨n, hgrown⟩, hnext⟩ := ho.allocateBlock_grown hfree himage data hk
            (Nat.le_trans (Nat.mul_le_mul_right _ (by omega)) hfits) hround
          have hs := hgrown.shape
          obtain ⟨ns, hlen, hgrown'⟩ := ih (ho.congr hs) (hgrown.freeOk hfree)
            (fun o ho => hgrown.image o (by rwa [hs.superBlock] at ho)) (by rwa [hs.blockSize]) hrun
          rw [hnext] at hlen hgrown'
          refine ⟨n :: ns, ?_, hgrown.append hgrown'⟩
          rw [length_cons, hlen]
          omega
    · rw [if_neg hle] at hrun
      cases hrun
      exact ⟨[], by rw [length_nil]; omega, grown_nil himage k data⟩

/-- While there is room, the loop allocates the blocks from the inode's last one up to the one asked for. -/
theorem Working.growTo (hw : Working fs) (hfree : FreeOk fs) (hv : fs.inodeGroup ino < fs.groupCount) (himage : IsImage fs inode)
    (data : Nat → Prop) (hlimit : block < fs.mapLimit) (hfits : (block + 2) * fs.blockSize ≤ 2 ^ 32)
    (hroom : Room fs (block + 1 - fs.sector2Block (iSectors inode))) (hfuel : block + 1 - fs.sector2Block (iSectors inode) < fuel) :
    ∃ ns fs' inode', fs.growTo inode ino block fuel = (true, inode', fs') ∧ ns.length = block + 1 - fs.sector2Block (iSectors inode) ∧
      Grown fs inode ino (fs.sector2Block (iSectors inode)) ns data fs' inode' := by
  suffices hends : ∃ inode' fs', fs.growTo inode ino block fuel = (true, inode', fs') by
    obtain ⟨inode', fs', hrun⟩ := hends
    obtain ⟨ns, hlen, hgrown⟩ := (hw.opened hv).growTo_grown hfree himage data hfits hrun
    exact ⟨ns, fs', inode', hrun, hlen, hgrown⟩
  induction fuel generalizing fs inode with
  | zero => omega
  | succ fuel ih =>
    have ho := hw.opened hv
    generalize hk : fs.sector2Block (iSectors inode) = k at *
    rw [growTo, hk]
    by_cases hle : k ≤ block
    · rw [if_pos hle]
      obtain ⟨d, hd⟩ : ∃ d, block + 1 - k = d + 1 := ⟨block - k, by omega⟩
      rw [hd] at hroom
      rcases ho.allocateBlock hfree inode k with ⟨-, hnone⟩ | ⟨j, b, fs1, -, htaken, ⟨-, hset⟩ | ⟨fs2, -, heq⟩⟩
      · exact absurd (by rw [hnone hw.heapOk]) hroom.1
      · have hk1 : k < fs1.mapLimit := by
          rw [htaken.shape.mapLimit]
          omega
        simp [(hw.congr htaken.shape).setRealBlock inode hk1] at hset
      · obtain ⟨⟨n, hgrown⟩, hnext⟩ := ho.allocateBlock_grown hfree himage data hk
          (Nat.le_trans (Nat.mul_le_mul_right _ (by omega)) hfits) heq
        have hs := hgrown.shape
        rw [heq]
        exact ih (hw.congr hs) (hgrown.freeOk hfree)
          (by rwa [hs.inodeGroup, hs.groupCount]) (fun o ho => hgrown.image o (by rwa [hs.superBlock] at ho))
          (by rwa [hs.mapLimit]) (by rwa [hs.blockSize])
          (by rw [hnext]; exact hgrown.room _ (by rwa [length_singleton, show 1 + (block + 1 - (k + 1)) = d + 1 by omega]))
          (by rw [hnext]; omega)
    · rw [if_neg hle]
      exact ⟨inode, fs, rfl⟩

end OmegaOS
