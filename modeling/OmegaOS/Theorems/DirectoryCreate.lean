import OmegaOS.Lemmas.Ext2Create

/-!
# Creating a file in a directory

`ext2_create` adds one entry to a directory, and the search finds it from then on. The search does not tell unused records from entries:
one with the name hides the new entry.
-/

namespace OmegaOS

open ByteMem CStr Ext2

variable {fs fs' : Ext2} {node : VfsNode} {name : Str} {attr ino : Nat} {raw : FsNode} {x : MetaBlock}

/-- The bitmaps agree with the layout: what they show free is there and holds nothing of the filesystem's own. -/
structure Consistent (fs : Ext2) : Prop where
  geometry : Geometry fs
  freeBlocks : FreeOk fs
  freeInodes : ∀ i b, i < fs.groupCount → b < 8 * fs.blockSize → fs.bit .inodes i b = false → b < fs.superBlock.inodesPerGroup

/-! ## The new entry -/

/-- What a creation does: the new inode is taken, and the directory gets one entry more. -/
structure FileCreated (fs fs' : Ext2) (ino : Nat) (name : Str) (newIno attr : Nat) : Prop extends
    DirExtended fs fs' ino (name, newIno) where
  free : FreeInode fs newIno
  inode : fs'.storedInode newIno = Ext2.initInode attr
  inUse : fs'.bit .inodes (fs.inodeGroup newIno) (fs.inodeIndex newIno) = true
  inodeBits : ∀ i b, i < fs.groupCount → b < 8 * fs.blockSize → fs'.bit .inodes i b = false → fs.bit .inodes i b = false

/-- The insertion that follows when an inode has been taken and written. -/
theorem WellFormedDir.fileCreated {j b newIno : Nat} {fs1 fs2 : Ext2} (h : WellFormedDir fs ino) (g : Geometry fs)
    (hb : b < fs.superBlock.inodesPerGroup) (hnumber : newIno = fs.bitNumber .inodes j b) (htaken : BitTaken fs fs1 .inodes j b)
    (hwritten : InodeWritten fs1 fs2 newIno (Ext2.initInode attr)) (hadded : EntryAdded fs2 fs' ino (name, newIno)) :
    FileCreated fs fs' ino name newIno attr := by
  have hfree : FreeInode fs newIno := ⟨j, b, htaken.group, hb, htaken.clear, hnumber⟩
  obtain ⟨-, hgroup, hindex⟩ := g.inode_bitNumber htaken.group hb
  rw [← hnumber] at hgroup hindex
  have hexists1 : fs1.InodeExists newIno := (htaken.shape.inodeExists newIno).mpr (hfree.exists_ g)
  have g1 := g.congr htaken.shape
  have hkept := h.inodeTaken g hfree htaken hwritten
  have hs := hkept.kept.shape
  have hbit : ∀ i b', i < fs.groupCount → b' < 8 * fs.blockSize → fs'.bit .inodes i b' = (fs.bit .inodes i b' || decide (i = j ∧ b' = b)) := by
    intro i b' hi hb'
    rw [hadded.inodeBits i b' (by rwa [hs.groupCount]),
      hwritten.bit g1 hexists1 .inodes (by rwa [htaken.shape.groupCount]), htaken.bits .inodes i b' hi hb']
    simp
  refine ⟨⟨hkept.kept.trans hadded.kept, hadded.dir, ?_, by rw [hadded.mode, hkept.stored], ?_, ?_, fun x hx hne hapart => ?_⟩, hfree, ?_, ?_,
    fun i b' hi hb' hclear => ?_⟩
  · rw [hadded.entries, (h.kept g hkept).2]
  · rw [← hkept.dirCount]
    exact hadded.count
  · rw [← hkept.dirCount, ← hkept.stored]
    exact fun k hk => (hadded.blocks k hk).imp_right hkept.kept.free
  · have hkept' := hx.inodeTaken g hfree htaken hwritten
    have hothers := hadded.others x (hx.kept g hkept').1 hne (hapart.kept hkept' hkept)
    rw [hkept'.dirCount] at hothers
    exact hkept'.trans hothers
  · rw [hadded.inodes newIno ((hwritten.shape.inodeExists newIno).mpr hexists1) (h.dirShape.ne_free g hfree).symm]
    exact hwritten.storedInode (IsImage.store g1 (fun _ _ => rfl) attr (by omega))
  · rw [hgroup, hindex, hbit j b htaken.group htaken.inBitmap]
    simp
  · rw [hbit i b' hi hb'] at hclear
    exact (Bool.or_eq_false_iff.mp hclear).1

/-- `allocateAndCreateInode`, when it succeeds, has created the file. -/
theorem WellFormedDir.allocateAndCreateInode (h : WellFormedDir fs ino) (hc : Consistent fs) (hw : Working fs)
    (hn : fs.dirCount ino < ndirBlocks) (hbs : fs.blockSize < 2 ^ 16) (hno : NoNul name) (hlen : name.length ≤ 255)
    {newInode parent : Mem} {newIno : Nat}
    (hr : fs.allocateAndCreateInode (fs.storedInode ino) ino name attr = .ok (some (newInode, newIno), parent, fs')) :
    newInode = Ext2.initInode attr ∧ parent = fs'.storedInode ino ∧ FileCreated fs fs' ino name newIno attr := by
  have g := hc.geometry
  rw [Ext2.allocateAndCreateInode, hw.heapOk] at hr
  rcases allocateBit_spec .inodes g.bitmapLayout (show 0 + fs.groupCount ≤ fs.groupCount by omega) with hnone | ⟨j, b, -, hnumber, htaken⟩
  · simp [hnone] at hr
  · have hb := hc.freeInodes j b htaken.group htaken.inBitmap htaken.clear
    obtain ⟨hlt, -, -⟩ := g.inode_bitNumber htaken.group hb
    rw [Nat.mod_eq_of_lt hlt] at hnumber
    generalize hfs1 : fs.allocateBit .inodes fs.groupCount 0 = alloc at hr hnumber htaken
    obtain ⟨ino', fs1⟩ := alloc
    dsimp only at hr hnumber htaken
    have hfree : FreeInode fs ino' := ⟨j, b, htaken.group, hb, htaken.clear, hnumber⟩
    have hs1 := htaken.shape
    have hw1 := hw.congr hs1
    have hexists1 := (hs1.inodeExists ino').mpr (hfree.exists_ g)
    simp only [Bool.not_true, Bool.false_eq_true, if_false] at hr
    split at hr
    · cases hr
    · obtain ⟨⟨inode, parent', fs'⟩, hcreate, hr⟩ := bind_eq_ok.mp hr
      obtain ⟨fs2, hwrite, hwritten⟩ := (hw1.opened hexists1).writeInode (Ext2.initInode attr)
      rw [Ext2.createInode, (hw1.opened hexists1).readInode hw1.heapOk] at hcreate
      rw [hwrite] at hcreate
      obtain ⟨⟨done, parent'', fs''⟩, hinsert, hcreate⟩ := bind_eq_ok.mp hcreate
      -- the directory is the same after the bit is taken and the new inode is written
      have hkept := h.inodeTaken g hfree htaken hwritten
      have hs2 := hwritten.shape
      have hw2 := hw1.congr hs2
      cases done with
      | false =>
        cases hcreate
        cases hr
      | true =>
        cases hcreate
        cases hr
        rw [← hkept.stored] at hinsert
        obtain ⟨hparent, hadded, -⟩ := (h.kept g hkept).1.insertInodeInDir hw2.geometry (hw2.readable _) (hkept.kept.freeOk hc.freeBlocks)
          (.inr (by rw [hkept.dirCount]; exact hn)) ⟨hno, hlen, by rwa [hnumber], by rwa [hs2.blockSize, hs1.blockSize]⟩ hinsert
        exact ⟨rfl, hparent, h.fileCreated g hb hnumber htaken hwritten hadded⟩

/-- `ext2_create`, when it succeeds: the search has found no inode that it could read, and the new entry is there. -/
theorem WellFormedDir.ext2Create (h : WellFormedDir fs node.inode) (hc : Consistent fs) (hw : Working fs)
    (hn : fs.dirCount node.inode < ndirBlocks) (hbs : fs.blockSize < 2 ^ 16) (hno : NoNul name) (hlen : name.length ≤ 255)
    (hr : fs.ext2Create node name attr raw = .ok (enoer, fs')) :
    fs.ext2Finddir node name raw = .ok none ∧ ∃ newIno attr', FileCreated fs fs' node.inode name newIno attr' := by
  obtain ⟨found, hfind, hr⟩ := bind_eq_ok.mp hr
  cases found with
  | some _ => cases hr
  | none =>
    refine ⟨hfind, ?_⟩
    rw [(hw.opened h.dirShape.exists_).readInode hw.heapOk] at hr
    dsimp only at hr
    rw [h.dirShape.isDir] at hr
    obtain ⟨⟨created, parent, fs''⟩, hcreate, hr⟩ := bind_eq_ok.mp hr
    cases created with
    | none => cases hr
    | some created =>
      cases hr
      obtain ⟨-, -, hcreated⟩ := h.allocateAndCreateInode hc hw hn hbs hno hlen hcreate
      exact ⟨_, _, hcreated⟩

/-! ## The search afterwards -/

theorem WellFormedDir.ext2Finddir (h : WellFormedDir fs node.inode) (hw : Working fs) (hno : NoNul name) (raw : FsNode) :
    fs.ext2Finddir node name raw = .ok ((lookup (fs.dirEntries (fs.storedInode node.inode)) name).bind (fs.nodeOf raw)) :=
  hw.ext2Finddir h.dirShape.exists_ h.dirShape.isDir h.tiled hno raw

/-- The inode number of the node that is returned for an entry. -/
theorem nodeOf_inode (fs : Ext2) (raw : FsNode) (n : Nat) :
    (fs.nodeOf raw n).map (·.inode) = if fs.InodeExists n then some n else none := by
  rw [nodeOf]
  split
  · rw [Option.map_some]
    exact congrArg (fun v => some v.inode) (FsNode.fill_toVfsNode raw n (fs.storedInode n))
  · rfl

/-- Which inode number `ext2_finddir` finds. -/
def Ext2.foundInode (fs : Ext2) (node : VfsNode) (name : Str) (raw : FsNode) : Except Halt (Option Nat) :=
  (fs.ext2Finddir node name raw).map (·.map (·.inode))

theorem WellFormedDir.foundInode (h : WellFormedDir fs node.inode) (hw : Working fs) (hno : NoNul name) (raw : FsNode) :
    fs.foundInode node name raw =
      .ok ((lookup (fs.dirEntries (fs.storedInode node.inode)) name).bind fun n => if fs.InodeExists n then some n else none) := by
  rw [Ext2.foundInode, h.ext2Finddir hw hno raw]
  cases lookup (fs.dirEntries (fs.storedInode node.inode)) name with
  | none => rfl
  | some n =>
    have hinode := nodeOf_inode fs raw n
    rw [Option.bind_some, Option.bind_some]
    generalize fs.nodeOf raw n = found at hinode ⊢
    rw [← hinode]
    rfl

/-! ## The round trip -/

/-- What a creation that succeeds is to do, whatever the memory of new nodes holds: the name was not there, and is there after it, for an
inode that was free; every other name is found as before; and the same name cannot be created again. -/
structure RoundTrip (fs fs' : Ext2) (node : VfsNode) (name : Str) : Prop where
  absent : ∀ raw, fs.ext2Finddir node name raw = .ok none
  found : ∀ raw, ∃ file, fs'.ext2Finddir node name raw = .ok (some file) ∧ FreeInode fs file.inode ∧ file.size = 0
  others : ∀ other raw, NoNul other → other ≠ name → fs'.foundInode node other raw = fs.foundInode node other raw
  dir : WellFormedDir fs' node.inode
  distinct : ((fs.dirEntries (fs.storedInode node.inode)).map (·.1)).Nodup → ((fs'.dirEntries (fs'.storedInode node.inode)).map (·.1)).Nodup
  again : ∀ attr raw, fs'.ext2Create node name attr raw = .ok (eexist, fs')

variable {newIno : Nat}

section

variable (h : FileCreated fs fs' node.inode name newIno attr)

include h

theorem FileCreated.lookup_eq (other : Str) : lookup (fs'.dirEntries (fs'.storedInode node.inode)) other =
      (lookup (fs.dirEntries (fs.storedInode node.inode)) other).or (if name = other then some newIno else none) := by
  rw [h.entries, lookup_append]
  congr 1
  by_cases he : name = other
  · simp [lookup, he]
  · simp [lookup, he]

/-- Without a record of the name the creation does all it is to do. -/
theorem FileCreated.roundTrip (hdir : WellFormedDir fs node.inode) (hw : Working fs)
    (hno : NoNul name) (hnone : lookup (fs.dirEntries (fs.storedInode node.inode)) name = none) : RoundTrip fs fs' node name := by
  have hw' := hw.congr h.kept.shape
  have hfound : ∀ raw, fs'.ext2Finddir node name raw = .ok (some (raw.fill newIno (fs'.storedInode newIno))) := by
    intro raw
    have hexists : fs'.InodeExists newIno := (h.kept.shape.inodeExists newIno).mpr (h.free.exists_ hw.geometry)
    rw [h.dir.ext2Finddir hw' hno raw, h.lookup_eq, hnone, if_pos rfl, Option.none_or, Option.bind_some, nodeOf, if_pos hexists]
  refine ⟨fun raw => ?_, fun raw => ⟨_, hfound raw, ?_, ?_⟩, fun other raw hother hne => ?_, h.dir, fun hnodup => ?_, fun attr raw => ?_⟩
  · rw [hdir.ext2Finddir hw hno raw, hnone]
    rfl
  · rw [FsNode.fill_toVfsNode]
    exact h.free
  · rw [FsNode.fill_toVfsNode, h.inode]
    exact iSize_initInode attr
  · rw [h.dir.foundInode hw' hother, hdir.foundInode hw hother, h.lookup_eq, if_neg hne.symm, Option.or_none]
    simp only [h.kept.shape.inodeExists]
  · rw [h.entries, List.map_append]
    exact List.nodup_append.mpr ⟨hnodup, List.nodup_singleton _, fun a ha b hb he =>
      lookup_eq_none.mp hnone (by rwa [he, List.mem_singleton.mp hb] at ha)⟩
  · rw [ext2Create, hfound raw]
    rfl

/-- A record of the name that stands for no inode is found in place of the new entry. -/
theorem FileCreated.not_roundTrip (hw : Working fs) (hno : NoNul name)
    (hlookup : lookup (fs.dirEntries (fs.storedInode node.inode)) name = some n) (hgone : ¬ fs.InodeExists n) (raw : FsNode) :
    fs'.ext2Finddir node name raw = .ok none ∧ ¬ RoundTrip fs fs' node name := by
  have hgone' : ¬ fs'.InodeExists n := fun hexists => hgone ((h.kept.shape.inodeExists n).mp hexists)
  have hnone : fs'.ext2Finddir node name raw = .ok none := by
    rw [h.dir.ext2Finddir (hw.congr h.kept.shape) hno raw, h.lookup_eq, hlookup, Option.some_or, Option.bind_some, nodeOf, if_neg hgone']
  refine ⟨hnone, fun hround => ?_⟩
  obtain ⟨file, hfile, -⟩ := hround.found raw
  simp [hnone] at hfile

end

/-- A creation that succeeds does what it is to do, unless a record of the directory has the name and stands for no inode. -/
theorem ext2Create_roundTrip_iff (hc : Consistent fs) (hw : Working fs) (hbs : fs.blockSize = 1024) (hdir : WellFormedDir fs node.inode)
    (hn : fs.dirCount node.inode < ndirBlocks) (hno : NoNul name) (hlen : name.length ≤ 255)
    (hr : fs.ext2Create node name attr raw = .ok (enoer, fs')) :
    RoundTrip fs fs' node name ↔ ∀ e ∈ fs.dirEntries (fs.storedInode node.inode), e.1 = name → fs.InodeExists e.2 := by
  obtain ⟨habsent, newIno, attr', hcreated⟩ := hdir.ext2Create hc hw hn (by rw [hbs]; decide) hno hlen hr
  have hentry : ∀ n, lookup (fs.dirEntries (fs.storedInode node.inode)) name = some n → ¬ fs.InodeExists n := by
    intro n hlookup hexists
    rw [hdir.ext2Finddir hw hno raw, hlookup, Option.bind_some, Ext2.nodeOf, if_pos hexists] at habsent
    cases habsent
  constructor
  · intro hround e he hname
    cases hlookup : lookup (fs.dirEntries (fs.storedInode node.inode)) name with
    | none => exact absurd (List.mem_map.mpr ⟨e, he, hname⟩) (lookup_eq_none.mp hlookup)
    | some n => exact absurd hround (hcreated.not_roundTrip hw hno hlookup (hentry n hlookup) raw).2
  · intro hexist
    refine hcreated.roundTrip hdir hw hno ?_
    cases hlookup : lookup (fs.dirEntries (fs.storedInode node.inode)) name with
    | none => rfl
    | some n => exact absurd (hexist _ (lookup_mem hlookup) rfl) (hentry n hlookup)

/-! ## A directory with an unused record -/

/-- The records of the root directory: one of a file that was deleted, whose inode is 0 and which has kept the name `b`, and `a`, for
inode 3. -/
def smallRoot : Mem := writeRecord (writeRecord (fun _ => 0) 0 0 [0x62] 12 1) 12 3 [0x61] 1012 1

/-- The inode of a file of one block. -/
def smallInode (mode size block : Nat) : Mem :=
  setIBlock (setISectors (setISize (store (fun _ => 0) 0 2 mode) size) 2) 0 block

/-- The inode table: the root directory in block 6 and the file `a` in block 7. -/
def smallTable : Mem := copy (copy (fun _ => 0) 128 (smallInode iDir 1024 6) 0 128) 256 (smallInode iFile 4 7) 0 128

/-- A filesystem of one group, with sixteen blocks of 1024 bytes and eight inodes. -/
def smallFs : Ext2 where
  disk
    | 3 => fun x => if x = 0 then 0x7F else if x = 1 then 0 else 0xFF
    | 4 => fun x => if x = 0 then 0x07 else 0xFF
    | 5 => smallTable
    | 6 => smallRoot
    | _ => fun _ => 0
  readable _ := true
  heapOk := true
  stray _ := 0
  superBlock := ⟨8, 16, 0, 16, 8, 0xEF53, 128⟩
  groups := store (store (store (store (store (fun _ => 0) 0 4 3) 4 4 4) 8 4 5) 12 2 9) 14 2 5
  blockSize := 1024
  groupCount := 1
  inodesPerGroup := 8
  written := []

/-- The filesystem's own blocks. -/
def Ext2.metaBlocks (fs : Ext2) : List MetaBlock :=
  .boot :: .superBlock :: .descriptors :: (List.range fs.groupCount).flatMap fun i => .bitmap .blocks i :: .bitmap .inodes i ::
    ((List.range fs.superBlock.inodesPerGroup).filter (· * fs.inodesPerBlock < fs.superBlock.inodesPerGroup)).map (.inodes i)

section

variable {fs : Ext2} (hpos : 0 < fs.inodesPerBlock)

include hpos

theorem mem_metaBlocks (hx : x.Valid fs) : x ∈ fs.metaBlocks := by
  cases x with
  | bitmap pool i => cases pool <;> simp [metaBlocks, show i < fs.groupCount from hx]
  | inodes i k =>
    have hk := Nat.lt_of_le_of_lt (Nat.le_mul_of_pos_right k hpos) hx.2
    simp [metaBlocks, hx.1, hx.2, hk]
  | _ => simp [metaBlocks]

theorem forall_metaBlocks {P : MetaBlock → Prop} (h : ∀ x ∈ fs.metaBlocks, P x) : ∀ x : MetaBlock, x.Valid fs → P x :=
  fun x hx => h x (mem_metaBlocks hpos hx)

theorem metaBlocks_distinct (h : (fs.metaBlocks.map (·.number fs)).Nodup) :
    ∀ x y : MetaBlock, x.Valid fs → y.Valid fs → x.number fs = y.number fs → x = y :=
  fun _ _ hx hy => List.inj_on_of_nodup_map h (mem_metaBlocks hpos hx) (mem_metaBlocks hpos hy)

end

theorem smallFs_meta (hx : x.Valid smallFs) :
    x = .boot ∨ x = .superBlock ∨ x = .descriptors ∨ x = .bitmap .blocks 0 ∨ x = .bitmap .inodes 0 ∨ x = .inodes 0 0 := by
  have hmem := mem_metaBlocks (by decide) hx
  simpa using (show x ∈ [.boot, .superBlock, .descriptors, .bitmap .blocks 0, .bitmap .inodes 0, .inodes 0 0] from hmem)

theorem smallFs_geometry : Geometry smallFs :=
  ⟨⟨0, by decide, rfl⟩, by decide, by decide, rfl, by decide, by decide, by decide, forall_metaBlocks (by decide) (by decide),
    metaBlocks_distinct (by decide) (by decide)⟩

theorem smallFs_working : Working smallFs := ⟨smallFs_geometry, fun _ => rfl, rfl⟩

/-- In a filesystem of one group whose own blocks are the first ones, the blocks that are marked free are others. -/
theorem freeOk_of_bitmap {fs : Ext2} (hgroups : fs.groupCount = 1) (hown : ∀ x : MetaBlock, x.Valid fs → x.number fs ≤ 5)
    (hused : ∀ b < 5, fs.bit .blocks 0 b = true)
    (hones : ∀ x, fs.superBlock.blocksPerGroup / 8 ≤ x → fs.disk (fs.bitmapBlock .blocks 0) x = 0xFF) : FreeOk fs := by
  intro i b hi _ hclear
  obtain rfl : i = 0 := Nat.lt_one_iff.mp (hgroups ▸ hi)
  have hge : 5 ≤ b := Nat.le_of_not_lt fun hlt => by simp [hused b hlt] at hclear
  refine ⟨Nat.lt_of_not_le fun hle => ?_, fun x hx => ?_⟩
  · simp [bit, bitOf_ones (hones _ (Nat.div_le_div_right hle))] at hclear
  · have hnumber := hown x hx
    simp only [bitNumber, Nat.mul_zero, Nat.add_zero]
    omega

theorem smallFs_own : ∀ x : MetaBlock, x.Valid smallFs → x.number smallFs ≤ 5 := forall_metaBlocks (by decide) (by decide)

theorem smallFs_consistent : Consistent smallFs := by
  have hbitmap : smallFs.bitmapBlock .blocks 0 = 3 ∧ smallFs.bitmapBlock .inodes 0 = 4 := by decide
  refine ⟨smallFs_geometry, freeOk_of_bitmap rfl smallFs_own (by decide) fun x hx => ?_, fun i b hi hb hclear => ?_⟩
  · replace hx : 2 ≤ x := hx
    rw [hbitmap.1]
    show (if x = 0 then 0x7F else if x = 1 then 0 else 0xFF : BitVec 8) = 0xFF
    rw [if_neg (by omega), if_neg (by omega)]
  · obtain rfl : i = 0 := Nat.lt_one_iff.mp hi
    refine Nat.lt_of_not_le fun hle => ?_
    replace hle : 8 ≤ b := hle
    have hones : smallFs.disk 4 (b / 8) = 0xFF := by
      show (if b / 8 = 0 then 0x07 else 0xFF : BitVec 8) = 0xFF
      rw [if_neg (by omega)]
    simp [bit, hbitmap.2, bitOf_ones hones] at hclear

/-- The node of the root directory. -/
def smallNode : VfsNode := ⟨2, 1024, 0⟩

theorem smallFs_root : WellFormedDir smallFs smallNode.inode := by
  have hcount : smallFs.dirCount 2 = 1 := by decide
  have hblock : iBlock (smallFs.storedInode 2) 0 = 6 := by decide
  refine ⟨⟨by decide, by decide, by decide, by decide, by decide, by decide, ?_, ?_⟩, ?_⟩
  · intro j hj
    obtain rfl : j = 0 := by rw [smallNode, hcount] at hj; omega
    rw [smallNode, hblock]
    refine ⟨⟨0, 5, by decide, by decide, by decide, rfl⟩, forall_metaBlocks (by decide) (by decide)⟩
  · intro i j hi hj _
    rw [smallNode, hcount] at hi hj
    omega
  · intro j hj
    obtain rfl : j = 0 := by
      have : j < smallFs.dirCount 2 := hj
      omega
    decide

/-- A new file `c` is created in it. -/
theorem ext2Create_roundTrip_small :
    ∃ fs', smallFs.ext2Create smallNode [0x63] 0 emptyNode = .ok (enoer, fs') ∧ RoundTrip smallFs fs' smallNode [0x63] := by
  refine exists_ok_fst (by decide) fun fs' hr => ?_
  exact (ext2Create_roundTrip_iff smallFs_consistent smallFs_working rfl smallFs_root (by decide) (by decide) (by decide) hr).mpr
    (by decide)

/-- The creation of a file `b` succeeds, and the file is not found: the search stops at the unused record. -/
theorem created_file_hidden : Consistent smallFs ∧ Working smallFs ∧ smallFs.blockSize = 1024 ∧ WellFormedDir smallFs smallNode.inode ∧
      smallFs.dirCount smallNode.inode = 1 ∧
      ∃ fs', smallFs.ext2Create smallNode [0x62] 0 emptyNode = .ok (enoer, fs') ∧
        fs'.ext2Finddir smallNode [0x62] emptyNode = .ok none ∧ ¬ RoundTrip smallFs fs' smallNode [0x62] := by
  refine ⟨smallFs_consistent, smallFs_working, rfl, smallFs_root, by decide, exists_ok_fst (by decide) fun fs' hr => ?_⟩
  obtain ⟨-, newIno, attr, hcreated⟩ :=
    smallFs_root.ext2Create smallFs_consistent smallFs_working (by decide) (by decide) (by decide) (by decide) hr
  have hlookup : lookup (smallFs.dirEntries (smallFs.storedInode 2)) [0x62] = some 0 := by decide
  exact hcreated.not_roundTrip smallFs_working (by decide) hlookup (by decide) emptyNode

end OmegaOS
