import OmegaOS.Theorems.CreateByPath
import OmegaOS.Theorems.FreeSpace

/-!
# Making a directory

`ext2_mkdir` is three creations: the directory in its parent, and then `.` and `..` in the directory. Each of them takes an inode of its own.
-/

namespace OmegaOS

open ByteMem CStr List Ext2

variable {fs fs1 fs2 fs' : Ext2} {ino newIno attr : Nat} {name : Str} {inode : Mem} {pool : Pool}

/-! ## The bits that a creation takes -/

theorem InodeWritten.bitmapsKept (h : InodeWritten fs fs' ino inode) (g : Geometry fs) (hino : fs.InodeExists ino) : BitmapsKept fs fs' := by
  refine ⟨h.shape, h.groups, fun q hq => h.disk q fun he => hq ?_⟩
  rw [he]
  exact ⟨g.inodeBlock_ne_descriptors hino, fun pool i hi => g.inodeBlock_ne_bitmap hino pool hi⟩

theorem Ext2.FirstReady.ne_zero (h : fs.FirstReady pool) (hclear : fs.bit pool 0 b = false) : b ≠ 0 := by
  rintro rfl
  simp [h.2] at hclear

section

variable (h : WellFormedDir fs ino) (hw : Working fs) (hfree : FreeOk fs) (hcount : FreeCounted fs)

include h hw hfree hcount

/-- A new block for an entry is one of the first group. -/
theorem WellFormedDir.insertInNewBlock_ledger (hn : fs.dirCount ino < ndirBlocks)
    (hr : fs.insertInNewBlock (fs.storedInode ino) ino newIno name ft (fs.dirCount ino) = (true, inode, fs')) :
    ∃ b, b ≠ 0 ∧ Ledger fs [(.blocks, 0, b)] fs' := by
  have g := hw.geometry
  rw [Ext2.insertInNewBlock] at hr
  rcases (hw.opened h.dirShape.exists_).allocateBlock hfree (fs.storedInode ino) (fs.dirCount ino) with
    ⟨heq, -⟩ | ⟨j, b, fs1, halloc, htaken, ⟨heq, -⟩ | ⟨fs2, hwritten, heq⟩⟩
  · simp [heq] at hr
  · simp [heq] at hr
  · obtain ⟨n, hg⟩ := h.dirShape.allocateBlock g (hw.readable _) hfree hn heq
    obtain ⟨hstored, hshape, -⟩ := h.dirShape.grown g hfree hn hg
    have g2 := g.congr hg.shape
    rw [heq, ← hstored] at hr
    dsimp only at hr
    rw [readInodeBlock_dirBlock (hw.congr hg.shape).readable] at hr
    dsimp only at hr
    rw [hshape.writeInodeBlock g2 (Nat.lt_succ_self _)] at hr
    cases hr
    have hkept := hwritten.bitmapsKept (g.congr htaken.shape) ((htaken.shape.inodeExists ino).mpr h.dirShape.exists_)
    have hdata := bitmapsKept_writeBlock ((hshape.used _ (Nat.lt_succ_self _)).offBitmaps_physical g2)
    rcases hw.allocateBit hcount (Nat.zero_lt_of_lt h.dirShape.exists_) .blocks with ⟨-, hnone⟩ | ⟨hready, c, fs1', hsome, htaken'⟩
    · rw [halloc] at hnone
      cases hnone
    · rw [halloc] at hsome
      obtain ⟨-, rfl⟩ := Prod.mk.inj hsome
      exact ⟨c, hready.ne_zero htaken'.clear, .taken htaken' (.kept hkept (hdata _).ledger)⟩

/-- The insertion of an entry takes a block where the last record has no room, and no other bit. -/
theorem WellFormedDir.insertInodeInDir_ledger (hspace : fs.LastRoom (fs.storedInode ino) name ∨ fs.dirCount ino < ndirBlocks)
    (hr : fs.insertInodeInDir (fs.storedInode ino) ino newIno name ft = .ok (true, inode, fs')) :
    (fs.LastRoom (fs.storedInode ino) name ∧ Ledger fs [] fs') ∨
      ¬ fs.LastRoom (fs.storedInode ino) name ∧ ∃ b, b ≠ 0 ∧ Ledger fs [(.blocks, 0, b)] fs' := by
  rcases h.insertInodeInDir_eq hw name newIno ft with ⟨hroom, k, image, hk, hrun⟩ | ⟨hroom, hrun⟩
  · rw [hrun] at hr
    cases hr
    have hused := h.dirShape.used k (by omega)
    exact .inl ⟨hroom, (bitmapsKept_writeBlock (hused.offBitmaps_physical hw.geometry) image).ledger⟩
  · rw [hrun] at hr
    exact .inr ⟨hroom, h.insertInNewBlock_ledger hw hfree hcount (hspace.resolve_left hroom) (Except.ok.inj hr)⟩

end

/-! ## One creation -/

/-- A creation that succeeds: the file, its record, and the bits that it takes, all of them in the first group and none of them bit 0. -/
structure EntryMade (fs fs' : Ext2) (ino : Nat) (name : Str) (newIno attr : Nat) : Prop where
  file : FileCreated fs fs' ino name newIno attr
  records : fs'.dirRecords (fs'.storedInode ino) = fs.dirRecords (fs.storedInode ino) ++ [(name, newIno, getFileType attr % 256)]
  bits : ∃ b us, b ≠ 0 ∧ newIno = fs.bitNumber .inodes 0 b ∧ Ledger fs ((.inodes, 0, b) :: us) fs' ∧
    (fs.LastRoom (fs.storedInode ino) name ∧ us = [] ∨ ¬ fs.LastRoom (fs.storedInode ino) name ∧ ∃ c, c ≠ 0 ∧ us = [(.blocks, 0, c)])

/-- What an entry needs: a name that fits a record, and a place among the direct blocks. -/
structure Insertable (fs : Ext2) (ino : Nat) (name : Str) : Prop where
  dir : WellFormedDir fs ino
  space : fs.LastRoom (fs.storedInode ino) name ∨ fs.dirCount ino < ndirBlocks
  noNul : NoNul name
  length : name.length ≤ 255

/-- A filesystem whose bitmaps, counters and drive are in order, with blocks that a record can be as long as. -/
structure Healthy (fs : Ext2) : Prop where
  consistent : Consistent fs
  working : Working fs
  counted : FreeCounted fs
  blockSize : fs.blockSize < 2 ^ 16

theorem WellFormedDir.kept_dirRecords (h : WellFormedDir fs ino) (g : Geometry fs) (hk : DirKept fs fs' ino (fs.dirCount ino)) :
    fs'.dirRecords (fs'.storedInode ino) = fs.dirRecords (fs.storedInode ino) := by
  rw [(h.dirShape.kept g hk).dirRecords (g.congr hk.kept.shape), h.dirShape.dirRecords g, h.dirShape.kept_recordsBelow g hk (le_refl _)]

/-- The insertion after an inode has been taken, when it succeeds. -/
theorem InodeTaken.entryMade (ht : InodeTaken fs fs2 newIno attr) (hready : fs.FirstReady .inodes) (hh : Healthy fs)
    (h : Insertable fs ino name)
    (hr : fs2.insertInodeInDir (fs2.storedInode ino) ino newIno name (getFileType attr) = .ok (true, inode, fs')) :
    inode = fs'.storedInode ino ∧ EntryMade fs fs' ino name newIno attr := by
  have hc := hh.consistent
  have g := hc.geometry
  have hnew := ht.free hc
  obtain ⟨b, fs1, hnumber, htaken, hwrite, hwritten⟩ := ht
  obtain ⟨hkept, hcount2, -⟩ := hc.inodeTaken hh.counted h.dir htaken hnew hwritten hwrite
  have hs := hkept.kept.shape
  have hw2 := hh.working.congr hs
  have hfree2 := hkept.kept.freeOk hc.freeBlocks
  have hlast := h.dir.kept_lastRoom g hkept name
  have hspace : fs2.LastRoom (fs2.storedInode ino) name ∨ fs2.dirCount ino < ndirBlocks := by
    rw [hlast, hkept.dirCount]
    exact h.space
  have hb := hc.freeInodes 0 b htaken.group htaken.inBitmap htaken.clear
  have hnumber32 : newIno < 2 ^ 32 := hnumber ▸ (g.inode_bitNumber htaken.group hb).1
  obtain ⟨hdir2, -⟩ := h.dir.kept g hkept
  obtain ⟨hparent, hadded, hrecords⟩ := hdir2.insertInodeInDir hw2.geometry (hw2.readable _) hfree2 hspace
    ⟨h.noNul, h.length, hnumber32, by rw [hs.blockSize]; exact hh.blockSize⟩ hr
  refine ⟨hparent, h.dir.fileCreated g hb hnumber htaken hwritten hadded, by rw [hrecords, h.dir.kept_dirRecords g hkept], ?_⟩
  have hexists1 := (htaken.shape.inodeExists newIno).mpr (hnew.exists_ g)
  have hbitmaps := hwritten.bitmapsKept (g.congr htaken.shape) hexists1
  rcases hdir2.insertInodeInDir_ledger hw2 hfree2 hcount2 hspace hr with ⟨hroom, hledger⟩ | ⟨hroom, c, hc0, hledger⟩
  · exact ⟨b, [], hready.ne_zero htaken.clear, hnumber, .taken htaken (.kept hbitmaps hledger), .inl ⟨hlast.mp hroom, rfl⟩⟩
  · exact ⟨b, _, hready.ne_zero htaken.clear, hnumber, .taken htaken (.kept hbitmaps hledger),
      .inr ⟨fun hin => hroom (hlast.mpr hin), c, hc0, rfl⟩⟩

theorem EntryMade.shape (h : EntryMade fs fs' ino name newIno attr) : SameShape fs fs' := h.file.kept.shape

theorem EntryMade.healthy (h : EntryMade fs fs' ino name newIno attr) (hh : Healthy fs) : Healthy fs' := by
  obtain ⟨b, us, -, -, hledger, -⟩ := h.bits
  exact ⟨h.file.consistent hh.consistent, hh.working.congr h.shape, hledger.counted hh.counted, by rw [h.shape.blockSize]; exact hh.blockSize⟩

/-! ## Running out of space -/

/-- The first group has so many free blocks, or inodes, and bit 0 is none of them. -/
def Ext2.Ready (fs : Ext2) (pool : Pool) (k : Nat) : Prop := fs.bit pool 0 0 = true ∧ k ≤ fs.freeCount pool 0

theorem FreeCounted.firstReady_iff (h : FreeCounted fs) (hgroups : 0 < fs.groupCount) (pool : Pool) : fs.FirstReady pool ↔ fs.Ready pool 1 := by
  rw [Ext2.FirstReady, Ext2.Ready, h.counts pool 0 hgroups, and_comm, ← Finset.card_pos]
  rfl

theorem Ledger.freeCount (h : Ledger fs ts fs') (pool : Pool) (i : Nat) :
    fs'.freeCount pool i + (ts.filter fun t => t.1 = pool ∧ t.2.1 = i).length = fs.freeCount pool i := by
  induction h with
  | refl => rfl
  | kept hk _ ih => rw [ih, hk.freeCount]
  | @taken fs fs1 fs' ts pool' j b ht _ ih =>
    by_cases he : pool' = pool ∧ j = i
    · obtain ⟨rfl, rfl⟩ := he
      have hcounted := ht.counted
      simp only [filter_cons, and_self, decide_true, if_true, length_cons]
      omega
    · have hne : (pool, i) ≠ (pool', j) := fun heq => he ⟨(Prod.mk.inj heq).1.symm, (Prod.mk.inj heq).2.symm⟩
      simp only [filter_cons, he, decide_false, Bool.false_eq_true, if_false]
      rw [ih, ht.counts pool i hne]

theorem Ledger.ready (h : Ledger fs ts fs') (g : Geometry fs) (hgroups : 0 < fs.groupCount) (hzero : (pool, 0, 0) ∉ ts) (k : Nat) :
    fs'.Ready pool k ↔ fs.Ready pool (k + (ts.filter fun t => t.1 = pool ∧ t.2.1 = 0).length) := by
  obtain ⟨hlo, -⟩ := g.blockSize_bounds
  have hbit : fs'.bit pool 0 0 = true ↔ fs.bit pool 0 0 = true := by
    rw [h.bits hgroups (by omega)]
    simp [hzero]
  have hcount := h.freeCount pool 0
  rw [Ext2.Ready, Ext2.Ready, hbit]
  refine and_congr_right fun _ => ?_
  omega

/-- A creation takes one inode of the first group. -/
theorem EntryMade.ready_inodes (h : EntryMade fs fs' ino name newIno attr) (hh : Healthy fs) (k : Nat) :
    fs'.Ready .inodes k ↔ fs.Ready .inodes (k + 1) := by
  obtain ⟨b, us, hb, -, hledger, hus⟩ := h.bits
  have hgroups := (hledger.fresh _ mem_cons_self).1
  rcases hus with ⟨-, rfl⟩ | ⟨-, c, -, rfl⟩
  · rw [hledger.ready hh.working.geometry hgroups (by simp [hb.symm])]
    simp
  · rw [hledger.ready hh.working.geometry hgroups (by simp [hb.symm])]
    simp

/-- It takes one block of the first group, unless the last record has room. -/
theorem EntryMade.ready_blocks (h : EntryMade fs fs' ino name newIno attr) (hh : Healthy fs) (k : Nat) :
    (fs.LastRoom (fs.storedInode ino) name → (fs'.Ready .blocks k ↔ fs.Ready .blocks k)) ∧
      (¬ fs.LastRoom (fs.storedInode ino) name → (fs'.Ready .blocks k ↔ fs.Ready .blocks (k + 1))) := by
  obtain ⟨b, us, -, -, hledger, hus⟩ := h.bits
  have hgroups := (hledger.fresh _ mem_cons_self).1
  rcases hus with ⟨hroom, rfl⟩ | ⟨hroom, c, hc, rfl⟩
  · refine ⟨fun _ => ?_, fun hnot => absurd hroom hnot⟩
    rw [hledger.ready hh.working.geometry hgroups (by simp)]
    simp
  · refine ⟨fun hin => absurd hin hroom, fun _ => ?_⟩
    rw [hledger.ready hh.working.geometry hgroups (by simp [hc.symm])]
    simp

/-- How a creation ends: without an inode nothing is done, without room for the entry an inode has been taken for nothing, and otherwise
the entry is made. -/
theorem Healthy.creation (hh : Healthy fs) (h : Insertable fs ino name) (attr : Nat) :
    (¬ fs.Ready .inodes 1 ∧ fs.allocateAndCreateInode (fs.storedInode ino) ino name attr = .ok (none, fs.storedInode ino, fs)) ∨
    (fs.Ready .inodes 1 ∧ ¬ (fs.LastRoom (fs.storedInode ino) name ∨ fs.Ready .blocks 1) ∧ ∃ newIno parent fs2,
      InodeTaken fs fs2 newIno attr ∧ fs.allocateAndCreateInode (fs.storedInode ino) ino name attr = .ok (none, parent, fs2)) ∨
    (fs.Ready .inodes 1 ∧ (fs.LastRoom (fs.storedInode ino) name ∨ fs.Ready .blocks 1) ∧ ∃ newIno fs',
      EntryMade fs fs' ino name newIno attr ∧
      fs.allocateAndCreateInode (fs.storedInode ino) ino name attr = .ok (some (Ext2.initInode attr, newIno), fs'.storedInode ino, fs')) := by
  have hgroups : 0 < fs.groupCount := Nat.zero_lt_of_lt h.dir.dirShape.exists_
  rw [← hh.counted.firstReady_iff hgroups, ← hh.counted.firstReady_iff hgroups]
  rcases hh.consistent.creation hh.working hh.counted h.dir name attr with
    hnone | ⟨hready, newIno, fs2, htaken, done, parent, fs', hinsert, hdone, hfail, hrun⟩
  · exact .inl hnone
  · cases done with
    | false =>
      rw [hfail rfl] at hrun
      refine .inr (.inl ⟨hready, fun hroom => ?_, newIno, parent, fs2, htaken, hrun⟩)
      cases hdone.mpr hroom
    | true =>
      obtain ⟨rfl, hmade⟩ := htaken.entryMade hready hh h hinsert
      exact .inr (.inr ⟨hready, hdone.mp rfl, newIno, fs', hmade, hrun⟩)

/-! ## Three creations -/

variable {node : VfsNode} {raw : FsNode}

/-- A directory of one record has room behind it: the record is as long as the block. -/
theorem WellFormedDir.lastRoom_single (h : WellFormedDir fs ino) (g : Geometry fs) (hcount : fs.dirCount ino ≤ 1)
    (hrecords : fs.dirRecords (fs.storedInode ino) = [r]) (hname : name.length ≤ 255) : fs.LastRoom (fs.storedInode ino) name := by
  obtain ⟨hlo, -⟩ := g.blockSize_bounds
  have hone : fs.dirCount ino = 1 := by
    refine le_antisymm hcount (Nat.pos_of_ne_zero fun hzero => ?_)
    simp [dirRecords, show iSize (fs.storedInode ino) / fs.blockSize = 0 from hzero] at hrecords
  have hsize : iSize (fs.storedInode ino) / fs.blockSize = 1 := hone
  have htiled := h.tiled 0 (by omega)
  rw [dirRecords, hsize] at hrecords
  generalize hm : fs.dirBlock (fs.storedInode ino) 0 = m at htiled
  have hblock : blockRecords fs.blockSize m = [r] := by
    rw [← hm, ← hrecords]
    simp
  obtain ⟨d, hd⟩ := length_eq_one_iff.mp (show (recordsFrom fs.blockSize m fs.blockSize 0).length = 1 by
    rw [← length_map, ← blockRecords, hblock]
    rfl)
  rw [Tiled, hd] at htiled
  obtain ⟨rfl, hok, hend⟩ := htiled
  have hlen : nameLen m 0 < 256 := load_lt ..
  refine ⟨0, 0, hsize, ?_, ?_⟩
  · rw [hm]
    have htiles : Tiles m fs.blockSize 0 ([] ++ [0]) := ⟨rfl, hok, hend⟩
    exact lastRecord_eq htiles (by omega)
  · rw [hm]
    have hrec : 0 + recLen m 0 = fs.blockSize := hend
    have hsize : ∀ nl ≤ 255, getDirEntrySize nl ≤ 266 := by
      intro nl hnl
      unfold getDirEntrySize dirHeader
      dsimp only
      split <;> omega
    have := hsize (nameLen m 0) (by omega)
    have := hsize name.length hname
    omega

theorem EntryMade.insertable_new (h : EntryMade fs fs1 ino name newIno (attr ||| iDir)) (hh : Healthy fs) :
    Insertable fs1 newIno Ext2.pathCurrDir ∧ fs1.dirCount newIno = 0 := by
  obtain ⟨hdir, hcount⟩ := h.file.newDir hh.consistent.geometry
  exact ⟨⟨hdir, .inr (by rw [hcount]; decide), by decide, by decide⟩, hcount⟩

/-- Its second entry goes behind the first one. -/
theorem EntryMade.insertable_second (h : EntryMade fs fs1 newIno Ext2.pathCurrDir n iFile) (hh : Healthy fs) (hempty : fs.dirCount newIno = 0) :
    Insertable fs1 newIno Ext2.pathUpDir ∧ fs1.LastRoom (fs1.storedInode newIno) Ext2.pathUpDir := by
  have hcount := h.file.count
  have hnone : fs.dirRecords (fs.storedInode newIno) = [] := by
    rw [dirRecords, show iSize (fs.storedInode newIno) / fs.blockSize = 0 from hempty]
    rfl
  have hrecords := h.records
  rw [hnone] at hrecords
  have hroom : fs1.LastRoom (fs1.storedInode newIno) pathUpDir :=
    h.file.dir.lastRoom_single (hh.consistent.geometry.congr h.shape) (by omega) hrecords (by decide)
  exact ⟨⟨h.file.dir, .inl hroom, by decide, by decide⟩, hroom⟩

/-- The name is found, for an inode that exists. -/
def Ext2.Found (fs : Ext2) (ino : Nat) (name : Str) : Prop :=
  ∃ n, lookup (fs.dirEntries (fs.storedInode ino)) name = some n ∧ fs.InodeExists n

theorem WellFormedDir.ext2Finddir_cases (h : WellFormedDir fs node.inode) (hw : Working fs) (hno : NoNul name) (raw : FsNode) :
    (fs.Found node.inode name ∧ ∃ file, fs.ext2Finddir node name raw = .ok (some file)) ∨
      ¬ fs.Found node.inode name ∧ fs.ext2Finddir node name raw = .ok none := by
  rw [h.ext2Finddir hw hno raw]
  cases hlookup : lookup (fs.dirEntries (fs.storedInode node.inode)) name with
  | none =>
    refine .inr ⟨?_, rfl⟩
    rintro ⟨n, hn, -⟩
    simp [hlookup] at hn
  | some n =>
    rw [Option.bind_some, nodeOf]
    split
    · rename_i hexists
      exact .inl ⟨⟨n, hlookup, hexists⟩, _, rfl⟩
    · rename_i hgone
      refine .inr ⟨?_, rfl⟩
      rintro ⟨n', hn', hexists⟩
      rw [hlookup] at hn'
      cases hn'
      exact hgone hexists

/-- What three creations need of the first group: three inodes, a block for the new directory, and one for the parent's entry unless the
last record has room. -/
def Ext2.MkdirRoom (fs : Ext2) (ino : Nat) (name : Str) : Prop :=
  fs.Ready .inodes 3 ∧ (fs.LastRoom (fs.storedInode ino) name ∧ fs.Ready .blocks 1 ∨ fs.Ready .blocks 2)

/-- The three creations: the directory `newIno` in its parent, and in it `.` for the inode `self` and `..` for the inode `up`. -/
def DirMade (fs fs' : Ext2) (ino : Nat) (name : Str) (newIno self up : Nat) : Prop :=
  ∃ attr fs1 fs2, EntryMade fs fs1 ino name newIno (attr ||| iDir) ∧ EntryMade fs1 fs2 newIno Ext2.pathCurrDir self iFile ∧
    EntryMade fs2 fs' newIno Ext2.pathUpDir up iFile

theorem Ext2.Ready.mono (h : fs.Ready pool l) (hkl : k ≤ l) : fs.Ready pool k := ⟨h.1, le_trans hkl h.2⟩

/-- Whether there is room for all three, after the first one. -/
theorem EntryMade.mkdirRoom_iff (h : EntryMade fs fs1 ino name newIno attr) (hh : Healthy fs) :
    fs.MkdirRoom ino name ↔ fs1.Ready .inodes 2 ∧ fs1.Ready .blocks 1 := by
  obtain ⟨hin, hout⟩ := h.ready_blocks hh 1
  rw [Ext2.MkdirRoom, h.ready_inodes hh]
  refine and_congr_right fun _ => ?_
  by_cases hroom : fs.LastRoom (fs.storedInode ino) name
  · rw [hin hroom]
    exact ⟨fun hor => hor.elim And.right fun h2 => h2.mono (by omega), fun h1 => .inl ⟨hroom, h1⟩⟩
  · rw [hout hroom]
    exact ⟨fun hor => hor.resolve_left fun hboth => hroom hboth.1, .inr⟩

theorem InodeTaken.ledger (h : InodeTaken fs fs2 newIno attr) (hc : Consistent fs) : ∃ b, Ledger fs [(.inodes, 0, b)] fs2 := by
  have hnew := h.free hc
  obtain ⟨b, fs1, -, htaken, -, hwritten⟩ := h
  have hexists := (htaken.shape.inodeExists newIno).mpr (hnew.exists_ hc.geometry)
  exact ⟨b, .taken htaken (hwritten.bitmapsKept (hc.geometry.congr htaken.shape) hexists).ledger⟩

/-- The end of `ext2_mkdir`, after the first creation. -/
def Ext2.addDots (fs : Ext2) (newInode : Mem) (newIno : Nat) : Except Halt (Int × Ext2) := do
  match ← fs.allocateAndCreateInode newInode newIno pathCurrDir iFile with
  | (none, _, fs) => return (eperm, fs)
  | (some _, newInode, fs) =>
    match ← fs.allocateAndCreateInode newInode newIno pathUpDir iFile with
    | (none, _, fs) => return (eperm, fs)
    | (some _, _, fs) => return (enoer, fs)

/-- How the creations of `.` and `..` end in an empty directory. The second one needs no block, since `.` has left room. -/
theorem Healthy.addDots (hh : Healthy fs) (h : Insertable fs newIno Ext2.pathCurrDir) (hempty : fs.dirCount newIno = 0) :
    (¬ (fs.Ready .inodes 2 ∧ fs.Ready .blocks 1) ∧ ∃ ts fs', Ledger fs ts fs' ∧ fs.addDots (fs.storedInode newIno) newIno = .ok (eperm, fs')) ∨
    (fs.Ready .inodes 2 ∧ fs.Ready .blocks 1) ∧ ∃ self up fs2 fs', EntryMade fs fs2 newIno Ext2.pathCurrDir self iFile ∧
      EntryMade fs2 fs' newIno Ext2.pathUpDir up iFile ∧ fs.addDots (fs.storedInode newIno) newIno = .ok (enoer, fs') := by
  have hnone : ¬ fs.LastRoom (fs.storedInode newIno) Ext2.pathCurrDir := by
    rintro ⟨k, d, hk, -⟩
    rw [← Ext2.dirCount, hempty] at hk
    cases hk
  rcases hh.creation h iFile with ⟨hready, hrun⟩ | ⟨-, hroom, self, parent, fs2, htaken, hrun⟩ | ⟨-, hroom, self, fs2, hmade, hrun⟩
  · refine .inl ⟨fun hall => hready (hall.1.mono (by omega)), [], fs, .refl fs, ?_⟩
    rw [Ext2.addDots, hrun]
    rfl
  · obtain ⟨b, hledger⟩ := htaken.ledger hh.consistent
    refine .inl ⟨fun hall => hroom (.inr hall.2), _, fs2, hledger, ?_⟩
    rw [Ext2.addDots, hrun]
    rfl
  · obtain ⟨hsecond, hlast⟩ := hmade.insertable_second hh hempty
    have hinodes := hmade.ready_inodes hh 1
    rcases (hmade.healthy hh).creation hsecond iFile with ⟨hready, hrun2⟩ | ⟨-, hroom2, -⟩ | ⟨hready, -, up, fs', hmade2, hrun2⟩
    · obtain ⟨b, us, -, -, hledger, -⟩ := hmade.bits
      refine .inl ⟨fun hall => hready (hinodes.mpr hall.1), _, fs2, hledger, ?_⟩
      simp [Ext2.addDots, hrun, hrun2, bind, Except.bind, pure, Except.pure]
    · exact absurd (.inl hlast) hroom2
    · refine .inr ⟨⟨hinodes.mp hready, hroom.resolve_left hnone⟩, self, up, fs2, fs', hmade, hmade2, ?_⟩
      simp [Ext2.addDots, hrun, hrun2, bind, Except.bind, pure, Except.pure]

/-- How `ext2_mkdir` ends. It fails without a trace when the name is there or there is no inode, and otherwise when one of the three creations
fails, with the bits taken that the ones before it took. -/
theorem Healthy.ext2Mkdir (hh : Healthy fs) (h : Insertable fs node.inode name) (attr : Nat) (raw : FsNode) :
    (fs.Found node.inode name ∧ fs.ext2Mkdir node name attr raw = .ok (eexist, fs)) ∨
    ¬ fs.Found node.inode name ∧ ((¬ fs.Ready .inodes 1 ∧ fs.ext2Mkdir node name attr raw = .ok (eperm, fs)) ∨
      (fs.Ready .inodes 1 ∧ ¬ fs.MkdirRoom node.inode name ∧ ∃ b ts fs', Ledger fs ((.inodes, 0, b) :: ts) fs' ∧
        fs.ext2Mkdir node name attr raw = .ok (eperm, fs')) ∨
      (fs.MkdirRoom node.inode name ∧ ∃ newIno self up fs', DirMade fs fs' node.inode name newIno self up ∧
        fs.ext2Mkdir node name attr raw = .ok (enoer, fs'))) := by
  have hw := hh.working
  rcases h.dir.ext2Finddir_cases hw h.noNul raw with ⟨hfound, file, hfind⟩ | ⟨hfound, hfind⟩
  · refine .inl ⟨hfound, ?_⟩
    rw [Ext2.ext2Mkdir, hfind]
    rfl
  · refine .inr ⟨hfound, ?_⟩
    have hread := (hw.opened h.dir.dirShape.exists_).readInode hw.heapOk
    have hdir := h.dir.dirShape.isDir
    rcases hh.creation h (attr &&& Ext2.without iFile ||| iDir) with
      ⟨hready, hrun⟩ | ⟨hready, hroom, newIno, parent, fs1, htaken, hrun⟩ | ⟨hready, hroom, newIno, fs1, hmade, hrun⟩
    · refine .inl ⟨hready, ?_⟩
      simp [Ext2.ext2Mkdir, hfind, hread, hdir, hrun, bind, Except.bind, pure, Except.pure]
    · refine .inr (.inl ⟨hready, ?_, ?_⟩)
      · rintro ⟨-, ⟨hin, -⟩ | hblocks⟩
        · exact hroom (.inl hin)
        · exact hroom (.inr (hblocks.mono (by omega)))
      · obtain ⟨b, hledger⟩ := htaken.ledger hh.consistent
        refine ⟨b, [], fs1, hledger, ?_⟩
        simp [Ext2.ext2Mkdir, hfind, hread, hdir, hrun, bind, Except.bind, pure, Except.pure]
    · obtain ⟨hnew, hempty⟩ := hmade.insertable_new hh
      have hdots := (hmade.healthy hh).addDots hnew hempty
      rw [← hmade.mkdirRoom_iff hh, hmade.file.inode] at hdots
      have hmkdir : fs.ext2Mkdir node name attr raw = fs1.addDots (Ext2.initInode (attr &&& Ext2.without iFile ||| iDir)) newIno := by
        rw [Ext2.ext2Mkdir, hfind]
        simp only [bind, Except.bind, hread, hdir, hrun]
        rfl
      rcases hdots with ⟨hroom1, ts, fs', hledger1, hrun1⟩ | ⟨hroom1, self, up, fs2, fs', hmade1, hmade2, hrun1⟩
      · obtain ⟨b, us, -, -, hledger, -⟩ := hmade.bits
        exact .inr (.inl ⟨hready, hroom1, b, _, fs', hledger.trans hledger1, hmkdir.trans hrun1⟩)
      · exact .inr (.inr ⟨hroom1, newIno, self, up, fs', ⟨_, fs1, fs2, hmade, hmade1, hmade2⟩, hmkdir.trans hrun1⟩)

/-! ## The links of a new directory -/

/-- `ID_DIR`. -/
def idDir : Nat := 2

/-- The entry `.` of a directory is the directory itself. -/
def LinksSelf (fs : Ext2) (ino : Nat) : Prop := (Ext2.pathCurrDir, ino, idDir) ∈ fs.dirRecords (fs.storedInode ino)

/-- The entry `..` of a directory is its parent. -/
def LinksParent (fs : Ext2) (ino parent : Nat) : Prop := ∃ ft, (Ext2.pathUpDir, parent, ft) ∈ fs.dirRecords (fs.storedInode ino)

/-- Exactly one inode is marked that was free. -/
def OneInodeMarked (fs fs' : Ext2) : Prop :=
  ∃ j c, ∀ i b, i < fs.groupCount → b < 8 * fs.blockSize → (fs.bit .inodes i b = false ∧ fs'.bit .inodes i b = true ↔ i = j ∧ b = c)

variable {self up : Nat}

section

variable (h : DirMade fs fs' ino name newIno self up)

include h

/-- The records of a new directory are files of their own. -/
theorem DirMade.records (hh : Healthy fs) :
    fs'.dirRecords (fs'.storedInode newIno) = [(Ext2.pathCurrDir, self, 1), (Ext2.pathUpDir, up, 1)] := by
  obtain ⟨attr, fs1, fs2, hmade, hmade1, hmade2⟩ := h
  obtain ⟨-, hempty⟩ := hmade.insertable_new hh
  have hnone : fs1.dirRecords (fs1.storedInode newIno) = [] := by
    rw [dirRecords, show iSize (fs1.storedInode newIno) / fs1.blockSize = 0 from hempty]
    rfl
  rw [hmade2.records, hmade1.records, hnone]
  rfl

theorem DirMade.bits :
    ∃ b c d ts, Ledger fs ts fs' ∧ newIno = fs.bitNumber .inodes 0 b ∧ self = fs.bitNumber .inodes 0 c ∧ up = fs.bitNumber .inodes 0 d ∧
      (.inodes, 0, b) ∈ ts ∧ (.inodes, 0, c) ∈ ts ∧ (.inodes, 0, d) ∈ ts ∧ b ≠ c := by
  obtain ⟨attr, fs1, fs2, hmade, hmade1, hmade2⟩ := h
  obtain ⟨b, us, -, hnew, hledger, -⟩ := hmade.bits
  obtain ⟨c, vs, -, hself, hledger1, -⟩ := hmade1.bits
  obtain ⟨d, ws, -, hup, hledger2, -⟩ := hmade2.bits
  have hall := hledger.trans (hledger1.trans hledger2)
  rw [hmade.shape.bitNumber] at hself
  rw [(hmade.shape.trans hmade1.shape).bitNumber] at hup
  refine ⟨b, c, d, _, hall, hnew, hself, hup, by simp, by simp, by simp, ?_⟩
  rintro rfl
  have hnodup := hall.nodup
  simp at hnodup

/-- The parent's entries: those it had, and the new directory. -/
theorem DirMade.entries (hh : Healthy fs) (hdir : WellFormedDir fs ino) :
    fs'.dirEntries (fs'.storedInode ino) = fs.dirEntries (fs.storedInode ino) ++ [(name, newIno)] := by
  obtain ⟨attr, fs1, fs2, hmade, hmade1, hmade2⟩ := h
  obtain ⟨-, hempty⟩ := hmade.insertable_new hh
  have g := hh.consistent.geometry
  have hkept := hmade1.file.others_twice hmade2.file (hmade.healthy hh).consistent hempty hmade.file.dir (hdir.dirShape.ne_free g hmade.file.free)
  rw [(hmade.file.dir.kept (g.congr hmade.shape) hkept).2, hmade.file.entries]

end

theorem Healthy.dirMade (hh : Healthy fs) (h : Insertable fs node.inode name) (hr : fs.ext2Mkdir node name attr raw = .ok (enoer, fs')) :
    ∃ newIno self up, DirMade fs fs' node.inode name newIno self up := by
  rcases hh.ext2Mkdir h attr raw with ⟨-, hrun⟩ | ⟨-, ⟨-, hrun⟩ | ⟨-, -, _, _, _, -, hrun⟩ | ⟨-, newIno, self, up, fs3, hmade, hrun⟩⟩
  · rw [hrun] at hr
    cases hr
  · rw [hrun] at hr
    cases hr
  · rw [hrun] at hr
    cases hr
  · rw [hrun] at hr
    cases hr
    exact ⟨newIno, self, up, hmade⟩

/-- A directory made by `ext2_mkdir` has no links: `.` and `..` are files of their own, and three inodes or more are marked. -/
theorem mkdir_never_links (hh : Healthy fs) (h : Insertable fs node.inode name) (hr : fs.ext2Mkdir node name attr raw = .ok (enoer, fs')) :
    ∃ newIno, fs'.dirEntries (fs'.storedInode node.inode) = fs.dirEntries (fs.storedInode node.inode) ++ [(name, newIno)] ∧
      ¬ LinksSelf fs' newIno ∧ ¬ LinksParent fs' newIno node.inode ∧ ¬ OneInodeMarked fs fs' := by
  obtain ⟨newIno, self, up, hmade⟩ := hh.dirMade h hr
  have hrecords := hmade.records hh
  obtain ⟨b, c, d, ts, hledger, rfl, rfl, rfl, hb, hc, hd, hne⟩ := hmade.bits
  refine ⟨_, hmade.entries hh h.dir, ?_, ?_, ?_⟩
  · rw [LinksSelf, hrecords]
    simp [idDir, Ext2.pathCurrDir, Ext2.pathUpDir]
  · -- the inode of `..` was free, and the parent is in use
    rintro ⟨ft, hmem⟩
    obtain ⟨hgroup, hinBitmap, hclear⟩ := hledger.fresh _ hd
    have hfree : FreeInode fs (fs.bitNumber .inodes 0 d) :=
      ⟨0, d, hgroup, hh.consistent.freeInodes 0 d hgroup hinBitmap hclear, hclear, rfl⟩
    have hup : node.inode = fs.bitNumber .inodes 0 d := by
      rw [hrecords] at hmem
      simp only [Ext2.pathCurrDir, Ext2.pathUpDir, List.mem_cons, Prod.mk.injEq, List.not_mem_nil] at hmem
      simp at hmem
      exact hmem.1
    exact h.dir.dirShape.ne_free hh.consistent.geometry hfree (congrArg Ext2.inodeNumber hup)
  · rintro ⟨j, e, hone⟩
    have hmarked : ∀ b, (Pool.inodes, 0, b) ∈ ts → b = e := by
      intro b hb
      obtain ⟨hgroup, hinBitmap, hclear⟩ := hledger.fresh _ hb
      exact ((hone 0 b hgroup hinBitmap).mp ⟨hclear, (hledger.bits hgroup hinBitmap).mpr (Or.inr hb)⟩).2
    exact hne ((hmarked b hb).trans (hmarked c hc).symm)

theorem smallFs_healthy : Healthy smallFs := ⟨smallFs_consistent, smallFs_working, smallFs_counted, by decide⟩

/-- A new directory in the root directory. -/
theorem mkdir_never_links_small : ∃ fs', smallFs.ext2Mkdir smallNode [0x64] 0 emptyNode = .ok (enoer, fs') ∧
      ∃ newIno, fs'.dirEntries (fs'.storedInode smallNode.inode) = smallFs.dirEntries (smallFs.storedInode smallNode.inode) ++ [([0x64], newIno)] ∧
        ¬ LinksSelf fs' newIno ∧ ¬ LinksParent fs' newIno smallNode.inode ∧ ¬ OneInodeMarked smallFs fs' := by
  exact exists_ok_fst (by decide +kernel) fun fs' hr => mkdir_never_links smallFs_healthy ⟨smallFs_root, .inr (by decide), by decide, by decide⟩ hr

/-- The directory `d` gets inode 4; its entries are files, of the inodes 5 and 6. -/
theorem mkdir_makes_files : ∃ fs', smallFs.ext2Mkdir smallNode [0x64] 0 emptyNode = .ok (enoer, fs') ∧
      fs'.dirEntries (fs'.storedInode 2) = [([0x62], 0), ([0x61], 3), ([0x64], 4)] ∧
      fs'.dirRecords (fs'.storedInode 4) = [(Ext2.pathCurrDir, 5, 1), (Ext2.pathUpDir, 6, 1)] ∧
      ¬ LinksSelf fs' 4 ∧ ¬ LinksParent fs' 4 2 ∧ ¬ OneInodeMarked smallFs fs' := by
  have hparent : (smallFs.ext2Mkdir smallNode [0x64] 0 emptyNode).map (fun r => (r.1, r.2.dirEntries (r.2.storedInode 2))) =
      .ok (enoer, [([0x62], 0), ([0x61], 3), ([0x64], 4)]) := by decide +kernel
  have hmade : (smallFs.ext2Mkdir smallNode [0x64] 0 emptyNode).map (fun r => (r.2.dirRecords (r.2.storedInode 4),
      r.2.bit .inodes 0 3 && r.2.bit .inodes 0 4)) = .ok ([(Ext2.pathCurrDir, 5, 1), (Ext2.pathUpDir, 6, 1)], true) := by decide +kernel
  obtain ⟨⟨ret, fs'⟩, hr, hvalues⟩ := map_eq_ok hparent
  rw [hr] at hmade
  obtain ⟨rfl, hparent⟩ := Prod.mk.inj hvalues
  obtain ⟨hrecords, hmarked⟩ := Prod.mk.inj (Except.ok.inj hmade)
  obtain ⟨hthree, hfour⟩ := Bool.and_eq_true_iff.mp hmarked
  refine ⟨fs', hr, hparent, hrecords, ?_, ?_, ?_⟩
  · rw [LinksSelf, hrecords]
    decide
  · rintro ⟨ft, hmem⟩
    rw [hrecords] at hmem
    simp [Ext2.pathCurrDir, Ext2.pathUpDir] at hmem
  · rintro ⟨j, c, hone⟩
    have h3 := (hone 0 3 (by decide) (by decide)).mp ⟨by decide, hthree⟩
    have h4 := (hone 0 4 (by decide) (by decide)).mp ⟨by decide, hfour⟩
    omega

end OmegaOS
