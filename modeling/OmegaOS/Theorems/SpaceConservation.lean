import OmegaOS.Lemmas.Ext2Space
import OmegaOS.Theorems.FailedCreation
import OmegaOS.Theorems.FailedDeletion
import OmegaOS.Theorems.FileContent

/-!
# Space that a file gives back

A file is created, written to and deleted. `writeInodeBlock` takes blocks as the sectors of the inode count them, and `deleteInode` gives
back those that the size covers. The two agree unless a write ends at the end of a block behind the file, or the sectors of the size stop
before its last block.
-/

namespace OmegaOS

open ByteMem CStr Splice List Ext2

variable {x : Extent} {b attr : Nat} {fs3 : Ext2} {ret : Int}

variable {fs fs1 fs2 fs' : Ext2} {dir ino offset n last : Nat} {node node' : VfsNode} {name : Str} {inode inode' : Mem}
  {out ns : List Nat} {ws : List (Nat × Nat)}

/-! ## The blocks of a file, by its writes -/

/-- The size of a file, the blocks that its sectors count, the direct pointers that are set, and the blocks whose pointer was overwritten. -/
structure Extent where
  size : Nat
  blocks : Nat
  mapped : Nat
  lost : Nat
deriving DecidableEq, Repr

/-- A write whose rounds end with the block `last`: the blocks that the sectors do not count are taken, whether they have pointers or not. -/
def Extent.grow (fs : Ext2) (x : Extent) (last : Nat) : Extent where
  size := x.size + fs.blockSize * (last + 1 - x.blocks)
  blocks := max x.blocks (last + 1)
  mapped := max x.mapped (last + 1)
  lost := x.lost + (min x.mapped (last + 1) - x.blocks)

/-- The size is set, and the sectors with it. -/
def Extent.resize (fs : Ext2) (x : Extent) (size : Nat) : Extent :=
  { x with size, blocks := fs.sector2Block (rndup size ataSectorSize / ataSectorSize) }

/-- A write of some bytes at an offset. -/
def Extent.write (fs : Ext2) (x : Extent) (w : Nat × Nat) : Extent :=
  let x' := x.grow fs ((w.1 + w.2) / fs.blockSize)
  if x.size < w.1 + w.2 then x'.resize fs (w.1 + w.2) else x'

/-- What writes make of an empty file. -/
def Ext2.extent (fs : Ext2) (ws : List (Nat × Nat)) : Extent := ws.foldl (Extent.write fs) ⟨0, 0, 0, 0⟩

/-- The blocks that the size covers, the last one perhaps in part. -/
def Extent.covered (fs : Ext2) (x : Extent) : Nat :=
  if x.size % fs.blockSize ≠ 0 then x.size / fs.blockSize + 1 else x.size / fs.blockSize

/-- No block has lost its pointer, and the size covers those that have one. -/
def Extent.Balanced (fs : Ext2) (x : Extent) : Prop := x.lost = 0 ∧ x.mapped = x.covered fs

instance (fs : Ext2) (x : Extent) : Decidable (x.Balanced fs) := inferInstanceAs (Decidable (_ ∧ _))

/-! ## Runs -/

/-- Writes to the file `ino` that succeed one after another, with their offsets and lengths. -/
inductive FileWrites (ino : Nat) : Ext2 → List (Nat × Nat) → Ext2 → Prop where
  | nil (fs : Ext2) : FileWrites ino fs [] fs
  | cons {fs fs1 fs' : Ext2} {node node' : VfsNode} {offset n : Nat} {buffer : Mem} {ret : Int} {ws : List (Nat × Nat)} (hnode : node.inode = ino)
      (hr : fs.ext2Write node offset n buffer = .ok (ret, node', fs1)) (hret : 0 ≤ ret) (hrest : FileWrites ino fs1 ws fs') :
      FileWrites ino fs ((offset, n) :: ws) fs'

/-- A file is created in the directory and found there, it is written to until the state is `fs2`, and it is deleted. -/
structure FileRun (fs : Ext2) (node : VfsNode) (name : Str) (ino : Nat) (ws : List (Nat × Nat)) (fs2 fs' : Ext2) : Prop where
  written : ∃ attr raw fs1 file, fs.ext2Create node name attr raw = .ok (enoer, fs1) ∧ fs1.ext2Finddir node name raw = .ok (some file) ∧
    file.inode = ino ∧ FileWrites ino fs1 ws fs2
  deleted : fs2.ext2Delete node name = .ok (enoer, fs')

/-! ## A file and its directory -/

/-- A file beside a directory, in a filesystem that shows none of its own blocks free, on a drive that works. -/
structure FileBeside (fs : Ext2) (dir ino : Nat) : Prop where
  working : Working fs
  free : FreeOk fs
  wellFormed : WellFormedDir fs dir
  exists_ : fs.InodeExists ino
  other : Ext2.inodeNumber dir ≠ Ext2.inodeNumber ino

/-- The blocks that hold nothing of the filesystem's own and nothing of the directory. -/
def FileData (fs : Ext2) (dir q : Nat) : Prop :=
  (∀ x : MetaBlock, x.Valid fs → x.number fs ≠ q) ∧ ∀ j < fs.dirCount dir, iBlock (fs.storedInode dir) j ≠ q

theorem FileBeside.freeData (h : FileBeside fs dir ino) (hn : FreeBlock fs n) : FileData fs dir n := by
  refine ⟨fun x hx => ?_, fun j hj he => (h.wellFormed.dirShape.used j hj).ne_free hn h.free he⟩
  obtain ⟨i, b, hi, hb, hclear, rfl⟩ := hn
  exact (h.free i b hi hb hclear).2 x hx

/-- The file at some point of the run, with its inode in memory: what it is by its writes, and the blocks that have been taken. -/
structure FileHeld (fs1 fs : Ext2) (dir ino : Nat) (inode : Mem) (x : Extent) (out : List Nat) : Prop where
  taken : BlocksOut fs1 fs out
  inodes : SamePool .inodes fs1 fs
  dirKept : DirKept fs1 fs dir (fs1.dirCount dir)
  file : FileOk fs inode (FileData fs1 dir)
  size : iSize inode = x.size
  blocks : fs.sector2Block (iSectors inode) = x.blocks
  counted : x.blocks ≤ x.mapped
  bound : x.mapped ≤ ndirBlocks
  mapped : ∀ k < ndirBlocks, iBlock inode k ≠ 0 ↔ k < x.mapped
  pointers : ∀ k < x.mapped, iBlock inode k ∈ out
  length : out.length = x.mapped + x.lost

/-! ## One write -/

section

variable {x : Extent} (hf : FileBeside fs1 dir ino) (h : FileHeld fs1 fs dir ino inode x out)
include hf h

theorem FileHeld.working : Working fs := hf.working.congr h.dirKept.kept.shape

theorem FileHeld.inodeExists : fs.InodeExists ino := (h.dirKept.kept.shape.inodeExists ino).mpr hf.exists_

/-- Growth keeps account of the blocks it takes. -/
theorem FileHeld.grown (hlast : last < ndirBlocks) (hg : Grown fs inode ino x.blocks ns (FileData fs1 dir) fs' inode')
    (hlen : ns.length = last + 1 - x.blocks) (hfile : FileOk fs' inode' (FileData fs1 dir))
    (hsize : iSize inode' = iSize inode + fs.blockSize * (last + 1 - x.blocks))
    (hblocks : fs'.sector2Block (iSectors inode') = max x.blocks (last + 1)) :
    FileHeld fs1 fs' dir ino inode' (x.grow fs1 last) (out ++ ns) := by
  have g := (h.working hf).geometry
  have hs := h.dirKept.kept.shape
  have hcounted := h.counted
  have hbound := h.bound
  have hmeta : ∀ y : MetaBlock, y.Valid fs → ¬ FileData fs1 dir (y.number fs) := by
    intro y hy hdata
    rw [hs.metaNumber] at hdata
    exact hdata.1 y ((hs.metaValid y).mp hy) rfl
  have hdir : DirKept fs fs' dir (fs1.dirCount dir) := by
    refine (hf.wellFormed.dirShape.kept hf.working.geometry h.dirKept).grown_other hg g (h.inodeExists hf) hmeta (fun j hj hdata => ?_) hf.other
    rw [h.dirKept.stored] at hdata
    exact hdata.2 j hj rfl
  have hnew : ∀ k, x.blocks ≤ k → k < x.blocks + ns.length → ns.getD (k - x.blocks) 0 ∈ ns := by
    intro k hlo hhi
    rw [getD_eq_getElem _ _ (by omega)]
    exact getElem_mem _
  refine ⟨h.taken.grown hg, h.inodes.trans ⟨hg.shape, fun i b hi _ => hg.inodeBit g (h.inodeExists hf) hmeta hi b, hg.inodeCounts⟩,
    h.dirKept.trans hdir, hfile, ?_, hblocks, ?_, ?_, fun k hk => ?_, fun k hk => ?_, ?_⟩
  · rw [hsize, h.size, hs.blockSize]
    rfl
  · exact max_le_max_right _ hcounted
  · exact max_le hbound hlast
  · rw [hg.mapped hk, h.mapped k hk, hlen]
    show _ ↔ k < max x.mapped (last + 1)
    omega
  · replace hk : k < max x.mapped (last + 1) := hk
    rw [hg.pointers k]
    split
    · rename_i hin
      exact mem_append_right _ (hnew k hin.2.1 hin.2.2)
    · exact mem_append_left _ (h.pointers k (by omega))
  · rw [length_append, h.length, hlen]
    show _ = max x.mapped (last + 1) + (x.lost + (min x.mapped (last + 1) - x.blocks))
    omega

theorem FileHeld.sized {size : Nat} (hsize : size < 2 ^ 31) (hreach : size / fs1.blockSize < x.blocks) :
    FileHeld fs1 fs dir ino (sizedInode inode size) (x.resize fs1 size) out := by
  have g := (h.working hf).geometry
  have hs := h.dirKept.kept.shape
  have hblocks : fs.sector2Block (iSectors (sizedInode inode size)) = (x.resize fs1 size).blocks := by
    rw [iSectors_sizedInode inode (by omega), hs.sector2Block]
    rfl
  refine ⟨h.taken, h.inodes, h.dirKept, ?_, iSize_sizedInode inode (by omega), hblocks, ?_, h.bound, fun k hk => ?_, fun k hk => ?_, h.length⟩
  · exact h.file.sized g hsize (by rwa [h.blocks, hs.blockSize])
  · have hle := (sector2Block_rndup hf.working.geometry hsize).2
    have hcounted := h.counted
    show fs1.sector2Block (rndup size ataSectorSize / ataSectorSize) ≤ x.mapped
    omega
  · rw [iBlock_sizedInode]
    exact h.mapped k hk
  · rw [iBlock_sizedInode]
    exact h.pointers k hk

theorem FileHeld.store : ∃ fs', fs.writeInode ino inode = (true, fs') ∧ FileHeld fs1 fs' dir ino inode x out ∧ fs'.storedInode ino = inode := by
  have hw := h.working hf
  have hexists := h.inodeExists hf
  obtain ⟨fs', hrun, hwritten⟩ := (hw.opened hexists).writeInode inode
  have hbitmaps := hwritten.bitmapsKept hw.geometry hexists
  have hdir := (hf.wellFormed.dirShape.kept hf.working.geometry h.dirKept).inodeWritten hw.geometry hexists hf.other hwritten
  refine ⟨fs', hrun, ⟨h.taken.same (hbitmaps.samePool _), h.inodes.trans (hbitmaps.samePool _), h.dirKept.trans hdir,
    h.file.kept hw.geometry hdir.kept, h.size, by rw [hwritten.shape.sector2Block, h.blocks], h.counted, h.bound, h.mapped, h.pointers,
    h.length⟩, hwritten.storedInode h.file.image⟩

end

/-- A write keeps that account. -/
theorem FileHeld.ext2Write {buffer : Mem} (hf : FileBeside fs1 dir node.inode)
    (h : FileHeld fs1 fs dir node.inode (fs.storedInode node.inode) x out) (hend : offset + n < ndirBlocks * fs1.blockSize)
    (hr : fs.ext2Write node offset n buffer = .ok (ret, node', fs')) (hret : 0 ≤ ret) :
    ∃ out', FileHeld fs1 fs' dir node.inode (fs'.storedInode node.inode) (x.write fs1 (offset, n)) out' := by
  have hw := h.working hf
  have hexists := h.inodeExists hf
  have hfree := h.dirKept.kept.freeOk hf.free
  have hbs := h.dirKept.kept.shape.blockSize
  rw [← hbs] at hend
  obtain ⟨hpos, hsmall, -⟩ := hw.geometry.direct_range (le_of_lt hend)
  have hlast : (offset + n) / fs.blockSize < ndirBlocks := (Nat.div_lt_iff_lt_mul hpos).mpr hend
  have hstart : offset / fs.blockSize ≤ (offset + n) / fs.blockSize := Nat.div_le_div_right (Nat.le_add_right _ _)
  have hfuel : offset / fs.blockSize + ((offset + n) / fs.blockSize + 1 - offset / fs.blockSize) = (offset + n) / fs.blockSize + 1 := by omega
  obtain ⟨hoff, inode', written, fs2, hloop, hfinish⟩ := ext2Write_succeeds hw hexists (by omega) hr hret
  have hreach := le_trans (Nat.div_le_div_right hoff) h.file.covers
  obtain ⟨_, _, _, _, hrun, hkept, -, hdone⟩ := h.file.writeLoop hw hexists hfree (le_of_lt hend) buffer (le_refl _) hfuel hreach
  rw [before_start hpos, hloop] at hrun
  cases hrun
  obtain ⟨rfl, hrounds, -⟩ := hdone rfl
  obtain ⟨ns, hlen, hg⟩ := h.file.writeLoop_grown (hw.opened hexists) hfree hlast hfuel hreach hloop
  rw [h.blocks] at hlen hg
  have hgrown := h.grown hf hlast hg hlen hkept.file (by rw [hrounds.size, h.blocks]) (by rw [hrounds.sectors, h.blocks])
  rw [Extent.write, ← hbs, ← h.size]
  by_cases hlt : iSize (fs.storedInode node.inode) < offset + written
  · -- the file has grown, so something was written
    have hsized := hgrown.sized hf (by omega) (by rw [← hbs]; exact lt_of_lt_of_le (Nat.lt_succ_self _) (le_max_right _ _))
    obtain ⟨fs3, hrun, hheld, hstored⟩ := hsized.store hf
    rw [finishWrite_grown node (by omega) hlt (by omega) hrun] at hfinish
    cases hfinish
    rw [if_pos hlt, hstored]
    exact ⟨_, hheld⟩
  · rw [if_neg hlt]
    by_cases hzero : written = 0
    · subst hzero
      rw [finishWrite, if_pos (show ((0 : Nat) : Int) = 0 from rfl)] at hfinish
      cases hfinish
      rw [hg.stored rfl]
      exact ⟨_, hgrown⟩
    · obtain ⟨fs3, hrun, hheld, hstored⟩ := hgrown.store hf
      rw [finishWrite_same node (by omega) (by omega) hrun] at hfinish
      cases hfinish
      rw [hstored]
      exact ⟨_, hheld⟩

theorem FileWrites.held (hf : FileBeside fs1 dir ino) (hws : FileWrites ino fs ws fs')
    (hdirect : ∀ w ∈ ws, w.1 + w.2 < ndirBlocks * fs1.blockSize) (h : FileHeld fs1 fs dir ino (fs.storedInode ino) x out) :
    ∃ out', FileHeld fs1 fs' dir ino (fs'.storedInode ino) (ws.foldl (Extent.write fs1) x) out' := by
  induction hws generalizing x out with
  | nil => exact ⟨out, h⟩
  | cons hnode hr hret _ ih =>
    subst hnode
    obtain ⟨out', hheld⟩ := h.ext2Write hf (hdirect _ mem_cons_self) hr hret
    exact ih (fun w hw => hdirect w (.tail _ hw)) hheld

/-! ## The creation -/

theorem iBlock_initInode (attr k : Nat) : iBlock (Ext2.initInode attr) k = 0 := by
  rw [iBlock, initInode, load_store_disjoint _ _ (by omega)]
  rfl

/-- What a creation in a directory with room leaves: the file has the entry behind the others, and one inode is taken. -/
structure FileMade (fs fs1 : Ext2) (dir : Nat) (name : Str) (ino b : Nat) : Prop where
  number : ino = fs.bitNumber .inodes 0 b
  ledger : Ledger fs [(.inodes, 0, b)] fs1
  beside : FileBeside fs1 dir ino
  held : FileHeld fs1 fs1 dir ino (fs1.storedInode ino) ⟨0, 0, 0, 0⟩ []
  entries : fs1.dirEntries (fs1.storedInode dir) = fs.dirEntries (fs.storedInode dir) ++ [(name, ino)]
  absent : name ∉ (fs.dirEntries (fs.storedInode dir)).map (·.1)

/-- The creation of the file, seen from its bits. -/
theorem EntryMade.fileMade (hm : EntryMade fs fs1 dir name ino attr) (hh : Healthy fs) (h : WellFormedDir fs dir)
    (hnumber : ino = fs.bitNumber .inodes 0 b) (hledger : Ledger fs [(.inodes, 0, b)] fs1)
    (habsent : name ∉ (fs.dirEntries (fs.storedInode dir)).map (·.1)) : FileMade fs fs1 dir name ino b := by
  have hc := hm.file
  have hs := hc.kept.shape
  have g := hh.consistent.geometry
  have hf : FileBeside fs1 dir ino := ⟨hh.working.congr hs, hc.kept.freeOk hh.consistent.freeBlocks, hc.dir,
    (hs.inodeExists ino).mpr (hc.free.exists_ g), h.dirShape.ne_free g hc.free⟩
  have hsize : iSize (fs1.storedInode ino) = 0 := by rw [hc.inode]; exact iSize_initInode attr
  have hsectors : iSectors (fs1.storedInode ino) = 0 := by rw [hc.inode]; exact iSectors_initInode attr
  have hpointers : ∀ k, iBlock (fs1.storedInode ino) k = 0 := fun k => by rw [hc.inode]; exact iBlock_initInode attr k
  obtain ⟨hfile, hblocks⟩ :=
    fileOk_empty hf.working.geometry (isImage_storedInode fs1 ino) hsize hsectors (fun k _ => hpointers k) fun n hn => hf.freeData hn
  refine ⟨hnumber, hledger, hf, ⟨blocksOut_nil.mpr (.refl _ _), .refl _ _, ?_, hfile, hsize, hblocks, le_refl _,
    Nat.zero_le _, fun k _ => ?_, fun k hk => absurd hk (Nat.not_lt_zero k), rfl⟩, hc.entries, habsent⟩
  · exact ⟨⟨.refl _, fun _ _ _ _ hclear => hclear⟩, rfl, rfl, fun _ _ => rfl⟩
  · rw [hpointers k]
    simp

/-- `ext2_create` in a directory with room, when the new file is found. -/
theorem Healthy.fileMade {raw file : FsNode} (hh : Healthy fs) (h : Insertable fs node.inode name)
    (hroom : fs.LastRoom (fs.storedInode node.inode) name) (hr : fs.ext2Create node name attr raw = .ok (enoer, fs1))
    (hfind : fs1.ext2Finddir node name raw = .ok (some file)) : ∃ b, FileMade fs fs1 node.inode name file.inode b := by
  have hw := hh.working
  obtain ⟨found, hsearch, hr⟩ := bind_eq_ok.mp hr
  cases found with
  | some _ => cases hr
  | none =>
    rw [(hw.opened h.dir.dirShape.exists_).readInode hw.heapOk] at hr
    dsimp only at hr
    rw [h.dir.dirShape.isDir] at hr
    obtain ⟨⟨created, parent, fs2⟩, hcreate, hr⟩ := bind_eq_ok.mp hr
    rcases hh.creation h (attr &&& without iDir ||| iFile) with
      ⟨-, hrun⟩ | ⟨-, -, _, _, _, -, hrun⟩ | ⟨-, -, newIno, fs3, hmade, hrun⟩
    · rw [hrun] at hcreate
      cases hcreate
      cases hr
    · rw [hrun] at hcreate
      cases hcreate
      cases hr
    · rw [hrun] at hcreate
      cases hcreate
      cases hr
      have hc := hmade.file
      have hw1 := hw.congr hc.kept.shape
      have hexists : fs1.InodeExists newIno := (hc.kept.shape.inodeExists newIno).mpr (hc.free.exists_ hw.geometry)
      -- an entry of the name that is older hides the file
      have hnone : lookup (fs.dirEntries (fs.storedInode node.inode)) name = none := by
        cases hlookup : lookup (fs.dirEntries (fs.storedInode node.inode)) name with
        | none => rfl
        | some m =>
          have hgone : ¬ fs.InodeExists m := by
            intro hm
            rw [h.dir.ext2Finddir hw h.noNul raw, hlookup, Option.bind_some, nodeOf, if_pos hm] at hsearch
            cases hsearch
          simp [(hc.not_roundTrip hw h.noNul hlookup hgone raw).1] at hfind
      have hinode : file.inode = newIno := by
        rw [hc.dir.ext2Finddir hw1 h.noNul raw, hc.lookup_eq, hnone, if_pos rfl, Option.none_or, Option.bind_some, nodeOf,
          if_pos hexists] at hfind
        cases hfind
        rw [FsNode.fill_toVfsNode]
      obtain ⟨b, us, -, hnumber, hledger, hus⟩ := hmade.bits
      rcases hus with ⟨-, rfl⟩ | ⟨hfull, -⟩
      · rw [hinode]
        exact ⟨b, hmade.fileMade hh h.dir hnumber hledger (lookup_eq_none.mp hnone)⟩
      · exact absurd hroom hfull

/-! ## The deletion -/

/-- The last entry of a directory that has others, when it is deleted: the first block is written, and nothing else. -/
theorem DeleteCall.lastEntry {entries : List (Str × Nat)} (h : DeleteCall fs dir name)
    (hentries : fs.dirEntries (fs.storedInode dir) = entries ++ [(name, ino)]) (hothers : entries ≠ [])
    (habsent : name ∉ entries.map (·.1)) (hr : fs.deleteInodeFromDir (fs.storedInode dir) dir name = .ok (enoer, m, fs')) :
    m = ino ∧ 0 < fs.dirCount dir ∧ ∃ image, fs' = fs.writeBlock (iBlock (fs.storedInode dir) 0) image := by
  have hn : 0 < fs.dirCount dir := dirCount_pos (show name ∈ _ by rw [hentries]; simp)
  have hall := hentries
  rw [dirEntries_first hn] at hall
  by_cases hfirst : ∃ o ∈ fs.firstRecords dir, recName (fs.firstBlock dir) o = name
  · obtain ⟨o, ho, hname⟩ := hfirst
    -- the name is in the first block and nowhere but at the end, so there is no other block
    have hlater : fs.laterEntries dir = [] := by
      rcases eq_nil_or_concat (fs.laterEntries dir) with hnil | ⟨later, e, hlater⟩
      · exact hnil
      · rw [hlater, concat_eq_append, ← append_assoc] at hall
        refine absurd ?_ habsent
        rw [← (append_inj' hall rfl).1, map_append]
        exact mem_append_left _ (hname ▸ mem_map_of_mem (mem_map_of_mem ho))
    rw [hlater, append_nil, blockEntries, ← firstRecords] at hall
    obtain ⟨pre, post, hsplit, hpre, hpost⟩ := map_eq_append_iff.mp hall
    obtain ⟨d, rest, rfl, hd, hrest⟩ := map_eq_cons_iff.mp hpost
    obtain rfl := map_eq_nil_iff.mp hrest
    have hbefore : ∀ o ∈ pre, recName (fs.firstBlock dir) o ≠ name := by
      intro o ho he
      refine habsent ?_
      rw [← hpre, ← he]
      exact mem_map_of_mem (mem_map_of_mem ho)
    have hcall := h.found hn hsplit hbefore (congrArg Prod.fst hd)
    rcases eq_nil_or_concat pre with rfl | ⟨pre', o, rfl⟩
    · exact absurd hpre.symm hothers
    · rw [concat_eq_append] at hsplit hcall
      rw [append_assoc] at hsplit
      rw [getLast?_concat, h.deleteLast hn hsplit, hr] at hcall
      cases hcall
      exact ⟨congrArg Prod.snd hd, hn, _, rfl⟩
  · rw [h.absent hn fun o ho he => hfirst ⟨o, ho, he⟩] at hr
    cases hr

/-- What is left of `ext2_delete` behind the entry: the inode is given back, and then the blocks that the size covers. -/
theorem FileHeld.ext2Delete {entries : List (Str × Nat)} (hf : FileBeside fs1 node.inode ino)
    (h : FileHeld fs1 fs node.inode ino (fs.storedInode ino) x out)
    (hentries : fs1.dirEntries (fs1.storedInode node.inode) = entries ++ [(name, ino)]) (hothers : entries ≠ [])
    (habsent : name ∉ entries.map (·.1)) (hno : NoNul name) (hr : fs.ext2Delete node name = .ok (enoer, fs')) :
    ∃ fs2 fs3, BitmapsKept fs fs2 ∧ BitReleased fs2 fs3 .inodes (ino / fs1.inodesPerGroup) (bitBefore (ino % fs1.inodesPerGroup)) ∧
      fs3.deleteBlocks (fs.storedInode ino) 0 (x.covered fs1) = (enoer, fs') := by
  have hw := h.working hf
  have g := hw.geometry
  obtain ⟨hdir, hsame⟩ := hf.wellFormed.kept hf.working.geometry h.dirKept
  rw [ext2Delete_eq ((hw.opened hdir.dirShape.exists_).readInode hw.heapOk) hdir.dirShape.isDir] at hr
  obtain ⟨⟨ret, m, fs2⟩, hunlink, hr⟩ : ∃ r, fs.deleteInodeFromDir (fs.storedInode node.inode) node.inode name = .ok r ∧
      (if r.1 ≠ enoer then (r.1, r.2.2) else r.2.2.deleteTarget r.2.1) = (enoer, fs') := by
    cases hd : fs.deleteInodeFromDir (fs.storedInode node.inode) node.inode name with
    | error e =>
      rw [hd] at hr
      cases hr
    | ok r =>
      rw [hd] at hr
      exact ⟨r, rfl, Except.ok.inj hr⟩
  have hret : ret = enoer := by
    by_contra hne
    rw [if_pos hne] at hr
    exact hne (Prod.mk.inj hr).1
  subst hret
  rw [if_neg (by simp)] at hr
  have hdot : ¬ (name = pathCurrDir ∨ name = pathUpDir) := by
    intro hdot
    rw [deleteInodeFromDir, if_pos hdot] at hunlink
    cases hunlink
  obtain ⟨rfl, hn, image, rfl⟩ := DeleteCall.lastEntry ⟨hw, hdir, hno, hdot⟩ (hsame.trans hentries) hothers habsent hunlink
  have hused := hdir.dirShape.used 0 hn
  have hs := SameShape.writeBlock fs (iBlock (fs.storedInode node.inode) 0) image
  have hw2 := hw.congr hs
  have hexists2 := (hs.inodeExists m).mpr (h.inodeExists hf)
  rw [deleteTarget, (hw2.opened hexists2).readInode hw2.heapOk, storedInode_writeBlock g hused image (h.inodeExists hf)] at hr
  dsimp only at hr
  split at hr
  · cases hr
  · rcases deleteInode_cases hw2.geometry.bitmapLayout (fs.storedInode m) m with ⟨ret, hret, heq⟩ | ⟨fs3, hreleased, heq⟩
    · rw [heq] at hr
      exact absurd (Prod.mk.inj hr).1 hret
    · have hs1 := h.dirKept.kept.shape.trans hs
      rw [hs1.inodesPerGroup] at hreleased
      refine ⟨_, fs3, bitmapsKept_writeBlock (hused.offBitmaps_physical g) image, hreleased, ?_⟩
      rw [← hr, heq, deletedBlocks, h.size, hs1.blockSize]
      rfl

/-! ## The accounts -/

theorem sameAccounts_iff (hs : SameShape fs fs') : SameAccounts fs fs' ↔ SamePool .blocks fs fs' ∧ SamePool .inodes fs fs' := by
  constructor
  · intro h
    exact ⟨⟨hs, h.bits .blocks, h.counts .blocks⟩, ⟨hs, h.bits .inodes, h.counts .inodes⟩⟩
  · rintro ⟨hblocks, hinodes⟩
    refine ⟨fun pool => ?_, fun pool => ?_⟩
    · cases pool with
      | blocks => exact hblocks.bits
      | inodes => exact hinodes.bits
    · cases pool with
      | blocks => exact hblocks.counts
      | inodes => exact hinodes.counts

/-- A bit is taken, and later another or the same one is cleared. -/
theorem Ledger.released_iff {pool : Pool} (hl : Ledger fs [(pool, i, b)] fs1) (h1 : SamePool pool fs1 fs2)
    (hr : BitReleased fs2 fs3 pool j c) (h3 : SamePool pool fs3 fs') : SamePool pool fs fs' ↔ j = i ∧ c = b := by
  have hs1 := hl.shape
  have hs2 := hs1.trans h1.shape
  have hs3 := hs2.trans hr.shape
  have hbits : ∀ k d, k < fs.groupCount → d < 8 * fs.blockSize →
      (fs'.bit pool k d = true ↔ (fs.bit pool k d = true ∨ k = i ∧ d = b) ∧ ¬ (k = j ∧ d = c)) := by
    intro k d hk hd
    rw [h3.bits k d (by rwa [hs3.groupCount]) (by rwa [hs3.blockSize]), hr.bits pool k d (by rwa [hs2.groupCount]) (by rwa [hs2.blockSize]),
      h1.bits k d (by rwa [hs1.groupCount]) (by rwa [hs1.blockSize]), Bool.and_eq_true, hl.bits hk hd, Bool.not_eq_true',
      decide_eq_false_iff_not]
    simp
  obtain ⟨hi, hb, hclear⟩ := hl.fresh _ mem_cons_self
  constructor
  · intro hsame
    have hbit := hbits i b hi hb
    rw [hsame.bits i b hi hb, hclear] at hbit
    simp only [Bool.false_eq_true, false_or, true_and, and_self, false_iff, not_not] at hbit
    exact ⟨hbit.1.symm, hbit.2.symm⟩
  · rintro ⟨rfl, rfl⟩
    refine ⟨hs3.trans h3.shape, fun k d hk hd => ?_, fun k => ?_⟩
    · rw [Bool.eq_iff_iff, hbits k d hk hd]
      by_cases hsame : k = j ∧ d = c
      · obtain ⟨rfl, rfl⟩ := hsame
        simp [hclear]
      · simp [hsame]
    · have hcount := hl.freeCount pool k
      have hlt : fs.freeCount pool k < 2 ^ 16 := load_lt _ _ 2
      rw [h3.counts]
      by_cases hk : k = j
      · subst hk
        simp only [filter_cons, and_self, decide_true, if_true, filter_nil, length_singleton] at hcount
        rw [hr.counted, h1.counts]
        omega
      · have hne : ¬ j = k := fun he => hk he.symm
        rw [hr.counts pool k fun he => hk (Prod.mk.inj he).2, h1.counts]
        simpa [hne] using hcount

theorem FileMade.blocks (h : FileMade fs fs1 dir name ino b) : SamePool .blocks fs fs1 := by
  refine ⟨h.ledger.shape, fun i c hi hc => ?_, fun i => ?_⟩
  · rw [Bool.eq_iff_iff, h.ledger.bits hi hc]
    simp
  · simpa using h.ledger.freeCount .blocks i

/-- The inode of the file is given back unless it is the last of its group. -/
theorem FileMade.inodes_iff (h : FileMade fs fs1 dir name ino b) (hc : Consistent fs) (h1 : SamePool .inodes fs1 fs2)
    (hr : BitReleased fs2 fs3 .inodes (ino / fs1.inodesPerGroup) (bitBefore (ino % fs1.inodesPerGroup))) (h3 : SamePool .inodes fs3 fs') :
    SamePool .inodes fs fs' ↔ ino % fs.inodesPerGroup ≠ 0 := by
  have g := hc.geometry
  obtain ⟨-, hsmall, -⟩ := g.blockSize_bounds
  obtain ⟨hi, hb, hclear⟩ := h.ledger.fresh _ mem_cons_self
  dsimp only at hi hb hclear
  have hbpg : b < fs.perGroup .inodes := by
    rw [perGroup, g.sameInodes]
    exact hc.freeInodes 0 b hi hb hclear
  have hnumber := releasedBit_iff fs .inodes (i := 0) hbpg (by omega)
  rw [← h.number, perGroup] at hnumber
  rw [h.ledger.released_iff h1 hr h3, h.ledger.shape.inodesPerGroup, hnumber]

/-- The pointers of a file that has lost no block are what is out. -/
theorem FileHeld.perm (h : FileHeld fs1 fs dir ino inode x out) (hlost : x.lost = 0) :
    out.Perm ((List.range x.mapped).map (iBlock inode)) := by
  have hbound := h.bound
  have hnodup : ((range x.mapped).map (iBlock inode)).Nodup := by
    refine List.Nodup.map_on (fun i hi j hj he => ?_) nodup_range
    rw [mem_range] at hi hj
    exact h.file.distinct i j (by omega) (by omega) ((h.mapped i (by omega)).mpr hi) he
  have hsub : (range x.mapped).map (iBlock inode) ⊆ out := by
    intro n hn
    obtain ⟨k, hk, rfl⟩ := mem_map.mp hn
    exact h.pointers k (mem_range.mp hk)
  refine ((hnodup.subperm hsub).perm_of_length_le ?_).symm
  simp [h.length, hlost]

/-- What is out is given back when no block is lost, the size covers those that are mapped, and none is the last of its group. -/
theorem FileHeld.deleteBlocks_iff (hf : FileBeside fs1 dir ino) (h : FileHeld fs1 fs dir ino inode x out)
    (hcovered : x.covered fs1 ≤ ndirBlocks) (hsame : SamePool .blocks fs fs3) (hr : fs3.deleteBlocks inode 0 (x.covered fs1) = (enoer, fs')) :
    SamePool .blocks fs1 fs' ↔ x.Balanced fs1 ∧ ∀ k < x.covered fs1, iBlock inode k % fs1.superBlock.blocksPerGroup ≠ 0 := by
  have g := hf.working.geometry
  have hw := h.working hf
  obtain ⟨-, hsmall, -⟩ := g.blockSize_bounds
  have hout := h.taken.same hsame
  have hs := hout.shape
  constructor
  · intro hback
    -- a block that is out is one of those that the loop gives back
    have hreleased : ∀ n ∈ out, ∃ k < x.covered fs1, iBlock inode k = n ∧ n % fs1.superBlock.blocksPerGroup ≠ 0 := by
      intro n hn
      obtain ⟨i, b, hi, hb, hclear, rfl⟩ := hout.fresh n hn
      obtain ⟨hbpg, -⟩ := hf.free i b hi hb hclear
      have hset : fs3.bit .blocks i b = true := by
        rw [← Bool.not_eq_false]
        exact fun hfalse => ((hout.bits i b hi hb).mp hfalse).2 hn
      by_contra hnone
      have hnot : ∀ k, 0 ≤ k → k < 0 + x.covered fs1 →
          ¬ (iBlock inode k / fs3.superBlock.blocksPerGroup = i ∧ bitBefore (iBlock inode k % fs3.superBlock.blocksPerGroup) = b) := by
        intro k _ hk hbit
        rw [hs.superBlock] at hbit
        have heq : iBlock inode k = fs1.bitNumber .blocks i b := number_of_releasedBit .blocks (load_lt inode _ 4) (by omega) hbit.1 hbit.2
        rw [heq] at hbit
        exact hnone ⟨k, by omega, heq, (releasedBit_iff fs1 .blocks hbpg (by omega)).mp hbit⟩
      have hstill := deleteBlocks_bit (g.bitmapLayout.congr hs) (by omega) (by rwa [hs.groupCount]) (by rwa [hs.blockSize]) hset hnot
      simp [hr, hback.bits i b hi hb, hclear] at hstill
    have hle : out.length ≤ x.covered fs1 := by
      have hsub : out ⊆ (range (x.covered fs1)).map (iBlock inode) := by
        intro n hn
        obtain ⟨k, hk, heq, -⟩ := hreleased n hn
        exact mem_map.mpr ⟨k, mem_range.mpr hk, heq⟩
      have hlen := (hout.distinct.subperm hsub).length_le
      rwa [length_map, length_range] at hlen
    have hmapped : x.covered fs1 ≤ x.mapped := by
      -- the loop fails at a pointer that is not set
      have hreal : ∀ fs', BitsOnly fs3 fs' → ∀ k, 0 ≤ k → k < 0 + x.covered fs1 → fs'.getRealBlock inode k = iBlock inode k :=
        fun fs' _ k _ hk => getRealBlock_direct fs' inode (by omega)
      have hok := ((hw.congr hsame.shape).deleteBlocks 0 (x.covered fs1) hreal).2.mp (congrArg Prod.fst hr)
      by_contra hlt
      exact lt_irrefl _ ((h.mapped x.mapped (by omega)).mp (hok x.mapped (Nat.zero_le _) (by omega)).1)
    have hlength := h.length
    refine ⟨⟨by omega, by omega⟩, fun k hk => ?_⟩
    obtain ⟨-, -, -, hlast⟩ := hreleased _ (h.pointers k (by omega))
    exact hlast
  · rintro ⟨⟨hlost, hmapped⟩, hlast⟩
    have hperm := h.perm hlost
    rw [hmapped, range_eq_range'] at hperm
    exact (hout.perm hperm).deleteBlocks g hf.free (by omega) (fun k _ hk => hlast k (by omega)) hr

/-! ## The whole run -/

theorem SameShape.extent (hs : SameShape fs fs') (ws : List (Nat × Nat)) : fs'.extent ws = fs.extent ws := by
  have hwrite : Extent.write fs' = Extent.write fs := by
    funext x w
    simp only [Extent.write, Extent.grow, Extent.resize, hs.blockSize, hs.sector2Block]
  rw [Ext2.extent, hwrite]
  rfl

theorem SameShape.covered (hs : SameShape fs fs') (x : Extent) : x.covered fs' = x.covered fs := by
  rw [Extent.covered, hs.blockSize]
  rfl

theorem Extent.covered_le (hpos : 0 < fs.blockSize) (hsize : x.size ≤ ndirBlocks * fs.blockSize) : x.covered fs ≤ ndirBlocks := by
  have hdiv := Nat.div_le_div_right (c := fs.blockSize) hsize
  rw [Nat.mul_div_cancel _ hpos] at hdiv
  rw [Extent.covered]
  split
  · rename_i hmod
    refine Nat.lt_of_le_of_ne hdiv fun he => hmod ?_
    have hsplit := Nat.div_add_mod x.size fs.blockSize
    rw [he, mul_comm] at hsplit
    omega
  · exact hdiv

/-- A directory whose last record has room for another has an entry. -/
theorem WellFormedDir.entries_ne_nil (h : WellFormedDir fs dir) (g : Geometry fs) (hroom : fs.LastRoom (fs.storedInode dir) name) :
    fs.dirEntries (fs.storedInode dir) ≠ [] := by
  obtain ⟨k, d, hk, -⟩ := hroom
  obtain ⟨hlo, -⟩ := g.blockSize_bounds
  have hn : 0 < fs.dirCount dir := by
    rw [dirCount, hk]
    exact Nat.succ_pos k
  obtain ⟨ds, o, hds⟩ := (h.firstTiles hn).exists_last (by omega)
  rw [dirEntries_first hn, blockEntries, ← firstRecords, hds]
  simp

/-- A file of the direct blocks that is created, written to and deleted leaves all bitmaps and counters as they were exactly when no write
has overwritten the pointer to a block, the size covers the blocks that have pointers, and neither the inode nor one of these blocks is the
last of its group. -/
theorem space_conserved_iff (hh : Healthy fs) (hdir : WellFormedDir fs node.inode) (hroom : fs.LastRoom (fs.storedInode node.inode) name)
    (hno : NoNul name) (hlen : name.length ≤ 255) (hrun : FileRun fs node name ino ws fs2 fs')
    (hdirect : ∀ w ∈ ws, w.1 + w.2 < ndirBlocks * fs.blockSize) (hsize : (fs.extent ws).size ≤ ndirBlocks * fs.blockSize) :
    SameAccounts fs fs' ↔ (fs.extent ws).Balanced fs ∧ ino % fs.inodesPerGroup ≠ 0 ∧
      ∀ k < (fs.extent ws).covered fs, iBlock (fs2.storedInode ino) k % fs.superBlock.blocksPerGroup ≠ 0 := by
  have g := hh.consistent.geometry
  obtain ⟨hlo, hhi, -, -⟩ := g.blockSize_bounds
  obtain ⟨attr, raw, fs1, file, hcreate, hfind, rfl, hwrites⟩ := hrun.written
  obtain ⟨b, hmade⟩ := hh.fileMade ⟨hdir, Or.inl hroom, hno, hlen⟩ hroom hcreate hfind
  have hf := hmade.beside
  have hs₁ := hmade.ledger.shape
  obtain ⟨out, hheld⟩ := hwrites.held hf (by rwa [hs₁.blockSize]) hmade.held
  rw [← Ext2.extent, hs₁.extent] at hheld
  obtain ⟨fs3, fs4, hkept, hreleased, hblocks⟩ := hheld.ext2Delete hf hmade.entries (hdir.entries_ne_nil g hroom) hmade.absent hno hrun.deleted
  -- the blocks
  have hiff := hheld.deleteBlocks_iff hf (by rw [hs₁.covered]; exact Extent.covered_le (by omega) hsize)
    ((hkept.samePool .blocks).trans (hreleased.samePool (by decide))) hblocks
  rw [Extent.Balanced, hs₁.covered, hs₁.superBlock] at hiff
  -- the inode
  have hs4 := hs₁.trans (hheld.dirKept.kept.shape.trans (hkept.shape.trans hreleased.shape))
  have hdeleted := deleteBlocks_samePool (g.bitmapLayout.congr hs4) (fs2.storedInode file.inode) 0 ((fs.extent ws).covered fs1)
  rw [hblocks] at hdeleted
  have hinode := hmade.inodes_iff hh.consistent (hheld.inodes.trans (hkept.samePool .inodes)) hreleased hdeleted
  have hback : SamePool .blocks fs fs' ↔ SamePool .blocks fs1 fs' := ⟨hmade.blocks.symm.trans, hmade.blocks.trans⟩
  rw [sameAccounts_iff (hs4.trans hdeleted.shape), hback, hiff, hinode, and_right_comm, and_assoc]
  rfl

/-! ## A file in the root directory -/

/-- The file `c` is created in the root directory, its first `n` bytes are written and it is deleted: what the calls return, with the inode
that is found and its first block, and the free blocks at the end. -/
def createWriteDelete (n : Nat) : Except Halt (Int × Option Nat × Int × Nat × Int × Nat) := do
  let (created, fs1) ← smallFs.ext2Create smallNode [0x63] 0 emptyNode
  let file ← fs1.ext2Finddir smallNode [0x63] emptyNode
  let (written, _, fs2) ← fs1.ext2Write ⟨4, 0, 0⟩ 0 n fun _ => 0x78
  let (deleted, fs') ← fs2.ext2Delete smallNode [0x63]
  return (created, file.map (·.inode), written, iBlock (fs2.storedInode 4) 0, deleted, fs'.freeCount .blocks 0)

theorem fileRun_of_createWriteDelete {block free : Nat} (hret : 0 ≤ ret)
    (h : createWriteDelete n = .ok (enoer, some 4, ret, block, enoer, free)) :
    ∃ fs2 fs', FileRun smallFs smallNode [0x63] 4 [(0, n)] fs2 fs' ∧ iBlock (fs2.storedInode 4) 0 = block ∧ fs'.freeCount .blocks 0 = free := by
  obtain ⟨⟨created, fs1⟩, hcreate, h⟩ := bind_eq_ok.mp h
  obtain ⟨found, hfind, h⟩ := bind_eq_ok.mp h
  obtain ⟨⟨written, node', fs2⟩, hwrite, h⟩ := bind_eq_ok.mp h
  obtain ⟨⟨deleted, fs'⟩, hdelete, h⟩ := bind_eq_ok.mp h
  have hvalues := Except.ok.inj h
  simp only [Prod.mk.injEq, Option.map_eq_some_iff] at hvalues
  obtain ⟨rfl, ⟨file, rfl, hino⟩, rfl, hblock, rfl, hfree⟩ := hvalues
  exact ⟨fs2, fs', ⟨⟨0, emptyNode, fs1, file, hcreate, hfind, hino, .cons rfl hwrite hret (.nil fs2)⟩, hdelete⟩, hblock, hfree⟩

theorem smallFs_lastRoom : smallFs.LastRoom (smallFs.storedInode smallNode.inode) [0x63] := ⟨0, 12, by decide, by decide, by decide⟩

/-- One byte is written. The inode is 4 and the block is 8, and both are free again. -/
theorem space_conserved_oneByte : ∃ fs2 fs', FileRun smallFs smallNode [0x63] 4 [(0, 1)] fs2 fs' ∧ SameAccounts smallFs fs' := by
  have heval : createWriteDelete 1 = .ok (enoer, some 4, 1, 8, enoer, 9) := by decide +kernel
  obtain ⟨fs2, fs', hrun, hblock, -⟩ := fileRun_of_createWriteDelete (by decide) heval
  refine ⟨fs2, fs', hrun, (space_conserved_iff smallFs_healthy smallFs_root smallFs_lastRoom (by decide) (by decide) hrun (by decide)
    (by decide)).mpr ⟨by decide, by decide, fun k hk => ?_⟩⟩
  obtain rfl : k = 0 := by
    rw [show (smallFs.extent [(0, 1)]).covered smallFs = 1 by decide] at hk
    omega
  rw [hblock]
  decide

/-- One block is written. The write takes two, and the deletion gives back the one that the size covers. -/
theorem full_block_leaks : ∃ fs2 fs', Healthy smallFs ∧ WellFormedDir smallFs smallNode.inode ∧
    smallFs.LastRoom (smallFs.storedInode smallNode.inode) [0x63] ∧ FileRun smallFs smallNode [0x63] 4 [(0, 1024)] fs2 fs' ∧
    smallFs.freeCount .blocks 0 = 9 ∧ fs'.freeCount .blocks 0 = 8 ∧ ¬ SameAccounts smallFs fs' := by
  have heval : createWriteDelete 1024 = .ok (enoer, some 4, 1024, 8, enoer, 8) := by decide +kernel
  obtain ⟨fs2, fs', hrun, -, hfree⟩ := fileRun_of_createWriteDelete (by decide) heval
  have hbefore : smallFs.freeCount .blocks 0 = 9 := by decide
  refine ⟨fs2, fs', smallFs_healthy, smallFs_root, smallFs_lastRoom, hrun, hbefore, hfree, fun h => ?_⟩
  have hsame := h.counts .blocks 0
  rw [hfree, hbefore] at hsame
  cases hsame

end OmegaOS
