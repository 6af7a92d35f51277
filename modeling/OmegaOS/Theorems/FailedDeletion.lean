import OmegaOS.Theorems.DirectoryDelete

/-!
# Deletions that fail

`ext2_delete` takes the entry out of the directory first and looks at the file afterwards. So whenever the file turns out not to be one that
can be deleted, the call fails and the entry is gone.
-/

namespace OmegaOS

open ByteMem CStr List Ext2

variable {fs fs' fs1 : Ext2} {ino d n : Nat} {name : Str} {node : VfsNode} {pre post : List Nat} {image : Mem}

/-! ## The entry is gone -/

/-- What a successful `deleteInodeFromDir` does to the disk: it writes to the first block of the directory or to its inode, and something
changes there. -/
structure EntryGone (fs fs1 : Ext2) (ino : Nat) : Prop where
  shape : SameShape fs fs1
  disk : ∀ q, OffBitmaps fs q → q ≠ iBlock (fs.storedInode ino) 0 → q ≠ fs.inodeBlock ino → fs1.disk q = fs.disk q
  mode : iMode (fs1.storedInode ino) = iMode (fs.storedInode ino)
  inodes : ∀ n, fs.InodeExists n → Ext2.inodeNumber n ≠ Ext2.inodeNumber ino → fs1.storedInode n = fs.storedInode n
  changed : ∃ q, OffBitmaps fs q ∧ fs1.disk q ≠ fs.disk q

theorem WellFormedDir.unlinked (h : WellFormedDir fs ino) (g : Geometry fs) (hn : 0 < fs.dirCount ino)
    (hchanged : ¬ ∀ x < fs.blockSize, image x = fs.firstBlock ino x) :
    EntryGone fs (fs.writeBlock (iBlock (fs.storedInode ino) 0) image) ino := by
  have hused := h.dirShape.used 0 hn
  refine ⟨SameShape.writeBlock .., fun q _ hq _ => disk_writeBlock_ne fs _ image (by rwa [hused.physical g]), ?_,
    fun n hn _ => storedInode_writeBlock g hused image hn, _, hused.offBitmaps, fun he => hchanged fun x hx => ?_⟩
  · rw [storedInode_writeBlock g hused image h.dirShape.exists_]
  · rw [← disk_writeBlock_inside fs (hused.physical g) image hx, he, firstBlock, h.dirShape.dirBlock g hn]

theorem BlockDropped.unlinked (hd : BlockDropped fs fs1 ino) (h : DirShape fs ino (n + 1)) (g : Geometry fs) : EntryGone fs fs1 ino := by
  obtain ⟨hsize, -, hmode, -⟩ := h.shrunk g
  refine ⟨hd.shape, fun q hq _ hblock => hd.disk q hq hblock, by rw [hd.stored, hmode], hd.inodes, fs.inodeBlock ino,
    ⟨g.inodeBlock_ne_descriptors h.exists_, fun pool i hi => g.inodeBlock_ne_bitmap h.exists_ pool hi⟩, fun he => ?_⟩
  have hsame := storedInode_congr hd.shape he
  rw [hd.stored] at hsame
  rw [hsame, h.size, Nat.mul_succ] at hsize
  obtain ⟨hlo, -⟩ := g.blockSize_bounds
  omega

theorem FirstOf.after (hf : FirstOf fs ino name pre d post) (hnd : ((fs.dirEntries (fs.storedInode ino)).map (·.1)).Nodup) :
    ∀ p ∈ post, recName (fs.firstBlock ino) p ≠ recName (fs.firstBlock ino) d := by
  intro p hp he
  rw [hf.entries, map_append, map_cons] at hnd
  refine (nodup_cons.mp (nodup_append.mp hnd).2.1).1 ?_
  rw [show (entryAt (fs.firstBlock ino) d).1 = (entryAt (fs.firstBlock ino) p).1 from he.symm, map_append]
  exact mem_append_left _ (mem_map_of_mem (mem_map_of_mem hp))

/-- The first record of the name can be deleted, unless its block has to be given back and cannot be. -/
theorem DeleteCall.unlinks (h : DeleteCall fs ino name) (hf : FirstOf fs ino name pre d post)
    (hnd : ((fs.dirEntries (fs.storedInode ino)).map (·.1)).Nodup)
    (hblock : recLen (fs.firstBlock ino) d = fs.blockSize → iBlock (fs.storedInode ino) 0 / fs.superBlock.blocksPerGroup < fs.groupCount) :
    ∃ fs1, fs.deleteInodeFromDir (fs.storedInode ino) ino name = .ok (enoer, dirInode (fs.firstBlock ino) d, fs1) ∧
      EntryGone fs fs1 ino := by
  have g := h.working.geometry
  have hcall := h.found hf.blocks hf.split hf.before hf.hit
  rcases h.places hf with ⟨rfl, rfl, rfl, hlen⟩ | ⟨pre', o, rfl, rfl, -, -⟩ | hlt
  · obtain ⟨n, hn⟩ := Nat.exists_eq_add_one_of_ne_zero (Nat.ne_of_gt hf.blocks)
    rcases h.deleteOnly hf.blocks hlen none with ⟨hgroup, -⟩ | ⟨-, fs1, hrun, hdropped⟩
    · have := hblock hlen
      omega
    · rw [getLast?_nil, hrun] at hcall
      exact ⟨fs1, hcall, hdropped.unlinked (hn ▸ h.dir.dirShape) g⟩
  · have hsplit : fs.firstRecords ino = pre' ++ [o, d] := by rw [hf.split, append_assoc]; rfl
    rw [getLast?_concat, h.deleteLast hf.blocks hsplit] at hcall
    exact ⟨_, hcall, h.dir.unlinked g hf.blocks (removeLast_changes (hsplit ▸ h.dir.firstTiles hf.blocks))⟩
  · obtain ⟨o, hwalk, hchanged⟩ := removeMiddle_changes (h.tiles hf) hlt (hf.after hnd)
    rw [h.deleteMiddle hf.blocks hlt hwalk] at hcall
    exact ⟨_, hcall, h.dir.unlinked g hf.blocks hchanged⟩

/-! ## The file -/

/-- The part of `ext2_delete` behind `deleteInodeFromDir`. -/
def Ext2.deleteTarget (fs : Ext2) (cino : Nat) : Int × Ext2 :=
  match fs.readInode cino with
  | none => (enoent, fs)
  | some cInode => if inodeDir cInode then (eisdir, fs) else fs.deleteInode cInode cino

theorem ext2Delete_eq {parentInode : Mem} (hread : fs.readInode node.inode = some parentInode) (hdir : inodeDir parentInode = true) :
    fs.ext2Delete node name = (fs.deleteInodeFromDir parentInode node.inode name).map
      fun r => if r.1 ≠ enoer then (r.1, r.2.2) else r.2.2.deleteTarget r.2.1 := by
  unfold ext2Delete
  simp only [hread, hdir, Bool.not_true, Bool.false_eq_true, if_false, bind, Except.bind, pure, Except.pure]
  cases fs.deleteInodeFromDir parentInode node.inode name with
  | error e => rfl
  | ok r =>
    obtain ⟨ret, n, fs1⟩ := r
    dsimp only [Except.map]
    split
    · rfl
    · rw [deleteTarget]
      cases fs1.readInode n with
      | none => rfl
      | some cInode => exact (apply_ite Except.ok _ _ _).symm

/-- A step that writes to bitmaps and to the descriptors only. -/
structure BitsOnly (fs fs' : Ext2) : Prop where
  shape : SameShape fs fs'
  disk : ∀ q, OffBitmaps fs q → fs'.disk q = fs.disk q

theorem BitsOnly.refl (fs : Ext2) : BitsOnly fs fs := ⟨.refl fs, fun _ _ => rfl⟩

theorem BitsOnly.trans {fs'' : Ext2} (h : BitsOnly fs fs') (h' : BitsOnly fs' fs'') : BitsOnly fs fs'' :=
  ⟨h.shape.trans h'.shape, fun q hq => (h'.disk q ((h.shape.offBitmaps q).mpr hq)).trans (h.disk q hq)⟩

theorem BitReleased.bitsOnly {pool : Pool} (h : BitReleased fs fs' pool j b) : BitsOnly fs fs' :=
  ⟨h.shape, fun q hq => h.disk q (hq.2 pool j h.group) hq.1⟩

/-- A block number that `deleteBlockBuffer` accepts. -/
def Releasable (fs : Ext2) (b : Nat) : Prop := b ≠ 0 ∧ b / fs.superBlock.blocksPerGroup < fs.groupCount

theorem Working.deleteBlockBuffer (hw : Working fs) (b : Nat) :
    (Releasable fs b ∧ ∃ fs', fs.deleteBlockBuffer b = (enoer, fs') ∧ BitsOnly fs fs') ∨
      ¬ Releasable fs b ∧ ∃ ret, ret ≠ enoer ∧ fs.deleteBlockBuffer b = (ret, fs) := by
  by_cases hok : Releasable fs b
  · obtain ⟨fs', heq, hreleased⟩ := deleteBlockBuffer_released hw.geometry.bitmapLayout hok.1 hok.2 (hw.readable _)
    exact .inl ⟨hok, fs', heq, hreleased.bitsOnly⟩
  · refine .inr ⟨hok, ?_⟩
    by_cases h0 : b = 0
    · exact ⟨eio, by decide, by rw [Ext2.deleteBlockBuffer, if_pos h0]⟩
    · exact ⟨eperm, by decide, deleteBlockBuffer_eperm h0 (Nat.le_of_not_lt fun hlt => hok ⟨h0, hlt⟩)⟩

/-- The loop over the blocks of a file succeeds when it can give all of them back. -/
theorem Working.deleteBlocks (hw : Working fs) {inode : Mem} {real : Nat → Nat} (block fuel : Nat)
    (hreal : ∀ fs', BitsOnly fs fs' → ∀ k, block ≤ k → k < block + fuel → fs'.getRealBlock inode k = real k) :
    BitsOnly fs (fs.deleteBlocks inode block fuel).2 ∧
      ((fs.deleteBlocks inode block fuel).1 = enoer ↔ ∀ k, block ≤ k → k < block + fuel → Releasable fs (real k)) := by
  induction fuel generalizing fs block with
  | zero => exact ⟨.refl fs, fun _ k hlo hhi => by omega, fun _ => rfl⟩
  | succ fuel ih =>
    have hfirst := hreal fs (.refl fs) block .refl (by omega)
    rw [deleteBlocks, hfirst]
    rcases hw.deleteBlockBuffer (real block) with ⟨hok, fs1, heq, hbits⟩ | ⟨hnot, ret, hret, heq⟩
    · obtain ⟨hbits', hiff⟩ := ih (hw.congr hbits.shape) (block + 1)
        fun fs' hb k hlo hhi => hreal fs' (hbits.trans hb) k (by omega) (by omega)
      rw [heq]
      dsimp only
      rw [if_neg (by simp)]
      refine ⟨hbits.trans hbits', hiff.trans ?_⟩
      unfold Releasable
      rw [hbits.shape.superBlock, hbits.shape.groupCount]
      constructor
      · intro hall k hlo hhi
        rcases Nat.eq_or_lt_of_le hlo with rfl | hlt
        · exact hok
        · exact hall k hlt (by omega)
      · intro hall k hlo hhi
        exact hall k (by omega) (by omega)
    · rw [heq]
      dsimp only
      rw [if_pos hret]
      exact ⟨.refl fs, fun h => absurd h hret, fun hall => absurd (hall block .refl (by omega)) hnot⟩

/-- A file that can be deleted: it is there, is no directory, and the driver finds groups for its number and for its blocks. -/
def TargetDeletable (fs : Ext2) (n : Nat) : Prop :=
  fs.InodeExists n ∧ inodeDir (fs.storedInode n) = false ∧ n / fs.inodesPerGroup < fs.groupCount ∧
    ∀ k < fs.deletedBlocks (fs.storedInode n), Releasable fs (fs.getRealBlock (fs.storedInode n) k)

/-- The tables of the file `n` are neither bitmaps nor descriptors, and not in the first block of the directory or with its inode. -/
def TablesApart (fs : Ext2) (ino n : Nat) : Prop :=
  ∀ fs', SameShape fs fs' →
    (∀ q, OffBitmaps fs q → q ≠ iBlock (fs.storedInode ino) 0 → q ≠ fs.inodeBlock ino → fs'.disk q = fs.disk q) →
    ∀ k < fs.deletedBlocks (fs.storedInode n), fs'.getRealBlock (fs.storedInode n) k = fs.getRealBlock (fs.storedInode n) k

/-- Taking out the entry leaves whether an inode is a directory. -/
theorem EntryGone.sameDir (hu : EntryGone fs fs1 ino) (hn : fs.InodeExists n) : inodeDir (fs1.storedInode n) = inodeDir (fs.storedInode n) := by
  by_cases hnumber : inodeNumber n = inodeNumber ino
  · rw [storedInode_number hnumber, storedInode_number hnumber, inodeDir_congr hu.mode]
  · rw [hu.inodes n hn hnumber]

/-- Behind the entry, the file is deleted if it can be; in any case nothing but bitmaps and descriptors is written. -/
theorem EntryGone.deleteTarget (hu : EntryGone fs fs1 ino) (hw : Working fs) (hdir : inodeDir (fs.storedInode ino) = true)
    (hapart : TablesApart fs ino n) : BitsOnly fs1 (fs1.deleteTarget n).2 ∧ ((fs1.deleteTarget n).1 = enoer ↔ TargetDeletable fs n) := by
  have hw1 := hw.congr hu.shape
  rw [Ext2.deleteTarget]
  by_cases hn : fs.InodeExists n
  · have hn1 : fs1.InodeExists n := (hu.shape.inodeExists n).mpr hn
    rw [(hw1.opened hn1).readInode hw1.heapOk]
    dsimp only
    rw [hu.sameDir hn]
    cases hd : inodeDir (fs.storedInode n) with
    | true => exact ⟨.refl fs1, fun h => absurd (show eisdir = enoer from h) (by decide), fun h => absurd (h.2.1.symm.trans hd) (by decide)⟩
    | false =>
      have hne : Ext2.inodeNumber n ≠ Ext2.inodeNumber ino := by
        intro he
        simp [storedInode_number he, hdir] at hd
      rw [hu.inodes n hn hne, if_neg (by decide)]
      rcases Nat.lt_or_ge (n / fs.inodesPerGroup) fs.groupCount with hgroup | hgroup
      · obtain ⟨fs2, hreleased, heq⟩ := deleteInode_eq hw1.geometry.bitmapLayout hw1.heapOk
          (by rwa [hu.shape.inodesPerGroup, hu.shape.groupCount]) (hw1.readable _)
        have hbits := hreleased.bitsOnly
        have hcount : fs1.deletedBlocks (fs.storedInode n) = fs.deletedBlocks (fs.storedInode n) := by
          rw [Ext2.deletedBlocks, hu.shape.blockSize]
          rfl
        obtain ⟨hbits', hiff⟩ := (hw1.congr hbits.shape).deleteBlocks 0 (fs.deletedBlocks (fs.storedInode n))
          fun fs' hb k _ hk => hapart fs' (hu.shape.trans (hbits.trans hb).shape)
            (fun q hq hfirst hblock => ((hbits.trans hb).disk q ((hu.shape.offBitmaps q).mpr hq)).trans (hu.disk q hq hfirst hblock)) k
            (by omega)
        rw [heq, hcount]
        refine ⟨hbits.trans hbits', hiff.trans ?_⟩
        unfold Releasable TargetDeletable Releasable
        rw [hbits.shape.superBlock, hbits.shape.groupCount, hu.shape.superBlock, hu.shape.groupCount]
        exact ⟨fun hall => ⟨hn, hd, hgroup, fun k hk => hall k (Nat.zero_le k) (by omega)⟩, fun h k _ hk => h.2.2.2 k (by omega)⟩
      · rw [deleteInode_eperm hw1.heapOk (by rwa [hu.shape.inodesPerGroup, hu.shape.groupCount])]
        exact ⟨.refl fs1, fun h => absurd (show eperm = enoer from h) (by decide), fun h => absurd h.2.2.1 (Nat.not_lt.mpr hgroup)⟩
  · have hnone : fs1.readInode n = none := by
      rw [Ext2.readInode, if_pos (Nat.le_of_not_lt fun hlt => hn ((hu.shape.inodeExists n).mp hlt))]
    rw [hnone]
    exact ⟨.refl fs1, fun h => absurd (show enoent = enoer from h) (by decide), fun h => absurd h.1 hn⟩

/-! ## Failures that change nothing -/

/-- Whenever the deletion fails, the disk and the descriptors in memory are as before. -/
def FailsUnchanged (fs : Ext2) (node : VfsNode) (name : Str) : Prop :=
  ∀ ret fs', fs.ext2Delete node name = .ok (ret, fs') → ret ≠ enoer → fs'.disk = fs.disk ∧ fs'.groups = fs.groups

/-- The record at `d` is that of the name, and `ext2_delete` takes it out of the directory before it looks at the file. -/
structure Unlinkable (fs : Ext2) (ino : Nat) (name : Str) (d : Nat) : Prop where
  exists_ : fs.InodeExists ino
  isDir : inodeDir (fs.storedInode ino) = true
  notDot : ¬ (name = Ext2.pathCurrDir ∨ name = Ext2.pathUpDir)
  blocks : 0 < fs.dirCount ino
  record : d ∈ fs.firstRecords ino
  hit : recName (fs.firstBlock ino) d = name
  block : recLen (fs.firstBlock ino) d = fs.blockSize → iBlock (fs.storedInode ino) 0 / fs.superBlock.blocksPerGroup < fs.groupCount

/-- The call takes out the entry and fails or succeeds with the file. -/
theorem Unlinkable.ext2Delete (hu : Unlinkable fs node.inode name d) (hw : Working fs) (h : WellFormedDir fs node.inode)
    (hnd : ((fs.dirEntries (fs.storedInode node.inode)).map (·.1)).Nodup) (hname : NoNul name) :
    ∃ fs1, EntryGone fs fs1 node.inode ∧ fs.ext2Delete node name = .ok (fs1.deleteTarget (dirInode (fs.firstBlock node.inode) d)) := by
  obtain ⟨pre, post, hf⟩ := exists_firstOf hu.blocks hnd hu.record hu.hit
  obtain ⟨fs1, hrun, hunlinked⟩ := DeleteCall.unlinks ⟨hw, h, hname, hu.notDot⟩ hf hnd hu.block
  refine ⟨fs1, hunlinked, ?_⟩
  rw [ext2Delete_eq ((hw.opened hu.exists_).readInode hw.heapOk) hu.isDir, hrun]
  rfl

/-- Without such a record nothing is written. -/
theorem ext2Delete_unchanged (hw : Working fs) (hdir : fs.InodeExists node.inode → inodeDir (fs.storedInode node.inode) = true →
      WellFormedDir fs node.inode ∧ ((fs.dirEntries (fs.storedInode node.inode)).map (·.1)).Nodup) (hname : NoNul name)
    (hnone : ∀ d, ¬ Unlinkable fs node.inode name d) {ret : Int} (hrun : fs.ext2Delete node name = .ok (ret, fs')) : fs' = fs := by
  by_cases hex : fs.InodeExists node.inode
  · have hread := (hw.opened hex).readInode hw.heapOk
    cases hd : inodeDir (fs.storedInode node.inode) with
    | false =>
      rw [ext2Delete, hread] at hrun
      simp only [hd, Bool.not_false, if_true] at hrun
      cases hrun
      rfl
    | true =>
      obtain ⟨h, hnd⟩ := hdir hex hd
      rw [ext2Delete_eq hread hd] at hrun
      by_cases hdot : name = pathCurrDir ∨ name = pathUpDir
      · rw [deleteInodeFromDir, if_pos hdot] at hrun
        cases hrun
        rfl
      · have hcall : DeleteCall fs node.inode name := ⟨hw, h, hname, hdot⟩
        rcases Nat.eq_zero_or_pos (fs.dirCount node.inode) with hzero | hn
        · rw [hcall.empty hzero] at hrun
          cases hrun
        · by_cases hfirst : ∃ d ∈ fs.firstRecords node.inode, recName (fs.firstBlock node.inode) d = name
          · -- the only record of a block that cannot be given back
            obtain ⟨d, hmem, hhit⟩ := hfirst
            obtain ⟨pre, post, hf⟩ := exists_firstOf hn hnd hmem hhit
            by_cases hblock : recLen (fs.firstBlock node.inode) d = fs.blockSize →
                iBlock (fs.storedInode node.inode) 0 / fs.superBlock.blocksPerGroup < fs.groupCount
            · exact absurd ⟨hex, hd, hdot, hn, hmem, hhit, hblock⟩ (hnone d)
            · obtain ⟨hlen, hgroup⟩ := Classical.not_imp.mp hblock
              rcases hcall.places hf with ⟨rfl, rfl, rfl, -⟩ | ⟨_, _, -, -, hpos, hend⟩ | hlt
              · rcases hcall.deleteOnly hn hlen none with ⟨-, heq⟩ | ⟨hlt, -⟩
                · rw [hcall.found hn hf.split hf.before hf.hit, getLast?_nil, heq] at hrun
                  cases hrun
                  rfl
                · exact absurd hlt hgroup
              · omega
              · omega
          · rw [hcall.absent hn fun o ho he => hfirst ⟨o, ho, he⟩] at hrun
            cases hrun
            rfl
  · rw [ext2Delete, readInode, if_pos (Nat.le_of_not_lt hex)] at hrun
    cases hrun
    rfl

/-- A deletion that fails changes nothing exactly when the entry that it takes out first is that of a file that can be deleted. -/
theorem failed_delete_unchanged_iff (hw : Working fs) (hdir : fs.InodeExists node.inode → inodeDir (fs.storedInode node.inode) = true →
      WellFormedDir fs node.inode ∧ ((fs.dirEntries (fs.storedInode node.inode)).map (·.1)).Nodup) (hname : NoNul name)
    (hapart : ∀ d, Unlinkable fs node.inode name d → TablesApart fs node.inode (dirInode (fs.firstBlock node.inode) d)) :
    FailsUnchanged fs node name ↔
      ∀ d, Unlinkable fs node.inode name d → TargetDeletable fs (dirInode (fs.firstBlock node.inode) d) := by
  constructor
  · intro hfails d hu
    obtain ⟨h, hnd⟩ := hdir hu.exists_ hu.isDir
    obtain ⟨fs1, hunlinked, hrun⟩ := hu.ext2Delete hw h hnd hname
    obtain ⟨hbits, hiff⟩ := hunlinked.deleteTarget hw hu.isDir (hapart d hu)
    generalize fs1.deleteTarget (dirInode (fs.firstBlock node.inode) d) = r at hrun hbits hiff
    by_contra hnot
    -- what was written to the directory is still there
    obtain ⟨q, hq, hchanged⟩ := hunlinked.changed
    obtain ⟨hdisk, -⟩ := hfails r.1 r.2 hrun fun he => hnot (hiff.mp he)
    exact hchanged (by rw [← hbits.disk q ((hunlinked.shape.offBitmaps q).mpr hq), hdisk])
  · intro hdeletable ret fs' hrun hret
    by_cases hsome : ∃ d, Unlinkable fs node.inode name d
    · obtain ⟨d, hu⟩ := hsome
      obtain ⟨h, hnd⟩ := hdir hu.exists_ hu.isDir
      obtain ⟨fs1, hunlinked, hrun'⟩ := hu.ext2Delete hw h hnd hname
      have hok := (hunlinked.deleteTarget hw hu.isDir (hapart d hu)).2.mpr (hdeletable d hu)
      rw [hrun] at hrun'
      rw [← Except.ok.inj hrun'] at hok
      exact absurd hok hret
    · rw [ext2Delete_unchanged hw hdir hname (fun d hu => hsome ⟨d, hu⟩) hrun]
      exact ⟨rfl, rfl⟩

theorem failed_delete_unchanged_absent :
    (smallFs.ext2Delete smallNode [0x7A]).map (·.1) = .ok enoent ∧ FailsUnchanged smallFs smallNode [0x7A] := by
  have hrecords : smallFs.firstRecords 2 = [0, 12] := by decide
  have hnone : ∀ d, ¬ Unlinkable smallFs smallNode.inode [0x7A] d := by
    intro d hu
    have hd : d ∈ [0, 12] := hrecords ▸ hu.record
    have hnames : ∀ d ∈ [0, 12], recName (smallFs.firstBlock 2) d ≠ [0x7A] := by decide
    exact hnames d hd hu.hit
  have hnd : ((smallFs.dirEntries (smallFs.storedInode 2)).map (·.1)).Nodup := by decide
  exact ⟨by decide, (failed_delete_unchanged_iff smallFs_working (fun _ _ => ⟨smallFs_root, hnd⟩) (by decide)
    fun d hu => absurd hu (hnone d)).mpr fun d hu => absurd hu (hnone d)⟩

/-! ## The name of a directory -/

/-- The filesystem with a directory `s`, which has the inode 4 and no blocks, beside the file `a`. -/
def subdirFs : Ext2 :=
  (smallFs.writeInode 4 (smallInode iDir 0 0)).2.writeBlock 6 (writeRecord (writeRecord (fun _ => 0) 0 3 [0x61] 12 1) 12 4 [0x73] 1012 2)

theorem subdirFs_healthy : Working subdirFs ∧ WellFormedDir subdirFs 2 := by
  obtain ⟨fs1, hwrite, hwritten⟩ := (smallFs_working.opened (show smallFs.InodeExists 4 by decide)).writeInode (smallInode iDir 0 0)
  have hkept := smallFs_root.dirShape.inodeWritten smallFs_geometry (by decide) (by decide) hwritten
  have hw1 := smallFs_working.congr hwritten.shape
  obtain ⟨hdir, -⟩ := smallFs_root.kept smallFs_geometry hkept
  have hblock : iBlock (fs1.storedInode 2) 0 = 6 := by
    rw [show fs1.storedInode 2 = smallFs.storedInode 2 from hkept.stored]
    decide
  have hfs : subdirFs = fs1.writeBlock (iBlock (fs1.storedInode smallNode.inode) 0)
      (writeRecord (writeRecord (fun _ => 0) 0 3 [0x61] 12 1) 12 4 [0x73] 1012 2) := by
    rw [smallNode, hblock, subdirFs, hwrite]
  have hcount : 0 < fs1.dirCount smallNode.inode := by
    rw [hkept.dirCount]
    decide
  refine ⟨hfs ▸ hw1.congr (SameShape.writeBlock ..), (hdir.replaceFirst hw1.geometry hcount hfs).1.mpr ?_⟩
  rw [hwritten.shape.blockSize]
  decide

/-- The deletion of the directory `s` fails with `EISDIR`, and the entry is gone: the record before it fills the block. -/
theorem directory_entry_lost : Working subdirFs ∧ WellFormedDir subdirFs 2 ∧ inodeDir (subdirFs.storedInode 4) = true ∧
      subdirFs.dirEntries (subdirFs.storedInode 2) = [([0x61], 3), ([0x73], 4)] ∧
      (subdirFs.ext2Delete smallNode [0x73]).map (fun r => (r.1, r.2.dirEntries (r.2.storedInode 2))) = .ok (eisdir, [([0x61], 3)]) ∧
      ¬ FailsUnchanged subdirFs smallNode [0x73] := by
  have hrun : (subdirFs.ext2Delete smallNode [0x73]).map (fun r => (r.1, r.2.disk 6 4)) = .ok (eisdir, 0) := by decide
  refine ⟨subdirFs_healthy.1, subdirFs_healthy.2, by decide, by decide, by decide, fun hfails => ?_⟩
  obtain ⟨⟨ret, fs'⟩, heq, hvalues⟩ := map_eq_ok hrun
  obtain ⟨hret, hbyte⟩ := Prod.mk.inj hvalues
  have hsame := (hfails ret fs' heq (by rw [show ret = eisdir from hret]; decide)).1
  rw [show fs'.disk 6 4 = subdirFs.disk 6 4 by rw [hsame]] at hbyte
  exact absurd hbyte (by decide)

end OmegaOS
