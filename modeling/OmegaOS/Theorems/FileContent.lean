import OmegaOS.Lemmas.Ext2Content
import OmegaOS.Theorems.DirectoryCreate

/-!
# The content of a file in the direct blocks

`ext2_write` splices the buffer into the file and sets the size of one that has grown. `allocateBlock` adds a block to the size as well,
and this is taken back only when the file has grown: a write that ends in a block for which the inode counts no sectors, but not behind
the end of the file, leaves the file a block longer.
-/

namespace OmegaOS

open ByteMem Splice Ext2

variable {fs fs' fs1 : Ext2} {ino offset n : Nat} {node node' : VfsNode} {buffer : Mem} {ret w : Int}

/-! ## Files and runs -/

/-- An empty regular file, in a filesystem that shows none of its own blocks free, on a drive that works. -/
structure EmptyFile (fs : Ext2) (ino : Nat) : Prop where
  working : Working fs
  free : FreeOk fs
  group : fs.inodeGroup ino < fs.groupCount
  regular : inodeFile (fs.storedInode ino) = true
  size : iSize (fs.storedInode ino) = 0
  sectors : iSectors (fs.storedInode ino) = 0
  pointers : ∀ k ≤ ndirBlocks, iBlock (fs.storedInode ino) k = 0

/-- The states that writes to the direct blocks lead to from an empty file. Some of them may have failed for want of a free block. -/
inductive WriteRun (ino : Nat) : Ext2 → Prop
  | empty {fs : Ext2} (h : EmptyFile fs ino) : WriteRun ino fs
  | write {fs fs' : Ext2} {node node' : VfsNode} {offset n : Nat} {buffer : Mem} {ret : Int} (h : WriteRun ino fs) (hnode : node.inode = ino)
      (hend : offset + n ≤ ndirBlocks * fs.blockSize) (hr : fs.ext2Write node offset n buffer = .ok (ret, node', fs')) : WriteRun ino fs'

/-- What a write is to do: it returns the number of bytes, the file has the size that it had or ends with the range, its bytes are spliced,
and any read inside it returns them. -/
def ContentLaw (fs : Ext2) (node : VfsNode) (offset n : Nat) (buffer : Mem) : Prop :=
  ∃ node' fs', fs.ext2Write node offset n buffer = .ok ((n : Int), node', fs') ∧
    iSize (fs'.storedInode node.inode) = max (iSize (fs.storedInode node.inode)) (offset + n) ∧
    (∀ x < iSize (fs'.storedInode node.inode), fs'.fileByte (fs'.storedInode node.inode) x =
      splice (fs.fileByte (fs.storedInode node.inode)) buffer offset n x) ∧
    ∀ o m buf, o + m ≤ iSize (fs'.storedInode node.inode) → ∃ node'' buf', fs'.ext2Read node' o m buf = ((m : Int), node'', buf') ∧
      ∀ x < m, buf' x = splice (fs.fileByte (fs.storedInode node.inode)) buffer offset n (o + x)

/-- The inode is short of a block of the range, though the file does not grow. -/
def ShortInside (fs : Ext2) (ino offset n : Nat) : Prop :=
  fs.sector2Block (iSectors (fs.storedInode ino)) ≤ (offset + n) / fs.blockSize ∧ offset + n ≤ iSize (fs.storedInode ino)

/-! ## One write -/

/-- A regular file in the direct blocks. -/
structure DirectFile (fs : Ext2) (ino : Nat) : Prop where
  working : Working fs
  free : FreeOk fs
  group : fs.inodeGroup ino < fs.groupCount
  regular : inodeFile (fs.storedInode ino) = true
  file : FileOk fs (fs.storedInode ino) fun _ => True

theorem EmptyFile.directFile (h : EmptyFile fs ino) : DirectFile fs ino := ⟨h.working, h.free, h.group, h.regular,
    (fileOk_empty h.working.geometry (isImage_storedInode fs ino) h.size h.sectors h.pointers fun _ _ => trivial).1⟩

/-- The state is another, with the same inode or one that is written to its place. -/
theorem DirectFile.mono (h : DirectFile fs ino) (hk : Kept fs fs') (hfile : FileOk fs' (fs'.storedInode ino) fun _ => True)
    (hmode : iMode (fs'.storedInode ino) = iMode (fs.storedInode ino)) : DirectFile fs' ino := by
  refine ⟨h.working.congr hk.shape, hk.freeOk h.free, ?_, ?_, hfile⟩
  · rw [hk.shape.inodeGroup, hk.shape.groupCount]
    exact h.group
  · rw [inodeFile, hmode]
    exact h.regular

/-- `ext2_write` is its rounds and then its end. -/
theorem DirectFile.ext2Write_eq (h : DirectFile fs node.inode) (hoff : offset ≤ iSize (fs.storedInode node.inode))
    (hend : offset + n ≤ ndirBlocks * fs.blockSize) (buffer : Mem) :
    ∃ (done : Bool) (inode' : Mem) (written : Nat) (fs' : Ext2), fs.ext2Write node offset n buffer =
        .ok (fs'.finishWrite node inode' offset (iSize (fs.storedInode node.inode)) (if done = true then (written : Int) else -eio)) ∧
      RoundsKept fs (fs.storedInode node.inode) node.inode (fun _ => True) fs' inode' ∧
      (Room fs ((offset + n) / fs.blockSize + 1 - fs.sector2Block (iSectors (fs.storedInode node.inode))) → done = true) ∧
      (done = true → written = n ∧ RoundsDone fs (fs.storedInode node.inode) ((offset + n) / fs.blockSize)
        (splice (fs.fileByte (fs.storedInode node.inode)) buffer offset n) fs' inode') := by
  obtain ⟨hsize, hsmall, -⟩ := h.working.geometry.direct_range hend
  have hfits : offset + n < 2 ^ 32 := by omega
  have hstart : offset / fs.blockSize ≤ (offset + n) / fs.blockSize := Nat.div_le_div_right (Nat.le_add_right _ _)
  have hreach := Nat.le_trans (Nat.div_le_div_right hoff) h.file.covers
  obtain ⟨done, inode', written, fs', hloop, hkept, hroom, hdone⟩ := h.file.writeLoop h.working h.group h.free hend buffer
    .refl (show _ + ((offset + n) / fs.blockSize + 1 - offset / fs.blockSize) = _ by omega) hreach
  rw [before_start hsize] at hloop
  refine ⟨done, inode', written, fs', ?_, hkept, hroom, fun hd => ⟨(hdone hd).1, (hdone hd).2.1.sectors, (hdone hd).2.1.size, fun x hx => ?_⟩⟩
  · rw [ext2Write, (h.working.opened h.group).readInode h.working.heapOk]
    dsimp only
    rw [h.regular, h.working.heapOk, if_neg (by decide), if_neg (by omega), if_neg (by decide), endBlock_eq hfits, hloop]
  · rw [(hdone hd).2.1.bytes x hx]
    split
    · rfl
    · rename_i hlt
      refine (splice_outside _ _ (.inl ?_)).symm
      by_contra hge
      exact hlt (Nat.div_le_div_right (Nat.le_of_not_lt hge))

section

variable (node) {inode : Mem} {osize : Nat}

theorem finishWrite_same (hne : w ≠ 0) (hle : (offset : Int) + w ≤ osize) (hrun : fs.writeInode node.inode inode = (true, fs')) :
    fs.finishWrite node inode offset osize w = (w, { node with size := iSize inode, offset := (offset : Int) + w }, fs') := by
  rw [finishWrite, if_neg hne]
  dsimp only
  rw [if_neg (by omega), hrun]

theorem finishWrite_grown (hn : 0 < n) (hlt : osize < offset + n) (hfits : offset + n < 2 ^ 32)
    (hrun : fs.writeInode node.inode (sizedInode inode (offset + n)) = (true, fs')) :
    fs.finishWrite node inode offset osize n = ((n : Int), { node with size := offset + n, offset := (offset : Int) + n }, fs') := by
  have hsize : ((offset : Int) + n).toNat % 2 ^ 32 = offset + n := by omega
  rw [finishWrite, if_neg (by omega)]
  dsimp only
  rw [if_pos (by omega), hsize, iSize_setISize inode hfits, ← sizedInode, hrun, iSize_sizedInode inode hfits]

end

theorem finishWrite_neg (hw : w < 0) (node : VfsNode) (inode : Mem) (offset osize : Nat) :
    (fs.finishWrite node inode offset osize w).1 < 0 := by
  rw [finishWrite, if_neg (by omega)]
  dsimp only
  split
  · exact show -eio < 0 by decide
  · exact hw

/-- A write that succeeds: it was not refused, and no round failed. -/
theorem ext2Write_succeeds (hw : Working fs) (hv : fs.inodeGroup node.inode < fs.groupCount) (hfits : offset + n < 2 ^ 32)
    (hr : fs.ext2Write node offset n buffer = .ok (ret, node', fs')) (hret : 0 ≤ ret) :
    offset ≤ iSize (fs.storedInode node.inode) ∧ ∃ inode' written fs1, fs.writeLoop (fs.storedInode node.inode) node.inode offset n buffer 0
        (offset / fs.blockSize) ((offset + n) / fs.blockSize + 1 - offset / fs.blockSize) = (true, inode', written, fs1) ∧
      fs1.finishWrite node inode' offset (iSize (fs.storedInode node.inode)) written = (ret, node', fs') := by
  rw [ext2Write, (hw.opened hv).readInode hw.heapOk] at hr
  dsimp only at hr
  split at hr
  · cases hr
    exact absurd hret (by decide)
  split at hr
  · cases hr
    exact absurd hret (by decide)
  rename_i hoff
  split at hr
  · cases hr
    exact absurd hret (by decide)
  refine ⟨Nat.le_of_not_lt hoff, ?_⟩
  rw [endBlock_eq hfits] at hr
  generalize fs.writeLoop (fs.storedInode node.inode) node.inode offset n buffer 0 (offset / fs.blockSize) _ = loop at hr ⊢
  obtain ⟨done, inode', written, fs1⟩ := loop
  replace hr := Except.ok.inj hr
  cases done with
  | false =>
    have hneg : (fs1.finishWrite node inode' offset (iSize (fs.storedInode node.inode)) (-eio)).1 < 0 := finishWrite_neg (by decide) ..
    dsimp only at hr
    rw [if_neg (by decide)] at hr
    rw [hr] at hneg
    exact absurd hret (Int.not_le.mpr hneg)
  | true => exact ⟨inode', written, fs1, rfl, hr⟩

theorem DirectFile.store (h : DirectFile fs ino) {inode : Mem} (hk : Kept fs fs1) (hfile : FileOk fs1 inode fun _ => True)
    (hmode : iMode inode = iMode (fs.storedInode ino)) :
    ∃ fs', fs1.writeInode ino inode = (true, fs') ∧ DirectFile fs' ino ∧ SameShape fs fs' ∧ fs'.storedInode ino = inode ∧
      ∀ x, x / fs.blockSize < ndirBlocks → fs'.fileByte inode x = fs1.fileByte inode x := by
  have hs := hk.shape
  have ho : Opened fs1 ino := (h.working.opened h.group).congr hs
  obtain ⟨fs', hrun, hkept, hfile', hstored, hbytes⟩ := hfile.writeInode ho
  refine ⟨fs', hrun, h.mono (hk.trans hkept) ?_ ?_, hs.trans hkept.shape, hstored, fun x hx => hbytes x (by rwa [hs.blockSize])⟩
  · rwa [hstored]
  · rwa [hstored]

/-- The size of a file after a write whose rounds all succeed. -/
def Ext2.sizeAfter (fs : Ext2) (ino offset n : Nat) : Nat :=
  if iSize (fs.storedInode ino) < offset + n then offset + n
  else iSize (fs.storedInode ino) + fs.blockSize * ((offset + n) / fs.blockSize + 1 - fs.sector2Block (iSectors (fs.storedInode ino)))

/-- What a write leaves whose rounds all succeed. -/
structure Written (fs : Ext2) (ino offset n : Nat) (buffer : Mem) (fs' : Ext2) : Prop where
  file : DirectFile fs' ino
  shape : SameShape fs fs'
  size : iSize (fs'.storedInode ino) = fs.sizeAfter ino offset n
  bytes : ∀ x, x / fs.blockSize < ndirBlocks →
    fs'.fileByte (fs'.storedInode ino) x = splice (fs.fileByte (fs.storedInode ino)) buffer offset n x

section

variable (h : DirectFile fs node.inode)

include h

/-- The end of a write that has come through. -/
theorem DirectFile.finishWrite (hn : 0 < n) (hend : offset + n ≤ ndirBlocks * fs.blockSize)
    {inode' : Mem} (hkept : RoundsKept fs (fs.storedInode node.inode) node.inode (fun _ => True) fs1 inode')
    (hrounds : RoundsDone fs (fs.storedInode node.inode) ((offset + n) / fs.blockSize)
      (splice (fs.fileByte (fs.storedInode node.inode)) buffer offset n) fs1 inode') :
    ∃ node' fs', fs1.finishWrite node inode' offset (iSize (fs.storedInode node.inode)) n = ((n : Int), node', fs') ∧
      node'.inode = node.inode ∧ Written fs node.inode offset n buffer fs' := by
  obtain ⟨-, hsmall, -⟩ := h.working.geometry.direct_range hend
  have hfits : offset + n < 2 ^ 32 := by omega
  have hs := hkept.kept.shape
  by_cases hlt : iSize (fs.storedInode node.inode) < offset + n
  · have hfile := hkept.file.sized (h.working.geometry.congr hs) hsmall (by rw [hs.blockSize, hrounds.sectors]; omega)
    obtain ⟨fs', hstore, hfile', hs', hstored, hbytes⟩ := h.store hkept.kept hfile ((iMode_sizedInode _ _).trans hkept.mode)
    refine ⟨_, fs', finishWrite_grown node hn hlt hfits hstore, rfl, hfile', hs', ?_, fun x hx => ?_⟩
    · rw [hstored, iSize_sizedInode _ hfits, sizeAfter, if_pos hlt]
    · rw [hstored, hbytes x hx, fileByte_sizedInode _ _ _ (by rwa [hs.blockSize]), hrounds.bytes x hx]
  · obtain ⟨fs', hstore, hfile', hs', hstored, hbytes⟩ := h.store hkept.kept hkept.file hkept.mode
    refine ⟨_, fs', finishWrite_same node (by omega) (by omega) hstore, rfl, hfile', hs', ?_, fun x hx => ?_⟩
    · rw [hstored, sizeAfter, if_neg hlt, hrounds.size]
    · rw [hstored, hbytes x hx, hrounds.bytes x hx]

theorem DirectFile.ext2Write_written (hoff : offset ≤ iSize (fs.storedInode node.inode)) (hn : 0 < n)
    (hend : offset + n ≤ ndirBlocks * fs.blockSize) (buffer : Mem)
    (hroom : Room fs ((offset + n) / fs.blockSize + 1 - fs.sector2Block (iSectors (fs.storedInode node.inode)))) :
    ∃ node' fs', fs.ext2Write node offset n buffer = .ok ((n : Int), node', fs') ∧ node'.inode = node.inode ∧
      Written fs node.inode offset n buffer fs' := by
  obtain ⟨done, inode', written, fs1, hrun, hkept, hdone, hrounds⟩ := h.ext2Write_eq hoff hend buffer
  obtain rfl := hdone hroom
  obtain ⟨rfl, hrounds⟩ := hrounds rfl
  obtain ⟨node', fs', hfinish, hnode, hwritten⟩ := h.finishWrite hn hend hkept hrounds
  rw [if_pos rfl, hfinish] at hrun
  exact ⟨node', fs', hrun, hnode, hwritten⟩

/-- Any write to the direct blocks leaves a file of this kind. -/
theorem DirectFile.ext2Write (hend : offset + n ≤ ndirBlocks * fs.blockSize)
    (hr : fs.ext2Write node offset n buffer = .ok (ret, node', fs')) : DirectFile fs' node.inode := by
  by_cases hoff : offset ≤ iSize (fs.storedInode node.inode)
  · obtain ⟨done, inode', written, fs1, hrun, hkept, -, hrounds⟩ := h.ext2Write_eq hoff hend buffer
    have heq := Except.ok.inj (hrun.symm.trans hr)
    cases done with
    | false =>
      obtain ⟨fs2, hstore, hfile, -⟩ := h.store hkept.kept hkept.file hkept.mode
      rw [if_neg (by decide), finishWrite_same node (by decide) (by unfold eio; omega) hstore] at heq
      cases heq
      exact hfile
    | true =>
      obtain ⟨rfl, hrounds⟩ := hrounds rfl
      rw [if_pos rfl] at heq
      by_cases hn : 0 < written
      · obtain ⟨node2, fs2, hfinish, -, hwritten⟩ := h.finishWrite hn hend hkept hrounds
        rw [hfinish] at heq
        cases heq
        exact hwritten.file
      · obtain rfl : written = 0 := by omega
        rw [Ext2.finishWrite, if_pos (show ((0 : Nat) : Int) = 0 from rfl)] at heq
        cases heq
        exact h.mono hkept.kept (hkept.stored rfl).1 (hkept.stored rfl).2
  · rw [Ext2.ext2Write, (h.working.opened h.group).readInode h.working.heapOk] at hr
    dsimp only at hr
    rw [h.regular, if_neg (by decide), if_pos (by omega)] at hr
    cases hr
    exact h

end

theorem WriteRun.directFile (h : WriteRun ino fs) : DirectFile fs ino := by
  induction h with
  | empty h => exact h.directFile
  | write _ hnode hend hr ih =>
    subst hnode
    exact ih.ext2Write hend hr

/-! ## The law -/

/-- A file that is all in the direct blocks follows the law exactly when the inode is not short of a block that the range ends in. -/
theorem contentLaw_iff (node : VfsNode) (h : WriteRun node.inode fs) (hsize : iSize (fs.storedInode node.inode) ≤ ndirBlocks * fs.blockSize)
    (hoff : offset ≤ iSize (fs.storedInode node.inode)) (hn : 0 < n) (hend : offset + n ≤ ndirBlocks * fs.blockSize) (buffer : Mem)
    (hroom : Room fs ((offset + n) / fs.blockSize + 1 - fs.sector2Block (iSectors (fs.storedInode node.inode)))) :
    ContentLaw fs node offset n buffer ↔ ¬ ShortInside fs node.inode offset n := by
  obtain ⟨node', fs', hrun, hnode, hwritten⟩ := h.directFile.ext2Write_written hoff hn hend buffer hroom
  obtain ⟨hpos, -, -⟩ := h.directFile.working.geometry.direct_range hend
  constructor
  · rintro ⟨node₂, fs₂, hrun2, hlaw, -⟩ ⟨hshort, hinside⟩
    rw [hrun] at hrun2
    cases hrun2
    have hmul := Nat.le_mul_of_pos_right fs.blockSize (show 0 < (offset + n) / fs.blockSize + 1 -
      fs.sector2Block (iSectors (fs.storedInode node.inode)) by omega)
    rw [hwritten.size, Ext2.sizeAfter, if_neg (by omega)] at hlaw
    omega
  · intro hshort
    have hmax : iSize (fs'.storedInode node.inode) = max (iSize (fs.storedInode node.inode)) (offset + n) := by
      rw [hwritten.size, Ext2.sizeAfter]
      split
      · omega
      · rw [show (offset + n) / fs.blockSize + 1 - fs.sector2Block (iSectors (fs.storedInode node.inode)) = 0 by
          unfold ShortInside at hshort; omega]
        omega
    have hbytes : ∀ x < iSize (fs'.storedInode node.inode), fs'.fileByte (fs'.storedInode node.inode) x =
        splice (fs.fileByte (fs.storedInode node.inode)) buffer offset n x := by
      intro x hx
      refine hwritten.bytes x ((Nat.div_lt_iff_lt_mul hpos).mpr ?_)
      omega
    have hfile := hwritten.file
    refine ⟨node', fs', hrun, hmax, hbytes, fun o m buf hm => ?_⟩
    have hinode : fs'.readInode node'.inode = some (fs'.storedInode node.inode) := by
      rw [hnode]
      exact (hfile.working.opened hfile.group).readInode hfile.working.heapOk
    refine ⟨_, _, ext2Read_spec (by rwa [hwritten.shape.blockSize]) hinode hfile.regular hfile.working.heapOk hm
      (fun _ _ _ => hfile.working.readable _) buf, fun x hx => ?_⟩
    rw [if_pos hx, hbytes _ (by omega)]

/-! ## A write inside a file that makes it longer -/

/-- The filesystem with the file `a`, which has no blocks here. -/
def emptyFileFs : Ext2 := { smallFs with disk := Function.update smallFs.disk 5 (copy smallTable 256 (store (fun _ => 0) 0 2 iFile) 0 128) }

theorem emptyFileFs_emptyFile : EmptyFile emptyFileFs 3 := by
  have hs : SameShape smallFs emptyFileFs := ⟨rfl, rfl, rfl, rfl, rfl, rfl, rfl, fun _ _ => rfl, fun _ => rfl⟩
  have hbitmap : smallFs.bitmapBlock .blocks 0 = 3 := by decide
  refine ⟨smallFs_working.congr hs, smallFs_consistent.freeBlocks.mono hs fun i b hi _ hclear => ?_, by decide, by decide,
    by decide, by decide, by decide⟩
  obtain rfl : i = 0 := Nat.lt_one_iff.mp hi
  rw [bit, hs.bitmapBlock, hbitmap] at hclear
  rwa [bit, hbitmap]

/-- The node of the file. -/
def emptyFileNode : VfsNode := ⟨3, 0, 0⟩

/-- A first byte is written to the file. -/
theorem contentLaw_firstByte : ContentLaw emptyFileFs emptyFileNode 0 1 fun _ => 0x78 := by
  have hshort : (0 + 1) / emptyFileFs.blockSize + 1 - emptyFileFs.sector2Block (iSectors (emptyFileFs.storedInode 3)) = 1 := by decide
  have hfree : (emptyFileFs.allocateBit .blocks emptyFileFs.groupCount 0).1 ≠ 0 := by decide
  have hroom : Room emptyFileFs ((0 + 1) / emptyFileFs.blockSize + 1 - emptyFileFs.sector2Block (iSectors (emptyFileFs.storedInode 3))) := by
    rw [hshort]
    exact ⟨hfree, trivial⟩
  have hsize : ¬ 0 + 1 ≤ iSize (emptyFileFs.storedInode 3) := by decide
  exact (contentLaw_iff emptyFileNode (.empty emptyFileFs_emptyFile) (by decide) (Nat.zero_le _) (by decide) (by decide) _ hroom).mpr
    fun hinside => hsize hinside.2

/-- A block is written to the file, and then its last byte again: the size after the first write, the blocks that the second is short of,
the next free one, what the second write returns and the size after it. -/
def writeTwice : Except Halt (Nat × Nat × Nat × Int × Nat) := do
  let (_, _, fs₁) ← emptyFileFs.ext2Write emptyFileNode 0 1024 fun _ => 0x78
  let (ret, _, fs₂) ← fs₁.ext2Write emptyFileNode 1023 1 fun _ => 0x79
  return (iSize (fs₁.storedInode 3), (1023 + 1) / fs₁.blockSize + 1 - fs₁.sector2Block (iSectors (fs₁.storedInode 3)),
    (fs₁.allocateBit .blocks fs₁.groupCount 0).1, ret, iSize (fs₂.storedInode 3))

/-- The file has 1024 bytes and there is a free block. The last byte is written again, and the file has 2048. -/
theorem write_inside_lengthens : ∃ fs fs' node', WriteRun 3 fs ∧ iSize (fs.storedInode 3) = 1024 ∧
    Room fs ((1023 + 1) / fs.blockSize + 1 - fs.sector2Block (iSectors (fs.storedInode 3))) ∧
    fs.ext2Write emptyFileNode 1023 1 (fun _ => 0x79) = .ok (1, node', fs') ∧ iSize (fs'.storedInode 3) = 2048 ∧
    ¬ ContentLaw fs emptyFileNode 1023 1 fun _ => 0x79 := by
  have heval : writeTwice = .ok (1024, 1, 10, 1, 2048) := by decide +kernel
  obtain ⟨⟨_, _, fs⟩, hfirst, hrest⟩ := bind_eq_ok.mp heval
  obtain ⟨⟨ret, node', fs'⟩, hsecond, hvalues⟩ := bind_eq_ok.mp hrest
  have hvalues := Except.ok.inj hvalues
  simp only [Prod.mk.injEq] at hvalues
  obtain ⟨hsize, hshort, hfree, rfl, hsize'⟩ := hvalues
  refine ⟨fs, fs', node', .write (.empty emptyFileFs_emptyFile) rfl (by decide) hfirst, hsize, ?_, hsecond, hsize', ?_⟩
  · rw [hshort]
    exact ⟨by rw [hfree]; decide, trivial⟩
  · rintro ⟨node₂, fs₂, hrun, hlaw, -⟩
    rw [hsecond] at hrun
    cases hrun
    rw [show emptyFileNode.inode = 3 from rfl, hsize, hsize'] at hlaw
    cases hlaw

end OmegaOS
