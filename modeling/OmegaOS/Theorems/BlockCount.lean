import OmegaOS.Theorems.FileContent

/-!
# The blocks that an inode counts

`writeInodeBlock` takes the blocks of a file to be those that its sectors count. `allocateBlock` counts the sectors of each block that it
allocates, and `ext2_write` sets them from the size of a file that has grown: `RNDUP` rounds down, so the sectors of a size that ends in the
first half of a block stop before that block, and its pointer is replaced by the next write.
-/

namespace OmegaOS

open ByteMem Splice List

variable {fs fs' : Ext2} {ino offset n : Nat} {node node' : VfsNode} {buffer inode : Mem} {ret : Int} {data : Nat → Prop}

/-- The direct blocks that are recorded in `i_block`. -/
def mappedBlocks (inode : Mem) : Nat := (List.range ndirBlocks).countP fun k => iBlock inode k ≠ 0

/-- The sectors of the inode on the disk count the blocks that are recorded in it. `writeInodeBlock` allocates one for an index exactly when
it has none, and replaces no pointer. -/
structure BlocksCounted (fs : Ext2) (ino : Nat) : Prop where
  counted : fs.sector2Block (iSectors (fs.storedInode ino)) = mappedBlocks (fs.storedInode ino)
  allocates : ∀ block < ndirBlocks, ∀ buffer inode' fs', fs.writeInodeBlock (fs.storedInode ino) ino block buffer = (true, inode', fs') →
    ∀ k ≤ block, FreeBlock fs (iBlock inode' k) ↔ iBlock (fs.storedInode ino) k = 0
  keeps : ∀ block < ndirBlocks, ∀ buffer inode' fs', fs.writeInodeBlock (fs.storedInode ino) ino block buffer = (true, inode', fs') →
    ∀ k < ndirBlocks, iBlock (fs.storedInode ino) k ≠ 0 → iBlock inode' k = iBlock (fs.storedInode ino) k

/-- Writes to the file `ino` in the direct blocks that succeed one after another, each with its offset, its length and the state after it. -/
inductive WriteTrace (ino : Nat) : Ext2 → List (Nat × Nat × Ext2) → Prop where
  | nil (fs : Ext2) : WriteTrace ino fs []
  | cons {fs fs₁ : Ext2} {node node' : VfsNode} {offset n : Nat} {buffer : Mem} {ret : Int} {ws : List (Nat × Nat × Ext2)}
      (hnode : node.inode = ino) (hstart : offset < ndirBlocks * fs.blockSize) (hend : offset + n ≤ ndirBlocks * fs.blockSize)
      (hr : fs.ext2Write node offset n buffer = .ok (ret, node', fs₁)) (hret : 0 ≤ ret) (hrest : WriteTrace ino fs₁ ws) :
      WriteTrace ino fs ((offset, n, fs₁) :: ws)

/-- A write makes the file longer and ends in its first sector, in the second half of a block or with the last direct block; or it leaves the
file as long as it was and does not end there. -/
def SectorsReach (size offset n : Nat) : Prop :=
  if size < offset + n then offset + n < 512 ∨ 512 ≤ (offset + n) % 1024 ∨ offset + n = 12 * 1024 else offset + n ≠ 12 * 1024

/-- All writes of a run are such. -/
def AllReach (ino : Nat) (fs : Ext2) : List (Nat × Nat × Ext2) → Prop
  | [] => True
  | (offset, n, fs₁) :: ws => SectorsReach (iSize (fs.storedInode ino)) offset n ∧ AllReach ino fs₁ ws

/-! ## The count -/

/-- The sectors count blocks that have pointers, so they count all of them when none behind has one. -/
theorem FileOk.counted_iff (h : FileOk fs inode data) : fs.sector2Block (iSectors inode) = mappedBlocks inode ↔
    fs.sector2Block (iSectors inode) ≤ ndirBlocks ∧ ∀ k < ndirBlocks, fs.sector2Block (iSectors inode) ≤ k → iBlock inode k = 0 := by
  generalize hb : fs.sector2Block (iSectors inode) = b
  have hle : mappedBlocks inode ≤ ndirBlocks := countP_le_length
  by_cases hin : b ≤ ndirBlocks
  · have hfirst : (range b).countP (fun k => iBlock inode k ≠ 0) = b := by
      refine (countP_eq_length.mpr fun k hk => ?_).trans length_range
      rw [mem_range] at hk
      exact decide_eq_true (h.mapped k (by omega) (by omega))
    have hsplit : range ndirBlocks = range b ++ (range (ndirBlocks - b)).map (b + ·) := by
      rw [← range_add, Nat.add_sub_cancel' hin]
    rw [mappedBlocks, hsplit, countP_append, hfirst, eq_comm, Nat.add_eq_left, countP_eq_zero]
    constructor
    · refine fun hnone => ⟨hin, fun k hk hbk => ?_⟩
      have hk' := hnone k (mem_map.mpr ⟨k - b, mem_range.mpr (by omega), by omega⟩)
      simpa using hk'
    · rintro ⟨-, hzero⟩ k hk
      obtain ⟨j, hj, rfl⟩ := mem_map.mp hk
      rw [mem_range] at hj
      simp [hzero (b + j) (by omega) (by omega)]
  · refine iff_of_false (fun he => hin ?_) fun hand => hin hand.1
    rwa [he]

theorem Opened.writeInodeBlock_grown {block : Nat} {inode' : Mem} (ho : Opened fs ino) (hfree : FreeOk fs) (himage : IsImage fs inode)
    (hb : block < ndirBlocks) (hrun : fs.writeInodeBlock inode ino block buffer = (true, inode', fs')) :
    ∃ ns fs1, ns.length = block + 1 - fs.sector2Block (iSectors inode) ∧
      Grown fs inode ino (fs.sector2Block (iSectors inode)) ns (fun _ => False) fs1 inode' := by
  obtain ⟨-, hhi, -⟩ := ho.geometry.blockSize_bounds
  have hfits : (block + 2) * fs.blockSize ≤ 13 * 65536 := Nat.mul_le_mul (by unfold ndirBlocks at hb; omega) hhi
  rw [Ext2.writeInodeBlock] at hrun
  cases hgrow : fs.growTo inode ino block (fs.bitCount + 1) with
  | mk done rest =>
    obtain ⟨inode1, fs1⟩ := rest
    rw [hgrow] at hrun
    cases done with
    | false => cases hrun
    | true =>
      cases hrun
      obtain ⟨ns, hlen, hgrown⟩ := ho.growTo_grown hfree himage (fun _ => False) (by omega) hgrow
      exact ⟨ns, fs1, hlen, hgrown⟩

/-- What `writeInodeBlock` does follows from the count. -/
theorem DirectFile.blocksCounted_iff (h : DirectFile fs ino) :
    BlocksCounted fs ino ↔ fs.sector2Block (iSectors (fs.storedInode ino)) = mappedBlocks (fs.storedInode ino) := by
  refine ⟨BlocksCounted.counted, fun hcounted => ?_⟩
  obtain ⟨-, hnone⟩ := h.file.counted_iff.mp hcounted
  have ho := h.working.opened h.group
  refine ⟨hcounted, fun block hb buffer inode' fs' hrun k hk => ?_, fun block hb buffer inode' fs' hrun k hk hne => ?_⟩
  · obtain ⟨ns, fs1, hlen, hgrown⟩ := ho.writeInodeBlock_grown h.free h.file.image hb hrun
    rw [hgrown.pointers k]
    by_cases hnew : fs.sector2Block (iSectors (fs.storedInode ino)) ≤ k
    · rw [if_pos (by omega), getD_eq_getElem _ _ (by omega)]
      exact iff_of_true (hgrown.fresh _ (getElem_mem _)) (hnone k (by omega) hnew)
    · have hmapped := h.file.mapped k (by omega) (by omega)
      rw [if_neg (by omega)]
      exact iff_of_false (fun hfree => (h.file.used k (by omega) hmapped).1.ne_free hfree h.free rfl) hmapped
  · obtain ⟨ns, fs1, -, hgrown⟩ := ho.writeInodeBlock_grown h.free h.file.image hb hrun
    rw [hgrown.pointers k, if_neg fun hin => hne (hnone k hk hin.2.1)]

/-! ## One write -/

/-- The inode that a write leaves on the disk. -/
theorem DirectFile.ext2Write_stored (h : DirectFile fs node.inode) (hstart : offset < ndirBlocks * fs.blockSize)
    (hend : offset + n ≤ ndirBlocks * fs.blockSize) (hr : fs.ext2Write node offset n buffer = .ok (ret, node', fs')) (hret : 0 ≤ ret) :
    SameShape fs fs' ∧ ∃ fs1 inode', fs'.storedInode node.inode =
        (if iSize (fs.storedInode node.inode) < offset + n then sizedInode inode' (offset + n) else inode') ∧
      fs'.sector2Block (iSectors inode') = max (fs.sector2Block (iSectors (fs.storedInode node.inode))) ((offset + n) / fs.blockSize + 1) ∧
      iSize inode' = iSize (fs.storedInode node.inode) +
        fs.blockSize * ((offset + n) / fs.blockSize + 1 - fs.sector2Block (iSectors (fs.storedInode node.inode))) ∧
      RoundsRecorded fs (fs.storedInode node.inode) node.inode ((offset + n) / fs.blockSize) fs1 inode' := by
  obtain ⟨hsize, hsmall, -⟩ := h.working.geometry.direct_range hend
  have hle : offset / fs.blockSize ≤ (offset + n) / fs.blockSize := Nat.div_le_div_right (Nat.le_add_right _ _)
  obtain ⟨hoff, inode', written, fs1, hloop, hfinish⟩ := ext2Write_succeeds h.working h.group (by omega) hr hret
  obtain ⟨_, _, _, _, hrun, hkept, -, hdone⟩ := h.file.writeLoop h.working h.group h.free hend buffer .refl
    (show _ + ((offset + n) / fs.blockSize + 1 - offset / fs.blockSize) = _ by omega)
    (Nat.le_trans (Nat.div_le_div_right hoff) h.file.covers)
  rw [before_start hsize, hloop] at hrun
  cases hrun
  obtain ⟨rfl, hrounds, hrecorded⟩ := hdone rfl
  have hs := hkept.kept.shape
  have hsectors := hrounds.sectors
  rw [hs.sector2Block] at hsectors
  by_cases hlt : iSize (fs.storedInode node.inode) < offset + written
  · have hfile := hkept.file.sized (h.working.geometry.congr hs) hsmall (by rw [hs.blockSize, hrounds.sectors]; omega)
    obtain ⟨fs2, hstore, -, hs2, hstored, -⟩ := h.store hkept.kept hfile ((iMode_sizedInode _ _).trans hkept.mode)
    rw [finishWrite_grown node (by omega) hlt (by omega) hstore] at hfinish
    cases hfinish
    exact ⟨hs2, fs1, inode', by rw [if_pos hlt, hstored], by rw [hs2.sector2Block, hsectors], hrounds.size, hrecorded⟩
  · by_cases hzero : written = 0
    · subst hzero
      rw [Ext2.finishWrite, if_pos (show ((0 : Nat) : Int) = 0 from rfl)] at hfinish
      cases hfinish
      have hlast : (offset + 0) / fs.blockSize < ndirBlocks := (Nat.div_lt_iff_lt_mul hsize).mpr hstart
      exact ⟨hs, _, inode', by rw [if_neg hlt, hrecorded.stored hlast rfl], by rw [hs.sector2Block, hsectors], hrounds.size, hrecorded⟩
    · obtain ⟨fs2, hstore, -, hs2, hstored, -⟩ := h.store hkept.kept hkept.file hkept.mode
      rw [finishWrite_same node (by omega) (by omega) hstore] at hfinish
      cases hfinish
      exact ⟨hs2, fs1, inode', by rw [if_neg hlt, hstored], by rw [hs2.sector2Block, hsectors], hrounds.size, hrecorded⟩

/-- The sectors of a size reach its last block when it ends in the first sector of the file or in the second half of a block. -/
theorem sector2Block_size {size : Nat} (hbs : fs.blockSize = 1024) (hsize : size < 2 ^ 31) :
    fs.sector2Block (rndup size ataSectorSize / ataSectorSize) = if size < 512 ∨ 512 ≤ size % 1024 then size / 1024 + 1 else size / 1024 := by
  rw [Ext2.sector2Block, hbs, ataSectorSize, rndup]
  split <;> split <;> omega

/-- A file of which every block is counted; the size ends in one of them or behind the last. -/
structure CountedFile (fs : Ext2) (ino : Nat) : Prop where
  file : DirectFile fs ino
  blockSize : fs.blockSize = 1024
  near : fs.sector2Block (iSectors (fs.storedInode ino)) ≤ iSize (fs.storedInode ino) / 1024 + 1
  counted : fs.sector2Block (iSectors (fs.storedInode ino)) = mappedBlocks (fs.storedInode ino)

theorem EmptyFile.countedFile (h : EmptyFile fs ino) (hbs : fs.blockSize = 1024) : CountedFile fs ino := by
  have hfile := h.directFile
  have hblocks : fs.sector2Block (iSectors (fs.storedInode ino)) = 0 := by
    rw [h.sectors, Ext2.sector2Block, hbs]
    rfl
  refine ⟨hfile, hbs, by omega, hfile.file.counted_iff.mpr ⟨by omega, fun k hk _ => h.pointers k (Nat.le_of_lt hk)⟩⟩

/-- The blocks are all counted after a write exactly when the sectors reach them. -/
theorem CountedFile.ext2Write (h : CountedFile fs node.inode) (hstart : offset < ndirBlocks * fs.blockSize)
    (hend : offset + n ≤ ndirBlocks * fs.blockSize) (hr : fs.ext2Write node offset n buffer = .ok (ret, node', fs')) (hret : 0 ≤ ret) :
    (BlocksCounted fs' node.inode ↔ SectorsReach (iSize (fs.storedInode node.inode)) offset n) ∧
      (BlocksCounted fs' node.inode → CountedFile fs' node.inode) := by
  have hfile := h.file.ext2Write hend hr
  have hbs := h.blockSize
  have hcovers := h.file.file.covers
  have hnear := h.near
  obtain ⟨hwithin, hnone⟩ := h.file.file.counted_iff.mp h.counted
  have hmapped := h.file.file.mapped
  obtain ⟨hs, fs1, inode', hstored, hsectors, hsize, hrecorded⟩ := h.file.ext2Write_stored hstart hend hr hret
  have hpointers : ∀ k < ndirBlocks, iBlock inode' k = 0 ↔
      fs.sector2Block (iSectors (fs.storedInode node.inode)) ≤ k ∧ (offset + n) / fs.blockSize < k := by
    intro k hk
    have hmap := hmapped k hk
    have hrec := hrecorded.pointers k hk
    have hzero := hnone k hk
    omega
  have hcounted := hfile.blocksCounted_iff.trans hfile.file.counted_iff
  rw [hbs] at hend hcovers hsectors hsize hpointers
  unfold SectorsReach ndirBlocks at *
  by_cases hlt : iSize (fs.storedInode node.inode) < offset + n
  · rw [if_pos hlt] at hstored ⊢
    have hsmall : offset + n < 2 ^ 31 := by omega
    have hblocks := sector2Block_size (hs.blockSize.trans hbs) hsmall
    rw [← iSectors_sizedInode inode' (by omega), ← hstored] at hblocks
    rw [hblocks] at hcounted
    have hsize' : iSize (fs'.storedInode node.inode) = offset + n := by rw [hstored, iSize_sizedInode inode' (by omega)]
    refine ⟨hcounted.trans ⟨?_, fun hreach => ?_⟩, fun hc => ⟨hfile, hs.blockSize.trans hbs, ?_, hc.counted⟩⟩
    · -- the last block has a pointer and is not counted
      rintro ⟨-, hzero⟩
      by_contra hnot
      rw [if_neg (by omega)] at hzero
      have hlast := hzero ((offset + n) / 1024) (by omega) .refl
      rw [hstored, iBlock_sizedInode, hpointers _ (by omega)] at hlast
      omega
    · refine ⟨by split <;> omega, fun k hk hle => ?_⟩
      rw [hstored, iBlock_sizedInode, hpointers k hk]
      split at hle <;> omega
    · rw [hblocks, hsize']
      split <;> omega
  · rw [if_neg hlt] at hstored ⊢
    rw [← hstored] at hsectors hsize hpointers
    rw [hsectors] at hcounted
    refine ⟨hcounted.trans ⟨fun hc => ?_, fun hne => ⟨?_, fun k hk hle => (hpointers k hk).mpr ?_⟩⟩,
      fun hc => ⟨hfile, hs.blockSize.trans hbs, ?_, hc.counted⟩⟩ <;> omega

/-! ## Runs -/

theorem WriteTrace.counted_iff {ws : List (Nat × Nat × Ext2)} (hrun : WriteTrace ino fs ws) (h : CountedFile fs ino) :
    (∀ w ∈ ws, BlocksCounted w.2.2 ino) ↔ AllReach ino fs ws := by
  induction hrun with
  | nil => exact iff_of_true nofun trivial
  | cons hnode hstart hend hr hret _ ih =>
    subst hnode
    obtain ⟨hiff, hkeep⟩ := h.ext2Write hstart hend hr hret
    rw [forall_mem_cons, AllReach, ← hiff]
    exact and_congr_right fun hc => ih (hkeep hc)

/-- The blocks of a new file are all counted throughout a run of writes to its direct blocks exactly when every write that makes it longer ends
in its first sector, in the second half of a block or with the last direct block, and no other ends there. -/
theorem blocks_counted_iff (h : EmptyFile fs ino) (hbs : fs.blockSize = 1024) {ws : List (Nat × Nat × Ext2)} (hrun : WriteTrace ino fs ws) :
    (BlocksCounted fs ino ∧ ∀ w ∈ ws, BlocksCounted w.2.2 ino) ↔ AllReach ino fs ws := by
  have hfile := h.countedFile hbs
  rw [hrun.counted_iff hfile]
  exact and_iff_right (hfile.file.blocksCounted_iff.mpr hfile.counted)

/-- A write that ends in the second half of the first block. -/
theorem blocks_counted_half : ∃ fs', WriteTrace 3 emptyFileFs [(0, 600, fs')] ∧ BlocksCounted fs' 3 := by
  have heval : (emptyFileFs.ext2Write emptyFileNode 0 600 fun _ => 0x78).map (·.1) = .ok 600 := by decide +kernel
  obtain ⟨⟨ret, node', fs'⟩, hr, rfl⟩ := map_eq_ok heval
  have hrun : WriteTrace 3 emptyFileFs [(0, 600, fs')] := .cons rfl (by decide) (by decide) hr (by decide) (.nil fs')
  have hreach : AllReach 3 emptyFileFs [(0, 600, fs')] := ⟨by unfold SectorsReach; decide, trivial⟩
  exact ⟨fs', hrun, ((blocks_counted_iff emptyFileFs_emptyFile (by decide) hrun).mpr hreach).2 _ List.mem_cons_self⟩

/-- A block is written to the file, and then the byte behind it: what the calls return, the blocks that are counted and those that are mapped
in between, and the pointer to the second block before and after the second call. -/
def writeBlockAndByte : Except Halt (Int × Nat × Nat × Nat × Int × Nat) := do
  let (ret, _, fs₁) ← emptyFileFs.ext2Write emptyFileNode 0 1024 fun _ => 0x78
  let inode := fs₁.storedInode 3
  let (ret', _, fs₂) ← fs₁.ext2Write emptyFileNode 1024 1 fun _ => 0x79
  return (ret, fs₁.sector2Block (iSectors inode), mappedBlocks inode, iBlock inode 1, ret', iBlock (fs₂.storedInode 3) 1)

/-- The first write takes two blocks and the sectors count one. The second write replaces the pointer to the other. -/
theorem pointer_replaced : ∃ fs₁ fs₂, EmptyFile emptyFileFs 3 ∧ emptyFileFs.blockSize = 1024 ∧
    WriteTrace 3 emptyFileFs [(0, 1024, fs₁), (1024, 1, fs₂)] ∧ fs₁.sector2Block (iSectors (fs₁.storedInode 3)) = 1 ∧
    mappedBlocks (fs₁.storedInode 3) = 2 ∧ iBlock (fs₁.storedInode 3) 1 = 9 ∧ iBlock (fs₂.storedInode 3) 1 = 10 ∧ ¬ BlocksCounted fs₁ 3 := by
  have heval : writeBlockAndByte = .ok (1024, 1, 2, 9, 1, 10) := by decide +kernel
  obtain ⟨⟨ret, node1, fs₁⟩, hr, heval⟩ := bind_eq_ok.mp heval
  obtain ⟨⟨ret', node2, fs₂⟩, hr', heval⟩ := bind_eq_ok.mp heval
  have hvalues := Except.ok.inj heval
  simp only [Prod.mk.injEq] at hvalues
  obtain ⟨rfl, hcounted, hmapped, hbefore, rfl, hafter⟩ := hvalues
  obtain ⟨hs, -⟩ := emptyFileFs_emptyFile.directFile.ext2Write_stored (by decide) (by decide) hr (by decide)
  refine ⟨fs₁, fs₂, emptyFileFs_emptyFile, by decide, .cons rfl (by decide) (by decide) hr (by decide)
    (.cons rfl ?_ ?_ hr' (by decide) (.nil fs₂)), hcounted, hmapped, hbefore, hafter, fun h => ?_⟩
  · rw [hs.blockSize]
    decide
  · rw [hs.blockSize]
    decide
  · have := h.counted
    omega

end OmegaOS
