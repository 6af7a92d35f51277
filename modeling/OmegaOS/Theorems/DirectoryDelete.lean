import OmegaOS.Lemmas.Ext2Unlink
import OmegaOS.Theorems.DirectoryCreate

/-!
# Deletion from a directory

When `deleteInodeFromDir` takes exactly one entry out of a directory. Whether it does depends on where the record lies and on the lengths
of the records around it, since the walk that looks for the record to lengthen starts to count at the wrong place.
-/

namespace OmegaOS

open ByteMem CStr List Function

variable {fs fs' fs2 : Ext2} {ino d o : Nat} {name : Str} {pre post : List Nat} {image : Mem}

/-! ## What a deletion is to do -/

/-- The entry of the name is gone and its inode is reported, and a name that is not there is reported as such. A block that the entry
filled is given back by a bit of its group's bitmap. -/
def Deletes (fs : Ext2) (ino : Nat) (name : Str) : Prop :=
  ∃ ret n fs', fs.deleteInodeFromDir (fs.storedInode ino) ino name = .ok (ret, n, fs') ∧
    (name ∈ (fs.dirEntries (fs.storedInode ino)).map (·.1) →
      ret = enoer ∧ lookup (fs.dirEntries (fs.storedInode ino)) name = some n ∧ WellFormedDir fs' ino ∧
        (fs'.dirEntries (fs'.storedInode ino) = (fs.dirEntries (fs.storedInode ino)).eraseP fun e => e.1 = name) ∧
        (recLen (fs.firstBlock ino) 0 = fs.blockSize → fs.ClearsInside (iBlock (fs.storedInode ino) 0))) ∧
    (name ∉ (fs.dirEntries (fs.storedInode ino)).map (·.1) → ret = enoent ∧ fs' = fs)

/-- The same filesystem, but for the inode numbers in the records of the directory's first block. -/
def Relabelled (fs fs2 : Ext2) (ino : Nat) : Prop :=
  ∃ m, fs2 = fs.writeBlock (iBlock (fs.storedInode ino) 0) m ∧
    ∀ x < fs.blockSize, (∀ d ∈ fs.firstRecords ino, x < d ∨ d + 4 ≤ x) → m x = fs.firstBlock ino x

/-- Where a record of the first block can be deleted: alone in the only block of the directory, which the driver can give back; at the end
of the block; or followed by others, when what is left behind the record that gets its bytes fits into them and behind it. -/
def RecordRemovable (fs : Ext2) (ino d : Nat) : Prop :=
  let len := recLen (fs.firstBlock ino) d
  let rest := restBehind d (((fs.firstRecords ino).erase d).map (recLen (fs.firstBlock ino)))
  if len = fs.blockSize then
    fs.dirCount ino = 1 ∧ iBlock (fs.storedInode ino) 0 / fs.superBlock.blocksPerGroup < fs.groupCount ∧
      fs.ClearsInside (iBlock (fs.storedInode ino) 0)
  else d + len = fs.blockSize ∨ rest ≤ len ∧ rest ≤ fs.blockSize - d - len

/-- The name is that of a record of the first block that can be deleted, or it is none and there is a block to look at. -/
def Removable (fs : Ext2) (ino : Nat) (name : Str) : Prop :=
  (name ∈ (fs.dirEntries (fs.storedInode ino)).map (·.1) →
      ∃ d ∈ fs.firstRecords ino, recName (fs.firstBlock ino) d = name ∧ RecordRemovable fs ino d) ∧
    (name ∉ (fs.dirEntries (fs.storedInode ino)).map (·.1) → 0 < fs.dirCount ino)

/-! ## The record of the name -/

/-- The record at `d` is the first of the name. -/
structure FirstOf (fs : Ext2) (ino : Nat) (name : Str) (pre : List Nat) (d : Nat) (post : List Nat) : Prop where
  blocks : 0 < fs.dirCount ino
  split : fs.firstRecords ino = pre ++ d :: post
  before : ∀ o ∈ pre, recName (fs.firstBlock ino) o ≠ name
  hit : recName (fs.firstBlock ino) d = name

section

variable (hf : FirstOf fs ino name pre d post)

include hf

theorem FirstOf.entries : fs.dirEntries (fs.storedInode ino) = pre.map (entryAt (fs.firstBlock ino)) ++
      entryAt (fs.firstBlock ino) d :: (post.map (entryAt (fs.firstBlock ino)) ++ fs.laterEntries ino) := by
  rw [dirEntries_first hf.blocks, blockEntries, ← Ext2.firstRecords, hf.split, map_append, map_cons, append_assoc, cons_append]

/-- What a lookup finds and what is left without the entry. -/
theorem FirstOf.lookup : name ∈ (fs.dirEntries (fs.storedInode ino)).map (·.1) ∧
      lookup (fs.dirEntries (fs.storedInode ino)) name = some (dirInode (fs.firstBlock ino) d) ∧
      ((fs.dirEntries (fs.storedInode ino)).eraseP fun e => e.1 = name) =
        (pre ++ post).map (entryAt (fs.firstBlock ino)) ++ fs.laterEntries ino := by
  have hbefore : ∀ e ∈ pre.map (entryAt (fs.firstBlock ino)), ¬ decide (e.1 = name) = true := by
    intro e he
    obtain ⟨o, ho, rfl⟩ := mem_map.mp he
    exact fun hname => hf.before o ho (of_decide_eq_true hname)
  have hhit := decide_eq_true hf.hit
  rw [hf.entries]
  refine ⟨?_, ?_, ?_⟩
  · rw [← hf.hit]
    simp [entryAt]
  · rw [OmegaOS.lookup, find?_append, find?_eq_none.mpr hbefore, find?_cons_of_pos (p := fun e : Str × Nat => decide (e.1 = name)) hhit]
    rfl
  · rw [eraseP_append_right _ hbefore, eraseP_cons_of_pos (p := fun e : Str × Nat => decide (e.1 = name)) hhit, map_append, append_assoc]

theorem FirstOf.erase : (fs.firstRecords ino).erase d = pre ++ post := by
  rw [hf.split, erase_append_right _ fun hd => hf.before d hd hf.hit, erase_cons_head]

end

theorem mem_names (hn : 0 < fs.dirCount ino) (hd : d ∈ fs.firstRecords ino) :
    recName (fs.firstBlock ino) d ∈ (fs.dirEntries (fs.storedInode ino)).map (·.1) := by
  rw [dirEntries_first hn, map_append]
  exact mem_append_left _ (mem_map_of_mem (mem_map_of_mem hd))

/-- A name of the first block, when no name occurs twice. -/
theorem exists_firstOf (hn : 0 < fs.dirCount ino) (hnd : ((fs.dirEntries (fs.storedInode ino)).map (·.1)).Nodup)
    (hd : d ∈ fs.firstRecords ino) (hhit : recName (fs.firstBlock ino) d = name) : ∃ pre post, FirstOf fs ino name pre d post := by
  obtain ⟨pre, post, hsplit⟩ := append_of_mem hd
  refine ⟨pre, post, hn, hsplit, fun o ho he => ?_, hhit⟩
  rw [dirEntries_first hn, blockEntries, ← Ext2.firstRecords, hsplit, map_append, map_append, map_append, map_cons] at hnd
  have hdisjoint := (nodup_append.mp (nodup_append.mp hnd).1).2.2
  refine hdisjoint name ?_ name ?_ rfl
  · rw [← he]
    exact mem_map_of_mem (mem_map_of_mem ho)
  · rw [← hhit]
    exact mem_cons_self

section

variable (h : DeleteCall fs ino name)

include h

section

variable (hf : FirstOf fs ino name pre d post)

include hf

theorem DeleteCall.tiles : Tiles (fs.firstBlock ino) fs.blockSize 0 (pre ++ d :: post) := hf.split ▸ h.dir.firstTiles hf.blocks

/-- A first record that fills the block is the one of the name. -/
theorem DeleteCall.fills (hfirst : recLen (fs.firstBlock ino) 0 = fs.blockSize) : recLen (fs.firstBlock ino) d = fs.blockSize := by
  have htiles := h.tiles hf
  cases pre with
  | nil =>
    obtain ⟨rfl, -, -⟩ := htiles
    exact hfirst
  | cons p pre =>
    obtain ⟨rfl, -, hrest⟩ := htiles
    rw [Nat.zero_add, hfirst] at hrest
    exact absurd (hrest.eq_nil .refl) (by simp)

/-- The deletion that replaces the first block is right when the new block has the other records. -/
theorem DeleteCall.deletes_iff (hrun : fs.deleteRecord (fs.storedInode ino) ino (fs.firstBlock ino) pre.getLast? d =
      .ok (enoer, fs.writeBlock (iBlock (fs.storedInode ino) 0) image)) (hlen : recLen (fs.firstBlock ino) d ≠ fs.blockSize) :
    Deletes fs ino name ↔ Tiled fs.blockSize image ∧ blockEntries fs.blockSize image = (pre ++ post).map (entryAt (fs.firstBlock ino)) := by
  have hcall := h.found hf.blocks hf.split hf.before hf.hit
  rw [hrun] at hcall
  obtain ⟨hmem, hlookup, herase⟩ := hf.lookup
  obtain ⟨hdir, hentries⟩ := h.dir.replaceFirst h.working.geometry hf.blocks rfl
  constructor
  · rintro ⟨ret, n, fs', heq, hin, -⟩
    rw [hcall] at heq
    cases heq
    obtain ⟨-, -, hdir', hsame, -⟩ := hin hmem
    have htiled := hdir.mp hdir'
    refine ⟨htiled, ?_⟩
    rw [hentries htiled, herase] at hsame
    exact append_cancel_right hsame
  · rintro ⟨htiled, hsame⟩
    refine ⟨_, _, _, hcall, fun _ => ⟨rfl, hlookup, hdir.mpr htiled, ?_, fun hfirst => ?_⟩, fun hnot => absurd hmem hnot⟩
    · rw [hentries htiled, herase, hsame]
    · exact absurd (h.fills hf hfirst) hlen

/-! ## The places of a record -/

/-- The record is alone in its block, the last one, or followed by others. -/
theorem DeleteCall.places : (pre = [] ∧ post = [] ∧ d = 0 ∧ recLen (fs.firstBlock ino) d = fs.blockSize) ∨
      (∃ pre' o, pre = pre' ++ [o] ∧ post = [] ∧ 0 < d ∧ d + recLen (fs.firstBlock ino) d = fs.blockSize) ∨
      d + recLen (fs.firstBlock ino) d < fs.blockSize := by
  obtain ⟨_, hpre, rfl, hok, hpost⟩ := tiles_append.mp (h.tiles hf)
  cases post with
  | nil =>
    have hend : d + recLen (fs.firstBlock ino) d = fs.blockSize := hpost
    rcases eq_nil_or_concat pre with rfl | ⟨pre', o, rfl⟩
    · obtain rfl : 0 = d := hpre
      exact .inl ⟨rfl, rfl, rfl, by omega⟩
    · rw [concat_eq_append] at hpre ⊢
      obtain ⟨hoko, -, hle⟩ := hpre.mem (mem_append_right pre' mem_cons_self)
      have := hoko.recLen_pos
      exact .inr (.inl ⟨pre', o, rfl, rfl, by omega, hend⟩)
  | cons p post =>
    obtain ⟨rfl, hokp, hrest⟩ := hpost
    have := hokp.recLen_pos
    have := hrest.le
    exact .inr (.inr (by omega))

end

/-- When the only record of a block is deleted. -/
theorem DeleteCall.deletes_only (hnd : ((fs.dirEntries (fs.storedInode ino)).map (·.1)).Nodup)
    (hf : FirstOf fs ino name [] 0 []) (hlen : recLen (fs.firstBlock ino) 0 = fs.blockSize) :
    Deletes fs ino name ↔ fs.dirCount ino = 1 ∧ iBlock (fs.storedInode ino) 0 / fs.superBlock.blocksPerGroup < fs.groupCount ∧
      fs.ClearsInside (iBlock (fs.storedInode ino) 0) := by
  have g := h.working.geometry
  have hcall := h.found hf.blocks hf.split hf.before hf.hit
  obtain ⟨hmem, hlookup, herase⟩ := hf.lookup
  obtain ⟨n, hn⟩ := Nat.exists_eq_add_one_of_ne_zero (Nat.ne_of_gt hf.blocks)
  have hshape := hn ▸ h.dir.dirShape
  rcases h.deleteOnly hf.blocks hlen none with ⟨hgroup, hrun⟩ | ⟨hgroup, fs1, hrun, hdropped⟩
  · rw [getLast?_nil, hrun] at hcall
    constructor
    · rintro ⟨ret, _, _, heq, hin, -⟩
      rw [hcall] at heq
      cases heq
      exact absurd (show eperm = enoer from (hin hmem).1) (by decide)
    · rintro ⟨-, hlt, -⟩
      omega
  · rw [getLast?_nil, hrun] at hcall
    constructor
    · rintro ⟨ret, _, fs', heq, hin, -⟩
      rw [hcall] at heq
      cases heq
      obtain ⟨-, -, -, hsame, hinside⟩ := hin hmem
      refine ⟨?_, hgroup, hinside hlen⟩
      by_contra hne
      -- the block that was given back is still the first one of the directory, and has the name
      have hcount := hdropped.dirCount hshape g
      have hstill : name ∈ (fs1.dirEntries (fs1.storedInode ino)).map (·.1) := by
        rw [dirEntries_first (by omega), hdropped.firstBlock hshape g, hdropped.shape.blockSize, blockEntries, ← Ext2.firstRecords, hf.split,
          ← hf.hit]
        simp [entryAt]
      rw [hsame] at hstill
      refine (nodup_cons.mp (?_ : (name :: ((fs.dirEntries (fs.storedInode ino)).eraseP fun e => e.1 = name).map (·.1)).Nodup)).1 hstill
      rw [herase]
      rw [hf.entries] at hnd
      rwa [← hf.hit]
    · rintro ⟨hone, -, hinside⟩
      obtain rfl : n = 0 := by omega
      obtain ⟨hdir, hempty⟩ := hdropped.emptied hshape g
      refine ⟨_, _, _, hcall, fun _ => ⟨rfl, hlookup, hdir, ?_, fun _ => hinside⟩, fun hnot => absurd hmem hnot⟩
      rw [hempty, herase, Ext2.laterEntries, hone]
      rfl

/-- The last record of its block, behind another one. -/
theorem DeleteCall.deletes_last (hbs : fs.blockSize < 2 ^ 16) (hf : FirstOf fs ino name (pre ++ [o]) d []) : Deletes fs ino name := by
  have hsplit : fs.firstRecords ino = pre ++ [o, d] := by rw [hf.split, append_assoc]; rfl
  have htiles := hsplit ▸ h.dir.firstTiles hf.blocks
  have hrun := h.deleteLast hf.blocks hsplit
  have hlen : recLen (fs.firstBlock ino) d ≠ fs.blockSize := by
    rcases h.places hf with ⟨hnil, -⟩ | ⟨_, _, -, -, hpos, hend⟩ | hlt
    · simp at hnil
    · omega
    · omega
  rw [h.deletes_iff hf (by rwa [getLast?_concat]) hlen, append_nil]
  exact removeLast htiles hbs

theorem DeleteCall.deletes_middle (hbs : fs.blockSize < 2 ^ 16) (hf : FirstOf fs ino name pre d post)
    (hd : d + recLen (fs.firstBlock ino) d < fs.blockSize) :
    ∃ o, MiddleRemoved fs.blockSize (fs.firstBlock ino) d pre post o (restBehind d ((pre ++ post).map (recLen (fs.firstBlock ino)))) ∧
      (Deletes fs ino name ↔ Tiled fs.blockSize (closed fs.blockSize (fs.firstBlock ino) d o) ∧
        blockEntries fs.blockSize (closed fs.blockSize (fs.firstBlock ino) d o) = (pre ++ post).map (entryAt (fs.firstBlock ino))) := by
  obtain ⟨o, hmiddle⟩ := removeMiddle (h.tiles hf) hbs hd
  exact ⟨o, hmiddle, h.deletes_iff hf (h.deleteMiddle hf.blocks hd hmiddle.walk _) (by omega)⟩

end

/-! ## Other inode numbers -/

theorem SameShape.clearsInside (hs : SameShape fs fs2) (block : Nat) : fs2.ClearsInside block ↔ fs.ClearsInside block := by
  unfold Ext2.ClearsInside
  rw [hs.superBlock, hs.groupCount, hs.readable, hs.physical, hs.bitmapBlock, hs.blockSize]

/-- The records of the directory lie in the same places and have the same names. -/
structure SameLayout (fs fs2 : Ext2) (ino : Nat) : Prop where
  shape : SameShape fs fs2
  stored : fs2.storedInode ino = fs.storedInode ino
  records : fs2.firstRecords ino = fs.firstRecords ino
  lengths : ∀ o ∈ fs.firstRecords ino, recLen (fs2.firstBlock ino) o = recLen (fs.firstBlock ino) o
  names : ∀ o ∈ fs.firstRecords ino, recName (fs2.firstBlock ino) o = recName (fs.firstBlock ino) o
  later : fs2.laterEntries ino = fs.laterEntries ino

section

variable (h : SameLayout fs fs2 ino)

include h

theorem SameLayout.dirCount : fs2.dirCount ino = fs.dirCount ino := by
  rw [Ext2.dirCount, h.stored, h.shape.blockSize]
  rfl

theorem SameLayout.dirNames (hn : 0 < fs.dirCount ino) :
    (fs2.dirEntries (fs2.storedInode ino)).map (·.1) = (fs.dirEntries (fs.storedInode ino)).map (·.1) := by
  rw [dirEntries_first (by rwa [h.dirCount]), dirEntries_first hn, map_append, map_append, h.later, blockEntries,
    blockEntries, ← Ext2.firstRecords, ← Ext2.firstRecords, h.records, map_map, map_map]
  congr 1
  exact map_congr_left h.names

theorem SameLayout.firstOf (hf : FirstOf fs ino name pre d post) : FirstOf fs2 ino name pre d post := by
  have hmem : ∀ o, o ∈ pre ++ d :: post → o ∈ fs.firstRecords ino := fun o ho => hf.split ▸ ho
  refine ⟨by rw [h.dirCount]; exact hf.blocks, h.records.trans hf.split, fun o ho => ?_, ?_⟩
  · rw [h.names o (hmem o (mem_append_left _ ho))]
    exact hf.before o ho
  · rw [h.names d (hmem d (by simp))]
    exact hf.hit

theorem SameLayout.recordRemovable (hd : d ∈ fs.firstRecords ino) (hr : RecordRemovable fs ino d) : RecordRemovable fs2 ino d := by
  have hmap : ((fs.firstRecords ino).erase d).map (recLen (fs2.firstBlock ino)) =
      ((fs.firstRecords ino).erase d).map (recLen (fs.firstBlock ino)) :=
    map_congr_left fun o ho => h.lengths o (mem_of_mem_erase ho)
  unfold RecordRemovable
  rwa [h.records, hmap, h.lengths d hd, h.dirCount, h.stored, h.shape.clearsInside, h.shape.blockSize, h.shape.groupCount,
    h.shape.superBlock]

theorem SameLayout.removable (hn : 0 < fs.dirCount ino) (hr : Removable fs ino name) : Removable fs2 ino name := by
  unfold Removable
  rw [h.dirNames hn]
  refine ⟨fun hin => ?_, fun _ => by rwa [h.dirCount]⟩
  obtain ⟨d, hd, hname, hremovable⟩ := hr.1 hin
  exact ⟨d, by rwa [h.records], by rwa [h.names d hd], h.recordRemovable hd hremovable⟩

end

/-- A directory whose records have other inode numbers is as well formed, with the same layout. -/
theorem DeleteCall.relabelled (h : DeleteCall fs ino name) (hn : 0 < fs.dirCount ino) (hr : Relabelled fs fs2 ino) :
    DeleteCall fs2 ino name ∧ SameLayout fs fs2 ino := by
  obtain ⟨m, hfs2, hm⟩ := hr
  have g := h.working.geometry
  obtain ⟨hkept, -, hfirst, -, hlater⟩ := h.dir.writeFirst g hn hfs2
  have hs := hkept.kept.shape
  obtain ⟨htiles, hlens, hnames⟩ := (h.dir.firstTiles hn).relabelled fun x _ hx hout =>
    show fs2.firstBlock ino x = fs.firstBlock ino x by rw [hfirst x hx, hm x hx hout]
  have hrecords : fs2.firstRecords ino = fs.firstRecords ino := by
    rw [Ext2.firstRecords, hs.blockSize]
    exact htiles.recordsFrom_eq (by omega)
  have htiled : Tiled fs.blockSize m := (htiles.tiled.1.congr fun x hx => (hfirst x hx).symm).1
  exact ⟨⟨h.working.congr hs, (h.dir.replaceFirst g hn hfs2).1.mpr htiled, h.noNul, h.notDot⟩, hs, hkept.stored, hrecords,
    map_inj_left.mp hlens, map_inj_left.mp hnames, hlater⟩

/-! ## When a deletion is right -/

theorem dirCount_pos (hin : name ∈ (fs.dirEntries (fs.storedInode ino)).map (·.1)) : 0 < fs.dirCount ino := by
  refine Nat.pos_of_ne_zero fun hzero => ?_
  simp [dirEntries_empty hzero] at hin

theorem DeleteCall.deletes (h : DeleteCall fs ino name) (hbs : fs.blockSize < 2 ^ 16)
    (hnd : ((fs.dirEntries (fs.storedInode ino)).map (·.1)).Nodup) (hr : Removable fs ino name) : Deletes fs ino name := by
  by_cases hin : name ∈ (fs.dirEntries (fs.storedInode ino)).map (·.1)
  · obtain ⟨d, hd, hhit, hremovable⟩ := hr.1 hin
    obtain ⟨pre, post, hf⟩ := exists_firstOf (dirCount_pos hin) hnd hd hhit
    rw [RecordRemovable, hf.erase] at hremovable
    rcases h.places hf with ⟨rfl, rfl, rfl, hlen⟩ | ⟨pre', o, rfl, rfl, -, -⟩ | hlt
    · rw [if_pos hlen] at hremovable
      exact (h.deletes_only hnd hf hlen).mpr hremovable
    · exact h.deletes_last hbs hf
    · rw [if_neg (by omega)] at hremovable
      obtain ⟨o, hmiddle, hiff⟩ := h.deletes_middle hbs hf hlt
      rcases hremovable with hend | ⟨hle, hle'⟩
      · omega
      · exact hiff.mpr (hmiddle.right hle hle')
  · have hn := hr.2 hin
    exact ⟨enoent, 0, fs, h.absent hn fun o ho he => hin (he ▸ mem_names hn ho), fun hin' => absurd hin' hin, fun _ => ⟨rfl, rfl⟩⟩

theorem byte_ne_succ : ∀ b : BitVec 8, b ≠ b + 1 := by decide

/-- Two directories that differ in one byte of an inode number show that the lengths decide. -/
theorem DeleteCall.rest_bounded (h : DeleteCall fs ino name) (hbs : fs.blockSize < 2 ^ 16) (hf : FirstOf fs ino name pre d post)
    (hd : d + recLen (fs.firstBlock ino) d < fs.blockSize) (hdel : Deletes fs ino name)
    (hall : ∀ fs2, Relabelled fs fs2 ino → Deletes fs2 ino name) :
    restBehind d ((pre ++ post).map (recLen (fs.firstBlock ino))) ≤ recLen (fs.firstBlock ino) d ∧
      restBehind d ((pre ++ post).map (recLen (fs.firstBlock ino))) ≤ fs.blockSize - d - recLen (fs.firstBlock ino) d := by
  obtain ⟨o, hmiddle, hiff⟩ := h.deletes_middle hbs hf hd
  by_contra hbad
  obtain ⟨rest, hrest⟩ : ∃ rest, restBehind d ((pre ++ post).map (recLen (fs.firstBlock ino))) = rest := ⟨_, rfl⟩
  obtain ⟨len, hlen⟩ : ∃ len, recLen (fs.firstBlock ino) d = len := ⟨_, rfl⟩
  rw [hrest] at hmiddle hbad
  have h0 : 0 < rest := by omega
  obtain ⟨hok, -, -⟩ := (h.tiles hf).mem (mem_append_right pre mem_cons_self)
  have hpos := hok.recLen_pos
  have hne := source_ne (by omega) hd hmiddle.bound h0 hbad
  have hbyte := hmiddle.needs h0 (hiff.mp hdel).2
  have hmem : ∀ x ∈ pre ++ post, x ∈ fs.firstRecords ino := fun x hx => mem_of_mem_erase (by rwa [hf.erase])
  have hv := hmem _ (hmiddle.next h0)
  have hbound : ∀ x < fs.blockSize, source fs.blockSize d len x < fs.blockSize := by
    intro x hx
    unfold source
    split <;> omega
  rw [hlen] at hne hbyte hv
  -- the low byte of the inode number behind the lengthened record is another one
  generalize hu' : source fs.blockSize d len (fs.blockSize - rest) = u at hne hbyte
  generalize hv' : source fs.blockSize d len (fs.blockSize - len - rest) = v at hne hbyte hv
  have hrel : Relabelled fs (fs.writeBlock (iBlock (fs.storedInode ino) 0)
      (update (fs.firstBlock ino) v (fs.firstBlock ino v + 1))) ino := by
    refine ⟨_, rfl, fun x hx hout => update_of_ne (fun he => ?_) _ _⟩
    have := hout v hv
    omega
  obtain ⟨-, -, hfirst, -⟩ := h.dir.writeFirst h.working.geometry hf.blocks
    rfl
  obtain ⟨h2, hsame⟩ := h.relabelled hf.blocks hrel
  have hdel2 := hall _ hrel
  generalize fs.writeBlock (iBlock (fs.storedInode ino) 0) (update (fs.firstBlock ino) v (fs.firstBlock ino v + 1)) = fs2
    at h2 hsame hdel2 hfirst
  have hbs2 := hsame.shape.blockSize
  have hlen2 : recLen (fs2.firstBlock ino) d = len := by rw [hsame.lengths d (by rw [hf.split]; simp), hlen]
  obtain ⟨o2, hmiddle2, hiff2⟩ := h2.deletes_middle (by rwa [hbs2]) (hsame.firstOf hf) (by rwa [hlen2, hbs2, ← hlen])
  have hmap := map_congr_left fun x hx => hsame.lengths x (hmem x hx)
  rw [hmap, hrest] at hmiddle2
  have hbyte2 := hmiddle2.needs h0 (hiff2.mp hdel2).2
  rw [hbs2, hlen2, hu', hv', hfirst u (hu' ▸ hbound _ (by omega)), hfirst v (hv' ▸ hbound _ (by omega)), update_self,
    update_of_ne hne, hbyte] at hbyte2
  exact byte_ne_succ _ hbyte2

/-- Deletion whatever the inode numbers needs such a place. -/
theorem DeleteCall.removable (h : DeleteCall fs ino name) (hbs : fs.blockSize < 2 ^ 16)
    (hnd : ((fs.dirEntries (fs.storedInode ino)).map (·.1)).Nodup) (hdel : Deletes fs ino name)
    (hall : ∀ fs2, Relabelled fs fs2 ino → Deletes fs2 ino name) : Removable fs ino name := by
  refine ⟨fun hin => ?_, fun hnot => Nat.pos_of_ne_zero fun hzero => ?_⟩
  · have hn := dirCount_pos hin
    by_cases hfirst : ∃ d ∈ fs.firstRecords ino, recName (fs.firstBlock ino) d = name
    · obtain ⟨d, hd, hhit⟩ := hfirst
      obtain ⟨pre, post, hf⟩ := exists_firstOf hn hnd hd hhit
      refine ⟨d, hd, hhit, ?_⟩
      rw [RecordRemovable, hf.erase]
      rcases h.places hf with ⟨rfl, rfl, rfl, hlen⟩ | ⟨pre', o, rfl, rfl, hpos, hend⟩ | hlt
      · rw [if_pos hlen]
        exact (h.deletes_only hnd hf hlen).mp hdel
      · rw [if_neg (by omega)]
        exact .inl hend
      · rw [if_neg (by omega)]
        exact .inr (h.rest_bounded hbs hf hlt hdel hall)
    · -- a later block has the name, and the search does not get there
      obtain ⟨ret, n, fs', hrun, hfound, -⟩ := hdel
      rw [h.absent hn fun o ho he => hfirst ⟨o, ho, he⟩] at hrun
      cases hrun
      exact absurd ((hfound hin).1) (by decide)
  · obtain ⟨ret, n, fs', hrun, -⟩ := hdel
    simp [h.empty hzero] at hrun

/-- `deleteInodeFromDir` takes the entry out of every directory with these records, whatever their inode numbers, exactly when the name is
in the first block, at a place from where it can be removed, or nowhere in a directory that has a block. -/
theorem deleteInodeFromDir_iff (hw : Working fs) (h : WellFormedDir fs ino) (hbs : fs.blockSize < 2 ^ 16)
    (hnd : ((fs.dirEntries (fs.storedInode ino)).map (·.1)).Nodup) (hname : NoNul name)
    (hdot : ¬ (name = Ext2.pathCurrDir ∨ name = Ext2.pathUpDir)) :
    (Deletes fs ino name ∧ ∀ fs2, Relabelled fs fs2 ino → Deletes fs2 ino name) ↔ Removable fs ino name := by
  have hcall : DeleteCall fs ino name := ⟨hw, h, hname, hdot⟩
  constructor
  · rintro ⟨hdel, hall⟩
    exact hcall.removable hbs hnd hdel hall
  · intro hr
    refine ⟨hcall.deletes hbs hnd hr, fun fs2 hrel => ?_⟩
    have hn : 0 < fs.dirCount ino := by
      by_cases hin : name ∈ (fs.dirEntries (fs.storedInode ino)).map (·.1)
      · exact dirCount_pos hin
      · exact hr.2 hin
    obtain ⟨hcall2, hsame⟩ := hcall.relabelled hn hrel
    exact hcall2.deletes (by rwa [hsame.shape.blockSize]) (by rwa [hsame.dirNames hn]) (hsame.removable hn hr)

theorem deleteInodeFromDir_last :
    smallFs.firstRecords 2 = [0, 12] ∧ Deletes smallFs 2 [0x61] ∧ ∀ fs2, Relabelled smallFs fs2 2 → Deletes fs2 2 [0x61] := by
  have hnames : (smallFs.dirEntries (smallFs.storedInode 2)).map (·.1) = [[0x62], [0x61]] := by decide
  refine ⟨by decide, (deleteInodeFromDir_iff smallFs_working smallFs_root (by decide) (by rw [smallNode, hnames]; decide) (by decide)
    (by decide)).mpr ⟨fun _ => ⟨12, by decide, by decide, ?_⟩, fun _ => by decide⟩⟩
  have hlen : recLen (smallFs.firstBlock 2) 12 = 1012 := by decide
  rw [RecordRemovable, smallNode, hlen, if_neg (by decide)]
  exact Or.inl rfl

/-! ## A record in the middle -/

/-- Three records of 600, 12 and 412 bytes, for the names `a`, `b` and `c`. -/
def threeRecords : Mem :=
  writeRecord (writeRecord (writeRecord (fun _ => 0) 0 3 [0x61] 600 1) 600 4 [0x62] 12 1) 612 5 [0x63] 412 1

def threeFs : Ext2 := smallFs.writeBlock 6 threeRecords

theorem threeFs_root : WellFormedDir threeFs 2 := by
  have hblock : iBlock (smallFs.storedInode 2) 0 = 6 := by decide
  exact (smallFs_root.replaceFirst smallFs_geometry (by decide)
    (show threeFs = smallFs.writeBlock (iBlock (smallFs.storedInode 2) 0) threeRecords by rw [hblock]; rfl)).1.mpr (by decide)

/-- The deletion of `b` lengthens `a` and not `c`: the directory then goes on in the middle of what was moved, at a record of length 0. -/
theorem middle_record_breaks : Working threeFs ∧ WellFormedDir threeFs 2 ∧
      threeFs.dirEntries (threeFs.storedInode 2) = [([0x61], 3), ([0x62], 4), ([0x63], 5)] ∧
      (threeFs.deleteInodeFromDir (threeFs.storedInode 2) 2 [0x62]).map (fun r => (r.1, r.2.1, recLen (r.2.2.firstBlock 2) 612)) =
        .ok (enoer, 4, 0) ∧
      ¬ Deletes threeFs 2 [0x62] := by
  have hrun : (threeFs.deleteInodeFromDir (threeFs.storedInode 2) 2 [0x62]).map
      (fun r => (r.1, r.2.1, recLen (r.2.2.firstBlock 2) 612)) = .ok (enoer, 4, 0) := by decide
  refine ⟨smallFs_working.congr (SameShape.writeBlock ..), threeFs_root, by decide, hrun, ?_⟩
  rintro ⟨ret, n, fs', heq, hin, -⟩
  have htiled : (threeFs.deleteInodeFromDir (threeFs.storedInode 2) 2 [0x62]).map
      (fun r => (decide (r.2.2.dirCount 2 = 1), decide (Tiled r.2.2.blockSize (r.2.2.firstBlock 2)))) = .ok (true, false) := by decide
  obtain ⟨-, -, hdir, -⟩ := hin (by decide)
  rw [heq] at htiled
  obtain ⟨hcount, hnot⟩ := Prod.mk.inj (Except.ok.inj htiled)
  exact of_decide_eq_false hnot (hdir.firstTiles (by rw [of_decide_eq_true hcount]; decide))

end OmegaOS
