import OmegaOS.Lemmas.Ext2Direct
import OmegaOS.Lemmas.Ext2Records

/-!
# Directories of the ext2 driver

A directory as the list of its entries, and the search for a name as a search in that list.
-/

namespace OmegaOS

open ByteMem CStr List Ext2

variable {fs fs' : Ext2} {ino : Nat} {inode m : Mem} {name : Str} {entries : List (Str × Nat)}

/-! ## Entries -/

/-- A block of a directory, as the driver finds it. -/
def Ext2.dirBlock (fs : Ext2) (inode : Mem) (k : Nat) : Mem := fs.disk (fs.physical (fs.getRealBlock inode k))

theorem readInodeBlock_dirBlock (hread : ∀ b, fs.readable b = true) (inode : Mem) (k : Nat) :
    fs.readInodeBlock inode k = some (fs.dirBlock inode k) := by
  rw [readInodeBlock, readBlock, if_pos (hread _)]
  rfl

theorem readInodeBlock_eq_dirBlock {tmpBuf : Mem} (h : fs.readInodeBlock inode k = some tmpBuf) : tmpBuf = fs.dirBlock inode k := by
  rw [readInodeBlock, readBlock] at h
  split at h
  · exact (Option.some.inj h).symm
  · cases h

/-- The entries of a directory, block by block. -/
def Ext2.dirEntries (fs : Ext2) (inode : Mem) : List (Str × Nat) :=
  (List.range (iSize inode / fs.blockSize)).flatMap fun k => blockEntries fs.blockSize (fs.dirBlock inode k)

/-- The records of a directory, block by block. -/
def Ext2.dirRecords (fs : Ext2) (inode : Mem) : List (Str × Nat × Nat) :=
  (List.range (iSize inode / fs.blockSize)).flatMap fun k => blockRecords fs.blockSize (fs.dirBlock inode k)

theorem dirEntries_eq (fs : Ext2) (inode : Mem) : fs.dirEntries inode = (fs.dirRecords inode).map untyped := by
  simp only [dirEntries, dirRecords, map_flatMap, blockEntries_eq]

/-- Every block of the directory is tiled by records. -/
def TiledDir (fs : Ext2) (inode : Mem) : Prop := ∀ k < iSize inode / fs.blockSize, Tiled fs.blockSize (fs.dirBlock inode k)

/-- The inode of the first entry of a name. -/
def lookup (entries : List (Str × Nat)) (name : Str) : Option Nat := (entries.find? fun e => e.1 = name).map (·.2)

theorem lookup_append (es es' : List (Str × Nat)) (name : Str) : lookup (es ++ es') name = (lookup es name).or (lookup es' name) := by
  rw [lookup, lookup, lookup, find?_append]
  cases es.find? fun e => e.1 = name <;> rfl

theorem lookup_eq_none : lookup entries name = none ↔ name ∉ entries.map (·.1) := by
  rw [lookup, Option.map_eq_none_iff, find?_eq_none, mem_map]
  constructor
  · rintro h ⟨e, he, rfl⟩
    exact h e he (decide_eq_true rfl)
  · intro h e he hname
    exact h ⟨e, he, of_decide_eq_true hname⟩

theorem lookup_mem (h : lookup entries name = some n) : (name, n) ∈ entries := by
  rw [lookup, Option.map_eq_some_iff] at h
  obtain ⟨e, he, rfl⟩ := h
  have hname : e.1 = name := by simpa using find?_some he
  rw [← hname]
  exact mem_of_find?_eq_some he

/-! ## The search -/

theorem lookup_blockEntries {bs : Nat} (name : Str) :
    lookup (blockEntries bs m) name = ((recordsFrom bs m bs 0).find? fun o => recName m o = name).map (dirInode m) := by
  rw [lookup, blockEntries, find?_map, Option.map_map]
  rfl

/-- The loop over the blocks finds the first entry of the blocks that are left. -/
theorem findInBlocks_eq (hread : ∀ b, fs.readable b = true) (hbs : 0 < fs.blockSize) (hname : NoNul name) (block fuel : Nat)
    (htiled : ∀ k, block ≤ k → k < block + fuel → Tiled fs.blockSize (fs.dirBlock inode k)) : fs.findInBlocks inode name block fuel =
      .ok (lookup ((List.range' block fuel).flatMap fun k => blockEntries fs.blockSize (fs.dirBlock inode k)) name) := by
  induction fuel generalizing block with
  | zero => rfl
  | succ fuel ih =>
    have hfind := findRecord_eq (htiled block .refl (by omega)) hbs hname (show fs.blockSize ≤ 0 + fs.blockSize by omega)
    rw [findInBlocks, readInodeBlock_dirBlock hread, range'_succ, flatMap_cons, lookup_append, lookup_blockEntries]
    dsimp only
    rw [hfind]
    cases hhit : (recordsFrom fs.blockSize (fs.dirBlock inode block) fs.blockSize 0).find?
        fun o => recName (fs.dirBlock inode block) o = name with
    | some o => rfl
    | none =>
      rw [Option.map_none, Option.none_or]
      exact ih (block + 1) fun k hk hlt => htiled k (by omega) (by omega)

/-- The entry that `ext2_readdir` returns, with the name as a string of at most `EXT2_MAX_NAME` bytes. -/
def Ext2.Dirent.entry (e : Ext2.Dirent) : Str × Nat := (strAt e.name 0 255, e.ino)

theorem dirent_entry (hok : RecordOk m d) : Ext2.Dirent.entry ⟨dirInode m d, fun x => m (d + dirHeader + x)⟩ = entryAt m d := by
  have hlen : nameLen m d < 256 := load_lt m (d + 6) 1
  rw [Ext2.Dirent.entry, strAt_shift, add_zero, strAt_of_terminated hok.2 (by omega)]
  rfl

/-- The loop over the blocks counts the entries of the blocks that are left. -/
theorem readdirBlocks_eq (hread : ∀ b, fs.readable b = true) (hbs : 0 < fs.blockSize) (block fuel skip : Nat)
    (htiled : ∀ k, block ≤ k → k < block + fuel → Tiled fs.blockSize (fs.dirBlock inode k)) :
    (fs.readdirBlocks inode block fuel skip).map Ext2.Dirent.entry =
      ((List.range' block fuel).flatMap fun k => blockEntries fs.blockSize (fs.dirBlock inode k))[skip]? := by
  induction fuel generalizing block skip with
  | zero => rfl
  | succ fuel ih =>
    have ht := htiled block .refl (by omega)
    rw [readdirBlocks, readInodeBlock_dirBlock hread, range'_succ, flatMap_cons, getElem?_append, blockEntries, length_map, getElem?_map]
    dsimp only
    rw [nthRecord_eq ht hbs]
    by_cases hskip : skip < (recordsFrom fs.blockSize (fs.dirBlock inode block) fs.blockSize 0).length
    · rw [if_pos hskip, getElem?_eq_getElem hskip]
      exact congrArg some (dirent_entry (Tiles.mem ht (getElem_mem hskip)).1)
    · rw [if_neg hskip, getElem?_eq_none (Nat.le_of_not_lt hskip)]
      exact ih (block + 1) _ fun k hk hlt => htiled k (by omega) (by omega)

/-- An inode number of the filesystem. -/
def Ext2.InodeExists (fs : Ext2) (ino : Nat) : Prop := fs.inodeGroup ino < fs.groupCount

instance (fs : Ext2) (ino : Nat) : Decidable (fs.InodeExists ino) := inferInstanceAs (Decidable (_ < _))

theorem SameShape.inodeExists (h : SameShape fs fs') (ino : Nat) : fs'.InodeExists ino ↔ fs.InodeExists ino := by
  rw [Ext2.InodeExists, h.inodeGroup, h.groupCount]
  rfl

/-! ## Nodes -/

section

variable (node : FsNode) (mask bits flag : Nat)

@[simp] theorem FsNode.mark_toVfsNode : (node.mark mask bits flag).toVfsNode = node.toVfsNode := by
  unfold FsNode.mark
  split <;> rfl

@[simp] theorem FsNode.markFile_toVfsNode : (node.markFile mask).toVfsNode = node.toVfsNode := by
  unfold FsNode.markFile
  split <;> rfl

@[simp] theorem FsNode.markDir_toVfsNode : (node.markDir mask).toVfsNode = node.toVfsNode := by
  unfold FsNode.markDir
  split <;> rfl

/-- Whatever the type of the inode, the number and the size are its own. -/
theorem FsNode.fill_toVfsNode (raw : FsNode) (ino : Nat) (inode : Mem) : (raw.fill ino inode).toVfsNode = ⟨ino, iSize inode, 0⟩ := by
  simp [FsNode.fill]

end

theorem Working.ino2vfs (h : Working fs) (hino : fs.InodeExists ino) (raw : FsNode) :
    fs.ino2vfs ino raw = some (raw.fill ino (fs.storedInode ino)) := by
  rw [Ext2.ino2vfs, (h.opened hino).readInode h.heapOk]
  rw [h.heapOk]
  rfl

/-- What `ext2_finddir` returns for the entry that it finds. -/
def Ext2.nodeOf (fs : Ext2) (raw : FsNode) (ino : Nat) : Option FsNode :=
  if fs.InodeExists ino then some (raw.fill ino (fs.storedInode ino)) else none

theorem ext2Finddir_of_find {node : VfsNode} {raw : FsNode} {found : Option Nat} (hread : fs.readInode node.inode = some inode)
    (hdir : inodeDir inode = true) (hheap : fs.heapOk = true)
    (hfind : fs.findInBlocks inode name 0 (iSize inode / fs.blockSize) = .ok found) :
    fs.ext2Finddir node name raw = .ok (found.bind fun n => fs.ino2vfs n raw) := by
  unfold ext2Finddir
  simp only [hread, hdir, hheap, hfind, Bool.not_true, Bool.false_eq_true, if_false]
  cases found with
  | none => rfl
  | some n => rfl

section

variable {node : VfsNode} (h : Working fs) (hino : fs.InodeExists node.inode) (hdir : inodeDir (fs.storedInode node.inode) = true)
  (htiled : TiledDir fs (fs.storedInode node.inode))

include h hino hdir htiled

theorem Working.ext2Readdir (index : Nat) :
    (fs.ext2Readdir node index).map Ext2.Dirent.entry = (fs.dirEntries (fs.storedInode node.inode))[index]? := by
  obtain ⟨hbs, -⟩ := h.geometry.blockSize_bounds
  unfold Ext2.ext2Readdir
  simp only [(h.opened hino).readInode h.heapOk, hdir, h.heapOk, Bool.not_true, Bool.false_eq_true, if_false]
  rw [readdirBlocks_eq h.readable (Nat.zero_lt_of_lt hbs) 0 _ index fun k _ hk => htiled k (by omega), ← range_eq_range']
  rfl

theorem Working.ext2Finddir (hname : NoNul name) (raw : FsNode) :
    fs.ext2Finddir node name raw = .ok ((lookup (fs.dirEntries (fs.storedInode node.inode)) name).bind (fs.nodeOf raw)) := by
  obtain ⟨hbs, -⟩ := h.geometry.blockSize_bounds
  have hread := (h.opened hino).readInode h.heapOk
  generalize fs.storedInode node.inode = inode at hdir htiled hread ⊢
  have hfind := findInBlocks_eq h.readable (Nat.zero_lt_of_lt hbs) hname 0 (iSize inode / fs.blockSize) fun k _ hk => htiled k (by omega)
  rw [← range_eq_range'] at hfind
  rw [ext2Finddir_of_find hread hdir h.heapOk hfind, dirEntries]
  congr 2
  funext n
  rw [nodeOf]
  split
  · rw [h.ino2vfs ‹_›]
  · rw [Ext2.ino2vfs, Ext2.readInode, if_pos (Nat.le_of_not_lt ‹_›)]

end

end OmegaOS
