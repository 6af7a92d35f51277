import OmegaOS.SysFile
import OmegaOS.Theorems.DirectoryCreate

/-!
# Nodes and the memory they are made in

`ino2vfs` sets flags on top of what `kmalloc` returned and leaves some function pointers as they were. What two runs of `ext2_finddir`
return depends only on the disk exactly when the memory holds no flag of its own and, unless the entry is a file or a directory, the
same pointers.
-/

namespace OmegaOS

open ByteMem CStr

variable {fs : Ext2} {node : VfsNode} {name : Str} {raw1 raw2 : FsNode} {ino : Nat} {inode : Mem}

/-- All `FS_*` bits. -/
def fsBits : Nat := 0x7F

/-- The bits that `ino2vfs` sets for the type of an inode. -/
def modeFlags (mask : Nat) : Nat :=
  (if mask &&& iFile = iFile then fsFile else 0) ||| (if mask &&& iDir = iDir then fsDir else 0) |||
    (if mask &&& iBlkdev = iBlkdev then fsBlkdev else 0) ||| (if mask &&& iChardev = iChardev then fsChardev else 0) |||
    (if mask &&& iFifo = iFifo then fsFifo else 0) ||| (if mask &&& iSymlink = iSymlink then fsSymlink else 0)

/-- `GET_FLAGS(inode->i_mode)`. -/
def typeMask (inode : Mem) : Nat := iMode inode &&& 0xF000

/-- The type is one for which `ino2vfs` sets the functions of a directory. -/
def SetsCallbacks (mask : Nat) : Prop := mask &&& iFile = iFile ∨ mask &&& iDir = iDir

/-- The functions of a directory. -/
def FsNode.dirCallbacks (node : FsNode) : List Callback := [node.readdir, node.finddir, node.create, node.mkdir, node.delete]

/-- All function pointers of a node. -/
def FsNode.callbacks (node : FsNode) : List Callback := [node.read, node.write, node.openFile, node.close] ++ node.dirCallbacks

/-- Two nodes for the same inode have the same flags, which are those of its mode, and the same functions, and are treated alike by those
that look at them. -/
structure SameMetadata (fs : Ext2) (n₁ n₂ : FsNode) : Prop where
  flags : n₁.flags = n₂.flags
  bits : ∀ inode, fs.readInode n₁.inode = some inode → n₁.flags &&& fsBits = modeFlags (typeMask inode)
  callbacks : n₁.callbacks = n₂.callbacks
  read : ∀ attr kbd offset size buffer,
    vfsRead fs { n₁ with attr := attr } kbd offset size buffer = vfsRead fs { n₂ with attr := attr } kbd offset size buffer
  readdir : ∀ index, vfsReaddir fs n₁ index = vfsReaddir fs n₂ index
  ftell : vfsFtell n₁ = vfsFtell n₂
  chdir : n₁.flags &&& fsDir = 0 ↔ n₂.flags &&& fsDir = 0

/-- Both runs find the entry or both do not, and what they return has the same metadata. -/
def MetadataFromDisk (fs : Ext2) (node : VfsNode) (name : Str) (raw1 raw2 : FsNode) : Prop :=
  (fs.ext2Finddir node name raw1).map (·.isSome) = (fs.ext2Finddir node name raw2).map (·.isSome) ∧
    ∀ n₁ n₂, fs.ext2Finddir node name raw1 = .ok (some n₁) → fs.ext2Finddir node name raw2 = .ok (some n₂) → SameMetadata fs n₁ n₂

/-- What the disk has for the entry: the number of its inode and the inode. -/
def Ext2.entryInode (fs : Ext2) (node : VfsNode) (name : Str) : Except Halt (Option (Nat × Mem)) :=
  match fs.readInode node.inode with
  | none => .ok none
  | some inode =>
    if !inodeDir inode then .ok none
    else if !fs.heapOk then .ok none
    else do
      match ← fs.findInBlocks inode name 0 (iSize inode / fs.blockSize) with
      | none => return none
      | some ino => return (fs.readInode ino).map fun inode => (ino, inode)

/-- Memory that adds nothing to the flags of the type, and differs only where it is overwritten. -/
def RawAgree (mask : Nat) (raw1 raw2 : FsNode) : Prop :=
  (raw1.flags &&& fsBits) ||| modeFlags mask = modeFlags mask ∧ raw1.flags ||| modeFlags mask = raw2.flags ||| modeFlags mask ∧
    (SetsCallbacks mask ∨ raw1.dirCallbacks = raw2.dirCallbacks)

/-! ## What `ino2vfs` makes of the memory -/

theorem FsNode.mark_flags (node : FsNode) (mask bits flag : Nat) :
    (node.mark mask bits flag).flags = node.flags ||| if mask &&& bits = bits then flag else 0 := by
  unfold FsNode.mark
  split <;> simp

theorem FsNode.markFile_flags (node : FsNode) (mask : Nat) :
    (node.markFile mask).flags = node.flags ||| if mask &&& iFile = iFile then fsFile else 0 := by
  unfold FsNode.markFile
  split <;> simp

theorem FsNode.markDir_flags (node : FsNode) (mask : Nat) :
    (node.markDir mask).flags = node.flags ||| if mask &&& iDir = iDir then fsDir else 0 := by
  unfold FsNode.markDir
  split <;> simp

theorem FsNode.fill_flags (raw : FsNode) (ino : Nat) (inode : Mem) :
    (raw.fill ino inode).flags = raw.flags ||| modeFlags (typeMask inode) := by
  simp only [FsNode.fill, FsNode.mark_flags, FsNode.markFile_flags, FsNode.markDir_flags, modeFlags, Nat.or_assoc]
  rfl

theorem modeFlags_and_fsBits (mask : Nat) : modeFlags mask &&& fsBits = modeFlags mask := by
  simp only [modeFlags]
  split_ifs <;> rfl

theorem FsNode.mark_dirCallbacks (node : FsNode) (mask bits flag : Nat) : (node.mark mask bits flag).dirCallbacks = node.dirCallbacks := by
  unfold FsNode.mark
  split <;> rfl

/-- The functions are those of a directory, or none for a file, or what was there. -/
theorem FsNode.fill_callbacks (raw : FsNode) (ino : Nat) (inode : Mem) : (raw.fill ino inode).callbacks = List.replicate 4 .ext2 ++
      if typeMask inode &&& iDir = iDir then List.replicate 5 .ext2
      else if typeMask inode &&& iFile = iFile then List.replicate 5 .null else raw.dirCallbacks := by
  have hkept : (raw.fill ino inode).dirCallbacks =
      (({ raw with inode := ino, size := iSize inode, offset := 0 } : FsNode).markFile (typeMask inode) |>.markDir (typeMask inode)).dirCallbacks :=
    ((FsNode.mark_dirCallbacks _ _ _ _).trans (FsNode.mark_dirCallbacks _ _ _ _)).trans
      ((FsNode.mark_dirCallbacks _ _ _ _).trans (FsNode.mark_dirCallbacks _ _ _ _))
  have hdir : (raw.fill ino inode).callbacks = List.replicate 4 .ext2 ++ (raw.fill ino inode).dirCallbacks := rfl
  rw [hdir, hkept, FsNode.markDir, FsNode.markFile]
  congr 1
  split
  · rfl
  · split <;> rfl

/-- A node is known by its place on the disk, its mode of access, its flags and its functions. -/
theorem FsNode.eq_of_fields {n1 n2 : FsNode} (hnode : n1.toVfsNode = n2.toVfsNode) (hattr : n1.attr = n2.attr) (hflags : n1.flags = n2.flags)
    (hcallbacks : n1.callbacks = n2.callbacks) : n1 = n2 := by
  obtain ⟨v1, a1, f1, _, _, _, _, _, _, _, _, _⟩ := n1
  obtain ⟨v2, a2, f2, _, _, _, _, _, _, _, _, _⟩ := n2
  simp only [FsNode.callbacks, FsNode.dirCallbacks, List.cons_append, List.nil_append, List.cons.injEq, and_true] at hcallbacks
  simp_all

/-! ## Two runs -/

/-- `ext2_finddir` fills the memory with what the disk has. -/
theorem ext2Finddir_eq (fs : Ext2) (node : VfsNode) (name : Str) (raw : FsNode) :
    fs.ext2Finddir node name raw = (fs.entryInode node name).map (·.map fun r => raw.fill r.1 r.2) := by
  unfold Ext2.ext2Finddir Ext2.entryInode
  cases fs.readInode node.inode with
  | none => rfl
  | some inode =>
    dsimp only
    cases inodeDir inode with
    | false => rfl
    | true =>
      cases hheap : fs.heapOk with
      | false => rfl
      | true =>
        cases fs.findInBlocks inode name 0 (iSize inode / fs.blockSize) with
        | error e => rfl
        | ok found =>
          cases found with
          | none => rfl
          | some ino =>
            show Except.ok (fs.ino2vfs ino raw) = .ok _
            rw [Ext2.ino2vfs]
            cases fs.readInode ino with
            | none => rfl
            | some inode =>
              rw [hheap]
              rfl

theorem entryInode_readInode (h : fs.entryInode node name = .ok (some (ino, inode))) : fs.readInode ino = some inode := by
  unfold Ext2.entryInode at h
  split at h
  · cases h
  · split at h
    · cases h
    · split at h
      · cases h
      · obtain ⟨found, -, h⟩ := bind_eq_ok.mp h
        cases found with
        | none => cases h
        | some n =>
          obtain ⟨_, hread, he⟩ := Option.map_eq_some_iff.mp (Except.ok.inj h)
          cases he
          exact hread

/-- When two fillings of a node agree. -/
theorem fill_sameMetadata_iff (hread : fs.readInode ino = some inode) :
    SameMetadata fs (raw1.fill ino inode) (raw2.fill ino inode) ↔ RawAgree (typeMask inode) raw1 raw2 := by
  have hino : ∀ raw : FsNode, (raw.fill ino inode).toVfsNode = ⟨ino, iSize inode, 0⟩ := fun raw => FsNode.fill_toVfsNode raw ino inode
  have hbits : (raw1.flags ||| modeFlags (typeMask inode)) &&& fsBits = (raw1.flags &&& fsBits) ||| modeFlags (typeMask inode) := by
    rw [Nat.and_or_distrib_right, modeFlags_and_fsBits]
  constructor
  · intro h
    refine ⟨?_, ?_, ?_⟩
    · rw [← hbits, ← FsNode.fill_flags raw1 ino inode]
      exact h.bits inode (by rwa [hino])
    · rw [← FsNode.fill_flags raw1 ino inode, ← FsNode.fill_flags raw2 ino inode]
      exact h.flags
    · by_cases hsets : SetsCallbacks (typeMask inode)
      · exact .inl hsets
      · obtain ⟨hfile, hdir⟩ := not_or.mp hsets
        have hcallbacks := h.callbacks
        rw [FsNode.fill_callbacks, FsNode.fill_callbacks, if_neg hdir, if_neg hfile, if_neg hdir, if_neg hfile] at hcallbacks
        exact .inr (List.append_cancel_left hcallbacks)
  · rintro ⟨hown, hflags, hcallbacks⟩
    have hflags' : (raw1.fill ino inode).flags = (raw2.fill ino inode).flags := by
      rw [FsNode.fill_flags, FsNode.fill_flags, hflags]
    have hcallbacks' : (raw1.fill ino inode).callbacks = (raw2.fill ino inode).callbacks := by
      rw [FsNode.fill_callbacks, FsNode.fill_callbacks]
      split
      · rfl
      · split
        · rfl
        · rw [hcallbacks.resolve_left (not_or.mpr ⟨‹_›, ‹_›⟩)]
    -- but for the mode of access the nodes are equal
    have hsame : ∀ attr, { raw1.fill ino inode with attr := attr } = { raw2.fill ino inode with attr := attr } := by
      intro attr
      exact FsNode.eq_of_fields ((hino raw1).trans (hino raw2).symm) rfl hflags' hcallbacks'
    refine ⟨hflags', fun inode' hread' => ?_, hcallbacks', fun attr kbd offset size buffer => by rw [hsame], fun index => ?_, ?_, by rw [hflags']⟩
    · rw [hino, hread] at hread'
      cases hread'
      rw [FsNode.fill_flags, hbits, hown]
    · show vfsReaddir fs { raw1.fill ino inode with attr := 0 } index = vfsReaddir fs { raw2.fill ino inode with attr := 0 } index
      rw [hsame]
    · show vfsFtell { raw1.fill ino inode with attr := 0 } = vfsFtell { raw2.fill ino inode with attr := 0 }
      rw [hsame]

/-- What two runs of `ext2_finddir` return has the metadata of the disk exactly when the memory for the node holds no flag but those of
the type of the entry, holds the same other bits in both runs and, when the entry is no file and no directory, the same functions. The
name is one that fits in `node->name`. -/
theorem finddir_metadata_iff (fs : Ext2) (node : VfsNode) (name : Str) (_ : name.length < fsMaxPath) (raw1 raw2 : FsNode) :
    MetadataFromDisk fs node name raw1 raw2 ↔
      ∀ ino inode, fs.entryInode node name = .ok (some (ino, inode)) → RawAgree (typeMask inode) raw1 raw2 := by
  rw [MetadataFromDisk, ext2Finddir_eq, ext2Finddir_eq]
  cases hentry : fs.entryInode node name with
  | error e => exact iff_of_true ⟨rfl, fun _ _ h => by cases h⟩ fun _ _ h => by cases h
  | ok entry =>
    cases entry with
    | none => exact iff_of_true ⟨rfl, fun _ _ h => by cases h⟩ fun _ _ h => by cases h
    | some r =>
      have hiff : SameMetadata fs (raw1.fill r.1 r.2) (raw2.fill r.1 r.2) ↔ RawAgree (typeMask r.2) raw1 raw2 :=
        fill_sameMetadata_iff (entryInode_readInode hentry)
      constructor
      · rintro ⟨-, hsame⟩ _ _ ⟨⟩
        exact hiff.mp (hsame _ _ rfl rfl)
      · intro hagree
        refine ⟨rfl, ?_⟩
        rintro _ _ ⟨⟩ ⟨⟩
        exact hiff.mpr (hagree _ _ rfl)

/-- Memory of zeroes for the entry `a` of the root directory. -/
theorem finddir_metadata_zeroed : MetadataFromDisk smallFs ⟨2, 1024, 0⟩ [0x61] emptyNode emptyNode :=
  (finddir_metadata_iff smallFs ⟨2, 1024, 0⟩ [0x61] (by decide) emptyNode emptyNode).mpr fun _ _ _ =>
    ⟨by rw [show emptyNode.flags = 0 from rfl, Nat.zero_and, Nat.zero_or], rfl, .inr rfl⟩

/-- The entry `a` of the root directory is a file; memory that holds `FS_DIR` makes a node that `sys_chdir` accepts. -/
theorem finddir_keeps_stray_flag : (smallFs.ext2Finddir ⟨2, 1024, 0⟩ [0x61] emptyNode).toOption.map (·.map (·.flags)) = some (some fsFile) ∧
      (smallFs.ext2Finddir ⟨2, 1024, 0⟩ [0x61] { emptyNode with flags := fsDir }).toOption.map (·.map (·.flags)) =
        some (some (fsFile ||| fsDir)) := by
  decide

end OmegaOS
