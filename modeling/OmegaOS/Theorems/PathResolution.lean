import Mathlib.Data.Nat.Bitwise
import OmegaOS.Lemmas.Path
import OmegaOS.Theorems.DirectoryCreate

/-!
# Path resolution

The filesystem as a tree of directories, and `vfs_openFile` as the walk through it along the components of the normalised path.
-/

namespace OmegaOS

open ByteMem CStr Ext2

variable {fs : Ext2} {ino n : Nat} {node rootFS : FsNode} {c cwd name : Str} {cs : List Str}

/-! ## The tree -/

/-- The inode of a regular file. -/
def IsRegular (inode : Mem) : Prop := iMode inode &&& 0xF000 = iFile

/-- The inode of a directory. -/
def IsDirectory (inode : Mem) : Prop := iMode inode &&& 0xF000 = iDir

/-- One step: the inode of the first entry of the name, in a directory. -/
def Ext2.child (fs : Ext2) (ino : Nat) (name : Str) : Option Nat :=
  if inodeDir (fs.storedInode ino) then lookup (fs.dirEntries (fs.storedInode ino)) name else none

/-- The walk along a list of names. -/
def Ext2.walk (fs : Ext2) (ino : Nat) : List Str → Option Nat
  | [] => some ino
  | c :: cs => (fs.child ino c).bind fun n => fs.walk n cs

/-- The inodes that a walk from the root gets to. -/
inductive Reachable (fs : Ext2) : Nat → Prop
  | root : Reachable fs inodeRoot
  | child {ino n : Nat} {c : Str} (h : Reachable fs ino) (hc : IsComponent c) (hno : NoNul c) (hn : fs.child ino c = some n) :
      Reachable fs n

/-- Every inode that a walk gets to is one of the filesystem, and a regular file or a directory that is tiled by records; the root is a
directory. -/
structure TreeOk (fs : Ext2) : Prop where
  root : IsDirectory (fs.storedInode inodeRoot)
  inodes : ∀ ino, Reachable fs ino → fs.InodeExists ino ∧
    (IsRegular (fs.storedInode ino) ∨ IsDirectory (fs.storedInode ino) ∧ TiledDir fs (fs.storedInode ino))

/-- A component is missing, or something else than a directory is walked through: the walk gets to `d` and not from there by `c`. -/
def Missing (fs : Ext2) (cs : List Str) : Prop :=
  ∃ before c after d, cs = before ++ c :: after ∧ fs.walk inodeRoot before = some d ∧
    (inodeDir (fs.storedInode d) = false ∨ lookup (fs.dirEntries (fs.storedInode d)) c = none)

theorem IsDirectory.inodeDir {inode : Mem} (h : IsDirectory inode) : inodeDir inode = true := by
  rw [OmegaOS.inodeDir, h]
  rfl

theorem IsRegular.inodeDir {inode : Mem} (h : IsRegular inode) : inodeDir inode = false := by
  rw [OmegaOS.inodeDir, h]
  rfl

theorem Ext2.walk_append (fs : Ext2) (ino : Nat) (as bs : List Str) :
    fs.walk ino (as ++ bs) = (fs.walk ino as).bind fun n => fs.walk n bs := by
  induction as generalizing ino with
  | nil => rfl
  | cons c as ih =>
    rw [List.cons_append, walk, walk, Option.bind_assoc]
    congr 1
    funext n
    exact ih n

/-- A walk fails at one of its components. -/
theorem Ext2.walk_none_iff (fs : Ext2) (ino : Nat) (cs : List Str) :
    fs.walk ino cs = none ↔ ∃ before c after d, cs = before ++ c :: after ∧ fs.walk ino before = some d ∧ fs.child d c = none := by
  constructor
  · intro h
    induction cs generalizing ino with
    | nil => cases h
    | cons c cs ih =>
      cases hchild : fs.child ino c with
      | none => exact ⟨[], c, cs, ino, rfl, rfl, hchild⟩
      | some n =>
        rw [walk, hchild] at h
        obtain ⟨before, c', after, d, rfl, hwalk, hnone⟩ := ih n h
        refine ⟨c :: before, c', after, d, rfl, ?_, hnone⟩
        rwa [walk, hchild]
  · rintro ⟨before, c, after, d, rfl, hwalk, hnone⟩
    rw [walk_append, hwalk, Option.bind_some, walk, hnone]
    rfl

theorem missing_iff (fs : Ext2) (cs : List Str) : Missing fs cs ↔ fs.walk inodeRoot cs = none := by
  have hchild : ∀ d c, fs.child d c = none ↔
      (inodeDir (fs.storedInode d) = false ∨ lookup (fs.dirEntries (fs.storedInode d)) c = none) := by
    intro d c
    rw [child]
    cases inodeDir (fs.storedInode d) <;> simp
  rw [walk_none_iff, Missing]
  simp only [hchild]

/-! ## Nodes of the tree -/

theorem FsNode.mark_finddir (node : FsNode) (mask bits flag : Nat) : (node.mark mask bits flag).finddir = node.finddir := by
  unfold FsNode.mark
  split <;> rfl

theorem FsNode.mark_testBit (node : FsNode) (mask bits flag : Nat) (h : node.flags.testBit i = true) :
    (node.mark mask bits flag).flags.testBit i = true := by
  unfold FsNode.mark
  split
  · simp [h]
  · exact h

/-- A node that is a directory for the functions of the virtual filesystem. -/
structure IsDirNode (node : FsNode) : Prop where
  finddir : node.finddir = .ext2
  flags : node.flags &&& fsDir = fsDir

theorem and_fsDir_iff (flags : Nat) : flags &&& fsDir = fsDir ↔ flags.testBit 1 = true := by
  have h := Nat.and_two_pow flags 1
  rw [show fsDir = 2 ^ 1 from rfl, h]
  cases flags.testBit 1 <;> simp

theorem FsNode.fill_dir (raw : FsNode) (ino : Nat) {inode : Mem} (h : IsDirectory inode) : IsDirNode (raw.fill ino inode) := by
  unfold IsDirectory at h
  constructor
  · simp only [FsNode.fill, h, FsNode.mark_finddir]
    rfl
  · rw [and_fsDir_iff]
    simp only [FsNode.fill, h]
    refine FsNode.mark_testBit _ _ _ _ (FsNode.mark_testBit _ _ _ _ (FsNode.mark_testBit _ _ _ _ (FsNode.mark_testBit _ _ _ _ ?_)))
    rw [FsNode.markDir, if_pos (by decide)]
    simp [show fsDir.testBit 1 = true from rfl]

/-- The node that is filled for a regular file has no `finddir`. -/
theorem FsNode.fill_file (raw : FsNode) (ino : Nat) {inode : Mem} (h : IsRegular inode) : (raw.fill ino inode).finddir = .null := by
  unfold IsRegular at h
  simp only [FsNode.fill, h, FsNode.mark_finddir]
  rfl

/-- The node of an inode, as far as a search goes. -/
structure NodeFor (fs : Ext2) (node : FsNode) (ino : Nat) : Prop where
  inode : node.inode = ino
  dir : IsDirectory (fs.storedInode ino) → IsDirNode node
  file : IsRegular (fs.storedInode ino) → node.finddir = .null

theorem nodeFor_fill (fs : Ext2) (raw : FsNode) (ino : Nat) : NodeFor fs (raw.fill ino (fs.storedInode ino)) ino :=
  ⟨congrArg VfsNode.inode (FsNode.fill_toVfsNode ..), FsNode.fill_dir raw ino, FsNode.fill_file raw ino⟩

theorem IsDirNode.vfsFinddir (h : IsDirNode node) (hw : Working fs) (hino : fs.InodeExists node.inode)
    (hdir : inodeDir (fs.storedInode node.inode) = true) (htiled : TiledDir fs (fs.storedInode node.inode)) (hno : NoNul c) (raw : FsNode) :
    vfsFinddir fs node c raw = .ok ((lookup (fs.dirEntries (fs.storedInode node.inode)) c).bind (fs.nodeOf raw)) := by
  rw [OmegaOS.vfsFinddir, h.finddir, h.flags]
  exact hw.ext2Finddir hino hdir htiled hno raw

section

variable (ht : TreeOk fs) (hw : Working fs) (hreach : Reachable fs ino) (hnode : NodeFor fs node ino)

include ht hw hreach hnode

theorem TreeOk.vfsFinddir (hc : IsComponent c) (hno : NoNul c) (raw : FsNode) :
    vfsFinddir fs node c raw = .ok ((fs.child ino c).map fun n => raw.fill n (fs.storedInode n)) := by
  obtain ⟨hino, hregular | ⟨hdir, htiled⟩⟩ := ht.inodes ino hreach
  · rw [OmegaOS.vfsFinddir, if_pos (hnode.file hregular), child, hregular.inodeDir]
    rfl
  · have hisDir := hnode.dir hdir
    obtain rfl := hnode.inode
    have hchild : fs.child node.inode c = lookup (fs.dirEntries (fs.storedInode node.inode)) c := by
      rw [child, hdir.inodeDir]
      rfl
    rw [hisDir.vfsFinddir hw hino hdir.inodeDir htiled hno raw, ← hchild]
    cases hn : fs.child node.inode c with
    | none => rfl
    | some n =>
      have hexists := (ht.inodes n (.child hreach hc hno hn)).1
      rw [Option.bind_some, nodeOf, if_pos hexists]
      rfl

theorem TreeOk.walkNodes (hc : ∀ c ∈ cs, IsComponent c ∧ NoNul c) (heap : Nat → FsNode) (depth : Nat) :
    ∃ r, walkNodes fs heap node depth cs = .ok r ∧ r.map (·.inode) = fs.walk ino cs := by
  induction cs generalizing ino node depth with
  | nil => exact ⟨some node, rfl, by rw [Option.map_some, hnode.inode]; rfl⟩
  | cons c cs ih =>
    obtain ⟨hcomponent, hno⟩ := hc c List.mem_cons_self
    rw [OmegaOS.walkNodes, ht.vfsFinddir hw hreach hnode hcomponent hno, walk]
    cases hn : fs.child ino c with
    | none => exact ⟨none, rfl, rfl⟩
    | some n =>
      exact ih (.child hreach hcomponent hno hn) (nodeFor_fill fs (heap depth) n) (fun x hx => hc x (.tail c hx)) (depth + 1)

end

/-! ## `vfs_openFile` -/

/-- The node that `ext2_init` keeps for the root. -/
structure Mounted (rootFS : FsNode) : Prop where
  inode : rootFS.inode = inodeRoot
  dir : IsDirNode rootFS

/-- `ext2_init` fills it from the inode of the root, which it asserts to be a directory. -/
theorem mounted_fill (raw : FsNode) {inode : Mem} (h : IsDirectory inode) : Mounted (raw.fill inodeRoot inode) :=
  ⟨congrArg VfsNode.inode (FsNode.fill_toVfsNode ..), FsNode.fill_dir raw inodeRoot h⟩

theorem Mounted.nodeFor (h : Mounted rootFS) (ht : TreeOk fs) : NodeFor fs rootFS inodeRoot := by
  refine ⟨h.inode, fun _ => h.dir, fun hregular => ?_⟩
  have hroot := ht.root.inodeDir
  simp [hregular.inodeDir] at hroot

/-- What `vfs_openFile` returns has the inode at the end of the walk. -/
theorem TreeOk.vfsOpenFile (ht : TreeOk fs) (hw : Working fs) (hm : Mounted rootFS) (hcwd : NoNul cwd)
    (hname : NoNul name) (heap : Nat → FsNode) :
    ∃ r, vfsOpenFile fs rootFS cwd name heap = .ok r ∧ r.map (·.inode) = fs.walk inodeRoot (components (normalizePath cwd name)) := by
  rw [vfsOpenFile_eq hw.heapOk rootFS hcwd hname, components_normalizePath]
  exact ht.walkNodes hw .root (hm.nodeFor ht) (fun c hc => ⟨(normalComponents_mem hc).1, normalComponents_noNul hcwd hname hc⟩) heap 0

/-- `vfs_openFile` returns a node of the inode at the end of the walk along the normalised path, and none exactly when a component is
missing or is not a directory; what it finds depends on the normalised path alone. -/
theorem vfsOpenFile_refines_walk (ht : TreeOk fs) (hw : Working fs) {rootFS : FsNode} (hm : Mounted rootFS) {cwd name : Str}
    (hcwd : NoNul cwd) (hname : NoNul name) (heap : Nat → FsNode) : ∃ r, vfsOpenFile fs rootFS cwd name heap = .ok r ∧
      (∀ i, (∃ node, r = some node ∧ node.inode = i) ↔ fs.walk inodeRoot (components (normalizePath cwd name)) = some i) ∧
      (r = none ↔ Missing fs (components (normalizePath cwd name))) ∧
      ∀ (cwd' name' : Str) (heap' : Nat → FsNode), NoNul cwd' → NoNul name' → normalizePath cwd' name' = normalizePath cwd name →
        ∃ r', vfsOpenFile fs rootFS cwd' name' heap' = .ok r' ∧ r'.map (·.inode) = r.map (·.inode) := by
  obtain ⟨r, hr, hwalk⟩ := ht.vfsOpenFile hw hm hcwd hname heap
  refine ⟨r, hr, fun i => ?_, ?_, fun cwd' name' heap' hcwd' hname' hsame => ?_⟩
  · rw [← hwalk, Option.map_eq_some_iff]
  · rw [missing_iff, ← hwalk, Option.map_eq_none_iff]
  · obtain ⟨r', hr', hwalk'⟩ := ht.vfsOpenFile hw hm hcwd' hname' heap'
    exact ⟨r', hr', by rw [hwalk', hsame, hwalk]⟩

/-! ## A tree of one file -/

/-- The filesystem of the file `a`, without the unused record. -/
def tidyFs : Ext2 := { smallFs with disk := Function.update smallFs.disk 6 (writeRecord (fun _ => 0) 0 3 [0x61] 1024 1) }

theorem tidyFs_working : Working tidyFs := smallFs_working.congr ⟨rfl, rfl, rfl, rfl, rfl, rfl, rfl, fun _ _ => rfl, fun _ => rfl⟩

theorem tidyFs_child (h : tidyFs.child 2 c = some n) : n = 3 := by
  have hdir : inodeDir (tidyFs.storedInode 2) = true := by decide
  have hentries : tidyFs.dirEntries (tidyFs.storedInode 2) = [([0x61], 3)] := by decide
  rw [child, hdir, hentries] at h
  have hmem := lookup_mem h
  exact (Prod.mk.inj (List.mem_singleton.mp hmem)).2

theorem tidyFs_reachable (h : Reachable tidyFs ino) : ino = 2 ∨ ino = 3 := by
  induction h with
  | root => exact .inl rfl
  | child _ _ _ hn ih =>
    rcases ih with rfl | rfl
    · exact .inr (tidyFs_child hn)
    · have hfile : inodeDir (tidyFs.storedInode 3) = false := by decide
      simp [child, hfile] at hn

theorem tidyFs_tree : TreeOk tidyFs := by
  have hdir : IsDirectory (tidyFs.storedInode 2) := by
    unfold IsDirectory
    decide
  refine ⟨hdir, fun ino h => ?_⟩
  rcases tidyFs_reachable h with rfl | rfl
  · refine ⟨by decide, .inr ⟨hdir, fun k hk => ?_⟩⟩
    obtain rfl : k = 0 := by
      rw [show iSize (tidyFs.storedInode 2) / tidyFs.blockSize = 1 by decide] at hk
      omega
    decide
  · refine ⟨by decide, .inl ?_⟩
    unfold IsRegular
    decide

/-- The name `a` is opened from the root directory. -/
theorem vfsOpenFile_refines_walk_tidy :
    ∃ node, vfsOpenFile tidyFs (emptyNode.fill 2 (tidyFs.storedInode 2)) [pathSeperator] [0x61] (fun _ => emptyNode) = .ok (some node) ∧
      node.inode = 3 := by
  obtain ⟨r, hr, hopen, -⟩ := vfsOpenFile_refines_walk tidyFs_tree tidyFs_working (mounted_fill emptyNode tidyFs_tree.root)
    (show NoNul [pathSeperator] by decide) (show NoNul [0x61] by decide) fun _ => emptyNode
  obtain ⟨node, rfl, hino⟩ := (hopen 3).mpr (by decide)
  exact ⟨node, hr, hino⟩

end OmegaOS
