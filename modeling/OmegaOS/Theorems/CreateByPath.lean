import OmegaOS.Theorems.PathResolution

/-!
# Creating and deleting by path

`vfs_create`, `vfs_mkdir` and `vfs_delete` split a path into the directory and the name in it. The directory comes from the normalised
path and the name from the caller's string, at an index of the normalised path: the three agree with `vfs_openFile` where the two strings
agree from that index on.
-/

namespace OmegaOS

open ByteMem CStr List Ext2

variable {fs fs1 fs2 fs' : Ext2} {d n x newIno attr : Nat} {name c last : Str} {cs : List Str} {node raw : FsNode}

/-! ## Directories that only gain entries -/

/-- A directory stays one and keeps its entries; others may follow. -/
structure DirGrows (fs fs' : Ext2) (x : Nat) : Prop where
  dir : WellFormedDir fs' x
  mode : iMode (fs'.storedInode x) = iMode (fs.storedInode x)
  entries : fs.dirEntries (fs.storedInode x) <+: fs'.dirEntries (fs'.storedInode x)

theorem DirGrows.refl (h : WellFormedDir fs x) : DirGrows fs fs x := ⟨h, rfl, prefix_rfl⟩

theorem DirGrows.trans (h : DirGrows fs fs1 x) (h' : DirGrows fs1 fs' x) : DirGrows fs fs' x :=
  ⟨h'.dir, h'.mode.trans h.mode, h.entries.trans h'.entries⟩

theorem WellFormedDir.grows (h : WellFormedDir fs x) (g : Geometry fs) (hk : DirKept fs fs' x (fs.dirCount x)) : DirGrows fs fs' x := by
  obtain ⟨hdir, hentries⟩ := h.kept g hk
  exact ⟨hdir, by rw [hk.stored], by rw [hentries]⟩

theorem DirGrows.isDirectory (h : DirGrows fs fs' x) (hdir : IsDirectory (fs.storedInode x)) : IsDirectory (fs'.storedInode x) := by
  rwa [IsDirectory, h.mode]

theorem DirGrows.lookup (h : DirGrows fs fs' x) (hn : lookup (fs.dirEntries (fs.storedInode x)) c = some n) :
    lookup (fs'.dirEntries (fs'.storedInode x)) c = some n := by
  obtain ⟨rest, hrest⟩ := h.entries
  rw [← hrest, lookup_append, hn, Option.some_or]

/-- A creation makes its directory grow and keeps those that share no block with it. -/
theorem FileCreated.grows (h : FileCreated fs fs' d name newIno attr) (g : Geometry fs) (hx : WellFormedDir fs x)
    (hapart : x ≠ d → Ext2.inodeNumber x ≠ Ext2.inodeNumber d ∧ BlocksApart fs x d) : DirGrows fs fs' x := by
  by_cases he : x = d
  · subst he
    exact ⟨h.dir, h.mode, by rw [h.entries]; exact prefix_append ..⟩
  · obtain ⟨hne, hblocks⟩ := hapart he
    exact hx.grows g (h.others x hx hne hblocks)

/-! ## Creating a directory -/

theorem FileCreated.consistent (h : FileCreated fs fs' d name newIno attr) (hc : Consistent fs) : Consistent fs' := by
  have hs := h.kept.shape
  refine ⟨hc.geometry.congr hs, h.kept.freeOk hc.freeBlocks, fun i b hi hb hclear => ?_⟩
  rw [hs.groupCount] at hi
  rw [hs.blockSize] at hb
  rw [hs.superBlock]
  exact hc.freeInodes i b hi hb (h.inodeBits i b hi hb hclear)

theorem iSectors_initInode (attr : Nat) : iSectors (Ext2.initInode attr) = 0 := by
  rw [iSectors, initInode, load_store_disjoint _ _ (by omega)]
  rfl

theorem inodeDir_initInode (attr : Nat) : inodeDir (Ext2.initInode (attr ||| iDir)) = true := by
  have hmode : iMode (initInode (attr ||| iDir)) = (attr ||| iDir) % 2 ^ 16 := by
    have hload := load_store_part (fun _ => 0) 0 2 (attr ||| iDir) (show 0 + 2 ≤ 2 by omega)
    rwa [Nat.pow_zero, Nat.div_one] at hload
  have hbit : ((attr ||| iDir) % 2 ^ 16 &&& 0xF000).testBit 14 = true := by
    rw [Nat.testBit_and, Nat.testBit_mod_two_pow, Nat.testBit_or, show iDir.testBit 14 = true by decide,
      show Nat.testBit 0xF000 14 = true by decide, Bool.or_true]
    rfl
  rw [inodeDir, hmode, beq_iff_eq]
  generalize (attr ||| iDir) % 2 ^ 16 &&& 0xF000 = mode at hbit ⊢
  rw [show iDir = 2 ^ 14 from rfl, Nat.and_two_pow, hbit]
  rfl

/-- A directory that was just made is empty. -/
theorem FileCreated.newDir (h : FileCreated fs fs' d name newIno (attr ||| iDir)) (g : Geometry fs) :
    WellFormedDir fs' newIno ∧ fs'.dirCount newIno = 0 := by
  have hs := h.kept.shape
  have hsize : iSize (fs'.storedInode newIno) = 0 := by
    rw [h.inode]
    exact iSize_initInode _
  have hcount : fs'.dirCount newIno = 0 := by
    rw [dirCount, hsize, Nat.zero_div]
  refine ⟨⟨?_, fun k hk => ?_⟩, hcount⟩
  · rw [hcount]
    refine ⟨(hs.inodeExists newIno).mpr (h.free.exists_ g), ?_, ?_, hsize, ?_, Nat.zero_le _, fun j hj => ?_, fun i j hi => ?_⟩
    · rw [hs.inodeGroup, hs.inodeIndex]
      exact h.inUse
    · rw [h.inode]
      exact inodeDir_initInode attr
    · rw [h.inode]
      exact iSectors_initInode _
    · exact absurd hj (Nat.not_lt_zero j)
    · exact absurd hi (Nat.not_lt_zero i)
  · rw [hsize, Nat.zero_div] at hk
    exact absurd hk (Nat.not_lt_zero k)

/-- Two creations in an empty directory keep the others. -/
theorem FileCreated.others_twice {name' : Str} {newIno' attr' : Nat} (h : FileCreated fs fs1 d name newIno attr)
    (h' : FileCreated fs1 fs' d name' newIno' attr') (hc : Consistent fs) (hempty : fs.dirCount d = 0) (hx : WellFormedDir fs x)
    (hne : Ext2.inodeNumber x ≠ Ext2.inodeNumber d) : DirKept fs fs' x (fs.dirCount x) := by
  have hfirst : DirKept fs fs1 x (fs.dirCount x) := by
    refine h.others x hx hne fun j _ k hk => ?_
    rw [hempty] at hk
    exact absurd hk (Nat.not_lt_zero k)
  have happart : BlocksApart fs1 x d := by
    intro j hj k hk he
    rw [hfirst.dirCount] at hj
    rw [hfirst.stored] at he
    -- the only block of the directory was free
    rcases h.blocks k hk with ⟨hlt, -⟩ | hfree
    · rw [hempty] at hlt
      exact absurd hlt (Nat.not_lt_zero k)
    · exact (hx.dirShape.used j hj).ne_free hfree hc.freeBlocks he
  have hsecond := h'.others x (hx.kept hc.geometry hfirst).1 hne happart
  rw [hfirst.dirCount] at hsecond
  exact hfirst.trans hsecond

/-- What `ext2_create` and `ext2_mkdir` have in common: the creation of an inode, and then work that keeps the directories there are. -/
def NameCreated (fs fs' : Ext2) (d : Nat) (name : Str) (newIno : Nat) : Prop :=
  ∃ fs1 attr, FileCreated fs fs1 d name newIno attr ∧
    ∀ x, WellFormedDir fs1 x → Ext2.inodeNumber x ≠ Ext2.inodeNumber newIno → DirKept fs1 fs' x (fs1.dirCount x)

/-- `ext2_mkdir`, when it succeeds, creates the name. -/
theorem WellFormedDir.ext2Mkdir {node : VfsNode} (h : WellFormedDir fs node.inode) (hc : Consistent fs) (hw : Working fs)
    (hn : fs.dirCount node.inode < ndirBlocks) (hbs : fs.blockSize < 2 ^ 16) (hno : NoNul name) (hlen : name.length ≤ 255)
    (hr : fs.ext2Mkdir node name attr raw = .ok (enoer, fs')) :
    fs.ext2Finddir node name raw = .ok none ∧ ∃ newIno, NameCreated fs fs' node.inode name newIno := by
  obtain ⟨found, hfind, hr⟩ := bind_eq_ok.mp hr
  cases found with
  | some _ => cases hr
  | none =>
    refine ⟨hfind, ?_⟩
    rw [(hw.opened h.dirShape.exists_).readInode hw.heapOk] at hr
    dsimp only at hr
    rw [h.dirShape.isDir] at hr
    obtain ⟨⟨created, parent, fs1⟩, hcreate, hr⟩ := bind_eq_ok.mp hr
    cases created with
    | none => cases hr
    | some created =>
      obtain ⟨newInode, newIno⟩ := created
      obtain ⟨hinode, -, hcreated⟩ := h.allocateAndCreateInode hc hw hn hbs hno hlen hcreate
      obtain ⟨hdir, hcount⟩ := hcreated.newDir hc.geometry
      have hs := hcreated.kept.shape
      obtain ⟨⟨curr, newInode', fs2⟩, hcurr, hr⟩ := bind_eq_ok.mp hr
      rw [hinode, ← hcreated.inode] at hcurr
      cases curr with
      | none => cases hr
      | some curr =>
        obtain ⟨-, hinode', hcreated'⟩ := hdir.allocateAndCreateInode (hcreated.consistent hc) (hw.congr hs)
          (by rw [hcount]; decide) (by rwa [hs.blockSize]) (by decide) (by decide) hcurr
        have hs' := hs.trans hcreated'.kept.shape
        obtain ⟨⟨up, newInode'', fs3⟩, hup, hr⟩ := bind_eq_ok.mp hr
        rw [hinode'] at hup
        cases up with
        | none => cases hr
        | some up =>
          cases hr
          have hcount' := hcreated'.count
          obtain ⟨-, -, hcreated''⟩ := hcreated'.dir.allocateAndCreateInode (hcreated'.consistent (hcreated.consistent hc)) (hw.congr hs')
            (by unfold ndirBlocks; omega) (by rwa [hs'.blockSize]) (by decide) (by decide) hup
          exact ⟨newIno, fs1, _, hcreated, fun x hx hne => hcreated'.others_twice hcreated'' (hcreated.consistent hc) hcount hx hne⟩

theorem DirKept.refl (fs : Ext2) (x k : Nat) : DirKept fs fs x k :=
  ⟨⟨.refl fs, fun _ _ _ _ hclear => hclear⟩, rfl, rfl, fun _ _ => rfl⟩

theorem FileCreated.nameCreated (h : FileCreated fs fs' d name newIno attr) : NameCreated fs fs' d name newIno :=
  ⟨fs', attr, h, fun x _ _ => .refl fs' x _⟩

section

variable (h : NameCreated fs fs' d name newIno)

include h

theorem NameCreated.free : FreeInode fs newIno := by
  obtain ⟨fs1, attr, hcreated, -⟩ := h
  exact hcreated.free

theorem NameCreated.shape (g : Geometry fs) (hd : WellFormedDir fs d) : SameShape fs fs' := by
  obtain ⟨fs1, attr, hcreated, hkept⟩ := h
  exact hcreated.kept.shape.trans (hkept d hcreated.dir (hd.dirShape.ne_free g hcreated.free)).kept.shape

/-- The new entry is behind the others. -/
theorem NameCreated.entries (g : Geometry fs) (hd : WellFormedDir fs d) :
    fs'.dirEntries (fs'.storedInode d) = fs.dirEntries (fs.storedInode d) ++ [(name, newIno)] := by
  obtain ⟨fs1, attr, hcreated, hkept⟩ := h
  have hlater := hkept d hcreated.dir (hd.dirShape.ne_free g hcreated.free)
  rw [(hcreated.dir.kept (g.congr hcreated.kept.shape) hlater).2, hcreated.entries]

/-- No directory loses an entry. -/
theorem NameCreated.grows (g : Geometry fs) (hx : WellFormedDir fs x)
    (hapart : x ≠ d → Ext2.inodeNumber x ≠ Ext2.inodeNumber d ∧ BlocksApart fs x d) : DirGrows fs fs' x := by
  obtain ⟨fs1, attr, hcreated, hkept⟩ := h
  have hfirst := hcreated.grows g hx hapart
  exact hfirst.trans (hfirst.dir.grows (g.congr hcreated.kept.shape) (hkept x hfirst.dir (hx.dirShape.ne_free g hcreated.free)))

end

/-! ## The tree while a name is created -/

/-- The directories of the tree are well formed, and no two of them share a block. -/
structure DirsApart (fs : Ext2) : Prop where
  dirs : ∀ x, Reachable fs x → IsDirectory (fs.storedInode x) → WellFormedDir fs x
  apart : ∀ x y, Reachable fs x → Reachable fs y → IsDirectory (fs.storedInode x) → IsDirectory (fs.storedInode y) → x ≠ y →
    BlocksApart fs x y

theorem Reachable.lt (h : Reachable fs x) : x < 2 ^ 32 := by
  induction h with
  | root => decide
  | child _ _ _ hn _ =>
    rw [Ext2.child] at hn
    split at hn
    · obtain ⟨k, -, hmem⟩ := mem_flatMap.mp (lookup_mem hn)
      obtain ⟨r, -, hr⟩ := mem_map.mp hmem
      rw [← (Prod.mk.inj hr).2]
      exact load_lt ..
    · cases hn

theorem Reachable.walk (h : Reachable fs x) (hc : ∀ c ∈ cs, IsComponent c ∧ NoNul c) (hwalk : fs.walk x cs = some d) : Reachable fs d := by
  induction cs generalizing x with
  | nil =>
    cases hwalk
    exact h
  | cons c cs ih =>
    obtain ⟨n, hn, hwalk⟩ := Option.bind_eq_some_iff.mp hwalk
    obtain ⟨hcomponent, hno⟩ := hc c mem_cons_self
    exact ih (.child h hcomponent hno hn) (fun y hy => hc y (.tail c hy)) hwalk

theorem TreeOk.isDirectory (ht : TreeOk fs) (hreach : Reachable fs x) (hn : fs.child x c = some n) :
    IsDirectory (fs.storedInode x) ∧ lookup (fs.dirEntries (fs.storedInode x)) c = some n := by
  rcases (ht.inodes x hreach).2 with hregular | ⟨hdir, -⟩
  · simp [child, hregular.inodeDir] at hn
  · rw [child, hdir.inodeDir] at hn
    exact ⟨hdir, hn⟩

/-- A node of a directory of this driver. -/
structure IsDriverDir (node : FsNode) : Prop extends IsDirNode node where
  create : node.create = .ext2
  mkdir : node.mkdir = .ext2
  delete : node.delete = .ext2

theorem FsNode.fill_driverDir (raw : FsNode) (n : Nat) {inode : Mem} (h : IsDirectory inode) : IsDriverDir (raw.fill n inode) := by
  have hmode := h
  unfold IsDirectory at hmode
  have hkeep : ∀ (node : FsNode) (mask bits flag : Nat), (node.mark mask bits flag).create = node.create ∧
      (node.mark mask bits flag).mkdir = node.mkdir ∧ (node.mark mask bits flag).delete = node.delete := by
    intro node mask bits flag
    unfold FsNode.mark
    split <;> exact ⟨rfl, rfl, rfl⟩
  refine ⟨FsNode.fill_dir raw n h, ?_, ?_, ?_⟩
  · simp only [FsNode.fill, hmode, (hkeep _ _ _ _).1]
    rfl
  · simp only [FsNode.fill, hmode, (hkeep _ _ _ _).2.1]
    rfl
  · simp only [FsNode.fill, hmode, (hkeep _ _ _ _).2.2]
    rfl

/-- A directory of the tree is found again in a filesystem whose directories have only gained entries. -/
theorem TreeOk.walkNodes_grows (ht : TreeOk fs) (hw : Working fs') (hs : SameShape fs fs')
    (hgrows : ∀ x, Reachable fs x → IsDirectory (fs.storedInode x) → DirGrows fs fs' x) (hreach : Reachable fs node.inode)
    (hnode : IsDriverDir node) (hdir : IsDirectory (fs.storedInode d)) (hc : ∀ c ∈ cs, IsComponent c ∧ NoNul c)
    (hwalk : fs.walk node.inode cs = some d) (heap : Nat → FsNode) (depth : Nat) : ∃ node', node'.inode = d ∧ IsDriverDir node' ∧
      ∀ rest, OmegaOS.walkNodes fs' heap node depth (cs ++ rest) = OmegaOS.walkNodes fs' heap node' (depth + cs.length) rest := by
  induction cs generalizing node depth with
  | nil => exact ⟨node, Option.some.inj hwalk, hnode, fun rest => rfl⟩
  | cons c cs ih =>
    obtain ⟨n, hn, hwalk⟩ := Option.bind_eq_some_iff.mp hwalk
    obtain ⟨hcomponent, hno⟩ := hc c mem_cons_self
    obtain ⟨hisDir, hlookup⟩ := ht.isDirectory hreach hn
    have hgrown := hgrows _ hreach hisDir
    have hreach' : Reachable fs n := .child hreach hcomponent hno hn
    -- what the walk goes through, and what it ends at, is a directory
    have hdir' : IsDirectory (fs.storedInode n) := by
      cases cs with
      | nil =>
        rw [Option.some.inj hwalk]
        exact hdir
      | cons c' cs' =>
        obtain ⟨n', hn', -⟩ := Option.bind_eq_some_iff.mp hwalk
        exact (ht.isDirectory hreach' hn').1
    have hstep : OmegaOS.vfsFinddir fs' node c (heap depth) = .ok (some ((heap depth).fill n (fs'.storedInode n))) := by
      rw [hnode.toIsDirNode.vfsFinddir hw hgrown.dir.dirShape.exists_ hgrown.dir.dirShape.isDir hgrown.dir.tiled hno, hgrown.lookup hlookup,
        Option.bind_some, nodeOf, if_pos ((hs.inodeExists n).mpr (ht.inodes n hreach').1)]
    have hinode : ((heap depth).fill n (fs'.storedInode n)).inode = n := congrArg VfsNode.inode (FsNode.fill_toVfsNode ..)
    have hdriver := FsNode.fill_driverDir (heap depth) n ((hgrows n hreach' hdir').isDirectory hdir')
    obtain ⟨node', hd, hnode', hrest⟩ := ih (by rwa [hinode]) hdriver (fun y hy => hc y (.tail c hy))
      (by rwa [hinode]) (depth + 1)
    refine ⟨node', hd, hnode', fun rest => ?_⟩
    rw [cons_append, OmegaOS.walkNodes, hstep, length_cons, ← add_assoc, Nat.add_right_comm, ← hrest rest]
    rfl

/-! ## The parent -/

/-- A mounted filesystem with a tree of well-formed directories. -/
structure MountedTree (fs : Ext2) (rootFS : FsNode) : Prop where
  consistent : Consistent fs
  working : Working fs
  tree : TreeOk fs
  dirs : DirsApart fs
  blockSize : fs.blockSize < 2 ^ 16
  rootInode : rootFS.inode = inodeRoot
  rootDir : IsDriverDir rootFS

/-- The parent directory of a path is there: in a normalised working directory the path leads through `cs` to the directory `d`, and
`last` is the name in it. -/
structure HasParent (fs : Ext2) (cwd path : Str) (cs : List Str) (last : Str) (d : Nat) : Prop where
  cwdNoNul : NoNul cwd
  cwdNormal : ∀ c ∈ components cwd, IsNormal c
  noNul : NoNul path
  split : components (normalizePath cwd path) = cs ++ [last]
  walk : fs.walk inodeRoot cs = some d
  isDir : IsDirectory (fs.storedInode d)

variable {rootFS : FsNode} {cwd path : Str} {rawName : RawPath}

theorem HasParent.components (h : HasParent fs cwd path cs last d) (hc : c ∈ cs ++ [last]) : IsComponent c ∧ NoNul c := by
  have hmem : c ∈ normalComponents cwd path := by
    rwa [← components_normalizePath, h.split]
  exact ⟨(normalComponents_mem hmem).1, normalComponents_noNul h.cwdNoNul h.noNul hmem⟩

theorem HasParent.reachable (h : HasParent fs cwd path cs last d) : Reachable fs d :=
  Reachable.root.walk (fun _ hc => h.components (mem_append_left _ hc)) h.walk

/-- The directory is found, also after the directories have gained entries. -/
theorem MountedTree.walkNodes (hm : MountedTree fs rootFS) (h : HasParent fs cwd path cs last d) (hw : Working fs') (hs : SameShape fs fs')
    (hgrows : ∀ x, Reachable fs x → IsDirectory (fs.storedInode x) → DirGrows fs fs' x) (heap : Nat → FsNode) :
    ∃ node, node.inode = d ∧ IsDriverDir node ∧
      ∀ rest, OmegaOS.walkNodes fs' heap rootFS 0 (cs ++ rest) = OmegaOS.walkNodes fs' heap node cs.length rest := by
  have hwalk := hm.tree.walkNodes_grows hw hs hgrows (by rw [hm.rootInode]; exact .root) hm.rootDir h.isDir
    (fun _ hc => h.components (mem_append_left _ hc)) (by rw [hm.rootInode]; exact h.walk) heap 0
  rwa [zero_add] at hwalk

/-- `getParent` finds the directory; the name is what stands in the caller's string behind as many bytes as the directory's path has. -/
theorem MountedTree.getParent (hm : MountedTree fs rootFS) (h : HasParent fs cwd rawName.text cs last d) (heap : Nat → FsNode) :
    ∃ parent, parent.inode = d ∧ IsDriverDir parent ∧
      getParent fs rootFS cwd rawName heap = .ok (enoer, some parent, some (rawName.drop (joinPath cs).length)) := by
  have hsplit : normalComponents cwd rawName.text = cs ++ [last] := by
    rw [← components_normalizePath, h.split]
  obtain ⟨parent, hino, hdir, hrest⟩ := hm.walkNodes h hm.working (.refl fs) (fun x hx hd => .refl (hm.dirs.dirs x hx hd)) heap
  refine ⟨parent, hino, hdir, ?_⟩
  have hnoNul : NoNul (normalizePath cwd rawName.text ++ pathSeperator :: pathUpDir) := by
    intro b hb
    rcases mem_append.mp hb with hb | hb
    · exact normalizePath_noNul h.cwdNoNul h.noNul b hb
    · exact (show NoNul (pathSeperator :: pathUpDir) by decide) b hb
  have hopen : vfsOpenFile fs rootFS cwd (normalizePath cwd rawName.text ++ pathSeperator :: pathUpDir) heap = .ok (some parent) := by
    rw [vfsOpenFile_eq hm.working.heapOk rootFS h.cwdNoNul hnoNul, normalComponents_parent h.cwdNormal hsplit, ← append_nil cs, hrest]
    rfl
  rw [OmegaOS.getParent, hm.working.heapOk]
  dsimp only
  rw [lastSeperator_normalizePath hsplit, hopen]
  rfl

/-- The parent's function is called on the name. -/
theorem withParent_eq {heap : Nat → FsNode} {parent : FsNode} {fileName : Str} {callback : FsNode → Callback}
    {call : FsNode → Str → Except Halt (Int × Ext2)} (h : getParent fs rootFS cwd rawName heap = .ok (enoer, some parent, some fileName))
    (hcallback : callback parent = .ext2) : withParent fs rootFS cwd rawName heap callback call = call parent fileName := by
  rw [withParent, h]
  simp only [bind, Except.bind, ne_eq, not_true_eq_false, if_false, hcallback]

/-! ## Agreement -/

/-- A name is added to the directory, for an inode that was free, and the path then opens that inode. -/
def CreatedAt (fs fs' : Ext2) (rootFS : FsNode) (cwd path : Str) (d : Nat) (last : Str) : Prop :=
  ∃ n, FreeInode fs n ∧ fs'.dirEntries (fs'.storedInode d) = fs.dirEntries (fs.storedInode d) ++ [(last, n)] ∧
    ∀ heap, ∃ node, vfsOpenFile fs' rootFS cwd path heap = .ok (some node) ∧ node.inode = n

/-- What the functions that take a path are to do: a creation that succeeds adds the last component to the directory of the others, and the
path can be opened then; a deletion asks that directory for that component. -/
structure PathsAgree (fs : Ext2) (rootFS : FsNode) (cwd : Str) (name : RawPath) (d : Nat) (last : Str) : Prop where
  create : ∀ attr heap raw fs', vfsCreate fs rootFS cwd name attr heap raw = .ok (enoer, fs') →
    CreatedAt fs fs' rootFS cwd name.text d last
  mkdir : ∀ attr heap raw fs', vfsMkdir fs rootFS cwd name attr heap raw = .ok (enoer, fs') →
    CreatedAt fs fs' rootFS cwd name.text d last
  delete : ∀ heap, ∃ parent, parent.inode = d ∧ getParent fs rootFS cwd name heap = .ok (enoer, some parent, some last) ∧
    vfsDelete fs rootFS cwd name heap = fs.ext2Delete parent.toVfsNode last

/-- A name that was not there and has been created. -/
theorem NameCreated.createdAt (hcreated : NameCreated fs fs' d last newIno) (hm : MountedTree fs rootFS)
    (h : HasParent fs cwd path cs last d) {parent : VfsNode} (hparent : parent.inode = d)
    (habsent : fs.ext2Finddir parent last raw = .ok none) : CreatedAt fs fs' rootFS cwd path d last := by
  subst hparent
  have g := hm.consistent.geometry
  have hreach := h.reachable
  have hdir := hm.dirs.dirs _ hreach h.isDir
  obtain ⟨hcomponent, hno⟩ := h.components (mem_append_right cs (mem_singleton_self last))
  have hs := hcreated.shape g hdir
  have hw := hm.working.congr hs
  have hentries := hcreated.entries g hdir
  have hgrows : ∀ x, Reachable fs x → IsDirectory (fs.storedInode x) → DirGrows fs fs' x := fun x hx hisDir =>
    hcreated.grows g (hm.dirs.dirs x hx hisDir) fun hne => ⟨inodeNumber_ne hx.lt hreach.lt hne, hm.dirs.apart _ _ hx hreach hisDir h.isDir hne⟩
  -- an entry of the name would have stood for an inode of the tree
  have hnone : lookup (fs.dirEntries (fs.storedInode parent.inode)) last = none := by
    cases hlookup : lookup (fs.dirEntries (fs.storedInode parent.inode)) last with
    | none => rfl
    | some n =>
      have hchild : fs.child parent.inode last = some n := by
        rwa [child, h.isDir.inodeDir]
      have hexists := (hm.tree.inodes n (.child hreach hcomponent hno hchild)).1
      rw [hdir.ext2Finddir hm.working hno, hlookup, Option.bind_some, nodeOf, if_pos hexists] at habsent
      cases habsent
  refine ⟨newIno, hcreated.free, hentries, fun heap => ?_⟩
  obtain ⟨node, hino, hnode, hrest⟩ := hm.walkNodes h hw hs hgrows heap
  have hgrown := hgrows _ hreach h.isDir
  rw [← hino] at hentries hnone hgrown
  have hexists : fs'.InodeExists newIno := (hs.inodeExists newIno).mpr (hcreated.free.exists_ g)
  refine ⟨(heap cs.length).fill newIno (fs'.storedInode newIno), ?_, congrArg VfsNode.inode (FsNode.fill_toVfsNode ..)⟩
  rw [vfsOpenFile_eq hw.heapOk rootFS h.cwdNoNul h.noNul, ← components_normalizePath, h.split, hrest, OmegaOS.walkNodes,
    hnode.toIsDirNode.vfsFinddir hw hgrown.dir.dirShape.exists_ hgrown.dir.dirShape.isDir hgrown.dir.tiled hno, hentries, lookup_append, hnone,
    Option.none_or]
  have hfound : lookup [(last, newIno)] last = some newIno := by simp [lookup]
  rw [hfound, Option.bind_some, nodeOf, if_pos hexists]
  rfl

/-- The functions that take a path agree with `vfs_openFile` exactly when the caller's string continues with the last component behind as
many bytes as the path of the directory has. -/
theorem pathsAgree_iff (hm : MountedTree fs rootFS) (h : HasParent fs cwd rawName.text cs last d) (hn : fs.dirCount d < ndirBlocks)
    (hlen : last.length ≤ 255) : PathsAgree fs rootFS cwd rawName d last ↔ rawName.drop (joinPath cs).length = last := by
  have hdir := hm.dirs.dirs _ h.reachable h.isDir
  have hno := (h.components (List.mem_append_right cs (List.mem_singleton_self last))).2
  constructor
  · intro hagree
    obtain ⟨parent, -, hparent, -⟩ := hagree.delete fun _ => emptyNode
    obtain ⟨parent', -, -, hparent'⟩ := hm.getParent h fun _ => emptyNode
    rw [hparent'] at hparent
    exact Option.some.inj (Prod.mk.inj (Prod.mk.inj (Except.ok.inj hparent)).2).2
  · intro hlast
    have hget := fun heap => hm.getParent h heap
    rw [hlast] at hget
    refine ⟨fun attr heap raw fs' hr => ?_, fun attr heap raw fs' hr => ?_, fun heap => ?_⟩
    · obtain ⟨parent, hino, hparent, hget⟩ := hget heap
      rw [vfsCreate, withParent_eq hget hparent.create] at hr
      obtain ⟨habsent, newIno, attr', hcreated⟩ :=
        (hino ▸ hdir : WellFormedDir fs parent.inode).ext2Create hm.consistent hm.working (by rwa [hino]) hm.blockSize hno hlen hr
      exact (hino ▸ hcreated.nameCreated).createdAt hm h hino habsent
    · obtain ⟨parent, hino, hparent, hget⟩ := hget heap
      rw [vfsMkdir, withParent_eq hget hparent.mkdir] at hr
      obtain ⟨habsent, newIno, hcreated⟩ :=
        (hino ▸ hdir : WellFormedDir fs parent.inode).ext2Mkdir hm.consistent hm.working (by rwa [hino]) hm.blockSize hno hlen hr
      exact (hino ▸ hcreated).createdAt hm h hino habsent
    · obtain ⟨parent, hino, hparent, hget⟩ := hget heap
      exact ⟨parent, hino, hget, by rw [vfsDelete, withParent_eq hget hparent.delete]⟩

/-! ## Two spellings of one name -/

theorem tidyFs_shape : SameShape smallFs tidyFs := ⟨rfl, rfl, rfl, rfl, rfl, rfl, rfl, fun _ _ => rfl, fun _ => rfl⟩

theorem tidyFs_disk (hq : q ≠ 6) : tidyFs.disk q = smallFs.disk q := Function.update_of_ne hq _ _

theorem tidyFs_bit (pool : Pool) (hi : i < smallFs.groupCount) (b : Nat) : tidyFs.bit pool i b = smallFs.bit pool i b := by
  obtain rfl : i = 0 := Nat.lt_one_iff.mp hi
  have hne : smallFs.bitmapBlock pool 0 ≠ 6 := by cases pool <;> decide
  show bitOf (tidyFs.disk (smallFs.bitmapBlock pool 0)) b = _
  rw [tidyFs_disk hne]
  rfl

theorem tidyFs_kept : DirKept smallFs tidyFs 2 0 := by
  refine ⟨⟨tidyFs_shape, fun i b hi _ hclear => ?_⟩, tidyFs_bit .inodes (by decide) _, ?_, fun j hj => absurd hj (Nat.not_lt_zero j)⟩
  · rwa [tidyFs_bit .blocks hi] at hclear
  · have hne : smallFs.inodeBlock 2 ≠ 6 := by decide
    exact storedInode_congr tidyFs_shape (tidyFs_disk hne)

theorem tidyFs_consistent : Consistent tidyFs := by
  refine ⟨smallFs_geometry.congr tidyFs_shape, tidyFs_kept.kept.freeOk smallFs_consistent.freeBlocks, fun i b hi hb hclear => ?_⟩
  rw [tidyFs_bit .inodes hi] at hclear
  exact smallFs_consistent.freeInodes i b hi hb hclear

theorem tidyFs_root : WellFormedDir tidyFs 2 := by
  have hshape := smallFs_root.dirShape.kept smallFs_geometry tidyFs_kept
  refine ⟨?_, ?_⟩
  · rwa [tidyFs_kept.dirCount]
  · rcases (tidyFs_tree.inodes 2 .root).2 with hregular | ⟨-, htiled⟩
    · exact absurd (hregular.inodeDir.symm.trans tidyFs_tree.root.inodeDir) (by decide)
    · exact htiled

theorem tidyFs_dir (h : Reachable tidyFs x) (hdir : IsDirectory (tidyFs.storedInode x)) : x = 2 := by
  rcases tidyFs_reachable h with rfl | rfl
  · rfl
  · exact absurd hdir.inodeDir (by decide)

/-- The node of its root. -/
def tidyRoot : FsNode := emptyNode.fill 2 (tidyFs.storedInode 2)

theorem tidyFs_mounted : MountedTree tidyFs tidyRoot := by
  refine ⟨tidyFs_consistent, tidyFs_working, tidyFs_tree, ⟨fun x hx hdir => ?_, fun x y hx hy hdir hdir' hne => ?_⟩, by decide,
    congrArg VfsNode.inode (FsNode.fill_toVfsNode ..), FsNode.fill_driverDir emptyNode 2 tidyFs_tree.root⟩
  · rw [tidyFs_dir hx hdir]
    exact tidyFs_root
  · exact absurd ((tidyFs_dir hx hdir).trans (tidyFs_dir hy hdir').symm) hne

theorem tidyFs_hasParent {path : Str} (hno : NoNul path) (hsplit : components (normalizePath [pathSeperator] path) = [[0x63]]) :
    HasParent tidyFs [pathSeperator] path [] [0x63] 2 :=
  ⟨by decide, fun c hc => absurd hc (by rw [show components [pathSeperator] = [] by decide]; exact not_mem_nil), hno, hsplit, rfl,
    tidyFs_tree.root⟩

/-- In the root directory the name `c` is created and deleted as it is opened. -/
theorem pathsAgree_relative : PathsAgree tidyFs tidyRoot [pathSeperator] ⟨[0x63], fun _ => []⟩ 2 [0x63] :=
  (pathsAgree_iff tidyFs_mounted (tidyFs_hasParent (by decide) (by decide)) (by decide) (by decide)).mpr rfl

/-- `vfs_create` of `/c`. -/
def absoluteCreate : Except Halt (Int × Ext2) :=
  vfsCreate tidyFs tidyRoot [pathSeperator] ⟨[pathSeperator, 0x63], fun _ => []⟩ 0 (fun _ => emptyNode) emptyNode

/-- The creation of `/c` succeeds, with the separator in the name of the entry, and `/c` cannot be opened. -/
theorem absolute_name_created : MountedTree tidyFs tidyRoot ∧ HasParent tidyFs [pathSeperator] [pathSeperator, 0x63] [] [0x63] 2 ∧
      (∃ fs', absoluteCreate = .ok (enoer, fs') ∧ fs'.dirEntries (fs'.storedInode 2) = [([0x61], 3), ([pathSeperator, 0x63], 4)] ∧
        vfsOpenFile fs' tidyRoot [pathSeperator] [pathSeperator, 0x63] (fun _ => emptyNode) = .ok none) ∧
      ¬ PathsAgree tidyFs tidyRoot [pathSeperator] ⟨[pathSeperator, 0x63], fun _ => []⟩ 2 [0x63] := by
  have hparent : HasParent tidyFs [pathSeperator] [pathSeperator, 0x63] [] [0x63] 2 := tidyFs_hasParent (by decide) (by decide)
  have heval : absoluteCreate.bind (fun r => (vfsOpenFile r.2 tidyRoot [pathSeperator] [pathSeperator, 0x63] fun _ => emptyNode).map
      fun opened => (r.1, r.2.dirEntries (r.2.storedInode 2), opened.isSome)) =
        .ok (enoer, [([0x61], 3), ([pathSeperator, 0x63], 4)], false) := by decide +kernel
  obtain ⟨⟨ret, fs'⟩, hr, heval⟩ := bind_eq_ok.mp heval
  obtain ⟨opened, hopened, hvalues⟩ := map_eq_ok heval
  simp only [Prod.mk.injEq, Option.isSome_eq_false_iff, Option.isNone_iff_eq_none] at hvalues
  obtain ⟨rfl, hentries, rfl⟩ := hvalues
  refine ⟨tidyFs_mounted, hparent, ⟨fs', hr, hentries, hopened⟩, fun hagree => ?_⟩
  obtain ⟨n, -, -, hopens⟩ := hagree.create 0 (fun _ => emptyNode) emptyNode fs' hr
  obtain ⟨node, hnode, -⟩ := hopens fun _ => emptyNode
  rw [hopened] at hnode
  cases hnode

end OmegaOS
