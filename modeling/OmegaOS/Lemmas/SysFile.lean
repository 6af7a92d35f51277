import OmegaOS.SysFile

/-!
# What the calls on files do to a table of descriptors

One lemma for each call. A table grows at its end or keeps its length, and the nodes in it stay nodes of the same files.
-/

namespace OmegaOS

open ByteMem CStr List

variable {r : FileResult} {ret : Int} {fd offset size count flags : Nat} {fs' : Ext2} {buffer : Mem} {node node' : FsNode}
  {buf : Option Mem} {path : Option RawPath}

variable {fs : Ext2} {w : FileWorld} {fdt : List FsNode}

/-! ## Nodes -/

/-- The node of the same file, opened the same way: at most its size and its offset differ. -/
def SameFile (node node' : FsNode) : Prop := ∃ size offset, node' = { node with size := size, offset := offset }

theorem SameFile.refl (node : FsNode) : SameFile node node := ⟨node.size, node.offset, rfl⟩

theorem SameFile.inode (h : SameFile a b) : b.inode = a.inode := by
  obtain ⟨_, _, rfl⟩ := h
  rfl

theorem ext2Read_node (fs : Ext2) (node : VfsNode) (offset size : Nat) (buffer : Mem) :
    ∃ o, (fs.ext2Read node offset size buffer).2.1 = { node with offset := o } := by
  unfold Ext2.ext2Read
  split
  · exact ⟨node.offset, rfl⟩
  · split
    · exact ⟨node.offset, rfl⟩
    · split
      · exact ⟨node.offset, rfl⟩
      · split
        · exact ⟨node.offset, rfl⟩
        · dsimp only
          split
          · exact ⟨node.offset, rfl⟩
          · exact ⟨_, rfl⟩

theorem finishWrite_node (fs : Ext2) (node : VfsNode) (inode : Mem) (offset osize : Nat) (n : Int) :
    ∃ s o, (fs.finishWrite node inode offset osize n).2.1 = { node with size := s, offset := o } := by
  unfold Ext2.finishWrite
  split
  · exact ⟨node.size, node.offset, rfl⟩
  · dsimp only
    split
    · exact ⟨node.size, node.offset, rfl⟩
    · exact ⟨_, _, rfl⟩

theorem ext2Write_node {node vnode : VfsNode}
    (h : fs.ext2Write node offset size buffer = .ok (ret, vnode, fs')) : ∃ s o, vnode = { node with size := s, offset := o } := by
  unfold Ext2.ext2Write at h
  split at h
  · cases h
  · dsimp only at h
    split at h
    · cases h
      exact ⟨node.size, node.offset, rfl⟩
    · split at h
      · cases h
        exact ⟨node.size, node.offset, rfl⟩
      · split at h
        · cases h
          exact ⟨node.size, node.offset, rfl⟩
        · have hv := congrArg (fun r => r.2.1) (Except.ok.inj h)
          dsimp only at hv
          rw [← hv]
          exact finishWrite_node ..

theorem vfsRead_node {kbd : Int} {buffer' : Mem}
    (h : vfsRead fs node kbd offset size buffer = .ok (ret, node', buffer')) : SameFile node node' := by
  unfold vfsRead at h
  split at h
  · cases h
    exact .refl node
  · split at h
    · cases h
      exact .refl node
    · split at h
      · cases h
        exact .refl node
      · split at h
        · obtain ⟨o, ho⟩ := ext2Read_node fs node.toVfsNode offset size buffer
          generalize fs.ext2Read node.toVfsNode offset size buffer = x at h ho
          obtain ⟨ret, vnode, buffer'⟩ := x
          subst ho
          cases h
          exact ⟨node.size, o, rfl⟩
        · generalize stdinRead kbd buffer = x at h
          cases h
          exact .refl node
        · cases h

theorem vfsWrite_node (h : vfsWrite fs node offset size buffer = .ok (ret, node', fs')) : SameFile node node' := by
  unfold vfsWrite at h
  split at h
  · cases h
    exact .refl node
  · split at h
    · cases h
      exact .refl node
    · split at h
      · cases h
        exact .refl node
      · split at h
        · obtain ⟨⟨ret, vnode, fs'⟩, hwrite, h⟩ := bind_eq_ok.mp h
          cases h
          obtain ⟨s, o, rfl⟩ := ext2Write_node hwrite
          exact ⟨s, o, rfl⟩
        · cases h
          exact .refl node
        · cases h

theorem vfsFseek_node (node : FsNode) (offset whence : Int) : SameFile node (vfsFseek node offset whence).2 := by
  unfold vfsFseek
  split
  · exact .refl node
  · split
    · exact ⟨node.size, offset, rfl⟩
    · split
      · exact ⟨node.size, _, rfl⟩
      · split
        · exact ⟨node.size, _, rfl⟩
        · exact .refl node

/-! ## The table -/

theorem listFindIndex_eq (fdt : List FsNode) (fd : Nat) : listFindIndex fdt fd = fdt[fd]? := by
  rw [listFindIndex]
  split
  · rw [getElem?_eq_none (by omega)]
  · rw [head?_drop]

/-- What a call leaves of a table: one more node behind it, or another state of one of its nodes. -/
inductive Table (fdt : List FsNode) : List FsNode → Prop
  | same : Table fdt fdt
  | append (node : FsNode) : Table fdt (fdt ++ [node])
  | set {fd : Nat} {node node' : FsNode} (hfd : fdt[fd]? = some node) (hnode : SameFile node node') : Table fdt (fdt.set fd node')

theorem Table.refers {fdt' : List FsNode} (h : Table fdt fdt') (hfd : fdt[fd]? = some node) :
    ∃ node', fdt'[fd]? = some node' ∧ SameFile node node' := by
  have hlt : fd < fdt.length := (List.getElem?_eq_some_iff.mp hfd).1
  cases h with
  | same => exact ⟨node, hfd, .refl node⟩
  | append n => exact ⟨node, by rwa [List.getElem?_append_left hlt], .refl node⟩
  | @set fd' n n' hfd' hnode =>
    by_cases he : fd' = fd
    · subst he
      rw [hfd] at hfd'
      cases hfd'
      exact ⟨n', List.getElem?_set_self hlt, hnode⟩
    · exact ⟨node, by rwa [List.getElem?_set_ne he], .refl node⟩

/-! ## The calls -/

theorem sysClose_eq (h : sysClose w fdt fd = .ok r) :
    r.fdt = fdt ∧ r.fs = w.fs ∧ (r.ret = enoer ∧ fd < fdt.length ∨ r.ret = -enoent ∧ fdt.length ≤ fd) := by
  obtain ⟨closed, hclose, h⟩ := bind_eq_ok.mp h
  cases h
  refine ⟨rfl, rfl, ?_⟩
  rw [processCloseFile, listFindIndex_eq] at hclose
  split at hclose
  · rename_i hnone
    cases hclose
    exact .inr ⟨rfl, List.getElem?_eq_none_iff.mp hnone⟩
  · rename_i node hsome
    obtain ⟨_, -, hclose⟩ := bind_eq_ok.mp hclose
    cases hclose
    exact .inl ⟨rfl, (List.getElem?_eq_some_iff.mp hsome).1⟩

theorem sysRead_table (h : sysRead w fdt fd buf count = .ok r) : Table fdt r.fdt ∧ r.fdt.length = fdt.length ∧ r.fs = w.fs := by
  unfold sysRead at h
  split at h
  · cases h
    exact ⟨.same, rfl, rfl⟩
  · split at h
    · cases h
      exact ⟨.same, rfl, rfl⟩
    · rename_i node hfd
      obtain ⟨⟨ret, node', buffer'⟩, hread, h⟩ := bind_eq_ok.mp h
      cases h
      exact ⟨.set hfd (vfsRead_node hread), length_set, rfl⟩

theorem sysWrite_table (h : sysWrite w fdt fd buf count = .ok r) : Table fdt r.fdt ∧ r.fdt.length = fdt.length := by
  unfold sysWrite at h
  split at h
  · cases h
    exact ⟨.same, rfl⟩
  · split at h
    · cases h
      exact ⟨.same, rfl⟩
    · rename_i node hfd
      obtain ⟨⟨ret, node', fs'⟩, hwrite, h⟩ := bind_eq_ok.mp h
      cases h
      exact ⟨.set hfd (vfsWrite_node hwrite), length_set⟩

theorem sysLseek_table (fd : Nat) (offset whence : Int) :
    Table fdt (sysLseek w fdt fd offset whence).fdt ∧ (sysLseek w fdt fd offset whence).fdt.length = fdt.length := by
  unfold sysLseek
  split
  · exact ⟨.same, rfl⟩
  · rename_i node hfd
    exact ⟨.set hfd (vfsFseek_node node offset whence), length_set⟩

theorem sysFtell_fdt (w : FileWorld) (fdt : List FsNode) (fd : Nat) : (sysFtell w fdt fd).fdt = fdt := by
  unfold sysFtell
  split <;> rfl

theorem processAddFile_table (listOk : Bool) (fdt : List FsNode) (node : FsNode) : Table fdt (processAddFile listOk fdt node).2 := by
  cases listOk with
  | false => exact .same
  | true => exact .append node

theorem processAddFile_true (node : FsNode) (hlen : fdt.length < 2 ^ 31) :
    processAddFile true fdt node = ((fdt.length : Int), fdt ++ [node]) := by
  have hbmod : (fdt.length : Int).bmod (2 ^ 32) = fdt.length := Int.bmod_eq_of_le (by omega) (by omega)
  rw [processAddFile, if_pos rfl]
  dsimp only
  rw [hbmod, if_pos (by omega)]

/-- A file is added and its position returned, or the table is as before. -/
theorem processAddFile_cases (listOk : Bool) (node : FsNode) (hlen : fdt.length < 2 ^ 31) :
    processAddFile listOk fdt node = (-enomem, fdt) ∨ processAddFile listOk fdt node = ((fdt.length : Int), fdt ++ [node]) := by
  cases listOk with
  | false => exact .inl rfl
  | true => exact .inr (processAddFile_true node hlen)

theorem withParent_nonneg {rootFS : FsNode} {cwd : Str} {name : RawPath} {heap : Nat → FsNode} {callback : FsNode → Callback}
    {call : FsNode → Str → Except Halt (Int × Ext2)} (hcall : ∀ parent s ret fs', call parent s = .ok (ret, fs') → 0 ≤ ret)
    (h : withParent fs rootFS cwd name heap callback call = .ok (ret, fs')) : 0 ≤ ret := by
  obtain ⟨⟨ret1, parent, fileName⟩, hparent, h⟩ := bind_eq_ok.mp h
  dsimp only at h
  split at h
  · cases h
    rw [getParent] at hparent
    split at hparent
    · cases hparent
      decide
    · obtain ⟨p, -, hparent⟩ := bind_eq_ok.mp hparent
      have hret := congrArg (fun x => x.1) (Except.ok.inj hparent)
      dsimp only at hret
      rw [← hret]
      split <;> decide
  · split at h
    · split at h
      · cases h
        decide
      · exact hcall _ _ _ _ h
      · cases h
    · cases h
      decide

theorem ext2Create_nonneg {node : VfsNode} {name : Str} {attr : Nat} {raw : FsNode}
    (h : fs.ext2Create node name attr raw = .ok (ret, fs')) : 0 ≤ ret := by
  obtain ⟨found, -, h⟩ := bind_eq_ok.mp h
  split at h
  · cases h
    decide
  · split at h
    · cases h
      decide
    · split at h
      · cases h
        decide
      · obtain ⟨created, -, h⟩ := bind_eq_ok.mp h
        split at h <;> cases h <;> decide

/-- What `sys_open` leaves: the table as it was and an error, or a new node, found at the path, that has the flags for its attributes. -/
theorem sysOpen_cases (h : sysOpen w fdt path flags = .ok r) :
    (r.ret < 0 ∧ r.fdt = fdt) ∨ ∃ p fs heap node, path = some p ∧ vfsOpenFile fs w.rootFS w.cwd p.text heap = .ok (some node) ∧
      (r.ret, r.fdt) = processAddFile w.listOk fdt { node with attr := flags } := by
  unfold sysOpen at h
  split at h
  · cases h
    exact .inl ⟨show -einval < 0 by decide, rfl⟩
  · rename_i p
    obtain ⟨found, hfound, h⟩ := bind_eq_ok.mp h
    split at h
    · rename_i node
      cases h
      exact .inr ⟨p, _, _, node, rfl, hfound, rfl⟩
    · split at h
      · cases h
        exact .inl ⟨show -enoent < 0 by decide, rfl⟩
      · obtain ⟨⟨ret, fs'⟩, hcreate, h⟩ := bind_eq_ok.mp h
        dsimp only at h
        split at h
        · rename_i hne
          cases h
          have hpos := withParent_nonneg (fun _ _ _ _ hcall => ext2Create_nonneg hcall) hcreate
          exact .inl ⟨by simp only [enoer] at hne; dsimp only; omega, rfl⟩
        · obtain ⟨found', hfound', h⟩ := bind_eq_ok.mp h
          split at h
          · cases h
            exact .inl ⟨show -eperm < 0 by decide, rfl⟩
          · rename_i node
            cases h
            exact .inr ⟨p, _, _, node, rfl, hfound', rfl⟩

/-- The descriptor that `sys_open` returns is that of the node found at the path. -/
theorem sysOpen_node (hlen : fdt.length < 2 ^ 31) (hr : sysOpen w fdt path flags = .ok r) (hfd : r.ret = fd) :
    ∃ p fs heap node, path = some p ∧ vfsOpenFile fs w.rootFS w.cwd p.text heap = .ok (some node) ∧
      r.fdt[fd]? = some { node with attr := flags } := by
  rcases sysOpen_cases hr with ⟨hneg, -⟩ | ⟨p, fs, heap, node, hpath, hopen, hadd⟩
  · omega
  · rcases processAddFile_cases w.listOk { node with attr := flags } hlen with heq | heq
    · rw [heq] at hadd
      have hret : r.ret = -enomem := congrArg Prod.fst hadd
      simp only [enomem] at hret
      omega
    · rw [heq] at hadd
      have hret : r.ret = fdt.length := congrArg Prod.fst hadd
      have hfdt : r.fdt = fdt ++ [{ node with attr := flags }] := congrArg Prod.snd hadd
      obtain rfl : fd = fdt.length := by omega
      exact ⟨p, fs, heap, node, hpath, hopen, by rw [hfdt]; exact getElem?_concat_length⟩

/-- What `sys_opendir` leaves: no `DIR`, or the position of the new node; the freed node stays when there is no memory for a `DIR`. -/
theorem sysOpendir_cases {name : Option Str} (h : sysOpendir w fdt name = .ok r) : (r.ret < 0 ∧ r.fdt = fdt) ∨
      ∃ node : FsNode, (r.ret < 0 ∧ (processAddFile w.listOk fdt node).1 < 0 ∨ r.ret = (processAddFile w.listOk fdt node).1) ∧
          r.fdt = (processAddFile w.listOk fdt node).2 ∨
        w.dirOk = false ∧ r.fdt = fdt ++ [node] := by
  unfold sysOpendir at h
  split at h
  · cases h
    exact .inl ⟨show (-1 : Int) < 0 by decide, rfl⟩
  · obtain ⟨found, -, h⟩ := bind_eq_ok.mp h
    split at h
    · cases h
      exact .inl ⟨show (-1 : Int) < 0 by decide, rfl⟩
    · rename_i node
      dsimp only at h
      split at h
      · rename_i hneg
        cases h
        exact .inr ⟨node, .inl ⟨.inl ⟨show (-1 : Int) < 0 by decide, hneg⟩, rfl⟩⟩
      · split at h
        · cases h
          exact .inr ⟨node, .inl ⟨.inr rfl, rfl⟩⟩
        · rename_i hdir
          cases h
          exact .inr ⟨w.freed, .inr ⟨by simpa using hdir, rfl⟩⟩

theorem FileCall.run_table {c : FileCall} (h : c.run w fdt = .ok r) : Table fdt r.fdt := by
  cases c with
  | openFile path flags =>
    rcases sysOpen_cases h with ⟨-, hfdt⟩ | ⟨_, _, _, node, -, -, hadd⟩
    · exact hfdt ▸ .same
    · rw [show r.fdt = (processAddFile w.listOk fdt { node with attr := flags }).2 from congrArg Prod.snd hadd]
      exact processAddFile_table ..
  | opendir name =>
    rcases sysOpendir_cases h with ⟨-, hfdt⟩ | ⟨node, ⟨-, hfdt⟩ | ⟨-, hfdt⟩⟩
    · exact hfdt ▸ .same
    · exact hfdt ▸ processAddFile_table ..
    · exact hfdt ▸ .append node
  | close fd | closedir fd => exact (sysClose_eq h).1 ▸ .same
  | read fd buf count => exact (sysRead_table h).1
  | write fd buf count => exact (sysWrite_table h).1
  | lseek fd offset whence =>
    cases h
    exact (sysLseek_table fd offset whence).1
  | ftell fd =>
    cases h
    exact (sysFtell_fdt w fdt fd).symm ▸ .same

end OmegaOS
