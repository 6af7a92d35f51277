import OmegaOS.Lemmas.SysFile

/-!
# Descriptors of open files

A descriptor is open from the call that returns it until it is closed. The table has it from that call on, and no call takes it out
again: what is open is what the table has as long as no descriptor is closed.
-/

namespace OmegaOS

open ByteMem CStr

variable {s : Descriptors} {r : FileResult} {c : FileCall} {node : FsNode}

/-! ## Runs -/

/-- The table of a process, and the descriptors that are open: those that were returned and that no call has closed since. -/
structure Descriptors where
  fdt : List FsNode
  opened : Nat → Prop

/-- What a call and its result make of them. -/
def Descriptors.after (s : Descriptors) (c : FileCall) (r : FileResult) : Descriptors where
  fdt := r.fdt
  opened fd :=
    match c with
    | .openFile _ _ | .opendir _ => s.opened fd ∨ r.ret = fd
    | .close n | .closedir n => s.opened fd ∧ ¬ (fd = n ∧ r.ret = enoer)
    | _ => s.opened fd

/-- A call that neither closes a descriptor nor puts into the table one that it does not return. -/
def FileCall.KeepsLaw (w : FileWorld) (fdt : List FsNode) : FileCall → Prop
  | .close fd | .closedir fd => fdt.length ≤ fd
  | .openFile _ _ => fdt.length < 2 ^ 31
  | .opendir _ => fdt.length < 2 ^ 31 ∧ w.dirOk = true
  | _ => True

/-- The states of a process that makes such calls, whatever other processes do in between. -/
inductive DescriptorRun : Descriptors → Prop
  | start : DescriptorRun ⟨createStandardFiles, (· < 3)⟩
  | call {s : Descriptors} {w : FileWorld} {c : FileCall} {r : FileResult} (h : DescriptorRun s) (hc : c.KeepsLaw w s.fdt)
      (hr : c.run w s.fdt = .ok r) : DescriptorRun (s.after c r)

/-- A call on this descriptor, with a buffer where it takes one. -/
def FileCall.On (fd : Nat) : FileCall → Prop
  | .close n | .lseek n _ _ | .ftell n => n = fd
  | .read n buf _ | .write n buf _ => n = fd ∧ buf.isSome
  | _ => False

/-- A descriptor that is open refers to a node; on one that is not, every call fails and changes nothing. -/
structure DescriptorLaw (s : Descriptors) : Prop where
  usable : ∀ fd, s.opened fd → ∃ node, listFindIndex s.fdt fd = some node
  refused : ∀ fd, ¬ s.opened fd → ∀ (w : FileWorld) (c : FileCall), c.On fd →
    ∃ r, c.run w s.fdt = .ok r ∧ r.ret = -enoent ∧ r.fdt = s.fdt ∧ r.fs = w.fs

/-! ## What is open is what the table has -/

/-- On a position that the table does not have every call fails. -/
theorem FileCall.run_absent {fdt : List FsNode} {fd : Nat} (hfd : fdt.length ≤ fd) (w : FileWorld) (hc : c.On fd) :
    ∃ r, c.run w fdt = .ok r ∧ r.ret = -enoent ∧ r.fdt = fdt ∧ r.fs = w.fs := by
  have hnone : fdt[fd]? = none := List.getElem?_eq_none hfd
  cases c with
  | close n =>
    obtain rfl : n = fd := hc
    refine ⟨{ ret := -enoent, fdt := fdt, fs := w.fs }, ?_, rfl, rfl, rfl⟩
    show sysClose w fdt n = _
    rw [sysClose, processCloseFile, listFindIndex_eq, hnone]
    rfl
  | read n buf count =>
    obtain ⟨rfl, hbuf⟩ := hc
    obtain ⟨buffer, rfl⟩ := Option.isSome_iff_exists.mp hbuf
    refine ⟨.failed w fdt enoent (some buffer), ?_, rfl, rfl, rfl⟩
    show sysRead w fdt n (some buffer) count = _
    rw [sysRead, hnone]
  | write n buf count =>
    obtain ⟨rfl, hbuf⟩ := hc
    obtain ⟨buffer, rfl⟩ := Option.isSome_iff_exists.mp hbuf
    refine ⟨.failed w fdt enoent (some buffer), ?_, rfl, rfl, rfl⟩
    show sysWrite w fdt n (some buffer) count = _
    rw [sysWrite, hnone]
  | lseek n offset whence =>
    obtain rfl : n = fd := hc
    refine ⟨.failed w fdt enoent none, ?_, rfl, rfl, rfl⟩
    show Except.ok (sysLseek w fdt n offset whence) = _
    rw [sysLseek, hnone]
  | ftell n =>
    obtain rfl : n = fd := hc
    refine ⟨.failed w fdt enoent none, ?_, rfl, rfl, rfl⟩
    show Except.ok (sysFtell w fdt n) = _
    rw [sysFtell, hnone]
  | openFile _ _ | opendir _ | closedir _ => exact hc.elim

/-- The open descriptors are the positions of the table. -/
def Descriptors.Agree (s : Descriptors) : Prop := ∀ fd, s.opened fd ↔ fd < s.fdt.length

theorem Descriptors.Agree.law (h : s.Agree) : DescriptorLaw s := by
  refine ⟨fun fd hfd => ?_, fun fd hfd w c hc => ?_⟩
  · rw [listFindIndex_eq]
    exact ⟨_, List.getElem?_eq_getElem ((h fd).mp hfd)⟩
  · exact FileCall.run_absent (Nat.le_of_not_lt fun hlt => hfd ((h fd).mpr hlt)) w hc

/-- A call that fails to open a file leaves what is open. -/
theorem Descriptors.Agree.failed (h : s.Agree) (hret : r.ret < 0) (hfdt : r.fdt = s.fdt) (fd : Nat) :
    s.opened fd ∨ r.ret = fd ↔ fd < r.fdt.length := by
  rw [h fd, hfdt]
  omega

/-- A call that opens a file returns the first position behind the table. -/
theorem Descriptors.Agree.added (h : s.Agree) (hret : r.ret = s.fdt.length)
    (hfdt : r.fdt = s.fdt ++ [node]) (fd : Nat) : s.opened fd ∨ r.ret = fd ↔ fd < r.fdt.length := by
  rw [h fd, hfdt, List.length_append, List.length_singleton]
  omega

theorem Descriptors.Agree.processAddFile (h : s.Agree) (hlen : s.fdt.length < 2 ^ 31) {listOk : Bool}
    (hret : r.ret = (processAddFile listOk s.fdt node).1) (hfdt : r.fdt = (processAddFile listOk s.fdt node).2)
    (fd : Nat) : s.opened fd ∨ r.ret = fd ↔ fd < r.fdt.length := by
  rcases processAddFile_cases listOk node hlen with heq | heq
  · rw [heq] at hret hfdt
    exact h.failed (hret ▸ show -enomem < 0 by decide) hfdt fd
  · rw [heq] at hret hfdt
    exact h.added hret hfdt fd

/-- A call keeps the table and the descriptors in step. -/
theorem Descriptors.Agree.call (h : s.Agree) (hc : c.KeepsLaw w s.fdt) (hr : c.run w s.fdt = .ok r) : (s.after c r).Agree := by
  intro fd
  cases c with
  | openFile path flags =>
    rcases sysOpen_cases hr with ⟨hret, hfdt⟩ | ⟨_, _, _, node, -, -, hadd⟩
    · exact h.failed hret hfdt fd
    · exact h.processAddFile hc (congrArg Prod.fst hadd) (congrArg Prod.snd hadd) fd
  | opendir name =>
    obtain ⟨hlen, hdir⟩ := hc
    rcases sysOpendir_cases hr with ⟨hret, hfdt⟩ | ⟨node, ⟨⟨hret, hneg⟩ | hret, hfdt⟩ | ⟨hnodir, -⟩⟩
    · exact h.failed hret hfdt fd
    · rcases processAddFile_cases w.listOk node hlen with heq | heq
      · rw [heq] at hfdt
        exact h.failed hret hfdt fd
      · rw [heq] at hneg
        omega
    · exact h.processAddFile hlen hret hfdt fd
    · simp [hdir] at hnodir
  | close n | closedir n =>
    -- there is no such position, so nothing is closed
    obtain ⟨hfdt, -, ⟨-, hlt⟩ | ⟨hret, -⟩⟩ := sysClose_eq hr
    · exact absurd hlt (Nat.not_lt.mpr hc)
    · show s.opened fd ∧ ¬ (fd = n ∧ r.ret = enoer) ↔ fd < r.fdt.length
      rw [h fd, hfdt, hret]
      exact and_iff_left fun he => absurd he.2 (by decide)
  | read n buf count =>
    show s.opened fd ↔ fd < r.fdt.length
    rw [h fd, (sysRead_table hr).2.1]
  | write n buf count =>
    show s.opened fd ↔ fd < r.fdt.length
    rw [h fd, (sysWrite_table hr).2]
  | lseek n offset whence =>
    cases hr
    show s.opened fd ↔ fd < (sysLseek w s.fdt n offset whence).fdt.length
    rw [h fd, (sysLseek_table n offset whence).2]
  | ftell n =>
    cases hr
    show s.opened fd ↔ fd < (sysFtell w s.fdt n).fdt.length
    rw [h fd, sysFtell_fdt]

theorem DescriptorRun.agree (h : DescriptorRun s) : s.Agree := by
  induction h with
  | start => exact fun fd => .rfl
  | call _ hc hr ih => exact ih.call hc hr

/-- In every run without a descriptor that is closed or lost, the open descriptors are the usable ones; and no call, a closing one
included, changes the file that a descriptor refers to. -/
theorem descriptorRun_law {s : Descriptors} (h : DescriptorRun s) :
    DescriptorLaw s ∧ ∀ (w : FileWorld) (fdt : List FsNode) (c : FileCall) (r : FileResult), c.run w fdt = .ok r →
      ∀ fd node, listFindIndex fdt fd = some node → ∃ node', listFindIndex r.fdt fd = some node' ∧ node'.inode = node.inode := by
  refine ⟨h.agree.law, fun w fdt c r hr fd node hfd => ?_⟩
  rw [listFindIndex_eq] at hfd
  obtain ⟨node', hfd', hsame⟩ := (FileCall.run_table hr).refers hfd
  exact ⟨node', by rwa [listFindIndex_eq], hsame.inode⟩

/-! ## A closed descriptor -/

/-- A filesystem that no call of the run below reads. -/
def blankFs : Ext2 :=
  { disk := fun _ _ => 0, readable := fun _ => true, heapOk := true, stray := fun _ => 0,
    superBlock := ⟨8, 16, 0, 16, 8, 0xEF53, 128⟩, groups := fun _ => 0, blockSize := 1024, groupCount := 1, inodesPerGroup := 8,
    written := [] }

/-- The node of the root directory. -/
def rootDirNode : FsNode :=
  { emptyNode with
    inode := 2, size := 1024, flags := fsDir, read := .ext2, write := .ext2, openFile := .ext2, close := .ext2, readdir := .ext2, finddir := .ext2,
    create := .ext2, mkdir := .ext2, delete := .ext2 }

/-- A process in the root directory. -/
def blankWorld : FileWorld :=
  { fs := blankFs, rootFS := rootDirNode, cwd := [pathSeperator], kbd := 0, heap := fun _ _ => emptyNode, listOk := true, dirOk := true,
    freed := emptyNode }

/-- The call that opens the root directory. -/
def openRoot : FileCall := .openFile (some ⟨[pathSeperator], fun _ => []⟩) oRdonly

/-- The table after it. -/
def openRootTable : List FsNode := createStandardFiles ++ [{ rootDirNode with attr := oRdonly }]

/-- The result of the call. -/
def openRootResult : FileResult := { ret := 3, fdt := openRootTable, fs := blankFs }

/-- The descriptors after it. -/
def openRootState : Descriptors := Descriptors.after ⟨createStandardFiles, (· < 3)⟩ openRoot openRootResult

theorem run_openRoot : openRoot.run blankWorld createStandardFiles = .ok openRootResult := by
  have hnode : vfsOpenFile blankFs rootDirNode [pathSeperator] [pathSeperator] (fun _ => emptyNode) = .ok (some rootDirNode) := rfl
  have hadd := processAddFile_true { rootDirNode with attr := oRdonly } (show createStandardFiles.length < 2 ^ 31 by decide)
  show sysOpen blankWorld createStandardFiles (some ⟨[pathSeperator], fun _ => []⟩) oRdonly = _
  show (vfsOpenFile blankFs rootDirNode [pathSeperator] [pathSeperator] (fun _ => emptyNode) >>= _) = _
  rw [hnode]
  show Except.ok (sysOpenNode blankWorld createStandardFiles blankFs rootDirNode oRdonly) = _
  rw [sysOpenNode, show blankWorld.listOk = true from rfl, hadd]
  rfl

theorem descriptorRun_law_root : DescriptorRun openRootState ∧ DescriptorLaw openRootState :=
  have hlen : openRoot.KeepsLaw blankWorld createStandardFiles := show createStandardFiles.length < 2 ^ 31 by decide
  have h : DescriptorRun openRootState := DescriptorRun.call .start hlen run_openRoot
  ⟨h, (descriptorRun_law h).1⟩

/-- What closing descriptor 3 gives after that: success, and the table is as before. -/
def closeResult : FileResult := { ret := enoer, fdt := openRootTable, fs := blankFs }

/-- The root directory is opened as descriptor 3. Closing 3 succeeds, and then closing it again does not fail. -/
theorem descriptor_closed_twice : openRoot.run blankWorld createStandardFiles = .ok openRootResult ∧
      (FileCall.close 3).run blankWorld openRootState.fdt = .ok closeResult ∧
      (FileCall.close 3).run blankWorld closeResult.fdt = .ok closeResult ∧
      ¬ DescriptorLaw (openRootState.after (.close 3) closeResult) := by
  have hagain : (FileCall.close 3).run blankWorld closeResult.fdt = .ok closeResult := rfl
  refine ⟨run_openRoot, rfl, hagain, fun h => ?_⟩
  obtain ⟨r, hr, hret, -⟩ := h.refused 3 (fun ho => ho.2 ⟨rfl, rfl⟩) blankWorld (.close 3) rfl
  cases hagain.symm.trans hr
  exact absurd hret (by decide)

end OmegaOS
