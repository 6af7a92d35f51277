import OmegaOS.Lemmas.SysFile
import OmegaOS.Theorems.DirectoryCreate

/-!
# Access modes

A descriptor keeps the flags that it was opened with. Reads are tested against `O_WRONLY`, which is a bit; writes are tested against
`O_RDONLY`, which is none, so that the mode never refuses one.
-/

namespace OmegaOS

open ByteMem CStr

variable {count : Nat} {buf : Option Mem} {fs' : Ext2} {buffer : Mem} {ret : Int} {c : FileCall}

/-! ## Runs -/

/-- The tables of a process that has opened `fd` with these flags and makes any calls on files since then. -/
inductive ModeRun (flags fd : Nat) : List FsNode → Prop
  | opened {w : FileWorld} {fdt : List FsNode} {path : Option RawPath} {r : FileResult} (hlen : fdt.length < 2 ^ 31)
      (hr : sysOpen w fdt path flags = .ok r) (hfd : r.ret = fd) : ModeRun flags fd r.fdt
  | call {w : FileWorld} {fdt : List FsNode} {c : FileCall} {r : FileResult} (h : ModeRun flags fd fdt) (hr : c.run w fdt = .ok r) :
      ModeRun flags fd r.fdt

/-- A call that reads, writes or seeks through the descriptor. -/
def FileCall.Through (fd : Nat) : FileCall → Prop
  | .read n _ _ | .write n _ _ | .lseek n _ _ => n = fd
  | _ => False

/-- What the mode allows a call. A call is refused for its mode when it fails with `EPERM` though the node has the function. -/
structure ModeEnforced (flags fd : Nat) (w : FileWorld) (fdt : List FsNode) (c : FileCall) (r : FileResult) : Prop where
  readOnly : flags &&& oAccmode = oRdonly → r.fs = w.fs ∧ ∀ buf count, c = .write fd buf count → r.ret < 0
  writeOnly : flags &&& oAccmode = oWronly → ∀ buf count, c = .read fd buf count → r.ret < 0 ∧ r.buf = buf
  readWrite : flags &&& oAccmode = oRdwr → ∀ node, fdt[fd]? = some node → ∀ buf count,
    (c = .read fd buf count → node.read = .ext2 → r.ret ≠ -eperm) ∧ (c = .write fd buf count → node.write = .ext2 → r.ret ≠ -eperm)

/-- A write that fails for another reason before it writes anything: no buffer, no regular file, or an offset behind its end. -/
def WriteStops (w : FileWorld) (node : FsNode) (buf : Option Mem) (count : Nat) : Prop :=
  buf = none ∨ node.write = .null ∨ node.flags &&& fsFile ≠ fsFile ∨
    count ≠ 0 ∧ node.write = .ext2 ∧
      ∃ inode, w.fs.readInode node.inode = some inode ∧ (inodeFile inode = false ∨ iSize inode < node.offset32)

/-! ## The flags stay -/

theorem ModeRun.node {flags fd : Nat} {fdt : List FsNode} (h : ModeRun flags fd fdt) :
    ∃ node, fdt[fd]? = some node ∧ node.attr = flags := by
  induction h with
  | @opened w fdt path r hlen hr hfd =>
    obtain ⟨_, _, _, node, -, -, hnode⟩ := sysOpen_node hlen hr hfd
    exact ⟨_, hnode, rfl⟩
  | call _ hr ih =>
    obtain ⟨node, hfd, hattr⟩ := ih
    obtain ⟨node', hfd', size, offset, rfl⟩ := (FileCall.run_table hr).refers hfd
    exact ⟨_, hfd', hattr⟩

theorem oWronly_of_accmode (flags : Nat) : flags &&& oWronly = (flags &&& oAccmode) &&& oWronly := by
  have hmask : oAccmode &&& oWronly = oWronly := rfl
  rw [Nat.and_assoc, hmask]

/-! ## What the calls return -/

theorem ext2Read_ret (fs : Ext2) (node : VfsNode) (offset size : Nat) (buffer : Mem) :
    (fs.ext2Read node offset size buffer).1 ≠ -eperm := by
  unfold Ext2.ext2Read
  split
  · exact (by decide : -eexist ≠ -eperm)
  · split
    · exact (by decide : -eisdir ≠ -eperm)
    · split
      · exact (by decide : -espipe ≠ -eperm)
      · split
        · exact (by decide : -enomem ≠ -eperm)
        · dsimp only
          split
          · exact (by decide : -eio ≠ -eperm)
          · rename_i read _ _
            simp only [eperm]
            omega

theorem finishWrite_ret (fs : Ext2) (node : VfsNode) (inode : Mem) (offset osize : Nat) (hn : n ≠ -eperm) :
    (fs.finishWrite node inode offset osize n).1 ≠ -eperm := by
  unfold Ext2.finishWrite
  split
  · exact (by decide : (0 : Int) ≠ -eperm)
  · dsimp only
    split
    · exact (by decide : -eio ≠ -eperm)
    · exact hn

theorem ext2Write_ret {fs : Ext2} {node vnode : VfsNode} {offset size : Nat}
    (h : fs.ext2Write node offset size buffer = .ok (ret, vnode, fs')) : ret ≠ -eperm := by
  unfold Ext2.ext2Write at h
  split at h
  · cases h
  · dsimp only at h
    split at h
    · cases h
      decide
    · split at h
      · cases h
        decide
      · split at h
        · cases h
          decide
        · have hret : _ = ret := congrArg Prod.fst (Except.ok.inj h)
          rw [← hret]
          refine finishWrite_ret _ _ _ _ _ ?_
          split
          · simp only [eperm]
            omega
          · decide

theorem vfsWrite_stops {node node' : FsNode}
    (hstop : WriteStops w node (some buffer) count) (h : vfsWrite w.fs node node.offset32 count buffer = .ok (ret, node', fs')) :
    fs' = w.fs ∧ ret < 0 := by
  unfold vfsWrite at h
  split at h
  · cases h
    exact ⟨rfl, by decide⟩
  · rename_i hperm
    split at h
    · cases h
      exact ⟨rfl, by decide⟩
    · rename_i hfile
      obtain hbuf | hnull | hflag | ⟨hcount, hwrite, inode, hread, hinode⟩ := hstop
      · cases hbuf
      · exact absurd (.inl hnull) hperm
      · exact absurd hflag hfile
      · rw [if_neg hcount, hwrite] at h
        obtain ⟨⟨ret, vnode, fs'⟩, hext2, h⟩ := bind_eq_ok.mp h
        cases h
        rw [Ext2.ext2Write, hread] at hext2
        dsimp only at hext2
        rcases hinode with hinode | hsize
        · rw [hinode] at hext2
          cases hext2
          exact ⟨rfl, by decide⟩
        · split at hext2
          · cases hext2
            exact ⟨rfl, by decide⟩
          · cases hext2
            exact ⟨rfl, by decide⟩

/-! ## The mode in a run -/

variable {flags fd : Nat} {w : FileWorld} {fdt : List FsNode} {node : FsNode} {r : FileResult}

section

variable (hfd : fdt[fd]? = some node)

include hfd

theorem sysRead_writeOnly (hattr : node.attr &&& oWronly ≠ 0) (hr : sysRead w fdt fd buf count = .ok r) : r.ret < 0 ∧ r.buf = buf := by
  unfold sysRead at hr
  cases buf with
  | none =>
    cases hr
    exact ⟨show -einval < 0 by decide, rfl⟩
  | some buffer =>
    rw [hfd] at hr
    obtain ⟨⟨ret, node', buffer'⟩, hread, hr⟩ := bind_eq_ok.mp hr
    cases hr
    rw [vfsRead, if_pos (.inr hattr)] at hread
    cases hread
    exact ⟨show -eperm < 0 by decide, rfl⟩

theorem sysRead_readWrite (hattr : node.attr &&& oWronly = 0) (hext2 : node.read = .ext2) (hr : sysRead w fdt fd buf count = .ok r) : r.ret ≠ -eperm := by
  unfold sysRead at hr
  cases buf with
  | none =>
    cases hr
    exact (by decide : -einval ≠ -eperm)
  | some buffer =>
    rw [hfd] at hr
    obtain ⟨⟨ret, node', buffer'⟩, hread, hr⟩ := bind_eq_ok.mp hr
    cases hr
    unfold vfsRead at hread
    rw [hext2, hattr, if_neg (by decide)] at hread
    split at hread
    · cases hread
      exact (by decide : -eisdir ≠ -eperm)
    · split at hread
      · cases hread
        exact (by decide : (0 : Int) ≠ -eperm)
      · have hret := ext2Read_ret w.fs node.toVfsNode node.offset32 count buffer
        generalize w.fs.ext2Read node.toVfsNode node.offset32 count buffer = x at hread hret
        cases hread
        exact hret

theorem sysWrite_readWrite (hext2 : node.write = .ext2) (hr : sysWrite w fdt fd buf count = .ok r) : r.ret ≠ -eperm := by
  unfold sysWrite at hr
  cases buf with
  | none =>
    cases hr
    exact (by decide : -einval ≠ -eperm)
  | some buffer =>
    rw [hfd] at hr
    obtain ⟨⟨ret, node', fs'⟩, hwrite, hr⟩ := bind_eq_ok.mp hr
    cases hr
    unfold vfsWrite at hwrite
    rw [hext2, oRdonly, Nat.and_zero, if_neg (by decide)] at hwrite
    split at hwrite
    · cases hwrite
      exact (by decide : -eisdir ≠ -eperm)
    · split at hwrite
      · cases hwrite
        exact (by decide : (0 : Int) ≠ -eperm)
      · obtain ⟨⟨ret, vnode, fs'⟩, hw, hwrite⟩ := bind_eq_ok.mp hwrite
        cases hwrite
        exact ext2Write_ret hw

theorem sysWrite_stops (hstop : WriteStops w node buf count) (hr : sysWrite w fdt fd buf count = .ok r) : r.fs = w.fs ∧ r.ret < 0 := by
  unfold sysWrite at hr
  cases buf with
  | none =>
    cases hr
    exact ⟨rfl, show -einval < 0 by decide⟩
  | some buffer =>
    rw [hfd] at hr
    obtain ⟨⟨ret, node', fs'⟩, hwrite, hr⟩ := bind_eq_ok.mp hr
    cases hr
    exact vfsWrite_stops hstop hwrite

end

/-- The mode of a descriptor is enforced in every run, as long as each write through a read-only one stops for another reason. -/
theorem modeRun_enforced (h : ModeRun flags fd fdt) {c : FileCall} (hc : c.Through fd) (hr : c.run w fdt = .ok r)
    (hstop : flags &&& oAccmode = oRdonly → ∀ buf count, c = .write fd buf count →
      ∀ node, fdt[fd]? = some node → WriteStops w node buf count) :
    ModeEnforced flags fd w fdt c r := by
  obtain ⟨node, hfd, hattr⟩ := h.node
  have hbit := oWronly_of_accmode flags
  refine ⟨fun hmode => ⟨?_, ?_⟩, ?_, ?_⟩
  · cases c with
    | read n buf count => exact (sysRead_table hr).2.2
    | write n buf count =>
      obtain rfl : n = fd := hc
      exact (sysWrite_stops hfd (hstop hmode buf count rfl node hfd) hr).1
    | lseek n offset whence =>
      cases hr
      unfold sysLseek
      split <;> rfl
    | openFile _ _ | opendir _ | close _ | closedir _ | ftell _ => exact hc.elim
  · rintro buf count rfl
    exact (sysWrite_stops hfd (hstop hmode buf count rfl node hfd) hr).2
  · rintro hmode buf count rfl
    refine sysRead_writeOnly hfd ?_ hr
    rw [hattr, hbit, hmode]
    decide
  · intro hmode node' hfd' buf count
    cases hfd.symm.trans hfd'
    refine ⟨?_, ?_⟩
    · rintro rfl hext2
      refine sysRead_readWrite hfd ?_ hext2 hr
      rw [hattr, hbit, hmode]
      decide
    · rintro rfl hext2
      exact sysWrite_readWrite hfd hext2 hr

/-! ## A write through a read-only descriptor -/

/-- The root directory of the filesystem with the file `a`. -/
def smallRootNode : FsNode := emptyNode.fill 2 (smallFs.storedInode 2)

/-- A process in the root directory. -/
def smallWorld : FileWorld :=
  { fs := smallFs, rootFS := smallRootNode, cwd := [pathSeperator], kbd := 0, heap := fun _ _ => emptyNode, listOk := true, dirOk := true,
    freed := emptyNode }

/-- The path `/a`. -/
def smallPath : RawPath := ⟨[pathSeperator, 0x61], fun _ => []⟩

/-- `sys_open("/a", flags)`, and then a call. -/
def openThen (flags : Nat) (c : FileCall) : Except Halt (FileResult × FileResult) := do
  let opened ← sysOpen smallWorld createStandardFiles (some smallPath) flags
  let result ← c.run smallWorld opened.fdt
  return (opened, result)

theorem openThen_run {flags fd : Nat} (h : openThen flags c = .ok x) (hfd : x.1.ret = fd) :
    ModeRun flags fd x.1.fdt ∧ c.run smallWorld x.1.fdt = .ok x.2 := by
  obtain ⟨opened, hopen, h⟩ := bind_eq_ok.mp h
  obtain ⟨result, hcall, h⟩ := bind_eq_ok.mp h
  cases h
  exact ⟨.opened (by decide) hopen hfd, hcall⟩

/-- A read of one byte through the descriptor 3. -/
def readThree : FileCall := .read 3 (some fun _ => 0) 1

/-- A write of one byte through the descriptor 3. -/
def writeThree : FileCall := .write 3 (some fun _ => 0x78) 1

/-- The file is opened for writing only, and a read is refused. -/
theorem modeRun_enforced_writeOnly :
    ∃ fdt r, ModeRun oWronly 3 fdt ∧ readThree.run smallWorld fdt = .ok r ∧ ModeEnforced oWronly 3 smallWorld fdt readThree r := by
  have heval : (openThen oWronly readThree).map (·.1.ret) = .ok 3 := by decide
  obtain ⟨x, hx, hfd⟩ := map_eq_ok heval
  obtain ⟨hrun, hcall⟩ := openThen_run hx hfd
  exact ⟨_, _, hrun, hcall, modeRun_enforced hrun rfl hcall fun hmode => absurd hmode (by decide)⟩

/-- The file is opened for reading only. A write through the descriptor returns 1 and changes the first byte of the file's block. -/
theorem read_only_descriptor_writes :
    ∃ fdt r, ModeRun oRdonly 3 fdt ∧ writeThree.run smallWorld fdt = .ok r ∧ r.ret = 1 ∧ r.fs.disk 7 0 = 0x78 ∧ smallFs.disk 7 0 = 0 ∧
      ¬ ModeEnforced oRdonly 3 smallWorld fdt writeThree r := by
  have heval : (openThen oRdonly writeThree).map (fun x => (x.1.ret, x.2.ret, x.2.fs.disk 7 0)) = .ok (3, 1, 0x78) := by decide +kernel
  obtain ⟨x, hx, hvalues⟩ := map_eq_ok heval
  obtain ⟨hfd, hret, hbyte⟩ : x.1.ret = 3 ∧ x.2.ret = 1 ∧ x.2.fs.disk 7 0 = 0x78 := by simpa using hvalues
  obtain ⟨hrun, hcall⟩ := openThen_run hx hfd
  refine ⟨_, _, hrun, hcall, hret, hbyte, rfl, fun henforced => ?_⟩
  have hneg := (henforced.readOnly (by decide)).2 _ _ rfl
  omega

end OmegaOS
