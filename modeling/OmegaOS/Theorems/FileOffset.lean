import OmegaOS.Lemmas.Ext2Write
import OmegaOS.Lemmas.Path
import OmegaOS.Theorems.AccessMode
import OmegaOS.Theorems.NodeMetadata

/-!
# The offset of a file

Reads and writes move the offset of a descriptor on by what they return, and `sys_lseek` sets it. Four places keep it, and three of them
go wrong: a write that fails takes its error for a number of bytes, `SEEK_END` looks neither at the argument nor at the disk, and reads and
writes are passed 32 bits of the offset.
-/

namespace OmegaOS

open ByteMem CStr

variable {fs : Ext2} {count offset size : Nat} {found node' : FsNode} {name : Str} {heap : Nat → FsNode} {o : Int} {vnode : VfsNode} {c : OffsetCall}

variable {w : FileWorld} {fdt : List FsNode} {fd : Nat} {node : FsNode}

/-! ## The offset as it is meant -/

/-- The calls that use the offset of a descriptor. -/
inductive OffsetCall where
  | read (buf : Option Mem) (count : Nat)
  | write (buf : Option Mem) (count : Nat)
  | lseek (offset whence : Int)
  | ftell

/-- The call on a descriptor. -/
def OffsetCall.on (fd : Nat) : OffsetCall → FileCall
  | .read buf count => .read fd buf count
  | .write buf count => .write fd buf count
  | .lseek offset whence => .lseek fd offset whence
  | .ftell => .ftell fd

/-- The offset after a read or a write that returned `ret`. -/
def advance (o ret : Int) : Int := if 0 ≤ ret then o + ret else o

/-- The offset after a call that returned `ret`, on a file of this size. -/
def OffsetCall.next (size : Nat) (o ret : Int) : OffsetCall → Int
  | .read _ _ | .write _ _ => advance o ret
  | .lseek offset whence => if whence = 0 then offset else if whence = 1 then o + offset else if whence = 2 then size + offset else o
  | .ftell => o

/-- The table of a process that has opened a file and made calls on its descriptor since then, each of which met the condition, and the
offset as it is meant. The root directory is the only node that is not made when it is opened. -/
inductive OffsetRun (cond : FileWorld → FsNode → OffsetCall → Prop) (fd : Nat) : List FsNode → Int → Prop
  | opened {w : FileWorld} {fdt : List FsNode} {path : RawPath} {flags : Nat} {r : FileResult} {node : FsNode} (hlen : fdt.length < 2 ^ 31)
      (hr : sysOpen w fdt (some path) flags = .ok r) (hfd : r.ret = fd) (hpath : normalizePath w.cwd path.text ≠ [pathSeperator])
      (hnode : r.fdt[fd]? = some node) (hfile : node.flags &&& fsFile = fsFile) : OffsetRun cond fd r.fdt 0
  | call {w : FileWorld} {fdt : List FsNode} {o : Int} {node : FsNode} {c : OffsetCall} {r : FileResult} (h : OffsetRun cond fd fdt o)
      (hnode : fdt[fd]? = some node) (hcond : cond w node c) (hr : (c.on fd).run w fdt = .ok r) :
      OffsetRun cond fd r.fdt (c.next (iSize (w.fs.storedInode node.inode)) o r.ret)

/-! ## When it is kept -/

/-- The offset that `vfs_read` and `vfs_write` get is the one of the node, and the end of the range does not wrap. Where it wraps,
`memcpy` is passed 4 GiB for a buffer of one block. -/
def FsNode.OffsetFits (node : FsNode) (count : Nat) : Prop := 0 ≤ node.offset ∧ node.offset < 2 ^ 32 ∧ node.offset + count < 2 ^ 64

/-- A read that is not refused gets the offset. -/
def ReadFollows (fs : Ext2) (node : FsNode) (count : Nat) : Prop :=
  ∀ inode, fs.readInode node.inode = some inode → inodeFile inode = true → (count + node.offset32) % 2 ^ 64 ≤ iSize inode → node.OffsetFits count

/-- There is an inode; a write that is not refused gets the offset, and its rounds do not fail. -/
def WriteFollows (fs : Ext2) (node : FsNode) (count : Nat) : Prop :=
  ∃ inode, fs.readInode node.inode = some inode ∧
    (inodeFile inode = true → node.offset32 ≤ iSize inode →
      node.OffsetFits count ∧ WriteReady fs inode node.inode (fs.endBlock node.offset32 count))

/-- When a call on a file leaves its descriptor with the offset as it is meant. -/
def OffsetCall.Follows (w : FileWorld) (node : FsNode) : OffsetCall → Prop
  | .read buf count => buf ≠ none → count ≠ 0 → node.attr &&& oWronly = 0 → ReadFollows w.fs node count
  | .write buf count => buf ≠ none → count ≠ 0 → WriteFollows w.fs node count
  | .lseek offset whence =>
    (whence = 1 → -2 ^ 63 ≤ node.offset + offset ∧ node.offset + offset < 2 ^ 63) ∧
      (whence = 2 → (node.size : Int) = iSize (w.fs.storedInode node.inode) + offset)
  | .ftell => True

/-! ## Opening -/

/-- A node of a file of the ext2 filesystem. -/
structure FsNode.Ext2File (node : FsNode) : Prop where
  file : node.flags &&& fsFile = fsFile
  read : node.read = .ext2
  write : node.write = .ext2

theorem FsNode.Ext2File.same (h : node.Ext2File) (hs : SameFile node node') : node'.Ext2File := by
  obtain ⟨_, _, rfl⟩ := hs
  exact ⟨h.file, h.read, h.write⟩

theorem vfsFinddir_filled {raw : FsNode} (h : vfsFinddir fs node name raw = .ok (some found)) :
    ∃ ino inode, found = raw.fill ino inode := by
  unfold vfsFinddir at h
  split at h
  · cases h
  · split at h
    · cases h
    · split at h
      · rw [ext2Finddir_eq] at h
        obtain ⟨entry, -, hfound⟩ := map_eq_ok h
        obtain ⟨x, -, hx⟩ := Option.map_eq_some_iff.mp hfound
        exact ⟨x.1, x.2, hx.symm⟩
      · cases h

theorem openLoop_filled {path : Str} {pathDepth pathOffset depth fuel : Nat}
    (h : openLoop fs heap path pathDepth node pathOffset depth fuel = .ok (some found)) :
    (fuel = 0 ∧ found = node) ∨ ∃ raw ino inode, found = FsNode.fill raw ino inode := by
  induction fuel generalizing node pathOffset depth with
  | zero =>
    cases h
    exact .inl ⟨rfl, rfl⟩
  | succ fuel ih =>
    obtain ⟨next, hnext, h⟩ := bind_eq_ok.mp h
    split at h
    · cases h
    · rename_i next
      obtain ⟨ino, inode, hfilled⟩ := vfsFinddir_filled hnext
      split at h
      · cases h
        exact .inr ⟨_, ino, inode, hfilled⟩
      · rcases ih h with ⟨-, rfl⟩ | hrest
        · exact .inr ⟨_, ino, inode, hfilled⟩
        · exact .inr hrest

theorem normalizePath_head (cwd path : Str) : ∃ rest, normalizePath cwd path = pathSeperator :: rest := by
  rw [normalizePath_eq]
  split
  · exact ⟨[], rfl⟩
  · rename_i hne
    obtain ⟨c, cs, hcs⟩ := List.exists_cons_of_ne_nil hne
    rw [hcs]
    exact ⟨_, rfl⟩

/-- Any node but the root is filled when it is opened. -/
theorem vfsOpenFile_filled {rootFS : FsNode} {cwd : Str}
    (hpath : normalizePath cwd name ≠ [pathSeperator]) (h : vfsOpenFile fs rootFS cwd name heap = .ok (some found)) :
    ∃ raw ino inode, found = FsNode.fill raw ino inode := by
  obtain ⟨rest, hrest⟩ := normalizePath_head cwd name
  unfold vfsOpenFile at h
  split at h
  · cases h
  · dsimp only at h
    rw [hrest] at h hpath
    split at h
    · rename_i hlen
      rw [List.eq_nil_of_length_eq_zero (Nat.succ.inj hlen)] at hpath
      exact absurd rfl hpath
    · rcases openLoop_filled h with ⟨hzero, -⟩ | hfilled
      · simp [List.count_cons_self] at hzero
      · exact hfilled

/-! ## Reading and writing -/

theorem advance_error {err : Int} (h : 0 < err) : advance o (-err) = o := if_neg (by omega)

theorem FsNode.OffsetFits.offset32 (h : node.OffsetFits count) : (node.offset32 : Int) = node.offset := by
  obtain ⟨hlo, hhi, -⟩ := h
  rw [FsNode.offset32, Int.emod_eq_of_lt hlo hhi]
  exact Int.toNat_of_nonneg hlo

theorem ext2Read_offset (buffer : Mem)
    (h : ∀ inode, fs.readInode vnode.inode = some inode → inodeFile inode = true → (size + offset) % 2 ^ 64 ≤ iSize inode →
      (offset : Int) = vnode.offset) :
    (fs.ext2Read vnode offset size buffer).2.1.offset = advance vnode.offset (fs.ext2Read vnode offset size buffer).1 := by
  unfold Ext2.ext2Read
  split
  · exact (advance_error (by decide)).symm
  · rename_i inode hinode
    split
    · exact (advance_error (by decide)).symm
    · rename_i hfile
      split
      · exact (advance_error (by decide)).symm
      · rename_i hsize
        split
        · exact (advance_error (by decide)).symm
        · dsimp only
          split
          · exact (advance_error (by decide)).symm
          · rw [advance, if_pos (by omega), h inode hinode (by simpa using hfile) (by omega)]

theorem finishWrite_offset (fs : Ext2) (inode : Mem) (osize written : Nat) (h : (offset : Int) = vnode.offset) :
    (fs.finishWrite vnode inode offset osize written).2.1.offset =
      advance vnode.offset (fs.finishWrite vnode inode offset osize written).1 := by
  unfold Ext2.finishWrite
  split
  · exact (Int.add_zero _).symm
  · dsimp only
    split
    · exact (advance_error (by decide)).symm
    · dsimp only
      rw [advance, if_pos (by omega), h]

theorem ext2Write_offset (vnode : VfsNode) (buffer : Mem) {inode : Mem} (hinode : fs.readInode vnode.inode = some inode)
    (h : inodeFile inode = true → offset ≤ iSize inode →
      (offset : Int) = vnode.offset ∧ WriteReady fs inode vnode.inode (fs.endBlock offset size)) :
    ∃ ret vnode' fs', fs.ext2Write vnode offset size buffer = .ok (ret, vnode', fs') ∧ vnode'.offset = advance vnode.offset ret := by
  rw [Ext2.ext2Write, hinode]
  dsimp only
  split
  · exact ⟨_, _, _, rfl, (advance_error (by decide)).symm⟩
  · rename_i hfile
    split
    · exact ⟨_, _, _, rfl, (advance_error (by decide)).symm⟩
    · rename_i hsize
      split
      · exact ⟨_, _, _, rfl, (advance_error (by decide)).symm⟩
      · obtain ⟨hoffset, hready⟩ := h (by simpa using hfile) (by omega)
        obtain ⟨inode', written, fs', hloop⟩ := hready.writeLoop offset size buffer 0 (offset / fs.blockSize) (le_refl _)
        rw [hloop]
        exact ⟨_, _, _, rfl, finishWrite_offset fs' inode' (iSize inode) written hoffset⟩

theorem vfsRead_offset (hf : node.Ext2File) (kbd : Int) (buffer : Mem)
    (h : count ≠ 0 → node.attr &&& oWronly = 0 → ReadFollows fs node count) :
    ∃ ret node' buffer', vfsRead fs node kbd node.offset32 count buffer = .ok (ret, node', buffer') ∧ node'.offset = advance node.offset ret := by
  unfold vfsRead
  split
  · exact ⟨_, _, _, rfl, (advance_error (by decide)).symm⟩
  · rename_i hattr
    rw [if_neg (not_not.mpr hf.file), hf.read]
    split
    · exact ⟨_, _, _, rfl, (Int.add_zero _).symm⟩
    · rename_i hcount
      have hfollows := h hcount (by simpa using (not_or.mp hattr).2)
      exact ⟨_, _, _, rfl, ext2Read_offset buffer fun inode hinode hfile hsize => (hfollows inode hinode hfile hsize).offset32⟩

theorem vfsWrite_offset (hf : node.Ext2File) (buffer : Mem) (h : count ≠ 0 → WriteFollows fs node count) :
    ∃ ret node' fs', vfsWrite fs node node.offset32 count buffer = .ok (ret, node', fs') ∧ node'.offset = advance node.offset ret := by
  unfold vfsWrite
  split
  · exact ⟨_, _, _, rfl, (advance_error (by decide)).symm⟩
  · rw [if_neg (not_not.mpr hf.file), hf.write]
    split
    · exact ⟨_, _, _, rfl, (Int.add_zero _).symm⟩
    · rename_i hcount
      obtain ⟨inode, hinode, hready⟩ := h hcount
      obtain ⟨ret, vnode', fs', hwrite, hoffset⟩ := ext2Write_offset node.toVfsNode buffer hinode fun hfile hsize =>
        ⟨(hready hfile hsize).1.offset32, (hready hfile hsize).2⟩
      rw [hwrite]
      exact ⟨ret, _, fs', rfl, hoffset⟩

/-! ## Calls -/

/-- The call returns, and leaves the descriptor of the same file with the offset that follows from what it returned. -/
def LeavesOffset (fd : Nat) (node : FsNode) (next : Int → Int) (x : Except Halt FileResult) : Prop :=
  ∃ r node', x = .ok r ∧ r.fdt[fd]? = some node' ∧ SameFile node node' ∧ node'.offset = next r.ret

theorem getElem?_set_of_some (hfd : fdt[fd]? = some node) : (fdt.set fd node')[fd]? = some node' :=
  List.getElem?_set_self (List.getElem?_eq_some_iff.mp hfd).1

theorem sysRead_offset (hfd : fdt[fd]? = some node) (hf : node.Ext2File) {buf : Option Mem}
    (h : (OffsetCall.read buf count).Follows w node) : LeavesOffset fd node (advance node.offset) (sysRead w fdt fd buf count) := by
  unfold sysRead
  cases buf with
  | none => exact ⟨_, node, rfl, hfd, .refl node, (advance_error (by decide)).symm⟩
  | some buffer =>
    obtain ⟨ret, node', buffer', hread, hoffset⟩ := vfsRead_offset hf w.kbd buffer (h (Option.some_ne_none buffer))
    rw [hfd]
    dsimp only
    rw [hread]
    exact ⟨_, node', rfl, getElem?_set_of_some hfd, vfsRead_node hread, hoffset⟩

theorem sysWrite_offset (hfd : fdt[fd]? = some node) (hf : node.Ext2File) {buf : Option Mem}
    (h : (OffsetCall.write buf count).Follows w node) : LeavesOffset fd node (advance node.offset) (sysWrite w fdt fd buf count) := by
  unfold sysWrite
  cases buf with
  | none => exact ⟨_, node, rfl, hfd, .refl node, (advance_error (by decide)).symm⟩
  | some buffer =>
    obtain ⟨ret, node', fs', hwrite, hoffset⟩ := vfsWrite_offset hf buffer (h (Option.some_ne_none buffer))
    rw [hfd]
    dsimp only
    rw [hwrite]
    exact ⟨_, node', rfl, getElem?_set_of_some hfd, vfsWrite_node hwrite, hoffset⟩

theorem vfsFseek_offset (hf : node.Ext2File) {offset whence : Int} (ret : Int)
    (hcur : whence = 1 → -2 ^ 63 ≤ node.offset + offset ∧ node.offset + offset < 2 ^ 63)
    (hend : whence = 2 → (node.size : Int) = size + offset) :
    (vfsFseek node offset whence).2.offset = (OffsetCall.lseek offset whence).next size node.offset ret := by
  rw [vfsFseek, if_neg (not_not.mpr hf.file), OffsetCall.next]
  split
  · rfl
  · split
    · rename_i h1
      obtain ⟨hlo, hhi⟩ := hcur h1
      exact Int.bmod_eq_of_le (by omega) (by omega)
    · split
      · exact hend ‹_›
      · rfl

theorem OffsetCall.Follows.leaves (h : c.Follows w node) (hfd : fdt[fd]? = some node) (hf : node.Ext2File) :
    LeavesOffset fd node (fun ret => c.next (iSize (w.fs.storedInode node.inode)) node.offset ret) ((c.on fd).run w fdt) := by
  cases c with
  | read buf count => exact sysRead_offset hfd hf h
  | write buf count => exact sysWrite_offset hfd hf h
  | lseek offset whence =>
    refine ⟨_, _, rfl, ?_, vfsFseek_node node offset whence, vfsFseek_offset hf _ h.1 h.2⟩
    rw [sysLseek, hfd]
    exact getElem?_set_of_some hfd
  | ftell => exact ⟨_, node, rfl, by rwa [sysFtell_fdt], .refl node, rfl⟩

theorem OffsetRun.descriptor {fd : Nat} {fdt : List FsNode} (h : OffsetRun OffsetCall.Follows fd fdt o) :
    ∃ node, fdt[fd]? = some node ∧ node.Ext2File ∧ node.offset = o := by
  induction h with
  | @opened w fdt path flags r node hlen hr hfd hpath hnode hfile =>
    obtain ⟨p, fs, heap, found, hp, hopen, hfound⟩ := sysOpen_node hlen hr hfd
    cases hp
    obtain ⟨raw, ino, inode, rfl⟩ := vfsOpenFile_filled hpath hopen
    rw [hnode] at hfound
    cases hfound
    refine ⟨_, hnode, ⟨hfile, rfl, rfl⟩, ?_⟩
    rw [FsNode.fill_toVfsNode]
  | @call w fdt o node c r _ hnode hcond hr ih =>
    obtain ⟨node', hfd, hf, rfl⟩ := ih
    obtain rfl : node = node' := Option.some.inj (hnode.symm.trans hfd)
    obtain ⟨r', node', hrun, hfd', hsame, hoffset⟩ := hcond.leaves hfd hf
    obtain rfl : r = r' := Except.ok.inj (hr.symm.trans hrun)
    exact ⟨node', hfd', hf.same hsame, hoffset⟩

/-- In a run whose calls all meet the condition `sys_ftell` returns the offset as it is meant, and the next call returns. -/
theorem offsetRun_follows {fd : Nat} {fdt : List FsNode} {o : Int} (h : OffsetRun OffsetCall.Follows fd fdt o) :
    (∀ w, (sysFtell w fdt fd).ret = o) ∧
      ∀ (w : FileWorld) (node : FsNode) (c : OffsetCall), fdt[fd]? = some node → c.Follows w node → ∃ r, (c.on fd).run w fdt = .ok r := by
  obtain ⟨node, hfd, hf, rfl⟩ := h.descriptor
  refine ⟨fun w => ?_, fun w node' c hnode hc => ?_⟩
  · rw [sysFtell, hfd]
    exact if_neg (not_not.mpr hf.file)
  · obtain rfl : node = node' := Option.some.inj (hfd.symm.trans hnode)
    obtain ⟨r, _, hrun, -⟩ := hc.leaves hfd hf
    exact ⟨r, hrun⟩

/-! ## Two descriptors that lose their offset -/

/-- `sys_open("/a", O_RDWR)`, and then a call on the descriptor. -/
def openCall (w : FileWorld) (c : OffsetCall) : Except Halt (FileResult × FileResult) := do
  let opened ← sysOpen smallWorld createStandardFiles (some smallPath) oRdwr
  let result ← (c.on 3).run w opened.fdt
  return (opened, result)

/-- What the descriptor is opened with, what the call returns, and the offset after it. -/
def openCallValues (w : FileWorld) (x : FileResult × FileResult) : Int × Option (Nat × Nat × Int) × Int × Int :=
  (x.1.ret, (x.1.fdt[3]?).map fun node => (node.inode, node.flags, node.offset), x.2.ret, (sysFtell w x.2.fdt 3).ret)

theorem openCall_run (cond : FileWorld → FsNode → OffsetCall → Prop) {ret offset : Int}
    (h : (openCall w c).map (openCallValues w) = .ok (3, some (3, fsFile, 0), ret, offset))
    (hcond : ∀ node : FsNode, node.inode = 3 → node.offset = 0 → cond w node c) :
    ∃ fdt, OffsetRun cond 3 fdt (c.next (iSize (w.fs.storedInode 3)) 0 ret) ∧ (sysFtell w fdt 3).ret = offset := by
  obtain ⟨x, hx, hvalues⟩ := map_eq_ok h
  simp only [openCallValues, Prod.mk.injEq, Option.map_eq_some_iff] at hvalues
  obtain ⟨hfd, ⟨node, hnode, hino, hflags, hzero⟩, hret, hoffset⟩ := hvalues
  obtain ⟨opened, hopen, hx⟩ := bind_eq_ok.mp hx
  obtain ⟨result, hcall, hx⟩ := bind_eq_ok.mp hx
  cases hx
  have hstart : OffsetRun cond 3 opened.fdt 0 := .opened (by decide) hopen hfd (by decide) hnode (by rw [hflags]; decide)
  have hrun := hstart.call hnode (hcond node hino hzero) hcall
  rw [hino, hret] at hrun
  exact ⟨result.fdt, hrun, hoffset⟩

/-- A write of one byte to the file of four bytes. -/
theorem offsetRun_follows_write : ∃ fdt, OffsetRun OffsetCall.Follows 3 fdt 1 ∧ ∀ w, (sysFtell w fdt 3).ret = 1 := by
  have heval : (openCall smallWorld (.write (some fun _ => 0x78) 1)).map (openCallValues smallWorld) =
      .ok (3, some (3, fsFile, 0), 1, 1) := by decide
  have hread : smallFs.readInode 3 = some (smallFs.storedInode 3) := (smallFs_working.opened (by decide)).readInode rfl
  have hblock : smallFs.endBlock 0 1 < smallFs.sector2Block (iSectors (smallFs.storedInode 3)) := by decide
  have hfollows : ∀ node : FsNode, node.inode = 3 → node.offset = 0 → WriteFollows smallFs node 1 := by
    intro node hino hzero
    have hzero32 : node.offset32 = 0 := by
      rw [FsNode.offset32, hzero]
      rfl
    refine ⟨smallFs.storedInode 3, by rwa [hino], fun _ _ => ⟨⟨by omega, by omega, by omega⟩, fun _ => rfl, ?_⟩⟩
    rw [hzero32]
    exact Or.inl hblock
  obtain ⟨fdt, hrun, -⟩ := openCall_run OffsetCall.Follows heval fun node hino hzero _ _ => hfollows node hino hzero
  exact ⟨fdt, hrun, (offsetRun_follows hrun).1⟩

/-- The drive no longer reads the block of the file. -/
def brokenWorld : FileWorld := { smallWorld with fs := { smallFs with readable := fun q => q != 7 } }

/-- The file has four bytes: `SEEK_END` with 5 is meant to give 9, and gives 4. A write that fails for the drive is meant to leave the
offset, and leaves it at -5. -/
theorem offset_lost : (∃ fdt, OffsetRun (fun _ _ _ => True) 3 fdt 9 ∧ (sysFtell smallWorld fdt 3).ret = 4) ∧
      ∃ fdt, OffsetRun (fun _ _ _ => True) 3 fdt 0 ∧ (sysFtell brokenWorld fdt 3).ret = -5 := by
  have hseek : (openCall smallWorld (.lseek 5 2)).map (openCallValues smallWorld) = .ok (3, some (3, fsFile, 0), 0, 4) := by decide
  have hwrite : (openCall brokenWorld (.write (some fun _ => 0x78) 1)).map (openCallValues brokenWorld) =
      .ok (3, some (3, fsFile, 0), -5, -5) := by decide
  exact ⟨openCall_run _ hseek fun _ _ _ => trivial, openCall_run _ hwrite fun _ _ _ => trivial⟩

end OmegaOS
