import OmegaOS.Theorems.BitRelease
import OmegaOS.Theorems.DirectoryMake

/-!
# Creations that fail

`ext2_create` and `ext2_mkdir` take inodes and blocks before they know that there are enough of them, and give nothing back.
-/

namespace OmegaOS

open ByteMem CStr Function

variable {fs fs' : Ext2} {node : VfsNode} {name : Str} {ino : Nat} {run : Except Halt (Int × Ext2)}

/-- The call returns, and when it fails the bitmaps, the counters and the entries of the directory are as before. -/
def FailsClean (fs : Ext2) (ino : Nat) (run : Except Halt (Int × Ext2)) : Prop :=
  ∃ ret fs', run = .ok (ret, fs') ∧
    (ret ≠ enoer → SameAccounts fs fs' ∧ fs'.dirEntries (fs'.storedInode ino) = fs.dirEntries (fs.storedInode ino))

theorem failsClean_unchanged (ret : Int) (h : run = .ok (ret, fs)) : FailsClean fs ino run :=
  ⟨ret, fs, h, fun _ => ⟨⟨fun _ _ _ _ _ => rfl, fun _ _ => rfl⟩, rfl⟩⟩

theorem failsClean_success (h : run = .ok (enoer, fs')) : FailsClean fs ino run :=
  ⟨enoer, fs', h, fun hne => absurd rfl hne⟩

theorem Ledger.not_failsClean {ts : List (Pool × Nat × Nat)} (hl : Ledger fs (t :: ts) fs') {ret : Int}
    (h : run = .ok (ret, fs')) (hret : ret ≠ enoer) : ¬ FailsClean fs ino run := by
  rintro ⟨ret', fs'', h', hclean⟩
  rw [h] at h'
  cases h'
  obtain ⟨hi, hb, hclear⟩ := hl.fresh t List.mem_cons_self
  have hset : fs'.bit t.1 t.2.1 t.2.2 = true := (hl.bits hi hb).mpr (.inr List.mem_cons_self)
  simp [(hclean hret).1.bits t.1 t.2.1 t.2.2 hi hb, hclear] at hset

/-- `ext2_create` fails with an inode taken when the directory needs a block and there is none. -/
theorem Consistent.create_clean_iff (hc : Consistent fs) (hw : Working fs) (hcount : FreeCounted fs) (h : WellFormedDir fs node.inode)
    (hno : NoNul name) (attr : Nat) (raw : FsNode) : FailsClean fs node.inode (fs.ext2Create node name attr raw) ↔
      fs.Found node.inode name ∨ ¬ fs.Ready .inodes 1 ∨ fs.LastRoom (fs.storedInode node.inode) name ∨ fs.Ready .blocks 1 := by
  have hgroups : 0 < fs.groupCount := Nat.zero_lt_of_lt h.dirShape.exists_
  rw [← hcount.firstReady_iff hgroups, ← hcount.firstReady_iff hgroups]
  rcases h.ext2Finddir_cases hw hno raw with ⟨hfound, file, hfind⟩ | ⟨hfound, hfind⟩
  · refine iff_of_true (failsClean_unchanged eexist ?_) (.inl hfound)
    rw [Ext2.ext2Create, hfind]
    rfl
  · have hread := (hw.opened h.dirShape.exists_).readInode hw.heapOk
    have hdir := h.dirShape.isDir
    rcases hc.creation hw hcount h name (attr &&& Ext2.without iDir ||| iFile) with
      ⟨hready, hrun⟩ | ⟨hready, newIno, fs2, htaken, done, parent, fs', -, hdone, hfail, hrun⟩
    · refine iff_of_true (failsClean_unchanged eperm ?_) (.inr (.inl hready))
      simp [Ext2.ext2Create, hfind, hread, hdir, hrun, bind, Except.bind, pure, Except.pure]
    · cases done with
      | true =>
        have hcreate : fs.ext2Create node name attr raw = .ok (enoer, fs') := by
          simp [Ext2.ext2Create, hfind, hread, hdir, hrun, bind, Except.bind, pure, Except.pure]
        exact iff_of_true (failsClean_success hcreate) (.inr (.inr (hdone.mp rfl)))
      | false =>
        obtain ⟨b, hledger⟩ := htaken.ledger hc
        have hcreate : fs.ext2Create node name attr raw = .ok (eperm, fs2) := by
          rw [hfail rfl] at hrun
          simp [Ext2.ext2Create, hfind, hread, hdir, hrun, bind, Except.bind, pure, Except.pure]
        refine iff_of_false (hledger.not_failsClean hcreate (by decide)) ?_
        rintro (hin | hnot | hroom)
        · exact hfound hin
        · exact hnot hready
        · cases hdone.mpr hroom

/-- `ext2_mkdir` fails with bits taken when it gets an inode and not all that the three creations need. -/
theorem Healthy.mkdir_clean_iff (hh : Healthy fs) (h : Insertable fs node.inode name) (attr : Nat) (raw : FsNode) :
    FailsClean fs node.inode (fs.ext2Mkdir node name attr raw) ↔
      fs.Found node.inode name ∨ ¬ fs.Ready .inodes 1 ∨ fs.MkdirRoom node.inode name := by
  rcases hh.ext2Mkdir h attr raw with
    ⟨hfound, hrun⟩ | ⟨hfound, ⟨hready, hrun⟩ | ⟨hready, hroom, b, ts, fs', hledger, hrun⟩ | ⟨hroom, _, _, _, fs', -, hrun⟩⟩
  · exact iff_of_true (failsClean_unchanged _ hrun) (.inl hfound)
  · exact iff_of_true (failsClean_unchanged _ hrun) (.inr (.inl hready))
  · refine iff_of_false (hledger.not_failsClean hrun (by decide)) ?_
    rintro (hin | hnot | hall)
    · exact hfound hin
    · exact hnot hready
    · exact hroom hall
  · exact iff_of_true (failsClean_success hrun) (.inr (.inr hroom))

/-- When a creation that fails leaves everything as it was. -/
theorem failed_creation_clean_iff (hc : Consistent fs) (hw : Working fs) (hcount : FreeCounted fs) (h : WellFormedDir fs node.inode)
    (hno : NoNul name) (attr : Nat) (raw : FsNode) : (FailsClean fs node.inode (fs.ext2Create node name attr raw) ↔
      fs.Found node.inode name ∨ ¬ fs.Ready .inodes 1 ∨ fs.LastRoom (fs.storedInode node.inode) name ∨ fs.Ready .blocks 1) ∧
    (fs.blockSize < 2 ^ 16 → name.length ≤ 255 → fs.LastRoom (fs.storedInode node.inode) name ∨ fs.dirCount node.inode < ndirBlocks →
      (FailsClean fs node.inode (fs.ext2Mkdir node name attr raw) ↔
        fs.Found node.inode name ∨ ¬ fs.Ready .inodes 1 ∨ fs.MkdirRoom node.inode name)) :=
  ⟨hc.create_clean_iff hw hcount h hno attr raw, fun hbs hlen hspace =>
    Healthy.mkdir_clean_iff ⟨hc, hw, hcount, hbs⟩ ⟨h, hspace, hno, hlen⟩ attr raw⟩

/-- A file or a directory with the name of an entry of the root directory: both calls fail. -/
theorem failed_creation_clean_small : (smallFs.ext2Create smallNode [0x61] 0 emptyNode).map Prod.fst = .ok eexist ∧
      FailsClean smallFs smallNode.inode (smallFs.ext2Create smallNode [0x61] 0 emptyNode) ∧
      (smallFs.ext2Mkdir smallNode [0x61] 0 emptyNode).map Prod.fst = .ok eexist ∧
      FailsClean smallFs smallNode.inode (smallFs.ext2Mkdir smallNode [0x61] 0 emptyNode) := by
  have hiff := failed_creation_clean_iff smallFs_consistent smallFs_working smallFs_counted smallFs_root (show NoNul [0x61] by decide) 0 emptyNode
  have hfound : smallFs.Found smallNode.inode [0x61] := ⟨3, by decide, by decide⟩
  exact ⟨by decide, hiff.1.mpr (.inl hfound), by decide, (hiff.2 (by decide) (by decide) (.inr (by decide))).mpr (.inl hfound)⟩

/-! ## Two inodes for three creations -/

/-- The small filesystem with two free inodes. -/
def fewFs : Ext2 :=
  { smallFs.setFreeCount .inodes 0 2 with disk := update smallFs.disk 4 fun x => if x = 0 then 0x3F else 0xFF }

theorem fewFs_shape : SameShape smallFs fewFs :=
  have hs := SameShape.setFreeCount smallFs .inodes 0 2
  ⟨rfl, rfl, rfl, rfl, rfl, rfl, rfl, hs.bitmapBlock, hs.inodeTable⟩

theorem fewFs_disk (hq : q ≠ 4) : fewFs.disk q = smallFs.disk q := update_of_ne hq _ _

theorem fewFs_kept : Kept smallFs fewFs := by
  refine ⟨fewFs_shape, fun i b hi _ hclear => ?_⟩
  obtain rfl : i = 0 := Nat.lt_one_iff.mp hi
  have hblock : smallFs.bitmapBlock .blocks 0 ≠ 4 := by decide
  rwa [Ext2.bit, fewFs_shape.bitmapBlock, fewFs_disk hblock] at hclear

theorem fewFs_consistent : Consistent fewFs := by
  refine ⟨smallFs_geometry.congr fewFs_shape, fewFs_kept.freeOk smallFs_consistent.freeBlocks, fun i b hi _ hclear => ?_⟩
  obtain rfl : i = 0 := Nat.lt_one_iff.mp hi
  refine not_le.mp fun hle => ?_
  replace hle : 8 ≤ b := hle
  have hblock : fewFs.bitmapBlock .inodes 0 = 4 := by decide
  have hones : fewFs.disk 4 (b / 8) = 0xFF := by
    show (if b / 8 = 0 then 0x3F else 0xFF : BitVec 8) = 0xFF
    rw [if_neg (by omega)]
  simp [Ext2.bit, hblock, bitOf_ones hones] at hclear

theorem fewFs_healthy : Healthy fewFs := by
  refine ⟨fewFs_consistent, smallFs_working.congr fewFs_shape, fewFs_consistent.freeCounted fun pool i hi => ?_, by decide⟩
  obtain rfl : i = 0 := Nat.lt_one_iff.mp hi
  cases pool <;> decide

theorem fewFs_root : WellFormedDir fewFs smallNode.inode := by
  have hcount : smallFs.dirCount smallNode.inode = 1 := by decide
  have hinode : smallFs.inodeBlock smallNode.inode ≠ 4 := by decide
  have hblock : iBlock (smallFs.storedInode smallNode.inode) 0 ≠ 4 := by decide
  refine (smallFs_root.kept smallFs_geometry ⟨fewFs_kept, by decide, storedInode_congr fewFs_shape (fewFs_disk hinode), fun j hj => ?_⟩).1
  rw [hcount] at hj
  obtain rfl : j = 0 := Nat.lt_one_iff.mp hj
  exact fewFs_disk hblock

/-- The directory `d` takes both inodes, one for itself and one for `.`, and then fails. Its entry stays, and the inodes are gone. -/
theorem failed_mkdir_leaves_entry :
    Healthy fewFs ∧ WellFormedDir fewFs smallNode.inode ∧ fewFs.dirCount smallNode.inode = 1 ∧ fewFs.freeCount .inodes 0 = 2 ∧
      fewFs.dirEntries (fewFs.storedInode smallNode.inode) = [([0x62], 0), ([0x61], 3)] ∧
      (∃ fs', fewFs.ext2Mkdir smallNode [0x64] 0 emptyNode = .ok (eperm, fs') ∧ fs'.freeCount .inodes 0 = 0 ∧
        fs'.dirEntries (fs'.storedInode smallNode.inode) = [([0x62], 0), ([0x61], 3), ([0x64], 7)]) ∧
      ¬ FailsClean fewFs smallNode.inode (fewFs.ext2Mkdir smallNode [0x64] 0 emptyNode) := by
  have heval : (fewFs.ext2Mkdir smallNode [0x64] 0 emptyNode).map (fun r => (r.1, r.2.freeCount .inodes 0,
      r.2.dirEntries (r.2.storedInode smallNode.inode))) = .ok (eperm, 0, [([0x62], 0), ([0x61], 3), ([0x64], 7)]) := by decide +kernel
  have hbefore : fewFs.freeCount .inodes 0 = 2 := by decide
  obtain ⟨⟨ret, fs'⟩, hr, hvalues⟩ := map_eq_ok heval
  simp only [Prod.mk.injEq] at hvalues
  obtain ⟨rfl, hafter, hentries⟩ := hvalues
  refine ⟨fewFs_healthy, fewFs_root, by decide, hbefore, by decide, ⟨fs', hr, hafter, hentries⟩, ?_⟩
  rintro ⟨ret, fs'', hr', hclean⟩
  rw [hr] at hr'
  cases hr'
  have hsame := (hclean (by decide)).1.counts .inodes 0
  omega

end OmegaOS
