import OmegaOS.Theorems.DirectoryCreate

/-!
# The entries of a directory

An insertion puts its record behind all others, and the two ways to read a directory, by number and by name, see the same list, but for
entries whose inode the filesystem does not have.
-/

namespace OmegaOS

open ByteMem CStr

variable {fs : Ext2} {ino newIno ft : Nat} {name : Str} {node : VfsNode}

/-! ## Insertion -/

/-- `insertInodeInDir` ends, and when it says that it succeeded the directory is well formed and its records are the old ones and the new
one behind them: in the last block or in a new one, and also when the directory had no block. Only the block of the directory's inode has
to be readable. -/
theorem insertInodeInDir_appends (hc : Consistent fs) (h : WellFormedDir fs ino) (hread : fs.readable (fs.inodeBlock ino) = true)
    (hn : fs.dirCount ino < ndirBlocks) (he : EntryOk fs name newIno) (hft : ft < 256) :
    (∃ r, fs.insertInodeInDir (fs.storedInode ino) ino newIno name ft = .ok r) ∧
      ∀ inode' fs', fs.insertInodeInDir (fs.storedInode ino) ino newIno name ft = .ok (true, inode', fs') →
        inode' = fs'.storedInode ino ∧ WellFormedDir fs' ino ∧
          fs'.dirRecords inode' = fs.dirRecords (fs.storedInode ino) ++ [(name, newIno, ft)] := by
  refine ⟨h.insertInodeInDir_ends hc.geometry newIno name ft, fun inode' fs' hr => ?_⟩
  obtain ⟨hinode, hadded, hrecords⟩ := h.insertInodeInDir hc.geometry hread hc.freeBlocks (Or.inr hn) he hr
  rw [Nat.mod_eq_of_lt hft] at hrecords
  exact ⟨hinode, hadded.dir, by rwa [hinode]⟩

theorem insertInodeInDir_appends_small :
    ∃ inode' fs', smallFs.insertInodeInDir (smallFs.storedInode 2) 2 4 [0x63] 1 = .ok (true, inode', fs') ∧
      inode' = fs'.storedInode 2 ∧ WellFormedDir fs' 2 ∧
      fs'.dirRecords inode' = [([0x62], 0, 1), ([0x61], 3, 1), ([0x63], 4, 1)] := by
  obtain ⟨⟨⟨done, inode', fs'⟩, hr⟩, happends⟩ := @insertInodeInDir_appends smallFs 2 4 1 [0x63] smallFs_consistent smallFs_root rfl
    (by decide) ⟨by decide, by decide, by decide, by decide⟩ (by decide)
  have hdone : (smallFs.insertInodeInDir (smallFs.storedInode 2) 2 4 [0x63] 1).map (·.1) = .ok true := by decide
  have hrecords : smallFs.dirRecords (smallFs.storedInode 2) = [([0x62], 0, 1), ([0x61], 3, 1)] := by decide
  rw [hr] at hdone
  obtain rfl : done = true := Except.ok.inj hdone
  obtain ⟨hinode, hdir, happended⟩ := happends inode' fs' hr
  rw [hrecords] at happended
  exact ⟨inode', fs', hr, hinode, hdir, happended⟩

/-! ## Listing and lookup -/

/-- The two ways to read a directory agree: `ext2_readdir` returns the entries by their number and nothing behind the last one, and
`ext2_finddir` returns a node for the first of them that has the name, and nothing if none has it. -/
def ListingAgrees (fs : Ext2) (node : VfsNode) : Prop :=
  (∀ index, (fs.ext2Readdir node index).map Ext2.Dirent.entry = (fs.dirEntries (fs.storedInode node.inode))[index]?) ∧
    ∀ name, NoNul name → ∀ raw, ∃ found, fs.ext2Finddir node name raw = .ok found ∧
      found.map (·.inode) = lookup (fs.dirEntries (fs.storedInode node.inode)) name

theorem dirEntries_noNul {inode : Mem} (he : e ∈ fs.dirEntries inode) : NoNul e.1 := by
  simp only [Ext2.dirEntries, blockEntries, List.mem_flatMap, List.mem_map] at he
  obtain ⟨k, -, d, -, rfl⟩ := he
  exact strAt_noNul _ _ _

/-- The listing and the lookup agree for those directories whose names all stand for inodes that exist. -/
theorem listing_agrees_iff (hw : Working fs) (hino : fs.InodeExists node.inode) (hdir : inodeDir (fs.storedInode node.inode) = true)
    (htiled : TiledDir fs (fs.storedInode node.inode)) : ListingAgrees fs node ↔
      ∀ name n, lookup (fs.dirEntries (fs.storedInode node.inode)) name = some n → fs.InodeExists n := by
  constructor
  · rintro ⟨-, hfind⟩ name n hlookup
    have hname := dirEntries_noNul (lookup_mem hlookup)
    obtain ⟨found, hfound, hinode⟩ := hfind name hname emptyNode
    rw [hw.ext2Finddir hino hdir htiled hname, hlookup] at hfound
    cases hfound
    rw [hlookup, Option.bind_some, nodeOf_inode] at hinode
    by_contra hnot
    rw [if_neg hnot] at hinode
    cases hinode
  · intro hexist
    refine ⟨hw.ext2Readdir hino hdir htiled, fun name hname raw => ⟨_, hw.ext2Finddir hino hdir htiled hname raw, ?_⟩⟩
    cases hlookup : lookup (fs.dirEntries (fs.storedInode node.inode)) name with
    | none => rfl
    | some n => rw [Option.bind_some, nodeOf_inode, if_pos (hexist name n hlookup)]

/-- The filesystem whose root directory has the entry `a` only. -/
def listedFs : Ext2 := smallFs.writeBlock 6 (writeRecord (fun _ => 0) 0 3 [0x61] 1024 1)

theorem listing_agrees_listed :
    listedFs.dirEntries (listedFs.storedInode smallNode.inode) = [([0x61], 3)] ∧ ListingAgrees listedFs smallNode := by
  have hentries : listedFs.dirEntries (listedFs.storedInode smallNode.inode) = [([0x61], 3)] := by decide
  have hw : Working listedFs := smallFs_working.congr (SameShape.writeBlock ..)
  have hcount : iSize (listedFs.storedInode smallNode.inode) / listedFs.blockSize = 1 := by decide
  refine ⟨hentries, (listing_agrees_iff hw (by decide) (by decide) fun k hk => ?_).mpr fun name n hlookup => ?_⟩
  · obtain rfl : k = 0 := by omega
    decide
  · rw [hentries] at hlookup
    have hn := lookup_mem hlookup
    simp only [List.mem_singleton, Prod.mk.injEq] at hn
    rw [hn.2]
    decide

/-- The record of a deleted file is listed, with the inode number 0, and is not found by its name. -/
theorem unused_record_listed : Working smallFs ∧ WellFormedDir smallFs smallNode.inode ∧
      (smallFs.ext2Readdir smallNode 0).map Ext2.Dirent.entry = some ([0x62], 0) ∧
      smallFs.ext2Finddir smallNode [0x62] emptyNode = .ok none ∧ ¬ ListingAgrees smallFs smallNode := by
  have hlist : (smallFs.ext2Readdir smallNode 0).map Ext2.Dirent.entry = some ([0x62], 0) := by decide
  have hfind : smallFs.ext2Finddir smallNode [0x62] emptyNode = .ok none := by decide
  refine ⟨smallFs_working, smallFs_root, hlist, hfind, fun hagrees => ?_⟩
  obtain ⟨found, hfound, hinode⟩ := hagrees.2 [0x62] (by decide) emptyNode
  rw [hfind] at hfound
  cases hfound
  exact absurd hinode (by decide)

end OmegaOS
