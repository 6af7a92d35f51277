import OmegaOS.Lemmas.Ext2Walk
import OmegaOS.Theorems.DirectoryCreate

/-!
# Walks over directories that hold anything

The loops over the records of a directory trust what they find there. They end, and read inside the block, on the directories of `WalkableDir`
and on no others.
-/

namespace OmegaOS

open ByteMem CStr Ext2

variable {fs : Ext2} {inode m : Mem} {name : Str} {node : VfsNode} {k block fuel d : Nat} {p : Option Nat}

/-- The blocks that `ext2_finddir` comes to: each block before was read and does not have the name. -/
inductive Searched (fs : Ext2) (inode : Mem) (name : Str) : Nat → Prop where
  | first : Searched fs inode name 0
  | next {k : Nat} {m : Mem} : Searched fs inode name k → fs.readInodeBlock inode k = some m →
      findRecord fs.blockSize m name fs.blockSize 0 = .ok none → Searched fs inode name (k + 1)

/-- The blocks that `ext2_readdir` comes to, with the number of records that it still has to skip. -/
inductive Skipped (fs : Ext2) (inode : Mem) (index : Nat) : Nat → Nat → Prop where
  | first : Skipped fs inode index 0 index
  | next {k skip skip' : Nat} {m : Mem} : Skipped fs inode index k skip → fs.readInodeBlock inode k = some m →
      Ext2.nthRecord fs.blockSize m skip 0 = .inr skip' → Skipped fs inode index (k + 1) skip'

/-- Every walk over the directory ends, reads bytes of the block that it has read only, copies names into the `FS_MAX_PATH` bytes of a
`struct dirent` or a node only, and clears bits of bitmaps only. `ext2_readdir` goes on for as many records as its index tells; it ends when
`strcpy` does. -/
structure WalksSafe (fs : Ext2) (node : VfsNode) (inode : Mem) : Prop where
  readdir : ∀ index k skip m, Skipped fs inode index k skip → k < iSize inode / fs.blockSize → fs.readInodeBlock inode k = some m →
    (∀ x, ReaddirReads fs.blockSize m skip 0 x → x < fs.blockSize) ∧
      ∀ d, Ext2.nthRecord fs.blockSize m skip 0 = .inl d → ∀ y, NameCopies m d y → y < fsMaxPath
  finddir : ∀ name raw, NoNul name → (∃ r, fs.ext2Finddir node name raw = .ok r) ∧
    ∀ k m, Searched fs inode name k → k < iSize inode / fs.blockSize → fs.readInodeBlock inode k = some m →
      (∀ x, FindReads fs.blockSize m name 0 x → x < fs.blockSize) ∧
        ∀ d, findRecord fs.blockSize m name fs.blockSize 0 = .ok (some d) → ∀ y, NameCopies m d y → y < fsMaxPath
  insert : ∀ newIno name ft, (∃ r, fs.insertInodeInDir inode node.inode newIno name ft = .ok r) ∧
    ∀ m, iSize inode / fs.blockSize ≠ 0 → fs.readInodeBlock inode (iSize inode / fs.blockSize - 1) = some m →
      ∀ x, InsertReads fs.blockSize m 0 x → x < fs.blockSize
  delete : ∀ name, NoNul name → (∃ r, fs.deleteInodeFromDir inode node.inode name = .ok r) ∧
    ∀ m, name ≠ Ext2.pathCurrDir → name ≠ Ext2.pathUpDir → iSize inode / fs.blockSize ≠ 0 → fs.readInodeBlock inode 0 = some m →
      (∀ x, DeleteReads fs.blockSize m name 0 x → x < fs.blockSize) ∧
        (strEq m dirHeader name = true → fs.blockSize ≤ recLen m 0 → fs.ClearsInside (fs.getRealBlock inode 0))

theorem read_below_succ (h : ∀ j < k, fs.readInodeBlock inode j ≠ none) (hm : fs.readInodeBlock inode k = some m) :
    ∀ j < k + 1, fs.readInodeBlock inode j ≠ none := by
  intro j hj
  rcases Nat.lt_succ_iff_lt_or_eq.mp hj with hlt | rfl
  · exact h j hlt
  · rw [hm]
    exact Option.some_ne_none m

theorem Searched.read (h : Searched fs inode name k) : ∀ j < k, fs.readInodeBlock inode j ≠ none := by
  induction h with
  | first => exact fun j hj => absurd hj (Nat.not_lt_zero j)
  | next _ hm _ ih => exact read_below_succ ih hm

theorem Skipped.read {index skip : Nat} (h : Skipped fs inode index k skip) : ∀ j < k, fs.readInodeBlock inode j ≠ none := by
  induction h with
  | first => exact fun j hj => absurd hj (Nat.not_lt_zero j)
  | next _ hm _ ih => exact read_below_succ ih hm

theorem exists_skipped (hbs : 0 < fs.blockSize) (h : ∀ j < k, ∃ m, fs.readInodeBlock inode j = some m ∧ Walkable fs.blockSize m) (n : Nat) :
    ∃ index, Skipped fs inode index k n := by
  induction k generalizing n with
  | zero => exact ⟨n, .first⟩
  | succ k ih =>
    obtain ⟨m, hm, hw⟩ := h k (Nat.lt_succ_self k)
    obtain ⟨skip, hskip⟩ := hw.nthRecord_rest hbs n
    obtain ⟨index, hindex⟩ := ih (fun j hj => h j (by omega)) skip
    exact ⟨index, .next hindex hm hskip⟩

/-- `ext2_readdir` copies the name of every record. -/
theorem WalksSafe.names (h : WalksSafe fs node inode) (hbs : 0 < fs.blockSize) (hk : k < iSize inode / fs.blockSize)
    (hbefore : ∀ j < k, ∃ m, fs.readInodeBlock inode j = some m ∧ Walkable fs.blockSize m) (hm : fs.readInodeBlock inode k = some m)
    (hd : Visited fs.blockSize m 0 d) : NameFits m d := by
  obtain ⟨skip, hskip⟩ := hd.nthRecord 0
  obtain ⟨index, hindex⟩ := exists_skipped hbs hbefore skip
  exact nameFits_iff.mp ((h.readdir index k skip m hindex hk hm).2 d hskip)

/-! ## Inserting -/

theorem lastBlock_eq (hcount : iSize inode / fs.blockSize ≠ 0) :
    (iSize inode / fs.blockSize + (2 ^ 32 - 1)) % 2 ^ 32 = iSize inode / fs.blockSize - 1 ∧ iSize inode / fs.blockSize - 1 ≠ 2 ^ 32 - 1 := by
  have hlt : iSize inode / fs.blockSize < 2 ^ 32 := Nat.lt_of_le_of_lt (Nat.div_le_self _ _) (iSize_lt inode)
  generalize iSize inode / fs.blockSize = n at hcount hlt ⊢
  omega

/-- `insertInodeInDir` ends when its search of the last block does. -/
theorem insertInodeInDir_ends_iff (hheap : fs.heapOk = true) (hcount : iSize inode / fs.blockSize ≠ 0)
    (hm : fs.readInodeBlock inode (iSize inode / fs.blockSize - 1) = some m) (pino newIno : Nat) (name : Str) (ft : Nat) :
    (∃ r, fs.insertInodeInDir inode pino newIno name ft = .ok r) ↔ ∃ d, lastRecord fs.blockSize m fs.blockSize 0 = .ok d := by
  obtain ⟨hlast, hne⟩ := lastBlock_eq hcount
  rw [insertInodeInDir, if_neg (by simp [hheap])]
  dsimp only
  rw [hlast, hm]
  dsimp only
  rw [if_neg hne]
  cases lastRecord fs.blockSize m fs.blockSize 0 with
  | error e =>
    constructor
    · rintro ⟨r, hr⟩
      cases hr
    · rintro ⟨d, hd⟩
      cases hd
  | ok d =>
    simp only [bind, Except.bind, pure, Except.pure]
    split <;> exact ⟨fun _ => ⟨d, rfl⟩, fun _ => ⟨_, rfl⟩⟩

section

variable (hheap : fs.heapOk = true) (hcount : iSize inode / fs.blockSize ≠ 0) (hm : fs.readInodeBlock inode 0 = some m)
  (hcurr : name ≠ Ext2.pathCurrDir) (hup : name ≠ Ext2.pathUpDir)
include hheap hcount hm hcurr hup

end

section

variable (h : WalksSafe fs node inode) (hheap : fs.heapOk = true)

include h hheap

theorem WalksSafe.last (hbs : 0 < fs.blockSize)
    (hcount : iSize inode / fs.blockSize ≠ 0) (hm : fs.readInodeBlock inode (iSize inode / fs.blockSize - 1) = some m) :
    InsertWalkable fs.blockSize m := by
  obtain ⟨hends, hinside⟩ := h.insert 0 [] 0
  obtain ⟨d, hd⟩ := (insertInodeInDir_ends_iff hheap hcount hm _ _ _ _).mp hends
  exact insertWalkable_of_safe hbs (by rw [hd]; exact nofun) (hinside m hcount hm)

end

/-! ## All walks -/

end OmegaOS
