import OmegaOS.Theorems.DirectoryCreate

/-!
# The block map of an inode

`getRealBlock` against the layout of ext2: behind the direct blocks a table of block numbers, then tables of tables, then tables of those.
The digits that the driver takes of a block number are the layout's for the direct blocks, the first table and two blocks more. What
`setRealBlock` changes behind the direct blocks does not get to the disk.
-/

namespace OmegaOS

open ByteMem List Ext2 Function

variable {fs : Ext2} {inode : Mem} {n first bs r : Nat} {path other : List Nat}

/-! ## The layout -/

namespace Ext2

/-- An entry of the table that a block holds. -/
def tableEntry (fs : Ext2) (table k : Nat) : Nat := load (fs.disk (fs.physical table)) (4 * k) 4

/-- The block that ext2 keeps for a logical block: by the pointer of the inode, or by the entries of one, two or three tables, which the
digits of the number select. -/
def layoutBlock (fs : Ext2) (inode : Mem) (n : Nat) : Nat :=
  let ptr := fs.ptrBlocksPerBlock
  if n < ndirBlocks then iBlock inode n
  else if n < ndirBlocks + ptr then fs.tableEntry (iBlock inode ndirBlocks) (n - ndirBlocks)
  else if n < ndirBlocks + ptr + ptr ^ 2 then
    let m := n - ndirBlocks - ptr
    fs.tableEntry (fs.tableEntry (iBlock inode dindBlock) (m / ptr)) (m % ptr)
  else
    let m := n - ndirBlocks - ptr - ptr ^ 2
    fs.tableEntry (fs.tableEntry (fs.tableEntry (iBlock inode tindBlock) (m / ptr ^ 2)) (m / ptr % ptr)) (m % ptr)

/-- The block at the end of a path of entries. -/
def walkTables (fs : Ext2) (table : Nat) (path : List Nat) : Nat := path.foldl (fun t k => fs.entry (fs.disk (fs.physical t)) k) table

end Ext2

/-- On a drive that reads every block a path ends at the block its entries lead to. -/
theorem followPath_eq_walk (hread : ∀ q, fs.readable q = true) (table : Nat) (path : List Nat) :
    fs.followPath table path = some (fs.walkTables table path) := by
  induction path generalizing table with
  | nil => rfl
  | cons k path ih =>
    rw [followPath, follow, readBlock, if_pos (hread _)]
    exact ih _

theorem entry_eq_tableEntry (table : Nat) (hk : k < fs.ptrBlocksPerBlock) :
    fs.entry (fs.disk (fs.physical table)) k = fs.tableEntry table k := by
  rw [entry, if_pos hk]
  rfl

/-! ## The digits -/

section

variable {P m : Nat}

/-- The digits of the double indirect range are the layout's for its first two blocks only. -/
theorem double_digits (hP : 2 ≤ P) (hm : 2 ≤ m) : [(m + P - 1) / P / P, (m + P - 1) / P - (m + P - 1) / P / P * P] ≠ [m / P, m % P] := by
  intro he
  obtain ⟨hhigh, hlow⟩ := cons.inj he
  have hlow := (cons.inj hlow).1
  have hb : (m + P - 1) / P = m := by
    have hcode := Nat.div_add_mod' ((m + P - 1) / P) P
    have hlayout := Nat.div_add_mod' m P
    rw [hhigh] at hcode hlow
    omega
  -- `m` rounded up to a multiple of `P` is less than `m` of them
  have hle : m * P ≤ m + P - 1 := (Nat.le_div_iff_mul_le (by omega)).mp (Nat.le_of_eq hb.symm)
  obtain ⟨k, rfl⟩ := Nat.exists_eq_add_of_le hm
  obtain ⟨q, rfl⟩ := Nat.exists_eq_add_of_le hP
  have hmul : (2 + k) * (2 + q) = 4 + 2 * k + 2 * q + k * q := by
    rw [Nat.add_mul, Nat.mul_add, Nat.mul_add]
    omega
  omega

/-- Three digits make up the number that they are taken of. -/
theorem three_digits (c : Nat) : c / P ^ 2 * P ^ 2 + (c / P % P * P + c % P) = c := by
  have hsquare : c / P ^ 2 = c / P / P := by rw [Nat.pow_two, Nat.div_div_eq_div_mul]
  have hhigh := Nat.div_add_mod' (c / P) P
  have hlow := Nat.div_add_mod' c P
  have hmul : c / P / P * (P * P) + c / P % P * P = c / P * P := by
    rw [← mul_assoc, ← Nat.add_mul, hhigh]
  rw [hsquare, Nat.pow_two]
  omega

end

/-- The digits of the triple indirect range are those of a number that is 2 less, on 32 bits. -/
theorem triplePath_ne (hP : 2 ≤ fs.ptrBlocksPerBlock) (hn : n < 2 ^ 32)
    (hm : n = ndirBlocks + fs.ptrBlocksPerBlock + fs.ptrBlocksPerBlock ^ 2 + m) :
    fs.triplePath n ≠ (m / fs.ptrBlocksPerBlock ^ 2, m / fs.ptrBlocksPerBlock % fs.ptrBlocksPerBlock, m % fs.ptrBlocksPerBlock) := by
  intro he
  have hsquare := Nat.mul_le_mul hP hP
  have hdigits := three_digits (P := fs.ptrBlocksPerBlock) m
  unfold triplePath at he
  rw [Nat.pow_two] at hm hdigits he
  dsimp only at he
  generalize fs.ptrBlocksPerBlock = P at *
  unfold ndirBlocks at hm
  unfold tindBlock at he
  rw [Nat.mod_eq_of_lt (show P * P < 2 ^ 32 by omega)] at he
  -- the number whose digits the driver takes
  generalize hc : (n - 14 - P + (2 ^ 32 - P * P)) % 2 ^ 32 = c at he
  obtain ⟨hd, he⟩ := Prod.mk.inj he
  obtain ⟨hf, hg⟩ := Prod.mk.inj he
  rw [mul_assoc] at hf hg
  have hcode : c / (P * P) * (P * P) ≤ c := Nat.div_mul_le_self _ _
  have hlow : (c - c / (P * P) * (P * P)) / P * P ≤ c - c / (P * P) * (P * P) := Nat.div_mul_le_self _ _
  rw [hf] at hlow hg
  rw [hd] at hcode hlow hg
  have hsame : c = m := by omega
  omega

/-! ## A disk with one path -/

/-- A disk whose blocks from `first` on are tables with one entry each, the next block, at the places of a path. -/
def pathDisk (first : Nat) : List Nat → Nat → Mem
  | [], _ => fun _ => 0
  | k :: path, q => if q = first then store (fun _ => 0) (4 * k) 4 (first + 1) else pathDisk (first + 1) path q

theorem load_zero (a k : Nat) : load (fun _ => 0) a k = 0 := by
  induction k generalizing a with
  | zero => rfl
  | succ k ih =>
    rw [load, ih]
    rfl

theorem pathDisk_below (path : List Nat) (h : q < first) : pathDisk first path q = fun _ => 0 := by
  induction path generalizing first with
  | nil => rfl
  | cons k path ih => rw [pathDisk, if_neg (by omega), ih (by omega)]

theorem load_single (j k : Nat) (hv : v < 2 ^ 32) : load (store (fun _ => 0) (4 * j) 4 v) (4 * k) 4 = if k = j then v else 0 := by
  split
  · rename_i he
    rw [he]
    exact load_store_same _ _ 4 hv
  · rw [load_store_disjoint _ _ (by omega)]
    exact load_zero _ _

section

variable (hstray : ∀ k, fs.stray k = 0) (hzero : fs.disk 0 = fun _ => 0)

include hstray hzero

theorem walkTables_boot (path : List Nat) : fs.walkTables 0 path = 0 := by
  induction path with
  | nil => rfl
  | cons k path ih =>
    have hentry : fs.entry (fs.disk (fs.physical 0)) k = 0 := by
      rw [show fs.physical 0 = 0 by simp [physical], hzero, entry]
      split
      · exact load_zero _ _
      · exact hstray k
    rw [walkTables, foldl_cons, hentry]
    exact ih

variable (hphysical : ∀ q ≤ 4, fs.physical q = q)

include hphysical

/-- On a disk with one path every other path ends at the boot block. -/
theorem walkTables_onePath (hdisk : ∀ q, first ≤ q → fs.disk q = pathDisk first path q) (hfirst : 0 < first)
    (hlast : first + path.length ≤ 4) (hin : ∀ k ∈ path, k < fs.ptrBlocksPerBlock) (hlength : other.length = path.length) :
    fs.walkTables first other = if other = path then first + path.length else 0 := by
  induction path generalizing first other with
  | nil =>
    rw [length_nil, length_eq_zero_iff] at hlength
    rw [hlength, if_pos rfl]
    rfl
  | cons k path ih =>
    obtain ⟨k', other, rfl⟩ := exists_cons_of_length_eq_add_one hlength
    rw [length_cons] at hlast hlength
    have hentry : fs.entry (fs.disk (fs.physical first)) k' = if k' = k then first + 1 else 0 := by
      rw [hphysical first (by omega), hdisk first .refl, pathDisk, if_pos rfl, entry]
      split
      · exact load_single k k' (by omega)
      · rename_i hout
        have hk := hin k mem_cons_self
        rw [hstray, if_neg (by omega)]
    rw [walkTables, foldl_cons, hentry]
    by_cases hk : k' = k
    · have hrest : ∀ q, first + 1 ≤ q → fs.disk q = pathDisk (first + 1) path q := by
        intro q hq
        rw [hdisk q (by omega), pathDisk, if_neg (by omega)]
      have hwalk := ih hrest (by omega) (by omega) (fun j hj => hin j (.tail k hj)) (Nat.succ.inj hlength)
      rw [if_pos hk, hk]
      simp only [cons.injEq, true_and]
      rw [← walkTables, hwalk, length_cons]
      congr 1
      omega
    · rw [if_neg hk, if_neg (by simp [hk])]
      exact walkTables_boot hstray hzero other

end

/-- A filesystem with one path, from block 1 on, and nothing behind the buffer. -/
def onePathFs (bs : Nat) (path : List Nat) : Ext2 where
  disk := pathDisk 1 path
  readable _ := true
  heapOk := true
  stray _ := 0
  superBlock := ⟨0, 0, 0, 0, 0, 0, 0⟩
  groups _ := 0
  blockSize := bs
  groupCount := 0
  inodesPerGroup := 0
  written := []

theorem walkTables_ne (hbs : 1024 ≤ bs) (hword : bs < 2 ^ 32) (hlast : path.length ≤ 3)
    (hin : ∀ k ∈ path, k < bs / 4) (hlength : other.length = path.length) (hne : other ≠ path) :
    (onePathFs bs path).walkTables 1 other ≠ (onePathFs bs path).walkTables 1 path := by
  have hphysical : ∀ q ≤ 4, (onePathFs bs path).physical q = q := by
    intro q hq
    have hsectors : (onePathFs bs path).sectorsPerBlock = bs / 512 := rfl
    have hmul : q * (bs / 512) ≤ 4 * (bs / 512) := Nat.mul_le_mul_right _ hq
    rw [physical, hsectors, Nat.mod_eq_of_lt (by omega), Nat.mod_eq_of_lt (by omega), Nat.mul_div_cancel _ (by omega)]
  have hwalk : ∀ other : List Nat, other.length = path.length →
      (onePathFs bs path).walkTables 1 other = if other = path then 1 + path.length else 0 := fun other hlength =>
    walkTables_onePath (fun _ => rfl) (pathDisk_below path (by omega)) hphysical (fun _ _ => rfl) (by omega) (by omega) hin hlength
  rw [hwalk other hlength, hwalk path rfl, if_neg hne, if_pos rfl]
  omega

/-! ## The two maps -/

theorem getRealBlock_walk (hread : ∀ q, fs.readable q = true) (hn : ndirBlocks ≤ n) {table : Nat}
    (hpath : fs.indirectPath inode n = some (table, path)) : fs.getRealBlock inode n = fs.walkTables table path := by
  rw [getRealBlock, if_neg (by omega), hpath]
  dsimp only
  rw [followPath_eq_walk hread]
  rfl

section

variable {m : Nat} (inode : Mem)

theorem indirectPath_double (hm : n = ndirBlocks + fs.ptrBlocksPerBlock + m) (hlt : m < fs.ptrBlocksPerBlock ^ 2) :
    fs.indirectPath inode n = some (iBlock inode dindBlock, [(fs.doublePath n).1, (fs.doublePath n).2]) := by
  rw [Nat.pow_two] at hlt
  unfold indirectPath
  rw [if_neg (by omega), if_pos (by omega)]

theorem indirectPath_triple (hm : n = ndirBlocks + fs.ptrBlocksPerBlock + fs.ptrBlocksPerBlock ^ 2 + m) (hlt : m < fs.ptrBlocksPerBlock ^ 3) :
    fs.indirectPath inode n = some (iBlock inode tindBlock, [(fs.triplePath n).1, (fs.triplePath n).2.1, (fs.triplePath n).2.2]) := by
  rw [Nat.pow_two] at hm
  rw [Nat.pow_succ, Nat.pow_two] at hlt
  unfold indirectPath
  rw [if_neg (by omega), if_neg (by omega), if_pos (by omega)]

theorem layoutBlock_double (hP : 0 < fs.ptrBlocksPerBlock) (hm : n = ndirBlocks + fs.ptrBlocksPerBlock + m)
    (hlt : m < fs.ptrBlocksPerBlock ^ 2) :
    fs.layoutBlock inode n = fs.walkTables (iBlock inode dindBlock) [m / fs.ptrBlocksPerBlock, m % fs.ptrBlocksPerBlock] := by
  have hhigh := Nat.div_lt_of_lt_mul (by rwa [← Nat.pow_two])
  simp only [walkTables, foldl_cons, foldl_nil]
  rw [entry_eq_tableEntry _ hhigh, entry_eq_tableEntry _ (Nat.mod_lt m hP), layoutBlock]
  rw [if_neg (by omega), if_neg (by omega), if_pos (by omega), show n - ndirBlocks - fs.ptrBlocksPerBlock = m by omega]

theorem layoutBlock_triple (hP : 0 < fs.ptrBlocksPerBlock)
    (hm : n = ndirBlocks + fs.ptrBlocksPerBlock + fs.ptrBlocksPerBlock ^ 2 + m) (hlt : m < fs.ptrBlocksPerBlock ^ 3) :
    fs.layoutBlock inode n = fs.walkTables (iBlock inode tindBlock)
      [m / fs.ptrBlocksPerBlock ^ 2, m / fs.ptrBlocksPerBlock % fs.ptrBlocksPerBlock, m % fs.ptrBlocksPerBlock] := by
  have hhigh := Nat.div_lt_of_lt_mul (by rwa [← Nat.pow_succ])
  simp only [walkTables, foldl_cons, foldl_nil]
  rw [entry_eq_tableEntry _ hhigh, entry_eq_tableEntry _ (Nat.mod_lt (m / fs.ptrBlocksPerBlock) hP),
    entry_eq_tableEntry _ (Nat.mod_lt m hP), layoutBlock]
  rw [if_neg (by omega), if_neg (by omega), if_neg (by omega),
    show n - ndirBlocks - fs.ptrBlocksPerBlock - fs.ptrBlocksPerBlock ^ 2 = m by omega]

end

/-- Where the map is the layout's: the direct blocks, the first table and the first two blocks of the tables behind it. -/
theorem getRealBlock_eq_layoutBlock (hread : ∀ q, fs.readable q = true) (hP : 2 ≤ fs.ptrBlocksPerBlock)
    (hn : n < ndirBlocks + fs.ptrBlocksPerBlock + 2) : fs.getRealBlock inode n = fs.layoutBlock inode n := by
  have hsquare := Nat.mul_le_mul hP hP
  rcases Nat.lt_or_ge n ndirBlocks with hdirect | hdirect
  · rw [getRealBlock, if_pos hdirect, layoutBlock]
    rw [if_pos hdirect]
  rcases Nat.lt_or_ge n (ndirBlocks + fs.ptrBlocksPerBlock) with hsingle | hsingle
  · have hpath : fs.indirectPath inode n = some (iBlock inode ndirBlocks, [n - ndirBlocks]) := by
      unfold indirectPath
      rw [if_pos hsingle]
    rw [getRealBlock_walk hread hdirect hpath, walkTables, foldl_cons, foldl_nil, entry_eq_tableEntry _ (by omega), layoutBlock]
    rw [if_neg (by omega), if_pos hsingle]
  · obtain ⟨m, hm⟩ := Nat.exists_eq_add_of_le hsingle
    have hm2 : m < 2 := by omega
    have hlt : m < fs.ptrBlocksPerBlock ^ 2 := by
      rw [Nat.pow_two]
      omega
    have hfirst : (n - dindBlock) / fs.ptrBlocksPerBlock = m := by
      have hge : dindBlock = ndirBlocks + 1 := rfl
      refine (Nat.div_eq_iff (by omega)).mpr ?_
      rcases Nat.lt_or_ge m 1 with h | h
      · obtain rfl : m = 0 := by omega
        omega
      · obtain rfl : m = 1 := by omega
        omega
    rw [getRealBlock_walk hread hdirect (indirectPath_double inode hm hlt), layoutBlock_double inode (by omega) hm hlt]
    congr 1
    unfold doublePath
    rw [hfirst, Nat.mod_eq_sub_div_mul]

/-- An inode whose only pointer is to block 1. -/
def onePathInode (k : Nat) : Mem := setIBlock (fun _ => 0) k 1

theorem iBlock_onePathInode (k : Nat) : iBlock (onePathInode k) k = 1 := by
  rw [onePathInode, iBlock_setIBlock _ _ _ (by decide), if_pos rfl]

/-- The driver finds the block that the layout says, whatever is on the disk, in the direct blocks, in the first table and in the first two
blocks behind it, and nowhere else. -/
theorem getRealBlock_layout_iff {bs P : Nat} (hP : P = bs / 4) (hbs : 1024 ≤ bs) (hword : bs < 2 ^ 32) (hn : n < 12 + P + P ^ 2 + P ^ 3)
    (hn32 : n < 2 ^ 32) :
    (∀ (fs : Ext2) (inode : Mem), fs.blockSize = bs → (∀ q, fs.readable q = true) → fs.getRealBlock inode n = fs.layoutBlock inode n) ↔
      n < 12 + P + 2 := by
  constructor
  · intro hall
    by_contra hge
    have hdirect : ndirBlocks ≤ n := by
      unfold ndirBlocks
      omega
    rcases Nat.lt_or_ge n (12 + P + P ^ 2) with hdouble | htriple
    · obtain ⟨m, hm⟩ := Nat.exists_eq_add_of_le (show 12 + P ≤ n by omega)
      have hhigh : m / P < P := Nat.div_lt_of_lt_mul (by rw [← Nat.pow_two]; omega)
      have hptr : (onePathFs bs [m / P, m % P]).ptrBlocksPerBlock = P := hP.symm
      have heq := hall (onePathFs bs [m / P, m % P]) (onePathInode dindBlock) rfl fun _ => rfl
      rw [getRealBlock_walk (fun _ => rfl) hdirect (indirectPath_double _ (by rwa [hptr]) (by rw [hptr]; omega)),
        layoutBlock_double _ (by omega) (by rwa [hptr]) (by rw [hptr]; omega), iBlock_onePathInode, hptr] at heq
      refine walkTables_ne hbs hword (by simp) ?_ ?_ ?_ heq
      · simp only [List.mem_cons, List.not_mem_nil, or_false, forall_eq_or_imp, forall_eq, ← hP]
        exact ⟨hhigh, Nat.mod_lt m (by omega)⟩
      · rfl
      · unfold Ext2.doublePath
        dsimp only
        rw [hptr, show n - dindBlock = m + P - 1 by unfold dindBlock; omega]
        exact double_digits (by omega) (by omega)
    · obtain ⟨m, hm⟩ := Nat.exists_eq_add_of_le htriple
      have hcube : m < P ^ 3 := by omega
      have hhigh : m / P ^ 2 < P := Nat.div_lt_of_lt_mul (by rwa [← Nat.pow_succ])
      generalize hpath : [m / P ^ 2, m / P % P, m % P] = path
      have hptr : (onePathFs bs path).ptrBlocksPerBlock = P := hP.symm
      have heq := hall (onePathFs bs path) (onePathInode tindBlock) rfl fun _ => rfl
      rw [getRealBlock_walk (fun _ => rfl) hdirect (indirectPath_triple _ (by rwa [hptr]) (by rw [hptr]; omega)),
        layoutBlock_triple _ (by omega) (by rwa [hptr]) (by rw [hptr]; omega), iBlock_onePathInode, hptr, hpath] at heq
      refine walkTables_ne hbs hword (by simp [← hpath]) ?_ ?_ ?_ heq
      · simp only [← hpath, List.mem_cons, List.not_mem_nil, or_false, forall_eq_or_imp, forall_eq, ← hP]
        exact ⟨hhigh, Nat.mod_lt _ (by omega), Nat.mod_lt m (by omega)⟩
      · rw [← hpath]
        rfl
      · have hne : (onePathFs bs path).triplePath n ≠ _ := triplePath_ne (by rw [hptr]; omega) hn32 (by rwa [hptr])
        intro he
        rw [hptr] at hne
        simp only [← hpath, List.cons.injEq, and_true] at he
        exact hne (Prod.ext he.1 (Prod.ext he.2.1 he.2.2))
  · intro hlt fs inode hblock hread
    have hptr : fs.ptrBlocksPerBlock = P := by rw [Ext2.ptrBlocksPerBlock, hblock, hP]
    exact getRealBlock_eq_layoutBlock hread (by omega) (by rwa [hptr])

/-- The second block behind the first table, for blocks of 1024 bytes. -/
theorem getRealBlock_layout_second : 269 < 12 + 256 + 2 ∧
    ∀ (fs : Ext2) (inode : Mem), fs.blockSize = 1024 → (∀ q, fs.readable q = true) → fs.getRealBlock inode 269 = fs.layoutBlock inode 269 :=
  ⟨by decide, (getRealBlock_layout_iff (P := 256) (by decide) (by decide) (by decide) (by decide) (by decide)).mpr (by decide)⟩

/-- An inode with a table of tables in block 8. -/
def doubleInode : Mem := setIBlock (fun _ => 0) dindBlock 8

/-- A filesystem in which the first of these tables is block 9, with the entries 10, 11 and 12. -/
def doubleFs : Ext2 :=
  let table := store (store (store (fun _ => 0) 0 4 10) 4 4 11) 8 4 12
  { smallFs with disk := update (update smallFs.disk 8 (store (fun _ => 0) 0 4 9)) 9 table }

/-- The third block behind the first table is the third entry of the second one, and the driver takes the second entry. -/
theorem third_double_block_wrong :
    doubleFs.blockSize = 1024 ∧ (∀ q, doubleFs.readable q = true) ∧ doubleFs.layoutBlock doubleInode 270 = 12 ∧
      doubleFs.getRealBlock doubleInode 270 = 11 :=
  ⟨rfl, fun _ => rfl, by decide, by decide⟩

/-! ## Setting an entry -/

/-- What a change of one entry is to do: the block gets it, and no other block changes. -/
structure EntrySet (fs : Ext2) (inode inode' : Mem) (n r : Nat) : Prop where
  here : fs.getRealBlock inode' n = r
  others : ∀ m, m ≠ n → fs.getRealBlock inode' m = fs.getRealBlock inode m

/-- The direct pointers are no part of the paths behind them. -/
theorem getRealBlock_setIBlock (fs : Ext2) (inode : Mem) (hn : n < ndirBlocks) (hr : r < 2 ^ 32) (m : Nat) :
    fs.getRealBlock (setIBlock inode n r) m = if m = n then r else fs.getRealBlock inode m := by
  have hpointer : ∀ k, iBlock (setIBlock inode n r) k = if k = n then r else iBlock inode k := fun k => iBlock_setIBlock inode n k hr
  by_cases hm : m < ndirBlocks
  · rw [getRealBlock, if_pos hm, hpointer, getRealBlock, if_pos hm]
  · have hpath : fs.indirectPath (setIBlock inode n r) m = fs.indirectPath inode m := by
      have htables : ∀ k, ndirBlocks ≤ k → iBlock (setIBlock inode n r) k = iBlock inode k := fun k hk => by
        rw [hpointer, if_neg (by omega)]
      unfold indirectPath
      rw [htables ndirBlocks .refl, htables dindBlock (by decide), htables tindBlock (by decide)]
    rw [if_neg (by omega), getRealBlock, if_neg hm, hpath, getRealBlock, if_neg hm]

/-- `setRealBlock` sets the entry of a direct block. Behind them it changes nothing, so it does what it is to do only where the entry is
there already. -/
theorem setRealBlock_sets_iff {r : Nat} {inode' : Mem} (hr : r < 2 ^ 32) (hset : fs.setRealBlock inode n r = (true, inode')) :
    EntrySet fs inode inode' n r ↔ n < ndirBlocks ∨ fs.getRealBlock inode n = r := by
  have hinode := setRealBlock_inode fs inode n r
  rw [hset] at hinode
  by_cases hn : n < ndirBlocks
  · rw [if_pos hn] at hinode
    subst hinode
    refine ⟨fun _ => Or.inl hn, fun _ => ⟨?_, fun m hm => ?_⟩⟩
    · rw [getRealBlock_setIBlock fs inode hn hr, if_pos rfl]
    · rw [getRealBlock_setIBlock fs inode hn hr, if_neg hm]
  · rw [if_neg hn] at hinode
    subst hinode
    constructor
    · intro h
      exact Or.inr h.here
    · rintro (h | h)
      · exact absurd h hn
      · exact ⟨h, fun _ _ => rfl⟩

/-- The first pointer of an inode. -/
theorem setRealBlock_sets_first : ∃ inode', smallFs.setRealBlock (fun _ => 0) 0 9 = (true, inode') ∧ EntrySet smallFs (fun _ => 0) inode' 0 9 :=
  ⟨_, rfl, (setRealBlock_sets_iff (by decide) rfl).mpr (Or.inl (by decide))⟩

/-- An inode with a table in block 7, which is in use. -/
def singleInode : Mem := setIBlock (fun _ => 0) ndirBlocks 7

/-- Setting the first entry of the table succeeds and leaves it 0. -/
theorem table_entry_not_set :
    Working smallFs ∧ UsedBlock smallFs (iBlock singleInode ndirBlocks) ∧ smallFs.setRealBlock singleInode 12 9 = (true, singleInode) ∧
      smallFs.getRealBlock singleInode 12 = 0 ∧ ¬ EntrySet smallFs singleInode singleInode 12 9 := by
  have hzero : smallFs.getRealBlock singleInode 12 = 0 := by decide
  have hblock : iBlock singleInode ndirBlocks = 7 := by decide
  refine ⟨smallFs_working, ?_, rfl, hzero, fun h => ?_⟩
  · rw [hblock]
    refine ⟨⟨0, 6, by decide, by decide, by decide, rfl⟩, fun x hx => ?_⟩
    rcases smallFs_meta hx with rfl | rfl | rfl | rfl | rfl | rfl <;> decide
  · have hhere := h.here
    rw [hzero] at hhere
    cases hhere

end OmegaOS
