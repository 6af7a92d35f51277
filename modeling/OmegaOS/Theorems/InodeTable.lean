import OmegaOS.Theorems.DirectoryCreate

/-!
# The inode tables as a map

An inode number is a key and its image the value: `writeInode` sets one key and `readInode` gives what was set last.
-/

namespace OmegaOS

open ByteMem Function

variable {fs fs' : Ext2} {n m : Nat} {x : Mem}

/-- The bytes of the drive that are not the place of an inode. -/
def OutsideSlot (fs : Ext2) (n block byte : Nat) : Prop :=
  block = fs.physical (fs.inodeBlock n) → byte < fs.inodeOffset n ∨ fs.inodeOffset n + fs.superBlock.inodeSize ≤ byte

/-- One key of the map is set: it reads back, the other keys read as before, and no byte of the drive outside its place changes. -/
structure InodeSet (fs fs' : Ext2) (n : Nat) (x : Mem) : Prop where
  same : fs'.readInode n = some x
  others : ∀ m, m < 2 ^ 32 → m ≠ n → fs'.readInode m = fs.readInode m
  bytes : ∀ block byte, OutsideSlot fs n block byte → fs'.disk block byte = fs.disk block byte

/-- What `readInode` computes for an inode of a group. -/
theorem readInode_of_lt (hv : fs.inodeGroup n < fs.groupCount) :
    fs.readInode n = if fs.readable (fs.physical (fs.inodeBlock n)) = true ∧ fs.heapOk = true then
      some (copy (fun _ => 0) 0 (fs.disk (fs.physical (fs.inodeBlock n))) (fs.inodeOffset n) fs.superBlock.inodeSize) else none := by
  rw [Ext2.readInode, if_neg (Nat.not_le.mpr hv), Ext2.readBlock]
  by_cases hread : fs.readable (fs.physical (fs.inodeBlock n)) = true <;> simp [hread]

theorem readInode_of_le (hv : fs.groupCount ≤ fs.inodeGroup n) : fs.readInode n = none := by
  rw [Ext2.readInode, if_pos hv]

/-- An image is read from the bytes of its place. -/
theorem copy_slot_congr (h : ∀ i, i < k → d' (o + i) = d (o + i)) : copy (fun _ => 0) 0 d' o k = copy (fun _ => 0) 0 d o k := by
  funext i
  by_cases hi : i < k
  · rw [copy_inside _ _ _ (Nat.zero_le i) (by omega), copy_inside _ _ _ (Nat.zero_le i) (by omega)]
    exact h _ (by omega)
  · rw [copy_outside _ _ _ (by omega), copy_outside _ _ _ (by omega)]

theorem writeInode_disk (ht : InodeTables fs) (x : Mem) (block byte : Nat) :
    (fs.writeBlock (fs.inodeBlock n) (copy (fs.disk (fs.physical (fs.inodeBlock n))) (fs.inodeOffset n) x 0 fs.superBlock.inodeSize)).disk
        block byte =
      if block = fs.physical (fs.inodeBlock n) then copy (fs.disk block) (fs.inodeOffset n) x 0 fs.superBlock.inodeSize byte
      else fs.disk block byte := by
  have hin := inodeOffset_inside ht.inodeSize.1 ht.inodeSize.2 n
  split
  · subst block
    by_cases hbyte : byte < fs.blockSize
    · exact disk_writeBlock_inside fs rfl _ hbyte
    · -- behind the block there is nothing to write
      rw [copy_outside _ _ _ (.inr (by omega))]
      show update fs.disk _ _ (fs.physical (fs.inodeBlock n)) byte = _
      rw [update_self, copy_outside _ _ _ (.inr (by omega))]
  · rename_i hne
    rw [disk_writeBlock_ne fs _ _ hne]

/-- Writing an inode that the driver can read sets its key of the map. -/
theorem writeInode_set (ht : InodeTables fs) (hheap : fs.heapOk = true) (hn : n < 2 ^ 32) (hx : IsImage fs x)
    (hv : fs.inodeGroup n < fs.groupCount) (hread : fs.readable (fs.physical (fs.inodeBlock n)) = true) :
    ∃ fs', fs.writeInode n x = (true, fs') ∧ InodeSet fs fs' n x := by
  have hdisk := writeInode_disk (n := n) ht x
  refine ⟨_, by rw [Ext2.writeInode, if_neg (Nat.not_le.mpr hv), Ext2.readBlock, if_pos hread], ?_⟩
  generalize hset : fs.writeBlock (fs.inodeBlock n) _ = fs' at hdisk ⊢
  have hs : SameShape fs fs' := hset ▸ SameShape.writeBlock _ _ _
  refine ⟨?_, fun m hm hne => ?_, fun block byte hout => ?_⟩
  · rw [readInode_of_lt (by rwa [hs.inodeGroup, hs.groupCount]), hs.inodeBlock, hs.physical, hs.inodeOffset, hs.readable, hs.heapOk,
      hs.superBlock, if_pos ⟨hread, hheap⟩]
    congr 1
    funext o
    by_cases ho : o < fs.superBlock.inodeSize
    · rw [copy_inside _ _ _ (Nat.zero_le o) (by omega), hdisk, if_pos rfl, copy_inside _ _ _ (by omega) (by omega)]
      congr 1
      omega
    · rw [copy_outside _ _ _ (by omega), hx o (by omega)]
  · by_cases hvm : fs.inodeGroup m < fs.groupCount
    · rw [readInode_of_lt hvm, readInode_of_lt (by rwa [hs.inodeGroup, hs.groupCount]), hs.inodeBlock, hs.physical, hs.inodeOffset,
        hs.readable, hs.heapOk, hs.superBlock, copy_slot_congr]
      intro i hi
      rw [hdisk]
      split
      · rename_i hblock
        have hapart := ht.disjoint hv hvm (inodeNumber_ne hm hn hne) hblock
        exact copy_outside _ _ _ (by omega)
      · rfl
    · rw [readInode_of_le (Nat.not_lt.mp hvm), readInode_of_le (by rw [hs.inodeGroup, hs.groupCount]; exact Nat.not_lt.mp hvm)]
  · rw [hdisk]
    split
    · rename_i hblock
      exact copy_outside _ _ _ (hout hblock)
    · rfl

/-- The inode tables are a map from the inode numbers of the filesystem's groups to images; other numbers have no key in it. -/
theorem inodeTable_map (ht : InodeTables fs) (hheap : fs.heapOk = true) (hn : n < 2 ^ 32) (hx : IsImage fs x) :
    (fs.inodeGroup n < fs.groupCount → fs.readable (fs.physical (fs.inodeBlock n)) = true →
      ∃ fs', fs.writeInode n x = (true, fs') ∧ InodeSet fs fs' n x) ∧
    (fs.groupCount ≤ fs.inodeGroup n → fs.readInode n = none ∧ fs.writeInode n x = (false, fs)) := by
  refine ⟨writeInode_set ht hheap hn hx, fun hv => ⟨readInode_of_le hv, ?_⟩⟩
  rw [Ext2.writeInode, if_pos hv]

/-- The root directory's inode is written over its neighbour. -/
theorem inodeTable_map_small :
    ∃ fs', smallFs.writeInode 3 (smallFs.storedInode 2) = (true, fs') ∧ InodeSet smallFs fs' 3 (smallFs.storedInode 2) :=
  (inodeTable_map smallFs_geometry.inodeTables rfl (by decide) (isImage_storedInode smallFs 2)).1 (by decide) rfl

end OmegaOS
