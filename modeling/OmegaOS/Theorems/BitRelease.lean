import OmegaOS.Lemmas.Ext2Release
import OmegaOS.Theorems.DirectoryCreate

/-!
# Deleting what was allocated

Allocation computes a number from a group and a bit, and deletion computes them back. They agree, except at the last number of a group:
deletion divides before it subtracts, and finds the next group.
-/

namespace OmegaOS

open ByteMem

variable {fs fs' fs1 : Ext2} {pool : Pool} {n i b : Nat}

/-- `deleteBlock` of a number, or `deleteInode` of an inode and its number. -/
def Ext2.deleteNumber (fs : Ext2) (inode : Mem) (n : Nat) : Pool → Int × Ext2
  | .blocks => fs.deleteBlock n
  | .inodes => fs.deleteInode inode n

/-- All bitmaps and counters are the same. -/
structure SameAccounts (fs fs' : Ext2) : Prop where
  bits : ∀ pool i b, i < fs.groupCount → b < 8 * fs.blockSize → fs'.bit pool i b = fs.bit pool i b
  counts : ∀ pool i, fs'.freeCount pool i = fs.freeCount pool i

/-- What deletion is to do with the number of bit `b` of group `i`: clear this bit and count it in this group. That is all it does, unless it
is an inode's that has data blocks to delete; and after the allocation that has taken the bit everything is as it was before. -/
structure Inverts (fs : Ext2) (pool : Pool) (i b : Nat) : Prop where
  bits : ∀ inode k c, k < fs.groupCount → c < 8 * fs.blockSize →
    (fs.deleteNumber inode (fs.bitNumber pool i b) pool).2.bit pool k c = (fs.bit pool k c && !decide (k = i ∧ c = b))
  counts : ∀ inode k, (fs.deleteNumber inode (fs.bitNumber pool i b) pool).2.freeCount pool k =
    if k = i then (fs.freeCount pool k + 1) % 2 ^ 16 else fs.freeCount pool k
  alone : ∀ inode, (pool = .inodes → iSize inode = 0) → (fs.deleteNumber inode (fs.bitNumber pool i b) pool).1 = enoer ∧
    ∀ pool' ≠ pool, SamePool pool' fs (fs.deleteNumber inode (fs.bitNumber pool i b) pool).2
  restores : ∀ inode number fs₁, (pool = .inodes → iSize inode = 0) → fs.allocateBit pool fs.groupCount 0 = (number, fs₁) →
    fs₁.bit pool i b ≠ fs.bit pool i b → SameAccounts fs (fs₁.deleteNumber inode number pool).2

/-! ## The bit of a number -/

theorem deleteNumber_outside (hheap : fs.heapOk = true) (hn : n ≠ 0) (hgroup : fs.groupCount ≤ n / fs.perGroup pool) (inode : Mem) :
    fs.deleteNumber inode n pool = (eperm, fs) := by
  cases pool with
  | blocks => exact (deleteBlock_eq hheap n).trans (deleteBlockBuffer_eperm hn hgroup)
  | inodes => exact deleteInode_eperm hheap hgroup inode

section

variable (l : BitmapLayout fs) (hread : ∀ q, fs.readable q = true) (hheap : fs.heapOk = true)

include l hread hheap

theorem deleteNumber_released (hn : n ≠ 0) (hgroup : n / fs.perGroup pool < fs.groupCount) :
    ∃ fs1, BitReleased fs fs1 pool (n / fs.perGroup pool) (bitBefore (n % fs.perGroup pool)) ∧
      ∀ inode, SamePool pool fs1 (fs.deleteNumber inode n pool).2 ∧
        ((pool = .inodes → iSize inode = 0) → fs.deleteNumber inode n pool = (enoer, fs1)) := by
  cases pool with
  | blocks =>
    obtain ⟨fs1, heq, hreleased⟩ := deleteBlockBuffer_released l hn hgroup (hread _)
    have hdelete : ∀ inode, fs.deleteNumber inode n .blocks = (enoer, fs1) := fun _ => (deleteBlock_eq hheap n).trans heq
    refine ⟨fs1, hreleased, fun inode => ⟨?_, fun _ => hdelete inode⟩⟩
    rw [hdelete]
    exact .refl _ fs1
  | inodes =>
    obtain ⟨fs1, hreleased, heq⟩ := deleteInode_eq l hheap hgroup (hread _)
    refine ⟨fs1, hreleased, fun inode => ⟨?_, fun hsize => ?_⟩⟩
    · rw [Ext2.deleteNumber, heq]
      exact deleteBlocks_samePool (l.congr hreleased.shape) inode 0 _
    · rw [Ext2.deleteNumber, heq, Ext2.deletedBlocks, hsize rfl, Nat.zero_mod, Nat.zero_div]
      rfl

/-- Deletion finds the bit when the number is not the last of its group. -/
theorem deleteNumber_of_lt (hi : i < fs.groupCount) (hb : b + 1 < fs.perGroup pool) (hnumber : fs.bitNumber pool i b < 2 ^ 32) :
    ∃ fs1, BitReleased fs fs1 pool i b ∧ ∀ inode, SamePool pool fs1 (fs.deleteNumber inode (fs.bitNumber pool i b) pool).2 ∧
        ((pool = .inodes → iSize inode = 0) → fs.deleteNumber inode (fs.bitNumber pool i b) pool = (enoer, fs1)) := by
  obtain ⟨hdiv, hmod⟩ := bitNumber_split fs pool i b (by omega)
  rw [Nat.div_eq_of_lt hb, add_zero] at hdiv
  rw [Nat.mod_eq_of_lt hb] at hmod
  have hlt : b < 2 ^ 32 := by
    rw [Ext2.bitNumber] at hnumber
    omega
  have hreleased := deleteNumber_released l hread hheap (Nat.succ_ne_zero _) (by rwa [hdiv]) (n := fs.bitNumber pool i b)
  rwa [hdiv, hmod, bitBefore_succ hlt] at hreleased

/-- Deletion counts the number in a later group when it is the last of its group. -/
theorem deleteNumber_last (hpos : 0 < fs.perGroup pool) (hb : fs.perGroup pool ≤ b + 1) (inode : Mem) :
    (fs.deleteNumber inode (fs.bitNumber pool i b) pool).2.freeCount pool i = fs.freeCount pool i := by
  obtain ⟨hdiv, -⟩ := bitNumber_split fs pool i b hpos
  have hlater : i < fs.bitNumber pool i b / fs.perGroup pool := by
    have := Nat.div_pos hb hpos
    omega
  by_cases hgroup : fs.groupCount ≤ fs.bitNumber pool i b / fs.perGroup pool
  · rw [deleteNumber_outside hheap (n := fs.bitNumber pool i b) (Nat.succ_ne_zero _) hgroup]
  · obtain ⟨fs1, hreleased, hsame⟩ := deleteNumber_released l hread hheap (Nat.succ_ne_zero _) (Nat.lt_of_not_le hgroup)
      (n := fs.bitNumber pool i b)
    rw [(hsame inode).1.counts i, hreleased.counts pool i fun he => by have := (Prod.mk.inj he).2; omega]

end

/-- Taking a bit and releasing it leaves everything as it was. -/
theorem BitTaken.released {fs2 : Ext2} (ht : BitTaken fs fs1 pool i b) (hr : BitReleased fs1 fs2 pool i b) : SameAccounts fs fs2 := by
  refine ⟨fun pool' k c hk hc => ?_, fun pool' k => ?_⟩
  · rw [hr.bits pool' k c (by rwa [ht.shape.groupCount]) (by rwa [ht.shape.blockSize]), ht.bits pool' k c hk hc]
    by_cases he : pool' = pool ∧ k = i ∧ c = b
    · obtain ⟨rfl, rfl, rfl⟩ := he
      rw [ht.clear]
      simp
    · simp [he]
  · by_cases he : (pool', k) = (pool, i)
    · obtain ⟨rfl, rfl⟩ := Prod.mk.inj he
      have hlt : fs.freeCount pool' k < 2 ^ 16 := load_lt _ _ 2
      rw [hr.counted, ht.counted, Nat.mod_eq_of_lt hlt]
    · rw [hr.counts pool' k he, ht.counts pool' k he]

/-- The bit that an allocation has changed is the one that it has taken. -/
theorem allocateBit_changed (l : BitmapLayout fs) {number : Nat} (hi : i < fs.groupCount) (hb : b < 8 * fs.blockSize)
    (halloc : fs.allocateBit pool fs.groupCount 0 = (number, fs1)) (hbit : fs1.bit pool i b ≠ fs.bit pool i b) :
    number = fs.bitNumber pool i b % 2 ^ 32 ∧ BitTaken fs fs1 pool i b := by
  rcases allocateBit_spec pool l (show 0 + fs.groupCount ≤ fs.groupCount by omega) with hnone | ⟨j, c, -, hnum, htaken⟩
  · rw [halloc] at hnone
    cases hnone
    exact absurd rfl hbit
  · rw [halloc] at hnum htaken
    have hsame : i = j ∧ b = c := by
      by_contra hne
      refine hbit ?_
      rw [htaken.bits pool i b hi hb, decide_eq_false fun he => hne he.2, Bool.or_false]
    obtain ⟨rfl, rfl⟩ := hsame
    exact ⟨hnum, htaken⟩

/-- Deletion undoes allocation for every number but the last of a group. -/
theorem delete_inverts_iff (l : BitmapLayout fs) (hread : ∀ q, fs.readable q = true) (hheap : fs.heapOk = true)
    (hpos : 0 < fs.perGroup pool) {i b : Nat} (hi : i < fs.groupCount) (hb : b < 8 * fs.blockSize)
    (hnumber : fs.bitNumber pool i b < 2 ^ 32) : Inverts fs pool i b ↔ b + 1 < fs.perGroup pool := by
  constructor
  · intro h
    by_contra hlast
    have hcount := h.counts (fun _ => 0) i
    rw [deleteNumber_last l hread hheap hpos (Nat.le_of_not_lt hlast), if_pos rfl] at hcount
    omega
  · intro hlt
    obtain ⟨fs₁, hreleased, hsame⟩ := deleteNumber_of_lt l hread hheap hi hlt hnumber
    have hs := hreleased.shape
    refine ⟨fun inode k c hk hc => ?_, fun inode k => ?_, fun inode hsize => ?_, fun inode number fs₂ hsize halloc hbit => ?_⟩
    · rw [(hsame inode).1.bits k c (by rwa [hs.groupCount]) (by rwa [hs.blockSize]), hreleased.bits pool k c hk hc]
      simp
    · rw [(hsame inode).1.counts k]
      split
      · rename_i he
        rw [he, hreleased.counted]
      · rename_i hne
        exact hreleased.counts pool k fun he => hne (Prod.mk.inj he).2
    · rw [(hsame inode).2 hsize]
      exact ⟨rfl, fun pool' hne => hreleased.samePool hne⟩
    · obtain ⟨hnum, htaken⟩ := allocateBit_changed l hi hb halloc hbit
      have hs2 := htaken.shape
      have hbitNumber : fs₂.bitNumber pool i b = fs.bitNumber pool i b := by
        rw [Ext2.bitNumber, hs2.perGroup]
        rfl
      obtain ⟨fs3, hreleased3, hsame3⟩ := deleteNumber_of_lt (l.congr hs2) (fun q => by rw [hs2.readable]; exact hread q)
        (by rwa [hs2.heapOk]) (by rwa [hs2.groupCount]) (by rwa [hs2.perGroup])
        (by rwa [hbitNumber])
      rw [hnum, Nat.mod_eq_of_lt hnumber, ← hbitNumber, (hsame3 inode).2 hsize]
      exact htaken.released hreleased3

/-- The first free block of the small filesystem. -/
theorem delete_inverts_small : 7 + 1 < smallFs.perGroup .blocks ∧ Inverts smallFs .blocks 0 7 :=
  ⟨by decide, (delete_inverts_iff smallFs_geometry.bitmapLayout (fun _ => rfl) rfl (by decide) (by decide) (by decide) (by decide)).mpr
    (by decide)⟩

/-- The small filesystem with one free block left, the last of its group. -/
def lastBlockFs : Ext2 :=
  { smallFs.setFreeCount .blocks 0 1 with
    disk := Function.update smallFs.disk 3 fun x => if x = 1 then 0x7F else 0xFF }

theorem lastBlockFs_geometry : Geometry lastBlockFs := by
  have hs := SameShape.setFreeCount smallFs .blocks 0 1
  exact smallFs_geometry.congr ⟨rfl, rfl, rfl, rfl, rfl, rfl, rfl, hs.bitmapBlock, hs.inodeTable⟩

/-- Block 16 is allocated, and its deletion fails: it looks for the block in group 1, and there is only group 0. -/
theorem last_block_not_deleted : Geometry lastBlockFs ∧ lastBlockFs.bit .blocks 0 15 = false ∧
      ∃ inode fs₁, lastBlockFs.allocateBlock (lastBlockFs.storedInode 3) 3 1 = (true, inode, fs₁) ∧ iBlock inode 1 = 16 ∧
        (fs₁.deleteBlock 16).1 = eperm ∧ (fs₁.deleteBlock 16).2.bit .blocks 0 15 = true ∧
        (fs₁.deleteBlock 16).2.freeCount .blocks 0 = 0 ∧ ¬ Inverts lastBlockFs .blocks 0 15 := by
  refine ⟨lastBlockFs_geometry, by decide, _, _, Prod.ext (by decide) rfl, by decide, by decide,
    by decide, by decide, fun h => ?_⟩
  have hcount := h.counts (fun _ => 0) 0
  revert hcount
  decide

end OmegaOS
