import Mathlib.Algebra.Group.Int.Defs
import OmegaOS.Theorems.FileContent

/-!
# Reading a range of a file

A range inside a file is read as a whole. A range that goes past the end is rejected by a sum on 64 bits: where the sum wraps around, the
check takes it for a range that ends before its own start.
-/

namespace OmegaOS

open ByteMem

variable {fs : Ext2} {node : VfsNode} {inode : Mem} {offset size : Nat}

/-! ## Ranges inside the file -/

/-- `ext2_read` of a range inside a regular file gives its bytes, block by block as the block map has them, and moves the offset behind
them. -/
theorem ext2Read_range (hbs : 0 < fs.blockSize) (hinode : fs.readInode node.inode = some inode) (hfile : inodeFile inode = true)
    (hheap : fs.heapOk = true) (hrange : offset + size ≤ iSize inode)
    (hread : ∀ k, offset / fs.blockSize ≤ k → k ≤ (offset + size) / fs.blockSize → fs.readable (fs.physical (fs.getRealBlock inode k)) = true)
    (buffer : Mem) : fs.ext2Read node offset size buffer =
      ((size : Int), { node with offset := (offset : Int) + size }, fun x => if x < size then fs.fileByte inode (offset + x) else buffer x) :=
  ext2Read_spec hbs hinode hfile hheap hrange hread buffer

/-- The node of the file `a`. -/
def smallFile : VfsNode := ⟨3, 4, 0⟩

theorem smallFile_inode : smallFs.readInode smallFile.inode = some (smallFs.storedInode 3) :=
  (smallFs_working.opened (by decide)).readInode smallFs_working.heapOk

/-- Two bytes of it, from the second one on. -/
theorem ext2Read_range_small : smallFs.ext2Read smallFile 1 2 (fun _ => 0xFF) =
      (2, ⟨3, 4, 3⟩, fun x => if x < 2 then smallFs.fileByte (smallFs.storedInode 3) (1 + x) else 0xFF) :=
  ext2Read_range (by decide) smallFile_inode (by decide) rfl (by decide) (fun _ _ _ => smallFs_working.readable _) _

/-! ## Ranges past the end -/

/-- What a read past the end of a file is to do: return an error, copy nothing and leave the node. -/
def Rejected (fs : Ext2) (node : VfsNode) (offset size : Nat) (buffer : Mem) : Prop :=
  ∃ ret < 0, fs.ext2Read node offset size buffer = (ret, node, buffer)

section

variable (hinode : fs.readInode node.inode = some inode) (hfile : inodeFile inode = true)

include hinode hfile

theorem ext2Read_espipe (hcheck : iSize inode < (size + offset) % 2 ^ 64) (buffer : Mem) :
    fs.ext2Read node offset size buffer = (-espipe, node, buffer) := by
  rw [Ext2.ext2Read, hinode]
  dsimp only
  rw [hfile, if_neg (by decide), if_pos hcheck]

variable (hheap : fs.heapOk = true) (hcheck : (size + offset) % 2 ^ 64 ≤ iSize inode) {buffer buffer' : Mem} {read : Nat}

include hheap hcheck

/-- Behind the tests the result is that of the loop. -/
theorem ext2Read_of_loop
    (hloop : fs.readLoop inode offset size buffer 0 (offset / fs.blockSize) (fs.endBlock offset size + 1 - offset / fs.blockSize) =
      (true, read, buffer')) :
    fs.ext2Read node offset size buffer = ((read : Int), { node with offset := (offset : Int) + read }, buffer') := by
  rw [Ext2.ext2Read, hinode]
  dsimp only
  rw [hfile, hheap, if_neg (by decide), if_neg (by omega), if_neg (by decide), hloop]

theorem ext2Read_eio
    (hloop : fs.readLoop inode offset size buffer 0 (offset / fs.blockSize) (fs.endBlock offset size + 1 - offset / fs.blockSize) =
      (false, read, buffer')) :
    fs.ext2Read node offset size buffer = (-eio, node, buffer') := by
  rw [Ext2.ext2Read, hinode]
  dsimp only
  rw [hfile, hheap, if_neg (by decide), if_neg (by omega), if_neg (by decide), hloop]

end

theorem not_rejected {buffer buffer' : Mem} {node' : VfsNode} {read : Nat}
    (h : fs.ext2Read node offset size buffer = ((read : Int), node', buffer')) : ¬ Rejected fs node offset size buffer := by
  rintro ⟨ret, hret, heq⟩
  rw [h] at heq
  have := (Prod.mk.inj heq).1
  omega

/-- A range past the end is rejected, except where the sum of offset and size wraps around to a position inside the file: then the read
succeeds, or fails at the drive when the wrapped range lies in one block. -/
theorem ext2Read_rejected_iff (hinode : fs.readInode node.inode = some inode) (hfile : inodeFile inode = true)
    (hheap : fs.heapOk = true) (hoffset : offset < 2 ^ 32) (hsize : size < 2 ^ 64) (hpast : iSize inode < offset + size) (buffer : Mem) :
    Rejected fs node offset size buffer ↔ offset + size < 2 ^ 64 ∨ iSize inode < offset + size - 2 ^ 64 ∨
      ((offset + size - 2 ^ 64) / fs.blockSize = offset / fs.blockSize ∧
        fs.readable (fs.physical (fs.getRealBlock inode (offset / fs.blockSize))) = false) := by
  have hespipe : ∀ hcheck : iSize inode < (size + offset) % 2 ^ 64, Rejected fs node offset size buffer := fun hcheck =>
    ⟨-espipe, by decide, ext2Read_espipe hinode hfile hcheck buffer⟩
  rcases Nat.lt_or_ge (offset + size) (2 ^ 64) with hfits | hwraps
  · exact ⟨fun _ => Or.inl hfits, fun _ => hespipe (by omega)⟩
  rcases Nat.lt_or_ge (iSize inode) (offset + size - 2 ^ 64) with hbeyond | hinside
  · exact ⟨fun _ => Or.inr (Or.inl hbeyond), fun _ => hespipe (by omega)⟩
  -- the check passes
  have hcheck : (size + offset) % 2 ^ 64 ≤ iSize inode := by omega
  have hend : fs.endBlock offset size = (offset + size - 2 ^ 64) / fs.blockSize := by
    have hle := Nat.div_le_self (offset + size - 2 ^ 64) fs.blockSize
    rw [Ext2.endBlock, show (offset + size) % 2 ^ 64 = offset + size - 2 ^ 64 by omega, Nat.mod_eq_of_lt (by omega)]
  have hle : (offset + size - 2 ^ 64) / fs.blockSize ≤ offset / fs.blockSize := Nat.div_le_div_right (by omega)
  rcases Nat.lt_or_eq_of_le hle with hlt | heq
  · -- no round at all
    have hloop : fs.readLoop inode offset size buffer 0 (offset / fs.blockSize) (fs.endBlock offset size + 1 - offset / fs.blockSize) =
        (true, 0, buffer) := by
      rw [hend, show (offset + size - 2 ^ 64) / fs.blockSize + 1 - offset / fs.blockSize = 0 by omega]
      rfl
    refine ⟨fun h => absurd h (not_rejected (ext2Read_of_loop hinode hfile hheap hcheck hloop)), ?_⟩
    omega
  · -- one round, on the block of the offset
    have hfuel : fs.endBlock offset size + 1 - offset / fs.blockSize = 0 + 1 := by omega
    cases hread : fs.readable (fs.physical (fs.getRealBlock inode (offset / fs.blockSize))) with
    | false =>
      have hloop : fs.readLoop inode offset size buffer 0 (offset / fs.blockSize) (fs.endBlock offset size + 1 - offset / fs.blockSize) =
          (false, 0, buffer) := by
        rw [hfuel, Ext2.readLoop, Ext2.readInodeBlock, Ext2.readBlock, if_neg (by simp [hread])]
      exact ⟨fun _ => Or.inr (Or.inr ⟨heq, rfl⟩), fun _ => ⟨-eio, by decide, ext2Read_eio hinode hfile hheap hcheck hloop⟩⟩
    | true =>
      have hloop : ∃ read buffer', fs.readLoop inode offset size buffer 0 (offset / fs.blockSize)
          (fs.endBlock offset size + 1 - offset / fs.blockSize) = (true, read, buffer') := by
        rw [hfuel, Ext2.readLoop, readInodeBlock_readable hread]
        exact ⟨_, _, rfl⟩
      obtain ⟨read, buffer', hloop⟩ := hloop
      refine ⟨fun h => absurd h (not_rejected (ext2Read_of_loop hinode hfile hheap hcheck hloop)), ?_⟩
      rintro (h | h | ⟨-, h⟩)
      · omega
      · omega
      · cases h

/-- Five bytes of a file that has four. -/
theorem ext2Read_rejected_small : Rejected smallFs smallFile 0 5 fun _ => 0xFF :=
  (ext2Read_rejected_iff smallFile_inode (by decide) rfl (by decide) (by decide) (by decide) _).mpr (Or.inl (by decide))

/-- A read of `2 ^ 64 - 1` bytes from offset 2 on passes the check and counts `2 ^ 32 - 1` bytes, of a file that has four. -/
theorem wrapped_read_succeeds :
    iSize (smallFs.storedInode smallFile.inode) = 4 ∧ (smallFs.ext2Read smallFile 2 (2 ^ 64 - 1) fun _ => 0xFF).1 = 2 ^ 32 - 1 ∧
      ¬ Rejected smallFs smallFile 2 (2 ^ 64 - 1) fun _ => 0xFF := by
  have hret : (smallFs.ext2Read smallFile 2 (2 ^ 64 - 1) fun _ => 0xFF).1 = 2 ^ 32 - 1 := by decide
  refine ⟨by decide, hret, ?_⟩
  rintro ⟨ret, hneg, heq⟩
  rw [heq] at hret
  omega

end OmegaOS
