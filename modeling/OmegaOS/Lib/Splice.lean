import Mathlib.Algebra.Group.Nat.Defs

/-!
# A range cut into blocks

The range `[offset, offset + n)` of a sequence is replaced by the items of a buffer, block by block: a first block from inside it, whole
blocks, and the head of a last one.
-/

namespace Splice

variable {α : Type*} (old buffer : Nat → α) {size offset n b o x : Nat}

/-- The sequence `old` with the range replaced. -/
def splice (offset n x : Nat) : α := if offset ≤ x ∧ x < offset + n then buffer (x - offset) else old x

theorem splice_inside (hlo : offset ≤ x) (hhi : x < offset + n) : splice old buffer offset n x = buffer (x - offset) := if_pos ⟨hlo, hhi⟩

theorem splice_outside (h : x < offset ∨ offset + n ≤ x) : splice old buffer offset n x = old x := if_neg (by omega)

theorem splice_congr {old old' : Nat → α} (h : old x = old' x) : splice old buffer offset n x = splice old' buffer offset n x := by
  rw [splice, splice, h]

/-- How many items of the range lie before block `b`. -/
def before (size offset n b : Nat) : Nat := min n (b * size - offset)

/-- Where a position lies in its block. -/
theorem position (hsize : 0 < size) (x : Nat) : x / size * size + x % size = x ∧ x % size < size :=
  ⟨Nat.div_add_mod' x size, Nat.mod_lt x hsize⟩

/-- A block ends where the next one starts or before. -/
theorem block_end_le (h : b < c) : b * size + size ≤ c * size := by
  have := Nat.mul_le_mul_right size (show b + 1 ≤ c from h)
  rwa [Nat.add_mul, one_mul] at this

section

variable (hsize : 0 < size)

include hsize

theorem block_le (h : offset / size < b) : offset ≤ b * size := by
  obtain ⟨heq, hlt⟩ := position hsize offset
  have : offset / size * size + size ≤ b * size := block_end_le h
  omega

theorem before_start : before size offset n (offset / size) = 0 := by
  obtain ⟨heq, -⟩ := position hsize offset
  unfold before
  omega

theorem before_all (h : (offset + n) / size < b) : before size offset n b = n := by
  have := block_le hsize h
  unfold before
  omega

/-! ## The first block -/

theorem before_first : before size offset n (offset / size + 1) = min n (size - offset % size) := by
  obtain ⟨heq, hlt⟩ := position hsize offset
  rw [before, Nat.add_mul, one_mul]
  omega

theorem splice_first (ho : o < size) : splice old buffer offset n (offset / size * size + o) =
      if offset % size ≤ o ∧ o < offset % size + min n (size - offset % size) then buffer (o - offset % size)
      else old (offset / size * size + o) := by
  obtain ⟨heq, hlt⟩ := position hsize offset
  by_cases h : offset % size ≤ o ∧ o < offset % size + min n (size - offset % size)
  · rw [if_pos h, splice_inside _ _ (by omega) (by omega)]
    congr 1
    omega
  · rw [if_neg h, splice_outside _ _ (by omega)]

/-! ## The blocks behind it -/

theorem before_later (hstart : offset / size < b) (hend : b ≤ (offset + n) / size) : before size offset n b = b * size - offset := by
  have hlo := block_le hsize hstart
  have hhi := Nat.le_trans (Nat.mul_le_mul_right size hend) (Nat.div_mul_le_self _ _)
  unfold before
  omega

theorem splice_middle (hstart : offset / size < b) (hend : b < (offset + n) / size) (ho : o < size) :
    splice old buffer offset n (b * size + o) = buffer (before size offset n b + o) := by
  have hlo := block_le hsize hstart
  have hnext := Nat.le_trans (block_end_le hend) (Nat.div_mul_le_self (offset + n) size)
  rw [splice_inside _ _ (by omega) (by omega), before_later hsize hstart (by omega)]
  congr 1
  omega

theorem splice_last (hstart : offset / size < (offset + n) / size) (o : Nat) : splice old buffer offset n ((offset + n) / size * size + o) =
      if o < (offset + n) % size then buffer (before size offset n ((offset + n) / size) + o)
      else old ((offset + n) / size * size + o) := by
  have hlo := block_le hsize hstart
  obtain ⟨heq, -⟩ := position hsize (offset + n)
  by_cases h : o < (offset + n) % size
  · rw [if_pos h, splice_inside _ _ (by omega) (by omega), before_later hsize hstart .refl]
    congr 1
    omega
  · rw [if_neg h, splice_outside _ _ (by omega)]

end

/-- A position in a block behind the range is behind the range. -/
theorem splice_behind (h : (offset + n) / size < x / size) : splice old buffer offset n x = old x := by
  refine splice_outside _ _ (Or.inr (Nat.le_of_not_lt fun hlt => ?_))
  have := Nat.div_le_div_right (c := size) (Nat.le_of_lt hlt)
  omega

end Splice
