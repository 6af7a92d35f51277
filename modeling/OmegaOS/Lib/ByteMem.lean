import Mathlib.Algebra.Group.Nat.Defs
import Mathlib.Logic.Function.Basic

/-!
# Memory of bytes

Little-endian loads and stores of any width: a load reads back what was stored at its place, and a store does not matter to a
load elsewhere.
-/

namespace ByteMem

variable {a n x : Nat}

/-- A memory. -/
abbrev Mem := Nat → BitVec 8

/-- The value of the `n` bytes from an address on, the first byte the lowest. -/
def load (m : Mem) (a : Nat) : Nat → Nat
  | 0 => 0
  | n + 1 => (m a).toNat + 256 * load m (a + 1) n

/-- Write the low `n` bytes of a value from an address on. -/
def store (m : Mem) (a n v : Nat) : Mem := fun x => if a ≤ x ∧ x < a + n then BitVec.ofNat 8 (v / 256 ^ (x - a)) else m x

/-- Copy `n` bytes of `src` from `i` on to the address `a`. -/
def copy (m : Mem) (a : Nat) (src : Mem) (i n : Nat) : Mem := fun x => if a ≤ x ∧ x < a + n then src (i + (x - a)) else m x

theorem store_outside (m : Mem) (v : Nat) (h : x < a ∨ a + n ≤ x) : store m a n v x = m x := by
  rw [store, if_neg (by omega)]

theorem copy_inside (m : Mem) (src : Mem) (i : Nat) (hlo : a ≤ x) (hhi : x < a + n) :
    copy m a src i n x = src (i + (x - a)) := if_pos ⟨hlo, hhi⟩

theorem copy_outside (m : Mem) (src : Mem) (i : Nat) (h : x < a ∨ a + n ≤ x) : copy m a src i n x = m x := by
  rw [copy, if_neg (by omega)]

theorem load_congr (h : ∀ x, a ≤ x → x < a + n → m' x = m x) : load m' a n = load m a n := by
  induction n generalizing a with
  | zero => rfl
  | succ n ih =>
    rw [load, load, h a .refl (by omega), ih fun x hx hlt => h x (by omega) (by omega)]

/-- A load in a part of the memory. -/
theorem load_shift (m : Mem) (a b n : Nat) : load (fun x => m (a + x)) b n = load m (a + b) n := by
  induction n generalizing b with
  | zero => rfl
  | succ n ih => rw [load, load, ih, add_assoc]

/-- Loads of the same value start with the same byte. -/
theorem byte_eq_of_load_eq (h : load m a (n + 1) = load m' b (n + 1)) : m a = m' b := by
  rw [load, load] at h
  exact BitVec.eq_of_toNat_eq (by omega)

theorem load_lt (m : Mem) (a n : Nat) : load m a n < 256 ^ n := by
  induction n generalizing a with
  | zero => exact Nat.one_pos
  | succ n ih =>
    have hb := (m a).isLt
    have := ih (a + 1)
    rw [load, Nat.pow_succ]
    omega

theorem load_store_disjoint (m : Mem) (v : Nat) (h : a + n ≤ b ∨ b + k ≤ a) : load (store m a n v) b k = load m b k := by
  refine load_congr fun x hx hlt => store_outside m v ?_
  omega

/-- Any part of what was stored. -/
theorem load_store_part (m : Mem) (a n v : Nat) (h : i + k ≤ n) : load (store m a n v) (a + i) k = v / 256 ^ i % 256 ^ k := by
  induction k generalizing i with
  | zero => simp [load, Nat.mod_one]
  | succ k ih =>
    have hbyte : (store m a n v (a + i)).toNat = v / 256 ^ i % 256 := by
      have hin : a ≤ a + i ∧ a + i < a + n := by omega
      rw [store, if_pos hin, BitVec.toNat_ofNat, Nat.add_sub_cancel_left]
    have hrest : v / 256 ^ (i + 1) = v / 256 ^ i / 256 := by rw [Nat.pow_succ, Nat.div_div_eq_div_mul]
    rw [load, hbyte, add_assoc, ih (by omega), hrest, Nat.pow_succ, mul_comm (256 ^ k) 256]
    exact (Nat.mod_mul ..).symm

theorem load_store_same (m : Mem) (a n : Nat) (h : v < 256 ^ n) : load (store m a n v) a n = v := by
  have hpart := load_store_part m a n v (i := 0) (k := n) (by omega)
  rw [add_zero, Nat.pow_zero, Nat.div_one] at hpart
  rw [hpart, Nat.mod_eq_of_lt h]

end ByteMem
