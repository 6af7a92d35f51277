import OmegaOS.Lib.ByteMem

/-!
# Strings that end at a zero byte

Strings are lists of bytes other than zero. In a memory a string lies at an address when its bytes do, with a zero byte behind the last
one.
-/

namespace CStr

open ByteMem List Function

variable {a n x : Nat} {m m' : Mem} {s t : Str}

/-- A string without its terminator. -/
abbrev Str := List (BitVec 8)

/-- No byte of the string is the terminator. -/
def NoNul (s : Str) : Prop := ∀ c ∈ s, c ≠ 0

instance (s : Str) : Decidable (NoNul s) := inferInstanceAs (Decidable (∀ c ∈ s, c ≠ 0))

/-- Whether the string at an address is `s`, byte by byte. -/
def strEq (m : Mem) (a : Nat) : Str → Bool
  | [] => m a == 0
  | c :: s => m a == c && strEq m (a + 1) s

/-- The string at an address, of which at most `n` bytes are read. -/
def strAt (m : Mem) (a : Nat) : Nat → Str
  | 0 => []
  | n + 1 => if m a = 0 then [] else m a :: strAt m (a + 1) n

/-- Copy a string and its terminator to an address. -/
def strcpy (m : Mem) (a : Nat) (s : Str) : Mem := fun x => if a ≤ x ∧ x ≤ a + s.length then s.getD (x - a) 0 else m x

theorem strcpy_outside (m : Mem) (s : Str) (h : x < a ∨ a + s.length < x) : strcpy m a s x = m x := by
  rw [strcpy, if_neg (by omega)]

theorem strcpy_inside (m : Mem) (a : Nat) (s : Str) (h : i ≤ s.length) : strcpy m a s (a + i) = s.getD i 0 := by
  rw [strcpy, if_pos (by omega), Nat.add_sub_cancel_left]

theorem NoNul.tail (h : NoNul (c :: s)) : NoNul s := fun x hx => h x (.tail c hx)

/-- The string at an address is what the comparison says, when there is a terminator among the bytes read. -/
theorem strEq_iff (hn : m (a + n) = 0) (hs : NoNul s) : strEq m a s = true ↔ strAt m a n = s := by
  induction n generalizing a s with
  | zero =>
    rw [add_zero] at hn
    cases s with
    | nil => simp [strEq, strAt, hn]
    | cons c s =>
      have hc : ¬ m a = c := by rw [hn]; exact (hs c mem_cons_self).symm
      simp [strEq, strAt, hc]
  | succ n ih =>
    have hrest : m (a + 1 + n) = 0 := by rwa [add_assoc, add_comm 1 n]
    cases s with
    | nil => simp [strEq, strAt]
    | cons c s =>
      have hc : c ≠ 0 := hs c mem_cons_self
      rw [strEq, strAt, Bool.and_eq_true, beq_iff_eq, ih hrest hs.tail]
      by_cases hzero : m a = 0
      · rw [if_pos hzero]
        exact ⟨fun h => absurd (h.1.symm.trans hzero) hc, fun h => by cases h⟩
      · rw [if_neg hzero, cons_eq_cons]

theorem strAt_congr (h : ∀ x, a ≤ x → x < a + n → m' x = m x) : strAt m' a n = strAt m a n := by
  induction n generalizing a with
  | zero => rfl
  | succ n ih =>
    rw [strAt, strAt, h a .refl (by omega), ih fun x hx hlt => h x (by omega) (by omega)]

/-- A string that lies in the memory is read back. -/
theorem strAt_eq (hs : NoNul s) (hlen : s.length ≤ n) (h : ∀ i, i ≤ s.length → m (a + i) = s.getD i 0) : strAt m a n = s := by
  induction s generalizing a n with
  | nil =>
    cases n with
    | zero => rfl
    | succ n =>
      have h0 : m a = 0 := h 0 .refl
      rw [strAt, if_pos h0]
  | cons c s ih =>
    obtain ⟨n, rfl⟩ := Nat.exists_eq_add_of_le' (show 1 ≤ n by rw [length_cons] at hlen; omega)
    have h0 := h 0 (Nat.zero_le _)
    rw [add_zero, getD_cons_zero] at h0
    have hrest : strAt m (a + 1) n = s := by
      refine ih hs.tail (by rw [length_cons] at hlen; omega) fun i hi => ?_
      have hi' := h (i + 1) (by rw [length_cons]; omega)
      rw [getD_cons_succ] at hi'
      rw [← hi']
      congr 1
      omega
    rw [strAt, h0, if_neg (hs c mem_cons_self), hrest]

theorem strAt_noNul (m : Mem) (a n : Nat) : NoNul (strAt m a n) := by
  induction n generalizing a with
  | zero => exact fun c hc => by cases hc
  | succ n ih =>
    rw [strAt]
    split
    · exact fun c hc => by cases hc
    · rintro c hc
      rcases mem_cons.mp hc with rfl | hc
      · assumption
      · exact ih (a + 1) c hc

/-- Bytes behind the terminator are not part of the string. -/
theorem strAt_of_terminated (hn : m (a + n) = 0) (hk : n ≤ k) : strAt m a k = strAt m a n := by
  induction n generalizing a k with
  | zero =>
    rw [add_zero] at hn
    cases k with
    | zero => rfl
    | succ k => simp [strAt, hn]
  | succ n ih =>
    obtain ⟨k, rfl⟩ := Nat.exists_eq_add_of_le' (show 1 ≤ k by omega)
    rw [strAt, strAt, ih (by rwa [Nat.add_right_comm]) (by omega)]

/-- A string read in a part of the memory. -/
theorem strAt_shift (m : Mem) (a b n : Nat) : strAt (fun x => m (a + x)) b n = strAt m (a + b) n := by
  induction n generalizing b with
  | zero => rfl
  | succ n ih => rw [strAt, strAt, ih, add_assoc]

/-- The string lies at an address, with its terminator. -/
def HoldsStr (m : Mem) (a : Nat) : Str → Prop
  | [] => m a = 0
  | c :: s => m a = c ∧ HoldsStr m (a + 1) s

theorem HoldsStr.strAt (h : HoldsStr m a s) (hs : NoNul s) (hn : s.length ≤ n) : strAt m a n = s := by
  induction s generalizing a n with
  | nil =>
    cases n with
    | zero => rfl
    | succ n => exact if_pos h
  | cons c s ih =>
    obtain ⟨n, rfl⟩ := Nat.exists_eq_add_of_le' (show 1 ≤ n by rw [length_cons] at hn; omega)
    rw [length_cons] at hn
    rw [CStr.strAt, h.1, if_neg (hs c mem_cons_self), ih h.2 hs.tail (by omega)]

theorem HoldsStr.congr (h : HoldsStr m a s) (heq : ∀ x, a ≤ x → x ≤ a + s.length → m' x = m x) : HoldsStr m' a s := by
  induction s generalizing a with
  | nil => exact (heq a .refl (by omega)).trans h
  | cons c s ih =>
    rw [length_cons] at heq
    exact ⟨(heq a .refl (by omega)).trans h.1, ih h.2 fun x hx hlt => heq x (by omega) (by omega)⟩

theorem holds_strcpy (m : Mem) (a : Nat) (s : Str) : HoldsStr (strcpy m a s) a s := by
  induction s generalizing m a with
  | nil => exact strcpy_inside m a [] .refl
  | cons c s ih =>
    refine ⟨strcpy_inside m a (c :: s) (Nat.zero_le _), (ih m (a + 1)).congr fun x hlo hhi => ?_⟩
    obtain ⟨i, rfl⟩ := Nat.exists_eq_add_of_le hlo
    rw [add_assoc, strcpy_inside m a (c :: s) (by rw [length_cons]; omega), ← add_assoc, strcpy_inside m (a + 1) s (by omega),
      add_comm 1 i, getD_cons_succ]

theorem HoldsStr.drop (h : HoldsStr m a (s ++ t)) : HoldsStr m (a + s.length) t := by
  induction s generalizing a with
  | nil => exact h
  | cons c s ih =>
    rw [length_cons, add_comm s.length 1, ← add_assoc]
    exact ih h.2

theorem HoldsStr.end_eq_zero (h : HoldsStr m a s) : m (a + s.length) = 0 := by
  rw [← append_nil s] at h
  exact h.drop

/-- A string in memory has no terminator before its end. -/
theorem HoldsStr.byte_ne_zero (h : HoldsStr m a s) (hs : NoNul s) (hi : i < s.length) : m (a + i) ≠ 0 := by
  induction s generalizing a i with
  | nil => cases hi
  | cons c s ih =>
    cases i with
    | zero =>
      rw [add_zero, h.1]
      exact hs c mem_cons_self
    | succ i =>
      rw [add_comm i 1, ← add_assoc]
      exact ih h.2 hs.tail (Nat.lt_of_succ_lt_succ hi)

/-- A string behind the bytes of another. -/
theorem HoldsStr.append (h : HoldsStr m a s) (hsame : ∀ x, a ≤ x → x < a + s.length → m' x = m x)
    (ht : HoldsStr m' (a + s.length) t) : HoldsStr m' a (s ++ t) := by
  induction s generalizing a with
  | nil => exact ht
  | cons c s ih =>
    rw [length_cons] at hsame ht
    refine ⟨(hsame a .refl (by omega)).trans h.1, ih h.2 (fun x hlo hhi => hsame x (by omega) (by omega)) ?_⟩
    rwa [add_assoc, add_comm 1]

/-- A byte of a string overwritten by a terminator: two strings. -/
theorem HoldsStr.cut (h : HoldsStr m a (s ++ c :: t)) :
    HoldsStr (update m (a + s.length) 0) a s ∧ HoldsStr (update m (a + s.length) 0) (a + s.length + 1) t := by
  have hother : ∀ x, x ≠ a + s.length → update m (a + s.length) 0 x = m x := fun x hx => update_of_ne hx _ _
  refine ⟨?_, h.drop.2.congr fun x hlo _ => hother x (by omega)⟩
  induction s generalizing a with
  | nil => exact update_self _ _ _
  | cons d s ih =>
    rw [length_cons, add_comm s.length 1, ← add_assoc] at hother ⊢
    refine ⟨(hother a (by omega)).trans h.1, ih h.2 hother⟩

/-! ## Bytes that are read -/

/-- The bytes that copying the string at an address reads: those with no terminator before them. -/
def StrcpyReads (m : Mem) (a x : Nat) : Prop := a ≤ x ∧ ∀ y, a ≤ y → y < x → m y ≠ 0

/-- The bytes that comparing the string at an address with `s` reads: those with no difference before them. -/
def StrcmpReads (m : Mem) (a : Nat) (s : Str) (x : Nat) : Prop := a ≤ x ∧ x ≤ a + s.length ∧ ∀ y, a ≤ y → y < x → m y = s.getD (y - a) 0

theorem StrcpyReads.le_of_terminated {t : Nat} (h : StrcpyReads m a x) (hat : a ≤ t) (ht : m t = 0) : x ≤ t := by
  by_contra hlt
  exact h.2 t hat (by omega) ht

theorem StrcmpReads.le_of_terminated {t : Nat} (h : StrcmpReads m a s x) (hs : NoNul s) (hat : a ≤ t) (ht : m t = 0) : x ≤ t := by
  by_contra hlt
  obtain ⟨-, hx, hsame⟩ := h
  have hin : t - a < s.length := by omega
  have hbyte := hsame t hat (by omega)
  rw [ht, getD_eq_getElem?_getD, getElem?_eq_getElem hin, Option.getD_some] at hbyte
  exact hs _ (getElem_mem hin) hbyte.symm

end CStr
