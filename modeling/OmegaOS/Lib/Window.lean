import Mathlib.Data.List.Basic

/-!
# The first window of a list

A scan for `n` consecutive elements of a list that all satisfy a predicate, with the length of the current run as its only
state, finds the first such window.
-/

namespace Window

variable {k n pos run : Nat} {l : List Nat}

variable {α : Type*} (p : α → Bool)

/-- The element at a position, when there is one, satisfies the predicate. -/
def Good (l : List α) (i : Nat) : Prop := ∀ x, l[i]? = some x → p x = true

/-- The `n` elements from position `k` on are there and satisfy the predicate. -/
def At (n : Nat) (l : List α) (k : Nat) : Prop := k + n ≤ l.length ∧ ∀ j < n, Good p l (k + j)

/-- ... and they are the first such elements. -/
def FirstAt (n : Nat) (l : List α) (k : Nat) : Prop := At p n l k ∧ ∀ k' < k, ¬ At p n l k'

/-- The scan of a list from position `pos` on, with the last `run` elements before it in the predicate. -/
def scan (n : Nat) : List α → Nat → Nat → Option Nat
  | [], _, _ => none
  | x :: l, pos, run =>
    if p x then
      if run + 1 = n then some (pos + 1 - n) else scan n l (pos + 1) (run + 1)
    else scan n l (pos + 1) 0

variable {p}

/-- There is one first window. -/
theorem FirstAt.unique {l : List α} {k' : Nat} (h : FirstAt p n l k) (h' : FirstAt p n l k') : k = k' := by
  have hle : k ≤ k' := Nat.le_of_not_lt fun hlt => h.2 k' hlt h'.1
  have hge : k' ≤ k := Nat.le_of_not_lt fun hlt => h'.2 k hlt h.1
  exact Nat.le_antisymm hle hge

/-- What the scan knows at a position: the current run, that it cannot be extended to the left, and that no window has ended. -/
structure Scanned (p : α → Bool) (n : Nat) (l : List α) (pos run : Nat) : Prop where
  short : run < n
  inside : run ≤ pos
  good : ∀ i, pos - run ≤ i → i < pos → Good p l i
  maximal : run < pos → ¬ Good p l (pos - run - 1)
  noWindow : ∀ k, k + n ≤ pos → ¬ At p n l k

/-- Nothing is known at the start. -/
theorem scanned_zero (hn : 0 < n) (l : List α) : Scanned p n l 0 0 := by
  refine ⟨hn, .refl, ?_, ?_, ?_⟩
  · intro i _ hi
    omega
  · intro h
    omega
  · intro k hk
    omega

/-- An element in the predicate extends a run that is not long enough yet. -/
theorem Scanned.extend {l : List α} (h : Scanned p n l pos run) (hx : Good p l pos)
    (hrun : run + 1 < n) : Scanned p n l (pos + 1) (run + 1) := by
  have hin := h.inside
  refine ⟨hrun, by omega, ?_, ?_, ?_⟩
  · intro i hi hlt
    by_cases hip : i = pos
    · rwa [hip]
    · exact h.good i (by omega) (by omega)
  · intro hlt
    have heq : pos + 1 - (run + 1) - 1 = pos - run - 1 := by omega
    rw [heq]
    exact h.maximal (by omega)
  · intro k hk hat
    by_cases hend : k + n ≤ pos
    · exact h.noWindow k hend hat
    · -- the window would contain the element before the run
      refine h.maximal (by omega) ?_
      have heq : pos - run - 1 = k + (pos - run - 1 - k) := by omega
      rw [heq]
      exact hat.2 _ (by omega)

/-- An element outside the predicate ends the run. -/
theorem Scanned.reset {l : List α} (h : Scanned p n l pos run) (hx : ¬ Good p l pos) : Scanned p n l (pos + 1) 0 := by
  have hs := h.short
  refine ⟨by omega, by omega, ?_, ?_, ?_⟩
  · intro i hi hlt
    omega
  · intro _
    exact hx
  · intro k hk hat
    by_cases hend : k + n ≤ pos
    · exact h.noWindow k hend hat
    · refine hx ?_
      have heq : pos = k + (n - 1) := by omega
      rw [heq]
      exact hat.2 _ (by omega)

/-- The run that reaches length `n` is the first window. -/
theorem Scanned.firstAt {l : List α} (h : Scanned p n l pos run) (hx : Good p l pos)
    (hlt : pos < l.length) (hrun : run + 1 = n) : FirstAt p n l (pos + 1 - n) := by
  have hin := h.inside
  refine ⟨⟨by omega, fun j hj => ?_⟩, fun k hk => h.noWindow k (by omega)⟩
  by_cases hjr : j = run
  · have heq : pos + 1 - n + j = pos := by omega
    rwa [heq]
  · exact h.good _ (by omega) (by omega)

/-- The scan from what is known finds the first window, or says that there is none. -/
theorem scan_spec {l : List α} (rest : List α) (h : Scanned p n l pos run) (hrest : l.drop pos = rest) :
    (∀ k, scan p n rest pos run = some k → FirstAt p n l k) ∧ (scan p n rest pos run = none → ∀ k, ¬ At p n l k) := by
  induction rest generalizing pos run with
  | nil =>
    refine ⟨fun k hk => (by cases hk), fun _ k hat => ?_⟩
    have hlen : l.length ≤ pos := List.drop_eq_nil_iff.mp hrest
    exact h.noWindow k (Nat.le_trans hat.1 hlen) hat
  | cons x rest ih =>
    have hx : l[pos]? = some x := by rw [← List.head?_drop, hrest]; rfl
    have hlt : pos < l.length := (List.getElem?_eq_some_iff.mp hx).1
    have hnext : l.drop (pos + 1) = rest := by rw [← List.drop_drop, hrest]; rfl
    have hgood : Good p l pos ↔ p x = true := by
      constructor
      · exact fun hg => hg x hx
      · intro hp y hy
        rw [hx] at hy
        cases hy
        exact hp
    unfold scan
    by_cases hp : p x = true
    · rw [if_pos hp]
      by_cases hrun : run + 1 = n
      · rw [if_pos hrun]
        refine ⟨fun k hk => ?_, fun hk => (by cases hk)⟩
        cases hk
        exact h.firstAt (hgood.mpr hp) hlt hrun
      · rw [if_neg hrun]
        have hs := h.short
        exact ih (h.extend (hgood.mpr hp) (by omega)) hnext
    · rw [if_neg hp]
      exact ih (h.reset fun hg => hp (hgood.mp hg)) hnext

/-! ## Windows of consecutive numbers -/

/-- In an increasing list, `d` positions are at least `d` apart. -/
theorem add_le_of_increasing (h : l.Pairwise (· < ·)) {i d x y : Nat} (hx : l[i]? = some x) (hy : l[i + d]? = some y) : x + d ≤ y := by
  induction d generalizing y with
  | zero =>
    rw [Nat.add_zero, hx] at hy
    cases hy
    exact Nat.le_refl x
  | succ d ih =>
    have hlt : i + (d + 1) < l.length := (List.getElem?_eq_some_iff.mp hy).1
    obtain ⟨z, hz⟩ : ∃ z, l[i + d]? = some z := ⟨_, List.getElem?_eq_getElem (by omega)⟩
    have hzy : z < y := by
      obtain ⟨hi, rfl⟩ := List.getElem?_eq_some_iff.mp hz
      obtain ⟨hj, rfl⟩ := List.getElem?_eq_some_iff.mp hy
      exact List.pairwise_iff_getElem.mp h _ _ hi hj (by omega)
    have := ih hz
    omega

/-- Positions that are exactly as far apart as their numbers hold consecutive numbers. -/
theorem getElem?_of_consecutive (h : l.Pairwise (· < ·)) {a j : Nat} (hk : l[k]? = some a)
    (hn : l[k + n]? = some (a + n)) (hj : j ≤ n) : l[k + j]? = some (a + j) := by
  have hlt : k + n < l.length := (List.getElem?_eq_some_iff.mp hn).1
  obtain ⟨z, hz⟩ : ∃ z, l[k + j]? = some z := ⟨_, List.getElem?_eq_getElem (by omega)⟩
  have hlow := add_le_of_increasing h hk hz
  have hsplit : k + n = k + j + (n - j) := by omega
  rw [hsplit] at hn
  have hhigh := add_le_of_increasing h hz hn
  have heq : z = a + j := by omega
  rw [hz, heq]

/-- Consecutive numbers of an increasing list are at consecutive positions. -/
theorem getElem?_of_mem_consecutive (h : l.Pairwise (· < ·)) {a : Nat} (hk : l[k]? = some a)
    (hmem : ∀ j ≤ n, a + j ∈ l) : l[k + n]? = some (a + n) := by
  induction n with
  | zero => exact hk
  | succ n ih =>
    have hn := ih fun j hj => hmem j (by omega)
    obtain ⟨m, hm⟩ := List.getElem?_of_mem (hmem (n + 1) .refl)
    have hle : k + n + 1 ≤ m := by
      by_contra hlt
      have hsplit : k + n = m + (k + n - m) := by omega
      rw [hsplit] at hn
      have := add_le_of_increasing h hm hn
      omega
    have hlt : m < l.length := (List.getElem?_eq_some_iff.mp hm).1
    obtain ⟨z, hz⟩ : ∃ z, l[k + n + 1]? = some z := ⟨_, List.getElem?_eq_getElem (by omega)⟩
    have hlow := add_le_of_increasing h hn hz
    have hsplit : m = k + n + 1 + (m - (k + n + 1)) := by omega
    rw [hsplit] at hm
    have hhigh := add_le_of_increasing h hz hm
    have heq : z = a + (n + 1) := by omega
    rw [← Nat.add_assoc, hz, heq]

end Window
