import Mathlib.Data.List.Basic
import Mathlib.Data.List.Infix
import Mathlib.Data.Set.Insert

/-!
# Radix trees in a store

A store of tables is a function `next` from a table and an index to what the entry holds. A tree of depth `d` is a root: the
paths of fewer than `d` indices lead to its tables, those of `d` indices to its values. In a tree whose tables are distinct,
changing one entry changes the value of one path. Several trees may share tables, as long as a shared table is found on one path.
-/

namespace Radix

open List

variable {α ι : Type*}

/-- What a path of indices leads to. -/
def walk (next : α → ι → Option α) (root : α) (path : List ι) : Option α := path.foldlM next root

/-- A table of the tree. -/
def IsTable (next : α → ι → Option α) (root : α) (d : Nat) (t : α) : Prop :=
  ∃ p : List ι, p.length < d ∧ walk next root p = some t

/-- No two paths lead to one table. -/
def Distinct (next : α → ι → Option α) (root : α) (d : Nat) : Prop :=
  ∀ p q : List ι, ∀ t, p.length < d → q.length < d → walk next root p = some t → walk next root q = some t → p = q

/-- A table is found on one path only, from whichever root. -/
def Coherent (next : α → ι → Option α) (roots : Set α) (d : Nat) : Prop :=
  ∀ r ∈ roots, ∀ s ∈ roots, ∀ p q : List ι, ∀ t, p.length < d → q.length < d → walk next r p = some t → walk next s q = some t →
    p = q

/-- A table of one of the trees. -/
def IsTableOf (next : α → ι → Option α) (roots : Set α) (d : Nat) (t : α) : Prop := ∃ r ∈ roots, IsTable next r d t

section

variable (next : α → ι → Option α) (root : α)

include next root

theorem coherent_singleton (d : Nat) : Coherent next {root} d ↔ Distinct next root d := by
  simp [Coherent, Distinct]

theorem isTableOf_singleton (d : Nat) (t : α) : IsTableOf next {root} d t ↔ IsTable next root d t := by
  simp [IsTableOf]

@[simp] theorem walk_nil : walk next root [] = some root := rfl

@[simp] theorem walk_cons (i : ι) (p : List ι) : walk next root (i :: p) = (next root i).bind fun t => walk next t p := rfl

theorem walk_append (p q : List ι) : walk next root (p ++ q) = (walk next root p).bind fun t => walk next t q := by
  induction p generalizing root with
  | nil => rfl
  | cons i p ih =>
    rw [cons_append, walk_cons, walk_cons]
    cases next root i with
    | none => rfl
    | some t => exact ih t

theorem walk_snoc (p : List ι) (i : ι) : walk next root (p ++ [i]) = (walk next root p).bind fun t => next t i := by
  rw [walk_append]
  cases walk next root p with
  | none => rfl
  | some t => cases h : next t i <;> simp [h]

end

variable {next next' : α → ι → Option α} {roots : Set α} {root a : α} {d : Nat} {π : List ι} {i : ι}

/-- A walk is a walk to any place on the way. -/
theorem walk_of_initial (hpq : p <+: q) (h : walk next root q = some t) : ∃ s, walk next root p = some s := by
  obtain ⟨r, rfl⟩ := hpq
  rw [walk_append] at h
  cases hp : walk next root p with
  | none =>
    simp [hp] at h
  | some s => exact ⟨s, rfl⟩

/-- A path that leads nowhere leads nowhere further on. -/
theorem walk_none_of_initial (hpq : p <+: q) (h : walk next root p = none) : walk next root q = none := by
  cases hq : walk next root q with
  | none => rfl
  | some t =>
    obtain ⟨s, hs⟩ := walk_of_initial hpq hq
    simp [h] at hs

theorem not_snoc_prefix_self (π : List ι) (i : ι) : ¬ π ++ [i] <+: π := by
  intro h
  have := h.length_le
  rw [length_append, length_singleton] at this
  omega

section

variable (hco : Coherent next roots d) (hroot : root ∈ roots) (hπ : walk next root π = some a)
  (hsame : ∀ t j, IsTableOf next roots d t → ¬ (t = a ∧ j = i) → next' t j = next t j)
include hco hroot hπ hsame

/-- A change of one entry of a table does not matter to a path that does not pass through the entry. -/
theorem walk_of_not_through (hlen : π.length < d) (hs : s ∈ roots) (p : List ι) (hp : p.length ≤ d)
    (hnot : ¬ (π ++ [i] <+: p ∧ walk next s π = some a)) : walk next' s p = walk next s p := by
  induction p using reverseRecOn with
  | nil => rfl
  | append_singleton p j ih =>
    have hpd : p.length < d := by
      rw [length_append, length_singleton] at hp
      omega
    have hp' := ih (by omega) fun h => hnot ⟨h.1.trans (prefix_append p [j]), h.2⟩
    rw [walk_snoc, walk_snoc, hp']
    cases ht : walk next s p with
    | none => rfl
    | some t =>
      refine hsame t j ⟨s, hs, p, hpd, ht⟩ ?_
      rintro ⟨rfl, rfl⟩
      obtain rfl := hco s hs root hroot p π t hpd hlen ht hπ
      exact hnot ⟨prefix_refl _, ht⟩

/-- The way to the changed entry is as before. -/
theorem walk_to_entry (hlen : π.length < d) (hs : s ∈ roots) : walk next' s π = walk next s π :=
  walk_of_not_through hco hroot hπ hsame hlen hs π (by omega) fun h => not_snoc_prefix_self π i h.1

/-- Changing an entry of a last-level table changes the value of one path, for the roots that share the table, and no table. -/
theorem walk_set_value (hlen : π.length + 1 = d) (hs : s ∈ roots) : (∀ p : List ι, p.length < d → walk next' s p = walk next s p) ∧
      (walk next s π = some a → walk next' s (π ++ [i]) = next' a i) ∧
      ∀ p : List ι, p.length = d → (p ≠ π ++ [i] ∨ walk next s π ≠ some a) → walk next' s p = walk next s p := by
  have hlt : π.length < d := by omega
  refine ⟨fun p hp => ?_, fun hsπ => ?_, fun p hp hne => ?_⟩
  · refine walk_of_not_through hco hroot hπ hsame hlt hs p (by omega) fun h => ?_
    have := h.1.length_le
    rw [length_append, length_singleton] at this
    omega
  · rw [walk_snoc, walk_to_entry hco hroot hπ hsame hlt hs, hsπ]
    rfl
  · refine walk_of_not_through hco hroot hπ hsame hlt hs p (by omega) fun h => ?_
    rcases hne with hne | hne
    · refine hne (h.1.eq_of_length ?_).symm
      rw [length_append, length_singleton]
      omega
    · exact hne h.2

end

/-- Tables that keep their walks stay coherent. -/
theorem Coherent.congr (hco : Coherent next roots d)
    (h : ∀ r ∈ roots, ∀ p : List ι, p.length < d → walk next' r p = walk next r p) : Coherent next' roots d := by
  intro r hr s hs p q t hp hq hpt hqt
  rw [h r hr p hp] at hpt
  rw [h s hs q hq] at hqt
  exact hco r hr s hs p q t hp hq hpt hqt

section

variable {b : α} (hco : Coherent next roots d) (hroot : root ∈ roots) (hπ : walk next root π = some a) (hlen : π.length + 1 < d)
  (hsame : ∀ t j, IsTableOf next roots d t → ¬ (t = a ∧ j = i) → next' t j = next t j) (hempty : next a i = none)
  (hset : next' a i = some b) (hb : ∀ j, next' b j = none)
include hco hroot hπ hlen hsame hempty hset hb

/-- Hanging a new, empty table in an empty entry adds one table, for the roots that share the entry, and changes nothing else: not the
other tables, not the values. -/
theorem walk_new_table (hs : s ∈ roots) : (walk next s π = some a → walk next' s (π ++ [i]) = some b) ∧
      ∀ p : List ι, p.length ≤ d → (p ≠ π ++ [i] ∨ walk next s π ≠ some a) → walk next' s p = walk next s p := by
  have hlt : π.length < d := by omega
  have hnew : walk next s π = some a → walk next' s (π ++ [i]) = some b := by
    intro hsπ
    rwa [walk_snoc, walk_to_entry hco hroot hπ hsame hlt hs, hsπ]
  refine ⟨hnew, fun p hp hne => ?_⟩
  by_cases hthrough : π ++ [i] <+: p ∧ walk next s π = some a
  · -- below the new table there is nothing, as there was nothing below the empty entry
    obtain ⟨⟨r, rfl⟩, hsπ⟩ := hthrough
    rw [walk_append, hnew hsπ, walk_append, walk_snoc, hsπ]
    cases r with
    | nil => exact absurd (append_nil _) (hne.resolve_right fun h => h hsπ)
    | cons j r => simp [hb, hempty]
  · exact walk_of_not_through hco hroot hπ hsame hlt hs p hp hthrough

/-- A new table that was no table leaves the tables coherent. -/
theorem Coherent.new_table (hfresh : ¬ IsTableOf next roots d b) : Coherent next' roots d := by
  -- the new table is found on the one path that was added
  have hold : ∀ s ∈ roots, ∀ p : List ι, p.length < d → walk next' s p = some b → p = π ++ [i] := by
    intro s hs p hp he
    by_contra hne
    rw [(walk_new_table hco hroot hπ hlen hsame hempty hset hb hs).2 p (by omega) (.inl hne)] at he
    exact hfresh ⟨s, hs, p, hp, he⟩
  have hkeep : ∀ s ∈ roots, ∀ p : List ι, ∀ t, p.length < d → t ≠ b → walk next' s p = some t → walk next s p = some t := by
    intro s hs p t hp hne he
    obtain ⟨hnew, hother⟩ := walk_new_table hco hroot hπ hlen hsame hempty hset hb hs
    by_cases hcase : p ≠ π ++ [i] ∨ walk next s π ≠ some a
    · rwa [hother p (by omega) hcase] at he
    · obtain ⟨rfl, hsπ⟩ := not_or.mp hcase |>.imp not_not.mp not_not.mp
      rw [hnew hsπ] at he
      exact absurd (Option.some.inj he).symm hne
  intro r hr s hs p q t hp hq hpt hqt
  by_cases htb : t = b
  · subst htb
    rw [hold r hr p hp hpt, hold s hs q hq hqt]
  · exact hco r hr s hs p q t hp hq (hkeep r hr p t hp htb hpt) (hkeep s hs q t hq htb hqt)

end

section

variable {b parent : α} (hparent : parent ∈ roots) (hfresh : ¬ IsTableOf next roots d b)
  (hcopy : ∀ j, next' b j = next parent j) (hsame : ∀ t j, t ≠ b → next' t j = next t j)
include hfresh hsame

/-- A copy of a root does not matter to the trees that were there. -/
theorem walk_copy_root (hs : s ∈ roots) (p : List ι) (hp : p.length ≤ d) : walk next' s p = walk next s p := by
  induction p using reverseRecOn with
  | nil => rfl
  | append_singleton p j ih =>
    rw [length_append, length_singleton] at hp
    rw [walk_snoc, walk_snoc, ih (by omega)]
    cases ht : walk next s p with
    | none => rfl
    | some t =>
      refine hsame t j ?_
      rintro rfl
      exact hfresh ⟨s, hs, p, by omega, ht⟩

include hparent hcopy

/-- The copy leads where the root leads. -/
theorem walk_copy (hd : 0 < d) (p : List ι) (hp : p.length ≤ d) (hne : p ≠ []) : walk next' b p = walk next parent p := by
  obtain ⟨j, p, rfl⟩ := exists_cons_of_ne_nil hne
  have hpb : parent ≠ b := by
    rintro rfl
    exact hfresh ⟨parent, hparent, [], hd, rfl⟩
  have hw := walk_copy_root hfresh hsame hparent (j :: p) hp
  rw [walk_cons, walk_cons, hsame parent j hpb] at hw
  rwa [walk_cons, walk_cons, hcopy]

/-- A copy of a root shares its tables coherently. -/
theorem Coherent.copy_root (hco : Coherent next roots d) : Coherent next' (insert b roots) d := by
  by_cases hd : 0 < d
  swap
  · intro r _ s _ p _ _ hp
    omega
  -- a walk from the copy is a walk from its model, or stays at the copy
  have hwalk : ∀ r ∈ insert b roots, ∀ p : List ι, ∀ t, p.length < d → walk next' r p = some t →
      (p = [] ∧ t = b) ∨ ∃ r' ∈ roots, walk next r' p = some t := by
    intro r hr p t hp ht
    rcases Set.mem_insert_iff.mp hr with rfl | hr
    · by_cases hne : p = []
      · subst hne
        exact .inl ⟨rfl, (Option.some.inj ht).symm⟩
      · rw [walk_copy hparent hfresh hcopy hsame hd p (by omega) hne] at ht
        exact .inr ⟨parent, hparent, ht⟩
    · rw [walk_copy_root hfresh hsame hr p (by omega)] at ht
      exact .inr ⟨r, hr, ht⟩
  intro r hr s hs p q t hp hq hpt hqt
  rcases hwalk r hr p t hp hpt with ⟨rfl, rfl⟩ | ⟨r', hr', hpt'⟩
  · rcases hwalk s hs q t hq hqt with ⟨rfl, -⟩ | ⟨s', hs', hqt'⟩
    · rfl
    · exact absurd ⟨s', hs', q, hq, hqt'⟩ hfresh
  · rcases hwalk s hs q t hq hqt with ⟨rfl, rfl⟩ | ⟨s', hs', hqt'⟩
    · exact absurd ⟨r', hr', p, hp, hpt'⟩ hfresh
    · exact hco r' hr' s' hs' p q t hp hq hpt' hqt'

end

end Radix
