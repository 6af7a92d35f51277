import Mathlib.Data.List.Basic
import Mathlib.Logic.Function.Basic

/-!
# Trees by parents and children

A rooted tree kept twice over: every member but the root has a parent, and every member has the list of its children. A leaf is added
as the last child of a member; a member is taken out and its children become the last children of its parent.
-/

namespace ParentTree

open List Function

variable {α : Type*}

/-- The members, with the parent and the children of each. -/
structure Shape (α : Type*) where
  root : α
  members : List α
  parent : α → α
  kids : α → List α

/-- Each member but the root is among the children of its parent, once, and of no other member. Parents lead towards the root. -/
structure Shape.Ok (t : Shape α) : Prop where
  nodup : t.members.Nodup
  root_mem : t.root ∈ t.members
  mem_kids : ∀ x ∈ t.members, x ≠ t.root → t.parent x ∈ t.members ∧ x ∈ t.kids (t.parent x)
  of_kids : ∀ p ∈ t.members, ∀ x ∈ t.kids p, x ∈ t.members ∧ x ≠ t.root ∧ t.parent x = p
  kids_nodup : ∀ p ∈ t.members, (t.kids p).Nodup
  ranked : ∃ rank : α → Nat, ∀ x ∈ t.members, x ≠ t.root → rank (t.parent x) < rank x

/-- The tree of a root. -/
def Shape.single (root : α) : Shape α := ⟨root, [root], fun _ => root, fun _ => []⟩

theorem ok_single (root : α) : (Shape.single root).Ok := by
  refine ⟨by simp [Shape.single], mem_cons_self, fun x hx hne => ?_, fun _ _ x hx => ?_, fun _ _ => nodup_nil, fun _ => 0,
    fun x hx hne => ?_⟩
  · exact absurd (mem_singleton.mp hx) hne
  · cases hx
  · exact absurd (mem_singleton.mp hx) hne

variable {t : Shape α} {p x : α}

/-- A member is not its own parent. -/
theorem Shape.Ok.parent_ne (h : t.Ok) (hx : x ∈ t.members) (hne : x ≠ t.root) : t.parent x ≠ x := by
  obtain ⟨rank, hrank⟩ := h.ranked
  intro he
  have := hrank x hx hne
  rw [he] at this
  exact Nat.lt_irrefl _ this

/-- A sibling is no child. -/
theorem Shape.Ok.kids_disjoint (h : t.Ok) (hx : x ∈ t.members) (hne : x ≠ t.root) (hy : y ∈ t.kids (t.parent x)) : y ∉ t.kids x := by
  intro hy'
  have hp := (h.of_kids _ (h.mem_kids x hx hne).1 y hy).2.2
  exact h.parent_ne hx hne (hp.symm.trans (h.of_kids x hx y hy').2.2)

variable [DecidableEq α]

/-- A new member `x`, the last child of `p`. -/
def Shape.insert (t : Shape α) (p x : α) : Shape α :=
  ⟨t.root, t.members ++ [x], update t.parent x p, update (update t.kids p (t.kids p ++ [x])) x []⟩

/-- The tree without `x`, whose children follow the other children of its parent. -/
def Shape.splice (t : Shape α) (x : α) : Shape α :=
  ⟨t.root, t.members.erase x, fun y => if y ∈ t.kids x then t.parent x else t.parent y,
    update t.kids (t.parent x) ((t.kids (t.parent x)).erase x ++ t.kids x)⟩

theorem insert_kids_self (hne : p ≠ x) : (t.insert p x).kids p = t.kids p ++ [x] := by
  simp [Shape.insert, hne]

theorem insert_kids_new : (t.insert p x).kids x = [] := by
  simp [Shape.insert]

theorem insert_kids_of_ne (hp : q ≠ p) (hx : q ≠ x) : (t.insert p x).kids q = t.kids q := by
  simp [Shape.insert, hp, hx]

theorem insert_parent_of_ne (hx : q ≠ x) : (t.insert p x).parent q = t.parent q := by
  simp [Shape.insert, hx]

/-- A new leaf keeps the shape. -/
theorem Shape.Ok.insert (h : t.Ok) (hp : p ∈ t.members) (hx : x ∉ t.members) : (t.insert p x).Ok := by
  have hpx : p ≠ x := fun he => hx (he ▸ hp)
  have hold : ∀ {q : α}, q ∈ t.members → q ≠ x := fun hq he => hx (he ▸ hq)
  have hsub : ∀ {q y : α}, q ∈ t.members → y ∈ t.kids q → y ∈ (t.insert p x).kids q := by
    intro q y hq hy
    by_cases hqp : q = p
    · subst hqp
      rw [insert_kids_self hpx]
      exact mem_append_left _ hy
    · rwa [insert_kids_of_ne hqp (hold hq)]
  have hmem : ∀ {q : α}, q ∈ t.members → q ∈ (t.insert p x).members := fun hq => mem_append_left _ hq
  have hcases : ∀ {q : α}, q ∈ (t.insert p x).members → q ∈ t.members ∨ q = x := by
    intro q hq
    exact (mem_append.mp hq).imp_right mem_singleton.mp
  have hparent : (t.insert p x).parent x = p := update_self ..
  refine ⟨?_, hmem h.root_mem, fun y hy hne => ?_, fun q hq y hy => ?_, fun q hq => ?_, ?_⟩
  · exact (perm_append_comm : (t.members ++ [x]).Perm _).nodup_iff.mpr (nodup_cons.mpr ⟨hx, h.nodup⟩)
  · rcases hcases hy with hy | rfl
    · obtain ⟨hpm, hyk⟩ := h.mem_kids y hy hne
      rw [insert_parent_of_ne (hold hy)]
      exact ⟨hmem hpm, hsub hpm hyk⟩
    · rw [hparent, insert_kids_self hpx]
      exact ⟨hmem hp, by simp⟩
  · rcases hcases hq with hq | rfl
    · by_cases hqp : q = p
      · subst hqp
        rw [insert_kids_self hpx] at hy
        rcases mem_append.mp hy with hy | hy
        · obtain ⟨hym, hyr, hyp⟩ := h.of_kids q hp y hy
          exact ⟨hmem hym, hyr, (insert_parent_of_ne (hold hym)).trans hyp⟩
        · rw [mem_singleton.mp hy]
          exact ⟨mem_append_right _ (by simp), fun he => hx (he ▸ h.root_mem), hparent⟩
      · rw [insert_kids_of_ne hqp (hold hq)] at hy
        obtain ⟨hym, hyr, hyp⟩ := h.of_kids q hq y hy
        exact ⟨hmem hym, hyr, (insert_parent_of_ne (hold hym)).trans hyp⟩
    · simp [insert_kids_new] at hy
  · rcases hcases hq with hq | rfl
    · by_cases hqp : q = p
      · subst hqp
        rw [insert_kids_self hpx]
        refine (perm_append_comm : (t.kids q ++ [x]).Perm _).nodup_iff.mpr (nodup_cons.mpr ⟨fun hk => ?_, h.kids_nodup q hp⟩)
        exact hx (h.of_kids q hp x hk).1
      · rw [insert_kids_of_ne hqp (hold hq)]
        exact h.kids_nodup q hq
    · rw [insert_kids_new]
      exact nodup_nil
  · -- the new leaf ranks above its parent
    obtain ⟨rank, hrank⟩ := h.ranked
    refine ⟨update rank x (rank p + 1), fun y hy hne => ?_⟩
    rcases hcases hy with hy | rfl
    · rw [insert_parent_of_ne (hold hy), update_of_ne (hold (h.mem_kids y hy hne).1), update_of_ne (hold hy)]
      exact hrank y hy hne
    · rw [hparent, update_of_ne hpx, update_self]
      exact Nat.lt_succ_self _

theorem splice_kids_parent : (t.splice x).kids (t.parent x) = (t.kids (t.parent x)).erase x ++ t.kids x := by
  simp [Shape.splice]

theorem splice_kids_of_ne (hq : q ≠ t.parent x) : (t.splice x).kids q = t.kids q := by
  simp [Shape.splice, hq]

theorem Shape.Ok.mem_splice (h : t.Ok) : q ∈ (t.splice x).members ↔ q ≠ x ∧ q ∈ t.members := h.nodup.mem_erase_iff

/-- So does a member whose children go to its parent. -/
theorem Shape.Ok.splice (h : t.Ok) (hx : x ∈ t.members) (hne : x ≠ t.root) : (t.splice x).Ok := by
  obtain ⟨hpm, hxk⟩ := h.mem_kids x hx hne
  have hpx := h.parent_ne hx hne
  have hpk := h.kids_nodup _ hpm
  -- a child of `x` is no member's child but that of `x`
  have hparent : ∀ {y : α}, (t.splice x).parent y = if y ∈ t.kids x then t.parent x else t.parent y := rfl
  have hnotself : x ∉ t.kids x := fun hk => hpx (h.of_kids x hx x hk).2.2
  refine ⟨h.nodup.erase x, h.mem_splice.mpr ⟨Ne.symm hne, h.root_mem⟩, fun y hy hyr => ?_, fun q hq y hy => ?_, fun q hq => ?_, ?_⟩
  · obtain ⟨hyx, hym⟩ := h.mem_splice.mp hy
    rw [hparent]
    split
    · rw [splice_kids_parent]
      exact ⟨h.mem_splice.mpr ⟨hpx, hpm⟩, mem_append_right _ ‹_›⟩
    · obtain ⟨hypm, hyk⟩ := h.mem_kids y hym hyr
      have hyp : t.parent y ≠ x := fun he => ‹y ∉ t.kids x› (he ▸ hyk)
      refine ⟨h.mem_splice.mpr ⟨hyp, hypm⟩, ?_⟩
      by_cases hpp : t.parent y = t.parent x
      · rw [hpp, splice_kids_parent]
        rw [hpp] at hyk
        exact mem_append_left _ ((mem_erase_of_ne hyx).mpr hyk)
      · rwa [splice_kids_of_ne hpp]
  · obtain ⟨hqx, hqm⟩ := h.mem_splice.mp hq
    by_cases hqp : q = t.parent x
    · rw [hqp, splice_kids_parent] at hy
      rcases mem_append.mp hy with hy | hy
      · obtain ⟨hyx, hyk⟩ := hpk.mem_erase_iff.mp hy
        obtain ⟨hym, hyr, hyp⟩ := h.of_kids _ hpm y hyk
        rw [hparent, if_neg (h.kids_disjoint hx hne hyk)]
        exact ⟨h.mem_splice.mpr ⟨hyx, hym⟩, hyr, hyp.trans hqp.symm⟩
      · obtain ⟨hym, hyr, -⟩ := h.of_kids x hx y hy
        rw [hparent, if_pos hy]
        exact ⟨h.mem_splice.mpr ⟨fun he => hnotself (he ▸ hy), hym⟩, hyr, hqp.symm⟩
    · rw [splice_kids_of_ne hqp] at hy
      obtain ⟨hym, hyr, hyp⟩ := h.of_kids q hqm y hy
      have hyk : y ∉ t.kids x := fun hk => hqx (hyp.symm.trans (h.of_kids x hx y hk).2.2)
      rw [hparent, if_neg hyk]
      exact ⟨h.mem_splice.mpr ⟨fun he => hqp (he ▸ hyp).symm, hym⟩, hyr, hyp⟩
  · have hqm := (h.mem_splice.mp hq).2
    by_cases hqp : q = t.parent x
    · rw [hqp, splice_kids_parent]
      refine nodup_append.mpr ⟨hpk.erase x, h.kids_nodup x hx, ?_⟩
      rintro y hy _ hy' rfl
      exact h.kids_disjoint hx hne (mem_of_mem_erase hy) hy'
    · rw [splice_kids_of_ne hqp]
      exact h.kids_nodup q hqm
  · obtain ⟨rank, hrank⟩ := h.ranked
    refine ⟨rank, fun y hy hyr => ?_⟩
    have hym := (h.mem_splice.mp hy).2
    rw [hparent]
    split
    · have hyp := (h.of_kids x hx y ‹_›).2.2
      have := hrank y hym hyr
      rw [hyp] at this
      exact Nat.lt_trans (hrank x hx hne) this
    · exact hrank y hym hyr

end ParentTree
