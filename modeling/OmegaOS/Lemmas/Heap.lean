import Mathlib.Data.Nat.Log
import OmegaOS.Lemmas.FreeList

/-!
# The heap invariant

The chunks lie in address order between two sentinels and tile the heap; every free chunk is in the free list of its size. In
the middle of an operation some chunks are loose: they are in no free list whatever their mark says. Each step of an operation
keeps the invariant for its set of loose chunks.
-/

namespace OmegaOS

open ByteMem Ring List

variable {c x y : Nat} {cs : List Nat}

/-- The chunks, with the sentinels, in address order. -/
def chunks (hp : Heap) (mid : List Nat) : List Nat := hp.first :: (mid ++ [hp.last])

/-- The bytes of a chunk's payload. -/
def chunkSize (m : Mem) (c : Nat) : Nat := nextPtr m c - c - headerSize

/-- A chunk that is marked free and is not loose. -/
def IsFree (m : Mem) (loose : Nat → Prop) (c : Nat) : Prop := chunkUsed m c = 0 ∧ ¬ loose c

/-- The chunks lie in address order, with room for a header and two links in each, and are linked in that order. -/
structure Layout (hp : Heap) (mid : List Nat) : Prop where
  firstAt : hp.first = kernelHeapStart
  lastAt : hp.last = kernelHeapStart + kernelHeapSize - chunkStructSize
  gaps : (chunks hp mid).Pairwise fun a b => a + chunkStructSize ≤ b
  ring : IsRing (linksOf hp.mem) (chunks hp mid)

/-- The invariant. `B n` are the chunks of the free list `n`. -/
structure HeapInv (hp : Heap) (mid : List Nat) (B : Nat → List Nat) (loose : Nat → Prop) : Prop extends Layout hp mid where
  sentinels : chunkUsed hp.mem hp.first ≠ 0 ∧ chunkUsed hp.mem hp.last ≠ 0
  noTwoFree : ∀ c ∈ mid, IsFree hp.mem loose c → ¬ IsFree hp.mem loose (nextPtr hp.mem c)
  lists : ∀ n, FreeList hp.mem (hp.freeChunks n) (B n)
  nodup : ∀ n, (B n).Nodup
  listed : ∀ n c, c ∈ B n ↔ c ∈ mid ∧ IsFree hp.mem loose c ∧ Nat.log2 (chunkSize hp.mem c) = n

/-! ## Geometry -/

/-- The nodes of the chunks: the links `all` and the place of the links `free`. -/
def IsNode (cs : List Nat) (x : Nat) : Prop := ∃ c ∈ cs, x = c ∨ x = freeNode c

section

variable {hp : Heap} {mid : List Nat}

theorem mem_chunks : x ∈ chunks hp mid ↔ x = hp.first ∨ x ∈ mid ∨ x = hp.last := by
  simp [chunks]

theorem mid_sub_chunks (h : x ∈ mid) : x ∈ chunks hp mid := mem_chunks.mpr (.inr (.inl h))

theorem front_sub_chunks (h : x ∈ hp.first :: mid) : x ∈ chunks hp mid := mem_append_left [hp.last] h

section

variable (h : cs.Pairwise fun a b => a + chunkStructSize ≤ b)

include h

theorem apart_of_gaps (hx : x ∈ cs) (hy : y ∈ cs) : x = y ∨ x + 40 ≤ y ∨ y + 40 ≤ x := by
  induction h with
  | nil => exact absurd hx not_mem_nil
  | cons hall _ ih =>
    rcases mem_cons.mp hx with rfl | hx' <;> rcases mem_cons.mp hy with rfl | hy'
    · exact .inl rfl
    · exact .inr (.inl (hall y hy'))
    · exact .inr (.inr (hall x hx'))
    · exact ih hx' hy'

theorem nodup_of_gaps : cs.Nodup := by
  refine h.imp ?_
  intro a b hab e
  unfold chunkStructSize at hab
  omega

/-- The nodes of chunks that do not overlap do not overlap. -/
theorem nodeSet_of_gaps (hbound : ∀ c ∈ cs, c + 40 ≤ 2 ^ 64) : NodeSet (IsNode cs) := by
  refine ⟨?_, ?_⟩
  · rintro x y ⟨c, hc, hx⟩ ⟨c', hc', hy⟩ hne
    have hap := apart_of_gaps h hc hc'
    unfold freeNode headerSize at hx hy
    omega
  · rintro x ⟨c, hc, hx⟩
    have := hbound c hc
    unfold freeNode headerSize at hx
    omega

end

namespace Layout

section

variable (h : Layout hp mid)

include h

theorem bounds (hc : c ∈ chunks hp mid) : kernelHeapStart ≤ c ∧ c + 40 ≤ 2 ^ 64 := by
  have hfirst := h.firstAt
  have hlast := h.lastAt
  have hf := apart_of_gaps h.gaps hc (mem_chunks.mpr (.inl rfl))
  obtain ⟨hall, hrest⟩ := pairwise_cons.mp h.gaps
  have hle : c = hp.last ∨ c + 40 ≤ hp.last := by
    rcases mem_chunks.mp hc with rfl | hc | rfl
    · exact .inr (hall hp.last (by simp))
    · exact .inr ((pairwise_append.mp hrest).2.2 c hc hp.last (by simp))
    · exact .inl rfl
  have hge : c = hp.first ∨ hp.first + 40 ≤ c := by
    rcases mem_chunks.mp hc with rfl | hc | rfl
    · exact .inl rfl
    · exact .inr (hall c (by simp [hc]))
    · exact .inr (hall hp.last (by simp))
  unfold kernelHeapStart kernelHeapSize chunkStructSize pageSize at *
  omega

theorem nodeSet : NodeSet (IsNode (chunks hp mid)) := nodeSet_of_gaps h.gaps fun _ hc => (h.bounds hc).2

theorem apart (hx : x ∈ chunks hp mid) (hy : y ∈ chunks hp mid) : x = y ∨ x + 40 ≤ y ∨ y + 40 ≤ x := apart_of_gaps h.gaps hx hy

/-- What follows a chunk: the next one in address order. -/
theorem succ (hc : c ∈ hp.first :: mid) :
    nextPtr hp.mem c ∈ mid ++ [hp.last] ∧ prevPtr hp.mem (nextPtr hp.mem c) = c ∧ c + 40 ≤ nextPtr hp.mem c ∧
      ∀ x ∈ chunks hp mid, x = c ∨ x + 40 ≤ c ∨ nextPtr hp.mem c ≤ x := by
  obtain ⟨l1, l2, hsplit⟩ := append_of_mem hc
  have hcs : ∃ b l3, chunks hp mid = l1 ++ c :: b :: l3 := by
    have happ : chunks hp mid = l1 ++ c :: (l2 ++ [hp.last]) := by
      show (hp.first :: mid) ++ [hp.last] = _
      rw [hsplit]
      simp
    cases l2 with
    | nil => exact ⟨hp.last, [], happ⟩
    | cons b l2 => exact ⟨b, l2 ++ [hp.last], happ⟩
  obtain ⟨b, l3, hcs⟩ := hcs
  have hring := h.ring
  have hgaps := h.gaps
  rw [hcs] at hring hgaps
  have hnext : nextPtr hp.mem c = b := hring.link.1
  have hprev : prevPtr hp.mem b = c := hring.link.2
  obtain ⟨-, hright, hleft⟩ := pairwise_append.mp hgaps
  obtain ⟨hcb, hright⟩ := pairwise_cons.mp hright
  obtain ⟨hbl, -⟩ := pairwise_cons.mp hright
  have hcb' : c + 40 ≤ b := hcb b mem_cons_self
  rw [hnext]
  refine ⟨?_, hprev, hcb', ?_⟩
  · have hb : b ∈ chunks hp mid := by rw [hcs]; simp
    rcases mem_chunks.mp hb with rfl | hb | rfl
    · have := apart_of_gaps h.gaps (mem_chunks.mpr (.inl rfl)) (show c ∈ chunks hp mid by rw [hcs]; simp)
      have hfirst := (h.bounds (show c ∈ chunks hp mid by rw [hcs]; simp)).1
      rw [h.firstAt] at hcb'
      omega
    · exact mem_append_left _ hb
    · simp
  · intro x hx
    rw [hcs] at hx
    rcases mem_append.mp hx with hx | hx
    · exact .inr (.inl (hleft x hx c mem_cons_self))
    · rcases mem_cons.mp hx with rfl | hx
      · exact .inl rfl
      · rcases mem_cons.mp hx with rfl | hx
        · exact .inr (.inr (le_refl _))
        · have := hbl x hx
          omega

theorem pred (hc : c ∈ mid) : prevPtr hp.mem c ∈ hp.first :: mid ∧ nextPtr hp.mem (prevPtr hp.mem c) = c := by
  obtain ⟨-, hp', hback, -⟩ := h.ring.neighbours (mid_sub_chunks hc)
  have hback' : nextPtr hp.mem (prevPtr hp.mem c) = c := hback
  have hmem : prevPtr hp.mem c ∈ chunks hp mid := hp'
  refine ⟨?_, hback'⟩
  rcases mem_chunks.mp hmem with he | hm | he
  · rw [he]
    exact mem_cons_self
  · exact .tail _ hm
  · -- the last sentinel is followed by the first one
    exfalso
    have hring : IsRing (linksOf hp.mem) (hp.last :: hp.first :: mid) := (isRing_rotate (hp.first :: mid) [hp.last]).mp h.ring
    have hnext : nextPtr hp.mem hp.last = hp.first := hring.1.1
    rw [he, hnext] at hback'
    have := nodup_cons.mp (nodup_of_gaps h.gaps)
    exact this.1 (by simp [hback', hc])

end

end Layout

end

end OmegaOS
