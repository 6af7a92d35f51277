import OmegaOS.Lib.Ring
import OmegaOS.Tree

/-!
# Lists in memory

A list whose ends point to `NULL` is a ring through `NULL`: its head is what follows `NULL` and its tail is what precedes it. So the
functions of `misc/list.c` do to the cells of a list what the assignments of a ring do.
-/

namespace OmegaOS

open Ring List Function

variable {a b source before fuel : Nat} {xs ys bs : List Nat}

variable {h : TreeHeap} {list cell item : Nat} {as : List Nat}

/-! ## Assignments -/

section Assignments

variable (h : TreeHeap) (node v a : Nat)

@[simp] theorem TreeHeap.setNext_next : ((h.setNext node v).cells a).next = if a = node then v else (h.cells a).next := by
  by_cases ha : a = node <;> simp [TreeHeap.setNext, ha]

@[simp] theorem TreeHeap.setNext_prev : ((h.setNext node v).cells a).prev = (h.cells a).prev := by
  by_cases ha : a = node <;> simp [TreeHeap.setNext, ha]

@[simp] theorem TreeHeap.setNext_value : ((h.setNext node v).cells a).value = (h.cells a).value := by
  by_cases ha : a = node <;> simp [TreeHeap.setNext, ha]

@[simp] theorem TreeHeap.setPrev_next : ((h.setPrev node v).cells a).next = (h.cells a).next := by
  by_cases ha : a = node <;> simp [TreeHeap.setPrev, ha]

@[simp] theorem TreeHeap.setPrev_prev : ((h.setPrev node v).cells a).prev = if a = node then v else (h.cells a).prev := by
  by_cases ha : a = node <;> simp [TreeHeap.setPrev, ha]

@[simp] theorem TreeHeap.setPrev_value : ((h.setPrev node v).cells a).value = (h.cells a).value := by
  by_cases ha : a = node <;> simp [TreeHeap.setPrev, ha]

@[simp] theorem TreeHeap.setNext_lists : (h.setNext node v).lists = h.lists := rfl
@[simp] theorem TreeHeap.setPrev_lists : (h.setPrev node v).lists = h.lists := rfl
@[simp] theorem TreeHeap.setList_cells (l : ListHead) : (h.setList node l).cells = h.cells := rfl
@[simp] theorem TreeHeap.setList_lists (l : ListHead) : (h.setList node l).lists = update h.lists node l := rfl

end Assignments

/-! ## Lists and rings -/

/-- The links of the cells, with the ends of a list for the links of `NULL`. -/
def TreeHeap.around (h : TreeHeap) (list : Nat) : Links Nat where
  next a := if a = null then (h.lists list).head else (h.cells a).next
  prev a := if a = null then (h.lists list).tail else (h.cells a).prev

/-- A well-formed doubly linked list, with its cells. -/
structure ListOk (h : TreeHeap) (list : Nat) (as : List Nat) : Prop where
  ring : IsRing (h.around list) (null :: as)
  nodup : (null :: as).Nodup
  length : (h.lists list).length = as.length

section

variable (hl : ListOk h list as)

include hl

theorem ListOk.ne_null (ha : a ∈ as) : a ≠ null := by
  rintro rfl
  exact (nodup_cons.mp hl.nodup).1 ha

theorem ListOk.congr (hlist : h'.lists list = h.lists list) (hcells : ∀ a ∈ as, h'.cells a = h.cells a) : ListOk h' list as := by
  refine ⟨hl.ring.congr fun a ha => ?_, hl.nodup, by rw [hlist]; exact hl.length⟩
  simp only [TreeHeap.around, hlist]
  rcases mem_cons.mp ha with rfl | ha
  · exact ⟨rfl, rfl⟩
  · rw [hcells a ha]
    exact ⟨rfl, rfl⟩

theorem ListOk.ends : (h.lists list).head = as.headD null ∧ (h.lists list).tail = as.getLastD null := by
  have hseg := hl.ring
  constructor
  · cases as with
    | nil => exact hseg.1
    | cons a as => exact hseg.1.1
  · rcases eq_nil_or_concat' as with rfl | ⟨init, a, rfl⟩
    · exact hseg.2
    · rw [getLastD_concat]
      exact (seg_append.mp hseg).2.2

theorem ListOk.tail_eq_null : (h.lists list).tail = null ↔ as = [] := by
  rw [hl.ends.2]
  rcases eq_nil_or_concat' as with rfl | ⟨init, a, rfl⟩
  · simp
  · rw [getLastD_concat]
    exact iff_of_false (hl.ne_null (by simp)) (by simp)

end

theorem listOk_nil (hempty : h.lists list = ⟨null, null, 0⟩) : ListOk h list [] := by
  refine ⟨⟨?_, ?_⟩, by simp, by rw [hempty]; rfl⟩ <;> simp [TreeHeap.around, hempty]

section

variable (hl : ListOk h list as)

include hl

/-- Of two cells, or a cell and an end, one follows the other exactly when the other precedes it. -/
theorem ListOk.next_eq_iff (ha : a ∈ null :: as) (hb : b ∈ null :: as) :
    (h.around list).next a = b ↔ (h.around list).prev b = a := hl.ring.next_eq_iff ha hb

theorem ListOk.head_eq_null : (h.lists list).head = null ↔ (h.lists list).tail = null := hl.next_eq_iff mem_cons_self mem_cons_self

/-- A cell is the head exactly when nothing precedes it. -/
theorem ListOk.head_eq_iff (hc : cell ∈ as) : cell = (h.lists list).head ↔ (h.cells cell).prev = null := by
  have hlink := hl.next_eq_iff mem_cons_self (.tail null hc)
  simp only [TreeHeap.around, if_true, if_neg (hl.ne_null hc)] at hlink
  exact eq_comm.trans hlink

/-- A cell is the tail exactly when nothing follows it. -/
theorem ListOk.tail_eq_iff (hc : cell ∈ as) : cell = (h.lists list).tail ↔ (h.cells cell).next = null := by
  have hlink := hl.next_eq_iff (.tail null hc) mem_cons_self
  simp only [TreeHeap.around, if_true, if_neg (hl.ne_null hc)] at hlink
  exact eq_comm.trans hlink.symm

/-! ## Inserting -/

/-- What `list_insert` does. -/
structure ListInserted (h h' : TreeHeap) (list item cell : Nat) (as : List Nat) : Prop where
  ok : ListOk h' list (as ++ [cell])
  value : (h'.cells cell).value = item
  values : ∀ a, a ≠ cell → (h'.cells a).value = (h.cells a).value
  cells : ∀ a, a ≠ cell → a ∉ null :: as → h'.cells a = h.cells a
  lists : ∀ l, l ≠ list → h'.lists l = h.lists l
  treeNodes : h'.treeNodes = h.treeNodes
  tree : h'.tree = h.tree

theorem ListOk.tail_mem : (h.lists list).tail ∈ null :: as := by
  rw [hl.ends.2]
  rcases eq_nil_or_concat' as with rfl | ⟨init, a, rfl⟩ <;> simp

end

/-- `list_append` does to the links what splicing the cell in before `NULL` does. -/
theorem around_listAppend (hne : cell ≠ null) (htail : (h.lists list).tail ≠ cell) (a : Nat) :
    ((h.listAppend list cell).around list).next a = (((h.around list).setPrev cell cell).insertBefore null cell).next a ∧
      ((h.listAppend list cell).around list).prev a = (((h.around list).setPrev cell cell).insertBefore null cell).prev a := by
  have hnull := Ne.symm hne
  by_cases ht : (h.lists list).tail = null
  · simp only [TreeHeap.listAppend, if_pos ht, TreeHeap.around, Links.insertBefore]
    by_cases ha : a = null <;> by_cases hc : a = cell <;> simp_all
  · simp only [TreeHeap.listAppend, if_neg ht, TreeHeap.around, Links.insertBefore]
    by_cases ha : a = null <;> by_cases hc : a = cell <;> simp_all [Ne.symm htail, Ne.symm ht]

theorem listAppend_frame (h : TreeHeap) (list cell : Nat) : (∀ a, ((h.listAppend list cell).cells a).value = (h.cells a).value) ∧
      (∀ a, a ≠ cell → a ≠ (h.lists list).tail → (h.listAppend list cell).cells a = h.cells a) ∧
      (∀ l, l ≠ list → (h.listAppend list cell).lists l = h.lists l) ∧
      ((h.listAppend list cell).lists list).length = (h.lists list).length + 1 ∧
      (h.listAppend list cell).treeNodes = h.treeNodes ∧ (h.listAppend list cell).tree = h.tree := by
  by_cases ht : (h.lists list).tail = null
  · simp only [TreeHeap.listAppend, if_pos ht]
    refine ⟨fun a => by simp, fun a hc _ => ?_, fun l hl => by simp [hl], by simp, rfl, rfl⟩
    simp [TreeHeap.setPrev, TreeHeap.setNext, hc]
  · simp only [TreeHeap.listAppend, if_neg ht]
    refine ⟨fun a => by simp, fun a hc hta => ?_, fun l hl => by simp [hl], by simp, rfl, rfl⟩
    simp [TreeHeap.setPrev, TreeHeap.setNext, hc, hta]

/-- `list_insert` puts the cell at the end. -/
theorem ListOk.listInsert (hl : ListOk h list as) (item : Nat) (hne : cell ≠ null) (hfresh : cell ∉ as) :
    ListInserted h (h.listInsert list item cell).2 list item cell as := by
  have hnot : cell ∉ null :: as := by simp [hne, hfresh]
  rw [TreeHeap.listInsert, if_neg hne]
  generalize hset : { h with cells := update h.cells cell ⟨null, null, item⟩ } = h1
  have hcells : ∀ a, a ≠ cell → h1.cells a = h.cells a := by
    intro a ha
    simp [← hset, ha]
  have hlists : h1.lists = h.lists := by rw [← hset]
  have hl1 : ListOk h1 list as := hl.congr (by rw [hlists]) fun a ha => hcells a fun he => hfresh (he ▸ ha)
  have htail : (h1.lists list).tail ≠ cell := fun he => hnot (he ▸ hl1.tail_mem)
  obtain ⟨hvalue, hkept, hother, hlength, hnodes, htree⟩ := listAppend_frame h1 list cell
  refine ⟨⟨?_, ?_, ?_⟩, ?_, fun a ha => ?_, fun a hc ha => ?_, fun l hne' => ?_, ?_, ?_⟩
  · -- the cell alone is a ring, which is spliced in before `NULL`
    have hring : IsRing (((h1.around list).setPrev cell cell).insertBefore null cell) (cell :: null :: as) := by
      refine IsRing.insertBefore (hl1.ring.congr fun a ha => ?_) hl.nodup hnot (by simp)
      have hac : a ≠ cell := fun he => hnot (he ▸ ha)
      simp [hac]
    exact (isRing_rotate [cell] (null :: as)).mp (hring.congr fun a _ => around_listAppend hne htail a)
  · rw [← cons_append]
    exact (perm_append_comm : ((null :: as) ++ [cell]).Perm _).nodup_iff.mpr (nodup_cons.mpr ⟨hnot, hl.nodup⟩)
  · rw [hlength, hl1.length, length_append]
    rfl
  · rw [hvalue, ← hset]
    simp
  · rw [hvalue, hcells a ha]
  · rw [hkept a hc fun he => ha (he ▸ hl1.tail_mem), hcells a hc]
  · rw [hother l hne', hlists]
  · rw [hnodes, ← hset]
  · rw [htree, ← hset]

/-- `list_append_after` does to the links what splicing the cell in behind the other does, or behind `NULL`. -/
theorem ListOk.around_listAppendAfter (hl : ListOk h list as) (hbefore : before ∈ null :: as) (hnot : cell ∉ null :: as)
    (hcell : h.cells cell = ⟨null, null, item⟩) :
    ∃ h', h.listAppendAfter list before cell = .ok h' ∧ (h'.lists list).length = as.length + 1 ∧
      (∀ a, (h'.cells a).value = (h.cells a).value) ∧
      ∀ a, (h'.around list).next a = (((h.around list).setPrev cell cell).insertAfter before cell).next a ∧
        (h'.around list).prev a = (((h.around list).setPrev cell cell).insertAfter before cell).prev a := by
  have hne : cell ≠ null := fun he => hnot (he ▸ mem_cons_self)
  have hcb : cell ≠ before := fun he => hnot (he ▸ hbefore)
  have hcn : cell ≠ (h.around list).next before := fun he => hnot (he ▸ (hl.ring.neighbours hbefore).1)
  rw [← hl.length]
  rw [TreeHeap.listAppendAfter]
  by_cases ht : (h.lists list).tail = null
  · -- the list is empty
    obtain rfl := hl.tail_eq_null.mp ht
    obtain rfl : before = null := by simpa using hbefore
    obtain ⟨hvalue, -, -, hlength, -, -⟩ := listAppend_frame h list cell
    have hhead := hl.head_eq_null.mpr ht
    refine ⟨_, if_pos ht, hlength, hvalue, fun a => ?_⟩
    simp only [TreeHeap.listAppend, if_pos ht, TreeHeap.around, Links.insertAfter]
    by_cases ha : a = null <;> by_cases hc : a = cell <;> simp_all
  rw [if_neg ht]
  by_cases hb : before = null
  · subst hb
    have hhead : (h.lists list).head ≠ null := fun he => ht (hl.head_eq_null.mp he)
    rw [if_pos rfl, if_neg hhead]
    refine ⟨_, rfl, by simp, fun a => by simp, fun a => ?_⟩
    simp only [TreeHeap.around, Links.insertAfter] at hcn ⊢
    by_cases ha : a = null <;> by_cases hc : a = cell <;> simp_all [Ne.symm hhead]
  have hbm : before ∈ as := (mem_cons.mp hbefore).resolve_left hb
  rw [if_neg hb]
  by_cases hlast : before = (h.lists list).tail
  · have hnext := (hl.tail_eq_iff hbm).mp hlast
    rw [if_pos hlast]
    refine ⟨_, rfl, by simp, fun a => by simp, fun a => ?_⟩
    simp only [TreeHeap.around, Links.insertAfter]
    by_cases ha : a = null <;> by_cases hc : a = cell <;> simp_all [Ne.symm ht]
  · have hnext : (h.cells before).next ≠ null := fun he => hlast ((hl.tail_eq_iff hbm).mpr he)
    rw [if_neg hlast, if_neg hnext]
    refine ⟨_, rfl, by simp, fun a => by simp, fun a => ?_⟩
    simp only [TreeHeap.around, Links.insertAfter] at hcn ⊢
    by_cases ha : a = null <;> by_cases hc : a = cell <;> simp_all [Ne.symm hb, Ne.symm hnext]

theorem insertIdx_append_cons (xs ys : List Nat) (a b : Nat) : (xs ++ a :: ys).insertIdx (xs.length + 1) b = xs ++ a :: b :: ys := by
  induction xs with
  | nil => simp
  | cons x xs ih => simpa using ih

/-- `list_insert_after` puts it behind another. -/
theorem ListOk.listInsertAfter (hl : ListOk h list as) (hsplit : null :: as = xs ++ before :: ys) (item : Nat)
    (hne : cell ≠ null) (hfresh : cell ∉ as) :
    ∃ h', h.listInsertAfter list before item cell = .ok h' ∧ ListOk h' list (as.insertIdx xs.length cell) ∧
      ∀ a, (h'.cells a).value = if a = cell then item else (h.cells a).value := by
  have hnot : cell ∉ null :: as := by simp [hne, hfresh]
  rw [TreeHeap.listInsertAfter, if_neg hne]
  generalize hset : { h with cells := update h.cells cell ⟨null, null, item⟩ } = h1
  have hcells : ∀ a, a ≠ cell → h1.cells a = h.cells a := by
    intro a ha
    simp [← hset, ha]
  have hcell : h1.cells cell = ⟨null, null, item⟩ := by simp [← hset]
  have hl1 : ListOk h1 list as := hl.congr (by rw [← hset]) fun a ha => hcells a fun he => hfresh (he ▸ ha)
  obtain ⟨h', hrun, hlength, hvalue, haround⟩ := hl1.around_listAppendAfter (show before ∈ _ by rw [hsplit]; simp) hnot hcell
  -- the cells of the new list, read from `NULL` on and from the other cell on
  have hnew : null :: as.insertIdx xs.length cell = xs ++ before :: cell :: ys := by
    rw [← List.insertIdx_succ_cons, hsplit]
    exact insertIdx_append_cons xs ys before cell
  have hperm : (before :: (ys ++ xs)).Perm (null :: as) := by
    rw [hsplit]
    exact (List.perm_append_comm : ((before :: ys) ++ xs).Perm _)
  refine ⟨h', hrun, ⟨?_, ?_, ?_⟩, fun a => ?_⟩
  · have hrot : IsRing ((h1.around list).setPrev cell cell) (before :: (ys ++ xs)) := by
      have hring := hl1.ring
      rw [hsplit] at hring
      refine ((isRing_rotate xs (before :: ys)).mp hring).congr fun a ha => ?_
      have hac : a ≠ cell := fun he => hnot (he ▸ hperm.mem_iff.mp ha)
      simp [hac]
    have hins := hrot.insertAfter (hperm.nodup_iff.mpr hl.nodup) (fun hm => hnot (hperm.mem_iff.mp hm)) (by simp)
    rw [hnew]
    exact ((isRing_rotate (before :: cell :: ys) xs).mp hins).congr fun a _ => haround a
  · rw [← List.insertIdx_succ_cons]
    exact (List.perm_insertIdx cell (null :: as) (by rw [hsplit]; simp)).nodup_iff.mpr (List.nodup_cons.mpr ⟨hnot, hl.nodup⟩)
  · rw [hlength, List.length_insertIdx_of_le_length]
    have := congrArg List.length hsplit
    simp at this
    omega
  · rw [hvalue]
    split
    · rename_i ha
      rw [ha, hcell]
    · rename_i ha
      rw [hcells a ha]

/-! ## Deleting -/

/-- What `list_delete` does, with the cells that were there and those that are left. -/
structure ListDeleted (h h' : TreeHeap) (list : Nat) (as rest : List Nat) : Prop where
  ok : ListOk h' list rest
  values : ∀ a, (h'.cells a).value = (h.cells a).value
  cells : ∀ a ∉ null :: as, h'.cells a = h.cells a
  lists : ∀ l, l ≠ list → h'.lists l = h.lists l
  treeNodes : h'.treeNodes = h.treeNodes
  tree : h'.tree = h.tree

/-- `list_delete` does to the links of the other cells what taking the cell out of the ring does. -/
theorem around_listUnlink (hne : cell ≠ null) (hhead : cell = (h.lists list).head ↔ (h.cells cell).prev = null)
    (htail : cell = (h.lists list).tail ↔ (h.cells cell).next = null) (ha : a ≠ cell) :
    ((h.listUnlink list cell).around list).next a = ((h.around list).remove cell).next a ∧
      ((h.listUnlink list cell).around list).prev a = ((h.around list).remove cell).prev a := by
  rw [remove_next_of_ne ha, remove_prev_of_ne ha]
  by_cases hp : (h.cells cell).prev = null <;> by_cases hn : (h.cells cell).next = null <;> by_cases hnull : a = null <;>
    simp [TreeHeap.listUnlink, TreeHeap.around, hne, ha, hhead, htail, hp, hn, hnull, @eq_comm _ null]

theorem listUnlink_frame (h : TreeHeap) (list cell : Nat) : (∀ a, ((h.listUnlink list cell).cells a).value = (h.cells a).value) ∧
      (∀ a, a ≠ cell → a ≠ (h.cells cell).next → a ≠ (h.cells cell).prev → (h.listUnlink list cell).cells a = h.cells a) ∧
      (∀ l, l ≠ list → (h.listUnlink list cell).lists l = h.lists l) ∧
      ((h.listUnlink list cell).lists list).length = (h.lists list).length - 1 ∧
      (h.listUnlink list cell).treeNodes = h.treeNodes ∧ (h.listUnlink list cell).tree = h.tree := by
  by_cases hp : (h.cells cell).prev = null <;> by_cases hn : (h.cells cell).next = null <;>
    simp only [TreeHeap.listUnlink, if_pos, if_neg, hp, hn, not_false_eq_true] <;>
    refine ⟨fun a => by simp, fun a h1 h2 h3 => ?_, fun l hl => by simp [hl], by simp, rfl, rfl⟩ <;>
    simp_all [TreeHeap.setPrev, TreeHeap.setNext]

/-- `list_delete` takes the cell out. -/
theorem ListOk.listDelete (hl : ListOk h list (xs ++ cell :: ys)) :
    ∃ h', h.listDelete list cell = .ok h' ∧ ListDeleted h h' list (xs ++ cell :: ys) (xs ++ ys) := by
  have hmem : cell ∈ null :: (xs ++ cell :: ys) := by simp
  have hcell : cell ∈ xs ++ cell :: ys := by simp
  have hne : cell ≠ null := hl.ne_null hcell
  have hperm : (null :: (xs ++ cell :: ys)).Perm (cell :: (ys ++ null :: xs)) := (perm_append_comm : ((null :: xs) ++ (cell :: ys)).Perm _)
  obtain ⟨hnot, hnodup⟩ := nodup_cons.mp (hperm.nodup_iff.mp hl.nodup)
  have hremoved : IsRing ((h.around list).remove cell) (null :: (xs ++ ys)) := by
    have hrot : IsRing (h.around list) (cell :: (ys ++ null :: xs)) := (isRing_rotate (null :: xs) (cell :: ys)).mp hl.ring
    exact (isRing_rotate ys (null :: xs)).mp (hrot.remove (hperm.nodup_iff.mp hl.nodup)).1
  obtain ⟨hnmem, hpmem, -, -⟩ := hl.ring.neighbours hmem
  simp only [TreeHeap.around, if_neg hne] at hnmem hpmem
  have hhead := hl.head_eq_iff hcell
  have htail := hl.tail_eq_iff hcell
  obtain ⟨hvalue, hkept, hother, hlength, hnodes, htree⟩ := listUnlink_frame h list cell
  refine ⟨_, by rw [TreeHeap.listDelete, if_neg hne], ⟨?_, ?_, ?_⟩, hvalue, fun a ha => ?_, hother, hnodes, htree⟩
  · refine hremoved.congr fun a ha => around_listUnlink hne hhead htail ?_
    rintro rfl
    exact hnot ((perm_append_comm : ((null :: xs) ++ ys).Perm _).mem_iff.mp ha)
  · exact (perm_append_comm : ((null :: xs) ++ ys).Perm _).nodup_iff.mpr hnodup
  · rw [hlength, hl.length]
    simp
  · exact hkept a (fun he => ha (he ▸ hmem)) (fun he => ha (he ▸ hnmem)) fun he => ha (he ▸ hpmem)

/-! ## Merging -/

theorem ListOk.listMerge_nil (hl : ListOk h list as) (hs : ListOk h source []) : h.listMerge list source = h := by
  obtain ⟨hshead, hstail⟩ : (h.lists source).head = null ∧ (h.lists source).tail = null := hs.ends
  have hslength : (h.lists source).length = 0 := hs.length
  simp only [TreeHeap.listMerge, hshead, hstail, hslength, if_true, add_zero]
  by_cases ht : (h.lists list).tail = null
  · have hhead : (h.lists list).head = null := by
      rw [hl.ends.1, hl.tail_eq_null.mp ht]
      rfl
    rw [if_pos ht, if_pos ht, ← hhead]
    simp [TreeHeap.setList]
  · have hnext : (h.cells (h.lists list).tail).next = null := by
      have := (hl.ring.neighbours (mem_cons_self)).2.2.1
      simpa [TreeHeap.around, ht] using this
    rw [if_neg ht, if_neg ht, TreeHeap.setNext, ← hnext]
    simp [TreeHeap.setList]

theorem ListOk.nil_listMerge (hl : ListOk h list []) : h.listMerge list source = h.setList list (h.lists source) := by
  have htail : (h.lists list).tail = null := hl.ends.2
  have hlength : (h.lists list).length = 0 := hl.length
  simp only [TreeHeap.listMerge, htail, hlength, if_true, zero_add]
  by_cases hs : (h.lists source).tail = null
  · rw [if_pos hs, ← hs]
  · rw [if_neg hs]

theorem listMerge_frame (h : TreeHeap) (list source : Nat) :
    (h.listMerge list source).treeNodes = h.treeNodes ∧ (h.listMerge list source).tree = h.tree ∧
      ∀ l, l ≠ list → (h.listMerge list source).lists l = h.lists l := by
  simp only [TreeHeap.listMerge]
  refine ⟨?_, ?_, fun l hl => ?_⟩
  · split <;> rfl
  · split <;> rfl
  · rw [TreeHeap.setList_lists, update_of_ne hl]
    split <;> rfl

/-- A list is merged into another when one of them is empty. -/
theorem ListOk.listMerge (hl : ListOk h list as) (hs : ListOk h source bs) (hempty : as = [] ∨ bs = []) :
    ListOk (h.listMerge list source) list (as ++ bs) ∧ (h.listMerge list source).cells = h.cells := by
  rcases hempty with rfl | rfl
  · rw [hl.nil_listMerge]
    refine ⟨⟨hs.ring.congr fun a _ => ?_, hs.nodup, ?_⟩, rfl⟩
    · simp [TreeHeap.around]
    · simp [hs.length]
  · rw [hl.listMerge_nil hs, append_nil]
    exact ⟨hl, rfl⟩

/-- When none of them is, the first cell of the merged list has no link back. -/
theorem ListOk.not_listMerge {cs : List Nat} (hl : ListOk h list as) (hs : ListOk h source bs) (has : as ≠ [])
    (hbs : bs ≠ []) : ¬ ListOk (h.listMerge list source) list cs := by
  obtain ⟨init, a, rfl⟩ := (eq_nil_or_concat' as).resolve_left has
  obtain ⟨b, bs, rfl⟩ := exists_cons_of_ne_nil hbs
  have ha : a ≠ null := hl.ne_null (by simp)
  have hb : b ≠ null := hs.ne_null (by simp)
  have htail : (h.lists list).tail = a := by rw [hl.ends.2, getLastD_concat]
  have hhead := hs.ends.1
  have hprev : (h.cells b).prev = null := by
    have hlink := hs.ring.1.2
    simpa [TreeHeap.around, hb] using hlink
  generalize hmerged : h.listMerge list source = h'
  have hcells : h'.cells = (h.setNext a b).cells := by
    rw [← hmerged]
    simp [TreeHeap.listMerge, htail, ha, hhead]
  have hhead' : (h'.lists list).head = (h.lists list).head := by
    rw [← hmerged]
    simp [TreeHeap.listMerge, htail, ha]
  -- the links up to the old tail are as they were, so it is in the list, and what follows it does not link back
  intro hok
  have hseg : Seg (h'.around list) null init a := by
    have hnodup := hl.nodup
    rw [← cons_append] at hnodup
    refine (seg_append.mp hl.ring).1.congr (fun x hx => ?_) fun x hx => ?_
    · have hxa : x ≠ a := (nodup_append.mp hnodup).2.2 x hx a (by simp)
      simp [TreeHeap.around, hcells, hhead', hxa]
    · simp [TreeHeap.around, hcells, hl.ne_null hx]
  have hback := (hok.ring.neighbours (hok.ring.mem_of_seg hseg mem_cons_self)).2.2.2
  simp only [TreeHeap.around, hcells, if_neg ha, TreeHeap.setNext_next, if_true, if_neg hb, TreeHeap.setNext_prev] at hback
  exact ha (hback.symm.trans hprev)

/-! ## Walking through a list -/

/-- The first `n` cells from `a` on. -/
def TreeHeap.listCells (h : TreeHeap) : Nat → Nat → List Nat
  | 0, _ => []
  | n + 1, a => a :: h.listCells n (h.cells a).next

/-- The cells of a list. -/
def TreeHeap.cellsOf (h : TreeHeap) (list : Nat) : List Nat := h.listCells (h.lists list).length (h.lists list).head

theorem listCells_seg (hseg : Seg (h.around list) a as b) (hnn : null ∉ as) : h.listCells as.length ((h.around list).next a) = as := by
  induction as generalizing a with
  | nil => rfl
  | cons x as ih =>
    obtain ⟨hx, hrest⟩ : x ≠ null ∧ null ∉ as := by simpa [eq_comm] using hnn
    have hnext : (h.around list).next x = (h.cells x).next := if_neg hx
    rw [hseg.1.1, length_cons, TreeHeap.listCells, ← hnext, ih hseg.2 hrest]

theorem ListOk.cellsOf_eq (hl : ListOk h list as) : h.cellsOf list = as := by
  have hcells := listCells_seg hl.ring (nodup_cons.mp hl.nodup).1
  rwa [← hl.length] at hcells

/-- The loop of `list_find` stops at the first cell with the value. -/
theorem listFind_seg (hseg : Seg (h.around list) a (xs ++ cell :: ys) b)
    (hnn : null ∉ xs ++ cell :: ys) (hno : ∀ x ∈ xs, (h.cells x).value ≠ (h.cells cell).value) (hfuel : xs.length < fuel) :
    h.listFind (h.cells cell).value fuel ((h.around list).next a) = .ok cell := by
  induction xs generalizing a fuel with
  | nil =>
    obtain ⟨fuel, rfl⟩ := Nat.exists_eq_succ_of_ne_zero (Nat.ne_of_gt hfuel)
    have hne : cell ≠ null := by rintro rfl; simp at hnn
    rw [hseg.1.1, TreeHeap.listFind, if_neg hne, if_pos rfl]
  | cons x xs ih =>
    obtain ⟨fuel, rfl⟩ := Nat.exists_eq_succ_of_ne_zero (Nat.ne_of_gt (Nat.lt_of_le_of_lt (Nat.zero_le _) hfuel))
    obtain ⟨hx, hrest⟩ : x ≠ null ∧ null ∉ xs ++ cell :: ys := by simpa [eq_comm] using hnn
    have hnext : (h.around list).next x = (h.cells x).next := if_neg hx
    rw [hseg.1.1, TreeHeap.listFind, if_neg hx, if_neg (hno x mem_cons_self), ← hnext]
    exact ih hseg.2 hrest (fun y hy => hno y (.tail x hy)) (Nat.lt_of_succ_lt_succ hfuel)

/-- The loop of `list_find_index` comes to the cell of the index, or behind the last one to `NULL`. -/
theorem listSkip_seg (hseg : Seg (h.around list) a as null) (hnn : null ∉ as) (hi : i ≤ as.length) :
    h.listSkip i ((h.around list).next a) = .ok (as.getD i null) := by
  induction as generalizing a i with
  | nil =>
    obtain rfl : i = 0 := Nat.le_zero.mp hi
    rw [hseg.1]
    rfl
  | cons x as ih =>
    obtain ⟨hx, hrest⟩ : x ≠ null ∧ null ∉ as := by simpa [eq_comm] using hnn
    rw [hseg.1.1]
    cases i with
    | zero => rfl
    | succ i =>
      have hnext : (h.around list).next x = (h.cells x).next := if_neg hx
      rw [TreeHeap.listSkip, if_neg hx, ← hnext]
      exact ih hseg.2 hrest (Nat.le_of_succ_le_succ hi)

/-- `list_find_index` counts the cells. -/
theorem ListOk.listFindIndex (hl : ListOk h list as) (index : Nat) : h.listFindIndex list index = .ok (as.getD index null) := by
  rw [TreeHeap.listFindIndex, hl.length]
  split
  · grind
  · rename_i hle
    exact listSkip_seg hl.ring (nodup_cons.mp hl.nodup).1 (Nat.le_of_not_lt hle)

/-- The heap with `parent` for the parent of each of the nodes. -/
def TreeHeap.adopt (h : TreeHeap) (parent : Nat) (nodes : List Nat) : TreeHeap :=
  { h with treeNodes := fun x => if x ∈ nodes then { h.treeNodes x with parent := parent } else h.treeNodes x }

theorem adopt_cons (parent x : Nat) (nodes : List Nat) : (h.setParent x parent).adopt parent nodes = h.adopt parent (x :: nodes) := by
  simp only [TreeHeap.adopt, TreeHeap.setParent, TreeHeap.mk.injEq, true_and, and_true]
  funext y
  by_cases hy : y ∈ nodes <;> by_cases hyx : y = x <;> simp_all

/-- The loop gives all children the parent. -/
theorem setParents_seg {parent : Nat} (hseg : Seg (h.around list) a as null) (hnn : null ∉ as) (hfuel : as.length < fuel) :
    h.setParents parent fuel ((h.around list).next a) = .ok (h.adopt parent (as.map fun c => (h.cells c).value)) := by
  induction as generalizing h a fuel with
  | nil =>
    obtain ⟨fuel, rfl⟩ := Nat.exists_eq_succ_of_ne_zero (Nat.ne_of_gt hfuel)
    rw [hseg.1, TreeHeap.setParents, if_pos rfl]
    simp [TreeHeap.adopt]
  | cons x as ih =>
    obtain ⟨fuel, rfl⟩ := Nat.exists_eq_succ_of_ne_zero (Nat.ne_of_gt (Nat.lt_of_le_of_lt (Nat.zero_le _) hfuel))
    obtain ⟨hx, hrest⟩ : x ≠ null ∧ null ∉ as := by simpa [eq_comm] using hnn
    have hnext : (h.around list).next x = (h.cells x).next := if_neg hx
    rw [hseg.1.1, TreeHeap.setParents, if_neg hx, ← hnext]
    exact (ih (h := h.setParent (h.cells x).value parent) hseg.2 hrest (Nat.lt_of_succ_lt_succ hfuel)).trans (by rw [adopt_cons]; rfl)

end OmegaOS
