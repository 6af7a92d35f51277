import Mathlib.Data.List.Perm.Subperm
import OmegaOS.Lemmas.Tree
import OmegaOS.Lib.ParentTree
import OmegaOS.Lib.Runs

/-!
# The process tree

The tree is to be a tree: an insertion adds a leaf, a removal gives the children of the node to its parent. `list_merge` does not set
the back link of the first cell it appends, and `tree_insert` goes on when `list_insert` has no memory, so a run keeps the tree exactly
as long as each removed node has no children or no siblings and every cell is allocated.
-/

namespace OmegaOS

open ParentTree Runs List Function

/-- What is called, with what `kmalloc` returns: a new node is created with its list and inserted with a cell. -/
inductive TreeCall where
  | insert (parent node list cell value : Nat)
  | remove (node fuel : Nat)

def TreeCall.run (h : TreeHeap) : TreeCall → Except Halt (Unit × TreeHeap)
  | .insert parent node list cell value => do
    let h ← (h.treeCreateNode node list value).treeInsert parent node cell
    return ((), h)
  | .remove node fuel => do
    let h ← h.treeRemove node fuel
    return ((), h)

/-- The call on the tree that the heap stands for. -/
def TreeCall.spec (t : Shape Nat) : TreeCall → Unit × Shape Nat
  | .insert parent node _ _ _ => ((), t.insert parent node)
  | .remove node _ => ((), t.splice node)

/-- The heap holds the tree, with the cells of each node's list. -/
structure TreeHolds (h : TreeHeap) (t : Shape Nat) (cells : Nat → List Nat) : Prop where
  shape : t.Ok
  ne_null : ∀ x ∈ t.members, x ≠ null
  tree : h.tree = ⟨t.root, t.members.length, false⟩
  root : (h.treeNodes t.root).parent = null
  parent : ∀ x ∈ t.members, x ≠ t.root → (h.treeNodes x).parent = t.parent x
  list : ∀ p ∈ t.members, ListOk h (h.treeNodes p).children (cells p)
  kids : ∀ p ∈ t.members, (cells p).map (fun c => (h.cells c).value) = t.kids p
  distinct : ∀ p ∈ t.members, ∀ q ∈ t.members, (h.treeNodes p).children = (h.treeNodes q).children → p = q
  apart : ∀ p ∈ t.members, ∀ q ∈ t.members, ∀ c ∈ cells p, c ∈ cells q → p = q

def TreeIs (h : TreeHeap) (t : Shape Nat) : Prop := ∃ cells, TreeHolds h t cells

/-- The parent of a new node is a member, and the memory of the node, of its list and of its cell is not that of a member; a failed
allocation of the cell is `NULL`. A removed node is a member, not the root. -/
def TreeCall.Valid (h : TreeHeap) (t : Shape Nat) : TreeCall → Prop
  | .insert parent node list cell _ => parent ∈ t.members ∧ node ≠ null ∧ node ∉ t.members ∧
      ∀ p ∈ t.members, list ≠ (h.treeNodes p).children ∧ cell ∉ h.cellsOf (h.treeNodes p).children
  | .remove node fuel => node ∈ t.members ∧ node ≠ t.root ∧ t.members.length < fuel

/-- The cell is allocated. The removed node has no children, or is an only child. -/
def TreeCall.Sound (t : Shape Nat) : TreeCall → Prop
  | .insert _ _ _ cell _ => cell ≠ null
  | .remove node _ => t.kids node = [] ∨ t.kids (t.parent node) = [node]

variable {h : TreeHeap} {t : Shape Nat} {cells : Nat → List Nat}

theorem treeHolds_treeSetRoot (h : TreeHeap) {root : Nat} (list value : Nat) (hroot : root ≠ null) :
    TreeHolds (h.treeCreate.treeSetRoot root list value) (Shape.single root) fun _ => [] := by
  have hone : ∀ {x}, x ∈ (Shape.single root).members → x = root := mem_singleton.mp
  refine ⟨ok_single root, fun x hx => hone hx ▸ hroot, rfl, ?_, fun x hx hne => absurd (hone hx) hne, fun p hp => ?_, fun p hp => rfl,
    fun p hp q hq _ => (hone hp).trans (hone hq).symm, fun p _ q _ c hc => by cases hc⟩
  · simp [Shape.single, TreeHeap.treeSetRoot, TreeHeap.treeCreateNode]
  · rw [hone hp]
    apply listOk_nil
    simp [TreeHeap.treeSetRoot, TreeHeap.treeCreateNode, TreeHeap.listCreate]

/-! ## Insertion -/

section Insert

variable {parent node list cell : Nat}

/-- The memory after `tree_create_node` holds the tree as before. -/
theorem TreeHolds.treeCreateNode (hold : TreeHolds h t cells) (value : Nat) (hnode : node ∉ t.members)
    (hlist : ∀ p ∈ t.members, list ≠ (h.treeNodes p).children) : TreeHolds (h.treeCreateNode node list value) t cells := by
  have hsame : ∀ p ∈ t.members, (h.treeCreateNode node list value).treeNodes p = h.treeNodes p := by
    intro p hp
    have hne : p ≠ node := fun he => hnode (he ▸ hp)
    exact update_of_ne hne _ _
  refine ⟨hold.shape, hold.ne_null, hold.tree, ?_, fun x hx hne => ?_, fun p hp => ?_, hold.kids, fun p hp q hq => ?_, hold.apart⟩
  · rw [hsame _ hold.shape.root_mem, hold.root]
  · rw [hsame x hx, hold.parent x hx hne]
  · rw [hsame p hp]
    exact (hold.list p hp).congr (update_of_ne (Ne.symm (hlist p hp)) _ _) fun _ _ => rfl
  · rw [hsame p hp, hsame q hq]
    exact hold.distinct p hp q hq

/-- The cells of the lists after an insertion. -/
def insertCells (cells : Nat → List Nat) (parent node cell : Nat) : Nat → List Nat :=
  update (update cells parent (cells parent ++ [cell])) node []

theorem insertCells_new : insertCells cells parent node cell node = [] := by simp [insertCells]

theorem insertCells_parent (h : parent ≠ node) : insertCells cells parent node cell parent = cells parent ++ [cell] := by
  simp [insertCells, h]

theorem insertCells_of_ne {q : Nat} (hp : q ≠ parent) (hn : q ≠ node) : insertCells cells parent node cell q = cells q := by
  simp [insertCells, hp, hn]

theorem mem_insertCells {q c : Nat} (hpn : parent ≠ node) (hc : c ∈ insertCells cells parent node cell q) :
    c ∈ cells q ∨ q = parent ∧ c = cell := by
  by_cases hqn : q = node
  · simp [hqn, insertCells_new] at hc
  · by_cases hqp : q = parent
    · rw [hqp, insertCells_parent hpn] at hc
      rw [hqp]
      exact (mem_append.mp hc).imp_right fun hc => ⟨rfl, mem_singleton.mp hc⟩
    · rw [insertCells_of_ne hqp hqn] at hc
      exact .inl hc

section

variable (hold : TreeHolds h t cells)

include hold

section

variable {h' : TreeHeap} {q : Nat} (hparent : parent ∈ t.members) (hnode : node ∉ t.members) (hfresh : ∀ p ∈ t.members, cell ∉ cells p)
  (hins : ListInserted h h' (h.treeNodes parent).children node cell (cells parent)) (hq : q ∈ t.members)

include hparent hnode hfresh hins hq

/-- The lists of the members after one of them got a cell. -/
theorem TreeHolds.insert_list : ListOk h' (h.treeNodes q).children (insertCells cells parent node cell q) := by
  have hne : ∀ {x}, x ∈ t.members → x ≠ node := fun hx he => hnode (he ▸ hx)
  by_cases hqp : q = parent
  · rw [hqp, insertCells_parent (hne hparent)]
    exact hins.ok
  · rw [insertCells_of_ne hqp (hne hq)]
    -- the cells of another list are none of those that the insertion writes
    refine (hold.list q hq).congr (hins.lists _ fun he => hqp (hold.distinct q hq parent hparent he)) fun c hc =>
      hins.cells c (fun he => hfresh q hq (he ▸ hc)) fun hmem => ?_
    rcases mem_cons.mp hmem with he | hmem
    · exact (hold.list q hq).ne_null hc he
    · exact hqp (hold.apart q hq parent hparent c hc hmem)

theorem TreeHolds.insert_kids :
    (insertCells cells parent node cell q).map (fun c => (h'.cells c).value) = (t.insert parent node).kids q := by
  have hne : ∀ {x}, x ∈ t.members → x ≠ node := fun hx he => hnode (he ▸ hx)
  have hvalues : ∀ p ∈ t.members, (cells p).map (fun c => (h'.cells c).value) = t.kids p := by
    intro p hp
    rw [← hold.kids p hp]
    exact map_congr_left fun c hc => hins.values c fun he => hfresh p hp (he ▸ hc)
  by_cases hqp : q = parent
  · rw [hqp, insertCells_parent (hne hparent), insert_kids_self (hne hparent), map_append, hvalues parent hparent, map_singleton,
      hins.value]
  · rw [insertCells_of_ne hqp (hne hq), insert_kids_of_ne hqp (hne hq), hvalues q hq]

end

/-- `tree_insert` of a new node returns, and inserts it. -/
theorem TreeHolds.treeInsert (hparent : parent ∈ t.members) (hne : node ≠ null) (hnode : node ∉ t.members)
    (hempty : h.lists (h.treeNodes node).children = ⟨null, null, 0⟩)
    (hlist : ∀ p ∈ t.members, (h.treeNodes node).children ≠ (h.treeNodes p).children) (hcell : cell ≠ null)
    (hfresh : ∀ p ∈ t.members, cell ∉ cells p) : ∃ h', h.treeInsert parent node cell = .ok h' ∧ TreeIs h' (t.insert parent node) := by
  have hpn : parent ≠ node := fun he => hnode (he ▸ hparent)
  have hins := (hold.list parent hparent).listInsert node hcell (hfresh parent hparent)
  have hlock : h.tree.lock = false := by rw [hold.tree]
  rw [TreeHeap.treeInsert, hlock]
  generalize h.listInsert (h.treeNodes parent).children node cell = r at hins
  refine ⟨_, rfl, insertCells cells parent node cell, ?_⟩
  have hold' : ∀ {q}, q ∈ t.members → q ≠ node := fun hq he => hnode (he ▸ hq)
  have hcases : ∀ {q}, q ∈ (t.insert parent node).members → q = node ∨ q ∈ t.members := by
    intro q hq
    exact (mem_append.mp hq).symm.imp_left mem_singleton.mp
  have hchildren : ∀ q, ((r.2.setParent node parent).treeNodes q).children = (h.treeNodes q).children := by
    intro q
    by_cases hq : q = node <;> simp [TreeHeap.setParent, hins.treeNodes, hq]
  have hparents : ∀ q, q ≠ node → ((r.2.setParent node parent).treeNodes q).parent = (h.treeNodes q).parent := by
    intro q hq
    simp [TreeHeap.setParent, hins.treeNodes, hq]
  refine ⟨hold.shape.insert hparent hnode, fun x hx => ?_, ?_, ?_, fun x hx hxr => ?_, fun q hq => ?_, fun q hq => ?_, fun q hq q' hq' he => ?_,
    fun q hq q' hq' c hc hc' => ?_⟩
  · rcases hcases hx with rfl | hx
    · exact hne
    · exact hold.ne_null x hx
  · simp [TreeHeap.setParent, hins.tree, hold.tree, Shape.insert]
  · exact (hparents _ (hold' hold.shape.root_mem)).trans hold.root
  · rcases hcases hx with rfl | hx
    · simp [TreeHeap.setParent, Shape.insert]
    · exact (hparents x (hold' hx)).trans ((hold.parent x hx hxr).trans (insert_parent_of_ne (hold' hx)).symm)
  · refine ListOk.congr (h := r.2) ?_ rfl fun _ _ => rfl
    rw [hchildren]
    rcases hcases hq with rfl | hq
    · rw [insertCells_new]
      exact listOk_nil ((hins.lists _ (hlist parent hparent)).trans hempty)
    · exact hold.insert_list hparent hnode hfresh hins hq
  · rcases hcases hq with rfl | hq
    · rw [insertCells_new, insert_kids_new]
      rfl
    · have hkids := hold.insert_kids hparent hnode hfresh hins hq
      exact hkids
  · rw [hchildren, hchildren] at he
    rcases hcases hq with hqn | hqm <;> rcases hcases hq' with hqn' | hqm'
    · exact hqn.trans hqn'.symm
    · exact absurd (hqn ▸ he) (hlist q' hqm')
    · exact absurd (hqn' ▸ he.symm) (hlist q hqm)
    · exact hold.distinct q hqm q' hqm' he
  · have hmem : ∀ {x}, x ∈ (t.insert parent node).members → c ∈ insertCells cells parent node cell x → x ∈ t.members := by
      intro x hx hcx
      rcases hcases hx with rfl | hx
      · simp [insertCells_new] at hcx
      · exact hx
    rcases mem_insertCells hpn hc with hold1 | ⟨hqp, rfl⟩ <;> rcases mem_insertCells hpn hc' with hold2 | ⟨hqp', he⟩
    · exact hold.apart q (hmem hq hc) q' (hmem hq' hc') c hold1 hold2
    · exact absurd (he ▸ hold1) (hfresh q (hmem hq hc))
    · exact absurd hold2 (hfresh q' (hmem hq' hc'))
    · exact hqp.trans hqp'.symm

/-- An insertion keeps the tree exactly when the cell is allocated. -/
theorem TreeHolds.insert_iff (value : Nat) (hvalid : TreeCall.Valid h t (.insert parent node list cell value)) :
    (∃ h', (h.treeCreateNode node list value).treeInsert parent node cell = .ok h' ∧ TreeIs h' (t.insert parent node)) ↔ cell ≠ null := by
  obtain ⟨hparent, hne, hnode, hfresh⟩ := hvalid
  have hold1 := hold.treeCreateNode value hnode fun p hp => (hfresh p hp).1
  have hnodes : ∀ p ∈ t.members, (h.treeCreateNode node list value).treeNodes p = h.treeNodes p := by
    intro p hp
    have hpn : p ≠ node := fun he => hnode (he ▸ hp)
    exact update_of_ne hpn _ _
  have hchildren : ((h.treeCreateNode node list value).treeNodes node).children = list := by simp [TreeHeap.treeCreateNode]
  constructor
  · rintro ⟨h', hrun, cells', hold'⟩ rfl
    have hlock : (h.treeCreateNode node list value).tree.lock = false := by rw [hold1.tree]
    rw [TreeHeap.treeInsert, hlock] at hrun
    cases hrun
    -- the list of the parent is what it was, one child short
    have hpn : parent ≠ node := fun he => hnode (he ▸ hparent)
    have hkids' := hold'.kids parent (mem_append_left _ hparent)
    have hsame : cells' parent = cells parent := by
      have hlist' := hold'.list parent (mem_append_left _ hparent)
      simp only [TreeHeap.setParent, update_of_ne hpn] at hlist'
      have hlist : ListOk (h.treeCreateNode node list value) ((h.treeCreateNode node list value).treeNodes parent).children (cells' parent) :=
        hlist'.congr rfl fun _ _ => rfl
      exact hlist.cellsOf_eq.symm.trans (hold1.list parent hparent).cellsOf_eq
    rw [insert_kids_self hpn, hsame] at hkids'
    have hlength := congrArg length (hkids'.symm.trans (hold.kids parent hparent))
    simp at hlength
  · intro hcell
    refine hold1.treeInsert hparent hne hnode ?_ (fun p hp => ?_) hcell fun p hp => ?_
    · rw [hchildren]
      exact update_self ..
    · rw [hchildren, hnodes p hp]
      exact (hfresh p hp).1
    · rw [← (hold.list p hp).cellsOf_eq]
      exact (hfresh p hp).2

end

end Insert

/-! ## Removal -/

section Remove

variable {node fuel : Nat}

/-- `tree_remove` before it merges the lists: the cell of the node is out of the list of its parent, and the node's children have the
parent. -/
structure Unlinked (h h' : TreeHeap) (t : Shape Nat) (cells : Nat → List Nat) (node : Nat) (rest : List Nat) : Prop where
  list : ListOk h' (h.treeNodes (t.parent node)).children rest
  kids : rest.map (fun c => (h.cells c).value) = (t.kids (t.parent node)).erase node
  sub : rest ⊆ cells (t.parent node)
  others : ∀ q ∈ t.members, q ≠ t.parent node → ListOk h' (h.treeNodes q).children (cells q)
  values : ∀ c, (h'.cells c).value = (h.cells c).value
  treeNodes : h'.treeNodes = (h.adopt (t.parent node) (t.kids node)).treeNodes
  tree : h'.tree = h.tree

theorem TreeHolds.exists_cell (hold : TreeHolds h t cells) (hnode : node ∈ t.members) (hne : node ≠ t.root) :
    ∃ xs c ys, cells (t.parent node) = xs ++ c :: ys ∧ (h.cells c).value = node ∧ (∀ x ∈ xs, (h.cells x).value ≠ node) ∧
      (xs ++ ys).map (fun c => (h.cells c).value) = (t.kids (t.parent node)).erase node := by
  obtain ⟨hpm, hkid⟩ := hold.shape.mem_kids node hnode hne
  have hnodup := hold.shape.kids_nodup _ hpm
  rw [← hold.kids _ hpm] at hkid hnodup ⊢
  obtain ⟨c, hc, hvalue⟩ := mem_map.mp hkid
  obtain ⟨xs, ys, hcells⟩ := append_of_mem hc
  rw [hcells, map_append, map_cons, hvalue] at hnodup
  have hno : node ∉ xs.map fun c => (h.cells c).value := fun hx => (nodup_append.mp hnodup).2.2 node hx node mem_cons_self rfl
  refine ⟨xs, c, ys, hcells, hvalue, fun x hx he => hno (mem_map.mpr ⟨x, hx, he⟩), ?_⟩
  rw [hcells, map_append, map_append, map_cons, hvalue, erase_append_right _ hno, erase_cons_head]

/-- A list of children has fewer cells than the tree has members. -/
theorem TreeHolds.length_le (hold : TreeHolds h t cells) {p : Nat} (hp : p ∈ t.members) : (cells p).length ≤ t.members.length := by
  have hlength : (t.kids p).length = (cells p).length := by rw [← hold.kids p hp, length_map]
  rw [← hlength]
  exact (subperm_of_subset (hold.shape.kids_nodup p hp) fun x hx => (hold.shape.of_kids p hp x hx).1).length_le

/-- What `tree_remove` does up to the merge. -/
theorem TreeHolds.treeRemove_unlinked (hold : TreeHolds h t cells) (hnode : node ∈ t.members) (hne : node ≠ t.root)
    (hfuel : t.members.length < fuel) : ∃ h' rest, Unlinked h h' t cells node rest ∧
      let merged := h'.listMerge (h.treeNodes (t.parent node)).children (h.treeNodes node).children
      h.treeRemove node fuel = .ok { merged with tree := { merged.tree with nodes := merged.tree.nodes - 1 } } := by
  obtain ⟨hpm, -⟩ := hold.shape.mem_kids node hnode hne
  have hpn := hold.shape.parent_ne hnode hne
  obtain ⟨xs, c, ys, hcells, hvalue, hno, herase⟩ := hold.exists_cell hnode hne
  have hlist := hold.list _ hpm
  rw [hcells] at hlist
  have hlock : h.tree.lock = false := by rw [hold.tree]
  have hfind : h.listFind node fuel (h.lists (h.treeNodes (t.parent node)).children).head = .ok c := by
    have hlen : xs.length < fuel := by
      have := hold.length_le hpm
      rw [hcells, length_append, length_cons] at this
      omega
    have := listFind_seg hlist.ring (nodup_cons.mp hlist.nodup).1 (hvalue ▸ hno) hlen
    rwa [hvalue] at this
  obtain ⟨h1, hdelete, hdel⟩ := hlist.listDelete
  -- the other lists are as they were
  have hothers : ∀ q ∈ t.members, q ≠ t.parent node → ListOk h1 (h.treeNodes q).children (cells q) := by
    intro q hq hqp
    refine (hold.list q hq).congr (hdel.lists _ fun he => hqp (hold.distinct q hq _ hpm he)) fun a ha => hdel.cells a fun hmem => ?_
    rcases mem_cons.mp hmem with he | hmem
    · exact (hold.list q hq).ne_null ha he
    · exact hqp (hold.apart q hq _ hpm a ha (hcells ▸ hmem))
  have hchildren := hothers node hnode hpn.symm
  have hkids : (cells node).map (fun c => (h1.cells c).value) = t.kids node := by
    rw [← hold.kids node hnode]
    exact map_congr_left fun c _ => hdel.values c
  have hparents : h1.setParents (t.parent node) fuel (h1.lists (h.treeNodes node).children).head =
      .ok (h1.adopt (t.parent node) (t.kids node)) := by
    rw [← hkids]
    exact setParents_seg hchildren.ring (nodup_cons.mp hchildren.nodup).1 (Nat.lt_of_le_of_lt (hold.length_le hnode) hfuel)
  refine ⟨h1.adopt (t.parent node) (t.kids node), xs ++ ys, ⟨hdel.ok.congr rfl fun _ _ => rfl, herase, ?_, fun q hq hqp => ?_, hdel.values,
    ?_, hdel.tree⟩, ?_⟩
  · rw [hcells]
    exact (List.Sublist.append_left (sublist_cons_self c ys) xs).subset
  · exact (hothers q hq hqp).congr rfl fun _ _ => rfl
  · simp only [TreeHeap.adopt, hdel.treeNodes]
  · have hnn := hold.ne_null _ hpm
    rw [TreeHeap.treeRemove, hold.parent node hnode hne, if_neg hnn, hlock, if_neg Bool.false_ne_true]
    dsimp only
    rw [hfind]
    show (h.listDelete _ c >>= _) = _
    rw [hdelete]
    show (h1.setParents _ fuel _ >>= _) = _
    rw [hparents]
    rfl

theorem adopt_treeNodes (parent : Nat) (nodes : List Nat) (q : Nat) :
    ((h.adopt parent nodes).treeNodes q).children = (h.treeNodes q).children ∧
      ((h.adopt parent nodes).treeNodes q).parent = if q ∈ nodes then parent else (h.treeNodes q).parent := by
  simp only [TreeHeap.adopt]
  split <;> exact ⟨rfl, rfl⟩

/-- The merge keeps the tree when one of the two lists is empty. -/
theorem Unlinked.treeHolds {h' : TreeHeap} {rest : List Nat} (hun : Unlinked h h' t cells node rest) (hold : TreeHolds h t cells)
    (hnode : node ∈ t.members) (hne : node ≠ t.root) (hempty : rest = [] ∨ cells node = []) :
    let merged := h'.listMerge (h.treeNodes (t.parent node)).children (h.treeNodes node).children
    TreeHolds { merged with tree := { merged.tree with nodes := merged.tree.nodes - 1 } } (t.splice node)
      (update cells (t.parent node) (rest ++ cells node)) := by
  obtain ⟨hpm, hkid⟩ := hold.shape.mem_kids node hnode hne
  have hpn := hold.shape.parent_ne hnode hne
  obtain ⟨hok, hcells⟩ := hun.list.listMerge (hun.others node hnode hpn.symm) hempty
  obtain ⟨hnodes, htree, hlists⟩ := listMerge_frame h' (h.treeNodes (t.parent node)).children (h.treeNodes node).children
  generalize h'.listMerge (h.treeNodes (t.parent node)).children (h.treeNodes node).children = h2 at hok hcells hnodes htree hlists
  generalize hcells' : update cells (t.parent node) (rest ++ cells node) = cells'
  have hcp : cells' (t.parent node) = rest ++ cells node := by simp [← hcells']
  have hco : ∀ q, q ≠ t.parent node → cells' q = cells q := fun q hq => by simp [← hcells', hq]
  rw [hun.treeNodes] at hnodes
  have hold' : ∀ {q}, q ∈ (t.splice node).members → q ∈ t.members := fun hq => (hold.shape.mem_splice.mp hq).2
  have hvalues : ∀ q ∈ t.members, (cells q).map (fun c => (h2.cells c).value) = t.kids q := by
    intro q hq
    rw [← hold.kids q hq, hcells]
    exact map_congr_left fun c _ => hun.values c
  refine ⟨hold.shape.splice hnode hne, fun x hx => hold.ne_null x (hold' hx), ?_, ?_, fun x hx hxr => ?_, fun q hq => ?_, fun q hq => ?_,
    fun q hq q' hq' he => ?_, ?_⟩
  · simp [htree, hun.tree, hold.tree, Shape.splice, length_erase_of_mem hnode]
  · show (h2.treeNodes t.root).parent = null
    have hroot : t.root ∉ t.kids node := fun hk => (hold.shape.of_kids node hnode _ hk).2.1 rfl
    rw [hnodes, (adopt_treeNodes _ _ _).2, if_neg hroot, hold.root]
  · show (h2.treeNodes x).parent = if x ∈ t.kids node then t.parent node else t.parent x
    rw [hnodes, (adopt_treeNodes _ _ _).2, hold.parent x (hold' hx) hxr]
  · refine ListOk.congr (h := h2) ?_ rfl fun _ _ => rfl
    rw [hnodes, (adopt_treeNodes _ _ _).1]
    by_cases hqp : q = t.parent node
    · rwa [hqp, hcp]
    · rw [hco q hqp]
      refine (hun.others q (hold' hq) hqp).congr (hlists _ fun he => hqp (hold.distinct q (hold' hq) _ hpm he)) fun c _ => by rw [hcells]
  · by_cases hqp : q = t.parent node
    · rw [hqp, hcp, splice_kids_parent, map_append, hvalues node hnode, ← hun.kids, hcells]
      exact congrArg (· ++ t.kids node) (map_congr_left fun c _ => hun.values c)
    · rw [hco q hqp, splice_kids_of_ne hqp, hvalues q (hold' hq)]
  · refine hold.distinct q (hold' hq) q' (hold' hq') ?_
    rwa [hnodes, (adopt_treeNodes _ _ _).1, (adopt_treeNodes _ _ _).1] at he
  · -- the cells of the parent's list are its own and those of the node, which is no member any more
    have hmem : ∀ q c, c ∈ cells' q → c ∈ cells q ∨ q = t.parent node ∧ c ∈ cells node := by
      intro q c hc
      by_cases hqp : q = t.parent node
      · rw [hqp, hcp] at hc
        rw [hqp]
        exact (mem_append.mp hc).imp (fun hc => hun.sub hc) fun hc => ⟨rfl, hc⟩
      · rw [hco q hqp] at hc
        exact .inl hc
    intro q hq q' hq' c hc hc'
    have hqn := (hold.shape.mem_splice.mp hq).1
    have hqn' := (hold.shape.mem_splice.mp hq').1
    rcases hmem q c hc with hc | ⟨hqp, hc⟩ <;> rcases hmem q' c hc' with hc' | ⟨hqp', hc'⟩
    · exact hold.apart q (hold' hq) q' (hold' hq') c hc hc'
    · exact absurd (hold.apart q (hold' hq) node hnode c hc hc') hqn
    · exact absurd (hold.apart q' (hold' hq') node hnode c hc' hc) hqn'
    · exact hqp.trans hqp'.symm

/-- A removal keeps the tree exactly when the node has no children or no siblings. -/
theorem TreeHolds.treeRemove_iff (hold : TreeHolds h t cells) (hnode : node ∈ t.members) (hne : node ≠ t.root)
    (hfuel : t.members.length < fuel) :
    (∃ h', h.treeRemove node fuel = .ok h' ∧ TreeIs h' (t.splice node)) ↔ t.kids node = [] ∨ t.kids (t.parent node) = [node] := by
  obtain ⟨hpm, hkid⟩ := hold.shape.mem_kids node hnode hne
  have hpn := hold.shape.parent_ne hnode hne
  obtain ⟨h1, rest, hun, hrun⟩ := hold.treeRemove_unlinked hnode hne hfuel
  have hchildren := hun.others node hnode hpn.symm
  have hempty : rest = [] ∨ cells node = [] ↔ t.kids node = [] ∨ t.kids (t.parent node) = [node] := by
    rw [or_comm, ← hold.kids node hnode, map_eq_nil_iff, ← map_eq_nil_iff (l := rest), hun.kids, erase_eq_nil_iff]
    refine or_congr_right (or_iff_right fun hnil => ?_)
    simp [hnil] at hkid
  rw [← hempty]
  constructor
  · rintro ⟨h', hrun', cells', hold'⟩
    rw [hrun] at hrun'
    cases hrun'
    by_contra hboth
    obtain ⟨hrest, hcells⟩ := not_or.mp hboth
    have hlist := hold'.list (t.parent node) (hold.shape.mem_splice.mpr ⟨hpn, hpm⟩)
    rw [(listMerge_frame h1 _ _).1, hun.treeNodes, (adopt_treeNodes _ _ _).1] at hlist
    exact hun.list.not_listMerge hchildren hrest hcells (hlist.congr rfl fun _ _ => rfl)
  · intro hor
    exact ⟨_, hrun, _, hun.treeHolds hold hnode hne hor⟩

end Remove

/-! ## Runs -/

theorem TreeIs.run_iff (his : TreeIs h t) (c : TreeCall) (hvalid : c.Valid h t) :
    (∃ h', TreeCall.run h c = .ok ((c.spec t).1, h') ∧ TreeIs h' (c.spec t).2) ↔ c.Sound t := by
  obtain ⟨cells, hold⟩ := his
  have hreturn : ∀ {x : Except Halt TreeHeap} {t' : Shape Nat},
      (∃ h', (x >>= fun h => return ((), h)) = .ok ((), h') ∧ TreeIs h' t') ↔ ∃ h', x = .ok h' ∧ TreeIs h' t' := by
    intro x t'
    cases x with
    | error e => exact iff_of_false (by rintro ⟨_, ⟨⟩, _⟩) (by rintro ⟨_, ⟨⟩, _⟩)
    | ok h' =>
      refine exists_congr fun h'' => and_congr_left fun _ => ⟨fun he => ?_, fun he => ?_⟩
      · cases he
        rfl
      · cases he
        rfl
  cases c with
  | insert parent node list cell value => exact hreturn.trans (hold.insert_iff value hvalid)
  | remove node fuel => exact hreturn.trans (hold.treeRemove_iff hvalid.1 hvalid.2.1 hvalid.2.2)

/-- A run from `tree_set_root` keeps the tree exactly when every cell is allocated and every removed node has no children or is an only
child. -/
theorem treeRun_follows_iff (h : TreeHeap) {root : Nat} (list value : Nat) {cs : List TreeCall} (hroot : root ≠ null)
    (hvalid : Along TreeCall.run TreeCall.spec TreeCall.Valid (h.treeCreate.treeSetRoot root list value) (Shape.single root) cs) :
    Follows TreeCall.run TreeCall.spec TreeIs (h.treeCreate.treeSetRoot root list value) (Shape.single root) cs ↔
      Throughout TreeCall.spec TreeCall.Sound (Shape.single root) cs :=
  follows_iff (fun _ _ c his hvalid => his.run_iff c hvalid) ⟨_, treeHolds_treeSetRoot h list value hroot⟩ hvalid

/-- An only child with a child is removed. -/
theorem treeRun_follows_remove :
    Follows TreeCall.run TreeCall.spec TreeIs (emptyTreeHeap.treeCreate.treeSetRoot 100 200 0) (Shape.single 100)
      [.insert 100 101 201 301 1, .insert 101 102 202 302 2, .remove 101 4] := by
  refine (treeRun_follows_iff emptyTreeHeap 200 0 (by decide) ?_).mpr ⟨?_, ?_, .inr (by decide), trivial⟩
  · refine Along.cons ⟨by decide, by decide, by decide, by decide⟩ rfl (Along.cons ⟨by decide, by decide, by decide, by decide⟩ rfl ?_)
    exact Along.cons ⟨by decide, by decide, by decide⟩ rfl trivial
  · exact Nat.succ_ne_zero _
  · exact Nat.succ_ne_zero _

/-- Two children of the root, the first with a child. -/
def siblingsHeap : Except Halt TreeHeap := do
  let h := emptyTreeHeap.treeCreate.treeSetRoot 100 200 0
  let (_, h) ← TreeCall.run h (.insert 100 101 201 301 1)
  let (_, h) ← TreeCall.run h (.insert 100 102 202 302 2)
  let (_, h) ← TreeCall.run h (.insert 101 103 203 303 3)
  return h

/-- The first child is removed: the cell of its child follows that of the other and does not link back. When that one is removed too,
the list of the root has lost the other child. -/
theorem treeRemove_back_link_missing :
    (∃ h, (siblingsHeap >>= fun h => h.treeRemove 101 5) = .ok h ∧ h.cellsOf 200 = [302, 303] ∧ h.cells 303 = ⟨null, null, 103⟩ ∧
      ∀ t, t.root = 100 → ¬ TreeIs h t) ∧
    ((siblingsHeap >>= fun h => h.treeRemove 101 5 >>= fun h => h.treeRemove 103 5).toOption.map
      fun h => (h.lists 200, h.treeNodes 102)) = some (⟨null, null, 1⟩, ⟨2, 202, 100⟩) := by
  refine ⟨?_, by decide⟩
  have hrun : ((siblingsHeap >>= fun h => h.treeRemove 101 5).toOption.map
      fun h => (h.cellsOf 200, h.cells 303, (h.treeNodes 100).children)) = some ([302, 303], ⟨null, null, 103⟩, 200) := by decide
  cases hr : siblingsHeap >>= fun h => h.treeRemove 101 5 with
  | error e =>
    rw [hr] at hrun
    cases hrun
  | ok h =>
    rw [hr] at hrun
    obtain ⟨hcells, hback, hchildren⟩ : h.cellsOf 200 = [302, 303] ∧ h.cells 303 = ⟨null, null, 103⟩ ∧ (h.treeNodes 100).children = 200 := by
      simpa [Except.toOption] using hrun
    refine ⟨h, rfl, hcells, hback, ?_⟩
    rintro t ht ⟨cells, hold⟩
    have hlist := hold.list t.root hold.shape.root_mem
    rw [ht, hchildren] at hlist
    have hroot : cells 100 = [302, 303] := hlist.cellsOf_eq.symm.trans hcells
    rw [hroot] at hlist
    have hlink : (h.around 200).prev 303 = 302 := hlist.ring.2.1.2
    simp [TreeHeap.around, hback, null] at hlink

end OmegaOS
