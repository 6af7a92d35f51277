import OmegaOS.Common

/-!
# Lists and the process tree

`misc/list.c` and `misc/tree.c`. Objects of each type have a memory of their own, by address. What `kmalloc`
returns is an argument of the functions that call it.
-/

namespace OmegaOS

open Function

/-- `node_t`. -/
structure ListNode where
  next : Nat
  prev : Nat
  value : Nat
deriving DecidableEq, Repr

/-- `list_t`. -/
structure ListHead where
  head : Nat
  tail : Nat
  length : Nat
deriving DecidableEq, Repr

/-- `TreeNode_t`. -/
structure TreeNode where
  value : Nat
  children : Nat
  parent : Nat
deriving DecidableEq, Repr

/-- `Tree_t`. -/
structure Tree where
  root : Nat
  nodes : Nat
  lock : Bool
deriving DecidableEq, Repr

/-- The tree and the memory of its objects. -/
structure TreeHeap where
  cells : Nat → ListNode
  lists : Nat → ListHead
  treeNodes : Nat → TreeNode
  tree : Tree

/-- Memory that holds nothing. -/
def emptyTreeHeap : TreeHeap := ⟨fun _ => ⟨0, 0, 0⟩, fun _ => ⟨0, 0, 0⟩, fun _ => ⟨0, 0, 0⟩, ⟨0, 0, false⟩⟩

namespace TreeHeap

/-- `node->next = v`. -/
def setNext (h : TreeHeap) (node v : Nat) : TreeHeap := { h with cells := update h.cells node { h.cells node with next := v } }

/-- `node->prev = v`. -/
def setPrev (h : TreeHeap) (node v : Nat) : TreeHeap := { h with cells := update h.cells node { h.cells node with prev := v } }

/-- An assignment to fields of a list. -/
def setList (h : TreeHeap) (list : Nat) (v : ListHead) : TreeHeap := { h with lists := update h.lists list v }

/-- `node->parent = parent`. -/
def setParent (h : TreeHeap) (node parent : Nat) : TreeHeap :=
  { h with treeNodes := update h.treeNodes node { h.treeNodes node with parent := parent } }

/-! ## Lists -/

/-- `list_create`, in the memory `list`. -/
def listCreate (h : TreeHeap) (list : Nat) : TreeHeap := h.setList list ⟨null, null, 0⟩

/-- `list_append`. -/
def listAppend (h : TreeHeap) (list node : Nat) : TreeHeap :=
  let l := h.lists list
  let h := h.setNext node null
  if l.tail = null then (h.setPrev node null).setList list ⟨node, node, l.length + 1⟩
  else ((h.setNext l.tail node).setPrev node l.tail).setList list ⟨l.head, node, l.length + 1⟩

/-- `list_insert`, with the memory `node` for the cell. -/
def listInsert (h : TreeHeap) (list item node : Nat) : Int × TreeHeap :=
  if node = null then (-1, h)
  else
    let h := { h with cells := update h.cells node ⟨null, null, item⟩ }
    let h := h.listAppend list node
    ((h.lists list).length - 1, h)

/-- `list_append_after`. -/
def listAppendAfter (h : TreeHeap) (list before node : Nat) : Except Halt TreeHeap :=
  let l := h.lists list
  if l.tail = null then .ok (h.listAppend list node)
  else if before = null then
    if l.head = null then .error .nullAccess
    else .ok (((h.setNext node l.head).setPrev l.head node).setList list ⟨node, l.tail, l.length + 1⟩)
  else if before = l.tail then .ok (((h.setPrev node before).setNext before node).setList list ⟨l.head, node, l.length + 1⟩)
  else
    let next := (h.cells before).next
    if next = null then .error .nullAccess
    else
      let h := (h.setPrev next node).setNext node next
      .ok (((h.setPrev node before).setNext before node).setList list ⟨l.head, l.tail, l.length + 1⟩)

/-- `list_insert_after`, with the memory `node` for the cell. It is not checked. -/
def listInsertAfter (h : TreeHeap) (list before item node : Nat) : Except Halt TreeHeap :=
  if node = null then .error .nullAccess
  else { h with cells := update h.cells node ⟨null, null, item⟩ }.listAppendAfter list before node

/-- The loop of `list_find_index`. -/
def listSkip (h : TreeHeap) : Nat → Nat → Except Halt Nat
  | 0, n => .ok n
  | i + 1, n => if n = null then .error .nullAccess else h.listSkip i (h.cells n).next

/-- `list_find_index`. -/
def listFindIndex (h : TreeHeap) (list index : Nat) : Except Halt Nat :=
  if index > (h.lists list).length then .ok null else h.listSkip index (h.lists list).head

/-- The loop of `list_find` from `item` on. A list of `fuel` cells or more is not searched to its end. -/
def listFind (h : TreeHeap) (value : Nat) : Nat → Nat → Except Halt Nat
  | 0, _ => .error .spin
  | fuel + 1, item =>
    if item = null then .ok null
    else if (h.cells item).value = value then .ok item
    else h.listFind value fuel (h.cells item).next

/-- The assignments of `list_delete`. -/
def listUnlink (h : TreeHeap) (list node : Nat) : TreeHeap :=
  let l := h.lists list
  let ⟨next, prev, _⟩ := h.cells node
  let head := if node = l.head then next else l.head
  let tail := if node = l.tail then prev else l.tail
  let h := if prev = null then h else h.setNext prev next
  let h := if next = null then h else h.setPrev next prev
  ((h.setPrev node null).setNext node null).setList list ⟨head, tail, l.length - 1⟩

/-- `list_delete`. -/
def listDelete (h : TreeHeap) (list node : Nat) : Except Halt TreeHeap :=
  if node = null then .error .nullAccess else .ok (h.listUnlink list node)

/-- `list_pop`. -/
def listPop (h : TreeHeap) (list : Nat) : Except Halt (Nat × TreeHeap) := do
  let out := (h.lists list).tail
  if out = null then return (null, h)
  return (out, ← h.listDelete list out)

/-- `list_dequeue`. -/
def listDequeue (h : TreeHeap) (list : Nat) : Except Halt (Nat × TreeHeap) := do
  let out := (h.lists list).head
  if out = null then return (null, h)
  return (out, ← h.listDelete list out)

/-- `list_merge`. The back link of the first cell of `source` is not set. -/
def listMerge (h : TreeHeap) (target source : Nat) : TreeHeap :=
  let t := h.lists target
  let s := h.lists source
  let h := if t.tail = null then h else h.setNext t.tail s.head
  let head := if t.tail = null then s.head else t.head
  let tail := if s.tail = null then t.tail else s.tail
  h.setList target ⟨head, tail, t.length + s.length⟩

/-! ## The tree -/

/-- `tree_create`. -/
def treeCreate (h : TreeHeap) : TreeHeap := { h with tree := ⟨null, 0, false⟩ }

/-- `tree_create_node`, in the memory `node`, with `list` for its children. -/
def treeCreateNode (h : TreeHeap) (node list value : Nat) : TreeHeap :=
  let h := h.listCreate list
  { h with treeNodes := update h.treeNodes node ⟨value, list, null⟩ }

/-- `tree_set_root`. -/
def treeSetRoot (h : TreeHeap) (node list value : Nat) : TreeHeap :=
  let h := h.treeCreateNode node list value
  { h with tree := { h.tree with root := node, nodes := 1 } }

/-- `tree_insert`, with the memory `cell` for the parent's list. -/
def treeInsert (h : TreeHeap) (parent node cell : Nat) : Except Halt TreeHeap :=
  if h.tree.lock then .error .spin
  else
    let (_, h) := h.listInsert (h.treeNodes parent).children node cell
    let h := h.setParent node parent
    .ok { h with tree := { h.tree with nodes := h.tree.nodes + 1 } }

/-- The loop of `tree_remove` over the children of the node, from `child` on. -/
def setParents (h : TreeHeap) (parent : Nat) : Nat → Nat → Except Halt TreeHeap
  | 0, _ => .error .spin
  | fuel + 1, child =>
    if child = null then .ok h
    else (h.setParent (h.cells child).value parent).setParents parent fuel (h.cells child).next

/-- `tree_remove`. -/
def treeRemove (h : TreeHeap) (node fuel : Nat) : Except Halt TreeHeap := do
  let parent := (h.treeNodes node).parent
  if parent = null then .error .nullAccess
  else if h.tree.lock then .error .spin
  else
    let list := (h.treeNodes parent).children
    let children := (h.treeNodes node).children
    let cell ← h.listFind node fuel (h.lists list).head
    let h ← h.listDelete list cell
    let h ← h.setParents parent fuel (h.lists children).head
    let h := h.listMerge list children
    return { h with tree := { h.tree with nodes := h.tree.nodes - 1 } }

end TreeHeap

end OmegaOS
