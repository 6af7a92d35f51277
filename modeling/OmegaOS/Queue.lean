import OmegaOS.Common

/-!
# The pointer queue

`misc/queue.c`: a singly linked list of heap nodes with a front and a rear pointer, a count and a spin lock. Addresses are
numbers and 0 is `NULL`. The node an enqueue puts its data in is the one `kmalloc` gave it, an argument here.
-/

namespace OmegaOS

open Function

/-- `QueueNode_t`. -/
structure QueueNode where
  data : Nat
  next : Nat
deriving DecidableEq, Repr

/-- `Queue_t`. -/
structure Queue where
  front : Nat
  rear : Nat
  count : Nat
  lock : Bool
deriving DecidableEq, Repr

/-- The memory of the queue nodes, by address. -/
abbrev Nodes := Nat → QueueNode

/-- `queue_create`. -/
def queueCreate : Queue := { front := null, rear := null, count := 0, lock := false }

/-- `queue_enqueue`, with `tmp` the address of the node. -/
def queueEnqueue (m : Nodes) (q : Queue) (tmp data : Nat) : Except Halt (Nodes × Queue) :=
  if q.lock then .error .spin
  else
    let m := update m tmp { data := data, next := null }
    if q.rear = null then
      .ok (m, { q with front := tmp, rear := tmp, count := q.count + 1 })
    else
      .ok (update m q.rear { m q.rear with next := tmp }, { q with rear := tmp, count := q.count + 1 })

/-- `queue_deqeueue`: the data of the front node, `NULL` from an empty queue. -/
def queueDeqeueue (m : Nodes) (q : Queue) : Except Halt (Nat × Queue) :=
  if q.count = 0 then .ok (null, q)
  else if q.lock then .error .spin
  else
    let front := (m q.front).next
    .ok ((m q.front).data,
      { q with front := front, rear := if front = null then null else q.rear, count := q.count - 1 })

/-- The loop of `queue_remove`: the node that holds `data`, with the node before it (`NULL` at the front). At most `fuel` nodes
are visited. -/
def queueFind (m : Nodes) (data : Nat) : Nat → Nat → Nat → Option (Nat × Nat)
  | 0, _, _ => none
  | fuel + 1, tmp, prev =>
    if tmp = null then none
    else if (m tmp).data = data then some (tmp, prev)
    else queueFind m data fuel (m tmp).next tmp

/-- `queue_remove`. The rear pointer is not touched, and the lock is released only when the data was found. -/
def queueRemove (m : Nodes) (q : Queue) (data : Nat) : Except Halt (Nodes × Queue) :=
  if q.lock then .error .spin
  else
    match queueFind m data q.count q.front null with
    | none => .ok (m, { q with lock := true })
    | some (tmp, prev) =>
      if prev = null then .ok (m, { q with front := (m tmp).next, count := q.count - 1 })
      else .ok (update m prev { m prev with next := (m tmp).next }, { q with count := q.count - 1 })

/-- The addresses met by following `next` for a number of steps. -/
def nodesFrom (m : Nodes) : Nat → Nat → List Nat
  | 0, _ => []
  | n + 1, a => a :: nodesFrom m n (m a).next

/-- The nodes of a queue, from the front. -/
def queueNodes (m : Nodes) (q : Queue) : List Nat := nodesFrom m q.count q.front

/-- The data of a list of nodes. -/
def dataOf (m : Nodes) (as : List Nat) : List Nat := as.map fun a => (m a).data

end OmegaOS
