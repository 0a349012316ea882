import WazAISentinel.Foundations.LinkedList
import WazAISentinel.Foundations.TransitionSystem

/-!
# The indexed queue

`indexed_queue_op.c` over `queue_linked_op.c`: a doubly linked queue of items and an index from keys
to entries, each of which points to its node of the queue. `upsert_ex` replaces the item of its key
or appends a new one; while the queue is full it sleeps and gives the mutex back.

A node is known by its address, which is given once; an access to a node that is not there has no
result (`none`). The index is a function. What happens under the mutex, from taking it (or waking
up) to giving it back (or falling asleep), is one step. The callback `get_key` is a parameter.
-/

namespace WazAISentinel.Shared.IndexedQueue

open Foundations

/-- The address of a node. -/
abbrev NodeId := Nat

/-- `w_linked_queue_node_t`. -/
structure Node (δ : Type) where
  data : δ
  next : Option NodeId
  prev : Option NodeId

/-- `w_linked_queue_t`, with the memory of the nodes. -/
structure LinkedQueue (δ : Type) where
  nodes : NodeId → Option (Node δ)
  allocated : Nat
  elements : Nat
  first : Option NodeId
  last : Option NodeId

/-- `w_indexed_queue_entry_t`. -/
structure Entry (κ δ : Type) where
  key : κ
  data : δ
  queueNode : NodeId

/-- `w_indexed_queue_t`; `dispose` says whether a disposer is set. -/
structure Queue (κ δ : Type) where
  queue : LinkedQueue δ
  index : κ → Option (Entry κ δ)
  maxSize : Nat
  currentSize : Nat
  dispose : Bool

namespace LinkedQueue

variable {δ : Type} (q : LinkedQueue δ)

/-- A node at an address. -/
def put (a : NodeId) (node : Node δ) : LinkedQueue δ :=
  { q with nodes := Function.update q.nodes a (some node) }

/-- Write to a node. -/
def modify (a : NodeId) (f : Node δ → Node δ) : Option (LinkedQueue δ) := do
  let node ← q.nodes a
  pure (q.put a (f node))

/-- `free` of a node. -/
def free (a : NodeId) : LinkedQueue δ := { q with nodes := Function.update q.nodes a none }

/-- The links `linked_queue_append_node` sets. -/
def appendLinks (a : NodeId) : Option (LinkedQueue δ) :=
  match q.first with
  | none =>
    ({ q with first := some a, last := some a } : LinkedQueue δ).modify a
      fun node => { node with prev := none, next := none }
  | some _ => do
      let last ← q.last
      let q ← q.modify last fun node => { node with next := some a }
      let q ← q.modify a fun node => { node with prev := some last, next := none }
      pure { q with last := some a }

/-- `linked_queue_push`: the queue and the new node. -/
def push (data : δ) : Option (LinkedQueue δ × NodeId) := do
  let a := q.allocated
  let q ← appendLinks { q.put a ⟨data, none, none⟩ with allocated := q.allocated + 1 } a
  pure ({ q with elements := q.elements + 1 }, a)

/-- The end of the queue that is left after the first node. -/
def clearPrev : Option (LinkedQueue δ) :=
  match q.first with
  | some first => q.modify first fun node => { node with prev := none }
  | none => some { q with last := none }

/-- `linked_queue_pop`. -/
def pop : Option (LinkedQueue δ × Option δ) :=
  match q.first with
  | none => some (q, none)
  | some a => do
      let node ← q.nodes a
      let q ← clearPrev { q with first := node.next }
      pure (({ q with elements := q.elements - 1 } : LinkedQueue δ).free a, some node.data)

/-- The node before a node that is taken out. -/
def linkNext (prev next : Option NodeId) : Option (LinkedQueue δ) :=
  match prev with
  | some p => q.modify p fun node => { node with next := next }
  | none => some { q with first := next }

/-- The node after a node that is taken out. -/
def linkPrev (prev next : Option NodeId) : Option (LinkedQueue δ) :=
  match next with
  | some n => q.modify n fun node => { node with prev := prev }
  | none => some { q with last := prev }

/-- `indexed_queue_delete`: the node is unlinked. -/
def unlink (a : NodeId) : Option (LinkedQueue δ) := do
  let node ← q.nodes a
  let q ← q.linkNext node.prev node.next
  let q ← q.linkPrev node.prev node.next
  pure { q with elements := q.elements - 1 }

/-- The link of a node. -/
def nextOf (a : NodeId) : Option NodeId := (q.nodes a).bind Node.next

/-- The link of a node to the one before. -/
def prevOf (a : NodeId) : Option NodeId := (q.nodes a).bind Node.prev

/-- The data of a node. -/
def dataOf (a : NodeId) : Option δ := (q.nodes a).map Node.data

/-- The nodes in the queue, from the first. -/
def order : List NodeId := walk q.nextOf q.elements q.first

/-- The items in the queue. -/
def items : List δ := q.order.filterMap q.dataOf

end LinkedQueue

namespace Queue

variable {κ δ : Type} [DecidableEq κ]

/-- `indexed_queue_empty`. -/
def empty (q : Queue κ δ) : Bool := q.currentSize = 0

/-- `indexed_queue_full`. -/
def full (q : Queue κ δ) : Bool := q.maxSize ≠ 0 ∧ q.currentSize ≥ q.maxSize

/-- The items given to the disposer. -/
def disposes (q : Queue κ δ) (data : δ) : List δ := if q.dispose then [data] else []

/-- `rbtree_insert`: nothing if the key is there. -/
def rbtreeInsert (index : κ → Option (Entry κ δ)) (key : κ) (entry : Entry κ δ) :
    Option (κ → Option (Entry κ δ)) :=
  if (index key).isSome then none else some (Function.update index key (some entry))

/-- `rbtree_delete`. -/
def rbtreeDelete (index : κ → Option (Entry κ δ)) (key : κ) : κ → Option (Entry κ δ) :=
  Function.update index key none

/-- `indexed_queue_push`; `copied` says whether `strdup` copies the key. -/
def push (q : Queue κ δ) (key : κ) (data : δ) (copied : Bool) : Option (Queue κ δ × Int) :=
  if q.full then some (q, -1)
  else if (q.index key).isSome then some (q, -1)
  else if !copied then some (q, -1)
  else do
    let (queue, node) ← q.queue.push data
    match rbtreeInsert q.index key ⟨key, data, node⟩ with
    | none => do
        let (queue, _) ← queue.pop
        pure ({ q with queue := queue }, -1)
    | some index =>
      pure ({ q with queue := queue, index := index, currentSize := q.currentSize + 1 }, 0)

/-- The update of an entry and its node. -/
def update (q : Queue κ δ) (key : κ) (entry : Entry κ δ) (data : δ) : Option (Queue κ δ) := do
  let queue ← q.queue.modify entry.queueNode fun node => { node with data := data }
  pure { q with
    queue := queue, index := Function.update q.index key (some { entry with data := data }) }

/-- `indexed_queue_pop`, with a callback that gives the key. -/
def pop (getKey : δ → κ) (q : Queue κ δ) : Option (Queue κ δ × Option δ) :=
  if q.empty then some (q, none)
  else do
    let (queue, popped) ← q.queue.pop
    match popped with
    | none => pure ({ q with queue := queue }, none)
    | some data =>
      pure ({ q with
        queue := queue, index := rbtreeDelete q.index (getKey data), currentSize :=
          q.currentSize - 1 }, some data)

/-- `indexed_queue_delete`: the items given to the disposer and the result. -/
def delete (q : Queue κ δ) (key : κ) : Option (Queue κ δ × List δ × Int) :=
  match q.index key with
  | none => some (q, [], 0)
  | some entry => do
      let queue ← q.queue.unlink entry.queueNode
      pure ({ q with
        queue := queue.free entry.queueNode
        index := rbtreeDelete q.index key
        currentSize := q.currentSize - 1 }, q.disposes entry.data, 1)

end Queue

/-! ## The system -/

/-- Where a call of `upsert_ex` is. -/
inductive Status where
  | asleep
  | returned (code : Int)
  deriving DecidableEq

/-- A call of `upsert_ex`. -/
structure Upsert (κ δ : Type) where
  key : κ
  data : δ
  status : Status
  deriving DecidableEq

/-- The queue, all calls of `upsert_ex` so far, the items popped and those given to the disposer.
`fault` is set by an access to a node that is not there; no step follows it. -/
structure State (κ δ : Type) where
  queue : Queue κ δ
  calls : List (Upsert κ δ)
  popped : List δ
  disposed : List δ
  fault : Bool

/-- The steps: `upsert_ex` from the beginning or from waking up, `pop_ex` and `delete_ex`. -/
inductive Action (κ δ : Type) where
  | upsert (key : κ) (data : δ) (copied : Bool)
  | resume (call : Nat) (copied : Bool)
  | pop
  | delete (key : κ)

namespace State

variable {κ δ : Type} [DecidableEq κ]

/-- A step whose accesses have a result goes on, another one is a fault. -/
def orFault {α : Type} (s : State κ δ) (result : Option α) (next : α → State κ δ) : State κ δ :=
  match result with
  | some r => next r
  | none => { s with fault := true }

/-- `upsert_ex` from its first test on: the item is replaced, or the call sleeps, or it pushes. -/
def upsert (s : State κ δ) (key : κ) (data : δ) (copied : Bool) : State κ δ :=
  match s.queue.index key with
  | some entry =>
    s.orFault (s.queue.update key entry data) fun queue =>
      { s with
        queue := queue
        calls := s.calls ++ [⟨key, data, .returned 1⟩]
        disposed := s.disposed ++ s.queue.disposes entry.data }
  | none =>
    if s.queue.full then { s with calls := s.calls ++ [⟨key, data, .asleep⟩] }
    else
      s.orFault (s.queue.push key data copied) fun (queue, code) =>
        { s with queue := queue, calls := s.calls ++ [⟨key, data, .returned code⟩] }

/-- `upsert_ex` after waking up: it sleeps again, or it pushes. -/
def resume (s : State κ δ) (i : Nat) (call : Upsert κ δ) (copied : Bool) : State κ δ :=
  if s.queue.full then s
  else
    s.orFault (s.queue.push call.key call.data copied) fun (queue, code) =>
      { s with queue := queue, calls := s.calls.set i { call with status := .returned code } }

/-- `pop_ex`: it waits while the queue is empty. -/
def pop (getKey : δ → κ) (s : State κ δ) : State κ δ :=
  if s.queue.empty then s
  else
    s.orFault (s.queue.pop getKey) fun (queue, popped) =>
      { s with queue := queue, popped := s.popped ++ popped.toList }

/-- `delete_ex`. -/
def delete (s : State κ δ) (key : κ) : State κ δ :=
  s.orFault (s.queue.delete key) fun (queue, disposed, _) =>
    { s with queue := queue, disposed := s.disposed ++ disposed }

/-- One step of the system. -/
def step (getKey : δ → κ) (s : State κ δ) : Action κ δ → Option (State κ δ)
  | .upsert key data copied => if s.fault then none else some (s.upsert key data copied)
  | .resume i copied =>
    if s.fault then none
    else
      match s.calls[i]? with
      | none => none
      | some call => if call.status = .asleep then some (s.resume i call copied) else none
  | .pop => if s.fault then none else some (s.pop getKey)
  | .delete key => if s.fault then none else some (s.delete key)

end State

/-- The state after `indexed_queue_init`. -/
def init {κ δ : Type} (maxSize : Nat) (dispose : Bool) : State κ δ where
  queue := ⟨⟨fun _ => none, 0, 0, none, none⟩, fun _ => none, maxSize, 0, dispose⟩
  calls := []
  popped := []
  disposed := []
  fault := false

/-- Producers and consumers in any order. -/
def system {κ δ : Type} [DecidableEq κ] (getKey : δ → κ) (maxSize : Nat) (dispose : Bool) :
    TransitionSystem (State κ δ) (Action κ δ) where
  init := init maxSize dispose
  step := State.step getKey

end WazAISentinel.Shared.IndexedQueue
