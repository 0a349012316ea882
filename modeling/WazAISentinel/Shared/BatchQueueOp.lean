import Mathlib.Algebra.BigOperators.Group.Finset.Basic
import WazAISentinel.Foundations.LinkedList
import WazAISentinel.Foundations.TransitionSystem

/-!
# The batch queue of the agents

`batch_queue_op.c`: every agent has a slot with a queue of items. The slots that have items are
linked in a ring; the consumer takes the slot at the cursor out of the ring and detaches its queue.
An index gives the slot of an agent key.

A slot is known by its address, which is given once: after `free_slot` an access to it (or through a
null pointer) has no result (`none`). A critical section is one step, from the first mutex it takes
to the last it gives back; `enqueue_ex` and `drain_next_ex` take the mutex of the queue before they
give back `ring_mu`. The additions to and subtractions from `items_global` are steps of their own,
and so are the parts of `free_slot`.
-/

namespace WazAISentinel.Shared.BatchQueue

open Foundations

/-- The address of a slot. -/
abbrev SlotId := Nat

/-- An item, by the number of the call that enqueues it. -/
abbrev Item := Nat

/-- `w_rr_agent_slot_t`; `q` is the linked queue of the agent, its length is `elements`. -/
structure Slot (κ : Type) where
  key : κ
  q : List Item
  next : Option SlotId
  inRing : Bool

/-- `w_rr_queue_t`, with the memory of the slots. -/
structure Scheduler (κ : Type) where
  slots : SlotId → Option (Slot κ)
  allocated : Nat
  ringHead : Option SlotId
  ringTail : Option SlotId
  cursor : Option SlotId
  prevCursor : Option SlotId
  agentIndex : κ → Option SlotId
  ringSlots : Nat
  maxItemsGlobal : BitVec 64
  maxItemsPerAgent : Nat
  itemsGlobal : BitVec 64
  dispose : Bool

/-- How the allocations of an enqueue end: `make_slot`, `hm_put` or the node of the queue may
fail. -/
inductive Memory where
  | ok
  | noSlot
  | noEntry
  | noNode
  deriving DecidableEq

/-- `-ENOSPC`. -/
def enospc : Int := -28

/-- `-ENOMEM`. -/
def enomem : Int := -12

/-- Where a call of `enqueue_ex` or `drop_agent` is. The parts of `free_slot` know the slot and
whether the items are subtracted from the counter. -/
inductive Pc where
  /-- counted, before `ring_mu` -/
  | monitor
  /-- pushed to an empty queue, before the slot is put into the ring -/
  | ringStep (slot : SlotId)
  /-- not pushed, before the counter is set back -/
  | rollback (code : Int)
  | steal (slot : SlotId) (adjust : Bool)
  | disposeChain (slot : SlotId) (chain : List Item) (adjust : Bool)
  | release (slot : SlotId) (adjust : Bool)
  | returned (code : Int)
  deriving DecidableEq

namespace Scheduler

variable {κ : Type}

section

variable (s : Scheduler κ)

/-- A slot at an address. -/
def put (a : SlotId) (slot : Slot κ) : Scheduler κ :=
  { s with slots := Function.update s.slots a (some slot) }

/-- Nothing at an address. -/
def remove (a : SlotId) : Scheduler κ := { s with slots := Function.update s.slots a none }

/-- Write to a slot. -/
def modify (a : SlotId) (f : Slot κ → Slot κ) : Option (Scheduler κ) := do
  let slot ← s.slots a
  pure (s.put a (f slot))

/-! ## The ring -/

/-- The links and pointers `ring_append` sets. -/
def ringLink (a : SlotId) : Option (Scheduler κ) :=
  match s.ringHead with
  | none => do
      let s ← s.modify a fun slot => { slot with next := some a }
      pure { s with ringHead := some a, ringTail := some a, cursor := some a, prevCursor := some a }
  | some head => do
      let s ← s.modify a fun slot => { slot with next := some head }
      let tail ← s.ringTail
      let s ← s.modify tail fun slot => { slot with next := some a }
      pure { s with
        ringTail := some a
        prevCursor := if s.cursor = some head then some a else s.prevCursor }

/-- `ring_append`. -/
def ringAppend (a : SlotId) : Option (Scheduler κ) := do
  let s ← s.ringLink a
  let s ← s.modify a fun slot => { slot with inRing := true }
  pure { s with ringSlots := s.ringSlots + 1 }

/-- The pointers of the ring pass over a node. -/
def passNode (node prev : SlotId) (next : Option SlotId) : Scheduler κ :=
  { s with
    ringHead := if s.ringHead = some node then next else s.ringHead
    ringTail := if s.ringTail = some node then some prev else s.ringTail
    cursor := if s.cursor = some node then next else s.cursor
    prevCursor := if s.prevCursor = some node then some prev else s.prevCursor }

/-- `ring_remove_node`. -/
def ringRemoveNode (node : SlotId) (prev : Option SlotId) : Option (Scheduler κ) :=
  match s.ringHead, prev with
  | some _, some prev =>
    if node = prev then
      modify { s with
        ringHead := none, ringTail := none, cursor := none, prevCursor := none, ringSlots := 0 }
        node fun slot => { slot with inRing := false, next := none }
    else do
      let slot ← s.slots node
      let s ← s.modify prev fun p => { p with next := slot.next }
      let s ← (s.passNode node prev slot.next).modify node fun slot =>
        { slot with inRing := false, next := none }
      pure { s with ringSlots := s.ringSlots - 1 }
  | _, _ => some s

/-- The loop of `ring_find_prev`. -/
def ringFindPrevLoop (node : SlotId) : Nat → SlotId → Option (Option SlotId)
  | 0, _ => none
  | fuel + 1, p => do
      let slot ← s.slots p
      if slot.next = some node then pure (some p)
      else
        match slot.next with
        | none => pure none
        | some p' => if s.ringHead = some p' then pure none else ringFindPrevLoop node fuel p'

/-- `ring_find_prev`. -/
def ringFindPrev (node : SlotId) : Option (Option SlotId) :=
  match s.ringHead with
  | none => some none
  | some head => s.ringFindPrevLoop node (s.ringSlots + 1) head

end

/-! ## The critical sections -/

/-- What the index gives to an enqueue. -/
inductive Lookup where
  | found (slot : SlotId)
  | noMemory
  | notIndexed (slot : SlotId)

variable [DecidableEq κ] (s : Scheduler κ)

section

variable (key : κ)

/-- `make_slot`. -/
def makeSlot : Scheduler κ :=
  { s.put s.allocated ⟨key, [], none, false⟩ with allocated := s.allocated + 1 }

/-- `hm_put`. -/
def register (a : SlotId) : Scheduler κ :=
  { s with agentIndex := Function.update s.agentIndex key (some a) }

/-- Look up the slot of the agent, or create it. -/
def lookup (memory : Memory) : Scheduler κ × Lookup :=
  match s.agentIndex key with
  | some a => (s, .found a)
  | none =>
    if memory = .noSlot then (s, .noMemory)
    else if memory = .noEntry then (s.makeSlot key, .notIndexed s.allocated)
    else ((s.makeSlot key).register key s.allocated, .found s.allocated)

/-- The section of the queue in `enqueue_ex`: the limit of the agent and the push. -/
def pushItem (a : SlotId) (item : Item) (memory : Memory) : Option (Scheduler κ × Pc) := do
  let slot ← s.slots a
  if s.maxItemsPerAgent ≠ 0 ∧ slot.q.length ≥ s.maxItemsPerAgent then pure (s, .rollback enospc)
  else if memory = .noNode then pure (s, .rollback enomem)
  else do
    let s ← s.modify a fun slot => { slot with q := slot.q ++ [item] }
    pure (s, if slot.q.length = 0 then .ringStep a else .returned 0)

/-- `enqueue_ex` from `ring_mu` to the end of the section of the queue. -/
def enqueueMonitor (item : Item) (memory : Memory) : Option (Scheduler κ × Pc) :=
  match s.lookup key memory with
  | (s, .found a) => s.pushItem a item memory
  | (s, .noMemory) => some (s, .rollback enomem)
  | (s, .notIndexed a) => some (s, .steal a false)

/-- `enqueue_ex`: the slot is put into the ring. -/
def enqueueRing (a : SlotId) : Option (Scheduler κ) := do
  let slot ← s.slots a
  if slot.inRing then pure s else s.ringAppend a

/-- The slot before the cursor. -/
def beforeCursor : Option SlotId := if s.prevCursor.isSome then s.prevCursor else s.ringTail

/-- The cursor is moved on. -/
def moveCursor (next prev : Option SlotId) : Scheduler κ :=
  { s with cursor := next, prevCursor := prev }

/-- `drain_next_ex` with a slot at the cursor, from `ring_mu` to the end of the section of the
queue: the key of the agent and the chain of its items. -/
def drainMonitor (a : SlotId) : Option (Scheduler κ × κ × List Item) := do
  let slot ← s.slots a
  let s ← (s.moveCursor slot.next s.beforeCursor).ringRemoveNode a s.beforeCursor
  let slot ← s.slots a
  let s ← s.modify a fun slot => { slot with q := [] }
  pure (s, slot.key, slot.q)

/-- `hm_del`. -/
def unregister : Scheduler κ :=
  { s with agentIndex := Function.update s.agentIndex key none }

/-- The monitor section of `drop_agent`. -/
def dropMonitor : Option (Scheduler κ × Pc) :=
  match s.agentIndex key with
  | none => some (s, .returned 0)
  | some a => do
      let slot ← s.slots a
      if slot.inRing then do
        let prev ← s.ringFindPrev a
        if prev.isNone then pure (s, .returned 0)
        else do
          let s ← s.ringRemoveNode a prev
          pure (s.unregister key, .steal a true)
      else pure (s.unregister key, .steal a true)

/-- `steal_chain`. -/
def stealChain (a : SlotId) : Option (Scheduler κ × List Item) := do
  let slot ← s.slots a
  let s ← s.modify a fun slot => { slot with q := [] }
  pure (s, slot.q)

/-- The end of `free_slot`: the queue, the key and the slot are released. -/
def freeSlot (a : SlotId) : Option (Scheduler κ) := do
  let _ ← s.slots a
  pure (s.remove a)

/-- Add to or subtract from `items_global`. -/
def adjustItems (change : BitVec 64) : Scheduler κ :=
  { s with itemsGlobal := s.itemsGlobal + change }

/-! ## Reading the scheduler -/

/-- The link of a slot. -/
def nextOf (a : SlotId) : Option SlotId := (s.slots a).bind Slot.next

/-- The slots in the ring, from its head. -/
def ring : List SlotId := walk s.nextOf s.ringSlots s.ringHead

/-- The key and the queue of a slot. -/
def contents (a : SlotId) : Option (κ × List Item) := (s.slots a).map fun slot => (slot.key, slot.q)

/-- The queue of an agent. -/
def queueOf : List Item := ((s.agentIndex key).bind s.contents).elim [] Prod.snd

end

/-- The number of queued items. -/
def queued : Nat :=
  ∑ a ∈ Finset.range s.allocated, (s.contents a).elim 0 fun content => content.2.length

end Scheduler

/-! ## The system -/

/-- The functions that are called. -/
inductive Operation where
  | enqueue
  | dropAgent
  deriving DecidableEq

/-- A call of a producer or of a thread that drops an agent. -/
structure Call (κ : Type) where
  operation : Operation
  key : κ
  pc : Pc

/-- Where the consumer is: outside, or with a detached chain and the number of items it has consumed
of it. -/
inductive Consumer (κ : Type) where
  | idle
  | draining (key : κ) (chain : List Item) (drained : Nat)

/-- The scheduler, all calls so far and the consumer. `pushed` and `consumed` are the items pushed
to the queues and given to `consume`, with the agents, and `disposed` those given to `dispose`.
`fault` is set by an access to a slot that is not there; no step follows it. -/
structure State (κ : Type) where
  sched : Scheduler κ
  calls : List (Call κ)
  consumer : Consumer κ
  pushed : List (κ × Item)
  consumed : List (κ × Item)
  disposed : List Item
  fault : Bool

/-- The steps. -/
inductive Action (κ : Type) where
  | enqueue (key : κ)
  | advance (call : Nat) (memory : Memory)
  | drain
  | consume
  | drop (key : κ)
  | setAgentMax (limit : Nat)

/-- A call that pushed its item. -/
def Pc.pushes : Pc → Bool
  | .ringStep _ => true
  | .returned code => code = 0
  | _ => false

namespace State

variable {κ : Type}

/-- A step whose accesses have a result goes on, another one is a fault. -/
def orFault {α : Type} (s : State κ) (result : Option α) (next : α → State κ) : State κ :=
  match result with
  | some r => next r
  | none => { s with fault := true }

/-- Call `i` is at `pc`. -/
def setPc (s : State κ) (i : Nat) (call : Call κ) (pc : Pc) : State κ :=
  { s with calls := s.calls.set i { call with pc := pc } }

/-- Items are given to `dispose`, if it is set. -/
def give (s : State κ) (items : List Item) : State κ :=
  { s with disposed := if s.sched.dispose then s.disposed ++ items else s.disposed }

variable [DecidableEq κ]

/-- A call of `enqueue_ex` begins: it counts its item. -/
def enqueue (s : State κ) (key : κ) : State κ :=
  let count := s.sched.itemsGlobal + 1
  let full := s.sched.maxItemsGlobal ≠ 0 ∧ count > s.sched.maxItemsGlobal
  { s with
    sched := s.sched.adjustItems 1
    calls := s.calls ++ [⟨.enqueue, key, if full then .rollback enospc else .monitor⟩] }

variable (s : State κ)

/-- A call of `drop_agent` begins: its monitor section. -/
def drop (key : κ) : State κ :=
  s.orFault (s.sched.dropMonitor key) fun (sched, pc) =>
    { s with sched := sched, calls := s.calls ++ [⟨.dropAgent, key, pc⟩] }

/-- Call `i` after the section of the queue. -/
def afterMonitor (i : Nat) (call : Call κ) (result : Scheduler κ × Pc) : State κ :=
  { s.setPc i call result.2 with
    sched := result.1
    pushed := if result.2.pushes then s.pushed ++ [(call.key, i)] else s.pushed }

/-- The next step of call `i`. -/
def advance (i : Nat) (call : Call κ) (memory : Memory) : Option (State κ) :=
  match call.pc with
  | .monitor => some (s.orFault (s.sched.enqueueMonitor call.key i memory) (s.afterMonitor i call))
  | .ringStep a =>
    some <| s.orFault (s.sched.enqueueRing a) fun sched =>
      { s.setPc i call (.returned 0) with sched := sched }
  | .rollback code =>
    some { (s.setPc i call (.returned code)).give [i] with sched := s.sched.adjustItems (-1) }
  | .steal a adjust =>
    some <| s.orFault (s.sched.stealChain a) fun (sched, chain) =>
      { s.setPc i call (.disposeChain a chain adjust) with sched := sched }
  | .disposeChain a chain adjust =>
    some { (s.setPc i call (.release a adjust)).give chain with
      sched := if adjust then s.sched.adjustItems (-BitVec.ofNat 64 chain.length) else s.sched }
  | .release a adjust =>
    some <| s.orFault (s.sched.freeSlot a) fun sched =>
      { s.setPc i call (if adjust then .returned 1 else .rollback enomem) with sched := sched }
  | .returned _ => none

/-- A call of `drain_next_ex` begins: with no slot at the cursor it waits and returns 0 after its
time. -/
def drain : State κ :=
  match s.sched.cursor with
  | none => s
  | some a =>
    s.orFault (s.sched.drainMonitor a) fun (sched, key, chain) =>
      { s with sched := sched, consumer := .draining key chain 0 }

/-- The next step of the consumer: an item of the chain, or the counter after the last. -/
def consume : Option (State κ) :=
  match s.consumer with
  | .idle => none
  | .draining key (item :: chain) drained =>
    some { s with
      consumer := .draining key chain (drained + 1), consumed := s.consumed ++ [(key, item)] }
  | .draining _ [] drained =>
    some { s with
      consumer := .idle
      sched := if drained ≠ 0 then s.sched.adjustItems (-BitVec.ofNat 64 drained) else s.sched }

/-- One step of the system. -/
def step (action : Action κ) : Option (State κ) :=
  if s.fault then none
  else
    match action with
    | .enqueue key => some (s.enqueue key)
    | .advance i memory => s.calls[i]?.bind fun call => s.advance i call memory
    | .drain =>
      match s.consumer with
      | .idle => some s.drain
      | .draining .. => none
    | .consume => s.consume
    | .drop key => some (s.drop key)
    | .setAgentMax limit => some { s with sched := { s.sched with maxItemsPerAgent := limit } }

end State

/-- The state after `batch_queue_init`, with a limit and a disposer or not. -/
def init {κ : Type} (maxItemsGlobal : BitVec 64) (dispose : Bool) : State κ where
  sched :=
    ⟨fun _ => none, 0, none, none, none, none, fun _ => none, 0, maxItemsGlobal, 0, 0, dispose⟩
  calls := []
  consumer := .idle
  pushed := []
  consumed := []
  disposed := []
  fault := false

/-- Producers, one consumer and threads that drop agents, in any order. -/
def system {κ : Type} [DecidableEq κ] (maxItemsGlobal : BitVec 64) (dispose : Bool) :
    TransitionSystem (State κ) (Action κ) where
  init := init maxItemsGlobal dispose
  step := State.step

end WazAISentinel.Shared.BatchQueue
