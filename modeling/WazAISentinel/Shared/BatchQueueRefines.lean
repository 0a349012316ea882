import Mathlib.Data.List.Dedup
import WazAISentinel.Shared.BatchQueueAgents

/-!
# The batch queue refines the one without pointers

A state represents an abstract queue if its ring is the list of that queue. In a consistent state
every step of the system is made of abstract steps and accesses no slot that is not there
(`step_refined`), unless it drops an agent while a producer is between its push to the agent's slot
and its ring step.

If calls are executed one at a time, the ring is one cycle of the slots whose flag is set, with the
cursor at its head, and it has its slots in the order in which they entered it: every step leaves
the ring as it was, appends a slot or takes one out (`Turns`).
-/

namespace WazAISentinel.Shared.BatchQueue

open Foundations Relation Scheduler

variable {κ : Type}

/-- The abstract queue of a state whose ring is `l`. -/
def State.abs (s : State κ) (l : List SlotId) : Abstract κ :=
  ⟨s.sched.agents, l, s.calls, s.consumer, s.pushed, s.consumed⟩

/-- The ring of the state is `l`, and no access failed. -/
structure Represents (s : State κ) (l : List SlotId) : Prop where
  fault : s.fault = false
  ring : s.sched.RingIs l
  consistent : (s.abs l).Consistent

/-- The ring behind a step: as it was, with another slot at its end or without one of its slots. -/
def Turns (l l' : List SlotId) : Prop := l' = l ∨ (∃ a, l' = l ++ [a]) ∨ ∃ a, l' = l.erase a

/-- A step leads to a state with some ring by abstract steps. -/
def Refined [DecidableEq κ] (drops : Prop) (s : State κ) (l : List SlotId) (s' : State κ) : Prop :=
  ∃ l', s'.fault = false ∧ s'.sched.RingIs l' ∧ Turns l l' ∧
    ReflTransGen (Step drops) (s.abs l) (s'.abs l')

theorem Scheduler.agents_adjustItems [DecidableEq κ] (s : Scheduler κ) (change : BitVec 64) :
    (s.adjustItems change).agents = s.agents.adjustItems change :=
  rfl

variable {q q' : Abstract κ} {adjust : Bool}

theorem Step.turns [DecidableEq κ] {drops : Prop} (hstep : Step drops q q') :
    Turns q.ring q'.ring := by
  cases hstep with
  | activate i call a => exact .inr (.inl ⟨a, rfl⟩)
  | detach a | drop key a => exact .inr (.inr ⟨a, rfl⟩)
  | _ => exact .inl rfl

theorem Refined.of_step [DecidableEq κ] {drops : Prop} {s s' : State κ} {l : List SlotId}
    (hstep : Step drops (s.abs l) q) (hfault : s'.fault = false) (hring : s'.sched.RingIs q.ring)
    (hagents : s'.sched.agents = q.agents) (hrest : { s'.abs q.ring with agents := q.agents } = q) :
    Refined drops s l s' := by
  have habs : s'.abs q.ring = q := by
    rw [← hagents] at hrest
    exact hrest
  exact ⟨q.ring, hfault, hring, hstep.turns, .single (habs ▸ hstep)⟩

namespace Represents

variable {drops : Prop} {s : State κ} {l : List SlotId} {i : Nat} {call : Call κ} {a : SlotId}
  {key : κ} {memory : Memory}

section

variable (h : Represents s l)

include h

theorem indexed (hindex : s.sched.agentIndex key = some a) :
    ∃ slot, s.sched.slots a = some slot ∧ slot.key = key := by
  obtain ⟨items, hitems⟩ := Registered.indexed h.consistent key a hindex
  obtain ⟨slot, hslot, hsame⟩ := exists_slot_of_contents hitems
  exact ⟨slot, hslot, congrArg Prod.fst hsame⟩

theorem fresh : s.sched.slots s.sched.allocated = none := by
  have hnone : s.sched.contents s.sched.allocated = none := Registered.fresh h.consistent _ le_rfl
  exact Option.map_eq_none_iff.1 hnone

/-- The slot of a call that waits. -/
theorem waits (hcall : s.calls[i]? = some call) (hpc : call.pc.waits = some a) :
    a ∉ l ∧ ∃ slot, s.sched.slots a = some slot := by
  have hmem : a ∈ waiting s.calls := List.mem_filterMap.2 ⟨call, List.mem_of_getElem? hcall, hpc⟩
  have hnodup : (l ++ waiting s.calls).Nodup := Registered.busy_nodup h.consistent
  refine ⟨fun hl => (List.nodup_append.1 hnodup).2.2 a hl a hmem rfl, ?_⟩
  obtain ⟨key, items, hitems, -⟩ :=
    (Registered.busy_iff h.consistent a).1 (List.mem_append_right l hmem)
  obtain ⟨slot, hslot, -⟩ := exists_slot_of_contents hitems
  exact ⟨slot, hslot⟩

/-- The slot of a call that frees it. -/
theorem frees (hcall : s.calls[i]? = some call) (hpc : call.pc.frees = some a) :
    a ∉ l ∧ ∃ slot, s.sched.slots a = some slot := by
  have hmem : a ∈ freeing s.calls := List.mem_filterMap.2 ⟨call, List.mem_of_getElem? hcall, hpc⟩
  obtain ⟨hsome, hindex⟩ := Registered.unregistered h.consistent a hmem
  obtain ⟨content, hcontent⟩ := Option.isSome_iff_exists.1 hsome
  obtain ⟨slot, hslot, -⟩ := exists_slot_of_contents hcontent
  refine ⟨fun hl => ?_, slot, hslot⟩
  obtain ⟨key, items, -, hindex', -⟩ :=
    (Registered.busy_iff h.consistent a).1 (List.mem_append_left _ hl)
  exact hindex key hindex'

variable [DecidableEq κ]

/-! ## The sections of an enqueue -/

/-- The section of the queue. -/
theorem pushItem_refined (drops : Prop) (memory : Memory) (hcall : s.calls[i]? = some call)
    (hpc : call.pc = .monitor) (hindex : s.sched.agentIndex call.key = some a) :
    ∃ result, s.sched.pushItem a i memory = some result ∧
      Refined drops s l (s.afterMonitor i call result) := by
  obtain ⟨slot, hslot, hkey⟩ := h.indexed hindex
  have hrefuse : ∀ code, code ≠ 0 →
      Refined drops s l (s.afterMonitor i call (s.sched, .rollback code)) := by
    intro code hcode
    exact .of_step (Step.refuse (s.abs l) i call code hcall hpc hcode) h.fault h.ring rfl rfl
  rw [pushItem, hslot, some_bind]
  by_cases hfull : s.sched.maxItemsPerAgent ≠ 0 ∧ slot.q.length ≥ s.sched.maxItemsPerAgent
  · rw [if_pos hfull]
    exact ⟨_, rfl, hrefuse enospc (by decide)⟩
  · rw [if_neg hfull]
    by_cases hnode : memory = .noNode
    · rw [if_pos hnode]
      exact ⟨_, rfl, hrefuse enomem (by decide)⟩
    · rw [if_neg hnode, modify_eq _ hslot]
      have hitems : s.sched.contents a = some (call.key, slot.q) := by
        rw [← hkey]
        exact contents_eq hslot
      have hagents : (s.sched.put a { slot with q := slot.q ++ [i] }).agents =
          s.sched.agents.setQueue a call.key (slot.q ++ [i]) := by
        rw [← hkey]
        exact agents_put
      have hpushes : (if slot.q.length = 0 then Pc.ringStep a else .returned 0).pushes = true := by
        split <;> rfl
      refine ⟨_, rfl, ?_⟩
      refine .of_step (Step.push (s.abs l) i call a slot.q hcall hpc hindex hitems) h.fault
        (h.ring.put hslot _) hagents ?_
      exact congrArg (Abstract.mk _ _ _ _ · _) (if_pos hpushes)

/-- The agent has no slot yet and gets one. -/
theorem register (drops : Prop) (hnew : s.sched.agentIndex key = none) :
    Represents { s with sched := (s.sched.makeSlot key).register key s.sched.allocated } l ∧
      Step drops (s.abs l)
      (State.abs { s with sched := (s.sched.makeSlot key).register key s.sched.allocated } l) := by
  have hagents : ((s.sched.makeSlot key).register key s.sched.allocated).agents =
      s.sched.agents.register key := by
    have hslot := agents_makeSlot (s := s.sched) key
    exact congrArg (fun g : Agents κ => g.assign key s.sched.allocated) hslot
  have hstep : Step drops (s.abs l)
      ⟨s.sched.agents.register key, l, s.calls, s.consumer, s.pushed, s.consumed⟩ :=
    Step.register (s.abs l) key hnew
  have habs :
      State.abs { s with sched := (s.sched.makeSlot key).register key s.sched.allocated } l =
      ⟨s.sched.agents.register key, l, s.calls, s.consumer, s.pushed, s.consumed⟩ := by
    rw [State.abs, hagents]
  have hring : (s.sched.makeSlot key).RingIs l := h.ring.makeSlot h.fresh key
  refine ⟨⟨h.fault, hring.congr rfl rfl rfl rfl rfl rfl, ?_⟩, ?_⟩
  · rw [habs]
    exact hstep.consistent h.consistent
  · rw [habs]
    exact hstep

/-- From `ring_mu` to the end of the section of the queue. -/
theorem monitor_refined (hcall : s.calls[i]? = some call) (hpc : call.pc = .monitor) :
    Refined drops s l
      (s.orFault (s.sched.enqueueMonitor call.key i memory) (s.afterMonitor i call)) := by
  rw [enqueueMonitor, lookup]
  cases hindex : s.sched.agentIndex call.key with
  | some a =>
    obtain ⟨result, hpush, hrefined⟩ := h.pushItem_refined drops memory hcall hpc hindex
    dsimp only
    rw [hpush]
    exact hrefined
  | none =>
    by_cases hslot : memory = .noSlot
    · rw [if_pos hslot]
      exact .of_step (Step.refuse (s.abs l) i call enomem hcall hpc (by decide)) h.fault
        h.ring rfl rfl
    · rw [if_neg hslot]
      by_cases hentry : memory = .noEntry
      · rw [if_pos hentry]
        exact .of_step (Step.reserve (s.abs l) i call hcall hpc) h.fault
          (h.ring.makeSlot h.fresh call.key) (agents_makeSlot call.key) rfl
      · rw [if_neg hentry]
        obtain ⟨hregistered, hstep⟩ := h.register drops hindex
        obtain ⟨result, hpush, l', hfault, hring, hturns, hsteps⟩ :=
          hregistered.pushItem_refined drops memory hcall hpc (Function.update_self ..)
        dsimp only at hpush ⊢
        rw [hpush]
        exact ⟨l', hfault, hring, hturns, .head hstep hsteps⟩

/-- The ring step of a producer. -/
theorem ringStep_refined (hcall : s.calls[i]? = some call) (hpc : call.pc = .ringStep a) :
    Refined drops s l (s.orFault (s.sched.enqueueRing a) fun sched =>
      { s.setPc i call (.returned 0) with sched := sched }) := by
  obtain ⟨hnot, slot, hslot⟩ := h.waits hcall (by rw [hpc, Pc.waits])
  have hflag : slot.inRing = false := by
    rw [← Bool.not_eq_true, h.ring.1.flags a slot hslot]
    exact hnot
  obtain ⟨sched, hrun, hlinked, hcursor, hagents⟩ := ringAppend_spec h.ring.1 h.ring.2 hslot hnot
  rw [enqueueRing, hslot, some_bind, hflag, if_neg Bool.false_ne_true, hrun]
  exact .of_step (Step.activate (s.abs l) i call a hcall hpc) h.fault ⟨hlinked, hcursor⟩ hagents rfl

/-- A call of `enqueue_ex` begins. -/
theorem enqueue_refined (key : κ) : Refined drops s l (s.enqueue key) := by
  have hcount : ∀ pc, pc = .monitor ∨ pc = .rollback enospc →
      Refined drops s l
        { s with sched := s.sched.adjustItems 1, calls := s.calls ++ [⟨.enqueue, key, pc⟩] } := by
    intro pc hpc
    exact .of_step (Step.count (s.abs l) key pc hpc) h.fault (h.ring.adjustItems 1)
      (s.sched.agents_adjustItems 1) rfl
  apply hcount
  split
  · exact .inr rfl
  · exact .inl rfl

section

variable (hcall : s.calls[i]? = some call)

include hcall

/-! ## The parts of `free_slot` -/

theorem steal_refined (hpc : call.pc = .steal a adjust) :
    Refined drops s l (s.orFault (s.sched.stealChain a) fun (sched, chain) =>
      { s.setPc i call (.disposeChain a chain adjust) with sched := sched }) := by
  obtain ⟨-, slot, hslot⟩ := h.frees hcall (by rw [hpc, Pc.frees])
  rw [stealChain, hslot, some_bind, modify_eq _ hslot]
  have hitems : s.sched.contents a = some (slot.key, slot.q) := contents_eq hslot
  exact .of_step (Step.steal (s.abs l) i call a adjust slot.key slot.q hcall hpc hitems) h.fault
    (h.ring.put hslot []) agents_put rfl

theorem dispose_refined {chain : List Item} (hpc : call.pc = .disposeChain a chain adjust) :
    Refined drops s l { (s.setPc i call (.release a adjust)).give chain with
      sched :=
        if adjust then s.sched.adjustItems (-BitVec.ofNat 64 chain.length) else s.sched } := by
  refine .of_step (Step.dispose (s.abs l) i call a chain adjust hcall hpc) h.fault ?_ ?_ rfl
  · cases adjust with
    | true => exact h.ring.adjustItems _
    | false => exact h.ring
  · cases adjust with
    | true => exact s.sched.agents_adjustItems _
    | false => rfl

theorem release_refined (hpc : call.pc = .release a adjust) :
    Refined drops s l (s.orFault (s.sched.freeSlot a) fun sched =>
      { s.setPc i call (if adjust then .returned 1 else .rollback enomem)
        with sched := sched }) := by
  obtain ⟨hnot, slot, hslot⟩ := h.frees hcall (by rw [hpc, Pc.frees])
  rw [freeSlot, hslot]
  exact .of_step (Step.release (s.abs l) i call a adjust hcall hpc) h.fault (h.ring.remove hnot)
    agents_remove rfl

end

/-! ## The consumer -/

omit [DecidableEq κ] in
/-- A drain takes the slot at the head of the ring and detaches its queue. -/
theorem drain_spec {rest : List SlotId} (hl : l = a :: rest) :
    ∃ sched slot, s.sched.slots a = some slot ∧
      s.drain = { s with sched := sched, consumer := .draining slot.key slot.q 0 } ∧
      sched.RingIs (l.erase a) ∧ sched.agents = s.sched.agents.setQueue a slot.key [] := by
  have hhead : s.sched.ringHead = some a := by rw [h.ring.1.head, hl, List.head?_cons]
  have hcursor : s.sched.cursor = some a := h.ring.2.1.trans hhead
  have ha : a ∈ l := hl ▸ List.mem_cons_self
  obtain ⟨slot, hslot⟩ := h.ring.1.exists_slot ha
  obtain ⟨p, hp, hlink⟩ := h.ring.1.links.exists_prev ha
  have htail : s.sched.ringTail = some p := by
    subst hl
    exact h.ring.1.tail.trans (h.ring.1.links.getLast?_of_next h.ring.1.nodup hp hlink)
  have hprev : s.sched.prevCursor = some p := h.ring.2.2.trans htail
  have hmoved : (s.sched.moveCursor slot.next (some p)).Linked l :=
    h.ring.1.congr rfl rfl rfl (fun _ _ => rfl) h.ring.1.flags
  have hnext : slot.next = s.sched.nextOf a := (nextOf_eq hslot).symm
  obtain ⟨sched, hrun, hlinked, hatcursor, hagents⟩ :=
    ringRemoveNode_spec hmoved ha hp hlink (.inr ⟨hhead, hnext, htail.symm⟩)
  have hbefore : s.sched.beforeCursor = some p := by
    rw [beforeCursor, hprev]
    rfl
  obtain ⟨slot', hslot', hkey, hq⟩ := exists_slot_of_agents (s := s.sched) hagents hslot
  have hmonitor : s.sched.drainMonitor a =
      some (sched.put a { slot' with q := [] }, slot.key, slot.q) := by
    rw [drainMonitor, hslot, some_bind, hbefore, hrun, some_bind, hslot', some_bind,
      modify_eq _ hslot', ← hkey, ← hq]
    rfl
  refine ⟨_, slot, hslot, ?_, Scheduler.RingIs.put ⟨hlinked, hatcursor⟩ hslot' [], ?_⟩
  · rw [State.drain, hcursor]
    dsimp only
    rw [hmonitor]
    rfl
  · rw [agents_put, hagents, ← hkey]
    rfl

omit [DecidableEq κ] in
theorem drain_nil (hl : l = []) : s.drain = s := by
  have hcursor : s.sched.cursor = none := by rw [h.ring.2.1, h.ring.1.head, hl, List.head?_nil]
  rw [State.drain, hcursor]

theorem drain_refined (hidle : s.consumer = .idle) : Refined drops s l s.drain := by
  cases hl : l with
  | nil =>
    rw [h.drain_nil hl]
    exact ⟨[], h.fault, hl ▸ h.ring, .inl rfl, .refl⟩
  | cons a rest =>
    obtain ⟨sched, slot, hslot, hdrain, hring, hagents⟩ := h.drain_spec hl
    have ha : a ∈ l := hl ▸ List.mem_cons_self
    rw [← hl, hdrain]
    exact .of_step (Step.detach (s.abs l) a slot.key slot.q hidle ha (contents_eq hslot)) h.fault
      hring hagents rfl

theorem consume_refined {s' : State κ} (hstep : s.consume = some s') : Refined drops s l s' := by
  rw [State.consume] at hstep
  cases hconsumer : s.consumer with
  | idle =>
    rw [hconsumer] at hstep
    cases hstep
  | draining key chain drained =>
    rw [hconsumer] at hstep
    cases chain with
    | cons item chain =>
      cases hstep
      exact .of_step (Step.consume (s.abs l) key item chain drained hconsumer) h.fault
        h.ring rfl rfl
    | nil =>
      have hsettle : Step drops (s.abs l) _ := Step.settle (s.abs l) key drained hconsumer
      by_cases hzero : drained = 0
      · subst hzero
        cases hstep
        refine .of_step hsettle h.fault h.ring ?_ rfl
        have hnone : s.sched.itemsGlobal + -BitVec.ofNat 64 0 = s.sched.itemsGlobal := by
          rw [BitVec.neg_zero, BitVec.add_zero]
        exact (congrArg (fun items => { s.sched.agents with itemsGlobal := items }) hnone).symm
      · rw [Option.some.injEq] at hstep
        subst hstep
        rw [if_pos hzero]
        exact .of_step hsettle h.fault (h.ring.adjustItems _)
          (s.sched.agents_adjustItems _) rfl

/-! ## Dropping an agent -/

/-- The monitor section of `drop_agent`, if no producer is about to put the slot into the ring. -/
theorem drop_refined (hdrops : drops)
    (hsafe : ∀ a, s.sched.agentIndex key = some a → a ∉ waiting s.calls) :
    Refined drops s l (s.drop key) := by
  rw [State.drop, dropMonitor]
  cases hindex : s.sched.agentIndex key with
  | none =>
    exact .of_step (Step.dropMissing (s.abs l) key hdrops hindex) h.fault h.ring rfl rfl
  | some a =>
    obtain ⟨slot, hslot, -⟩ := h.indexed hindex
    have hstep : Step drops (s.abs l) _ := Step.drop (s.abs l) key a hdrops hindex (hsafe a hindex)
    dsimp only
    rw [hslot, some_bind]
    by_cases hflag : slot.inRing = true
    · have ha : a ∈ l := (h.ring.1.flags a slot hslot).1 hflag
      obtain ⟨prev, hprev, hfind, hlink⟩ := ringFindPrev_spec h.ring.1 ha
      obtain ⟨sched, hrun, hlinked, hcursor, hagents⟩ :=
        ringRemoveNode_spec h.ring.1 ha hprev hlink (.inl h.ring.2)
      rw [if_pos hflag, hfind, some_bind, Option.isNone_some, if_neg Bool.false_ne_true, hrun]
      exact .of_step hstep h.fault (Scheduler.RingIs.congr ⟨hlinked, hcursor⟩ rfl rfl rfl rfl rfl
        rfl) (congrArg (Agents.unregister · key) hagents) rfl
    · have ha : a ∉ l := fun ha => hflag ((h.ring.1.flags a slot hslot).2 ha)
      rw [if_neg hflag]
      have hring : (s.sched.unregister key).RingIs (l.erase a) := by
        rw [List.erase_of_not_mem ha]
        exact h.ring.congr rfl rfl rfl rfl rfl rfl
      exact .of_step hstep h.fault hring rfl rfl

end

end Represents

/-! ## The system -/

/-- No agent is dropped while a producer is between its push to the agent's slot and its ring
step. -/
def DropSafe (s : State κ) : Action κ → Prop
  | .drop key => ∀ a, s.sched.agentIndex key = some a → a ∉ waiting s.calls
  | _ => True

instance decidableDropSafe (s : State κ) (action : Action κ) : Decidable (DropSafe s action) :=
  match action with
  | .drop key =>
    match h : s.sched.agentIndex key with
    | none => isTrue fun a ha => by rw [h] at ha; cases ha
    | some a => decidable_of_iff (a ∉ waiting s.calls)
        ⟨fun hnot b hb => by rw [h] at hb; cases hb; exact hnot, fun hsafe => hsafe a h⟩
  | .enqueue _ => isTrue trivial
  | .advance _ _ => isTrue trivial
  | .drain => isTrue trivial
  | .consume => isTrue trivial
  | .setAgentMax _ => isTrue trivial

/-- A step that drops an agent. -/
def Action.Drops (action : Action κ) : Prop := ∃ key, action = .drop key

variable [DecidableEq κ] {s s' : State κ} {l : List SlotId} {action : Action κ}

/-- Every step is made of abstract steps. -/
theorem step_refined (h : Represents s l) (hsafe : DropSafe s action)
    (hstep : s.step action = some s') : Refined action.Drops s l s' := by
  rw [State.step.eq_def, if_neg (by rw [h.fault]; exact Bool.false_ne_true)] at hstep
  cases action with
  | enqueue key =>
    cases hstep
    exact h.enqueue_refined key
  | advance i memory =>
    obtain ⟨call, hcall, hadvance⟩ := Option.bind_eq_some_iff.1 hstep
    rw [State.advance] at hadvance
    cases hpc : call.pc with
    | monitor => rw [hpc] at hadvance; cases hadvance; exact h.monitor_refined hcall hpc
    | ringStep a => rw [hpc] at hadvance; cases hadvance; exact h.ringStep_refined hcall hpc
    | rollback code =>
      rw [hpc] at hadvance
      cases hadvance
      exact .of_step (Step.rollback (s.abs l) i call code hcall hpc) h.fault
        (h.ring.adjustItems (-1)) (s.sched.agents_adjustItems (-1)) rfl
    | steal a adjust => rw [hpc] at hadvance; cases hadvance; exact h.steal_refined hcall hpc
    | disposeChain a chain adjust =>
      rw [hpc] at hadvance; cases hadvance; exact h.dispose_refined hcall hpc
    | release a adjust => rw [hpc] at hadvance; cases hadvance; exact h.release_refined hcall hpc
    | returned code => rw [hpc] at hadvance; cases hadvance
  | drain =>
    cases hconsumer : s.consumer with
    | idle =>
      rw [hconsumer] at hstep
      cases hstep
      exact h.drain_refined hconsumer
    | draining key chain drained =>
      rw [hconsumer] at hstep
      cases hstep
  | consume => exact h.consume_refined hstep
  | drop key =>
    cases hstep
    exact h.drop_refined ⟨key, rfl⟩ hsafe
  | setAgentMax limit =>
    cases hstep
    exact .of_step (Step.limit (s.abs l) limit) h.fault
      (h.ring.congr rfl rfl rfl rfl rfl rfl) rfl rfl

/-- Every step leads to a state that represents an abstract queue again. -/
theorem Represents.of_refined {drops : Prop} (h : Represents s l)
    (hrefined : Refined drops s l s') :
    ∃ l', Represents s' l' ∧ Turns l l' ∧ ReflTransGen (Step drops) (s.abs l) (s'.abs l') := by
  obtain ⟨l', hfault, hring, hturns, hsteps⟩ := hrefined
  refine ⟨l', ⟨hfault, hring, ?_⟩, hturns, hsteps⟩
  have hconsistent : ∀ q, ReflTransGen (Step drops) (s.abs l) q → q.Consistent := by
    intro q hq
    induction hq with
    | refl => exact h.consistent
    | tail _ hstep ih => exact hstep.consistent ih
  exact hconsistent _ hsteps

omit [DecidableEq κ] in
theorem represents_init (maxItemsGlobal : BitVec 64) (dispose : Bool) :
    Represents (init maxItemsGlobal dispose : State κ) [] where
  fault := rfl
  ring := ⟨⟨List.nodup_nil, rfl, rfl, circular_nil, rfl, fun _ _ h => by cases h⟩, rfl, rfl⟩
  consistent := {
    fresh := fun _ _ => rfl
    indexed := fun _ _ h => by cases h
    busy_iff := fun a => ⟨fun h => absurd h List.not_mem_nil, fun ⟨_, _, h, _⟩ => by cases h⟩
    busy_nodup := List.nodup_nil
    unregistered := fun a h => absurd h List.not_mem_nil
    freeing_nodup := List.nodup_nil }

/-! ## The order of the ring -/

open List

variable {κ : Type}

def Action.begins : Action κ → Bool
  | .enqueue _ => true
  | .drain => true
  | .drop _ => true
  | _ => false

def Pc.isReturned : Pc → Bool
  | .returned _ => true
  | _ => false

def Consumer.isIdle : Consumer κ → Bool
  | .idle => true
  | .draining .. => false

/-- A call begins when those before it have returned. -/
def OneAtATime (s : State κ) (action : Action κ) : Prop :=
  action.begins = true → (s.calls.all (·.pc.isReturned) && s.consumer.isIdle) = true

instance (s : State κ) (action : Action κ) : Decidable (OneAtATime s action) :=
  inferInstanceAs (Decidable (_ → _))

/-- The slots that enter the ring in a run, in this order. -/
def entered [DecidableEq κ] : State κ → List (Action κ) → List SlotId
  | _, [] => []
  | s, action :: actions =>
    (s.step action).elim [] fun t => t.sched.ring.filter (· ∉ s.sched.ring) ++ entered t actions

theorem waiting_eq_nil {calls : List (Call κ)} (h : calls.all (·.pc.isReturned) = true) :
    waiting calls = [] := by
  rw [waiting, filterMap_eq_nil_iff]
  intro call hcall
  have hreturned := all_eq_true.1 h call hcall
  cases hpc : call.pc with
  | ringStep a =>
    rw [hpc] at hreturned
    cases hreturned
  | _ => rfl

theorem OneAtATime.dropSafe {s : State κ} {action : Action κ} (h : OneAtATime s action) :
    DropSafe s action := by
  cases action with
  | drop key =>
    have hcalls := (Bool.and_eq_true_iff.1 (h rfl)).1
    intro a _
    rw [waiting_eq_nil hcalls]
    exact not_mem_nil
  | _ => trivial

/-! ## Entries -/

variable {l l' E : List SlotId}

/-- Another entry comes last, and earlier ones of the same slot do not matter. -/
theorem dedup_concat (a : SlotId) : (E ++ [a]).dedup = E.dedup.filter (· ≠ a) ++ [a] := by
  induction E with
  | nil => rfl
  | cons b E ih =>
    rw [cons_append]
    by_cases hE : b ∈ E
    · rw [dedup_cons_of_mem (mem_append_left _ hE), ih, dedup_cons_of_mem hE]
    · by_cases hba : b = a
      · rw [dedup_cons_of_mem (by simp [hba]), ih, dedup_cons_of_notMem hE,
          filter_cons_of_neg (by simp [hba])]
      · rw [dedup_cons_of_notMem (by simp [hE, hba]), ih, dedup_cons_of_notMem hE,
          filter_cons_of_pos (by simp [hba]), cons_append]

/-- The slots of the ring are in the order of their last entries. -/
def InOrder (E l : List SlotId) : Prop := l = E.dedup.filter (· ∈ l)

theorem InOrder.turns (h : InOrder E l) (hturns : Turns l l') (hnodup : l'.Nodup) :
    InOrder (E ++ l'.filter (· ∉ l)) l' := by
  have hold : l.filter (· ∉ l) = [] := filter_eq_nil_iff.2 (by simp)
  rcases hturns with rfl | ⟨a, rfl⟩ | ⟨a, rfl⟩
  · rw [hold, append_nil]
    exact h
  · have ha : a ∉ l := fun ha => disjoint_of_nodup_append hnodup ha (mem_singleton_self a)
    have hkept : (E.dedup.filter (· ≠ a)).filter (· ∈ l ++ [a]) = l := by
      rw [filter_filter]
      refine (filter_congr fun b _ => ?_).trans h.symm
      by_cases hba : b = a <;> simp [hba, ha]
    rw [filter_append, hold, nil_append, filter_cons_of_pos (by simpa using ha), filter_nil,
      InOrder, dedup_concat, filter_append, hkept, filter_cons_of_pos (by simp), filter_nil]
  · have hl : l.Nodup := h ▸ (nodup_dedup E).filter _
    rw [filter_eq_nil_iff.2 (by simpa using fun b => mem_of_mem_erase), append_nil,
      InOrder, hl.erase_eq_filter]
    calc l.filter (· != a) = (E.dedup.filter (· ∈ l)).filter (· != a) := by rw [← h]
      _ = E.dedup.filter (· ∈ l.filter (· != a)) := by
        rw [filter_filter]
        exact filter_congr fun b _ => by by_cases hba : b = a <;> simp [hba]

variable [DecidableEq κ] {s u : State κ} {actions : List (Action κ)} {maxItemsGlobal : BitVec 64}
  {dispose : Bool}

/-- The ring behind a run, from a state with the entries `E` before it. -/
theorem runFrom_inOrder (hl : Represents s l) (horder : InOrder E l)
    (halone : (system maxItemsGlobal dispose).StepsMeet OneAtATime s actions)
    (hrun : (system maxItemsGlobal dispose).runFrom s actions = some u) :
    ∃ l', Represents u l' ∧ InOrder (E ++ entered s actions) l' := by
  induction actions generalizing s l E with
  | nil =>
    cases hrun
    exact ⟨l, hl, by rw [entered, append_nil]; exact horder⟩
  | cons action actions ih =>
    obtain ⟨t, hstep, hrest⟩ := TransitionSystem.runFrom_cons_eq_some _ |>.1 hrun
    obtain ⟨l', hl', hturns, -⟩ := hl.of_refined (step_refined hl halone.1.dropSafe hstep)
    have horder' := horder.turns hturns hl'.ring.1.nodup
    obtain ⟨l'', hl'', hend⟩ := ih hl' horder' (halone.2 t hstep) hrest
    refine ⟨l'', hl'', ?_⟩
    have hentered : entered s (action :: actions) = l'.filter (· ∉ l) ++ entered t actions := by
      have hstep' : s.step action = some t := hstep
      rw [entered, hstep', Option.elim_some, hl'.ring.1.ring_eq, hl.ring.1.ring_eq]
    rw [hentered, ← append_assoc]
    exact hend

/-- A drain takes the first slot of the ring. -/
theorem drain_takes_head {t : State κ} (hl : Represents s l) (hstep : s.step .drain = some t) :
    t.sched.ring = l.tail ∧ ∀ a ∈ l.head?,
      ∃ key items, s.sched.contents a = some (key, items) ∧ t.consumer = .draining key items 0 := by
  have ht : t = s.drain := by
    rw [State.step, hl.fault, if_neg Bool.false_ne_true] at hstep
    cases hconsumer : s.consumer with
    | idle =>
      rw [hconsumer] at hstep
      exact (Option.some.inj hstep).symm
    | draining key chain drained =>
      rw [hconsumer] at hstep
      cases hstep
  cases l with
  | nil =>
    rw [ht, hl.drain_nil rfl, hl.ring.1.ring_eq]
    exact ⟨rfl, fun a ha => nomatch ha⟩
  | cons a rest =>
    obtain ⟨sched, slot, hslot, hdrain, hring, -⟩ := hl.drain_spec rfl
    rw [erase_cons_head] at hring
    rw [ht, hdrain]
    refine ⟨hring.1.ring_eq, fun a' ha' => ?_⟩
    cases ha'
    exact ⟨slot.key, slot.q, Scheduler.contents_eq hslot, rfl⟩

/-- **The ring is one cycle in the order of entry.** After any run with one call at a time, the
slots reached from the head by `next` are as many as counted and all different, the last is the tail
and linked to the head, the cursor is at the head, `in_ring` says which slots are in the ring, and
they are in the order in which they entered. A drain takes the first of them. -/
theorem ring_in_order (maxItemsGlobal : BitVec 64) (dispose : Bool) (actions : List (Action κ))
    (s : State κ) (halone : (system maxItemsGlobal dispose).StepsMeet OneAtATime
    (init maxItemsGlobal dispose) actions)
    (hrun : (system maxItemsGlobal dispose).run actions = some s) : let ring := s.sched.ring
    s.fault = false ∧ ring.Nodup ∧ ring.length = s.sched.ringSlots ∧ Circular s.sched.nextOf ring ∧
      s.sched.ringHead = ring.head? ∧ s.sched.ringTail = ring.getLast? ∧
        s.sched.cursor = s.sched.ringHead ∧
      s.sched.prevCursor = s.sched.ringTail ∧
      (∀ a slot, s.sched.slots a = some slot → (slot.inRing = true ↔ a ∈ ring)) ∧
      ring = (entered (init maxItemsGlobal dispose) actions).dedup.filter (· ∈ ring) ∧
      ∀ t, s.step .drain = some t → t.sched.ring = ring.tail ∧ ∀ a ∈ ring.head?,
        ∃ key items, s.sched.contents a = some (key, items) ∧
          t.consumer = .draining key items 0 := by
  obtain ⟨l, hl, horder⟩ := runFrom_inOrder (E := []) (represents_init ..) rfl halone hrun
  obtain ⟨hlinked, hcursor, hprev⟩ := hl.ring
  rw [hlinked.ring_eq]
  exact ⟨hl.fault, hlinked.nodup, hlinked.count.symm, hlinked.links, hlinked.head, hlinked.tail,
    hcursor, hprev, hlinked.flags, horder, fun t => drain_takes_head hl⟩

/-- Three agents enter, the second is dropped and the first drained; then it enters again. -/
theorem ring_in_order_three :
    ∃ s : State Nat, (system 0 true).run
      [.enqueue 5, .advance 0 .ok, .advance 0 .ok, .enqueue 6, .advance 1 .ok, .advance 1 .ok,
        .enqueue 7, .advance 2 .ok, .advance 2 .ok, .drop 6, .advance 3 .ok, .advance 3 .ok,
          .advance 3 .ok, .drain, .consume,
        .consume, .enqueue 5, .advance 4 .ok, .advance 4 .ok] = some s ∧
      s.sched.ring = [2, 0] ∧ s.sched.cursor = s.sched.ringHead := by
  refine ⟨?s, ?hrun, ?_, (ring_in_order 0 true _ ?s ?_ ?hrun).2.2.2.2.2.2.1⟩
  case hrun => rfl
  · rfl
  · decide

end WazAISentinel.Shared.BatchQueue
