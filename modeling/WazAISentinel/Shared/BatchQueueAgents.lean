
import WazAISentinel.Shared.BatchQueueRing

/-!
# The batch queue without pointers

An abstract queue has its ring as a list of slots and of every slot only the key and the items.
`Step` are its steps, one for each effect of a critical section. `Registered` says who holds a slot:
the slots that have items and are registered are those in the ring and those a producer is about to
put there, each of them once; a slot that is being freed is not registered. Every step keeps it, if
an agent is not dropped between the push of a producer and its ring step.
-/

namespace WazAISentinel.Shared.BatchQueue

open Foundations Function List

variable {κ : Type}

/-- The slot a producer is about to put into the ring. -/
def Pc.waits : Pc → Option SlotId
  | .ringStep a => some a
  | _ => none

/-- The slot `free_slot` works on. -/
def Pc.frees : Pc → Option SlotId
  | .steal a _ => some a
  | .disposeChain a _ _ => some a
  | .release a _ => some a
  | _ => none

/-- The slots producers are about to put into the ring. -/
def waiting (calls : List (Call κ)) : List SlotId := calls.filterMap fun call => call.pc.waits

/-- The slots that are being freed. -/
def freeing (calls : List (Call κ)) : List SlotId := calls.filterMap fun call => call.pc.frees

/-- The batch queue with its ring as a list. -/
structure Abstract (κ : Type) where
  agents : Agents κ
  ring : List SlotId
  calls : List (Call κ)
  consumer : Consumer κ
  pushed : List (κ × Item)
  consumed : List (κ × Item)

namespace Agents

variable (g : Agents κ) {a b : SlotId} {key key' : κ} {items : List Item}

/-- Another queue in a slot. -/
def setQueue (a : SlotId) (key : κ) (q : List Item) : Agents κ :=
  { g with contents := Function.update g.contents a (some (key, q)) }

/-- A new slot. -/
def create (key : κ) : Agents κ :=
  { g.setQueue g.allocated key [] with allocated := g.allocated + 1 }

/-- Without the slot. -/
def release (a : SlotId) : Agents κ := { g with contents := Function.update g.contents a none }

/-- Add to `items_global`. -/
def adjustItems (change : BitVec 64) : Agents κ := { g with itemsGlobal := g.itemsGlobal + change }

@[simp] theorem setQueue_self : (g.setQueue a key items).contents a = some (key, items) :=
  update_self ..

@[simp] theorem setQueue_of_ne (h : b ≠ a) : (g.setQueue a key items).contents b = g.contents b :=
  update_of_ne h ..

@[simp] theorem release_self : (g.release a).contents a = none := update_self ..

@[simp] theorem release_of_ne (h : b ≠ a) : (g.release a).contents b = g.contents b :=
  update_of_ne h ..

@[simp] theorem create_self : (g.create key).contents g.allocated = some (key, []) :=
  g.setQueue_self

@[simp] theorem create_of_ne (h : b ≠ g.allocated) : (g.create key).contents b = g.contents b :=
  g.setQueue_of_ne h

variable [DecidableEq κ]

/-- A slot in the index. -/
def assign (key : κ) (a : SlotId) : Agents κ :=
  { g with agentIndex := Function.update g.agentIndex key (some a) }

/-- A new slot in the index. -/
def register (key : κ) : Agents κ := (g.create key).assign key g.allocated

/-- Without the agent. -/
def unregister (key : κ) : Agents κ :=
  { g with agentIndex := Function.update g.agentIndex key none }

@[simp] theorem assign_self : (g.assign key a).agentIndex key = some a := update_self ..

@[simp] theorem assign_of_ne (h : key' ≠ key) :
    (g.assign key a).agentIndex key' = g.agentIndex key' :=
  update_of_ne h ..

@[simp] theorem unregister_self : (g.unregister key).agentIndex key = none := update_self ..

@[simp] theorem unregister_of_ne (h : key' ≠ key) :
    (g.unregister key).agentIndex key' = g.agentIndex key' :=
  update_of_ne h ..

end Agents

/-- Call `i` is at `pc`. -/
def Abstract.setPc (q : Abstract κ) (i : Nat) (call : Call κ) (pc : Pc) : Abstract κ :=
  { q with calls := q.calls.set i { call with pc := pc } }

/-- The steps. Agents are dropped only if `drops` is the case. -/
inductive Step [DecidableEq κ] (drops : Prop) : Abstract κ → Abstract κ → Prop
  | limit (q : Abstract κ) (limit : Nat) : Step drops q
      { q with agents := { q.agents with maxItemsPerAgent := limit } }
  | count (q : Abstract κ) (key : κ) (pc : Pc) (hpc : pc = .monitor ∨ pc = .rollback enospc) :
      Step drops q
        { q with agents := q.agents.adjustItems 1, calls := q.calls ++ [⟨.enqueue, key, pc⟩] }
  | register (q : Abstract κ) (key : κ) (hnew : q.agents.agentIndex key = none) :
      Step drops q { q with agents := q.agents.register key }
  | reserve (q : Abstract κ) (i : Nat) (call : Call κ) (hcall : q.calls[i]? = some call)
      (hpc : call.pc = .monitor) :
      Step drops q
        { q.setPc i call (.steal q.agents.allocated false) with agents := q.agents.create call.key }
  | refuse (q : Abstract κ) (i : Nat) (call : Call κ) (code : Int) (hcall : q.calls[i]? = some call)
      (hpc : call.pc = .monitor) (hcode : code ≠ 0) : Step drops q (q.setPc i call (.rollback code))
  | push (q : Abstract κ) (i : Nat) (call : Call κ) (a : SlotId) (items : List Item)
      (hcall : q.calls[i]? = some call) (hpc : call.pc = .monitor)
      (hindex : q.agents.agentIndex call.key = some a)
        (hitems : q.agents.contents a = some (call.key, items)) :
      Step drops q
        { q.setPc i call (if items.length = 0 then .ringStep a else .returned 0) with
          agents := q.agents.setQueue a call.key (items ++ [i])
          pushed := q.pushed ++ [(call.key, i)] }
  | activate (q : Abstract κ) (i : Nat) (call : Call κ) (a : SlotId)
      (hcall : q.calls[i]? = some call)
      (hpc : call.pc = .ringStep a) :
        Step drops q { q.setPc i call (.returned 0) with ring := q.ring ++ [a] }
  | rollback (q : Abstract κ) (i : Nat) (call : Call κ) (code : Int)
      (hcall : q.calls[i]? = some call) (hpc : call.pc = .rollback code) :
      Step drops q { q.setPc i call (.returned code) with agents := q.agents.adjustItems (-1) }
  | steal (q : Abstract κ) (i : Nat) (call : Call κ) (a : SlotId) (adjust : Bool) (key : κ)
      (items : List Item) (hcall : q.calls[i]? = some call) (hpc : call.pc = .steal a adjust)
      (hitems : q.agents.contents a = some (key, items)) :
      Step drops q
        { q.setPc i call (.disposeChain a items adjust) with agents := q.agents.setQueue a key [] }
  | dispose (q : Abstract κ) (i : Nat) (call : Call κ) (a : SlotId) (chain : List Item)
      (adjust : Bool)
      (hcall : q.calls[i]? = some call) (hpc : call.pc = .disposeChain a chain adjust) :
      Step drops q
        { q.setPc i call (.release a adjust) with
          agents :=
            if adjust then q.agents.adjustItems (-BitVec.ofNat 64 chain.length) else q.agents }
  | release (q : Abstract κ) (i : Nat) (call : Call κ) (a : SlotId) (adjust : Bool)
      (hcall : q.calls[i]? = some call) (hpc : call.pc = .release a adjust) :
      Step drops q
        { q.setPc i call (if adjust then .returned 1 else .rollback enomem)
          with agents := q.agents.release a }
  | detach (q : Abstract κ) (a : SlotId) (key : κ) (items : List Item) (hidle : q.consumer = .idle)
      (ha : a ∈ q.ring) (hitems : q.agents.contents a = some (key, items)) :
      Step drops q
        { q with
          agents := q.agents.setQueue a key []
          ring := q.ring.erase a
          consumer := .draining key items 0 }
  | consume (q : Abstract κ) (key : κ) (item : Item) (chain : List Item) (drained : Nat)
      (hconsumer : q.consumer = .draining key (item :: chain) drained) :
      Step drops q
        { q with
          consumer := .draining key chain (drained + 1), consumed := q.consumed ++ [(key, item)] }
  | settle (q : Abstract κ) (key : κ) (drained : Nat)
      (hconsumer : q.consumer = .draining key [] drained) :
      Step drops q
        { q with consumer := .idle, agents := q.agents.adjustItems (-BitVec.ofNat 64 drained) }
  | drop (q : Abstract κ) (key : κ) (a : SlotId) (hdrops : drops)
      (hindex : q.agents.agentIndex key = some a) (hsafe : a ∉ waiting q.calls) :
      Step drops q
        { q with
          agents := q.agents.unregister key
          ring := q.ring.erase a
          calls := q.calls ++ [⟨.dropAgent, key, .steal a true⟩] }
  | dropMissing (q : Abstract κ) (key : κ) (hdrops : drops)
      (hindex : q.agents.agentIndex key = none) :
      Step drops q { q with calls := q.calls ++ [⟨.dropAgent, key, .returned 0⟩] }

/-! ## Calls that move on -/

variable {call : Call κ} {calls : List (Call κ)}

/-- A call and the others, however the call moves on. -/
theorem exists_others {i : Nat} (hcall : calls[i]? = some call) :
    ∃ others, calls.Perm (call :: others) ∧
      ∀ call', (calls.set i call').Perm (call' :: others) := by
  obtain ⟨hi, rfl⟩ := List.getElem?_eq_some_iff.1 hcall
  exact ⟨calls.eraseIdx i, (getElem_cons_eraseIdx_perm hi).symm,
    set_perm_cons_eraseIdx hi⟩

theorem waiting_cons : waiting (call :: calls) = call.pc.waits.toList ++ waiting calls := by
  cases h : call.pc.waits <;> simp [waiting, h]

theorem freeing_cons : freeing (call :: calls) = call.pc.frees.toList ++ freeing calls := by
  cases h : call.pc.frees <;> simp [freeing, h]

/-! ## Who holds a slot -/

/-- The slots with items are `busy`, the slots that are being freed are not registered. -/
structure Registered (g : Agents κ) (busy freeing : List SlotId) : Prop where
  fresh : ∀ a, g.allocated ≤ a → g.contents a = none
  indexed : ∀ key a, g.agentIndex key = some a → ∃ items, g.contents a = some (key, items)
  busy_iff : ∀ a, a ∈ busy ↔
    ∃ key items, g.contents a = some (key, items) ∧ g.agentIndex key = some a ∧ items ≠ []
  busy_nodup : busy.Nodup
  unregistered : ∀ a ∈ freeing, (g.contents a).isSome ∧ ∀ key, g.agentIndex key ≠ some a
  freeing_nodup : freeing.Nodup

namespace Registered

variable {g g' : Agents κ} {busy busy' frees frees' : List SlotId} {a : SlotId} {key : κ}
  {items items' : List Item}

section

variable (h : Registered g busy frees)

include h

theorem perm (hbusy : busy.Perm busy') (hfrees : frees.Perm frees') :
    Registered g busy' frees' :=
  { h with
    busy_iff b := by rw [← hbusy.mem_iff, h.busy_iff]
    busy_nodup := hbusy.nodup h.busy_nodup
    unregistered b hb := h.unregistered b (hfrees.mem_iff.2 hb)
    freeing_nodup := hfrees.nodup h.freeing_nodup }

/-- Counters and limits do not matter. -/
theorem congr (hcontents : g'.contents = g.contents) (hallocated : g'.allocated = g.allocated)
    (hindex : g'.agentIndex = g.agentIndex) : Registered g' busy frees :=
  { h with
    fresh := by rw [hcontents, hallocated]; exact h.fresh
    indexed := by rw [hcontents, hindex]; exact h.indexed
    busy_iff := by rw [hcontents, hindex]; exact h.busy_iff
    unregistered := by rw [hcontents, hindex]; exact h.unregistered }

theorem adjustItems (change : BitVec 64) : Registered (g.adjustItems change) busy frees :=
  h.congr rfl rfl rfl

theorem lt_allocated (ha : g.contents a = some (key, items)) : a < g.allocated := by
  by_contra hge
  rw [h.fresh a (Nat.le_of_not_lt hge)] at ha
  cases ha

/-- A key has one slot. -/
theorem slot_unique {key' : κ} (hindex : g.agentIndex key = some a)
    (hindex' : g.agentIndex key' = some a) : key = key' := by
  obtain ⟨items, hitems⟩ := h.indexed key a hindex
  obtain ⟨items', hitems'⟩ := h.indexed key' a hindex'
  rw [hitems] at hitems'
  exact congrArg Prod.fst (Option.some.inj hitems')

/-- Another queue in a slot: the slot is busy afterwards if the queue has items and the slot is
registered. -/
theorem setQueue (ha : g.contents a = some (key, items))
    (hother : ∀ b, b ≠ a → (b ∈ busy' ↔ b ∈ busy))
    (hself : a ∈ busy' ↔ g.agentIndex key = some a ∧ items' ≠ []) (hnodup : busy'.Nodup) :
    Registered (g.setQueue a key items') busy' frees where
  fresh b hb := by
    have hne : b ≠ a := by
      rintro rfl
      exact absurd (h.lt_allocated ha) (Nat.not_lt.2 hb)
    rw [g.setQueue_of_ne hne, h.fresh b hb]
  indexed key' b hindex := by
    obtain ⟨old, hold⟩ := h.indexed key' b hindex
    by_cases hba : b = a
    · subst hba
      rw [ha] at hold
      obtain rfl : key = key' := congrArg Prod.fst (Option.some.inj hold)
      exact ⟨items', g.setQueue_self⟩
    · exact ⟨old, (g.setQueue_of_ne hba).trans hold⟩
  busy_iff b := by
    by_cases hba : b = a
    · subst hba
      rw [hself]
      constructor
      · rintro ⟨hindex, hitems⟩
        exact ⟨key, items', g.setQueue_self, hindex, hitems⟩
      · rintro ⟨key', items'', hcontents, hindex, hitems⟩
        rw [g.setQueue_self] at hcontents
        cases hcontents
        exact ⟨hindex, hitems⟩
    · rw [hother b hba, g.setQueue_of_ne hba]
      exact h.busy_iff b
  busy_nodup := hnodup
  unregistered b hb := by
    refine ⟨?_, (h.unregistered b hb).2⟩
    by_cases hba : b = a
    · rw [hba, g.setQueue_self]
      rfl
    · rw [g.setQueue_of_ne hba]
      exact (h.unregistered b hb).1
  freeing_nodup := h.freeing_nodup

/-- Slots that are not registered may change. -/
theorem of_indexed (hindex : g'.agentIndex = g.agentIndex)
    (hsame : ∀ key a, g.agentIndex key = some a → g'.contents a = g.contents a)
    (hfresh : ∀ a, g'.allocated ≤ a → g'.contents a = none)
    (hunregistered : ∀ a ∈ frees', (g'.contents a).isSome ∧ ∀ key, g.agentIndex key ≠ some a)
    (hnodup : frees'.Nodup) :
    Registered g' busy frees' where
  fresh := hfresh
  indexed key b hb := by
    rw [hindex] at hb
    rw [hsame key b hb]
    exact h.indexed key b hb
  busy_iff b := by
    rw [h.busy_iff, hindex]
    refine exists_congr fun key => exists_congr fun items => and_congr_left fun hand => ?_
    rw [hsame key b hand.1]
  busy_nodup := h.busy_nodup
  unregistered b hb := by
    rw [hindex]
    exact hunregistered b hb
  freeing_nodup := hnodup

theorem ne_allocated (ha : (g.contents a).isSome) : a ≠ g.allocated := by
  rintro rfl
  rw [h.fresh _ le_rfl] at ha
  cases ha

theorem index_ne_allocated (key : κ) : g.agentIndex key ≠ some g.allocated := by
  intro hindex
  obtain ⟨items, hitems⟩ := h.indexed key _ hindex
  rw [h.fresh _ le_rfl] at hitems
  cases hitems

/-- A new slot that is not in the index is going to be freed. -/
theorem create (key : κ) : Registered (g.create key) busy (g.allocated :: frees) := by
  refine h.of_indexed rfl (fun key' b hb => ?_) (fun b hb => ?_) (fun b hb => ?_) ?_
  · exact g.create_of_ne fun hba => h.index_ne_allocated key' (hba ▸ hb)
  · have hle : g.allocated < b := hb
    rw [g.create_of_ne hle.ne', h.fresh b hle.le]
  · rcases mem_cons.1 hb with rfl | hb
    · exact ⟨by rw [g.create_self]; rfl, h.index_ne_allocated⟩
    · obtain ⟨hsome, hindex⟩ := h.unregistered b hb
      exact ⟨by rw [g.create_of_ne (h.ne_allocated hsome)]; exact hsome, hindex⟩
  · refine nodup_cons.2 ⟨fun hmem => ?_, h.freeing_nodup⟩
    exact h.ne_allocated (h.unregistered _ hmem).1 rfl

end

/-- A slot is released. -/
theorem release (h : Registered g busy (a :: frees)) : Registered (g.release a) busy frees := by
  obtain ⟨hnot, hnodup⟩ := nodup_cons.1 h.freeing_nodup
  refine h.of_indexed rfl (fun key b hb => ?_) (fun b hb => ?_) (fun b hb => ?_) hnodup
  · refine g.release_of_ne ?_
    rintro rfl
    exact (h.unregistered b mem_cons_self).2 key hb
  · by_cases hba : b = a
    · rw [hba, g.release_self]
    · rw [g.release_of_ne hba, h.fresh b hb]
  · rw [g.release_of_ne fun hba : b = a => hnot (hba ▸ hb)]
    exact h.unregistered b (mem_cons_of_mem a hb)

/-- A producer pushes: to an empty queue, then its slot is waiting, or to one that is busy
already. -/
theorem push (i : Item) (h : Registered g busy frees) (hindex : g.agentIndex key = some a)
    (hitems : g.contents a = some (key, items)) :
    Registered (g.setQueue a key (items ++ [i]))
      ((if items.length = 0 then [a] else []) ++ busy) frees := by
  have hsome : items ++ [i] ≠ [] := append_ne_nil_of_right_ne_nil _ (cons_ne_nil i [])
  by_cases hempty : items.length = 0
  · have hnot : a ∉ busy := by
      intro hmem
      obtain ⟨key', items', hcontents, -, hitems'⟩ := (h.busy_iff a).1 hmem
      cases hitems.symm.trans hcontents
      exact hitems' (eq_nil_of_length_eq_zero hempty)
    rw [if_pos hempty, singleton_append]
    refine h.setQueue hitems (fun b hb => ?_) ?_ (nodup_cons.2 ⟨hnot, h.busy_nodup⟩)
    · rw [mem_cons, or_iff_right hb]
    · exact iff_of_true mem_cons_self ⟨hindex, hsome⟩
  · have hbusy : a ∈ busy :=
      (h.busy_iff a).2
        ⟨key, items, hitems, hindex, fun hnil => hempty (by rw [hnil, length_nil])⟩
    rw [if_neg hempty, nil_append]
    exact h.setQueue hitems (fun _ _ => Iff.rfl) (iff_of_true hbusy ⟨hindex, hsome⟩) h.busy_nodup

/-- The queue of a busy slot is detached. -/
theorem detach (h : Registered g busy frees) (hitems : g.contents a = some (key, items)) :
    Registered (g.setQueue a key []) (busy.erase a) frees := by
  refine h.setQueue hitems (fun b hb => ?_) ?_ (h.busy_nodup.erase a)
  · exact mem_erase_of_ne hb
  · exact iff_of_false h.busy_nodup.not_mem_erase fun hand => hand.2 rfl

variable [DecidableEq κ]

/-- A slot that is not registered comes into the index of its key. -/
theorem assign (h : Registered g busy (a :: frees)) (ha : g.contents a = some (key, []))
    (hnew : g.agentIndex key = none) : Registered (g.assign key a) busy frees where
  fresh := h.fresh
  indexed key' b hindex := by
    by_cases hkey : key' = key
    · rw [hkey, g.assign_self] at hindex
      cases hindex
      exact ⟨[], hkey ▸ ha⟩
    · rw [g.assign_of_ne hkey] at hindex
      exact h.indexed key' b hindex
  busy_iff b := by
    rw [h.busy_iff]
    constructor
    · rintro ⟨key', items, hcontents, hindex, hitems⟩
      have hkey : key' ≠ key := by
        rintro rfl
        rw [hnew] at hindex
        cases hindex
      exact ⟨key', items, hcontents, (g.assign_of_ne hkey).trans hindex, hitems⟩
    · rintro ⟨key', items, hcontents, hindex, hitems⟩
      by_cases hkey : key' = key
      · rw [hkey, g.assign_self] at hindex
        cases hindex
        cases ha.symm.trans hcontents
        exact absurd rfl hitems
      · rw [g.assign_of_ne hkey] at hindex
        exact ⟨key', items, hcontents, hindex, hitems⟩
  busy_nodup := h.busy_nodup
  unregistered b hb := by
    obtain ⟨hsome, hindex⟩ := h.unregistered b (mem_cons_of_mem a hb)
    refine ⟨hsome, fun key' hindex' => ?_⟩
    by_cases hkey : key' = key
    · rw [hkey, g.assign_self] at hindex'
      cases hindex'
      exact (nodup_cons.1 h.freeing_nodup).1 hb
    · rw [g.assign_of_ne hkey] at hindex'
      exact hindex key' hindex'
  freeing_nodup := (nodup_cons.1 h.freeing_nodup).2

theorem register (h : Registered g busy frees) (hnew : g.agentIndex key = none) :
    Registered (g.register key) busy frees :=
  (h.create key).assign g.create_self hnew

/-- What the index without an agent gives is what it gave before. -/
theorem unregister_eq_some {key' : κ} (hindex : (g.unregister key).agentIndex key' = some a) :
    key' ≠ key ∧ g.agentIndex key' = some a := by
  by_cases hkey : key' = key
  · rw [hkey, g.unregister_self] at hindex
    cases hindex
  · rw [g.unregister_of_ne hkey] at hindex
    exact ⟨hkey, hindex⟩

/-- A dropped agent: its slot is not busy and is going to be freed. -/
theorem unregister (h : Registered g busy frees) (hindex : g.agentIndex key = some a) :
    Registered (g.unregister key) (busy.erase a) (a :: frees) where
  fresh := h.fresh
  indexed key' b hindex' := h.indexed key' b (unregister_eq_some hindex').2
  busy_iff b := by
    rw [h.busy_nodup.mem_erase_iff, h.busy_iff]
    constructor
    · rintro ⟨hba, key', items, hcontents, hindex', hitems⟩
      have hkey : key' ≠ key := by
        rintro rfl
        rw [hindex] at hindex'
        exact hba (Option.some.inj hindex').symm
      exact ⟨key', items, hcontents, (g.unregister_of_ne hkey).trans hindex', hitems⟩
    · rintro ⟨key', items, hcontents, hindex', hitems⟩
      obtain ⟨hkey, hold⟩ := unregister_eq_some hindex'
      refine ⟨?_, key', items, hcontents, hold, hitems⟩
      rintro rfl
      exact hkey (h.slot_unique hold hindex)
  busy_nodup := h.busy_nodup.erase a
  unregistered b hb := by
    rcases mem_cons.1 hb with rfl | hb
    · obtain ⟨items, hitems⟩ := h.indexed key b hindex
      refine ⟨Option.isSome_of_eq_some hitems, fun key' hindex' => ?_⟩
      obtain ⟨hkey, hold⟩ := unregister_eq_some hindex'
      exact hkey (h.slot_unique hold hindex)
    · refine ⟨(h.unregistered b hb).1, fun key' hindex' => ?_⟩
      exact (h.unregistered b hb).2 key' (unregister_eq_some hindex').2
  freeing_nodup := by
    refine nodup_cons.2 ⟨fun hmem => ?_, h.freeing_nodup⟩
    exact (h.unregistered a hmem).2 key hindex

omit [DecidableEq κ] in
/-- One call apart from the others. -/
theorem split_iff {ring : List SlotId} {others : List (Call κ)}
    (hperm : calls.Perm (call :: others)) :
    Registered g (ring ++ waiting calls) (freeing calls) ↔
      Registered g (call.pc.waits.toList ++ (ring ++ waiting others))
        (call.pc.frees.toList ++ freeing others) := by
  have hwaiting :
      (ring ++ waiting calls).Perm (call.pc.waits.toList ++ (ring ++ waiting others)) := by
    rw [← append_assoc]
    have hwaiting : (waiting calls).Perm (waiting (call :: others)) := hperm.filterMap _
    refine (hwaiting.append_left ring).trans ?_
    rw [waiting_cons, ← append_assoc]
    exact perm_append_comm.append_right _
  have hfreeing : (freeing calls).Perm (call.pc.frees.toList ++ freeing others) := by
    rw [← freeing_cons]
    exact hperm.filterMap _
  exact ⟨fun h => h.perm hwaiting hfreeing, fun h => h.perm hwaiting.symm hfreeing.symm⟩

end Registered

/-- The slots with items are in the ring or about to be put there. -/
def Abstract.Consistent (q : Abstract κ) : Prop :=
  Registered q.agents (q.ring ++ waiting q.calls) (freeing q.calls)

/-- A call moves on: what held of it and the others has to hold of it at its new place and of the
others. -/
theorem Abstract.Consistent.move {q : Abstract κ} {i : Nat} {pc pc' : Pc} {g : Agents κ}
    {ring : List SlotId} (h : q.Consistent) (hcall : q.calls[i]? = some call) (hpc : call.pc = pc)
    (hmove : ∀ others frees,
    Registered q.agents (pc.waits.toList ++ (q.ring ++ others)) (pc.frees.toList ++ frees) →
    Registered g (pc'.waits.toList ++ (ring ++ others)) (pc'.frees.toList ++ frees)) :
    Registered g (ring ++ waiting (q.calls.set i { call with pc := pc' }))
      (freeing (q.calls.set i { call with pc := pc' })) := by
  obtain ⟨others, hperm, hset⟩ := exists_others hcall
  have hold := (Registered.split_iff hperm).1 h
  rw [hpc] at hold
  exact (Registered.split_iff (hset { call with pc := pc' })).2 (hmove _ _ hold)

variable [DecidableEq κ] {drops : Prop} {q q' : Abstract κ}

/-- Every step keeps the slots with items in the ring or about to be put there. -/
theorem Step.consistent (hstep : Step drops q q') (h : q.Consistent) : q'.Consistent := by
  cases hstep with
  | limit limit => exact h.congr rfl rfl rfl
  | count key pc hpc =>
    have hnew := h.adjustItems 1
    refine (Registered.split_iff (perm_append_singleton _ _)).2 ?_
    rcases hpc with rfl | rfl <;> exact hnew
  | register key hnew => exact h.register hnew
  | reserve i call hcall hpc =>
    exact h.move hcall hpc fun _ _ hsplit => hsplit.create call.key
  | refuse i call code hcall hpc hcode =>
    exact h.move hcall hpc fun _ _ hsplit => hsplit
  | push i call a items hcall hpc hindex hitems =>
    refine h.move hcall hpc fun others frees hsplit => ?_
    have hpush := hsplit.push i hindex hitems
    split
    · rwa [if_pos ‹_›] at hpush
    · rwa [if_neg ‹_›] at hpush
  | activate i call a hcall hpc =>
    refine h.move hcall hpc fun others frees hsplit => hsplit.perm ?_ (List.Perm.refl _)
    -- the slot moves from the waiting ones to the end of the ring
    change (a :: (q.ring ++ others)).Perm (q.ring ++ [a] ++ others)
    rw [append_assoc]
    exact perm_middle.symm
  | rollback i call code hcall hpc =>
    exact h.move hcall hpc fun _ _ hsplit => hsplit.adjustItems (-1)
  | steal i call a adjust key items hcall hpc hitems =>
    refine h.move hcall hpc fun others frees hsplit => ?_
    have hnot : a ∉ q.ring ++ others := by
      intro hmem
      obtain ⟨key', items', -, hindex, -⟩ := (hsplit.busy_iff a).1 hmem
      exact (hsplit.unregistered a mem_cons_self).2 key' hindex
    have hdetach := hsplit.detach hitems
    rw [erase_of_not_mem] at hdetach
    · exact hdetach
    · exact hnot
  | dispose i call a chain adjust hcall hpc =>
    refine h.move hcall hpc fun others frees hsplit => ?_
    cases adjust with
    | true => exact hsplit.adjustItems _
    | false => exact hsplit
  | release i call a adjust hcall hpc =>
    refine h.move hcall hpc fun others frees hsplit => ?_
    cases adjust <;> exact hsplit.release
  | detach a key items hidle ha hitems =>
    have hdetach := h.detach hitems
    rw [erase_append_left _ ha] at hdetach
    exact hdetach
  | consume key item chain drained hconsumer => exact h
  | settle key drained hconsumer => exact h.adjustItems _
  | drop key a hdrops hindex hsafe =>
    refine (Registered.split_iff (perm_append_singleton _ _)).2 ?_
    have hunregister := h.unregister hindex
    have herase : (q.ring ++ waiting q.calls).erase a = q.ring.erase a ++ waiting q.calls := by
      by_cases ha : a ∈ q.ring
      · exact erase_append_left _ ha
      · rw [erase_append_right _ ha, erase_of_not_mem hsafe, erase_of_not_mem ha]
    rw [herase] at hunregister
    exact hunregister
  | dropMissing key hdrops hindex =>
    exact (Registered.split_iff (perm_append_singleton _ _)).2 h

end WazAISentinel.Shared.BatchQueue
