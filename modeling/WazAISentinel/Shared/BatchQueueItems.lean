import WazAISentinel.Shared.BatchQueueRefines

/-!
# No item is lost, and no slot is used after it was freed

As long as no agent is dropped, what was pushed for an agent is what was consumed, then the chain
being drained, then its queue (`Ordered`); a call has pushed once it is past its section of the
queue, and `items_global` counts the queued items and those of the calls in progress.

With dropped agents, no step accesses a freed slot and the slots in the ring are registered, if an
agent is not dropped while a producer is between its push and its ring step.
-/

namespace WazAISentinel.Shared.BatchQueue

open Finset Foundations Relation Option

variable {κ : Type} {calls : List (Call κ)} {call : Call κ} {i : Nat} {a : SlotId}

/-! ## Counting the queued items -/

namespace Agents

variable (g : Agents κ) {b : SlotId} {key : κ} {items : List Item} (change : BitVec 64)

/-- The queue of an agent. -/
def queueOf (key : κ) : List Item := ((g.agentIndex key).bind g.contents).elim [] Prod.snd

/-- The number of items in a slot. -/
def load (a : SlotId) : Nat := (g.contents a).elim 0 fun content => content.2.length

/-- The number of queued items. -/
def queued : Nat := ∑ a ∈ Finset.range g.allocated, g.load a

theorem load_eq (h : g.contents a = some (key, items)) : g.load a = items.length := by
  rw [load, h, elim_some]

theorem load_congr {g' : Agents κ} (h : g'.contents a = g.contents a) : g'.load a = g.load a := by
  rw [load, h, load]

theorem queued_setQueue (h : g.contents a = some (key, items)) (ha : a < g.allocated) (key' : κ)
    (items' : List Item) :
    (g.setQueue a key' items').queued + items.length = g.queued + items'.length := by
  have hmem : a ∈ range g.allocated := mem_range.2 ha
  have hother : ∀ b ∈ (range g.allocated).erase a, (g.setQueue a key' items').load b = g.load b :=
    fun b hb => load_congr g (g.setQueue_of_ne (ne_of_mem_erase hb))
  have hself : (g.setQueue a key' items').load a = items'.length := load_eq _ g.setQueue_self
  have hrange : (g.setQueue a key' items').queued =
      items'.length + ∑ b ∈ (range g.allocated).erase a, g.load b := by
    rw [← hself, ← sum_congr rfl hother]
    exact (add_sum_erase _ _ hmem).symm
  have hold : g.queued = items.length + ∑ b ∈ (range g.allocated).erase a, g.load b := by
    rw [← g.load_eq h]
    exact (add_sum_erase _ _ hmem).symm
  omega

theorem queued_create (key : κ) : (g.create key).queued = g.queued := by
  have hold : ∀ b ∈ range g.allocated, (g.create key).load b = g.load b :=
    fun b hb => load_congr g (g.create_of_ne (mem_range.1 hb).ne)
  calc (g.create key).queued = ∑ b ∈ range (g.allocated + 1), (g.create key).load b := rfl
    _ = ∑ b ∈ range g.allocated, (g.create key).load b + (g.create key).load g.allocated :=
        sum_range_succ ..
    _ = g.queued + 0 := by rw [sum_congr rfl hold, load_eq _ g.create_self]; rfl
    _ = g.queued := Nat.add_zero _

theorem queued_release (h : g.contents a = some (key, [])) : (g.release a).queued = g.queued := by
  refine sum_congr rfl fun b _ => ?_
  by_cases hb : b = a
  · rw [hb, g.load_eq h, load, g.release_self]
    rfl
  · exact load_congr g (g.release_of_ne hb)

@[simp] theorem queueOf_adjustItems : (g.adjustItems change).queueOf key = g.queueOf key := rfl

@[simp] theorem queued_adjustItems : (g.adjustItems change).queued = g.queued := rfl

end Agents

/-! ## The queues of the agents -/

namespace Registered

variable {g : Agents κ} {busy frees : List SlotId} {key : κ} {items items' : List Item}

theorem queueOf_eq (hindex : g.agentIndex key = some a) (h : g.contents a = some (key, items)) :
    g.queueOf key = items := by
  rw [Agents.queueOf, hindex, bind_some, h, elim_some]

/-- The slots that the index leads to decide about the queues. -/
theorem queueOf_congr {g' : Agents κ} (hindex : g'.agentIndex = g.agentIndex)
    (hsame : ∀ a, g.agentIndex key = some a → g'.contents a = g.contents a) :
    g'.queueOf key = g.queueOf key := by
  rw [Agents.queueOf, Agents.queueOf, hindex]
  cases ha : g.agentIndex key with
  | none => rfl
  | some a => rw [bind_some, bind_some, hsame a ha]

section

variable (h : Registered g busy frees)

include h

theorem queueOf_setQueue (hindex : g.agentIndex key = some a) (key' : κ) [DecidableEq κ] :
    (g.setQueue a key items').queueOf key' = if key = key' then items' else g.queueOf key' := by
  by_cases hkey : key = key'
  · subst hkey
    rw [if_pos rfl]
    exact queueOf_eq hindex g.setQueue_self
  · rw [if_neg hkey]
    refine queueOf_congr rfl fun b hb => g.setQueue_of_ne ?_
    rintro rfl
    exact hkey (h.slot_unique hindex hb)

/-- A slot being freed is not registered. -/
theorem ne_of_frees {b : SlotId} (ha : a ∈ frees) (hb : g.agentIndex key = some b) : a ≠ b := by
  rintro rfl
  exact (h.unregistered a ha).2 key hb

theorem queueOf_setQueue_of_frees (ha : a ∈ frees) (key key' : κ) :
    (g.setQueue a key items').queueOf key' = g.queueOf key' :=
  queueOf_congr rfl fun _ hb => g.setQueue_of_ne (h.ne_of_frees ha hb).symm

theorem queueOf_release (ha : a ∈ frees) (key : κ) : (g.release a).queueOf key = g.queueOf key :=
  queueOf_congr rfl fun _ hb => g.release_of_ne (h.ne_of_frees ha hb).symm

theorem queueOf_create (key key' : κ) : (g.create key).queueOf key' = g.queueOf key' := by
  refine queueOf_congr rfl fun b hb => g.create_of_ne ?_
  rintro rfl
  exact h.index_ne_allocated key' hb

theorem queueOf_register [DecidableEq κ] (hnew : g.agentIndex key = none) (key' : κ) :
    (g.register key).queueOf key' = g.queueOf key' := by
  by_cases hkey : key' = key
  · subst hkey
    have hempty : (g.register key').queueOf key' = [] :=
      queueOf_eq (g.create key').assign_self g.create_self
    rw [hempty, Agents.queueOf, hnew]
    rfl
  · have hindex : (g.register key).agentIndex key' = (g.create key).agentIndex key' :=
      (g.create key).assign_of_ne hkey
    rw [← h.queueOf_create key key', Agents.queueOf, hindex]
    rfl

/-- The agents with items are those that are busy. -/
theorem queueOf_ne_nil_iff : g.queueOf key ≠ [] ↔ ∃ a ∈ busy, g.agentIndex key = some a := by
  cases hindex : g.agentIndex key with
  | none => simp [Agents.queueOf, hindex]
  | some a =>
    obtain ⟨items, hitems⟩ := h.indexed key a hindex
    rw [queueOf_eq hindex hitems]
    constructor
    · exact fun hne => ⟨a, (h.busy_iff a).2 ⟨key, items, hitems, hindex, hne⟩, rfl⟩
    · rintro ⟨b, hb, ⟨⟩⟩
      obtain ⟨key', items', hitems', -, hne⟩ := (h.busy_iff a).1 hb
      cases hitems.symm.trans hitems'
      exact hne

end

end Registered

/-! ## What is pushed is consumed in order -/

/-- The chain that is being drained, if it is one of the agent. -/
def Consumer.chainOf [DecidableEq κ] : Consumer κ → κ → List Item
  | .idle, _ => []
  | .draining key' chain _, key => if key' = key then chain else []

/-- The items of an agent. -/
def itemsOf [DecidableEq κ] (items : List (κ × Item)) (key : κ) : List Item :=
  (items.filter fun item => item.1 = key).map Prod.snd

/-- What was pushed for an agent was consumed, or is being drained, or is in its queue. -/
def Abstract.Ordered [DecidableEq κ] (q : Abstract κ) : Prop :=
  ∀ key,
    itemsOf q.pushed key = itemsOf q.consumed key ++ q.consumer.chainOf key ++ q.agents.queueOf key

theorem Pc.waits_eq_some_iff {pc : Pc} : pc.waits = some a ↔ pc = .ringStep a := by
  cases pc <;> simp [Pc.waits]

/-- The slot of a call that frees it is among those being freed. -/
theorem mem_freeing (hcall : calls[i]? = some call) (hpc : call.pc.frees = some a) :
    a ∈ freeing calls :=
  List.mem_filterMap.2 ⟨call, List.mem_of_getElem? hcall, hpc⟩

section Order

variable [DecidableEq κ] {q q' : Abstract κ}

theorem itemsOf_concat (items : List (κ × Item)) (key key' : κ) (item : Item) :
    itemsOf (items ++ [(key, item)]) key' = itemsOf items key' ++ if key = key' then [item]
      else [] := by
  by_cases hkey : key = key' <;> simp [itemsOf, hkey]

theorem Step.ordered (hstep : Step False q q') (hq : q.Consistent) (h : q.Ordered) :
    q'.Ordered := by
  intro key'
  have hkey' := h key'
  cases hstep with
  | limit limit | count key pc hpc | refuse i call code hcall hpc hcode
  | activate i call a hcall hpc => exact hkey'
  | register key hnew =>
    rw [hq.queueOf_register hnew]
    exact hkey'
  | reserve i call hcall hpc =>
    rw [hq.queueOf_create]
    exact hkey'
  | push i call a items hcall hpc hindex hitems =>
    rw [itemsOf_concat, hq.queueOf_setQueue hindex, hkey']
    by_cases hkey : call.key = key'
    · subst hkey
      rw [if_pos rfl, if_pos rfl, Registered.queueOf_eq hindex hitems, ← List.append_assoc]
      rfl
    · rw [if_neg hkey, if_neg hkey, List.append_nil]
      rfl
  | rollback i call code hcall hpc =>
    rw [Agents.queueOf_adjustItems]
    exact hkey'
  | steal i call a adjust key items hcall hpc hitems =>
    rw [hq.queueOf_setQueue_of_frees (mem_freeing hcall (by rw [hpc, Pc.frees]))]
    exact hkey'
  | dispose i call a chain adjust hcall hpc =>
    cases adjust with
    | true =>
      exact hkey'
    | false => exact hkey'
  | release i call a adjust hcall hpc =>
    rw [hq.queueOf_release (mem_freeing hcall (by rw [hpc, Pc.frees]))]
    exact hkey'
  | detach a key items hidle ha hitems =>
    -- the queue becomes the chain
    obtain ⟨key'', items', hcontents, hindex, -⟩ := (hq.busy_iff a).1 (List.mem_append_left _ ha)
    cases hitems.symm.trans hcontents
    rw [hidle, Consumer.chainOf, List.append_nil] at hkey'
    rw [hq.queueOf_setQueue hindex, hkey', Consumer.chainOf]
    by_cases hkey : key = key'
    · subst hkey
      rw [if_pos rfl, if_pos rfl, List.append_nil, Registered.queueOf_eq hindex hitems]
    · rw [if_neg hkey, if_neg hkey, List.append_nil]
  | consume key item chain drained hconsumer =>
    rw [hconsumer, Consumer.chainOf] at hkey'
    rw [itemsOf_concat, hkey', Consumer.chainOf]
    by_cases hkey : key = key'
    · rw [if_pos hkey, if_pos hkey, if_pos hkey, List.append_assoc _ [item] chain,
        List.singleton_append]
    · rw [if_neg hkey, if_neg hkey, if_neg hkey, List.append_nil, List.append_nil]
  | settle key drained hconsumer =>
    rw [hconsumer, Consumer.chainOf, ite_self] at hkey'
    exact hkey'
  | drop key a hdrops hindex hsafe | dropMissing key hdrops hindex => exact hdrops.elim

end Order

/-! ## Which calls have pushed -/

/-- The pushed items are those of the calls past their section of the queue. -/
structure PushedBy (pushed : List (κ × Item)) (calls : List (Call κ)) : Prop where
  nodup : pushed.Nodup
  mem_iff : ∀ key i, (key, i) ∈ pushed ↔
    ∃ call, calls[i]? = some call ∧ call.key = key ∧ call.pc.pushes = true

variable {pc : Pc} {pushed : List (κ × Item)} {k n n' : Nat} {actions : List (Action κ)}
  {dispose : Bool} {maxItemsGlobal : BitVec 64} {s : State κ}

theorem PushedBy.set (h : PushedBy pushed calls) (hcall : calls[i]? = some call) (hsame :
    pc.pushes = call.pc.pushes) : PushedBy pushed (calls.set i { call with pc := pc }) where
  nodup := h.nodup
  mem_iff key j := by
    rw [h.mem_iff]
    by_cases hij : i = j
    · subst hij
      have hi : i < calls.length := (List.getElem?_eq_some_iff.1 hcall).1
      rw [List.getElem?_set_self hi, hcall]
      simp [hsame]
    · rw [List.getElem?_set_ne hij]

theorem PushedBy.append (h : PushedBy pushed calls) (hnot : call.pc.pushes = false) :
    PushedBy pushed (calls ++ [call]) where
  nodup := h.nodup
  mem_iff key j := by
    rw [h.mem_iff]
    rcases Nat.lt_or_ge j calls.length with hj | hj
    · rw [List.getElem?_append_left hj]
    · -- the new call has not pushed
      rw [List.getElem?_append_right hj, List.getElem?_eq_none hj]
      refine iff_of_false (fun ⟨_, hnone, _⟩ => nomatch hnone) ?_
      rintro ⟨call', hcall', -, hpushes⟩
      obtain rfl := List.mem_singleton.1 (List.mem_of_getElem? hcall')
      rw [hnot] at hpushes
      cases hpushes

theorem PushedBy.push (h : PushedBy pushed calls) (hcall : calls[i]? = some call)
    (hnot : call.pc.pushes = false) (hpushes : pc.pushes = true) :
    PushedBy (pushed ++ [(call.key, i)]) (calls.set i { call with pc := pc }) := by
  have hi : i < calls.length := (List.getElem?_eq_some_iff.1 hcall).1
  have hnew : ∀ key, (key, i) ∉ pushed := by
    intro key hmem
    obtain ⟨call', hcall', -, hpushes'⟩ := (h.mem_iff key i).1 hmem
    cases hcall.symm.trans hcall'
    rw [hnot] at hpushes'
    cases hpushes'
  refine ⟨?_, fun key j => ?_⟩
  · refine List.nodup_append.2 ⟨h.nodup, List.nodup_singleton _, ?_⟩
    rintro x hx y hy rfl
    rw [List.mem_singleton.1 hy] at hx
    exact hnew call.key hx
  · rw [List.mem_append, List.mem_singleton, Prod.mk.injEq]
    by_cases hij : i = j
    · subst hij
      rw [List.getElem?_set_self hi]
      simp only [hnew key, false_or, and_true, some.injEq, exists_eq_left', hpushes]
      exact eq_comm
    · rw [List.getElem?_set_ne hij, h.mem_iff]
      exact ⟨fun hor => hor.resolve_right fun hand => hij hand.2.symm, .inl⟩

/-! ## Calls that fail -/

/-- Without dropped agents, a call that fails returns a code, and a slot it frees has no items. -/
def Pc.Clean (g : Agents κ) : Pc → Prop
  | .rollback code => code ≠ 0
  | .steal a adjust => adjust = false ∧ ∃ key, g.contents a = some (key, [])
  | .disposeChain a chain adjust =>
    adjust = false ∧ chain = [] ∧ ∃ key, g.contents a = some (key, [])
  | .release a adjust => adjust = false ∧ ∃ key, g.contents a = some (key, [])
  | _ => True

/-- All calls are clean. -/
def AllClean (g : Agents κ) (calls : List (Call κ)) : Prop := ∀ call ∈ calls, call.pc.Clean g

theorem Pc.Clean.congr {g g' : Agents κ} (h : pc.Clean g)
    (hsame : ∀ a, pc.frees = some a → g'.contents a = g.contents a) : pc.Clean g' := by
  cases pc with
  | steal a adjust | release a adjust => exact ⟨h.1, by rw [hsame a rfl]; exact h.2⟩
  | disposeChain a chain adjust => exact ⟨h.1, h.2.1, by rw [hsame a rfl]; exact h.2.2⟩
  | monitor | ringStep a | returned code => trivial
  | rollback code => exact h

namespace AllClean

variable {g g' : Agents κ}

theorem congr (h : AllClean g calls) (hsame : ∀ a ∈ freeing calls, g'.contents a = g.contents a) :
    AllClean g' calls := by
  intro call hcall
  refine (h call hcall).congr fun a ha => hsame a ?_
  exact List.mem_filterMap.2 ⟨call, hcall, ha⟩

theorem of_pc (h : AllClean g calls) (hcall : calls[i]? = some call) (hpc : call.pc = pc) :
    pc.Clean g :=
  hpc ▸ h call (List.mem_of_getElem? hcall)

theorem set (h : AllClean g calls) (hcall : call.pc.Clean g) : AllClean g (calls.set i call) := by
  intro call' hcall'
  rcases List.mem_or_eq_of_mem_set hcall' with hold | rfl
  · exact h call' hold
  · exact hcall

theorem append (h : AllClean g calls) (hcall : call.pc.Clean g) : AllClean g (calls ++ [call]) :=
  List.forall_mem_append.2 ⟨h, List.forall_mem_singleton.2 hcall⟩

end AllClean

section Steps

variable [DecidableEq κ] {q q' : Abstract κ}

theorem Step.clean (hstep : Step False q q') (hq : q.Consistent) (h : AllClean q.agents q.calls) :
    AllClean q'.agents q'.calls := by
  cases hstep with
  | limit limit | settle key drained hconsumer => exact h.congr fun _ _ => rfl
  | count key pc hpc =>
    have hnew : pc.Clean (q.agents.adjustItems 1) := by
      rcases hpc with rfl | rfl
      · trivial
      · exact (by decide : enospc ≠ 0)
    exact (h.congr fun _ _ => rfl).append hnew
  | register key hnew =>
    refine h.congr fun a ha => q.agents.create_of_ne ?_
    exact hq.ne_allocated (hq.unregistered a ha).1
  | reserve i call hcall hpc =>
    have hold : AllClean (q.agents.create call.key) q.calls :=
      h.congr fun a ha => q.agents.create_of_ne (hq.ne_allocated (hq.unregistered a ha).1)
    exact hold.set ⟨rfl, call.key, q.agents.create_self⟩
  | refuse i call code hcall hpc hcode => exact h.set hcode
  | push i call a items hcall hpc hindex hitems =>
    have hold : AllClean (q.agents.setQueue a call.key (items ++ [i])) q.calls :=
      h.congr fun b hb => q.agents.setQueue_of_ne (hq.ne_of_frees hb hindex)
    refine hold.set ?_
    split <;> trivial
  | activate i call a hcall hpc => exact h.set trivial
  | rollback i call code hcall hpc =>
    have hold : AllClean (q.agents.adjustItems (-1)) q.calls := h.congr fun _ _ => rfl
    exact hold.set trivial
  | steal i call a adjust key items hcall hpc hitems =>
    -- the queue was empty already
    obtain ⟨hadjust, key', hempty⟩ := h.of_pc hcall hpc
    cases hitems.symm.trans hempty
    have hold : AllClean (q.agents.setQueue a key []) q.calls := by
      refine h.congr fun b _ => ?_
      by_cases hba : b = a
      · rw [hba, q.agents.setQueue_self, hempty]
      · exact q.agents.setQueue_of_ne hba
    exact hold.set ⟨hadjust, rfl, key, q.agents.setQueue_self⟩
  | dispose i call a chain adjust hcall hpc =>
    obtain ⟨rfl, -, hempty⟩ := h.of_pc hcall hpc
    exact h.set ⟨rfl, hempty⟩
  | release i call a adjust hcall hpc =>
    obtain ⟨rfl, -⟩ := h.of_pc hcall hpc
    obtain ⟨others, hperm, hset⟩ := exists_others hcall
    have hsplit := (Registered.split_iff hperm).1 hq
    rw [hpc] at hsplit
    have hothers : AllClean (q.agents.release a) others := by
      have hold : AllClean q.agents others :=
        fun call' hcall' => h call' (hperm.mem_iff.2 (List.mem_cons_of_mem _ hcall'))
      refine hold.congr fun b hb => q.agents.release_of_ne ?_
      rintro rfl
      exact (List.nodup_cons.1 hsplit.freeing_nodup).1 hb
    intro call' hcall'
    rcases List.mem_cons.1 ((hset _).mem_iff.1 hcall') with rfl | hother
    · exact (by decide : enomem ≠ 0)
    · exact hothers call' hother
  | detach a key items hidle ha hitems =>
    obtain ⟨key', items', hcontents, hindex, -⟩ := (hq.busy_iff a).1 (List.mem_append_left _ ha)
    exact h.congr fun b hb => q.agents.setQueue_of_ne (hq.ne_of_frees hb hindex)
  | consume key item chain drained hconsumer => exact h
  | drop key a hdrops hindex hsafe | dropMissing key hdrops hindex => exact hdrops.elim

/-- The steps keep which calls have pushed. -/
theorem Step.pushedBy (hstep : Step False q q') (hclean : AllClean q.agents q.calls)
    (h : PushedBy q.pushed q.calls) : PushedBy q'.pushed q'.calls := by
  cases hstep with
  | limit limit | register key hnew | detach a key items hidle ha hitems
  | consume key item chain drained hconsumer
  | settle key drained hconsumer => exact h
  | count key pc hpc =>
    refine h.append ?_
    rcases hpc with rfl | rfl <;> rfl
  | reserve i call hcall hpc | refuse i call code hcall hpc hcode | activate i call a hcall hpc
  | steal i call a adjust key items hcall hpc hitems | dispose i call a chain adjust hcall hpc =>
    exact h.set hcall (by rw [hpc]; rfl)
  | push i call a items hcall hpc hindex hitems =>
    refine h.push hcall (by rw [hpc]; rfl) ?_
    split <;> rfl
  | rollback i call code hcall hpc =>
    refine h.set hcall ?_
    rw [hpc]
    exact decide_eq_false (hclean.of_pc hcall hpc)
  | release i call a adjust hcall hpc =>
    refine h.set hcall ?_
    rw [hpc]
    cases adjust <;> rfl
  | drop key a hdrops hindex hsafe | dropMissing key hdrops hindex => exact hdrops.elim

end Steps

/-! ## The counter -/

/-- An enqueue in progress whose item is counted but not in a queue. -/
def Pc.counted : Pc → Bool
  | .ringStep _ => false
  | .returned _ => false
  | _ => true

/-- The items of the enqueues in progress. -/
def enqueuing (calls : List (Call κ)) : Nat := calls.countP fun call => call.pc.counted

/-- The items of a drain in progress. -/
def Consumer.inProgress : Consumer κ → Nat
  | .idle => 0
  | .draining _ chain drained => chain.length + drained

/-- `items_global` counts the queued items and those of the calls in progress. -/
def Abstract.Counted (q : Abstract κ) : Prop :=
  q.agents.itemsGlobal =
    BitVec.ofNat 64 (q.agents.queued + enqueuing q.calls + q.consumer.inProgress)

theorem enqueuing_set (hcall : calls[i]? = some call) (call' : Call κ) :
    enqueuing (calls.set i call') + call.pc.counted.toNat = enqueuing calls +
      call'.pc.counted.toNat := by
  obtain ⟨others, hperm, hset⟩ := exists_others hcall
  have hcons (call : Call κ) :
      enqueuing (call :: others) = enqueuing others + call.pc.counted.toNat := by
    rw [enqueuing, List.countP_cons, enqueuing]
    cases call.pc.counted <;> rfl
  have hold : enqueuing calls = _ := (hperm.countP_eq _).trans (hcons call)
  have hnew : enqueuing (calls.set i call') = _ := ((hset call').countP_eq _).trans (hcons call')
  omega

/-- The call moves on and its item stays counted or not. -/
theorem enqueuing_set_of_eq {call' : Call κ} (hcall : calls[i]? = some call)
    (hsame : call'.pc.counted = call.pc.counted) :
    enqueuing (calls.set i call') = enqueuing calls := by
  have hset := enqueuing_set hcall call'
  rw [hsame] at hset
  exact Nat.add_right_cancel hset

theorem counted_add {items : BitVec 64} (h : items = BitVec.ofNat 64 n) (hn : n' = n + k) :
    items + BitVec.ofNat 64 k = BitVec.ofNat 64 n' := by
  rw [h, hn, BitVec.ofNat_add]

theorem counted_sub {items : BitVec 64} (h : items = BitVec.ofNat 64 n) (hn : n = n' + k) :
    items + -BitVec.ofNat 64 k = BitVec.ofNat 64 n' := by
  rw [h, hn, BitVec.ofNat_add, ← BitVec.sub_eq_add_neg, BitVec.add_sub_cancel]

variable [DecidableEq κ] {q q' : Abstract κ}

theorem Step.counted (hstep : Step False q q') (hq : q.Consistent)
    (hclean : AllClean q.agents q.calls) (h : q.Counted) : q'.Counted := by
  unfold Abstract.Counted at h ⊢
  cases hstep with
  | limit limit => exact h
  | count key pc hpc =>
    have hnew : pc.counted = true := by
      rcases hpc with rfl | rfl <;> rfl
    refine counted_add (k := 1) h ?_
    dsimp only
    rw [Agents.queued_adjustItems, enqueuing, List.countP_append, List.countP_singleton,
      if_pos hnew, enqueuing]
    omega
  | register key hnew =>
    have hqueued : (q.agents.register key).queued = q.agents.queued := q.agents.queued_create key
    rw [hqueued]
    exact h
  | reserve i call hcall hpc =>
    dsimp only [Abstract.setPc]
    rw [q.agents.queued_create, enqueuing_set_of_eq hcall (by rw [hpc]; rfl)]
    exact h
  | refuse i call code hcall hpc hcode | activate i call a hcall hpc =>
    dsimp only [Abstract.setPc]
    rw [enqueuing_set_of_eq hcall (by rw [hpc]; rfl)]
    exact h
  | push i call a items hcall hpc hindex hitems =>
    have hqueued := q.agents.queued_setQueue hitems (hq.lt_allocated hitems) call.key (items ++ [i])
    have hcalls :=
      enqueuing_set hcall { call with pc := if items.length = 0 then .ringStep a else .returned 0 }
    have hbefore : call.pc.counted.toNat = 1 := by rw [hpc]; rfl
    have hafter : (if items.length = 0 then Pc.ringStep a else .returned 0).counted.toNat = 0 := by
      split <;> rfl
    rw [hbefore, hafter] at hcalls
    rw [List.length_append, List.length_singleton] at hqueued
    refine h.trans (congrArg (BitVec.ofNat 64) ?_)
    dsimp only [Abstract.setPc]
    omega
  | rollback i call code hcall hpc =>
    have hcalls := enqueuing_set hcall { call with pc := .returned code }
    have hbefore : call.pc.counted.toNat = 1 := by rw [hpc]; rfl
    have hafter : (Pc.returned code).counted.toNat = 0 := rfl
    rw [hbefore, hafter] at hcalls
    refine counted_sub (k := 1) h ?_
    dsimp only [Abstract.setPc]
    rw [Agents.queued_adjustItems]
    omega
  | steal i call a adjust key items hcall hpc hitems =>
    obtain ⟨-, key', hempty⟩ := hclean.of_pc hcall hpc
    cases hitems.symm.trans hempty
    have hqueued := q.agents.queued_setQueue hitems (hq.lt_allocated hitems) key []
    dsimp only [Abstract.setPc]
    rw [Nat.add_right_cancel hqueued, enqueuing_set_of_eq hcall (by rw [hpc]; rfl)]
    exact h
  | dispose i call a chain adjust hcall hpc =>
    obtain ⟨rfl, -⟩ := hclean.of_pc hcall hpc
    dsimp only [Abstract.setPc]
    rw [if_neg Bool.false_ne_true, enqueuing_set_of_eq hcall (by rw [hpc]; rfl)]
    exact h
  | release i call a adjust hcall hpc =>
    obtain ⟨rfl, key, hempty⟩ := hclean.of_pc hcall hpc
    dsimp only [Abstract.setPc]
    rw [q.agents.queued_release hempty, enqueuing_set_of_eq hcall (by rw [hpc]; rfl)]
    exact h
  | detach a key items hidle ha hitems =>
    have hqueued := q.agents.queued_setQueue hitems (hq.lt_allocated hitems) key []
    rw [hidle] at h
    refine h.trans (congrArg (BitVec.ofNat 64) ?_)
    dsimp only [Consumer.inProgress]
    rw [List.length_nil] at hqueued
    omega
  | consume key item chain drained hconsumer =>
    rw [hconsumer] at h
    refine h.trans (congrArg (BitVec.ofNat 64) ?_)
    dsimp only [Consumer.inProgress]
    rw [List.length_cons]
    omega
  | settle key drained hconsumer =>
    rw [hconsumer] at h
    refine counted_sub (k := drained) h ?_
    dsimp only [Consumer.inProgress]
    rw [Agents.queued_adjustItems, List.length_nil]
    omega
  | drop key a hdrops hindex hsafe | dropMissing key hdrops hindex => exact hdrops.elim

/-! ## Runs without dropped agents -/

/-- What holds in every state of a run without dropped agents. -/
structure Abstract.Sound (q : Abstract κ) : Prop where
  ordered : q.Ordered
  pushed : PushedBy q.pushed q.calls
  clean : AllClean q.agents q.calls
  counted : q.Counted

theorem sound_steps (hsteps : ReflTransGen (Step False) q q') (hq : q.Consistent) (h : q.Sound) :
    q'.Consistent ∧ q'.Sound := by
  induction hsteps with
  | refl => exact ⟨hq, h⟩
  | tail _ hstep ih =>
    obtain ⟨hq', h'⟩ := ih
    exact ⟨hstep.consistent hq', hstep.ordered hq' h'.ordered, hstep.pushedBy h'.clean h'.pushed,
      hstep.clean hq' h'.clean, hstep.counted hq' h'.clean h'.counted⟩

theorem sound_init (maxItemsGlobal : BitVec 64) (dispose : Bool) :
    ((init maxItemsGlobal dispose : State κ).abs []).Sound where
  ordered _ := rfl
  pushed :=
    ⟨List.nodup_nil, fun _ _ => ⟨fun h => absurd h List.not_mem_nil, fun ⟨_, h, _⟩ => by cases h⟩⟩
  clean _ h := absurd h List.not_mem_nil
  counted := rfl

theorem run_sound (hno : ∀ action ∈ actions, ¬ action.Drops)
    (hrun : (system maxItemsGlobal dispose).run actions = some s) :
    ∃ l, Represents s l ∧ (s.abs l).Sound := by
  have hmeet : (system maxItemsGlobal dispose).StepsMeet (fun _ action => ¬ action.Drops)
      (init maxItemsGlobal dispose : State κ) actions :=
    TransitionSystem.stepsMeet_of_forall_mem _ actions _ fun action haction _ => hno action haction
  refine TransitionSystem.runFrom_induction_of_stepsMeet _ (P := fun s => ∃ l, Represents s l ∧
    (s.abs l).Sound) ?_ ⟨[], represents_init .., sound_init ..⟩ hmeet hrun
  rintro s action s' ⟨l, hl, hsound⟩ hdrops hstep
  have hsafe : DropSafe s action := by
    cases action with
    | drop key => exact absurd ⟨key, rfl⟩ hdrops
    | enqueue key | advance i memory | drain | consume | setAgentMax limit => trivial
  obtain ⟨l', hl', -, hsteps⟩ := hl.of_refined (step_refined hl hsafe hstep)
  rw [eq_false hdrops] at hsteps
  exact ⟨l', hl', (sound_steps hsteps hl.consistent hsound).2⟩

theorem count_itemsOf (items : List (κ × Item)) (key : κ) (i : Item) :
    (itemsOf items key).count i = items.count (key, i) := by
  rw [itemsOf, List.count, List.countP_map, List.countP_filter, List.count]
  refine List.countP_congr fun item _ => ?_
  simp [Prod.ext_iff, and_comm]

/-- For every interleaving of enqueues and drains, with any limits, no access fails; an item whose
enqueue returned 0 was consumed once, or is in the chain that is being drained, or is in the queue
of its agent; the items of an agent are consumed in the order of their pushes; `items_global` counts
the items; and when no producer is between its push and its ring step, the agents that have items
are those in the ring. -/
theorem batch_queue_exactly_once (maxItemsGlobal : BitVec 64) (dispose : Bool)
    (actions : List (Action κ)) (hno : ∀ action ∈ actions, ¬ action.Drops) (s : State κ)
    (hrun : (system maxItemsGlobal dispose).run actions = some s) :
    s.fault = false ∧ (∀ i call, s.calls[i]? = some call → call.pc = .returned 0 →
      s.consumed.count (call.key, i) + (s.consumer.chainOf call.key).count i +
        (s.sched.queueOf call.key).count i = 1) ∧
    (∀ key, itemsOf s.pushed key = itemsOf s.consumed key ++ s.consumer.chainOf key ++
      s.sched.queueOf key) ∧
    s.sched.itemsGlobal =
      BitVec.ofNat 64 (s.sched.queued + enqueuing s.calls + s.consumer.inProgress) ∧
    ((∀ call ∈ s.calls, ∀ a, call.pc ≠ .ringStep a) →
      ∀ key, s.sched.queueOf key ≠ [] ↔ ∃ a ∈ s.sched.ring, s.sched.agentIndex key = some a) := by
  obtain ⟨l, hl, hsound⟩ := run_sound hno hrun
  have hordered : ∀ key, itemsOf s.pushed key = itemsOf s.consumed key ++ s.consumer.chainOf key ++
      s.sched.queueOf key :=
    hsound.ordered
  refine ⟨hl.fault, ?_, hordered, hsound.counted, ?_⟩
  · intro i call hcall hpc
    have hmem : (call.key, i) ∈ s.pushed :=
      (hsound.pushed.mem_iff _ _).2 ⟨call, hcall, rfl, by rw [hpc]; rfl⟩
    have honce : s.pushed.count (call.key, i) = 1 :=
      List.count_eq_one_of_mem hsound.pushed.nodup hmem
    rw [← count_itemsOf, hordered, List.count_append, List.count_append, count_itemsOf] at honce
    exact honce
  · intro hnone key
    have hwaiting : waiting s.calls = [] := by
      rw [waiting, List.filterMap_eq_nil_iff]
      intro call hcall
      rw [eq_none_iff_forall_ne_some]
      intro a hwaits
      exact hnone call hcall a (Pc.waits_eq_some_iff.1 hwaits)
    have hiff : s.sched.queueOf key ≠ [] ↔
        ∃ a ∈ l ++ waiting s.calls, s.sched.agentIndex key = some a :=
      Registered.queueOf_ne_nil_iff hl.consistent
    rw [hwaiting, List.append_nil] at hiff
    rw [hl.ring.1.ring_eq, hiff]

/-- Two producers of one agent: the second one's section of the queue comes while the first item is
drained. -/
theorem batch_queue_exactly_once_two :
    ∃ s : State Nat, (system 0 false).run
      [.enqueue 7, .advance 0 .ok, .advance 0 .ok, .drain, .enqueue 7, .consume,
        .advance 1 .ok, .consume] = some s ∧ s.fault = false ∧
      ∀ key, itemsOf s.pushed key = itemsOf s.consumed key ++ s.consumer.chainOf key ++
        s.sched.queueOf key := by
  refine ⟨?s, ?hrun, (batch_queue_exactly_once 0 false _ ?_ ?s ?hrun).imp_right fun h => h.2.1⟩
  case hrun => rfl
  rintro action haction ⟨key, rfl⟩
  simp at haction

/-! ## Dropped agents -/

theorem run_represents (hsafe : (system maxItemsGlobal dispose).StepsMeet DropSafe
    (init maxItemsGlobal dispose) actions)
    (hrun : (system maxItemsGlobal dispose).run actions = some s) : ∃ l, Represents s l := by
  refine TransitionSystem.runFrom_induction_of_stepsMeet _ (P := fun s => ∃ l, Represents s l) ?_
    ⟨[], represents_init ..⟩ hsafe hrun
  rintro s action s' ⟨l, hl⟩ hsafe hstep
  obtain ⟨l', hl', -⟩ := hl.of_refined (step_refined hl hsafe hstep)
  exact ⟨l', hl'⟩

/-- A slot is in the ring but not the one registered under its key. -/
def Scheduler.Stray (s : Scheduler κ) (a : SlotId) : Prop :=
  a ∈ s.ring ∧ ∀ slot, s.slots a = some slot → s.agentIndex slot.key ≠ some a

/-- An agent is dropped between the push of a producer and its ring step: the producer puts the slot
into the ring. -/
theorem stray_of_drop {l : List SlotId} {key : κ} (hl : Represents s l)
    (hindex : s.sched.agentIndex key = some a) (hcall : s.calls[i]? = some call)
    (hpc : call.pc = .ringStep a) :
    ∃ s', (s.step (.drop key)).bind (fun t => t.step (.advance i .ok)) = some s' ∧
      s'.sched.Stray a := by
  obtain ⟨hnot, slot, hslot⟩ := hl.waits hcall (by rw [hpc, Pc.waits])
  obtain ⟨slot', hslot', hkey⟩ := hl.indexed hindex
  cases hslot.symm.trans hslot'
  have hflag : ¬ slot.inRing = true := fun hflag => hnot ((hl.ring.1.flags a slot hslot).1 hflag)
  let t : State κ := { s with
    sched := s.sched.unregister key, calls := s.calls ++ [⟨.dropAgent, key, .steal a true⟩] }
  have hdrop : s.drop key = t := by
    rw [State.drop, Scheduler.dropMonitor, hindex]
    dsimp only
    rw [hslot, some_bind, if_neg hflag]
    rfl
  have hi : i < s.calls.length := (List.getElem?_eq_some_iff.1 hcall).1
  have hcall' : t.calls[i]? = some call := (List.getElem?_append_left hi).trans hcall
  have hring : (s.sched.unregister key).RingIs l := hl.ring.congr rfl rfl rfl rfl rfl rfl
  obtain ⟨sched, happend, hlinked, -, hagents⟩ :=
    Scheduler.ringAppend_spec (s := s.sched.unregister key) hring.1 hring.2 hslot hnot
  have hmonitor : (s.sched.unregister key).enqueueRing a = some sched := by
    change ((s.sched.slots a).bind _) = _
    rw [hslot, bind_some, if_neg hflag, happend]
  have hfault : ¬ s.fault = true := by
    rw [hl.fault]
    exact Bool.false_ne_true
  have hfirst : s.step (.drop key) = some t := by
    rw [State.step.eq_def, if_neg hfault]
    exact congrArg some hdrop
  have hsecond :
      t.step (.advance i .ok) = some { t.setPc i call (.returned 0) with sched := sched } := by
    rw [State.step.eq_def, if_neg hfault]
    change (t.calls[i]?.bind fun call => t.advance i call .ok) = _
    rw [hcall', bind_some, State.advance.eq_def, hpc]
    dsimp only
    rw [show t.sched.enqueueRing a = some sched from hmonitor]
    rfl
  refine ⟨_, by rw [hfirst, bind_some, hsecond], ?_, ?_⟩
  · rw [hlinked.ring_eq]
    exact List.mem_append_right _ (List.mem_singleton_self a)
  · intro slot'' hslot''
    obtain ⟨_, hslot₁, hkey₁, -⟩ :=
      Scheduler.exists_slot_of_agents (s := s.sched.unregister key) hagents hslot
    cases hslot''.symm.trans hslot₁
    have hindex'' : sched.agentIndex = (s.sched.unregister key).agentIndex :=
      congrArg Agents.agentIndex hagents
    rw [hkey₁, hkey, hindex'']
    change Function.update s.sched.agentIndex key none key ≠ some a
    rw [Function.update_self]
    exact (some_ne_none a).symm

/-- In every run whose drops come when no producer is between its push to the agent's slot and its
ring step, no step accesses a freed slot and every slot in the ring is registered under its key.
With any other drop, the producer's next step puts a slot into the ring that is not registered. -/
theorem drop_agent_safe (maxItemsGlobal : BitVec 64) (dispose : Bool) (actions : List (Action κ))
    (s : State κ) (hsafe : (system maxItemsGlobal dispose).StepsMeet DropSafe
    (init maxItemsGlobal dispose) actions)
    (hrun : (system maxItemsGlobal dispose).run actions = some s) :
    (s.fault = false ∧
      ∀ a ∈ s.sched.ring, ∃ slot, s.sched.slots a = some slot ∧
        s.sched.agentIndex slot.key = some a) ∧
    (∀ key, ¬ DropSafe s (.drop key) →
      ∃ i a s', (s.step (.drop key)).bind (fun t => t.step (.advance i .ok)) = some s' ∧
        s'.sched.Stray a) := by
  obtain ⟨l, hl⟩ := run_represents hsafe hrun
  refine ⟨⟨hl.fault, ?_⟩, ?_⟩
  · intro a ha
    rw [hl.ring.1.ring_eq] at ha
    obtain ⟨key, items, hitems, hindex, -⟩ :=
      (Registered.busy_iff hl.consistent a).1 (List.mem_append_left _ ha)
    obtain ⟨slot, hslot, hsame⟩ := Scheduler.exists_slot_of_contents hitems
    have hkey : slot.key = key := congrArg Prod.fst hsame
    exact ⟨slot, hslot, by rw [hkey]; exact hindex⟩
  · intro key hunsafe
    obtain ⟨a, hunsafe⟩ := not_forall.1 hunsafe
    obtain ⟨hindex, hwaiting⟩ := Classical.not_imp.1 hunsafe
    obtain ⟨call, hmem, hwaits⟩ := List.mem_filterMap.1 (not_not.1 hwaiting)
    obtain ⟨i, hcall⟩ := List.getElem?_of_mem hmem
    obtain ⟨s', hsteps, hstray⟩ := stray_of_drop hl hindex hcall (Pc.waits_eq_some_iff.1 hwaits)
    exact ⟨i, a, s', hsteps, hstray⟩

/-- An agent with an item in its queue is dropped after the producer's ring step. -/
theorem drop_agent_safe_once :
    ∃ s : State Nat,
      (system 0 true).run [.enqueue 7, .advance 0 .ok, .advance 0 .ok, .drop 7, .advance 1 .ok,
        .advance 1 .ok, .advance 1 .ok, .enqueue 7, .advance 2 .ok] = some s ∧ s.fault = false ∧
      ∀ a ∈ s.sched.ring, ∃ slot, s.sched.slots a = some slot ∧
        s.sched.agentIndex slot.key = some a := by
  refine ⟨?s, ?hrun, (drop_agent_safe 0 true _ ?s ?_ ?hrun).1⟩
  case hrun => rfl
  decide

/-- A producer has pushed its item; its agent is dropped and the slot freed; then the producer reads
`in_ring` of the slot. If the ring step comes first, a slot that is not registered is in the
ring. -/
theorem drop_agent_use_after_free :
    (∃ s : State Nat,
      (system 0 true).run [.enqueue 7, .advance 0 .ok, .drop 7, .advance 1 .ok, .advance 1 .ok,
        .advance 1 .ok, .advance 0 .ok] = some s ∧ s.sched.slots 0 = none ∧ s.fault = true) ∧
    ∃ s : State Nat,
      (system 0 true).run [.enqueue 7, .advance 0 .ok, .drop 7, .advance 0 .ok] = some s ∧
      s.sched.ring = [0] ∧ s.sched.agentIndex 7 = none :=
  ⟨⟨_, rfl, rfl, rfl⟩, _, rfl, rfl, rfl⟩

end WazAISentinel.Shared.BatchQueue
