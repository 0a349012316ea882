import WazAISentinel.Foundations.TransitionSystem
import WazAISentinel.SyncProtocol.PersistentQueueStorage

/-!
# Convergence of the manager's copy

The agent's inventory and the manager's copy are maps from document ids to data. A submission
updates the inventory and the queue; a round sends the rows it fetched, and the manager applies them
when the round ends with `removeAllSynced`. Between rounds the queue is exactly the difference of
the two maps, whatever was submitted while rounds were in progress.

The invariant `Agrees` is about one id: its value on both sides, its row, and the message in flight
for it. It is stated with a proposition `unacked`: the manager holds the document although the agent
never learned so. In the runs of this module it is false throughout; those of `LostAcknowledgement`
use the general form.
-/

namespace WazAISentinel.SyncProtocol

open Foundations Option

/-- The value a message leaves for its id. -/
def PersistedData.value (d : PersistedData) : Option String :=
  if d.operation = .delete then none else some d.data

/-- The value the row of an id stands for. -/
def Row.value (r : Row) : Option String := r.toPersistedData.value

/-- Upsert or delete every message, in order. -/
def applyRows (m : String → Option String) (ds : List PersistedData) : String → Option String :=
  applyAll PersistedData.id PersistedData.value m ds

/-- The agent's inventory and queue, the manager's copy, and the messages fetched since the last end
of a round. -/
structure World where
  queue : PersistentQueue
  inventory : String → Option String
  manager : String → Option String
  inFlight : List PersistedData

/-- The operations on the queue. -/
inductive Event where
  | submitOrCoalesce (newData : PersistedData)
  | fetchAndMarkForSync
  | removeAllSynced
  | resetAllSyncing

namespace World

/-- Empty inventory, queue and manager's copy. -/
def init : World := ⟨RowTable.empty, fun _ => none, fun _ => none, []⟩

variable (w : World)

/-- `CREATE` is submitted for an absent id, `MODIFY` and `DELETE` for a present one. -/
def accepts (newData : PersistedData) : Bool :=
  match newData.operation with
  | .create => (w.inventory newData.id).isNone
  | .modify => (w.inventory newData.id).isSome
  | .delete => (w.inventory newData.id).isSome
  | .noOp => false

/-- A submission reaches the inventory and the queue. -/
def submit (newData : PersistedData) : World :=
  { w with
    queue := submitOrCoalesce w.queue newData
    inventory := Function.update w.inventory newData.id newData.value }

/-- A fetch puts the pending rows in flight. -/
def fetch : World :=
  { w with
    queue := (fetchAndMarkForSync w.queue).2
    inFlight := w.inFlight ++ (fetchAndMarkForSync w.queue).1 }

/-- The manager applies the messages in flight. -/
def deliver : World := { w with manager := applyRows w.manager w.inFlight }

/-- The round ends with `removeAllSynced`. -/
def remove : World :=
  { w with queue := removeAllSynced w.queue, inFlight := [] }

/-- The round ends with `resetAllSyncing`. -/
def reset : World :=
  { w with queue := resetAllSyncing w.queue, inFlight := [] }

/-- One operation. The manager applies the fetched rows exactly when the round ends with
`removeAllSynced`. -/
def step : Event → Option World
  | .submitOrCoalesce newData => if w.accepts newData then some (w.submit newData) else none
  | .fetchAndMarkForSync => some w.fetch
  | .removeAllSynced => some w.deliver.remove
  | .resetAllSyncing => some w.reset

end World

/-- The queue with its two sides. -/
def queueSystem : TransitionSystem World Event := ⟨World.init, World.step⟩

/-! ## Agreement at one id -/

/-- Agreement of an id that has the row `r`: `inv` and `mgr` are its values on the two sides, `sent`
the message in flight for it. -/
structure RowAgrees (unacked : Prop) (inv mgr : Option String) (r : Row)
    (sent : Option PersistedData) : Prop where
  value : inv = r.value
  operation : r.operation ≠ .noOp
  existing : r.createStatus = .existing → ¬ unacked
  created : r.createStatus ≠ .existing → (unacked ↔ mgr ≠ none)
  new : r.createStatus = .new → r.operation ≠ .delete
  newDeleted : r.createStatus = .newDeleted →
    r.operation = .delete ∧ r.syncStatus = .syncingUpdated
  pending : r.syncStatus = .pending → sent = none
  syncing : r.syncStatus = .syncing → sent = some r.toPersistedData
  unchanged : r.syncStatus ≠ .syncingUpdated → r.operationSyncing = .noOp
  updated : r.syncStatus = .syncingUpdated → ∃ d, sent = some d ∧
    d.operation = r.operationSyncing ∧ d.operation ≠ .noOp ∧
      (r.createStatus ≠ .existing → d.operation ≠ .delete)

/-- Agreement of an id: without a row the two sides hold the same, except for an unacknowledged
document, which only the manager holds. -/
def Agrees (unacked : Prop) (inv mgr : Option String) :
    Option Row → Option PersistedData → Prop
  | none, sent => sent = none ∧ (unacked → inv = none ∧ mgr ≠ none) ∧ (¬ unacked → mgr = inv)
  | some r, sent => RowAgrees unacked inv mgr r sent

/-- The value the manager has after the message in flight arrives. -/
def delivered (mgr : Option String) : Option PersistedData → Option String
  | none => mgr
  | some d => d.value

variable {d : PersistedData} {r : Row}

section OneId

variable {unacked : Prop} {inv mgr : Option String} {row : Option Row} {sent : Option PersistedData}

/-- A submission accepted for the inventory value `inv`. -/
def Accepted (inv : Option String) : Operation → Prop
  | .create => inv = none
  | .modify => inv ≠ none
  | .delete => inv ≠ none
  | .noOp => False

theorem Accepted.ne_noOp {op : Operation} (h : Accepted inv op) : op ≠ .noOp := by
  rintro rfl
  exact h

/-- A first submission: a created document is new exactly when the manager was not known to hold
it. -/
theorem rowAgrees_insertedRow (h : Agrees unacked inv mgr none sent)
    (hd : Accepted inv d.operation) (n : Nat) :
    RowAgrees unacked d.value mgr (insertedRow d n) sent := by
  obtain ⟨hsent, hun, hack⟩ := h
  refine ⟨rfl, hd.ne_noOp, ?_, ?_, ?_, ?_, fun _ => hsent, by simp [insertedRow],
    fun _ => rfl, by simp [insertedRow]⟩
  · intro hex hu
    cases hop : d.operation with
    | create => simp [insertedRow, hop] at hex
    | modify | delete => rw [hop] at hd; exact hd (hun hu).1
    | noOp => exact hd.ne_noOp hop
  · intro hex
    have hcreate : d.operation = .create := by
      by_contra hne
      simp [insertedRow, hne] at hex
    rw [hcreate] at hd
    constructor
    · exact fun hu => (hun hu).2
    · intro hm
      by_contra hu
      exact hm ((hack hu).trans hd)
  · intro hnew hdel
    change d.operation = .delete at hdel
    simp [insertedRow, hdel] at hnew
  · intro hnd
    by_cases hc : d.operation = .create <;> simp [insertedRow, hc] at hnd

section

variable (h : RowAgrees unacked inv mgr r sent)

include h

/-- Only a row that changed meanwhile is created and deleted. -/
theorem RowAgrees.ne_newDeleted (hs : r.syncStatus ≠ .syncingUpdated) :
    r.createStatus ≠ .newDeleted :=
  fun hc => hs (h.newDeleted hc).2

theorem RowAgrees.ne_delete (hs : r.syncStatus ≠ .syncingUpdated)
    (hex : r.createStatus ≠ .existing) : r.operation ≠ .delete := by
  cases hc : r.createStatus with
  | existing => exact absurd hc hex
  | new => exact h.new hc
  | newDeleted => exact absurd hc (h.ne_newDeleted hs)

/-- A submission that meets a row keeps the message in flight and remembers its operation. -/
theorem rowAgrees_coalescedRow (hd : d.operation ≠ .noOp)
    (hkeep : ¬ (d.operation = .delete ∧ r.createStatus = .new ∧ r.syncStatus = .pending)) :
    RowAgrees unacked d.value mgr (coalescedRow d r) sent := by
  have hcreate : (coalescedCreateStatus d.operation r.createStatus = .existing) ↔
      r.createStatus = .existing := by
    cases hop : d.operation <;> cases hc : r.createStatus <;> simp [coalescedCreateStatus]
  have hsync : coalescedSyncStatus r.syncStatus = .pending ↔ r.syncStatus = .pending := by
    cases hs : r.syncStatus <;> simp [coalescedSyncStatus]
  refine ⟨rfl, hd, fun hex => h.existing (hcreate.1 hex), ?_, ?_, ?_, ?_, ?_, ?_, ?_⟩
  · exact fun hne => h.created fun hex => hne (hcreate.2 hex)
  · intro hnew hdel
    change d.operation = .delete at hdel
    cases hc : r.createStatus <;> simp [coalescedRow, coalescedCreateStatus, hdel, hc] at hnew
  · intro hnd
    have hdel : d.operation = .delete := by
      by_contra hne
      cases hc : r.createStatus <;> simp [coalescedRow, coalescedCreateStatus, hc, hne] at hnd
    refine ⟨hdel, ?_⟩
    cases hc : r.createStatus with
    | existing => simp [coalescedRow, coalescedCreateStatus, hc] at hnd
    | new =>
      cases hs : r.syncStatus with
      | pending => exact absurd ⟨hdel, hc, hs⟩ hkeep
      | syncing | syncingUpdated => simp [coalescedRow, coalescedSyncStatus, hs]
    | newDeleted => simp [coalescedRow, coalescedSyncStatus, (h.newDeleted hc).2]
  · exact fun hp => h.pending (hsync.1 hp)
  · intro hs
    cases hr : r.syncStatus <;> simp [coalescedRow, coalescedSyncStatus, hr] at hs
  · intro hne
    cases hr : r.syncStatus <;>
      simp [coalescedRow, coalescedSyncStatus, coalescedOperationSyncing, hr] at hne ⊢
  · intro hup
    have hne : (coalescedRow d r).createStatus ≠ .existing ↔ r.createStatus ≠ .existing :=
      not_congr hcreate
    rw [hne]
    cases hr : r.syncStatus with
    | pending => simp [coalescedRow, coalescedSyncStatus, hr] at hup
    | syncing =>
      refine ⟨r.toPersistedData, h.syncing hr, ?_, h.operation, h.ne_delete (by simp [hr])⟩
      simp [coalescedRow, coalescedOperationSyncing, hr, h.unchanged, Row.toPersistedData]
    | syncingUpdated =>
      obtain ⟨sd, hsd, hop, hnoOp, hdel⟩ := h.updated hr
      refine ⟨sd, hsd, ?_, hnoOp, hdel⟩
      rw [hop] at hnoOp
      simp [coalescedRow, coalescedOperationSyncing, hr, hnoOp, hop]

end

section

variable (h : Agrees unacked inv mgr row sent)

include h

/-- A submission keeps the agreement of its id. -/
theorem agrees_submittedRow (hd : Accepted inv d.operation) (n : Nat) :
    Agrees unacked d.value mgr (submittedRow d n row) sent := by
  cases row with
  | none => exact rowAgrees_insertedRow h hd n
  | some r =>
    have hr : RowAgrees unacked inv mgr r sent := h
    by_cases hcancel : d.operation = .delete ∧ r.createStatus = .new ∧ r.syncStatus = .pending
    · -- the row is cancelled unsent, so the manager must not hold the document either
      obtain ⟨hdel, hnew, hpend⟩ := hcancel
      have hmgr := hr.created (by simp [hnew])
      simp only [submittedRow, hdel, hnew, hpend, and_self, if_true]
      refine ⟨hr.pending hpend, fun hu => ⟨by simp [PersistedData.value, hdel], hmgr.1 hu⟩, ?_⟩
      intro hu
      have hnone : mgr = none := by
        by_contra hm
        exact hu (hmgr.2 hm)
      simp [PersistedData.value, hdel, hnone]
    · simp only [submittedRow, if_neg hcancel]
      exact rowAgrees_coalescedRow hr hd.ne_noOp hcancel

/-- A fetch puts exactly the pending row in flight. -/
theorem agrees_fetched : Agrees unacked inv mgr
      (row.map fun r => if r.syncStatus = .pending then { r with syncStatus := .syncing } else r)
      (sent.or ((row.filter fun r => r.syncStatus = .pending).map Row.toPersistedData)) := by
  cases row with
  | none =>
    obtain ⟨hsent, hrest⟩ := h
    exact ⟨by simp [hsent], hrest⟩
  | some r =>
    have hr : RowAgrees unacked inv mgr r sent := h
    by_cases hp : r.syncStatus = .pending
    · have hsent := hr.pending hp
      have hnd := hr.ne_newDeleted (by simp [hp])
      have hun := hr.unchanged (by simp [hp])
      simp only [Option.map_some, Option.filter, hp, hsent, Option.none_or, decide_true, if_true]
      exact ⟨hr.value, hr.operation, hr.existing, hr.created, hr.new, fun hc => absurd hc hnd,
        by simp, fun _ => rfl, fun _ => hun, by simp⟩
    · have hfilter : ((some r).filter fun r => r.syncStatus = .pending) = none := by simp [hp]
      rw [hfilter, map_some, if_neg hp, map_none, or_none]
      exact hr

/-- The manager has the message in flight, and a row that changed meanwhile is the difference to
it. -/
theorem agrees_removed :
    Agrees (unacked ∧ sent = none) inv (delivered mgr sent)
      ((row.filter fun r => !r.isSynced).map fun r =>
        if r.isSyncing then
          { r with syncStatus := .pending, createStatus := .existing, operationSyncing := .noOp }
        else r) none := by
  cases row with
  | none =>
    obtain ⟨rfl, hun, hack⟩ := h
    refine ⟨rfl, fun hu => hun hu.1, fun hu => hack fun h => hu ⟨h, rfl⟩⟩
  | some r =>
    have hr : RowAgrees unacked inv mgr r sent := h
    cases hs : r.syncStatus with
    | pending =>
      have hnd := hr.ne_newDeleted (by simp [hs])
      have hsent := hr.pending hs
      subst hsent
      simpa [filter_some, Row.isSynced, Row.isSyncing, hs, hnd, delivered] using h
    | syncing =>
      have hrow : ((some r).filter fun r => !r.isSynced) = none := by
        simp [Row.isSynced, hs]
      rw [hrow, hr.syncing hs]
      exact ⟨rfl, fun hu => absurd hu.2 (by simp), fun _ => hr.value.symm⟩
    | syncingUpdated =>
      obtain ⟨d, hd, hop, hnoOp, hdel⟩ := hr.updated hs
      have hsynced : r.isSynced = false := by
        cases hc : r.createStatus with
        | existing | new => simp [Row.isSynced, hs, hc]
        | newDeleted =>
          have hne := hdel (by simp [hc])
          rw [hop] at hne hnoOp
          simp [Row.isSynced, hs, hne, hnoOp]
      simp only [filter_some, hsynced, Bool.not_false, if_true, map_some, Row.isSyncing, hs, hd]
      exact ⟨hr.value, hr.operation, fun _ hu => absurd hu.2 (by simp), by simp, by simp,
        by simp, fun _ => rfl, by simp, fun _ => rfl, by simp⟩

end

/-- `resetAllSyncing` on the row of one id. -/
def resetRow (row : Option Row) : Option Row :=
  (row.map fun r =>
    if r.isSyncing then { r with syncStatus := .pending, operationSyncing := .noOp }
    else r).filter fun r => !(r.operation = .delete ∧ r.createStatus = .newDeleted : Bool)

theorem resetRow_of_ne_newDeleted (hc : r.createStatus ≠ .newDeleted)
    (hp : r.syncStatus ≠ .syncingUpdated → r.operationSyncing = .noOp) :
    resetRow (some r) = some { r with syncStatus := .pending, operationSyncing := .noOp } := by
  cases hs : r.syncStatus with
  | pending =>
    have hop := hp (by simp [hs])
    have hr : { r with syncStatus := .pending, operationSyncing := .noOp } = r := by
      rw [← hs, ← hop]
    simp [resetRow, Row.isSyncing, hs, hc, hr]
  | syncing | syncingUpdated => simp [resetRow, Row.isSyncing, hs, hc]

/-- The manager either did not get the messages in flight, or it did without the agent learning so;
then a row that still counts as created becomes unacknowledged. -/
theorem agrees_reset (h : Agrees unacked inv mgr row sent) (applied : Bool) :
    Agrees (unacked ∨ applied ∧ sent ≠ none ∧ ∃ r, row = some r ∧ r.createStatus ≠ .existing) inv
      (if applied then delivered mgr sent else mgr) (resetRow row) none := by
  cases row with
  | none =>
    obtain ⟨rfl, hun, hack⟩ := h
    refine ⟨rfl, ?_, ?_⟩
    · rintro (hu | ⟨-, hs, -⟩)
      · simpa [delivered] using hun hu
      · exact absurd rfl hs
    · intro hu
      simpa [delivered] using hack fun h => hu (Or.inl h)
  | some r =>
    have hr : RowAgrees unacked inv mgr r sent := h
    have hcreated : r.createStatus ≠ .existing →
        ((unacked ∨ applied ∧ sent ≠ none ∧ ∃ r', some r = some r' ∧
          r'.createStatus ≠ .existing) ↔
        (if applied then delivered mgr sent else mgr) ≠ none) := by
      intro hex
      cases applied with
      | false => simpa using hr.created hex
      | true =>
        cases hs : r.syncStatus with
        | pending => simpa [hr.pending hs, delivered] using hr.created hex
        | syncing =>
          have hop := hr.ne_delete (by simp [hs]) hex
          simp [hr.syncing hs, delivered, PersistedData.value, Row.toPersistedData, hop, hex]
        | syncingUpdated =>
          obtain ⟨d, hd, -, -, hdel⟩ := hr.updated hs
          simp [hd, delivered, PersistedData.value, hdel hex, hex]
    by_cases hc : r.createStatus = .newDeleted
    · -- the created and deleted document is dropped unsent
      obtain ⟨hop, hs⟩ := hr.newDeleted hc
      have hrow : resetRow (some r) = none := by
        simp [resetRow, Row.isSyncing, hs, hop, hc]
      have hinv : inv = none := by simp [hr.value, Row.value, PersistedData.value,
        Row.toPersistedData, hop]
      have hiff := hcreated (by simp [hc])
      rw [hrow]
      refine ⟨rfl, fun hu => ⟨hinv, hiff.1 hu⟩, fun hu => ?_⟩
      rw [hinv]
      by_contra hm
      exact hu (hiff.2 hm)
    · rw [resetRow_of_ne_newDeleted hc hr.unchanged]
      refine ⟨hr.value, hr.operation, ?_, hcreated, hr.new, fun hn => absurd hn hc,
        fun _ => rfl, by simp, fun _ => rfl,
        by simp⟩
      rintro hex (hu | ⟨-, -, r', hr', hne⟩)
      · exact hr.existing hex hu
      · exact hne (some.inj hr' ▸ hex)

end OneId

/-! ## Agreement of the two sides -/

/-- Every id agrees, and no two messages in flight are about one id. -/
structure World.Agree (unacked : List String) (w : World) : Prop where
  agrees : ∀ k, Agrees (k ∈ unacked) (w.inventory k) (w.manager k) (w.queue.find? k)
    (findKey PersistedData.id w.inFlight k)
  distinct : w.inFlight.Pairwise fun a b => a.id ≠ b.id

namespace World

variable {unacked : List String} {w : World}

theorem init_agree : Agree [] init :=
  ⟨fun _ => ⟨rfl, by simp, fun _ => rfl⟩, .nil⟩

theorem accepted_of_accepts (h : w.accepts d = true) : Accepted (w.inventory d.id) d.operation := by
  cases hop : d.operation with
  | create => simpa [accepts, hop, Accepted] using h
  | modify | delete => simpa [accepts, hop, Accepted, isSome_iff_ne_none] using h
  | noOp => simp [accepts, hop] at h

section

variable (h : w.Agree unacked)

include h

theorem submit_agree (hd : w.accepts d = true) : (w.submit d).Agree unacked := by
  refine ⟨fun k => ?_, h.distinct⟩
  have hk := h.agrees k
  simp only [submit]
  rw [find?_submitOrCoalesce]
  by_cases hid : d.id = k
  · subst hid
    rw [if_pos rfl, Function.update_self]
    exact agrees_submittedRow hk (accepted_of_accepts hd) _
  · rw [if_neg hid, Function.update_of_ne (Ne.symm hid)]
    exact hk

theorem fetch_agree : w.fetch.Agree unacked := by
  refine ⟨fun k => ?_, ?_⟩
  · simp only [fetch]
    rw [find?_fetchAndMarkForSync, findKey_append, findKey_fetchAndMarkForSync]
    exact agrees_fetched (h.agrees k)
  · -- a pending row has no message in flight yet
    refine List.pairwise_append.2 ⟨h.distinct, fetchAndMarkForSync_unique w.queue, ?_⟩
    intro a ha b hb hab
    have hb' := (findKey_eq_some_iff (fetchAndMarkForSync_unique w.queue)).2 ⟨hb, rfl⟩
    rw [findKey_fetchAndMarkForSync, map_eq_some_iff] at hb'
    obtain ⟨r, hr, -⟩ := hb'
    rw [filter_eq_some_iff, decide_eq_true_eq] at hr
    have hagree := h.agrees b.id
    rw [hr.1] at hagree
    have hrow : RowAgrees _ _ _ r _ := hagree
    have hnone := hrow.pending hr.2
    exact findKey_eq_none_iff.1 hnone a ha hab

theorem deliver_manager (k : String) :
    w.deliver.manager k =
      delivered (w.manager k) (findKey PersistedData.id w.inFlight k) := by
  simp only [deliver, applyRows]
  rw [applyAll_apply h.distinct]
  cases findKey PersistedData.id w.inFlight k <;> rfl

/-- A round acknowledged by the manager settles every id it carried. -/
theorem deliver_remove_agree :
    w.deliver.remove.Agree
      (unacked.filter fun k => (findKey PersistedData.id w.inFlight k).isNone) := by
  refine ⟨fun k => ?_, .nil⟩
  have hun : k ∈ unacked.filter (fun k => (findKey PersistedData.id w.inFlight k).isNone) ↔
      k ∈ unacked ∧ findKey PersistedData.id w.inFlight k = none := by
    simp [List.mem_filter]
  have hmgr : w.deliver.remove.manager k = _ := deliver_manager h k
  rw [hmgr, propext hun]
  simp only [remove, deliver]
  rw [find?_removeAllSynced]
  exact agrees_removed (h.agrees k)

theorem reset_agree : w.reset.Agree unacked := by
  refine ⟨fun k => ?_, .nil⟩
  simp only [reset]
  rw [find?_resetAllSyncing]
  simpa [resetRow] using agrees_reset (h.agrees k) false

/-- Applying the queue to the manager's copy gives the inventory exactly at the ids that are not
unacknowledged documents without a row. -/
theorem applyRows_queue_iff (k : String) :
    (applyRows w.manager (w.queue.rows.map Row.toPersistedData) k = w.inventory k) ↔
      ¬ (k ∈ unacked ∧ w.queue.find? k = none) := by
  have hu : (w.queue.rows.map Row.toPersistedData).Pairwise fun a b => a.id ≠ b.id :=
    List.Pairwise.map _ (fun _ _ h => h) w.queue.unique
  have hfind : findKey PersistedData.id (w.queue.rows.map Row.toPersistedData) k =
      (w.queue.find? k).map Row.toPersistedData := findKey_map (fun _ => rfl) k
  have hk := h.agrees k
  rw [applyRows, applyAll_apply hu, hfind]
  cases hrow : w.queue.find? k with
  | none =>
    rw [hrow] at hk
    obtain ⟨-, hun, hack⟩ := hk
    simp only [map_none, and_true]
    constructor
    · intro heq hmem
      exact (hun hmem).2 (heq.trans (hun hmem).1)
    · exact hack
  | some r =>
    rw [hrow] at hk
    have hr : RowAgrees _ _ _ r _ := hk
    simp only [map_some, reduceCtorEq, and_false, not_false_eq_true, iff_true]
    exact hr.value.symm

end

end World

theorem step_agree {w w' : World} {e : Event} (h : w.Agree []) (hstep : w.step e = some w') :
    w'.Agree [] := by
  cases e with
  | submitOrCoalesce d =>
    simp only [World.step, ite_none_right_eq_some, some.injEq] at hstep
    obtain ⟨hd, rfl⟩ := hstep
    exact World.submit_agree h hd
  | fetchAndMarkForSync =>
    cases hstep
    exact World.fetch_agree h
  | removeAllSynced =>
    cases hstep
    exact World.deliver_remove_agree h
  | resetAllSyncing =>
    cases hstep
    exact World.reset_agree h

/-- **Convergence.** After every sequence of queue operations, also while a round is in progress,
applying the queue's rows to the manager's copy gives the agent's inventory; an id without a row has
the same value or absence on both sides. -/
theorem applyRows_queue_eq_inventory (es : List Event) (w : World)
    (hrun : queueSystem.run es = some w) :
    applyRows w.manager (w.queue.rows.map Row.toPersistedData) = w.inventory ∧
      ∀ id, w.queue.find? id = none → w.manager id = w.inventory id := by
  have h : w.Agree [] :=
    queueSystem.runFrom_induction (fun _ _ _ => step_agree) World.init_agree hrun
  constructor
  · funext k
    exact (World.applyRows_queue_iff h k).2 (by simp)
  · intro k hk
    have hagree := h.agrees k
    rw [hk] at hagree
    exact hagree.2.2 (by simp)

/-- A document is created, modified while its creation is in flight, and acknowledged. -/
def modifiedInFlight : List Event :=
  [.submitOrCoalesce ⟨0, "a", "idx", "1", .create⟩, .fetchAndMarkForSync,
    .submitOrCoalesce ⟨0, "a", "idx", "2", .modify⟩, .removeAllSynced]

/-- The manager has the created version and the queue the modification. -/
theorem applyRows_queue_eq_inventory_modifiedInFlight :
    ∃ w, queueSystem.run modifiedInFlight = some w ∧
      w.manager "a" = some "1" ∧ w.inventory "a" = some "2" ∧
      applyRows w.manager (w.queue.rows.map Row.toPersistedData) = w.inventory :=
  ⟨_, rfl, by decide, by decide, (applyRows_queue_eq_inventory modifiedInFlight _ rfl).1⟩

end WazAISentinel.SyncProtocol
