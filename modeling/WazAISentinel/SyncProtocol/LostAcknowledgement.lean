import WazAISentinel.SyncProtocol.QueueConvergence

/-!
# Rounds whose acknowledgement is lost

The agent judges a round failed when no `EndAck` arrives, and then calls `resetAllSyncing`; so does
the constructor of the queue after a restart. The manager may have applied the round all the same;
the runs of this module let every failed round and every restart choose.

The queue regards a row with `createStatus` other than `existing` as unknown to the manager: it
cancels the row on a deletion, and drops it on `resetAllSyncing` when it was deleted in flight. For
the ids in `unacked` this is wrong, and these are the exact difference that is left after a later
successful round.
-/

namespace WazAISentinel.SyncProtocol

open Foundations Option

/-- The two sides, and the ids whose row, still counted as created by the agent, the manager applied
in a round judged failed and in no successful one since. -/
structure LossyWorld where
  world : World
  unacked : List String

/-- `persistDifference`, the start of `synchronizeModule`, its end with either verdict, and a
restart of the process. The flag of a failed round or a restart says whether the manager applied the
rows in flight. -/
inductive LossyEvent where
  | persistDifference (newData : PersistedData)
  | fetchAndMarkForSync
  | clearSyncedItems
  | resetSyncingItems (applied : Bool)
  | restart (applied : Bool)

namespace LossyWorld

/-- Rows in flight that the agent counts as created. -/
def createdInFlight (w : World) : List String :=
  (w.queue.rows.filter fun r => r.isSyncing && r.createStatus ≠ .existing).map Row.id

/-- The round ends with `resetAllSyncing`, on a failure verdict or after a restart. -/
def fail (s : LossyWorld) (applied : Bool) : LossyWorld :=
  if applied then ⟨s.world.deliver.reset, s.unacked ++ createdInFlight s.world⟩
  else ⟨s.world.reset, s.unacked⟩

/-- One event. `synchronizeModule` runs one round at a time. -/
def step (s : LossyWorld) : LossyEvent → Option LossyWorld
  | .persistDifference d =>
    if s.world.accepts d then some ⟨s.world.submit d, s.unacked⟩ else none
  | .fetchAndMarkForSync =>
    if s.world.inFlight = [] then some ⟨s.world.fetch, s.unacked⟩ else none
  | .clearSyncedItems =>
    if s.world.inFlight = [] then none
    else some ⟨s.world.deliver.remove,
      s.unacked.filter fun k => (findKey PersistedData.id s.world.inFlight k).isNone⟩
  | .resetSyncingItems applied =>
    if s.world.inFlight = [] then none else some (s.fail applied)
  | .restart applied => some (s.fail applied)

end LossyWorld

/-- The queue with rounds whose acknowledgement may be lost. -/
def lossySystem : TransitionSystem LossyWorld LossyEvent := ⟨⟨World.init, []⟩, LossyWorld.step⟩

/-- Every run recovers: after a round that ends successfully with no submission since its fetch,
the two sides are equal. -/
def LossyRobust : Prop :=
  ∀ (es : List LossyEvent) (s : LossyWorld),
    lossySystem.run (es ++ [.fetchAndMarkForSync, .clearSyncedItems]) = some s →
      s.world.manager = s.world.inventory

/-- A document is created, the acknowledgement of its round is lost, and it is deleted; another
document gives the next round something to send. -/
def deletedAfterLostAck : List LossyEvent :=
  [.persistDifference ⟨0, "a", "idx", "1", .create⟩, .fetchAndMarkForSync,
    .resetSyncingItems true, .persistDifference ⟨0, "a", "idx", "1", .delete⟩,
    .persistDifference ⟨0, "b", "idx", "2", .create⟩]

/-- The deletion cancels the pending row, and the next successful round leaves the document in the
manager. -/
theorem stale_document_after_lost_ack : ¬ LossyRobust := by
  intro h
  have hrun := h deletedAfterLostAck _ rfl
  have hmgr : (some "1" : Option String) = none := congrFun hrun "a"
  exact absurd hmgr (by decide)

/-! ## The difference that is left -/

theorem isSyncing_iff_sent {unacked : Prop} {inv mgr : Option String} {r : Row}
    {sent : Option PersistedData} (h : RowAgrees unacked inv mgr r sent) :
    r.isSyncing = true ↔ sent ≠ none := by
  cases hs : r.syncStatus with
  | pending => simp [Row.isSyncing, hs, h.pending hs]
  | syncing => simp [Row.isSyncing, hs, h.syncing hs]
  | syncingUpdated =>
    obtain ⟨d, hd, -⟩ := h.updated hs
    simp [Row.isSyncing, hs, hd]

variable {unacked : List String} {w : World} {s : LossyWorld}

/-- The ids that become unacknowledged are those with a message in flight for a created row. -/
theorem mem_createdInFlight (h : w.Agree unacked) (k : String) :
    k ∈ LossyWorld.createdInFlight w ↔
      findKey PersistedData.id w.inFlight k ≠ none ∧ ∃ r, w.queue.find? k = some r ∧
        r.createStatus ≠ .existing := by
  have hrow : ∀ r, w.queue.find? k = some r →
      (r.isSyncing = true ↔ findKey PersistedData.id w.inFlight k ≠ none) := by
    intro r hr
    have hagree := h.agrees k
    rw [hr] at hagree
    exact isSyncing_iff_sent hagree
  simp only [LossyWorld.createdInFlight, List.mem_map, List.mem_filter, Bool.and_eq_true,
    decide_eq_true_eq]
  constructor
  · rintro ⟨r, ⟨hmem, hsync, hcreate⟩, rfl⟩
    have hr : w.queue.find? r.id = some r := w.queue.find?_eq_some_iff.2 ⟨hmem, rfl⟩
    exact ⟨(hrow r hr).1 hsync, r, hr, hcreate⟩
  · rintro ⟨hsent, r, hr, hcreate⟩
    obtain ⟨hmem, hid⟩ := w.queue.find?_eq_some_iff.1 hr
    exact ⟨r, ⟨hmem, (hrow r hr).2 hsent, hcreate⟩, hid⟩

theorem fail_agree (h : s.world.Agree s.unacked) (applied : Bool) :
    (s.fail applied).world.Agree (s.fail applied).unacked := by
  cases applied with
  | false => exact World.reset_agree h
  | true =>
    refine ⟨fun k => ?_, .nil⟩
    have hmem : k ∈ s.unacked ++ LossyWorld.createdInFlight s.world ↔
        (k ∈ s.unacked ∨ (true : Bool) = true ∧
          findKey PersistedData.id s.world.inFlight k ≠ none ∧
            ∃ r, s.world.queue.find? k = some r ∧ r.createStatus ≠ .existing) := by
      rw [List.mem_append, mem_createdInFlight h]
      simp
    have hmgr : s.world.deliver.reset.manager k = _ := World.deliver_manager h k
    simp only [LossyWorld.fail, if_true]
    rw [hmgr, propext hmem]
    simp only [World.reset, World.deliver]
    rw [find?_resetAllSyncing]
    simpa [resetRow] using agrees_reset (h.agrees k) true

theorem lossyStep_agree {s' : LossyWorld} {e : LossyEvent} (h : s.world.Agree s.unacked)
    (hstep : s.step e = some s') : s'.world.Agree s'.unacked := by
  cases e with
  | persistDifference d =>
    simp only [LossyWorld.step, ite_none_right_eq_some, some.injEq] at hstep
    obtain ⟨hd, rfl⟩ := hstep
    exact World.submit_agree h hd
  | fetchAndMarkForSync =>
    simp only [LossyWorld.step, ite_none_right_eq_some, some.injEq] at hstep
    obtain ⟨-, rfl⟩ := hstep
    exact World.fetch_agree h
  | clearSyncedItems =>
    simp only [LossyWorld.step, ite_none_left_eq_some, some.injEq] at hstep
    obtain ⟨-, rfl⟩ := hstep
    exact World.deliver_remove_agree h
  | resetSyncingItems applied =>
    simp only [LossyWorld.step, ite_none_left_eq_some, some.injEq] at hstep
    obtain ⟨-, rfl⟩ := hstep
    exact fail_agree h applied
  | restart applied =>
    cases hstep
    exact fail_agree h applied

/-- A round fetched with nothing in flight carries every row, so its successful end empties the
queue. -/
theorem find?_deliver_remove_fetch (h : w.Agree unacked) (hidle : w.inFlight = []) (k : String) :
    w.fetch.deliver.remove.queue.find? k = none := by
  simp only [World.fetch, World.deliver, World.remove]
  rw [find?_removeAllSynced, find?_fetchAndMarkForSync]
  cases hr : w.queue.find? k with
  | none => rfl
  | some r =>
    have hagree := h.agrees k
    rw [hr, hidle] at hagree
    have hsync : ¬ r.isSyncing = true := fun hs => (isSyncing_iff_sent hagree).1 hs rfl
    have hpend : r.syncStatus = .pending := by
      cases hs : r.syncStatus <;> simp_all [Row.isSyncing]
    simp [hpend, Row.isSynced]

/-- After a round that ends successfully with no submission since its fetch, the manager's copy
equals the inventory exactly at the ids that are not unacknowledged. The others are deleted, and the
manager keeps their documents. -/
theorem manager_eq_inventory_iff (es : List LossyEvent) (s : LossyWorld)
    (hrun : lossySystem.run (es ++ [.fetchAndMarkForSync, .clearSyncedItems]) = some s)
    (id : String) :
    (s.world.manager id = s.world.inventory id ↔ id ∉ s.unacked) ∧
      (id ∈ s.unacked → s.world.inventory id = none ∧ s.world.manager id ≠ none) := by
  obtain ⟨s₁, hrun₁, hround⟩ := lossySystem.runFrom_append_eq_some.1 hrun
  obtain ⟨s₂, hfetch, hround⟩ := lossySystem.runFrom_cons_eq_some.1 hround
  obtain ⟨s₃, hclear, hround⟩ := lossySystem.runFrom_cons_eq_some.1 hround
  simp only [TransitionSystem.runFrom_nil, some.injEq] at hround
  subst hround
  change s₁.step .fetchAndMarkForSync = some s₂ at hfetch
  change s₂.step .clearSyncedItems = some s₃ at hclear
  have h₁ : s₁.world.Agree s₁.unacked :=
    lossySystem.runFrom_induction (P := fun s => s.world.Agree s.unacked)
      (fun _ _ _ => lossyStep_agree) World.init_agree hrun₁
  have h₃ := lossyStep_agree (lossyStep_agree h₁ hfetch) hclear
  have hempty : s₃.world.queue.find? id = none := by
    simp only [LossyWorld.step, ite_none_right_eq_some, some.injEq] at hfetch
    obtain ⟨hidle, rfl⟩ := hfetch
    simp only [LossyWorld.step, ite_none_left_eq_some, some.injEq] at hclear
    obtain ⟨-, rfl⟩ := hclear
    exact find?_deliver_remove_fetch h₁ hidle id
  have hagree := h₃.agrees id
  rw [hempty] at hagree
  obtain ⟨-, hun, hack⟩ := hagree
  exact ⟨⟨fun heq hmem => (hun hmem).2 (heq.trans (hun hmem).1), hack⟩, hun⟩

/-- In the run above the two sides agree at `b` and differ at `a`. -/
theorem manager_eq_inventory_iff_deletedAfterLostAck :
    ∃ s,
      lossySystem.run (deletedAfterLostAck ++ [.fetchAndMarkForSync, .clearSyncedItems]) = some s ∧
      s.unacked = ["a"] ∧ s.world.manager "b" = s.world.inventory "b" ∧
      s.world.manager "a" ≠ s.world.inventory "a" :=
  ⟨_, rfl, rfl, (manager_eq_inventory_iff deletedAfterLostAck _ rfl "b").1.2 (by decide),
    fun h => absurd ((manager_eq_inventory_iff deletedAfterLostAck _ rfl "a").1.1 h) (by decide)⟩

end WazAISentinel.SyncProtocol
