import WazAISentinel.Foundations.RowTable

/-!
# The persistent queue of the agent

Model of `persistent_queue_storage.cpp`: the SQLite table `persistent_queue` and the four operations
on it. A row is the pending difference for one document. While a synchronization round is in
progress its `syncStatus` is `syncing`, or `syncingUpdated` once a submission has changed it, and
`operationSyncing` then remembers the operation the round is sending. `createStatus` records whether
the document is new since the last acknowledged round, so that a deletion can cancel it unsent.

Every statement is executed as written: a transaction is one function on the table. Each operation
then gets its description key by key.
-/

namespace WazAISentinel.SyncProtocol

open Foundations

/-- Type of a modification; `noOp` is the neutral value of the `operation_syncing` column. -/
inductive Operation where
  | create
  | modify
  | delete
  | noOp
  deriving DecidableEq, Repr

/-- Synchronization status of a row. -/
inductive SyncStatus where
  | pending
  | syncing
  | syncingUpdated
  deriving DecidableEq, Repr

/-- Creation state of a row. -/
inductive CreateStatus where
  | existing
  | new
  | newDeleted
  deriving DecidableEq, Repr

/-- A message as it is submitted, fetched and sent. -/
structure PersistedData where
  seq : Nat
  id : String
  index : String
  data : String
  operation : Operation
  deriving DecidableEq, Repr

/-- A row of `persistent_queue`; `id` is its primary key. -/
structure Row where
  rowid : Nat
  id : String
  idx : String
  data : String
  operation : Operation
  syncStatus : SyncStatus
  createStatus : CreateStatus
  operationSyncing : Operation
  deriving DecidableEq, Repr

/-- The table `persistent_queue`. -/
abbrev PersistentQueue := RowTable Row.id Row.rowid

/-- The columns `id, idx, data, operation` of a row, as `fetchAndMarkForSync` returns them. -/
def Row.toPersistedData (r : Row) : PersistedData :=
  { seq := 0, id := r.id, index := r.idx, data := r.data, operation := r.operation }

/-- The row `INSERT` writes, with the column defaults of the table. -/
def insertedRow (newData : PersistedData) (rowid : Nat) : Row where
  rowid := rowid
  id := newData.id
  idx := newData.index
  data := newData.data
  operation := newData.operation
  syncStatus := .pending
  createStatus := if newData.operation = .create then .new else .existing
  operationSyncing := .noOp

/-- `newSyncStatus` of a row found with status `old`. -/
def coalescedSyncStatus : SyncStatus → SyncStatus
  | .pending => .pending
  | _ => .syncingUpdated

/-- `newOperationSyncing`: a row taken by a round keeps the operation the round is sending. -/
def coalescedOperationSyncing (old : Row) : Operation :=
  if old.syncStatus = .pending then .noOp
  else if old.operationSyncing = .noOp then old.operation
  else old.operationSyncing

/-- `newCreateStatus` of a row with status `old` under the submitted operation. -/
def coalescedCreateStatus (operation : Operation) (old : CreateStatus) : CreateStatus :=
  if operation = .delete then if old = .new then .newDeleted else old
  else if old = .newDeleted then .new else old

/-- The row that `UPDATE` leaves when `newData` meets the row `old`. -/
def coalescedRow (newData : PersistedData) (old : Row) : Row :=
  { old with
    idx := newData.index
    data := newData.data
    operation := newData.operation
    syncStatus := coalescedSyncStatus old.syncStatus
    createStatus := coalescedCreateStatus newData.operation old.createStatus
    operationSyncing := coalescedOperationSyncing old }

section

variable (q : PersistentQueue)

/-- `PersistentQueueStorage::submitOrCoalesce`. -/
def submitOrCoalesce (newData : PersistedData) : PersistentQueue :=
  match q.find? newData.id with
  | none => q.insert (insertedRow newData) fun _ => rfl
  | some old =>
    if newData.operation = .delete ∧ old.createStatus = .new ∧ old.syncStatus = .pending then
      q.deleteWhere fun r => r.id = newData.id
    else
      q.updateWhere (fun r => r.id = newData.id)
        (fun r => { coalescedRow newData old with rowid := r.rowid, id := r.id })
        (fun _ => rfl) fun _ => rfl

/-- `BATCH_SIZE` of `fetchAndMarkForSync`. -/
def batchSize : Nat := 500

/-- `UPDATE persistent_queue SET sync_status = SYNCING WHERE rowid IN (ids)`. -/
def markSyncing (ids : List Nat) : PersistentQueue :=
  q.updateWhere (fun r => ids.contains r.rowid) (fun r => { r with syncStatus := .syncing })
    (fun _ => rfl) fun _ => rfl

/-- The update loop of `fetchAndMarkForSync`: batch `b` holds the ids from `b * batchSize` on. -/
def markBatches (ids : List Nat) : Nat → PersistentQueue
  | 0 => q
  | b + 1 => markSyncing (markBatches ids b) ((ids.drop (b * batchSize)).take batchSize)

/-- The rows `fetchAndMarkForSync` selects, in rowid order. -/
def pendingRows : List Row :=
  q.rows.filter fun r => r.syncStatus = .pending

/-- `PersistentQueueStorage::fetchAndMarkForSync`: the fetched messages and the marked table. -/
def fetchAndMarkForSync : List PersistedData × PersistentQueue :=
  let idsToUpdate := (pendingRows q).map Row.rowid
  ((pendingRows q).map Row.toPersistedData,
    markBatches q idsToUpdate ((idsToUpdate.length + batchSize - 1) / batchSize))

/-- The rows `removeAllSynced` deletes. -/
def Row.isSynced (r : Row) : Bool :=
  r.syncStatus = .syncing ∨
    (r.createStatus = .newDeleted ∧ (r.operationSyncing = .noOp ∨ r.operationSyncing = .delete))

/-- The rows marked by a round. -/
def Row.isSyncing (r : Row) : Bool :=
  r.syncStatus = .syncing ∨ r.syncStatus = .syncingUpdated

/-- `PersistentQueueStorage::removeAllSynced`. -/
def removeAllSynced : PersistentQueue :=
  (q.deleteWhere Row.isSynced).updateWhere Row.isSyncing
    (fun r =>
      { r with syncStatus := .pending, createStatus := .existing, operationSyncing := .noOp })
    (fun _ => rfl) fun _ => rfl

/-- `PersistentQueueStorage::resetAllSyncing`. -/
def resetAllSyncing : PersistentQueue :=
  (q.updateWhere Row.isSyncing
    (fun r => { r with syncStatus := .pending, operationSyncing := .noOp })
    (fun _ => rfl) fun _ => rfl).deleteWhere
      fun r => r.operation = .delete ∧ r.createStatus = .newDeleted

end

/-! ## The operations key by key -/

section Lookup

variable (q : PersistentQueue) (k : String)

/-- What a submission makes of the row of its id. -/
def submittedRow (newData : PersistedData) (rowid : Nat) : Option Row → Option Row
  | none => some (insertedRow newData rowid)
  | some old =>
    if newData.operation = .delete ∧ old.createStatus = .new ∧ old.syncStatus = .pending then none
    else some (coalescedRow newData old)

/-- A submission changes the row of its id and no other row. -/
theorem find?_submitOrCoalesce (newData : PersistedData) (k : String) :
    (submitOrCoalesce q newData).find? k =
      if newData.id = k then submittedRow newData q.nextRowid (q.find? k) else q.find? k := by
  unfold submitOrCoalesce
  cases hold : q.find? newData.id with
  | none =>
    have hins := q.find?_insert (insertedRow newData) (fun _ => rfl) hold k
    have hid : (insertedRow newData q.nextRowid).id = newData.id := rfl
    rw [hins, hid]
    by_cases hk : newData.id = k
    · rw [if_pos hk, if_pos hk, ← hk, hold]
      rfl
    · rw [if_neg hk, if_neg hk]
  | some old =>
    have hoid : old.id = newData.id := q.key_of_find? hold
    simp only
    by_cases hk : newData.id = k
    · subst hk
      by_cases hdel : newData.operation = .delete ∧ old.createStatus = .new ∧
          old.syncStatus = .pending
      · rw [if_pos hdel, q.find?_deleteWhere, hold]
        simp [submittedRow, hdel, hoid]
      · rw [if_neg hdel, q.find?_updateWhere, hold]
        simp only [submittedRow, if_neg hdel, Option.map_some, hoid, decide_true, if_true]
        rw [← hoid]
        rfl
    · rw [if_neg hk]
      have hother : ∀ r, q.find? k = some r → r.id ≠ newData.id := by
        intro r hr h
        exact hk (h.symm.trans (q.key_of_find? hr))
      split
      · rw [q.find?_deleteWhere]
        cases hr : q.find? k with
        | none => rfl
        | some r => simp [hother r hr]
      · rw [q.find?_updateWhere]
        cases hr : q.find? k with
        | none => rfl
        | some r => simp [hother r hr]

/-- After `b` batches exactly the rows of these batches are marked. -/
theorem find?_markBatches (ids : List Nat) (k : String) : ∀ b : Nat,
    (markBatches q ids b).find? k =
      (q.find? k).map fun r =>
        if r.rowid ∈ ids.take (b * batchSize) then { r with syncStatus := .syncing } else r
  | 0 => by
      have h : (fun r : Row => if r.rowid ∈ ids.take (0 * batchSize)
          then { r with syncStatus := .syncing } else r) = id := by
        funext r
        simp
      rw [h, Option.map_id]
      rfl
  | b + 1 => by
      have hsplit : ids.take ((b + 1) * batchSize) =
          ids.take (b * batchSize) ++ (ids.drop (b * batchSize)).take batchSize := by
        rw [Nat.succ_mul, List.take_add]
      simp only [markBatches, markSyncing]
      rw [RowTable.find?_updateWhere, find?_markBatches ids k b, Option.map_map, hsplit]
      congr 1
      funext r
      by_cases h1 : r.rowid ∈ ids.take (b * batchSize) <;>
        by_cases h2 : r.rowid ∈ (ids.drop (b * batchSize)).take batchSize <;>
        simp [h1, h2]

/-- Fetching marks exactly the pending rows: the batches cover all selected ids. -/
theorem find?_fetchAndMarkForSync :
    (fetchAndMarkForSync q).2.find? k =
      (q.find? k).map fun r =>
        if r.syncStatus = .pending then { r with syncStatus := .syncing } else r := by
  have hcover : ∀ ids : List Nat,
      ids.take ((ids.length + batchSize - 1) / batchSize * batchSize) = ids := by
    intro ids
    apply List.take_of_length_le
    simp only [batchSize]
    omega
  simp only [fetchAndMarkForSync]
  rw [find?_markBatches, hcover]
  cases hr : q.find? k with
  | none => rfl
  | some r =>
    have hmem : r ∈ q.rows := (q.find?_eq_some_iff.1 hr).1
    have hiff : r.rowid ∈ (pendingRows q).map Row.rowid ↔ r.syncStatus = .pending := by
      simp only [pendingRows, List.mem_map, List.mem_filter, decide_eq_true_eq]
      constructor
      · rintro ⟨a, ⟨ha, hpend⟩, hid⟩
        exact q.eq_of_rowid_eq ha hmem hid ▸ hpend
      · intro hpend
        exact ⟨r, ⟨hmem, hpend⟩, rfl⟩
    simp only [Option.map_some, hiff]

/-- The fetched message of an id is its pending row. -/
theorem findKey_fetchAndMarkForSync :
    findKey PersistedData.id (fetchAndMarkForSync q).1 k =
      ((q.find? k).filter fun r => r.syncStatus = .pending).map Row.toPersistedData := by
  have hmap : findKey PersistedData.id ((pendingRows q).map Row.toPersistedData) k =
      (findKey Row.id (pendingRows q) k).map Row.toPersistedData := findKey_map (fun _ => rfl) k
  simp only [fetchAndMarkForSync]
  rw [hmap, pendingRows, findKey_filter q.unique]
  rfl

theorem fetchAndMarkForSync_unique :
    (fetchAndMarkForSync q).1.Pairwise fun a b => a.id ≠ b.id :=
  List.Pairwise.map _ (fun _ _ h => h) (q.unique.filter _)

theorem find?_removeAllSynced :
    (removeAllSynced q).find? k =
      ((q.find? k).filter fun r => !r.isSynced).map fun r =>
        if r.isSyncing then
          { r with syncStatus := .pending, createStatus := .existing, operationSyncing := .noOp }
        else r := by
  simp only [removeAllSynced]
  rw [RowTable.find?_updateWhere, RowTable.find?_deleteWhere]

theorem find?_resetAllSyncing :
    (resetAllSyncing q).find? k =
      ((q.find? k).map fun r =>
        if r.isSyncing then { r with syncStatus := .pending, operationSyncing := .noOp }
        else r).filter fun r => !(r.operation = .delete ∧ r.createStatus = .newDeleted : Bool) := by
  simp only [resetAllSyncing]
  rw [RowTable.find?_deleteWhere, RowTable.find?_updateWhere]

end Lookup

end WazAISentinel.SyncProtocol
