import WazAISentinel.IndexerConnector.BulkSplit

/-!
# The contents of the indexes

An index holds documents under their ids, and a document belongs to the agent its `agent.id` names.
A write replaces or removes one document, a deletion by query removes the documents of the listed
agents. It may be moved before the writes that precede it exactly if these leave no document of that
agent.
-/

namespace WazAISentinel.IndexerConnector

open Connector

/-- The document under an id of an index. -/
def Contents := Text → Text → Option Text

/-- The indexes without documents. -/
def Contents.empty : Contents := fun _ _ => none

@[ext] theorem Contents.ext {s t : Contents} (h : ∀ index id, s index id = t index id) : s = t :=
  funext fun index => funext fun id => h index id

namespace Connector.BulkCall

/-- The index the call names. -/
def index : BulkCall → Text
  | .bulkIndex _ index _ => index
  | .bulkDelete _ index => index

/-- The id the call names. -/
def id : BulkCall → Text
  | .bulkIndex id _ _ => id
  | .bulkDelete id _ => id

/-- The document the call leaves under that id. -/
def document : BulkCall → Option Text
  | .bulkIndex _ _ data => some data
  | .bulkDelete _ _ => none

end Connector.BulkCall

namespace Contents

/-- One operation of a `_bulk` request. -/
def write (s : Contents) (call : BulkCall) : Contents := fun index id =>
  if call.index = index ∧ call.id = id then call.document else s index id

/-- The operations of a `_bulk` request, in order. -/
def writeAll (s : Contents) (calls : List BulkCall) : Contents := calls.foldl write s

@[simp] theorem writeAll_cons (s : Contents) (call : BulkCall) (calls : List BulkCall) :
    s.writeAll (call :: calls) = (s.write call).writeAll calls := rfl

/-- What the last of the operations on an id leaves there; `none` if there is no such operation. -/
def lastWrite : List BulkCall → Text → Text → Option (Option Text)
  | [], _, _ => none
  | call :: calls, index, id =>
    (lastWrite calls index id).or
      (if call.index = index ∧ call.id = id then some call.document else none)

/-- After the operations an id holds what the last operation on it left. -/
theorem writeAll_apply (s : Contents) (calls : List BulkCall) (index id : Text) :
    s.writeAll calls index id = (lastWrite calls index id).getD (s index id) := by
  induction calls generalizing s with
  | nil => rfl
  | cons call calls ih =>
    rw [writeAll_cons, ih, lastWrite]
    cases hlast : lastWrite calls index id with
    | some document => rfl
    | none =>
      simp only [Option.none_or, Option.getD_none, write]
      split <;> rfl

/-- An id that the operations write is the id of one of them. -/
theorem exists_of_lastWrite {calls : List BulkCall} {index id : Text} {document : Option Text}
    (h : lastWrite calls index id = some document) :
    ∃ call ∈ calls, call.index = index ∧ call.id = id := by
  induction calls with
  | nil => cases h
  | cons call calls ih =>
    by_cases hcall : call.index = index ∧ call.id = id
    · exact ⟨call, List.mem_cons_self, hcall⟩
    · rw [lastWrite, if_neg hcall, Option.or_none] at h
      obtain ⟨later, hlater, heq⟩ := ih h
      exact ⟨later, List.mem_cons_of_mem _ hlater, heq⟩

section Agents

variable (agentOf : Text → Option Text)

/-- A `_delete_by_query` request: the documents of the listed agents go. -/
def removeAgents (s : Contents) (index : Text) (agentIds : List Text) : Contents := fun i id =>
  if i = index then (s i id).filter fun document => ∀ agentId ∈ agentIds,
    agentOf document ≠ some agentId
  else s i id

theorem removeAgents_apply (s : Contents) (index : Text) (agentIds : List Text) (i id : Text) :
    s.removeAgents agentOf index agentIds i id =
      (s i id).filter fun document => i = index →
        ∀ agentId ∈ agentIds, agentOf document ≠ some agentId := by
  rw [removeAgents]
  split
  · simp only [*, true_implies]
  · cases s i id with
    | none => rfl
    | some document => simp [Option.filter, *]

/-- The requests of a map from indexes to agents. -/
def removeAll (s : Contents) (entries : List (Text × List Text)) : Contents :=
  entries.foldl (fun s e => s.removeAgents agentOf e.1 e.2) s

@[simp] theorem removeAll_nil (s : Contents) : s.removeAll agentOf [] = s := rfl

@[simp] theorem removeAll_cons (s : Contents) (e : Text × List Text)
    (entries : List (Text × List Text)) :
    s.removeAll agentOf (e :: entries) =
      (s.removeAgents agentOf e.1 e.2).removeAll agentOf entries := rfl

/-- No entry for the index lists the agent of the document. -/
def Spared (entries : List (Text × List Text)) (index document : Text) : Prop :=
  ∀ e ∈ entries, e.1 = index → ∀ agentId ∈ e.2, agentOf document ≠ some agentId

instance (entries : List (Text × List Text)) (index document : Text) :
    Decidable (Spared agentOf entries index document) :=
  inferInstanceAs
    (Decidable (∀ e ∈ entries, e.1 = index → ∀ agentId ∈ e.2, agentOf document ≠ some agentId))

theorem spared_cons (e : Text × List Text) (entries : List (Text × List Text))
    (index document : Text) :
    Spared agentOf (e :: entries) index document ↔
      (index = e.1 → ∀ agentId ∈ e.2, agentOf document ≠ some agentId) ∧
        Spared agentOf entries index document := by
  simp only [Spared, List.forall_mem_cons, eq_comm]

/-- The requests keep the documents that every one of them spares. -/
theorem removeAll_apply (s : Contents) (entries : List (Text × List Text)) (index id : Text) :
    s.removeAll agentOf entries index id =
      (s index id).filter fun document => Spared agentOf entries index document := by
  induction entries generalizing s with
  | nil =>
    rw [removeAll_nil]
    cases s index id with
    | none => rfl
    | some document => simp [Option.filter, Spared]
  | cons e entries ih =>
    rw [removeAll_cons, ih, removeAgents_apply, Option.filter_filter]
    simp only [← Bool.decide_and, spared_cons]

/-- The operations leave a document of the agent in the index. -/
def LeavesDocument (calls : List BulkCall) (index agentId : Text) : Prop :=
  ∃ call ∈ calls, (lastWrite calls index call.id).join.bind agentOf = some agentId

instance (calls : List BulkCall) (index agentId : Text) :
    Decidable (LeavesDocument agentOf calls index agentId) :=
  inferInstanceAs (Decidable (∃ call ∈ calls, _))

/-- A deletion by query after some operations is one before them exactly if the operations leave no
document of the agent. -/
theorem removeAgents_writeAll_iff (s : Contents) (calls : List BulkCall) (index agentId : Text) :
    (s.removeAgents agentOf index [agentId]).writeAll calls =
        (s.writeAll calls).removeAgents agentOf index [agentId] ↔
      ¬ LeavesDocument agentOf calls index agentId := by
  constructor
  · -- a document that is left stays in the left side and goes in the right side
    rintro heq ⟨call, -, hcall⟩
    obtain ⟨document, hlast, hagent⟩ := Option.bind_eq_some_iff.1 hcall
    rw [Option.join_eq_some_iff] at hlast
    have hpoint := congrFun (congrFun heq index) call.id
    simp [writeAll_apply, removeAgents, hlast, Option.filter, hagent] at hpoint
  · intro hnone
    ext1 i id
    cases hlast : lastWrite calls i id with
    | none => simp [removeAgents, writeAll_apply, hlast]
    | some document =>
      simp only [removeAgents, writeAll_apply, hlast, Option.getD_some]
      split_ifs with hindex
      · subst hindex
        cases document with
        | none => rfl
        | some document =>
          have hagent : agentOf document ≠ some agentId := by
            intro hagent
            obtain ⟨call, hcall, -, rfl⟩ := exists_of_lastWrite hlast
            exact hnone ⟨call, hcall, by simp [hlast, hagent]⟩
          simp [Option.filter, hagent]
      · rfl

end Agents

end Contents

end WazAISentinel.IndexerConnector
