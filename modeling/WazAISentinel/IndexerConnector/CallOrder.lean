import WazAISentinel.IndexerConnector.Notify
import WazAISentinel.IndexerConnector.IndexContents

/-!
# The order of deletions by query and operations

The connector keeps the deletions by query apart from the operations and sends them first, whatever
the order of the calls was. `settled` is the contents a flush would leave: the answered requests,
then the collected deletions, then the buffered operations.

Against a server that answers every request with success, a call changes `settled` as it says
exactly if `KeepsOrder` holds: no buffered operation leaves a document of the agent whose documents
are to be deleted, and an operation that is refused because nothing can be sent to make room for it
would have changed nothing.
-/

namespace WazAISentinel.IndexerConnector

open Foundations List
open Connector

/-- A call on the connector, or a round of its thread. -/
inductive IndexCall where
  | deleteByQuery (index agentId : Text)
  | write (call : BulkCall)
  | flush
  | timer
  deriving DecidableEq, Repr

/-- The operation a call appends. -/
def IndexCall.operations : IndexCall → List BulkCall
  | .write call => [call]
  | _ => []

/-- What a call asks for. -/
def Contents.apply (agentOf : Text → Option Text) (s : Contents) : IndexCall → Contents
  | .deleteByQuery index agentId => s.removeAgents agentOf index [agentId]
  | .write call => s.write call
  | .flush => s
  | .timer => s

/-- The calls applied one after another to empty indexes. -/
def inOrder (agentOf : Text → Option Text) (calls : List IndexCall) : Contents :=
  calls.foldl (Contents.apply agentOf) .empty

/-! ## Runs against a server that accepts everything -/

namespace Connector

/-- As many successful answers as one call can ask for. -/
def granted (c : Connector) : Connector :=
  { c with replies := List.replicate (c.deletesByQuery.entries.length + 1) (always .success) }

@[simp] theorem bulkData_granted (c : Connector) : c.granted.bulkData = c.bulkData := rfl

/-- The call. -/
def issue (maxBulkSize : Nat) (c : Connector) : IndexCall → Outcome
  | .deleteByQuery index agentId => .done (c.deleteByQuery index agentId)
  | .write call => c.perform maxBulkSize call
  | .flush => c.flush
  | .timer => c.timer

end Connector

/-- A connector, and the operations that were appended to it, by their numbers. -/
structure Indexing where
  connector : Connector
  operations : List BulkCall

/-- What the answered requests left in the indexes; the log starts with the newest entry. -/
def replay (agentOf : Text → Option Text) (operations : List BulkCall) : List Entry → Contents
  | [] => .empty
  | .answered (.deleteByQuery index agentIds) _ .success :: older =>
    (replay agentOf operations older).removeAgents agentOf index agentIds
  | .answered (.bulk _) numbers .success :: older =>
    (replay agentOf operations older).writeAll (numbers.filterMap (operations[·]?))
  | _ :: older => replay agentOf operations older

namespace Indexing

/-- The call returns or throws; an operation whose call throws is not appended. -/
def step (maxBulkSize : Nat) (s : Indexing) (call : IndexCall) : Option Indexing :=
  match s.connector.granted.issue maxBulkSize call with
  | .done c => some ⟨c, s.operations ++ call.operations⟩
  | .thrown _ c => some ⟨c, s.operations⟩
  | .waiting => none
  | .undefined => none

/-- The indexes now. -/
def contents (agentOf : Text → Option Text) (s : Indexing) : Contents :=
  replay agentOf s.operations s.connector.log

/-- The operations in the buffer. -/
def pending (s : Indexing) : List BulkCall :=
  s.operations.drop (s.operations.length - s.connector.buffered.length)

/-- The indexes after the collected deletions and the buffered operations. -/
def settled (agentOf : Text → Option Text) (s : Indexing) : Contents :=
  ((s.contents agentOf).removeAll agentOf s.connector.deletesByQuery.entries).writeAll s.pending

end Indexing

open Indexing

/-- The connector and its server as a transition system. -/
def indexSystem (maxBulkSize : Nat) : TransitionSystem Indexing IndexCall :=
  ⟨⟨init, []⟩, Indexing.step maxBulkSize⟩

/-- The indexes after the calls and a flush. -/
def contentsAfter (maxBulkSize : Nat) (agentOf : Text → Option Text) (calls : List IndexCall) :
    Option Contents :=
  ((indexSystem maxBulkSize).run (calls ++ [.flush])).map (Indexing.contents agentOf)

/-- The call is not overtaken by what is collected, and does not fail. -/
def KeepsOrder (maxBulkSize : Nat) (agentOf : Text → Option Text) (s : Indexing) : IndexCall → Prop
  | .deleteByQuery index agentId => ¬ Contents.LeavesDocument agentOf s.pending index agentId
  | .write call =>
    maxBulkSize < call.text.length - 1 → s.connector.bulkData = [] →
      s.connector.deletesByQuery.entries = [] → s.settled agentOf call.index call.id = call.document
  | .flush => True
  | .timer => True

instance (maxBulkSize : Nat) (agentOf : Text → Option Text) (s : Indexing) :
    DecidablePred (KeepsOrder maxBulkSize agentOf s)
  | .deleteByQuery _ _ => inferInstanceAs (Decidable (¬ _))
  | .write _ => inferInstanceAs (Decidable (_ → _ → _ → _))
  | .flush => isTrue trivial
  | .timer => isTrue trivial

/-! ## What a call sends -/

namespace Connector

variable {c : Connector}

/-- The log entry of an accepted deletion by query. -/
def deleteEntry (e : Text × List Text) : Entry := .answered (.deleteByQuery e.1 e.2) [] .success

/-- The log entries of an accepted `processBulk`, newest first. -/
def requests (c : Connector) : List Entry :=
  (if c.bulkData = [] then [] else [c.sliceEntry 0 c.bulkData.length .success]) ++
    (c.deletesByQuery.entries.map deleteEntry).reverse

theorem deleteLoop_success (entries : List (Text × List Text)) (k : Nat) (c : Connector) :
    deleteLoop entries { c with replies := replicate (entries.length + k) (always .success) } =
      .done { c with
        replies := replicate k (always .success)
        log := (entries.map deleteEntry).reverse ++ c.log } := by
  induction entries generalizing c with
  | nil => simp [deleteLoop]
  | cons e entries ih =>
    rw [length_cons, Nat.add_right_comm, replicate_succ]
    have hrest := ih { c with log := deleteEntry e :: c.log }
    simp only [deleteLoop, post, always]
    simp only [deleteEntry] at hrest
    rw [hrest]
    simp [deleteEntry]

/-- Whatever is collected is sent and accepted: first the deletions, then the operations. -/
theorem processBulk_granted (hstop : c.stopping = false) (hnotify : c.notify = [])
    (hsome : c.bulkData ≠ [] ∨ c.deletesByQuery.entries ≠ []) : ∃ rest, c.granted.processBulk =
      .done { c.finish with log := c.requests ++ c.log, replies := rest } := by
  have hcollected : ¬ (c.granted.bulkData = [] ∧ c.granted.deletesByQuery.entries = []) :=
    not_and_or.2 hsome
  have hdeletes : deleteLoop c.granted.deletesByQuery.entries c.granted = .done
      { c with
        replies := replicate 1 (always .success)
        log := (c.deletesByQuery.entries.map deleteEntry).reverse ++ c.log } :=
    deleteLoop_success c.deletesByQuery.entries 1 c
  rw [processBulk, if_neg hcollected, hdeletes]
  simp only [Outcome.andThen]
  by_cases hdata : c.bulkData = []
  · refine ⟨replicate 1 (always .success), ?_⟩
    simp [hdata, requests, finish, clearData, clearBoundaries]
  · refine ⟨[], ?_⟩
    simp [hdata, requests, finish, clearData, clearBoundaries, fuel, bulkLoop, hstop, postSlice,
      post, always, notifyAll, hnotify, sliceEntry, slice]

end Connector

/-! ## Numbers and operations -/

theorem map_number_operationsFrom (n : Nat) (calls : List BulkCall) :
    (operationsFrom n calls).map Operation.number = range' n calls.length := by
  induction calls generalizing n with
  | nil => rfl
  | cons call calls ih => exact congrArg (n :: ·) (ih (n + 1))

theorem operationsFrom_append (n : Nat) (calls later : List BulkCall) :
    operationsFrom n (calls ++ later) =
      operationsFrom n calls ++ operationsFrom (n + calls.length) later := by
  induction calls generalizing n with
  | nil => simp [operationsFrom]
  | cons call calls ih => simp [operationsFrom, ih, Nat.add_comm, Nat.add_left_comm]

/-- The numbers of the last operations name them. -/
theorem filterMap_operationsFrom (sent calls : List BulkCall) :
    ((operationsFrom sent.length calls).map Operation.number).filterMap
      ((sent ++ calls)[·]?) = calls := by
  induction calls generalizing sent with
  | nil => rfl
  | cons call calls ih =>
    have hrest := ih (sent ++ [call])
    rw [append_assoc, singleton_append, length_append, length_singleton] at hrest
    rw [operationsFrom, map_cons, filterMap_cons_some (b := call) (by simp), hrest]

variable {calls : List BulkCall}

/-! ## What the requests leave -/

section Replay

variable {agentOf : Text → Option Text}

/-- Operations that no answered request contains do not matter. -/
theorem replay_append {operations : List BulkCall} (later : List BulkCall) {log : List Entry}
    (h : ∀ request numbers answer, .answered request numbers answer ∈ log →
    ∀ n ∈ numbers, n < operations.length) :
    replay agentOf (operations ++ later) log = replay agentOf operations log := by
  induction log with
  | nil => rfl
  | cons e log ih =>
    have hrest :=
      ih fun request numbers answer hmem => h request numbers answer (mem_cons_of_mem _ hmem)
    have hnumbers : ∀ numbers : List Nat, (∀ n ∈ numbers, n < operations.length) →
        numbers.filterMap ((operations ++ later)[·]?) = numbers.filterMap (operations[·]?) := by
      intro numbers hlt
      apply filterMap_congr
      intro n hn
      exact getElem?_append_left (hlt n hn)
    cases e with
    | invoked callback => exact hrest
    | answered request numbers answer =>
      cases answer with
      | error message status => cases request <;> exact hrest
      | success =>
        cases request with
        | deleteByQuery index agentIds => simp only [replay, hrest]
        | bulk body =>
          simp only [replay, hrest]
          rw [hnumbers numbers (h _ _ _ mem_cons_self)]

theorem replay_deletes (operations : List BulkCall) (entries : List (Text × List Text))
    (log : List Entry) :
    replay agentOf operations ((entries.map deleteEntry).reverse ++ log) =
      (replay agentOf operations log).removeAll agentOf entries := by
  induction entries generalizing log with
  | nil => rfl
  | cons e entries ih =>
    rw [map_cons, reverse_cons, append_assoc, ih]
    rfl

end Replay

/-! ## The invariant and the steps -/

/-- The buffer holds the last operations, and the requests contained earlier ones. -/
structure Aligned (s : Indexing) : Prop extends Consistent s.connector where
  running : s.connector.stopping = false
  notify : s.connector.notify = []
  appended : s.connector.appended = s.operations.length
  buffered : ∃ sent, s.operations = sent ++ s.pending ∧
    s.connector.buffered = operationsFrom sent.length s.pending
  numbers : ∀ request numbers answer, .answered request numbers answer ∈ s.connector.log →
    ∀ n ∈ numbers, n < s.operations.length

namespace Aligned

variable {maxBulkSize : Nat} {agentOf : Text → Option Text} {s t : Indexing}

theorem init : Aligned ⟨Connector.init, []⟩ :=
  ⟨.cleared rfl rfl rfl, rfl, rfl, rfl, ⟨[], rfl, rfl⟩, by simp [Connector.init]⟩

/-- The whole buffer as a request contains the pending operations. -/
theorem covered (h : Aligned s) :
    coveredFrom 0 s.connector.bulkData.length 0 s.connector.buffered =
      s.connector.buffered.map Operation.number := by
  apply coveredFrom_all (Nat.le_refl 0)
  rw [h.bulkData, size, Nat.zero_add]

/-- After the requests the indexes are settled. -/
theorem replay_requests (h : Aligned s) :
    replay agentOf s.operations (s.connector.requests ++ s.connector.log) = s.settled agentOf := by
  obtain ⟨sent, hoperations, hbuffered⟩ := h.buffered
  rw [requests, settled, append_assoc]
  by_cases hdata : s.connector.bulkData = []
  · have hpending : s.pending = [] := by
      rw [pending, h.buffered_eq_nil hdata]
      simp
    rw [if_pos hdata, hpending, nil_append, replay_deletes]
    rfl
  · have hnumbers : (coveredFrom 0 s.connector.bulkData.length 0 s.connector.buffered).filterMap
        (s.operations[·]?) = s.pending := by
      rw [h.covered, hbuffered]
      conv_lhs => rw [hoperations]
      exact filterMap_operationsFrom sent s.pending
    rw [if_neg hdata, singleton_append, sliceEntry, replay, replay_deletes, hnumbers]
    rfl

/-- The state after everything collected was sent. -/
theorem sent (h : Aligned s) (rest : List (Request → Answer)) :
    let t : Indexing := ⟨{ s.connector.finish with
      log := s.connector.requests ++ s.connector.log, replies := rest }, s.operations⟩
    Aligned t ∧ t.contents agentOf = s.settled agentOf ∧ t.settled agentOf = s.settled agentOf := by
  intro t
  have hpending : t.pending = [] := by simp [t, pending, finish, clearData, clearBoundaries]
  have hcontents : t.contents agentOf = s.settled agentOf := h.replay_requests
  refine ⟨⟨.cleared rfl rfl rfl, h.running, h.notify, h.appended, ⟨s.operations, ?_, ?_⟩, ?_⟩,
    hcontents, ?_⟩
  · rw [hpending, append_nil]
  · rw [hpending]
    rfl
  · intro request numbers answer hmem n hn
    rcases mem_append.1 hmem with hmem | hmem
    · rcases mem_append.1 hmem with hmem | hmem
      · -- the body of the operations
        obtain ⟨earlier, hoperations, hbuffered⟩ := h.buffered
        split at hmem
        · cases hmem
        · have hentry := mem_singleton.1 hmem
          rw [sliceEntry, h.covered, Entry.answered.injEq] at hentry
          rw [hentry.2.1, hbuffered] at hn
          rw [map_number_operationsFrom, mem_range'_1, ← length_append, ← hoperations] at hn
          exact hn.2
      · -- a deletion contains no operation
        rw [mem_reverse, mem_map] at hmem
        obtain ⟨e, -, hentry⟩ := hmem
        rw [deleteEntry, Entry.answered.injEq] at hentry
        rw [← hentry.2.1] at hn
        cases hn
    · exact h.numbers request numbers answer hmem n hn
  · rw [settled, hpending, hcontents]
    rfl

/-- The replies play no part. -/
theorem granted (h : Aligned s) : Aligned ⟨s.connector.granted, s.operations⟩ :=
  { h with }

/-- An operation is appended behind the pending ones. -/
theorem append (h : Aligned s) (agentOf : Text → Option Text) (call : BulkCall) :
    let t : Indexing := ⟨s.connector.append call.text, s.operations ++ [call]⟩
    Aligned t ∧ t.settled agentOf = (s.settled agentOf).write call := by
  intro t
  obtain ⟨sent, hoperations, hbuffered⟩ := h.buffered
  have hnumber : s.connector.appended = sent.length + s.pending.length := by
    rw [h.appended, ← length_append, ← hoperations]
  have happended : t.connector.buffered = operationsFrom sent.length (s.pending ++ [call]) := by
    rw [operationsFrom_append, ← hbuffered]
    simp [t, Connector.append, operationsFrom, hnumber]
  have htotal : t.operations = sent ++ (s.pending ++ [call]) := by
    rw [← append_assoc, ← hoperations]
  have hlength := congrArg length (map_number_operationsFrom sent.length (s.pending ++ [call]))
  rw [length_map, length_range'] at hlength
  have hpending : t.pending = s.pending ++ [call] := by
    rw [pending, htotal, happended, hlength, length_append, Nat.add_sub_cancel, drop_left]
  have hcontents : t.contents agentOf = s.contents agentOf := replay_append [call] h.numbers
  refine ⟨⟨h.toConsistent.append (ne_nil_of_length_pos (length_text_pos call)), h.running, h.notify,
    ?_, ⟨sent, ?_, ?_⟩, ?_⟩, ?_⟩
  · simp [t, Connector.append, h.appended]
  · rw [hpending, htotal]
  · rw [hpending, happended]
  · intro request numbers answer hmem n hn
    have hlt := h.numbers request numbers answer hmem n hn
    simp only [t, length_append]
    omega
  · rw [settled, hcontents, hpending]
    exact foldl_append

/-- A collected deletion spares what it is to spare. -/
theorem spared_deleteByQuery (c : Connector) (index agentId i document : Text) :
    Contents.Spared agentOf (c.deleteByQuery index agentId).deletesByQuery.entries i document ↔
      (i = index → agentOf document ≠ some agentId) ∧
        Contents.Spared agentOf c.deletesByQuery.entries i document := by
  simp only [Contents.Spared, Connector.deleteByQuery, OrderedStore.mem_put]
  cases hfind : c.deletesByQuery.entries.find? fun e => e.1 = index with
  | none =>
    have hnone : ∀ e ∈ c.deletesByQuery.entries, e.1 ≠ index := by simpa using hfind
    constructor
    · intro hspared
      refine ⟨fun hi => hspared (index, [agentId]) (.inl rfl) hi.symm agentId (by simp), ?_⟩
      intro e he
      exact hspared e (.inr ⟨he, hnone e he⟩)
    · rintro ⟨hnew, hold⟩ e (rfl | ⟨he, -⟩) hi
      · intro a ha
        rw [mem_singleton.1 ha]
        exact hnew hi.symm
      · exact hold e he hi
  | some found =>
    have hkey : found.1 = index := by simpa using find?_some hfind
    have hfound : found ∈ c.deletesByQuery.entries := mem_of_find?_eq_some hfind
    constructor
    · intro hspared
      refine ⟨fun hi => hspared _ (.inl rfl) hi.symm agentId (by simp), ?_⟩
      intro e he hi a ha
      by_cases he' : e.1 = index
      · -- the entry is the one that was extended
        have heq : e = found :=
          inj_on_of_nodup_map c.deletesByQuery.nodup_keys he hfound (he'.trans hkey.symm)
        exact hspared _ (.inl rfl) (he' ▸ hi) a (by simp [← heq, ha])
      · exact hspared e (.inr ⟨he, he'⟩) hi a ha
    · rintro ⟨hnew, hold⟩ e (rfl | ⟨he, -⟩) hi
      · intro a ha
        rcases mem_append.1 ha with ha | ha
        · exact hold found hfound (hkey.trans hi) a ha
        · rw [mem_singleton.1 ha]
          exact hnew hi.symm
      · exact hold e he hi

section

variable (h : Aligned s) (agentOf : Text → Option Text)

include h

theorem deleteByQuery (index agentId : Text) :
    let t : Indexing := ⟨s.connector.deleteByQuery index agentId, s.operations⟩
    Aligned t ∧ (t.settled agentOf = (s.settled agentOf).removeAgents agentOf index [agentId] ↔
      ¬ Contents.LeavesDocument agentOf s.pending index agentId) := by
  intro t
  refine ⟨{ h with }, ?_⟩
  have hsettled : t.settled agentOf = (((s.contents agentOf).removeAll agentOf
      s.connector.deletesByQuery.entries).removeAgents agentOf index [agentId]).writeAll
        s.pending := by
    -- one more agent for an index is one more request
    refine congrArg (Contents.writeAll · s.pending) (funext fun i => funext fun id => ?_)
    rw [Contents.removeAll_apply, Contents.removeAgents_apply, Contents.removeAll_apply,
      Option.filter_filter]
    simp only [t, ← Bool.decide_and, spared_deleteByQuery, forall_mem_singleton, and_comm]
    rfl
  rw [hsettled]
  exact Contents.removeAgents_writeAll_iff agentOf _ s.pending index agentId

/-- Sending what is collected settles the indexes. -/
theorem processBulk (hsome : s.connector.bulkData ≠ [] ∨ s.connector.deletesByQuery.entries ≠ []) :
    ∃ c, s.connector.granted.processBulk = .done c ∧ Aligned ⟨c, s.operations⟩ ∧
      contents agentOf ⟨c, s.operations⟩ = s.settled agentOf ∧
      settled agentOf ⟨c, s.operations⟩ = s.settled agentOf := by
  obtain ⟨rest, hresult⟩ := processBulk_granted h.running h.notify hsome
  exact ⟨_, hresult, h.sent rest⟩

/-- The buffer may be sent before the operation is appended; if it is too small for the operation
and there is nothing to send the call throws. -/
theorem perform (call : BulkCall) :
    ∃ t, s.step maxBulkSize (.write call) = some t ∧ Aligned t ∧
      (t.settled agentOf = (s.settled agentOf).write call ↔
        KeepsOrder maxBulkSize agentOf s (.write call)) := by
  have hissue : s.connector.granted.issue maxBulkSize (.write call) =
      s.connector.granted.appendBounded maxBulkSize (call.text.length - 1) call.text :=
    perform_eq maxBulkSize s.connector.granted call
  by_cases hlong : maxBulkSize < s.connector.bulkData.length + (call.text.length - 1)
  · by_cases hnothing : s.connector.bulkData = [] ∧ s.connector.deletesByQuery.entries = []
    · -- `processBulk` throws and the operation is not appended
      have hthrown : s.connector.granted.processBulk =
          .thrown "No data to process" s.connector.granted := if_pos hnothing
      refine ⟨⟨s.connector.granted, s.operations⟩, ?_, h.granted, ?_⟩
      · rw [Indexing.step, hissue, appendBounded, bulkData_granted, if_pos hlong, hthrown]
        rfl
      · have hsettled : settled agentOf ⟨s.connector.granted, s.operations⟩ =
            s.settled agentOf := rfl
        rw [hnothing.1, length_nil, Nat.zero_add] at hlong
        rw [hsettled]
        constructor
        · intro heq _ _ _
          rw [heq]
          simp [Contents.write]
        · intro hkeeps
          have hpoint := hkeeps hlong hnothing.1 hnothing.2
          ext1 index id
          rw [Contents.write]
          split_ifs with htarget
          · rw [← htarget.1, ← htarget.2, hpoint]
          · rfl
    · obtain ⟨c, hdone, haligned, -, hsettled⟩ := h.processBulk agentOf (not_and_or.1 hnothing)
      obtain ⟨happended, hwritten⟩ := haligned.append agentOf call
      refine ⟨_, ?_, happended, ?_⟩
      · rw [Indexing.step, hissue, appendBounded, bulkData_granted, if_pos hlong, hdone]
        rfl
      · rw [hwritten, hsettled]
        exact iff_of_true rfl fun _ hempty hdeletes => absurd ⟨hempty, hdeletes⟩ hnothing
  · obtain ⟨happended, hwritten⟩ := h.granted.append agentOf call
    refine ⟨_, ?_, happended, ?_⟩
    · rw [Indexing.step, hissue, appendBounded, bulkData_granted, if_neg hlong]
      rfl
    · refine iff_of_true hwritten fun htoo hempty _ => absurd ?_ hlong
      rw [hempty, length_nil, Nat.zero_add]
      exact htoo

end

section

variable (h : Aligned s) (maxBulkSize : Nat) (agentOf : Text → Option Text)

include h

theorem flush :
    ∃ t, s.step maxBulkSize .flush = some t ∧ Aligned t ∧ t.contents agentOf = s.settled agentOf ∧
      t.settled agentOf = s.settled agentOf := by
  by_cases hsome : s.connector.bulkData ≠ [] ∨ s.connector.deletesByQuery.entries ≠ []
  · obtain ⟨c, hdone, haligned, hcontents, hsettled⟩ := h.processBulk agentOf hsome
    refine ⟨⟨c, s.operations⟩, ?_, haligned, hcontents, hsettled⟩
    have hflush : s.connector.granted.flush = .done c := (if_pos hsome).trans hdone
    simp [Indexing.step, issue, hflush, IndexCall.operations]
  · have hflush : s.connector.granted.flush = .done s.connector.granted := if_neg hsome
    simp only [ne_eq, not_or, not_not] at hsome
    refine ⟨⟨s.connector.granted, s.operations⟩, ?_, h.granted, ?_, rfl⟩
    · simp [Indexing.step, issue, hflush, IndexCall.operations]
    · have hpending : s.pending = [] := by
        rw [pending, h.buffered_eq_nil hsome.1]
        simp
      rw [settled, hpending, hsome.2]
      rfl

theorem timer :
    ∃ t, s.step maxBulkSize .timer = some t ∧ Aligned t ∧
      t.settled agentOf = s.settled agentOf := by
  by_cases hdata : s.connector.bulkData = []
  · refine ⟨⟨s.connector.granted, s.operations⟩, ?_, h.granted, rfl⟩
    simp [Indexing.step, issue, Connector.timer, hdata, IndexCall.operations]
  · obtain ⟨c, hdone, haligned, -, hsettled⟩ := h.processBulk agentOf (.inl hdata)
    refine ⟨⟨c, s.operations⟩, ?_, haligned, hsettled⟩
    simp [Indexing.step, issue, Connector.timer, hdata, hdone, IndexCall.operations]

/-- Every call is answered, and it changes the settled contents as it says exactly if it keeps the
order. -/
theorem settled_step_iff (call : IndexCall) :
    ∃ t, s.step maxBulkSize call = some t ∧ Aligned t ∧
      (t.settled agentOf = (s.settled agentOf).apply agentOf call ↔
        KeepsOrder maxBulkSize agentOf s call) := by
  cases call with
  | deleteByQuery index agentId =>
    obtain ⟨haligned, hsettled⟩ := h.granted.deleteByQuery agentOf index agentId
    refine ⟨_, ?_, haligned, hsettled⟩
    simp [Indexing.step, issue, IndexCall.operations]
  | write call => exact h.perform agentOf call
  | flush =>
    obtain ⟨t, hstep, haligned, -, hsettled⟩ := h.flush maxBulkSize agentOf
    exact ⟨t, hstep, haligned, iff_of_true hsettled trivial⟩
  | timer =>
    obtain ⟨t, hstep, haligned, hsettled⟩ := h.timer maxBulkSize agentOf
    exact ⟨t, hstep, haligned, iff_of_true hsettled trivial⟩

end

end Aligned

/-! ## Runs -/

section Runs

variable {maxBulkSize : Nat} {agentOf : Text → Option Text}

/-- No call blocks the run. -/
theorem exists_run (maxBulkSize : Nat) {s : Indexing} (h : Aligned s) (calls : List IndexCall) :
    ∃ t, (indexSystem maxBulkSize).runFrom s calls = some t ∧ Aligned t := by
  refine (indexSystem maxBulkSize).exists_runFrom (fun s call hs => ?_) h calls
  obtain ⟨t, hstep, ht, -⟩ := hs.settled_step_iff maxBulkSize (fun _ => none) call
  exact ⟨t, hstep, ht⟩

/-- A flush leaves the settled contents. -/
theorem flush_contents {calls : List IndexCall} {t : Indexing}
    (hrun : (indexSystem maxBulkSize).run calls = some t) :
    contentsAfter maxBulkSize agentOf calls = some (t.settled agentOf) := by
  obtain ⟨t', hrun', ht⟩ := exists_run maxBulkSize Aligned.init calls
  cases hrun'.symm.trans hrun
  obtain ⟨u, hstep, -, hcontents, -⟩ := ht.flush maxBulkSize agentOf
  have hall : (indexSystem maxBulkSize).run (calls ++ [.flush]) = some u :=
    (indexSystem maxBulkSize).runFrom_append_eq_some.2
      ⟨t, hrun, (indexSystem maxBulkSize).runFrom_cons_eq_some.2 ⟨u, hstep, rfl⟩⟩
  rw [contentsAfter, hall, Option.map_some, hcontents]

/-- Step by step: the settled contents follow the calls up to every point exactly if every step
keeps the order. -/
theorem settled_run_iff (maxBulkSize : Nat) (agentOf : Text → Option Text) {s : Indexing}
    (h : Aligned s) (calls : List IndexCall) :
    (∀ p, p <+: calls → ∀ t, (indexSystem maxBulkSize).runFrom s p = some t →
        t.settled agentOf = p.foldl (Contents.apply agentOf) (s.settled agentOf)) ↔
      (indexSystem maxBulkSize).StepsMeet (KeepsOrder maxBulkSize agentOf) s calls := by
  induction calls generalizing s with
  | nil =>
    refine iff_of_true ?_ trivial
    intro p hp t hrun
    rw [prefix_nil.1 hp] at hrun ⊢
    cases hrun
    rfl
  | cons call calls ih =>
    obtain ⟨t, hstep, ht, hkeeps⟩ := h.settled_step_iff maxBulkSize agentOf call
    have hcons : ∀ {p u}, (indexSystem maxBulkSize).runFrom t p = some u →
        (indexSystem maxBulkSize).runFrom s (call :: p) = some u := fun hrun =>
      (indexSystem maxBulkSize).runFrom_cons_eq_some.2 ⟨t, hstep, hrun⟩
    constructor
    · intro hall
      have hfirst : t.settled agentOf = (s.settled agentOf).apply agentOf call :=
        hall [call] ⟨calls, rfl⟩ t (hcons rfl)
      refine ⟨hkeeps.1 hfirst, ?_⟩
      intro t' hstep'
      cases hstep.symm.trans hstep'
      apply (ih ht).1
      intro p hp u hrun
      rw [hall (call :: p) (cons_prefix_cons.2 ⟨rfl, hp⟩) u (hcons hrun), hfirst]
      rfl
    · rintro ⟨hfirst, hrest⟩ p hp u hrun
      cases p with
      | nil =>
        cases hrun
        rfl
      | cons call' p =>
        obtain ⟨rfl, htail⟩ := cons_prefix_cons.1 hp
        obtain ⟨t', hstep', hrun⟩ := (indexSystem maxBulkSize).runFrom_cons_eq_some.1 hrun
        cases hstep.symm.trans hstep'
        rw [(ih ht).2 (hrest t hstep) p htail u hrun, hkeeps.2 hfirst]
        rfl

end Runs

/-- **The indexes follow the calls** at every point exactly if every call keeps the order: it
deletes no document of an agent by query while the buffer leaves one, and it is not refused. -/
theorem indexes_follow_calls_iff (maxBulkSize : Nat) (agentOf : Text → Option Text)
    (calls : List IndexCall) :
    (∀ p, p <+: calls → contentsAfter maxBulkSize agentOf p = some (inOrder agentOf p)) ↔
      (indexSystem maxBulkSize).StepsMeet (KeepsOrder maxBulkSize agentOf)
        (indexSystem maxBulkSize).init calls := by
  have hempty : Indexing.settled agentOf ⟨Connector.init, []⟩ = Contents.empty := rfl
  have hiff := settled_run_iff maxBulkSize agentOf Aligned.init calls
  refine Iff.trans ?_ hiff
  constructor
  · intro hall p hp t hrun
    exact Option.some.inj ((flush_contents hrun).symm.trans (hall p hp))
  · intro hall p hp
    obtain ⟨t, hrun, -⟩ := exists_run maxBulkSize Aligned.init p
    rw [flush_contents hrun, hall p hp t hrun]
    rfl

/-- The `agent.id` of a document that starts with it, as those of the inventory synchronisation
do. -/
def agentIdOf (document : Text) : Option Text :=
  let opening := "\x7b\"agent\":\x7b\"id\":\"".toList
  if opening.isPrefixOf document then
    some ((document.drop opening.length).takeWhile fun ch => ch ≠ '"')
  else none

/-- A document of agent `007`. -/
def agentDocument : Text := "\x7b\"agent\":\x7b\"id\":\"007\"\x7d\x7d".toList

/-- A document of an incremental session, then the deletion that starts a full session of the
agent. -/
def overtakenCalls : List IndexCall :=
  [.write (.bulkIndex "old".toList "packages".toList agentDocument),
    .deleteByQuery "packages".toList "007".toList]

/-- The deletion is sent first and the document stays; and in a buffer that is too small for it the
document is refused. -/
theorem deletion_overtakes_document :
    ((contentsAfter 1000 agentIdOf overtakenCalls).map fun s => s "packages".toList "old".toList) =
        some (some agentDocument) ∧
      inOrder agentIdOf overtakenCalls "packages".toList "old".toList = none ∧
      ((contentsAfter 50 agentIdOf (overtakenCalls.take 1)).map fun s =>
        s "packages".toList "old".toList) = some none ∧
      inOrder agentIdOf (overtakenCalls.take 1) "packages".toList "old".toList =
        some agentDocument := by
  decide +kernel

/-- A full session after the earlier document was sent. -/
def fullSessionCalls : List IndexCall :=
  [.write (.bulkIndex "old".toList "packages".toList agentDocument), .flush,
    .deleteByQuery "packages".toList "007".toList,
    .write (.bulkIndex "new".toList "packages".toList agentDocument)]

/-- The full session replaces the documents of the agent. -/
theorem indexes_follow_calls_iff_fullSession :
    contentsAfter 1000 agentIdOf fullSessionCalls = some (inOrder agentIdOf fullSessionCalls) ∧
      inOrder agentIdOf fullSessionCalls "packages".toList "old".toList = none ∧
      inOrder agentIdOf fullSessionCalls "packages".toList "new".toList = some agentDocument := by
  refine ⟨?_, by decide +kernel, by decide +kernel⟩
  exact (indexes_follow_calls_iff 1000 agentIdOf fullSessionCalls).2 (by decide +kernel) _
    (List.prefix_refl _)

end WazAISentinel.IndexerConnector
