import WazAISentinel.Foundations.TransitionSystem
import WazAISentinel.InventorySync.AgentSession

/-!
# The inventory sync facade of the manager

Model of `inventorySyncFacade.hpp`: the workers that run incoming messages, the thread that takes
responses from the indexer queue and hands the stored chunks of a session to the connector, the
callback the connector invokes when the data is indexed, and the thread that drops idle sessions. A
run of `facadeSystem` is an arbitrary interleaving of these.

The connector may throw at any bulk call (`accepted` is the number of bulk calls it takes before
that) and invokes registered callbacks in their order, at any time. An iteration over the store
reads the store as it was at its start, so a callback invoked during the iteration acts as one that
follows it.
-/

namespace WazAISentinel.InventorySync

open Foundations

/-- An incoming buffer: one of the message types `run` accepts, another type of the union, or a
buffer that the verifier rejects. -/
inductive SyncMessage where
  | data (message : DataMessage)
  | start (message : StartMessage)
  | finish (session : Nat)
  | otherType
  | invalidBuffer
  deriving DecidableEq, Repr

/-- A call to the indexer connector. -/
inductive IndexerCall where
  | deleteByQuery (index agentId : String)
  | bulkIndex (id index data : String)
  | bulkDelete (id index : String)
  deriving DecidableEq, Repr

/-- A call that the connector took, with the session and the chunk it was made for. -/
structure Indexed where
  context : Context
  chunk : Option DataMessage
  call : IndexerCall
  deriving DecidableEq, Repr

/-- `m_agentSessions`, what the sessions share, the callbacks registered and not invoked yet, and
the calls the connector took. -/
structure Facade where
  sessions : Nat → Option AgentSession
  shared : Shared
  notify : List Context
  indexed : List Indexed

namespace Facade

section

variable (f : Facade)

/-- `m_agentSessions` with `sessionId` bound to `s`. -/
def bind (sessionId : Nat) (s : AgentSession) (sh : Shared) : Facade :=
  { f with sessions := fun id => if id = sessionId then some s else f.sessions id, shared := sh }

/-- `std::erase_if` on `m_agentSessions`. -/
def eraseIf (expired : Nat → Bool) : Facade :=
  { f with sessions := fun id => if expired id then none else f.sessions id }

/-! ## Incoming messages -/

/-- `run` on a data message. -/
def runData (data : DataMessage) : Facade × Option String :=
  match f.sessions data.session with
  | none => (f, none)
  | some s =>
    let r := s.handleData data f.shared
    (f.bind data.session r.1 r.2.1, r.2.2)

/-- `run` on a start message: the availability of the indexer and the session id drawn are
inputs. -/
def runStart (info : AgentInfo) (start : StartMessage) (available : Bool)
    (drawn : Nat) : Facade × Option String :=
  if !available then
    let sh := f.shared.send info.id info.moduleName (.startAck .offline (wordCount - 1))
    ({ f with shared := sh }, none)
  else if (f.sessions drawn).isSome then (f, some "Session already exists")
  else
    match AgentSession.new drawn info start f.shared with
    | (.ok s, sh) => (f.bind drawn s sh, none)
    | (.error e, sh) => ({ f with shared := sh }, some e)

/-- `run` on an end message. -/
def runEnd (session : Nat) : Facade × Option String :=
  match f.sessions session with
  | none => (f, none)
  | some s =>
    let r := s.handleEnd f.shared
    (f.bind session r.1 r.2, none)

/-- `InventorySyncFacadeImpl::run`: the facade and the text of the exception, which is logged. -/
def run (info : AgentInfo) (message : SyncMessage) (available : Bool) (drawn : Nat) :
    Facade × Option String :=
  match message with
  | .data data => f.runData data
  | .start start => f.runStart info start available drawn
  | .finish session => f.runEnd session
  | .otherType => (f, some "Invalid message type")
  | .invalidBuffer => (f, some "Invalid message buffer")

/-! ## The indexer queue -/

section

variable (clusterName : String)

/-- The document id in the indexer. -/
def elementId (ctx : Context) (data : DataMessage) : String :=
  clusterName ++ "_" ++ ctx.agentId ++ "_" ++ data.id

/-- The document: the agent and cluster fields, then the data without its first byte. -/
def dataString (ctx : Context) (data : DataMessage) : String :=
  "\x7b\"agent\":\x7b\"id\":\"" ++ ctx.agentId ++ "\",\"name\":\"" ++ ctx.agentName ++
    "\", \"version\":\"" ++ ctx.agentVersion ++
      "\"\x7d,\"wazuh\":\x7b\"cluster\":\x7b\"name\":\"" ++
    clusterName ++ "\"\x7d\x7d," ++ String.ofList (data.data.toList.drop 1)

/-- The connector call for one chunk. Empty upsert data gives a view of length `size - 1` that
wraps, which `append` refuses. -/
def chunkCall (ctx : Context) (data : DataMessage) :
    Except String IndexerCall :=
  match data.operation with
  | .upsert =>
    if data.data = "" then .error "basic_string::append"
    else .ok (.bulkIndex (elementId clusterName ctx data) data.index
      (dataString clusterName ctx data))
  | .delete => .ok (.bulkDelete (elementId clusterName ctx data) data.index)
  | .other _ => .error "Invalid operation"

/-- The loop over the chunks of a session: the calls the connector took, and whether the loop ended
without an exception. -/
def indexChunks (ctx : Context) :
    Option Nat → List DataMessage → List Indexed × Bool
  | _, [] => ([], true)
  | some 0, _ :: _ => ([], false)
  | accepted, data :: rest =>
    match chunkCall clusterName ctx data with
    | .error _ => ([], false)
    | .ok call =>
      let r := indexChunks ctx (accepted.map (· - 1)) rest
      (⟨ctx, some data, call⟩ :: r.1, r.2)

end

/-- The end of a session, the same in the callback and in both exception handlers: acknowledge,
delete the chunks, erase the session. -/
def close (status : Status) (ctx : Context) : Facade :=
  let sh := f.shared.send ctx.agentId ctx.moduleName (.endAck status ctx.sessionId)
  { f with
    sessions := fun id => if id = ctx.sessionId then none else f.sessions id
    shared := { sh with store := deleteByPrefix sh.store (decimal ctx.sessionId) } }

/-- The chunks the loop walks over. -/
def chunks (sessionId : Nat) : List DataMessage :=
  (f.shared.store.scan (chunkPrefix sessionId)).map Prod.snd

end

/-- The deletion that precedes the chunks of a full synchronization. -/
def fullDeletion (ctx : Context) : List Indexed :=
  if ctx.mode = .full then [⟨ctx, none, .deleteByQuery ctx.moduleName ctx.agentId⟩] else []

/-- The calls the connector takes for one response, and whether no exception was thrown. -/
def indexCalls (clusterName : String) (f : Facade) (ctx : Context) (accepted : Option Nat) :
    List Indexed × Bool :=
  let r := indexChunks clusterName ctx accepted (f.chunks ctx.sessionId)
  (fullDeletion ctx ++ r.1, r.2)

/-- The facade with further calls taken by the connector. -/
def record (f : Facade) (calls : List Indexed) : Facade := { f with indexed := f.indexed ++ calls }

/-- `registerNotify`. -/
def registerNotify (f : Facade) (ctx : Context) : Facade := { f with notify := f.notify ++ [ctx] }

/-- The action of the indexer queue on one response. -/
def indexResponse (clusterName : String) (f : Facade) (ctx : Context) (accepted : Option Nat) :
    Facade :=
  match f.sessions ctx.sessionId with
  | none => f
  | some _ =>
    let r := f.indexCalls clusterName ctx accepted
    if r.2 then (f.record r.1).registerNotify ctx else (f.record r.1).close .error ctx

end Facade

/-! ## Runs -/

/-- What can happen in the manager. The events of the indexer thread and of the callbacks carry the
session they are about. -/
inductive FacadeEvent where
  | message (info : AgentInfo) (message : SyncMessage) (available : Bool) (drawn : Nat)
  | index (session : Nat) (accepted : Option Nat)
  | notify (session : Nat)
  | timeout (expired : List Nat)
  deriving DecidableEq, Repr

/-- One event. The indexer thread takes the first response of its queue, the connector invokes the
first registered callback. -/
def Facade.step (clusterName : String) (f : Facade) : FacadeEvent → Option Facade
  | .message info message available drawn => some (f.run info message available drawn).1
  | .index session accepted =>
    match f.shared.indexerQueue with
    | [] => none
    | response :: rest =>
      if response.context.sessionId = session then
        some ({ f with shared := { f.shared with indexerQueue := rest } }.indexResponse
          clusterName response.context accepted)
      else none
  | .notify session =>
    match f.notify with
    | [] => none
    | ctx :: rest =>
      if ctx.sessionId = session then some ({ f with notify := rest }.close .ok ctx) else none
  | .timeout expired => some (f.eraseIf fun id => expired.contains id)

/-- A facade that has just started: the store directory is removed first. -/
def Facade.init : Facade := ⟨fun _ => none, .empty, [], []⟩

/-- The manager as a transition system. -/
def facadeSystem (clusterName : String) : TransitionSystem Facade FacadeEvent :=
  ⟨Facade.init, Facade.step clusterName⟩

namespace Facade

variable {clusterName : String} {f f' : Facade} {session : Nat}

/-- The state in which the indexer thread handles a response: the response is off the queue. -/
def popResponse (f : Facade) : Facade :=
  { f with shared := { f.shared with indexerQueue := f.shared.indexerQueue.tail } }

/-- The state in which a callback runs: it is off the list. -/
def popNotify (f : Facade) : Facade := { f with notify := f.notify.tail }

@[simp] theorem sessions_popResponse : f.popResponse.sessions = f.sessions := rfl

theorem indexCalls_popResponse (ctx : Context) (accepted : Option Nat) :
    f.popResponse.indexCalls clusterName ctx accepted = f.indexCalls clusterName ctx accepted :=
  rfl

theorem step_index_iff {accepted : Option Nat} :
    f.step clusterName (.index session accepted) = some f' ↔
      ∃ response, f.shared.indexerQueue.head? = some response ∧
        response.context.sessionId = session ∧
        f.popResponse.indexResponse clusterName response.context accepted = f' := by
  unfold popResponse
  simp only [step]
  cases f.shared.indexerQueue with
  | nil => simp
  | cons response rest => by_cases h : response.context.sessionId = session <;> simp [h]

theorem step_notify_iff :
    f.step clusterName (.notify session) = some f' ↔
    ∃ ctx, f.notify.head? = some ctx ∧ ctx.sessionId = session ∧
      f.popNotify.close .ok ctx = f' := by
  unfold popNotify
  simp only [step]
  cases f.notify with
  | nil => simp
  | cons ctx rest => by_cases h : ctx.sessionId = session <;> simp [h]

/-- A response of a session that is gone is dropped; otherwise all chunks are handed over and the
callback is registered, or an exception ends the session. -/
theorem indexResponse_elim {P : Facade → Prop} {ctx : Context} {accepted : Option Nat}
    (hgone : f.sessions ctx.sessionId = none → P f)
    (hdone : (f.sessions ctx.sessionId).isSome = true → (f.indexCalls clusterName ctx accepted).2 =
    true → P ((f.record (f.indexCalls clusterName ctx accepted).1).registerNotify ctx))
    (hfails : (f.sessions ctx.sessionId).isSome = true → (f.indexCalls clusterName ctx accepted).2 =
    false → P ((f.record (f.indexCalls clusterName ctx accepted).1).close .error ctx)) :
    P (f.indexResponse clusterName ctx accepted) := by
  unfold indexResponse
  cases hs : f.sessions ctx.sessionId with
  | none => exact hgone hs
  | some s =>
    rw [hs] at hdone hfails
    dsimp only
    split
    · exact hdone rfl ‹_›
    · exact hfails rfl (Bool.eq_false_iff.2 ‹_›)

/-- What a message does: it is ignored, handled by the session it names, answered, or opens a
session. -/
inductive Ran (f : Facade) (info : AgentInfo) (available : Bool) (drawn : Nat) : SyncMessage →
    Facade → Prop where
  | ignored (message : SyncMessage) : Ran f info available drawn message f
  | stored {data : DataMessage} {s s' : AgentSession} {pushed : List Response}
      (hs : f.sessions data.session = some s)
      (hctx : s'.context = s.context) (hpushed : ∀ r ∈ pushed, r.context = s.context) :
      Ran f info available drawn (.data data)
        (f.bind data.session s'
          ((f.shared.put (chunkKey data.session data.seq) data).extend pushed []))
  | ended {session : Nat} {s s' : AgentSession} {pushed : List Response}
      {sent : List ResponseMessage}
      (hs : f.sessions session = some s) (hctx : s'.context = s.context)
        (hpushed : ∀ r ∈ pushed, r.context = s.context) :
      Ran f info available drawn (.finish session) (f.bind session s' (f.shared.extend pushed sent))
  | answered {start : StartMessage} {sent : List ResponseMessage}
      (hreply : ∀ m ∈ sent, ∀ status id, m.reply ≠ .endAck status id) :
      Ran f info available drawn (.start start) { f with shared := f.shared.extend [] sent }
  | opened {start : StartMessage} {s : AgentSession} {sent : List ResponseMessage}
      (hnone : f.sessions drawn = none)
      (havailable : available = true) (hid : s.context.sessionId = drawn)
        (hagent : s.context.agentId = padAgentId info.id)
      (hgap : s.gapSet = GapSet.new start.size)
        (hreply : ∀ m ∈ sent, ∀ status id, m.reply ≠ .endAck status id) :
      Ran f info available drawn (.start start) (f.bind drawn s (f.shared.extend [] sent))

theorem run_spec (f : Facade) (info : AgentInfo) (message : SyncMessage) (available : Bool)
    (drawn : Nat) : Ran f info available drawn message (f.run info message available drawn).1 := by
  cases message with
  | data data =>
    simp only [run, runData]
    cases hs : f.sessions data.session with
    | none => exact .ignored _
    | some s =>
      obtain ⟨s', pushed, err, hctx, hpushed, hcall⟩ := s.handleData_eq_extend data
      simp only [hcall]
      exact .stored hs hctx hpushed
  | start start =>
    simp only [run, runStart]
    split
    · rw [Shared.send_eq_extend]
      exact .answered (by simp)
    · rename_i havailable
      split_ifs with hnone
      · exact .ignored _
      · obtain ⟨result, sent, hnew, hreply, hcall⟩ := AgentSession.new_eq_extend drawn info start
        simp only [hcall]
        cases result with
        | error e => exact .answered hreply
        | ok s =>
          obtain ⟨hid, hagent, hgap⟩ := hnew s rfl
          exact .opened (by simpa using hnone) (by simpa using havailable) hid hagent hgap hreply
  | finish session =>
    simp only [run, runEnd]
    cases hs : f.sessions session with
    | none => exact .ignored _
    | some s =>
      obtain ⟨s', pushed, sent, hctx, hpushed, hcall⟩ := s.handleEnd_eq_extend
      simp only [hcall]
      exact .ended hs hctx hpushed
  | otherType | invalidBuffer => exact .ignored _

end Facade

end WazAISentinel.InventorySync
