import WazAISentinel.InventorySync.Facade
import WazAISentinel.SyncProtocol.AgentSyncProtocol

/-!
# A synchronization round of the agent

Model of `synchronizeModule`, `sendStartAndWaitAck`, `sendDataMessages`, `sendEndAndWaitAck` and
`parseResponseBuffer`. Two threads share `SyncState`: the one that runs the round, whose place in
the code is a `Location`, and the one that parses the replies of the manager. Every section under
the mutex, every message sent and every unguarded read of the session is a step of its own.

A wait ends when its condition holds or the timeout passes; in both cases it returns the value of
the condition. Sending a message may fail; that is an input of the step.
-/

namespace WazAISentinel.SyncProtocol

open Foundations InventorySync

/-- `SyncPhase`. -/
inductive SyncPhase where
  | idle
  | waitingStartAck
  | waitingEndAck
  deriving DecidableEq, Repr

/-- `SyncState`. -/
structure SyncState where
  startAckReceived : Bool
  endAckReceived : Bool
  reqRetReceived : Bool
  syncFailed : Bool
  reqRetRanges : List (Nat × Nat)
  phase : SyncPhase
  session : Nat
  deriving DecidableEq, Repr

namespace SyncState

/-- `SyncState::reset`. -/
def reset : SyncState := ⟨false, false, false, false, [], .idle, 0⟩

/-- The statuses that make a round fail. -/
def refused (status : Status) : Bool := status = .error || status = .offline

/-- `validatePhaseAndSession`. -/
def validatePhaseAndSession (st : SyncState) (receivedPhase : SyncPhase) (incomingSession : Nat) :
    Bool :=
  st.phase = receivedPhase && st.session = incomingSession

/-- `parseResponseBuffer` on a reply: a `StartAck` is accepted by phase only, an `EndAck` and a
`ReqRet` by phase and session. -/
def parseResponse (st : SyncState) : Reply → SyncState
  | .startAck status session =>
    if st.phase = .waitingStartAck then
      if refused status then { st with syncFailed := true }
      else { st with session := session, startAckReceived := true }
    else st
  | .endAck status session =>
    if st.validatePhaseAndSession .waitingEndAck session then
      if refused status then { st with syncFailed := true }
      else { st with endAckReceived := true }
    else st
  | .reqRet ranges session =>
    if st.validatePhaseAndSession .waitingEndAck session then
      { st with reqRetRanges := ranges, reqRetReceived := true }
    else st

end SyncState

/-- The place of the synchronizing thread. Where the code has passed the session by value, the
location carries it. -/
inductive Location where
  | idle
  | sendStart (attempt : Nat)
  | waitStartAck (attempt : Nat)
  | checkStartAck
  | readSession
  | sendData (session : Nat) (rest : List PersistedData)
  | readSessionAgain
  | enterEnd (session : Nat)
  | sendEnd (session attempt : Nat) (sendEnd : Bool)
  | waitEndAck (session attempt : Nat) (sendEnd : Bool)
  | checkFailed (session attempt : Nat) (sendEnd : Bool)
  | checkReqRet (session attempt : Nat) (sendEnd : Bool)
  | resendData (session attempt : Nat) (rest : List PersistedData)
  | checkEndAck (session attempt : Nat) (sendEnd : Bool)
  | finished (success : Bool)
  deriving DecidableEq, Repr

/-- The agent: the shared state, the place in the code and the locals of `synchronizeModule`. -/
structure Agent where
  sync : SyncState
  location : Location
  mode : Mode
  retries : Nat
  dataToSync : List PersistedData
  deriving DecidableEq, Repr

/-- The operation on the wire: only `DELETE_` is a deletion. -/
def protocolOperation : Operation → WireOperation
  | .delete => .delete
  | _ => .upsert

/-- The data message `sendDataMessages` builds for an item. -/
def dataMessage (session : Nat) (item : PersistedData) : DataMessage :=
  ⟨item.seq, session, protocolOperation item.operation, item.id, item.index, item.data⟩

namespace Agent

variable (a : Agent)

/-- The next round of the loop that sends the start message. -/
def retryStart (attempt : Nat) : Agent :=
  { a with
    location := if attempt + 1 ≤ a.retries then .sendStart (attempt + 1) else .finished false }

/-- The next round of the loop that sends the end message. -/
def retryEnd (session attempt : Nat) (sendEnd : Bool) : Agent :=
  { a with
    location := if attempt + 1 ≤ a.retries then .sendEnd session (attempt + 1) sendEnd
      else .finished false }

/-- The start message; the size is cast to a 64-bit word. -/
def startMessage : StartMessage :=
  ⟨a.mode, a.dataToSync.length % wordCount, Nat.mod_lt _ (by decide)⟩

/-- A call of `synchronizeModule` that fetches something: the state is cleared, the items are
numbered (by a `size_t`) and the phase is set. -/
def start (mode : Mode) (retries : Nat) (fetched : List PersistedData) : Option Agent :=
  if a.location = .idle ∧ fetched ≠ [] ∧ fetched.length < wordCount then
    some ⟨{ SyncState.reset with phase := .waitingStartAck }, .sendStart 0, mode, retries,
      assignSeq fetched⟩
  else none

/-- The section that takes over a `ReqRet`, and what follows from its ranges. -/
def takeReqRet (session attempt : Nat) (sendEnd : Bool) : Agent :=
  if a.sync.reqRetReceived then
    let ranges := a.sync.reqRetRanges
    let rangeData := filterDataByRanges a.dataToSync ranges
    { a with
      sync := { a.sync with reqRetRanges := [], reqRetReceived := false }
      location :=
        if ranges = [] then .finished false
        else if rangeData = [] then .finished false
        else .resendData session attempt rangeData }
  else { a with location := .checkEndAck session attempt sendEnd }

/-- One step of the synchronizing thread, with the message it sends; `ok` tells whether sending
succeeds. -/
def advance (ok : Bool) : Option (Agent × Option SyncMessage) :=
  match a.location with
  | .idle => none
  | .sendStart attempt =>
    if ok then some ({ a with location := .waitStartAck attempt }, some (.start a.startMessage))
    else some (a.retryStart attempt, none)
  | .waitStartAck attempt =>
    if a.sync.startAckReceived || a.sync.syncFailed then
      some ({ a with location := .checkStartAck }, none)
    else some (a.retryStart attempt, none)
  | .checkStartAck =>
    if a.sync.syncFailed then some ({ a with location := .finished false }, none)
    else some ({ a with location := .readSession }, none)
  -- `m_syncState.session` is read without the mutex, here and before the end message
  | .readSession => some ({ a with location := .sendData a.sync.session a.dataToSync }, none)
  | .sendData _ [] => some ({ a with location := .readSessionAgain }, none)
  | .sendData session (item :: rest) =>
    if ok then
      some ({ a with location := .sendData session rest }, some (.data (dataMessage session item)))
    else some ({ a with location := .finished false }, none)
  | .readSessionAgain => some ({ a with location := .enterEnd a.sync.session }, none)
  | .enterEnd session =>
    some ({ a with
      sync := { a.sync with phase := .waitingEndAck }
      location := .sendEnd session 0 true }, none)
  | .sendEnd session attempt true =>
    if ok then
      some ({ a with location := .waitEndAck session attempt true }, some (.finish session))
    else some (a.retryEnd session attempt true, none)
  | .sendEnd session attempt false =>
    some ({ a with location := .waitEndAck session attempt false }, none)
  | .waitEndAck session attempt sendEnd =>
    if a.sync.endAckReceived || a.sync.reqRetReceived || a.sync.syncFailed then
      some ({ a with location := .checkFailed session attempt sendEnd }, none)
    else some (a.retryEnd session attempt sendEnd, none)
  | .checkFailed session attempt sendEnd =>
    if a.sync.syncFailed then some ({ a with location := .finished false }, none)
    else some ({ a with location := .checkReqRet session attempt sendEnd }, none)
  | .checkReqRet session attempt sendEnd => some (a.takeReqRet session attempt sendEnd, none)
  -- after a resend the end message is not sent again
  | .resendData session attempt [] => some (a.retryEnd session attempt false, none)
  | .resendData session attempt (item :: rest) =>
    if ok then
      some ({ a with location := .resendData session attempt rest },
        some (.data (dataMessage session item)))
    else some ({ a with location := .finished false }, none)
  | .checkEndAck session attempt sendEnd =>
    if a.sync.endAckReceived then some ({ a with location := .finished true }, none)
    else some (a.retryEnd session attempt sendEnd, none)
  -- `clearSyncedItems` or `resetSyncingItems`, then `clearSyncState`
  | .finished _ => some ({ a with sync := .reset, location := .idle }, none)

end Agent

end WazAISentinel.SyncProtocol
