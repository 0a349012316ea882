import Mathlib.Data.Char
import WazAISentinel.Foundations.OrderedStore

/-!
# The synchronous indexer connector

`IndexerConnectorSyncImpl`: operations are appended to one text buffer with the positions where they
end, callbacks are kept in a list of their own, and `processBulk` sends the buffer. A request that
is too large is split at the recorded positions, one that meets a conflict or a busy server is sent
again, and any other error is thrown.

A text stands for its bytes, one character a byte. The replies of the server are a list of functions
from requests to answers, one for each request in turn. A call that needs a reply when none is left
has not returned yet (`waiting`). A string view that leaves the buffer is `undefined`.

The fields after `stopping` are not the connector's own. They number the operations and the
callbacks and keep a log, newest entry first, of the answered requests and the invoked callbacks.
-/

namespace WazAISentinel.IndexerConnector

open Foundations

/-- A string, one character a byte. -/
abbrev Text := List Char

/-- `HTTP_CONTENT_LENGTH`. -/
def httpContentLength : Int := 413

/-- `HTTP_VERSION_CONFLICT`. -/
def httpVersionConflict : Int := 409

/-- `HTTP_TOO_MANY_REQUESTS`. -/
def httpTooManyRequests : Int := 429

/-- `FORMATTED_LENGTH`. -/
def formattedLength : Nat := 20 + 8 + 2 + 2 + 1

/-- `DELETE_FORMATTED_LENGTH`. -/
def deleteFormattedLength : Nat := 21 + 9 + 2 + 1

/-- What the server answers: the call of `onSuccess` or of `onError`. -/
inductive Answer where
  | success
  | error (message : String) (status : Int)
  deriving DecidableEq, Repr

/-- A request: `_delete_by_query` on an index with the listed agents, or `_bulk` with a body. -/
inductive Request where
  | deleteByQuery (index : Text) (agentIds : List Text)
  | bulk (body : Text)
  deriving DecidableEq, Repr

/-- An appended operation: its number among all of them, and its text. -/
structure Operation where
  number : Nat
  text : Text
  deriving DecidableEq, Repr

/-- A registered callback: its number, and how many operations were appended before it. -/
structure Callback where
  number : Nat
  after : Nat
  deriving DecidableEq, Repr

/-- An answered request with the operations that lie in its body, or an invoked callback. -/
inductive Entry where
  | answered (request : Request) (operations : List Nat) (answer : Answer)
  | invoked (callback : Callback)
  deriving DecidableEq, Repr

/-- The connector's members, then the numbering, the log and the replies still to come. -/
structure Connector where
  bulkData : Text
  boundaries : List Nat
  deletesByQuery : OrderedStore Char (List Text)
  notify : List Callback
  stopping : Bool
  buffered : List Operation
  appended : Nat
  registered : Nat
  log : List Entry
  replies : List (Request → Answer)

/-- How a call ends. -/
inductive Outcome where
  | done (c : Connector)
  | thrown (message : String) (c : Connector)
  | waiting
  | undefined

/-- The next statement runs when the one before returned. -/
def Outcome.andThen : Outcome → (Connector → Outcome) → Outcome
  | .done c, next => next c
  | .thrown message c, _ => .thrown message c
  | .waiting, _ => .waiting
  | .undefined, _ => .undefined

/-- The operations that lie between two positions; `position` is where the first of them starts. -/
def coveredFrom (start stop : Nat) : Nat → List Operation → List Nat
  | _, [] => []
  | position, op :: ops =>
    let rest := coveredFrom start stop (position + op.text.length) ops
    if start ≤ position ∧ position + op.text.length ≤ stop then op.number :: rest else rest

namespace Connector

/-- A connector without data. -/
def init : Connector := ⟨[], [], .empty, [], false, [], 0, 0, [], []⟩

section

variable (c : Connector)

/-- `m_bulkData.clear()`. -/
def clearData : Connector := { c with bulkData := [], buffered := [] }

/-- `m_boundaries.clear()`. -/
def clearBoundaries : Connector := { c with boundaries := [] }

/-- Every callback is invoked in turn, then `m_notify.clear()`. -/
def notifyAll : Connector :=
  { c with notify := [], log := (c.notify.map Entry.invoked).reverse ++ c.log }

/-- `m_httpRequest->post`; the answer goes to `handler`. -/
def post (request : Request) (operations : List Nat)
    (handler : Answer → Connector → Outcome) : Outcome :=
  match c.replies with
  | [] => .waiting
  | reply :: rest =>
    handler (reply request)
      { c with replies := rest, log := .answered request operations (reply request) :: c.log }

/-- A `_bulk` request with the part of the buffer between two positions. -/
def postSlice (start stop : Nat) (handler : Answer → Connector → Outcome) : Outcome :=
  if start ≤ stop ∧ stop ≤ c.bulkData.length then
    c.post (.bulk ((c.bulkData.take stop).drop start)) (coveredFrom start stop 0 c.buffered) handler
  else .undefined

end

/-- Both halves of a split are views of the whole buffer: the first starts at its beginning and the
second ends at its end, as in the source. Each round sends one request, so `fuel` above the number
of replies is never used up. -/
def processBulkChunk : Nat → Connector → Nat → Nat → List Nat → Outcome
  | 0, _, _, _, _ => .waiting
  | fuel + 1, c, start, stop, boundaries =>
    if c.stopping then .done c
    else c.postSlice start stop fun answer c =>
      match answer with
      | .success => .done c
      | .error message status =>
        if status = httpContentLength then
          if 1 < boundaries.length then
            let midPoint := boundaries.length / 2
            let position := boundaries.getD (midPoint - 1) 0
            (processBulkChunk fuel c 0 position (boundaries.take midPoint)).andThen fun c =>
              processBulkChunk fuel c position c.bulkData.length (boundaries.drop midPoint)
          else .thrown "Single operation exceeds server limits" c
        else if status = httpVersionConflict ∨ status = httpTooManyRequests then
          processBulkChunk fuel c start stop boundaries
        else .thrown message c

variable (c : Connector)

/-- The fuel of a call. -/
def fuel : Nat := c.replies.length + 1

/-- A half is sent only if neither its text nor its list of positions is empty. -/
def processHalf (start stop : Nat) (boundaries : List Nat) : Outcome :=
  if start < stop ∧
    boundaries ≠ [] then processBulkChunk c.fuel c start stop boundaries else .done c

/-- `splitAndProcessBulk`. -/
def splitAndProcessBulk : Outcome :=
  if c.boundaries.length ≤ 1 then
    .thrown ("Cannot split bulk data with less than two operations. Consider increasing " ++
      "http.max_content_length in Wazuh-Indexer settings.") c
  else
    let midPoint := c.boundaries.length / 2
    let position := c.boundaries.getD (midPoint - 1) 0
    -- both views are built before either half is sent
    if c.bulkData.length < position then .undefined
    else (c.processHalf 0 position (c.boundaries.take midPoint)).andThen fun c =>
      (c.processHalf position c.bulkData.length (c.boundaries.drop midPoint)).andThen fun c =>
        .done c.notifyAll.clearData.clearBoundaries

/-- The last statements of `processBulk`. -/
def finish : Connector :=
  { c.clearData.clearBoundaries with deletesByQuery := .empty }

/-- The loop of `processBulk`. A split leaves `needToRetry` as it was, so after an earlier conflict
the emptied buffer is sent once more. -/
def bulkLoop : Nat → Bool → Connector → Outcome
  | 0, _, _ => .waiting
  | fuel + 1, needToRetry, c =>
    if c.stopping then .done c
    else c.postSlice 0 c.bulkData.length fun answer c =>
      match answer with
      | .success => .done c.notifyAll.finish
      | .error message status =>
        if status = httpContentLength then
          if c.boundaries.length ≤ 1 then
            .thrown "Single operation exceeds server payload limits" c.clearData.clearBoundaries
          else c.splitAndProcessBulk.andThen fun c =>
            if needToRetry then bulkLoop fuel needToRetry c else .done c.finish
        else if status = httpVersionConflict ∨ status = httpTooManyRequests then
          bulkLoop fuel true c
        else .thrown message c.clearData.clearBoundaries

/-- The requests of `m_deleteByQuery`, in the order of the map. An error other than the two that are
logged clears the buffer, not the positions. -/
def deleteLoop : List (Text × List Text) → Connector → Outcome
  | [], c => .done c
  | (index, agentIds) :: rest, c =>
    c.post (.deleteByQuery index agentIds) [] fun answer c =>
      match answer with
      | .success => deleteLoop rest c
      | .error message status =>
        if status = httpVersionConflict ∨ status = httpTooManyRequests then deleteLoop rest c
        else .thrown message c.clearData

/-- `processBulk`. -/
def processBulk : Outcome :=
  if c.bulkData = [] ∧ c.deletesByQuery.entries = [] then .thrown "No data to process" c
  else (deleteLoop c.deletesByQuery.entries c).andThen fun c =>
    if c.bulkData = [] then .done c.finish else bulkLoop c.fuel false c

/-! ## The calls -/

/-- `deleteByQuery`. -/
def deleteByQuery (index agentId : Text) : Connector :=
  let agentIds := (c.deletesByQuery.entries.find? fun e => e.1 = index).elim [] Prod.snd
  { c with deletesByQuery := c.deletesByQuery.put index (agentIds ++ [agentId]) }

/-- The text of an operation is appended and its end recorded. -/
def append (text : Text) : Connector :=
  { c with
    bulkData := c.bulkData ++ text
    boundaries := c.boundaries ++ [c.bulkData.length + text.length]
    buffered := c.buffered ++ [⟨c.appended, text⟩]
    appended := c.appended + 1 }

/-- The buffer is sent first if the operation would make it too long; `estimate` is the length the
source computes for the operation. -/
def appendBounded (maxBulkSize : Nat) (c : Connector) (estimate : Nat) (text : Text) : Outcome :=
  (if maxBulkSize < c.bulkData.length + estimate then c.processBulk else .done c).andThen fun c =>
    .done (c.append text)

/-- The text `bulkDelete` appends. -/
def deleteText (id index : Text) : Text :=
  "\x7b\"delete\":\x7b\"_index\":\"".toList ++ index ++ "\",\"_id\":\"".toList ++ id ++
    "\"\x7d\x7d".toList ++ "\n".toList

/-- The text `bulkIndex` appends. -/
def indexText (id index data : Text) : Text :=
  "\x7b\"index\":\x7b\"_index\":\"".toList ++ index ++ "\",\"_id\":\"".toList ++ id ++
    "\"\x7d\x7d".toList ++ "\n".toList ++ data ++ "\n".toList

/-- `bulkDelete`. -/
def bulkDelete (maxBulkSize : Nat) (c : Connector) (id index : Text) : Outcome :=
  c.appendBounded maxBulkSize (deleteFormattedLength + index.length + id.length)
    (deleteText id index)

/-- `bulkIndex`. -/
def bulkIndex (maxBulkSize : Nat) (c : Connector) (id index data : Text) : Outcome :=
  c.appendBounded maxBulkSize (formattedLength + index.length + id.length + data.length)
    (indexText id index data)

/-- `flush`. -/
def flush : Outcome :=
  if c.bulkData ≠ [] ∨ c.deletesByQuery.entries ≠ [] then c.processBulk else .done c

/-- A round of the thread that sends the buffer at intervals; it catches what `processBulk`
throws. -/
def timer : Outcome :=
  if c.bulkData = [] then .done c
  else match c.processBulk with
    | .thrown _ c => .done c
    | outcome => outcome

/-- `registerNotify`. -/
def registerNotify : Connector :=
  { c with
    notify := c.notify ++ [⟨c.registered, c.appended⟩]
    registered := c.registered + 1 }

/-- The destructor asks the thread to stop. -/
def stop : Connector := { c with stopping := true }

end Connector

end WazAISentinel.IndexerConnector
