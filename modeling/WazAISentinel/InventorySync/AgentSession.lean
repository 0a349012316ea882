import WazAISentinel.InventorySync.ChunkStore
import WazAISentinel.InventorySync.GapSet

/-!
# A session of an agent

Model of `agentSession.hpp` and `responseDispatcher.hpp`. What a session refers to outside itself is
`Shared`: the data store, the queue of the indexer and the replies to agents. A handler that throws
keeps what it did before the exception.

`handleEnd` checks that the session was not enqueued before, `handleData` does not. So a complete
session is enqueued once more by each data message in range that reaches it later.
-/

namespace WazAISentinel.InventorySync

open Foundations List

/-- `Context`. The flag `transactionDispatched` is left out: nothing reads it. -/
structure Context where
  mode : Mode
  sessionId : Nat
  agentId : String
  agentName : String
  agentIp : String
  agentVersion : String
  moduleName : String
  deriving DecidableEq, Repr

/-- `ResponseStatus`. -/
inductive ResponseStatus where
  | ok
  | error
  deriving DecidableEq, Repr

/-- `Response`, an element of the indexer queue. -/
structure Response where
  status : ResponseStatus
  context : Context
  deriving DecidableEq, Repr

/-- `ResponseMessage`: a reply and the agent and module it goes to. -/
structure ResponseMessage where
  agentId : String
  moduleName : String
  reply : Reply
  deriving DecidableEq, Repr

/-- The sender of a message, as the router reports it (`AgentInfo`). -/
structure AgentInfo where
  id : String
  moduleName : String
  name : String
  ip : String
  version : String
  deriving DecidableEq, Repr

/-- What the sessions share: the store, the indexer queue and the replies sent so far. -/
structure Shared where
  store : ChunkStore
  indexerQueue : List Response
  responses : List ResponseMessage

namespace Shared

variable (sh : Shared)

/-- `m_store.put`. -/
def put (key : List Char) (value : DataMessage) : Shared :=
  { sh with store := sh.store.put key value }

/-- `m_indexerQueue.push`. -/
def push (response : Response) : Shared :=
  { sh with indexerQueue := sh.indexerQueue ++ [response] }

/-- `sendStartAck`, `sendEndAck` and `sendEndMissingSeq`: one message to one agent and module. -/
def send (agentId moduleName : String) (reply : Reply) : Shared :=
  { sh with responses := sh.responses ++ [⟨agentId, moduleName, reply⟩] }

/-- Further responses in the queue and further replies. -/
def extend (pushed : List Response) (sent : List ResponseMessage) : Shared :=
  { sh with indexerQueue := sh.indexerQueue ++ pushed, responses := sh.responses ++ sent }

theorem push_eq_extend (r : Response) : sh.push r = sh.extend [r] [] := by
  simp [push, extend]

theorem send_eq_extend (agentId moduleName : String) (reply : Reply) :
    sh.send agentId moduleName reply = sh.extend [] [⟨agentId, moduleName, reply⟩] := by
  simp [send, extend]

@[simp] theorem extend_nil : sh.extend [] [] = sh := by
  simp [extend]

end Shared

/-- `AgentSessionImpl`. -/
structure AgentSession where
  gapSet : GapSet
  context : Context
  endReceived : Bool
  endEnqueued : Bool
  deriving DecidableEq, Repr

/-- The agent id with zeros in front, up to three characters. -/
def padAgentId (id : String) : String :=
  if id.length < 3 then String.ofList (replicate (3 - id.length) '0') ++ id else id

namespace AgentSession

/-- The constructor. The refusal goes to the id as received, the acceptance to the padded one. -/
def new (sessionId : Nat) (info : AgentInfo) (start : StartMessage) (sh : Shared) :
    Except String AgentSession × Shared :=
  if start.size = 0 then
    (.error "Invalid size", sh.send info.id info.moduleName (.startAck .error sessionId))
  else
    let context : Context :=
      ⟨start.mode, sessionId, padAgentId info.id, info.name, info.ip, info.version, info.moduleName⟩
    (.ok ⟨GapSet.new start.size, context, false, false⟩,
      sh.send context.agentId context.moduleName (.startAck .ok context.sessionId))

/-- `handleData`: the session, what it shares, and the text of the exception if one was thrown. -/
def handleData (self : AgentSession) (data : DataMessage) (sh : Shared) :
    AgentSession × Shared × Option String :=
  let sh := sh.put (chunkKey data.session data.seq) data
  match self.gapSet.observe data.seq with
  | .error e => (self, sh, some e)
  | .ok gapSet =>
    let self := { self with gapSet := gapSet }
    if self.endReceived && gapSet.empty then
      ({ self with endEnqueued := true }, sh.push ⟨.ok, self.context⟩, none)
    else (self, sh, none)

/-- `handleEnd`. -/
def handleEnd (self : AgentSession) (sh : Shared) : AgentSession × Shared :=
  let self := { self with endReceived := true }
  if self.endEnqueued then (self, sh)
  else if self.gapSet.empty then
    ({ self with endEnqueued := true }, sh.push ⟨.ok, self.context⟩)
  else
    (self, sh.send self.context.agentId self.context.moduleName
      (.reqRet self.gapSet.ranges self.context.sessionId))

/-! ## What one call does -/

section Call

variable {s : AgentSession} {S : Finset Nat} {data : DataMessage}

/-- A data message out of range is stored and changes nothing else. -/
theorem handleData_of_le (hs : Represents s.gapSet S) (hseq : s.gapSet.size ≤ data.seq)
    (sh : Shared) :
    s.handleData data sh =
      (s, sh.put (chunkKey data.session data.seq) data, some "Sequence number out of range") := by
  have h := represents_observe hs data.seq
  rw [if_neg (Nat.not_lt.2 hseq)] at h
  simp [handleData, h]

/-- A data message in range is stored and observed, and enqueues the session if that completes it
after its end, or if it was complete already. -/
theorem handleData_of_lt (hs : Represents s.gapSet S) (hseq : data.seq < s.gapSet.size)
    (sh : Shared) : ∃ g, g.size = s.gapSet.size ∧ Represents g (insert data.seq S) ∧
      s.handleData data sh =
        if s.endReceived = true ∧ ∀ q < s.gapSet.size, q ∈ insert data.seq S then
          ({ s with gapSet := g, endEnqueued := true },
            (sh.put (chunkKey data.session data.seq) data).push ⟨.ok, s.context⟩, none)
        else ({ s with gapSet := g }, sh.put (chunkKey data.session data.seq) data, none) := by
  have h := represents_observe hs data.seq
  rw [if_pos hseq] at h
  obtain ⟨g, hg, hsize, hrep⟩ := h
  refine ⟨g, hsize, hrep, ?_⟩
  have hempty := hrep.empty_iff
  rw [hsize] at hempty
  simp [handleData, hg, hempty]

/-- An end enqueues the session if it is complete and was not enqueued, and asks for the missing
sequence numbers if it is not complete. -/
theorem handleEnd_eq (hs : Represents s.gapSet S) (sh : Shared) : s.handleEnd sh =
    if s.endEnqueued = true then ({ s with endReceived := true }, sh)
    else if ∀ q < s.gapSet.size, q ∈ S then
      ({ s with endReceived := true, endEnqueued := true }, sh.push ⟨.ok, s.context⟩)
    else
      ({ s with endReceived := true }, sh.send s.context.agentId s.context.moduleName
        (.reqRet s.gapSet.ranges s.context.sessionId)) := by
  simp [handleEnd, hs.empty_iff]

end Call

/-! ## What a call leaves behind

A handler reads nothing of what it shares: it stores its message, adds to the queue and to the
replies, and changes its own session, whatever the shared state is. -/

theorem handleData_eq_extend (s : AgentSession) (data : DataMessage) :
    ∃ s' pushed err, s'.context = s.context ∧ (∀ r ∈ pushed, r.context = s.context) ∧
      ∀ sh, s.handleData data sh =
        (s', (sh.put (chunkKey data.session data.seq) data).extend pushed [], err) := by
  unfold handleData
  cases s.gapSet.observe data.seq with
  | error e => exact ⟨s, [], some e, rfl, by simp, fun sh => by simp [Shared.extend]⟩
  | ok g =>
    by_cases hdone : (s.endReceived && g.empty) = true
    · refine ⟨{ s with gapSet := g, endEnqueued := true }, [⟨.ok, s.context⟩], none, rfl, ?_, ?_⟩
      · simp
      · intro sh
        simp [hdone, Shared.push, Shared.extend]
    · refine ⟨{ s with gapSet := g }, [], none, rfl, by simp, ?_⟩
      simp [hdone, Shared.extend]

theorem handleEnd_eq_extend (s : AgentSession) :
    ∃ s' pushed sent, s'.context = s.context ∧ (∀ r ∈ pushed, r.context = s.context) ∧
      ∀ sh, s.handleEnd sh = (s', sh.extend pushed sent) := by
  unfold handleEnd
  by_cases henq : s.endEnqueued = true
  · refine ⟨{ s with endReceived := true }, [], [], rfl, by simp, fun sh => ?_⟩
    simp [henq, Shared.extend]
  · by_cases hempty : s.gapSet.empty = true
    · refine ⟨{ s with endReceived := true, endEnqueued := true }, [⟨.ok, s.context⟩], [], rfl,
        by simp, fun sh => ?_⟩
      simp [henq, hempty, Shared.push, Shared.extend]
    · refine ⟨{ s with endReceived := true }, [], [⟨s.context.agentId, s.context.moduleName,
        .reqRet s.gapSet.ranges s.context.sessionId⟩], rfl, by simp, fun sh => ?_⟩
      simp [henq, hempty, Shared.send, Shared.extend]

theorem new_eq_extend (sessionId : Nat) (info : AgentInfo) (start : StartMessage) :
    ∃ result sent, (∀ s, result = .ok s →
        s.context.sessionId = sessionId ∧ s.context.agentId = padAgentId info.id ∧
          s.gapSet = GapSet.new start.size) ∧
      (∀ m ∈ sent, ∀ status id, m.reply ≠ .endAck status id) ∧
      ∀ sh, AgentSession.new sessionId info start sh = (result, sh.extend [] sent) := by
  unfold new
  by_cases hsize : start.size = 0
  · refine ⟨.error "Invalid size", [⟨info.id, info.moduleName, .startAck .error sessionId⟩],
      fun s h => (by cases h), by simp, fun sh => ?_⟩
    simp [hsize, Shared.send, Shared.extend]
  · refine ⟨.ok ⟨GapSet.new start.size, ⟨start.mode, sessionId, padAgentId info.id, info.name,
      info.ip, info.version, info.moduleName⟩, false, false⟩,
      [⟨padAgentId info.id, info.moduleName, .startAck .ok sessionId⟩], fun s h => ?_, by
        simp, fun sh => ?_⟩
    · cases h
      exact ⟨rfl, rfl, rfl⟩
    · simp [hsize, Shared.send, Shared.extend]

end AgentSession

/-! ## Sequences of calls -/

/-- A call to one of the two handlers of a session. -/
inductive SessionCall where
  | handleData (data : DataMessage)
  | handleEnd
  deriving DecidableEq, Repr

/-- One call; the caller logs an exception and goes on. -/
def AgentSession.call (r : AgentSession × Shared) : SessionCall → AgentSession × Shared
  | .handleData data => ((r.1.handleData data r.2).1, (r.1.handleData data r.2).2.1)
  | .handleEnd => r.1.handleEnd r.2

/-- A sequence of calls. -/
def AgentSession.calls (s : AgentSession) (sh : Shared) (cs : List SessionCall) :
    AgentSession × Shared :=
  cs.foldl AgentSession.call (s, sh)

open AgentSession

variable (sh : Shared)

/-- The number of `Ok` responses in the indexer queue. -/
def okResponses : Nat := sh.indexerQueue.countP fun r => r.status = .ok

/-- The number of `Ok` responses that the calls push. -/
def okPushed (s : AgentSession) (sh : Shared) (cs : List SessionCall) : Nat :=
  okResponses (s.calls sh cs).2 - okResponses sh

/-- The sequence numbers of the data messages among the calls. -/
def dataSeqs (cs : List SessionCall) : List Nat :=
  cs.filterMap fun
    | .handleData data => some data.seq
    | .handleEnd => none

/-- An end was received and every sequence number below `size` was observed. -/
def Complete (size : Nat) (cs : List SessionCall) : Prop :=
  .handleEnd ∈ cs ∧ ∀ q < size, q ∈ dataSeqs cs

instance (size : Nat) (cs : List SessionCall) : Decidable (Complete size cs) :=
  inferInstanceAs (Decidable (_ ∧ _))

/-- No data message in range comes after the calls that complete the session. -/
def NoDataAfterCompletion (size : Nat) (cs : List SessionCall) : Prop :=
  ∀ pre data post, cs = pre ++ .handleData data :: post → data.seq < size → ¬ Complete size pre

variable {size : Nat}

theorem noDataAfterCompletion_append_singleton {cs : List SessionCall} {c : SessionCall} :
    NoDataAfterCompletion size (cs ++ [c]) ↔ NoDataAfterCompletion size cs ∧
        ∀ data, c = .handleData data → data.seq < size → ¬ Complete size cs := by
  constructor
  · intro h
    refine ⟨fun pre data post hcs => h pre data (post ++ [c]) (by simp [hcs]), ?_⟩
    rintro data rfl
    exact h cs data [] rfl
  · rintro ⟨hcs, hc⟩ pre data post heq hlt
    rcases eq_nil_or_concat post with rfl | ⟨init, last, rfl⟩
    · obtain ⟨rfl, hdata⟩ := append_inj' heq rfl
      exact hc data (cons.inj hdata).1 hlt
    · have heq' : cs ++ [c] = (pre ++ .handleData data :: init) ++ [last] := by simp [heq]
      exact hcs pre data init (append_inj' heq' rfl).1 hlt

@[simp] theorem okResponses_put (k : List Char) (d : DataMessage) :
    okResponses (sh.put k d) = okResponses sh := rfl

@[simp] theorem okResponses_send (a m : String) (r : Reply) :
    okResponses (sh.send a m r) = okResponses sh := rfl

@[simp] theorem okResponses_push_ok (ctx : Context) :
    okResponses (sh.push ⟨.ok, ctx⟩) = okResponses sh + 1 := by
  simp [okResponses, Shared.push]

@[simp] theorem dataSeqs_append_handleData (cs : List SessionCall) (data : DataMessage) :
    dataSeqs (cs ++ [.handleData data]) = dataSeqs cs ++ [data.seq] := by
  simp [dataSeqs]

@[simp] theorem dataSeqs_append_handleEnd (cs : List SessionCall) :
    dataSeqs (cs ++ [.handleEnd]) = dataSeqs cs := by
  simp [dataSeqs]

/-- The session after the calls `cs`: its flags say what was received, and it was enqueued once for
its completion and `late` times more, where `late` is `0` when no data came later. -/
structure AfterCalls (size before : Nat) (cs : List SessionCall) (r : AgentSession × Shared) :
    Prop where
  size_eq : r.1.gapSet.size = size
  represents : Represents r.1.gapSet (observedBelow size (dataSeqs cs))
  endReceived : r.1.endReceived = true ↔ .handleEnd ∈ cs
  endEnqueued : r.1.endEnqueued = true ↔ Complete size cs
  pushed : ∃ late, okResponses r.2 = before + (if Complete size cs then 1 else 0) + late ∧
    (late = 0 ↔ NoDataAfterCompletion size cs)

theorem complete_iff_observedBelow {cs : List SessionCall} :
    Complete size cs ↔ .handleEnd ∈ cs ∧ ∀ q < size, q ∈ observedBelow size (dataSeqs cs) := by
  refine and_congr_right fun _ => forall₂_congr fun q hq => ?_
  simp [mem_observedBelow, hq]

variable {q sessionId : Nat} {info : AgentInfo} {sh sh₀ : Shared} {start : StartMessage}

theorem observedBelow_concat (size q : Nat) (seqs : List Nat) :
    observedBelow size (seqs ++ [q]) =
    if q < size then insert q (observedBelow size seqs) else observedBelow size seqs := by
  rw [← observedBelow_cons]
  ext x
  rw [mem_observedBelow, mem_observedBelow, (perm_append_singleton q seqs).mem_iff]

namespace AfterCalls

variable {before : Nat} {cs : List SessionCall} {r : AgentSession × Shared}

section

variable (h : AfterCalls size before cs r)

include h

/-- A data message out of range. -/
theorem handleData_of_le {data : DataMessage} (hseq : size ≤ data.seq) :
    AfterCalls size before (cs ++ [.handleData data]) (call r (.handleData data)) := by
  have hset := observedBelow_concat size data.seq (dataSeqs cs)
  rw [if_neg (Nat.not_lt.2 hseq)] at hset
  have hcomplete : Complete size (cs ++ [.handleData data]) ↔ Complete size cs := by
    rw [complete_iff_observedBelow, complete_iff_observedBelow, dataSeqs_append_handleData, hset]
    simp
  have hcall := AgentSession.handleData_of_le h.represents (h.size_eq.symm ▸ hseq) r.2
  obtain ⟨late, hcount, hlate⟩ := h.pushed
  rw [call, hcall]
  refine ⟨h.size_eq, ?_, ?_, h.endEnqueued.trans hcomplete.symm, late, ?_, ?_⟩
  · rw [dataSeqs_append_handleData, hset]
    exact h.represents
  · simpa using h.endReceived
  · rw [okResponses_put, hcount, if_congr hcomplete rfl rfl]
  · rw [hlate, noDataAfterCompletion_append_singleton]
    refine (and_iff_left ?_).symm
    intro data' heq hlt
    cases heq
    omega

/-- A data message in range. -/
theorem handleData_of_lt {data : DataMessage} (hseq : data.seq < size) :
    AfterCalls size before (cs ++ [.handleData data]) (call r (.handleData data)) := by
  have hset := observedBelow_concat size data.seq (dataSeqs cs)
  rw [if_pos hseq] at hset
  obtain ⟨g, hsize, hrep, hcall⟩ :=
    AgentSession.handleData_of_lt h.represents (h.size_eq.symm ▸ hseq) r.2
  -- the guard of the handler is completeness of the calls so far with this one
  have hguard : (r.1.endReceived = true ∧ ∀ q < r.1.gapSet.size,
      q ∈ insert data.seq (observedBelow size (dataSeqs cs))) ↔
      Complete size (cs ++ [.handleData data]) := by
    rw [complete_iff_observedBelow, dataSeqs_append_handleData, hset, h.size_eq, h.endReceived]
    simp
  have hmono : Complete size cs → Complete size (cs ++ [.handleData data]) := by
    rintro ⟨hend, hall⟩
    exact ⟨by simp [hend], fun q hq => by simp [hall q hq]⟩
  have hnodata : NoDataAfterCompletion size (cs ++ [.handleData data]) ↔
      NoDataAfterCompletion size cs ∧ ¬ Complete size cs := by
    rw [noDataAfterCompletion_append_singleton]
    refine and_congr_right fun _ => ⟨fun hc => hc data rfl hseq, ?_⟩
    intro hc data' _ _
    exact hc
  rw [if_congr hguard rfl rfl] at hcall
  obtain ⟨late, hcount, hlate⟩ := h.pushed
  rw [← hset, ← dataSeqs_append_handleData] at hrep
  have hreceived : r.1.endReceived = true ↔ .handleEnd ∈ cs ++ [.handleData data] := by
    simpa using h.endReceived
  rw [call, hcall]
  by_cases hc : Complete size (cs ++ [.handleData data])
  · rw [if_pos hc]
    refine ⟨hsize.trans h.size_eq, hrep, hreceived, iff_of_true rfl hc, if Complete size cs
      then late + 1 else late, ?_, ?_⟩
    · rw [okResponses_push_ok, okResponses_put, hcount, if_pos hc]
      split <;> omega
    · rw [hnodata, ← hlate]
      split <;> simp_all
  · have hcs : ¬ Complete size cs := fun h => hc (hmono h)
    rw [if_neg hc]
    refine ⟨hsize.trans h.size_eq, hrep, hreceived, h.endEnqueued.trans (iff_of_false hcs hc),
      late, ?_, ?_⟩
    · rw [okResponses_put, hcount, if_neg hcs, if_neg hc]
    · rw [hnodata, hlate, and_iff_left hcs]

/-- An end. -/
theorem handleEnd :
    AfterCalls size before (cs ++ [.handleEnd]) (call r .handleEnd) := by
  have hcall := AgentSession.handleEnd_eq h.represents r.2
  rw [h.size_eq] at hcall
  have hcomplete : Complete size (cs ++ [.handleEnd]) ↔
      ∀ q < size, q ∈ observedBelow size (dataSeqs cs) := by
    rw [complete_iff_observedBelow, dataSeqs_append_handleEnd]
    simp
  have hnodata : NoDataAfterCompletion size (cs ++ [.handleEnd]) ↔
      NoDataAfterCompletion size cs := by
    rw [noDataAfterCompletion_append_singleton]
    refine and_iff_left ?_
    rintro data ⟨⟩
  obtain ⟨late, hcount, hlate⟩ := h.pushed
  have hseqs : dataSeqs (cs ++ [.handleEnd]) = dataSeqs cs := dataSeqs_append_handleEnd cs
  have hlate' := hlate.trans hnodata.symm
  have hreceived : .handleEnd ∈ cs ++ [.handleEnd] := by simp
  rw [call, hcall]
  by_cases henq : r.1.endEnqueued = true
  · -- the session was complete before
    have hcs := h.endEnqueued.1 henq
    have hc := hcomplete.2 (complete_iff_observedBelow.1 hcs).2
    rw [if_pos hcs] at hcount
    rw [if_pos henq]
    exact ⟨h.size_eq, hseqs ▸ h.represents, iff_of_true rfl hreceived, iff_of_true henq hc, late,
      if_pos hc ▸ hcount, hlate'⟩
  · have hcs : ¬ Complete size cs := fun hc => henq (h.endEnqueued.2 hc)
    rw [if_neg hcs] at hcount
    rw [if_neg henq]
    by_cases hall : ∀ q < size, q ∈ observedBelow size (dataSeqs cs)
    · have hc := hcomplete.2 hall
      rw [if_pos hall]
      refine ⟨h.size_eq, hseqs ▸ h.represents, iff_of_true rfl hreceived, iff_of_true rfl hc,
        late, ?_, hlate'⟩
      rw [okResponses_push_ok, hcount, if_pos hc]
      omega
    · have hc : ¬ Complete size (cs ++ [.handleEnd]) := fun hc => hall (hcomplete.1 hc)
      rw [if_neg hall]
      refine ⟨h.size_eq, hseqs ▸ h.represents, iff_of_true rfl hreceived, iff_of_false henq hc,
        late, ?_, hlate'⟩
      rw [okResponses_send, hcount, if_neg hc]

theorem call (c : SessionCall) :
    AfterCalls size before (cs ++ [c]) (call r c) := by
  cases c with
  | handleData data =>
    rcases Nat.lt_or_ge data.seq size with hlt | hle
    · exact h.handleData_of_lt hlt
    · exact h.handleData_of_le hle
  | handleEnd => exact h.handleEnd

end

end AfterCalls

/-- The invariant along every sequence of calls. -/
theorem AgentSession.afterCalls {s : AgentSession} (h : new sessionId info start sh₀ = (.ok s, sh))
    (cs : List SessionCall) : AfterCalls start.size (okResponses sh) cs (s.calls sh cs) := by
  induction cs using reverseRecOn with
  | nil =>
    -- a new session has the size of its start message, and creating it enqueues nothing
    change AfterCalls _ _ [] (s, sh)
    unfold new at h
    split at h
    · cases h
    · obtain ⟨hs, -⟩ := Prod.mk.inj h
      cases hs
      have hempty : observedBelow start.size (dataSeqs []) = ∅ := rfl
      have hnot : ¬ Complete start.size [] := fun hc => by simpa using hc.1
      refine ⟨rfl, ?_, by simp, by simp [hnot], 0, by simp [hnot], ?_⟩
      · rw [hempty]
        exact represents_new start.size_lt
      · refine iff_of_true rfl ?_
        intro pre data post hcs
        simp at hcs
  | append_singleton cs c ih =>
    have hfold : s.calls sh (cs ++ [c]) = call (s.calls sh cs) c := by
      simp [calls]
    rw [hfold]
    exact ih.call c

/-- A session is handed to the indexer at most once, and exactly once when complete, if and only if
no data message in range reaches it after its completion. -/
theorem okPushed_atMostOnce_iff (sessionId : Nat) (info : AgentInfo) (start : StartMessage)
    (sh₀ sh : Shared) (s : AgentSession)
    (h : AgentSession.new sessionId info start sh₀ = (.ok s, sh)) (cs : List SessionCall) :
    (okPushed s sh cs ≤ 1 ∧ (okPushed s sh cs = 1 ↔ Complete start.size cs)) ↔
      NoDataAfterCompletion start.size cs := by
  obtain ⟨late, hcount, hlate⟩ := (AgentSession.afterCalls h cs).pushed
  rw [← hlate]
  unfold okPushed
  by_cases hc : Complete start.size cs
  · rw [if_pos hc] at hcount
    rw [iff_true_right hc]
    omega
  · -- an incomplete session has no complete prefix of calls
    rw [if_neg hc] at hcount
    rw [iff_false_right hc]
    omega

/-- The start of a session that waits for one data message. -/
def singleStart : StartMessage := ⟨.delta, 1, by decide⟩

/-- An agent with no more than an id and a module. -/
def plainAgent (id moduleName : String) : AgentInfo := ⟨id, moduleName, "", "", ""⟩

/-- Nothing stored, queued or sent. -/
def Shared.empty : Shared := ⟨.empty, [], []⟩

/-- The only data message of session `7`. -/
def onlyData : DataMessage := ⟨0, 7, .upsert, "id", "index", "\x7b\x7d"⟩

/-- The data message is retransmitted after the end: the session is enqueued twice. -/
theorem okPushed_twice_after_retransmission :
    ∃ s sh, AgentSession.new 7 (plainAgent "1" "fim") singleStart .empty = (.ok s, sh) ∧
      okPushed s sh [.handleData onlyData, .handleEnd, .handleData onlyData] = 2 :=
  ⟨_, _, rfl, by decide⟩

/-- The same session with the data after the end, and with nothing more. -/
theorem okPushed_atMostOnce_iff_single :
    ∃ s sh, AgentSession.new 7 (plainAgent "1" "fim") singleStart .empty = (.ok s, sh) ∧
      okPushed s sh [.handleEnd, .handleData onlyData] = 1 ∧
      NoDataAfterCompletion 1 [.handleEnd, .handleData onlyData] := by
  refine ⟨_, _, rfl, by decide, ?_⟩
  exact (okPushed_atMostOnce_iff 7 (plainAgent "1" "fim") singleStart .empty _ _ rfl
    [.handleEnd, .handleData onlyData]).1 (by decide)

/-! ## Rejected data -/

/-- The sequence numbers under which chunks of a session are stored. -/
def Shared.Stores (sh : Shared) (sessionId seq : Nat) : Prop :=
  ∃ d, (chunkKey sessionId seq, d) ∈ sh.store.entries

theorem Shared.stores_put {session seq : Nat} (data : DataMessage) :
    (sh.put (chunkKey data.session data.seq) data).Stores session seq ↔
      sh.Stores session seq ∨ (session = data.session ∧ seq = data.seq) := by
  simp only [Shared.Stores, Shared.put, OrderedStore.mem_put, Prod.mk.injEq]
  constructor
  · rintro ⟨d, ⟨hkey, -⟩ | ⟨hmem, -⟩⟩
    · exact Or.inr (chunkKey_injective hkey)
    · exact Or.inl ⟨d, hmem⟩
  · rintro (⟨d, hmem⟩ | ⟨rfl, rfl⟩)
    · by_cases hkey : chunkKey session seq = chunkKey data.session data.seq
      · exact ⟨data, Or.inl ⟨hkey, rfl⟩⟩
      · exact ⟨d, Or.inr ⟨hmem, hkey⟩⟩
    · exact ⟨data, Or.inl ⟨rfl, rfl⟩⟩

/-- A session without stored chunks stores one for each of its data messages, in range or not. -/
theorem AgentSession.stores_calls_iff (s : AgentSession) (hnone : ∀ seq, ¬ sh.Stores sessionId seq)
    {cs : List SessionCall} (hcs : ∀ data, .handleData data ∈ cs → data.session = sessionId) :
    (s.calls sh cs).2.Stores sessionId q ↔ q ∈ dataSeqs cs := by
  induction cs using reverseRecOn with
  | nil => exact iff_of_false (hnone q) not_mem_nil
  | append_singleton cs c ih =>
    have hrest := ih fun data hdata => hcs data (by simp [hdata])
    rw [calls, foldl_concat, ← calls]
    cases c with
    | handleEnd =>
      obtain ⟨s', pushed, sent, -, -, hend⟩ := (s.calls sh cs).1.handleEnd_eq_extend
      rw [call, hend, dataSeqs_append_handleEnd]
      exact hrest
    | handleData data =>
      obtain ⟨s', pushed, err, -, -, hdata⟩ := (s.calls sh cs).1.handleData_eq_extend data
      rw [call, hdata, dataSeqs_append_handleData, mem_append, mem_singleton, ← hrest]
      refine (Shared.stores_put data).trans (or_congr_right (and_iff_right ?_))
      exact (hcs data (by simp)).symm

/-- A rejected data message leaves everything as it was, and every stored chunk of the session is in
range and observed, at every moment if and only if no chunk of the session was stored before it and
none of its data messages is out of range. -/
theorem handleData_atomic_iff (sessionId : Nat) (info : AgentInfo) (start : StartMessage)
    (sh₀ sh : Shared) (s : AgentSession)
    (h : AgentSession.new sessionId info start sh₀ = (.ok s, sh)) (cs : List SessionCall)
    (hcs : ∀ data, .handleData data ∈ cs → data.session = sessionId) :
    (∀ pre, pre <+: cs →
      (∀ data, pre ++ [.handleData data] <+: cs → start.size ≤ data.seq →
        AgentSession.call (s.calls sh pre) (.handleData data) = s.calls sh pre) ∧
      ∀ seq, (s.calls sh pre).2.Stores sessionId seq →
        seq < start.size ∧ (s.calls sh pre).1.gapSet.contains seq = true) ↔
    (∀ seq, ¬ sh.Stores sessionId seq) ∧ ∀ seq ∈ dataSeqs cs, seq < start.size := by
  have hobserved (pre : List SessionCall) (seq : Nat) :
      (s.calls sh pre).1.gapSet.contains seq = true ↔ seq < start.size ∧ seq ∈ dataSeqs pre := by
    rw [(AgentSession.afterCalls h pre).represents.contains_iff, mem_observedBelow]
  constructor
  · intro hatomic
    have hnone : ∀ seq, ¬ sh.Stores sessionId seq := by
      intro seq hstored
      have hempty := ((hobserved [] seq).1 ((hatomic [] nil_prefix).2 seq hstored).2).2
      cases hempty
    refine ⟨hnone, fun seq hseq => ?_⟩
    exact ((hatomic cs prefix_rfl).2 seq ((s.stores_calls_iff hnone hcs).2 hseq)).1
  · rintro ⟨hnone, hrange⟩ pre hpre
    refine ⟨fun data hdata hseq => ?_, fun seq hstored => ?_⟩
    · have hmem : data.seq ∈ dataSeqs cs := (hdata.filterMap _).subset (by simp)
      exact absurd (hrange _ hmem) (Nat.not_lt.2 hseq)
    · have hseq :=
        (s.stores_calls_iff hnone fun data hdata => hcs data (hpre.subset hdata)).1 hstored
      have hlt := hrange seq ((hpre.filterMap _).subset hseq)
      exact ⟨hlt, (hobserved pre seq).2 ⟨hlt, hseq⟩⟩

/-- A message in range and the end. -/
theorem handleData_atomic_iff_single :
    ∃ s sh, AgentSession.new 7 (plainAgent "1" "fim") singleStart .empty = (.ok s, sh) ∧
    ((∀ seq, ¬ sh.Stores 7 seq) ∧ ∀ seq ∈ dataSeqs [.handleData onlyData, .handleEnd], seq < 1) ∧
    ∀ seq, (s.calls sh [.handleData onlyData, .handleEnd]).2.Stores 7 seq → seq < 1 := by
  have hholds : (∀ seq, ¬ Shared.Stores ⟨.empty, [], [⟨"001", "fim", .startAck .ok 7⟩]⟩ 7 seq) ∧
      ∀ seq ∈ dataSeqs [.handleData onlyData, .handleEnd], seq < 1 := by
    refine ⟨?_, by decide⟩
    rintro seq ⟨d, hd⟩
    cases hd
  refine ⟨_, _, rfl, hholds, fun seq hstored => ?_⟩
  exact (((handleData_atomic_iff 7 (plainAgent "1" "fim") singleStart .empty _ _ rfl _
    (by simp [onlyData])).2 hholds _ prefix_rfl).2 seq hstored).1

/-- The only data message is number `0`; number `1` is rejected, and stored. -/
theorem handleData_stores_rejected :
    ∃ s sh, AgentSession.new 7 (plainAgent "1" "fim") singleStart .empty = (.ok s, sh) ∧
      (s.handleData { onlyData with seq := 1 } sh).2.2 = some "Sequence number out of range" ∧
      sh.store.entries = [] ∧ (s.handleData { onlyData with seq := 1 } sh).2.1.store.entries =
      [(chunkKey 7 1, { onlyData with seq := 1 })] ∧
      (s.handleData { onlyData with seq := 1 } sh).1.gapSet.contains 1 = false :=
  ⟨_, _, rfl, by decide, by decide, by decide, by decide⟩

end WazAISentinel.InventorySync
