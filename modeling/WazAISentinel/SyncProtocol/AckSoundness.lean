import WazAISentinel.InventorySync.Delivery
import WazAISentinel.SyncProtocol.SyncRound

/-!
# What an acknowledged round has delivered

The agent and the manager over a network that loses, duplicates, delays and reorders: a message once
sent can arrive at any later time, any number of times or never, also in a later round, and a round
may send its start message several times.

The agent accepts a `StartAck` in the right phase whatever start message it answers. One left over
from an earlier round makes the agent send its items in a session of another size, which is
acknowledged without all of them. If every `StartAck` the agent accepts is about a session opened
for the current round, and the decimal id of no session starts that of another, then all items of a
round that is about to be cleared were handed to the indexer under the session that was
acknowledged.
-/

namespace WazAISentinel.SyncProtocol

open Foundations InventorySync List

/-! ## Agent, manager and network -/

/-- The two parties, the messages the agent ever sent with their rounds, and, as a record of the
run, the items of each round and the round of the start message that opened each session. The
replies ever sent are in the state of the manager. -/
structure SyncWorld where
  agent : Agent
  facade : Facade
  sent : List (Nat × SyncMessage)
  round : Nat
  items : Nat → List PersistedData
  opened : List (Nat × Nat)

/-- A round begins, the synchronizing thread takes a step, a reply or a message arrives, or the
manager takes a step that no message triggers. -/
inductive SyncEvent where
  | start (mode : Mode) (retries : Nat) (fetched : List PersistedData)
  | advance (ok : Bool)
  | deliver (reply : Reply)
  | arrive (round : Nat) (message : SyncMessage) (available : Bool) (drawn : Nat)
  | manager (e : FacadeEvent)
  deriving DecidableEq, Repr

namespace SyncWorld

/-- The manager runs a message; a session that appears was opened for the round of the message. -/
def receive (w : SyncWorld) (info : AgentInfo) (round : Nat) (message : SyncMessage)
    (available : Bool) (drawn : Nat) : SyncWorld :=
  let f := (w.facade.run info message available drawn).1
  { w with
    facade := f
    opened :=
      if (w.facade.sessions drawn).isNone && (f.sessions drawn).isSome then
        (drawn, round) :: w.opened
      else w.opened }

/-- The agent begins a round. -/
def beginRound (w : SyncWorld) (a : Agent) : SyncWorld :=
  { w with
    agent := a
    round := w.round + 1
    items := fun r => if r = w.round + 1 then a.dataToSync else w.items r }

/-- One event. -/
def step (clusterName : String) (info : AgentInfo) (w : SyncWorld) : SyncEvent → Option SyncWorld
  | .start mode retries fetched => (w.agent.start mode retries fetched).map w.beginRound
  | .advance ok =>
    (w.agent.advance ok).map fun r =>
      { w with agent := r.1, sent := w.sent ++ (r.2.map fun m => (w.round, m)).toList }
  | .deliver reply =>
    if w.facade.shared.responses.any fun m => m.reply = reply then
      some { w with agent := { w.agent with sync := w.agent.sync.parseResponse reply } }
    else none
  | .arrive round message available drawn =>
    if (round, message) ∈ w.sent then some (w.receive info round message available drawn)
    else none
  | .manager (.message _ _ _ _) => none
  | .manager e => (w.facade.step clusterName e).map fun f => { w with facade := f }

/-- Before the first round. -/
def init : SyncWorld :=
  ⟨⟨.reset, .idle, .delta, 0, []⟩, Facade.init, [], 0, fun _ => [], []⟩

end SyncWorld

/-- Agent, manager and network as a transition system. -/
def syncSystem (clusterName : String) (info : AgentInfo) : TransitionSystem SyncWorld SyncEvent :=
  ⟨SyncWorld.init, SyncWorld.step clusterName info⟩

/-- No id drawn for a session starts, or is started by, an earlier one, and every `StartAck` the
agent accepts is about a session opened for the current round. -/
def InOrder (w : SyncWorld) : SyncEvent → Prop
  | .arrive _ (.start _) available drawn =>
    available = true → ∀ q ∈ w.opened,
      ¬ (decimal q.1).isPrefixOf (decimal drawn) = true ∧
      ¬ (decimal drawn).isPrefixOf (decimal q.1) = true
  | .deliver (.startAck status session) =>
    w.agent.sync.phase = .waitingStartAck → SyncState.refused status = false →
      (session, w.round) ∈ w.opened
  | _ => True

instance (w : SyncWorld) : DecidablePred (InOrder w)
  | .arrive _ (.start _) available drawn =>
    inferInstanceAs (Decidable (available = true → ∀ q ∈ w.opened,
      ¬ (decimal q.1).isPrefixOf (decimal drawn) = true ∧
      ¬ (decimal drawn).isPrefixOf (decimal q.1) = true))
  | .deliver (.startAck status session) =>
    inferInstanceAs (Decidable (w.agent.sync.phase = .waitingStartAck →
      SyncState.refused status = false → (session, w.round) ∈ w.opened))
  | .arrive _ (.data _) _ _ => isTrue trivial
  | .arrive _ (.finish _) _ _ => isTrue trivial
  | .arrive _ .otherType _ _ => isTrue trivial
  | .arrive _ .invalidBuffer _ _ => isTrue trivial
  | .deliver (.endAck _ _) => isTrue trivial
  | .deliver (.reqRet _ _) => isTrue trivial
  | .start _ _ _ => isTrue trivial
  | .advance _ => isTrue trivial
  | .manager _ => isTrue trivial

/-- Every item of the round was handed to the indexer under the session, with its number, id,
operation and data. -/
def AllHandedOver (w : SyncWorld) (session : Nat) : Prop :=
  ∀ item ∈ w.agent.dataToSync, ∃ x ∈ w.facade.indexed,
    x.context.sessionId = session ∧ x.chunk = some (dataMessage session item)

instance (w : SyncWorld) (session : Nat) : Decidable (AllHandedOver w session) :=
  inferInstanceAs (Decidable (∀ item ∈ w.agent.dataToSync, ∃ x ∈ w.facade.indexed, _))

/-! ## The agent -/

/-- What holds at each place of the synchronizing thread; `mine` are the sessions of the round. -/
def PlaceOk (mine : Nat → Prop) (a : Agent) : Prop :=
  match a.location with
  | .idle => a.sync = .reset
  | .sendStart _ => a.sync.phase = .waitingStartAck
  | .waitStartAck _ => a.sync.phase = .waitingStartAck
  | .checkStartAck =>
    a.sync.phase = .waitingStartAck ∧ (a.sync.startAckReceived || a.sync.syncFailed) = true
  | .readSession => a.sync.phase = .waitingStartAck ∧ a.sync.startAckReceived = true
  | .sendData session rest =>
    a.sync.phase = .waitingStartAck ∧ a.sync.startAckReceived = true ∧ mine session ∧
      ∀ item ∈ rest, item ∈ a.dataToSync
  | .readSessionAgain => a.sync.phase = .waitingStartAck ∧ a.sync.startAckReceived = true
  | .enterEnd session =>
    a.sync.phase = .waitingStartAck ∧ a.sync.startAckReceived = true ∧ mine session
  | .sendEnd session _ _ => a.sync.phase = .waitingEndAck ∧ mine session
  | .waitEndAck session _ _ => a.sync.phase = .waitingEndAck ∧ mine session
  | .checkFailed session _ _ => a.sync.phase = .waitingEndAck ∧ mine session
  | .checkReqRet session _ _ => a.sync.phase = .waitingEndAck ∧ mine session
  | .resendData session _ rest =>
    a.sync.phase = .waitingEndAck ∧ mine session ∧ ∀ item ∈ rest, item ∈ a.dataToSync
  | .checkEndAck session _ _ => a.sync.phase = .waitingEndAck ∧ mine session
  | .finished success => success = true → a.sync.endAckReceived = true

/-- The invariant of the agent; `handed` are the sessions under which the items of the round were
handed over. -/
structure AgentInv (mine handed : Nat → Prop) (a : Agent) : Prop where
  acked : a.sync.startAckReceived = true → mine a.sync.session
  ending : a.sync.phase = .waitingEndAck → a.sync.startAckReceived = true
  ended : a.sync.endAckReceived = true → a.sync.phase = .waitingEndAck ∧ handed a.sync.session
  small : a.dataToSync.length < wordCount
  place : PlaceOk mine a

variable {reply : Reply} {session r drawn : Nat} {ok : Bool} {f : Facade}

namespace AgentInv

variable {mine handed mine' handed' : Nat → Prop} {a a' : Agent}

theorem mono (h : AgentInv mine handed a) (hmine : ∀ s, mine s → mine' s)
    (hhanded : ∀ s, handed s → handed' s) : AgentInv mine' handed' a where
  acked hs := hmine _ (h.acked hs)
  ending := h.ending
  ended hs := (h.ended hs).imp_right (hhanded _)
  small := h.small
  place := by
    have hplace := h.place
    unfold PlaceOk at hplace ⊢
    split at hplace <;> simp_all

/-- Raising flags keeps what holds at a place. -/
theorem placeOk_of_flags (h : PlaceOk mine a) {st : SyncState} (hphase : st.phase = a.sync.phase)
    (hne : a.sync.phase ≠ .idle) (hstart : a.sync.startAckReceived = true →
    st.startAckReceived = true) (hfailed : a.sync.syncFailed = true → st.syncFailed = true)
    (hend : a.sync.endAckReceived = true → st.endAckReceived = true) :
    PlaceOk mine { a with sync := st } := by
  unfold PlaceOk at h ⊢
  split at h <;> simp_all [SyncState.reset]
  -- left over: the condition the wait for the `StartAck` ended with
  rcases h.2 with h | h
  · exact Or.inl (hstart h)
  · exact Or.inr (hfailed h)

section

variable (h : AgentInv mine handed a)

include h

/-- An accepted `StartAck` has to name a session of the round, and an accepted `EndAck` one whose
items were handed over. -/
theorem parseResponse (hstart : ∀ status session, reply = .startAck status session →
      a.sync.phase = .waitingStartAck → SyncState.refused status = false → mine session)
    (hend : ∀ status, reply = .endAck status a.sync.session → a.sync.phase = .waitingEndAck →
      SyncState.refused status = false → mine a.sync.session → handed a.sync.session) :
    AgentInv mine handed { a with sync := a.sync.parseResponse reply } := by
  have hfail : a.sync.phase ≠ .idle →
      AgentInv mine handed { a with sync := { a.sync with syncFailed := true } } := fun hne =>
    { h with place := placeOk_of_flags h.place rfl hne id (fun _ => rfl) id }
  unfold SyncState.parseResponse
  cases reply with
  | startAck status session =>
    dsimp only
    split
    · rename_i hphase
      have hne : a.sync.phase ≠ .idle := by simp [hphase]
      split_ifs with hr
      · exact hfail hne
      · refine ⟨fun _ => hstart status session rfl hphase (by simpa using hr), fun _ => rfl, ?_,
          h.small, placeOk_of_flags h.place rfl hne (fun _ => rfl) id id⟩
        -- an `EndAck` is only accepted in the other phase
        intro hended
        have hp := (h.ended hended).1
        rw [hphase] at hp
        cases hp
    · exact h
  | endAck status session =>
    dsimp only
    split
    · rename_i hvalid
      obtain ⟨hphase, rfl⟩ : a.sync.phase = .waitingEndAck ∧ a.sync.session = session := by
        simpa [SyncState.validatePhaseAndSession] using hvalid
      have hne : a.sync.phase ≠ .idle := by simp [hphase]
      split_ifs with hr
      · exact hfail hne
      · have hmine := h.acked (h.ending hphase)
        exact ⟨h.acked, h.ending, fun _ => ⟨hphase, hend status rfl hphase (by simpa using hr)
          hmine⟩, h.small, placeOk_of_flags h.place rfl hne id id fun _ => rfl⟩
    · exact h
  | reqRet ranges session =>
    dsimp only
    split_ifs with hvalid
    · have hphase : a.sync.phase = .waitingEndAck ∧ a.sync.session = session := by
        simpa [SyncState.validatePhaseAndSession] using hvalid
      have hne : a.sync.phase ≠ .idle := by simp [hphase.1]
      exact { h with place := placeOk_of_flags h.place rfl hne id id id }
    · exact h

theorem move {l : Location} (hplace : PlaceOk mine { a with location := l }) :
    AgentInv mine handed { a with location := l } :=
  { h with place := hplace }

theorem finish_failed : AgentInv mine handed { a with location := .finished false } :=
  h.move fun hs => by cases hs

theorem retryStart (hphase : a.sync.phase = .waitingStartAck) (attempt : Nat) :
    AgentInv mine handed (a.retryStart attempt) := by
  unfold Agent.retryStart
  split
  · exact h.move hphase
  · exact h.finish_failed

section

variable (hphase : a.sync.phase = .waitingEndAck) (hsession : mine session) (attempt : Nat)
  (sendEnd : Bool)

include hphase hsession

theorem retryEnd :
    AgentInv mine handed (a.retryEnd session attempt sendEnd) := by
  unfold Agent.retryEnd
  split
  · exact h.move ⟨hphase, hsession⟩
  · exact h.finish_failed

theorem takeReqRet :
    AgentInv mine handed (a.takeReqRet session attempt sendEnd) := by
  unfold Agent.takeReqRet
  split
  · have htaken : ∀ l : Location, PlaceOk mine { a with
        sync := { a.sync with reqRetRanges := [], reqRetReceived := false }, location := l } →
        AgentInv mine handed { a with
          sync := { a.sync with reqRetRanges := [], reqRetReceived := false }, location := l } :=
      fun l hplace => { h with place := hplace }
    apply htaken
    split
    · exact fun hs => by cases hs
    · split
      · exact fun hs => by cases hs
      · exact ⟨hphase, hsession, fun item hitem => mem_of_mem_filterDataByRanges hitem⟩
  · exact h.move ⟨hphase, hsession⟩

end

/-- What the thread sends is a start message of the round's size or an item of the round. -/
def SendsOwn (mine : Nat → Prop) (a : Agent) : Option SyncMessage → Prop
  | some (.data d) => ∃ session, mine session ∧ ∃ item ∈ a.dataToSync, d = dataMessage session item
  | some (.start st) => st.size = a.dataToSync.length
  | _ => True

/-- One step of the synchronizing thread. -/
theorem advance {message : Option SyncMessage} (hstep : a.advance ok = some (a', message)) :
    AgentInv mine handed a' ∧ a'.dataToSync = a.dataToSync ∧ SendsOwn mine a message := by
  have hplace := h.place
  unfold Agent.advance at hstep
  unfold PlaceOk at hplace
  split at hstep
  · cases hstep
  all_goals (rename_i hloc; simp only [hloc] at hplace)
  · -- sendStart
    split at hstep
    · cases hstep
      refine ⟨h.move hplace, rfl, ?_⟩
      exact Nat.mod_eq_of_lt h.small
    · cases hstep
      exact ⟨h.retryStart hplace _, rfl, trivial⟩
  · -- waitStartAck
    split_ifs at hstep with hcond
    · cases hstep
      exact ⟨h.move ⟨hplace, hcond⟩, rfl, trivial⟩
    · cases hstep
      exact ⟨h.retryStart hplace _, rfl, trivial⟩
  · -- checkStartAck
    split_ifs at hstep with hfailed
    · cases hstep
      exact ⟨h.finish_failed, rfl, trivial⟩
    · cases hstep
      have hacked : a.sync.startAckReceived = true := by simpa [hfailed] using hplace.2
      exact ⟨h.move ⟨hplace.1, hacked⟩, rfl, trivial⟩
  · -- readSession
    cases hstep
    refine ⟨h.move ⟨hplace.1, hplace.2, h.acked hplace.2, fun _ hitem => hitem⟩, rfl, trivial⟩
  · -- sendData, nothing left
    cases hstep
    exact ⟨h.move ⟨hplace.1, hplace.2.1⟩, rfl, trivial⟩
  · -- sendData
    obtain ⟨hphase, hacked, hsession, hrest⟩ := hplace
    rw [forall_mem_cons] at hrest
    split at hstep
    · cases hstep
      exact ⟨h.move ⟨hphase, hacked, hsession, hrest.2⟩, rfl, _, hsession, _, hrest.1, rfl⟩
    · cases hstep
      exact ⟨h.finish_failed, rfl, trivial⟩
  · -- readSessionAgain
    cases hstep
    exact ⟨h.move ⟨hplace.1, hplace.2, h.acked hplace.2⟩, rfl, trivial⟩
  · -- enterEnd
    obtain ⟨hphase, hacked, hsession⟩ := hplace
    cases hstep
    refine ⟨⟨h.acked, fun _ => hacked, ?_, h.small, ⟨rfl, hsession⟩⟩, rfl, trivial⟩
    exact fun hended => ⟨rfl, (h.ended hended).2⟩
  · -- sendEnd
    split at hstep
    · cases hstep
      exact ⟨h.move hplace, rfl, trivial⟩
    · cases hstep
      exact ⟨h.retryEnd hplace.1 hplace.2 _ _, rfl, trivial⟩
  · -- sendEnd after a resend
    cases hstep
    exact ⟨h.move hplace, rfl, trivial⟩
  · -- waitEndAck
    split at hstep
    · cases hstep
      exact ⟨h.move hplace, rfl, trivial⟩
    · cases hstep
      exact ⟨h.retryEnd hplace.1 hplace.2 _ _, rfl, trivial⟩
  · -- checkFailed
    split at hstep
    · cases hstep
      exact ⟨h.finish_failed, rfl, trivial⟩
    · cases hstep
      exact ⟨h.move hplace, rfl, trivial⟩
  · -- checkReqRet
    cases hstep
    refine ⟨h.takeReqRet hplace.1 hplace.2 _ _, ?_, trivial⟩
    unfold Agent.takeReqRet
    split <;> rfl
  · -- resendData, nothing left
    cases hstep
    exact ⟨h.retryEnd hplace.1 hplace.2.1 _ _, rfl, trivial⟩
  · -- resendData
    obtain ⟨hphase, hsession, hrest⟩ := hplace
    rw [forall_mem_cons] at hrest
    split at hstep
    · cases hstep
      exact ⟨h.move ⟨hphase, hsession, hrest.2⟩, rfl, _, hsession, _, hrest.1, rfl⟩
    · cases hstep
      exact ⟨h.finish_failed, rfl, trivial⟩
  · -- checkEndAck
    split_ifs at hstep with hended
    · cases hstep
      exact ⟨h.move fun _ => hended, rfl, trivial⟩
    · cases hstep
      exact ⟨h.retryEnd hplace.1 hplace.2 _ _, rfl, trivial⟩
  · -- finished
    cases hstep
    refine ⟨⟨?_, ?_, ?_, h.small, rfl⟩, rfl, trivial⟩
    all_goals (intro hs; cases hs)

end

end AgentInv

/-! ## The invariant of the run -/

/-- The plan lists the sessions opened so far, each with the items of the round it was opened
for. -/
structure PlanFor (w : SyncWorld) (p : SessionPlan) : Prop where
  ids : p.ids = w.opened.map Prod.fst
  chunks : ∀ s r, (s, r) ∈ w.opened → p.chunks s = (w.items r).map (dataMessage s)

/-- The invariant: the manager follows the plan of the opened sessions, the agent sends what is
planned and knows which sessions are its own. -/
structure Sound (w : SyncWorld) : Prop where
  manager : ∃ p, PlanFor w p ∧ Facade.Delivers p w.facade
  openedRound : ∀ s r, (s, r) ∈ w.opened → r ≤ w.round
  sentRound : ∀ r m, (r, m) ∈ w.sent → r ≤ w.round
  sentData : ∀ r d, (r, .data d) ∈ w.sent →
    (d.session, r) ∈ w.opened ∧ d ∈ (w.items r).map (dataMessage d.session)
  sentStart : ∀ r st, (r, .start st) ∈ w.sent → st.size = (w.items r).length
  numbered : ∀ r, (w.items r).map PersistedData.seq = range (w.items r).length
  current : w.agent.location ≠ .idle → w.agent.dataToSync = w.items w.round
  agent : AgentInv (fun s => (s, w.round) ∈ w.opened) (AllHandedOver w) w.agent

theorem sound_init : Sound SyncWorld.init where
  manager := ⟨⟨[], fun _ => [], by simp, by simp, by simp⟩, ⟨rfl, by simp [SyncWorld.init]⟩,
    Facade.delivers_init⟩
  openedRound _ _ h := by cases h
  sentRound _ _ h := by cases h
  sentData _ _ h := by cases h
  sentStart _ _ h := by cases h
  numbered _ := rfl
  current h := absurd rfl h
  agent := by
    refine ⟨?_, ?_, ?_, by decide, rfl⟩
    all_goals (intro h; cases h)

namespace Sound

variable {w w' : SyncWorld} {clusterName : String} {info : AgentInfo}

theorem items_beginRound_of_le (hr : r ≤ w.round) (a : Agent) :
    (w.beginRound a).items r = w.items r :=
  if_neg (by omega)

section

variable (h : Sound w)

include h

/-- A round begins. Everything sent or opened so far belongs to earlier rounds. -/
theorem beginRound (mode : Mode) (retries : Nat) {items : List PersistedData}
    (hseqs : items.map PersistedData.seq = range items.length) (hsmall : items.length < wordCount) :
    Sound (w.beginRound ⟨{ SyncState.reset with phase := .waitingStartAck }, .sendStart 0, mode,
      retries, items⟩) := by
  obtain ⟨p, hplan, hdelivers⟩ := h.manager
  refine ⟨⟨p, ⟨hplan.ids, ?_⟩, hdelivers⟩, ?_, ?_, ?_, ?_, ?_, ?_, ?_⟩
  · intro s r hs
    rw [items_beginRound_of_le (h.openedRound s r hs)]
    exact hplan.chunks s r hs
  · exact fun s r hs => (h.openedRound s r hs).trans (Nat.le_succ _)
  · exact fun r m hm => (h.sentRound r m hm).trans (Nat.le_succ _)
  · intro r d hd
    rw [items_beginRound_of_le (h.sentRound r _ hd)]
    exact h.sentData r d hd
  · intro r st hst
    rw [items_beginRound_of_le (h.sentRound r _ hst)]
    exact h.sentStart r st hst
  · intro r
    unfold SyncWorld.beginRound
    dsimp only
    split
    · exact hseqs
    · exact h.numbered r
  · intro _
    exact (if_pos rfl).symm
  · refine ⟨?_, ?_, ?_, hsmall, rfl⟩
    all_goals (intro hs; cases hs)

theorem start {mode : Mode} {retries : Nat} {fetched : List PersistedData}
    (hstep : w.step clusterName info (.start mode retries fetched) = some w') : Sound w' := by
  obtain ⟨a, ha, rfl⟩ := Option.map_eq_some_iff.1 hstep
  simp only [Agent.start, Option.ite_none_right_eq_some, Option.some.injEq] at ha
  obtain ⟨hguard, rfl⟩ := ha
  apply h.beginRound
  · rw [map_seq_assignSeq, length_assignSeq]
  · rw [length_assignSeq]
    exact hguard.2.2

/-- The synchronizing thread takes a step. -/
theorem advance (hstep : w.step clusterName info (.advance ok) = some w') : Sound w' := by
  obtain ⟨⟨a, message⟩, ha, rfl⟩ := Option.map_eq_some_iff.1 hstep
  obtain ⟨hagent, hdata, hsends⟩ := h.agent.advance ha
  have hactive : w.agent.location ≠ .idle := by
    intro hidle
    simp [Agent.advance, hidle] at ha
  have hsent : ∀ r m, (r, m) ∈ w.sent ++ (message.map fun m => (w.round, m)).toList →
      (r, m) ∈ w.sent ∨ (r = w.round ∧ message = some m) := by
    intro r m hm
    rcases mem_append.1 hm with hm | hm
    · exact Or.inl hm
    · obtain ⟨_, hm, heq⟩ := Option.map_eq_some_iff.1 (Option.mem_toList.1 hm)
      cases heq
      exact Or.inr ⟨rfl, hm⟩
  obtain ⟨p, hplan, hdelivers⟩ := h.manager
  refine ⟨⟨p, ⟨hplan.ids, hplan.chunks⟩, hdelivers⟩, h.openedRound, ?_, ?_, ?_, h.numbered, ?_, ?_⟩
  · intro r m hm
    rcases hsent r m hm with hm | ⟨rfl, -⟩
    · exact h.sentRound r m hm
    · exact Nat.le_refl _
  · intro r d hd
    rcases hsent r _ hd with hd | ⟨rfl, rfl⟩
    · exact h.sentData r d hd
    · obtain ⟨session, hsession, item, hitem, rfl⟩ := hsends
      rw [h.current hactive] at hitem
      exact ⟨hsession, mem_map_of_mem hitem⟩
  · intro r st hst
    rcases hsent r _ hst with hst | ⟨rfl, rfl⟩
    · exact h.sentStart r st hst
    · rw [← h.current hactive]
      exact hsends
  · intro _
    rw [hdata]
    exact h.current hactive
  · refine hagent.mono (fun _ hs => hs) fun s hs => ?_
    intro item hitem
    rw [hdata] at hitem
    exact hs item hitem

/-- A reply arrives at the agent. -/
theorem deliver (hok : InOrder w (.deliver reply))
    (hstep : w.step clusterName info (.deliver reply) = some w') : Sound w' := by
  simp only [SyncWorld.step, Option.ite_none_right_eq_some, Option.some.injEq] at hstep
  obtain ⟨hreply, rfl⟩ := hstep
  obtain ⟨m, hm, hmreply⟩ := any_eq_true.1 hreply
  obtain ⟨p, hplan, hdelivers⟩ := h.manager
  refine { h with manager := ⟨p, ⟨hplan.ids, hplan.chunks⟩, hdelivers⟩, agent := ?_ }
  apply h.agent.parseResponse
  · rintro status session rfl
    exact hok
  · intro status hend hphase hrefused hmine item hitem
    have hack : m.reply = .endAck status w.agent.sync.session := by
      rw [← hend]
      simpa using hmreply
    have hne : status ≠ .error := by
      rintro rfl
      cases hrefused
    -- the manager sent it, so the planned messages of the session were handed over
    obtain ⟨-, hhanded⟩ := hdelivers.acks m hm status _ hack hne
    have hactive : w.agent.location ≠ .idle := by
      intro hidle
      have hplace := h.agent.place
      simp only [PlaceOk, hidle] at hplace
      rw [hplace] at hphase
      cases hphase
    rw [h.current hactive] at hitem
    apply hhanded
    rw [hplan.chunks _ _ hmine]
    exact mem_map_of_mem hitem

/-- What the manager hands over, and which sessions are open, only grows. -/
theorem agent_mono {opened : List (Nat × Nat)} (hindexed : ∀ x ∈ w.facade.indexed, x ∈ f.indexed)
    (hopened : ∀ q ∈ w.opened, q ∈ opened) :
    AgentInv (fun s => (s, w.round) ∈ opened)
      (AllHandedOver { w with facade := f, opened := opened }) w.agent := by
  refine h.agent.mono (fun s hs => hopened _ hs) fun s hs item hitem => ?_
  obtain ⟨x, hx, hsession, hchunk⟩ := hs item hitem
  exact ⟨x, hindexed x hx, hsession, hchunk⟩

/-- The manager moves on without opening a session. -/
theorem setFacade (hindexed : ∀ x ∈ w.facade.indexed, x ∈ f.indexed)
    (hdelivers : ∀ p, PlanFor w p → Facade.Delivers p w.facade → Facade.Delivers p f) :
    Sound { w with facade := f } := by
  obtain ⟨p, hplan, hdel⟩ := h.manager
  exact { h with
    manager := ⟨p, ⟨hplan.ids, hplan.chunks⟩, hdelivers p hplan hdel⟩
    agent := h.agent_mono hindexed fun _ hq => hq }

/-- The plan with one more session, for the items of a round. -/
def openPlan (p : SessionPlan) (drawn : Nat) (items : List PersistedData)
    (hseqs : items.map PersistedData.seq = range items.length)
    (hapart : ∀ s ∈ p.ids, ¬ (decimal s).isPrefixOf (decimal drawn) = true ∧
      ¬ (decimal drawn).isPrefixOf (decimal s) = true) : SessionPlan where
  ids := drawn :: p.ids
  chunks s := if s = drawn then items.map (dataMessage drawn) else p.chunks s
  apart := by
    intro s hs t ht hpre
    rcases mem_cons.1 hs with hs | hs <;> rcases mem_cons.1 ht with ht | ht
    · rw [hs, ht]
    · rw [hs] at hpre
      exact absurd hpre (hapart t ht).2
    · rw [ht] at hpre
      exact absurd hpre (hapart s hs).1
    · exact p.apart s hs t ht hpre
  seqs := by
    intro s hs
    split_ifs with hne
    · rw [map_map, length_map]
      exact hseqs
    · exact p.seqs s (mem_of_ne_of_mem hne hs)
  session := by
    intro s hs d hd
    split at hd
    · rename_i heq
      obtain ⟨item, -, rfl⟩ := mem_map.1 hd
      exact heq.symm
    · rename_i hne
      exact p.session s (mem_of_ne_of_mem hne hs) d hd

/-- A start message opens a session for the round it was sent in. -/
theorem open_session {st : StartMessage} (hsent : (r, .start st) ∈ w.sent)
    (hapart : ∀ q ∈ w.opened, ¬ (decimal q.1).isPrefixOf (decimal drawn) = true ∧
    ¬ (decimal drawn).isPrefixOf (decimal q.1) = true) {s : AgentSession}
    (hctx : s.context.sessionId = drawn) (hgap : s.gapSet = GapSet.new st.size)
    {sent : List ResponseMessage} (hreply : ∀ m ∈ sent, ∀ status id, m.reply ≠ .endAck status id) :
    Sound { w with
      facade := w.facade.bind drawn s (w.facade.shared.extend [] sent)
      opened := (drawn, r) :: w.opened } := by
  obtain ⟨p, hplan, hdelivers⟩ := h.manager
  have hapart' : ∀ s ∈ p.ids, ¬ (decimal s).isPrefixOf (decimal drawn) = true ∧
      ¬ (decimal drawn).isPrefixOf (decimal s) = true := by
    intro s hs
    rw [hplan.ids] at hs
    obtain ⟨q, hq, rfl⟩ := mem_map.1 hs
    exact hapart q hq
  -- an id that starts no other and is started by no other is new
  have hfresh : drawn ∉ p.ids := fun hmem =>
    (hapart' drawn hmem).1 (List.isPrefixOf_iff_prefix.2 prefix_rfl)
  have hne : ∀ s ∈ p.ids, s ≠ drawn := fun s hs heq => hfresh (heq ▸ hs)
  have hmem : ∀ t q, (t, q) ∈ w.opened → t ∈ p.ids := by
    intro t q ht
    rw [hplan.ids]
    exact mem_map.2 ⟨(t, q), ht, rfl⟩
  have hsize : s.gapSet.size = (w.items r).length := by
    rw [hgap, ← h.sentStart r st hsent]
    rfl
  refine ⟨⟨openPlan p drawn (w.items r) (h.numbered r) hapart', ⟨?_, ?_⟩, ?_⟩, ?_, h.sentRound, ?_,
    h.sentStart, h.numbered, h.current, ?_⟩
  · simp [openPlan, hplan.ids]
  · intro t q ht
    rcases mem_cons.1 ht with heq | ht
    · cases heq
      simp [openPlan]
    · simp only [openPlan, if_neg (hne t (hmem t q ht))]
      exact hplan.chunks t q ht
  · refine hdelivers.open_session ?_ hfresh (by simp [openPlan]) hctx ?_ ?_ sent hreply
    · intro t ht
      exact ⟨mem_cons_of_mem _ ht, if_neg (hne t ht)⟩
    · simp [openPlan, hsize]
    · rw [hgap]
      exact represents_new st.size_lt
  · intro t q ht
    rcases mem_cons.1 ht with heq | ht
    · cases heq
      exact h.sentRound _ _ hsent
    · exact h.openedRound t q ht
  · intro q d hd
    obtain ⟨hopened, hitem⟩ := h.sentData q d hd
    exact ⟨mem_cons_of_mem _ hopened, hitem⟩
  · exact h.agent_mono (fun _ hx => hx) fun _ hq => mem_cons_of_mem _ hq

/-- A message of the agent arrives at the manager. -/
theorem receive {message : SyncMessage} {available : Bool} (hsent : (r, message) ∈ w.sent)
    (hok : InOrder w (.arrive r message available drawn)) :
    Sound (w.receive info r message available drawn) := by
  have hindexed :
      ∀ x ∈ w.facade.indexed, x ∈ (w.facade.run info message available drawn).1.indexed := by
    rw [Facade.indexed_run]
    exact fun _ hx => hx
  have hsame : (∀ id, (w.facade.run info message available drawn).1.Live id → w.facade.Live id) →
      w.receive info r message available drawn =
        { w with facade := (w.facade.run info message available drawn).1 } := by
    intro hlive
    unfold SyncWorld.receive
    dsimp only
    rw [if_neg]
    intro hopen
    simp only [Bool.and_eq_true, Option.isNone_iff_eq_none] at hopen
    have hold := hlive drawn hopen.2
    rw [Facade.Live, hopen.1] at hold
    cases hold
  cases message with
  | data data =>
    obtain ⟨hopened, hitem⟩ := h.sentData r data hsent
    rw [hsame fun id => Facade.live_of_live_run (by simp)]
    refine h.setFacade hindexed fun p hplan hdelivers => hdelivers.runData fun _ => ?_
    rw [hplan.chunks _ _ hopened]
    exact hitem
  | start st =>
    have hran := w.facade.run_spec info (.start st) available drawn
    generalize hrun : (w.facade.run info (.start st) available drawn).1 = f at hran hsame
    cases hran with
    | ignored =>
      rw [hsame fun _ hl => hl]
      exact h
    | answered hreply =>
      rw [hsame fun _ hl => hl]
      exact h.setFacade (fun _ hx => hx) fun p _ hdelivers => hdelivers.extend_sent _ hreply
    | opened hnone havailable hid hagent hgap hreply =>
      unfold SyncWorld.receive
      dsimp only
      rw [hrun, if_pos (by simp [hnone, Facade.bind])]
      exact h.open_session hsent (hok havailable) hid hgap hreply
  | finish session =>
    rw [hsame fun id => Facade.live_of_live_run (by simp)]
    exact h.setFacade hindexed fun p _ hdelivers => hdelivers.runEnd session
  | otherType | invalidBuffer =>
    rw [hsame fun id => Facade.live_of_live_run (by simp)]
    exact h

/-- The manager takes a step that no message triggers. -/
theorem managerStep {e : FacadeEvent} (hstep : w.step clusterName info (.manager e) = some w') :
    Sound w' := by
  have hevent : ∀ i m a d, e ≠ .message i m a d := by
    rintro i m a d rfl
    cases hstep
  have hfacade : (w.facade.step clusterName e).map (fun f => { w with facade := f }) = some w' := by
    cases e with
    | message i m a d => exact absurd rfl (hevent i m a d)
    | _ => exact hstep
  obtain ⟨f, hf, rfl⟩ := Option.map_eq_some_iff.1 hfacade
  apply h.setFacade
  · intro x hx
    obtain ⟨calls, hcalls, -⟩ := Facade.indexesOwnChunks_of_step hf
    rw [hcalls]
    exact mem_append_left _ hx
  · intro p _ hdelivers
    exact hdelivers.step_internal hevent hf

/-- The step lemma. -/
theorem step {e : SyncEvent} (hok : InOrder w e) (hstep : w.step clusterName info e = some w') :
    Sound w' := by
  cases e with
  | start mode retries fetched => exact h.start hstep
  | advance ok => exact h.advance hstep
  | deliver reply => exact h.deliver hok hstep
  | arrive round message available drawn =>
    simp only [SyncWorld.step, Option.ite_none_right_eq_some, Option.some.injEq] at hstep
    obtain ⟨hsent, rfl⟩ := hstep
    exact h.receive hsent hok
  | manager e => exact h.managerStep hstep

end

end Sound

/-- In every run in which the sessions keep apart and each accepted `StartAck` is about a session of
its round, each item that the agent is about to clear was handed to the indexer under the session
whose `EndAck` was accepted. -/
theorem cleared_items_handedOver (clusterName : String) (info : AgentInfo) (es : List SyncEvent)
    (w : SyncWorld) (hmeet : (syncSystem clusterName info).StepsMeet InOrder SyncWorld.init es)
    (hrun : (syncSystem clusterName info).run es = some w)
    (hclear : w.agent.location = .finished true) : AllHandedOver w w.agent.sync.session := by
  have hsound : Sound w := by
    apply (syncSystem clusterName info).runFrom_induction_of_stepsMeet (P := Sound) _ sound_init
      hmeet hrun
    intro s e t hs hok ht
    exact hs.step hok ht
  have hplace := hsound.agent.place
  simp only [PlaceOk, hclear] at hplace
  exact (hsound.agent.ended (hplace trivial)).2

/-- An item of a round. -/
def exampleItem (id : String) : PersistedData := ⟨0, id, "index", "data", .delete⟩

/-- The agent of the runs below. -/
def exampleAgent : AgentInfo := plainAgent "001" "fim"

/-- Steps of the synchronizing thread, each send of which succeeds. -/
def steps (n : Nat) : List SyncEvent := replicate n (.advance true)

/-- A start message for `n` items. -/
def exampleStart (n : Nat) (h : n < wordCount) : SyncMessage := .start ⟨.delta, n, h⟩

theorem one_lt_wordCount : 1 < wordCount := by decide

/-- A round of one item fails because its `StartAck` is late. The next round has two items and
accepts that `StartAck`; its second data message is lost. -/
def staleRun : List SyncEvent :=
  flatten [
    [.start .delta 0 [exampleItem "a"]], steps 1,
    [.arrive 1 (exampleStart 1 one_lt_wordCount) true 7], steps 2,
    [.start .delta 0 [exampleItem "a", exampleItem "b"]], steps 1, [.deliver (.startAck .ok 7)],
    steps 9,
    [.arrive 2 (.data (dataMessage 7 (exampleItem "a"))) true 0, .arrive 2 (.finish 7) true 0,
      .manager (.index 7 none), .manager (.notify 7), .deliver (.endAck .ok 7)],
    steps 4]

/-- The agent is about to clear two items, and one of them never reached the manager. -/
theorem cleared_without_delivery :
    ∃ w, (syncSystem "wazuh" exampleAgent).run staleRun = some w ∧
      w.agent.location = .finished true ∧ ¬ AllHandedOver w w.agent.sync.session := by
  have h : ((syncSystem "wazuh" exampleAgent).run staleRun).any (fun w =>
      w.agent.location = .finished true ∧ ¬ AllHandedOver w w.agent.sync.session) = true := by
    decide +kernel
  simpa only [Option.any_eq_true, decide_eq_true_eq] using h

/-- A round of two items whose second data message is lost, asked for and sent again. -/
def resendRun : List SyncEvent :=
  flatten [
    [.start .delta 1 [exampleItem "a", exampleItem "b"]], steps 1,
    [.arrive 1 (exampleStart 2 (by decide)) true 7, .deliver (.startAck .ok 7)], steps 9,
    [.arrive 1 (.data (dataMessage 7 (exampleItem "a"))) true 0, .arrive 1 (.finish 7) true 0,
      .deliver (.reqRet [(1, 1)] 7)],
    steps 6,
    [.arrive 1 (.data (dataMessage 7 { exampleItem "b" with seq := 1 })) true 0,
      .manager (.index 7 none), .manager (.notify 7), .deliver (.endAck .ok 7)],
    steps 4]

/-- Both items were handed over when the round is cleared. -/
theorem cleared_items_handedOver_resent :
    ∃ w, (syncSystem "wazuh" exampleAgent).run resendRun = some w ∧
      w.agent.dataToSync.length = 2 ∧ AllHandedOver w 7 := by
  have h : ((syncSystem "wazuh" exampleAgent).run resendRun).any (fun w =>
      w.agent.location = .finished true ∧ w.agent.dataToSync.length = 2 ∧
        w.agent.sync.session = 7) = true := by
    decide +kernel
  simp only [Option.any_eq_true, decide_eq_true_eq] at h
  obtain ⟨w, hrun, hclear, hlength, hsession⟩ := h
  refine ⟨w, hrun, hlength, ?_⟩
  rw [← hsession]
  exact cleared_items_handedOver "wazuh" exampleAgent resendRun w (by decide +kernel) hrun hclear

end WazAISentinel.SyncProtocol
