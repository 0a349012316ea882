import WazAISentinel.InventorySync.ChunkIsolation

/-!
# Agents do not see each other

A data or end message is routed by the session id it carries, and no handler compares the sender
with the owner of the session. So another agent that names a session of `agent` changes what is
indexed under `agent`.

This and the deletion by a bare decimal prefix are the only ways: two runs with the same events of
`agent` and its sessions write the same documents if no other agent names a session of `agent`, or
draws an id that starts one. The proof restricts a state to what belongs to `agent`
(`Facade.restrict`): a step of `agent` acts on the restriction alone, and every other step leaves it
as it is.
-/

namespace WazAISentinel.InventorySync

open Foundations OrderedStore

/-- The decimal id of the session is not an initial part of an id in `ids`; in particular it is none
of them. -/
def Foreign (ids : List Nat) (session : Nat) : Prop :=
  ∀ id ∈ ids, ¬ (decimal session).isPrefixOf (decimal id) = true

instance (ids : List Nat) (session : Nat) : Decidable (Foreign ids session) :=
  inferInstanceAs (Decidable (∀ id ∈ ids, _))

variable {session drawn : Nat} {data : DataMessage} {available : Bool} {ctx : Context}
  {info : AgentInfo} {message : SyncMessage} {e : FacadeEvent} {response : Response}
  {es : List FacadeEvent}

theorem Foreign.not_mem {ids : List Nat} (h : Foreign ids session) : session ∉ ids := fun hmem =>
  h session hmem (List.isPrefixOf_iff_prefix.2 List.prefix_rfl)

/-! ## The events of an agent -/

variable (agent : String)

/-- The session ids drawn for the start messages of the agent. -/
def drawnFor (es : List FacadeEvent) : List Nat :=
  es.filterMap fun
    | .message info (.start _) true drawn =>
      if padAgentId info.id = agent then some drawn else none
    | _ => none

/-- The part of an event that concerns the agent, whose session ids are `ids`. -/
def agentEvent (ids : List Nat) : FacadeEvent → Option FacadeEvent
  | .message info message available drawn =>
    if padAgentId info.id = agent then some (.message info message available drawn) else none
  | .index session accepted =>
    if session ∈ ids then some (.index session accepted) else none
  | .notify session => if session ∈ ids then some (.notify session) else none
  | .timeout expired =>
    if expired.filter (· ∈ ids) = [] then none else some (.timeout (expired.filter (· ∈ ids)))

/-- The events of a run that concern the agent, in their order. -/
def agentEvents (es : List FacadeEvent) : List FacadeEvent :=
  es.filterMap (agentEvent agent (drawnFor agent es))

/-- A message of another agent names no session in `ids`, and a start of another agent draws no id
that is, or starts, one in `ids`. -/
def LeavesAlone (ids : List Nat) : FacadeEvent → Prop
  | .message info message available drawn =>
    padAgentId info.id ≠ agent →
      match message with
      | .data data => data.session ∉ ids
      | .start _ => available = true → Foreign ids drawn
      | .finish session => session ∉ ids
      | _ => True
  | _ => True

instance (agent : String) (ids : List Nat) : DecidablePred (LeavesAlone agent ids)
  | .message info (.data data) _ _ =>
    inferInstanceAs (Decidable (padAgentId info.id ≠ agent → data.session ∉ ids))
  | .message info (.start _) available drawn =>
    inferInstanceAs (Decidable (padAgentId info.id ≠ agent → available = true → Foreign ids drawn))
  | .message info (.finish session) _ _ =>
    inferInstanceAs (Decidable (padAgentId info.id ≠ agent → session ∉ ids))
  | .message info .otherType _ _ => inferInstanceAs (Decidable (padAgentId info.id ≠ agent → True))
  | .message info .invalidBuffer _ _ =>
    inferInstanceAs (Decidable (padAgentId info.id ≠ agent → True))
  | .index _ _ => isTrue trivial
  | .notify _ => isTrue trivial
  | .timeout _ => isTrue trivial

/-- A start of the agent draws an id in `ids`. -/
def DrawsFrom (agent : String) (ids : List Nat) : FacadeEvent → Prop
  | .message info (.start _) available drawn =>
    padAgentId info.id = agent → available = true → drawn ∈ ids
  | _ => True

/-- The calls made to the indexer under the agent's id. -/
def documentsOf (f : Facade) (agent : String) : List IndexerCall :=
  (f.indexed.filter fun x => x.context.agentId = agent).map Indexed.call

/-! ## The restriction of a state -/

/-- The key belongs to a session in `ids`. -/
def keyOwned (ids : List Nat) (key : List Char) : Bool :=
  ids.any fun id => (chunkPrefix id).isPrefixOf key

theorem keyOwned_chunkKey {ids : List Nat} {seq : Nat} :
    keyOwned ids (chunkKey session seq) = true ↔ session ∈ ids := by
  simp only [keyOwned, List.any_eq_true, chunkPrefix_isPrefixOf_chunkKey]
  constructor
  · rintro ⟨id, hid, rfl⟩
    exact hid
  · intro h
    exact ⟨session, h, rfl⟩

namespace Facade

/-- What belongs to the agent; replies are left out, since nothing reads them. -/
def restrict (agent : String) (ids : List Nat) (f : Facade) : Facade where
  sessions id := if id ∈ ids then f.sessions id else none
  shared :=
    { store := f.shared.store.filter (keyOwned ids)
      indexerQueue := f.shared.indexerQueue.filter fun r => r.context.sessionId ∈ ids
      responses := [] }
  notify := f.notify.filter fun ctx => ctx.sessionId ∈ ids
  indexed := f.indexed.filter fun x => x.context.agentId = agent

/-- The two states have the same restriction. -/
structure SameFor (agent : String) (ids : List Nat) (f g : Facade) : Prop where
  sessions : ∀ id ∈ ids, f.sessions id = g.sessions id
  store : f.shared.store.filter (keyOwned ids) = g.shared.store.filter (keyOwned ids)
  queue : f.shared.indexerQueue.filter (fun r => r.context.sessionId ∈ ids) =
    g.shared.indexerQueue.filter fun r => r.context.sessionId ∈ ids
  notify : f.notify.filter (fun ctx => ctx.sessionId ∈ ids) =
    g.notify.filter fun ctx => ctx.sessionId ∈ ids
  indexed : f.indexed.filter (fun x => x.context.agentId = agent) =
    g.indexed.filter fun x => x.context.agentId = agent

variable {agent : String} {ids : List Nat} {clusterName : String} {f f' g : Facade}

theorem SameFor.restrict_eq (h : SameFor agent ids f g) :
    f.restrict agent ids = g.restrict agent ids := by
  have hsessions : (fun id => if id ∈ ids then f.sessions id else none) =
      fun id => if id ∈ ids then g.sessions id else none := by
    funext id
    split_ifs with hid
    · exact h.sessions id hid
    · rfl
  unfold restrict
  rw [hsessions, h.store, h.queue, h.notify, h.indexed]

theorem sameFor_restrict (agent : String) (ids : List Nat) (f : Facade) :
    SameFor agent ids f (f.restrict agent ids) where
  sessions id hid := by simp [restrict, hid]
  store := by
    refine ext_mem fun e => ?_
    simp [restrict, mem_filter]
  queue := by simp [restrict]
  notify := by simp [restrict]
  indexed := by simp [restrict]

theorem SameFor.refl (f : Facade) : SameFor agent ids f f := ⟨fun _ _ => rfl, rfl, rfl, rfl, rfl⟩

/-! ## Steps of the agent act on the restriction -/

namespace SameFor

section

variable (h : SameFor agent ids f g)

include h

theorem bind (session : Nat) (s : AgentSession) (pushed : List Response)
    (sent sent' : List ResponseMessage) :
    SameFor agent ids (f.bind session s (f.shared.extend pushed sent))
      (g.bind session s (g.shared.extend pushed sent')) :=
  { h with
    sessions id hid := by simp [Facade.bind, h.sessions id hid]
    queue := by simp [Facade.bind, Shared.extend, List.filter_append, h.queue] }

theorem put (key : List Char) (data : DataMessage) :
    SameFor agent ids { f with shared := f.shared.put key data }
      { g with shared := g.shared.put key data } :=
  { h with store := filter_put_congr h.store data }

theorem send (sent sent' : List ResponseMessage) :
    SameFor agent ids { f with shared := f.shared.extend [] sent }
      { g with shared := g.shared.extend [] sent' } :=
  { h with queue := by simp [Shared.extend, h.queue] }

theorem record (calls : List Indexed) : SameFor agent ids (f.record calls) (g.record calls) :=
  { h with indexed := by simp [Facade.record, List.filter_append, h.indexed] }

theorem registerNotify (ctx : Context) :
    SameFor agent ids (f.registerNotify ctx) (g.registerNotify ctx) :=
  { h with notify := by simp [Facade.registerNotify, List.filter_append, h.notify] }

theorem close (status : Status) (ctx : Context) :
    SameFor agent ids (f.close status ctx) (g.close status ctx) :=
  { h with
    sessions id hid := by simp [Facade.close, h.sessions id hid]
    store := by
      simp only [Facade.close, Shared.send, deleteByPrefix, deleteRange]
      rw [filter_filter_comm, h.store, filter_filter_comm] }

theorem eraseIf {expired expired' : Nat → Bool} (heq : ∀ id ∈ ids, expired id = expired' id) :
    SameFor agent ids (f.eraseIf expired) (g.eraseIf expired') :=
  { h with sessions id hid := by simp [Facade.eraseIf, h.sessions id hid, heq id hid] }

/-- A data message for a session of the agent. -/
theorem runData (hid : data.session ∈ ids) :
    SameFor agent ids (f.runData data).1 (g.runData data).1 := by
  simp only [Facade.runData, ← h.sessions _ hid]
  cases f.sessions data.session with
  | none => exact h
  | some s =>
    obtain ⟨s', pushed, err, -, -, hcall⟩ := s.handleData_eq_extend data
    simp only [hcall]
    exact (h.put _ data).bind data.session s' pushed [] []

theorem runEnd (hid : session ∈ ids) :
    SameFor agent ids (f.runEnd session).1 (g.runEnd session).1 := by
  simp only [Facade.runEnd, ← h.sessions _ hid]
  cases f.sessions session with
  | none => exact h
  | some s =>
    obtain ⟨s', pushed, sent, -, -, hcall⟩ := s.handleEnd_eq_extend
    simp only [hcall]
    exact h.bind session s' pushed sent sent

/-- A start message that draws an id of the agent. -/
theorem runStart (info : AgentInfo) (start : StartMessage) (hid : available = true → drawn ∈ ids) :
    SameFor agent ids (f.runStart info start available drawn).1
      (g.runStart info start available drawn).1 := by
  cases available with
  | false => exact { h with }
  | true =>
    obtain ⟨result, sent, -, -, hnew⟩ := AgentSession.new_eq_extend drawn info start
    simp only [Facade.runStart, ← h.sessions _ (hid rfl), hnew, Bool.not_true, Bool.false_eq_true,
      if_false]
    split
    · exact h
    · cases result with
      | ok s => exact h.bind drawn s [] sent sent
      | error e => exact h.send sent sent

end

end SameFor

/-! ## Steps about other agents leave the restriction as it is -/

/-- The context is one of the agent, or one of another agent whose session id is foreign. -/
def Belongs (agent : String) (ids : List Nat) (ctx : Context) : Prop :=
  (ctx.agentId = agent ∧ ctx.sessionId ∈ ids) ∨ (ctx.agentId ≠ agent ∧ Foreign ids ctx.sessionId)

theorem Belongs.agentId_ne (h : Belongs agent ids ctx) (hid : ctx.sessionId ∉ ids) :
    ctx.agentId ≠ agent := by
  rcases h with ⟨-, hmem⟩ | ⟨hne, -⟩
  · exact absurd hmem hid
  · exact hne

theorem Belongs.foreign (h : Belongs agent ids ctx) (hid : ctx.sessionId ∉ ids) :
    Foreign ids ctx.sessionId := by
  rcases h with ⟨-, hmem⟩ | ⟨-, hforeign⟩
  · exact absurd hmem hid
  · exact hforeign

/-- Every context in the state belongs to the agent or is foreign, and every key is a chunk key. -/
structure Owned (agent : String) (ids : List Nat) (f : Facade) : Prop where
  sessions : ∀ id s, f.sessions id = some s → s.context.sessionId = id ∧ Belongs agent ids s.context
  queue : ∀ r ∈ f.shared.indexerQueue, Belongs agent ids r.context
  notify : ∀ ctx ∈ f.notify, Belongs agent ids ctx
  keys : ∀ entry ∈ f.shared.store.entries, ∃ session seq, entry.1 = chunkKey session seq

theorem sameFor_bind_other {session : Nat} (hid : session ∉ ids) (s : AgentSession)
    {pushed : List Response} (hpushed : ∀ r ∈ pushed, r.context.sessionId = session)
    (sent : List ResponseMessage) :
    SameFor agent ids (f.bind session s (f.shared.extend pushed sent)) f :=
  { SameFor.refl f with
    sessions id hmem := by
      have hne : id ≠ session := fun h => hid (h ▸ hmem)
      simp [bind, hne]
    queue := by
      have hnil : pushed.filter (fun r => r.context.sessionId ∈ ids) = [] :=
        List.filter_eq_nil_iff.2 fun r hr => by simpa [hpushed r hr] using hid
      simp [bind, Shared.extend, List.filter_append, hnil] }

/-- A message that neither names nor opens a session of the agent. -/
theorem sameFor_run_other (hf : Owned agent ids f)
    (hother : match message with
      | .data data => data.session ∉ ids
      | .start _ => available = true → drawn ∉ ids
      | .finish session => session ∉ ids
      | _ => True) :
    SameFor agent ids (f.run info message available drawn).1 f := by
  have hran := f.run_spec info message available drawn
  generalize (f.run info message available drawn).1 = f' at hran
  cases hran with
  | ignored => exact SameFor.refl f
  | @stored data s s' pushed hs hctx hpushed =>
    have hkey : keyOwned ids (chunkKey data.session data.seq) = false := by
      rw [← Bool.not_eq_true, keyOwned_chunkKey]
      exact hother
    have hsame : ∀ r ∈ pushed, r.context.sessionId = data.session := by
      intro r hr
      rw [hpushed r hr, (hf.sessions _ s hs).1]
    have hbind := @sameFor_bind_other agent ids
      { f with shared := f.shared.put (chunkKey data.session data.seq) data } _ hother s' _ hsame []
    exact { hbind with store := filter_put_of_neg _ _ hkey }
  | ended hs hctx hpushed =>
    apply sameFor_bind_other hother
    intro r hr
    rw [hpushed r hr, (hf.sessions _ _ hs).1]
  | answered => exact { SameFor.refl f with queue := by simp [Shared.extend] }
  | opened hnone havailable => exact sameFor_bind_other (hother havailable) _ (by simp) _

/-- The chunks of the agent survive the end of a foreign session. -/
theorem sameFor_close_other (hf : Owned agent ids f) (status : Status)
    (hctx : Foreign ids ctx.sessionId) : SameFor agent ids (f.close status ctx) f :=
  { SameFor.refl f with
    sessions id hid := by
      have hne : id ≠ ctx.sessionId := fun h => hctx.not_mem (h ▸ hid)
      simp [close, hne]
    store := by
      refine ext_mem fun e => ?_
      simp only [close, mem_filter]
      refine and_congr_left fun howned => ⟨fun h => (mem_filter _ |>.1 h).1, ?_⟩
      intro hmem
      obtain ⟨key, data⟩ := e
      obtain ⟨session, seq, rfl⟩ := hf.keys _ hmem
      exact mem_deleteByPrefix.2 ⟨hmem, hctx session (keyOwned_chunkKey.1 howned)⟩ }

theorem sameFor_record_other {calls : List Indexed}
    (hcalls : ∀ x ∈ calls, x.context.agentId ≠ agent) : SameFor agent ids (f.record calls) f :=
  { (SameFor.refl f : SameFor agent ids f f) with
    indexed := by
      have hnil : calls.filter (fun x => x.context.agentId = agent) = [] :=
        List.filter_eq_nil_iff.2 fun x hx => by simpa using hcalls x hx
      simp [record, List.filter_append, hnil] }

theorem sameFor_registerNotify_other (hctx : ctx.sessionId ∉ ids) :
    SameFor agent ids (f.registerNotify ctx) f :=
  { SameFor.refl f with notify := by simp [registerNotify, List.filter_append, hctx] }

theorem SameFor.trans {h : Facade} (hfg : SameFor agent ids f g) (hgh : SameFor agent ids g h) :
    SameFor agent ids f h where
  sessions id hid := (hfg.sessions id hid).trans (hgh.sessions id hid)
  store := hfg.store.trans hgh.store
  queue := hfg.queue.trans hgh.queue
  notify := hfg.notify.trans hgh.notify
  indexed := hfg.indexed.trans hgh.indexed

/-! ## The invariant -/

theorem owned_init : Owned agent ids Facade.init where
  sessions _ _ h := by cases h
  queue _ h := by cases h
  notify _ h := by cases h
  keys _ h := by cases h

namespace Owned

section

variable (hf : Owned agent ids f)

include hf

theorem bind {s : AgentSession}
    (hs : s.context.sessionId = session ∧ Belongs agent ids s.context) {pushed : List Response}
    (hpushed : ∀ r ∈ pushed, Belongs agent ids r.context) (sent : List ResponseMessage) :
    Owned agent ids (f.bind session s (f.shared.extend pushed sent)) :=
  { hf with
    sessions id s' h := by
      simp only [Facade.bind] at h
      split_ifs at h with heq
      · cases h
        exact heq ▸ hs
      · exact hf.sessions id s' h
    queue := List.forall_mem_append.2 ⟨hf.queue, hpushed⟩ }

theorem put (data : DataMessage) :
    Owned agent ids { f with shared := f.shared.put (chunkKey data.session data.seq) data } :=
  { hf with
    keys entry h := by
      rcases (mem_put _).1 h with rfl | ⟨h, -⟩
      · exact ⟨data.session, data.seq, rfl⟩
      · exact hf.keys entry h }

theorem close (status : Status) (ctx : Context) : Owned agent ids (f.close status ctx) :=
  { hf with
    sessions id s h := hf.sessions id s (Option.ite_none_left_eq_some.1 h).2
    keys entry h := hf.keys entry ((mem_filter _).1 h).1 }

theorem popResponse : Owned agent ids f.popResponse :=
  { hf with queue r h := hf.queue r (List.mem_of_mem_tail h) }

theorem popNotify : Owned agent ids f.popNotify :=
  { hf with notify ctx h := hf.notify ctx (List.mem_of_mem_tail h) }

theorem record (calls : List Indexed) : Owned agent ids (f.record calls) :=
  { hf with }

theorem registerNotify (hctx : Belongs agent ids ctx) : Owned agent ids (f.registerNotify ctx) :=
  { hf with
    notify := List.forall_mem_append.2 ⟨hf.notify, List.forall_mem_singleton.2 hctx⟩ }

theorem eraseIf (expired : Nat → Bool) : Owned agent ids (f.eraseIf expired) :=
  { hf with sessions id s h := hf.sessions id s (Option.ite_none_left_eq_some.1 h).2 }

theorem indexResponse (hctx : Belongs agent ids ctx) (accepted : Option Nat) :
    Owned agent ids (f.indexResponse clusterName ctx accepted) := by
  refine indexResponse_elim (fun _ => hf) (fun _ _ => ?_) fun _ _ => ?_
  · exact (hf.record _).registerNotify hctx
  · exact (hf.record _).close _ _

theorem run (halone : LeavesAlone agent ids (.message info message available drawn))
    (hdraws : DrawsFrom agent ids (.message info message available drawn)) :
    Owned agent ids (f.run info message available drawn).1 := by
  have hran := f.run_spec info message available drawn
  generalize (f.run info message available drawn).1 = f' at hran
  cases hran with
  | ignored => exact hf
  | stored hs hctx hpushed =>
    have hown := hf.sessions _ _ hs
    refine (hf.put _).bind (by rwa [hctx]) (fun r hr => ?_) []
    rw [hpushed r hr]
    exact hown.2
  | ended hs hctx hpushed =>
    have hown := hf.sessions _ _ hs
    refine hf.bind (by rwa [hctx]) (fun r hr => ?_) _
    rw [hpushed r hr]
    exact hown.2
  | answered => exact ⟨hf.sessions, by simpa [Shared.extend] using hf.queue, hf.notify, hf.keys⟩
  | opened hnone havailable hid hagent =>
    refine hf.bind ⟨hid, ?_⟩ (by simp) _
    -- the sender of the start owns the session
    by_cases h : padAgentId info.id = agent
    · exact Or.inl ⟨hagent.trans h, hid ▸ hdraws h havailable⟩
    · exact Or.inr ⟨hagent ▸ h, hid ▸ halone h havailable⟩

/-- The step lemma of the invariant. -/
theorem step (halone : LeavesAlone agent ids e) (hdraws : DrawsFrom agent ids e)
    (hstep : f.step clusterName e = some f') : Owned agent ids f' := by
  cases e with
  | message info message available drawn =>
    cases hstep
    exact hf.run halone hdraws
  | index session accepted =>
    obtain ⟨response, hq, -, rfl⟩ := step_index_iff.1 hstep
    exact hf.popResponse.indexResponse (hf.queue response (List.mem_of_head? hq)) accepted
  | notify session =>
    obtain ⟨ctx, -, -, rfl⟩ := step_notify_iff.1 hstep
    exact hf.popNotify.close _ _
  | timeout expired =>
    cases hstep
    exact hf.eraseIf _

end

end Owned

/-! ## The indexer thread -/

/-- The chunks of a session of the agent are read from the restriction. -/
theorem SameFor.chunks (h : SameFor agent ids f g) (hid : session ∈ ids) :
    f.chunks session = g.chunks session := by
  have hview : ∀ k : Facade, k.chunks session =
      chunksUnder (k.shared.store.filter (keyOwned ids)) session := by
    intro k
    rw [chunks_eq_chunksUnder, chunksUnder, chunksUnder]
    simp only [filter, List.filter_filter]
    congr 1
    refine List.filter_congr fun entry _ => ?_
    -- a key under the prefix of the session is owned
    cases hp : (chunkPrefix session).isPrefixOf entry.1 with
    | false => simp
    | true =>
      have howned : keyOwned ids entry.1 = true := List.any_eq_true.2 ⟨session, hid, hp⟩
      simp [howned]
  rw [hview f, hview g, h.store]

theorem SameFor.indexResponse (h : SameFor agent ids f g) (hid : ctx.sessionId ∈ ids)
    (accepted : Option Nat) :
    SameFor agent ids (f.indexResponse clusterName ctx accepted)
      (g.indexResponse clusterName ctx accepted) := by
  have hcalls : f.indexCalls clusterName ctx accepted = g.indexCalls clusterName ctx accepted := by
    simp only [indexCalls, h.chunks hid]
  rw [Facade.indexResponse, Facade.indexResponse, ← h.sessions _ hid, ← hcalls]
  cases f.sessions ctx.sessionId with
  | none => exact h
  | some s =>
    dsimp only
    split
    · exact (h.record _).registerNotify _
    · exact (h.record _).close _ _

section

variable (hf : Owned agent ids f)

include hf

theorem sameFor_indexResponse_other (hctx : Belongs agent ids ctx) (hid : ctx.sessionId ∉ ids)
    (accepted : Option Nat) : SameFor agent ids (f.indexResponse clusterName ctx accepted) f := by
  have hcalls : ∀ x ∈ (f.indexCalls clusterName ctx accepted).1, x.context.agentId ≠ agent := by
    intro x hx
    rw [(indexCalls_spec accepted).1 x hx]
    exact hctx.agentId_ne hid
  refine indexResponse_elim (P := (SameFor agent ids · f)) (fun _ => SameFor.refl f) (fun _ _ => ?_)
    fun _ _ => ?_
  · exact (sameFor_registerNotify_other hid).trans (sameFor_record_other hcalls)
  · exact (sameFor_close_other (hf.record _) _ (hctx.foreign hid)).trans
      (sameFor_record_other hcalls)

/-! ## Steps -/

/-- A message of the agent acts on the restriction alone, even if it names a session of another. -/
theorem sameFor_run_agent (hagent : padAgentId info.id = agent)
    (hdraws : DrawsFrom agent ids (.message info message available drawn)) :
    SameFor agent ids (f.run info message available drawn).1
      ((f.restrict agent ids).run info message available drawn).1 := by
  have h := sameFor_restrict agent ids f
  cases message with
  | data data =>
    by_cases hid : data.session ∈ ids
    · exact h.runData hid
    · have hnone : ((f.restrict agent ids).runData data).1 = f.restrict agent ids := by
        simp [runData, restrict, hid]
      refine SameFor.trans (sameFor_run_other hf hid) ?_
      simp only [Facade.run, hnone]
      exact h
  | start start => exact h.runStart info start (hdraws hagent)
  | finish session =>
    by_cases hid : session ∈ ids
    · exact h.runEnd hid
    · have hnone : ((f.restrict agent ids).runEnd session).1 = f.restrict agent ids := by
        simp [runEnd, restrict, hid]
      refine SameFor.trans (sameFor_run_other hf hid) ?_
      simp only [Facade.run, hnone]
      exact h
  | otherType => exact h
  | invalidBuffer => exact h

/-- A step that concerns the agent is a step on the restriction. -/
theorem restrict_step_agent {e' : FacadeEvent} (hdraws : DrawsFrom agent ids e)
    (hstep : f.step clusterName e = some f') (he : agentEvent agent ids e = some e') :
    ∃ g, (f.restrict agent ids).step clusterName e' = some g ∧ SameFor agent ids f' g := by
  cases e with
  | message info message available drawn =>
    cases hstep
    obtain ⟨hagent, ⟨⟩⟩ := Option.ite_none_right_eq_some.1 he
    exact ⟨_, rfl, sameFor_run_agent hf hagent hdraws⟩
  | index session accepted =>
    obtain ⟨hid, ⟨⟩⟩ := Option.ite_none_right_eq_some.1 he
    obtain ⟨response, hq, rfl, rfl⟩ := step_index_iff.1 hstep
    -- the response at the head of the queue is at the head in the restriction, too
    obtain ⟨rest, hrest⟩ := List.head?_eq_some_iff.1 hq
    have hsame : SameFor agent ids f.popResponse (f.restrict agent ids).popResponse :=
      { sameFor_restrict agent ids f with queue := by simp [popResponse, restrict, hrest, hid] }
    refine ⟨_, step_index_iff.2 ⟨response, ?_, rfl, rfl⟩, hsame.indexResponse hid accepted⟩
    simp [restrict, hrest, hid]
  | notify session =>
    obtain ⟨hid, ⟨⟩⟩ := Option.ite_none_right_eq_some.1 he
    obtain ⟨ctx, hn, rfl, rfl⟩ := step_notify_iff.1 hstep
    obtain ⟨rest, hrest⟩ := List.head?_eq_some_iff.1 hn
    have hsame : SameFor agent ids f.popNotify (f.restrict agent ids).popNotify :=
      { sameFor_restrict agent ids f with notify := by simp [popNotify, restrict, hrest, hid] }
    refine ⟨_, step_notify_iff.2 ⟨ctx, ?_, rfl, rfl⟩, hsame.close _ _⟩
    simp [restrict, hrest, hid]
  | timeout expired =>
    cases hstep
    obtain ⟨-, ⟨⟩⟩ := Option.ite_none_left_eq_some.1 he
    refine ⟨_, rfl, (sameFor_restrict agent ids f).eraseIf fun id hid => ?_⟩
    simp [hid]

/-- Every other step leaves the restriction as it is. -/
theorem restrict_step_other (halone : LeavesAlone agent ids e)
    (hstep : f.step clusterName e = some f') (he : agentEvent agent ids e = none) :
    SameFor agent ids f' f := by
  cases e with
  | message info message available drawn =>
    cases hstep
    simp only [agentEvent, ite_eq_right_iff, reduceCtorEq, imp_false] at he
    have hother := halone he
    refine sameFor_run_other hf ?_
    cases message with
    | start start => exact fun havailable => (hother havailable).not_mem
    | _ => exact hother
  | index session accepted =>
    simp only [agentEvent, ite_eq_right_iff, reduceCtorEq, imp_false] at he
    obtain ⟨response, hq, rfl, rfl⟩ := step_index_iff.1 hstep
    have hctx := hf.queue response (List.mem_of_head? hq)
    refine (sameFor_indexResponse_other hf.popResponse hctx he accepted).trans
      { SameFor.refl f with queue := ?_ }
    obtain ⟨rest, hrest⟩ := List.head?_eq_some_iff.1 hq
    simp [popResponse, hrest, he]
  | notify session =>
    simp only [agentEvent, ite_eq_right_iff, reduceCtorEq, imp_false] at he
    obtain ⟨ctx, hn, rfl, rfl⟩ := step_notify_iff.1 hstep
    have hctx := hf.notify ctx (List.mem_of_head? hn)
    refine (sameFor_close_other hf.popNotify _ (hctx.foreign he)).trans
      { SameFor.refl f with notify := ?_ }
    obtain ⟨rest, hrest⟩ := List.head?_eq_some_iff.1 hn
    simp [popNotify, hrest, he]
  | timeout expired =>
    cases hstep
    simp only [agentEvent, ite_eq_left_iff, reduceCtorEq, imp_false, Decidable.not_not,
      List.filter_eq_nil_iff, decide_eq_true_eq] at he
    refine { SameFor.refl f with sessions := fun id hid => ?_ }
    have hnot : id ∉ expired := fun h => he id h hid
    simp [eraseIf, hnot]

end

end Facade

/-! ## Two runs -/

open Facade

/-- The manager as the agent alone would see it. -/
def restrictedSystem (clusterName agent : String) (ids : List Nat) :
    TransitionSystem Facade FacadeEvent where
  init := Facade.init.restrict agent ids
  step v e := (v.step clusterName e).map (Facade.restrict agent ids)

/-- A run restricts to a run on the events of the agent. -/
theorem run_restrict {clusterName agent : String} {ids : List Nat} {f : Facade}
    (halone : ∀ e ∈ es, LeavesAlone agent ids e) (hdraws : ∀ e ∈ es, DrawsFrom agent ids e)
    (hrun : (facadeSystem clusterName).run es = some f) :
    (restrictedSystem clusterName agent ids).run (es.filterMap (agentEvent agent ids)) =
      some (f.restrict agent ids) := by
  apply (facadeSystem clusterName).runFrom_projection (restrictedSystem clusterName agent ids)
    (Facade.restrict agent ids) (agentEvent agent ids) (P := Owned agent ids) _ _ _ owned_init
    (fun e he => And.intro (halone e he) (hdraws e he)) hrun
  · intro s e t hs hok hstep
    exact hs.step hok.1 hok.2 hstep
  · intro s e t e' hs hok hstep he
    obtain ⟨g, hg, hsame⟩ := restrict_step_agent hs hok.2 hstep he
    exact Option.map_eq_some_iff.2 ⟨g, hg, hsame.restrict_eq.symm⟩
  · intro s e t hs hok hstep he
    exact (restrict_step_other hs hok.1 hstep he).restrict_eq

theorem drawsFrom_drawnFor {agent : String} (he : e ∈ es) :
    DrawsFrom agent (drawnFor agent es) e := by
  cases e with
  | message info message available drawn =>
    cases message with
    | start start =>
      intro hagent havailable
      subst havailable
      exact List.mem_filterMap.2 ⟨_, he, if_pos hagent⟩
    | _ => trivial
  | _ => trivial

/-- The events of the agent tell the ids drawn for it. -/
theorem drawnFor_filterMap_agentEvent (agent : String) (ids : List Nat) (es : List FacadeEvent) :
    drawnFor agent (es.filterMap (agentEvent agent ids)) = drawnFor agent es := by
  unfold drawnFor
  rw [List.filterMap_filterMap]
  refine List.filterMap_congr fun e _ => ?_
  cases e with
  | message info message available drawn =>
    by_cases h : padAgentId info.id = agent
    · simp [agentEvent, h]
    · cases message <;> cases available <;> simp [agentEvent, h]
  | index session accepted | notify session => by_cases h : session ∈ ids <;> simp [agentEvent, h]
  | timeout expired =>
    simp only [agentEvent]
    split <;> rfl

/-- Two runs with the same events of an agent, in which no other agent names a session of it or
draws an id that starts one, write the same documents under its id. -/
theorem documents_eq_of_same_agentEvents (clusterName agent : String) (es₁ es₂ : List FacadeEvent)
    (f₁ f₂ : Facade) (hsame : agentEvents agent es₁ = agentEvents agent es₂)
    (halone₁ : ∀ e ∈ es₁, LeavesAlone agent (drawnFor agent es₁) e)
    (halone₂ : ∀ e ∈ es₂, LeavesAlone agent (drawnFor agent es₂) e)
    (hrun₁ : (facadeSystem clusterName).run es₁ = some f₁)
    (hrun₂ : (facadeSystem clusterName).run es₂ = some f₂) :
    documentsOf f₁ agent = documentsOf f₂ agent := by
  have hids : drawnFor agent es₁ = drawnFor agent es₂ := by
    have h := congrArg (drawnFor agent) hsame
    simpa only [agentEvents, drawnFor_filterMap_agentEvent] using h
  have hview₁ := run_restrict halone₁ (fun e he => drawsFrom_drawnFor he) hrun₁
  have hview₂ := run_restrict halone₂ (fun e he => drawsFrom_drawnFor he) hrun₂
  -- both runs restrict to one run on the same events
  unfold agentEvents at hsame
  rw [hsame, hids] at hview₁
  rw [hview₁, Option.some.injEq] at hview₂
  have hindexed : (f₁.indexed.filter fun x => x.context.agentId = agent) =
      f₂.indexed.filter fun x => x.context.agentId = agent := congrArg Facade.indexed hview₂
  unfold documentsOf
  rw [hindexed]

/-- Agent `001` alone. -/
def quietRun : List FacadeEvent :=
  [fimMessage "001" (.start singleStart) 7, fimMessage "001" (.data (firstChunk 7)) 0,
    fimMessage "001" (.finish 7) 0, .index 7 none]

/-- The same, with a data message of agent `002` that names the session of `001`. -/
def attackedRun : List FacadeEvent :=
  [fimMessage "001" (.start singleStart) 7, fimMessage "001" (.data (firstChunk 7)) 0,
    fimMessage "002" (.data ⟨0, 7, .delete, "other", "index", ""⟩) 0,
    fimMessage "001" (.finish 7) 0, .index 7 none]

/-- The same, with a session of agent `002` beside it. -/
def sharedRun : List FacadeEvent :=
  [fimMessage "002" (.start singleStart) 8, fimMessage "001" (.start singleStart) 7,
    fimMessage "002" (.data (firstChunk 8)) 0, fimMessage "001" (.data (firstChunk 7)) 0,
    fimMessage "002" (.finish 8) 0, fimMessage "001" (.finish 7) 0, .index 8 none, .notify 8,
    .index 7 none]

/-- A message of another agent replaces a chunk of the agent, and another document is deleted. -/
theorem documents_changed_by_other_agent :
    agentEvents "001" quietRun = agentEvents "001" attackedRun ∧
      ∃ f₁ f₂, (facadeSystem "wazuh").run quietRun = some f₁ ∧
        (facadeSystem "wazuh").run attackedRun = some f₂ ∧
        documentsOf f₁ "001" = [.bulkDelete "wazuh_001_id" "index"] ∧
        documentsOf f₂ "001" = [.bulkDelete "wazuh_001_other" "index"] :=
  ⟨by decide, _, _, rfl, rfl, by decide, by decide⟩

/-- A session of another agent beside it changes nothing. -/
theorem documents_eq_of_same_agentEvents_shared :
    ∃ f₁ f₂, (facadeSystem "wazuh").run quietRun = some f₁ ∧
      (facadeSystem "wazuh").run sharedRun = some f₂ ∧
      documentsOf f₁ "001" = documentsOf f₂ "001" := by
  refine ⟨_, _, rfl, rfl, ?_⟩
  exact documents_eq_of_same_agentEvents "wazuh" "001" quietRun sharedRun _ _ (by decide)
    (by decide) (by decide) rfl rfl

end WazAISentinel.InventorySync
