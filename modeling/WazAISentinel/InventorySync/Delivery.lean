import WazAISentinel.InventorySync.ChunkIsolation

/-!
# The manager acknowledges what it handed over

A plan gives, for every session opened so far, the data messages the agent means to send, numbered
from `0`. While those that arrive are the planned ones and the decimal ids of the sessions keep
apart, the manager sends a positive `EndAck` for a session only after all its planned messages were
handed to the indexer. The invariant follows a session through the gap set, the chunk store, the
indexer queue and the callbacks.
-/

namespace WazAISentinel.InventorySync

open Foundations List

/-- The sessions opened so far and the data messages meant for each of them. No id starts another,
and the messages of a session are numbered in order. -/
structure SessionPlan where
  ids : List Nat
  chunks : Nat → List DataMessage
  apart : ∀ s ∈ ids, ∀ t ∈ ids, (decimal s).isPrefixOf (decimal t) = true → s = t
  seqs : ∀ s ∈ ids, (chunks s).map DataMessage.seq = range (chunks s).length
  session : ∀ s ∈ ids, ∀ d ∈ chunks s, d.session = s

namespace SessionPlan

variable {p : SessionPlan} {s : Nat} {d d' : DataMessage}

theorem seq_lt (hs : s ∈ p.ids) (hd : d ∈ p.chunks s) : d.seq < (p.chunks s).length := by
  have h : d.seq ∈ (p.chunks s).map DataMessage.seq := mem_map_of_mem hd
  rw [p.seqs s hs] at h
  exact mem_range.1 h

/-- The number of a message determines it. -/
theorem eq_of_seq_eq (hs : s ∈ p.ids) (hd : d ∈ p.chunks s) (hd' : d' ∈ p.chunks s)
    (h : d.seq = d'.seq) : d = d' := by
  have hnodup : ((p.chunks s).map DataMessage.seq).Nodup := by
    rw [p.seqs s hs]
    exact nodup_range
  exact inj_on_of_nodup_map hnodup hd hd' h

/-- `p'` has all sessions of `p`, with the same messages. -/
def Extends (p' p : SessionPlan) : Prop := ∀ s ∈ p.ids, s ∈ p'.ids ∧ p'.chunks s = p.chunks s

end SessionPlan

variable {session id : Nat} {data : DataMessage} {ctx : Context}

namespace Facade

/-- The store holds a chunk of the session with this number. -/
def Stored (f : Facade) (session seq : Nat) : Prop :=
  ∃ data, (chunkKey session seq, data) ∈ f.shared.store.entries

/-- Every message meant for the session was handed to the indexer under it. -/
def HandedOver (p : SessionPlan) (f : Facade) (session : Nat) : Prop :=
  ∀ d ∈ p.chunks session, ∃ x ∈ f.indexed, x.context.sessionId = session ∧ x.chunk = some d

/-- The invariant of the manager. -/
structure Delivers (p : SessionPlan) (f : Facade) : Prop where
  sessions : ∀ id s, f.sessions id = some s → id ∈ p.ids ∧ s.context.sessionId = id ∧
    s.gapSet.size = (p.chunks id).length ∧
    ∃ S, Represents s.gapSet S ∧ ∀ seq ∈ S, f.Stored id seq
  store : ∀ key d, (key, d) ∈ f.shared.store.entries →
    key = chunkKey d.session d.seq ∧ d.session ∈ p.ids ∧ d ∈ p.chunks d.session
  queue : ∀ r ∈ f.shared.indexerQueue, r.context.sessionId ∈ p.ids ∧
    (f.Live r.context.sessionId →
      ∀ seq < (p.chunks r.context.sessionId).length, f.Stored r.context.sessionId seq)
  notify : ∀ ctx ∈ f.notify, ctx.sessionId ∈ p.ids ∧ HandedOver p f ctx.sessionId
  acks : ∀ m ∈ f.shared.responses, ∀ status id, m.reply = .endAck status id → status ≠ .error →
    id ∈ p.ids ∧ HandedOver p f id

variable {p p' : SessionPlan} {clusterName : String} {f f' : Facade}

theorem delivers_init : Delivers p Facade.init where
  sessions _ _ h := by cases h
  store _ _ h := by cases h
  queue _ h := by cases h
  notify _ h := by cases h
  acks _ h := by cases h

theorem HandedOver.mono (h : HandedOver p f session) (hindexed : ∀ x ∈ f.indexed, x ∈ f'.indexed) :
    HandedOver p f' session := by
  intro d hd
  obtain ⟨x, hx, hsession, hchunk⟩ := h d hd
  exact ⟨x, hindexed x hx, hsession, hchunk⟩

namespace Delivers

/-- More sessions may be planned at any time. -/
theorem extend (h : Delivers p f) (hext : p'.Extends p) : Delivers p' f := by
  have hhanded : ∀ id, id ∈ p.ids → HandedOver p f id → HandedOver p' f id := by
    intro id hid hh d hd
    rw [(hext id hid).2] at hd
    exact hh d hd
  refine ⟨?_, ?_, ?_, ?_, ?_⟩
  · intro id s hs
    obtain ⟨hid, hctx, hsize, hrep⟩ := h.sessions id s hs
    exact ⟨(hext id hid).1, hctx, by rw [hsize, (hext id hid).2], hrep⟩
  · intro key d hmem
    obtain ⟨hkey, hid, hd⟩ := h.store key d hmem
    exact ⟨hkey, (hext _ hid).1, by rw [(hext _ hid).2]; exact hd⟩
  · intro r hr
    obtain ⟨hid, hall⟩ := h.queue r hr
    exact ⟨(hext _ hid).1, by rw [(hext _ hid).2]; exact hall⟩
  · intro ctx hctx
    obtain ⟨hid, hh⟩ := h.notify ctx hctx
    exact ⟨(hext _ hid).1, hhanded _ hid hh⟩
  · intro m hm status id hreply hstatus
    obtain ⟨hid, hh⟩ := h.acks m hm status id hreply hstatus
    exact ⟨(hext _ hid).1, hhanded _ hid hh⟩

/-- A complete session hands over everything that was planned for it. -/
theorem handedOver_of_chunksUnder (h : Delivers p f) (hs : session ∈ p.ids)
    (hall : ∀ seq < (p.chunks session).length, f.Stored session seq) {calls : List Indexed}
    (hctx : ∀ x ∈ calls, x.context.sessionId = session)
    (hcalls : calls.filterMap Indexed.chunk = chunksUnder f.shared.store session)
    (hindexed : ∀ x ∈ calls, x ∈ f'.indexed) : HandedOver p f' session := by
  intro d hd
  -- the chunk that is stored is the planned message with its number
  obtain ⟨d', hmem⟩ := hall d.seq (p.seq_lt hs hd)
  obtain ⟨hkey, -, hd'⟩ := h.store _ d' hmem
  obtain ⟨hsession, hseq⟩ := chunkKey_injective hkey
  rw [← hsession] at hd'
  obtain rfl := p.eq_of_seq_eq hs hd hd' hseq
  have hunder : d ∈ chunksUnder f.shared.store session := by
    refine mem_map.2 ⟨_, mem_filter.2 ⟨hmem, ?_⟩, rfl⟩
    exact chunkPrefix_isPrefixOf_chunkKey.2 rfl
  rw [← hcalls] at hunder
  obtain ⟨x, hx, hchunk⟩ := mem_filterMap.1 hunder
  exact ⟨x, hindexed x hx, hctx x hx, hchunk⟩

end Delivers

/-! ## Incoming messages -/

theorem live_of_live_bind {s s' : AgentSession} {sh : Shared} (hs : f.sessions session = some s)
    (h : (f.bind session s' sh).Live id) : f.Live id := by
  unfold Live bind at h
  dsimp only at h
  split_ifs at h with heq
  · simp [Live, heq, hs]
  · exact h

/-- Only a start message opens a session. -/
theorem live_of_live_run {info : AgentInfo} {message : SyncMessage} {available : Bool} {drawn : Nat}
    (hmessage : ∀ start, message ≠ .start start)
    (h : (f.run info message available drawn).1.Live id) : f.Live id := by
  have hran := f.run_spec info message available drawn
  generalize (f.run info message available drawn).1 = f' at hran h
  cases hran with
  | ignored => exact h
  | stored hs | ended hs => exact live_of_live_bind hs h
  | answered | opened => exact absurd rfl (hmessage _)

/-- The store after a data message was put into it. -/
def putData (f : Facade) (data : DataMessage) : Facade :=
  { f with shared := f.shared.put (chunkKey data.session data.seq) data }

theorem stored_putData {seq : Nat} :
    (f.putData data).Stored session seq ↔
      f.Stored session seq ∨ (session = data.session ∧ seq = data.seq) := Shared.stores_put data

namespace Delivers

section

variable (h : Delivers p f)

include h

/-- Storing a planned message. -/
theorem putData (hid : data.session ∈ p.ids) (hdata : data ∈ p.chunks data.session) :
    Delivers p (f.putData data) :=
  { h with
    sessions id s hs := by
      obtain ⟨hid', hctx, hn, S, hrep, hS⟩ := h.sessions id s hs
      exact ⟨hid', hctx, hn, S, hrep, fun seq hseq => stored_putData.2 (Or.inl (hS seq hseq))⟩
    store key d hmem := by
      rcases (OrderedStore.mem_put _).1 hmem with heq | ⟨hold, -⟩
      · cases heq
        exact ⟨rfl, hid, hdata⟩
      · exact h.store key d hold
    queue r hr := by
      obtain ⟨hrid, hall⟩ := h.queue r hr
      exact ⟨hrid, fun hl seq hseq => stored_putData.2 (Or.inl (hall hl seq hseq))⟩ }

/-- A handler changes a live session: the observed numbers are stored, the session is enqueued only
when it is complete, and no reply is an `EndAck`. -/
theorem bind {s : AgentSession} (hs : f.sessions id = some s) (s' : AgentSession)
    (hctx : s'.context = s.context) (hsize : s'.gapSet.size = s.gapSet.size) {S : Finset Nat}
    (hrep : Represents s'.gapSet S) (hS : ∀ seq ∈ S, f.Stored id seq) (pushed : List Response)
    (hpushed : ∀ r ∈ pushed, r.context = s.context ∧ ∀ seq < s.gapSet.size, seq ∈ S)
    (sent : List ResponseMessage) (hsent : ∀ m ∈ sent, ∀ status id, m.reply ≠ .endAck status id) :
    Delivers p (f.bind id s' (f.shared.extend pushed sent)) := by
  obtain ⟨hid, hsid, hn, -⟩ := h.sessions _ s hs
  refine ⟨?_, h.store, ?_, h.notify, ?_⟩
  · intro t u hu
    simp only [Facade.bind] at hu
    split_ifs at hu with heq
    · cases hu
      subst heq
      exact ⟨hid, by rw [hctx, hsid], by rw [hsize, hn], S, hrep, hS⟩
    · exact h.sessions t u hu
  · intro r hr
    rcases mem_append.1 hr with hold | hnew
    · obtain ⟨hrid, hall⟩ := h.queue r hold
      exact ⟨hrid, fun hl => hall (live_of_live_bind hs hl)⟩
    · obtain ⟨hrctx, hcomplete⟩ := hpushed r hnew
      rw [hrctx, hsid]
      exact ⟨hid, fun _ seq hseq => hS seq (hcomplete seq (hn ▸ hseq))⟩
  · intro m hm status t hreply
    rcases mem_append.1 hm with hold | hnew
    · exact h.acks m hold status t hreply
    · exact absurd hreply (hsent m hnew status t)

/-- A planned data message. -/
theorem runData (hdata : data.session ∈ p.ids → data ∈ p.chunks data.session) :
    Delivers p (f.runData data).1 := by
  unfold Facade.runData
  cases hs : f.sessions data.session with
  | none => exact h
  | some s =>
    obtain ⟨hid, -, hn, S, hrep, hS⟩ := h.sessions _ s hs
    have hlt : data.seq < s.gapSet.size := by
      rw [hn]
      exact p.seq_lt hid (hdata hid)
    obtain ⟨g, hg, hrep', hcall⟩ := AgentSession.handleData_of_lt hrep hlt f.shared
    have hput : Delivers p (f.putData data) := h.putData hid (hdata hid)
    have hS' : ∀ seq ∈ insert data.seq S, (f.putData data).Stored data.session seq := by
      intro seq hseq
      rcases Finset.mem_insert.1 hseq with rfl | hold
      · exact stored_putData.2 (Or.inr ⟨rfl, rfl⟩)
      · exact stored_putData.2 (Or.inl (hS seq hold))
    dsimp only
    rw [hcall]
    split_ifs with hdone
    · -- the session is complete, so every number was observed and stored
      rw [Shared.push_eq_extend]
      refine hput.bind hs { s with gapSet := g, endEnqueued := true } rfl hg hrep' hS' _ ?_ []
        (by simp)
      intro r hr
      rw [mem_singleton.1 hr]
      exact ⟨rfl, hdone.2⟩
    · have hbind := hput.bind hs { s with gapSet := g } rfl hg hrep' hS' [] (by simp) [] (by simp)
      rw [Shared.extend_nil] at hbind
      exact hbind

theorem runEnd (session : Nat) : Delivers p (f.runEnd session).1 := by
  unfold Facade.runEnd
  cases hs : f.sessions session with
  | none => exact h
  | some s =>
    obtain ⟨hid, -, hn, S, hrep, hS⟩ := h.sessions _ s hs
    have hcall := AgentSession.handleEnd_eq hrep f.shared
    dsimp only
    rw [hcall]
    split
    · have hbind := h.bind hs { s with endReceived := true } rfl rfl hrep hS [] (by simp) []
        (by simp)
      rw [Shared.extend_nil] at hbind
      exact hbind
    · split_ifs with hall
      · rw [Shared.push_eq_extend]
        refine h.bind hs { s with endReceived := true, endEnqueued := true } rfl rfl hrep hS _ ?_
          [] (by simp)
        intro r hr
        rw [mem_singleton.1 hr]
        exact ⟨rfl, hall⟩
      · rw [Shared.send_eq_extend]
        exact h.bind hs { s with endReceived := true } rfl rfl hrep hS [] (by simp) _ (by simp)

/-- Replies other than `EndAck`. -/
theorem extend_sent (sent : List ResponseMessage)
    (hsent : ∀ m ∈ sent, ∀ status id, m.reply ≠ .endAck status id) :
    Delivers p { f with shared := f.shared.extend [] sent } :=
  { h with
    queue r hr := by
      rw [Shared.extend, append_nil] at hr
      exact h.queue r hr
    acks m hm status id hreply := by
      rcases mem_append.1 hm with hold | hnew
      · exact h.acks m hold status id hreply
      · exact absurd hreply (hsent m hnew status id) }

/-- A new session, planned under an id that was not planned before. -/
theorem open_session (hext : p'.Extends p) {drawn : Nat} (hfresh : drawn ∉ p.ids)
    (hdrawn : drawn ∈ p'.ids) {s : AgentSession} (hctx : s.context.sessionId = drawn)
    (hsize : s.gapSet.size = (p'.chunks drawn).length) (hrep : Represents s.gapSet ∅)
    (sent : List ResponseMessage) (hsent : ∀ m ∈ sent, ∀ status id, m.reply ≠ .endAck status id) :
    Delivers p' (f.bind drawn s (f.shared.extend [] sent)) := by
  have hext' := (h.extend_sent sent hsent).extend hext
  refine ⟨?_, hext'.store, ?_, hext'.notify, hext'.acks⟩
  · intro id t ht
    simp only [Facade.bind] at ht
    split_ifs at ht with heq
    · cases ht
      subst heq
      exact ⟨hdrawn, hctx, hsize, ∅, hrep, by simp⟩
    · exact hext'.sessions id t ht
  · intro r hr
    have hold : r ∈ f.shared.indexerQueue := by simpa [Facade.bind, Shared.extend] using hr
    -- no response of the new session can be in the queue
    have hne : r.context.sessionId ≠ drawn := fun heq => hfresh (heq ▸ (h.queue r hold).1)
    refine ⟨(hext'.queue r hr).1, fun hl => (hext'.queue r hr).2 ?_⟩
    simpa [Live, Facade.bind, hne] using hl

/-! ## The indexer thread, the callbacks and the timeout -/

theorem popResponse : Delivers p f.popResponse :=
  { h with queue r hr := h.queue r (mem_of_mem_tail hr) }

theorem popNotify : Delivers p f.popNotify :=
  { h with notify ctx hctx := h.notify ctx (mem_of_mem_tail hctx) }

theorem record (calls : List Indexed) : Delivers p (f.record calls) := by
  have hmono : ∀ id, HandedOver p f id → HandedOver p (f.record calls) id := by
    intro id hh
    exact hh.mono fun x hx => mem_append_left _ hx
  refine ⟨h.sessions, h.store, h.queue, ?_, ?_⟩
  · intro ctx hctx
    exact (h.notify ctx hctx).imp_right (hmono _)
  · intro m hm status id hreply hstatus
    exact (h.acks m hm status id hreply hstatus).imp_right (hmono _)

theorem registerNotify (hid : ctx.sessionId ∈ p.ids) (hhanded : HandedOver p f ctx.sessionId) :
    Delivers p (f.registerNotify ctx) :=
  { h with
    notify := forall_mem_append.2 ⟨h.notify, forall_mem_singleton.2 ⟨hid, hhanded⟩⟩ }

/-- Ending a planned session leaves the chunks of every other planned session in the store. -/
theorem close (status : Status) (hid : ctx.sessionId ∈ p.ids)
    (hhanded : status ≠ .error → HandedOver p f ctx.sessionId) :
    Delivers p (f.close status ctx) := by
  have hstored : ∀ id ∈ p.ids, id ≠ ctx.sessionId → ∀ seq, f.Stored id seq →
      (f.close status ctx).Stored id seq := by
    rintro id hid' hne seq ⟨d, hmem⟩
    refine ⟨d, mem_deleteByPrefix.2 ⟨hmem, fun hpre => hne ?_⟩⟩
    exact (p.apart _ hid id hid' hpre).symm
  refine ⟨?_, ?_, ?_, h.notify, ?_⟩
  · intro id s hs
    obtain ⟨hne, hs⟩ := Option.ite_none_left_eq_some.1 hs
    obtain ⟨hid', hctx, hn, S, hrep, hS⟩ := h.sessions id s hs
    exact ⟨hid', hctx, hn, S, hrep, fun seq hseq => hstored id hid' hne seq (hS seq hseq)⟩
  · intro key d hmem
    exact h.store key d ((OrderedStore.mem_filter _).1 hmem).1
  · intro r hr
    obtain ⟨hrid, hall⟩ := h.queue r hr
    refine ⟨hrid, fun hl seq hseq => ?_⟩
    obtain ⟨hlive, hne⟩ := (live_close status _).1 hl
    exact hstored _ hrid hne seq (hall hlive seq hseq)
  · intro m hm st id hreply hst
    rcases mem_append.1 hm with hold | hnew
    · exact h.acks m hold st id hreply hst
    · rw [mem_singleton.1 hnew] at hreply
      cases hreply
      exact ⟨hid, hhanded hst⟩

theorem eraseIf (expired : Nat → Bool) : Delivers p (f.eraseIf expired) :=
  { h with
    sessions id s hs := h.sessions id s (Option.ite_none_left_eq_some.1 hs).2
    queue r hr := by
      obtain ⟨hrid, hall⟩ := h.queue r hr
      exact ⟨hrid, fun hl => hall (isSome_ite_none.1 hl).1⟩ }

/-- A response in the queue is about a complete session, so all its messages are handed over before
the callback is registered. -/
theorem indexResponse (hid : ctx.sessionId ∈ p.ids) (hall : f.Live ctx.sessionId →
    ∀ seq < (p.chunks ctx.sessionId).length, f.Stored ctx.sessionId seq) (accepted : Option Nat) :
    Delivers p (f.indexResponse clusterName ctx accepted) := by
  obtain ⟨hctx, -, hcalls⟩ := indexCalls_spec accepted
  refine indexResponse_elim (fun _ => h) (fun hs hok => ?_) fun _ _ => ?_
  · apply (h.record _).registerNotify hid
    apply h.handedOver_of_chunksUnder hid (hall hs) _ (hcalls hok)
    · intro x hx
      exact mem_append_right _ hx
    · intro x hx
      rw [hctx x hx]
  · exact (h.record _).close .error hid fun hne => absurd rfl hne

/-- The steps of the manager that no message triggers. -/
theorem step_internal {e : FacadeEvent}
    (hevent : ∀ info message available drawn, e ≠ .message info message available drawn)
    (hstep : f.step clusterName e = some f') : Delivers p f' := by
  cases e with
  | message info message available drawn => exact absurd rfl (hevent info message available drawn)
  | index session accepted =>
    obtain ⟨response, hq, -, rfl⟩ := step_index_iff.1 hstep
    obtain ⟨hid, hall⟩ := h.queue response (mem_of_head? hq)
    exact h.popResponse.indexResponse hid hall accepted
  | notify session =>
    obtain ⟨ctx, hn, -, rfl⟩ := step_notify_iff.1 hstep
    obtain ⟨hid, hhanded⟩ := h.notify ctx (mem_of_head? hn)
    exact h.popNotify.close .ok hid fun _ => hhanded
  | timeout expired =>
    cases hstep
    exact h.eraseIf _

end

end Delivers

end Facade

end WazAISentinel.InventorySync
