import WazAISentinel.InventorySync.Facade

/-!
# The chunk store keeps sessions apart

Ending a session should remove its chunks and no others, the chunks indexed for a session should be
its own, and a session that is gone should have no chunk in the store.

The chunks are read under the id with its separator, so the second always holds. They are deleted
under the bare decimal id, which also takes the sessions whose ids extend it, and the timeout erases
sessions without their chunks. There is no other way to fail: a step keeps the sessions apart
exactly when it meets `KeepsApart`.
-/

namespace WazAISentinel.InventorySync

open Foundations List

namespace Facade

/-- The session is in `m_agentSessions`. -/
def Live (f : Facade) (sessionId : Nat) : Prop := (f.sessions sessionId).isSome = true

instance (f : Facade) (sessionId : Nat) : Decidable (f.Live sessionId) :=
  inferInstanceAs (Decidable (_ = true))

/-- The session that an event ends: by the callback of the connector, or by an exception while its
chunks are handed over. -/
def closedBy (clusterName : String) (f : Facade) : FacadeEvent → Option Nat
  | .message _ _ _ _ => none
  | .index session accepted =>
    match f.shared.indexerQueue.head? with
    | none => none
    | some response =>
      if (f.sessions session).isSome &&
          !(f.indexCalls clusterName response.context accepted).2 then
        some session
      else none
  | .notify session => some session
  | .timeout _ => none

/-- What an event does to the store and to the set of sessions. -/
inductive Effect (clusterName : String) (f : Facade) (e : FacadeEvent) (f' : Facade) : Prop where
  | kept (hclosed : f.closedBy clusterName e = none) (htimeout : ∀ expired, e ≠ .timeout expired)
      (hstore : f'.shared.store = f.shared.store) (hlive : ∀ id, f.Live id → f'.Live id)
  | stored (data : DataMessage) (hclosed : f.closedBy clusterName e = none)
      (htimeout : ∀ expired, e ≠ .timeout expired) (hsession : f.Live data.session)
      (hstore : f'.shared.store = f.shared.store.put (chunkKey data.session data.seq) data)
      (hlive : ∀ id, f.Live id → f'.Live id)
  | expired (expired : List Nat) (hevent : e = .timeout expired)
      (hstore : f'.shared.store = f.shared.store)
      (hlive : ∀ id, f'.Live id ↔ f.Live id ∧ id ∉ expired)
  | closed (session : Nat) (hclosed : f.closedBy clusterName e = some session)
      (htimeout : ∀ expired, e ≠ .timeout expired)
      (hstore : f'.shared.store = deleteByPrefix f.shared.store (decimal session))
      (hlive : ∀ id, f'.Live id ↔ f.Live id ∧ id ≠ session)

end Facade

/-! ## What an event does -/

variable {session : Nat}

namespace Facade

variable {clusterName : String} {f f' : Facade} {e : FacadeEvent} {ctx : Context}

theorem live_bind (s : AgentSession) (sh : Shared) {id : Nat} (h : f.Live id) :
    (f.bind session s sh).Live id := by
  unfold Live bind
  dsimp only
  split
  · rfl
  · exact h

theorem isSome_ite_none {α : Type} {o : Option α} {p : Prop} [Decidable p] :
    (if p then none else o).isSome = true ↔ o.isSome = true ∧ ¬ p := by
  split <;> simp [*]

theorem live_close (status : Status) (id : Nat) :
    (f.close status ctx).Live id ↔ f.Live id ∧ id ≠ ctx.sessionId :=
  isSome_ite_none

/-- Running a message opens sessions and stores chunks of open sessions. -/
theorem effect_run (info : AgentInfo) (message : SyncMessage) (available : Bool) (drawn : Nat) :
    Effect clusterName f (.message info message available drawn)
      (f.run info message available drawn).1 := by
  have hran := f.run_spec info message available drawn
  generalize (f.run info message available drawn).1 = f' at hran
  cases hran with
  | ignored | answered => exact .kept rfl nofun rfl fun _ h => h
  | stored hs => exact .stored _ rfl nofun (by simp [Live, hs]) rfl fun id h => live_bind _ _ h
  | ended | opened => exact .kept rfl nofun rfl fun id h => live_bind _ _ h

/-- The indexer thread ends a session exactly when an exception stops it. -/
theorem effect_index {accepted : Option Nat}
    (h : f.step clusterName (.index session accepted) = some f') :
    Effect clusterName f (.index session accepted) f' := by
  obtain ⟨response, hq, rfl, rfl⟩ := step_index_iff.1 h
  refine indexResponse_elim (P := Effect clusterName f _) (fun hs => ?_) (fun hs hok => ?_)
    fun hs hfail => ?_
  · exact .kept (by simp_all [closedBy]) nofun rfl fun _ h => h
  · refine .kept ?_ nofun rfl fun _ h => h
    rw [indexCalls_popResponse] at hok
    simp [closedBy, hq, hok]
  · refine .closed response.context.sessionId ?_ nofun rfl fun id => live_close _ id
    rw [indexCalls_popResponse] at hfail
    rw [sessions_popResponse] at hs
    simp [closedBy, hq, hs, hfail]

/-- Every event has one of the four effects. -/
theorem effect_of_step (h : f.step clusterName e = some f') : Effect clusterName f e f' := by
  cases e with
  | message info message available drawn =>
    cases h
    exact effect_run info message available drawn
  | index session accepted => exact effect_index h
  | notify session =>
    obtain ⟨ctx, -, rfl, rfl⟩ := step_notify_iff.1 h
    exact .closed ctx.sessionId rfl nofun rfl fun id => live_close _ id
  | timeout expired =>
    cases h
    refine .expired expired rfl rfl fun id => ?_
    rw [← contains_iff_mem]
    exact isSome_ite_none

/-! ## What is indexed -/

/-- The chunks stored under the id and its separator. -/
def chunksUnder (store : ChunkStore) (session : Nat) : List DataMessage :=
  (store.entries.filter fun entry => (chunkPrefix session).isPrefixOf entry.1).map Prod.snd

theorem chunks_eq_chunksUnder : f.chunks session = chunksUnder f.shared.store session := by
  rw [chunks, chunksUnder, OrderedStore.scan_eq_filter]

/-- The loop hands over the chunks from the first on, and all of them when no exception stops it. -/
theorem indexChunks_spec (accepted : Option Nat) (ds : List DataMessage) :
    (∀ x ∈ (indexChunks clusterName ctx accepted ds).1, x.context = ctx) ∧
      (indexChunks clusterName ctx accepted ds).1.filterMap Indexed.chunk <+: ds ∧
      ((indexChunks clusterName ctx accepted ds).2 = true →
        (indexChunks clusterName ctx accepted ds).1.filterMap Indexed.chunk = ds) := by
  fun_induction indexChunks clusterName ctx accepted ds with
  | case1 => simp
  | case2 => simp
  | case3 => simp
  | case4 accepted data rest hzero call hcall r ih =>
    obtain ⟨hctx, hpre, hall⟩ := ih
    refine ⟨forall_mem_cons.2 ⟨rfl, hctx⟩, ?_, ?_⟩
    · simpa using hpre
    · intro hok
      simpa using hall hok

/-- The calls of an event: none unless it is one of the indexer thread, then the chunks stored under
the session of the response, all of them if the session is not ended. -/
def IndexesOwnChunks (clusterName : String) (f : Facade) (e : FacadeEvent) (f' : Facade) : Prop :=
  ∃ calls, f'.indexed = f.indexed ++ calls ∧
    (∀ x ∈ calls, ∃ accepted, e = .index x.context.sessionId accepted) ∧
    ∀ session accepted, e = .index session accepted → f.Live session →
      calls.filterMap Indexed.chunk <+: chunksUnder f.shared.store session ∧
      (f.closedBy clusterName e = none →
        calls.filterMap Indexed.chunk = chunksUnder f.shared.store session)

theorem indexesOwnChunks_of_indexed_eq (heq : f'.indexed = f.indexed)
    (hevent : ∀ session accepted, e ≠ .index session accepted) :
    IndexesOwnChunks clusterName f e f' := by
  refine ⟨[], by simp [heq], by simp, ?_⟩
  intro session accepted he
  exact absurd he (hevent session accepted)

theorem indexed_run (info : AgentInfo) (message : SyncMessage) (available : Bool) (drawn : Nat) :
    (f.run info message available drawn).1.indexed = f.indexed := by
  have hran := f.run_spec info message available drawn
  generalize (f.run info message available drawn).1 = f' at hran
  cases hran <;> rfl

theorem fullDeletion_spec {ctx : Context} {x : Indexed} (hx : x ∈ fullDeletion ctx) :
    x.context = ctx ∧ x.chunk = none := by
  unfold fullDeletion at hx
  split at hx
  · rcases mem_singleton.1 hx with rfl
    exact ⟨rfl, rfl⟩
  · cases hx

theorem indexCalls_spec (accepted : Option Nat) :
    (∀ x ∈ (f.indexCalls clusterName ctx accepted).1, x.context = ctx) ∧
      (f.indexCalls clusterName ctx accepted).1.filterMap Indexed.chunk <+:
        chunksUnder f.shared.store ctx.sessionId ∧
      ((f.indexCalls clusterName ctx accepted).2 = true →
        (f.indexCalls clusterName ctx accepted).1.filterMap Indexed.chunk =
          chunksUnder f.shared.store ctx.sessionId) := by
  obtain ⟨hctx, hpre, hall⟩ :=
    indexChunks_spec accepted (chunksUnder f.shared.store ctx.sessionId)
  have hnone : (fullDeletion ctx).filterMap Indexed.chunk = [] :=
    filterMap_eq_nil_iff.2 fun x hx => (fullDeletion_spec hx).2
  simp only [indexCalls, chunks_eq_chunksUnder, filterMap_append, hnone, nil_append]
  exact ⟨forall_mem_append.2 ⟨fun x hx => (fullDeletion_spec hx).1, hctx⟩, hpre, hall⟩

/-- Reading keeps the sessions apart in every state. -/
theorem indexesOwnChunks_of_step (h : f.step clusterName e = some f') :
    IndexesOwnChunks clusterName f e f' := by
  cases e with
  | message info message available drawn =>
    cases h
    exact indexesOwnChunks_of_indexed_eq (indexed_run info message available drawn) nofun
  | index session accepted =>
    obtain ⟨response, hq, rfl, rfl⟩ := step_index_iff.1 h
    obtain ⟨hctx, hpre, hall⟩ := indexCalls_spec accepted
    refine indexResponse_elim (P := IndexesOwnChunks clusterName f _) (fun hs => ?_)
      (fun hs hok => ?_) fun hs hfail => ?_
    · refine ⟨[], (append_nil _).symm, by simp, ?_⟩
      simp_all [Live]
    · refine ⟨_, rfl, fun x hx => ⟨accepted, by rw [hctx x hx]⟩, ?_⟩
      rintro session accepted ⟨⟩ -
      exact ⟨hpre, fun _ => hall hok⟩
    · refine ⟨_, rfl, fun x hx => ⟨accepted, by rw [hctx x hx]⟩, ?_⟩
      rintro session accepted ⟨⟩ -
      refine ⟨hpre, fun hclosed => ?_⟩
      rw [indexCalls_popResponse] at hfail
      rw [sessions_popResponse] at hs
      simp [closedBy, hq, hs, hfail] at hclosed
  | notify session =>
    obtain ⟨ctx, -, rfl, rfl⟩ := step_notify_iff.1 h
    exact indexesOwnChunks_of_indexed_eq rfl nofun
  | timeout expired =>
    cases h
    exact indexesOwnChunks_of_indexed_eq rfl nofun

/-! ## Isolation -/

/-- The three properties, for one step. -/
structure Isolation (clusterName : String) (f : Facade) (e : FacadeEvent) (f' : Facade) : Prop where
  removesOwn : ∀ session, f.closedBy clusterName e = some session → ∀ entry,
    entry ∈ f'.shared.store.entries ↔
      entry ∈ f.shared.store.entries ∧ ∀ seq, entry.1 ≠ chunkKey session seq
  indexesOwn : IndexesOwnChunks clusterName f e f'
  noOrphans : ∀ session seq data,
    (chunkKey session seq, data) ∈ f'.shared.store.entries → f'.Live session

/-- A session that ends has no chunk of a session whose id extends its own in the store, and no
session that times out has a chunk. -/
def KeepsApart (clusterName : String) (f : Facade) (e : FacadeEvent) : Prop :=
  (∀ session, f.closedBy clusterName e = some session → ∀ other seq data,
    (chunkKey other seq, data) ∈ f.shared.store.entries →
      (decimal session).isPrefixOf (decimal other) = true → other = session) ∧
  ∀ expired, e = .timeout expired → ∀ session ∈ expired, ∀ seq data,
    (chunkKey session seq, data) ∉ f.shared.store.entries

/-- Every stored entry is a chunk of a session that is in `m_agentSessions`. -/
def Tidy (f : Facade) : Prop :=
  ∀ entry ∈ f.shared.store.entries, ∃ session seq,
    entry.1 = chunkKey session seq ∧ f.Live session

theorem tidy_init : Tidy Facade.init := nofun

theorem Tidy.live (h : f.Tidy) {seq : Nat} {data : DataMessage}
    (hmem : (chunkKey session seq, data) ∈ f.shared.store.entries) : f.Live session := by
  obtain ⟨s, q, hkey, hlive⟩ := h _ hmem
  rw [(chunkKey_injective hkey).1]
  exact hlive

/-- The step lemma: under the condition, the store stays tidy. -/
theorem Tidy.step (h : f.Tidy) (hok : KeepsApart clusterName f e)
    (hstep : f.step clusterName e = some f') : f'.Tidy := by
  intro entry hentry
  cases effect_of_step hstep with
  | kept hclosed htimeout hstore hlive =>
    rw [hstore] at hentry
    obtain ⟨s, q, hkey, hs⟩ := h entry hentry
    exact ⟨s, q, hkey, hlive s hs⟩
  | stored data hclosed htimeout hsession hstore hlive =>
    rw [hstore, OrderedStore.mem_put] at hentry
    rcases hentry with rfl | ⟨hmem, -⟩
    · exact ⟨data.session, data.seq, rfl, hlive _ hsession⟩
    · obtain ⟨s, q, hkey, hs⟩ := h entry hmem
      exact ⟨s, q, hkey, hlive s hs⟩
  | expired expired hevent hstore hlive =>
    rw [hstore] at hentry
    obtain ⟨key, data⟩ := entry
    obtain ⟨s, q, rfl, hs⟩ := h _ hentry
    refine ⟨s, q, rfl, (hlive s).2 ⟨hs, fun hmem => ?_⟩⟩
    exact hok.2 expired hevent s hmem q data hentry
  | closed session hclosed htimeout hstore hlive =>
    rw [hstore] at hentry
    obtain ⟨key, data⟩ := entry
    obtain ⟨s, q, rfl, hs⟩ := h _ (OrderedStore.mem_filter _ |>.1 hentry).1
    refine ⟨s, q, rfl, (hlive s).2 ⟨hs, ?_⟩⟩
    rintro rfl
    -- a text starts with itself, so the session's own chunks are removed
    exact (mem_deleteByPrefix.1 hentry).2 (List.isPrefixOf_iff_prefix.2 prefix_rfl)

/-- A step that ends a session removes exactly its chunks if and only if no stored chunk belongs to
a session whose id extends its id. -/
theorem removesOwn_iff (h : f.Tidy)
    (hstore : f'.shared.store = deleteByPrefix f.shared.store (decimal session)) :
    (∀ entry, entry ∈ f'.shared.store.entries ↔
      entry ∈ f.shared.store.entries ∧ ∀ seq, entry.1 ≠ chunkKey session seq) ↔
      ∀ other seq data, (chunkKey other seq, data) ∈ f.shared.store.entries →
        (decimal session).isPrefixOf (decimal other) = true → other = session := by
  constructor
  · intro hremoves other seq data hmem hpre
    by_contra hne
    have hkept : (chunkKey other seq, data) ∈ f'.shared.store.entries :=
      (hremoves _).2 ⟨hmem, fun q heq => hne (chunkKey_injective heq).1⟩
    rw [hstore] at hkept
    exact (mem_deleteByPrefix.1 hkept).2 hpre
  · intro hapart entry
    rw [hstore]
    constructor
    · intro hmem
      refine ⟨(OrderedStore.mem_filter _ |>.1 hmem).1, ?_⟩
      obtain ⟨key, data⟩ := entry
      rintro seq rfl
      exact (mem_deleteByPrefix.1 hmem).2 (List.isPrefixOf_iff_prefix.2 prefix_rfl)
    · rintro ⟨hmem, hnot⟩
      obtain ⟨key, data⟩ := entry
      obtain ⟨s, q, rfl, -⟩ := h _ hmem
      refine mem_deleteByPrefix.2 ⟨hmem, fun hpre => hnot q ?_⟩
      rw [hapart s q data hmem hpre]

/-- A step that ends a session deletes what is stored under its id. -/
theorem store_eq_of_closedBy (hstep : f.step clusterName e = some f')
    (hclosed : f.closedBy clusterName e = some session) :
    f'.shared.store = deleteByPrefix f.shared.store (decimal session) := by
  cases effect_of_step hstep with
  | kept hnone | stored _ hnone => simp [hnone] at hclosed
  | expired expired hevent =>
    subst hevent
    cases hclosed
  | closed session' hclosed' htimeout hstore hlive =>
    rw [hclosed] at hclosed'
    cases hclosed'
    exact hstore

/-- From a tidy state, a step isolates the sessions if and only if it meets the condition. -/
theorem isolation_iff_of_tidy (h : f.Tidy) (hstep : f.step clusterName e = some f') :
    Isolation clusterName f e f' ↔ KeepsApart clusterName f e := by
  constructor
  · intro hiso
    refine ⟨?_, ?_⟩
    · intro session hclosed
      exact (removesOwn_iff h (store_eq_of_closedBy hstep hclosed)).1
        (hiso.removesOwn session hclosed)
    · rintro expired rfl session hsession seq data hmem
      -- the timeout leaves the chunk where it was, without its session
      cases effect_of_step hstep with
      | kept _ htimeout | stored _ _ htimeout | closed _ _ htimeout => exact htimeout expired rfl
      | expired expired' hevent hstore hlive =>
        cases hevent
        rw [← hstore] at hmem
        exact ((hlive session).1 (hiso.noOrphans session seq data hmem)).2 hsession
  · intro hok
    refine ⟨?_, indexesOwnChunks_of_step hstep, ?_⟩
    · intro session hclosed
      exact (removesOwn_iff h (store_eq_of_closedBy hstep hclosed)).2 (hok.1 session hclosed)
    · intro session seq data hmem
      exact (h.step hok hstep).live hmem

end Facade

open Facade

/-- In every run, once all earlier steps met the condition, a step keeps the sessions apart if and
only if it meets the condition. -/
theorem chunkStore_isolation_iff (clusterName : String) (es : List FacadeEvent) (e : FacadeEvent)
    (f f' : Facade) (hmeet : (facadeSystem clusterName).StepsMeet (KeepsApart clusterName)
    (facadeSystem clusterName).init es) (hrun : (facadeSystem clusterName).run es = some f)
    (hstep : (facadeSystem clusterName).step f e = some f') :
    Isolation clusterName f e f' ↔ KeepsApart clusterName f e := by
  apply isolation_iff_of_tidy _ hstep
  -- the store is tidy along every run whose steps meet the condition
  apply (facadeSystem clusterName).runFrom_induction_of_stepsMeet (P := Tidy) _ tidy_init hmeet hrun
  intro s e t hs hok ht
  exact hs.step hok ht

/-- A message of the agent `id` for the module `fim`, with the indexer available. -/
def fimMessage (id : String) (message : SyncMessage) (drawn : Nat) : FacadeEvent :=
  .message (plainAgent id "fim") message true drawn

/-- The first chunk of a session. -/
def firstChunk (session : Nat) : DataMessage := ⟨0, session, .delete, "id", "index", ""⟩

/-- The sessions `1` and `12` of two agents; `1` is complete and its chunk handed over, `12`
waits. -/
def prefixRun : List FacadeEvent :=
  [fimMessage "001" (.start singleStart) 1, fimMessage "002" (.start singleStart) 12,
    fimMessage "002" (.data (firstChunk 12)) 0, fimMessage "001" (.data (firstChunk 1)) 0,
    fimMessage "001" (.finish 1) 0, .index 1 none]

/-- A session that times out after its chunk arrived. -/
def timeoutRun : List FacadeEvent :=
  [fimMessage "001" (.start singleStart) 7, fimMessage "001" (.data (firstChunk 7)) 0, .timeout [7]]

/-- Finishing session `1` deletes the chunk of the live session `12`, and the chunk of a session
that timed out stays. -/
theorem chunkStore_not_isolated :
    (∃ f f', (facadeSystem "wazuh").run prefixRun = some f ∧
      (facadeSystem "wazuh").step f (.notify 1) = some f' ∧ f'.Live 12 ∧
      (chunkKey 12 0, firstChunk 12) ∈ f.shared.store.entries ∧
      (chunkKey 12 0, firstChunk 12) ∉ f'.shared.store.entries) ∧
    ∃ f, (facadeSystem "wazuh").run timeoutRun = some f ∧ ¬ f.Live 7 ∧
      (chunkKey 7 0, firstChunk 7) ∈ f.shared.store.entries :=
  ⟨⟨_, _, rfl, rfl, by decide, by decide, by decide⟩, ⟨_, rfl, by decide, by decide⟩⟩

/-- One session from its start to the callback of the connector. -/
def singleRun : List FacadeEvent :=
  [fimMessage "001" (.start singleStart) 7, fimMessage "001" (.data (firstChunk 7)) 0,
    fimMessage "001" (.finish 7) 0, .index 7 none]

theorem stepsMeet_singleRun :
    (facadeSystem "wazuh").StepsMeet (KeepsApart "wazuh")
    (facadeSystem "wazuh").init singleRun := by
  have hmessage : ∀ f info message available drawn,
      KeepsApart "wazuh" f (.message info message available drawn) := by
    intro f info message available drawn
    exact ⟨nofun, nofun⟩
  refine ⟨hmessage _ _ _ _ _, fun f₁ h₁ => ⟨hmessage _ _ _ _ _, fun f₂ h₂ =>
    ⟨hmessage _ _ _ _ _, fun f₃ h₃ => ⟨?_, fun _ _ => trivial⟩⟩⟩⟩
  cases h₁
  cases h₂
  cases h₃
  -- the only chunk is handed over without an exception
  exact ⟨fun _ h => (by cases h), fun _ h => (by cases h)⟩

/-- The callback of the only session removes its only chunk. -/
theorem chunkStore_isolation_iff_single :
    ∃ f f', (facadeSystem "wazuh").run singleRun = some f ∧
      (facadeSystem "wazuh").step f (.notify 7) = some f' ∧
      Isolation "wazuh" f (.notify 7) f' := by
  refine ⟨_, _, rfl, rfl, ?_⟩
  apply (chunkStore_isolation_iff "wazuh" singleRun (.notify 7) _ _ stepsMeet_singleRun rfl rfl).2
  refine ⟨?_, nofun⟩
  intro session hsession other seq data hmem _
  cases hsession
  obtain ⟨hkey, -⟩ := Prod.mk.inj (mem_singleton.1 hmem)
  have hkey' : chunkKey other seq = chunkKey 7 0 := hkey
  exact (chunkKey_injective hkey').1

end WazAISentinel.InventorySync
