import WazAISentinel.Foundations.Loops
import WazAISentinel.Router.Router

/-!
# The orchestrator

`Orchestrator` (`router/src/orchestrator.cpp`) passes each request of the router's API to all
workers, one after the other, and stops at the first error. The workers agree if their tables show
the same names, priorities and states. What was done on the workers before an error is not taken
back.
-/

namespace WazAISentinel.Router

open Foundations List

/-- `Orchestrator`: the tables of its workers and what the store has of them. -/
structure Orchestrator where
  workers : List RouterTable
  /-- The document with the table, from which the workers are loaded. -/
  stored : List EntryPost

/-- The requests that change the tables. -/
inductive Request where
  | postEntry (entry : EntryPost)
  | deleteEntry (name : String)
  | reloadEntry (name : String)
  | changeEntryPriority (name : String) (priority : Nat)

/-- A request, with what happens meanwhile: the environment that is built for each worker, and the
times that are read. -/
structure Call where
  request : Request
  create : Nat → Outcome
  now : Nat → Nat

variable {next : Orchestrator → Orchestrator × Option RouterError}
  {r : Orchestrator × Option RouterError} {e : RouterError}
  {f : Nat → RouterTable → Except RouterError RouterTable} {front front' : RouterTable}
  {rest : List RouterTable} {v : Table EntryView}

namespace Orchestrator

/-! ## The requests -/

/-- `forEachWorker`: a step on each worker, until one fails. -/
def forEachWorker (f : Nat → RouterTable → Except RouterError RouterTable) (s : Orchestrator) :
    Orchestrator × Option RouterError :=
  ({ s with workers := (eachReplica f 0 s.workers).1 }, (eachReplica f 0 s.workers).2)

/-- An error is returned at once. -/
def unlessError (r : Orchestrator × Option RouterError)
    (next : Orchestrator → Orchestrator × Option RouterError) : Orchestrator × Option RouterError :=
  match r.2 with
  | some e => (r.1, some e)
  | none => next r.1

/-- The entries of the first worker are stored. -/
def dumpRouters (s : Orchestrator) : Orchestrator :=
  match s.workers with
  | [] => s
  | front :: _ => { s with stored := front.items.map fun item => item.object.toEntryPost }

/-- `postEntry`. -/
def postEntry (entry : EntryPost) (create : Nat → Outcome) (now : Nat → Nat) (s : Orchestrator) :
    Orchestrator × Option RouterError :=
  match entry.validate with
  | some e => (s, some e)
  | none =>
    unlessError (s.forEachWorker fun i => addEntry entry false (create i)) fun s =>
      unlessError (s.forEachWorker fun i => enableEntry entry.name (now i)) fun s =>
        (s.dumpRouters, none)

/-- `deleteEntry`. -/
def deleteEntry (name : String) (s : Orchestrator) : Orchestrator × Option RouterError :=
  if name = "" then (s, some .nameEmpty)
  else unlessError (s.forEachWorker fun _ => removeEntry name) fun s => (s.dumpRouters, none)

/-- The environments are rebuilt at some times and enabled at later ones. -/
def reloadEntry (name : String) (create : Nat → Outcome) (now : Nat → Nat) (s : Orchestrator) :
    Orchestrator × Option RouterError :=
  if name = "" then (s, some .nameEmpty)
  else
    unlessError (s.forEachWorker fun i => rebuildEntry name (create i) (now i)) fun s =>
      s.forEachWorker fun i => enableEntry name (now (s.workers.length + i))

/-- `changeEntryPriority`. -/
def changeEntryPriority (name : String) (priority : Nat) (s : Orchestrator) :
    Orchestrator × Option RouterError :=
  if name = "" then (s, some .nameEmpty)
  else unlessError (s.forEachWorker fun _ => changePriority name priority) fun s =>
    (s.dumpRouters, none)

section

variable (s : Orchestrator) (call : Call)

/-- A call is handled. -/
def handle : Orchestrator × Option RouterError :=
  match call.request with
  | .postEntry entry => s.postEntry entry call.create call.now
  | .deleteEntry name => s.deleteEntry name
  | .reloadEntry name => s.reloadEntry name call.create call.now
  | .changeEntryPriority name priority => s.changeEntryPriority name priority

/-! ## Agreement -/

/-- All workers have the same names, priorities and states. -/
def Agree : Prop := ∀ w ∈ s.workers, ∀ w' ∈ s.workers, view w = view w'

/-- What is asked of a call: the workers agree after it, and if it returns an error, it has changed
none of them. -/
def Keeps : Prop :=
  (s.handle call).1.Agree ∧ ((s.handle call).2 ≠ none → (s.handle call).1.workers = s.workers)

/-- The same of what a pass gives back. -/
def Kept (r : Orchestrator × Option RouterError) : Prop :=
  r.1.Agree ∧ (r.2 ≠ none → r.1.workers = s.workers)

/-- If the first worker accepts the step, the environments of all workers are built. -/
def BuildsForAll (create : Nat → Outcome)
    (step : Nat → RouterTable → Except RouterError RouterTable) : Prop :=
  ∀ front rest, s.workers = front :: rest → (∃ front', step 0 front = .ok front') →
    ∀ i < s.workers.length, ∃ environment, create i = .ok environment

/-- The condition: no environment fails to be built after the first worker has been changed. -/
def Complete : Prop :=
  match call.request with
  | .postEntry entry =>
    entry.validate = none → s.BuildsForAll call.create fun i => addEntry entry false (call.create i)
  | .reloadEntry name =>
    name ≠ "" → s.BuildsForAll call.create fun i => rebuildEntry name (call.create i) (call.now i)
  | .deleteEntry _ => True
  | .changeEntryPriority _ _ => True

/-- The environments that are built are new objects. -/
def Fresh : Prop :=
  ∀ i environment, call.create i = .ok environment → ∀ w ∈ s.workers, ∀ item ∈ w.items,
    item.object.environment ≠ some environment

end

section Steps

variable {s : Orchestrator}

theorem workers_dumpRouters : s.dumpRouters.workers = s.workers := by
  rw [dumpRouters]
  split
  · rfl
  · rfl

theorem unlessError_of_none (h : r.2 = none) : unlessError r next = next r.1 := by
  rw [unlessError, h]

theorem unlessError_of_some (h : r.2 = some e) : unlessError r next = (r.1, some e) := by
  rw [unlessError, h]

/-- A pass that fails at once has changed nothing. -/
theorem forEachWorker_of_error (hworkers : s.workers = front :: rest) (h : f 0 front = .error e) :
    s.forEachWorker f = (s, some e) := by
  obtain ⟨workers, stored⟩ := s
  obtain rfl : workers = front :: rest := hworkers
  rw [forEachWorker, eachReplica_of_error h]

/-- A pass that fails nowhere. -/
theorem forEachWorker_of_all {P : RouterTable → Prop}
    (h : ∀ i w, s.workers[i]? = some w → ∃ w', f i w = .ok w' ∧ P w') :
    (s.forEachWorker f).2 = none ∧ ∀ w ∈ (s.forEachWorker f).1.workers, P w := by
  apply eachReplica_all
  intro j w hw
  rw [Nat.zero_add]
  exact h j w hw

/-- A pass that fails behind the first worker has changed it. -/
theorem forEachWorker_of_later (hworkers : s.workers = front :: rest)
    (hfront : f 0 front = .ok front') {i : Nat} {w : RouterTable} (hw : s.workers[i]? = some w)
    (he : f i w = .error e) :
    (∃ e, (s.forEachWorker f).2 = some e) ∧
      ∃ rest', (s.forEachWorker f).1.workers = front' :: rest' := by
  constructor
  · have hfails : f (0 + i) w = .error e := by rw [Nat.zero_add, he]
    exact eachReplica_some hw hfails
  · change ∃ rest', (eachReplica f 0 s.workers).1 = front' :: rest'
    rw [hworkers, eachReplica_of_ok hfront]
    exact ⟨_, rfl⟩

/-- Workers with one view agree. -/
theorem agree_of_forall (h : ∀ w ∈ s.workers, view w = v) : s.Agree :=
  fun w hw w' hw' => (h w hw).trans (h w' hw').symm

/-! ## One pass -/

/-- Requests in one pass that depend on the views only. -/
theorem pass_keeps (hagree : s.Agree) {f : RouterTable → Except RouterError RouterTable}
    {spec : Table EntryView → Except RouterError (Table EntryView)}
    (hspec : ∀ w, (f w).map view = spec (view w)) :
    s.Kept (unlessError (s.forEachWorker fun _ => f) fun s => (s.dumpRouters, none)) := by
  by_cases hall : ∃ v, ∀ (i : Nat) w, s.workers[i]? = some w → ∃ w', f w = .ok w' ∧ view w' = v
  · obtain ⟨v, hv⟩ := hall
    obtain ⟨hnone, hviews⟩ := forEachWorker_of_all (P := fun w => view w = v) hv
    rw [unlessError_of_none hnone]
    refine ⟨agree_of_forall fun w hw => hviews w ?_, fun h => absurd rfl h⟩
    rwa [workers_dumpRouters] at hw
  · cases hworkers : s.workers with
    | nil =>
      refine absurd ⟨view Table.empty, fun i w hw => ?_⟩ hall
      rw [hworkers] at hw
      cases hw
    | cons front rest =>
      cases hfront : f front with
      | error e =>
        rw [forEachWorker_of_error hworkers hfront, unlessError_of_some rfl]
        exact ⟨hagree, fun _ => rfl⟩
      | ok front' =>
        -- the others accept the request as the first worker does
        refine absurd ⟨view front', fun i w hw => ?_⟩ hall
        have hsame : view w = view front :=
          hagree w (mem_of_getElem? hw) front (by rw [hworkers]; exact mem_cons_self)
        have hw' := hspec w
        rw [hsame, ← hspec front, hfront] at hw'
        exact map_eq_ok.1 hw'

/-! ## A pass that builds environments -/

/-- A step that builds an environment fails if the building does, and else it is accepted by the
view, gives the entry the environment and changes the view as `spec` says. -/
structure BuildStep (name : String) (create : Nat → Outcome)
    (step : Nat → RouterTable → Except RouterError RouterTable)
    (spec : Table EntryView → Except RouterError (Table EntryView)) : Prop where
  throws : ∀ i what, create i = .error what → ∀ w, ∃ e, step i w = .error e
  builds : ∀ i environment, create i = .ok environment → ∀ w, (step i w).map view = spec (view w)
  entry : ∀ i environment, create i = .ok environment → ∀ w w', step i w = .ok w' →
    ∃ entry, w'.get? name = some entry ∧ entry.environment = some environment

variable {name : String} {create : Nat → Outcome}
  {step : Nat → RouterTable → Except RouterError RouterTable}
  {spec : Table EntryView → Except RouterError (Table EntryView)}

/-- If the first worker accepts and all environments are built, all workers are changed and their
entries can be enabled. -/
theorem BuildStep.all (h : BuildStep name create step spec) (hagree : s.Agree)
    (hworkers : s.workers = front :: rest) (hfront : step 0 front = .ok front')
    (hbuilt : ∀ i < s.workers.length, ∃ environment, create i = .ok environment) :
    (s.forEachWorker step).2 = none ∧ ∀ w ∈ (s.forEachWorker step).1.workers, view w = view front' ∧
      ∃ entry environment, w.get? name = some entry ∧ entry.environment = some environment := by
  have hlength : 0 < s.workers.length := by
    rw [hworkers]
    exact Nat.succ_pos _
  obtain ⟨environment₀, hcreate₀⟩ := hbuilt 0 hlength
  apply forEachWorker_of_all
  intro i w hw
  obtain ⟨environment, hcreate⟩ := hbuilt i (List.getElem?_eq_some_iff.1 hw).1
  have hsame : view w = view front :=
    hagree w (mem_of_getElem? hw) front (by rw [hworkers]; exact mem_cons_self)
  have hspec := h.builds i environment hcreate w
  rw [hsame, ← h.builds 0 environment₀ hcreate₀ front, hfront] at hspec
  obtain ⟨w', hstep, hview⟩ := map_eq_ok.1 hspec
  obtain ⟨entry, hentry, henvironment⟩ := h.entry i environment hcreate w w' hstep
  exact ⟨w', hstep, hview, entry, environment, hentry, henvironment⟩

/-- Then the entries are enabled. -/
theorem enable_all (h : ∀ w ∈ s.workers, view w = v ∧ ∃ entry environment,
    w.get? name = some entry ∧ entry.environment = some environment) (now : Nat → Nat) :
    (s.forEachWorker fun i => enableEntry name (now i)).2 = none ∧
      (s.forEachWorker fun i => enableEntry name (now i)).1.Agree := by
  obtain ⟨hnone, hviews⟩ := forEachWorker_of_all (P := fun w => view w = enableView name v)
    (f := fun i => enableEntry name (now i)) fun i w hw => by
      obtain ⟨hv, entry, environment, hentry, henvironment⟩ := h w (mem_of_getElem? hw)
      rw [← hv]
      refine ⟨w.modify name (enabledAt (now i)), ?_,
        (Table.modify_map (fun _ => by rfl) w name).symm⟩
      rw [enableEntry, hentry]
      dsimp only
      rw [henvironment, if_neg (Option.some_ne_none environment)]
  exact ⟨hnone, agree_of_forall hviews⟩

/-- A request that builds environments in its first pass, and changes the first worker with it. -/
theorem BuildStep.keeps_iff (h : BuildStep name create step spec) (hagree : s.Agree)
    (hchanges : ∀ environment, create 0 = .ok environment →
    ∀ front ∈ s.workers, ∀ front', step 0 front = .ok front' → front' ≠ front)
    (hnext : ∀ s' v, (∀ w ∈ s'.workers, view w = v ∧ ∃ entry environment, w.get? name = some entry ∧
    entry.environment = some environment) → (next s').2 = none ∧ (next s').1.Agree) :
    s.Kept (unlessError (s.forEachWorker step) next) ↔ s.BuildsForAll create step := by
  cases hworkers : s.workers with
  | nil =>
    have hpass : (s.forEachWorker step).2 = none ∧ (s.forEachWorker step).1.workers = [] := by
      rw [forEachWorker, hworkers]
      exact ⟨rfl, rfl⟩
    rw [unlessError_of_none hpass.1]
    obtain ⟨hnone, hviews⟩ := hnext (s.forEachWorker step).1 (view Table.empty) fun w hw => by
      rw [hpass.2] at hw
      exact absurd hw not_mem_nil
    refine ⟨fun _ front rest heq => ?_, fun _ => ⟨hviews, fun herror => absurd hnone herror⟩⟩
    rw [hworkers] at heq
    cases heq
  | cons front rest =>
    cases hfront : step 0 front with
    | error e =>
      rw [forEachWorker_of_error hworkers hfront, unlessError_of_some rfl]
      refine ⟨fun _ front' rest' heq hok => ?_, fun _ => ⟨hagree, fun _ => rfl⟩⟩
      rw [hworkers] at heq
      obtain ⟨rfl, -⟩ := cons.inj heq
      obtain ⟨w', hw'⟩ := hok
      rw [hfront] at hw'
      cases hw'
    | ok front' =>
      constructor
      · rintro ⟨-, hunchanged⟩ front₁ rest₁ heq hok i hi
        cases hcreate : create i with
        | ok environment => exact ⟨environment, rfl⟩
        | error what =>
          -- the first worker has been changed, and an error is returned
          exfalso
          obtain ⟨e, he⟩ := h.throws i what hcreate s.workers[i]
          obtain ⟨⟨e', herror⟩, rest', hrest⟩ :=
            forEachWorker_of_later hworkers hfront (getElem?_eq_getElem hi) he
          rw [unlessError_of_some herror] at hunchanged
          have hfirst := hunchanged (Option.some_ne_none e')
          rw [hrest, hworkers] at hfirst
          cases hcreate₀ : create 0 with
          | error what =>
            obtain ⟨e, he⟩ := h.throws 0 what hcreate₀ front
            rw [hfront] at he
            cases he
          | ok environment =>
            refine hchanges environment hcreate₀ front ?_ front' hfront (cons.inj hfirst).1
            rw [hworkers]
            exact mem_cons_self
      · intro hbuilds
        obtain ⟨hnone, hall⟩ :=
          h.all hagree hworkers hfront (hbuilds front rest hworkers ⟨front', hfront⟩)
        rw [unlessError_of_none hnone]
        obtain ⟨hnone', hagree'⟩ := hnext _ _ hall
        exact ⟨hagree', fun herror => absurd hnone' herror⟩

/-! ## The calls -/

/-- The first pass of `postEntry`. -/
theorem buildStep_addEntry (entry : EntryPost) (create : Nat → Outcome) :
    BuildStep entry.name create (fun i => addEntry entry false (create i)) (addView entry) where
  throws i what hcreate w := ⟨.createFailed what, by rw [hcreate]; rfl⟩
  builds i environment hcreate w := by
    rw [hcreate]
    exact view_addEntry entry environment w
  entry i environment hcreate w w' hstep := by
    rw [hcreate] at hstep
    exact (get?_addEntry hstep).2

/-- `rebuildEntry` on views, when the environment is built. -/
def rebuildView (name : String) (t : Table EntryView) : Except RouterError (Table EntryView) :=
  if t.nameExists name then .ok t else .error .notExist

/-- The first pass of `reloadEntry`. -/
theorem buildStep_rebuildEntry (name : String) (create : Nat → Outcome) (now : Nat → Nat) :
    BuildStep name create (fun i => rebuildEntry name (create i) (now i)) (rebuildView name) where
  throws i what hcreate w := by
    rw [hcreate, rebuildEntry]
    split
    · exact ⟨_, rfl⟩
    · exact ⟨_, rfl⟩
  builds i environment hcreate w := by
    rw [hcreate, rebuildView, nameExists_view]
    split_ifs with hname
    · obtain ⟨w', hw', hview, -⟩ := rebuildEntry_ok hname (now i)
      rw [hw']
      exact congrArg Except.ok hview
    · rw [rebuildEntry, if_neg hname]
      rfl
  entry i environment hcreate w w' hstep := by
    rw [hcreate] at hstep
    cases hname : w.nameExists name with
    | false =>
      rw [rebuildEntry, hname, if_neg Bool.false_ne_true] at hstep
      cases hstep
    | true =>
      obtain ⟨w'', hw'', -, hentry⟩ := rebuildEntry_ok hname (now i)
      obtain rfl := Except.ok.inj (hw''.symm.trans hstep)
      exact hentry

/-- `postEntry` keeps the agreement if all environments are built, and only then. -/
theorem postEntry_keeps_iff (hagree : s.Agree) (entry : EntryPost) (create : Nat → Outcome)
    (now : Nat → Nat) :
    s.Kept (s.postEntry entry create now) ↔
      (entry.validate = none → s.BuildsForAll create fun i => addEntry entry false (create i)) := by
  rw [postEntry]
  cases hvalid : entry.validate with
  | some e =>
    refine ⟨fun _ h => ?_, fun _ => ⟨hagree, fun _ => rfl⟩⟩
    cases h
  | none =>
    rw [forall_prop_of_true rfl]
    refine (buildStep_addEntry entry create).keeps_iff hagree ?_ ?_
    · rintro environment hcreate front - front' hfront rfl
      -- the name was not in the table
      rw [hcreate] at hfront
      obtain ⟨hname, e, he, -⟩ := get?_addEntry hfront
      rw [Table.get?_eq_none (by rw [hname]; exact Bool.false_ne_true)] at he
      cases he
    · intro s' v hall
      obtain ⟨hnone, hviews⟩ := enable_all hall now
      rw [unlessError_of_none hnone]
      refine ⟨rfl, ?_⟩
      rw [Agree, workers_dumpRouters]
      exact hviews

/-- So does `reloadEntry`. -/
theorem reloadEntry_keeps_iff (hagree : s.Agree) (name : String) {create : Nat → Outcome}
    (now : Nat → Nat) (hfresh : ∀ i environment, create i = .ok environment →
    ∀ w ∈ s.workers, ∀ item ∈ w.items, item.object.environment ≠ some environment) :
    s.Kept (s.reloadEntry name create now) ↔
      (name ≠ "" → s.BuildsForAll create fun i => rebuildEntry name (create i) (now i)) := by
  rw [reloadEntry]
  split_ifs with hname
  · exact ⟨fun _ h => absurd hname h, fun _ => ⟨hagree, fun _ => rfl⟩⟩
  · rw [forall_prop_of_true hname]
    refine (buildStep_rebuildEntry name create now).keeps_iff hagree ?_ ?_
    · rintro environment hcreate front hfront front' hstep rfl
      -- the entry has an environment that was in no table
      obtain ⟨entry, hentry, henvironment⟩ :=
        (buildStep_rebuildEntry name create now).entry 0 environment hcreate _ _ hstep
      obtain ⟨item, hitem, rfl⟩ := Option.map_eq_some_iff.1 hentry
      exact hfresh 0 environment hcreate front' hfront item (mem_of_find?_eq_some hitem)
        henvironment
    · intro s' v hall
      exact enable_all hall fun i => now (s'.workers.length + i)

/-- One call. -/
theorem keeps_iff (hagree : s.Agree) (call : Call) (hfresh : s.Fresh call) :
    s.Keeps call ↔ s.Complete call := by
  rw [Keeps, handle, Complete]
  cases call.request with
  | postEntry entry => exact postEntry_keeps_iff hagree entry call.create call.now
  | reloadEntry name => exact reloadEntry_keeps_iff hagree name call.now hfresh
  | deleteEntry name =>
    refine iff_true_intro ?_
    dsimp only
    rw [deleteEntry]
    split
    · exact ⟨hagree, fun _ => rfl⟩
    · exact pass_keeps hagree (view_removeEntry name)
  | changeEntryPriority name priority =>
    refine iff_true_intro ?_
    dsimp only
    rw [changeEntryPriority]
    split
    · exact ⟨hagree, fun _ => rfl⟩
    · exact pass_keeps hagree (view_changePriority name priority)

end Steps

/-! ## Sequences of calls -/

/-- Every call of a sequence has a property in the state in which it is made. -/
def EachCall (P : Orchestrator → Call → Prop) : Orchestrator → List Call → Prop
  | _, [] => True
  | s, call :: calls => P s call ∧ EachCall P (s.handle call).1 calls

/-- All workers agree after each call, and every call that returns an error has changed no worker,
exactly if every call meets the condition. -/
theorem workers_agree_iff (s : Orchestrator) (hagree : s.Agree) (calls : List Call)
    (hfresh : EachCall Fresh s calls) : EachCall Keeps s calls ↔ EachCall Complete s calls := by
  induction calls generalizing s with
  | nil => exact Iff.rfl
  | cons call calls ih =>
    obtain ⟨hcall, hcalls⟩ := hfresh
    rw [EachCall, EachCall, ← keeps_iff hagree call hcall]
    exact and_congr_right fun hkeeps => ih _ hkeeps.1 hcalls

/-- Two workers without entries. -/
def twoWorkers : Orchestrator := ⟨[Table.empty, Table.empty], []⟩

/-- A valid route. -/
def oneRoute : EntryPost := ⟨"route", ["policy", "p", "0"], ["filter", "f", "0"], 1, none⟩

theorem agree_twoWorkers : twoWorkers.Agree := by
  refine agree_of_forall (v := view Table.empty) fun w hw => ?_
  obtain rfl : w = Table.empty := by simpa [twoWorkers] using hw
  rfl

theorem fresh_twoWorkers (call : Call) : twoWorkers.Fresh call := by
  intro i environment _ w hw item hitem
  obtain rfl : w = Table.empty := by simpa [twoWorkers] using hw
  exact absurd hitem not_mem_nil

/-- A route for which all environments are built. -/
theorem workers_agree_iff_oneRoute :
    EachCall Keeps twoWorkers [⟨.postEntry oneRoute, fun i => .ok ⟨i, "hash"⟩, fun _ => 0⟩] :=
  (workers_agree_iff twoWorkers agree_twoWorkers [⟨.postEntry oneRoute, fun i => .ok ⟨i, "hash"⟩,
    fun _ => 0⟩] ⟨fresh_twoWorkers _, trivial⟩).2 ⟨fun _ _ _ _ _ i _ => ⟨⟨i, "hash"⟩, rfl⟩, trivial⟩

/-- The building of the second environment throws: an error is returned, and the first worker keeps
the route. -/
theorem route_on_one_worker :
    twoWorkers.Agree ∧
      (twoWorkers.handle
        ⟨.postEntry oneRoute, fun i => if i = 0 then .ok ⟨0, "hash"⟩ else .error "no policy",
        fun _ => 0⟩).2 =
        some (.createFailed "no policy") ∧
      (twoWorkers.handle
        ⟨.postEntry oneRoute, fun i => if i = 0 then .ok ⟨0, "hash"⟩ else .error "no policy",
        fun _ => 0⟩).1.workers.map (fun w => w.nameExists "route") = [true, false] :=
  ⟨agree_twoWorkers, rfl, rfl⟩

end Orchestrator

end WazAISentinel.Router
