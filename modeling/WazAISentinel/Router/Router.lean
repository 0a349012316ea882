import WazAISentinel.Router.Table

/-!
# The router of a worker

The requests that a worker's `Router` (`router/src/router.cpp`) gets, on its table of entries. The
outcome of building an environment is an argument, as is the time. An operation that returns an
error leaves the table as it is.

Of an entry, its `EntryView` is what the other workers have too. Whether a request is accepted, and
what becomes of the views, depends on the views and the outcome of the building only.
-/

namespace WazAISentinel.Router

/-- `env::State`. -/
inductive State where
  | unknown
  | disabled
  | enabled
  deriving DecidableEq

/-- What is returned instead of a result. -/
inductive RouterError where
  | nameEmpty
  | policyEmpty
  | filterEmpty
  | priorityZero
  | priorityTooGreat
  | createFailed (what : String)
  | nameInUse
  | priorityInUse
  | notExist
  | reloadFailed (what : String)
  | notBuilt
  | routePriorityZero
  | routePriorityTooGreat
  | changeFailed
  deriving DecidableEq

/-- The texts of the errors, as the source spells them. -/
def RouterError.message : RouterError → String
  | .nameEmpty => "Name cannot be empty"
  | .policyEmpty => "Policy name is empty"
  | .filterEmpty => "Filter name is empty"
  | .priorityZero => "Priority cannot be 0"
  | .priorityTooGreat => "Priority cannot be greater than 1000"
  | .createFailed what => "Failed to create the route: " ++ what
  | .nameInUse => "The name of the route is already in use"
  | .priorityInUse => "The priority of the route  is already in use"
  | .notExist => "The route not exist"
  | .reloadFailed what => "Failed to reload the route: " ++ what
  | .notBuilt => "The route is not buided"
  | .routePriorityZero => "Priority of the route cannot be 0"
  | .routePriorityTooGreat => "Priority of the route cannot be greater than 1000"
  | .changeFailed => "Failed to change the priority, it is already in use"

/-- `prod::EntryPost`. Names of assets are given by their parts. -/
structure EntryPost where
  name : String
  policy : List String
  filter : List String
  priority : Nat
  description : Option String

/-- `MAX_PRIORITY`. -/
def EntryPost.maxPriority : Nat := 1000

/-- `EntryPost::validate`. -/
def EntryPost.validate (entry : EntryPost) : Option RouterError :=
  if entry.name = "" then some .nameEmpty
  else if entry.policy = [] then some .policyEmpty
  else if entry.filter = [] then some .filterEmpty
  else if entry.priority = 0 then some .priorityZero
  else if EntryPost.maxPriority < entry.priority then some .priorityTooGreat
  else none

/-- An environment, by the object it is, and the hash of its policy. -/
structure Environment where
  object : Nat
  hash : String
  deriving DecidableEq

/-- `Router::RuntimeEntry`. -/
structure RuntimeEntry extends EntryPost where
  status : State
  lastUpdate : Nat
  hash : String
  environment : Option Environment

/-- What is built, or the text of the exception. -/
abbrev Outcome := Except String Environment

/-! ## The requests -/

/-- `m_table`. -/
abbrev RouterTable := Table RuntimeEntry

variable (entryPost : EntryPost)

/-- The entry that `addEntry` puts into the table. It is disabled until all routes are ready. -/
def newEntry (ignoreFail : Bool) (created : Outcome) :
    Except RouterError RuntimeEntry :=
  match created with
  | .ok environment => .ok ⟨entryPost, .disabled, 0, environment.hash, some environment⟩
  | .error what =>
    if ignoreFail then .ok ⟨entryPost, .disabled, 0, "", none⟩ else .error (.createFailed what)

/-- `addEntry`. -/
def addEntry (ignoreFail : Bool) (created : Outcome) (table : RouterTable) :
    Except RouterError RouterTable :=
  match newEntry entryPost ignoreFail created with
  | .error e => .error e
  | .ok entry =>
    if table.nameExists entryPost.name then .error .nameInUse
    else if table.priorityExists entryPost.priority then .error .priorityInUse
    else .ok ((table.insert entryPost.name entryPost.priority entry).getD table)

variable (name : String)

/-- `removeEntry`. -/
def removeEntry (table : RouterTable) : Except RouterError RouterTable :=
  if table.nameExists name then .ok (table.erase name) else .error .notExist

/-- The entry with its new environment. Its status stays. -/
def rebuilt (environment : Environment) (now : Nat) (entry : RuntimeEntry) : RuntimeEntry :=
  { entry with environment := some environment, lastUpdate := now, hash := environment.hash }

/-- `rebuildEntry`. -/
def rebuildEntry (created : Outcome) (now : Nat) (table : RouterTable) :
    Except RouterError RouterTable :=
  if table.nameExists name then
    match created with
    | .ok environment => .ok (table.modify name (rebuilt environment now))
    | .error what => .error (.reloadFailed what)
  else .error .notExist

/-- The entry as `enableEntry` leaves it. -/
def enabledAt (now : Nat) (entry : RuntimeEntry) : RuntimeEntry :=
  { entry with status := .enabled, lastUpdate := now }

/-- `enableEntry`. -/
def enableEntry (now : Nat) (table : RouterTable) :
    Except RouterError RouterTable :=
  match table.get? name with
  | none => .error .notExist
  | some entry =>
    if entry.environment = none then .error .notBuilt else .ok (table.modify name (enabledAt now))

/-- The entry as `changePriority` leaves it. -/
def withPriority (priority : Nat) (entry : RuntimeEntry) : RuntimeEntry :=
  { entry with priority := priority }

/-- `changePriority`. -/
def changePriority (priority : Nat) (table : RouterTable) :
    Except RouterError RouterTable :=
  if priority = 0 then .error .routePriorityZero
  else if EntryPost.maxPriority < priority then .error .routePriorityTooGreat
  else if table.nameExists name then
    match table.setPriority name priority with
    | none => .error .changeFailed
    | some table => .ok (table.modify name (withPriority priority))
  else .error .notExist

/-! ## What the workers have in common -/

/-- Name, priority and status of an entry. -/
structure EntryView where
  name : String
  priority : Nat
  status : State
  deriving DecidableEq

/-- The view of an entry. -/
def RuntimeEntry.view (entry : RuntimeEntry) : EntryView :=
  ⟨entry.name, entry.priority, entry.status⟩

/-- Names, priorities and states of a table. -/
def view (table : RouterTable) : Table EntryView := table.map RuntimeEntry.view

theorem nameExists_view (table : RouterTable) (name : String) :
    (view table).nameExists name = table.nameExists name :=
  Table.nameExists_map _ _ _

/-- `addEntry` on views, when the environment is built. -/
def addView (t : Table EntryView) : Except RouterError (Table EntryView) :=
  if t.nameExists entryPost.name then .error .nameInUse
  else if t.priorityExists entryPost.priority then .error .priorityInUse
  else .ok ((t.insert entryPost.name entryPost.priority
    ⟨entryPost.name, entryPost.priority, .disabled⟩).getD t)

/-- What `addEntry` does to the views. -/
theorem view_addEntry (environment : Environment) (table : RouterTable) :
    (addEntry entryPost false (.ok environment) table).map view =
      addView entryPost (view table) := by
  rw [addEntry, newEntry, addView, nameExists_view, view, Table.priorityExists_map]
  dsimp only
  split
  · rfl
  · split
    · rfl
    · have hinsert := Table.insert_map RuntimeEntry.view table entryPost.name entryPost.priority
        ⟨entryPost, .disabled, 0, environment.hash, some environment⟩
      exact congrArg Except.ok
        ((congrArg (Option.getD · (view table)) hinsert).trans (Option.getD_map ..)).symm

/-- `removeEntry` on views. -/
def removeView (t : Table EntryView) : Except RouterError (Table EntryView) :=
  if t.nameExists name then .ok (t.erase name) else .error .notExist

/-- What `removeEntry` does to the views. -/
theorem view_removeEntry (table : RouterTable) :
    (removeEntry name table).map view = removeView name (view table) := by
  rw [removeEntry, removeView, nameExists_view]
  split
  · exact congrArg Except.ok (Table.erase_map _ _ _).symm
  · rfl

/-- `changePriority` on views. -/
def changeView (priority : Nat) (t : Table EntryView) :
    Except RouterError (Table EntryView) :=
  if priority = 0 then .error .routePriorityZero
  else if EntryPost.maxPriority < priority then .error .routePriorityTooGreat
  else if t.nameExists name then
    match t.setPriority name priority with
    | none => .error .changeFailed
    | some t => .ok (t.modify name fun v => { v with priority := priority })
  else .error .notExist

/-- What `changePriority` does to the views. -/
theorem view_changePriority (priority : Nat) (table : RouterTable) :
    (changePriority name priority table).map view = changeView name priority (view table) := by
  rw [changePriority, changeView, nameExists_view, view, Table.setPriority_map]
  split
  · rfl
  · split
    · rfl
    · split
      · cases table.setPriority name priority with
        | none => rfl
        | some t =>
          have hmodify :
              (t.map RuntimeEntry.view).modify name (fun v => { v with priority := priority }) =
              (t.modify name (withPriority priority)).map RuntimeEntry.view :=
            Table.modify_map (fun _ => by rfl) t name
          exact congrArg Except.ok hmodify.symm
      · rfl

/-! ## Entries with an environment -/

variable {name : String} {table : RouterTable} {environment : Environment}

/-- A rebuilt table: the entry has an environment and the views are the same. -/
theorem rebuildEntry_ok (h : table.nameExists name = true) (now : Nat) :
    ∃ table', rebuildEntry name (.ok environment) now table = .ok table' ∧
      view table' = view table ∧
      ∃ entry, table'.get? name = some entry ∧ entry.environment = some environment := by
  refine ⟨table.modify name (rebuilt environment now), ?_, ?_, ?_⟩
  · rw [rebuildEntry, if_pos h]
  · exact Table.map_modify_of_eq (fun _ => by rfl) table name
  · obtain ⟨item, hitem⟩ := Option.isSome_iff_exists.1 h
    exact ⟨rebuilt environment now item.object, by rw [Table.get?_modify, Table.get?, hitem]; rfl,
      rfl⟩

/-- The view of a table in which an entry has been enabled. -/
def enableView (name : String) (t : Table EntryView) : Table EntryView :=
  t.modify name fun v => { v with status := .enabled }

/-- The new entry has its environment. -/
theorem get?_addEntry {entryPost : EntryPost} {table' : RouterTable}
    (h : addEntry entryPost false (.ok environment) table = .ok table') :
    table.nameExists entryPost.name = false ∧
      ∃ entry, table'.get? entryPost.name = some entry ∧ entry.environment = some environment := by
  rw [addEntry, newEntry] at h
  dsimp only at h
  split at h
  · cases h
  · rename_i hname
    split at h
    · cases h
    · rename_i hpriority
      refine ⟨Bool.eq_false_iff.2 hname,
        ⟨entryPost, .disabled, 0, environment.hash, some environment⟩, ?_, rfl⟩
      cases hinsert : table.insert entryPost.name entryPost.priority
          ⟨entryPost, .disabled, 0, environment.hash, some environment⟩ with
      | none =>
        rw [Table.insert, dif_neg (not_or.2 ⟨hname, hpriority⟩)] at hinsert
        cases hinsert
      | some t =>
        rw [hinsert] at h
        obtain rfl := Except.ok.inj h
        exact Table.get?_of_insert hinsert

end WazAISentinel.Router
