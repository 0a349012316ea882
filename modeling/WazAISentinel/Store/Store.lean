import WazAISentinel.Foundations.TransitionSystem
import WazAISentinel.Store.FileDriver

/-!
# The store

`store/src/store.cpp`: the calls that write. A call asks the cache, calls the driver, and changes
the cache if the driver has replied that it is done. An exception of the driver or of the
constructor of a name leaves the cache as it is.

`At name ns ps` says that the document `name` of the namespace `ns` has its file at `ps` below the
base path, and `Held` that the driver finds it there. A part `.` or `..` leads to a file that has
another name; such a name is at no place.
-/

namespace WazAISentinel.Store

open Foundations

/-- The errors of the store, each with the words of its message. -/
inductive StoreError where
  | documentAlreadyExists
  | documentDoesNotExist
  | documentAlreadyExistsInAnotherNamespace
  | collectionDoesNotExist
  | driver (e : DriverError)
  deriving DecidableEq

/-- The files and the cache. -/
structure State where
  tree : Tree
  cache : DBDocNames

section

variable (root : List FileName)

/-! ## The calls that write -/

variable (f : Faults) (s : State)

/-- The cache is changed if the driver is done. -/
def commit (result : Tree × Reply DriverError) (cache : DBDocNames) : State × Reply StoreError :=
  match result with
  | (t, .done) => (⟨t, cache⟩, .done)
  | (t, .error e) => (⟨t, s.cache⟩, .error (.driver e))
  | (t, .thrown) => (⟨t, s.cache⟩, .thrown)

variable (name : Name) (namespaceId : NamespaceId)

/-- `createDoc`. -/
def createDoc (content : Doc) : State × Reply StoreError :=
  if s.cache.existsName name then (s, .error .documentAlreadyExists)
  else
    match virtualToRealName name namespaceId with
    | none => (s, .thrown)
    | some rName =>
      commit s (FileDriver.createDoc root f s.tree rName content) (s.cache.add name namespaceId).1

/-- `updateDoc`. -/
def updateDoc (content : Doc) : State × Reply StoreError :=
  match s.cache.getNamespaceId name with
  | none => (s, .error .documentDoesNotExist)
  | some namespaceId =>
    match virtualToRealName name namespaceId with
    | none => (s, .thrown)
    | some rName => commit s (FileDriver.updateDoc root f s.tree rName content) s.cache

/-- `upsertDoc`. -/
def upsertDoc (content : Doc) : State × Reply StoreError :=
  let namespaceIdCache := s.cache.getNamespaceId name
  if namespaceIdCache.isSome ∧
    namespaceIdCache ≠ some namespaceId then (s, .error .documentAlreadyExistsInAnotherNamespace)
  else
    match virtualToRealName name namespaceId with
    | none => (s, .thrown)
    | some rName =>
      commit s (FileDriver.upsertDoc root f s.tree rName content)
        (if namespaceIdCache.isNone then (s.cache.add name namespaceId).1 else s.cache)

/-- `deleteDoc`. -/
def deleteDoc : State × Reply StoreError :=
  match s.cache.getNamespaceId name with
  | none => (s, .error .documentDoesNotExist)
  | some namespaceId =>
    match virtualToRealName name namespaceId with
    | none => (s, .thrown)
    | some rName => commit s (FileDriver.deleteDoc root f s.tree rName) (s.cache.del name)

/-- `deleteCol`. -/
def deleteCol : State × Reply StoreError :=
  if (s.cache.filterByPrefix name namespaceId).isEmpty then (s, .error .collectionDoesNotExist)
  else
    match virtualToRealName name namespaceId with
    | none => (s, .thrown)
    | some rName =>
      commit s (FileDriver.deleteCol root f s.tree rName) (s.cache.delCol name namespaceId)

end

/-- The calls. -/
inductive Call where
  | createDoc (name : Name) (namespaceId : NamespaceId) (content : Doc)
  | updateDoc (name : Name) (content : Doc)
  | upsertDoc (name : Name) (namespaceId : NamespaceId) (content : Doc)
  | deleteDoc (name : Name)
  | deleteCol (name : Name) (namespaceId : NamespaceId)

/-- A call, and what the file system does in it. -/
structure Event where
  call : Call
  faults : Faults

/-- A call is performed. -/
def perform (root : List FileName) (s : State) (e : Event) : State × Reply StoreError :=
  match e.call with
  | .createDoc name namespaceId content => createDoc root e.faults s name namespaceId content
  | .updateDoc name content => updateDoc root e.faults s name content
  | .upsertDoc name namespaceId content => upsertDoc root e.faults s name namespaceId content
  | .deleteDoc name => deleteDoc root e.faults s name
  | .deleteCol name namespaceId => deleteCol root e.faults s name namespaceId

/-- The store as a transition system. -/
def system (root : List FileName) (init : State) : TransitionSystem State Event :=
  ⟨init, fun s e => some (perform root s e).1⟩

/-! ## What the driver holds -/

open List

/-- The real name is made of names of files. -/
def At (name : Name) (ns : NamespaceId) (ps : List FileName) : Prop :=
  ∃ rName, virtualToRealName name ns = some rName ∧ rName.parts = ps.map .name

/-- The driver finds the document under a plain real name. -/
def Held (root : List FileName) (t : Tree) (name : Name) (ns : NamespaceId) : Prop :=
  ∃ rName, virtualToRealName name ns = some rName ∧
    (∃ ps : List FileName, rName.parts = ps.map .name) ∧ existsDoc root t rName = true

/-- Names are kept apart in paths. -/
theorem component_name_injective : Function.Injective (Component.name : FileName → Part) := by
  intro a b h
  cases h
  rfl

variable {name name' rName : Name} {ns ns' : NamespaceId} {ps ps' : List FileName}

theorem At.realParts_eq (h : At name ns ps) : realParts name ns = ps.map .name := by
  obtain ⟨rName, hreal, hparts⟩ := h
  rw [← hparts, Name.parts_of_ofParts hreal]

/-- The place tells the name and the namespace. -/
theorem At.inj (h : At name ns ps) (h' : At name' ns' ps) : name = name' ∧ ns = ns' := by
  have heq := h.realParts_eq.trans h'.realParts_eq.symm
  rw [realParts, realParts, cons.injEq, cons.injEq] at heq
  obtain ⟨-, hns, hparts⟩ := heq
  refine ⟨Name.ext hparts, ?_⟩
  exact congrArg NamespaceId.mk hns

/-- A document has one place. -/
theorem At.eq (h : At name ns ps) (h' : At name ns ps') : ps = ps' :=
  map_injective_iff.2 component_name_injective (h.realParts_eq.symm.trans h'.realParts_eq)

variable (root : List FileName) in
theorem At.place_eq_iff (h : At name ns ps) (h' : At name' ns' ps') :
    root ++ ps = root ++ ps' ↔ name = name' ∧ ns = ns' := by
  rw [append_cancel_left_eq]
  constructor
  · rintro rfl
    exact h.inj h'
  · rintro ⟨rfl, rfl⟩
    exact h.eq h'

/-- One place is above another if both are in one namespace and so are the names. -/
theorem At.prefix_iff (h : At name ns ps) (h' : At name' ns' ps') :
    ps <+: ps' ↔ ns = ns' ∧ name.parts <+: name'.parts := by
  rw [← prefix_map_iff_of_injective component_name_injective, ← h.realParts_eq,
    ← h'.realParts_eq, realParts, realParts, cons_prefix_cons, cons_prefix_cons]
  refine ⟨fun hall => ⟨?_, hall.2.2⟩,
    fun hboth => ⟨rfl, congrArg NamespaceId.part hboth.1, hboth.2⟩⟩
  exact congrArg NamespaceId.mk hall.2.1

section

variable {root : List FileName} {t t' : Tree}

theorem held_iff : Held root t name ns ↔ ∃ ps, At name ns ps ∧ t.IsFile (root ++ ps) := by
  constructor
  · rintro ⟨rName, hreal, ⟨ps, hparts⟩, hexists⟩
    exact ⟨ps, ⟨rName, hreal, hparts⟩, (FileDriver.existsDoc_iff hparts).1 hexists⟩
  · rintro ⟨ps, ⟨rName, hreal, hparts⟩, hfile⟩
    exact ⟨rName, hreal, ⟨ps, hparts⟩, (FileDriver.existsDoc_iff hparts).2 hfile⟩

/-- The files decide what is held. -/
theorem held_congr (h : ∀ q, t'.IsFile q ↔ t.IsFile q) (name : Name) (ns : NamespaceId) :
    Held root t' name ns ↔ Held root t name ns := by
  rw [held_iff, held_iff]
  exact exists_congr fun ps => and_congr_right fun _ => h _

/-- A file has been written. -/
theorem held_put (hat : At name ns ps) (h : ∀ q, t'.IsFile q ↔ q = root ++ ps ∨ t.IsFile q)
    (key : Name) (ns' : NamespaceId) :
    Held root t' key ns' ↔ key = name ∧ ns' = ns ∨ Held root t key ns' := by
  rw [held_iff, held_iff]
  constructor
  · rintro ⟨ps', hat', hfile⟩
    exact ((h _).1 hfile).imp (hat'.place_eq_iff root hat).1 fun hold => ⟨ps', hat', hold⟩
  · rintro (⟨rfl, rfl⟩ | ⟨ps', hat', hfile⟩)
    · exact ⟨ps, hat, (h _).2 (.inl rfl)⟩
    · exact ⟨ps', hat', (h _).2 (.inr hfile)⟩

/-- Files have been removed; `P` says which documents had them. -/
theorem held_of_removed {gone : List FileName → Prop} {P : Prop}
    (h : ∀ q, t'.IsFile q ↔ t.IsFile q ∧ ¬gone q)
    (hP : ∀ ps, At name ns ps → t.IsFile (root ++ ps) → (gone (root ++ ps) ↔ P)) :
    Held root t' name ns ↔ Held root t name ns ∧ ¬P := by
  rw [held_iff, held_iff, ← exists_and_right]
  refine exists_congr fun ps => ?_
  rw [h, ← and_assoc]
  exact and_congr_right fun hold => not_congr (hP ps hold.1 hold.2)

/-- The files below a directory have been removed. -/
theorem held_removeBelow (hat : At name ns ps)
    (h : ∀ q, t'.IsFile q ↔ t.IsFile q ∧ ¬(root ++ ps) <+: q)
    (hdir : t.node (root ++ ps) = some .dir) (key : Name) (ns' : NamespaceId) :
    Held root t' key ns' ↔
      Held root t key ns' ∧ ¬(ns' = ns ∧ DBDocNames.isPrefix name key = true) := by
  apply held_of_removed h
  intro ps' hat' hfile
  rw [prefix_append_right_inj, hat.prefix_iff hat', DBDocNames.isPrefix_iff]
  constructor
  · rintro ⟨rfl, hparts⟩
    refine ⟨rfl, hparts, fun heq => ?_⟩
    -- the place of the name itself is a directory
    obtain rfl : name = key := Name.ext heq
    rw [hat'.eq hat] at hfile
    exact hfile.node_ne_dir hdir
  · rintro ⟨rfl, hparts, -⟩
    exact ⟨rfl, hparts⟩

end

/-- The cache answers with a namespace if the driver holds the document in it. -/
def Agrees (root : List FileName) (s : State) : Prop :=
  ∀ name ns, s.cache.getNamespaceId name = some ns ↔ Held root s.tree name ns

/-- No document is in two namespaces. -/
def OneNamespace (root : List FileName) (t : Tree) : Prop :=
  ∀ name ns ns', Held root t name ns → Held root t name ns' → ns = ns'

end WazAISentinel.Store
