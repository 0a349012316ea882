import WazAISentinel.Store.DocNames

/-!
# The file driver

`store/drivers/fileDriver/src/fileDriver.cpp`: documents are files below the base path. Every call
of the file system is free to fail, and `Faults` says for one call of the driver which do. A driver
function gives the tree behind it, also when it fails on the way, and its reply; an exception of the
file system is the reply `thrown`.

`deleteDoc` and `deleteCol` return the result of pruning the empty directories above, also when the
removal has failed. So the lemmas on the files behind them have the condition that nothing fails.
-/

namespace WazAISentinel.Store

open Foundations FileTree

/-- The text of a document. -/
abbrev Text : Type := List Char

/-- The files below the root. -/
abbrev Tree : Type := FileTree FileName Text

/-- A path of the file system. -/
abbrev Path : Type := List Part

/-- A document: its text, and whether `checkDuplicateKeys` finds a key twice. -/
structure Doc where
  str : Text
  duplicateKeys : Bool

/-- The errors of the driver, each with the words of its message. -/
inductive DriverError where
  | hasDuplicateKeys
  | alreadyExists
  | directoryCouldNotBeCreated
  | couldNotBeOpened
  | doesNotExist
  | isADirectory
  | isNotADirectory
  | parentCouldNotBeRemoved
  deriving DecidableEq

/-- How a call ends. -/
inductive Reply (ε : Type) where
  | done
  | error (e : ε)
  | thrown
  deriving DecidableEq

/-- What the calls of the file system do in one call of the driver. -/
structure Faults where
  /-- Whether `exists`, `is_directory` and `is_regular_file` answer; else they throw. -/
  answers : Bool
  makesDir : List FileName → Bool
  opens : Bool
  /-- What of a text arrives in the file. -/
  arrives : Text → Text
  /-- What `remove_all` cannot remove. -/
  stuck : List FileName → Bool
  /-- Whether `is_empty` answers; else it throws. -/
  emptyAnswers : Path → Bool
  removesDir : Path → Bool

/-- Nothing fails that a deletion does. -/
structure Faults.Deletes (f : Faults) : Prop where
  stuck : ∀ p, f.stuck p = false
  emptyAnswers : ∀ path, f.emptyAnswers path = true
  removesDir : ∀ path, f.removesDir path = true

variable {name : Name} {ps : List FileName}

section

variable (root : List FileName)

/-- `nameToPath`. -/
def nameToPath (name : Name) : Path := root.map .name ++ name.parts

/-- `existsDoc`. -/
def existsDoc (t : Tree) (name : Name) : Bool :=
  match t.status (nameToPath root name) with
  | some (.file _) => true
  | _ => false

namespace FileDriver

variable (f : Faults) (t : Tree)

/-- The file is opened and the text is written; that the writing fails is not noticed. -/
def writeDoc (path : Path) (content : Doc) : Tree × Reply DriverError :=
  match if f.opens then t.writeFile path (f.arrives content.str) else none with
  | some t => (t, .done)
  | none => (t, .error .couldNotBeOpened)

/-- `createDoc`. -/
def createDoc (name : Name) (content : Doc) : Tree × Reply DriverError :=
  let path := nameToPath root name
  if content.duplicateKeys then (t, .error .hasDuplicateKeys)
  else if !f.answers then (t, .thrown)
  else if (t.status path).isSome then (t, .error .alreadyExists)
  else
    match FileTree.createDirectories f.makesDir t [] path.dropLast with
    | (t, false) => (t, .error .directoryCouldNotBeCreated)
    | (t, true) => writeDoc f t path content

/-- `updateDoc`. -/
def updateDoc (name : Name) (content : Doc) : Tree × Reply DriverError :=
  let path := nameToPath root name
  if content.duplicateKeys then (t, .error .hasDuplicateKeys)
  else if !f.answers then (t, .thrown)
  else
    match t.status path with
    | none => (t, .error .doesNotExist)
    | some .dir => (t, .error .isADirectory)
    | some (.file _) => writeDoc f t path content

/-- `upsertDoc`. -/
def upsertDoc (name : Name) (content : Doc) : Tree × Reply DriverError :=
  if !f.answers then (t, .thrown)
  else if existsDoc root t name then updateDoc root f t name content
  else createDoc root f t name content

/-- `is_empty` of a directory; it throws if there is none. -/
def isEmpty (path : Path) : Option Bool :=
  if f.emptyAnswers path then
    (t.resolve path).bind fun p => if t.node p = some .dir
      then some (t.children p).isEmpty else none
  else none

/-- `remove` on an empty directory. -/
def removeDirAt (path : Path) : Tree :=
  match t.resolve path with
  | some p => t.removeDir p
  | none => t

/-- The loop goes up from the directory of the first `k` components. -/
def removeEmptyParentDirs (path : Path) : Nat → Tree → Tree × Reply DriverError
  | 0, t => (t, .done)
  | k + 1, t =>
    let current := path.take k
    if current = root.map .name then (t, .done)
    else
      match isEmpty f t current with
      | none => (t, .thrown)
      | some false => (t, .done)
      | some true =>
        if f.removesDir current then removeEmptyParentDirs path k (removeDirAt t current)
        else (t, .error .parentCouldNotBeRemoved)

/-- `remove_all`. -/
def removeAllAt (path : Path) : Tree :=
  match t.resolve path with
  | some p => t.removeAll p f.stuck
  | none => t

/-- An error of `remove_all` is not noticed: its result is not 0 then. -/
def removeAndPrune (path : Path) : Tree × Reply DriverError :=
  removeEmptyParentDirs root f path path.length (removeAllAt f t path)

/-- `deleteDoc`. -/
def deleteDoc (name : Name) : Tree × Reply DriverError :=
  if !f.answers then (t, .thrown)
  else if existsDoc root t name then removeAndPrune root f t (nameToPath root name)
  else (t, .error .doesNotExist)

/-- `deleteCol`. -/
def deleteCol (name : Name) : Tree × Reply DriverError :=
  if !f.answers then (t, .thrown)
  else
    match t.status (nameToPath root name) with
    | none => (t, .error .doesNotExist)
    | some (.file _) => (t, .error .isNotADirectory)
    | some .dir => removeAndPrune root f t (nameToPath root name)

/-! ## The files behind a call -/

/-- If the driver is done, the files are those of `after`; else they are as before. -/
def Effect (result : Tree × Reply DriverError) (after : List FileName → Prop) : Prop :=
  result.2 = .done ∧ (∀ q, result.1.IsFile q ↔ after q) ∨ result.2 ≠ .done ∧
    ∀ q, result.1.IsFile q ↔ t.IsFile q

variable {root f t}

theorem error_ne_done (e : DriverError) : Reply.error e ≠ .done := by
  intro h
  cases h

theorem effect_error (e : DriverError) (after : List FileName → Prop) :
    Effect t (t, .error e) after :=
  .inr ⟨error_ne_done e, fun _ => Iff.rfl⟩

theorem effect_thrown (after : List FileName → Prop) : Effect t (t, .thrown) after := by
  refine .inr ⟨fun h => ?_, fun _ => Iff.rfl⟩
  cases h

theorem nameToPath_names (hname : name.parts = ps.map .name) :
    nameToPath root name = (root ++ ps).map .name := by
  rw [nameToPath, hname, List.map_append]

theorem existsDoc_iff (hname : name.parts = ps.map .name) :
    existsDoc root t name = true ↔ t.IsFile (root ++ ps) := by
  rw [existsDoc, nameToPath_names hname, status_names, IsFile]
  cases t.node (root ++ ps) with
  | none => simp
  | some n =>
    cases n with
    | dir => simp
    | file content => simp

theorem writeDoc_effect (p : List FileName) (content : Doc) :
    Effect t (writeDoc f t (p.map .name) content) fun q => q = p ∨ t.IsFile q := by
  rw [writeDoc]
  cases hwrite : if f.opens then t.writeFile (p.map .name) (f.arrives content.str) else none with
  | none => exact effect_error _ _
  | some t' =>
    refine .inl ⟨rfl, fun q => ?_⟩
    split at hwrite
    · exact isFile_writeFile hwrite q
    · cases hwrite

section

variable (hname : name.parts = ps.map .name) (content : Doc)

include hname

theorem createDoc_effect :
    Effect t (createDoc root f t name content) fun q => q = root ++ ps ∨ t.IsFile q := by
  rw [createDoc]
  split
  · exact effect_error _ _
  · split
    · exact effect_thrown _
    · split
      · exact effect_error _ _
      · rw [nameToPath_names hname]
        -- the directories that are made are no files, whether all of them can be made or not
        have hmade : ∀ q, (createDirectories f.makesDir t []
            ((root ++ ps).map Component.name).dropLast).1.IsFile q ↔
            t.IsFile q := fun q => isFile_createDirectories f.makesDir q
        split
        · rename_i t' hdirs
          rw [hdirs] at hmade
          exact .inr ⟨error_ne_done _, hmade⟩
        · rename_i t' hdirs
          rw [hdirs] at hmade
          rcases writeDoc_effect (f := f) (t := t') (root ++ ps) content with hdone | hfailed
          · exact .inl ⟨hdone.1, fun q => (hdone.2 q).trans (or_congr_right (hmade q))⟩
          · exact .inr ⟨hfailed.1, fun q => (hfailed.2 q).trans (hmade q)⟩

theorem updateDoc_effect :
    Effect t (updateDoc root f t name content) fun q => q = root ++ ps ∨ t.IsFile q := by
  rw [updateDoc]
  split
  · exact effect_error _ _
  · split
    · exact effect_thrown _
    · split
      · exact effect_error _ _
      · exact effect_error _ _
      · rw [nameToPath_names hname]
        exact writeDoc_effect (root ++ ps) content

theorem upsertDoc_effect :
    Effect t (upsertDoc root f t name content) fun q => q = root ++ ps ∨ t.IsFile q := by
  rw [upsertDoc]
  split
  · exact effect_thrown _
  · split
    · exact updateDoc_effect hname content
    · exact createDoc_effect hname content

end

/-- Pruning removes no file. -/
theorem isFile_removeEmptyParentDirs (path : Path) (q : List FileName) (k : Nat) :
    ∀ t : Tree, (removeEmptyParentDirs root f path k t).1.IsFile q ↔ t.IsFile q := by
  induction k with
  | zero => exact fun t => Iff.rfl
  | succ k ih =>
    intro t
    rw [removeEmptyParentDirs]
    split
    · exact Iff.rfl
    · split
      · exact Iff.rfl
      · exact Iff.rfl
      · split
        · rw [ih, removeDirAt]
          split
          · exact isFile_removeDir _ q
          · exact Iff.rfl
        · exact Iff.rfl

/-- If nothing fails, pruning ends well below directories. -/
theorem removeEmptyParentDirs_done (hf : f.Deletes) (p : List FileName) (k : Nat)
    (hk : k ≤ p.length) :
    ∀ t : Tree, (∀ j < k, t.node (p.take j) = some .dir) →
      (removeEmptyParentDirs root f (p.map .name) k t).2 = .done := by
  induction k with
  | zero => exact fun t _ => rfl
  | succ k ih =>
    intro t hdirs
    have hnode : t.node (p.take k) = some .dir := hdirs k (Nat.lt_succ_self k)
    have hresolve : t.resolve ((p.map Component.name).take k) = some (p.take k) := by
      rw [← List.map_take]
      exact resolve_of_node (by rw [hnode]; exact Option.some_ne_none _)
    have hempty :
        isEmpty f t ((p.map Component.name).take k) = some (t.children (p.take k)).isEmpty := by
      rw [isEmpty, if_pos (hf.emptyAnswers _), hresolve]
      exact if_pos hnode
    rw [removeEmptyParentDirs]
    rw [hempty]
    split
    · rfl
    · cases (t.children (p.take k)).isEmpty with
      | false => rfl
      | true =>
        rw [if_pos (hf.removesDir _), removeDirAt, hresolve]
        -- the directories further up are others than the one that has been removed
        refine ih (Nat.le_of_succ_le hk) _ fun j hj => ?_
        refine (node_removeDir fun heq => ?_).trans (hdirs j (Nat.lt_succ_of_lt hj))
        have hlength := congrArg List.length heq
        rw [List.length_take, List.length_take] at hlength
        omega

variable (root) in
/-- If nothing fails, a removal is done and removes what is below the path. -/
theorem removeAndPrune_effect (hf : f.Deletes) {p : List FileName} (hnode : t.node p ≠ none) :
    Effect t (removeAndPrune root f t (p.map .name)) fun q => t.IsFile q ∧ ¬p <+: q := by
  have hremoved : removeAllAt f t (p.map .name) = t.removeAll p f.stuck := by
    rw [removeAllAt, resolve_of_node hnode]
  rw [removeAndPrune, hremoved, List.length_map]
  refine .inl
    ⟨removeEmptyParentDirs_done hf p p.length (Nat.le_refl _) _ fun j hj => ?_, fun q => ?_⟩
  · have hlength : (p.take j).length < p.length := by
      rw [List.length_take]
      omega
    rw [node_removeAll f.stuck fun habove => absurd habove.length_le (Nat.not_le_of_lt hlength)]
    exact node_eq_dir_of_isPrefix (List.take_prefix j p)
      (fun heq => absurd (congrArg List.length heq) (Nat.ne_of_lt hlength)) hnode
  · rw [isFile_removeEmptyParentDirs, removeAll, isFile_removeWhere]
    simp [hf.stuck]

theorem deleteDoc_effect (hf : f.Deletes) (hname : name.parts = ps.map .name) :
    Effect t (deleteDoc root f t name) fun q => t.IsFile q ∧ q ≠ root ++ ps := by
  rw [deleteDoc]
  split
  · exact effect_thrown _
  · split_ifs with hexists
    · have hfile := (existsDoc_iff hname).1 hexists
      rw [nameToPath_names hname]
      rcases removeAndPrune_effect root hf hfile.node_ne_none with hdone | hfailed
      · refine .inl ⟨hdone.1, fun q => (hdone.2 q).trans ?_⟩
        -- nothing is below a file
        refine and_congr_right fun hq =>
          not_congr ⟨fun habove => ?_, fun heq => heq ▸ List.prefix_rfl⟩
        by_contra hother
        exact hfile.node_ne_dir
          (node_eq_dir_of_isPrefix habove (fun heq => hother heq.symm) hq.node_ne_none)
      · exact .inr hfailed
    · exact effect_error _ _

theorem deleteCol_effect (hf : f.Deletes) (hname : name.parts = ps.map .name) :
    Effect t (deleteCol root f t name) fun q => t.IsFile q ∧ ¬(root ++ ps) <+: q := by
  rw [deleteCol]
  split
  · exact effect_thrown _
  · split
    · exact effect_error _ _
    · exact effect_error _ _
    · rename_i hdir
      rw [nameToPath_names hname] at hdir ⊢
      rw [status_names] at hdir
      exact removeAndPrune_effect root hf (ne_of_eq_of_ne hdir (Option.some_ne_none _))

end FileDriver

end

end WazAISentinel.Store
