import Mathlib.Data.List.DropRight
import Mathlib.Data.List.Infix
import WazAISentinel.Foundations.RowTable

/-!
# A tree of directories and files

The nodes of a tree stand at lists of names, from the root; what is above a node is a directory. A
path that a program gives can also have the components `dot` and `dotdot`, which `resolve` follows
as the file system does. Which directories can be made, and which entries stay behind in a removal,
are arguments of the operations.
-/

namespace WazAISentinel.Foundations

open List

/-- A component of a path. -/
inductive Component (α : Type) where
  | name (a : α)
  | dot
  | dotdot
  deriving DecidableEq

/-- A directory or a file. -/
inductive Node (β : Type) where
  | dir
  | file (content : β)
  deriving DecidableEq

instance decidableEqDir {β : Type} : ∀ n : Option (Node β), Decidable (n = some .dir)
  | none => isFalse fun h => by cases h
  | some .dir => isTrue rfl
  | some (.file _) => isFalse fun h => by cases h

section

variable {α β : Type} [DecidableEq α]

/-- The node at a list of names; the root is a directory. -/
def nodeIn (entries : AssocMap (List α) (Node β)) (p : List α) : Option (Node β) :=
  if p = [] then some .dir else entries.get p

theorem nodeIn_append (entries : AssocMap (List α) (Node β)) (p : List α) (a : α) :
    nodeIn entries (p ++ [a]) = entries.get (p ++ [a]) :=
  if_neg (append_ne_nil_of_right_ne_nil p (cons_ne_nil a []))

end

/-- A tree, by its nodes other than the root. -/
structure FileTree (α β : Type) [DecidableEq α] where
  entries : AssocMap (List α) (Node β)
  /-- What is above a node is a directory. -/
  closed : ∀ (p : List α) (a : α), nodeIn entries (p ++ [a]) ≠ none → nodeIn entries p = some .dir

namespace FileTree

variable {α β : Type} [DecidableEq α] (t : FileTree α β)

/-- The node at a list of names. -/
def node (p : List α) : Option (Node β) := nodeIn t.entries p

/-- There is a file. -/
def IsFile (p : List α) : Prop := ∃ content, t.node p = some (.file content)

@[simp] theorem node_nil : t.node [] = some .dir := rfl

variable {p q : List α} {t : FileTree α β} {n : Node β}

theorem node_eq_get (hp : p ≠ []) : t.node p = t.entries.get p := if_neg hp

/-- Everything above a node is a directory. -/
theorem node_eq_dir_of_append (hq : q ≠ []) (h : t.node (p ++ q) ≠ none) :
    t.node p = some .dir := by
  induction q using reverseRecOn with
  | nil => exact absurd rfl hq
  | append_singleton q a ih =>
    have habove : t.node (p ++ q) = some .dir := by
      apply t.closed (p ++ q) a
      rw [append_assoc]
      exact h
    by_cases hempty : q = []
    · rw [hempty, append_nil] at habove
      exact habove
    · exact ih hempty (by rw [habove]; exact Option.some_ne_none _)

/-- The same with the relation of prefixes. -/
theorem node_eq_dir_of_isPrefix (hpq : p <+: q) (hne : p ≠ q) (h : t.node q ≠ none) :
    t.node p = some .dir := by
  obtain ⟨rest, rfl⟩ := hpq
  refine node_eq_dir_of_append ?_ h
  rintro rfl
  exact hne (append_nil p).symm

/-- A file is a node. -/
theorem IsFile.node_ne_none (h : t.IsFile p) : t.node p ≠ none := by
  obtain ⟨content, hnode⟩ := h
  rw [hnode]
  exact Option.some_ne_none _

/-- A file is no directory. -/
theorem IsFile.node_ne_dir (h : t.IsFile p) : t.node p ≠ some .dir := by
  obtain ⟨content, hnode⟩ := h
  rw [hnode]
  intro hdir
  cases hdir

/-- The tree of the root alone. -/
def empty : FileTree α β where
  entries := ⟨[]⟩
  closed p a h := by
    rw [nodeIn_append] at h
    exact absurd (AssocMap.get_nil _) h

/-- It has no files. -/
theorem not_isFile_empty : ¬(empty : FileTree α β).IsFile p := by
  rintro ⟨content, h⟩
  by_cases hp : p = []
  · rw [hp, node_nil] at h
    cases h
  · rw [node_eq_get hp] at h
    cases h

/-! ## Changes of the tree -/

/-- A node is put under a directory; a directory does not become a file. -/
def put (t : FileTree α β) (p : List α) (n : Node β) (hparent : t.node p.dropLast = some .dir)
    (hkeep : t.node p = some .dir → n = .dir) : FileTree α β where
  entries := t.entries.set p n
  closed q a h := by
    have hget : ∀ r, nodeIn (t.entries.set p n) r = if r = [] then some .dir else if r = p
        then some n else t.entries.get r := by
      intro r
      rw [nodeIn, AssocMap.get_set]
    -- a directory of the old tree still is one
    have hdir : ∀ r, t.node r = some .dir → nodeIn (t.entries.set p n) r = some .dir := by
      intro r hr
      rw [hget]
      by_cases hnil : r = []
      · rw [if_pos hnil]
      · rw [if_neg hnil]
        by_cases hrp : r = p
        · rw [if_pos hrp, hkeep (hrp ▸ hr)]
        · rw [if_neg hrp, ← node_eq_get hnil]
          exact hr
    rw [nodeIn_append, AssocMap.get_set] at h
    split_ifs at h with hqp
    · apply hdir
      rw [← hqp, dropLast_concat] at hparent
      exact hparent
    · apply hdir
      apply t.closed q a
      rw [nodeIn_append]
      exact h

/-- Nothing changes at the other nodes. -/
theorem node_put (hparent : t.node p.dropLast = some .dir) (hkeep : t.node p = some .dir → n = .dir)
    (hp : p ≠ []) : (t.put p n hparent hkeep).node q = if q = p then some n else t.node q := by
  rw [node, nodeIn, put, AssocMap.get_set]
  by_cases hq : q = []
  · rw [if_pos hq, if_neg (hq ▸ hp.symm), hq, node_nil]
  · rw [if_neg hq, node_eq_get hq]

/-- Nodes are removed, each with what is below it. -/
def removeWhere (t : FileTree α β) (p : List α → Bool)
    (h : ∀ q a, t.node (q ++ [a]) ≠ none → p q = true → p (q ++ [a]) = true) : FileTree α β where
  entries := t.entries.eraseWhere p
  closed q a hnode := by
    rw [nodeIn_append, AssocMap.get_eraseWhere] at hnode
    split_ifs at hnode with hkept
    · exact absurd rfl hnode
    · rw [← nodeIn_append] at hnode
      have hdir := t.closed q a hnode
      rw [nodeIn, AssocMap.get_eraseWhere]
      split
      · rfl
      · rename_i hq
        rw [if_neg fun hremoved => hkept (h q a hnode hremoved)]
        exact (node_eq_get hq).symm.trans hdir

/-- What is removed, and nothing else, is gone. -/
theorem node_removeWhere {p : List α → Bool}
    (h : ∀ q a, t.node (q ++ [a]) ≠ none → p q = true → p (q ++ [a]) = true) (hq : q ≠ []) :
    (t.removeWhere p h).node q = if p q = true then none else t.node q := by
  rw [node, nodeIn, if_neg hq, removeWhere, AssocMap.get_eraseWhere, node_eq_get hq]

/-! ## The calls -/

section

variable (t : FileTree α β)

/-- Follows a path from a directory. Whether the last node exists is left open. -/
def resolveFrom : List α → List (Component α) → Option (List α)
  | cur, [] => some cur
  | cur, c :: rest =>
    if t.node cur = some .dir then
      match c with
      | .name a => resolveFrom (cur ++ [a]) rest
      | .dot => resolveFrom cur rest
      | .dotdot => resolveFrom cur.dropLast rest
    else none

/-- Where a path leads. -/
def resolve (path : List (Component α)) : Option (List α) := t.resolveFrom [] path

/-- The node that a path leads to. -/
def status (path : List (Component α)) : Option (Node β) := (t.resolve path).bind t.node

/-- Makes a directory, if its parent is one. -/
def makeDir (p : List α) : FileTree α β :=
  if h : t.node p.dropLast = some .dir then t.put p .dir h fun _ => rfl else t

end

/-- Makes the directories of a path that are missing; `false` if one is a file or cannot be made. -/
def createDirectories (mayMake : List α → Bool) : FileTree α β → List α → List (Component α) →
    FileTree α β × Bool
  | t, _, [] => (t, true)
  | t, cur, .dot :: rest => createDirectories mayMake t cur rest
  | t, cur, .dotdot :: rest => createDirectories mayMake t cur.dropLast rest
  | t, cur, .name a :: rest =>
    match t.node (cur ++ [a]) with
    | some .dir => createDirectories mayMake t (cur ++ [a]) rest
    | some (.file _) => (t, false)
    | none =>
      if mayMake (cur ++ [a])
        then createDirectories mayMake (t.makeDir (cur ++ [a])) (cur ++ [a]) rest else (t, false)

/-- Opens a file to write its content anew, and makes it if there is none. -/
def writeFile (t : FileTree α β) (path : List (Component α)) (content : β) :
    Option (FileTree α β) :=
  (t.resolve path).bind fun p =>
    if h : t.node p.dropLast = some .dir ∧ t.node p ≠ some .dir then
      some (t.put p (.file content) h.1 fun hdir => absurd hdir h.2)
    else none

/-- The entries below `p` and `p` itself are removed, but for those that are stuck and what is above
them. -/
def removeAll (t : FileTree α β) (p : List α) (stuck : List α → Bool) : FileTree α β :=
  t.removeWhere (fun q => p.isPrefixOf q &&
    !t.entries.entries.any fun entry => q.isPrefixOf entry.1 && stuck entry.1) (by
    intro q a _ hq
    rw [Bool.and_eq_true, isPrefixOf_iff_prefix] at hq ⊢
    refine ⟨hq.1.trans (prefix_append q [a]), ?_⟩
    rw [Bool.not_eq_true', any_eq_false] at hq ⊢
    intro entry hentry hstuck
    rw [Bool.and_eq_true, isPrefixOf_iff_prefix] at hstuck
    apply hq.2 entry hentry
    rw [Bool.and_eq_true, isPrefixOf_iff_prefix]
    exact ⟨(prefix_append q [a]).trans hstuck.1, hstuck.2⟩)

/-- The entries of a directory. -/
def children (t : FileTree α β) (p : List α) : List (List α × Node β) :=
  t.entries.entries.filter fun entry => entry.1 ≠ [] ∧ entry.1.dropLast = p

/-- A node is among the children of its parent. -/
theorem exists_mem_children {a : α} (h : t.node (p ++ [a]) ≠ none) :
    ∃ n, (p ++ [a], n) ∈ t.children p := by
  obtain ⟨n, hn⟩ := Option.ne_none_iff_exists'.1 h
  rw [node, nodeIn_append] at hn
  refine ⟨n, mem_filter.2 ⟨AssocMap.mem_of_get hn, ?_⟩⟩
  simp

/-- Removes an empty directory. -/
def removeDir (t : FileTree α β) (p : List α) : FileTree α β :=
  if h : t.node p = some .dir ∧ (t.children p).isEmpty = true then
    t.removeWhere (fun q => q = p) (by
      intro q a hnode hq
      obtain ⟨n, hn⟩ := exists_mem_children hnode
      rw [of_decide_eq_true hq, isEmpty_iff.1 h.2] at hn
      cases hn)
  else t

/-! ## Paths of names -/

theorem eq_append_of_resolveFrom {cur : List α} (h : t.resolveFrom cur (p.map .name) = some q) :
    q = cur ++ p := by
  induction p generalizing cur with
  | nil =>
    rw [append_nil]
    exact (Option.some_inj.1 h).symm
  | cons a p ih =>
    rw [map_cons, resolveFrom] at h
    split at h
    · rw [ih h, append_assoc]
      rfl
    · cases h

/-- A path of names leads to these names, if it leads anywhere. -/
theorem eq_of_resolve (h : t.resolve (p.map .name) = some q) : q = p := eq_append_of_resolveFrom h

theorem resolveFrom_of_node {cur : List α} (h : t.node (cur ++ p) ≠ none) :
    t.resolveFrom cur (p.map .name) = some (cur ++ p) := by
  induction p generalizing cur with
  | nil =>
    rw [append_nil]
    rfl
  | cons a p ih =>
    rw [map_cons, resolveFrom, if_pos (node_eq_dir_of_append (cons_ne_nil a p) h)]
    have hrest : t.resolveFrom (cur ++ [a]) (p.map .name) = some (cur ++ [a] ++ p) :=
      ih (by rwa [append_assoc])
    rwa [append_assoc] at hrest

/-- It does so if there is a node. -/
theorem resolve_of_node (h : t.node p ≠ none) : t.resolve (p.map .name) = some p :=
  resolveFrom_of_node h

/-- A path of names leads to the node at these names. -/
theorem status_names : t.status (p.map .name) = t.node p := by
  rw [status]
  by_cases hnode : t.node p = none
  · cases hresolve : t.resolve (p.map .name) with
    | none => exact hnode.symm
    | some q =>
      obtain rfl := eq_of_resolve hresolve
      rfl
  · rw [resolve_of_node hnode]
    rfl

/-! ## The files behind a call -/

/-- The files behind `put`. -/
theorem isFile_put (hparent : t.node p.dropLast = some .dir)
    (hkeep : t.node p = some .dir → n = .dir) (hp : p ≠ []) (q : List α) :
    (t.put p n hparent hkeep).IsFile q ↔ if q = p then n ≠ .dir else t.IsFile q := by
  rw [IsFile, node_put hparent hkeep hp]
  split
  · cases n with
    | dir => simp
    | file content => simp
  · rfl

/-- No file is made or lost with a directory. -/
theorem isFile_makeDir (hp : p ≠ []) (hnode : t.node p = none) (q : List α) :
    (t.makeDir p).IsFile q ↔ t.IsFile q := by
  rw [makeDir]
  split_ifs with hparent
  · rw [isFile_put hparent _ hp]
    split_ifs with hq
    · rw [hq]
      exact ⟨fun h => absurd rfl h, fun h => absurd hnode h.node_ne_none⟩
    · exact Iff.rfl
  · exact Iff.rfl

/-- No file is made or removed with the directories. -/
theorem isFile_createDirectories (mayMake : List α → Bool) {path : List (Component α)}
    (q : List α) :
    ∀ {t : FileTree α β} {cur : List α}, (createDirectories mayMake t cur path).1.IsFile q ↔
      t.IsFile q := by
  induction path with
  | nil => exact Iff.rfl
  | cons c path ih =>
    intro t cur
    cases c with
    | dot => exact ih
    | dotdot => exact ih
    | name a =>
      rw [createDirectories]
      split
      · exact ih
      · exact Iff.rfl
      · rename_i hnode
        split
        · exact ih.trans (isFile_makeDir
            (append_ne_nil_of_right_ne_nil cur (cons_ne_nil a [])) hnode q)
        · exact Iff.rfl

/-- A file has been written. -/
theorem isFile_writeFile {t' : FileTree α β} {content : β}
    (h : t.writeFile (p.map .name) content = some t') (q : List α) :
    t'.IsFile q ↔ q = p ∨ t.IsFile q := by
  rw [writeFile] at h
  obtain ⟨r, hr, hput⟩ := Option.bind_eq_some_iff.1 h
  obtain rfl := eq_of_resolve hr
  split at hput
  · rename_i hnode
    obtain rfl := Option.some_inj.1 hput
    have hne : r ≠ [] := fun hnil => hnode.2 (by rw [hnil, node_nil])
    rw [isFile_put hnode.1 _ hne]
    split_ifs with hq
    · exact ⟨fun _ => .inl hq, fun _ hdir => by cases hdir⟩
    · exact ⟨.inr, fun h => h.resolve_left hq⟩
  · cases hput

/-- What is not below the path stays. -/
theorem node_removeAll (stuck : List α → Bool) (hpq : ¬p <+: q) :
    (t.removeAll p stuck).node q = t.node q := by
  by_cases hq : q = []
  · rw [hq, node_nil, node_nil]
  · rw [removeAll, node_removeWhere _ hq, if_neg]
    rw [Bool.and_eq_true, isPrefixOf_iff_prefix]
    exact fun h => hpq h.1

/-- The files behind `removeWhere`. -/
theorem isFile_removeWhere {p : List α → Bool}
    (h : ∀ q a, t.node (q ++ [a]) ≠ none → p q = true → p (q ++ [a]) = true) (q : List α) :
    (t.removeWhere p h).IsFile q ↔ t.IsFile q ∧ ¬p q = true := by
  by_cases hq : q = []
  · subst hq
    exact iff_of_false (fun hfile => hfile.node_ne_dir (node_nil _)) fun hfile =>
      hfile.1.node_ne_dir (node_nil _)
  · rw [IsFile, node_removeWhere h hq, IsFile, ← exists_and_right]
    refine exists_congr fun content => ?_
    rw [Option.ite_none_left_eq_some, and_comm]

/-- The other nodes stay. -/
theorem node_removeDir (hq : q ≠ p) : (t.removeDir p).node q = t.node q := by
  by_cases hnil : q = []
  · rw [hnil, node_nil, node_nil]
  · rw [removeDir]
    split
    · rw [node_removeWhere _ hnil, if_neg]
      exact fun h => hq (of_decide_eq_true h)
    · rfl

/-- No file is removed with an empty directory. -/
theorem isFile_removeDir (p q : List α) : (t.removeDir p).IsFile q ↔ t.IsFile q := by
  rw [removeDir]
  split_ifs with hdir
  · rw [isFile_removeWhere]
    refine and_iff_left_of_imp fun hfile hq => hfile.node_ne_dir ?_
    rw [of_decide_eq_true hq]
    exact hdir.1
  · rfl

end FileTree

end WazAISentinel.Foundations
