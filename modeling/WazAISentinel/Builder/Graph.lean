import Mathlib.Data.List.AList
import Mathlib.Data.Prod.Basic
import WazAISentinel.Foundations.Relations

/-!
# The graph of assets

`Graph` (`base/graph.hpp`): named nodes and, for each node, the list of its children. The relation
`Leads` is what these lists say; `injectNode` splices a node behind its parent.
-/

namespace WazAISentinel.Builder

open List

open Foundations (Spliced)

variable {κ α : Type} [DecidableEq κ]

/-- What the operations throw. -/
inductive GraphError (κ : Type) where
  /-- "Engine base graph: Node "…" already exists." -/
  | nodeExists (key : κ)
  /-- "Engine base graph: Edge "…" -> "…" already exists." -/
  | edgeExists (src dst : κ)
  /-- "Engine base graph: Node "…" does not exist." -/
  | nodeMissing (id : κ)
  /-- "Engine base graph: Node "…" has no children." -/
  | noChildren (id : κ)
  deriving DecidableEq

/-- The class `Graph`. -/
structure Graph (κ α : Type) where
  root : κ
  nodes : AList fun _ : κ => α
  edges : AList fun _ : κ => List κ

variable {g g' : Graph κ α} {key dst src id parent : κ} {l : List κ}

namespace Graph

/-- The constructor with a root node. -/
def create (rootId : κ) (value : α) : Graph κ α := ⟨rootId, (∅ : AList _).insert rootId value, ∅⟩

section

variable (g : Graph κ α)

/-- `hasNode`. -/
def hasNode (id : κ) : Bool := (g.nodes.lookup id).isSome

/-- `addNode`. -/
def addNode (key : κ) (value : α) : Except (GraphError κ) (Graph κ α) :=
  if g.hasNode key then .error (.nodeExists key)
    else .ok { g with nodes := g.nodes.insert key value }

/-- `addEdge`. -/
def addEdge (src dst : κ) : Except (GraphError κ) (Graph κ α) :=
  match g.edges.lookup src with
  | none => .ok { g with edges := g.edges.insert src [dst] }
  | some children =>
    if children.any fun c => c = dst then .error (.edgeExists src dst)
    else .ok { g with edges := g.edges.insert src (children ++ [dst]) }

/-- The children in `m_edges`; `m_edges[id]` makes an empty list where there is none. -/
def childrenOf (id : κ) : List κ := (g.edges.lookup id).getD []

/-- `injectNode`: the children of `parent` are added to the new node, and `parent` gets it as its
only child. -/
def injectNode (id : κ) (node : α) (parent : κ) : Except (GraphError κ) (Graph κ α) :=
  (g.addNode id node).bind fun g =>
    ((g.childrenOf parent).foldlM (fun (g : Graph κ α) child => g.addEdge id child) g).bind fun g =>
      { g with edges := g.edges.insert parent [] }.addEdge parent id

/-- `node`. -/
def node (id : κ) : Except (GraphError κ) α :=
  match g.nodes.lookup id with
  | none => .error (.nodeMissing id)
  | some value => .ok value

end

/-- `children`. -/
def children (g : Graph κ α) (id : κ) : Except (GraphError κ) (List κ) :=
  match g.edges.lookup id with
  | none => .error (.noChildren id)
  | some children => .ok children

/-- `hasChildren`. -/
def hasChildren (g : Graph κ α) (id : κ) : Bool := !(g.childrenOf id).isEmpty

/-- There is an edge from `a` to `b`. -/
def Leads (g : Graph κ α) (a b : κ) : Prop := b ∈ g.childrenOf a

instance (g : Graph κ α) (a b : κ) : Decidable (g.Leads a b) :=
  inferInstanceAs (Decidable (b ∈ g.childrenOf a))

/-! ## Adding nodes and edges -/

theorem addNode_eq_ok (value : α) :
    g.addNode key value = .ok g' ↔
      g.hasNode key = false ∧ g' = { g with nodes := g.nodes.insert key value } := by
  rw [addNode]
  cases g.hasNode key with
  | true => simp
  | false => simp [eq_comm]

theorem leads_iff {a b : κ} : g.Leads a b ↔ ∃ l, g.edges.lookup a = some l ∧ b ∈ l := by
  rw [Leads, childrenOf]
  cases g.edges.lookup a with
  | none | some l => simp

theorem hasNode_insert (g : Graph κ α) (key : κ) (value : α) (k : κ) :
    ({ g with nodes := g.nodes.insert key value } : Graph κ α).hasNode k =
      (k = key || g.hasNode k) := by
  by_cases hk : k = key
  · subst hk
    simp [hasNode]
  · simp [hasNode, AList.lookup_insert_ne hk, hk]

theorem childrenOf_insert (g : Graph κ α) (src : κ) (l : List κ) (id : κ) :
    ({ g with edges := g.edges.insert src l } : Graph κ α).childrenOf id = if id = src then l
      else g.childrenOf id := by
  by_cases hid : id = src
  · subst hid
    simp [childrenOf]
  · simp [childrenOf, AList.lookup_insert_ne hid, hid]

theorem addEdge_eq_ok :
    g.addEdge src dst = .ok g' ↔ ¬ g.Leads src dst ∧
      g' = { g with edges := g.edges.insert src (g.childrenOf src ++ [dst]) } := by
  rw [addEdge, Leads, childrenOf]
  cases g.edges.lookup src with
  | none => simp [eq_comm]
  | some l =>
    by_cases hmem : dst ∈ l
    · simp [hmem]
    · simp [hmem, eq_comm (a := g')]

theorem mem_edges_insert {k : κ}
    (h : k ∈ ({ g with edges := g.edges.insert src l } : Graph κ α).edges) :
    k = src ∨ k ∈ g.edges :=
  (AList.mem_insert g.edges).1 h

/-- What loops over `addEdge` leave of a graph. -/
structure Extends (g g' : Graph κ α) : Prop where
  root : g'.root = g.root
  nodes : g'.nodes = g.nodes

theorem Extends.hasNode (h : Extends g g') (k : κ) : g'.hasNode k = g.hasNode k := by
  rw [Graph.hasNode, h.nodes, Graph.hasNode]

/-- A loop over `addEdge`: the new children stand behind the old ones, in their order. -/
theorem foldlM_addEdge {es : List (κ × κ)} (hes : es.Nodup) (hnew : ∀ e ∈ es, ¬ g.Leads e.1 e.2) :
    ∃ g', es.foldlM (fun (g : Graph κ α) e => g.addEdge e.1 e.2) g = .ok g' ∧ Extends g g' ∧
      (∀ k, g'.childrenOf k = g.childrenOf k ++ (es.filter (·.1 = k)).map Prod.snd) ∧
      ∀ k ∈ g'.edges, k ∈ es.map Prod.fst ∨ k ∈ g.edges := by
  induction es generalizing g with
  | nil => exact ⟨g, rfl, ⟨rfl, rfl⟩, fun k => (append_nil _).symm, fun k hk => .inr hk⟩
  | cons e es ih =>
    rw [nodup_cons] at hes
    have hadd := addEdge_eq_ok.2 ⟨hnew e mem_cons_self, rfl⟩
    generalize hg1 :
      ({ g with edges := g.edges.insert e.1 (g.childrenOf e.1 ++ [e.2]) } : Graph κ α) = g1 at hadd
    have hchildren (k : κ) :
        g1.childrenOf k = if k = e.1 then g.childrenOf e.1 ++ [e.2] else g.childrenOf k := by
      rw [← hg1, childrenOf_insert]
    have hnew1 : ∀ e' ∈ es, ¬ g1.Leads e'.1 e'.2 := by
      intro e' he' hleads
      rw [Leads, hchildren] at hleads
      split_ifs at hleads with hsame
      · rcases mem_append.1 hleads with hleads | heq
        · exact hnew e' (mem_cons_of_mem e he') (hsame ▸ hleads)
        · exact hes.1 (Prod.ext hsame (mem_singleton.1 heq) ▸ he')
      · exact hnew e' (mem_cons_of_mem e he') hleads
    obtain ⟨g', hrun, hext, hchildren', hkeys⟩ := ih hes.2 hnew1
    refine ⟨g', ?_, ?_, fun k => ?_, fun k hk => ?_⟩
    · rw [foldlM_cons, hadd]
      exact hrun
    · subst hg1
      exact ⟨hext.root, hext.nodes⟩
    · rw [hchildren', hchildren]
      by_cases hk : k = e.1
      · simp [hk]
      · simp [hk, Ne.symm hk]
    · rcases hkeys k hk with hk | hk
      · exact .inl (mem_cons_of_mem _ hk)
      · subst hg1
        exact (mem_edges_insert hk).imp_left fun (hk : k = e.1) => hk ▸ mem_cons_self

/-- Children are added to one node, in their order. -/
theorem foldlM_addEdge_children (hl : l.Nodup) (hnew : ∀ c ∈ l, ¬ g.Leads id c) :
    ∃ g', l.foldlM (fun (g : Graph κ α) child => g.addEdge id child) g = .ok g' ∧ Extends g g' ∧
      (∀ k, g'.childrenOf k = if k = id then g.childrenOf id ++ l else g.childrenOf k) ∧
      ∀ k ∈ g'.edges, k = id ∨ k ∈ g.edges := by
  obtain ⟨g', hrun, hext, hchildren, hkeys⟩ := foldlM_addEdge (g := g)
    (hl.map (Prod.mk_right_injective id)) (by simpa using hnew)
  rw [foldlM_map] at hrun
  refine ⟨g', hrun, hext, fun k => ?_, fun k hk => (hkeys k hk).imp_left (by simp +contextual)⟩
  rw [hchildren]
  by_cases hk : k = id
  · simp [hk, filter_map, Function.comp_def]
  · simp [hk, Ne.symm hk, filter_map, Function.comp_def]

/-- One child is added to each of some nodes. -/
theorem foldlM_addEdge_parents {child : κ} (hl : l.Nodup) (hnew : ∀ p ∈ l, ¬ g.Leads p child) :
    ∃ g', l.foldlM (fun (g : Graph κ α) parent => g.addEdge parent child) g = .ok g' ∧
      Extends g g' ∧
      (∀ k, g'.childrenOf k = if k ∈ l then g.childrenOf k ++ [child] else g.childrenOf k) ∧
      ∀ k ∈ g'.edges, k ∈ l ∨ k ∈ g.edges := by
  obtain ⟨g', hrun, hext, hchildren, hkeys⟩ := foldlM_addEdge (g := g)
    (hl.map (Prod.mk_left_injective child)) (by simpa using hnew)
  rw [foldlM_map] at hrun
  refine ⟨g', hrun, hext, fun k => ?_, fun k hk => (hkeys k hk).imp_left (by simp)⟩
  rw [hchildren]
  by_cases hk : k ∈ l
  · simp [hk, filter_map, Function.comp_def, filter_eq, count_eq_one_of_mem hl hk]
  · simp [hk, filter_map, Function.comp_def, filter_eq, count_eq_zero_of_not_mem hk]

/-! ## `injectNode` -/

/-- A node that is new and has no children goes between a node and its children. -/
theorem injectNode_spec (node : α) (hnode : g.hasNode id = false) (hid : g.childrenOf id = [])
    (hnodup : (g.childrenOf parent).Nodup) :
    ∃ g', g.injectNode id node parent = .ok g' ∧ (∀ k, g'.hasNode k = (k = id || g.hasNode k)) ∧
      (∀ k, g'.childrenOf k = if k = parent then [id] else if k = id then g.childrenOf parent
        else g.childrenOf k) ∧
      ∀ k ∈ g'.edges, k = parent ∨ k = id ∨ k ∈ g.edges := by
  have hadd := (addNode_eq_ok node).2 ⟨hnode, rfl⟩
  have hhas (k : κ) := hasNode_insert g id node k
  generalize hg1 : ({ g with nodes := g.nodes.insert id node } : Graph κ α) = g1 at hadd hhas
  have hchildren1 (k : κ) : g1.childrenOf k = g.childrenOf k := by rw [← hg1]; rfl
  have hnew : ∀ c ∈ g.childrenOf parent, ¬ g1.Leads id c := by
    intro c _ hleads
    rw [Leads, hchildren1, hid] at hleads
    exact not_mem_nil hleads
  obtain ⟨g2, hrun, hext, hchildren2, hkeys2⟩ := foldlM_addEdge_children hnodup hnew
  have hclear (k : κ) := childrenOf_insert g2 parent [] k
  generalize hg3 : ({ g2 with edges := g2.edges.insert parent [] } : Graph κ α) = g3 at hclear
  have hnone : ¬ g3.Leads parent id := by
    rw [Leads, hclear, if_pos rfl]
    exact not_mem_nil
  refine ⟨{ g3 with edges := g3.edges.insert parent (g3.childrenOf parent ++ [id]) }, ?_,
    fun k => ?_, fun k => ?_, fun k hk => ?_⟩
  · rw [injectNode, hadd]
    change Except.bind (foldlM _ g1 (g1.childrenOf parent)) _ = _
    rw [hchildren1, hrun]
    change ({ g2 with edges := g2.edges.insert parent [] } : Graph κ α).addEdge parent id = _
    rw [hg3, addEdge_eq_ok.2 ⟨hnone, rfl⟩]
  · rw [← hhas, ← hext.hasNode]
    subst hg3
    rfl
  · rw [childrenOf_insert]
    by_cases hk : k = parent
    · rw [if_pos hk, if_pos hk, hclear, if_pos rfl, nil_append]
    · rw [if_neg hk, if_neg hk, hclear, if_neg hk, hchildren2, hchildren1, hchildren1, hid,
        nil_append]
  · rcases mem_edges_insert hk with hk | hk
    · exact .inl hk
    · subst hg3
      rcases mem_edges_insert hk with hk | hk
      · exact .inl hk
      · subst hg1
        exact .inr (hkeys2 k hk)

/-- The children as `injectNode` leaves them are a splice. -/
theorem leads_iff_spliced (hparent : parent ≠ id) (h : ∀ k, g'.childrenOf k = if k = parent
    then [id] else if k = id then g.childrenOf parent else g.childrenOf k) (a b : κ) :
    g'.Leads a b ↔ Spliced g.Leads parent id a b := by
  rw [Leads, h, Spliced]
  by_cases ha : a = parent
  · subst ha
    simp [hparent]
  · by_cases hai : a = id
    · subst hai
      simp [ha, Leads]
    · simp [ha, hai, Leads]

end Graph

end WazAISentinel.Builder
