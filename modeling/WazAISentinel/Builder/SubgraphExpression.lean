import WazAISentinel.Base.Expression
import WazAISentinel.Builder.Subgraph

/-!
# The expression of a subgraph

`buildSubgraphExpression` (`builder/src/policy/factory.hpp`) visits the children of a node before it
makes the node, and keeps the nodes of assets with several parents. The visit can go around in a
cycle, so it has a fuel; it returns exactly from the nodes that are accessible by the children
relation.
-/

namespace WazAISentinel.Builder

open Base (Expression OperationType)
open Foundations List

variable {π : Type}

/-- `builtNodes`. -/
abbrev BuiltNodes (π : Type) := AList fun _ : Name => Expression π

/-- `none` while the visit has not returned. -/
abbrev Visit (α : Type) := Option (Except BuildError α)

/-- Goes on with what was built. -/
def Visit.bind {α β : Type} (r : Visit α) (f : α → Visit β) : Visit β :=
  match r with
  | none => none
  | some (.error e) => some (.error e)
  | some (.ok a) => f a

section

variable (op : OperationType) (reverseOrder : Bool)

/-- The operands for the visited children; decoders may be compiled and configured to be tried in
the reverse order. -/
def childOperands (es : List (Expression π)) : List (Expression π) :=
  if reverseOrder && op = .or then es.reverse else es

/-- The node of an asset with children: they are tried if the asset succeeds. -/
def implicationNode (asset : Asset π) (es : List (Expression π)) : Expression π :=
  .implication (asset.name ++ ["Node"]) (.formula asset.expression)
    (.operation op (asset.name ++ ["Children"]) (childOperands op reverseOrder es))

/-- The loop over the children. -/
def visitChildren (visit : Name → BuiltNodes π → Visit (Expression π × BuiltNodes π)) :
    List Name → BuiltNodes π → Visit (List (Expression π) × BuiltNodes π)
  | [], built => some (.ok ([], built))
  | child :: rest, built =>
    Visit.bind (visit child built) fun first =>
      Visit.bind (visitChildren visit rest first.2) fun others =>
        some (.ok (first.1 :: others.1, others.2))

/-- The node of an asset, if it has not been built. -/
def assetNode (subgraph : AssetGraph π) (current : Name) (asset : Asset π)
    (visit : Name → BuiltNodes π → Visit (Expression π × BuiltNodes π)) (built : BuiltNodes π) :
    Visit (Expression π × BuiltNodes π) :=
  if subgraph.hasChildren current then
    Visit.bind (visitChildren visit (subgraph.childrenOf current) built) fun children =>
      some (.ok (implicationNode op reverseOrder asset children.1, children.2))
  else some (.ok (.formula asset.expression, built))

/-- Nodes of assets with more than one parent are kept. -/
def keepNode (current : Name) (asset : Asset π) (node : Expression π × BuiltNodes π) :
    Expression π × BuiltNodes π :=
  if 1 < asset.parents.length then (node.1, node.2.insert current node.1) else node

/-- The function `visit`, with fuel. -/
def visit (subgraph : AssetGraph π) :
    Nat → Name → BuiltNodes π → Visit (Expression π × BuiltNodes π)
  | 0, _, _ => none
  | fuel + 1, current, built =>
    match built.lookup current with
    | some node => some (.ok (node, built))
    | none =>
      match subgraph.node current with
      | .error e => some (.error (.graph e))
      | .ok asset =>
        Visit.bind (assetNode op reverseOrder subgraph current asset (visit subgraph fuel) built)
          fun node => some (.ok (keepNode current asset node))

end

/-- `buildSubgraphExpression`. -/
def buildSubgraphExpression (fuel : Nat) (op : OperationType) (reverseOrder : Bool)
    (subgraph : AssetGraph π) : Visit (Expression π) :=
  match subgraph.children subgraph.root with
  | .error e => some (.error (.graph e))
  | .ok children =>
    Visit.bind (visitChildren (visit op reverseOrder subgraph fuel) children ∅) fun visited =>
      some (.ok (.operation op subgraph.root visited.1))

/-! ## What a visit gives -/

/-- The expression of a node without kept nodes. -/
inductive Expands (op : OperationType) (reverseOrder : Bool) (g : AssetGraph π) : Name →
    Expression π → Prop
  | leaf {k : Name} {asset : Asset π} (hnode : g.nodes.lookup k = some asset)
      (hchildren : g.childrenOf k = []) : Expands op reverseOrder g k (.formula asset.expression)
  | inner {k : Name} {asset : Asset π} {es : List (Expression π)}
      (hnode : g.nodes.lookup k = some asset)
      (hchildren : g.childrenOf k ≠ [])
        (hes : List.Forall₂ (Expands op reverseOrder g) (g.childrenOf k) es) :
      Expands op reverseOrder g k (implicationNode op reverseOrder asset es)

/-- There is no endless way down from a node. -/
abbrev Grounded (g : AssetGraph π) : Name → Prop := Acc fun child parent => g.Leads parent child

theorem Grounded.of_reflTransGen {g : AssetGraph π} {a b : Name} (h : Grounded g a)
    (hreach : Relation.ReflTransGen g.Leads a b) : Grounded g b := by
  induction hreach with
  | refl => exact h
  | tail _ hstep ih => exact ih.inv hstep

/-- The nodes that are kept are right. -/
def BuiltRight (op : OperationType) (reverseOrder : Bool) (g : AssetGraph π)
    (built : BuiltNodes π) : Prop :=
  ∀ k e, built.lookup k = some e → Grounded g k ∧ Expands op reverseOrder g k e

variable {α β : Type} {built : BuiltNodes π} {l : List Name}
  {v : Name → BuiltNodes π → Visit (Expression π × BuiltNodes π)} {e : Expression π} {k : Name}
  {fuel : Nat} {b : β} {f : α → Visit β} {r : Visit α} {R : α → β → Prop} {l' : List β}

section Visit

variable {op : OperationType} {reverseOrder : Bool} {g : AssetGraph π}

/-- A step that has returned and threw nothing is followed by the next one. -/
theorem bind_eq_some {P : α → Prop} {out : Except BuildError β}
    (hr : ∀ first, r = some first → ∃ a, first = .ok a ∧ P a) (h : Visit.bind r f = some out) :
    ∃ a, P a ∧ f a = some out := by
  rcases r with _ | first
  · cases h
  · obtain ⟨a, rfl, ha⟩ := hr first rfl
    exact ⟨a, ha, h⟩

/-- What a visit gave is the expression of a grounded node, and the nodes that it kept are right. -/
def Visited (op : OperationType) (reverseOrder : Bool) (g : AssetGraph π) (k : Name)
    (r : Expression π × BuiltNodes π) : Prop :=
  Grounded g k ∧ Expands op reverseOrder g k r.1 ∧ BuiltRight op reverseOrder g r.2

theorem visitChildren_ok (hv : ∀ k ∈ l, ∀ built out, BuiltRight op reverseOrder g built →
    v k built = some out → ∃ r, out = .ok r ∧ Visited op reverseOrder g k r)
    {out : Except BuildError (List (Expression π) × BuiltNodes π)}
    (hbuilt : BuiltRight op reverseOrder g built) (h : visitChildren v l built = some out) :
    ∃ r, out = .ok r ∧ (∀ k ∈ l, Grounded g k) ∧ List.Forall₂ (Expands op reverseOrder g) l r.1 ∧
      BuiltRight op reverseOrder g r.2 := by
  induction l generalizing built out with
  | nil =>
    cases h
    exact ⟨_, rfl, fun k hk => absurd hk not_mem_nil, .nil, hbuilt⟩
  | cons k l ih =>
    obtain ⟨hk, hl⟩ := forall_mem_cons.1 hv
    obtain ⟨first, ⟨hground, hexpands, hbuilt1⟩, hrest⟩ :=
      bind_eq_some (fun out => hk built out hbuilt) h
    obtain ⟨others, ⟨hgrounds, hall, hbuilt2⟩, hr⟩ := bind_eq_some (fun out => ih hl hbuilt1) hrest
    cases hr
    exact ⟨_, rfl, forall_mem_cons.2 ⟨hground, hgrounds⟩, .cons hexpands hall, hbuilt2⟩

theorem BuiltRight.insert (h : BuiltRight op reverseOrder g built) (hground : Grounded g k)
    (hexpands : Expands op reverseOrder g k e) :
    BuiltRight op reverseOrder g (AList.insert k e built) := by
  intro k' e' hlookup
  by_cases hk : k' = k
  · subst hk
    rw [AList.lookup_insert] at hlookup
    obtain rfl := Option.some_inj.1 hlookup
    exact ⟨hground, hexpands⟩
  · rw [AList.lookup_insert_ne hk] at hlookup
    exact h k' e' hlookup

theorem assetNode_ok {asset : Asset π} (hnode : g.nodes.lookup k = some asset)
    (hv : ∀ c, g.Leads k c → ∀ built out, BuiltRight op reverseOrder g built →
    v c built = some out → ∃ r, out = .ok r ∧ Visited op reverseOrder g c r)
    {out : Except BuildError (Expression π × BuiltNodes π)}
    (hbuilt : BuiltRight op reverseOrder g built)
    (h : assetNode op reverseOrder g k asset v built = some out) :
    ∃ r, out = .ok r ∧ Visited op reverseOrder g k r := by
  rw [assetNode] at h
  split_ifs at h with hchildren
  · obtain ⟨children, ⟨hgrounds, hall, hbuilt'⟩, hr⟩ :=
      bind_eq_some (fun _ => visitChildren_ok hv hbuilt) h
    cases hr
    refine ⟨_, rfl, Acc.intro k hgrounds, .inner hnode ?_ hall, hbuilt'⟩
    simpa [Graph.hasChildren] using hchildren
  · cases h
    have hnil : g.childrenOf k = [] := by simpa [Graph.hasChildren] using hchildren
    refine ⟨_, rfl, Acc.intro k fun c hc => ?_, .leaf hnode hnil, hbuilt⟩
    rw [Graph.Leads, hnil] at hc
    exact absurd hc not_mem_nil

/-- Where all children are nodes, a visit that returns throws nothing; it was at a grounded node,
and gives its expression. -/
theorem visit_ok (hends : ∀ a b, g.Leads a b → g.hasNode b = true) (hnode : g.hasNode k = true)
    {out : Except BuildError (Expression π × BuiltNodes π)}
    (hbuilt : BuiltRight op reverseOrder g built)
    (h : visit op reverseOrder g fuel k built = some out) :
    ∃ r, out = .ok r ∧ Visited op reverseOrder g k r := by
  induction fuel generalizing k built out with
  | zero => cases h
  | succ fuel ih =>
    obtain ⟨asset, hasset⟩ := Option.isSome_iff_exists.1 hnode
    rw [visit, Graph.node, hasset] at h
    split at h
    · rename_i node hlookup
      cases h
      obtain ⟨hground, hexpands⟩ := hbuilt k node hlookup
      exact ⟨_, rfl, hground, hexpands, hbuilt⟩
    · obtain ⟨node, ⟨hground, hexpands, hbuilt'⟩, hr⟩ := bind_eq_some
        (fun _ => assetNode_ok hasset (fun c hc built out => ih (hends k c hc)) hbuilt) h
      cases hr
      refine ⟨_, rfl, ?_⟩
      rw [keepNode]
      split
      · exact ⟨hground, hexpands, hbuilt'.insert hground hexpands⟩
      · exact ⟨hground, hexpands, hbuilt'⟩

/-! ## When a visit returns -/

theorem visitChildren_returns (h : ∀ k ∈ l, ∃ n, ∀ built, ∃ r, ∀ fuel, n ≤ fuel →
    visit op reverseOrder g fuel k built = some (.ok r)) :
    ∃ n, ∀ built, ∃ r, ∀ fuel, n ≤ fuel →
      visitChildren (visit op reverseOrder g fuel) l built = some (.ok r) := by
  induction l with
  | nil => exact ⟨0, fun built => ⟨([], built), fun _ _ => rfl⟩⟩
  | cons k l ih =>
    obtain ⟨⟨n, hn⟩, hrest⟩ := forall_mem_cons.1 h
    obtain ⟨m, hm⟩ := ih hrest
    refine ⟨max n m, fun built => ?_⟩
    obtain ⟨first, hfirst⟩ := hn built
    obtain ⟨others, hothers⟩ := hm first.2
    refine ⟨(first.1 :: others.1, others.2), fun fuel hfuel => ?_⟩
    rw [visitChildren, hfirst fuel (by omega)]
    change Visit.bind (visitChildren _ l first.2) _ = _
    rw [hothers fuel (by omega)]
    rfl

theorem visit_returns (hends : ∀ a b, g.Leads a b → g.hasNode b = true) (hground : Grounded g k)
    (hnode : g.hasNode k = true) :
    ∃ n, ∀ built, ∃ r, ∀ fuel, n ≤ fuel → visit op reverseOrder g fuel k built = some (.ok r) := by
  -- by accessibility: the fuel of the children is enough below the node
  induction hground with
  | intro k _ ih =>
    obtain ⟨n, hn⟩ :=
      visitChildren_returns fun c (hc : c ∈ g.childrenOf k) => ih c hc (hends k c hc)
    obtain ⟨asset, hasset⟩ := Option.isSome_iff_exists.1 hnode
    refine ⟨n + 1, fun built => ?_⟩
    cases hlookup : built.lookup k with
    | some node =>
      refine ⟨(node, built), fun fuel hfuel => ?_⟩
      obtain ⟨m, rfl⟩ : ∃ m, fuel = m + 1 := ⟨fuel - 1, by omega⟩
      rw [visit, hlookup]
    | none =>
      obtain ⟨children, hchildren⟩ := hn built
      have hassetNode : ∃ node, ∀ fuel, n ≤ fuel →
          assetNode op reverseOrder g k asset (visit op reverseOrder g fuel) built =
            some (.ok node) := by
        cases hhas : g.hasChildren k with
        | true =>
          refine ⟨(implicationNode op reverseOrder asset children.1, children.2),
            fun fuel hfuel => ?_⟩
          rw [assetNode, hhas, if_pos rfl, hchildren fuel hfuel]
          rfl
        | false =>
          refine ⟨(.formula asset.expression, built), fun fuel _ => ?_⟩
          rw [assetNode, hhas, if_neg Bool.false_ne_true]
      obtain ⟨node, hnode'⟩ := hassetNode
      refine ⟨keepNode k asset node, fun fuel hfuel => ?_⟩
      obtain ⟨m, rfl⟩ : ∃ m, fuel = m + 1 := ⟨fuel - 1, by omega⟩
      rw [visit, hlookup, Graph.node, hasset]
      dsimp only
      rw [hnode' m (by omega)]
      rfl

end Visit

/-! ## The formulas of an expression -/

section Leaves

variable {op : OperationType} {reverseOrder : Bool} {g : AssetGraph π}

theorem mem_childOperands {es : List (Expression π)} :
    e ∈ childOperands op reverseOrder es ↔ e ∈ es := by
  rw [childOperands]
  split
  · exact mem_reverse
  · rfl

/-- The asset `d` is at or below the node `k`, and `p` is its expression. -/
def Below (g : AssetGraph π) (k : Name) (p : π) : Prop :=
  ∃ d asset, Relation.ReflTransGen g.Leads k d ∧ g.nodes.lookup d = some asset ∧
    asset.expression = p

theorem below_iff {asset : Asset π} (hnode : g.nodes.lookup k = some asset) {p : π} :
    Below g k p ↔ p = asset.expression ∨ ∃ c ∈ g.childrenOf k, Below g c p := by
  constructor
  · rintro ⟨d, asset', hreach, hlookup, rfl⟩
    rcases hreach.cases_head with rfl | ⟨c, hc, hrest⟩
    · rw [hnode] at hlookup
      obtain rfl := Option.some_inj.1 hlookup
      exact .inl rfl
    · exact .inr ⟨c, hc, d, asset', hrest, hlookup, rfl⟩
  · rintro (rfl | ⟨c, hc, d, asset', hrest, hlookup, rfl⟩)
    · exact ⟨k, asset, .refl, hnode, rfl⟩
    · exact ⟨d, asset', .head hc hrest, hlookup, rfl⟩

/-- What pairs agree on holds somewhere in the one list iff it does in the other. -/
theorem exists_mem_iff_of_forall₂ {l : List α} {P : α → Prop} {Q : β → Prop}
    (h : List.Forall₂ R l l') (hiff : ∀ a ∈ l, ∀ b, R a b → (Q b ↔ P a)) :
    (∃ b ∈ l', Q b) ↔ ∃ a ∈ l, P a := by
  induction h with
  | nil => simp
  | @cons a b l l' hab _ ih =>
    obtain ⟨ha, hl⟩ := forall_mem_cons.1 hiff
    rw [exists_mem_cons_iff, exists_mem_cons_iff, ha b hab, ih hl]

/-- The formulas of a node's expression are those of the assets at or below it. -/
theorem mem_leaves_iff (hground : Grounded g k) (h : Expands op reverseOrder g k e) (p : π) :
    p ∈ e.leaves ↔ Below g k p := by
  induction hground generalizing e with
  | intro k _ ih =>
    cases h with
    | leaf hnode hchildren =>
      rw [below_iff hnode, hchildren]
      simp [Expression.leaves]
    | @inner _ asset es hnode _ hes =>
      rw [below_iff hnode, implicationNode, Expression.leaves, Expression.leaves, Expression.leaves,
        mem_append, mem_singleton, Expression.mem_leavesAll]
      simp only [mem_childOperands]
      exact or_congr_right (exists_mem_iff_of_forall₂ hes fun c hc e hexpands => ih c hc hexpands)

end Leaves

end WazAISentinel.Builder
