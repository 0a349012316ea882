import WazAISentinel.Builder.SubgraphExpression

/-!
# Building the expression of a policy

`buildAssets`, `buildSubgraph` and `buildSubgraphExpression` one after the other, for assets without
filters. A cycle below an asset without parents is gone around without end, and a cycle elsewhere is
left out (`policy_building_iff`).
-/

namespace WazAISentinel.Builder

open Base (Expression OperationType)
open Foundations List Option

variable {π : Type}

/-- `buildAssets` and `buildSubgraph`. -/
def buildPolicySubgraph [Inhabited π] (store : Name → Option (AssetDoc π)) (subgraphName : Name)
    (subgraphData : SubgraphData) : Except BuildError (AssetGraph π) :=
  (buildAssets store subgraphData).bind fun assets =>
    buildSubgraph subgraphName subgraphData ⟨[], []⟩ assets ∅

/-- The three steps. -/
def buildPolicy [Inhabited π] (fuel : Nat) (op : OperationType) (reverseOrder : Bool)
    (store : Name → Option (AssetDoc π)) (subgraphName : Name) (subgraphData : SubgraphData) :
    Visit (Expression π) :=
  match buildPolicySubgraph store subgraphName subgraphData with
  | .error e => some (.error e)
  | .ok subgraph => buildSubgraphExpression fuel op reverseOrder subgraph

/-! ## The built assets -/

/-- Built assets have the expressions of their documents. -/
def BuiltFrom (store : Name → Option (AssetDoc π)) (built : AList fun _ : Name => Asset π) : Prop :=
  ∀ c asset, built.lookup c = some asset →
    ∃ doc, store c = some doc ∧ asset.expression = doc.expression

variable {c p : Name} {data : SubgraphData} {e : Expression π} {fuel : Nat} {g : AssetGraph π}
  {store : Name → Option (AssetDoc π)}

theorem builtFrom_buildAsset {ns : NamespaceId} {built built' : AList fun _ : Name => Asset π}
    (hbuilt : BuiltFrom store built) (h : buildAsset store data ns built c = .ok built') :
    BuiltFrom store built' := by
  rw [buildAsset] at h
  split at h
  · cases h
  · rename_i doc hdoc
    obtain ⟨asset, hasset, rfl⟩ := map_eq_ok.1 h
    obtain ⟨parents, -, rfl⟩ := map_eq_ok.1 hasset
    intro k asset' hlookup
    rw [emplace] at hlookup
    split at hlookup
    · exact hbuilt k asset' hlookup
    · by_cases hk : k = c
      · subst hk
        rw [AList.lookup_insert] at hlookup
        obtain rfl := some_inj.1 hlookup
        refine ⟨doc, hdoc, ?_⟩
        rw [withDefaultParent]
        split
        · split
          · rfl
          · split <;> rfl
        · rfl
      · rw [AList.lookup_insert_ne hk] at hlookup
        exact hbuilt k asset' hlookup

theorem builtFrom_buildAssets {built : AList fun _ : Name => Asset π}
    (h : buildAssets store data = .ok built) : BuiltFrom store built := by
  refine foldlM_invariant h (P := BuiltFrom store) ?_ fun entry _ b b' hb hentry => ?_
  · intro c asset hlookup
    cases hlookup
  · exact foldlM_invariant hentry (P := BuiltFrom store) hb fun c _ b b' hb hstep =>
      builtFrom_buildAsset hb hstep

/-! ## The graph -/

/-- The asset `c` of the policy has an edge from `p`. -/
def HasParent (subgraphName : Name) (subgraphData : SubgraphData)
    (assets : AList fun _ : Name => Asset π) (c p : Name) : Prop :=
  c ∈ subgraphData.names ∧ Lists subgraphName assets c p

/-- A graph without filters that was returned. -/
theorem wired_of_buildSubgraph [Inhabited π] {subgraphName : Name} {subgraphData : SubgraphData}
    {assets : AList fun _ : Name => Asset π}
    (h : buildSubgraph subgraphName subgraphData ⟨[], []⟩ assets ∅ = .ok g) :
    Wired subgraphName assets subgraphData.names g ∧ (∀ a b, g.Leads a b → g.hasNode a = true) ∧
      ∀ a b, g.Leads a b → g.hasNode b = true := by
  obtain ⟨g', hloop, hcheck⟩ := bind_eq_ok.1 h
  have hround : addNamespace subgraphName ⟨[], []⟩ assets ∅ =
      fun (g : AssetGraph π) entry => entry.2.foldlM (addAsset subgraphName assets) g := by
    funext g entry
    rw [addNamespace]
    cases entry.2.foldlM (addAsset subgraphName assets) g with
    | error e => rfl
    | ok g' => rfl
  rw [hround, foldlM_flatMap] at hloop
  have hwired := (wired_create subgraphName assets).of_addAssets hloop
  obtain ⟨u, hok, rfl⟩ := map_eq_ok.1 hcheck
  obtain ⟨hkeys, htargets⟩ := checkIntegrity_eq_ok_iff.1 hok
  refine ⟨hwired, fun a b hleads => hkeys a ?_, htargets⟩
  obtain ⟨l, hl, -⟩ := Graph.leads_iff.1 hleads
  exact AList.lookup_isSome.1 (isSome_of_eq_some hl)

section Wired

variable {subgraphName : Name} {subgraphData : SubgraphData}
  {assets : AList fun _ : Name => Asset π}

section

variable (h : Wired subgraphName assets subgraphData.names g)

include h

theorem Wired.leads_eq :
    g.Leads = Function.swap (HasParent subgraphName subgraphData assets) :=
  funext fun p => funext fun c => propext (h.leads p c)

/-- The input node has no list of children exactly if every asset has parents. -/
theorem Wired.children_root :
    (∃ e, g.children g.root = .error e) ↔
      ∀ c, ¬ HasParent subgraphName subgraphData assets c subgraphName := by
  rw [Graph.children, h.root]
  cases hl : g.edges.lookup subgraphName with
  | none =>
    refine ⟨fun _ c hc => ?_, fun _ => ⟨_, rfl⟩⟩
    obtain ⟨l, hl', -⟩ := Graph.leads_iff.1 ((h.leads subgraphName c).2 hc)
    cases hl.symm.trans hl'
  | some l =>
    constructor
    · rintro ⟨e, he⟩
      cases he
    · intro hnone
      obtain ⟨c, hc⟩ := h.keys subgraphName (AList.lookup_isSome.1 (isSome_of_eq_some hl))
      exact absurd ((h.leads subgraphName c).1 hc) (hnone c)

theorem Wired.grounded_iff (k : Name) :
    Grounded g k ↔ Acc (HasParent subgraphName subgraphData assets) k := by
  rw [Grounded, h.leads_eq]

/-- Every asset of the policy is a node, and has been built. -/
theorem Wired.built (hc : c ∈ subgraphData.names) :
    ∃ asset, g.nodes.lookup c = some asset ∧ assets.lookup c = some asset := by
  obtain ⟨asset, hasset⟩ := isSome_iff_exists.1 ((h.hasNode c).2 (.inr hc))
  exact ⟨asset, hasset, by rw [← h.node c hc, hasset]⟩

/-- Without a cycle every asset is below the input node. -/
theorem Wired.reached (hends : ∀ a b, g.Leads a b → g.hasNode a = true)
    (hacyclic : ∀ c, ¬ Relation.TransGen (HasParent subgraphName subgraphData assets) c c)
    (hc : c ∈ subgraphData.names) : Relation.TransGen g.Leads subgraphName c := by
  have hacc : Acc g.Leads c := by
    refine acc_of_acyclic (l := subgraphName :: subgraphData.names) (fun a b hleads => ?_)
      (fun a _ hcycle => ?_) c
    · exact mem_cons.2 ((h.hasNode a).1 (hends a b hleads))
    · rw [h.leads_eq] at hcycle
      exact hacyclic a (Relation.transGen_swap.1 hcycle)
  -- up the parents: the first one leads to the input node
  induction hacc with
  | intro c _ ih =>
    obtain ⟨asset, -, hasset⟩ := h.built hc
    obtain ⟨p, hp⟩ : ∃ p, p ∈ effectiveParents subgraphName asset := by
      rw [effectiveParents]
      split_ifs with hne
      · exact ⟨subgraphName, mem_singleton_self subgraphName⟩
      · exact exists_mem_of_ne_nil _ hne
    have hleads : g.Leads p c := (h.leads p c).2 ⟨hc, asset, hasset, hp⟩
    rcases (h.hasNode p).1 (hends p c hleads) with rfl | hmem
    · exact .single hleads
    · exact (ih p hleads hmem).tail hleads

end

end Wired

/-! ## The expression -/

section Result

variable {op : OperationType} {reverseOrder : Bool}
  (hends : ∀ a b, g.Leads a b → g.hasNode b = true)

include hends

/-- An exception is returned if the input node has no children, and otherwise an operation on their
expressions; the children are grounded then. -/
theorem buildSubgraphExpression_cases {out : Except BuildError (Expression π)}
    (h : buildSubgraphExpression fuel op reverseOrder g = some out) :
    (∃ e, g.children g.root = .error e ∧ out = .error (.graph e)) ∨
      (∀ k, g.Leads g.root k → Grounded g k) ∧
      ∃ es, out = .ok (.operation op g.root es) ∧
        List.Forall₂ (Expands op reverseOrder g) (g.childrenOf g.root) es := by
  rw [buildSubgraphExpression, Graph.children] at h
  rw [Graph.children]
  cases hl : g.edges.lookup g.root with
  | none =>
    rw [hl] at h
    cases h
    exact .inl ⟨_, rfl, rfl⟩
  | some children =>
    have hchildren : g.childrenOf g.root = children := by
      rw [Graph.childrenOf, hl, getD_some]
    have hempty : BuiltRight op reverseOrder g ∅ := by
      intro k e hlookup
      cases hlookup
    rw [hl, ← hchildren] at h
    obtain ⟨visited, ⟨hgrounds, hall, -⟩, hout⟩ := bind_eq_some
      (fun _ => visitChildren_ok (fun k hk _ _ => visit_ok hends (hends g.root k hk)) hempty) h
    cases hout
    exact .inr ⟨hgrounds, visited.1, rfl, hall⟩

theorem buildSubgraphExpression_expands
    (h : buildSubgraphExpression fuel op reverseOrder g = some (.ok e)) :
    (∀ k, g.Leads g.root k → Grounded g k) ∧
      ∃ es, e = .operation op g.root es ∧
        List.Forall₂ (Expands op reverseOrder g) (g.childrenOf g.root) es := by
  rcases buildSubgraphExpression_cases hends h with ⟨_, -, herror⟩ | ⟨hgrounds, es, hout, hall⟩
  · cases herror
  · exact ⟨hgrounds, es, Except.ok.inj hout, hall⟩

/-- The formulas of what was returned are those of the assets below the input node. -/
theorem buildSubgraphExpression_ok
    (h : buildSubgraphExpression fuel op reverseOrder g = some (.ok e)) :
    (∀ k, g.Leads g.root k → Grounded g k) ∧ ∀ p, p ∈ e.leaves ↔
      ∃ k, g.Leads g.root k ∧ Below g k p := by
  obtain ⟨hgrounds, es, rfl, hall⟩ := buildSubgraphExpression_expands hends h
  refine ⟨hgrounds, fun p => ?_⟩
  rw [Expression.leaves, Expression.mem_leavesAll]
  exact exists_mem_iff_of_forall₂ hall fun k hk e hexpands =>
    mem_leaves_iff (hgrounds k hk) hexpands p

/-- With all nodes grounded an expression is returned, unless the input node has no children. -/
theorem buildSubgraphExpression_returns (hground : ∀ k, Grounded g k) :
    (∃ e, g.children g.root = .error e) ∨
      ∃ e n, ∀ fuel, n ≤ fuel → buildSubgraphExpression fuel op reverseOrder g = some (.ok e) := by
  cases hl : g.edges.lookup g.root with
  | none =>
    left
    rw [Graph.children, hl]
    exact ⟨_, rfl⟩
  | some children =>
    right
    have hleads : ∀ k ∈ children, g.hasNode k = true := fun k hk =>
      hends g.root k (Graph.leads_iff.2 ⟨children, hl, hk⟩)
    have hchildren : ∃ n, ∀ built, ∃ r, ∀ fuel, n ≤ fuel →
        visitChildren (visit op reverseOrder g fuel) children built = some (.ok r) :=
      visitChildren_returns fun k hk => visit_returns hends (hground k) (hleads k hk)
    obtain ⟨n, hn⟩ := hchildren
    obtain ⟨visited, hvisited⟩ := hn ∅
    refine ⟨.operation op g.root visited.1, n, fun fuel hfuel => ?_⟩
    rw [buildSubgraphExpression, Graph.children, hl]
    dsimp only
    rw [hvisited fuel hfuel]
    rfl

end Result

/-- The building ends, and if it gives an expression, the expression of every asset occurs in it. -/
def BuildsAll [Inhabited π] (op : OperationType) (reverseOrder : Bool)
    (store : Name → Option (AssetDoc π)) (subgraphName : Name) (subgraphData : SubgraphData) :
    Prop :=
  ∃ result, (∃ n, ∀ fuel, n ≤ fuel →
    buildPolicy fuel op reverseOrder store subgraphName subgraphData = some result) ∧
    ∀ e, result = .ok e →
      ∀ c ∈ subgraphData.names, ∃ doc, store c = some doc ∧ doc.expression ∈ e.leaves

section Policy

variable [Inhabited π] {op : OperationType} {reverseOrder : Bool} {subgraphName : Name}
  {subgraphData : SubgraphData}

theorem buildsAll_of_children_error
    (h : buildPolicySubgraph store subgraphName subgraphData = .ok g) {e : GraphError Name}
    (hroot : g.children g.root = .error e) :
    BuildsAll op reverseOrder store subgraphName subgraphData := by
  refine ⟨.error (.graph e), ⟨0, fun fuel _ => ?_⟩, fun e' he' => by cases he'⟩
  rw [buildPolicy, h]
  dsimp only
  rw [buildSubgraphExpression, hroot]

section

variable {assets : AList fun _ : Name => Asset π}
  (hassets : buildAssets store subgraphData = .ok assets)
  (hg : buildSubgraph subgraphName subgraphData ⟨[], []⟩ assets ∅ = .ok g)

include hassets hg

/-- Without cycles everything is built. -/
theorem buildsAll_of_acyclic
    (hacyclic : ∀ c, ¬ Relation.TransGen (HasParent subgraphName subgraphData assets) c c) :
    BuildsAll op reverseOrder store subgraphName subgraphData := by
  have hpolicy : buildPolicySubgraph store subgraphName subgraphData = .ok g := by
    rw [buildPolicySubgraph, hassets]
    exact hg
  obtain ⟨hwired, hsources, htargets⟩ := wired_of_buildSubgraph hg
  have hground (k : Name) : Grounded g k :=
    (hwired.grounded_iff k).2 (acc_of_acyclic (fun _ _ hc => hc.1) (fun c _ => hacyclic c) k)
  rcases buildSubgraphExpression_returns htargets hground with ⟨e, hroot⟩ | ⟨e, n, hn⟩
  · exact buildsAll_of_children_error hpolicy hroot
  · refine ⟨.ok e, ⟨n, fun fuel hfuel => ?_⟩, fun e' he' c hc => ?_⟩
    · rw [buildPolicy, hpolicy]
      exact hn fuel hfuel
    · obtain rfl := Except.ok.inj he'
      obtain ⟨asset, hnode, hasset⟩ := hwired.built hc
      obtain ⟨doc, hdoc, hexpression⟩ := builtFrom_buildAssets hassets c asset hasset
      have hreach := hwired.reached hsources hacyclic hc
      rw [← hwired.root] at hreach
      obtain ⟨k, hk, hrest⟩ := Relation.TransGen.head'_iff.1 hreach
      obtain ⟨-, hleaves⟩ := buildSubgraphExpression_ok htargets (hn n le_rfl)
      exact ⟨doc, hdoc, (hleaves doc.expression).2 ⟨k, hk, c, asset, hrest, hnode, hexpression⟩⟩

/-- If an expression with all assets was built, there is no cycle. -/
theorem acyclic_of_expression (hdistinct : ∀ c ∈ subgraphData.names, ∀ d ∈ subgraphData.names,
    ∀ x y, store c = some x → store d = some y → x.expression = y.expression → c = d)
    (he : buildSubgraphExpression fuel op reverseOrder g = some (.ok e))
    (hall : ∀ c ∈ subgraphData.names, ∃ doc, store c = some doc ∧ doc.expression ∈ e.leaves)
    (c : Name) : ¬ Relation.TransGen (HasParent subgraphName subgraphData assets) c c := by
  obtain ⟨hwired, -, htargets⟩ := wired_of_buildSubgraph hg
  obtain ⟨hgrounds, hleaves⟩ := buildSubgraphExpression_ok htargets he
  intro hcycle
  have hc : c ∈ subgraphData.names := by
    obtain ⟨b, hb, -⟩ := Relation.TransGen.head'_iff.1 hcycle
    exact hb.1
  obtain ⟨doc, hdoc, hmem⟩ := hall c hc
  obtain ⟨k, hk, d, asset, hreach, hnode, hexpression⟩ := (hleaves doc.expression).1 hmem
  -- the asset found below the input node is `c` itself
  have hd : d ∈ subgraphData.names := by
    rcases hreach.cases_tail with rfl | ⟨b, -, hstep⟩
    · exact ((hwired.leads g.root d).1 hk).1
    · exact ((hwired.leads b d).1 hstep).1
  obtain ⟨asset', hnode', hasset⟩ := hwired.built hd
  obtain rfl := some_inj.1 (hnode.symm.trans hnode')
  obtain ⟨doc', hdoc', hexpression'⟩ := builtFrom_buildAssets hassets d asset hasset
  obtain rfl := hdistinct d hd c hc doc' doc hdoc' hdoc (hexpression'.symm.trans hexpression)
  have hground := Grounded.of_reflTransGen (hgrounds k hk) hreach
  exact not_transGen_self_of_acc ((hwired.grounded_iff d).1 hground) hcycle

end

/-- The building ends with an exception or with an expression of all assets, each another object,
exactly if `buildAssets` or `buildSubgraph` throws, or every asset has parents, or no asset is its
own ancestor. -/
theorem policy_building_iff (op : OperationType) (reverseOrder : Bool)
    (store : Name → Option (AssetDoc π)) (subgraphName : Name) (subgraphData : SubgraphData)
    (hdistinct : ∀ c ∈ subgraphData.names, ∀ d ∈ subgraphData.names, ∀ x y, store c = some x →
    store d = some y → x.expression = y.expression → c = d) :
    BuildsAll op reverseOrder store subgraphName subgraphData ↔
      (∃ e, buildPolicySubgraph store subgraphName subgraphData = .error e) ∨
        ∃ assets, buildAssets store subgraphData = .ok assets ∧
          ((∀ c, ¬ HasParent subgraphName subgraphData assets c subgraphName) ∨
            ∀ c, ¬ Relation.TransGen (HasParent subgraphName subgraphData assets) c c) := by
  cases hpolicy : buildPolicySubgraph store subgraphName subgraphData with
  | error e =>
    refine ⟨fun _ => .inl ⟨e, rfl⟩,
      fun _ => ⟨.error e, ⟨0, fun fuel _ => ?_⟩, fun e' he' => by cases he'⟩⟩
    rw [buildPolicy, hpolicy]
  | ok g =>
    obtain ⟨assets, hassets, hg⟩ := bind_eq_ok.1 hpolicy
    obtain ⟨hwired, -, htargets⟩ := wired_of_buildSubgraph hg
    constructor
    · rintro ⟨result, ⟨n, hn⟩, hall⟩
      refine .inr ⟨assets, hassets, ?_⟩
      have hresult := hn n le_rfl
      rw [buildPolicy, hpolicy] at hresult
      rcases buildSubgraphExpression_cases htargets hresult with ⟨e, hroot, -⟩ | ⟨-, es, rfl, -⟩
      · exact .inl (hwired.children_root.1 ⟨e, hroot⟩)
      · exact .inr (acyclic_of_expression hassets hg hdistinct hresult (hall _ rfl))
    · rintro (⟨e, he⟩ | ⟨assets', hassets', hcases⟩)
      · cases he
      · obtain rfl := Except.ok.inj (hassets.symm.trans hassets')
        rcases hcases with hroots | hacyclic
        · obtain ⟨e, he⟩ := hwired.children_root.2 hroots
          exact buildsAll_of_children_error hpolicy he
        · exact buildsAll_of_acyclic hassets hg hacyclic

/-- A child of the input node with an endless way down keeps the building from ending. -/
theorem buildPolicy_eq_none (h : buildPolicySubgraph store subgraphName subgraphData = .ok g)
    {k : Name} (hk : g.Leads g.root k) (hendless : ¬ Grounded g k) :
    buildPolicy fuel op reverseOrder store subgraphName subgraphData = none := by
  obtain ⟨assets, hassets, hg⟩ := bind_eq_ok.1 h
  obtain ⟨hwired, -, htargets⟩ := wired_of_buildSubgraph hg
  rw [buildPolicy, h]
  dsimp only
  cases hresult : buildSubgraphExpression fuel op reverseOrder g with
  | none => rfl
  | some result =>
    exfalso
    rcases buildSubgraphExpression_cases htargets hresult with ⟨e, hroot, -⟩ | ⟨hgrounds, -⟩
    · refine hwired.children_root.1 ⟨e, hroot⟩ k ?_
      rw [hwired.root] at hk
      exact (hwired.leads subgraphName k).1 hk
    · exact hendless (hgrounds k hk)

end Policy

/-! ## Three decoders -/

/-- Three decoders, of which the first has no parents. The expressions are numbers. -/
def threeDecoders (parentsOfB parentsOfC : List Name) (name : Name) : Option (AssetDoc Nat) :=
  if name = ["decoder", "a", "0"] then some ⟨name, [], 1⟩
  else if name = ["decoder", "b", "0"] then some ⟨name, parentsOfB, 2⟩
  else if name = ["decoder", "c", "0"] then some ⟨name, parentsOfC, 3⟩
  else none

/-- Three decoders of one namespace. -/
def threeNames : SubgraphData :=
  ⟨[], [("wazuh", [["decoder", "a", "0"], ["decoder", "b", "0"], ["decoder", "c", "0"]])]⟩

theorem threeDecoders_distinct {parentsOfB parentsOfC : List Name} {doc : AssetDoc Nat}
    (h : threeDecoders parentsOfB parentsOfC c = some doc) :
    threeNames.names[doc.expression - 1]? = some c := by
  rw [threeDecoders] at h
  split_ifs at h with ha hb hc
  · obtain rfl := some_inj.1 h
    rw [ha]
    rfl
  · obtain rfl := some_inj.1 h
    rw [hb]
    rfl
  · obtain rfl := some_inj.1 h
    rw [hc]
    rfl

/-- Every parent stands before its child. -/
theorem idxOf_lt_of_hasParent {assets : AList fun _ : Name => Asset Nat} (h : buildAssets
    (threeDecoders [["decoder", "a", "0"]] [["decoder", "a", "0"], ["decoder", "b", "0"]])
    threeNames = .ok assets) (hp : HasParent AssetType.decoder.input threeNames assets c p) :
    idxOf p (AssetType.decoder.input :: threeNames.names) <
      idxOf c (AssetType.decoder.input :: threeNames.names) := by
  obtain ⟨hc, asset, hasset, hmem⟩ := hp
  have hcases : c = ["decoder", "a", "0"] ∨ c = ["decoder", "b", "0"] ∨
      c = ["decoder", "c", "0"] := by
    simpa [threeNames, SubgraphData.names] using hc
  obtain rfl := Except.ok.inj h
  rcases hcases with rfl | rfl | rfl
  · obtain rfl := some_inj.1 hasset
    obtain rfl : p = AssetType.decoder.input := mem_singleton.1 hmem
    decide
  · obtain rfl := some_inj.1 hasset
    obtain rfl : p = ["decoder", "a", "0"] := mem_singleton.1 hmem
    decide
  · obtain rfl := some_inj.1 hasset
    have hparents : p = ["decoder", "a", "0"] ∨ p = ["decoder", "b", "0"] := mem_pair.1 hmem
    rcases hparents with rfl | rfl
    · decide
    · decide

/-- With a shared child everything is built. -/
theorem policy_building_iff_sharedChild :
    BuildsAll .or false
      (threeDecoders [["decoder", "a", "0"]] [["decoder", "a", "0"], ["decoder", "b", "0"]])
      AssetType.decoder.input threeNames := by
  refine (policy_building_iff .or false _ _ _ ?_).2 (.inr ⟨_, rfl, .inr fun c hcycle => ?_⟩)
  · intro c _ d _ x y hx hy hxy
    have hc := threeDecoders_distinct hx
    rw [hxy, threeDecoders_distinct hy] at hc
    exact (some_inj.1 hc).symm
  · have hless := hcycle.lift (p := (· > ·)) _ fun _ _ hp => idxOf_lt_of_hasParent rfl hp
    rw [Relation.transGen_eq_self] at hless
    exact lt_irrefl _ hless

/-- A cycle below the first decoder: the building does not end. A cycle elsewhere: the two decoders
are left out. -/
theorem cyclic_policies :
    (∀ fuel, buildPolicy fuel .or false
      (threeDecoders [["decoder", "a", "0"], ["decoder", "c", "0"]] [["decoder", "b", "0"]])
      AssetType.decoder.input threeNames = none) ∧
    ∀ fuel, 1 ≤ fuel →
      buildPolicy fuel .or false (threeDecoders [["decoder", "c", "0"]] [["decoder", "b", "0"]])
      AssetType.decoder.input threeNames =
        some (.ok (.operation .or ["decoder", "Input"] [.formula 1])) := by
  constructor
  · intro fuel
    refine buildPolicy_eq_none (k := ["decoder", "a", "0"]) rfl ?_ ?_
    · decide
    · intro hground
      have hb := hground.inv (y := ["decoder", "b", "0"]) (by decide)
      refine not_transGen_self_of_acc hb ?_
      exact .head (b := ["decoder", "c", "0"]) (by decide) (.single (by decide))
  · intro fuel hfuel
    obtain ⟨n, rfl⟩ := Nat.exists_eq_add_of_le' hfuel
    rfl

end WazAISentinel.Builder
