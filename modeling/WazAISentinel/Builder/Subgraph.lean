import WazAISentinel.Builder.Factory
import WazAISentinel.Foundations.Loops

/-!
# The subgraph of the assets

What the loop of `buildSubgraph` over the assets makes: the input node, the nodes of the assets so
far, and an edge for each parent that one of them lists (`Wired`).
-/

namespace WazAISentinel.Builder

open Foundations List

variable {π : Type} (subgraphName : Name)

/-- The nodes from which an asset gets an edge. -/
def effectiveParents (asset : Asset π) : List Name :=
  if asset.parents = [] then [subgraphName] else asset.parents

theorem nodup_effectiveParents (asset : Asset π) :
    (effectiveParents subgraphName asset).Nodup := by
  rw [effectiveParents]
  split
  · exact nodup_singleton subgraphName
  · exact asset.nodup

/-- The asset `c` is built and has an edge from `p`. -/
def Lists (assets : AList fun _ : Name => Asset π) (c p : Name) : Prop :=
  ∃ asset, assets.lookup c = some asset ∧ p ∈ effectiveParents subgraphName asset

/-- The graph of the assets that have been added. -/
structure Wired (subgraphName : Name) (assets : AList fun _ : Name => Asset π) (done : List Name)
    (g : AssetGraph π) : Prop where
  root : g.root = subgraphName
  hasNode : ∀ k, g.hasNode k = true ↔ k = subgraphName ∨ k ∈ done
  node : ∀ c ∈ done, g.nodes.lookup c = assets.lookup c
  leads : ∀ p c, g.Leads p c ↔ c ∈ done ∧ Lists subgraphName assets c p
  nodup : ∀ p, (g.childrenOf p).Nodup
  keys : ∀ p ∈ g.edges, ∃ c, g.Leads p c

theorem wired_create [Inhabited π] (subgraphName : Name) (assets : AList fun _ : Name => Asset π) :
    Wired subgraphName assets [] (Graph.create subgraphName Asset.empty) where
  root := rfl
  hasNode := fun k => by
    have hinsert := Graph.hasNode_insert ⟨subgraphName, ∅, ∅⟩ subgraphName (Asset.empty : Asset π) k
    rw [Graph.create, hinsert]
    simp [Graph.hasNode]
  node := fun c hc => absurd hc not_mem_nil
  leads := fun p c => by simp [Graph.create, Graph.Leads, Graph.childrenOf]
  nodup := fun p => by simp [Graph.create, Graph.childrenOf]
  keys := fun p hp => absurd hp (AList.notMem_empty p)

variable {asset : Asset π} {assetName subgraphName : Name} {g g' : AssetGraph π}
  {done names : List Name} {assets : AList fun _ : Name => Asset π}

theorem fromGraph_eq_ok {α : Type} {r : Except (GraphError Name) α} {a : α} :
    fromGraph r = .ok a ↔ r = .ok a := by
  cases r with
  | error e | ok b => simp [fromGraph, Except.mapError]

/-- The edges of an asset in one form, whether or not it lists parents. -/
theorem addAsset_eq (h : assets.lookup assetName = some asset) :
    addAsset subgraphName assets g assetName =
      (fromGraph (g.addNode assetName asset)).bind fun g => fromGraph
        ((effectiveParents subgraphName asset).foldlM
          (fun (g : AssetGraph π) parent => g.addEdge parent assetName) g) := by
  rw [addAsset, h]
  refine congrArg (Except.bind _) (funext fun g => ?_)
  rw [effectiveParents]
  split
  · rw [foldlM_cons]
    cases g.addEdge subgraphName assetName with
    | error e => rfl
    | ok g' => rfl
  · rfl

/-- An asset that could be added was built and new. -/
theorem of_addAsset_eq_ok (h : addAsset subgraphName assets g assetName = .ok g') :
    ∃ asset, assets.lookup assetName = some asset ∧ g.hasNode assetName = false ∧
      (effectiveParents subgraphName asset).foldlM (fun (g : AssetGraph π) parent => g.addEdge
      parent assetName) { g with nodes := g.nodes.insert assetName asset } = .ok g' := by
  cases hlookup : assets.lookup assetName with
  | none =>
    rw [addAsset, hlookup] at h
    cases h
  | some asset =>
    rw [addAsset_eq hlookup] at h
    obtain ⟨g1, hadd, hloop⟩ := bind_eq_ok.1 h
    obtain ⟨hnode, rfl⟩ := (Graph.addNode_eq_ok asset).1 (fromGraph_eq_ok.1 hadd)
    exact ⟨asset, rfl, hnode, fromGraph_eq_ok.1 hloop⟩

section

variable (h : Wired subgraphName assets done g)

include h

theorem Wired.addAsset (hasset : assets.lookup assetName = some asset)
    (hinput : assetName ≠ subgraphName) (hdone : assetName ∉ done) :
    ∃ g', Builder.addAsset subgraphName assets g assetName = .ok g' ∧
      Wired subgraphName assets (done ++ [assetName]) g' := by
  have hnode : g.hasNode assetName = false := by
    rw [← Bool.not_eq_true, h.hasNode, not_or]
    exact ⟨hinput, hdone⟩
  have hadd := (Graph.addNode_eq_ok asset).2 ⟨hnode, rfl⟩
  have hhas (k : Name) := Graph.hasNode_insert g assetName asset k
  generalize hg1 :
    ({ g with nodes := g.nodes.insert assetName asset } : AssetGraph π) = g1 at hadd hhas
  have hchildren1 (k : Name) : g1.childrenOf k = g.childrenOf k := by rw [← hg1]; rfl
  have hnew : ∀ p ∈ effectiveParents subgraphName asset, ¬ g1.Leads p assetName := by
    intro p _ hleads
    rw [Graph.Leads, hchildren1] at hleads
    exact hdone ((h.leads p assetName).1 hleads).1
  obtain ⟨g', hrun, hext, hchildren', hkeys⟩ :=
    Graph.foldlM_addEdge_parents (nodup_effectiveParents subgraphName asset) hnew
  have hleads (p c : Name) : g'.Leads p c ↔
      g.Leads p c ∨ c = assetName ∧ p ∈ effectiveParents subgraphName asset := by
    rw [Graph.Leads, hchildren', hchildren1, Graph.Leads]
    by_cases hp : p ∈ effectiveParents subgraphName asset
    · simp [hp]
    · simp [hp]
  refine ⟨g', ?_, ?_⟩
  · rw [addAsset_eq hasset, hadd]
    change fromGraph (foldlM _ g1 _) = _
    rw [hrun]
    rfl
  · constructor
    · rw [hext.root, ← hg1]
      exact h.root
    · intro k
      rw [hext.hasNode, hhas, Bool.or_eq_true, decide_eq_true_eq, h.hasNode, mem_append,
        mem_singleton]
      tauto
    · intro c hc
      rw [hext.nodes, ← hg1]
      by_cases hcn : c = assetName
      · subst hcn
        rw [AList.lookup_insert, hasset]
      · rw [AList.lookup_insert_ne hcn]
        exact h.node c
          ((mem_append.1 hc).resolve_right fun hmem => hcn (mem_singleton.1 hmem))
    · intro p c
      rw [hleads, h.leads, mem_append, mem_singleton]
      constructor
      · rintro (⟨hmem, hlists⟩ | ⟨rfl, hp⟩)
        · exact ⟨.inl hmem, hlists⟩
        · exact ⟨.inr rfl, asset, hasset, hp⟩
      · rintro ⟨hmem | rfl, hlists⟩
        · exact .inl ⟨hmem, hlists⟩
        · obtain ⟨asset', hasset', hp⟩ := hlists
          obtain rfl := Option.some_inj.1 (hasset.symm.trans hasset')
          exact .inr ⟨rfl, hp⟩
    · intro p
      rw [hchildren', hchildren1]
      split
      · rw [nodup_append]
        refine ⟨h.nodup p, nodup_singleton assetName, fun a ha b hb => ?_⟩
        obtain rfl := mem_singleton.1 hb
        rintro rfl
        exact hdone ((h.leads p a).1 ha).1
      · exact h.nodup p
    · intro p hp
      rcases hkeys p hp with hmem | hmem
      · exact ⟨assetName, (hleads p assetName).2 (.inr ⟨rfl, hmem⟩)⟩
      · rw [← hg1] at hmem
        obtain ⟨c, hc⟩ := h.keys p hmem
        exact ⟨c, (hleads p c).2 (.inl hc)⟩

/-- The assets of a namespace. -/
theorem Wired.addAssets (hbuilt : ∀ c ∈ names, ∃ asset, assets.lookup c = some asset)
    (hinput : subgraphName ∉ names) (hnodup : (done ++ names).Nodup) :
    ∃ g', names.foldlM (Builder.addAsset subgraphName assets) g = .ok g' ∧
      Wired subgraphName assets (done ++ names) g' := by
  refine foldlM_returns (fun front g => Wired subgraphName assets (done ++ front) g)
    (by rwa [append_nil]) ?_
  intro front a back g' heq hwired
  subst heq
  have hmem : a ∈ front ++ a :: back := mem_append_right front mem_cons_self
  obtain ⟨asset, hasset⟩ := hbuilt a hmem
  have hdone : a ∉ done ++ front := by
    rw [← append_assoc] at hnodup
    exact fun ha => disjoint_of_nodup_append hnodup ha mem_cons_self
  rw [← append_assoc]
  exact hwired.addAsset hasset (ne_of_mem_of_not_mem hmem hinput) hdone

theorem Wired.of_addAssets (hadd : names.foldlM (Builder.addAsset subgraphName assets) g = .ok g') :
    Wired subgraphName assets (done ++ names) g' := by
  induction names generalizing done g with
  | nil =>
    obtain rfl := Except.ok.inj hadd
    rwa [append_nil]
  | cons a names ih =>
    obtain ⟨g1, hfirst, hrest⟩ := foldlM_cons_eq_ok.1 hadd
    obtain ⟨asset, hlookup, hnode, -⟩ := of_addAsset_eq_ok hfirst
    rw [← Bool.not_eq_true, h.hasNode, not_or] at hnode
    obtain ⟨g2, hadd2, hwired⟩ := h.addAsset hlookup hnode.1 hnode.2
    obtain rfl := Except.ok.inj (hadd2.symm.trans hfirst)
    rw [append_cons]
    exact ih hwired hrest

end

/-! ## The check at the end -/

theorem forM_eq_ok_iff {α ε : Type} {l : List α} {f : α → Except ε PUnit} :
    l.forM f = .ok ⟨⟩ ↔ ∀ a ∈ l, f a = .ok ⟨⟩ := by
  induction l with
  | nil => exact ⟨fun _ a ha => absurd ha not_mem_nil, fun _ => rfl⟩
  | cons a l ih =>
    rw [forM_eq_forM, forM_cons, forall_mem_cons, ← ih]
    exact bind_eq_ok.trans Unique.exists_iff

theorem checkChildren_eq_ok_iff {p : Name} {l : List Name} (hl : g.edges.lookup p = some l) :
    checkChildren g p l = .ok () ↔ g.hasNode p = true ∧ ∀ c, g.Leads p c → g.hasNode c = true := by
  have hleads (c : Name) : g.Leads p c ↔ c ∈ l := by
    rw [Graph.Leads, Graph.childrenOf, hl, Option.getD_some]
  rw [checkChildren]
  cases hnode : g.hasNode p with
  | false => simp
  | true =>
    rw [if_pos rfl, forM_eq_ok_iff]
    simp only [hleads, true_and]
    refine forall₂_congr fun c _ => ?_
    cases g.hasNode c with
    | true => simp
    | false => simp

/-- The check passes if all edges are between nodes. -/
theorem checkIntegrity_eq_ok_iff :
    checkIntegrity g = .ok () ↔
      (∀ p ∈ g.edges, g.hasNode p = true) ∧ ∀ p c, g.Leads p c → g.hasNode c = true := by
  rw [checkIntegrity, forM_eq_ok_iff]
  constructor
  · intro h
    have hkey (p : Name) (l : List Name) (hl : g.edges.lookup p = some l) :=
      (checkChildren_eq_ok_iff hl).1 (h ⟨p, l⟩ (AList.mem_lookup_iff.1 hl))
    refine ⟨fun p hp => ?_, fun p c hleads => ?_⟩
    · obtain ⟨l, hl⟩ := Option.isSome_iff_exists.1 (AList.lookup_isSome.2 hp)
      exact (hkey p l hl).1
    · obtain ⟨l, hl, -⟩ := Graph.leads_iff.1 hleads
      exact (hkey p l hl).2 c hleads
  · rintro ⟨hkeys, hleads⟩ ⟨p, l⟩ hmem
    have hl : g.edges.lookup p = some l := AList.mem_lookup_iff.2 hmem
    refine (checkChildren_eq_ok_iff hl).2 ⟨hkeys p ?_, hleads p⟩
    rw [← AList.lookup_isSome, hl]
    rfl

end WazAISentinel.Builder
