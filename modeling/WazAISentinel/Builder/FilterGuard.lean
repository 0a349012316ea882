
import WazAISentinel.Builder.Subgraph

/-!
# Filters guard their parent

`buildSubgraph` goes through the filters once for each namespace of the assets. A filter whose
parent has been added is injected in that round, and in the next round a second time, which throws.
So a graph is returned exactly if no filter has its parent in a namespace before the last one, and
then every way from a parent to an asset goes through all filters of that parent.
-/

namespace WazAISentinel.Builder

open Foundations List

variable {π : Type}

/-- The assets of one type and the filters of a policy. The names are of the kinds accepted for the
type and for filters, each in one namespace; every parent that is listed is there; each filter has
one asset as its parent. -/
structure FilteredPolicy (assetType : AssetType) (subgraphData filtersData : SubgraphData)
    (assets filters : AList fun _ : Name => Asset π) : Prop where
  notFilter : assetType ≠ .filter
  accepts : ∀ c ∈ subgraphData.names, assetType.accepts c = true
  filtersAccept : ∀ f ∈ filtersData.names, isFilter f = true
  nodup : subgraphData.names.Nodup
  filtersNodup : filtersData.names.Nodup
  built : ∀ c ∈ subgraphData.names, ∃ asset, assets.lookup c = some asset ∧
    ∀ p ∈ asset.parents, p = assetType.input ∨ p ∈ subgraphData.names
  filtersBuilt : ∀ f ∈ filtersData.names, ∃ filter parent, filters.lookup f = some filter ∧
    filter.parents = [parent] ∧ parent ∈ subgraphData.names

/-- The filter `f` has `p` as its parent. -/
def FilterOf (filters : AList fun _ : Name => Asset π) (f p : Name) : Prop :=
  ∃ filter, filters.lookup f = some filter ∧ p ∈ filter.parents

/-- The asset `c` lists `p` as a parent. -/
def ListsParent (assets : AList fun _ : Name => Asset π) (c p : Name) : Prop :=
  ∃ asset, assets.lookup c = some asset ∧ p ∈ asset.parents

/-! ## Names of different kinds -/

variable {name f p parent : Name} {g g' : AssetGraph π} {filter : Asset π} {l : List Name}
  {assetType : AssetType}

theorem isOfPart_iff {part : String} :
    isOfPart part name = true ↔ name.head? = some part ∧ name.length = 3 := by
  simp [isOfPart]

theorem isOfPart_of_accepts (h : assetType.accepts name = true) :
    isOfPart assetType.str name = true := by
  cases assetType with
  | decoder | rule | output | filter => exact h

theorem AssetType.str_ne_filter (h : assetType ≠ .filter) : assetType.str ≠ "filter" := by
  cases assetType with
  | decoder => decide
  | rule => decide
  | output => decide
  | filter => exact absurd rfl h

section Policy

variable {subgraphData filtersData : SubgraphData} {assets filters : AList fun _ : Name => Asset π}

section

variable (h : FilteredPolicy assetType subgraphData filtersData assets filters)

include h

theorem FilteredPolicy.input_notMem :
    assetType.input ∉ subgraphData.names := by
  intro hmem
  have hlen := (isOfPart_iff.1 (isOfPart_of_accepts (h.accepts _ hmem))).2
  exact absurd hlen (by simp [AssetType.input])

theorem FilteredPolicy.filter_notMem (hf : f ∈ filtersData.names) : f ∉ subgraphData.names := by
  intro hmem
  have hasset := (isOfPart_iff.1 (isOfPart_of_accepts (h.accepts _ hmem))).1
  have hfilter := (isOfPart_iff.1 (h.filtersAccept f hf)).1
  exact AssetType.str_ne_filter h.notFilter (Option.some_inj.1 (hasset.symm.trans hfilter))

theorem FilteredPolicy.filter_ne_input (hf : f ∈ filtersData.names) : f ≠ assetType.input := by
  rintro rfl
  have hlen := (isOfPart_iff.1 (h.filtersAccept _ hf)).2
  exact absurd hlen (by simp [AssetType.input])

theorem FilteredPolicy.parents_eq (hf : f ∈ filtersData.names) (hp : FilterOf filters f p) :
    ∃ filter, filters.lookup f = some filter ∧ filter.parents = [p] ∧ p ∈ subgraphData.names := by
  obtain ⟨filter, parent, hfilter, hparents, hparent⟩ := h.filtersBuilt f hf
  obtain ⟨filter', hfilter', hlisted⟩ := hp
  obtain rfl := Option.some_inj.1 (hfilter.symm.trans hfilter')
  obtain rfl : p = parent := by rwa [hparents, mem_singleton] at hlisted
  exact ⟨filter, hfilter, hparents, hparent⟩

end

end Policy

/-! ## Injecting the filters -/

theorem injectFilters_eq (filtersData : SubgraphData) (filters : AList fun _ : Name => Asset π)
    (g : AssetGraph π) :
    injectFilters filtersData filters g = filtersData.names.foldlM (injectFilter filters) g :=
  foldlM_flatMap Prod.snd filtersData.assets g

/-- The graph with all assets and some of the filters. -/
structure Filtered (subgraphName : Name) (names : List Name)
    (assets filters : AList fun _ : Name => Asset π)
    (injected : List Name) (g : AssetGraph π) : Prop where
  hasNode : ∀ k, g.hasNode k = true ↔ k = subgraphName ∨ k ∈ names ∨ k ∈ injected
  nodup : ∀ p, (g.childrenOf p).Nodup
  keys : ∀ p ∈ g.edges, g.hasNode p = true
  ends : ∀ a b, g.Leads a b → g.hasNode a = true ∧ g.hasNode b = true
  reaches : ∀ c ∈ names, ∀ p, Lists subgraphName assets c p → Relation.TransGen g.Leads p c
  guards : ∀ f ∈ injected, ∀ p ∈ names, FilterOf filters f p → ∀ c ∈ names, Guards g.Leads p f c

section Inject

variable {subgraphName : Name} {names : List Name} {assets filters : AList fun _ : Name => Asset π}

theorem Wired.filtered (h : Wired subgraphName assets names g)
    (hpresent : ∀ c ∈ names, ∀ p, Lists subgraphName assets c p → p = subgraphName ∨ p ∈ names) :
    Filtered subgraphName names assets filters [] g := by
  have hends : ∀ a b, g.Leads a b → g.hasNode a = true ∧ g.hasNode b = true := by
    intro a b hleads
    obtain ⟨hb, hlists⟩ := (h.leads a b).1 hleads
    exact ⟨(h.hasNode a).2 (hpresent b hb a hlists), (h.hasNode b).2 (.inr hb)⟩
  refine ⟨fun k => ?_, h.nodup, fun p hp => ?_, hends, fun c hc p hlists => ?_,
    fun f hf => absurd hf not_mem_nil⟩
  · rw [h.hasNode]
    simp
  · obtain ⟨c, hc⟩ := h.keys p hp
    exact (hends p c hc).1
  · exact .single ((h.leads p c).2 ⟨hc, hlists⟩)

theorem Filtered.injectFilter {injected : List Name}
    (h : Filtered subgraphName names assets filters injected g)
    (hfilter : filters.lookup f = some filter) (hparents : filter.parents = [parent])
    (hparent : parent ∈ names) (hnames : f ∉ names) (hinput : f ≠ subgraphName)
    (hinjected : f ∉ injected) :
    ∃ g', Builder.injectFilter filters g f = .ok g' ∧
      Filtered subgraphName names assets filters (injected ++ [f]) g' := by
  have hnode : g.hasNode f = false := by
    rw [← Bool.not_eq_true, h.hasNode, not_or, not_or]
    exact ⟨hinput, hnames, hinjected⟩
  have hfrom (b : Name) : ¬ g.Leads f b := fun hleads => by
    rw [(h.ends f b hleads).1] at hnode
    cases hnode
  have hto (a : Name) : ¬ g.Leads a f := fun hleads => by
    rw [(h.ends a f hleads).2] at hnode
    cases hnode
  have hchildren : g.childrenOf f = [] := eq_nil_iff_forall_not_mem.2 hfrom
  have hne : parent ≠ f := ne_of_mem_of_not_mem hparent hnames
  have hhas : g.hasNode parent = true := (h.hasNode parent).2 (.inr (.inl hparent))
  obtain ⟨g', hrun, hhas', hchildren', hkeys'⟩ :=
    Graph.injectNode_spec filter hnode hchildren (h.nodup parent)
  have hsplice : g'.Leads = Spliced g.Leads parent f :=
    funext fun a => funext fun b => propext (Graph.leads_iff_spliced hne hchildren' a b)
  have hold (k : Name) (hk : g.hasNode k = true) : g'.hasNode k = true := by
    rw [hhas', hk, Bool.or_true]
  have hself : g'.hasNode f = true := by
    rw [hhas']
    simp
  refine ⟨g', ?_, ?_⟩
  · rw [Builder.injectFilter, hfilter]
    dsimp only
    rw [hparents, foldlM_cons, if_pos hhas, hrun]
    rfl
  · constructor
    · intro k
      rw [hhas', Bool.or_eq_true, decide_eq_true_eq, h.hasNode, mem_append, mem_singleton]
      tauto
    · intro p
      rw [hchildren']
      split
      · exact nodup_singleton f
      · split
        · exact h.nodup parent
        · exact h.nodup p
    · intro p hp
      rcases hkeys' p hp with rfl | rfl | hp
      · exact hold p hhas
      · exact hself
      · exact hold p (h.keys p hp)
    · intro a b hleads
      rw [hsplice] at hleads
      rcases hleads with ⟨rfl, rfl⟩ | ⟨rfl, hleads⟩ | ⟨-, -, hleads⟩
      · exact ⟨hold a hhas, hself⟩
      · exact ⟨hself, hold b (h.ends parent b hleads).2⟩
      · exact ⟨hold a (h.ends a b hleads).1, hold b (h.ends a b hleads).2⟩
    · intro c hc p hlists
      rw [hsplice]
      exact transGen_spliced hfrom (h.reaches c hc p hlists)
    · intro f' hf' p hmem hp c hc
      rw [hsplice]
      rcases mem_append.1 hf' with hf' | hf'
      · have hguards := h.guards f' hf' p hmem hp c hc
        exact hguards.spliced hne hto (ne_of_mem_of_not_mem hmem hnames)
          (ne_of_mem_of_not_mem hc hnames)
      · obtain rfl := mem_singleton.1 hf'
        obtain ⟨filter', hfilter', hlisted⟩ := hp
        obtain rfl := Option.some_inj.1 (hfilter.symm.trans hfilter')
        rw [hparents, mem_singleton] at hlisted
        subst hlisted
        exact guards_spliced_self hne c

end Inject

/-! ## When a graph is returned -/

/-- The namespace of `p` is not visited before another one. -/
def InLastNamespace (subgraphData : SubgraphData) (p : Name) : Prop :=
  ∀ entry ∈ subgraphData.assets.dropLast, p ∉ entry.2

section Returns

variable {subgraphData filtersData : SubgraphData} {assets filters : AList fun _ : Name => Asset π}

section

variable (h : FilteredPolicy assetType subgraphData filtersData assets filters)

include h

theorem FilteredPolicy.present {c : Name} (hc : c ∈ subgraphData.names)
    (hlists : Lists assetType.input assets c p) : p = assetType.input ∨ p ∈ subgraphData.names := by
  obtain ⟨asset, hasset, hp⟩ := hlists
  obtain ⟨asset', hasset', hparents⟩ := h.built c hc
  obtain rfl := Option.some_inj.1 (hasset.symm.trans hasset')
  rw [effectiveParents] at hp
  split at hp
  · exact .inl (mem_singleton.1 hp)
  · exact hparents p hp

/-- No filter is injected while none of the parents is there. -/
theorem FilteredPolicy.injectFilters_none
    (habsent : ∀ f ∈ filtersData.names, ∀ p, FilterOf filters f p → g.hasNode p = false) :
    injectFilters filtersData filters g = .ok g := by
  rw [injectFilters_eq]
  have hsame : ∃ g', filtersData.names.foldlM (Builder.injectFilter filters) g = .ok g' ∧
      g' = g := by
    refine foldlM_returns (fun _ g' => g' = g) rfl ?_
    rintro front f back g' heq rfl
    have hf : f ∈ filtersData.names := heq ▸ mem_append_right front mem_cons_self
    obtain ⟨filter, parent, hfilter, hparents, -⟩ := h.filtersBuilt f hf
    have hparent :=
      habsent f hf parent ⟨filter, hfilter, by rw [hparents]; exact mem_singleton_self parent⟩
    refine ⟨g', ?_, rfl⟩
    rw [Builder.injectFilter, hfilter]
    dsimp only
    rw [hparents, foldlM_cons, hparent, if_neg Bool.false_ne_true]
    rfl
  obtain ⟨g', hrun, rfl⟩ := hsame
  exact hrun

/-- All filters are injected once all assets are there. -/
theorem FilteredPolicy.injectFilters_all
    (hg : Filtered assetType.input subgraphData.names assets filters [] g) :
    ∃ g', injectFilters filtersData filters g = .ok g' ∧
      Filtered assetType.input subgraphData.names assets filters filtersData.names g' := by
  rw [injectFilters_eq]
  refine foldlM_returns (Filtered assetType.input subgraphData.names assets filters) hg ?_
  intro front f back g' heq hg'
  have hf : f ∈ filtersData.names := heq ▸ mem_append_right front mem_cons_self
  have hfront : f ∉ front := by
    have hnodup := h.filtersNodup
    rw [heq] at hnodup
    exact fun hmem => disjoint_of_nodup_append hnodup hmem mem_cons_self
  obtain ⟨filter, parent, hfilter, hparents, hparent⟩ := h.filtersBuilt f hf
  exact hg'.injectFilter hfilter hparents hparent (h.filter_notMem hf) (h.filter_ne_input hf) hfront

/-- The assets of the next namespace are added. -/
theorem FilteredPolicy.addAssets {done added rest : List Name}
    (hnames : subgraphData.names = done ++ added ++ rest)
    (hg : Wired assetType.input assets done g) :
    ∃ g', added.foldlM (addAsset assetType.input assets) g = .ok g' ∧
      Wired assetType.input assets (done ++ added) g' := by
  have hsub : ∀ c ∈ added, c ∈ subgraphData.names := by
    intro c hc
    rw [hnames]
    exact mem_append_left _ (mem_append_right _ hc)
  have hnodup := h.nodup
  rw [hnames] at hnodup
  refine hg.addAssets (fun c hc => ?_) (fun hmem => h.input_notMem (hsub _ hmem))
    hnodup.of_append_left
  exact (h.built c (hsub c hc)).imp fun _ hasset => hasset.1

/-- The rounds before the last one only add assets. -/
theorem FilteredPolicy.addNamespaces {front back : List (NamespaceId × List Name)}
    (hsplit : subgraphData.assets = front ++ back) (hg : Wired assetType.input assets [] g)
    (hlate : ∀ f ∈ filtersData.names, ∀ p, FilterOf filters f p → ∀ entry ∈ front, p ∉ entry.2) :
    ∃ g', front.foldlM (addNamespace assetType.input filtersData assets filters) g = .ok g' ∧
      Wired assetType.input assets (front.flatMap Prod.snd) g' := by
  refine foldlM_returns (fun done g => Wired assetType.input assets (done.flatMap Prod.snd) g) hg ?_
  intro done entry rest g hdone hwired
  have hnames :
      subgraphData.names = done.flatMap Prod.snd ++ entry.2 ++ (rest ++ back).flatMap Prod.snd := by
    rw [SubgraphData.names, hsplit, hdone]
    simp
  obtain ⟨g1, hrun, hg1⟩ := h.addAssets hnames hwired
  refine ⟨g1, ?_, by simpa using hg1⟩
  rw [addNamespace, hrun]
  refine h.injectFilters_none fun f hf p hp => ?_
  rw [← Bool.not_eq_true, hg1.hasNode]
  rintro (rfl | hmem)
  · obtain ⟨filter, -, -, hparent⟩ := h.parents_eq hf hp
    exact h.input_notMem hparent
  · have hmem' : p ∈ (done ++ [entry]).flatMap Prod.snd := by simpa using hmem
    obtain ⟨entry', hentry', hp'⟩ := mem_flatMap.1 hmem'
    refine hlate f hf p hp entry' ?_ hp'
    rw [hdone, append_cons]
    exact mem_append_left rest hentry'

/-- With all parents in the last namespace a graph is returned. -/
theorem FilteredPolicy.returns [Inhabited π]
    (hlast : ∀ f ∈ filtersData.names, ∀ p, FilterOf filters f p → InLastNamespace subgraphData p) :
    ∃ g, buildSubgraph assetType.input subgraphData filtersData assets filters = .ok g ∧
      Filtered assetType.input subgraphData.names assets filters filtersData.names g := by
  have hcreate := wired_create assetType.input assets
  -- the check at the end passes on what the loop returns
  suffices hloop :
      ∃ g, subgraphData.assets.foldlM (addNamespace assetType.input filtersData assets filters)
      (Graph.create assetType.input Asset.empty) = .ok g ∧
        Filtered assetType.input subgraphData.names assets filters filtersData.names g by
    obtain ⟨g, hrun, hg⟩ := hloop
    refine ⟨g, ?_, hg⟩
    rw [buildSubgraph, hrun]
    change Except.map _ (checkIntegrity g) = _
    rw [checkIntegrity_eq_ok_iff.2 ⟨hg.keys, fun p c hleads => (hg.ends p c hleads).2⟩]
    rfl
  rcases eq_nil_or_concat subgraphData.assets with hnil | ⟨front, last, hconcat⟩
  · have hnames : subgraphData.names = [] := by
      rw [SubgraphData.names, hnil]
      rfl
    have hfilters : filtersData.names = [] := by
      refine eq_nil_iff_forall_not_mem.2 fun f hf => ?_
      obtain ⟨filter, parent, -, -, hparent⟩ := h.filtersBuilt f hf
      rw [hnames] at hparent
      exact not_mem_nil hparent
    rw [hnil, hnames, hfilters]
    exact ⟨_, rfl, hcreate.filtered fun c hc => absurd hc not_mem_nil⟩
  · rw [concat_eq_append] at hconcat
    obtain ⟨g1, hrun1, hg1⟩ := h.addNamespaces hconcat hcreate fun f hf p hp entry hentry =>
      hlast f hf p hp entry (by rw [hconcat, dropLast_concat]; exact hentry)
    have hnames : subgraphData.names = front.flatMap Prod.snd ++ last.2 := by
      rw [SubgraphData.names, hconcat]
      simp
    obtain ⟨g2, hrun2, hg2⟩ := h.addAssets (hnames.trans (append_nil _).symm) hg1
    rw [← hnames] at hg2
    obtain ⟨g3, hrun3, hg3⟩ :=
      h.injectFilters_all (hg2.filtered fun c hc p hlists => h.present hc hlists)
    refine ⟨g3, ?_, hg3⟩
    rw [hconcat]
    refine foldlM_append_eq_ok.2 ⟨g1, hrun1, foldlM_cons_eq_ok.2 ⟨g3, ?_, rfl⟩⟩
    exact bind_eq_ok.2 ⟨g2, hrun2, hrun3⟩

end

end Returns

/-! ## Filters that are injected twice -/

/-- No node goes away. -/
def Grows (g g' : AssetGraph π) : Prop := ∀ k, g.hasNode k = true → g'.hasNode k = true

section Grows

variable {subgraphName : Name} {filtersData : SubgraphData}
  {assets filters : AList fun _ : Name => Asset π}

theorem nodes_of_foldlM_addEdge (src dst : Name → Name)
    (h : l.foldlM (fun (g : AssetGraph π) k => g.addEdge (src k) (dst k)) g = .ok g') :
    g'.nodes = g.nodes := by
  refine foldlM_invariant (P := fun b => b.nodes = g.nodes) h rfl fun k _ b b' hb hadd => ?_
  rw [(Graph.addEdge_eq_ok.1 hadd).2]
  exact hb

theorem hasNode_of_injectNode {id : Name} {node : Asset π}
    (h : g.injectNode id node parent = .ok g') :
    g.hasNode id = false ∧ ∀ k, g'.hasNode k = (k = id || g.hasNode k) := by
  obtain ⟨g1, hadd, hrest⟩ := bind_eq_ok.1 h
  obtain ⟨g2, hloop, hlast⟩ := bind_eq_ok.1 hrest
  obtain ⟨hnode, hg1⟩ := (Graph.addNode_eq_ok node).1 hadd
  refine ⟨hnode, fun k => ?_⟩
  have hloop' := nodes_of_foldlM_addEdge (fun _ => id) (fun k => k) hloop
  have hnodes : g'.nodes = g1.nodes := by
    rw [(Graph.addEdge_eq_ok.1 hlast).2]
    exact hloop'
  rw [Graph.hasNode, hnodes, ← Graph.hasNode, hg1, Graph.hasNode_insert]

theorem hasNode_of_addAsset {assetName : Name}
    (h : addAsset subgraphName assets g assetName = .ok g') :
    Grows g g' ∧ g'.hasNode assetName = true := by
  obtain ⟨asset, -, -, hloop⟩ := of_addAsset_eq_ok h
  have hnodes := nodes_of_foldlM_addEdge (fun k => k) (fun _ => assetName) hloop
  have hhas (k : Name) : g'.hasNode k = (k = assetName || g.hasNode k) := by
    rw [Graph.hasNode, hnodes, ← Graph.hasNode_insert g assetName asset, Graph.hasNode]
  refine ⟨fun k hk => ?_, ?_⟩
  · rw [hhas, hk, Bool.or_true]
  · rw [hhas]
    simp

theorem grows_of_injectFilter (h : injectFilter filters g f = .ok g') : Grows g g' := by
  cases hlookup : filters.lookup f with
  | none =>
    rw [injectFilter, hlookup] at h
    cases h
  | some filter =>
    rw [injectFilter, hlookup] at h
    refine foldlM_invariant (P := Grows g) h (fun k hk => hk) fun p _ b b' hb hstep => ?_
    split at hstep
    · intro k hk
      rw [(hasNode_of_injectNode (fromGraph_eq_ok.1 hstep)).2, hb k hk, Bool.or_true]
    · obtain rfl := Except.ok.inj hstep
      exact hb

section

variable {step : AssetGraph π → Name → Except BuildError (AssetGraph π)}
  (hstep : ∀ b b' k, step b k = .ok b' → Grows b b') (h : l.foldlM step g = .ok g')

include hstep h

theorem grows_of_foldlM : Grows g g' :=
  foldlM_invariant (P := Grows g) h (fun _ hk => hk) fun _ _ _ _ hb hround k hk =>
    hstep _ _ _ hround k (hb k hk)

/-- The graphs before and behind the round of an element. -/
theorem exists_round {a : Name} (ha : a ∈ l) :
    ∃ g1 g2, Grows g g1 ∧ step g1 a = .ok g2 ∧ Grows g2 g' := by
  obtain ⟨front, back, rfl⟩ := append_of_mem ha
  obtain ⟨g1, hfront, hrest⟩ := foldlM_append_eq_ok.1 h
  obtain ⟨g2, hround, hback⟩ := foldlM_cons_eq_ok.1 hrest
  exact ⟨g1, g2, grows_of_foldlM hstep hfront, hround, grows_of_foldlM hstep hback⟩

end

/-- A filter whose parent is there must not have been injected, and then is. -/
theorem hasNode_of_injectFilters (hf : f ∈ filtersData.names)
    (hfilter : filters.lookup f = some filter) (hparents : filter.parents = [p])
    (hp : g.hasNode p = true) (h : injectFilters filtersData filters g = .ok g') :
    g.hasNode f = false ∧ g'.hasNode f = true := by
  rw [injectFilters_eq] at h
  obtain ⟨g1, g2, hgrows, hstep, hgrows'⟩ := exists_round (fun _ _ _ => grows_of_injectFilter) h hf
  rw [injectFilter, hfilter] at hstep
  dsimp only at hstep
  rw [hparents] at hstep
  obtain ⟨g3, hinject, hlast⟩ := foldlM_cons_eq_ok.1 hstep
  obtain rfl := Except.ok.inj hlast
  rw [if_pos (hgrows p hp)] at hinject
  obtain ⟨hnode, hhas⟩ := hasNode_of_injectNode (fromGraph_eq_ok.1 hinject)
  refine ⟨?_, hgrows' f (by simp [hhas])⟩
  rw [← Bool.not_eq_true]
  intro hbefore
  rw [hgrows f hbefore] at hnode
  cases hnode

end Grows

/-- Otherwise the filter would have been injected in the round of that namespace, and in the next
one again. -/
theorem FilteredPolicy.inLastNamespace_of_returns [Inhabited π]
    {subgraphData filtersData : SubgraphData} {assets filters : AList fun _ : Name => Asset π}
    (h : FilteredPolicy assetType subgraphData filtersData assets filters)
    (hrun : buildSubgraph assetType.input subgraphData filtersData assets filters = .ok g)
    (hf : f ∈ filtersData.names) (hp : FilterOf filters f p) : InLastNamespace subgraphData p := by
  intro entry hentry hmem
  obtain ⟨filter, hfilter, hparents, -⟩ := h.parents_eq hf hp
  -- a round comes after the one of this namespace
  obtain ⟨front, next, back, hsplit⟩ :
      ∃ front next back, subgraphData.assets = front ++ entry :: next :: back := by
    obtain ⟨front, rest, hdrop⟩ := append_of_mem hentry
    have hne : subgraphData.assets ≠ [] := by
      rintro hnil
      rw [hnil] at hentry
      exact not_mem_nil hentry
    have hall := dropLast_append_getLast hne
    rw [hdrop, append_assoc, cons_append] at hall
    cases rest with
    | nil => exact ⟨front, _, [], hall.symm⟩
    | cons next rest => exact ⟨front, next, rest ++ [subgraphData.assets.getLast hne], hall.symm⟩
  obtain ⟨g0, hloop, -⟩ := bind_eq_ok.1 hrun
  rw [hsplit] at hloop
  obtain ⟨g1, -, hrest⟩ := foldlM_append_eq_ok.1 hloop
  obtain ⟨g2, hround, hrest'⟩ := foldlM_cons_eq_ok.1 hrest
  obtain ⟨g3, hround', -⟩ := foldlM_cons_eq_ok.1 hrest'
  obtain ⟨g1', hassets, hinject⟩ := bind_eq_ok.1 hround
  obtain ⟨g2', hassets', hinject'⟩ := bind_eq_ok.1 hround'
  obtain ⟨_, _, -, hadd, hlast⟩ :=
    exists_round (fun _ _ _ hadd => (hasNode_of_addAsset hadd).1) hassets hmem
  have hp1 := hlast p (hasNode_of_addAsset hadd).2
  have hf2 := (hasNode_of_injectFilters hf hfilter hparents hp1 hinject).2
  rw [injectFilters_eq] at hinject
  have hgrows := grows_of_foldlM (fun _ _ _ hadd => (hasNode_of_addAsset hadd).1) hassets'
  have hp2 := hgrows p (grows_of_foldlM (fun _ _ _ => grows_of_injectFilter) hinject p hp1)
  have hnode := (hasNode_of_injectFilters hf hfilter hparents hp2 hinject').1
  rw [hgrows f hf2] at hnode
  cases hnode

/-- A graph in which every asset is reached from each of its parents, and only through all filters
of that parent, is returned exactly if every filter's parent is in the namespace visited last. -/
theorem filters_guard_iff [Inhabited π] (assetType : AssetType)
    (subgraphData filtersData : SubgraphData) (assets filters : AList fun _ : Name => Asset π)
    (h : FilteredPolicy assetType subgraphData filtersData assets filters) :
    (∃ g, buildSubgraph assetType.input subgraphData filtersData assets filters = .ok g ∧
      ∀ c ∈ subgraphData.names, ∀ p, ListsParent assets c p → Relation.TransGen g.Leads p c ∧
        ∀ f ∈ filtersData.names, FilterOf filters f p → Guards g.Leads p f c) ↔
      ∀ f ∈ filtersData.names, ∀ p, FilterOf filters f p → InLastNamespace subgraphData p := by
  constructor
  · rintro ⟨g, hrun, -⟩ f hf p hp
    exact h.inLastNamespace_of_returns hrun hf hp
  · intro hlast
    obtain ⟨g, hrun, hg⟩ := h.returns hlast
    refine ⟨g, hrun, ?_⟩
    rintro c hc p ⟨asset, hasset, hlisted⟩
    have hlists : Lists assetType.input assets c p := by
      refine ⟨asset, hasset, ?_⟩
      rw [effectiveParents, if_neg (ne_nil_of_mem hlisted)]
      exact hlisted
    refine ⟨hg.reaches c hc p hlists, fun f hf hp => ?_⟩
    obtain ⟨-, -, -, hmem⟩ := h.parents_eq hf hp
    exact hg.guards f hf p hmem hp c hc

/-- Two decoders in two namespaces, the second with the first as its parent, and a filter on the
first. -/
def twoDecoders : AList fun _ : Name => Asset Nat :=
  ((∅ : AList _).insert ["decoder", "a", "0"] ⟨["decoder", "a", "0"], 1, [], nodup_nil⟩).insert
    ["decoder", "b", "0"]
    ⟨["decoder", "b", "0"], 2, [["decoder", "a", "0"]], nodup_singleton _⟩

/-- A filter of one decoder. -/
def oneFilter : AList fun _ : Name => Asset Nat :=
  (∅ : AList _).insert ["filter", "f", "0"]
    ⟨["filter", "f", "0"], 3, [["decoder", "a", "0"]], nodup_singleton _⟩

theorem filteredPolicy_twoDecoders {entries : List (NamespaceId × List Name)}
    (h : entries = [("user", [["decoder", "b", "0"]]), ("wazuh", [["decoder", "a", "0"]])] ∨
    entries = [("wazuh", [["decoder", "a", "0"]]), ("user", [["decoder", "b", "0"]])]) :
    FilteredPolicy .decoder ⟨[], entries⟩ ⟨[], [("wazuh", [["filter", "f", "0"]])]⟩ twoDecoders
      oneFilter := by
  have hmem (c : Name) : c ∈ (SubgraphData.mk [] entries).names ↔
      c = ["decoder", "a", "0"] ∨ c = ["decoder", "b", "0"] := by
    rcases h with rfl | rfl
    · simp [SubgraphData.names, or_comm]
    · simp [SubgraphData.names]
  have hfilter (f : Name)
      (hf : f ∈ (SubgraphData.mk [] [("wazuh", [["filter", "f", "0"]])]).names) :
      f = ["filter", "f", "0"] := by
    simpa [SubgraphData.names] using hf
  refine ⟨by decide, fun c hc => ?_, fun f hf => ?_, ?_, by decide, fun c hc => ?_, fun f hf => ?_⟩
  · rcases (hmem c).1 hc with rfl | rfl
    · rfl
    · rfl
  · obtain rfl := hfilter f hf
    rfl
  · rcases h with rfl | rfl
    · decide
    · decide
  · rcases (hmem c).1 hc with rfl | rfl
    · exact ⟨_, rfl, fun p hp => absurd hp not_mem_nil⟩
    · exact ⟨_, rfl, fun p hp => .inr ((hmem p).2 (.inl (mem_singleton.1 hp)))⟩
  · obtain rfl := hfilter f hf
    exact ⟨_, ["decoder", "a", "0"], rfl, rfl, (hmem _).2 (.inl rfl)⟩

/-- With the namespace of the filter's parent visited last, the second decoder is behind the
filter. -/
theorem filters_guard_iff_lastNamespace :
    ∃ g, buildSubgraph AssetType.decoder.input
      ⟨[], [("user", [["decoder", "b", "0"]]), ("wazuh", [["decoder", "a", "0"]])]⟩
        ⟨[], [("wazuh", [["filter", "f", "0"]])]⟩ twoDecoders oneFilter = .ok g ∧
      Relation.TransGen g.Leads ["decoder", "a", "0"] ["decoder", "b", "0"] ∧
      Guards g.Leads ["decoder", "a", "0"] ["filter", "f", "0"] ["decoder", "b", "0"] := by
  obtain ⟨g, hrun, hguards⟩ :=
    (filters_guard_iff .decoder _ _ twoDecoders oneFilter (filteredPolicy_twoDecoders (.inl rfl))).2
      (by
        rintro f hf p ⟨filter, hfilter, hp⟩ entry hentry hmem
        obtain rfl : f = ["filter", "f", "0"] := by simpa [SubgraphData.names] using hf
        obtain rfl := Option.some_inj.1 hfilter
        obtain rfl := mem_singleton.1 hp
        obtain rfl := mem_singleton.1 hentry
        exact absurd hmem (by decide))
  obtain ⟨hreach, hguard⟩ := hguards ["decoder", "b", "0"] (by decide) ["decoder", "a", "0"]
    ⟨_, rfl, mem_singleton_self _⟩
  exact ⟨g, hrun, hreach, hguard _ (by decide) ⟨_, rfl, mem_singleton_self _⟩⟩

/-- With that namespace visited first, the filter is injected in the first round and again in the
second, which throws. -/
theorem filter_injected_twice :
    FilteredPolicy .decoder
      ⟨[], [("wazuh", [["decoder", "a", "0"]]), ("user", [["decoder", "b", "0"]])]⟩
        ⟨[], [("wazuh", [["filter", "f", "0"]])]⟩ twoDecoders oneFilter ∧
      buildSubgraph AssetType.decoder.input
        ⟨[], [("wazuh", [["decoder", "a", "0"]]), ("user", [["decoder", "b", "0"]])]⟩
        ⟨[], [("wazuh", [["filter", "f", "0"]])]⟩ twoDecoders oneFilter =
        .error (.graph (.nodeExists ["filter", "f", "0"])) :=
  ⟨filteredPolicy_twoDecoders (.inr rfl), rfl⟩

end WazAISentinel.Builder
