import WazAISentinel.Builder.PolicyBuilding
import WazAISentinel.Foundations.PreorderWalk

/-!
# Running the expression of a policy

What is evaluated when the expression of a policy runs, with `Or` for decoders and `Broadcast` for
rules and outputs. An asset with several parents stands below each of them and is evaluated on each
way down on which the assets before it succeed: on all of them by `Broadcast`, on some by `Or`.
-/

namespace WazAISentinel.Builder

open Base (Expression OperationType)
open Foundations List

variable {π : Type}

/-! ## The assets that are tried -/

/-- The children in the order of `childOperands`. -/
def childOrder (op : OperationType) (reverseOrder : Bool) (children : List Name) : List Name :=
  if reverseOrder && op = .or then children.reverse else children

/-- The operands that are evaluated: those of `Or` up to the first that succeeds, and all of the
others. -/
def tried (op : OperationType) (ok : Name → Bool) : List Name → List Name
  | [] => []
  | c :: cs => if op = .or ∧ ok c = true then [c] else c :: tried op ok cs

/-- What is evaluated below an asset. -/
def triedBelow (op : OperationType) (reverseOrder : Bool) (g : AssetGraph π) (ok : Name → Bool)
    (k : Name) : List Name :=
  if ok k then tried op ok (childOrder op reverseOrder (g.childrenOf k)) else []

variable {c b k : Name} {cs w : List Name} {es : List (Expression π)} {e : Expression π}
  {ok : Name → Bool}

theorem mem_childOrder {op : OperationType} {reverseOrder : Bool} {children : List Name} :
    c ∈ childOrder op reverseOrder children ↔ c ∈ children := by
  rw [childOrder]
  split
  · exact mem_reverse
  · rfl

theorem tried_sublist (op : OperationType) (ok : Name → Bool) (cs : List Name) :
    (tried op ok cs).Sublist cs := by
  induction cs with
  | nil => exact .slnil
  | cons c cs ih =>
    rw [tried]
    split
    · exact (nil_sublist cs).cons_cons c
    · exact ih.cons_cons c

theorem tried_of_ne_or {op : OperationType} (hop : op ≠ .or) : tried op ok cs = cs := by
  induction cs with
  | nil => rfl
  | cons c cs ih => rw [tried, if_neg fun h => hop h.1, ih]

theorem tried_last {m m' : List Name} (h : tried .or ok cs = m ++ b :: m') (hb : ok b = true) :
    m' = [] := by
  induction cs generalizing m with
  | nil => exact absurd h (by simp [tried])
  | cons c cs ih =>
    rw [tried] at h
    split_ifs at h with hc
    · cases m with
      | nil => exact (cons.inj h).2.symm
      | cons d m => exact absurd (cons.inj h).2 (by simp)
    · cases m with
      | nil =>
        obtain ⟨rfl, -⟩ := cons.inj h
        exact absurd ⟨rfl, hb⟩ hc
      | cons d m => exact ih (cons.inj h).2

section Run

variable {op : OperationType} {reverseOrder : Bool} {g : AssetGraph π}

theorem leads_of_mem_triedBelow (h : c ∈ triedBelow op reverseOrder g ok k) :
    g.Leads k c ∧ ok k = true := by
  rw [triedBelow] at h
  split_ifs at h with hk
  · exact ⟨mem_childOrder.1 ((tried_sublist op ok _).subset h), hk⟩
  · exact absurd h not_mem_nil

theorem selects_triedBelow : Selects (triedBelow .or reverseOrder g ok) ok where
  nil k hk := by rw [triedBelow, hk, if_neg Bool.false_ne_true]
  last k m b m' h hb := by
    rw [triedBelow] at h
    split at h
    · exact tried_last h hb
    · exact absurd h (by simp)

theorem nodup_triedBelow (hnodup : ∀ p, (g.childrenOf p).Nodup) (k : Name) :
    (triedBelow op reverseOrder g ok k).Nodup := by
  rw [triedBelow]
  split
  · refine (tried_sublist op ok _).nodup ?_
    rw [childOrder]
    split
    · exact nodup_reverse.2 (hnodup k)
    · exact hnodup k
  · exact nodup_nil

/-! ## The run of an expression is a walk -/

/-- The run of `e` evaluates the assets at which a walk from `k` arrives, and gives the result of
`k`. -/
def RunsFrom (next : Name → List Name) (ok : Name → Bool) (expr : Name → Option π)
    (outcome : π → Bool) (k : Name) (e : Expression π) : Prop :=
  (e.run outcome).2 = ok k ∧ ∃ ways, Walks next k ways ∧
    (e.run outcome).1.map some = (ends ways).map expr

variable {next : Name → List Name} {expr : Name → Option π} {outcome : π → Bool}

/-- What is evaluated below an asset, with the asset itself in front. -/
theorem exists_walk_from {p : π} {formulas : List π} {below : List (List (List Name))}
    (hk : expr k = some p) (hnext : next k = cs) (hbelow : WalksAll next cs below)
    (hrun : formulas.map some = (ends below.flatten).map expr) :
    ∃ ways, Walks next k ways ∧ (p :: formulas).map some = (ends ways).map expr := by
  subst hnext
  refine ⟨_, .node hbelow, ?_⟩
  rw [ends_node hbelow, map_cons, hrun, map_cons, hk]

section

variable (h : List.Forall₂ (RunsFrom next ok expr outcome) cs es)

include h

theorem runAll_walks (hop : op ≠ .or) :
    ∃ below, WalksAll next (tried op ok cs) below ∧
      (Expression.runAll outcome es).map some = (ends below.flatten).map expr := by
  rw [tried_of_ne_or hop]
  induction h with
  | nil => exact ⟨[], .nil, rfl⟩
  | cons hhead _ ih =>
    obtain ⟨-, ways, hways, hrun⟩ := hhead
    obtain ⟨below, hbelow, hall⟩ := ih
    refine ⟨ways :: below, .cons hways hbelow, ?_⟩
    rw [Expression.runAll, map_append, hrun, hall, flatten_cons, ends_append, map_append]

theorem runWhile_walks :
    ∃ below, WalksAll next (tried .or ok cs) below ∧
      (Expression.runWhile outcome false es).1.map some = (ends below.flatten).map expr := by
  induction h with
  | nil => exact ⟨[], .nil, rfl⟩
  | @cons c e cs es hhead _ ih =>
    obtain ⟨hresult, ways, hways, hrun⟩ := hhead
    rw [Expression.runWhile, hresult]
    cases hc : ok c with
    | true =>
      refine ⟨[ways], ?_, ?_⟩
      · rw [tried, if_pos ⟨rfl, hc⟩]
        exact .cons hways .nil
      · rw [if_neg Bool.false_ne_true.symm, flatten_cons, flatten_nil, append_nil]
        exact hrun
    | false =>
      obtain ⟨below, hbelow, hall⟩ := ih
      refine ⟨ways :: below, ?_, ?_⟩
      · rw [tried, if_neg fun hand => Bool.false_ne_true (hc.symm.trans hand.2)]
        exact .cons hways hbelow
      · rw [if_pos rfl, map_append, hrun, hall, flatten_cons, ends_append, map_append]

/-- An operation evaluates the operands that are tried. -/
theorem run_operation_walks (hop : op = .or ∨ op = .broadcast) (name : List String) :
    ∃ below, WalksAll next (tried op ok cs) below ∧
      ((Expression.operation op name es).run outcome).1.map some =
        (ends below.flatten).map expr := by
  rcases hop with rfl | rfl
  · rw [Expression.run]
    exact runWhile_walks h
  · rw [Expression.run]
    exact runAll_walks h (by decide)

end

theorem forall₂_childOperands {R : Name → Expression π → Prop} (h : List.Forall₂ R cs es) :
    List.Forall₂ R (childOrder op reverseOrder cs) (childOperands op reverseOrder es) := by
  rw [childOrder, childOperands]
  split
  · exact forall₂_reverse_iff.2 h
  · exact h

theorem forall₂_imp_mem {α β : Type} {R S : α → β → Prop} {l : List α} {l' : List β}
    (h : List.Forall₂ R l l') (himp : ∀ a ∈ l, ∀ b, R a b → S a b) : List.Forall₂ S l l' := by
  have hmem := (forall₂_and_left l l').2 ⟨fun _ ha => ha, h⟩
  exact hmem.imp fun a b hab => himp a hab.1 b hab.2

section

variable (hop : op = .or ∨ op = .broadcast) (hok : ∀ k p, expr k = some p → ok k = outcome p)
  (hexpr : ∀ p k asset, g.Leads p k → g.nodes.lookup k = some asset →
    expr k = some asset.expression)

include hop hok hexpr

/-- The run of the expression of an asset is a walk from it. -/
theorem runsFrom_of_expands (hground : Grounded g k) {parent : Name} (hparent : g.Leads parent k)
    (h : Expands op reverseOrder g k e) :
    RunsFrom (triedBelow op reverseOrder g ok) ok expr outcome k e := by
  induction hground generalizing parent e with
  | intro k _ ih =>
    cases h with
    | @leaf _ asset hnode hchildren =>
      have hk := hexpr parent k asset hparent hnode
      have hnone : triedBelow op reverseOrder g ok k = [] := by
        simp [triedBelow, hchildren, childOrder, tried]
      rw [RunsFrom, Expression.run]
      exact ⟨(hok k _ hk).symm, exists_walk_from hk hnone .nil rfl⟩
    | @inner _ asset es hnode _ hes =>
      have hk := hexpr parent k asset hparent hnode
      obtain ⟨below, hbelow, hrun⟩ := run_operation_walks
        (forall₂_childOperands (forall₂_imp_mem hes fun c hc e he => ih c hc hc he)) hop
          (asset.name ++ ["Children"])
      rw [RunsFrom, implicationNode, Expression.run, Expression.run, ← hok k _ hk]
      cases hresult : ok k with
      | true => exact ⟨rfl, exists_walk_from hk (if_pos hresult) hbelow hrun⟩
      | false =>
        have hnone : triedBelow op reverseOrder g ok k = [] := by
          rw [triedBelow, hresult, if_neg Bool.false_ne_true]
        exact ⟨rfl, exists_walk_from hk hnone .nil rfl⟩

end

end Run

/-! ## The policy -/

variable (store : Name → Option (AssetDoc π))

/-- The expression of an asset. -/
def expressionOf (c : Name) : Option π :=
  (store c).map AssetDoc.expression

/-- The asset succeeds on the event. -/
def succeeds (outcome : π → Bool) (c : Name) : Bool :=
  (expressionOf store c).any outcome

/-- A way from the input node down to an asset, on which all assets before it succeed. -/
def OpenWay (outcome : π → Bool) (subgraphName : Name)
    (subgraphData : SubgraphData) (assets : AList fun _ : Name => Asset π) (w : List Name) : Prop :=
  ∃ c rest, w = c :: rest ∧ HasParent subgraphName subgraphData assets c subgraphName ∧
    List.IsChain (fun p c => HasParent subgraphName subgraphData assets c p ∧
      succeeds store outcome p = true) w

/-- The formulas that were computed are those of assets, which are reached by the given ways in this
order. -/
structure EvaluatedBy (op : OperationType) (store : Name → Option (AssetDoc π))
    (outcome : π → Bool) (subgraphName : Name) (subgraphData : SubgraphData)
    (assets : AList fun _ : Name => Asset π) (formulas : List π) (ways : List (List Name)) :
    Prop where
  formulas : formulas.map some = (ends ways).map (expressionOf store)
  /-- An asset is evaluated at most once for each way on which the assets before it succeed, -/
  nodup : ways.Nodup
  openWay : ∀ w ∈ ways, OpenWay store outcome subgraphName subgraphData assets w
  /-- once for each by `Broadcast`, -/
  all : op = .broadcast → ∀ w, OpenWay store outcome subgraphName subgraphData assets w → w ∈ ways
  /-- and so at most once in a policy in which every asset has one parent. -/
  once : (∀ c p q, HasParent subgraphName subgraphData assets c p →
    HasParent subgraphName subgraphData assets c q → p = q) → (ends ways).Nodup
  /-- A parent of the asset has been evaluated before it, and succeeds. -/
  after : ∀ before c rest, ends ways = before ++ c :: rest →
    HasParent subgraphName subgraphData assets c subgraphName ∨
    ∃ p ∈ before, HasParent subgraphName subgraphData assets c p ∧ succeeds store outcome p = true
  /-- With `Or` the assets that succeed do so once, and each is a child of the one before it. -/
  chain : op = .or → ((ends ways).filter (succeeds store outcome)).Nodup ∧
    List.IsChain (fun p c => HasParent subgraphName subgraphData assets c p)
      (subgraphName :: (ends ways).filter (succeeds store outcome))

section Policy

variable {op : OperationType} {reverseOrder : Bool} {store : Name → Option (AssetDoc π)}
  {subgraphName : Name} {subgraphData : SubgraphData} {assets : AList fun _ : Name => Asset π}
  {g : AssetGraph π} {outcome : π → Bool}

section

variable (hwired : Wired subgraphName assets subgraphData.names g)

include hwired

theorem hasParent_of_mem_tried (hb : b ∈ tried op ok (g.childrenOf g.root)) :
    HasParent subgraphName subgraphData assets b subgraphName := by
  have hleads : g.Leads g.root b := (tried_sublist op ok _).subset hb
  rw [hwired.root] at hleads
  exact (hwired.leads subgraphName b).1 hleads

theorem hasParent_of_mem_triedBelow {p : Name} (hc : c ∈ triedBelow op reverseOrder g ok p) :
    HasParent subgraphName subgraphData assets c p ∧ ok p = true := by
  obtain ⟨hleads, hp⟩ := leads_of_mem_triedBelow hc
  exact ⟨(hwired.leads p c).1 hleads, hp⟩

theorem openWay_of_isWay (hb : b ∈ tried op (succeeds store outcome) (g.childrenOf g.root))
    (h : IsWay (triedBelow op reverseOrder g (succeeds store outcome)) b w) :
    OpenWay store outcome subgraphName subgraphData assets w := by
  obtain ⟨rest, rfl, hchain⟩ := h
  exact ⟨b, rest, rfl, hasParent_of_mem_tried hwired hb,
    hchain.imp fun p c hc => hasParent_of_mem_triedBelow hwired hc⟩

theorem isWay_of_openWay (hop : op ≠ .or)
    (h : OpenWay store outcome subgraphName subgraphData assets w) :
    ∃ b ∈ tried op (succeeds store outcome) (g.childrenOf g.root),
      IsWay (triedBelow op reverseOrder g (succeeds store outcome)) b w := by
  obtain ⟨b, rest, rfl, hroot, hchain⟩ := h
  refine ⟨b, ?_, rest, rfl, hchain.imp fun p c hc => ?_⟩
  · rw [tried_of_ne_or hop, hwired.root]
    exact (hwired.leads subgraphName b).2 hroot
  · rw [triedBelow, if_pos hc.2, tried_of_ne_or hop]
    exact mem_childOrder.2 ((hwired.leads p c).2 hc.1)

end

/-- No asset below the input node is its own ancestor. -/
theorem not_transGen_leads_self (hgrounds : ∀ k, g.Leads g.root k → Grounded g k)
    (hk : Relation.ReflTransGen g.Leads g.root k) : ¬ Relation.TransGen g.Leads k k := by
  have hground := Grounded.of_reflTransGen (Acc.intro g.root hgrounds) hk
  intro hcycle
  exact not_transGen_self_of_acc hground (Relation.transGen_swap.2 hcycle)

section

variable (hwired : Wired subgraphName assets subgraphData.names g)
  (hgrounds : ∀ k, g.Leads g.root k → Grounded g k)

include hwired hgrounds

/-- A chain from the input node, with the parents of the assets. -/
theorem chain_of_isChain_leads {l : List Name} (h : List.IsChain g.Leads (g.root :: l)) :
    l.Nodup ∧ List.IsChain (fun p c => HasParent subgraphName subgraphData assets c p)
      (subgraphName :: l) := by
  constructor
  · refine nodup_of_isChain h.of_cons fun a ha => not_transGen_leads_self hgrounds ?_
    exact (transGen_of_isChain h ha).to_reflTransGen
  · rw [hwired.root] at h
    exact h.imp fun p c hc => (hwired.leads p c).1 hc

/-- The assets at which a walk below the input node arrives. -/
theorem evaluatedBy_of_walksAll {below : List (List (List Name))}
    (hbelow : WalksAll (triedBelow op reverseOrder g (succeeds store outcome))
    (tried op (succeeds store outcome) (g.childrenOf g.root)) below) {formulas : List π}
    (hformulas : formulas.map some = (ends below.flatten).map (expressionOf store)) :
    EvaluatedBy op store outcome subgraphName subgraphData assets formulas below.flatten := by
  have hacc (b : Name) (hb : b ∈ tried op (succeeds store outcome) (g.childrenOf g.root)) :
      Acc (fun c p => c ∈ triedBelow op reverseOrder g (succeeds store outcome) p) b :=
    Subrelation.accessible (fun hc => (leads_of_mem_triedBelow hc).1)
      (hgrounds b ((tried_sublist op _ _).subset hb))
  have hmem (w : List Name) : w ∈ below.flatten ↔
      ∃ b ∈ tried op (succeeds store outcome) (g.childrenOf g.root),
      IsWay (triedBelow op reverseOrder g (succeeds store outcome)) b w :=
    mem_flatten_walks_iff hbelow fun b hb ways hways => mem_walks_iff (hacc b hb) hways w
  have hopen (w : List Name) (hw : w ∈ below.flatten) :
      OpenWay store outcome subgraphName subgraphData assets w := by
    obtain ⟨b, hb, hway⟩ := (hmem w).1 hw
    exact openWay_of_isWay hwired hb hway
  have hnodup : below.flatten.Nodup :=
    nodup_flatten ((tried_sublist op _ _).nodup (hwired.nodup g.root)) hbelow fun b hb ways hways =>
      nodup_walks (nodup_triedBelow hwired.nodup) (hacc b hb) hways
  have hchain {b : Name} {w : List Name}
      (hb : b ∈ tried op (succeeds store outcome) (g.childrenOf g.root))
      (hw : IsWay (triedBelow op reverseOrder g (succeeds store outcome)) b w) :
        List.IsChain g.Leads (g.root :: w) := by
    obtain ⟨rest, rfl, hrest⟩ := hw
    refine isChain_cons_cons.2 ⟨(tried_sublist op _ _).subset hb, hrest.imp fun p c hc => ?_⟩
    exact (leads_of_mem_triedBelow hc).1
  refine ⟨hformulas, hnodup, hopen, fun hop w hw => ?_, fun hunique => ?_,
    fun before c rest heq => ?_, fun hop => ?_⟩
  · exact (hmem w).2 (isWay_of_openWay hwired (by rw [hop]; decide) hw)
  · refine nodup_ends (fun c p q hp hq => ?_) (not_transGen_leads_self hgrounds .refl) hnodup
      fun w hw => ?_
    · exact hunique c p q ((hwired.leads p c).1 hp) ((hwired.leads q c).1 hq)
    · obtain ⟨b, hb, hway⟩ := (hmem w).1 hw
      exact hchain hb hway
  · have hpreceded := preceded_flatten hbelow
      (fun b hb ways hways => preceded_walks (hacc b hb) hways) before c rest heq
    refine hpreceded.imp (hasParent_of_mem_tried hwired) ?_
    rintro ⟨p, hp, hc⟩
    exact ⟨p, hp, hasParent_of_mem_triedBelow hwired hc⟩
  · subst hop
    refine chain_of_isChain_leads hwired hgrounds ?_
    rcases filter_ends_flatten selects_triedBelow (fun _ _ _ => tried_last) hbelow
      (fun b hb hok ways hways => filter_ends_walks selects_triedBelow (hacc b hb) hok hways)
        with hnil | ⟨b, hb, hway⟩
    · rw [hnil]
      exact .singleton g.root
    · exact hchain hb hway

end

/-- What is evaluated when the expression of a policy runs. -/
theorem policy_run [Inhabited π] (hop : op = .or ∨ op = .broadcast) (reverseOrder : Bool)
    (store : Name → Option (AssetDoc π)) (subgraphName : Name) (subgraphData : SubgraphData)
    (hassets : buildAssets store subgraphData = .ok assets) (fuel : Nat) {e : Expression π}
    (he : buildPolicy fuel op reverseOrder store subgraphName subgraphData = some (.ok e))
    (outcome : π → Bool) :
    ∃ ways,
      EvaluatedBy op store outcome subgraphName subgraphData assets (e.run outcome).1 ways := by
  rw [buildPolicy] at he
  cases hpolicy : buildPolicySubgraph store subgraphName subgraphData with
  | error error =>
    rw [hpolicy] at he
    cases he
  | ok g =>
    rw [hpolicy] at he
    obtain ⟨assets', hassets', hg⟩ := bind_eq_ok.1 hpolicy
    obtain rfl := Except.ok.inj (hassets.symm.trans hassets')
    obtain ⟨hwired, -, htargets⟩ := wired_of_buildSubgraph hg
    have hok (k : Name) (p : π) (hp : expressionOf store k = some p) :
        succeeds store outcome k = outcome p := by
      rw [succeeds, hp, Option.any_some]
    have hexpr (p k : Name) (asset : Asset π) (hleads : g.Leads p k)
        (hnode : g.nodes.lookup k = some asset) :
        expressionOf store k = some asset.expression := by
      rw [hwired.node k ((hwired.leads p k).1 hleads).1] at hnode
      obtain ⟨doc, hdoc, hexpression⟩ := builtFrom_buildAssets hassets k asset hnode
      rw [expressionOf, hdoc, Option.map_some, hexpression]
    -- the run of the expression is a walk below the input node
    obtain ⟨hgrounds, es, rfl, hall⟩ := buildSubgraphExpression_expands htargets he
    obtain ⟨below, hbelow, hrun⟩ := run_operation_walks
      (forall₂_imp_mem hall fun k hk e he => runsFrom_of_expands hop hok hexpr (hgrounds k hk) hk
        he) hop g.root
    exact ⟨below.flatten, evaluatedBy_of_walksAll hwired hgrounds hbelow hrun⟩

end Policy

/-- A decoder with two parents that fails below the first one and is tried again below the
second. -/
theorem policy_run_sharedChild :
    ∃ e assets ways, buildPolicy 4 .or false
      (threeDecoders [["decoder", "a", "0"], ["decoder", "c", "0"]] [["decoder", "a", "0"]])
        AssetType.decoder.input threeNames = some (.ok e) ∧
      EvaluatedBy .or (threeDecoders [["decoder", "a", "0"], ["decoder", "c", "0"]]
        [["decoder", "a", "0"]]) (fun p => p ≠ 2)
        AssetType.decoder.input threeNames assets (e.run fun p => p ≠ 2).1 ways := by
  refine ⟨_, ?assets, _, rfl,
    (policy_run (.inl rfl) false _ _ _ ?hassets 4 ?_ fun p => p ≠ 2).choose_spec⟩
  case hassets => rfl
  rfl

/-- Three rules, of which the second has the other two as its parents. -/
def threeRules (name : Name) : Option (AssetDoc Nat) :=
  if name = ["rule", "a", "0"] then some ⟨name, [], 1⟩
  else if name = ["rule", "b", "0"] then some ⟨name, [["rule", "a", "0"], ["rule", "c", "0"]], 2⟩
  else if name = ["rule", "c", "0"] then some ⟨name, [], 3⟩
  else none

/-- An asset is evaluated twice: a rule below two parents that succeed, and a decoder below two
parents of which one is below the other. -/
theorem sharedChild_evaluated_twice :
    (∃ e, buildPolicy 4 .broadcast false threeRules AssetType.rule.input
        ⟨[], [("wazuh", [["rule", "a", "0"], ["rule", "b", "0"], ["rule", "c", "0"]])]⟩ =
          some (.ok e) ∧
        (e.run fun _ => true).1 = [1, 2, 3, 2]) ∧
      ∃ e, buildPolicy 4 .or false
        (threeDecoders [["decoder", "a", "0"], ["decoder", "c", "0"]] [["decoder", "a", "0"]])
        AssetType.decoder.input threeNames = some (.ok e) ∧
          (e.run fun p => p ≠ 2).1 = [1, 2, 3, 2] :=
  ⟨⟨_, rfl, rfl⟩, ⟨_, rfl, rfl⟩⟩

end WazAISentinel.Builder
