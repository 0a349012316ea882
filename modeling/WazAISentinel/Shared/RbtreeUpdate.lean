import WazAISentinel.Shared.RbtreeBalance

/-!
# The operations on the heap

Between two calls the heap holds a balanced tree that is sorted by `strcmp`, and no other nodes
(`RedBlack`). Each operation returns without a fault, and the tree it leaves is told by its list of
keys and values (`pairs`): an insertion puts a pair at one place of the list, a replacement changes
the value of a pair and a deletion takes a pair out.
-/

namespace WazAISentinel.Shared

open Foundations Function RbTree List
open Foundations.ColorTree
open VersionMatcher (strcmp strcmp_eq_zero strcmp_swap)

variable {V : Type} {tree : RbTree V} {s : ColorTree (Entry V)} {key : List Char}
  {q : Path (Entry V)} (value : Option V)

/-- The keys and values from left to right. -/
def pairsOf (entries : List (Entry V)) : List (List Char × Option V) :=
  entries.map fun e => (e.key, e.value)

/-- The keys and values of a tree. -/
def pairs (s : ColorTree (Entry V)) : List (List Char × Option V) := pairsOf s.toList

/-- The keys of a list of pairs increase. -/
def Increasing (l : List (List Char × Option V)) : Prop := l.Pairwise fun a b => strcmp a.1 b.1 < 0

theorem Increasing.sublist {l l' : List (List Char × Option V)} (h : Increasing l)
    (hsub : l'.Sublist l) : Increasing l' := Pairwise.sublist hsub h

theorem increasing_iff_keys {l : List (List Char × Option V)} :
    Increasing l ↔ (l.map Prod.fst).Pairwise fun a b => strcmp a b < 0 := by
  rw [Increasing, pairwise_map]

theorem sorted_iff : Sorted s ↔ Increasing (pairs s) := by
  rw [Sorted, Increasing, pairs, pairsOf, pairwise_map]

theorem Rearranged.pairs_eq {tree' : RbTree V} {s' : ColorTree (Entry V)}
    (h : Rearranged tree tree' s s') : pairs s' = pairs s := by
  rw [pairs, h.toList, pairs]

/-- A red-black tree on the heap: the tree between two calls. -/
structure RedBlack (tree : RbTree V) (s : ColorTree (Entry V)) : Prop where
  holds : Holds tree s
  balanced : ∃ n, Balanced s .black n
  sorted : Sorted s
  noLeak : ∀ a, tree.heap a ≠ none → a ∈ addrs s

theorem pairs_plug (q : Path (Entry V)) (t : ColorTree (Entry V)) :
    pairs (plug q t) = pairsOf (before q) ++ pairs t ++ pairsOf (after q) := by
  simp [pairs, pairsOf, toList_plug]

theorem pairs_join_left (c : Color) (x : Entry V) (l r : ColorTree (Entry V)) :
    pairs (join .left c x l r) = pairs l ++ (x.key, x.value) :: pairs r := by
  simp [pairs, pairsOf, join, toList]

/-- A key stands once in an increasing list. -/
theorem Increasing.not_mem {A B : List (List Char × Option V)} {v : Option V}
    (h : Increasing (A ++ (key, v) :: B)) (w : Option V) : (key, w) ∉ A ++ B := by
  rw [Increasing, pairwise_append, pairwise_cons] at h
  obtain ⟨-, ⟨hB, -⟩, hA⟩ := h
  have hself : strcmp key key = 0 := strcmp_eq_zero.2 rfl
  intro hw
  rcases mem_append.1 hw with hw | hw
  · exact absurd (hA _ hw _ mem_cons_self) (by simp [hself])
  · exact absurd (hB _ hw) (by simp [hself])

/-- A key may be put between the smaller and the greater ones. -/
theorem Sorted.increasing (hs : Sorted (plug q .nil))
    (hbefore : ∀ e ∈ before q, strcmp e.key key < 0) (hafter : ∀ e ∈ after q, strcmp key e.key < 0)
    (v : Option V) : Increasing (pairsOf (before q) ++ (key, v) :: pairsOf (after q)) := by
  rw [sorted_iff, pairs_plug, Increasing] at hs
  simp only [pairs, pairsOf, toList, map_nil, append_nil] at hs
  obtain ⟨hb, ha, hba⟩ := pairwise_append.1 hs
  rw [Increasing, pairwise_append, pairwise_cons]
  refine ⟨hb, ⟨?_, ha⟩, ?_⟩
  · intro e he
    obtain ⟨e', he', rfl⟩ := mem_map.1 he
    exact hafter e' he'
  · intro e he e' he'
    rcases mem_cons.1 he' with rfl | he'
    · obtain ⟨e', he', rfl⟩ := mem_map.1 he
      exact hbefore e' he'
    · exact hba e he e' he'

/-- The addresses of a tree with one more node, which has one child at most. -/
theorem mem_addrs_focus {d : Dir} {c : Color} {y : Entry V} {t : ColorTree (Entry V)} {a : Nat} :
    a ∈ addrs (plug q (join d c y .nil t)) ↔ a = y.addr ∨ a ∈ addrs (plug q t) := by
  rw [((addrs_plug_perm q _).trans ((addrs_join_perm d c y .nil t).append_left _)).mem_iff,
    (addrs_plug_perm q t).mem_iff]
  simp only [addrs, toList, map_nil, nil_append, mem_append, mem_cons]
  tauto

/-! ## Insertion -/

@[simp] theorem rbInit_heap :
    (tree.rbInit key value).1.heap =
      update tree.heap tree.next (some (cell .left .red ⟨tree.next, key, value⟩ none none none)) :=
  rfl

@[simp] theorem rbInit_node : (tree.rbInit key value).2 = some tree.next := rfl

/-- A new node leaves the tree as it is. -/
theorem rbInit_holds (h : Holds tree s) (key : List Char) (value : Option V) :
    Holds (tree.rbInit key value).1 s := by
  refine ⟨h.root, ?_, h.nodup, ?_⟩
  · apply h.rep.congr
    rintro a ha
    apply update_of_ne
    rintro rfl
    exact h.not_mem_of_le le_rfl ha
  · intro a ha
    have hne : a ≠ tree.next := Nat.ne_of_gt ha
    rw [rbInit_heap, update_of_ne hne]
    exact h.fresh a (Nat.le_of_lt ha)

/-- Linking a node into an empty place. -/
theorem linkNode_spec {cmp : Int} (hpath : RepPath tree.heap q none) (hnodup : (pathAddrs q).Nodup)
    (hcmp : ∀ f ∈ q.head?, cmp < 0 ↔ f.side = .left) (a : Nat) :
    ∃ tree', tree.linkNode (top q) cmp (some a) = .ok tree' ∧ RepPath tree'.heap q (some a) ∧
      tree'.root = (if q = [] then some a else tree.root) ∧ Within (pathAddrs q) tree tree' := by
  cases q with
  | nil =>
    exact ⟨{ tree with root := some a }, rfl, trivial, rfl,
      ⟨fun _ _ => rfl, fun _ h => h, rfl, rfl, rfl⟩⟩
  | cons f q =>
    obtain ⟨tree', hstore, hpath', hroot, hwithin⟩ := store_hole hpath hnodup (some a)
    refine ⟨tree', ?_, hpath', by simpa using hroot, hwithin⟩
    have hside := hcmp f rfl
    rw [linkNode, top_cons, if_neg (Option.some_ne_none _), ← hstore]
    cases hf : f.side with
    | left => rw [if_pos (hside.2 hf)]
    | right =>
      rw [if_neg]
      intro hlt
      rw [hside.1 hlt] at hf
      cases hf

/-- A duplicate is not inserted; its node is released again. -/
theorem rbtreeInsert_found (h : Holds tree s) {c : Color} {x : Entry V} {l r : ColorTree (Entry V)}
    (hdescend : descend (searchSide key) [] s = (q, join .left c x l r)) (value : Option V) :
    tree.rbtreeInsert key value = .ok ({ tree with next := tree.next + 1 }, none) := by
  have h₁ := rbInit_holds h key value
  obtain ⟨cmp, hloop, -⟩ := insertLoop_root h₁
  rw [hdescend, ptr_join, if_neg (Option.some_ne_none _)] at hloop
  have hfree : (tree.rbInit key value).1.free (some tree.next) =
      .ok { tree with next := tree.next + 1 } := by
    have hheap : update (tree.rbInit key value).1.heap tree.next none = tree.heap := by
      rw [rbInit_heap, update_idem, update_eq_self_iff, h.fresh _ le_rfl]
    simp only [free, hheap]
    rw [rbInit_heap, update_self]
    rfl
  simp [rbtreeInsert, hloop, hfree]

/-- A new key is put at its place. -/
theorem rbtreeInsert_new (h : RedBlack tree s)
    (hdescend : descend (searchSide key) [] s = (q, .nil)) (hplug : plug q .nil = s)
    (value : Option V)
    (hsorted : Increasing (pairsOf (before q) ++ (key, value) :: pairsOf (after q))) :
    ∃ tree' s', tree.rbtreeInsert key value = .ok (tree', some tree.next) ∧ RedBlack tree' s' ∧
      pairs s' = pairsOf (before q) ++ (key, value) :: pairsOf (after q) := by
  subst hplug
  have h₁ := rbInit_holds h.holds key value
  obtain ⟨cmp, hloop, hcmp⟩ := insertLoop_root h₁
  rw [hdescend] at hloop hcmp
  rw [ptr_nil, if_pos rfl] at hloop
  have hmemPath : ∀ a ∈ pathAddrs q, a ∈ addrs (plug q .nil) :=
    fun a hmem => (addrs_plug_perm q _).mem_iff.2 (mem_append_left _ hmem)
  have hfresh : tree.next ∉ pathAddrs q :=
    fun hmem => h.holds.not_mem_of_le le_rfl (hmemPath _ hmem)
  have hnodup : (pathAddrs q).Nodup :=
    (nodup_append.1 ((addrs_plug_perm q _).nodup_iff.1 h.holds.nodup)).1
  -- the links between the node and the path
  obtain ⟨hpath, -⟩ := rep_plug.1 h₁.rep
  obtain ⟨tree₂, hlink, hpath₂, hroot₂, hwithin₂⟩ := linkNode_spec hpath hnodup hcmp tree.next
  have hnode₂ :
      tree₂.heap tree.next = some (cell .left .red ⟨tree.next, key, value⟩ none none none) := by
    rw [hwithin₂.frame _ hfresh, rbInit_heap, update_self]
  obtain ⟨tree₃, hstore, hnode₃, hroot₃, hwithin₃⟩ := store_eq hnode₂ (RbNode.setParent (top q))
  have hsame₃ : ∀ a ∉ pathAddrs q, a ≠ tree.next → tree₃.heap a = tree.heap a := by
    intro a ha hne
    rw [hwithin₃.frame a (by simpa using hne), hwithin₂.frame a ha, rbInit_heap, update_of_ne hne]
  have hnext₃ : tree₃.next = tree.next + 1 := hwithin₃.next.trans hwithin₂.next
  have h₃ : Holds tree₃ (plug q (join .left .red ⟨tree.next, key, value⟩ .nil .nil)) := by
    refine h₁.refill ?_ ?_ ?_ ?_ ?_
    · rw [hroot₃, hroot₂, ptr_join]
    · rw [ptr_join]
      exact hpath₂.congr (hwithin₃.same_of_not_mem hfresh)
    · rw [rep_join, hnode₃, setParent_cell]
      exact ⟨rfl, trivial, trivial⟩
    · rw [(addrs_plug_perm q _).nodup_iff]
      exact hnodup.append (nodup_singleton _) (disjoint_singleton.2 hfresh)
    · intro a ha
      rw [hsame₃ a _ (by omega)]
      · exact h.holds.fresh a (by omega)
      · exact fun hmem => h.holds.not_mem_of_le (a := a) (by omega) (hmemPath a hmem)
  -- the path is balanced, the new node is red
  obtain ⟨m, hbalanced⟩ := h.balanced
  obtain ⟨c, n, ct, hopen, hnil, -⟩ := Open.of_plug hbalanced
  cases hnil
  obtain ⟨tree₄, s', hbalance, hafter, hs'⟩ := rbBalanceInsert_spec h₃ (.join_red .nil .nil) hopen
    (Nat.lt_of_succ_lt h₃.length_path_lt)
  have hpairs : pairs s' = pairsOf (before q) ++ (key, value) :: pairsOf (after q) := by
    rw [hafter.pairs_eq, pairs_plug, pairs_join_left]
    simp [pairs, pairsOf, toList]
  refine ⟨tree₄, s', ?_, ⟨hafter.holds, hs', ?_, ?_⟩, hpairs⟩
  · rw [ptr_join] at hbalance
    simp [rbtreeInsert, hloop, hlink, hstore, hbalance]
  · rw [sorted_iff, hpairs]
    exact hsorted
  · intro a ha
    rw [hafter.addrs_eq]
    by_contra hnot
    rw [hafter.within.frame a hnot] at ha
    rw [mem_addrs_focus, not_or] at hnot
    rw [hsame₃ a (fun hmem => hnot.2 (hmemPath a hmem)) hnot.1] at ha
    exact hnot.2 (h.noLeak a ha)

/-! ## Lookup and replacement -/

section Found

variable {c : Color} {x : Entry V} {l r : ColorTree (Entry V)}

/-- The pairs around a node. -/
theorem pairs_focus :
    pairs (plug q (join .left c x l r)) =
      (pairsOf (before q) ++ pairs l) ++ (x.key, x.value) :: (pairs r ++ pairsOf (after q)) := by
  rw [pairs_plug, pairs_join_left]
  simp only [append_assoc, cons_append]

theorem rbGet_found (h : Holds tree s)
    (hdescend : descend (searchSide key) [] s = (q, join .left c x l r)) :
    tree.rbGet tree.root key = .ok (some x.addr) := by
  rw [rbGet_eq h, hdescend, ptr_join]

theorem rbGet_new (h : Holds tree s) (hdescend : descend (searchSide key) [] s = (q, .nil)) :
    tree.rbGet tree.root key = .ok none := by
  rw [rbGet_eq h, hdescend, ptr_nil]

@[simp] theorem disposeValue_heap : (tree.disposeValue value).heap = tree.heap := by
  cases value with
  | none => rfl
  | some v =>
    simp only [disposeValue]
    split <;> rfl

/-- Disposing of a value leaves the nodes as they are. -/
theorem disposeValue_holds (h : Holds tree s) (value : Option V) :
    Holds (tree.disposeValue value) s := by
  cases value with
  | none => exact h
  | some v =>
    simp only [disposeValue]
    split
    · exact { h with }
    · exact h

/-- A key that is there gets another value. -/
theorem rbtreeReplace_found (h : RedBlack tree s)
    (hdescend : descend (searchSide key) [] s = (q, join .left c x l r))
    (hplug : plug q (join .left c x l r) = s) (value : Option V) :
    ∃ tree' s', tree.rbtreeReplace key value = .ok (tree', value) ∧ RedBlack tree' s' ∧
      pairs s' = (pairsOf (before q) ++ pairs l) ++ (x.key, value) ::
        (pairs r ++ pairsOf (after q)) := by
  subst hplug
  have hdispose := disposeValue_holds h.holds x.value
  obtain ⟨tree', hstore, hholds, hwithin⟩ :=
    store_focus hdispose (fun n => { n with value := value }) c { x with value := value } rfl rfl
  obtain ⟨m, hbalanced⟩ := h.balanced
  refine ⟨tree', _, ?_, ⟨hholds, hbalanced.relabel_plug _, ?_, ?_⟩, pairs_focus ..⟩
  · simp [rbtreeReplace, rbGet_found h.holds hdescend, h.holds.deref_focus, hstore]
  · have hsorted := sorted_iff.1 h.sorted
    rw [sorted_iff, increasing_iff_keys, pairs_focus]
    rw [increasing_iff_keys, pairs_focus] at hsorted
    simpa using hsorted
  · intro a ha
    have haddrs : addrs (plug q (join .left c { x with value := value } l r)) =
        addrs (plug q (join .left c x l r)) := addrs_relabel q .left c c l r rfl
    rw [haddrs]
    by_cases hax : a = x.addr
    · rw [hax]
      exact focus_mem
    · rw [hwithin.frame a (by simpa using hax), disposeValue_heap] at ha
      exact h.noLeak a ha

end Found

/-! ## Deletion -/

variable {m : Nat} {sn : RbNode V}

section Delete

variable {d : Dir} {c : Color} {x y : Entry V} {l r t : ColorTree (Entry V)}

/-- A node with one child at most is taken out of the tree; it stays on the heap. -/
theorem unlink_spec (h : Holds tree (plug q (join d c y .nil t))) :
    ∃ tree₁ tree₂, tree.replaceChild (top q) (some y.addr) (ptr t) = .ok tree₁ ∧
      tree₁.setParentOf (ptr t) (top q) = .ok tree₂ ∧ Holds tree₂ (plug q t) ∧
        y.addr ∉ addrs (plug q t) ∧
      Within (addrs (plug q t)) tree tree₂ := by
  obtain ⟨hpath, hrep⟩ := rep_plug.1 h.rep
  obtain ⟨-, -, ht⟩ := rep_join.1 hrep
  have hnodup := h.nodup_focus
  have hperm := addrs_plug_perm q t
  have hparts := nodup_append.1 hnodup
  have hcons := nodup_cons.1 (perm_middle.nodup_iff.1 hnodup)
  have hy : y.addr ∉ addrs (plug q t) := by
    rw [hperm.mem_iff]
    exact hcons.1
  rw [ptr_join] at hpath
  obtain ⟨tree₁, hrelink, hpath₁, hroot₁, hwithin₁⟩ := relink hpath
    (nodup_cons.2 ⟨fun hmem => hcons.1 (mem_append_left _ hmem), hparts.1⟩) (ptr t)
  have hdisjoint : ∀ a ∈ pathAddrs q, a ∉ addrs t := fun a ha hat =>
    hparts.2.2 a ha a (mem_cons_of_mem _ hat) rfl
  have ht₁ : Rep tree₁.heap (some y.addr) t :=
    ht.congr fun a ha => hwithin₁.frame a fun hmem => hdisjoint a hmem ha
  obtain ⟨tree₂, hreparent, ht₂, hroot₂, hwithin₂⟩ :=
    reparent ht₁ (nodup_append.1 hcons.2).2.1 (top q)
  have hwithin : Within (addrs (plug q t)) tree tree₂ := by
    refine (hwithin₁.mono ?_).trans (hwithin₂.mono ?_)
    · exact fun a ha => hperm.mem_iff.2 (mem_append_left _ ha)
    · exact fun a ha => hperm.mem_iff.2 (mem_append_right _ ha)
  refine ⟨tree₁, tree₂, hrelink, hreparent, h.refill ?_ ?_ ht₂ ?_ ?_, hy, hwithin⟩
  · rw [hroot₂, hroot₁]
  · exact hpath₁.congr fun a ha => hwithin₂.frame a (hdisjoint a ha)
  · exact hperm.nodup_iff.2 hcons.2
  · intro a ha
    rw [hwithin.next] at ha
    rw [hwithin.frame a, h.fresh a ha]
    exact fun hmem => h.not_mem_of_le ha (mem_addrs_focus.2 (.inr hmem))

/-- Balancing after a node with one child at most was taken out. -/
theorem balanceAfter_spec (h : Holds tree (plug q t))
    (hbalanced : Balanced (plug q (join d c y .nil t)) .black m) (hcolor : sn.color = c)
    (hparent : sn.parent = top q) :
    ∃ tree' s', tree.balanceAfter sn (ptr t) = .ok tree' ∧ Rearranged tree tree' (plug q t) s' ∧
      ∃ m, Balanced s' .black m := by
  obtain ⟨co, n, ct, hopen, hnode, -⟩ := Open.of_plug hbalanced
  rw [balanceAfter, hcolor, hparent]
  cases c with
  | red =>
    obtain ⟨rfl, -, ht⟩ := hnode.of_join_red
    exact ⟨tree, _, rfl, Rearranged.refl h, hopen.plug_black ht⟩
  | black =>
    obtain ⟨n, _, ct, rfl, rfl, -, ht⟩ := hnode.of_join_black
    have hdeficient : Deficient t ct n := by
      cases ct with
      | black => exact .black ht
      | red =>
        obtain ⟨z, near, far, rfl, hnear, hfar⟩ := ht.exists_join_of_red .left
        exact .red hnear hfar
    apply balanceDeleteLoop_spec h hdeficient hopen
    · exact Nat.succ_pos _
    · exact fun _ => h.length_path_lt

/-- Releasing a node that is not in the tree. -/
theorem free_spec {a : Nat} (h : Holds tree s) (ha : a ∉ addrs s) (hlive : tree.heap a ≠ none) :
    ∃ tree', tree.free (some a) = .ok tree' ∧ Holds tree' s ∧ ∀ b, tree'.heap b ≠ none →
      b ≠ a ∧ tree.heap b ≠ none := by
  obtain ⟨n, hn⟩ := Option.ne_none_iff_exists'.1 hlive
  refine ⟨{ tree with heap := update tree.heap a none }, ?_, ⟨h.root, ?_, h.nodup, ?_⟩, ?_⟩
  · rw [free, hn]
  · apply h.rep.congr
    intro b hb
    apply update_of_ne
    rintro rfl
    exact ha hb
  · intro b hb
    dsimp only
    rw [update_apply, h.fresh b hb, ite_self]
  · intro b hb
    dsimp only at hb
    rw [update_apply] at hb
    split at hb
    · exact absurd rfl hb
    · exact ⟨by assumption, hb⟩

/-- The end of `rbtree_delete`: the tree is balanced and the node released. -/
theorem balance_free_spec (h : Holds tree (plug q t))
    (hbalanced : Balanced (plug q (join d c y .nil t)) .black m) (hy : tree.heap y.addr = some sn)
    (hcolor : sn.color = c) (hparent : sn.parent = top q) (hout : y.addr ∉ addrs (plug q t))
    (hleak : ∀ a, tree.heap a ≠ none → a = y.addr ∨ a ∈ addrs (plug q t))
    (hsorted : Sorted (plug q t)) :
    ∃ tree₁ tree' s', tree.balanceAfter sn (ptr t) = .ok tree₁ ∧
      tree₁.free (some y.addr) = .ok tree' ∧
      RedBlack tree' s' ∧ pairs s' = pairs (plug q t) := by
  obtain ⟨tree₁, s', hbalance, hafter, hs'⟩ := balanceAfter_spec h hbalanced hcolor hparent
  obtain ⟨tree', hfree, hholds, hlive⟩ := free_spec (a := y.addr) hafter.holds
    (by rwa [hafter.addrs_eq]) (hafter.within.live _ (by simp [hy]))
  refine ⟨tree₁, tree', s', hbalance, hfree, ⟨hholds, hs', ?_, ?_⟩, hafter.pairs_eq⟩
  · rw [sorted_iff, hafter.pairs_eq]
    exact sorted_iff.1 hsorted
  · intro a ha
    obtain ⟨hne, ha₁⟩ := hlive a ha
    rw [hafter.addrs_eq]
    by_contra hnot
    rw [hafter.within.frame a hnot] at ha₁
    exact (hleak a ha₁).elim hne hnot

/-- After the unlinking, the node and the tree are what is on the heap. -/
theorem leak_of_unlink {tree₂ : RbTree V} (h : RedBlack tree (plug q (join d c y .nil t)))
    (hwithin : Within (addrs (plug q t)) tree tree₂) (a : Nat) (ha : tree₂.heap a ≠ none) :
    a = y.addr ∨ a ∈ addrs (plug q t) := by
  by_contra hnot
  rw [hwithin.frame a fun hmem => hnot (.inr hmem)] at ha
  exact hnot (mem_addrs_focus.1 (h.noLeak a ha))

/-- The child the code takes of a node with one child at most. -/
theorem only_child (parent child : Option Nat) :
    (if (cell d c x parent none child).left ≠ none then (cell d c x parent none child).left
      else (cell d c x parent none child).right) = child := by
  cases d with
  | left => rfl
  | right => cases child <;> rfl

/-- A node with one child at most is itself taken out. -/
theorem rbtreeDelete_one (h : RedBlack tree (plug q (join d c x .nil t)))
    (hget : tree.rbGet tree.root key = .ok (some x.addr)) :
    ∃ tree' s', tree.rbtreeDelete key = .ok (tree', 1) ∧ RedBlack tree' s' ∧
      pairs s' = pairs (plug q t) := by
  have hx := h.holds.heap_focus
  have hsorted : Sorted (plug q t) := by
    rw [sorted_iff]
    apply (sorted_iff.1 h.sorted).sublist
    rw [pairs_plug, pairs_plug]
    refine ((Sublist.append_left ?_ _).append_right _)
    cases d <;> simp [pairs, pairsOf, join, toList]
  obtain ⟨tree₁, tree₂, hreplace, hparent, hholds, hout, hwithin⟩ := unlink_spec h.holds
  have hx₂ : tree₂.heap x.addr = some (cell d c x (top q) none (ptr t)) := by
    rw [hwithin.frame _ hout, hx, ptr_nil]
  have hx₃ : (tree₂.disposeValue x.value).heap x.addr = some (cell d c x (top q) none (ptr t)) := by
    rw [disposeValue_heap, hx₂]
  obtain ⟨m, hbalanced⟩ := h.balanced
  obtain ⟨tree₃, tree', s', hbalance, hfree, hend⟩ :=
    balance_free_spec (disposeValue_holds hholds x.value)
    hbalanced hx₃ (cell_color ..) (cell_parent ..) hout (by
      intro a ha
      rw [disposeValue_heap] at ha
      exact leak_of_unlink h hwithin a ha) hsorted
  refine ⟨tree', s', ?_, hend⟩
  have hsuccessor : tree.successor (some x.addr) = .ok (some x.addr) := by
    simp only [successor, ok_bind, h.holds.deref_focus]
    rw [if_neg]
    · rfl
    · cases d <;> simp [cell]
  have hcopy : (tree₂.disposeValue x.value).copySuccessor (some x.addr) (some x.addr) =
      .ok (tree₂.disposeValue x.value) := by
    rw [copySuccessor, if_neg (not_not.2 rfl)]
  simp only [rbtreeDelete, ok_bind, hget, reduceCtorEq, if_false, hsuccessor, h.holds.deref_focus,
    ptr_nil, only_child, cell_parent, hreplace, hparent, deref_eq hx₂, cell_value, hcopy,
    deref_eq hx₃, hbalance, hfree, pure_eq_ok]

/-- A node with two children takes over the entry of its successor, which is taken out. -/
theorem rbtreeDelete_two (h : RedBlack tree (plug q (join .left c x l r)))
    (hget : tree.rbGet tree.root key = .ok (some x.addr)) (hl : l ≠ .nil) (hr : r ≠ .nil) :
    ∃ tree' s', tree.rbtreeDelete key = .ok (tree', 1) ∧ RedBlack tree' s' ∧
      pairs s' = (pairsOf (before q) ++ pairs l) ++ (pairs r ++ pairsOf (after q)) := by
  have hsorted := sorted_iff.1 h.sorted
  rw [pairs_focus] at hsorted
  obtain ⟨cr, xr, lr, rr, rfl⟩ : ∃ cr xr lr rr, r = join .left cr xr lr rr := by
    cases r with
    | nil => exact absurd rfl hr
    | node cr xr lr rr => exact ⟨cr, xr, lr, rr, rfl⟩
  have hleft : ptr l ≠ none := by
    cases l with
    | nil => exact absurd rfl hl
    | node => exact Option.some_ne_none _
  -- the successor is the leftmost node on the right side
  have hright : Holds tree (plug (⟨.right, c, x, l⟩ :: q) (join .left cr xr lr rr)) := h.holds
  obtain ⟨ql, cy, y, t, hmin, hplug, hbefore⟩ := rbMin_eq hright
  have hsuccessor : tree.successor (some x.addr) = .ok (some y.addr) := by
    simp only [successor, ok_bind, h.holds.deref_focus, cell_left_left, cell_left_right, ptr_join]
    exact (if_pos ⟨hleft, Option.some_ne_none _⟩).trans hmin
  have hwhole : plug q (join .left c x l (join .left cr xr lr rr)) =
      plug (ql ++ ⟨.right, c, x, l⟩ :: q) (join .left cy y .nil t) := by
    rw [plug_append, hplug]
    rfl
  have hrest :
      ∀ x', plug (ql ++ ⟨.right, c, x', l⟩ :: q) t = plug q (join .right c x' (plug ql t) l) := by
    intro x'
    rw [plug_append]
    rfl
  rw [hwhole] at h
  have hy := h.holds.heap_focus
  obtain ⟨tree₁, tree₂, hreplace, hparent, hholds, hout, hwithin⟩ := unlink_spec h.holds
  have hleak := leak_of_unlink h hwithin
  rw [hrest] at hholds hout hwithin hleak
  have hxy : x.addr ≠ y.addr := by
    intro heq
    rw [← heq] at hout
    exact hout focus_mem
  have hx₂ := hholds.deref_focus
  -- the entry of the successor is copied
  have hy₂ : (tree₂.disposeValue x.value).heap y.addr =
      some (cell .left cy y (top (ql ++ ⟨.right, c, x, l⟩ :: q)) none (ptr t)) := by
    rw [disposeValue_heap, hwithin.frame _ hout, hy, ptr_nil]
  let x' : Entry V := ⟨x.addr, y.key, y.value⟩
  obtain ⟨tree₃, hstore, hholds₃, hwithin₃⟩ := store_focus (disposeValue_holds hholds x.value)
    (fun n => { n with key := y.key, value := y.value }) c x' rfl rfl
  have hcopy :
      (tree₂.disposeValue x.value).copySuccessor (some x.addr) (some y.addr) = .ok tree₃ := by
    rw [copySuccessor, if_pos (by simpa using hxy), deref_eq hy₂]
    exact hstore
  have hy₃ := (hwithin₃.frame y.addr (by simpa using hxy.symm)).trans hy₂
  have haddrs : addrs (plug q (join .right c x' (plug ql t) l)) =
      addrs (plug q (join .right c x (plug ql t) l)) := addrs_relabel q .right c c _ l rfl
  have htop : top (ql ++ ⟨.right, c, x, l⟩ :: q) = top (ql ++ ⟨.right, c, x', l⟩ :: q) := by
    cases ql <;> rfl
  obtain ⟨m, hbalanced⟩ := h.balanced
  rw [← hwhole] at hbalanced
  obtain ⟨m', hbalanced'⟩ := hbalanced.relabel_plug x'
  have hbalanced₃ :
      Balanced (plug (ql ++ ⟨.right, c, x', l⟩ :: q) (join .left cy y .nil t)) .black m' := by
    rw [plug_append, hplug]
    exact hbalanced'
  rw [← hrest] at hholds₃ haddrs
  -- the list of the right side without its first pair
  have hlist : pairs (plug (ql ++ ⟨.right, c, x', l⟩ :: q) t) =
      (pairsOf (before q) ++ pairs l) ++ (pairs (join .left cr xr lr rr) ++ pairsOf (after q)) := by
    have hshape :
        plug (ql ++ ⟨.right, c, x', l⟩ :: q) t = plug q (join .left c x' l (plug ql t)) := by
      rw [plug_append]
      rfl
    rw [hshape, pairs_focus, ← hplug, pairs_plug, pairs_plug, hbefore, pairs_join_left]
    simp [x', pairs, pairsOf, toList]
  obtain ⟨tree₄, tree', s', hbalance, hfree, hs', hpairs⟩ :=
    balance_free_spec hholds₃ hbalanced₃ hy₃
    (cell_color ..) ((cell_parent ..).trans htop) (by rwa [haddrs]) (by
      intro a ha
      rw [haddrs]
      by_cases hax : a = x.addr
      · rw [hax]
        exact .inr focus_mem
      · rw [hwithin₃.frame a (by simpa using hax), disposeValue_heap] at ha
        exact hleak a ha) (by
      rw [sorted_iff, hlist]
      exact hsorted.sublist ((sublist_cons_self _ _).append_left _))
  refine ⟨tree', s', ?_, hs', hpairs.trans hlist⟩
  simp only [rbtreeDelete, ok_bind, hget, reduceCtorEq, if_false, hsuccessor, h.holds.deref_focus,
    ptr_nil, only_child, cell_parent, hreplace, hparent, hx₂, cell_value, hcopy, deref_eq hy₃,
    hbalance, hfree, pure_eq_ok]

/-- A key that is there is taken out. -/
theorem rbtreeDelete_found (h : RedBlack tree s)
    (hdescend : descend (searchSide key) [] s = (q, join .left c x l r))
    (hplug : plug q (join .left c x l r) = s) :
    ∃ tree' s', tree.rbtreeDelete key = .ok (tree', 1) ∧ RedBlack tree' s' ∧
      pairs s' = (pairsOf (before q) ++ pairs l) ++ (pairs r ++ pairsOf (after q)) := by
  have hget := rbGet_found h.holds hdescend
  subst hplug
  by_cases hl : l = .nil
  · subst hl
    obtain ⟨tree', s', hdelete, hs', hpairs⟩ := rbtreeDelete_one h hget
    refine ⟨tree', s', hdelete, hs', ?_⟩
    rw [hpairs, pairs_plug]
    simp [pairs, pairsOf, toList]
  · by_cases hr : r = .nil
    · subst hr
      -- the only child is on the left
      have hright : RedBlack tree (plug q (join .right c x .nil l)) := h
      obtain ⟨tree', s', hdelete, hs', hpairs⟩ := rbtreeDelete_one hright hget
      refine ⟨tree', s', hdelete, hs', ?_⟩
      rw [hpairs, pairs_plug]
      simp [pairs, pairsOf, toList]
    · exact rbtreeDelete_two h hget hl hr

end Delete

end WazAISentinel.Shared
