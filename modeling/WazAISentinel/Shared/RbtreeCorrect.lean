import WazAISentinel.Shared.RbtreeUpdate

/-!
# Red-black trees are finite maps

Every sequence of `rbtree_insert`, `rbtree_replace` and `rbtree_delete` from the empty tree returns
without a fault, keeps the tree a red-black tree sorted by `strcmp` and does to a finite map from
strings to values (`Contents`) what the calls are for.

`rbtree_keys`, `rbtree_range` and `rbtree_size` go through the tree in order. `rb_range` leaves out
subtrees that cannot have a key of the range. The array of the keys, with its NULL at the end, is
the list of the keys.
-/

namespace WazAISentinel.Shared

open Foundations

variable {V : Type}

section

open Foundations.ColorTree

/-- The calls that change a tree. -/
inductive Operation (V : Type) where
  | insert (key : List Char) (value : Option V)
  | replace (key : List Char) (value : Option V)
  | delete (key : List Char)

namespace RbTree

/-- One call. -/
def perform (tree : RbTree V) : Operation V → Except Fault (RbTree V)
  | .insert key value => (tree.rbtreeInsert key value).map Prod.fst
  | .replace key value => (tree.rbtreeReplace key value).map Prod.fst
  | .delete key => (tree.rbtreeDelete key).map Prod.fst

/-- A sequence of calls. -/
def performAll (tree : RbTree V) : List (Operation V) → Except Fault (RbTree V)
  | [] => .ok tree
  | op :: ops => do
      let tree ← tree.perform op
      performAll tree ops

end RbTree

/-! ## The finite map -/

/-- A finite map: no entry, or an entry with a value that may be NULL. -/
abbrev Contents (V : Type) := List Char → Option (Option V)

namespace Contents

def set (m : Contents V) (key : List Char) (entry : Option (Option V)) : Contents V :=
  fun k => if k = key then entry else m k

/-- What a call is for. -/
def perform (m : Contents V) : Operation V → Contents V
  | .insert key value => if (m key).isSome then m else m.set key (some value)
  | .replace key value => if (m key).isSome then m.set key (some value) else m
  | .delete key => m.set key none

/-- The map after a sequence of calls from the empty one. -/
def after (ops : List (Operation V)) : Contents V := ops.foldl perform fun _ => none

/-- The map has the entries of a list. -/
def Lists (m : Contents V) (l : List (List Char × Option V)) : Prop :=
  ∀ k v, m k = some v ↔ (k, v) ∈ l

variable {m : Contents V} {key : List Char} {A B : List (List Char × Option V)} {value : Option V}

/-- A new entry, or another value for an old one. -/
theorem lists_set (hold : ∀ k ≠ key, ∀ v, m k = some v ↔ (k, v) ∈ A ++ B)
    (hnot : ∀ v, (key, v) ∉ A ++ B) : (m.set key (some value)).Lists (A ++ (key, value) :: B) := by
  intro k v
  by_cases hk : k = key
  · subst hk
    have hv := hnot v
    simp only [set, if_true, List.mem_append, List.mem_cons] at hv ⊢
    grind
  · rw [set, if_neg hk, hold k hk]
    simp [hk]

/-- An entry less. -/
theorem Lists.delete (h : m.Lists (A ++ (key, value) :: B))
    (hsorted : Increasing (A ++ (key, value) :: B)) : (m.set key none).Lists (A ++ B) := by
  intro k v
  have hnot := hsorted.not_mem v
  by_cases hk : k = key
  · subst hk
    simpa [set] using hnot
  · rw [set, if_neg hk, h]
    simp [hk]

end Contents

/-! ## The tree and the map -/

section Refinement

variable {tree : RbTree V} {s : ColorTree (Entry V)} {m : Contents V}

section

variable (h : RedBlack tree s)

include h

section

variable (hm : m.Lists (pairs s)) {key : List Char}

include hm

/-- Where the search for a key ends tells what the map has. -/
theorem RedBlack.lookup (key : List Char) :
    (∃ q c x l r, descend (searchSide key) [] s = (q, join .left c x l r) ∧
      plug q (join .left c x l r) = s ∧
      x.key = key ∧ m key = some x.value) ∨
    (∃ q, descend (searchSide key) [] s = (q, .nil) ∧ plug q .nil = s ∧
      (∀ v, Increasing (pairsOf (before q) ++ (key, v) :: pairsOf (after q))) ∧ m key = none) := by
  obtain ⟨q, t, hdescend, rfl, hbefore, hafter, hstop⟩ := @exists_place V s key h.sorted
  rcases hstop with rfl | ⟨c, x, l, r, rfl, rfl⟩
  · have hsorted := h.sorted.increasing hbefore hafter
    refine .inr ⟨q, hdescend, rfl, hsorted, Option.eq_none_iff_forall_ne_some.2 ?_⟩
    intro v hv
    rw [hm, pairs_plug] at hv
    exact (hsorted none).not_mem v (by simpa [pairs, pairsOf, toList] using hv)
  · refine .inl ⟨q, c, x, l, r, hdescend, rfl, rfl, (hm _ _).2 ?_⟩
    rw [pairs_focus]
    simp

/-- `rbtree_get` reads the map. -/
theorem rbtreeGet_spec (key : List Char) :
    tree.rbtreeGet key = .ok (m key).join := by
  rcases h.lookup hm key
      with ⟨q, c, x, l, r, hdescend, hplug, -, hvalue⟩ | ⟨q, hdescend, -, -, hnone⟩
  · subst hplug
    simp [RbTree.rbtreeGet, rbGet_found h.holds hdescend, h.holds.deref_focus, Except.map, hvalue]
  · simp [RbTree.rbtreeGet, rbGet_new h.holds hdescend, hnone]

/-- Deleting a key that is not there leaves the tree as it is. -/
theorem rbtreeDelete_absent (hkey : m key = none) :
    tree.rbtreeDelete key = .ok (tree, 0) := by
  rcases h.lookup hm key with ⟨q, c, x, l, r, -, -, -, hvalue⟩ | ⟨q, hdescend, -⟩
  · rw [hkey] at hvalue
    cases hvalue
  · simp [RbTree.rbtreeDelete, rbGet_new h.holds hdescend]

end

/-- An address given out and released again. -/
theorem RedBlack.skip : RedBlack { tree with next := tree.next + 1 } s :=
  { h with holds := ⟨h.holds.root, h.holds.rep, h.holds.nodup,
    fun a ha => h.holds.fresh a (Nat.le_of_lt ha)⟩ }

/-- One call does to the tree what it does to the map. -/
theorem perform_spec (hm : m.Lists (pairs s)) (op : Operation V) :
    ∃ tree' s', tree.perform op = .ok tree' ∧ RedBlack tree' s' ∧
      (m.perform op).Lists (pairs s') := by
  cases op with
  | insert key value =>
    rcases h.lookup hm key
        with ⟨q, c, x, l, r, hdescend, -, -, hvalue⟩ | ⟨q, hdescend, hplug, hsorted, hnone⟩
    · refine ⟨_, s, ?_, h.skip, ?_⟩
      · rw [RbTree.perform, rbtreeInsert_found h.holds hdescend value]
        rfl
      · simpa [Contents.perform, hvalue] using hm
    · obtain ⟨tree', s', hinsert, hs', hpairs⟩ :=
        rbtreeInsert_new h hdescend hplug value (hsorted value)
      refine ⟨tree', s', ?_, hs', ?_⟩
      · rw [RbTree.perform, hinsert]
        rfl
      · rw [← hplug, pairs_plug] at hm
        have hold : m.Lists (pairsOf (before q) ++ pairsOf (after q)) := by
          simpa [pairs, pairsOf, toList] using hm
        rw [hpairs, Contents.perform, hnone]
        exact Contents.lists_set (fun k _ => hold k) (hsorted value).not_mem
  | replace key value =>
    rcases h.lookup hm key
        with ⟨q, c, x, l, r, hdescend, hplug, rfl, hvalue⟩ | ⟨q, hdescend, -, -, hnone⟩
    · obtain ⟨tree', s', hreplace, hs', hpairs⟩ := rbtreeReplace_found h hdescend hplug value
      have hsorted := sorted_iff.1 h.sorted
      rw [← hplug, pairs_focus] at hm hsorted
      refine ⟨tree', s', ?_, hs', ?_⟩
      · rw [RbTree.perform, hreplace]
        rfl
      · rw [hpairs, Contents.perform, hvalue]
        exact Contents.lists_set (fun k hk v => (hm k v).trans (by simp [hk])) hsorted.not_mem
    · refine ⟨tree, s, ?_, h, ?_⟩
      · simp [RbTree.perform, RbTree.rbtreeReplace, rbGet_new h.holds hdescend, Except.map]
      · simpa [Contents.perform, hnone] using hm
  | delete key =>
    rcases h.lookup hm key
        with ⟨q, c, x, l, r, hdescend, hplug, rfl, hvalue⟩ | ⟨q, hdescend, -, -, hnone⟩
    · obtain ⟨tree', s', hdelete, hs', hpairs⟩ := rbtreeDelete_found h hdescend hplug
      have hsorted := sorted_iff.1 h.sorted
      rw [← hplug, pairs_focus] at hm hsorted
      refine ⟨tree', s', ?_, hs', ?_⟩
      · rw [RbTree.perform, hdelete]
        rfl
      · rw [hpairs]
        exact hm.delete hsorted
    · refine ⟨tree, s, ?_, h, ?_⟩
      · rw [RbTree.perform, rbtreeDelete_absent h hm hnone]
        rfl
      · intro k v
        rw [Contents.perform, Contents.set, ← hm]
        split
        · rename_i hk
          rw [hk, hnone]
        · rfl

/-- A sequence of calls does to the tree what it does to the map. -/
theorem performAll_spec (hm : m.Lists (pairs s)) (ops : List (Operation V)) :
    ∃ tree' s', tree.performAll ops = .ok tree' ∧ RedBlack tree' s' ∧
      (ops.foldl Contents.perform m).Lists (pairs s') := by
  induction ops generalizing tree s m with
  | nil => exact ⟨tree, s, rfl, h, hm⟩
  | cons op ops ih =>
    obtain ⟨tree₁, s₁, hperform, h₁, hm₁⟩ := perform_spec h hm op
    obtain ⟨tree₂, s₂, hrest, h₂, hm₂⟩ := ih h₁ hm₁
    refine ⟨tree₂, s₂, ?_, h₂, hm₂⟩
    rw [RbTree.performAll, hperform]
    exact hrest

end

/-- The empty tree. -/
theorem redBlack_init (dispose : Bool) : RedBlack (RbTree.init dispose : RbTree V) .nil where
  holds := ⟨rfl, trivial, List.nodup_nil, fun _ _ => rfl⟩
  balanced := ⟨0, .nil⟩
  sorted := List.Pairwise.nil
  noLeak _ ha := absurd rfl ha

theorem lists_nil : Contents.Lists (fun _ => none) (pairs (.nil : ColorTree (Entry V))) := by
  simp [Contents.Lists, pairs, pairsOf, toList]

end Refinement

/-- Every sequence of calls from the empty tree comes to its end without a fault, a failed assertion
among them. The heap holds a red-black tree sorted by `strcmp`. `rbtree_get` reads the finite map,
and a duplicate insertion or the deletion of a key that is not there change nothing (but that an
address was given out and released). -/
theorem rbtree_operations_correct (dispose : Bool) (ops : List (Operation V)) :
    ∃ (tree : RbTree V) (s : ColorTree (Entry V)), (RbTree.init dispose).performAll ops = .ok tree ∧
      Holds tree s ∧ Sorted s ∧ (∃ n, Balanced s .black n) ∧
      (∀ key, tree.rbtreeGet key = .ok (Contents.after ops key).join) ∧
      (∀ key value, Contents.after ops key ≠ none →
        tree.rbtreeInsert key value = .ok ({ tree with next := tree.next + 1 }, none)) ∧
      (∀ key, Contents.after ops key = none → tree.rbtreeDelete key = .ok (tree, 0)) := by
  obtain ⟨tree, s, hrun, h, hm⟩ := performAll_spec (redBlack_init dispose) lists_nil ops
  refine ⟨tree, s, hrun, h.holds, h.sorted, h.balanced, ?_, ?_, ?_⟩
  · exact fun key => rbtreeGet_spec h hm key
  · intro key value hkey
    rcases h.lookup hm key with ⟨q, c, x, l, r, hdescend, -⟩ | ⟨q, -, -, -, hnone⟩
    · exact rbtreeInsert_found h.holds hdescend value
    · exact absurd hnone hkey
  · exact fun key hkey => rbtreeDelete_absent h hm hkey

end

/-! ## Listing the keys -/

open VersionMatcher (strcmp strcmp_eq_zero strcmp_swap strcmp_lt_trans)

namespace RbTree

variable (tree : RbTree V)

/-- The recursion of `rb_keys` and `rb_range`, with the conditions for going on to the left, for
taking the key and for going on to the right. -/
def rbCollect (toLeft takes toRight : List Char → Bool) :
    Nat → Option Nat → List (List Char) → Except Fault (List (List Char))
  | 0, _, _ => .error .unfinished
  | fuel + 1, node, array => do
      let n ← tree.deref node
      let array ← (if n.left ≠ none ∧
        toLeft n.key then rbCollect toLeft takes toRight fuel n.left array else pure array)
      let array := if takes n.key then array ++ [n.key] else array
      if n.right ≠ none ∧
        toRight n.key then rbCollect toLeft takes toRight fuel n.right array else pure array

/-- `rb_keys`. -/
def rbKeys : Nat → Option Nat → List (List Char) → Except Fault (List (List Char)) :=
  tree.rbCollect (fun _ => true) (fun _ => true) (fun _ => true)

/-- `rb_range`. -/
def rbRange (min max : List Char) :
    Nat → Option Nat → List (List Char) → Except Fault (List (List Char)) :=
  tree.rbCollect (fun key => strcmp key min > 0)
    (fun key => strcmp key min ≥ 0 ∧ strcmp key max ≤ 0) (fun key => strcmp key max < 0)

/-- `rb_size`. -/
def rbSize : Nat → Option Nat → Except Fault UInt32
  | 0, _ => .error .unfinished
  | fuel + 1, node => do
      let n ← tree.deref node
      let left ← (if n.left ≠ none then rbSize fuel n.left else pure 0)
      let right ← (if n.right ≠ none then rbSize fuel n.right else pure 0)
      pure (left + 1 + right)

/-- `rbtree_keys`. -/
def rbtreeKeys : Except Fault (List (List Char)) :=
  if tree.root ≠ none then tree.rbKeys tree.rounds tree.root [] else .ok []

/-- `rbtree_range`. -/
def rbtreeRange (min max : List Char) : Except Fault (List (List Char)) :=
  if tree.root ≠ none then tree.rbRange min max tree.rounds tree.root [] else .ok []

/-- `rbtree_size`. -/
def rbtreeSize : Except Fault UInt32 :=
  if tree.root ≠ none then tree.rbSize tree.rounds tree.root else .ok 0

end RbTree

open Foundations.ColorTree

/-- The keys of a tree, in order. -/
def keysOf (s : ColorTree (Entry V)) : List (List Char) := s.toList.map Entry.key

section Traversal

variable {tree : RbTree V} {p : Path (Entry V)} {t : ColorTree (Entry V)} {fuel : Nat}

/-- `rb_size` counts the nodes below a pointer. -/
theorem rbSize_eq (h : Holds tree (plug p t)) (hfuel : t.toList.length ≤ fuel) :
    (if ptr t ≠ none then tree.rbSize fuel (ptr t) else .ok 0) =
      .ok (UInt32.ofNat (keysOf t).length) := by
  induction t generalizing p fuel with
  | nil => rfl
  | node c x l r ihl ihr =>
    rw [length_toList_node] at hfuel
    obtain ⟨rounds, rfl⟩ := Nat.exists_eq_add_of_le' (Nat.le_of_add_left_le hfuel)
    have hl := ihl (p := ⟨.left, c, x, r⟩ :: p) h (show _ ≤ rounds by omega)
    have hr := ihr (p := ⟨.right, c, x, l⟩ :: p) h (show _ ≤ rounds by omega)
    rw [ptr, if_pos (Option.some_ne_none _), RbTree.rbSize, h.deref_node]
    change (do
      let left ← (if ptr l ≠ none then tree.rbSize rounds (ptr l) else .ok 0)
      let right ← (if ptr r ≠ none then tree.rbSize rounds (ptr r) else .ok 0)
      pure (left + 1 + right)) = _
    rw [hl, hr]
    simp [keysOf, toList]
    rw [UInt32.add_assoc, UInt32.add_comm 1]

variable {toLeft takes toRight : List Char → Bool}

/-- A subtree that is left out has no keys to take. -/
theorem visit_eq {go : Bool} {array : List (List Char)}
    (hskip : go = false → ∀ e ∈ t.toList, takes e.key = false)
    (hvisit : (if ptr t ≠ none then tree.rbCollect toLeft takes toRight fuel (ptr t) array
    else .ok array) = .ok (array ++ (keysOf t).filter takes)) :
    (if ptr t ≠ none ∧
      go then tree.rbCollect toLeft takes toRight fuel (ptr t) array else .ok array) =
      .ok (array ++ (keysOf t).filter takes) := by
  cases go with
  | true => simpa using hvisit
  | false =>
    have hnone : (keysOf t).filter takes = [] := by
      simpa [keysOf] using hskip rfl
    simp [hnone]

/-- A traversal that leaves out only subtrees without keys to take. -/
theorem rbCollect_eq (hleft : ∀ k k', toLeft k = false → strcmp k' k < 0 → takes k' = false)
    (hright : ∀ k k', toRight k = false → strcmp k k' < 0 → takes k' = false)
    (h : Holds tree (plug p t)) (hs : Sorted t) (hfuel : t.toList.length ≤ fuel)
    (array : List (List Char)) :
    (if ptr t ≠ none then tree.rbCollect toLeft takes toRight fuel (ptr t) array else .ok array) =
      .ok (array ++ (keysOf t).filter takes) := by
  induction t generalizing p fuel array with
  | nil => simp [keysOf, toList]
  | node c x l r ihl ihr =>
    rw [length_toList_node] at hfuel
    obtain ⟨rounds, rfl⟩ := Nat.exists_eq_add_of_le' (Nat.le_of_add_left_le hfuel)
    rw [Sorted, toList, List.pairwise_append, List.pairwise_cons] at hs
    obtain ⟨hsl, ⟨hxr, hsr⟩, hlx⟩ := hs
    have hl := visit_eq (fun hgo e he => hleft _ _ hgo (hlx e he x List.mem_cons_self))
      (ihl (p := ⟨.left, c, x, r⟩ :: p) h hsl (show _ ≤ rounds by omega) array)
    have hr (array) := visit_eq (fun hgo e he => hright _ _ hgo (hxr e he))
      (ihr (p := ⟨.right, c, x, l⟩ :: p) h hsr (show _ ≤ rounds by omega) array)
    rw [ptr, if_pos (Option.some_ne_none _), RbTree.rbCollect, h.deref_node]
    simp only [ok_bind, pure_eq_ok, cell_left_left, cell_left_right, cell_key, hl, hr]
    by_cases htake : takes x.key <;> simp [keysOf, toList, htake]

end Traversal

section Tree

variable {tree : RbTree V} {s : ColorTree (Entry V)} (h : Holds tree s) (hs : Sorted s)

include h

theorem rbtreeSize_eq : tree.rbtreeSize = .ok (UInt32.ofNat (keysOf s).length) := by
  have hlength := h.length_lt
  rw [RbTree.rbtreeSize, h.root]
  exact rbSize_eq (p := []) h (by omega)

include hs

theorem rbtreeKeys_eq : tree.rbtreeKeys = .ok (keysOf s) := by
  have hlength := h.length_lt
  rw [RbTree.rbtreeKeys, h.root, RbTree.rbKeys,
    rbCollect_eq (p := []) (by simp) (by simp) h hs (by omega)]
  simp

theorem rbtreeRange_eq (min max : List Char) :
    tree.rbtreeRange min max =
    .ok ((keysOf s).filter fun key => strcmp key min ≥ 0 ∧ strcmp key max ≤ 0) := by
  have hlength := h.length_lt
  rw [RbTree.rbtreeRange, h.root, RbTree.rbRange, rbCollect_eq (p := []) ?_ ?_ h hs (by omega)]
  · simp
  · -- a key below one that is not above `min` is below `min`
    intro k k' hk hlt
    have hmin : strcmp k' min < 0 := by
      rcases (show strcmp k min < 0 ∨ strcmp k min = 0 by simp at hk; omega) with hbelow | heq
      · exact strcmp_lt_trans hlt hbelow
      · rwa [← strcmp_eq_zero.1 heq]
    simp only [decide_eq_false_iff_not]
    omega
  · intro k k' hk hlt
    have hmax : strcmp max k' < 0 := by
      have hswap := strcmp_swap max k
      rcases (show strcmp max k < 0 ∨ strcmp max k = 0 by simp at hk; omega) with habove | heq
      · exact strcmp_lt_trans habove hlt
      · rwa [strcmp_eq_zero.1 heq]
    have hswap := strcmp_swap max k'
    simp only [decide_eq_false_iff_not]
    omega

end Tree

/-- After every sequence of calls, `rbtree_keys` returns the keys of the finite map in strictly
increasing order, `rbtree_size` their number (an `unsigned`), and `rbtree_range` those from `min` to
`max`, in the same order. -/
theorem rbtree_listing_correct (dispose : Bool) (ops : List (Operation V)) :
    ∃ (tree : RbTree V) (keys : List (List Char)), (RbTree.init dispose).performAll ops = .ok tree ∧
      tree.rbtreeKeys = .ok keys ∧ keys.Pairwise (fun k k' => strcmp k k' < 0) ∧
      (∀ key, key ∈ keys ↔ Contents.after ops key ≠ none) ∧
      tree.rbtreeSize = .ok (UInt32.ofNat keys.length) ∧
      ∀ min max, tree.rbtreeRange min max =
        .ok (keys.filter fun key => strcmp min key ≤ 0 ∧ strcmp key max ≤ 0) := by
  obtain ⟨tree, s, hrun, h, hm⟩ := performAll_spec (redBlack_init dispose) lists_nil ops
  refine ⟨tree, keysOf s, hrun, rbtreeKeys_eq h.holds h.sorted, List.pairwise_map.2 h.sorted, ?_,
    rbtreeSize_eq h.holds, ?_⟩
  · intro key
    rw [Option.ne_none_iff_exists']
    change _ ↔ ∃ v, ops.foldl Contents.perform (fun _ => none) key = some v
    simp only [hm key, pairs, pairsOf, keysOf, List.mem_map, Prod.mk.injEq]
    grind
  · intro min max
    rw [rbtreeRange_eq h.holds h.sorted]
    congr 2
    funext key
    rw [strcmp_swap min key]
    simp

/-- In every tree the calls lead to, the loop of `rb_get` ends within `2 * log₂ (n + 1) + 1` rounds,
for `n` keys. -/
theorem rbGet_rounds_logarithmic (dispose : Bool) (ops : List (Operation V)) :
    ∃ (tree : RbTree V) (keys : List (List Char)), (RbTree.init dispose).performAll ops = .ok tree ∧
      tree.rbtreeKeys = .ok keys ∧
      ∀ key, ∃ node, tree.rbGetLoop key (2 * (keys.length + 1).log2 + 1) tree.root = .ok node ∧
        tree.rbGet tree.root key = .ok node := by
  obtain ⟨tree, s, hrun, h, -⟩ := performAll_spec (redBlack_init dispose) lists_nil ops
  obtain ⟨n, hn⟩ := h.balanced
  refine ⟨tree, keysOf s, hrun, rbtreeKeys_eq h.holds h.sorted,
    fun key => ⟨_, ?_, rbGet_eq h.holds⟩⟩
  have hlog : n ≤ ((keysOf s).length + 1).log2 := by
    rw [Nat.le_log2 (Nat.succ_ne_zero _), keysOf, List.length_map]
    exact hn.two_pow_le
  rw [h.holds.root]
  exact rbGetLoop_balanced (p := []) h.holds hn (.inr ⟨rfl, by omega⟩)

end WazAISentinel.Shared
