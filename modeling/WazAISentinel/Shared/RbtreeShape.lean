import WazAISentinel.Shared.RbtreeOp

/-!
# Trees on the heap

`Holds tree s` says that the heap holds the red-black shape `s`: every node of `s` is at its
address, with its key, value and color and the pointers to its children and its parent. Recoloring
and rotating rearrange the tree: the entries keep their order and nothing outside the tree changes
(`Rearranged`).

The loops of `rb_get`, `rbtree_insert` and `rb_min` go down along one path of the tree. The first
two follow the comparison with a key (`searchSide`); in a tree that is sorted by `strcmp` they end
at the node with the key, or at the only leaf where the key may be put.
-/

namespace WazAISentinel.Shared

open Foundations List
open Foundations.ColorTree

variable {V : Type}

@[simp] theorem ok_bind {ε α β : Type} (a : α) (f : α → Except ε β) : .ok a >>= f = f a := rfl

@[simp] theorem pure_eq_ok {ε α : Type} (a : α) : (pure a : Except ε α) = .ok a := rfl

/-- An entry of the tree, with the address of its node. -/
structure Entry (V : Type) where
  addr : Nat
  key : List Char
  value : Option V

/-- The pointer to a subtree. -/
def ptr : ColorTree (Entry V) → Option Nat
  | .nil => none
  | .node _ x _ _ => some x.addr

/-- The addresses of a subtree. -/
def addrs (t : ColorTree (Entry V)) : List Nat := t.toList.map Entry.addr

/-- The node of an entry, with the child on the side `d` and the other one. -/
def cell (d : Dir) (c : Color) (x : Entry V) (parent near far : Option Nat) : RbNode V :=
  match d with
  | .left => ⟨x.key, x.value, c, parent, near, far⟩
  | .right => ⟨x.key, x.value, c, parent, far, near⟩

/-- The heap holds a subtree below `parent`. -/
def Rep (heap : Nat → Option (RbNode V)) : Option Nat → ColorTree (Entry V) → Prop
  | _, .nil => True
  | parent, .node c x l r =>
    heap x.addr = some (cell .left c x parent (ptr l) (ptr r)) ∧ Rep heap (some x.addr) l ∧
      Rep heap (some x.addr) r

/-- The node above a hole. -/
def top : Path (Entry V) → Option Nat
  | [] => none
  | f :: _ => some f.label.addr

@[simp] theorem top_cons (f : Frame (Entry V)) (p : Path (Entry V)) :
    top (f :: p) = some f.label.addr := rfl

/-- The addresses of a path. -/
def pathAddrs (p : Path (Entry V)) : List Nat := p.flatMap fun f => f.label.addr :: addrs f.other

/-- The heap holds a path with the pointer `child` in its hole. -/
def RepPath (heap : Nat → Option (RbNode V)) : Path (Entry V) → Option Nat → Prop
  | [], _ => True
  | f :: p, child =>
    heap f.label.addr = some (cell f.side f.color f.label (top p) child (ptr f.other)) ∧
      Rep heap (some f.label.addr) f.other ∧ RepPath heap p (some f.label.addr)

/-- The heap holds the tree `s`. -/
structure Holds (tree : RbTree V) (s : ColorTree (Entry V)) : Prop where
  root : tree.root = ptr s
  rep : Rep tree.heap none s
  nodup : (addrs s).Nodup
  fresh : ∀ a, tree.next ≤ a → tree.heap a = none

/-- Nothing but nodes with the given addresses and the root has changed. -/
structure Within (addresses : List Nat) (tree tree' : RbTree V) : Prop where
  frame : ∀ a, a ∉ addresses → tree'.heap a = tree.heap a
  live : ∀ a, tree.heap a ≠ none → tree'.heap a ≠ none
  next : tree'.next = tree.next
  dispose : tree'.dispose = tree.dispose
  disposed : tree'.disposed = tree.disposed

/-! ## Nodes -/

section Cells

variable (d : Dir) (c : Color) (x : Entry V) (parent near far q : Option Nat)

@[simp] theorem cell_key : (cell d c x parent near far).key = x.key := by cases d <;> rfl

@[simp] theorem cell_value : (cell d c x parent near far).value = x.value := by cases d <;> rfl

@[simp] theorem cell_color : (cell d c x parent near far).color = c := by cases d <;> rfl

@[simp] theorem cell_parent : (cell d c x parent near far).parent = parent := by cases d <;> rfl

@[simp] theorem child_cell : (cell d c x parent near far).child d = near := by cases d <;> rfl

@[simp] theorem child_flip_cell : (cell d c x parent near far).child d.flip = far := by
  cases d <;> rfl

@[simp] theorem cell_left_left : (cell .left c x parent near far).left = near := rfl

@[simp] theorem cell_left_right : (cell .left c x parent near far).right = far := rfl

@[simp] theorem setChild_cell :
    (cell d c x parent near far).setChild d q = cell d c x parent q far := by
  cases d <;> rfl

@[simp] theorem setChild_flip_cell :
    (cell d c x parent near far).setChild d.flip q = cell d c x parent near q := by
  cases d <;> rfl

@[simp] theorem setParent_cell :
    (cell d c x parent near far).setParent q = cell d c x q near far := by
  cases d <;> rfl

@[simp] theorem setColor_cell (c' : Color) :
    (cell d c x parent near far).setColor c' = cell d c' x parent near far := by
  cases d <;> rfl

end Cells

/-! ## Subtrees and paths -/

@[simp] theorem ptr_join (d : Dir) (c : Color) (x : Entry V) (s t : ColorTree (Entry V)) :
    ptr (join d c x s t) = some x.addr := by
  cases d <;> rfl

@[simp] theorem ptr_nil : ptr (.nil : ColorTree (Entry V)) = none := rfl

variable {a : Nat} {child parent : Option Nat} {n : RbNode V} {s' t s : ColorTree (Entry V)}
  {y : Entry V} {heap heap' : Nat → Option (RbNode V)} {tree tree' : RbTree V} {p : Path (Entry V)}

theorem ptr_mem (h : ptr t = some a) : a ∈ addrs t := by
  cases t with
  | nil => cases h
  | node c x l r =>
    cases h
    simp [addrs, toList]

/-- The root does not depend on what is in the hole, if there is something above it. -/
theorem ptr_plug_cons (f : Frame (Entry V)) (p : Path (Entry V)) (s t : ColorTree (Entry V)) :
    ptr (plug (f :: p) s) = ptr (plug (f :: p) t) := by
  induction p generalizing f s t with
  | nil => simp [Frame.attach]
  | cons g p ih => exact ih g (f.attach s) (f.attach t)

theorem addrs_join_perm (d : Dir) (c : Color) (x : Entry V) (s t : ColorTree (Entry V)) :
    (addrs (join d c x s t)).Perm (x.addr :: (addrs s ++ addrs t)) := by
  cases d with
  | left =>
    simp only [addrs, join, toList, map_append, map_cons]
    exact perm_middle
  | right =>
    simp only [addrs, join, toList, map_append, map_cons]
    exact perm_middle.trans (Perm.cons _ perm_append_comm)

theorem addrs_plug_perm (p : Path (Entry V)) (t : ColorTree (Entry V)) :
    (addrs (plug p t)).Perm (pathAddrs p ++ addrs t) := by
  induction p generalizing t with
  | nil => exact Perm.refl _
  | cons f p ih =>
    have hattach := addrs_join_perm f.side f.color f.label t f.other
    have hpath : pathAddrs (f :: p) = f.label.addr :: addrs f.other ++ pathAddrs p := rfl
    rw [hpath]
    refine (ih (f.attach t)).trans ((hattach.append_left _).trans ?_)
    rw [perm_iff_count]
    simp only [count_append, count_cons]
    omega

theorem rep_join {d : Dir} {c : Color} {x : Entry V} :
    Rep heap parent (join d c x s t) ↔
      heap x.addr = some (cell d c x parent (ptr s) (ptr t)) ∧ Rep heap (some x.addr) s ∧
        Rep heap (some x.addr) t := by
  cases d with
  | left => exact Iff.rfl
  | right => exact and_congr_right fun _ => and_comm

/-- A tree is on the heap exactly if the path and the subtree in its hole are. -/
theorem rep_plug :
    Rep heap none (plug p t) ↔ RepPath heap p (ptr t) ∧ Rep heap (top p) t := by
  induction p generalizing t with
  | nil => simp [RepPath, top]
  | cons f p ih =>
    rw [plug_cons, ih, Frame.attach, rep_join, ptr_join]
    simp only [RepPath, top]
    tauto

theorem mem_addrs_node {c : Color} {x : Entry V} {l r : ColorTree (Entry V)} :
    a ∈ addrs (.node c x l r) ↔ a ∈ addrs l ∨ a = x.addr ∨ a ∈ addrs r := by
  simp [addrs, toList]

theorem Rep.congr (h : Rep heap parent t) (hsame : ∀ a ∈ addrs t, heap' a = heap a) :
    Rep heap' parent t := by
  induction t generalizing parent with
  | nil => trivial
  | node c x l r ihl ihr =>
    obtain ⟨hx, hl, hr⟩ := h
    refine ⟨?_, ?_, ?_⟩
    · rw [hsame x.addr (mem_addrs_node.2 (.inr (.inl rfl))), hx]
    · exact ihl hl fun a ha => hsame a (mem_addrs_node.2 (.inl ha))
    · exact ihr hr fun a ha => hsame a (mem_addrs_node.2 (.inr (.inr ha)))

theorem RepPath.congr (h : RepPath heap p child) (hsame : ∀ a ∈ pathAddrs p, heap' a = heap a) :
    RepPath heap' p child := by
  induction p generalizing child with
  | nil => trivial
  | cons f p ih =>
    obtain ⟨hf, hother, hp⟩ := h
    have hmem : ∀ a, a ∈ pathAddrs (f :: p) ↔
        a = f.label.addr ∨ a ∈ addrs f.other ∨ a ∈ pathAddrs p := by
      simp [pathAddrs]
    refine ⟨?_, ?_, ?_⟩
    · rw [hsame _ ((hmem _).2 (.inl rfl)), hf]
    · exact hother.congr fun a ha => hsame a ((hmem a).2 (.inr (.inl ha)))
    · exact ih hp fun a ha => hsame a ((hmem a).2 (.inr (.inr ha)))

/-- Every node of the tree is on the heap. -/
theorem Rep.heap_ne_none (h : Rep heap parent t) (ha : a ∈ addrs t) : heap a ≠ none := by
  induction t generalizing parent with
  | nil => cases ha
  | node c x l r ihl ihr =>
    obtain ⟨hx, hl, hr⟩ := h
    rcases mem_addrs_node.1 ha with ha | rfl | ha
    · exact ihl hl ha
    · rw [hx]
      exact Option.some_ne_none _
    · exact ihr hr ha

/-- An address that has not been given out is not in the tree. -/
theorem Holds.not_mem_of_le (h : Holds tree s) (ha : tree.next ≤ a) :
    a ∉ addrs s := fun hmem => h.rep.heap_ne_none hmem (h.fresh a ha)

/-! ## What changes -/

namespace Within

variable {addresses : List Nat} {tree'' : RbTree V}

theorem refl (addresses : List Nat) (tree : RbTree V) : Within addresses tree tree :=
  ⟨fun _ _ => rfl, fun _ h => h, rfl, rfl, rfl⟩

theorem trans (h : Within addresses tree tree') (h' : Within addresses tree' tree'') :
    Within addresses tree tree'' where
  frame a ha := (h'.frame a ha).trans (h.frame a ha)
  live a ha := h'.live a (h.live a ha)
  next := h'.next.trans h.next
  dispose := h'.dispose.trans h.dispose
  disposed := h'.disposed.trans h.disposed

theorem mono {larger : List Nat} (h : Within addresses tree tree')
    (hsub : ∀ a ∈ addresses, a ∈ larger) : Within larger tree tree' :=
  ⟨fun a ha => h.frame a fun hmem => ha (hsub a hmem), h.live, h.next, h.dispose, h.disposed⟩

theorem same_of_not_mem (h : Within [a] tree tree') (ha : a ∉ addresses) :
    ∀ b ∈ addresses, tree'.heap b = tree.heap b :=
  fun b hb => h.frame b (mt mem_singleton.1 (ne_of_mem_of_not_mem hb ha))

end Within

/-- Changing a node that is there. -/
theorem store_eq (h : tree.heap a = some n) (f : RbNode V → RbNode V) :
    ∃ tree', tree.store (some a) f = .ok tree' ∧ tree'.heap a = some (f n) ∧
      tree'.root = tree.root ∧ Within [a] tree tree' := by
  refine ⟨{ tree with heap := Function.update tree.heap a (some (f n)) }, ?_,
    Function.update_self .., rfl, ?_, ?_, rfl, rfl, rfl⟩
  · rw [RbTree.store, h]
  · intro b hb
    exact Function.update_of_ne (ne_of_not_mem_cons hb) ..
  · intro b hb
    dsimp only
    rw [Function.update_apply]
    split
    · exact Option.some_ne_none _
    · exact hb

theorem deref_eq (h : tree.heap a = some n) : tree.deref (some a) = .ok n := by
  rw [RbTree.deref, h]

/-- Setting the parent of a subtree, if there is one. -/
theorem reparent (hrep : Rep tree.heap parent t) (hnodup : (addrs t).Nodup) (q : Option Nat) :
    ∃ tree', tree.setParentOf (ptr t) q = .ok tree' ∧
      Rep tree'.heap q t ∧ tree'.root = tree.root ∧ Within (addrs t) tree tree' := by
  cases t with
  | nil => exact ⟨tree, rfl, trivial, rfl, Within.refl _ _⟩
  | node c x l r =>
    obtain ⟨hx, hl, hr⟩ := hrep
    obtain ⟨tree', hstore, hx', hroot, hwithin⟩ := store_eq hx (RbNode.setParent q)
    have hperm := addrs_join_perm .left c x l r
    have hsame := hwithin.same_of_not_mem (nodup_cons.1 (hperm.nodup_iff.1 hnodup)).1
    refine ⟨tree', ?_, ⟨?_, ?_, ?_⟩, hroot, ?_⟩
    · rw [RbTree.setParentOf, if_pos (by simp [ptr])]
      exact hstore
    · rw [hx', setParent_cell]
    · exact hl.congr fun a ha => hsame a (mem_append_left _ ha)
    · exact hr.congr fun a ha => hsame a (mem_append_right _ ha)
    · exact hwithin.mono (forall_mem_singleton.2 (ptr_mem rfl))

/-- The code finds the side of a child by comparing it with the left one. -/
theorem side_eq {near far : Option Nat} (d : Dir) (c : Color) (x : Entry V) (parent : Option Nat)
    (hne : far ≠ near) :
    (if near = (cell d c x parent near far).left then Dir.left else Dir.right) = d := by
  cases d with
  | left => simp [cell]
  | right => simp [cell, hne.symm]

/-- Putting another pointer in the hole of a path that is not empty. -/
theorem store_hole {f : Frame (Entry V)} (hpath : RepPath tree.heap (f :: p) child)
    (hnodup : (pathAddrs (f :: p)).Nodup) (t : Option Nat) :
    ∃ tree', tree.store (some f.label.addr) (RbNode.setChild f.side t) = .ok tree' ∧
      RepPath tree'.heap (f :: p) t ∧ tree'.root = tree.root ∧
        Within (pathAddrs (f :: p)) tree tree' := by
  obtain ⟨hf, hother, hp⟩ := hpath
  obtain ⟨tree', hstore, hf', hroot, hwithin⟩ := store_eq hf (RbNode.setChild f.side t)
  have hpathAddrs : pathAddrs (f :: p) = f.label.addr :: (addrs f.other ++ pathAddrs p) := rfl
  rw [hpathAddrs, nodup_cons] at hnodup
  have hsame := hwithin.same_of_not_mem hnodup.1
  refine ⟨tree', hstore, ⟨?_, ?_, ?_⟩, hroot, ?_⟩
  · rw [hf', setChild_cell]
  · exact hother.congr fun b hb => hsame b (mem_append_left _ hb)
  · exact hp.congr fun b hb => hsame b (mem_append_right _ hb)
  · exact hwithin.mono (forall_mem_singleton.2 mem_cons_self)

/-- `t` takes the place of a node. -/
theorem relink (hpath : RepPath tree.heap p (some a)) (hnodup : (a :: pathAddrs p).Nodup)
    (t : Option Nat) :
    ∃ tree', tree.replaceChild (top p) (some a) t = .ok tree' ∧ RepPath tree'.heap p t ∧
      tree'.root = (if p = [] then t else tree.root) ∧ Within (pathAddrs p) tree tree' := by
  rw [nodup_cons] at hnodup
  cases p with
  | nil =>
    exact ⟨{ tree with root := t }, rfl, trivial, rfl,
      ⟨fun _ _ => rfl, fun _ h => h, rfl, rfl, rfl⟩⟩
  | cons f p =>
    obtain ⟨tree', hstore, hpath', hroot, hwithin⟩ := store_hole hpath hnodup.2 t
    have hne : ptr f.other ≠ some a := by
      intro heq
      exact hnodup.1 (by simp [pathAddrs, ptr_mem heq])
    have hside := side_eq f.side f.color f.label (top p) hne
    refine ⟨tree', ?_, hpath', by simpa using hroot, hwithin⟩
    rw [RbTree.replaceChild, top, if_neg (Option.some_ne_none _), deref_eq hpath.1]
    simp only [ok_bind]
    rw [← apply_ite fun d => tree.store (some f.label.addr) (RbNode.setChild d t), hside]
    exact hstore

/-- A tree with another subtree in a hole. -/
theorem Holds.refill (h : Holds tree (plug p s))
    (hroot : tree'.root = if p = [] then ptr t else tree.root)
    (hpath : RepPath tree'.heap p (ptr t)) (hrep : Rep tree'.heap (top p) t)
    (hnodup : (addrs (plug p t)).Nodup) (hfresh : ∀ a, tree'.next ≤ a → tree'.heap a = none) :
    Holds tree' (plug p t) := by
  refine ⟨?_, rep_plug.2 ⟨hpath, hrep⟩, hnodup, hfresh⟩
  rw [hroot]
  cases p with
  | nil => exact if_pos rfl
  | cons f p =>
    rw [if_neg (cons_ne_nil f p), h.root]
    exact ptr_plug_cons f p _ _

/-- Addresses that have not been given out stay so. -/
theorem Holds.fresh_of_within (h : Holds tree s) (hwithin : Within (addrs s) tree tree') :
    ∀ a, tree'.next ≤ a → tree'.heap a = none := by
  intro a ha
  rw [hwithin.next] at ha
  rw [hwithin.frame a (h.not_mem_of_le ha)]
  exact h.fresh a ha

/-- The same entries in the same order, and nothing else changed. -/
structure Rearranged (tree tree' : RbTree V) (s s' : ColorTree (Entry V)) : Prop where
  holds : Holds tree' s'
  toList : s'.toList = s.toList
  within : Within (addrs s) tree tree'

theorem Rearranged.addrs_eq (h : Rearranged tree tree' s s') : addrs s' = addrs s := by
  rw [addrs, h.toList, addrs]

theorem Rearranged.refl (h : Holds tree s) : Rearranged tree tree s s :=
  ⟨h, rfl, Within.refl _ _⟩

theorem Rearranged.trans {tree'' : RbTree V} {s'' : ColorTree (Entry V)}
    (h : Rearranged tree tree' s s') (h' : Rearranged tree' tree'' s' s'') :
      Rearranged tree tree'' s s'' where
  holds := h'.holds
  toList := h'.toList.trans h.toList
  within := h.within.trans (h.addrs_eq ▸ h'.within)

/-! ## Rotations and colors -/

/-- A rotation on the heap is a rotation of the tree. -/
theorem rotate_spec (d : Dir) {cx cy : Color} {x : Entry V} {u : ColorTree (Entry V)}
    (h : Holds tree (plug p (join d cx x s (join d cy y t u)))) :
    ∃ tree', RbTree.rotate d tree (some x.addr) = .ok tree' ∧
      Rearranged tree tree' (plug p (join d cx x s (join d cy y t u)))
        (plug p (join d cy y (join d cx x s t) u)) := by
  obtain ⟨hpath, hrep⟩ := rep_plug.1 h.rep
  rw [rep_join, rep_join, ptr_join] at hrep
  rw [ptr_join] at hpath
  obtain ⟨hx, hs, hy, ht, hu⟩ := hrep
  have hperm : (addrs (plug p (join d cx x s (join d cy y t u)))).Perm
      (pathAddrs p ++ x.addr :: (addrs s ++ y.addr :: (addrs t ++ addrs u))) :=
    (addrs_plug_perm p _).trans (((addrs_join_perm d cx x s _).trans
      (((addrs_join_perm d cy y t u).append_left _).cons _)).append_left _)
  have hnodup := hperm.nodup_iff.1 h.nodup
  simp only [nodup_append, nodup_cons, mem_append, mem_cons, not_or] at hnodup
  -- the other node takes the place below the path
  obtain ⟨tree₁, hrelink, hpath₁, hroot₁, hwithin₁⟩ := relink hpath (by
    rw [nodup_cons]
    exact ⟨by grind, hnodup.1⟩) (some y.addr)
  have hy₁ : tree₁.heap y.addr = _ := (hwithin₁.frame y.addr (by grind)).trans hy
  have hx₁ : tree₁.heap x.addr = _ := (hwithin₁.frame x.addr (by grind)).trans hx
  have ht₁ : Rep tree₁.heap (some y.addr) t := ht.congr fun a ha => hwithin₁.frame a (by grind)
  -- the middle subtree changes its parent
  obtain ⟨tree₂, hreparent, ht₂, hroot₂, hwithin₂⟩ := reparent ht₁ (by grind) (some x.addr)
  have hy₂ : tree₂.heap y.addr = _ := (hwithin₂.frame y.addr (by grind)).trans hy₁
  have hx₂ : tree₂.heap x.addr = _ := (hwithin₂.frame x.addr (by grind)).trans hx₁
  -- the four pointers between the two nodes
  obtain ⟨tree₃, hstore₃, hx₃, hroot₃, hwithin₃⟩ := store_eq hx₂ (RbNode.setChild d.flip (ptr t))
  have hy₃ : tree₃.heap y.addr = _ := (hwithin₃.frame y.addr (by grind)).trans hy₂
  obtain ⟨tree₄, hstore₄, hy₄, hroot₄, hwithin₄⟩ := store_eq hy₃ (RbNode.setChild d (some x.addr))
  have hx₄ : tree₄.heap x.addr = _ := (hwithin₄.frame x.addr (by grind)).trans hx₃
  obtain ⟨tree₅, hstore₅, hy₅, hroot₅, hwithin₅⟩ := store_eq hy₄ (RbNode.setParent (top p))
  have hx₅ : tree₅.heap x.addr = _ := (hwithin₅.frame x.addr (by grind)).trans hx₄
  obtain ⟨tree₆, hstore₆, hx₆, hroot₆, hwithin₆⟩ := store_eq hx₅ (RbNode.setParent (some y.addr))
  have hy₆ : tree₆.heap y.addr = _ := (hwithin₆.frame y.addr (by grind)).trans hy₅
  simp only [setChild_flip_cell, setChild_cell, setParent_cell] at hx₄ hx₆ hy₆
  have hlast : Within [x.addr, y.addr] tree₂ tree₆ := by
    have hx' : ∀ a ∈ [x.addr], a ∈ [x.addr, y.addr] := by simp
    have hy' : ∀ a ∈ [y.addr], a ∈ [x.addr, y.addr] := by simp
    exact (((hwithin₃.mono hx').trans (hwithin₄.mono hy')).trans (hwithin₅.mono hy')).trans
      (hwithin₆.mono hx')
  have hwithin : Within (addrs (plug p (join d cx x s (join d cy y t u)))) tree tree₆ := by
    refine ((hwithin₁.mono ?_).trans (hwithin₂.mono ?_)).trans (hlast.mono ?_)
    all_goals
      intro a ha
      grind
  have hother : ∀ a ∈ addrs s ++ addrs u, tree₆.heap a = tree.heap a := by
    intro a ha
    rw [hlast.frame a (by grind), hwithin₂.frame a (by grind), hwithin₁.frame a (by grind)]
  refine ⟨tree₆, ?_, h.refill ?_ ?_ ?_ ?_ (h.fresh_of_within hwithin), ?_, hwithin⟩
  · simp [RbTree.rotate, deref_eq hx, hrelink, deref_eq hy₁, hreparent, deref_eq hy₂, hstore₃,
      hstore₄, deref_eq hx₄, hstore₅, hstore₆]
  · rw [hroot₆, hroot₅, hroot₄, hroot₃, hroot₂, hroot₁, ptr_join]
  · rw [ptr_join]
    exact hpath₁.congr fun a ha => by rw [hlast.frame a (by grind), hwithin₂.frame a (by grind)]
  · rw [rep_join, rep_join, ptr_join]
    refine ⟨hy₆, ⟨hx₆, ?_, ?_⟩, ?_⟩
    · exact hs.congr fun a ha => hother a (mem_append_left _ ha)
    · exact ht₂.congr fun a ha => hlast.frame a (by grind)
    · exact hu.congr fun a ha => hother a (mem_append_right _ ha)
  · rw [addrs, toList_plug_congr (toList_rotate cy cx cx cy x y s t u) p]
    exact h.nodup
  · exact toList_plug_congr (toList_rotate cy cx cx cy x y s t u) p

section Focus

variable {d : Dir} {c : Color} {x : Entry V}

section

variable (h : Holds tree (plug p (join d c x s t)))

include h

/-- The node in focus. -/
theorem Holds.heap_focus :
    tree.heap x.addr = some (cell d c x (top p) (ptr s) (ptr t)) :=
  (rep_join.1 (rep_plug.1 h.rep).2).1

theorem Holds.deref_focus :
    tree.deref (some x.addr) = .ok (cell d c x (top p) (ptr s) (ptr t)) :=
  deref_eq h.heap_focus

/-- The addresses at the focus are distinct. -/
theorem Holds.nodup_focus : (pathAddrs p ++ x.addr :: (addrs s ++ addrs t)).Nodup :=
  ((addrs_plug_perm p _).trans ((addrs_join_perm d c x s t).append_left _)).nodup_iff.1 h.nodup

end

theorem Holds.deref_node (h : Holds tree (plug p (.node c x s t))) :
    tree.deref (some x.addr) = .ok (cell .left c x (top p) (ptr s) (ptr t)) :=
  @Holds.deref_focus _ _ _ _ _ .left _ _ h

/-- The focus moves to the other child. -/
theorem Holds.far (h : Holds tree (plug (⟨d, c, x, t⟩ :: p) s)) :
    Holds tree (plug (⟨d.flip, c, x, s⟩ :: p) t) := by
  rw [plug_flip]
  exact h

theorem focus_mem : x.addr ∈ addrs (plug p (join d c x s t)) :=
  (addrs_plug_perm p _).mem_iff.2 (mem_append_right _ (ptr_mem (ptr_join ..)))

/-- The two children of the node in focus are not the same. -/
theorem Holds.ptr_other_ne {e : Dir} {c' : Color}
    (h : Holds tree (plug p (join d c x (join e c' y s s') t))) : ptr t ≠ some y.addr := by
  have hnodup := (nodup_cons.1 (nodup_append.1 h.nodup_focus).2.1).2
  intro heq
  exact (nodup_append.1 hnodup).2.2 _ (ptr_mem (ptr_join ..)) _ (ptr_mem heq) rfl

/-- The colors the code asks for. -/
theorem Holds.isRed_focus (h : Holds tree (plug p s)) :
    tree.isRed (ptr s) = .ok (s.rootColor = .red) := by
  cases s with
  | nil => rfl
  | node c x l r =>
    rw [RbTree.isRed, ptr, if_neg (Option.some_ne_none _), h.deref_node]
    rfl

theorem Holds.isRed_join (h : Holds tree (plug p (join d c x s t))) :
    tree.isRed (some x.addr) = .ok (c = .red) := by
  have hcolor := h.isRed_focus
  rwa [ptr_join, rootColor_join] at hcolor

theorem Holds.isBlack_focus (h : Holds tree (plug p s)) :
    tree.isBlack (ptr s) = .ok (s.rootColor = .black) := by
  cases s with
  | nil => rfl
  | node c x l r =>
    rw [RbTree.isBlack, ptr, if_neg (Option.some_ne_none _), h.deref_node]
    rfl

theorem addrs_relabel (p : Path (Entry V)) (d : Dir) (c c' : Color) {x x' : Entry V}
    (s t : ColorTree (Entry V)) (haddr : x'.addr = x.addr) :
    addrs (plug p (join d c' x' s t)) = addrs (plug p (join d c x s t)) := by
  cases d <;> simp [addrs, toList_plug, join, toList, haddr]

/-- Changing color, key and value of the node in focus. -/
theorem store_focus (h : Holds tree (plug p (join d c x s t))) (f : RbNode V → RbNode V)
    (c' : Color) (x' : Entry V) (haddr : x'.addr = x.addr)
    (hf : f (cell d c x (top p) (ptr s) (ptr t)) = cell d c' x' (top p) (ptr s) (ptr t)) :
    ∃ tree', tree.store (some x.addr) f = .ok tree' ∧ Holds tree' (plug p (join d c' x' s t)) ∧
      Within [x.addr] tree tree' := by
  obtain ⟨hpath, hrep⟩ := rep_plug.1 h.rep
  obtain ⟨hx, hs, ht⟩ := rep_join.1 hrep
  obtain ⟨tree', hstore, hx', hroot, hwithin⟩ := store_eq hx f
  have hsame := hwithin.same_of_not_mem (nodup_cons.1 (perm_middle.nodup_iff.1 h.nodup_focus)).1
  rw [ptr_join] at hpath
  refine ⟨tree', hstore, h.refill ?_ ?_ ?_ ?_ ?_, hwithin⟩
  · rw [hroot, ptr_join, haddr]
    split_ifs with hp
    · rw [h.root, hp, plug_nil, ptr_join]
    · rfl
  · rw [ptr_join, haddr]
    exact hpath.congr fun a ha => hsame a (mem_append_left _ ha)
  · rw [rep_join, haddr, hx', hf]
    refine ⟨rfl, ?_, ?_⟩
    · exact hs.congr fun a ha => hsame a (mem_append_right _ (mem_append_left _ ha))
    · exact ht.congr fun a ha => hsame a (mem_append_right _ (mem_append_right _ ha))
  · rw [addrs_relabel p d c c' s t haddr]
    exact h.nodup
  · exact h.fresh_of_within (hwithin.mono (forall_mem_singleton.2 focus_mem))

/-- Changing the color of the node in focus. -/
theorem recolor (h : Holds tree (plug p (join d c x s t))) (c' : Color) :
    ∃ tree', tree.store (some x.addr) (RbNode.setColor c') = .ok tree' ∧
      Rearranged tree tree' (plug p (join d c x s t)) (plug p (join d c' x s t)) := by
  obtain ⟨tree', hstore, hholds, hwithin⟩ :=
    store_focus h (RbNode.setColor c') c' x rfl (setColor_cell ..)
  refine ⟨tree', hstore, hholds, toList_plug_congr (by cases d <;> rfl) p, ?_⟩
  exact hwithin.mono (forall_mem_singleton.2 focus_mem)

end Focus

/-! ## Searching -/

open VersionMatcher (strcmp strcmp_eq_zero strcmp_swap strcmp_lt_trans)

variable {key : List Char}

/-- The side on which the search for a key goes on. -/
def searchSide (key : List Char) (x : Entry V) : Option Dir :=
  if strcmp key x.key = 0 then none else if strcmp key x.key < 0 then some .left else some .right

/-- The keys increase from left to right. -/
def Sorted (s : ColorTree (Entry V)) : Prop := s.toList.Pairwise fun a b => strcmp a.key b.key < 0

/-- Where the search for a key ends. -/
theorem exists_place (hs : Sorted s) :
    ∃ q t, descend (searchSide key) [] s = (q, t) ∧ plug q t = s ∧
      (∀ e ∈ before q, strcmp e.key key < 0) ∧ (∀ e ∈ after q, strcmp key e.key < 0) ∧
      (t = .nil ∨ ∃ c x l r, t = join .left c x l r ∧ x.key = key) := by
  have hleft : ∀ x : Entry V, searchSide key x = some .left → strcmp key x.key < 0 := by
    intro x hx
    simp only [searchSide] at hx
    split at hx
    · cases hx
    · split at hx
      · assumption
      · cases hx
  have hright : ∀ x : Entry V, searchSide key x = some .right → strcmp x.key key < 0 := by
    intro x hx
    simp only [searchSide] at hx
    split at hx
    · cases hx
    · split at hx
      · cases hx
      · rw [strcmp_swap]
        omega
  obtain ⟨hbefore, hafter⟩ :=
    descend_between hleft hright (fun _ _ hx hxy => strcmp_lt_trans hx hxy)
    (fun _ _ hy hxy => strcmp_lt_trans hxy hy) hs (p := []) nofun nofun
  refine ⟨_, _, rfl, plug_descend [], hbefore, hafter, ?_⟩
  have hstops := descend_stops (searchSide key) [] s
  rcases hstops with hnil | ⟨c, x, l, r, hnode, hstop⟩
  · exact .inl hnil
  · refine .inr ⟨c, x, l, r, hnode, ?_⟩
    simp only [searchSide] at hstop
    split at hstop
    · rename_i heq
      exact (strcmp_eq_zero.1 heq).symm
    · split at hstop <;> cases hstop

/-- There are no more nodes than addresses given out, so a loop has rounds for all of them. -/
theorem Holds.length_lt (h : Holds tree s) : s.toList.length + 1 < tree.rounds := by
  have hsub : addrs s ⊆ List.range tree.next := by
    intro a ha
    rw [List.mem_range]
    by_contra hle
    exact h.not_mem_of_le (Nat.le_of_not_lt hle) ha
  have hlength := (List.subperm_of_subset h.nodup hsub).length_le
  rw [addrs, List.length_map, List.length_range] at hlength
  exact Nat.add_lt_add_right (Nat.lt_succ_of_le hlength) 1

/-- The loops that go up have rounds for a whole path. -/
theorem Holds.length_path_lt (h : Holds tree (plug p t)) : p.length + 1 < tree.rounds :=
  Nat.lt_of_le_of_lt (Nat.succ_le_succ (length_le_toList_plug p t)) h.length_lt

variable {fuel : Nat} {c : Color} {l r : ColorTree (Entry V)} {x : Entry V}

/-- The loop of `rb_get`. -/
theorem rbGetLoop_eq (h : Holds tree (plug p t)) (hfuel : t.toList.length < fuel) :
    tree.rbGetLoop key fuel (ptr t) = .ok (ptr (descend (searchSide key) p t).2) := by
  -- induction on the rounds; a round goes from the focus to one of its children
  induction fuel generalizing p t with
  | zero => exact absurd hfuel (Nat.not_lt_zero _)
  | succ fuel ih =>
    cases t with
    | nil => rfl
    | node c x l r =>
      rw [length_toList_node] at hfuel
      rw [RbTree.rbGetLoop, ptr, if_neg (Option.some_ne_none _), h.deref_node]
      simp only [ok_bind, cell_key, descend, searchSide]
      split
      · rfl
      · split
        · exact ih (p := ⟨.left, c, x, r⟩ :: p) h (by omega)
        · exact ih (p := ⟨.right, c, x, l⟩ :: p) h (by omega)

/-- `rb_get` from the root. -/
theorem rbGet_eq (h : Holds tree s) :
    tree.rbGet tree.root key = .ok (ptr (descend (searchSide key) [] s).2) := by
  rw [RbTree.rbGet, h.root]
  exact rbGetLoop_eq (p := []) h (Nat.lt_of_succ_lt h.length_lt)

/-- In a balanced tree the loop of `rb_get` needs two rounds for each black node on its way. -/
theorem rbGetLoop_balanced {n : Nat} (h : Holds tree (plug p t)) (ht : Balanced t c n)
    (hfuel : 2 * n + 1 < fuel ∨ c = .black ∧ 2 * n < fuel) :
    tree.rbGetLoop key fuel (ptr t) = .ok (ptr (descend (searchSide key) p t).2) := by
  induction fuel generalizing p t c n with
  | zero => omega
  | succ fuel ih =>
    cases ht with
    | nil => rfl
    | @red x l r _ hl hr | @black x l r _ _ _ hl hr =>
      rw [RbTree.rbGetLoop, ptr, if_neg (Option.some_ne_none _), h.deref_node]
      simp only [ok_bind, cell_key, descend, searchSide]
      split
      · rfl
      · split
        · exact ih (p := ⟨.left, _, x, r⟩ :: p) h hl (by simp at hfuel ⊢; omega)
        · exact ih (p := ⟨.right, _, x, l⟩ :: p) h hr (by simp at hfuel ⊢; omega)

/-- The loop of `rbtree_insert`: the last comparison tells the side of the leaf. -/
theorem insertLoop_eq {cmp : Int} (h : Holds tree (plug p t)) (hfuel : t.toList.length < fuel)
    (hcmp : ∀ f ∈ p.head?, cmp < 0 ↔ f.side = .left) :
    ∃ cmp', tree.insertLoop key fuel (ptr t) (top p) cmp =
        .ok (if ptr (descend (searchSide key) p t).2 = none
          then some (top (descend (searchSide key) p t).1, cmp') else none) ∧
      ∀ f ∈ (descend (searchSide key) p t).1.head?, cmp' < 0 ↔ f.side = .left := by
  induction fuel generalizing p t cmp with
  | zero => exact absurd hfuel (Nat.not_lt_zero _)
  | succ fuel ih =>
    cases t with
    | nil => exact ⟨cmp, rfl, hcmp⟩
    | node c x l r =>
      rw [length_toList_node] at hfuel
      rw [RbTree.insertLoop, ptr, if_neg (Option.some_ne_none _), h.deref_node]
      simp only [ok_bind, cell_key, descend, searchSide]
      split
      · exact ⟨cmp, rfl, hcmp⟩
      · split
        · rename_i hlt
          exact ih (p := ⟨.left, c, x, r⟩ :: p) h (by omega) (by simp [hlt])
        · rename_i hlt
          exact ih (p := ⟨.right, c, x, l⟩ :: p) h (by omega) (by simp [hlt])

/-- The loop of `rbtree_insert` from the root. -/
theorem insertLoop_root (h : Holds tree s) :
    ∃ cmp, tree.insertLoop key tree.rounds tree.root none 0 =
        .ok (if ptr (descend (searchSide key) [] s).2 = none
          then some (top (descend (searchSide key) [] s).1, cmp) else none) ∧
      ∀ f ∈ (descend (searchSide key) [] s).1.head?, cmp < 0 ↔ f.side = .left := by
  rw [h.root]
  exact insertLoop_eq (p := []) h (Nat.lt_of_succ_lt h.length_lt) nofun

/-- The loop of `rb_min` ends at the leftmost node. -/
theorem rbMinLoop_eq (h : Holds tree (plug p (join .left c x l r)))
    (hfuel : l.toList.length < fuel) :
    ∃ q c' y t, tree.rbMinLoop fuel (some x.addr) = .ok (some y.addr) ∧
      plug q (join .left c' y .nil t) = join .left c x l r ∧ before q = [] := by
  induction fuel generalizing p c x l r with
  | zero => exact absurd hfuel (Nat.not_lt_zero _)
  | succ fuel ih =>
    rw [RbTree.rbMinLoop, h.deref_focus]
    simp only [ok_bind, cell_left_left]
    cases l with
    | nil => exact ⟨[], c, x, r, rfl, rfl, rfl⟩
    | node cl xl ll rl =>
      have hl : Holds tree (plug (⟨.left, c, x, r⟩ :: p) (join .left cl xl ll rl)) := h
      rw [length_toList_node] at hfuel
      obtain ⟨q, c', y, t, hmin, hplug, hbefore⟩ := ih hl (by omega)
      refine ⟨q ++ [⟨.left, c, x, r⟩], c', y, t, ?_, ?_, ?_⟩
      · exact (if_pos (Option.some_ne_none xl.addr)).trans hmin
      · rw [plug_append, hplug]
        rfl
      · rw [before_append, hbefore]
        rfl

/-- `rb_min`. -/
theorem rbMin_eq (h : Holds tree (plug p (join .left c x l r))) :
    ∃ q c' y t, tree.rbMin (some x.addr) = .ok (some y.addr) ∧
      plug q (join .left c' y .nil t) = join .left c x l r ∧ before q = [] := by
  apply rbMinLoop_eq h
  have hlength := h.length_lt
  rw [toList_plug, List.length_append, List.length_append, join, length_toList_node] at hlength
  omega

end WazAISentinel.Shared
