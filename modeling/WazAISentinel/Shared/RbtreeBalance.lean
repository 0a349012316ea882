import WazAISentinel.Shared.RbtreeShape

/-!
# Balancing

`rb_balance_insert` and `rb_balance_delete` on a tree that is balanced but for one place, which is
in focus and moves up along its path. After an insertion it is a red tree that may stand below a red
node, after a deletion a tree that lacks one black node. The assertions on siblings and nephews are
among the faults.
-/

namespace WazAISentinel.Shared

open Foundations ColorTree RbTree

variable {V : Type} {tree : RbTree V} {p : Path (Entry V)}

/-! ## After an insertion -/

variable {fuel : Nat} {cf cn c' : Color} {p' : Path (Entry V)}

section Insert

variable {b d e : Dir} {c cy cz : Color} {x y z : Entry V} {s t u w : ColorTree (Entry V)} {n : Nat}

theorem rbUncle_eq (h : Holds tree (plug (⟨e, cz, z, w⟩ :: ⟨d, cy, y, u⟩ :: p) (join b c x s t))) :
    tree.rbUncle (some x.addr) = .ok (ptr u) := by
  have hz : Holds tree (plug (⟨d, cy, y, u⟩ :: p) (join e cz z (join b c x s t) w)) := h
  have hy : Holds tree (plug p (join d cy y (join e cz z (join b c x s t) w) u)) := h
  have hne := hy.ptr_other_ne
  simp only [rbUncle, ok_bind, h.deref_focus, hz.deref_focus, hy.deref_focus, cell_parent, top_cons,
    reduceCtorEq, if_false, ptr_join, pure_eq_ok]
  cases d with
  | left => simp [cell]
  | right => simp [cell, hne.symm]

section

variable (h : Holds tree (plug (⟨e, .red, z, w⟩ :: ⟨d, .black, y, u⟩ :: p) t))
  (ht : Balanced t .red n) (hw : Balanced w .black n)

include h ht hw

/-- A red node on the inner side of its red parent changes places with it. -/
theorem rotateInner_spec :
    ∃ tree' z' w' t', rotateInner d tree (ptr t) = .ok (tree', ptr t') ∧
      Rearranged tree tree' (plug (⟨e, .red, z, w⟩ :: ⟨d, .black, y, u⟩ :: p) t)
        (plug (⟨d, .red, z', w'⟩ :: ⟨d, .black, y, u⟩ :: p) t') ∧ Balanced t' .red n ∧
          Balanced w' .black n := by
  obtain ⟨x, near, far, rfl, hnear, hfar⟩ := ht.exists_join_of_red d
  have hz :
    Holds tree (plug (⟨d, .black, y, u⟩ :: p) (join e .red z (join d .red x near far) w)) := h
  have hstart : rotateInner d tree (ptr (join d .red x near far)) =
      if some x.addr = (cell e .red z (some y.addr) (some x.addr) (ptr w)).child d.flip then do
        let tree' ← rotate d tree (some z.addr)
        pure (tree', some z.addr)
      else pure (tree, some x.addr) := by
    simp [rotateInner, h.deref_focus, hz.deref_focus]
  rcases Dir.eq_or_eq_flip e d with rfl | rfl
  · -- an outer node stays
    refine ⟨tree, z, w, _, ?_, Rearranged.refl h, ht, hw⟩
    rw [hstart, child_flip_cell, if_neg hz.ptr_other_ne.symm, ptr_join]
    rfl
  · rw [join_flip] at hz
    obtain ⟨tree', hrotate, hafter⟩ := rotate_spec d hz
    refine ⟨tree', x, far, join d .red z w near, ?_, ?_, Balanced.join_red hw hnear, hfar⟩
    · rw [hstart, child_cell, if_pos rfl, hrotate, ptr_join]
      rfl
    · rw [plug_cons, Frame.attach, join_flip]
      exact hafter

/-- A black uncle: the parent takes the place of the grandparent. -/
theorem balanceInsertSide_spec :
    ∃ tree' z' w' t', balanceInsertSide d tree (ptr t) = .ok (tree', ptr t') ∧
      Rearranged tree tree' (plug (⟨e, .red, z, w⟩ :: ⟨d, .black, y, u⟩ :: p) t)
        (plug (⟨d, .black, z', join d .red y w' u⟩ :: p) t') ∧ Balanced t' .red n ∧
          Balanced w' .black n := by
  obtain ⟨tree₁, z', w', t', hinner, hafter₁, ht', hw'⟩ := rotateInner_spec h ht hw
  obtain ⟨x', near, far, rfl, -⟩ := ht'.exists_join_of_red d
  have hx₁ := hafter₁.holds
  have hz₁ :
    Holds tree₁ (plug (⟨d, .black, y, u⟩ :: p) (join d .red z' (join d .red x' near far) w')) := hx₁
  obtain ⟨tree₂, hstore₂, hafter₂⟩ := recolor hz₁ .black
  have hz₂ := hafter₂.holds
  have hy₂ :
    Holds tree₂ (plug p (join d .black y (join d .black z' (join d .red x' near far) w') u)) := hz₂
  obtain ⟨tree₃, hstore₃, hafter₃⟩ := recolor hy₂ .red
  -- seen from the other side, the parent is the far child of the grandparent
  have hy₃ := hafter₃.holds
  rw [← join_flip d .red y, ← join_flip d .black z'] at hy₃
  obtain ⟨tree₄, hrotate, hafter₄⟩ := rotate_spec d.flip hy₃
  refine ⟨tree₄, z', w', _, ?_, ?_, ht', hw'⟩
  · simp [balanceInsertSide, hinner, hx₁.deref_focus, hstore₂, hz₂.deref_focus, hstore₃, hrotate]
  · refine hafter₁.trans (hafter₂.trans (hafter₃.trans ?_))
    simpa only [join_flip, plug_cons, Frame.attach] using hafter₄

end

/-- The loop ends at a node whose parent is not red. -/
theorem balanceInsertLoop_end (fuel : Nat) (h : Holds tree (plug p t)) (ht : Balanced t .red n)
    (hp : ∀ f ∈ p.head?, f.color = .black) :
    balanceInsertLoop (fuel + 1) tree (ptr t) = .ok tree := by
  obtain ⟨x, near, far, rfl, -⟩ := ht.exists_join_of_red .left
  have hred : tree.isRed (top p) = .ok false := by
    cases p with
    | nil => rfl
    | cons f p =>
      have hf :
        Holds tree (plug p (join f.side f.color f.label (join .left .red x near far) f.other)) := h
      have hcolor := hf.isRed_join
      rw [hp f rfl] at hcolor
      exact hcolor
  simp [balanceInsertLoop, h.deref_focus, hred]

section

variable (fuel : Nat) (h : Holds tree (plug (⟨e, .red, z, w⟩ :: ⟨d, .black, y, u⟩ :: p) t))
  (ht : Balanced t .red n)

include h ht

/-- One round with a red uncle: the two red nodes and the grandparent exchange their colors. -/
theorem balanceInsertLoop_red {m : Nat} (hu : Balanced u .red m) :
    ∃ tree' u', balanceInsertLoop (fuel + 1) tree (ptr t) =
        balanceInsertLoop fuel tree' (some y.addr) ∧
      Rearranged tree tree' (plug (⟨e, .red, z, w⟩ :: ⟨d, .black, y, u⟩ :: p) t)
        (plug p (join d .red y (join e .black z t w) u')) ∧ Balanced u' .black (m + 1) := by
  obtain ⟨x, near, far, rfl, -⟩ := ht.exists_join_of_red .left
  obtain ⟨v, v₁, v₂, rfl, hv₁, hv₂⟩ := hu.exists_join_of_red .left
  have hz : Holds tree (plug (⟨d, .black, y, join .left .red v v₁ v₂⟩ :: p)
      (join e .red z (join .left .red x near far) w)) := h
  have hv := hz.far
  obtain ⟨tree₁, hstore₁, hafter₁⟩ := recolor hz .black
  obtain ⟨tree₂, hstore₂, hafter₂⟩ := recolor hafter₁.holds.far .black
  rw [plug_flip, plug_flip] at hafter₂
  have hy₂ : Holds tree₂ (plug p (join d .black y (join e .black z (join .left .red x near far) w)
      (join .left .black v v₁ v₂))) := hafter₂.holds
  obtain ⟨tree₃, hstore₃, hafter₃⟩ := recolor hy₂ .red
  refine ⟨tree₃, join .left .black v v₁ v₂, ?_, hafter₁.trans (hafter₂.trans hafter₃),
    .join_black hv₁ hv₂⟩
  have hred : tree.isRed (some z.addr) = .ok true := hz.isRed_join
  have huncle : tree.isRed (some v.addr) = .ok true := hv.isRed_join
  rw [balanceInsertLoop]
  simp [h.deref_focus, hred, rbUncle_eq h, hz.deref_focus, huncle, hstore₁, hstore₂, hstore₃]

/-- One round with a black uncle, which is the last one. -/
theorem balanceInsertLoop_black (hw : Balanced w .black n) (hu : Balanced u .black n) :
    ∃ tree' z' w' t', balanceInsertLoop (fuel + 2) tree (ptr t) = .ok tree' ∧
      Rearranged tree tree' (plug (⟨e, .red, z, w⟩ :: ⟨d, .black, y, u⟩ :: p) t)
        (plug p (join d .black z' t' (join d .red y w' u))) ∧ Balanced t' .red n ∧
          Balanced w' .black n := by
  obtain ⟨tree', z', w', t', hside, hafter, ht', hw'⟩ := balanceInsertSide_spec h ht hw
  refine ⟨tree', z', w', t', ?_, hafter, ht', hw'⟩
  have hend := balanceInsertLoop_end fuel hafter.holds ht' (by simp)
  obtain ⟨x, near, far, rfl, -⟩ := ht.exists_join_of_red .left
  have hz :
    Holds tree (plug (⟨d, .black, y, u⟩ :: p) (join e .red z (join .left .red x near far) w)) := h
  have hy :
    Holds tree (plug p (join d .black y (join e .red z (join .left .red x near far) w) u)) := h
  have hred : tree.isRed (some z.addr) = .ok true := hz.isRed_join
  have huncle : tree.isRed (ptr u) = .ok false := by
    rw [hy.far.isRed_focus, hu.rootColor_eq]
    rfl
  rw [ptr_join] at hside
  -- the side of the parent below the grandparent, as the code finds it
  have hparent := side_eq d .black y (top p) hy.ptr_other_ne
  rw [balanceInsertLoop]
  simp [h.deref_focus, hred, rbUncle_eq h, hz.deref_focus, huncle, hy.deref_focus, hparent, hside,
    hend]

end

/-- A red tree in the hole of a balanced path becomes part of a balanced tree. -/
theorem balanceInsertLoop_spec (h : Holds tree (plug p t)) (ht : Balanced t .red n)
    (hp : Open p c n) (hfuel : p.length < fuel) :
    ∃ tree' s', balanceInsertLoop fuel tree (ptr t) = .ok tree' ∧
      Rearranged tree tree' (plug p t) s' ∧ ∃ c m, Balanced s' c m := by
  -- induction on the rounds; a round with a red uncle moves the focus up by two nodes
  induction fuel generalizing tree p t c n with
  | zero => exact absurd hfuel (Nat.not_lt_zero _)
  | succ fuel ih =>
    cases hp with
    | root n =>
      exact ⟨tree, t, balanceInsertLoop_end fuel h ht (by simp), Rearranged.refl h, .red, n, ht⟩
    | black hother hp =>
      obtain ⟨m, hm⟩ := hp.plug_black (Balanced.join_black ht hother)
      exact ⟨tree, _, balanceInsertLoop_end fuel h ht (by simp), Rearranged.refl h, .black, m, hm⟩
    | red hw hp =>
      cases hp with
      | @black d y u cu c' p n hu hp =>
        cases cu with
        | red =>
          obtain ⟨tree₁, u', hround, hafter, hu'⟩ := balanceInsertLoop_red fuel h ht hu
          obtain ⟨tree₂, s', hloop, hafter', hs'⟩ :=
            ih hafter.holds (.join_red (.join_black ht hw) hu') hp (by
              simp only [List.length_cons] at hfuel
              omega)
          refine ⟨tree₂, s', ?_, hafter.trans hafter', hs'⟩
          rw [hround, ← hloop, ptr_join]
        | black =>
          obtain ⟨fuel, rfl⟩ : ∃ k, fuel = k + 1 := Nat.exists_eq_add_one.2 (by
            simp only [List.length_cons] at hfuel
            omega)
          obtain ⟨tree', z', w', t', hround, hafter, ht', hw'⟩ :=
            balanceInsertLoop_black fuel h ht hw hu
          obtain ⟨m, hm⟩ := hp.plug_black (.join_black ht' (.join_red hw' hu))
          exact ⟨tree', _, hround, hafter, .black, m, hm⟩

/-- `rb_balance_insert`. -/
theorem rbBalanceInsert_spec (h : Holds tree (plug p t)) (ht : Balanced t .red n) (hp : Open p c n)
    (hfuel : p.length < tree.rounds) :
    ∃ tree' s', tree.rbBalanceInsert (ptr t) = .ok tree' ∧ Rearranged tree tree' (plug p t) s' ∧
      ∃ m, Balanced s' .black m := by
  obtain ⟨tree₁, s₁, hloop, hafter, c', m, hs₁⟩ := balanceInsertLoop_spec h ht hp hfuel
  have hentries : s₁ ≠ .nil := by
    obtain ⟨x, near, far, rfl, -⟩ := ht.exists_join_of_red .left
    intro hnil
    have hlist := hafter.toList
    rw [hnil, toList_plug] at hlist
    simp [toList, join] at hlist
  cases s₁ with
  | nil => exact absurd rfl hentries
  | node c₁ x l r =>
    have hroot : Holds tree₁ (plug [] (join .left c₁ x l r)) := hafter.holds
    obtain ⟨tree₂, hstore, hafter₂⟩ := recolor hroot .black
    refine ⟨tree₂, join .left .black x l r, ?_, hafter.trans hafter₂, ?_⟩
    · simp [rbBalanceInsert, hloop, hroot.root, hstore]
    · cases hs₁ with
      | red hl hr | black hl hr => exact ⟨_, .black hl hr⟩

end Insert

/-! ## After a deletion -/

section Delete

variable {d : Dir} {c : Color} {x y z : Entry V} {s t u near far : ColorTree (Entry V)} {n : Nat}

/-- A sibling has the black height of a node that is not missing one. -/
theorem ptr_ne_of_deficient (h : Holds tree (plug p (join d c y t u))) {cu : Color}
    (hu : Balanced u cu (n + 1)) (ht : Balanced t .black n) : ptr u ≠ ptr t ∧ ptr u ≠ none := by
  have hnone : ptr u ≠ none := by
    cases hu <;> exact Option.some_ne_none _
  refine ⟨?_, hnone⟩
  cases t with
  | nil => exact hnone
  | node ct x l r =>
    have hx : Holds tree (plug p (join d c y (join .left ct x l r) u)) := h
    exact hx.ptr_other_ne

/-- Case 1: a red sibling makes way for one of its black children. -/
theorem balanceDeleteCase1_spec (h : Holds tree (plug (⟨d, c, y, u⟩ :: p) t))
    (hp : Open (⟨d, c, y, u⟩ :: p) c (n + 1)) :
    ∃ tree' c' u' p', balanceDeleteCase1 d tree (some y.addr) (ptr u) = .ok (tree', ptr u') ∧
      Rearranged tree tree' (plug (⟨d, c, y, u⟩ :: p) t) (plug (⟨d, c', y, u'⟩ :: p') t) ∧
      Balanced u' .black (n + 1) ∧ Open (⟨d, c', y, u'⟩ :: p') c' (n + 1) ∧
        (c' = .black → p' = p) := by
  -- a black sibling stays
  have hstay : Balanced u .black (n + 1) →
      balanceDeleteCase1 d tree (some y.addr) (ptr u) = .ok (tree, ptr u) := by
    intro hu
    obtain ⟨z, near, far, -, -, rfl, -⟩ := hu.exists_join_of_black d
    have hz := h.far
    simp [balanceDeleteCase1, hz.deref_focus]
  cases hp with
  | red hu hp => exact ⟨tree, .red, u, _, hstay hu, Rearranged.refl h, hu, .red hu hp, nofun⟩
  | @black _ _ _ cu _ _ _ hu hp =>
    cases cu with
    | black =>
      exact ⟨tree, .black, u, _, hstay hu, Rearranged.refl h, hu, .black hu hp, fun _ => rfl⟩
    | red =>
      obtain ⟨z, near, far, rfl, hnear, hfar⟩ := hu.exists_join_of_red d
      have hz := h.far
      obtain ⟨tree₁, hstore₁, hafter₁⟩ := recolor hz .black
      rw [plug_flip, plug_flip] at hafter₁
      have hy₁ : Holds tree₁ (plug p (join d .black y t (join d .black z near far))) :=
        hafter₁.holds
      obtain ⟨tree₂, hstore₂, hafter₂⟩ := recolor hy₁ .red
      obtain ⟨tree₃, hrotate, hafter₃⟩ := rotate_spec d hafter₂.holds
      have hy₃ : Holds tree₃ (plug (⟨d, .black, z, far⟩ :: p) (join d .red y t near)) :=
        hafter₃.holds
      refine ⟨tree₃, .red, near, ⟨d, .black, z, far⟩ :: p, ?_,
        hafter₁.trans (hafter₂.trans hafter₃), hnear, .red hnear (.black hfar hp), nofun⟩
      simp [balanceDeleteCase1, hz.deref_focus, hstore₁, hstore₂, hrotate, hy₃.deref_focus]

/-- Case 3: with a red inner nephew and a black outer one, the nephew becomes the sibling. -/
theorem balanceDeleteCase3_spec (h : Holds tree (plug (⟨d, c, y, join d .black z near far⟩ :: p) t))
    (hnear : Balanced near cn n) (hfar : Balanced far cf n) (hred : ¬(cn = .black ∧ cf = .black)) :
    ∃ tree' z' near' far' cn',
      balanceDeleteCase3 d tree (some y.addr) (some z.addr) = .ok (tree', some z'.addr) ∧
      Rearranged tree tree' (plug (⟨d, c, y, join d .black z near far⟩ :: p) t)
        (plug (⟨d, c, y, join d .black z' near' far'⟩ :: p) t) ∧ Balanced near' cn' n ∧
          Balanced far' .red n := by
  have hz := h.far
  have hblack : tree.isBlack (ptr far) = .ok (cf = .black) := by
    rw [Holds.isBlack_focus (Holds.far (p := _ :: _) hz), hfar.rootColor_eq]
  cases cf with
  | red =>
    refine ⟨tree, z, near, far, cn, ?_, Rearranged.refl h, hnear, hfar⟩
    simp [balanceDeleteCase3, hz.deref_focus, hblack]
  | black =>
    cases cn with
    | black => exact absurd ⟨rfl, rfl⟩ hred
    | red =>
      obtain ⟨v, v₁, v₂, rfl, hv₁, hv₂⟩ := hnear.exists_join_of_red d.flip
      have hv : Holds tree
        (plug (⟨d, .black, z, far⟩ :: ⟨d.flip, c, y, t⟩ :: p) (join d.flip .red v v₁ v₂)) := hz
      obtain ⟨tree₁, hstore₁, hafter₁⟩ := recolor hv .black
      have hz₁ : Holds tree₁
          (plug (⟨d.flip, c, y, t⟩ :: p) (join d .black z (join d.flip .black v v₁ v₂) far)) :=
        hafter₁.holds
      obtain ⟨tree₂, hstore₂, hafter₂⟩ := recolor hz₁ .red
      have hz₂ := hafter₂.holds
      rw [← join_flip d .red z] at hz₂
      obtain ⟨tree₃, hrotate, hafter₃⟩ := rotate_spec d.flip hz₂
      have hafter : Rearranged tree tree₃
          (plug (⟨d, c, y, join d .black z (join d.flip .red v v₁ v₂) far⟩ :: p) t)
          (plug (⟨d, c, y, join d .black v v₂ (join d .red z v₁ far)⟩ :: p) t) := by
        -- all four trees seen from the side `d`
        simp only [plug_cons, Frame.attach, join_flip] at hafter₁ hafter₂ hafter₃ ⊢
        exact hafter₁.trans (hafter₂.trans hafter₃)
      have hy₃ : Holds tree₃ (plug p (join d c y t (join d .black v v₂ (join d .red z v₁ far)))) :=
        hafter.holds
      refine ⟨tree₃, v, v₂, join d .red z v₁ far, .black, ?_, hafter, hv₂, .join_red hv₁ hfar⟩
      simp [balanceDeleteCase3, hz.deref_focus, hblack, hstore₁, hstore₂, hrotate, hy₃.deref_focus]

/-- Case 4: with a red outer nephew, the sibling takes the place and the color of the parent. -/
theorem balanceDeleteCase4_spec (h : Holds tree (plug (⟨d, c, y, join d .black z near far⟩ :: p) t))
    (hfar : Balanced far .red n) :
    ∃ tree' far', balanceDeleteCase4 d tree (some y.addr) (some z.addr) = .ok tree' ∧
      Rearranged tree tree' (plug (⟨d, c, y, join d .black z near far⟩ :: p) t)
        (plug p (join d c z (join d .black y t near) far')) ∧ Balanced far' .black (n + 1) := by
  obtain ⟨v, v₁, v₂, rfl, hv₁, hv₂⟩ := hfar.exists_join_of_red d
  have hz := h.far
  have hy : Holds tree (plug p (join d c y t (join d .black z near (join d .red v v₁ v₂)))) := h
  obtain ⟨tree₁, hstore₁, hafter₁⟩ := recolor hz c
  rw [plug_flip, plug_flip] at hafter₁
  have hy₁ : Holds tree₁ (plug p (join d c y t (join d c z near (join d .red v v₁ v₂)))) :=
    hafter₁.holds
  obtain ⟨tree₂, hstore₂, hafter₂⟩ := recolor hy₁ .black
  obtain ⟨tree₃, hstore₃, hafter₃⟩ := recolor (Holds.far (p := _ :: _) hafter₂.holds.far) .black
  have hafter₃' :
      Rearranged tree₂ tree₃ (plug p (join d .black y t (join d c z near (join d .red v v₁ v₂))))
      (plug p (join d .black y t (join d c z near (join d .black v v₁ v₂)))) := by
    simpa only [plug_cons, Frame.attach, join_flip] using hafter₃
  obtain ⟨tree₄, hrotate, hafter₄⟩ := rotate_spec d hafter₃'.holds
  refine ⟨tree₄, join d .black v v₁ v₂, ?_, hafter₁.trans (hafter₂.trans (hafter₃'.trans hafter₄)),
    .join_black hv₁ hv₂⟩
  simp [balanceDeleteCase4, hz.deref_focus, hy.deref_focus, hstore₁, hstore₂, hstore₃, hrotate]

/-- The end of `rb_balance_delete` paints the node in focus. -/
theorem balanceDeleteEnd_spec (h : Holds tree (plug p t)) :
    ∃ tree', tree.balanceDeleteEnd (ptr t) = .ok tree' ∧
      Rearranged tree tree' (plug p t) (plug p t.blacken) := by
  cases t with
  | nil => exact ⟨tree, rfl, Rearranged.refl h⟩
  | node c x l r =>
    have hx : Holds tree (plug p (join .left c x l r)) := h
    obtain ⟨tree', hstore, hafter⟩ := recolor hx .black
    refine ⟨tree', ?_, hafter⟩
    rw [balanceDeleteEnd, ptr, if_pos (Option.some_ne_none _)]
    exact hstore

/-- Case 2 asks for the colors of both nephews. -/
theorem nephews_black (h : Holds tree (plug p (join d c z near far))) (hnear : Balanced near cn n)
    (hfar : Balanced far cf n) (parent : Option Nat) :
    ∃ leftBlack rightBlack,
      tree.isBlack (cell d c z parent (ptr near) (ptr far)).left = .ok leftBlack ∧
      tree.isBlack (cell d c z parent (ptr near) (ptr far)).right = .ok rightBlack ∧
      ((leftBlack = true ∧ rightBlack = true) ↔ (cn = .black ∧ cf = .black)) := by
  have hn : tree.isBlack (ptr near) = .ok (cn = .black) := by
    have hnear' : Holds tree (plug (⟨d, c, z, far⟩ :: p) near) := h
    rw [hnear'.isBlack_focus, hnear.rootColor_eq]
  have hf : tree.isBlack (ptr far) = .ok (cf = .black) := by
    rw [h.far.isBlack_focus, hfar.rootColor_eq]
  cases d with
  | left => exact ⟨_, _, hn, hf, by simp⟩
  | right => exact ⟨_, _, hf, hn, by simp [and_comm]⟩

/-- What a parent whose children both lack a black node becomes for the next round. -/
theorem deficient_of_open (hp : Open (⟨d, c', y, u⟩ :: p') c' (n + 1)) (ht : Balanced t .black n)
    {s : ColorTree (Entry V)} (hs : Balanced s .red n) :
    ∃ c m, Deficient (join d c' y t s) c' m ∧ Open p' c (m + 1) := by
  cases hp with
  | red _ hp => exact ⟨.black, n, .red ht hs, hp⟩
  | black _ hp => exact ⟨_, n + 1, .black (.join_black ht hs), hp⟩

/-- What the place of the parent gets in case 4. -/
theorem balanced_of_open (hp : Open (⟨d, c', y, u⟩ :: p') c' (n + 1))
    (hs : Balanced s .black (n + 1)) (ht : Balanced t .black (n + 1)) :
    ∃ m, Balanced (plug p' (join d c' z s t)) .black m := by
  cases hp with
  | red _ hp => exact hp.plug (.join_red hs ht) nofun nofun
  | black _ hp => exact hp.plug_black (.join_black hs ht)

/-- One round of `rb_balance_delete`: the defect moves to the parent, or the tree is balanced. -/
theorem balanceDeleteLoop_round (fuel : Nat) (h : Holds tree (plug (⟨d, c, y, u⟩ :: p) t))
    (ht : Balanced t .black n) (hp : Open (⟨d, c, y, u⟩ :: p) c (n + 1)) :
    (∃ tree' t' ct c' p' m, balanceDeleteLoop (fuel + 1) tree (ptr t) (some y.addr) =
        balanceDeleteLoop fuel tree' (ptr t') (top p') ∧
      Rearranged tree tree' (plug (⟨d, c, y, u⟩ :: p) t) (plug p' t') ∧ Deficient t' ct m ∧
      Open p' c' (m + 1) ∧ (ct = .black → p' = p)) ∨
    (∃ tree' s', balanceDeleteLoop (fuel + 1) tree (ptr t) (some y.addr) = .ok tree' ∧
      Rearranged tree tree' (plug (⟨d, c, y, u⟩ :: p) t) s' ∧ ∃ m, Balanced s' .black m) := by
  have hy : Holds tree (plug p (join d c y t u)) := h
  obtain ⟨cu, hu⟩ : ∃ cu, Balanced u cu (n + 1) := by
    cases hp with
    | red hu _ | black hu _ => exact ⟨_, hu⟩
  obtain ⟨hne, hnone⟩ := ptr_ne_of_deficient hy hu ht
  have hblack : tree.isBlack (ptr t) = .ok true := by
    rw [h.isBlack_focus, ht.rootColor_eq]
    rfl
  have hside := side_eq d c y (top p) hne
  obtain ⟨tree₁, c', u', p', hcase1, hafter₁, hu', hp', hsame⟩ := balanceDeleteCase1_spec h hp
  obtain ⟨z, near, far, cn, cf, rfl, hnear, hfar⟩ := hu'.exists_join_of_black d
  have hz₁ := hafter₁.holds.far
  obtain ⟨leftBlack, rightBlack, hleft, hright, hboth⟩ := nephews_black hz₁ hnear hfar (some y.addr)
  rw [ptr_join] at hcase1
  by_cases hnephews : cn = .black ∧ cf = .black
  · -- case 2: the sibling lacks a black node as well
    left
    obtain ⟨tree₂, hstore, hafter₂⟩ := recolor hz₁ .red
    rw [plug_flip, plug_flip] at hafter₂
    have hy₂ : Holds tree₂ (plug p' (join d c' y t (join d .red z near far))) := hafter₂.holds
    obtain ⟨rfl, rfl⟩ := hnephews
    obtain ⟨c'', m, hdeficient, hopen⟩ := deficient_of_open hp' ht (.join_red hnear hfar)
    refine ⟨tree₂, join d c' y t (join d .red z near far), c', c'', p', m, ?_,
      hafter₁.trans hafter₂, hdeficient, hopen, hsame⟩
    rw [balanceDeleteLoop]
    simp [hblack, hy.deref_focus, hside, hnone, hcase1, hz₁.deref_focus, hleft, hright, hboth,
      hstore, hy₂.deref_focus]
  · right
    obtain ⟨tree₂, z', near', far', cn', hcase3, hafter₂, hnear', hfar'⟩ :=
      balanceDeleteCase3_spec hafter₁.holds hnear hfar hnephews
    obtain ⟨tree₃, far'', hcase4, hafter₃, hfar''⟩ := balanceDeleteCase4_spec hafter₂.holds hfar'
    have ht₃ : Holds tree₃ (plug (⟨d, .black, y, near'⟩ :: ⟨d, c', z', far''⟩ :: p') t) :=
      hafter₃.holds
    obtain ⟨tree₄, hend, hafter₄⟩ := balanceDeleteEnd_spec ht₃
    rw [ht.blacken_eq] at hafter₄
    refine ⟨tree₄, plug p' (join d c' z' (join d .black y t near') far''), ?_,
      hafter₁.trans (hafter₂.trans (hafter₃.trans hafter₄)), ?_⟩
    · rw [balanceDeleteLoop]
      simp [hblack, hy.deref_focus, hside, hnone, hcase1, hz₁.deref_focus, hleft, hright, hboth,
        hnephews, hcase3, hcase4, hend]
    · exact balanced_of_open hp' (.join_black ht hnear') hfar''

/-- The loop stops at a red node and at the root, and paints it. -/
theorem balanceDeleteLoop_end (fuel : Nat) (h : Holds tree (plug p t))
    (hstop : p = [] ∨ t.rootColor = .red) :
    balanceDeleteLoop (fuel + 1) tree (ptr t) (top p) = tree.balanceDeleteEnd (ptr t) := by
  rw [balanceDeleteLoop]
  simp only [ok_bind, h.isBlack_focus]
  rcases hstop with rfl | hred
  · simp [top]
  · simp [hred]

/-- A deficient tree in the hole of a balanced path becomes part of a balanced tree. -/
theorem balanceDeleteLoop_spec {ct : Color} (h : Holds tree (plug p t)) (ht : Deficient t ct n)
    (hp : Open p c (n + 1)) (hfuel : 0 < fuel) (hrounds : ct = .black → p.length + 1 < fuel) :
    ∃ tree' s', balanceDeleteLoop fuel tree (ptr t) (top p) = .ok tree' ∧
      Rearranged tree tree' (plug p t) s' ∧ ∃ m, Balanced s' .black m := by
  -- induction on the rounds; case 2 either moves the focus up by one node or stops at a red one
  induction fuel generalizing tree p t c ct n with
  | zero => exact absurd hfuel (Nat.lt_irrefl 0)
  | succ fuel ih =>
    cases ht with
    | red hs hs' =>
      obtain ⟨tree', hend, hafter⟩ := balanceDeleteEnd_spec h
      rw [blacken_join] at hafter
      refine ⟨tree', _, ?_, hafter, hp.plug_black (.join_black hs hs')⟩
      rw [balanceDeleteLoop_end fuel h (.inr (rootColor_join ..)), hend]
    | black ht =>
      cases p with
      | nil =>
        obtain ⟨tree', hend, hafter⟩ := balanceDeleteEnd_spec h
        rw [ht.blacken_eq] at hafter
        refine ⟨tree', _, ?_, hafter, n, ht⟩
        rw [balanceDeleteLoop_end fuel h (.inl rfl), hend]
      | cons f p =>
        obtain ⟨d, cf, y, u⟩ := f
        obtain rfl : cf = c := by cases hp <;> rfl
        have hlength := hrounds rfl
        rw [List.length_cons] at hlength
        rcases balanceDeleteLoop_round fuel h ht hp with hnext | hdone
        · obtain ⟨tree₁, t', ct', c', p', m, hround, hafter, ht', hp', hsame⟩ := hnext
          obtain ⟨tree₂, s', hloop, hafter', hs'⟩ := ih hafter.holds ht' hp' (by omega) (by
            intro hblack
            rw [hsame hblack]
            omega)
          exact ⟨tree₂, s', hround.trans hloop, hafter.trans hafter', hs'⟩
        · exact hdone

end Delete

end WazAISentinel.Shared
