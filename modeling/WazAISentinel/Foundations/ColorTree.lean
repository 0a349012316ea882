import Mathlib.Tactic

/-!
# Red-black trees with a place in focus

A red-black tree is taken apart into a subtree and the path from it to the root, and `plug` puts
them together. Left and right are a parameter (`Dir`), so a case and its mirror image are one.

`Balanced t c n` says that `t` is a red-black tree with root color `c` and black height `n`, and
`Open p c n` that the path `p` becomes one when a subtree of black height `n` that may stand below a
node of color `c` is put in its hole.
-/

namespace WazAISentinel.Foundations

open List

universe u

/-- The two sides of a node. -/
inductive Dir where
  | left
  | right
  deriving DecidableEq, Repr

/-- The other side. -/
def Dir.flip : Dir → Dir
  | left => right
  | right => left

theorem Dir.eq_or_eq_flip (d e : Dir) : d = e ∨ d = e.flip := by
  cases d <;> cases e <;> simp [Dir.flip]

/-- The color of a node. -/
inductive Color where
  | red
  | black
  deriving DecidableEq, Repr

/-- Binary trees with colored nodes. -/
inductive ColorTree (α : Type u) where
  | nil
  | node (c : Color) (x : α) (l r : ColorTree α)

namespace ColorTree

variable {α : Type u} {t s : ColorTree α} {n : Nat} {c : Color} {d : Dir} {x : α}
  (near far : ColorTree α)

/-- A node with `near` on the side `d` and `far` on the other one. -/
def join (d : Dir) (c : Color) (x : α) (near far : ColorTree α) : ColorTree α :=
  match d with
  | .left => node c x near far
  | .right => node c x far near

/-- The color of the root; an empty tree counts as black. -/
def rootColor : ColorTree α → Color
  | nil => .black
  | node c _ _ _ => c

/-- The same tree with a black root. -/
def blacken : ColorTree α → ColorTree α
  | nil => nil
  | node _ x l r => node .black x l r

/-- The labels from left to right. -/
def toList : ColorTree α → List α
  | nil => []
  | node _ x l r => l.toList ++ x :: r.toList

theorem join_flip (d : Dir) (c : Color) (x : α) (near far : ColorTree α) :
    join d.flip c x near far = join d c x far near := by
  cases d <;> rfl

@[simp] theorem rootColor_join : (join d c x near far).rootColor = c := by
  cases d <;> rfl

@[simp] theorem blacken_join : (join d c x near far).blacken = join d .black x near far := by
  cases d <;> rfl

/-- A rotation keeps the order of the labels. -/
theorem toList_rotate (c c' e e' : Color) (x y : α) (s t u : ColorTree α) :
    (join d c y (join d c' x s t) u).toList = (join d e x s (join d e' y t u)).toList := by
  cases d <;> simp [join, toList]

/-- Red-black trees by root color and black height. -/
inductive Balanced : ColorTree α → Color → Nat → Prop
  | nil : Balanced nil .black 0
  | red {x : α} {l r : ColorTree α} {n : Nat} (hl : Balanced l .black n)
      (hr : Balanced r .black n) : Balanced (node .red x l r) .red n
  | black {x : α} {l r : ColorTree α} {cl cr : Color} {n : Nat} (hl : Balanced l cl n)
      (hr : Balanced r cr n) : Balanced (node .black x l r) .black (n + 1)

namespace Balanced

theorem rootColor_eq (h : Balanced t c n) : t.rootColor = c := by
  cases h <;> rfl

theorem join_red (hs : Balanced s .black n) (ht : Balanced t .black n) :
    Balanced (join d .red x s t) .red n := by
  cases d with
  | left => exact .red hs ht
  | right => exact .red ht hs

theorem join_black {cs ct : Color} (hs : Balanced s cs n) (ht : Balanced t ct n) :
    Balanced (join d .black x s t) .black (n + 1) := by
  cases d with
  | left => exact .black hs ht
  | right => exact .black ht hs

theorem blacken_eq (h : Balanced t .black n) : t.blacken = t := by
  cases h <;> rfl

/-- Labels do not matter for the balance. -/
theorem relabel {c' : Color} (h : Balanced (join d c x s t) c' n) (y : α) :
    Balanced (join d c y s t) c' n := by
  cases d with
  | left | right =>
    cases h with
    | red hl hr => exact .red hl hr
    | black hl hr => exact .black hl hr

theorem of_join_red (h : Balanced (join d .red x s t) c n) :
    c = .red ∧ Balanced s .black n ∧ Balanced t .black n := by
  cases d with
  | left =>
    cases h with
    | red hl hr => exact ⟨rfl, hl, hr⟩
  | right =>
    cases h with
    | red hl hr => exact ⟨rfl, hr, hl⟩

theorem of_join_black (h : Balanced (join d .black x s t) c n) :
    ∃ m cs ct, n = m + 1 ∧ c = .black ∧ Balanced s cs m ∧ Balanced t ct m := by
  cases d with
  | left =>
    cases h with
    | black hl hr => exact ⟨_, _, _, rfl, rfl, hl, hr⟩
  | right =>
    cases h with
    | black hl hr => exact ⟨_, _, _, rfl, rfl, hr, hl⟩

/-- A red tree is a red node, seen from either side. -/
theorem exists_join_of_red (h : Balanced t .red n) (d : Dir) :
    ∃ x near far, t = join d .red x near far ∧ Balanced near .black n ∧ Balanced far .black n := by
  cases h with
  | red hl hr =>
    cases d with
    | left => exact ⟨_, _, _, rfl, hl, hr⟩
    | right => exact ⟨_, _, _, rfl, hr, hl⟩

/-- A black tree of positive black height is a black node, seen from either side. -/
theorem exists_join_of_black (h : Balanced t .black (n + 1)) (d : Dir) :
    ∃ x near far cn cf, t = join d .black x near far ∧ Balanced near cn n ∧ Balanced far cf n := by
  cases h with
  | black hl hr =>
    cases d with
    | left => exact ⟨_, _, _, _, _, rfl, hl, hr⟩
    | right => exact ⟨_, _, _, _, _, rfl, hr, hl⟩

end Balanced

/-- Trees that lack a black node to reach the black height `n + 1`. A red root gives it when it is
painted. -/
inductive Deficient : ColorTree α → Color → Nat → Prop
  | black {t : ColorTree α} {n : Nat} (ht : Balanced t .black n) : Deficient t .black n
  | red {d : Dir} {x : α} {s t : ColorTree α} {cs ct : Color} {n : Nat} (hs : Balanced s cs n)
      (ht : Balanced t ct n) : Deficient (join d .red x s t) .red n

/-! ## Paths -/

/-- A node with a hole on one side. -/
structure Frame (α : Type u) where
  side : Dir
  color : Color
  label : α
  other : ColorTree α

/-- The nodes from a hole up to the root. -/
abbrev Path (α : Type u) := List (Frame α)

/-- The node with the hole filled. -/
def Frame.attach (f : Frame α) (t : ColorTree α) : ColorTree α :=
  join f.side f.color f.label t f.other

/-- The whole tree with the hole filled. -/
def plug : Path α → ColorTree α → ColorTree α
  | [], t => t
  | f :: p, t => plug p (f.attach t)

@[simp] theorem plug_nil : plug [] t = t := rfl

@[simp] theorem plug_cons (f : Frame α) (p : Path α) : plug (f :: p) t = plug p (f.attach t) := rfl

/-- The two children of a node can change roles. -/
theorem plug_flip (p : Path α) : plug (⟨d.flip, c, x, s⟩ :: p) t = plug (⟨d, c, x, t⟩ :: p) s :=
  congrArg (plug p) (join_flip d c x t s)

theorem plug_append (p q : Path α) (t : ColorTree α) : plug (p ++ q) t = plug q (plug p t) := by
  induction p generalizing t with
  | nil => rfl
  | cons f p ih => exact ih (f.attach t)

/-- The labels to the left of the hole. -/
def before : Path α → List α
  | [] => []
  | f :: p =>
    match f.side with
    | .left => before p
    | .right => before p ++ f.other.toList ++ [f.label]

/-- The labels to the right of the hole. -/
def after : Path α → List α
  | [] => []
  | f :: p =>
    match f.side with
    | .left => f.label :: f.other.toList ++ after p
    | .right => after p

theorem before_append (p q : Path α) : before (p ++ q) = before q ++ before p := by
  induction p with
  | nil => simp [before]
  | cons f p ih =>
    obtain ⟨side, c, x, other⟩ := f
    cases side <;> simp [before, ih]

theorem toList_plug (p : Path α) : (plug p t).toList = before p ++ t.toList ++ after p := by
  induction p generalizing t with
  | nil => simp [before, after]
  | cons f p ih =>
    obtain ⟨side, c, x, other⟩ := f
    cases side <;> simp [ih, Frame.attach, join, toList, before, after]

theorem length_toList_node (l r : ColorTree α) :
    (node c x l r).toList.length = l.toList.length + r.toList.length + 1 := by
  rw [toList, length_append, length_cons, Nat.add_assoc]

/-- The number of labels is exponential in the black height. -/
theorem Balanced.two_pow_le (h : Balanced t c n) : 2 ^ n ≤ t.toList.length + 1 := by
  induction h with
  | nil => exact le_rfl
  | red _ _ ihl _ =>
    rw [length_toList_node]
    omega
  | black _ _ ihl ihr =>
    rw [length_toList_node, pow_succ]
    omega

theorem toList_plug_congr (h : s.toList = t.toList) (p : Path α) :
    (plug p s).toList = (plug p t).toList := by
  rw [toList_plug, toList_plug, h]

theorem length_le_toList_plug (p : Path α) (t : ColorTree α) :
    p.length ≤ (plug p t).toList.length := by
  induction p generalizing t with
  | nil => exact Nat.zero_le _
  | cons f p ih =>
    have hlonger :
        ((plug p ColorTree.nil).toList).length < ((plug p (f.attach t)).toList).length := by
      rw [toList_plug, toList_plug]
      obtain ⟨side, c, x, other⟩ := f
      cases side <;> simp [Frame.attach, join, toList] <;> omega
    exact Nat.succ_le_of_lt ((ih nil).trans_lt hlonger)

/-- Paths of red-black trees, by the color above the hole and the black height it needs. The root is
black, so a red node has a parent. -/
inductive Open : Path α → Color → Nat → Prop
  | root (n : Nat) : Open [] .black n
  | red {d : Dir} {x : α} {t : ColorTree α} {f : Frame α} {p : Path α} {n : Nat}
      (ht : Balanced t .black n) (hp : Open (f :: p) .black n) :
        Open (⟨d, .red, x, t⟩ :: f :: p) .red n
  | black {d : Dir} {x : α} {t : ColorTree α} {ct c : Color} {p : Path α} {n : Nat}
      (ht : Balanced t ct n) (hp : Open p c (n + 1)) : Open (⟨d, .black, x, t⟩ :: p) .black n

/-- A subtree that fits makes the whole tree balanced. -/
theorem Open.plug {p : Path α} (hp : Open p c n) {ct : Color} (ht : Balanced t ct n)
    (hcolor : c = .red → ct = .black) (hroot : p = [] → ct = .black) :
    ∃ m, Balanced (plug p t) .black m := by
  induction hp generalizing t ct with
  | root n => exact ⟨n, hroot rfl ▸ ht⟩
  | red hother hp ih =>
    rw [hcolor rfl] at ht
    apply ih (Balanced.join_red ht hother)
    · intro h
      cases h
    · intro h
      cases h
  | black hother hp ih =>
    apply ih (Balanced.join_black ht hother)
    · exact fun _ => rfl
    · exact fun _ => rfl

/-- A black height that leaves the color above the hole free. -/
theorem Open.plug_black {p : Path α} (hp : Open p c n) (ht : Balanced t .black n) :
    ∃ m, Balanced (ColorTree.plug p t) .black m :=
  hp.plug ht (fun _ => rfl) fun _ => rfl

/-- A balanced tree taken apart: the path and the subtree in its hole fit. -/
theorem Open.of_plug {p : Path α} {m : Nat} (h : Balanced (ColorTree.plug p t) .black m) :
    ∃ c n ct, Open p c n ∧ Balanced t ct n ∧ (c = .red → ct = .black) ∧ (p = [] → ct = .black) := by
  induction p generalizing t with
  | nil => exact ⟨.black, m, .black, .root m, h, nofun, fun _ => rfl⟩
  | cons f p ih =>
    obtain ⟨c, n, ct, hp, ht, hred, hroot⟩ := ih h
    obtain ⟨d, cf, x, other⟩ := f
    cases cf with
    | red =>
      -- a red node is not the root and not below a red one
      obtain ⟨rfl, hnear, hfar⟩ := Balanced.of_join_red ht
      cases p with
      | nil => exact absurd (hroot rfl) nofun
      | cons g p =>
        obtain rfl : c = .black := by
          cases c with
          | red => exact absurd (hred rfl) nofun
          | black => rfl
        exact ⟨.red, n, .black, .red hfar hp, hnear, fun _ => rfl, nofun⟩
    | black =>
      obtain ⟨n, cn, _, rfl, rfl, hnear, hfar⟩ := Balanced.of_join_black ht
      exact ⟨.black, n, cn, .black hfar hp, hnear, nofun, nofun⟩

theorem Balanced.relabel_plug {p : Path α} {m : Nat}
    (h : Balanced (ColorTree.plug p (join d c x s t)) .black m) (y : α) :
    ∃ m', Balanced (ColorTree.plug p (join d c y s t)) .black m' := by
  obtain ⟨_, _, _, hp, ht, hred, hroot⟩ := Open.of_plug h
  exact hp.plug (ht.relabel y) hred hroot

/-! ## Descending -/

/-- Go down from the focus; `side x` is the side to take at the label `x`, or `none` to stop
there. -/
def descend (side : α → Option Dir) : Path α → ColorTree α → Path α × ColorTree α
  | p, nil => (p, nil)
  | p, node c x l r =>
    match side x with
    | none => (p, node c x l r)
    | some .left => descend side (⟨.left, c, x, r⟩ :: p) l
    | some .right => descend side (⟨.right, c, x, l⟩ :: p) r

section Descend

variable {side : α → Option Dir}

theorem plug_descend (p : Path α) : plug (descend side p t).1 (descend side p t).2 = plug p t := by
  induction t generalizing p with
  | nil => rfl
  | node c x l r ihl ihr =>
    rw [descend]
    split
    · rfl
    · exact ihl _
    · exact ihr _

/-- The descent stops at a leaf or at a label where it is told to. -/
theorem descend_stops (side : α → Option Dir) (p : Path α) (t : ColorTree α) :
    (descend side p t).2 = nil ∨ ∃ c x l r, (descend side p t).2 = node c x l r ∧
      side x = none := by
  induction t generalizing p with
  | nil => exact .inl rfl
  | node c x l r ihl ihr =>
    rw [descend]
    split
    · exact .inr ⟨c, x, l, r, rfl, by assumption⟩
    · exact ihl _
    · exact ihr _

/-- In a sorted tree everything before the hole is below the place looked for and everything after
it above. -/
theorem descend_between {R : α → α → Prop} {Below Above : α → Prop}
    (hleft : ∀ x, side x = some .left → Above x) (hright : ∀ x, side x = some .right → Below x)
    (habove : ∀ x y, Above x → R x y → Above y) (hbelow : ∀ x y, Below y → R x y → Below x)
    {p : Path α} (hsorted : t.toList.Pairwise R) (hbefore : ∀ y ∈ before p, Below y)
    (hafter : ∀ y ∈ after p, Above y) :
    (∀ y ∈ before (descend side p t).1, Below y) ∧ ∀ y ∈ after (descend side p t).1, Above y := by
  induction t generalizing p with
  | nil => exact ⟨hbefore, hafter⟩
  | node c x l r ihl ihr =>
    rw [toList, pairwise_append, pairwise_cons] at hsorted
    obtain ⟨hl, ⟨hx, hr⟩, hlr⟩ := hsorted
    rw [descend]
    split
    · exact ⟨hbefore, hafter⟩
    · rename_i hside
      have hxr :=
        forall_mem_cons.2 ⟨hleft x hside, fun y hy => habove x y (hleft x hside) (hx y hy)⟩
      exact ihl hl (p := ⟨.left, c, x, r⟩ :: p) hbefore (forall_mem_append.2 ⟨hxr, hafter⟩)
    · rename_i hside
      have hl : ∀ y ∈ l.toList, Below y :=
        fun y hy => hbelow y x (hright x hside) (hlr y hy x mem_cons_self)
      exact ihr hr (p := ⟨.right, c, x, l⟩ :: p) (forall_mem_append.2
        ⟨forall_mem_append.2 ⟨hbefore, hl⟩,
          forall_mem_singleton.2 (hright x hside)⟩) hafter

end Descend

end ColorTree

end WazAISentinel.Foundations
