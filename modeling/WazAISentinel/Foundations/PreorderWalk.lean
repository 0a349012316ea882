
import Mathlib.Data.List.Chain
import Mathlib.Data.List.Nodup

/-!
# Depth-first walks

A walk goes from a point to its next points, one after the other, and below each of them before it
goes on. `Walks next a ways` gives the ways that it goes from `a`, in their order, and `ends ways`
the points at which it arrives, several times where several ways lead there.
-/

namespace WazAISentinel.Foundations

open List

universe u

variable {α : Type u}

/-- The ways of a walk, each written from its start. -/
inductive Walks (next : α → List α) : α → List (List α) → Prop
  | node {a : α} {below : List (List (List α))}
      (hbelow : List.Forall₂ (Walks next) (next a) below) :
      Walks next a ([a] :: below.flatten.map (a :: ·))

/-- The points at which ways end. -/
def ends (ways : List (List α)) : List α := ways.filterMap List.getLast?

theorem ends_append (ways ways' : List (List α)) : ends (ways ++ ways') = ends ways ++ ends ways' :=
  filterMap_append

variable {a : α} {w l : List α} {ways : List (List α)} {below : List (List (List α))}

section Walk

variable {next : α → List α}

theorem Walks.starts (h : Walks next a ways) (hw : w ∈ ways) : w.head? = some a := by
  cases h with
  | node hbelow =>
    rcases mem_cons.1 hw with rfl | hw
    · rfl
    · obtain ⟨v, -, rfl⟩ := mem_map.1 hw
      rfl

/-- A walk below several points, one after the other. -/
abbrev WalksAll (next : α → List α) (l : List α) (below : List (List (List α))) : Prop :=
  List.Forall₂ (Walks next) l below

theorem WalksAll.starts (h : WalksAll next l below) (hw : w ∈ below.flatten) :
    ∃ b ∈ l, w.head? = some b := by
  induction h with
  | nil => exact absurd hw not_mem_nil
  | @cons b _ l _ hhead _ ih =>
    rcases mem_append.1 hw with hw | hw
    · exact ⟨b, mem_cons_self, hhead.starts hw⟩
    · obtain ⟨c, hc, hstart⟩ := ih hw
      exact ⟨c, mem_cons_of_mem b hc, hstart⟩

theorem WalksAll.forall_ne_nil (h : WalksAll next l below) (hw : w ∈ below.flatten) : w ≠ [] := by
  rintro rfl
  obtain ⟨b, -, hstart⟩ := WalksAll.starts h hw
  cases hstart

theorem ends_map_cons (a : α) (h : ∀ w ∈ ways, w ≠ []) : ends (ways.map (a :: ·)) = ends ways := by
  rw [ends, filterMap_map]
  refine filterMap_congr fun w hw => ?_
  cases w with
  | nil => exact absurd rfl (h [] hw)
  | cons b w => exact getLast?_cons_cons

theorem ends_node (h : WalksAll next (next a) below) :
    ends ([a] :: below.flatten.map (a :: ·)) = a :: ends below.flatten := by
  change a :: ends (below.flatten.map (a :: ·)) = _
  rw [ends_map_cons a fun w hw => h.forall_ne_nil hw]

/-! ## The ways -/

/-- A chain of next points that starts at `a`. -/
def IsWay (next : α → List α) (a : α) (w : List α) : Prop :=
  ∃ rest, w = a :: rest ∧ List.IsChain (fun p c => c ∈ next p) w

theorem mem_flatten_walks_iff (h : WalksAll next l below)
    (hl : ∀ b ∈ l, ∀ ways, Walks next b ways → (w ∈ ways ↔ IsWay next b w)) :
    w ∈ below.flatten ↔ ∃ b ∈ l, IsWay next b w := by
  induction h with
  | nil => simp
  | @cons b ways l below hhead _ ih =>
    rw [flatten_cons, mem_append, exists_mem_cons_iff, hl b mem_cons_self ways hhead,
      ih fun c hc => hl c (mem_cons_of_mem b hc)]

/-- The ways are the chains of next points. -/
theorem mem_walks_iff (hacc : Acc (fun b a => b ∈ next a) a) (h : Walks next a ways) (w : List α) :
    w ∈ ways ↔ IsWay next a w := by
  induction hacc generalizing ways w with
  | intro a _ ih =>
    cases h with
    | @node _ below hbelow =>
      have hmem (v : List α) :=
        mem_flatten_walks_iff (w := v) hbelow fun b hb ways hways => ih b hb hways v
      constructor
      · intro hw
        rcases mem_cons.1 hw with rfl | hw
        · exact ⟨[], rfl, .singleton a⟩
        · obtain ⟨v, hv, rfl⟩ := mem_map.1 hw
          obtain ⟨b, hb, rest, rfl, hchain⟩ := (hmem v).1 hv
          exact ⟨b :: rest, rfl, isChain_cons_cons.2 ⟨hb, hchain⟩⟩
      · rintro ⟨rest, rfl, hchain⟩
        cases rest with
        | nil => exact mem_cons_self
        | cons b rest =>
          obtain ⟨hb, hchain⟩ := isChain_cons_cons.1 hchain
          exact mem_cons_of_mem _
            (mem_map.2 ⟨b :: rest, (hmem _).2 ⟨b, hb, rest, rfl, hchain⟩, rfl⟩)

/-- Different points have different ways. -/
theorem nodup_flatten (hl : l.Nodup) (h : WalksAll next l below)
    (hnodup : ∀ b ∈ l, ∀ ways, Walks next b ways → ways.Nodup) : below.flatten.Nodup := by
  induction h with
  | nil => exact nodup_nil
  | @cons b ways l below hhead hrest ih =>
    obtain ⟨hb, hl⟩ := nodup_cons.1 hl
    rw [flatten_cons, nodup_append']
    refine ⟨hnodup b mem_cons_self ways hhead,
      ih hl fun c hc => hnodup c (mem_cons_of_mem b hc), ?_⟩
    intro w hw hw'
    obtain ⟨c, hc, hstart⟩ := WalksAll.starts hrest hw'
    rw [hhead.starts hw] at hstart
    obtain rfl := Option.some_inj.1 hstart
    exact hb hc

/-- No way is gone twice. -/
theorem nodup_walks (hnext : ∀ a, (next a).Nodup) (hacc : Acc (fun b a => b ∈ next a) a)
    (h : Walks next a ways) : ways.Nodup := by
  induction hacc generalizing ways with
  | intro a _ ih =>
    cases h with
    | node hbelow =>
      refine nodup_cons.2 ⟨fun hmem => ?_, ?_⟩
      · obtain ⟨v, hv, heq⟩ := mem_map.1 hmem
        exact WalksAll.forall_ne_nil hbelow hv (cons.inj heq).2
      · exact (nodup_flatten (hnext a) hbelow fun b hb ways hways => ih b hb hways).map fun _ _ =>
          tail_eq_of_cons_eq

/-! ## The ends -/

/-- Every point of the list is a start or next to a point before it. -/
def Preceded (next : α → List α) (start : List α) (l : List α) : Prop :=
  ∀ before c after, l = before ++ c :: after → c ∈ start ∨ ∃ p ∈ before, c ∈ next p

theorem preceded_append {s l' : List α} (h : Preceded next s l) (h' : Preceded next s l') :
    Preceded next s (l ++ l') := by
  intro before c after heq
  rcases append_eq_append_iff.1 heq with ⟨m, rfl, hm⟩ | ⟨m, hm, hafter⟩
  · -- the point is in the second list
    rcases h' m c after hm with hc | ⟨p, hp, hc⟩
    · exact .inl hc
    · exact .inr ⟨p, mem_append_right l hp, hc⟩
  · cases m with
    | nil =>
      rcases h' [] c after hafter.symm with hc | ⟨p, hp, -⟩
      · exact .inl hc
      · exact absurd hp not_mem_nil
    | cons d m =>
      obtain ⟨rfl, rfl⟩ := cons.inj hafter
      exact h before c m hm

theorem preceded_cons (h : Preceded next (next a) l) : Preceded next [a] (a :: l) := by
  intro before c after heq
  cases before with
  | nil =>
    obtain ⟨rfl, -⟩ := cons.inj heq
    exact .inl mem_cons_self
  | cons b before =>
    obtain ⟨rfl, htail⟩ := cons.inj heq
    rcases h before c after htail with hc | ⟨p, hp, hc⟩
    · exact .inr ⟨a, mem_cons_self, hc⟩
    · exact .inr ⟨p, mem_cons_of_mem a hp, hc⟩

theorem preceded_flatten (h : WalksAll next l below)
    (hl : ∀ b ∈ l, ∀ ways, Walks next b ways → Preceded next [b] (ends ways)) :
    Preceded next l (ends below.flatten) := by
  induction h with
  | nil =>
    intro before c after heq
    exact absurd heq.symm (append_ne_nil_of_right_ne_nil before (cons_ne_nil c after))
  | @cons b ways l below hhead _ ih =>
    rw [flatten_cons, ends_append]
    refine preceded_append (fun before c after heq => ?_) fun before c after heq => ?_
    · refine (hl b mem_cons_self ways hhead before c after heq).imp_left fun hc => ?_
      rw [mem_singleton.1 hc]
      exact mem_cons_self
    · exact (ih (fun d hd => hl d (mem_cons_of_mem b hd)) before c after heq).imp_left
        (mem_cons_of_mem b)

/-- A walk arrives at a point, other than its start, after it has arrived at one to which it is
next. -/
theorem preceded_walks (hacc : Acc (fun b a => b ∈ next a) a) (h : Walks next a ways) :
    Preceded next [a] (ends ways) := by
  induction hacc generalizing ways with
  | intro a _ ih =>
    cases h with
    | node hbelow =>
      rw [ends_node hbelow]
      exact preceded_cons (preceded_flatten hbelow fun b hb ways hways => ih b hb hways)

/-! ## Walks that go on below at most one point -/

/-- Nothing is next to a point that is not `ok`, and nothing is tried after a point that is. -/
structure Selects (next : α → List α) (ok : α → Bool) : Prop where
  nil : ∀ a, ok a = false → next a = []
  last : ∀ a l b l', next a = l ++ b :: l' → ok b = true → l' = []

variable {ok : α → Bool}

theorem filter_ends_of_not_ok (hsel : Selects next ok) (ha : ok a = false) (h : Walks next a ways) :
    (ends ways).filter ok = [] := by
  cases h with
  | @node _ below hbelow =>
    rw [ends_node hbelow]
    rw [hsel.nil a ha] at hbelow
    cases hbelow
    rw [filter_cons_of_neg (by rw [ha]; exact Bool.false_ne_true)]
    rfl

/-- Below a list in which nothing follows an `ok` point, the `ok` points are those below the last
one. -/
theorem filter_ends_flatten (hsel : Selects next ok)
    (hlast : ∀ m b m', l = m ++ b :: m' → ok b = true → m' = []) (h : WalksAll next l below)
    (hl : ∀ b ∈ l, ok b = true → ∀ ways, Walks next b ways → IsWay next b ((ends ways).filter ok)) :
    (ends below.flatten).filter ok = [] ∨
      ∃ b ∈ l, IsWay next b ((ends below.flatten).filter ok) := by
  induction h with
  | nil => exact .inl rfl
  | @cons b ways l below hhead hrest ih =>
    rw [flatten_cons, ends_append, filter_append]
    cases hb : ok b with
    | true =>
      obtain rfl := hlast [] b l rfl hb
      cases hrest
      refine .inr ⟨b, mem_cons_self, ?_⟩
      simpa [ends] using hl b mem_cons_self hb ways hhead
    | false =>
      rw [filter_ends_of_not_ok hsel hb hhead, nil_append]
      rcases ih (fun m c m' hm => hlast (b :: m) c m' (by rw [hm, cons_append]))
        (fun c hc => hl c (mem_cons_of_mem b hc)) with hnil | ⟨c, hc, hway⟩
      · exact .inl hnil
      · exact .inr ⟨c, mem_cons_of_mem b hc, hway⟩

/-- The `ok` points at which the walk arrives are a way from its start. -/
theorem filter_ends_walks (hsel : Selects next ok) (hacc : Acc (fun b a => b ∈ next a) a)
    (ha : ok a = true) (h : Walks next a ways) : IsWay next a ((ends ways).filter ok) := by
  induction hacc generalizing ways with
  | intro a _ ih =>
    cases h with
    | node hbelow =>
      rw [ends_node hbelow, filter_cons_of_pos ha]
      refine ⟨_, rfl, ?_⟩
      rcases filter_ends_flatten hsel (hsel.last a) hbelow
          (fun b hb hok ways hways => ih b hb hok hways) with
        hnil | ⟨b, hb, rest, heq, hchain⟩
      · rw [hnil]
        exact .singleton a
      · rw [heq] at hchain ⊢
        exact isChain_cons_cons.2 ⟨hb, hchain⟩

end Walk

/-! ## Chains without cycles -/

section Chain

variable {r : α → α → Prop}

theorem transGen_of_isChain {c : α} (h : IsChain r (a :: w)) (hc : c ∈ w) :
    Relation.TransGen r a c :=
  (h.imp fun _ _ => Relation.TransGen.single).rel_cons hc

theorem nodup_of_isChain (h : IsChain r w) (hacyclic : ∀ a ∈ w, ¬ Relation.TransGen r a a) :
    w.Nodup := by
  have hpairwise := (h.imp fun _ _ => Relation.TransGen.single).pairwise
  refine hpairwise.imp_of_mem fun ha _ hab heq => ?_
  subst heq
  exact hacyclic _ ha hab

/-- Where every point is next to at most one, a way is known by its end. -/
theorem eq_of_getLast?_eq (hunique : ∀ c p q, r p c → r q c → p = q)
    (hacyclic : ¬ Relation.TransGen r a a) {w' : List α} (h : IsChain r (a :: w))
    (h' : IsChain r (a :: w')) (hlast : (a :: w).getLast? = (a :: w').getLast?) : w = w' := by
  -- from the end, as the points before the last ones are the same
  induction w using reverseRecOn generalizing w' with
  | nil =>
    rcases eq_nil_or_concat w' with rfl | ⟨v', c, rfl⟩
    · rfl
    · exfalso
      rw [concat_eq_append] at h' hlast
      rw [← cons_append, getLast?_concat] at hlast
      obtain rfl := Option.some_inj.1 hlast
      exact hacyclic (transGen_of_isChain h' (mem_append_right v' mem_cons_self))
  | append_singleton v c ih =>
    rcases eq_nil_or_concat w' with rfl | ⟨v', c', rfl⟩
    · exfalso
      rw [← cons_append, getLast?_concat] at hlast
      obtain rfl := Option.some_inj.1 hlast
      exact hacyclic (transGen_of_isChain h (mem_append_right v mem_cons_self))
    · rw [concat_eq_append] at h' hlast ⊢
      rw [← cons_append, ← cons_append, getLast?_concat, getLast?_concat] at hlast
      obtain rfl := Option.some_inj.1 hlast
      rw [← cons_append, isChain_append] at h h'
      obtain ⟨hchain, -, hstep⟩ := h
      obtain ⟨hchain', -, hstep'⟩ := h'
      have hbefore : (a :: v).getLast? = (a :: v').getLast? := by
        rw [getLast?_cons, getLast?_cons]
        exact congrArg some
          (hunique c _ _ (hstep _ getLast?_cons c rfl) (hstep' _ getLast?_cons c rfl))
      rw [ih hchain hchain' hbefore]

/-- Then a walk arrives nowhere twice. -/
theorem nodup_ends (hunique : ∀ c p q, r p c → r q c → p = q) (hacyclic : ¬ Relation.TransGen r a a)
    (hnodup : ways.Nodup) (hways : ∀ w ∈ ways, IsChain r (a :: w)) : (ends ways).Nodup := by
  rw [ends, Nodup, pairwise_filterMap]
  refine hnodup.imp_of_mem fun {w w'} hw hw' hne c hc c' hc' heq => hne ?_
  subst heq
  refine eq_of_getLast?_eq hunique hacyclic (hways w hw) (hways w' hw') ?_
  rw [getLast?_cons, getLast?_cons, hc, hc']

end Chain

end WazAISentinel.Foundations
