import Mathlib.Data.List.Cycle

/-!
# Linked lists

`Circular next l` says that the successor function `next` leads through `l` and back to its first
node; where the list is cut open does not matter. `Strand next prev before l after` says that the
nodes of `l` are linked in both directions, from `before` to `after`. Nodes are appended behind the
last one and taken out by the links of their neighbours.
-/

namespace WazAISentinel.Foundations

open List

universe u

variable {α : Type u}

/-- What is left of a list when a node is taken out. -/
theorem mem_append_iff_of_nodup {l₁ l₂ : List α} {a x : α} (h : (l₁ ++ a :: l₂).Nodup) :
    x ∈ l₁ ++ l₂ ↔ x ∈ l₁ ++ a :: l₂ ∧ x ≠ a := by
  have hnot : a ∉ l₁ ++ l₂ := (nodup_cons.1 (nodup_middle.1 h)).1
  rw [perm_middle.mem_iff, mem_cons, or_and_right, and_not_self_iff, false_or]
  exact (and_iff_left_of_imp fun hx => ne_of_mem_of_not_mem hx hnot).symm

/-- The links lead through the list and back to its first node. -/
def Circular (next : α → Option α) (l : List α) : Prop :=
  Cycle.Chain (fun a b => next a = some b) (l : Cycle α)

/-- The nodes from a pointer on, at most a number of them. -/
def walk (next : α → Option α) : Nat → Option α → List α
  | 0, _ => []
  | _ + 1, none => []
  | n + 1, some a => a :: walk next n (next a)

variable {next next' : α → Option α} {l l₁ l₂ : List α} {a b p : α}

theorem circular_nil : Circular next ([] : List α) := Cycle.Chain.nil _

theorem circular_cons :
    Circular next (a :: l) ↔ (a :: (l ++ [a])).IsChain fun a b => next a = some b :=
  Cycle.chain_coe_cons ..

theorem circular_singleton : Circular next [a] ↔ next a = some a := Cycle.chain_singleton ..

/-- A chain of links depends on the links of all nodes but the last. -/
theorem isChain_congr (hsame : ∀ x ∈ l, next' x = next x)
    (h : (l ++ [p]).IsChain fun a b => next a = some b) :
    (l ++ [p]).IsChain fun a b => next' a = some b := by
  rw [isChain_append] at h ⊢
  obtain ⟨hl, hp, hlast⟩ := h
  refine ⟨hl.imp_of_mem_imp fun x _ hx _ hstep => ?_, .singleton p, fun x hx y hy => ?_⟩
  · exact (hsame x hx).trans hstep
  · exact (hsame x (mem_of_getLast? hx)).trans (hlast x hx y hy)

/-- The links of the nodes before the last one. -/
theorem isChain_congr_of_ne (hnodup : (l ++ [p]).Nodup)
    (hsame : ∀ x ∈ l ++ [p], x ≠ p → next' x = next x)
    (h : (l ++ [p]).IsChain fun a b => next a = some b) :
    (l ++ [p]).IsChain fun a b => next' a = some b := by
  apply isChain_congr _ h
  intro x hx
  apply hsame x (mem_append_left _ hx)
  rintro rfl
  exact (nodup_append.1 hnodup).2.2 x hx x (mem_singleton_self x) rfl

namespace Circular

/-- A circle can be cut open anywhere. -/
theorem rotate (h : Circular next (l₁ ++ l₂)) : Circular next (l₂ ++ l₁) := by
  have hsame : ((l₁ ++ l₂ : List α) : Cycle α) = (l₂ ++ l₁ : List α) :=
    Cycle.coe_eq_coe.2 isRotated_append
  rw [Circular, hsame] at h
  exact h

/-- Only the links of the nodes matter. -/
theorem congr (h : Circular next l) (hsame : ∀ x ∈ l, next' x = next x) : Circular next' l := by
  cases l with
  | nil => exact circular_nil
  | cons a l =>
    exact isChain_congr hsame h

/-- Every node has a predecessor in the circle. -/
theorem exists_prev (h : Circular next l) (ha : a ∈ l) : ∃ p ∈ l, next p = some a := by
  obtain ⟨before, after, rfl⟩ := append_of_mem ha
  have hcut : Circular next (a :: (after ++ before)) := h.rotate
  rcases eq_nil_or_concat (after ++ before) with hnil | ⟨rest, p, hrest⟩
  · rw [hnil, circular_singleton] at hcut
    exact ⟨a, ha, hcut⟩
  · rw [hrest, circular_cons, concat_eq_append, append_assoc, ← cons_append] at hcut
    refine ⟨p, ?_, (isChain_append_cons_cons.1 hcut).2.1⟩
    have hp : p ∈ a :: (after ++ before) := by simp [hrest]
    exact perm_append_comm.mem_iff.1 hp

/-- Every node of the circle has a successor. -/
theorem exists_next (h : Circular next l) (ha : a ∈ l) : ∃ b, next a = some b := by
  obtain ⟨before, after, rfl⟩ := append_of_mem ha
  have hcut : Circular next (a :: (after ++ before)) := h.rotate
  cases hrest : after ++ before with
  | nil =>
    rw [hrest, circular_singleton] at hcut
    exact ⟨a, hcut⟩
  | cons b rest =>
    rw [hrest, circular_cons, cons_append, isChain_cons_cons] at hcut
    exact ⟨b, hcut.1⟩

/-- The predecessor of the node at which the circle is cut open is its last node. -/
theorem getLast?_of_next (h : Circular next (a :: l)) (hnodup : (a :: l).Nodup) (hp : p ∈ a :: l)
    (hnext : next p = some a) : (a :: l).getLast? = some p := by
  obtain ⟨before, after, hsplit⟩ := append_of_mem hp
  cases after with
  | nil => rw [hsplit, getLast?_concat]
  | cons b after =>
    -- then the successor of `p` comes after it, so it is not the first node
    rw [circular_cons, ← cons_append, hsplit, append_assoc, cons_append, cons_append,
      isChain_append_cons_cons, hnext] at h
    obtain rfl : a = b := Option.some.inj h.2.1
    rw [hsplit] at hnodup
    cases before with
    | nil | cons c before =>
      obtain ⟨rfl, -⟩ := cons.inj hsplit
      exact absurd hnodup (by simp)

/-- The predecessor of a node is the last one if the circle is cut open at the node. -/
theorem getLast?_rotate (h : Circular next (l₁ ++ a :: l₂)) (hnodup : (l₁ ++ a :: l₂).Nodup)
    (hp : p ∈ l₁ ++ a :: l₂) (hnext : next p = some a) : (a :: (l₂ ++ l₁)).getLast? = some p := by
  have hcut : Circular next (a :: (l₂ ++ l₁)) := h.rotate
  have hperm : (l₁ ++ a :: l₂).Perm (a :: (l₂ ++ l₁)) := perm_append_comm
  exact hcut.getLast?_of_next (hperm.nodup hnodup) (hperm.mem_iff.1 hp) hnext

/-- Append a node behind the last one. -/
theorem concat (h : Circular next (a :: l)) (hnodup : (a :: l).Nodup)
    (hlast : (a :: l).getLast? = some p) (hnew : next' b = some a) (hlink : next' p = some b)
    (hsame : ∀ x ∈ a :: l, x ≠ p → next' x = next x) : Circular next' (a :: l ++ [b]) := by
  obtain ⟨before, hsplit⟩ := getLast?_eq_some_iff.1 hlast
  rw [circular_cons, ← cons_append, hsplit, append_assoc] at h
  rw [cons_append, circular_cons, append_assoc, ← cons_append, hsplit, append_assoc]
  rw [hsplit] at hnodup hsame
  have hbefore := isChain_congr_of_ne hnodup hsame (isChain_append_cons_cons.1 h).1
  exact isChain_append_cons_cons.2 ⟨hbefore, hlink, isChain_pair.2 hnew⟩

/-- Take a node out that is not the only one: its predecessor gets its link. -/
theorem remove (h : Circular next (l₁ ++ a :: l₂)) (hnodup : (l₁ ++ a :: l₂).Nodup)
    (hp : p ∈ l₁ ++ l₂) (hnext : next p = some a) (hlink : next' p = next a)
    (hsame : ∀ x ∈ l₁ ++ l₂, x ≠ p → next' x = next x) : Circular next' (l₁ ++ l₂) := by
  apply Circular.rotate
  have hcut : Circular next (a :: (l₂ ++ l₁)) := h.rotate
  have hperm : (l₁ ++ a :: l₂).Perm (a :: (l₂ ++ l₁)) := perm_append_comm
  have hmem : ∀ x, x ∈ l₁ ++ l₂ ↔ x ∈ l₂ ++ l₁ := fun x => perm_append_comm.mem_iff
  have hnodup' := hperm.nodup hnodup
  simp only [hmem] at hp hsame
  -- cut open at the node, the predecessor is the last one
  have hlast := hcut.getLast?_of_next hnodup' (mem_cons_of_mem a hp) hnext
  generalize l₂ ++ l₁ = rest at hp hsame hcut hnodup' hlast ⊢
  cases rest with
  | nil => cases hp
  | cons b rest =>
    rw [getLast?_cons_cons] at hlast
    obtain ⟨before, hsplit⟩ := getLast?_eq_some_iff.1 hlast
    rw [circular_cons, cons_append, isChain_cons_cons] at hcut
    obtain ⟨hfirst, hchain⟩ := hcut
    rw [← cons_append, hsplit, append_assoc] at hchain
    rw [circular_cons, ← cons_append, hsplit, append_assoc]
    rw [hsplit] at hnodup' hsame
    have hbefore :=
      isChain_congr_of_ne (nodup_cons.1 hnodup').2 hsame (isChain_append_cons_cons.1 hchain).1
    exact isChain_append_cons_cons.2 ⟨hbefore, by rw [hlink, hfirst], .singleton b⟩

/-- The successor of a node is the next one in the list. -/
theorem next_eq_head? (h : Circular next (l₁ ++ a :: l₂)) (hl₂ : l₂ ≠ []) : next a = l₂.head? := by
  obtain ⟨b, l₂, rfl⟩ := exists_cons_of_ne_nil hl₂
  have hcut : Circular next (a :: (b :: l₂ ++ l₁)) := h.rotate
  rw [circular_cons, cons_append, cons_append, isChain_cons_cons] at hcut
  exact hcut.1

/-- Following the links from the first node gives the list. -/
theorem walk_eq (h : Circular next l) : walk next l.length l.head? = l := by
  -- the walk along any end of the list
  have hend : ∀ l₂ l₁, l₁ ++ l₂ = l → walk next l₂.length l₂.head? = l₂ := by
    intro l₂
    induction l₂ with
    | nil => intro l₁ _; rfl
    | cons a l₂ ih =>
      intro l₁ hl
      rw [length_cons, head?_cons, walk]
      cases l₂ with
      | nil => rfl
      | cons b l₂ =>
        rw [← hl] at h
        rw [h.next_eq_head? (cons_ne_nil b l₂), ih (l₁ ++ [a]) (by rw [append_assoc]; exact hl)]
  exact hend l [] rfl

end Circular

/-! ## Doubly linked lists -/

/-- The nodes are linked in both directions, from `before` to `after`. -/
def Strand (next prev : α → Option α) : Option α → List α → Option α → Prop
  | _, [], _ => True
  | before, a :: l, after =>
    prev a = before ∧ next a = l.head?.or after ∧ Strand next prev (some a) l after

variable {prev prev' : α → Option α} {before before' after after' : Option α}

/-- A strand is taken apart. -/
theorem strand_append :
    Strand next prev before (l₁ ++ l₂) after ↔
      Strand next prev before l₁ (l₂.head?.or after) ∧
        Strand next prev (l₁.getLast?.or before) l₂ after := by
  induction l₁ generalizing before with
  | nil => simp [Strand]
  | cons a l₁ ih =>
    have hlast : (a :: l₁).getLast?.or before = l₁.getLast?.or (some a) := by
      cases l₁ with
      | nil => rfl
      | cons b l₁ => simp [getLast?_cons]
    have hhead : (l₁ ++ l₂).head?.or after = l₁.head?.or (l₂.head?.or after) := by
      cases l₁ <;> rfl
    rw [cons_append, Strand, Strand, ih, hlast, hhead]
    tauto

namespace Strand

theorem prev_head (h : Strand next prev before l after) (ha : l.head? = some a) :
    prev a = before := by
  cases l with
  | nil => cases ha
  | cons b l =>
    cases ha
    exact h.1

/-- The ends of a strand are linked to other nodes. -/
theorem relink (h : Strand next prev before l after) (hnodup : l.Nodup)
    (hlast : ∀ x, l.getLast? = some x → next' x = after')
    (hfirst : ∀ x, l.head? = some x → prev' x = before')
    (hnext : ∀ x ∈ l, l.getLast? ≠ some x → next' x = next x)
    (hprev : ∀ x ∈ l, l.head? ≠ some x → prev' x = prev x) :
    Strand next' prev' before' l after' := by
  induction l generalizing before before' with
  | nil => trivial
  | cons a l ih =>
    obtain ⟨-, hlink, hrest⟩ := h
    obtain ⟨hnot, hnodup⟩ := nodup_cons.1 hnodup
    refine ⟨hfirst a rfl, ?_, ?_⟩
    · cases l with
      | nil => exact hlast a rfl
      | cons b l =>
        refine (hnext a mem_cons_self ?_).trans hlink
        intro hsame
        exact hnot (mem_of_getLast? hsame)
    · -- in the rest, the first node keeps the previous node `a`
      have hlast' : ∀ x, l.getLast? = some x → (a :: l).getLast? = some x := by
        intro x hx
        rw [getLast?_cons, hx]
        rfl
      have hne : ∀ x ∈ l, (a :: l).head? ≠ some x := by
        intro x hx hsame
        cases hsame
        exact hnot hx
      refine ih hrest hnodup (fun x hx => hlast x (hlast' x hx)) ?_ ?_ ?_
      · intro x hx
        have hmem := mem_of_head? hx
        rw [hprev x (mem_cons_of_mem a hmem) (hne x hmem), hrest.prev_head hx]
      · intro x hx hnotlast
        refine hnext x (mem_cons_of_mem a hx) fun hsame => hnotlast ?_
        cases l with
        | nil => cases hx
        | cons b l => rwa [getLast?_cons_cons] at hsame
      · intro x hx _
        exact hprev x (mem_cons_of_mem a hx) (hne x hx)

/-- Append a node behind the last one. -/
theorem concat (h : Strand next prev none l none) (hnodup : l.Nodup)
    (hlast : ∀ x, l.getLast? = some x → next' x = some a)
    (hnext : ∀ x ∈ l, l.getLast? ≠ some x → next' x = next x) (hprev : ∀ x ∈ l, prev' x = prev x)
    (ha : prev' a = l.getLast?) (hend : next' a = none) :
    Strand next' prev' none (l ++ [a]) none := by
  rw [strand_append]
  refine ⟨?_, ?_, hend, trivial⟩
  · refine h.relink hnodup hlast ?_ hnext fun x hx _ => hprev x hx
    intro x hx
    rw [hprev x (mem_of_head? hx), h.prev_head hx]
  · rw [ha, Option.or_none]

/-- The links of a node. -/
theorem links (h : Strand next prev none (l₁ ++ a :: l₂) none) :
    prev a = l₁.getLast? ∧ next a = l₂.head? := by
  obtain ⟨-, hprev, hnext, -⟩ := strand_append.1 h
  rw [Option.or_none] at hprev hnext
  exact ⟨hprev, hnext⟩

/-- Take a node out: its neighbours are linked to each other. -/
theorem remove (h : Strand next prev none (l₁ ++ a :: l₂) none) (hnodup : (l₁ ++ a :: l₂).Nodup)
    (hlast : ∀ x, l₁.getLast? = some x → next' x = l₂.head?)
    (hfirst : ∀ x, l₂.head? = some x → prev' x = l₁.getLast?)
    (hnext : ∀ x ∈ l₁ ++ l₂, l₁.getLast? ≠ some x → next' x = next x)
    (hprev : ∀ x ∈ l₁ ++ l₂, l₂.head? ≠ some x → prev' x = prev x) :
    Strand next' prev' none (l₁ ++ l₂) none := by
  obtain ⟨hleft, -, -, hright⟩ := strand_append.1 h
  obtain ⟨hnodup₁, hnodup₂, hdisjoint⟩ := nodup_append.1 hnodup
  have hapart : ∀ x ∈ l₁, x ∉ l₂ := fun x hx hx' => hdisjoint x hx x (mem_cons_of_mem a hx') rfl
  rw [strand_append, Option.or_none, Option.or_none]
  constructor
  · refine hleft.relink hnodup₁ hlast ?_ ?_ ?_
    · intro x hx
      have hmem := mem_of_head? hx
      rw [hprev x (mem_append_left _ hmem) fun hsame => hapart x hmem (mem_of_head? hsame),
        hleft.prev_head hx]
    · exact fun x hx => hnext x (mem_append_left _ hx)
    · intro x hx _
      exact hprev x (mem_append_left _ hx) fun hsame => hapart x hx (mem_of_head? hsame)
  · refine hright.relink (nodup_cons.1 hnodup₂).2 ?_ hfirst ?_ ?_
    · intro x hx
      have hmem := mem_of_getLast? hx
      rw [hnext x (mem_append_right _ hmem) fun hsame => hapart x (mem_of_getLast? hsame) hmem]
      obtain ⟨rest, rfl⟩ := getLast?_eq_some_iff.1 hx
      obtain ⟨-, -, hend, -⟩ := strand_append.1 hright
      exact hend
    · intro x hx _
      exact hnext x (mem_append_right _ hx) fun hsame => hapart x (mem_of_getLast? hsame) hx
    · exact fun x hx => hprev x (mem_append_right _ hx)

/-- Following the links gives the list. -/
theorem walk_eq (h : Strand next prev before l none) : walk next l.length l.head? = l := by
  induction l generalizing before with
  | nil => rfl
  | cons a l ih =>
    obtain ⟨-, hlink, hrest⟩ := h
    rw [length_cons, head?_cons, walk, hlink, Option.or_none, ih hrest]

end Strand

end WazAISentinel.Foundations
