import Mathlib.Tactic

/-!
# Backtracking regular expressions with captures

An expression is searched from left to right: the first alternative before the second, an optional
part before its absence, one more repetition before none. `ends` lists the ways it matches the
beginning of a text in that order, each with the text that is left and the captures; the first one
that leaves nothing is the match of the whole text (`fullMatch`).
-/

namespace WazAISentinel.Foundations

open List

universe u

/-- A regular expression with numbered groups. -/
inductive Regex (α : Type u) where
  | empty
  | char (p : α → Bool)
  | seq (r s : Regex α)
  | alt (r s : Regex α)
  | opt (r : Regex α)
  | star (r : Regex α)
  | group (n : Nat) (r : Regex α)

/-- The text of each group that took part in the match. -/
abbrev Captures (α : Type u) := Nat → Option (List α)

namespace Regex

variable {α : Type u}

/-- A group captures a text. -/
def capture (c : Captures α) (n : Nat) (s : List α) : Captures α :=
  fun m => if m = n then some s else c m

/-- The ends of a repetition. A round that consumes nothing ends the search in its direction. -/
def starEnds (step : List α → Captures α → List (List α × Captures α)) :
    Nat → List α → Captures α → List (List α × Captures α)
  | 0, s, c => [(s, c)]
  | fuel + 1, s, c =>
    (step s c).flatMap
      (fun e => if e.1.length < s.length then starEnds step fuel e.1 e.2 else []) ++ [(s, c)]

/-- The ways to match the beginning of a text, in the order of the search: what is left of the text,
and the captures. -/
def ends : Regex α → List α → Captures α → List (List α × Captures α)
  | empty, s, c => [(s, c)]
  | char _, [], _ => []
  | char p, a :: s, c => if p a then [(s, c)] else []
  | seq r r', s, c => (r.ends s c).flatMap fun e => r'.ends e.1 e.2
  | alt r r', s, c => r.ends s c ++ r'.ends s c
  | opt r, s, c => r.ends s c ++ [(s, c)]
  | star r, s, c => starEnds r.ends s.length s c
  | group n r, s, c =>
    (r.ends s c).map fun e => (e.1, capture e.2 n (s.take (s.length - e.1.length)))

/-- The captures of the first match of the whole text. -/
def fullMatch (r : Regex α) (s : List α) : Option (Captures α) :=
  ((r.ends s fun _ => none).find? fun e => e.1.isEmpty).map Prod.snd

/-- The texts an expression stands for. -/
def Accepts : Regex α → List α → Prop
  | empty, t => t = []
  | char p, t => ∃ a, p a = true ∧ t = [a]
  | seq r r', t => ∃ u v, t = u ++ v ∧ r.Accepts u ∧ r'.Accepts v
  | alt r r', t => r.Accepts t ∨ r'.Accepts t
  | opt r, t => t = [] ∨ r.Accepts t
  | star r, t => ∃ ts : List (List α), t = ts.flatten ∧ ∀ u ∈ ts, r.Accepts u
  | group _ r, t => r.Accepts t

/-- The texts of the groups: one with the number `n` accepts `t`. -/
def HasGroup (n : Nat) (t : List α) : Regex α → Prop
  | empty => False
  | char _ => False
  | seq r r' => r.HasGroup n t ∨ r'.HasGroup n t
  | alt r r' => r.HasGroup n t ∨ r'.HasGroup n t
  | opt r => r.HasGroup n t
  | star r => r.HasGroup n t
  | group m r => (m = n ∧ r.Accepts t) ∨ r.HasGroup n t

/-- A way to match the beginning of a text: what is left of it, and the captures before and
after. -/
inductive Takes : Regex α → List α → Captures α → List α → Captures α → Prop
  | empty {s c} : Takes empty s c s c
  | char {p a s c} (ha : p a = true) : Takes (char p) (a :: s) c s c
  | seq {r r' s s₁ s₂ c c₁ c₂} (h : Takes r s c s₁ c₁) (h' : Takes r' s₁ c₁ s₂ c₂) : Takes
      (seq r r') s c s₂ c₂
  | altLeft {r r' s s₁ c c₁} (h : Takes r s c s₁ c₁) : Takes (alt r r') s c s₁ c₁
  | altRight {r r' s s₁ c c₁} (h : Takes r' s c s₁ c₁) : Takes (alt r r') s c s₁ c₁
  | optSome {r s s₁ c c₁} (h : Takes r s c s₁ c₁) : Takes (opt r) s c s₁ c₁
  | optNone {r s c} : Takes (opt r) s c s c
  | starNil {r s c} : Takes (star r) s c s c
  | starCons {r s s₁ s₂ c c₁ c₂} (h : Takes r s c s₁ c₁) (h' : Takes (star r) s₁ c₁ s₂ c₂) : Takes
      (star r) s c s₂ c₂
  | group {n r s s₁ c c₁} (h : Takes r s c s₁ c₁) :
      Takes (group n r) s c s₁ (capture c₁ n (s.take (s.length - s₁.length)))

variable {c c' : Captures α} {e : List α × Captures α} {r : Regex α} {s s' : List α}
  {Q : Captures α → Prop} {n m : Nat}

theorem takes_of_mem_starEnds (hstep : ∀ s c e, e ∈ r.ends s c → Takes r s c e.1 e.2) (fuel : Nat)
    (he : e ∈ starEnds r.ends fuel s c) : Takes (star r) s c e.1 e.2 := by
  induction fuel generalizing s c with
  | zero =>
    rw [mem_singleton.1 he]
    exact .starNil
  | succ fuel ih =>
    rcases mem_append.1 he with he | he
    · obtain ⟨first, hfirst, he⟩ := mem_flatMap.1 he
      split at he
      · exact .starCons (hstep s c first hfirst) (ih he)
      · cases he
    · rw [mem_singleton.1 he]
      exact .starNil

theorem takes_of_mem_ends (he : e ∈ r.ends s c) : Takes r s c e.1 e.2 := by
  induction r generalizing s c e with
  | empty =>
    rw [mem_singleton.1 he]
    exact .empty
  | char p =>
    cases s with
    | nil => cases he
    | cons a s =>
      rw [ends] at he
      split_ifs at he with ha
      · rw [mem_singleton.1 he]
        exact .char ha
      · cases he
  | seq r r' ih ih' =>
    obtain ⟨first, hfirst, he⟩ := mem_flatMap.1 he
    exact .seq (ih hfirst) (ih' he)
  | alt r r' ih ih' =>
    rcases mem_append.1 he with he | he
    · exact .altLeft (ih he)
    · exact .altRight (ih' he)
  | opt r ih =>
    rcases mem_append.1 he with he | he
    · exact .optSome (ih he)
    · rw [mem_singleton.1 he]
      exact .optNone
  | star r ih => exact takes_of_mem_starEnds (fun s c e he => ih he) s.length he
  | group n r ih =>
    obtain ⟨first, hfirst, rfl⟩ := mem_map.1 he
    exact .group (ih hfirst)

/-- What is matched is accepted. -/
theorem Takes.accepts (h : Takes r s c s' c') : ∃ t, s = t ++ s' ∧ r.Accepts t := by
  induction h with
  | empty => exact ⟨[], rfl, rfl⟩
  | @char p a s c ha => exact ⟨[a], rfl, a, ha, rfl⟩
  | seq h h' ih ih' =>
    obtain ⟨t, rfl, ht⟩ := ih
    obtain ⟨t', rfl, ht'⟩ := ih'
    exact ⟨t ++ t', (append_assoc ..).symm, t, t', rfl, ht, ht'⟩
  | altLeft h ih => exact ih.imp fun t ht => ⟨ht.1, .inl ht.2⟩
  | altRight h ih | optSome h ih => exact ih.imp fun t ht => ⟨ht.1, .inr ht.2⟩
  | optNone => exact ⟨[], rfl, .inl rfl⟩
  | starNil => exact ⟨[], rfl, [], rfl, by simp⟩
  | starCons h h' ih ih' =>
    obtain ⟨t, rfl, ht⟩ := ih
    obtain ⟨t', rfl, ts, rfl, hts⟩ := ih'
    exact ⟨t ++ ts.flatten, (append_assoc ..).symm, t :: ts, rfl,
      forall_mem_cons.2 ⟨ht, hts⟩⟩
  | group h ih => exact ih

/-- The captures keep a property that every group with its text preserves. -/
theorem Takes.preserves (h : Takes r s c s' c')
    (hgroup : ∀ n t c, Q c → r.HasGroup n t → Q (capture c n t)) (hc : Q c) : Q c' := by
  induction h with
  | empty | char ha | optNone | starNil => exact hc
  | seq h h' ih ih' =>
    apply ih' (fun n t c hc h => hgroup n t c hc (.inr h))
    exact ih (fun n t c hc h => hgroup n t c hc (.inl h)) hc
  | altLeft h ih => exact ih (fun n t c hc h => hgroup n t c hc (.inl h)) hc
  | altRight h ih => exact ih (fun n t c hc h => hgroup n t c hc (.inr h)) hc
  | optSome h ih => exact ih hgroup hc
  | starCons h h' ih ih' => exact ih' hgroup (ih hgroup hc)
  | group h ih =>
    obtain ⟨u, rfl, hu⟩ := h.accepts
    rw [length_append, Nat.add_sub_cancel, take_left]
    apply hgroup _ u _ _ (.inl ⟨rfl, hu⟩)
    exact ih (fun n t c hc h => hgroup n t c hc (.inr h)) hc

/-- A captured text is one that a group with its number accepts. -/
theorem hasGroup_of_fullMatch (h : r.fullMatch s = some c) {t : List α} (ht : c n = some t) :
    r.HasGroup n t := by
  obtain ⟨e, he, rfl⟩ := Option.map_eq_some_iff.1 h
  refine (takes_of_mem_ends (mem_of_find?_eq_some he)).preserves
    (Q := fun c => ∀ n t, c n = some t → r.HasGroup n t) ?_ ?_ n t ht
  · intro n t c hc hgroup m u hm
    simp only [capture] at hm
    split_ifs at hm with heq
    · rw [heq, ← Option.some.inj hm]
      exact hgroup
    · exact hc m u hm
  · intro n t hnone
    cases hnone

/-! ## Groups that come after others -/

/-- Every match captures the group. -/
def captures (n : Nat) : Regex α → Bool
  | empty => false
  | char _ => false
  | seq r r' => r.captures n || r'.captures n
  | alt r r' => r.captures n && r'.captures n
  | opt _ => false
  | star _ => false
  | group m r => m == n || r.captures n

/-- Group `m` is captured only after group `n` is. -/
def follows (n m : Nat) : Regex α → Bool
  | empty => true
  | char _ => true
  | seq r r' => r.follows n m && (r.captures n || r'.follows n m)
  | alt r r' => r.follows n m && r'.follows n m
  | opt r => r.follows n m
  | star r => r.follows n m
  | group k r => k != m && r.follows n m

theorem isSome_capture (h : (c n).isSome = true) (t : List α) :
    (capture c m t n).isSome = true := by
  rw [capture]
  split
  · rfl
  · exact h

/-- No capture is lost. -/
theorem Takes.isSome (h : Takes r s c s' c') (hc : (c n).isSome = true) : (c' n).isSome = true :=
  h.preserves (Q := fun c => (c n).isSome = true) (fun _ t _ hc _ => isSome_capture hc t) hc

theorem Takes.isSome_of_captures (h : Takes r s c s' c') (hr : r.captures n = true) :
    (c' n).isSome = true := by
  induction h with
  | empty | char ha | optSome h ih | optNone | starNil | starCons h h' ih ih' => cases hr
  | seq h h' ih ih' =>
    rcases Bool.or_eq_true_iff.1 hr with hr | hr
    · exact h'.isSome (ih hr)
    · exact ih' hr
  | altLeft h ih => exact ih (Bool.and_eq_true_iff.1 hr).1
  | altRight h ih => exact ih (Bool.and_eq_true_iff.1 hr).2
  | @group m r s s₁ c c₁ h ih =>
    rcases Bool.or_eq_true_iff.1 hr with hm | hr
    · simp [capture, (beq_iff_eq.1 hm).symm]
    · exact isSome_capture (ih hr) _

theorem Takes.isSome_of_follows (h : Takes r s c s' c') (hr : r.follows n m = true)
    (hc : (c m).isSome = true → (c n).isSome = true) :
    (c' m).isSome = true → (c' n).isSome = true := by
  induction h with
  | empty | char ha | optNone | starNil => exact hc
  | seq h h' ih ih' =>
    obtain ⟨hleft, hright⟩ := Bool.and_eq_true_iff.1 hr
    rcases Bool.or_eq_true_iff.1 hright with hcaptures | hright
    · exact fun _ => h'.isSome (h.isSome_of_captures hcaptures)
    · exact ih' hright (ih hleft hc)
  | altLeft h ih => exact ih (Bool.and_eq_true_iff.1 hr).1 hc
  | altRight h ih => exact ih (Bool.and_eq_true_iff.1 hr).2 hc
  | optSome h ih => exact ih hr hc
  | starCons h h' ih ih' => exact ih' hr (ih hr hc)
  | @group k r s s₁ c c₁ h ih =>
    obtain ⟨hk, hr⟩ := Bool.and_eq_true_iff.1 hr
    have hne : m ≠ k := fun h => absurd hk (by simp [h])
    intro hm
    apply isSome_capture
    apply ih hr hc
    simpa [capture, hne] using hm

/-- In a match of the whole text a group that follows another one is captured only with it. -/
theorem eq_none_of_follows (hr : r.follows n m = true) (h : r.fullMatch s = some c)
    (hn : c n = none) : c m = none := by
  obtain ⟨e, he, rfl⟩ := Option.map_eq_some_iff.1 h
  have hsome := (takes_of_mem_ends (mem_of_find?_eq_some he)).isSome_of_follows hr (by simp)
  cases hm : e.2 m with
  | none => rfl
  | some t => simp [hm, hn] at hsome

end Regex

end WazAISentinel.Foundations
