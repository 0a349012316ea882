import Mathlib.Data.List.Infix

/-!
# Searching for a sequence of items

A sequence of items, each a single character of a set, one or more of them, or any number of them,
is compared with a text from left to right, without going back inside an attempt: an item that
repeats takes every character it can (`move`). If no item that may be left takes a character with
which what comes after it can begin (`clear`), an attempt finds a match iff there is one at its
place.

An attempt that comes to the end of the text without a match was ahead of every later one, so that
there is none after it. One that gets stuck is followed by one behind the first character that was
taken by an item that does not repeat.
-/

namespace WazAISentinel.Foundations

open List

universe u

variable {α : Type u}

/-- How many characters an item takes: one, at least one, or any number. -/
inductive Quantifier where
  | once
  | plus
  | star
  deriving DecidableEq

/-- Characters of a set, as many as the quantifier says. -/
structure SeqItem (α : Type u) where
  takes : α → Bool
  quantifier : Quantifier

/-- The quantifier allows this number of characters. -/
def Quantifier.Allows : Quantifier → Nat → Prop
  | once, n => n = 1
  | plus, n => n ≠ 0
  | star, _ => True

namespace SeqItem

/-- The texts an item stands for. -/
def Matches (x : SeqItem α) (t : List α) : Prop :=
  x.quantifier.Allows t.length ∧ ∀ a ∈ t, x.takes a = true

/-- The texts a sequence stands for. -/
def SeqMatches : List (SeqItem α) → List α → Prop
  | [], t => t = []
  | x :: r, t => ∃ u v, t = u ++ v ∧ x.Matches u ∧ SeqMatches r v

/-- The item may take more than one character. -/
def repeats (x : SeqItem α) : Bool :=
  match x.quantifier with
  | .once => false
  | _ => true

/-- The item needs nothing more, where `started` says that it has taken a character. -/
def skips (x : SeqItem α) (started : Bool) : Bool :=
  match x.quantifier with
  | .once => false
  | .plus => started
  | .star => true

/-- The sequence stands for a text that begins with the character. -/
def starts : List (SeqItem α) → α → Bool
  | [], _ => false
  | x :: r, a => x.takes a || x.skips false && starts r a

/-- Nothing more is needed. -/
def nullable : List (SeqItem α) → Bool → Bool
  | [], _ => true
  | x :: r, started => x.skips started && nullable r false

/-- What is left as a sequence: after its first character, one or more are any number. -/
def resume : List (SeqItem α) → Bool → List (SeqItem α)
  | ⟨p, .plus⟩ :: r, true => ⟨p, .star⟩ :: r
  | r, _ => r

section

variable {x : SeqItem α} {r : List (SeqItem α)} {started : Bool} {a : α} {t : List α}

theorem repeats_of_skips (h : x.skips started = true) : x.repeats = true := by
  obtain ⟨p, _ | _ | _⟩ := x
  · cases h
  · rfl
  · rfl

theorem skips_true (h : x.repeats = true) : x.skips true = true := by
  obtain ⟨p, _ | _ | _⟩ := x
  · cases h
  · rfl
  · rfl

theorem resume_false : resume r false = r := by
  obtain _ | ⟨⟨p, _ | _ | _⟩, r⟩ := r <;> rfl

/-! ## Texts of a sequence -/

theorem matches_nil : x.Matches [] ↔ x.skips false = true := by
  obtain ⟨p, _ | _ | _⟩ := x <;> simp [Matches, Quantifier.Allows, skips]

/-- An item takes the first character, or the text begins behind it. -/
theorem seqMatches_cons :
    SeqMatches (x :: r) (a :: t) ↔
      x.takes a = true ∧ SeqMatches (resume (if x.repeats then x :: r else r) x.repeats) t ∨
      x.skips false = true ∧ SeqMatches r (a :: t) := by
  constructor
  · rintro ⟨u, v, huv, hx, hv⟩
    cases u with
    | nil => exact .inr ⟨matches_nil.1 hx, huv ▸ hv⟩
    | cons b u =>
      obtain ⟨rfl, rfl⟩ := cons.inj huv
      obtain ⟨hallows, hu⟩ := hx
      obtain ⟨ha, hu⟩ := forall_mem_cons.1 hu
      refine .inl ⟨ha, ?_⟩
      obtain ⟨p, _ | _ | _⟩ := x
      · obtain rfl : u = [] := length_eq_zero_iff.1 (Nat.succ.inj hallows)
        exact resume_false.symm ▸ hv
      · exact ⟨u, v, rfl, ⟨trivial, hu⟩, hv⟩
      · exact ⟨u, v, rfl, ⟨trivial, hu⟩, hv⟩
  · rintro (⟨ha, h⟩ | ⟨hskips, h⟩)
    · obtain ⟨p, _ | _ | _⟩ := x
      · exact ⟨[a], t, rfl, ⟨rfl, forall_mem_singleton.2 ha⟩, resume_false (r := r) ▸ h⟩
      · obtain ⟨u, v, rfl, ⟨-, hu⟩, hv⟩ := h
        exact ⟨a :: u, v, rfl, ⟨Nat.succ_ne_zero _, forall_mem_cons.2 ⟨ha, hu⟩⟩, hv⟩
      · obtain ⟨u, v, rfl, ⟨-, hu⟩, hv⟩ := h
        exact ⟨a :: u, v, rfl, ⟨trivial, forall_mem_cons.2 ⟨ha, hu⟩⟩, hv⟩
    · exact ⟨[], a :: t, rfl, matches_nil.2 hskips, h⟩

theorem seqMatches_resume_cons :
    SeqMatches (resume (x :: r) started) (a :: t) ↔
      x.takes a = true ∧ SeqMatches (resume (if x.repeats then x :: r else r) x.repeats) t ∨
        x.skips started = true ∧ SeqMatches r (a :: t) := by
  cases started with
  | false => rw [resume_false, seqMatches_cons]
  | true =>
    obtain ⟨p, _ | _ | _⟩ := x
    · exact seqMatches_cons
    · exact seqMatches_cons (x := ⟨p, .star⟩)
    · exact seqMatches_cons

theorem seqMatches_nil : SeqMatches r [] ↔ nullable r false = true := by
  induction r with
  | nil => exact iff_of_true rfl rfl
  | cons x r ih =>
    rw [nullable, Bool.and_eq_true, ← matches_nil, ← ih]
    constructor
    · rintro ⟨u, v, huv, hu, hv⟩
      obtain ⟨rfl, rfl⟩ := append_eq_nil_iff.1 huv.symm
      exact ⟨hu, hv⟩
    · rintro ⟨hx, hr⟩
      exact ⟨[], [], rfl, hx, hr⟩

theorem seqMatches_resume_nil : SeqMatches (resume r started) [] ↔ nullable r started = true := by
  rw [seqMatches_nil]
  obtain _ | ⟨⟨p, _ | _ | _⟩, r⟩ := r <;> cases started <;> rfl

theorem starts_of_seqMatches (h : SeqMatches r (a :: t)) : starts r a = true := by
  induction r with
  | nil => exact absurd h (cons_ne_nil a t)
  | cons x r ih =>
    rw [starts, Bool.or_eq_true, Bool.and_eq_true]
    exact (seqMatches_cons.1 h).imp And.left fun hskip => ⟨hskip.1, ih hskip.2⟩

end

/-! ## Moves -/

/-- What a character does to an attempt: the sequence was complete before it, nothing takes it, or
an item takes it and `rest` is left, whose first item may have begun to repeat. -/
inductive Move (α : Type u) where
  | done
  | stuck
  | next (rest : List (SeqItem α)) (started : Bool)

/-- One character of an attempt. With `atEnd` a match has to end the text. -/
def move (atEnd : Bool) : List (SeqItem α) → Bool → α → Move α
  | [], _, _ => if atEnd then .stuck else .done
  | x :: r, started, a =>
    if x.takes a then .next (if x.repeats then x :: r else r) x.repeats
    else if x.skips started then move atEnd r false a else .stuck

section Moves

variable {atEnd started started' : Bool} {r r' : List (SeqItem α)} {a : α}

/-- The item that takes the character may be left, and what comes after it can begin with the
character. -/
def ambiguous : List (SeqItem α) → Bool → α → Bool
  | [], _, _ => false
  | x :: r, started, a => x.skips started && if x.takes a then starts r a else ambiguous r false a

/-- What a move tells about the matches that begin with the character, and whether something more is
needed. -/
def Move.Spec (atEnd : Bool) (r : List (SeqItem α)) (started : Bool) (a : α) : Move α → Prop
  | .done => atEnd = false ∧ nullable r started = true
  | .stuck =>
    (atEnd = false → nullable r started = false) ∧ ∀ t, ¬ SeqMatches (resume r started) (a :: t)
  | .next r' started' => r' <:+ r ∧ (nullable r started = true → nullable r' started' = true) ∧
      (ambiguous r started a = false →
        ∀ t, SeqMatches (resume r started) (a :: t) ↔ SeqMatches (resume r' started') t)

/-- An item that needs nothing more and does not take the character is passed over. -/
theorem Move.Spec.cons {x : SeqItem α} {m : Move α} (h : m.Spec atEnd r false a)
    (hskips : x.skips started = true) (ha : ¬ x.takes a = true) :
    m.Spec atEnd (x :: r) started a := by
  have hnull : nullable (x :: r) started = nullable r false := by
    rw [nullable, hskips, Bool.true_and]
  have hmatches (t : List α) : SeqMatches (resume (x :: r) started) (a :: t) ↔
      SeqMatches (resume r false) (a :: t) := by
    rw [seqMatches_resume_cons, resume_false]
    exact (or_iff_right fun htaken => ha htaken.1).trans (and_iff_right hskips)
  cases m with
  | done => exact ⟨h.1, hnull.trans h.2⟩
  | stuck => exact ⟨fun hend => hnull.trans (h.1 hend), fun t ht => h.2 t ((hmatches t).1 ht)⟩
  | next r' started' =>
    obtain ⟨hsuffix, hstays, hiff⟩ := h
    refine ⟨hsuffix.trans (suffix_cons x r), fun h => hstays (hnull.symm.trans h),
      fun hclear t => ?_⟩
    rw [ambiguous, hskips, Bool.true_and, if_neg ha] at hclear
    exact (hmatches t).trans (hiff hclear t)

theorem move_spec (atEnd : Bool) (r : List (SeqItem α)) (started : Bool) (a : α) :
    (move atEnd r started a).Spec atEnd r started a := by
  induction r generalizing started with
  | nil =>
    rw [move]
    split_ifs with hend
    · exact ⟨fun h => absurd (h.symm.trans hend) Bool.false_ne_true, cons_ne_nil a⟩
    · exact ⟨Bool.eq_false_iff.2 hend, rfl⟩
  | cons x r ih =>
    rw [move]
    split
    · rename_i ha
      refine ⟨?_, fun hnull => ?_, fun hclear t => ?_⟩
      · split
        · exact suffix_refl _
        · exact suffix_cons x r
      · rw [nullable, Bool.and_eq_true_iff] at hnull
        rw [repeats_of_skips hnull.1, if_pos rfl, nullable, hnull.2,
          skips_true (repeats_of_skips hnull.1)]
        rfl
      · -- what can come after the item does not begin with the character
        rw [seqMatches_resume_cons]
        refine (or_iff_left fun hskip => ?_).trans (and_iff_right ha)
        rw [ambiguous, hskip.1, Bool.true_and, if_pos ha] at hclear
        exact absurd (starts_of_seqMatches hskip.2) (Bool.eq_false_iff.1 hclear)
    · rename_i ha
      split_ifs with hskips
      · exact (ih false).cons hskips ha
      · refine ⟨fun _ => ?_, fun t ht => ?_⟩
        · rw [nullable, Bool.eq_false_iff.2 hskips, Bool.false_and]
        · exact (seqMatches_resume_cons.1 ht).elim (fun htaken => ha htaken.1) fun hskip =>
            hskips hskip.1

/-- What is left after a move is the end of what was left before. -/
theorem suffix_of_move (h : move atEnd r started a = .next r' started') : r' <:+ r := by
  have hspec := move_spec atEnd r started a
  rw [h] at hspec
  exact hspec.1

end Moves

/-! ## Attempts -/

/-- How an attempt ends. One that gets stuck tells the place behind which to go on. -/
inductive Outcome where
  | accept
  | exhausted
  | failed (place : Nat)

/-- An attempt that has come to the place `i` with the text `t` before it. `first` is the place of
the first character that was taken by an item that does not repeat. -/
def scan (atEnd : Bool) : List (SeqItem α) → Bool → Option Nat → Nat → List α → Outcome
  | r, started, _, _, [] => if nullable r started then .accept else .exhausted
  | r, started, first, i, a :: t =>
    match move atEnd r started a with
    | .done => .accept
    | .stuck => .failed (first.getD i)
    | .next r' true => scan atEnd r' true first (i + 1) t
    | .next r' false => scan atEnd r' false (first.or (some i)) (i + 1) t

/-- No character of an attempt is ambiguous, and the number of items that are left at the end of the
text is one of those allowed. -/
def clear (atEnd : Bool) (allowed : Nat → Bool) : List (SeqItem α) → Bool → List α → Bool
  | r, _, [] => allowed r.length
  | r, started, a :: t =>
    !ambiguous r started a &&
      match move atEnd r started a with
      | .next r' started' => clear atEnd allowed r' started' t
      | _ => true

section Attempts

variable {atEnd started started' : Bool} {allowed : Nat → Bool} {r r' : List (SeqItem α)}
  {first : Option Nat} {i : Nat} {a : α} {t : List α}

theorem scan_done (h : move atEnd r started a = .done) :
    scan atEnd r started first i (a :: t) = .accept := by
  rw [scan, h]

theorem scan_stuck (h : move atEnd r started a = .stuck) :
    scan atEnd r started first i (a :: t) = .failed (first.getD i) := by
  rw [scan, h]

theorem scan_next (h : move atEnd r started a = .next r' started') :
    scan atEnd r started first i (a :: t) =
      scan atEnd r' started' (if started' then first else first.or (some i)) (i + 1) t := by
  rw [scan, h]
  cases started' <;> rfl

/-- An attempt that finds no match gets stuck at the next character or moves on. -/
theorem scan_cons_cases {o : Outcome} (h : scan atEnd r started first i (a :: t) = o)
    (ho : o ≠ .accept) :
    o = .failed (first.getD i) ∨ ∃ r' started', move atEnd r started a = .next r' started' ∧
      scan atEnd r' started' (if started' then first else first.or (some i)) (i + 1) t = o := by
  cases hmove : move atEnd r started a with
  | done => exact absurd (h.symm.trans (scan_done hmove)) ho
  | stuck => exact .inl (h.symm.trans (scan_stuck hmove))
  | next r' started' => exact .inr ⟨r', started', rfl, (scan_next hmove).symm.trans h⟩

/-- Two sequences that move alike are scanned alike. -/
theorem scan_congr (h : move atEnd r started a = move atEnd r' started' a) :
    scan atEnd r started first i (a :: t) = scan atEnd r' started' first i (a :: t) := by
  rw [scan, scan, h]

theorem ambiguous_of_clear (h : clear atEnd allowed r started (a :: t) = true) :
    ambiguous r started a = false := by
  rw [clear, Bool.and_eq_true_iff] at h
  simpa using h.1

theorem clear_next (h : clear atEnd allowed r started (a :: t) = true)
    (hmove : move atEnd r started a = .next r' started') :
    clear atEnd allowed r' started' t = true := by
  rw [clear, Bool.and_eq_true_iff, hmove] at h
  exact h.2

/-- What comes after an item that may be left does not begin with a character the item takes. -/
theorem starts_of_clear {x : SeqItem α} (h : clear atEnd allowed (x :: r) started (a :: t) = true)
    (hskips : x.skips started = true) (ha : x.takes a = true) : starts r a = false := by
  have hunambiguous := ambiguous_of_clear h
  rw [ambiguous, hskips, if_pos ha, Bool.true_and] at hunambiguous
  exact hunambiguous

/-- An item that needs nothing more and does not take the character is passed over. -/
theorem move_of_skips {x : SeqItem α} (hskips : x.skips started = true) (ha : ¬ x.takes a = true) :
    move atEnd (x :: r) started a = move atEnd r false a := by
  rw [move, if_neg ha, if_pos hskips]

/-- An item that is passed over may be left out. -/
theorem clear_of_skips {x : SeqItem α} (h : clear atEnd allowed (x :: r) started (a :: t) = true)
    (hskips : x.skips started = true) (ha : ¬ x.takes a = true) :
    clear atEnd allowed r false (a :: t) = true := by
  rw [clear, ambiguous, move_of_skips hskips ha, hskips, if_neg ha, Bool.true_and] at h
  exact h

/-- An attempt finds a match iff there is one at its place. -/
theorem scan_accept_iff (hclear : clear atEnd allowed r started t = true) :
    scan atEnd r started first i t = .accept ↔
      ∃ u v, t = u ++ v ∧ SeqMatches (resume r started) u ∧ (atEnd = true → v = []) := by
  induction t generalizing r started first i with
  | nil =>
    rw [scan]
    constructor
    · intro h
      split at h
      · rename_i hnull
        exact ⟨[], [], rfl, seqMatches_resume_nil.2 hnull, fun _ => rfl⟩
      · cases h
    · rintro ⟨u, v, huv, hu, -⟩
      rw [(append_eq_nil_iff.1 huv.symm).1] at hu
      rw [if_pos (seqMatches_resume_nil.1 hu)]
  | cons a t ih =>
    have hspec := move_spec atEnd r started a
    cases hmove : move atEnd r started a with
    | done =>
      rw [hmove] at hspec
      obtain ⟨hend, hnull⟩ := hspec
      refine ⟨fun _ => ?_, fun _ => scan_done hmove⟩
      refine ⟨[], a :: t, rfl, seqMatches_resume_nil.2 hnull, fun h => ?_⟩
      exact absurd (hend.symm.trans h) Bool.false_ne_true
    | stuck =>
      rw [hmove] at hspec
      rw [scan_stuck hmove]
      refine ⟨fun h => Outcome.noConfusion h, ?_⟩
      rintro ⟨u, v, huv, hu, hv⟩
      cases u with
      | nil =>
        -- the empty text is a match only if it may end before the end of the text
        cases hend : atEnd with
        | true =>
          rw [hv hend] at huv
          exact absurd huv (cons_ne_nil a t)
        | false =>
          have hnull := seqMatches_resume_nil.1 hu
          exact absurd (hnull.symm.trans (hspec.1 hend)) Bool.noConfusion
      | cons b u =>
        obtain ⟨rfl, -⟩ := cons.inj huv
        exact absurd hu (hspec.2 u)
    | next r' started' =>
      rw [hmove] at hspec
      obtain ⟨-, hstays, hiff⟩ := hspec
      have hunambiguous := ambiguous_of_clear hclear
      rw [scan_next hmove, ih (clear_next hclear hmove)]
      constructor
      · rintro ⟨u, v, rfl, hu, hv⟩
        exact ⟨a :: u, v, rfl, (hiff hunambiguous u).2 hu, hv⟩
      · rintro ⟨u, v, huv, hu, hv⟩
        cases u with
        | nil =>
          have hnull := hstays (seqMatches_resume_nil.1 hu)
          refine ⟨[], t, rfl, seqMatches_resume_nil.2 hnull, fun h => ?_⟩
          rw [hv h] at huv
          exact absurd huv (cons_ne_nil a t)
        | cons b u =>
          obtain ⟨rfl, rfl⟩ := cons.inj huv
          exact ⟨u, v, rfl, (hiff hunambiguous u).1 hu, hv⟩

/-! ## Later attempts -/

/-- An attempt that is not ahead of another one of the same sequence: more is left for it, or the
same. -/
def Behind (r₁ : List (SeqItem α)) (started₁ : Bool) (r₂ : List (SeqItem α)) (started₂ : Bool) :
    Prop :=
  (r₂ <:+ r₁ ∧ r₂ ≠ r₁) ∨ (r₂ = r₁ ∧ (started₁ = true → started₂ = true))

/-- A move after which the attempt is not ahead of another one. -/
def Move.StaysBehind (r₂ : List (SeqItem α)) (started₂ : Bool) : Move α → Prop
  | .done => False
  | .stuck => True
  | .next r₁ started₁ => Behind r₁ started₁ r₂ started₂

theorem behind_of_suffix (h : r' <:+ r) : Behind r false r' started' := by
  by_cases heq : r' = r
  · exact .inr ⟨heq, fun h => absurd h Bool.false_ne_true⟩
  · exact .inl ⟨h, heq⟩

theorem skips_of_started {x : SeqItem α} (hstarted : started = true → started' = true)
    (h : x.skips started = true) : x.skips started' = true := by
  obtain ⟨p, _ | _ | _⟩ := x
  · exact h
  · exact hstarted h
  · rfl

/-- To have begun to repeat only adds moves. -/
theorem move_of_started (hstarted : started = true → started' = true)
    (h : move atEnd r started a ≠ .stuck) : move atEnd r started' a = move atEnd r started a := by
  cases r with
  | nil => rfl
  | cons x r =>
    rw [move] at h ⊢
    rw [move]
    split
    · rfl
    · rename_i ha
      rw [if_neg ha] at h
      split_ifs at h with hskips
      · rw [if_pos hskips, if_pos (skips_of_started hstarted hskips)]
      · exact absurd rfl h

theorem nullable_of_started (hstarted : started = true → started' = true)
    (h : nullable r started = true) : nullable r started' = true := by
  cases r with
  | nil => rfl
  | cons x r =>
    rw [nullable, Bool.and_eq_true_iff] at h ⊢
    exact ⟨skips_of_started hstarted h.1, h.2⟩

/-- Nothing more is needed behind what needs nothing more. -/
theorem nullable_of_suffix (h : r' <:+ r) (hne : r' ≠ r) (hnull : nullable r started = true) :
    nullable r' started' = true := by
  induction r generalizing started with
  | nil => exact absurd (suffix_nil.1 h) hne
  | cons x r ih =>
    have hsuffix : r' <:+ r := (suffix_cons_iff.1 h).resolve_left hne
    rw [nullable, Bool.and_eq_true_iff] at hnull
    by_cases heq : r' = r
    · rw [heq]
      exact nullable_of_started (fun hf => absurd hf Bool.false_ne_true) hnull.2
    · exact ih hsuffix heq hnull.2

section Behind

variable {r₁ r₂ r₂' : List (SeqItem α)} {started₁ started₂ started₂' : Bool}

section

variable (h : Behind r₁ started₁ r₂ started₂)

include h

/-- The one ahead moves: the one behind stays behind, and is not complete before the other one. -/
theorem Behind.of_move (h₂ : move atEnd r₂ started₂ a = .next r₂' started₂') :
    (move atEnd r₁ started₁ a).StaysBehind r₂' started₂' := by
  have hsame : ∀ {started}, (started = true → started₂ = true) →
      (move atEnd r₂ started a).StaysBehind r₂' started₂' := by
    intro started hstarted
    by_cases hstuck : move atEnd r₂ started a = .stuck
    · rw [hstuck]
      trivial
    · rw [← move_of_started hstarted hstuck, h₂]
      exact .inr ⟨rfl, id⟩
  rcases h with ⟨hsuffix, hne⟩ | ⟨heq, hstarted⟩
  · -- down to the place where the other one is
    have hafter := suffix_of_move h₂
    induction r₁ generalizing started₁ with
    | nil => exact absurd (suffix_nil.1 hsuffix) hne
    | cons x r ih =>
      have hrest : r₂ <:+ r := (suffix_cons_iff.1 hsuffix).resolve_left hne
      have htaken : Behind (x :: r) true r₂' started₂' := by
        refine .inl ⟨(hafter.trans hrest).trans (suffix_cons x r), fun heq => ?_⟩
        have hlength := (hafter.trans hrest).length_le
        rw [heq, length_cons] at hlength
        omega
      have hskip : (move atEnd r false a).StaysBehind r₂' started₂' := by
        by_cases heq : r₂ = r
        · exact heq ▸ hsame fun hf => absurd hf Bool.false_ne_true
        · exact ih hrest heq
      rw [move]
      split
      · cases x.repeats with
        | false => exact behind_of_suffix (hafter.trans hrest)
        | true => exact htaken
      · split
        · exact hskip
        · trivial
  · exact heq ▸ hsame hstarted

/-- If the one ahead comes to the end of the text without a match, the one behind has none. -/
theorem Behind.not_accept {first₁ first₂ : Option Nat} {i₁ i₂ : Nat}
    (h₂ : scan atEnd r₂ started₂ first₂ i₂ t = .exhausted) :
    scan atEnd r₁ started₁ first₁ i₁ t ≠ .accept := by
  induction t generalizing r₁ started₁ r₂ started₂ first₁ first₂ i₁ i₂ with
  | nil =>
    rw [scan] at h₂ ⊢
    split at h₂
    · cases h₂
    · rename_i hnull
      rw [if_neg]
      · intro haccept
        cases haccept
      · intro hnull₁
        rcases h with ⟨hsuffix, hne⟩ | ⟨heq, hstarted⟩
        · exact hnull (nullable_of_suffix hsuffix hne hnull₁)
        · exact hnull (nullable_of_started hstarted (heq ▸ hnull₁))
  | cons a t ih =>
    obtain hstuck | ⟨r₂', started₂', hmove₂, hrest⟩ := scan_cons_cases h₂ (by simp)
    · cases hstuck
    · have hbehind := h.of_move hmove₂
      cases hmove₁ : move atEnd r₁ started₁ a with
      | done =>
        rw [hmove₁] at hbehind
        exact hbehind.elim
      | stuck =>
        rw [scan_stuck hmove₁]
        intro haccept
        cases haccept
      | next r₁' started₁' =>
        rw [scan_next hmove₁]
        rw [hmove₁] at hbehind
        exact ih hbehind hrest

end

end Behind

/-- After an attempt that comes to the end of the text there is no match at a later place. -/
theorem not_accept_of_exhausted {items : List (SeqItem α)} (hr : r <:+ items)
    (h : scan atEnd r started first i t = .exhausted) (k : Nat) {first' : Option Nat} {i' : Nat} :
    scan atEnd items false first' i' (t.drop k) ≠ .accept := by
  induction t generalizing r started first i k with
  | nil =>
    rw [drop_nil]
    exact (behind_of_suffix hr).not_accept h
  | cons a t ih =>
    cases k with
    | zero => exact (behind_of_suffix hr).not_accept h
    | succ k =>
      obtain hstuck | ⟨r', started', hmove, hrest⟩ := scan_cons_cases h (by simp)
      · cases hstuck
      · exact ih ((suffix_of_move hmove).trans hr) hrest k

/-- The place behind which to go on does not change once it is known. -/
theorem failed_of_some {q q' : Nat} (h : scan atEnd r started (some q) i t = .failed q') :
    q' = q := by
  induction t generalizing r started i with
  | nil =>
    rw [scan] at h
    split at h <;> cases h
  | cons a t ih =>
    obtain hstuck | ⟨r', started', -, hrest⟩ := scan_cons_cases h (by simp)
    · cases hstuck
      rfl
    · cases started' with
      | false => exact ih hrest
      | true => exact ih hrest

/-- The place behind which to go on is one that the attempt has passed. -/
theorem failed_bounds {q : Nat} (h : scan atEnd r started none i t = .failed q) :
    i ≤ q ∧ q < i + t.length := by
  induction t generalizing r started i with
  | nil =>
    rw [scan] at h
    split at h <;> cases h
  | cons a t ih =>
    rw [length_cons]
    obtain hstuck | ⟨r', started', -, hrest⟩ := scan_cons_cases h (by simp)
    · cases hstuck
      rw [Option.getD_none]
      omega
    · cases started' with
      | false =>
        have hq := failed_of_some hrest
        omega
      | true =>
        have hbounds := ih hrest
        omega

/-- Of the first two items not both repeat. -/
def OneRepeats (r : List (SeqItem α)) : Prop :=
  ∀ x y rest, r = x :: y :: rest → x.repeats = true → y.repeats = false

/-- Then only the first item can take a character and repeat. -/
theorem OneRepeats.eq_of_move (hr : OneRepeats r) (h : move atEnd r started a = .next r' true) :
    r' = r := by
  cases r with
  | nil =>
    rw [move] at h
    split at h <;> cases h
  | cons x rest =>
    rw [move] at h
    split at h
    · rw [Move.next.injEq] at h
      rw [h.2, if_pos rfl] at h
      exact h.1.symm
    · split at h
      · rename_i hskips
        -- the second item does not repeat
        cases rest with
        | nil =>
          rw [move] at h
          split at h <;> cases h
        | cons y rest =>
          have hy := hr x y rest rfl (repeats_of_skips hskips)
          have hneeded : ¬ y.skips false = true := fun hskips =>
            Bool.false_ne_true (hy.symm.trans (repeats_of_skips hskips))
          rw [move, hy, if_neg hneeded] at h
          split at h <;> cases h
      · cases h

/-- After an attempt that gets stuck there is no match up to the place it tells. -/
theorem not_accept_of_failed {q : Nat} (hr : OneRepeats r)
    (h : scan atEnd r started none i t = .failed q) (k : Nat) (hk : i + k ≤ q) :
    scan atEnd r false none (i + k) (t.drop k) ≠ .accept := by
  induction t generalizing started i k with
  | nil =>
    rw [scan] at h
    split at h <;> cases h
  | cons a t ih =>
    cases k with
    | zero =>
      -- to have begun to repeat would only have helped
      rw [drop_zero]
      intro haccept
      have hmove : move atEnd r false a ≠ .stuck := by
        intro hstuck
        rw [scan_stuck hstuck] at haccept
        cases haccept
      have hsame : move atEnd r started a = move atEnd r false a :=
        move_of_started (fun hf => absurd hf Bool.false_ne_true) hmove
      rw [Nat.add_zero, scan_congr hsame.symm, h] at haccept
      cases haccept
    | succ k =>
      obtain hstuck | ⟨r', started', hmove, hrest⟩ := scan_cons_cases h (by simp)
      · rw [Option.getD_none] at hstuck
        cases hstuck
        omega
      · cases started' with
        | false =>
          have hq := failed_of_some hrest
          omega
        | true =>
          rw [hr.eq_of_move hmove] at hrest
          rw [drop_succ_cons, show i + (k + 1) = i + 1 + k by omega]
          exact ih hrest k (by omega)

end Attempts

end SeqItem

end WazAISentinel.Foundations
