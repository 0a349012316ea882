import Mathlib.Data.List.Basic

/-!
# Grammars with ordered choice

Grammars over leaves, which take a beginning of their input and give tokens or fail. The second
alternative of a choice is for inputs on which the first fails, and an optional part is absent only
where it fails. `Takes` and `Fails` say this as rules, and `outcome` decides them.
-/

namespace WazAISentinel.Foundations

open Option

variable {L σ τ : Type}

/-- Grammars over leaves. -/
inductive OrderedGrammar (L : Type) where
  | leaf (l : L)
  | choice (first second : OrderedGrammar L)
  | opt (g : OrderedGrammar L)
  | all (gs : List (OrderedGrammar L))

variable {g : OrderedGrammar L} {s : σ}

namespace OrderedGrammar

mutual

/-- The grammar gives the tokens and leaves the rest. -/
inductive Takes (take : L → σ → Option (List τ × σ)) : OrderedGrammar L → σ → List τ →
    σ → Prop where
  | leaf {l : L} {s r : σ} {ts : List τ} : take l s = some (ts, r) → Takes take (.leaf l) s ts r
  | first {g h : OrderedGrammar L} {s r : σ} {ts : List τ} : Takes take g s ts r → Takes take
      (.choice g h) s ts r
  | second {g h : OrderedGrammar L} {s r : σ} {ts : List τ} :
      Fails take g s → Takes take h s ts r → Takes take (.choice g h) s ts r
  | present {g : OrderedGrammar L} {s r : σ} {ts : List τ} : Takes take g s ts r → Takes take
      (.opt g) s ts r
  | absent {g : OrderedGrammar L} {s : σ} : Fails take g s → Takes take (.opt g) s [] s
  | all {gs : List (OrderedGrammar L)} {s r : σ} {ts : List τ} : TakesAll take gs s ts r →
      Takes take (.all gs) s ts r

/-- The grammars give the tokens one after the other. -/
inductive TakesAll (take : L → σ → Option (List τ × σ)) : List (OrderedGrammar L) → σ → List τ →
    σ → Prop where
  | nil {s : σ} : TakesAll take [] s [] s
  | cons {g : OrderedGrammar L} {gs : List (OrderedGrammar L)} {s m r : σ} {ts us : List τ} :
      Takes take g s ts m → TakesAll take gs m us r → TakesAll take (g :: gs) s (ts ++ us) r

/-- The grammar takes nothing of the input. -/
inductive Fails (take : L → σ → Option (List τ × σ)) : OrderedGrammar L → σ → Prop where
  | leaf {l : L} {s : σ} : take l s = none → Fails take (.leaf l) s
  | choice {g h : OrderedGrammar L} {s : σ} : Fails take g s → Fails take h s → Fails take
      (.choice g h) s
  | all {gs : List (OrderedGrammar L)} {s : σ} : FailsAll take gs s → Fails take (.all gs) s

/-- One of the grammars fails behind those that take something. -/
inductive FailsAll (take : L → σ → Option (List τ × σ)) : List (OrderedGrammar L) → σ → Prop where
  | here {g : OrderedGrammar L} {gs : List (OrderedGrammar L)} {s : σ} : Fails take g s →
      FailsAll take (g :: gs) s
  | there {g : OrderedGrammar L} {gs : List (OrderedGrammar L)} {s m : σ} {ts : List τ} :
      Takes take g s ts m → FailsAll take gs m → FailsAll take (g :: gs) s

end

mutual

/-- What a grammar does with an input. -/
def outcome (take : L → σ → Option (List τ × σ)) : OrderedGrammar L → σ → Option (List τ × σ)
  | .leaf l, s => take l s
  | .choice g h, s => (outcome take g s).or (outcome take h s)
  | .opt g, s => some ((outcome take g s).getD ([], s))
  | .all gs, s => outcomeAll take gs s

/-- What grammars do one after the other. -/
def outcomeAll (take : L → σ → Option (List τ × σ)) : List (OrderedGrammar L) → σ →
    Option (List τ × σ)
  | [], s => some ([], s)
  | g :: gs, s =>
    (outcome take g s).bind fun r => (outcomeAll take gs r.2).map fun q => (r.1 ++ q.1, q.2)

end

/-! ## The outcome decides the rules -/

variable {take : L → σ → Option (List τ × σ)} {r : σ} {ts : List τ}

mutual

/-- What the rules give is the outcome. -/
theorem outcome_of_takes {g : OrderedGrammar L} {s r : σ} {ts : List τ} :
    Takes take g s ts r → outcome take g s = some (ts, r)
  | .leaf h => by rw [outcome, h]
  | .first h => by rw [outcome, outcome_of_takes h, some_or]
  | .second hg hh => by rw [outcome, outcome_of_fails hg, outcome_of_takes hh, none_or]
  | .present h => by rw [outcome, outcome_of_takes h, getD_some]
  | .absent h => by rw [outcome, outcome_of_fails h, getD_none]
  | .all h => by rw [outcome, outcomeAll_of_takesAll h]

/-- The same for grammars one after the other. -/
theorem outcomeAll_of_takesAll {gs : List (OrderedGrammar L)} {s r : σ} {ts : List τ} :
    TakesAll take gs s ts r → outcomeAll take gs s = some (ts, r)
  | .nil => by rw [outcomeAll]
  | .cons h hs => by
    rw [outcomeAll, outcome_of_takes h, bind_some, outcomeAll_of_takesAll hs, map_some]

/-- Where the rules say that a grammar fails there is no outcome. -/
theorem outcome_of_fails {g : OrderedGrammar L} {s : σ} :
    Fails take g s → outcome take g s = none
  | .leaf h => by rw [outcome, h]
  | .choice hg hh => by rw [outcome, outcome_of_fails hg, outcome_of_fails hh, none_or]
  | .all h => by rw [outcome, outcomeAll_of_failsAll h]

/-- The same for grammars one after the other. -/
theorem outcomeAll_of_failsAll {gs : List (OrderedGrammar L)} {s : σ} :
    FailsAll take gs s → outcomeAll take gs s = none
  | .here h => by rw [outcomeAll, outcome_of_fails h, bind_none]
  | .there h hs => by
    rw [outcomeAll, outcome_of_takes h, bind_some, outcomeAll_of_failsAll hs, map_none]

end

mutual

/-- On each input a grammar takes something or fails. -/
theorem takes_or_fails (take : L → σ → Option (List τ × σ)) :
    (g : OrderedGrammar L) → (s : σ) → (∃ ts r, Takes take g s ts r) ∨ Fails take g s
  | .leaf l, s =>
    match h : take l s with
    | none => .inr (.leaf h)
    | some (ts, r) => .inl ⟨ts, r, .leaf h⟩
  | .choice g h, s =>
    match takes_or_fails take g s, takes_or_fails take h s with
    | .inl ⟨ts, r, hg⟩, _ => .inl ⟨ts, r, .first hg⟩
    | .inr hg, .inl ⟨ts, r, hh⟩ => .inl ⟨ts, r, .second hg hh⟩
    | .inr hg, .inr hh => .inr (.choice hg hh)
  | .opt g, s =>
    match takes_or_fails take g s with
    | .inl ⟨ts, r, hg⟩ => .inl ⟨ts, r, .present hg⟩
    | .inr hg => .inl ⟨[], s, .absent hg⟩
  | .all gs, s =>
    match takesAll_or_failsAll take gs s with
    | .inl ⟨ts, r, hgs⟩ => .inl ⟨ts, r, .all hgs⟩
    | .inr hgs => .inr (.all hgs)

/-- So do grammars one after the other. -/
theorem takesAll_or_failsAll (take : L → σ → Option (List τ × σ)) :
    (gs : List (OrderedGrammar L)) → (s : σ) →
      (∃ ts r, TakesAll take gs s ts r) ∨ FailsAll take gs s
  | [], s => .inl ⟨[], s, .nil⟩
  | g :: gs, s =>
    match takes_or_fails take g s with
    | .inr hg => .inr (.here hg)
    | .inl ⟨ts, m, hg⟩ =>
      match takesAll_or_failsAll take gs m with
      | .inl ⟨us, r, hgs⟩ => .inl ⟨ts ++ us, r, .cons hg hgs⟩
      | .inr hgs => .inr (.there hg hgs)

end

/-- A grammar takes what its outcome says, and nothing else. -/
theorem outcome_eq_some_iff : outcome take g s = some (ts, r) ↔ Takes take g s ts r := by
  refine ⟨fun h => ?_, outcome_of_takes⟩
  rcases takes_or_fails take g s with ⟨ts', r', htakes⟩ | hfails
  · rw [outcome_of_takes htakes, some_inj, Prod.mk.injEq] at h
    obtain ⟨rfl, rfl⟩ := h
    exact htakes
  · rw [outcome_of_fails hfails] at h
    cases h

end OrderedGrammar

end WazAISentinel.Foundations
