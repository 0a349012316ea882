import Mathlib.Data.List.Forall2
import WazAISentinel.Foundations.OrderedGrammar

/-!
# Parsers of events

`hlp/include/hlp/parser.hpp` and `abstractParser.hpp`. A primitive parser gives a result with a
token, `all` one with the results of its parts nested. `run` makes three passes: the syntax, the
semantic parsers of all tokens of the tree, and the mappers that these have given.

The tokens of a result tree, from left to right, are those that the grammar takes: an alternative
that was abandoned and an optional part that failed leave none. So a run that succeeds applies the
mappers of these tokens in their order, and one that fails in any pass leaves the event as it was.
-/

namespace WazAISentinel.Hlp

open Foundations

variable {Event : Type}

/-- A change of the event. -/
abbrev Mapper (Event : Type) : Type := Event → Event

/-- A semantic parser gives a mapper, or an error with its message. -/
abbrev SemParser (Event : Type) : Type := List Char → Except String (Mapper Event)

/-- What was parsed, and how to read it. -/
structure SemToken (Event : Type) where
  parsed : List Char
  semParser : SemParser Event

/-- `abs::Result<SemToken>`; `value` is `none` if `m_hasValue` is false. -/
structure Result (Event : Type) where
  value : Option (SemToken Event)
  remaining : List Char
  success : Bool
  trace : String
  nested : List (Result Event)

/-- A parser of the beginning of a text. -/
abbrev Parser (Event : Type) : Type := List Char → Result Event

/-- `makeSuccess`. -/
def makeSuccess (value : Option (SemToken Event)) (remaining : List Char)
    (nested : List (Result Event)) : Result Event :=
  ⟨value, remaining, true, "", nested⟩

/-- `makeFailure`. -/
def makeFailure (remaining : List Char) (trace : String) : Result Event :=
  ⟨none, remaining, false, trace, []⟩

/-! ## Running -/

mutual

/-- The semantic pass; the mappers are appended to those that there are. -/
def semVisitor : Result Event → List (Mapper Event) → Except String (List (Mapper Event))
  | ⟨none, _, _, _, nested⟩, mappers => semVisitorAll nested mappers
  | ⟨some token, _, _, _, nested⟩, mappers =>
    match token.semParser token.parsed with
    | .error error => .error error
    | .ok mapper => semVisitorAll nested (mappers ++ [mapper])

/-- The loop over the nested results. -/
def semVisitorAll : List (Result Event) → List (Mapper Event) → Except String (List (Mapper Event))
  | [], mappers => .ok mappers
  | child :: children, mappers =>
    match semVisitor child mappers with
    | .error error => .error error
    | .ok mappers => semVisitorAll children mappers

end

/-- The error, if any, and the event behind the call. -/
def run (parser : Parser Event) (text : List Char) (event : Event) : Option String × Event :=
  let synRes := parser text
  if synRes.success then
    match semVisitor synRes [] with
    | .error error => (some error, event)
    | .ok mappers => (none, mappers.foldl (fun event mapper => mapper event) event)
  else (some ("Parser " ++ synRes.trace ++ " failed at: " ++ String.ofList synRes.remaining), event)

/-! ## Combinators -/

/-- `choice`. -/
def choice (lhs rhs : Parser Event) : Parser Event := fun input =>
  let resultL := lhs input
  if resultL.success then resultL
  else
    let resultR := rhs input
    if resultR.success then resultR else makeFailure input "choice: both failed"

/-- `opt`. -/
def opt (parser : Parser Event) : Parser Event := fun input =>
  let result := parser input
  if result.success then result else makeSuccess none input []

/-- The loop of `all`. -/
def allLoop : List (Parser Event) → List Char → List (Result Event) → Result Event
  | [], remaining, results => makeSuccess none remaining results
  | parser :: parsers, remaining, results =>
    let result := parser remaining
    if result.success then allLoop parsers result.remaining (results ++ [result]) else result

/-- `all`. -/
def all (parsers : List (Parser Event)) : Parser Event := fun input => allLoop parsers input []

/-! ## Compositions -/

/-- A primitive parser fails, with what remains and its name, or gives a token and what remains. -/
abbrev Primitive (Event : Type) : Type :=
  List Char → Except (List Char × String) (Option (SemToken Event) × List Char)

/-- A parser with no parts. -/
def primitive (p : Primitive Event) : Parser Event := fun input =>
  match p input with
  | .error failure => makeFailure failure.1 failure.2
  | .ok parsed => makeSuccess parsed.1 parsed.2 []

mutual

/-- The parser of a grammar. -/
def compose : OrderedGrammar (Primitive Event) → Parser Event
  | .leaf p => primitive p
  | .choice lhs rhs => choice (compose lhs) (compose rhs)
  | .opt g => opt (compose g)
  | .all gs => all (composeAll gs)

/-- The parsers of grammars. -/
def composeAll : List (OrderedGrammar (Primitive Event)) → List (Parser Event)
  | [] => []
  | g :: gs => compose g :: composeAll gs

end

open OrderedGrammar List

/-! ## The tokens of a result -/

mutual

/-- The tokens in a result tree, in the order in which the semantic pass meets them. -/
def tokens : Result Event → List (SemToken Event)
  | ⟨value, _, _, _, nested⟩ => value.toList ++ tokensAll nested

/-- The tokens of nested results. -/
def tokensAll : List (Result Event) → List (SemToken Event)
  | [] => []
  | child :: children => tokens child ++ tokensAll children

end

theorem tokensAll_append (rs : List (Result Event)) (r : Result Event) :
    tokensAll (rs ++ [r]) = tokensAll rs ++ tokens r := by
  induction rs with
  | nil => rw [nil_append, tokensAll, tokensAll, tokensAll, append_nil, nil_append]
  | cons s rs ih => rw [cons_append, tokensAll, tokensAll, ih, append_assoc]

theorem tokens_makeSuccess (value : Option (SemToken Event)) (remaining : List Char)
    (nested : List (Result Event)) :
    tokens (makeSuccess value remaining nested) = value.toList ++ tokensAll nested := by
  rw [makeSuccess, tokens]

/-- The semantic parser of a token gives the mapper. -/
def Means (token : SemToken Event) (mapper : Mapper Event) : Prop :=
  token.semParser token.parsed = .ok mapper

mutual

/-- The semantic pass succeeds if every token of the tree has a mapper, and then appends these. -/
theorem semVisitor_eq_ok : (r : Result Event) → (before mappers : List (Mapper Event)) →
    (semVisitor r before = .ok mappers ↔
      ∃ new, mappers = before ++ new ∧ List.Forall₂ Means (tokens r) new)
  | ⟨none, _, _, _, nested⟩, before, mappers => by
      rw [semVisitor, tokens]
      exact semVisitorAll_eq_ok nested before mappers
  | ⟨some token, _, _, _, nested⟩, before, mappers => by
      rw [semVisitor, tokens]
      cases hmeans : token.semParser token.parsed with
      | error error =>
        constructor
        · intro h
          cases h
        · rintro ⟨new, -, hnew⟩
          obtain ⟨mapper, -, hmapper, -, -⟩ := forall₂_cons_left_iff.1 hnew
          rw [Means, hmeans] at hmapper
          cases hmapper
      | ok mapper =>
        rw [semVisitorAll_eq_ok nested]
        constructor
        · rintro ⟨new, rfl, hnew⟩
          exact ⟨mapper :: new, append_assoc _ _ _, .cons hmeans hnew⟩
        · rintro ⟨new, rfl, hnew⟩
          obtain ⟨first, others, hfirst, hothers, rfl⟩ := forall₂_cons_left_iff.1 hnew
          obtain rfl := Except.ok.inj (hmeans.symm.trans hfirst)
          exact ⟨others, (append_assoc before [mapper] others).symm, hothers⟩

theorem semVisitorAll_eq_ok : (rs : List (Result Event)) → (before mappers : List (Mapper Event)) →
    (semVisitorAll rs before = .ok mappers ↔
      ∃ new, mappers = before ++ new ∧ List.Forall₂ Means (tokensAll rs) new)
  | [], before, mappers => by
      rw [semVisitorAll, tokensAll, Except.ok.injEq, eq_comm]
      simp
  | child :: children, before, mappers => by
      rw [semVisitorAll, tokensAll]
      constructor
      · intro h
        split at h
        · cases h
        · rename_i mid hchild
          obtain ⟨first, rfl, hfirst⟩ := (semVisitor_eq_ok child before mid).1 hchild
          obtain ⟨others, rfl, hothers⟩ := (semVisitorAll_eq_ok children _ mappers).1 h
          exact ⟨first ++ others, append_assoc _ _ _, rel_append hfirst hothers⟩
      · rintro ⟨new, rfl, hnew⟩
        -- the first mappers are those of the child
        have hfirst := forall₂_take (tokens child).length hnew
        have hothers := forall₂_drop (tokens child).length hnew
        rw [take_left] at hfirst
        rw [drop_left] at hothers
        rw [(semVisitor_eq_ok child before _).2 ⟨_, rfl, hfirst⟩]
        refine (semVisitorAll_eq_ok children _ _).2 ⟨_, ?_, hothers⟩
        rw [append_assoc, take_append_drop]

end

/-! ## What the composed parsers give -/

/-- What a primitive parser takes, for the grammar. -/
def take (p : Primitive Event) (s : List Char) : Option (List (SemToken Event) × List Char) :=
  match p s with
  | .error _ => none
  | .ok parsed => some (parsed.1.toList, parsed.2)

/-- A result that tells the outcome: failure, or success with the tokens and what remains. -/
def Refines (r : Result Event) : Option (List (SemToken Event) × List Char) → Prop
  | none => r.success = false
  | some taken => r.success = true ∧ tokens r = taken.1 ∧ r.remaining = taken.2

theorem primitive_refines (p : Primitive Event) (s : List Char) :
    Refines (primitive p s) (take p s) := by
  rw [primitive, take]
  cases p s with
  | error failure => exact rfl
  | ok parsed =>
    refine ⟨rfl, ?_, rfl⟩
    rw [tokens_makeSuccess, tokensAll, append_nil]

variable {s text : List Char} {parser : Parser Event} {event event' : Event}

theorem choice_refines {lhs rhs : Parser Event} {l r : Option (List (SemToken Event) × List Char)}
    (hl : Refines (lhs s) l) (hr : Refines (rhs s) r) : Refines (choice lhs rhs s) (l.or r) := by
  rw [choice]
  cases l with
  | some taken =>
    rw [if_pos hl.1]
    exact hl
  | none =>
    rw [if_neg (Bool.eq_false_iff.1 hl), Option.none_or]
    cases r with
    | some taken =>
      rw [if_pos hr.1]
      exact hr
    | none =>
      rw [if_neg (Bool.eq_false_iff.1 hr)]
      exact rfl

theorem opt_refines {o : Option (List (SemToken Event) × List Char)} (h : Refines (parser s) o) :
    Refines (opt parser s) (some (o.getD ([], s))) := by
  rw [opt]
  cases o with
  | some taken =>
    rw [if_pos h.1]
    exact h
  | none =>
    -- the tokens of the parts before the failure are in the result that is dropped
    rw [if_neg (Bool.eq_false_iff.1 h)]
    refine ⟨rfl, ?_, rfl⟩
    rw [tokens_makeSuccess, tokensAll]
    rfl

mutual

theorem compose_refines : (g : OrderedGrammar (Primitive Event)) → (s : List Char) →
    Refines (compose g s) (g.outcome take s)
  | .leaf p, s => by
      rw [compose, outcome]
      exact primitive_refines p s
  | .choice lhs rhs, s => by
      rw [compose, outcome]
      exact choice_refines (compose_refines lhs s) (compose_refines rhs s)
  | .opt g, s => by
      rw [compose, outcome]
      exact opt_refines (compose_refines g s)
  | .all gs, s => by
      have hloop := allLoop_refines gs s []
      rw [compose, all, outcome]
      cases ho : outcomeAll take gs s with
      | none | some taken =>
        rw [ho] at hloop
        exact hloop

/-- The loop of `all`, behind results whose tokens come first. -/
theorem allLoop_refines : (gs : List (OrderedGrammar (Primitive Event))) → (s : List Char) →
    (results : List (Result Event)) →
    Refines (allLoop (composeAll gs) s results)
      ((outcomeAll take gs s).map fun taken => (tokensAll results ++ taken.1, taken.2))
  | [], s, results => by
      rw [composeAll, allLoop, outcomeAll]
      refine ⟨rfl, ?_, rfl⟩
      rw [tokens_makeSuccess]
      exact (append_nil (tokensAll results)).symm
  | g :: gs, s, results => by
      have hfirst := compose_refines g s
      rw [composeAll, allLoop, outcomeAll]
      cases ho : g.outcome take s with
      | none =>
        rw [ho] at hfirst
        rw [if_neg (Bool.eq_false_iff.1 hfirst)]
        exact hfirst
      | some taken =>
        rw [ho] at hfirst
        obtain ⟨hsuccess, htokens, hremaining⟩ := hfirst
        have hothers := allLoop_refines gs (compose g s).remaining (results ++ [compose g s])
        rw [tokensAll_append, htokens, hremaining] at hothers
        rw [if_pos hsuccess, Option.bind_some, Option.map_map, hremaining]
        cases hos : outcomeAll take gs taken.2 with
        | none =>
          rw [hos] at hothers
          exact hothers
        | some others =>
          rw [hos] at hothers
          obtain ⟨hsuccess, htokens, hremaining⟩ := hothers
          refine ⟨hsuccess, ?_, hremaining⟩
          rw [htokens]
          exact append_assoc _ _ _

end

/-! ## Runs -/

theorem run_error {error : String} (h : run parser text event = (some error, event')) :
    event' = event := by
  rw [run] at h
  split at h
  · split at h
    · exact (Prod.mk.inj h).2.symm
    · cases (Prod.mk.inj h).1
  · exact (Prod.mk.inj h).2.symm

theorem run_ok :
    run parser text event = (none, event') ↔
      (parser text).success = true ∧ ∃ mappers : List (Mapper Event),
      List.Forall₂ Means (tokens (parser text)) mappers ∧
        event' = mappers.foldl (fun event mapper => mapper event) event := by
  have hvisit := semVisitor_eq_ok (parser text) []
  rw [run]
  constructor
  · intro h
    split_ifs at h with hsuccess
    · split at h
      · cases (Prod.mk.inj h).1
      · rename_i mappers hmappers
        obtain ⟨new, rfl, hnew⟩ := (hvisit mappers).1 hmappers
        exact ⟨hsuccess, mappers, hnew, (Prod.mk.inj h).2.symm⟩
    · cases (Prod.mk.inj h).1
  · rintro ⟨hsuccess, mappers, hmappers, rfl⟩
    rw [if_pos hsuccess, (hvisit mappers).2 ⟨mappers, rfl, hmappers⟩]

/-- A run with an error leaves the event as it was. There is none exactly if the grammar takes a
beginning of the text and the semantic parsers of all its tokens succeed; then the mappers of these
tokens are applied in their order, and no others. -/
theorem run_all_or_nothing (g : OrderedGrammar (Primitive Event)) (text : List Char)
    (event event' : Event) :
    (∀ error, run (compose g) text event = (some error, event') → event' = event) ∧
      (run (compose g) text event = (none, event') ↔
        ∃ (taken : List (SemToken Event)) (rest : List Char) (mappers : List (Mapper Event)),
          g.Takes take text taken rest ∧ List.Forall₂ Means taken mappers ∧
            event' = mappers.foldl (fun event mapper => mapper event) event) := by
  refine ⟨fun error => run_error, ?_⟩
  have hrefines := compose_refines g text
  rw [run_ok]
  constructor
  · rintro ⟨hsuccess, mappers, hmappers, rfl⟩
    cases ho : g.outcome take text with
    | none =>
      rw [ho] at hrefines
      exact absurd hsuccess (Bool.eq_false_iff.1 hrefines)
    | some taken =>
      rw [ho] at hrefines
      rw [hrefines.2.1] at hmappers
      exact ⟨taken.1, taken.2, mappers, OrderedGrammar.outcome_eq_some_iff.1 ho, hmappers, rfl⟩
  · rintro ⟨taken, rest, mappers, htakes, hmappers, rfl⟩
    rw [OrderedGrammar.outcome_eq_some_iff.2 htakes] at hrefines
    obtain ⟨hsuccess, htokens, -⟩ := hrefines
    rw [show taken = tokens (compose g text) from htokens.symm] at hmappers
    exact ⟨hsuccess, mappers, hmappers, rfl⟩

/-- A character that is written into the event. -/
def writes (c : Char) : Primitive (List Char)
  | [] => .error ([], "writes")
  | d :: rest =>
    if d = c then .ok (some ⟨[d], fun parsed => .ok fun event => event ++ parsed⟩, rest)
      else .error (d :: rest, "writes")

-- the optional group takes its first part and fails at the second
example :
    run (compose (.all [.opt (.all [.leaf (writes 'a'), .leaf (writes 'b')]), .leaf (writes 'a')]))
      ['a', 'c'] [] = (none, ['a']) := rfl

end WazAISentinel.Hlp
