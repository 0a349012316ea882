import WazAISentinel.Base.Expression

/-!
# Tracers

Both backends (`bk/src/rx/exprBuilder.hpp`, `bk/src/taskf/exprBuilder.hpp`) give each term the
publisher of a tracer when they build it. The publisher is a field of parameters that are passed by
reference: it is set at each expression with a traceable name and never set back, so that a term
publishes to the last traceable name met before it.
-/

namespace WazAISentinel.Bk

open List

open Base (Expression)

variable {π : Type}

/-- Names of assets. -/
abbrev Names := List (List String)

/-- The publisher of the tracer with this name, or `nullptr`. -/
abbrev Publisher := Option (List String)

section Build

variable (traceables : Names) (termName : π → List String)

/-- `params.publisher` after an expression with this name was met. -/
def publisherAt (name : List String) (publisher : Publisher) : Publisher :=
  if name ∈ traceables then some name else publisher

mutual

/-- What `recBuild` does with `params.publisher`. A term keeps the publisher that it finds and
publishes to it for every event. -/
def recTrace : Expression π → Publisher → Expression (π × Publisher) × Publisher
  | .formula p, publisher =>
    let publisher := publisherAt traceables (termName p) publisher
    (.formula (p, publisher), publisher)
  | .implication name left right, publisher =>
    let publisher := publisherAt traceables name publisher
    let (left, publisher) := recTrace left publisher
    let (right, publisher) := recTrace right publisher
    (.implication name left right, publisher)
  | .operation type name operands, publisher =>
    let publisher := publisherAt traceables name publisher
    let (operands, publisher) := traceOperands operands publisher
    (.operation type name operands, publisher)

/-- The loop over the operands. -/
def traceOperands : List (Expression π) → Publisher → List (Expression (π × Publisher)) × Publisher
  | [], publisher => ([], publisher)
  | operand :: operands, publisher =>
    let (operand, publisher) := recTrace operand publisher
    let (operands, publisher) := traceOperands operands publisher
    (operand :: operands, publisher)

end

/-! ## The names around a term and before it -/

/-- A term with the names of the expressions around it, from the outermost on, and all names met
until then. Its own name is the last of both. -/
structure Site (π : Type) where
  term : π
  around : Names
  met : Names

mutual

/-- The names of an expression, as they are met. -/
def names : Expression π → Names
  | .formula p => [termName p]
  | .implication name left right => name :: (names left ++ names right)
  | .operation _ name operands => name :: namesAll operands

/-- The names of operands. -/
def namesAll : List (Expression π) → Names
  | [] => []
  | e :: es => names e ++ namesAll es

end

mutual

/-- The terms of an expression, each with the names around and before it. -/
def sites : Expression π → Names → Names → List (Site π)
  | .formula p, around, met => [⟨p, around ++ [termName p], met ++ [termName p]⟩]
  | .implication name left right, around, met =>
    sites left (around ++ [name]) (met ++ [name]) ++
      sites right (around ++ [name]) (met ++ [name] ++ names termName left)
  | .operation _ name operands, around, met => sitesAll operands (around ++ [name]) (met ++ [name])

/-- Those of operands. -/
def sitesAll : List (Expression π) → Names → Names → List (Site π)
  | [], _, _ => []
  | e :: es, around, met => sites e around met ++ sitesAll es around (met ++ names termName e)

end

/-- The tracer of the last traceable name. -/
def lastTraceable (l : Names) : Publisher := (l.filter (· ∈ traceables)).getLast?

/-- A site with the tracer of the last traceable name that was met. -/
def Site.published (s : Site π) : π × Publisher := (s.term, lastTraceable traceables s.met)

/-- A site with the tracer of the nearest expression around it. -/
def Site.nearest (s : Site π) : π × Publisher := (s.term, lastTraceable traceables s.around)

end Build

variable {traceables : Names} {termName : π → List String}

theorem publisherAt_lastTraceable (name : List String) (met : Names) :
    publisherAt traceables name (lastTraceable traceables met) =
      lastTraceable traceables (met ++ [name]) := by
  rw [publisherAt, lastTraceable, lastTraceable]
  split_ifs with hname
  · simp [hname]
  · simp [hname]

mutual

/-- The publishers of the terms, and what is left in the parameters. -/
theorem recTrace_eq : ∀ (e : Expression π) (around met : Names),
    (recTrace traceables termName e (lastTraceable traceables met)).1.leaves =
        (sites termName e around met).map (Site.published traceables) ∧
      (recTrace traceables termName e (lastTraceable traceables met)).2 =
        lastTraceable traceables (met ++ names termName e)
  | .formula p, around, met => by
      rw [recTrace, publisherAt_lastTraceable, sites, names]
      exact ⟨rfl, rfl⟩
  | .implication name left right, around, met => by
      obtain ⟨hleft, hafter⟩ := recTrace_eq left (around ++ [name]) (met ++ [name])
      obtain ⟨hright, hend⟩ :=
        recTrace_eq right (around ++ [name]) (met ++ [name] ++ names termName left)
      rw [recTrace, publisherAt_lastTraceable, sites, names, map_append, ← hleft]
      dsimp only
      rw [hafter, Expression.leaves, hright, hend]
      refine ⟨rfl, ?_⟩
      rw [append_assoc, append_assoc, singleton_append]
  | .operation _ name operands, around, met => by
      obtain ⟨hoperands, hend⟩ := traceOperands_eq operands (around ++ [name]) (met ++ [name])
      rw [recTrace, publisherAt_lastTraceable, sites, names]
      rw [Expression.leaves, hoperands, hend, append_assoc, singleton_append]
      exact ⟨rfl, rfl⟩

theorem traceOperands_eq : ∀ (es : List (Expression π)) (around met : Names),
    Expression.leavesAll (traceOperands traceables termName es (lastTraceable traceables met)).1 =
        (sitesAll termName es around met).map (Site.published traceables) ∧
      (traceOperands traceables termName es (lastTraceable traceables met)).2 =
        lastTraceable traceables (met ++ namesAll termName es)
  | [], _, met => by
      rw [traceOperands, namesAll, append_nil]
      exact ⟨rfl, rfl⟩
  | e :: es, around, met => by
      obtain ⟨hhead, hafter⟩ := recTrace_eq e around met
      obtain ⟨hrest, hend⟩ := traceOperands_eq es around (met ++ names termName e)
      rw [traceOperands, sitesAll, namesAll, map_append, ← hhead]
      dsimp only
      rw [hafter, Expression.leavesAll, hrest, hend, append_assoc]
      exact ⟨rfl, rfl⟩

end

/-- Every term publishes to the tracer of the nearest expression around it with a traceable name, or
to none, exactly if for every term that name is the last traceable one that was met. -/
theorem trace_attribution_iff (traceables : Names) (termName : π → List String) (e : Expression π) :
    (recTrace traceables termName e none).1.leaves =
      (sites termName e [] []).map (Site.nearest traceables) ↔
      ∀ s ∈ sites termName e [] [],
        lastTraceable traceables s.met = lastTraceable traceables s.around := by
  have hnone : none = lastTraceable traceables [] := rfl
  rw [hnone, (recTrace_eq e [] []).1, map_inj_left]
  refine forall₂_congr fun s _ => ?_
  rw [Site.published, Site.nearest, Prod.mk.injEq, and_iff_right rfl]

/-- A chain of two terms, of which only the first has a traceable name: the second one publishes to
the first one's tracer. -/
theorem trace_of_sibling :
    (recTrace [["a"]] (fun p : String => [p]) (.operation .chain ["c"] [.formula "a", .formula "b"])
      none).1.leaves =
        [("a", some ["a"]), ("b", some ["a"])] ∧
      (sites (fun p : String => [p]) (.operation .chain ["c"] [.formula "a", .formula "b"]) []
        []).map (Site.nearest [["a"]]) =
        [("a", some ["a"]), ("b", none)] :=
  ⟨by decide, by decide⟩

end WazAISentinel.Bk
