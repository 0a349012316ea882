import Mathlib.Data.List.Basic
import WazAISentinel.Parsec.Combinators

/-!
# Logpar expressions

The constants of `logpar::syntax` (`logpar/include/logpar/logpar.hpp`), the values that its parser
gives and how these are written (`render`), and the parsers of `logpar/src/logpar.cpp` under their
names. In literals the characters that begin something else are escaped, in arguments those that end
them. A list of `WellFormed` values has no two literals in a row, which would be read as one. `pG`
calls itself on what is left behind `(?`, so it has a fuel here, and `pGroup` gives it as much as
there are characters.
-/

namespace WazAISentinel.Logpar

def exprBegin : Char := '<'

def exprEnd : Char := '>'

def exprOpt : Char := '?'

def exprEscape : Char := '\\'

def exprArgSep : Char := '/'

def exprGroupBegin : Char := '('

def exprGroupEnd : Char := ')'

def exprFieldSep : Char := '.'

def exprFieldExtendedCharsFirst : List Char := ['_', '@', '#', '~']

def exprFieldExtendedChars : List Char := ['_', '@', '#']

/-- The characters that a literal escapes. -/
def reservedLiteralChars : List Char := [exprBegin, exprOpt, exprGroupBegin, exprGroupEnd]

/-- The characters that an argument escapes. -/
def reservedArgChars : List Char := [exprArgSep, exprEnd]

/-- One of the characters of a string. -/
def isOneOf (chars : List Char) (c : Char) : Bool := chars.any fun d => d = c

/-- The test of `pCharAlphaNum`. -/
def isAlphaNum (extended : List Char) (c : Char) : Bool :=
  ('a' ≤ c && c ≤ 'z') || ('A' ≤ c && c ≤ 'Z') || ('0' ≤ c && c ≤ '9') || isOneOf extended c

/-- `FieldName`, `args` and `optional` of a `Field`. -/
structure Field where
  name : List Char
  args : List (List Char)
  optional : Bool
  deriving DecidableEq

/-- `std::variant<Literal, Field, Choice, Group>`. -/
inductive ParserInfo where
  | literal (value : List Char)
  | field (field : Field)
  | choice (left right : Field)
  | group (children : List ParserInfo)

/-! ## Writing -/

/-- A character, behind the escape character if it is reserved. -/
def escapeChar (reserved : List Char) (c : Char) : List Char :=
  if isOneOf (reserved ++ [exprEscape]) c then [exprEscape, c] else [c]

def escape (reserved : List Char) (s : List Char) : List Char := s.flatMap (escapeChar reserved)

def renderArg (arg : List Char) : List Char := exprArgSep :: escape reservedArgChars arg

namespace Field

def render (f : Field) : List Char :=
  exprBegin ::
    ((if f.optional then [exprOpt] else []) ++ (f.name ++ (f.args.flatMap renderArg ++ [exprEnd])))

/-- The name is of allowed characters. -/
def WellFormed (f : Field) : Prop :=
  ∃ c cs, f.name = c :: cs ∧ isAlphaNum exprFieldExtendedCharsFirst c = true ∧
    ∀ d ∈ cs, isAlphaNum (exprFieldExtendedChars ++ [exprFieldSep]) d = true

end Field

namespace ParserInfo

mutual

def render : ParserInfo → List Char
  | .literal value => escape reservedLiteralChars value
  | .field f => f.render
  | .choice left right => left.render ++ exprOpt :: right.render
  | .group children => exprGroupBegin :: exprOpt :: (renderAll children ++ [exprGroupEnd])

def renderAll : List ParserInfo → List Char
  | [] => []
  | i :: is => render i ++ renderAll is

end

def isLiteral : ParserInfo → Bool
  | .literal _ => true
  | .field _ => false
  | .choice _ _ => false
  | .group _ => false

variable (is : List ParserInfo)

/-- No two literals in a row. -/
def Separated : Prop :=
  is.IsChain fun i j => ¬ (i.isLiteral = true ∧ j.isLiteral = true)

mutual

def WellFormed : ParserInfo → Prop
  | .literal value => value ≠ []
  | .field f => f.WellFormed
  | .choice left right =>
    (left.WellFormed ∧ left.optional = false) ∧ right.WellFormed ∧ right.optional = false
  | .group children => children ≠ [] ∧ Separated children ∧ AllWellFormed children

def AllWellFormed : List ParserInfo → Prop
  | [] => True
  | i :: is => WellFormed i ∧ AllWellFormed is

end

theorem renderAll_eq : renderAll is = is.flatMap render := by
  induction is with
  | nil => rfl
  | cons i is ih => rw [renderAll, List.flatMap_cons, ih]

theorem allWellFormed_iff : AllWellFormed is ↔ ∀ i ∈ is, WellFormed i := by
  induction is with
  | nil => simp [AllWellFormed]
  | cons i is ih => rw [AllWellFormed, ih, List.forall_mem_cons]

end ParserInfo

/-! ## The parsers -/

open Parsec Parsec.Parser

/-- A character with a property. -/
def satisfying (test : Char → Bool) : Parser true Char where
  run
    | [] => none
    | c :: rest => if test c then some (c, rest) else none
  takes s a rest h := by
    cases s with
    | nil => cases h
    | cons c s =>
      change (if test c then some (c, s) else none) = _ at h
      split at h
      · obtain ⟨-, rfl⟩ := Prod.mk.inj (Option.some_inj.1 h)
        exact le_rfl
      · cases h

def pChar (chars : List Char) : Parser true Char := satisfying (isOneOf chars)

def pNotChar (chars : List Char) : Parser true Char := satisfying fun c => !isOneOf chars c

def pEscapedChar (chars : List Char) (esc : Char) : Parser true Char :=
  seqRight (pChar [esc]) (pChar (chars ++ [esc]))

variable (reservedChars : List Char)

/-- A character of a raw literal. -/
def pRawChar (esc : Char) : Parser true Char :=
  either (pNotChar (reservedChars ++ [esc])) (pEscapedChar reservedChars esc)

def pRawLiteral (esc : Char) : Parser false (List Char) :=
  many (pRawChar reservedChars esc)

def pRawLiteral1 (esc : Char) : Parser true (List Char) :=
  many1 (pRawChar reservedChars esc)

def pCharAlphaNum (extended : List Char) : Parser true Char := satisfying (isAlphaNum extended)

def pArg : Parser true (List Char) :=
  seqRight (pChar [exprArgSep]) (pRawLiteral reservedArgChars exprEscape)

def pArgs : Parser false (List (List Char)) := many pArg

def pFieldName : Parser true (List Char) :=
  fmap (fun t => t.1 :: t.2)
    (both (pCharAlphaNum exprFieldExtendedCharsFirst)
      (many (pCharAlphaNum (exprFieldExtendedChars ++ [exprFieldSep]))))

/-- A field is optional if there was a character, which is not the default one. -/
def pFieldBody : Parser true Field :=
  fmap (fun t => ⟨t.1.2, t.2, t.1.1 ≠ Char.ofNat 0⟩)
    (both (both (opt (Char.ofNat 0) (pChar [exprOpt])) pFieldName) pArgs)

def pField : Parser true Field :=
  seqLeft (seqRight (pChar [exprBegin]) pFieldBody) (pChar [exprEnd])

def pLiteral : Parser true (List Char) := pRawLiteral1 reservedLiteralChars exprEscape

/-- Two fields, of which none is optional. -/
def pChoice : Parser true (Field × Field) where
  run s := ((both (seqLeft pField (pChar [exprOpt])) pField).run s).filter fun r =>
    !r.1.1.optional && !r.1.2.optional
  takes s a rest h := (both (seqLeft pField (pChar [exprOpt])) pField).takes s a rest
    (Option.filter_eq_some_iff.1 h).1

/-- `pC | pF | pL`. -/
def pItem : Parser true ParserInfo :=
  either (either (fmap (fun c => .choice c.1 c.2) pChoice) (fmap .field pField))
    (fmap .literal pLiteral)

def pExpr : Parser true (List ParserInfo) := many1 pItem

/-- The body of a group, with the parser of the groups in it. -/
def pBody (pGfn : Parser true (List ParserInfo)) : Parser true (List ParserInfo) :=
  fmap List.flatten (many1 (either pExpr (fmap (fun g => [.group g]) pGfn)))

/-- The children of a group. -/
def pG : Nat → Parser true (List ParserInfo)
  | 0 => fail
  | fuel + 1 =>
    seqLeft (seqRight (both (pChar [exprGroupBegin]) (pChar [exprOpt])) (pBody (pG fuel)))
      (pChar [exprGroupEnd])

def pGroup : Parser true (List ParserInfo) where
  run s := (pG s.length).run s
  takes s := (pG s.length).takes s

def pEof : Parser false Unit where
  run s := if s = [] then some ((), s) else none
  takes s a rest h := by
    split at h
    · obtain ⟨-, rfl⟩ := Prod.mk.inj (Option.some_inj.1 h)
      exact le_rfl
    · cases h

def pLogpar : Parser true (List ParserInfo) :=
  seqLeft (fmap List.flatten (many1 (either pExpr (fmap (fun g => [.group g]) pGroup)))) pEof

end WazAISentinel.Logpar
