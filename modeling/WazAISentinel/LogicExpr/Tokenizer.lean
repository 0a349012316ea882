import WazAISentinel.Foundations.DecimalDigits
import WazAISentinel.Foundations.Loops

/-!
# The tokens of a logic expression

`Tokenizer` (`logicexpr/tokenizer.hpp`) cuts a text into tokens: spaces are skipped, the term parser
is tried first, then the five operator texts in their order. The term parser is a parameter; nothing
makes it advance, so the loop has a fuel.
-/

namespace WazAISentinel.LogicExpr

open List

open Foundations (isSpace iterate Returns returns_of_inl)

/-- A string, by its bytes. -/
abbrev Text := List UInt8

variable {τ : Type}

/-- The classes of `token.hpp`; a term holds the token its evaluation function is built from. -/
inductive TokenKind (τ : Type) where
  | term (buildToken : τ)
  | or
  | and
  | not
  | parenthOpen
  | parenthClose
  deriving DecidableEq

/-- A token with its text and its position in the expression. -/
structure Token (τ : Type) where
  kind : TokenKind τ
  text : Text
  pos : Nat
  deriving DecidableEq

/-- What `parse` throws, before "Expression parsing failed." is put in front of it. -/
inductive ParseError where
  /-- "Empty input" -/
  | emptyInput
  /-- "Empty input or spaces only" -/
  | spacesOnly (pos : Nat)
  /-- "Unkown token found" -/
  | unknownToken (pos : Nat)
  /-- "Unexpected token TERM '…' at position '…'" -/
  | unexpectedTerm (text : Text) (pos : Nat)
  /-- "Unexpected unary operator 'NOT' at position '…'" -/
  | unexpectedUnary (pos : Nat)
  /-- "Unexpected binary operator '…' at position '…'" -/
  | unexpectedBinary (text : Text) (pos : Nat)
  /-- "Unexpected parenthesis '(' at position '…'" -/
  | unexpectedOpen (pos : Nat)
  /-- "Unexpected parenthesis ')' at position '…'" -/
  | unexpectedClose (pos : Nat)
  /-- "Parenthesis are not balanced" -/
  | notBalanced
  /-- "Engine logic expression parser: Got unbalanced expression." -/
  | unbalancedExpression
  /-- "Engine logic expression parser: Got invalid token with "PARENTHESIS_OPEN" or
  "PARENTHESIS_CLOSE"." -/
  | invalidToken
  deriving DecidableEq

/-- A term parser gets the text and a position, and gives a term with the position after it, or
fails. -/
abbrev TermParser (τ : Type) := Text → Nat → Option (τ × Nat)

/-! ## The texts of the operators -/

/-- `opstr::OR`. -/
def opOr : Text := [79, 82]

/-- `opstr::AND`. -/
def opAnd : Text := [65, 78, 68]

/-- `opstr::NOT`. -/
def opNot : Text := [78, 79, 84]

/-- `opstr::P_OPEN`. -/
def opOpen : Text := [40]

/-- `opstr::P_CLOSE`. -/
def opClose : Text := [41]

/-! ## The tokenizer -/

/-- `sv.substr(pos, count)`. -/
def substr (sv : Text) (pos count : Nat) : Text := (sv.drop pos).take count

variable (m_termParser : TermParser τ)

/-- `termParser`: the length of the term's text is a difference of `size_t`. -/
def termParser (sv : Text) (pos : Nat) : Option (Token τ × Nat) :=
  (m_termParser sv pos).map fun res =>
    (⟨.term res.1, substr sv pos ((res.2 + 2 ^ 64 - pos) % 2 ^ 64), pos⟩, res.2)

/-- The parser of operators and parentheses. -/
def operatorParser (sv : Text) (pos : Nat) : Option (Token τ × Nat) :=
  if substr sv pos opOr.length = opOr then some (⟨.or, opOr, pos⟩, pos + opOr.length)
  else if substr sv pos opAnd.length = opAnd then some (⟨.and, opAnd, pos⟩, pos + opAnd.length)
  else if substr sv pos opNot.length = opNot then some (⟨.not, opNot, pos⟩, pos + opNot.length)
  else if substr sv pos opOpen.length = opOpen
    then some (⟨.parenthOpen, opOpen, pos⟩, pos + opOpen.length)
  else if substr sv pos opClose.length = opClose
    then some (⟨.parenthClose, opClose, pos⟩, pos + opClose.length)
  else none

/-- `tokenParser`: the term parser must be tried first. -/
def tokenParser (sv : Text) (pos : Nat) : Option (Token τ × Nat) :=
  match termParser m_termParser sv pos with
  | some res => some res
  | none => operatorParser sv pos

/-- The inner loop of `parser`. -/
def skipSpaces (sv : Text) (pos : Nat) : Nat := pos + ((sv.drop pos).takeWhile isSpace).length

/-- The variables of `tokenizer`. -/
structure TokenizerState (τ : Type) where
  pos : Nat
  /-- The queue, its front first. -/
  tokens : List (Token τ)

/-- What `parser` returns after its loop, unless the last token was not found. -/
def finish (s : TokenizerState τ) : Except ParseError (List (Token τ)) :=
  if s.tokens = [] then .error (.spacesOnly s.pos) else .ok s.tokens

/-- One round of the loop of `parser`. A first token that is not found is reported as an empty
input, since `empty` is still set. -/
def tokenRound (sv : Text) (s : TokenizerState τ) :
    Except ParseError (List (Token τ)) ⊕ TokenizerState τ :=
  let pos := skipSpaces sv s.pos
  if sv.length ≤ pos then .inl (finish ⟨pos, s.tokens⟩)
  else
    match tokenParser m_termParser sv pos with
    | none =>
      if s.tokens = [] then .inl (.error (.spacesOnly pos)) else .inl (.error (.unknownToken pos))
    | some (token, index) =>
      if index < sv.length then .inr ⟨index, s.tokens ++ [token]⟩
        else .inl (finish ⟨index, s.tokens ++ [token]⟩)

/-- `Tokenizer::operator()`. -/
def tokenizer (fuel : Nat) (m_termParser : TermParser τ) (input : Text) :
    Option (Except ParseError (List (Token τ))) :=
  if input = [] then some (.error .emptyInput)
    else iterate (tokenRound m_termParser input) fuel ⟨0, []⟩

/-! ## Texts written word by word -/

/-- The text of an operator or a parenthesis. -/
def opText : TokenKind τ → Option Text
  | .term _ => none
  | .or => some opOr
  | .and => some opAnd
  | .not => some opNot
  | .parenthOpen => some opOpen
  | .parenthClose => some opClose

/-- `rest`, which follows `before` in the text, is written with words of these kinds and spaces
between them where one wants some. The term parser recognises each term up to its end, and no term
where an operator or a parenthesis is written. -/
inductive Writes (m_termParser : TermParser τ) : Text → Text → List (TokenKind τ) → Prop
  | done {before : Text} : Writes m_termParser before [] []
  | space {before rest : Text} {kinds : List (TokenKind τ)} {b : UInt8} (hb : isSpace b = true)
      (h : Writes m_termParser (before ++ [b]) rest kinds) :
        Writes m_termParser before (b :: rest) kinds
  | term {before rest word : Text} {kinds : List (TokenKind τ)} {b : UInt8} {t : τ}
      (hb : isSpace b = false)
      (ht : m_termParser (before ++ (b :: word) ++ rest) before.length =
        some (t, (before ++ (b :: word)).length))
      (h : Writes m_termParser (before ++ (b :: word)) rest kinds) :
      Writes m_termParser before ((b :: word) ++ rest) (.term t :: kinds)
  | operator {before rest word : Text} {kinds : List (TokenKind τ)} {kind : TokenKind τ}
      (hword : opText kind = some word)
      (hnone : m_termParser (before ++ word ++ rest) before.length = none)
      (h : Writes m_termParser (before ++ word) rest kinds) :
      Writes m_termParser before (word ++ rest) (kind :: kinds)

variable {kind : TokenKind τ} {word before rest : Text} {b : UInt8} {token : Token τ}
  {kinds : List (TokenKind τ)}

theorem opText_eq_cons (h : opText kind = some word) :
    ∃ b tail, word = b :: tail ∧ isSpace b = false := by
  cases kind with
  | term t => cases h
  | or => cases h; exact ⟨79, [82], rfl, rfl⟩
  | and => cases h; exact ⟨65, [78, 68], rfl, rfl⟩
  | not => cases h; exact ⟨78, [79, 84], rfl, rfl⟩
  | parenthOpen => cases h; exact ⟨40, [], rfl, rfl⟩
  | parenthClose => cases h; exact ⟨41, [], rfl, rfl⟩

theorem operatorParser_opText (h : opText kind = some word) :
    operatorParser (before ++ word ++ rest) before.length =
      some (⟨kind, word, before.length⟩, before.length + word.length) := by
  have hdrop (n : Nat) :
      substr (before ++ word ++ rest) before.length n = (word ++ rest).take n := by
    rw [substr, append_assoc, drop_left]
  cases kind with
  | term t => cases h
  | or => cases h; simp only [operatorParser, hdrop]; simp [opOr]
  | and => cases h; simp only [operatorParser, hdrop]; simp [opOr, opAnd]
  | not => cases h; simp only [operatorParser, hdrop]; simp [opOr, opAnd, opNot]
  | parenthOpen => cases h; simp only [operatorParser, hdrop]; simp [opOr, opAnd, opNot, opOpen]
  | parenthClose =>
    cases h; simp only [operatorParser, hdrop]; simp [opOr, opAnd, opNot, opOpen, opClose]

theorem skipSpaces_append (before rest : Text) :
    skipSpaces (before ++ rest) before.length = before.length +
      (rest.takeWhile isSpace).length := by
  rw [skipSpaces, drop_left]

section Tokenizer

variable {m_termParser : TermParser τ}

/-- A round that begins at a space goes on as one that begins after it. -/
theorem tokenRound_space (hb : isSpace b = true) (tokens : List (Token τ)) :
    tokenRound m_termParser (before ++ b :: rest) ⟨before.length, tokens⟩ =
      tokenRound m_termParser (before ++ b :: rest) ⟨(before ++ [b]).length, tokens⟩ := by
  have hskip : skipSpaces (before ++ b :: rest) before.length =
      skipSpaces (before ++ b :: rest) (before ++ [b]).length := by
    have hafter := skipSpaces_append (before ++ [b]) rest
    rw [append_assoc, singleton_append] at hafter
    rw [hafter, skipSpaces_append, takeWhile_cons_of_pos hb, length_cons,
      length_append, length_singleton]
    omega
  simp only [tokenRound, hskip]

/-- A round that begins at a word pushes its token. -/
theorem tokenRound_word (hb : isSpace b = false)
    (htoken : tokenParser m_termParser (before ++ (b :: word) ++ rest) before.length =
    some (token, (before ++ (b :: word)).length)) (tokens : List (Token τ)) :
    tokenRound m_termParser (before ++ (b :: word) ++ rest) ⟨before.length, tokens⟩ =
      if rest = [] then .inl (.ok (tokens ++ [token]))
        else .inr ⟨(before ++ (b :: word)).length, tokens ++ [token]⟩ := by
  have hskip : skipSpaces (before ++ (b :: word) ++ rest) before.length = before.length := by
    rw [append_assoc, skipSpaces_append, cons_append, takeWhile_cons_of_neg (by simp [hb])]
    rfl
  have hlt : ¬ (before ++ (b :: word) ++ rest).length ≤ before.length := by
    simp only [length_append, length_cons]
    omega
  have hfinish (n : Nat) : finish ⟨n, tokens ++ [token]⟩ = .ok (tokens ++ [token]) := by
    rw [finish, if_neg (by simp)]
  simp only [tokenRound, hskip, if_neg hlt, htoken, hfinish]
  cases rest with
  | nil => rw [if_neg (by simp), if_pos rfl]
  | cons c rest => rw [if_pos (by simp), if_neg (by simp)]

theorem Writes.kinds_eq_nil (h : Writes m_termParser before [] kinds) : kinds = [] := by
  generalize hrest : ([] : Text) = rest at h
  cases h with
  | done => rfl
  | space hb h => cases hrest
  | term hb ht h => cases hrest
  | operator hword hnone h =>
    obtain ⟨b, tail, rfl, -⟩ := opText_eq_cons hword
    cases hrest

/-- What the loop of `parser` does from the place reached with the rest of the text. -/
def ReturnsKinds (m_termParser : TermParser τ) (before rest : Text) (tokens : List (Token τ))
    (kinds : List (TokenKind τ)) : Prop :=
  ∃ more : List (Token τ), more.map Token.kind = kinds ∧
    Returns (tokenRound m_termParser (before ++ rest)) ⟨before.length, tokens⟩
      (.ok (tokens ++ more))

theorem returnsKinds_of_word {tokens : List (Token τ)} (hb : isSpace b = false)
    (htoken : tokenParser m_termParser (before ++ (b :: word) ++ rest) before.length =
    some (token, (before ++ (b :: word)).length))
    (h : Writes m_termParser (before ++ (b :: word)) rest kinds)
    (ih : ReturnsKinds m_termParser (before ++ (b :: word)) rest (tokens ++ [token]) kinds) :
    ReturnsKinds m_termParser before ((b :: word) ++ rest) tokens (token.kind :: kinds) := by
  have hround := tokenRound_word hb htoken tokens
  rw [ReturnsKinds, ← append_assoc]
  cases rest with
  | nil =>
    -- the last token ends the loop, without another look for spaces
    rw [h.kinds_eq_nil]
    exact ⟨[token], rfl, returns_of_inl hround⟩
  | cons c rest =>
    obtain ⟨more, hkinds, hreturns⟩ := ih
    rw [append_assoc tokens [token] more] at hreturns
    exact ⟨token :: more, by rw [map_cons, hkinds], hreturns.of_inr hround⟩

theorem returnsKinds_of_writes (h : Writes m_termParser before rest kinds) (tokens : List (Token τ))
    (hne : tokens ≠ [] ∨ kinds ≠ []) : ReturnsKinds m_termParser before rest tokens kinds := by
  induction h generalizing tokens with
  | @done before =>
    have htokens : tokens ≠ [] := hne.resolve_right fun h => h rfl
    refine ⟨[], rfl, returns_of_inl ?_⟩
    have hskip := skipSpaces_append before []
    simp only [tokenRound, hskip]
    rw [if_pos (by simp), finish, if_neg htokens, append_nil]
  | @space before rest kinds b hb h ih =>
    obtain ⟨more, hkinds, hreturns⟩ := ih tokens hne
    rw [append_assoc, singleton_append] at hreturns
    exact ⟨more, hkinds, hreturns.congr (tokenRound_space hb tokens)⟩
  | @term before rest word kinds b t hb ht h ih =>
    have htoken : tokenParser m_termParser (before ++ (b :: word) ++ rest) before.length =
        some (⟨.term t, substr (before ++ (b :: word) ++ rest) before.length
          (((before ++ (b :: word)).length + 2 ^ 64 - before.length) % 2 ^ 64), before.length⟩,
          (before ++ (b :: word)).length) := by
      rw [tokenParser, termParser, ht]
      rfl
    exact returnsKinds_of_word hb htoken h (ih _ (.inl (by simp)))
  | @operator before rest word kinds kind hop hnone h ih =>
    obtain ⟨b, tail, rfl, hb⟩ := opText_eq_cons hop
    have htoken : tokenParser m_termParser (before ++ (b :: tail) ++ rest) before.length =
        some (⟨kind, b :: tail, before.length⟩, (before ++ (b :: tail)).length) := by
      rw [tokenParser, termParser, hnone, Option.map_none, length_append]
      exact operatorParser_opText hop
    exact returnsKinds_of_word hb htoken h (ih _ (.inl (by simp)))

end Tokenizer

/-- The tokens of a text are those of its words. -/
theorem tokenizer_writes {m_termParser : TermParser τ} {text : Text}
    (h : Writes m_termParser [] text kinds) (hkinds : kinds ≠ []) :
    ∃ tokens : List (Token τ), tokens.map Token.kind = kinds ∧
      ∃ n, ∀ fuel, n ≤ fuel → tokenizer fuel m_termParser text = some (.ok tokens) := by
  obtain ⟨tokens, htokens, n, hn⟩ := returnsKinds_of_writes h [] (.inr hkinds)
  refine ⟨tokens, htokens, n, fun fuel hfuel => ?_⟩
  have htext : text ≠ [] := by
    rintro rfl
    exact hkinds h.kinds_eq_nil
  rw [tokenizer, if_neg htext]
  exact hn fuel hfuel

end WazAISentinel.LogicExpr
