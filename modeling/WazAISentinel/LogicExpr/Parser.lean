import WazAISentinel.LogicExpr.Tokenizer

/-!
# From tokens to an evaluation function

`infixToPostfix` and `Expression::create` (`logicexpr/parser.hpp`). The first is the shunting-yard
algorithm with a check of what may follow what; every operator pops the operators on the stack that
do not bind weaker, `NOT` too. The second reads the stack of tokens from its top and leaves what it
does not need. Stacks are lists with the top first.

`buildDijstraEvaluator` (`logicexpr/logicexpr.hpp`) turns the tree of tokens into a tree of
functions, and `getDijstraEvaluator` (`logicexpr/evaluator.hpp`) lists its nodes in pre-order and
evaluates the list from its end on a stack of operands.
-/

namespace WazAISentinel.LogicExpr

variable {τ : Type}

/-- `DefaultPrecedencePolicy::precedence`; it is asked for operators only. -/
def TokenKind.precedence : TokenKind τ → Nat
  | .or => 1
  | .and => 2
  | .not => 3
  | _ => 0

/-- An opening parenthesis. -/
def TokenKind.isParenthesisOpen : TokenKind τ → Bool
  | .parenthOpen => true
  | _ => false

/-! ## `infixToPostfix` -/

/-- `syntaxChecker`: the state is `true` where a binary operator is expected. -/
def syntaxChecker (state : Bool) (token : Token τ) : Except ParseError Bool :=
  match token.kind with
  | .term _ => if state then .error (.unexpectedTerm token.text token.pos) else .ok true
  | .not => if state then .error (.unexpectedUnary token.pos) else .ok state
  | .or | .and => if state then .ok false else .error (.unexpectedBinary token.text token.pos)
  | .parenthOpen => if state then .error (.unexpectedOpen token.pos) else .ok state
  | .parenthClose => if state then .ok state else .error (.unexpectedClose token.pos)

/-- The loop for `)`: operators go to the output until a parenthesis or the end of the stack. -/
def popToOpen : List (Token τ) → List (Token τ) → List (Token τ) × List (Token τ)
  | output, [] => (output, [])
  | output, top :: rest =>
    if top.kind.isParenthesisOpen then (output, top :: rest) else popToOpen (top :: output) rest

/-- The loop for an operator: those on the stack that do not bind weaker go to the output. -/
def popOperators (precedence : Nat) : List (Token τ) → List (Token τ) →
    List (Token τ) × List (Token τ)
  | output, [] => (output, [])
  | output, top :: rest =>
    if top.kind.isParenthesisOpen = false ∧ precedence ≤ top.kind.precedence then
      popOperators precedence (top :: output) rest
    else (output, top :: rest)

/-- The loop at the end. -/
def popAll : List (Token τ) → List (Token τ) → Except ParseError (List (Token τ))
  | output, [] => .ok output
  | output, top :: rest =>
    if top.kind.isParenthesisOpen then .error .notBalanced else popAll (top :: output) rest

/-- The variables of `infixToPostfix`. -/
structure YardState (τ : Type) where
  output : List (Token τ)
  operatorStack : List (Token τ)
  checker : Bool

/-- What is done with a token that may stand where it stands. -/
def yardPush (output operatorStack : List (Token τ)) (checker : Bool) (token : Token τ) :
    Except ParseError (YardState τ) :=
  match token.kind with
  | .term _ => .ok ⟨token :: output, operatorStack, checker⟩
  | .parenthOpen => .ok ⟨output, token :: operatorStack, checker⟩
  | .parenthClose =>
    match popToOpen output operatorStack with
    | (_, []) => .error .notBalanced
    | (output, _ :: rest) => .ok ⟨output, rest, checker⟩
  | kind =>
    let (output, rest) := popOperators kind.precedence output operatorStack
    .ok ⟨output, token :: rest, checker⟩

/-- A round of its loop. -/
def yardStep (s : YardState τ) (token : Token τ) : Except ParseError (YardState τ) :=
  (syntaxChecker s.checker token).bind fun checker =>
    yardPush s.output s.operatorStack checker token

/-- The loop. -/
def yardRun (s : YardState τ) (tokens : List (Token τ)) : Except ParseError (YardState τ) :=
  tokens.foldlM yardStep s

/-- `infixToPostfix`. -/
def infixToPostfix (tokens : List (Token τ)) : Except ParseError (List (Token τ)) :=
  (yardRun ⟨[], [], false⟩ tokens).bind fun s => popAll s.output s.operatorStack

/-! ## `Expression::create` -/

/-- A node with its token and its children. -/
inductive Expression (τ : Type) where
  | leaf (m_token : Token τ)
  | unary (m_token : Token τ) (m_left : Expression τ)
  | binary (m_token : Token τ) (m_left m_right : Expression τ)

/-- The constructor of `Expression`, with the stack it leaves. Each call takes a token, so the size
of the stack is enough. -/
def createFrom : Nat → List (Token τ) → Except ParseError (Expression τ × List (Token τ))
  | 0, _ => .error .unbalancedExpression
  | _ + 1, [] => .error .unbalancedExpression
  | fuel + 1, token :: rest =>
    match token.kind with
    | .parenthOpen | .parenthClose => .error .invalidToken
    | .not => (createFrom fuel rest).map fun left => (.unary token left.1, left.2)
    | .and | .or =>
      (createFrom fuel rest).bind fun left =>
        (createFrom fuel left.2).map fun right => (.binary token left.1 right.1, right.2)
    | .term _ => .ok (.leaf token, rest)

/-- `Expression::create`; what is left in the stack is not looked at. -/
def Expression.create (stack : List (Token τ)) : Except ParseError (Expression τ) :=
  (createFrom stack.length stack).map Prod.fst

/-- `parse`. -/
def parse (fuel : Nat) (rawExpression : Text) (m_termParser : TermParser τ) :
    Option (Except ParseError (Expression τ)) :=
  (tokenizer fuel m_termParser rawExpression).map fun tokens =>
    (tokens.bind infixToPostfix).bind Expression.create

/-! ## The evaluation function -/

open List

variable {ε : Type} (e : Expression ε)

namespace Evaluator

/-- `evaluator::Expression`. -/
inductive Expression (ε : Type) where
  | term (m_function : ε → Bool)
  | or (m_left m_right : Expression ε)
  | and (m_left m_right : Expression ε)
  | not (m_left : Expression ε)

/-- `Operator` of `getDijstraEvaluator`. -/
inductive Operator (ε : Type) where
  | term (m_function : ε → Bool)
  | or
  | and
  | not

/-- `visitPreOrder`. -/
def visitPreOrder : Expression ε → List (Operator ε)
  | .term f => [.term f]
  | .or l r => .or :: (visitPreOrder l ++ visitPreOrder r)
  | .and l r => .and :: (visitPreOrder l ++ visitPreOrder r)
  | .not l => .not :: visitPreOrder l

/-- The variables of the evaluator. -/
structure OperandState where
  operands : List Bool
  result : Bool

/-- One round of the evaluation; `none` where the top of an empty stack is read. A term alone goes
to the result. -/
def evaluateStep (size : Nat) (event : ε) (s : OperandState) : Operator ε → Option OperandState
  | .term f =>
    if size = 1 then some { s with result := f event }
      else some { s with operands := f event :: s.operands }
  | .not =>
    match s.operands with
    | a :: rest => some ⟨(!a) :: rest, !a⟩
    | _ => none
  | .and =>
    match s.operands with
    | a :: b :: rest => some ⟨(a && b) :: rest, a && b⟩
    | _ => none
  | .or =>
    match s.operands with
    | a :: b :: rest => some ⟨(a || b) :: rest, a || b⟩
    | _ => none

/-- The function `getDijstraEvaluator` returns. -/
def evaluate (operators : List (Operator ε)) (event : ε) : Option Bool :=
  (operators.reverse.foldlM (evaluateStep operators.length event) ⟨[], false⟩).map
    OperandState.result

/-- `getDijstraEvaluator`. -/
def getDijstraEvaluator (expression : Expression ε) : ε → Option Bool :=
  evaluate (visitPreOrder expression)

/-! ## Its value -/

/-- The Boolean value of a tree. -/
def Expression.value (event : ε) : Expression ε → Bool
  | .term f => f event
  | .or l r => l.value event || r.value event
  | .and l r => l.value event && r.value event
  | .not l => !l.value event

/-- The tree is a term. -/
def Expression.isTerm : Expression ε → Bool
  | .term _ => true
  | _ => false

/-- The value of a tree is pushed, whatever follows; it is also the result unless the tree is a
term. -/
theorem foldlM_visitPreOrder (event : ε) {size : Nat} (hsize : size ≠ 1) (e : Expression ε)
    (s : OperandState) :
    (visitPreOrder e).reverse.foldlM (evaluateStep size event) s =
      some ⟨e.value event :: s.operands, if e.isTerm then s.result else e.value event⟩ := by
  induction e generalizing s with
  | term f =>
    change evaluateStep size event s (.term f) >>= pure = _
    rw [bind_pure, evaluateStep, if_neg hsize]
    rfl
  | or l r ihl ihr | and l r ihl ihr =>
    rw [visitPreOrder, reverse_cons, reverse_append, foldlM_append,
      foldlM_append, ihr, Option.bind_eq_bind, Option.bind_some, ihl]
    rfl
  | not l ihl =>
    rw [visitPreOrder, reverse_cons, foldlM_append, ihl]
    rfl

theorem length_visitPreOrder_pos : 0 < (visitPreOrder e).length := by
  cases e with
  | term f => exact Nat.one_pos
  | or l r | and l r | not l => exact Nat.succ_pos _

theorem length_visitPreOrder_ne_one {e : Expression ε} (he : e.isTerm = false) :
    (visitPreOrder e).length ≠ 1 := by
  cases e with
  | term f => cases he
  | or l r | and l r =>
    have := length_visitPreOrder_pos l
    simp only [visitPreOrder, length_cons, length_append]
    omega
  | not l =>
    have := length_visitPreOrder_pos l
    simp only [visitPreOrder, length_cons]
    omega

theorem getDijstraEvaluator_eq (event : ε) :
    getDijstraEvaluator e event = some (e.value event) := by
  cases he : e.isTerm with
  | true =>
    cases e with
    | term f => rfl
    | or l r | and l r | not l => cases he
  | false =>
    rw [getDijstraEvaluator, evaluate,
      foldlM_visitPreOrder event (length_visitPreOrder_ne_one he), he]
    rfl

end Evaluator

/-! ## `buildDijstraEvaluator` -/

/-- `visit`; `none` is the token that is neither a term nor an operator with its operands, which
`create` does not build. -/
def visit (termBuilder : τ → ε → Bool) : Expression τ → Option (Evaluator.Expression ε)
  | .leaf token =>
    match token.kind with
    | .term t => some (.term (termBuilder t))
    | _ => none
  | .unary token left =>
    match token.kind with
    | .not => (visit termBuilder left).map .not
    | _ => none
  | .binary token left right =>
    match token.kind with
    | .or => (visit termBuilder left).bind fun l => (visit termBuilder right).map fun r => .or l r
    | .and => (visit termBuilder left).bind fun l => (visit termBuilder right).map fun r => .and l r
    | _ => none

/-- `none` is a tokenizer that has not returned, or a tree that cannot be visited. -/
def buildDijstraEvaluator (fuel : Nat) (expression : Text) (termBuilder : τ → ε → Bool)
    (m_termParser : TermParser τ) : Option (Except ParseError (ε → Option Bool)) :=
  (parse fuel expression m_termParser).bind fun tokenExpression =>
    match tokenExpression with
    | .error e => some (.error e)
    | .ok tokenExpr =>
      (visit termBuilder tokenExpr).map fun built => .ok (Evaluator.getDijstraEvaluator built)

end WazAISentinel.LogicExpr
