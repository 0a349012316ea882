import WazAISentinel.LogicExpr.Formula
import WazAISentinel.LogicExpr.Parser

/-!
# What a logic expression means

`infixToPostfix` on the tokens of a formula gives a stack of tokens with the kinds of `rpn` from its
end, and `Expression::create` on that stack gives the tree of the formula as it is read
(`Formula.reread`), with the `NOT`s that were taken from its beginning left in the stack. So for
every formula in infix form `buildDijstraEvaluator` returns a function whose result is the value of
the formula exactly where the formula as it is parsed has the same value. It has, whenever no even
number of `NOT`s stands directly one after the other.
-/

namespace WazAISentinel.LogicExpr

open Formula List

variable {τ ε : Type}

/-! ## Popping -/

/-- The top of the operator stack binds weaker than an operator of this level. -/
def Low (level : Nat) (operatorStack : List (Token τ)) : Prop :=
  ∀ top ∈ operatorStack.head?, top.kind.isParenthesisOpen = true ∨ top.kind.precedence < level

variable {m n level need : Nat} {top op : Token τ} {pend rest tokens left stack : List (Token τ)}
  {s s' : YardState τ} {φ χ ψ : Formula τ}

theorem Low.mono (h : Low n stack) (hnm : n ≤ m) : Low m stack :=
  fun top htop => (h top htop).imp_right fun hlt => lt_of_lt_of_le hlt hnm

theorem low_nil : Low level ([] : List (Token τ)) := fun _ htop => absurd htop (by simp)

theorem low_cons (h : top.kind.isParenthesisOpen = true ∨ top.kind.precedence < level) :
    Low level (top :: rest) := by
  intro top' htop'
  obtain rfl : top = top' := by simpa using htop'
  exact h

/-- Operators above the ones that bind weaker. -/
def Pending (level : Nat) (pend : List (Token τ)) : Prop :=
  ∀ op ∈ pend, op.kind.isParenthesisOpen = false ∧ level ≤ op.kind.precedence

theorem popOperators_pending (hpend : Pending level pend) (hlow : Low level stack)
    (output : List (Token τ)) :
    popOperators level output (pend ++ stack) = (pend.reverse ++ output, stack) := by
  induction pend generalizing output with
  | nil =>
    cases stack with
    | nil => rfl
    | cons top rest =>
      have hstop : ¬ (top.kind.isParenthesisOpen = false ∧ level ≤ top.kind.precedence) := by
        rintro ⟨hopen, hle⟩
        rcases hlow top rfl with h | h
        · rw [hopen] at h
          exact Bool.false_ne_true h
        · omega
      rw [nil_append, popOperators, if_neg hstop]
      rfl
  | cons op pend ih =>
    obtain ⟨hop, hpend⟩ := forall_mem_cons.1 hpend
    rw [cons_append, popOperators, if_pos hop, ih hpend, reverse_cons, append_assoc,
      singleton_append]

theorem popToOpen_pending (hpend : Pending level pend) (htop : top.kind.isParenthesisOpen = true)
    (output : List (Token τ)) :
    popToOpen output (pend ++ top :: rest) = (pend.reverse ++ output, top :: rest) := by
  induction pend generalizing output with
  | nil =>
    rw [nil_append, popToOpen, if_pos htop]
    rfl
  | cons op pend ih =>
    obtain ⟨hop, hpend⟩ := forall_mem_cons.1 hpend
    rw [cons_append, popToOpen, hop.1, if_neg Bool.false_ne_true, ih hpend, reverse_cons,
      append_assoc, singleton_append]

theorem popAll_pending (hpend : Pending level pend) (output : List (Token τ)) :
    popAll output pend = .ok (pend.reverse ++ output) := by
  induction pend generalizing output with
  | nil => rfl
  | cons op pend ih =>
    obtain ⟨hop, hpend⟩ := forall_mem_cons.1 hpend
    rw [popAll, hop.1, if_neg Bool.false_ne_true, ih hpend, reverse_cons, append_assoc,
      singleton_append]

/-! ## One token -/

section Step

variable {token : Token τ} (output stack : List (Token τ))

theorem yardStep_term {t : τ} (h : token.kind = .term t) :
    yardStep ⟨output, stack, false⟩ token = .ok ⟨token :: output, stack, true⟩ := by
  simp [yardStep, syntaxChecker, yardPush, h, Except.bind]

theorem yardStep_open (h : token.kind = .parenthOpen) :
    yardStep ⟨output, stack, false⟩ token = .ok ⟨output, token :: stack, false⟩ := by
  simp [yardStep, syntaxChecker, yardPush, h, Except.bind]

theorem yardStep_close (h : token.kind = .parenthClose) (hpend : Pending level pend)
    (htop : top.kind = .parenthOpen) :
    yardStep ⟨output, pend ++ top :: rest, true⟩ token =
      .ok ⟨pend.reverse ++ output, rest, true⟩ := by
  have hopen : top.kind.isParenthesisOpen = true := by rw [htop]; rfl
  simp [yardStep, syntaxChecker, yardPush, h, Except.bind, popToOpen_pending hpend hopen]

theorem yardStep_not (h : token.kind = .not) :
    yardStep ⟨output, stack, false⟩ token =
      .ok ⟨(popOperators 3 output stack).1, token :: (popOperators 3 output stack).2, false⟩ := by
  simp [yardStep, syntaxChecker, yardPush, h, Except.bind, TokenKind.precedence]

theorem yardStep_binary (h : token.kind = .and ∨ token.kind = .or)
    (hpend : Pending token.kind.precedence pend) (hlow : Low token.kind.precedence stack) :
    yardStep ⟨output, pend ++ stack, true⟩ token =
      .ok ⟨pend.reverse ++ output, token :: stack, false⟩ := by
  have hpop := popOperators_pending hpend hlow output
  rcases h with h | h
  · rw [h] at hpop
    simp [yardStep, syntaxChecker, yardPush, h, Except.bind, hpop]
  · rw [h] at hpop
    simp [yardStep, syntaxChecker, yardPush, h, Except.bind, hpop]

end Step

theorem yardRun_cons {token : Token τ} (h : yardStep s token = .ok s') (tokens : List (Token τ)) :
    yardRun s (token :: tokens) = yardRun s' tokens := by
  rw [yardRun, foldlM_cons, h]
  rfl

theorem yardRun_append (h : yardRun s tokens = .ok s') (tokens' : List (Token τ)) :
    yardRun s (tokens ++ tokens') = yardRun s' tokens' := by
  rw [yardRun, foldlM_append, ← yardRun, h]
  rfl

/-! ## The tokens of a formula -/

/-- The kinds of the tokens in the order in which they go to the output. -/
def Formula.rpn : Formula τ → List (TokenKind τ)
  | .term t => [.term t]
  | .not φ => if φ.isNot then .not :: φ.rpn else φ.rpn ++ [.not]
  | .and φ ψ => φ.rpn ++ ψ.rpn ++ [.and]
  | .or φ ψ => φ.rpn ++ ψ.rpn ++ [.or]
  | .paren φ => φ.rpn

/-- After the tokens of a formula, its operators on the stack bind at least as tight as the formula,
and put on the output they complete its tokens. -/
def YardReads (φ : Formula τ) (output stack tokens : List (Token τ)) : Prop :=
  ∃ output' pend read : List (Token τ),
    yardRun ⟨output, stack, false⟩ tokens = .ok ⟨output', pend ++ stack, true⟩ ∧
    Pending φ.level pend ∧ pend.reverse ++ output' = read ++ output ∧
      read.map Token.kind = φ.rpn.reverse

/-- A binary operator between two formulas. -/
theorem yardReads_binary {kind : TokenKind τ} (hop : kind = .and ∨ kind = .or)
    (hχ : χ.level = kind.precedence) (hrpn : χ.rpn = φ.rpn ++ ψ.rpn ++ [kind])
    (hφ : kind.precedence ≤ φ.level) (hψ : kind.precedence < ψ.level)
    (htokens : tokens.map Token.kind = φ.kinds ++ kind :: ψ.kinds) (hlow : Low χ.level stack)
    (output : List (Token τ)) (h : ∀ {tokens stack}, tokens.map Token.kind = φ.kinds →
    Low φ.level stack → ∀ output, YardReads φ output stack tokens)
    (h' : ∀ {tokens stack}, tokens.map Token.kind = ψ.kinds → Low ψ.level stack →
    ∀ output, YardReads ψ output stack tokens) : YardReads χ output stack tokens := by
  obtain ⟨tokens1, tokens2, rfl, htokens1, htokens2⟩ := map_eq_append_iff.1 htokens
  obtain ⟨op, tokens3, rfl, rfl, htokens3⟩ := map_eq_cons_iff.1 htokens2
  rw [hχ] at hlow
  obtain ⟨output1, pend1, read1, hrun1, hpend1, hread1, hkinds1⟩ := h htokens1 (hlow.mono hφ) output
  have hstep :=
    yardStep_binary output1 stack hop (fun o ho => ⟨(hpend1 o ho).1, hφ.trans (hpend1 o ho).2⟩) hlow
  obtain ⟨output2, pend2, read2, hrun2, hpend2, hread2, hkinds2⟩ :=
    h' htokens3 (low_cons (.inr hψ)) (pend1.reverse ++ output1)
  refine ⟨output2, pend2 ++ [op], op :: (read2 ++ read1), ?_, ?_, ?_, ?_⟩
  · rw [yardRun_append hrun1, yardRun_cons hstep, hrun2, append_assoc, singleton_append]
  · rw [hχ, Pending, forall_mem_append, forall_mem_singleton]
    refine ⟨fun o ho => ⟨(hpend2 o ho).1, hψ.le.trans (hpend2 o ho).2⟩, ?_⟩
    rcases hop with hop | hop <;> simp [hop, TokenKind.isParenthesisOpen]
  · rw [reverse_append, reverse_singleton, append_assoc, hread2, hread1, singleton_append,
      cons_append, append_assoc]
  · rw [hrpn, map_cons, map_append, hkinds1, hkinds2]
    simp

theorem yardReads_formula (hφ : φ.Strict) (htokens : tokens.map Token.kind = φ.kinds)
    (hlow : Low φ.level stack) (output : List (Token τ)) : YardReads φ output stack tokens := by
  induction φ generalizing tokens stack output with
  | term t =>
    obtain ⟨token, rfl, hkind⟩ := map_eq_singleton_iff.1 htokens
    exact ⟨token :: output, [], [token], yardRun_cons (yardStep_term output stack hkind) [],
      fun op hop => absurd hop not_mem_nil, rfl, by rw [map_singleton, hkind]; rfl⟩
  | not φ ih =>
    obtain ⟨token, rest, rfl, hkind, hrest⟩ := map_eq_cons_iff.1 htokens
    have hnone : Pending 3 ([] : List (Token τ)) := fun op hop => absurd hop not_mem_nil
    have hpop : popOperators 3 output stack = (output, stack) :=
      popOperators_pending hnone hlow output
    have hstep := yardStep_not output stack hkind
    rw [hpop] at hstep
    cases hnot : φ.isNot with
    | true =>
      -- the next `NOT` pops this one, before there is an operand for it
      obtain ⟨ψ, rfl⟩ : ∃ ψ, φ = .not ψ := by
        cases φ with
        | not ψ => exact ⟨ψ, rfl⟩
        | _ => cases hnot
      obtain ⟨output', pend, read, hrun, hpend, hread, hkinds⟩ :=
        ih hφ.2 hrest hlow (token :: output)
      refine ⟨output', pend, read ++ [token], ?_, hpend, ?_, ?_⟩
      · obtain ⟨token', rest', rfl, hkind', hrest'⟩ := map_eq_cons_iff.1 hrest
        have hsame : yardStep ⟨output, token :: stack, false⟩ token' =
            yardStep ⟨token :: output, stack, false⟩ token' := by
          have hpops :
              popOperators 3 output (token :: stack) = popOperators 3 (token :: output) stack := by
            rw [popOperators, hkind, if_pos ⟨rfl, le_refl 3⟩]
          rw [yardStep_not _ _ hkind', yardStep_not _ _ hkind', hpops]
        rw [yardRun_cons hstep, ← hrun, yardRun, yardRun, foldlM_cons, foldlM_cons, hsame]
      · rw [hread, append_assoc, singleton_append]
      · have hrpn : (not (.not ψ)).rpn = .not :: (not ψ).rpn := rfl
        rw [map_append, hkinds, hrpn, reverse_cons, map_singleton, hkind]
    | false =>
      have hlevel : 3 < φ.level := by
        have := hφ.1
        cases φ with
        | not ψ => cases hnot
        | _ => simp [level] at this ⊢
      obtain ⟨output', pend, read, hrun, hpend, hread, hkinds⟩ :=
        ih hφ.2 hrest (low_cons (.inr (by rw [hkind]; exact hlevel))) output
      refine ⟨output', pend ++ [token], token :: read, ?_, ?_, ?_, ?_⟩
      · rw [yardRun_cons hstep, hrun, append_assoc, singleton_append]
      · rw [Pending, forall_mem_append, forall_mem_singleton, hkind]
        exact ⟨fun op hop => ⟨(hpend op hop).1, hφ.1.trans (hpend op hop).2⟩, rfl, le_refl 3⟩
      · rw [reverse_append, reverse_singleton, append_assoc, hread, singleton_append, cons_append]
      · rw [map_cons, hkinds, hkind, rpn, hnot, if_neg Bool.false_ne_true, reverse_append,
          reverse_singleton, singleton_append]
  | and φ ψ ihφ ihψ =>
    obtain ⟨hlφ, hlψ, hsφ, hsψ⟩ := hφ
    exact yardReads_binary (.inl rfl) rfl rfl hlφ hlψ htokens hlow output (ihφ hsφ) (ihψ hsψ)
  | or φ ψ ihφ ihψ =>
    obtain ⟨hlψ, hsφ, hsψ⟩ := hφ
    have hlφ : 1 ≤ φ.level := by cases φ <;> simp [level]
    exact yardReads_binary (.inr rfl) rfl rfl hlφ hlψ htokens hlow output (ihφ hsφ) (ihψ hsψ)
  | paren φ ih =>
    obtain ⟨opening, rest, rfl, hopening, hrest⟩ := map_eq_cons_iff.1 htokens
    obtain ⟨inner, rest', rfl, hinner, hrest'⟩ := map_eq_append_iff.1 hrest
    obtain ⟨closing, rfl, hclosing⟩ := map_eq_singleton_iff.1 hrest'
    obtain ⟨output', pend, read, hrun, hpend, hread, hkinds⟩ :=
      ih hφ hinner (low_cons (.inl (by rw [hopening]; rfl))) output
    refine ⟨read ++ output, [], read, ?_, fun op hop => absurd hop not_mem_nil, rfl, hkinds⟩
    rw [yardRun_cons (yardStep_open output stack hopening), yardRun_append hrun,
      yardRun_cons (yardStep_close output' hclosing hpend hopening), hread]
    rfl

/-- The stack of tokens for a formula. -/
theorem infixToPostfix_formula (hφ : φ.Strict) (htokens : tokens.map Token.kind = φ.kinds) :
    ∃ read, infixToPostfix tokens = .ok read ∧ read.map Token.kind = φ.rpn.reverse := by
  obtain ⟨output', pend, read, hrun, hpend, hread, hkinds⟩ :=
    yardReads_formula hφ htokens low_nil []
  refine ⟨read, ?_, hkinds⟩
  rw [infixToPostfix, hrun, append_nil]
  change popAll output' pend = _
  rw [popAll_pending hpend, hread, append_nil]

/-! ## The tree of the stack -/

/-- The tree of functions of a formula. -/
def Formula.built (termBuilder : τ → ε → Bool) : Formula τ → Evaluator.Expression ε
  | .term t => .term (termBuilder t)
  | .not φ => .not (φ.built termBuilder)
  | .and φ ψ => .and (φ.built termBuilder) (ψ.built termBuilder)
  | .or φ ψ => .or (φ.built termBuilder) (ψ.built termBuilder)
  | .paren φ => φ.built termBuilder

theorem Formula.value_built (termBuilder : τ → ε → Bool) (event : ε) (φ : Formula τ) :
    (φ.built termBuilder).value event = φ.value fun t => termBuilder t event := by
  induction φ with
  | term t => rfl
  | not φ ih => rw [built, Evaluator.Expression.value, ih, value]
  | and φ ψ ihφ ihψ | or φ ψ ihφ ihψ => rw [built, Evaluator.Expression.value, ihφ, ihψ, value]
  | paren φ ih => rw [built, ih, value]

/-- `create` takes from the stack what makes the tree of a formula, and leaves the rest. -/
def Creates (termBuilder : τ → ε → Bool) (need : Nat) (stack left : List (Token τ))
    (φ : Formula τ) : Prop :=
  ∃ tree : Expression τ, (∀ fuel, need ≤ fuel → createFrom fuel stack = .ok (tree, left)) ∧
    visit termBuilder tree = some (φ.built termBuilder)

section Create

variable {termBuilder : τ → ε → Bool}

theorem Creates.mono (h : Creates termBuilder n stack left φ) (hnm : n ≤ m) :
    Creates termBuilder m stack left φ := by
  obtain ⟨tree, hcreate, hvisit⟩ := h
  exact ⟨tree, fun fuel hfuel => hcreate fuel (hnm.trans hfuel), hvisit⟩

theorem Creates.not (h : Creates termBuilder need stack left φ) {token : Token τ}
    (htoken : token.kind = .not) :
    Creates termBuilder (need + 1) (token :: stack) left (.not φ) := by
  obtain ⟨tree, hcreate, hvisit⟩ := h
  refine ⟨.unary token tree, fun fuel hfuel => ?_, ?_⟩
  · obtain ⟨k, rfl⟩ : ∃ k, fuel = k + 1 := ⟨fuel - 1, by omega⟩
    simp only [createFrom, htoken, hcreate k (by omega)]
    rfl
  · simp only [visit, htoken, hvisit]
    rfl

theorem Creates.nots (h : Creates termBuilder need stack left φ)
    (htokens : tokens.map Token.kind = replicate n .not) :
    Creates termBuilder (need + n) (tokens ++ stack) left (.nots n φ) := by
  induction n generalizing tokens with
  | zero =>
    obtain rfl := map_eq_nil_iff.1 htokens
    exact h
  | succ n ih =>
    obtain ⟨token, rest, rfl, htoken, hrest⟩ := map_eq_cons_iff.1 htokens
    exact (ih hrest).not htoken

/-- Both operands of a binary operator, the upper one in the stack first. -/
theorem Creates.binary {middle : List (Token τ)} (h : Creates termBuilder n stack middle φ)
    (h' : Creates termBuilder m middle left ψ)
    (hχ : op.kind = .and ∧ χ = .and φ ψ ∨ op.kind = .or ∧ χ = .or φ ψ) :
    Creates termBuilder (max n m + 1) (op :: stack) left χ := by
  obtain ⟨tree, hcreate, hvisit⟩ := h
  obtain ⟨tree', hcreate', hvisit'⟩ := h'
  refine ⟨.binary op tree tree', fun fuel hfuel => ?_, ?_⟩
  · obtain ⟨k, rfl⟩ : ∃ k, fuel = k + 1 := ⟨fuel - 1, by omega⟩
    have hfirst := hcreate k (by omega)
    have hsecond := hcreate' k (by omega)
    rcases hχ with ⟨hop, -⟩ | ⟨hop, -⟩
    · simp only [createFrom, hop, hfirst, Except.bind, hsecond]
      rfl
    · simp only [createFrom, hop, hfirst, Except.bind, hsecond]
      rfl
  · rcases hχ with ⟨hop, rfl⟩ | ⟨hop, rfl⟩
    · simp only [visit, hop, hvisit, hvisit']
      rfl
    · simp only [visit, hop, hvisit, hvisit']
      rfl

theorem Formula.displaced_lt_length_rpn (φ : Formula τ) : φ.displaced < φ.rpn.length := by
  induction φ with
  | term t => exact Nat.one_pos
  | not φ ih =>
    cases hnot : φ.isNot with
    | true => simp [displaced, rpn, hnot, ih]
    | false =>
      simp only [displaced, rpn, hnot, Bool.false_eq_true, if_false, length_append,
        length_singleton]
      omega
  | and φ ψ ihφ ihψ | or φ ψ ihφ ihψ => simp only [displaced, rpn, length_append]; omega
  | paren φ ih => exact ih

/-- The tokens of a formula from the top of the stack make its tree as it is read, with the
displaced `NOT`s left above the rest of the stack. -/
def ReadBack (termBuilder : τ → ε → Bool) (φ : Formula τ) : Prop :=
  ∀ read : List (Token τ), read.map Token.kind = φ.rpn.reverse → ∀ rest : List (Token τ),
    ∃ left : List (Token τ), left.map Token.kind = List.replicate φ.displaced .not ∧
      Creates termBuilder read.length (read ++ rest) (left ++ rest) φ.reread

/-- The tokens of the right operand stand above those of the left one. -/
theorem readBack_binary {op : TokenKind τ} (hrpn : χ.rpn = φ.rpn ++ ψ.rpn ++ [op])
    (hdisplaced : χ.displaced = φ.displaced) (hχ : op = .and ∧ χ.reread = .and ψ.reread
    (.nots ψ.displaced φ.reread) ∨ op = .or ∧ χ.reread = .or ψ.reread (.nots ψ.displaced φ.reread))
    (hφ : ReadBack termBuilder φ) (hψ : ReadBack termBuilder ψ) : ReadBack termBuilder χ := by
  intro read hread rest
  rw [hrpn, reverse_append, reverse_append, reverse_singleton, singleton_append] at hread
  obtain ⟨token, read', rfl, htoken, hread'⟩ := map_eq_cons_iff.1 hread
  obtain ⟨readψ, readφ, rfl, hkindsψ, hkindsφ⟩ := map_eq_append_iff.1 hread'
  obtain ⟨leftφ, hleftφ, hcreateφ⟩ := hφ readφ hkindsφ rest
  obtain ⟨leftψ, hleftψ, hcreateψ⟩ := hψ readψ hkindsψ (readφ ++ rest)
  rw [← htoken] at hχ
  have hboth := hcreateψ.binary (hcreateφ.nots hleftψ) hχ
  rw [hdisplaced]
  refine ⟨leftφ, hleftφ, ?_⟩
  rw [cons_append, append_assoc]
  refine hboth.mono ?_
  have hlt := ψ.displaced_lt_length_rpn
  have hlen := congrArg length hkindsψ
  rw [length_map, length_reverse] at hlen
  simp only [length_cons, length_append]
  omega

theorem readBack_formula (φ : Formula τ) : ReadBack termBuilder φ := by
  induction φ with
  | term t =>
    intro read hread rest
    obtain ⟨token, rfl, htoken⟩ := map_eq_singleton_iff.1 hread
    refine ⟨[], rfl, .leaf token, fun fuel hfuel => ?_, ?_⟩
    · obtain ⟨k, rfl⟩ : ∃ k, fuel = k + 1 := ⟨fuel - 1, by simp at hfuel; omega⟩
      simp only [singleton_append, createFrom, htoken]
      rfl
    · simp only [visit, htoken]
      rfl
  | not φ ih =>
    intro read hread rest
    cases hnot : φ.isNot with
    | true =>
      rw [rpn, if_pos hnot, reverse_cons] at hread
      obtain ⟨read', last, rfl, hread', hlast⟩ := map_eq_append_iff.1 hread
      obtain ⟨token, rfl, htoken⟩ := map_eq_singleton_iff.1 hlast
      obtain ⟨left, hleft, hcreate⟩ := ih read' hread' (token :: rest)
      refine ⟨left ++ [token], ?_, ?_⟩
      · rw [map_append, hleft, displaced, if_pos hnot, replicate_succ', map_singleton, htoken]
      · rw [append_assoc, append_assoc, singleton_append, reread, if_pos hnot]
        exact hcreate.mono (by simp)
    | false =>
      have hneg : ¬ φ.isNot = true := by simp [hnot]
      rw [rpn, if_neg hneg, reverse_append, reverse_singleton, singleton_append] at hread
      obtain ⟨token, read', rfl, htoken, hread'⟩ := map_eq_cons_iff.1 hread
      obtain ⟨left, hleft, hcreate⟩ := ih read' hread' rest
      rw [displaced, if_neg hneg, reread, if_neg hneg]
      exact ⟨left, hleft, hcreate.not htoken⟩
  | and φ ψ ihφ ihψ => exact readBack_binary rfl rfl (.inl ⟨rfl, rfl⟩) ihφ ihψ
  | or φ ψ ihφ ihψ => exact readBack_binary rfl rfl (.inr ⟨rfl, rfl⟩) ihφ ihψ
  | paren φ ih => exact ih

end Create

/-! ## The evaluator -/

/-- The function that is built for the words of a formula evaluates the formula as it is parsed. -/
theorem buildDijstraEvaluator_formula {m_termParser : TermParser τ} (termBuilder : τ → ε → Bool)
    {φ : Formula τ} (hφ : φ.WellWritten) {text : Text}
    (htext : Writes m_termParser [] text φ.kinds) :
    ∃ f : ε → Option Bool,
      (∃ n, ∀ fuel, n ≤ fuel →
        buildDijstraEvaluator fuel text termBuilder m_termParser = some (.ok f)) ∧
        ∀ event, f event = some (φ.asParsed.value fun t => termBuilder t event) := by
  obtain ⟨tokens, htokens, n, htokenizer⟩ := tokenizer_writes htext φ.kinds_ne_nil
  rw [← kinds_leftNested] at htokens
  obtain ⟨read, hyard, hread⟩ := infixToPostfix_formula (strict_leftNested hφ) htokens
  obtain ⟨left, -, tree, hcreate, hvisit⟩ := readBack_formula φ.leftNested read hread []
  have hall := hcreate read.length le_rfl
  rw [List.append_nil] at hall
  refine ⟨Evaluator.getDijstraEvaluator (φ.asParsed.built termBuilder), ⟨n, fun fuel hfuel => ?_⟩,
    fun event => ?_⟩
  · have hparse : parse fuel text m_termParser = some (.ok tree) := by
      rw [parse, htokenizer fuel hfuel]
      change some ((infixToPostfix tokens).bind Expression.create) = _
      rw [hyard]
      change some (Expression.create read) = _
      rw [Expression.create, hall]
      rfl
    rw [buildDijstraEvaluator, hparse]
    change (visit termBuilder tree).map _ = _
    rw [hvisit]
    rfl
  · rw [Evaluator.getDijstraEvaluator_eq, value_built]

theorem dijstra_evaluator_value_iff (m_termParser : TermParser τ) (termBuilder : τ → ε → Bool)
    (φ : Formula τ) (hφ : φ.WellWritten) (text : Text)
    (htext : Writes m_termParser [] text φ.kinds) :
    ∃ f : ε → Option Bool,
      (∃ n, ∀ fuel, n ≤ fuel →
        buildDijstraEvaluator fuel text termBuilder m_termParser = some (.ok f)) ∧
        (∀ event, f event = some (φ.value fun t => termBuilder t event) ↔
          φ.asParsed.value (fun t => termBuilder t event) = φ.value fun t => termBuilder t event) ∧
        (Formula.oddRuns 0 φ.kinds = true →
          ∀ event, f event = some (φ.value fun t => termBuilder t event)) := by
  obtain ⟨f, hbuild, hvalue⟩ := buildDijstraEvaluator_formula termBuilder hφ htext
  refine ⟨f, hbuild, fun event => ?_, fun hodd event => ?_⟩
  · rw [hvalue, Option.some_inj]
  · rw [hvalue, Formula.value_asParsed_of_oddRuns hφ hodd]

/-- A term parser for terms of one small letter. -/
def letterParser : TermParser UInt8 := fun sv pos =>
  match sv.drop pos with
  | [] => none
  | b :: _ => if 97 ≤ b.toNat ∧ b.toNat ≤ 122 then some (b, pos + 1) else none

/-- `a OR NOT (b AND c)`, on every event. -/
theorem dijstra_evaluator_value_iff_mixed :
    Writes letterParser [] [97, 32, 79, 82, 32, 78, 79, 84, 32, 40, 98, 32, 65, 78, 68, 32, 99, 41]
      (Formula.or (.term 97) (.not (.paren (.and (.term 98) (.term 99))))).kinds ∧
    ∃ f : (UInt8 → Bool) → Option Bool,
      (∃ n, ∀ fuel, n ≤ fuel → buildDijstraEvaluator fuel
        [97, 32, 79, 82, 32, 78, 79, 84, 32, 40, 98, 32, 65, 78, 68, 32, 99, 41]
          (fun t event => event t) letterParser =
          some (.ok f)) ∧ ∀ event, f event = some (event 97 || !(event 98 && event 99)) := by
  refine ⟨?htext, (dijstra_evaluator_value_iff letterParser
    (fun t (event : UInt8 → Bool) => event t) _ ?_ _ ?htext).imp fun f h => ⟨h.1, h.2.2 rfl⟩⟩
  · refine @Writes.term _ _ _ _ [] _ _ _ rfl rfl (.space rfl ?_)
    refine @Writes.operator _ _ _ _ opOr _ .or rfl rfl (.space rfl ?_)
    refine @Writes.operator _ _ _ _ opNot _ .not rfl rfl (.space rfl ?_)
    refine @Writes.operator _ _ _ _ opOpen _ .parenthOpen rfl rfl ?_
    refine @Writes.term _ _ _ _ [] _ _ _ rfl rfl (.space rfl ?_)
    refine @Writes.operator _ _ _ _ opAnd _ .and rfl rfl (.space rfl ?_)
    refine @Writes.term _ _ _ _ [] _ _ _ rfl rfl ?_
    exact @Writes.operator _ _ _ _ opClose _ .parenthClose rfl rfl .done
  · exact ⟨trivial, Nat.le_succ 3, Nat.le_add_left 2 2, Nat.le_add_left 2 2, trivial, trivial⟩

/-- `NOT NOT a` is evaluated as `NOT a`, and `a AND NOT NOT b` as `NOT b AND NOT a`. -/
theorem dijstra_evaluator_drops_a_not :
    (Writes letterParser [] [78, 79, 84, 32, 78, 79, 84, 32, 97]
      (Formula.not (.not (.term 97))).kinds ∧
      (Formula.not (.not (.term 97)) : Formula UInt8).WellWritten ∧
      ∃ f : (UInt8 → Bool) → Option Bool,
        (∃ n, ∀ fuel, n ≤ fuel → buildDijstraEvaluator fuel [78, 79, 84, 32, 78, 79, 84, 32, 97]
          (fun t event => event t) letterParser = some (.ok f)) ∧
        ∀ event, f event = some (!(Formula.not (.not (.term 97))).value event)) ∧
    ∃ f : (UInt8 → Bool) → Option Bool,
      (∃ n, ∀ fuel, n ≤ fuel →
        buildDijstraEvaluator fuel [97, 32, 65, 78, 68, 32, 78, 79, 84, 32, 78, 79, 84, 32, 98]
        (fun t event => event t) letterParser = some (.ok f)) ∧
      ∀ event, f event = some (!event 98 && !event 97) := by
  refine ⟨⟨?htext, ?hφ, (buildDijstraEvaluator_formula (fun t (event : UInt8 → Bool) => event t) ?hφ
    ?htext).imp fun f h => ⟨h.1, fun event => ?_⟩⟩, ?_⟩
  · refine @Writes.operator _ _ _ _ opNot _ .not rfl rfl (.space rfl ?_)
    refine @Writes.operator _ _ _ _ opNot _ .not rfl rfl (.space rfl ?_)
    exact @Writes.term _ _ _ _ [] _ _ _ rfl rfl .done
  · exact ⟨le_refl 3, Nat.le_succ 3, trivial⟩
  · rw [h.2]
    simp [Formula.asParsed, Formula.leftNested, Formula.reread, Formula.isNot, Formula.value]
  · have hsecond :
        Writes letterParser [] [97, 32, 65, 78, 68, 32, 78, 79, 84, 32, 78, 79, 84, 32, 98]
        (Formula.and (.term 97) (.not (.not (.term 98)))).kinds := by
      refine @Writes.term _ _ _ _ [] _ _ _ rfl rfl (.space rfl ?_)
      refine @Writes.operator _ _ _ _ opAnd _ .and rfl rfl (.space rfl ?_)
      refine @Writes.operator _ _ _ _ opNot _ .not rfl rfl (.space rfl ?_)
      refine @Writes.operator _ _ _ _ opNot _ .not rfl rfl (.space rfl ?_)
      exact @Writes.term _ _ _ _ [] _ _ _ rfl rfl .done
    have hwritten : (Formula.and (.term 97) (.not (.not (.term 98))) : Formula UInt8).WellWritten :=
      ⟨Nat.le_add_left 2 2, Nat.le_succ 2, trivial, le_refl 3, Nat.le_succ 3, trivial⟩
    obtain ⟨f, hbuild, hvalue⟩ :=
      buildDijstraEvaluator_formula (fun t (event : UInt8 → Bool) => event t) hwritten hsecond
    exact ⟨f, hbuild, fun event => by rw [hvalue]; rfl⟩

end WazAISentinel.LogicExpr
