import WazAISentinel.LogicExpr.Tokenizer

/-!
# Formulas and how they are written

A formula with the parentheses it is written with, its Boolean value, and its words from left to
right. The parentheses that the precedence requires are those without which an operand would bind
weaker than its operator; a chain of one operator may be nested either way.

`asParsed` is the formula the parser makes of the words: of the `NOT`s directly one after the other
only the last stays with its operand, the others are put before the operand that is complete on
their left, or are lost.
-/

namespace WazAISentinel.LogicExpr

open List

variable {τ : Type}

/-- The formulas, with their parentheses. -/
inductive Formula (τ : Type) where
  | term (t : τ)
  | not (φ : Formula τ)
  | and (φ ψ : Formula τ)
  | or (φ ψ : Formula τ)
  | paren (φ : Formula τ)
  deriving DecidableEq

variable {φ : Formula τ} {n : Nat} {v : τ → Bool}

namespace Formula

/-- The value of a formula. -/
def value (v : τ → Bool) : Formula τ → Bool
  | .term t => v t
  | .not φ => !φ.value v
  | .and φ ψ => φ.value v && ψ.value v
  | .or φ ψ => φ.value v || ψ.value v
  | .paren φ => φ.value v

/-- How tight the outermost operator binds. -/
def level : Formula τ → Nat
  | .or _ _ => 1
  | .and _ _ => 2
  | .not _ => 3
  | .term _ => 4
  | .paren _ => 4

/-- No operand binds weaker than its operator. -/
def WellWritten : Formula τ → Prop
  | .term _ => True
  | .not φ => 3 ≤ φ.level ∧ φ.WellWritten
  | .and φ ψ => 2 ≤ φ.level ∧ 2 ≤ ψ.level ∧ φ.WellWritten ∧ ψ.WellWritten
  | .or φ ψ => φ.WellWritten ∧ ψ.WellWritten
  | .paren φ => φ.WellWritten

/-- The words of a formula from left to right. -/
def kinds : Formula τ → List (TokenKind τ)
  | .term t => [.term t]
  | .not φ => .not :: φ.kinds
  | .and φ ψ => φ.kinds ++ .and :: ψ.kinds
  | .or φ ψ => φ.kinds ++ .or :: ψ.kinds
  | .paren φ => .parenthOpen :: (φ.kinds ++ [.parenthClose])

theorem kinds_ne_nil (φ : Formula τ) : φ.kinds ≠ [] := by
  cases φ with
  | term t | not φ | paren φ => exact cons_ne_nil _ _
  | and φ ψ | or φ ψ => exact append_ne_nil_of_right_ne_nil _ (cons_ne_nil _ _)

/-! ## Nesting to the left -/

/-- `φ AND ψ` with the conjunctions of `ψ` nested to the left. -/
def andLeft (φ : Formula τ) : Formula τ → Formula τ
  | .and ψ χ => .and (andLeft φ ψ) χ
  | ψ => .and φ ψ

/-- A disjunction, nested to the left. -/
def orLeft (φ : Formula τ) : Formula τ → Formula τ
  | .or ψ χ => .or (orLeft φ ψ) χ
  | ψ => .or φ ψ

/-- Conjunctions and disjunctions are nested to the left. -/
def leftNested : Formula τ → Formula τ
  | .term t => .term t
  | .not φ => .not φ.leftNested
  | .and φ ψ => andLeft φ.leftNested ψ.leftNested
  | .or φ ψ => orLeft φ.leftNested ψ.leftNested
  | .paren φ => .paren φ.leftNested

/-- Well written, with no right operand of its operator's own level. -/
def Strict : Formula τ → Prop
  | .term _ => True
  | .not φ => 3 ≤ φ.level ∧ φ.Strict
  | .and φ ψ => 2 ≤ φ.level ∧ 3 ≤ ψ.level ∧ φ.Strict ∧ ψ.Strict
  | .or φ ψ => 2 ≤ ψ.level ∧ φ.Strict ∧ ψ.Strict
  | .paren φ => φ.Strict

/-- What nesting a conjunction to the left leaves as it was. -/
theorem andLeft_spec (φ ψ : Formula τ) :
    (andLeft φ ψ).level = 2 ∧ (andLeft φ ψ).kinds = φ.kinds ++ .and :: ψ.kinds ∧
      (∀ v, (andLeft φ ψ).value v = (φ.value v && ψ.value v)) ∧
      (φ.Strict → 2 ≤ φ.level → ψ.Strict → 2 ≤ ψ.level → (andLeft φ ψ).Strict) := by
  induction ψ with
  | term t | not ψ ih | paren ψ ih =>
    exact ⟨rfl, rfl, fun _ => rfl, fun h1 h2 h3 h4 => ⟨h2, by simp [level], h1, h3⟩⟩
  | and ψ χ ihψ ihχ =>
    obtain ⟨hlevel, hkinds, hvalue, hstrict⟩ := ihψ
    refine ⟨rfl, ?_, fun v => ?_, fun h1 h2 h3 h4 => ?_⟩
    · rw [andLeft, kinds, hkinds, kinds, append_assoc, cons_append]
    · rw [andLeft, value, hvalue, value, Bool.and_assoc]
    · obtain ⟨h5, h6, h7, h8⟩ := h3
      exact ⟨le_of_eq hlevel.symm, h6, hstrict h1 h2 h7 h5, h8⟩
  | or ψ χ ihψ ihχ =>
    refine ⟨rfl, rfl, fun _ => rfl, fun h1 h2 h3 h4 => ?_⟩
    have hle : 2 ≤ 1 := h4
    omega

theorem orLeft_spec (φ ψ : Formula τ) :
    (orLeft φ ψ).level = 1 ∧ (orLeft φ ψ).kinds = φ.kinds ++ .or :: ψ.kinds ∧
      (∀ v, (orLeft φ ψ).value v = (φ.value v || ψ.value v)) ∧
        (φ.Strict → ψ.Strict → (orLeft φ ψ).Strict) := by
  induction ψ with
  | term t | not ψ ih | and ψ χ ihψ ihχ | paren ψ ih =>
    exact ⟨rfl, rfl, fun _ => rfl, fun h1 h2 => ⟨by simp [level], h1, h2⟩⟩
  | or ψ χ ihψ ihχ =>
    obtain ⟨hlevel, hkinds, hvalue, hstrict⟩ := ihψ
    refine ⟨rfl, ?_, fun v => ?_, fun h1 h2 => ?_⟩
    · rw [orLeft, kinds, hkinds, kinds, append_assoc, cons_append]
    · rw [orLeft, value, hvalue, value, Bool.or_assoc]
    · obtain ⟨h3, h4, h5⟩ := h2
      exact ⟨h3, hstrict h1 h4, h5⟩

theorem level_leftNested : φ.leftNested.level = φ.level := by
  cases φ with
  | term t | not φ | paren φ => rfl
  | and φ ψ => exact (andLeft_spec φ.leftNested ψ.leftNested).1
  | or φ ψ => exact (orLeft_spec φ.leftNested ψ.leftNested).1

theorem kinds_leftNested : φ.leftNested.kinds = φ.kinds := by
  induction φ with
  | term t => rfl
  | not φ ih | paren φ ih => rw [leftNested, kinds, ih, kinds]
  | and φ ψ ihφ ihψ => rw [leftNested, (andLeft_spec _ _).2.1, ihφ, ihψ, kinds]
  | or φ ψ ihφ ihψ => rw [leftNested, (orLeft_spec _ _).2.1, ihφ, ihψ, kinds]

theorem value_leftNested : φ.leftNested.value v = φ.value v := by
  induction φ with
  | term t => rfl
  | not φ ih | paren φ ih => rw [leftNested, value, ih, value]
  | and φ ψ ihφ ihψ => rw [leftNested, (andLeft_spec _ _).2.2.1, ihφ, ihψ, value]
  | or φ ψ ihφ ihψ => rw [leftNested, (orLeft_spec _ _).2.2.1, ihφ, ihψ, value]

theorem strict_leftNested (h : φ.WellWritten) : φ.leftNested.Strict := by
  induction φ with
  | term t => exact trivial
  | not φ ih => exact ⟨level_leftNested.symm ▸ h.1, ih h.2⟩
  | and φ ψ ihφ ihψ =>
    obtain ⟨hφ, hψ, hwφ, hwψ⟩ := h
    rw [← level_leftNested] at hφ hψ
    exact (andLeft_spec _ _).2.2.2 (ihφ hwφ) hφ (ihψ hwψ) hψ
  | or φ ψ ihφ ihψ => exact (orLeft_spec _ _).2.2.2 (ihφ h.1) (ihψ h.2)
  | paren φ ih => exact ih h

/-! ## What the parser reads -/

/-- The formula is a negation. -/
def isNot : Formula τ → Bool
  | .not _ => true
  | _ => false

/-- The `NOT`s at the beginning that are taken from the formula. -/
def displaced : Formula τ → Nat
  | .term _ => 0
  | .not φ => if φ.isNot then φ.displaced + 1 else φ.displaced
  | .and φ _ => φ.displaced
  | .or φ _ => φ.displaced
  | .paren φ => φ.displaced

/-- `n` times `NOT` before a formula. -/
def nots : Nat → Formula τ → Formula τ
  | 0, φ => φ
  | n + 1, φ => .not (nots n φ)

/-- Of `NOT`s directly one after the other only the last stays with its operand; those taken from
the beginning of a right operand are put before the left one. -/
def reread : Formula τ → Formula τ
  | .term t => .term t
  | .not φ => if φ.isNot then φ.reread else .not φ.reread
  | .and φ ψ => .and ψ.reread (nots ψ.displaced φ.reread)
  | .or φ ψ => .or ψ.reread (nots ψ.displaced φ.reread)
  | .paren φ => φ.reread

/-- The formula that the parser makes of the words of a formula. -/
def asParsed (φ : Formula τ) : Formula τ := φ.leftNested.reread

/-- No even number of `NOT`s directly one after the other, after `n` of them. -/
def oddRuns : Nat → List (TokenKind τ) → Bool
  | _, [] => true
  | n, .not :: kinds => oddRuns (n + 1) kinds
  | n, _ :: kinds => (n = 0 ∨ n % 2 = 1) && oddRuns 0 kinds

theorem decide_succ_odd : decide ((n + 1) % 2 = 1) = !decide (n % 2 = 1) := by
  rw [← decide_not, decide_eq_decide]
  omega

theorem value_nots : (nots n φ).value v = (φ.value v ^^ decide (n % 2 = 1)) := by
  induction n with
  | zero => simp [nots]
  | succ n ih => rw [nots, value, ih, decide_succ_odd, Bool.xor_not]

theorem value_nots_of_even (hn : n % 2 = 0) : (nots n φ).value v = φ.value v := by
  simp [value_nots, hn]

/-- After `n` times `NOT`: a formula that begins with more of them loses as many as make an even
number with the `n`, and its value changes with each of the `n`; any other keeps its value. -/
structure RunsOdd (n : Nat) (v : τ → Bool) (φ : Formula τ) : Prop where
  ofNot : φ.isNot = true →
    (φ.displaced + n) % 2 = 0 ∧ φ.reread.value v = (φ.value v ^^ decide (n % 2 = 1))
  ofOther : φ.isNot = false →
    (n = 0 ∨ n % 2 = 1) ∧ φ.displaced % 2 = 0 ∧ φ.reread.value v = φ.value v

theorem RunsOdd.keeps {v : τ → Bool} (h : RunsOdd 0 v φ) :
    φ.displaced % 2 = 0 ∧ φ.reread.value v = φ.value v := by
  cases hnot : φ.isNot with
  | true =>
    obtain ⟨heven, hvalue⟩ := h.ofNot hnot
    exact ⟨heven, by simpa using hvalue⟩
  | false => exact (h.ofOther hnot).2

theorem runsOdd_of_oddRuns (hφ : φ.Strict) (hn : n = 0 ∨ 3 ≤ φ.level) {rest : List (TokenKind τ)}
    (h : oddRuns n (φ.kinds ++ rest) = true) : RunsOdd n v φ ∧ oddRuns 0 rest = true := by
  induction φ generalizing n rest with
  | term t =>
    simp only [kinds, singleton_append, oddRuns, Bool.and_eq_true, decide_eq_true_eq] at h
    exact ⟨⟨fun hnot => absurd hnot Bool.false_ne_true, fun _ => ⟨h.1, rfl, rfl⟩⟩, h.2⟩
  | not φ ih =>
    obtain ⟨hruns, hrest⟩ := ih hφ.2 (.inr hφ.1) h
    refine ⟨⟨fun _ => ?_, fun hnot => absurd hnot.symm Bool.false_ne_true⟩, hrest⟩
    cases hnot : φ.isNot with
    | true =>
      obtain ⟨heven, hvalue⟩ := hruns.ofNot hnot
      refine ⟨by rw [displaced, if_pos hnot]; omega, ?_⟩
      rw [reread, if_pos hnot, hvalue, value, decide_succ_odd, Bool.xor_not, Bool.not_xor]
    | false =>
      obtain ⟨hodd, heven, hvalue⟩ := hruns.ofOther hnot
      have hmod : n % 2 = 0 := by omega
      refine ⟨by rw [displaced, if_neg (by simp [hnot])]; omega, ?_⟩
      rw [reread, if_neg (by simp [hnot]), value, value, hvalue, hmod]
      simp
  | and φ ψ ihφ ihψ | or φ ψ ihφ ihψ =>
    -- an operand of `NOT` binds tighter, so there is no `NOT` directly in front
    obtain rfl : n = 0 := hn.resolve_right fun hle => absurd hle (by simp [level])
    obtain ⟨hsφ, hsψ⟩ : φ.Strict ∧ ψ.Strict := by simp_all [Strict]
    rw [kinds, append_assoc] at h
    obtain ⟨hruns, hrest⟩ := ihφ hsφ (.inl rfl) h
    obtain ⟨hruns', hrest'⟩ := ihψ hsψ (.inl rfl) (n := 0) (by simpa [oddRuns] using hrest)
    refine ⟨⟨fun hnot => absurd hnot Bool.false_ne_true, fun _ => ⟨.inl rfl, hruns.keeps.1, ?_⟩⟩,
      hrest'⟩
    simp only [reread, value, value_nots_of_even hruns'.keeps.1, hruns.keeps.2, hruns'.keeps.2,
      Bool.and_comm, Bool.or_comm]
  | paren φ ih =>
    simp only [kinds, cons_append, append_assoc, oddRuns, Bool.and_eq_true, decide_eq_true_eq] at h
    obtain ⟨hruns, hrest⟩ := ih hφ (.inl rfl) h.2
    refine ⟨⟨fun hnot => absurd hnot Bool.false_ne_true, fun _ => ⟨h.1, hruns.keeps⟩⟩, ?_⟩
    simpa [oddRuns] using hrest

/-- Where no even number of `NOT`s stands directly one after the other, the formula that is read has
the same value. -/
theorem value_asParsed_of_oddRuns (hφ : φ.WellWritten) (hodd : oddRuns 0 φ.kinds = true) :
    φ.asParsed.value v = φ.value v := by
  have hruns : oddRuns 0 (φ.leftNested.kinds ++ []) = true := by
    rw [append_nil, kinds_leftNested]
    exact hodd
  obtain ⟨hread, -⟩ := runsOdd_of_oddRuns (strict_leftNested hφ) (.inl rfl) hruns
  rw [asParsed, hread.keeps.2, value_leftNested]

end Formula

end WazAISentinel.LogicExpr
