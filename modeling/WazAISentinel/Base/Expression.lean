import Mathlib.Tactic.Common

/-!
# Expressions

The `Formula` classes (`base/expression.hpp`): a tree of operations over given formulas, which are
terms for a backend and assets for the policy factory. `run` is the meaning that the comments of the
classes give.
-/

namespace WazAISentinel.Base

/-- The operations with any number of operands. -/
inductive OperationType where
  | and
  | or
  | chain
  | broadcast
  deriving DecidableEq

/-- An expression over the formulas `π`. `Implication` ensures that it has two operands. -/
inductive Expression (π : Type) where
  | formula (p : π)
  | implication (name : List String) (left right : Expression π)
  | operation (type : OperationType) (name : List String) (operands : List (Expression π))

namespace Expression

variable {π : Type}

mutual

/-- The formulas that occur in an expression. -/
def leaves : Expression π → List π
  | .formula p => [p]
  | .implication _ left right => leaves left ++ leaves right
  | .operation _ _ operands => leavesAll operands

/-- The terms of operands. -/
def leavesAll : List (Expression π) → List π
  | [] => []
  | e :: es => leaves e ++ leavesAll es

end

theorem mem_leavesAll {p : π} {es : List (Expression π)} :
    p ∈ leavesAll es ↔ ∃ e ∈ es, p ∈ e.leaves := by
  induction es with
  | nil => simp [leavesAll]
  | cons e es ih => simp [leavesAll, ih]

mutual

/-- The formulas that are computed, in their order, and the result. -/
def run (outcome : π → Bool) : Expression π → List π × Bool
  | .formula p => ([p], outcome p)
  | .implication _ left right =>
    -- true(left) -> right --> true, false(left) --> false
    if (run outcome left).2 then ((run outcome left).1 ++ (run outcome right).1, true)
      else ((run outcome left).1, false)
  | .operation .and _ operands => runWhile outcome true operands
  | .operation .or _ operands => runWhile outcome false operands
  | .operation .chain _ operands => (runAll outcome operands, true)
  | .operation .broadcast _ operands => (runAll outcome operands, true)

/-- Operands are computed while their result is `continues`, which is also the result if all are. -/
def runWhile (outcome : π → Bool) (continues : Bool) : List (Expression π) → List π × Bool
  | [] => ([], continues)
  | e :: es =>
    if (run outcome e).2 = continues then
      ((run outcome e).1 ++ (runWhile outcome continues es).1, (runWhile outcome continues es).2)
    else ((run outcome e).1, !continues)

/-- All operands are computed, regardless of their results. -/
def runAll (outcome : π → Bool) : List (Expression π) → List π
  | [] => []
  | e :: es => (run outcome e).1 ++ runAll outcome es

end

/-! ## Formulas that change a state -/

section State

variable {σ : Type}

mutual

/-- The meaning with formulas that change a state. -/
def exec (f : π → σ → σ × Bool) : Expression π → σ → σ × Bool
  | .formula p, s => f p s
  | .implication _ left right, s =>
    if (exec f left s).2 then ((exec f right (exec f left s).1).1, true)
      else ((exec f left s).1, false)
  | .operation .and _ operands, s => execWhile f true operands s
  | .operation .or _ operands, s => execWhile f false operands s
  | .operation .chain _ operands, s => (execAll f operands s, true)
  | .operation .broadcast _ operands, s => (execAll f operands s, true)

/-- Runs operands as long as their results are `continues`. -/
def execWhile (f : π → σ → σ × Bool) (continues : Bool) : List (Expression π) → σ → σ × Bool
  | [], s => (s, continues)
  | e :: es, s =>
    if (exec f e s).2 = continues then execWhile f continues es (exec f e s).1
      else ((exec f e s).1, !continues)

/-- Runs all operands. -/
def execAll (f : π → σ → σ × Bool) : List (Expression π) → σ → σ
  | [], s => s
  | e :: es, s => execAll f es (exec f e s).1

end

/-- The formulas add themselves to a list and have fixed results. -/
def Records (f : π → σ → σ × Bool) (log : σ → List π) (outcome : σ → π → Bool) : Prop :=
  ∀ p s, log (f p s).1 = log s ++ [p] ∧ outcome (f p s).1 = outcome s ∧ (f p s).2 = outcome s p

variable {f : π → σ → σ × Bool} {log : σ → List π} {outcome : σ → π → Bool}

mutual

/-- Then the list is the sequence that `run` gives. -/
theorem exec_records (h : Records f log outcome) : ∀ (e : Expression π) (s : σ),
    log (exec f e s).1 = log s ++ (run (outcome s) e).1 ∧ outcome (exec f e s).1 = outcome s ∧
      (exec f e s).2 = (run (outcome s) e).2
  | .formula p, s => h p s
  | .implication _ left right, s => by
      obtain ⟨hlog, houtcome, hresult⟩ := exec_records h left s
      rw [exec, run, hresult]
      split
      · obtain ⟨hlog', houtcome', -⟩ := exec_records h right (exec f left s).1
        rw [houtcome] at hlog' houtcome'
        exact ⟨by rw [hlog', hlog, List.append_assoc], houtcome', rfl⟩
      · exact ⟨hlog, houtcome, rfl⟩
  | .operation .and _ operands, s => by
      rw [exec, run]
      exact execWhile_records h true operands s
  | .operation .or _ operands, s => by
      rw [exec, run]
      exact execWhile_records h false operands s
  | .operation .chain _ operands, s => by
      obtain ⟨hlog, houtcome⟩ := execAll_records h operands s
      rw [exec, run]
      exact ⟨hlog, houtcome, rfl⟩
  | .operation .broadcast _ operands, s => by
      obtain ⟨hlog, houtcome⟩ := execAll_records h operands s
      rw [exec, run]
      exact ⟨hlog, houtcome, rfl⟩

theorem execWhile_records (h : Records f log outcome) (continues : Bool) :
    ∀ (es : List (Expression π)) (s : σ),
    log (execWhile f continues es s).1 = log s ++ (runWhile (outcome s) continues es).1 ∧
      outcome (execWhile f continues es s).1 = outcome s ∧
      (execWhile f continues es s).2 = (runWhile (outcome s) continues es).2
  | [], s => ⟨(List.append_nil (log s)).symm, rfl, rfl⟩
  | e :: es, s => by
      obtain ⟨hlog, houtcome, hresult⟩ := exec_records h e s
      rw [execWhile, runWhile, hresult]
      split
      · obtain ⟨hlog', houtcome', hresult'⟩ := execWhile_records h continues es (exec f e s).1
        rw [houtcome] at hlog' houtcome' hresult'
        exact ⟨by rw [hlog', hlog, List.append_assoc], houtcome', hresult'⟩
      · exact ⟨hlog, houtcome, rfl⟩

theorem execAll_records (h : Records f log outcome) : ∀ (es : List (Expression π)) (s : σ),
    log (execAll f es s) = log s ++ runAll (outcome s) es ∧ outcome (execAll f es s) = outcome s
  | [], s => ⟨(List.append_nil (log s)).symm, rfl⟩
  | e :: es, s => by
      obtain ⟨hlog, houtcome, -⟩ := exec_records h e s
      obtain ⟨hlog', houtcome'⟩ := execAll_records h es (exec f e s).1
      rw [houtcome] at hlog' houtcome'
      rw [execAll, runAll]
      exact ⟨by rw [hlog', hlog, List.append_assoc], houtcome'⟩

end

end State

end Expression

end WazAISentinel.Base
