import Mathlib.Data.List.Forall2
import WazAISentinel.Bk.ExprBuilder

/-!
# The reactive backend implements the expressions

An event that is pushed into the network of an expression runs the terms that its meaning gives, in
that order, and comes out with its status. By induction on the expression, each operation leaves the
result as its meaning says and writes no condition but its own (`After`).
-/

namespace WazAISentinel.Bk

open Base (Expression OperationType)
open Controller Foundations

variable {π σ ε : Type}

mutual

/-- Every operation has an operand. -/
def HasOperands : Expression π → Prop
  | .formula _ => True
  | .implication _ left right => HasOperands left ∧ HasOperands right
  | .operation _ _ operands => operands ≠ [] ∧ AllHaveOperands operands

/-- All of them have operands. -/
def AllHaveOperands : List (Expression π) → Prop
  | [] => True
  | e :: es => HasOperands e ∧ AllHaveOperands es

end

/-- A term on the payload and the list of the terms that were run. -/
def termStep (fn : π → σ → Except ε (Result σ)) (p : π) (s : σ × List π) : (σ × List π) × Bool :=
  (((runTerm fn p s.1).payload, s.2 ++ [p]), (runTerm fn p s.1).success)

/-- The payload and the terms that were run. -/
def RxState.memory (s : RxState π σ) : σ × List π := (s.result.payload, s.ran)

/-- What the network of an expression, with the numbers from `n` to `m`, makes of a state. -/
structure After (n m : Nat) (s s' : RxState π σ) (r : (σ × List π) × Bool) : Prop where
  memory : s'.memory = r.1
  success : s'.result.success = r.2
  ended : s'.ended = s.ended
  conditions : ∀ i, i < n ∨ m ≤ i → s'.conditions i = s.conditions i

variable {m n : Nat} {r : (σ × List π) × Bool} {s s' s₁ : RxState π σ} {k : Subscriber (RxStage π)}
  {continues : Bool} {e : Expression π}

theorem After.widen {n' m' : Nat} (h : After n m s s' r) (hn : n' ≤ n) (hm : m ≤ m') :
    After n' m' s s' r :=
  { h with
    conditions i hi :=
      h.conditions i (hi.imp (fun hi => lt_of_lt_of_le hi hn) fun hi => hm.trans hi) }

theorem After.trans {l : Nat} {s₂ : RxState π σ} {r' : (σ × List π) × Bool} (h : After n l s s₁ r)
    (h' : After l m s₁ s₂ r') (hnl : n ≤ l) (hlm : l ≤ m) : After n m s s₂ r' where
  memory := h'.memory
  success := h'.success
  ended := h'.ended.trans h.ended
  conditions i hi := by
    rw [h'.conditions i (hi.imp (fun hi => lt_of_lt_of_le hi hnl) id),
      h.conditions i (hi.imp id fun hi => hlm.trans hi)]

/-- The filter behind the operands of `And` and `Or`. -/
def whileFilter (continues : Bool) : RxStage π := if continues then .success else .failure

theorem rxStep_whileFilter (fn : π → σ → Except ε (Result σ)) (continues : Bool) (s : RxState π σ) :
    rxStep fn (whileFilter continues) s = (s, decide (s.result.success = continues)) := by
  cases continues with
  | true =>
    change (s, s.result.success) = _
    rw [Bool.decide_eq_true]
  | false =>
    change (s, !s.result.success) = _
    rw [Bool.decide_eq_false]

section Simulation

variable {fn : π → σ → Except ε (Result σ)} {net : Network (RxStage π)}

/-- What a subject with two subscribers does. -/
theorem delivers_into_pair {row : Subscriber (RxStage π)} (hnet : net n = [row, k])
    (hrow : Delivers (rxStep fn) net row s s₁) (hk : Delivers (rxStep fn) net k s₁ s') :
    Delivers (rxStep fn) net (.into n) s s' := by
  apply DeliversAll.into
  rw [hnet]
  exact .cons hrow (.cons hk deliversAll_nil)

theorem delivers_while_pass (hs : s.result.success = continues)
    (hk : Delivers (rxStep fn) net k s s') :
    Delivers (rxStep fn) net (k.behind (whileFilter continues)) s s' := by
  have hfilter := rxStep_whileFilter fn continues s
  refine .pass ?_ ?_
  · rw [hfilter]
    exact decide_eq_true hs
  · rw [hfilter]
    exact hk

theorem delivers_while_stop (hs : s.result.success ≠ continues) (k : Subscriber (RxStage π)) :
    Delivers (rxStep fn) net (k.behind (whileFilter continues)) s s := by
  have hfilter := rxStep_whileFilter fn continues s
  have hstop : Delivers (rxStep fn) net (k.behind (whileFilter continues)) s
      (rxStep fn (whileFilter continues) s).1 := by
    apply delivers_stop
    rw [hfilter]
    exact decide_eq_false hs
  rwa [hfilter] at hstop

mutual

/-- The network of an expression does what the expression means, and then what the subscriber of its
output does. -/
theorem Built.after : ∀ {e : Expression π} {n m : Nat} {k k' : Subscriber (RxStage π)},
    Built net n m e k k' → HasOperands e →
    ∀ s : RxState π σ, ∃ s₁, After n m s s₁ (e.exec (termStep fn) s.memory) ∧
      ∀ s', Delivers (rxStep fn) net k s₁ s' → Delivers (rxStep fn) net k' s s'
  | .formula p, n, _, k, _, .formula, _, s => by
      refine ⟨(rxStep fn (.term p) s).1, ⟨rfl, rfl, rfl, fun _ _ => rfl⟩, fun s' hk => ?_⟩
      exact hk.pass rfl
  | .operation .and _ operands, n, m, k, _, .operation hrow hnet, hops, s => by
      obtain ⟨s₁, hafter, hdelivers⟩ := hrow.afterWhile true hops.2 s fun h => absurd h hops.1
      rw [Expression.exec]
      exact ⟨s₁, hafter.widen (Nat.le_succ n) le_rfl,
        fun s' hk => delivers_into_pair hnet hdelivers hk⟩
  | .operation .or _ operands, n, m, k, _, .operation hrow hnet, hops, s => by
      obtain ⟨s₁, hafter, hdelivers⟩ := hrow.afterWhile false hops.2 s fun h => absurd h hops.1
      rw [Expression.exec]
      exact ⟨s₁, hafter.widen (Nat.le_succ n) le_rfl,
        fun s' hk => delivers_into_pair hnet hdelivers hk⟩
  | .operation .chain _ operands, n, m, k, _, .operation hrow hnet, hops, s
  | .operation .broadcast _ operands, n, m, k, _, .operation hrow hnet, hops, s => by
      obtain ⟨s₁, hafter, hdelivers⟩ := hrow.afterAll hops.2 s
      rw [Expression.exec]
      refine ⟨(rxStep fn .succeed s₁).1, ?_,
        fun s' hk => delivers_into_pair hnet hdelivers (hk.pass rfl)⟩
      exact ⟨hafter.memory, rfl, hafter.ended, (hafter.widen (Nat.le_succ n) le_rfl).conditions⟩
  | .implication _ left right, n, m, k, _, .implication hleft hright hnet, hops, s => by
      obtain ⟨s₁, hafter, hleads⟩ := hleft.after hops.1 s
      have hle := hleft.le
      have hle' := hright.le
      rw [Expression.exec, ← hafter.success, ← hafter.memory]
      cases hresult : s₁.result.success with
      | true =>
        -- the condition is set, and the right operand does not write it
        obtain ⟨s₂, hafter', hleads'⟩ := hright.after hops.2 (rxStep fn (.condition (n + 1)) s₁).1
        have hcondition : s₂.conditions (n + 1) = true := by
          rw [hafter'.conditions (n + 1) (.inl (by omega))]
          exact (Function.update_self ..).trans hresult
        have hdelivers := hleads s₂ (.pass hresult (hleads' s₂ delivers_ignore))
        refine ⟨(rxStep fn (.status (n + 1)) s₂).1, ⟨?_, hcondition, ?_, fun i hi => ?_⟩,
          fun s' hk => delivers_into_pair hnet hdelivers (hk.pass rfl)⟩
        · exact hafter'.memory
        · exact hafter'.ended.trans hafter.ended
        · have hright :
              s₂.conditions i = Function.update s₁.conditions (n + 1) s₁.result.success i :=
            hafter'.conditions i (by omega)
          change s₂.conditions i = s.conditions i
          rw [hright, Function.update_of_ne (by omega), hafter.conditions i (by omega)]
      | false =>
        have hdelivers := hleads _ (delivers_stop hresult _)
        refine ⟨(rxStep fn (.status (n + 1)) (rxStep fn (.condition (n + 1)) s₁).1).1,
          ⟨rfl, ?_, hafter.ended, fun i hi => ?_⟩,
          fun s' hk => delivers_into_pair hnet hdelivers (hk.pass rfl)⟩
        · exact (Function.update_self ..).trans hresult
        · change Function.update s₁.conditions (n + 1) s₁.result.success i = s.conditions i
          rw [Function.update_of_ne (by omega), hafter.conditions i (by omega)]

/-- `And` and `Or`: the row goes on while the operands give the same result. -/
theorem BuiltAll.afterWhile (continues : Bool) :
    ∀ {es : List (Expression π)} {n m : Nat} {row : Subscriber (RxStage π)},
    BuiltAll net (some (whileFilter continues)) n m es .ignore row → AllHaveOperands es →
      ∀ s : RxState π σ,
    (es = [] → s.result.success = continues) →
    ∃ s₁, After n m s s₁ (Expression.execWhile (termStep fn) continues es s.memory) ∧
      Delivers (rxStep fn) net row s s₁
  | [], n, _, _, .nil, _, s, hs => ⟨s, ⟨rfl, hs rfl, rfl, fun _ _ => rfl⟩, delivers_ignore⟩
  | e :: es, n, m, _, .cons hhead hrest, hops, s, _ => by
      obtain ⟨s₁, hafter, hleads⟩ := hhead.after hops.1 s
      rw [Expression.execWhile, ← hafter.success, ← hafter.memory]
      by_cases hs : s₁.result.success = continues
      · obtain ⟨s₂, hafter', hdelivers⟩ := hrest.afterWhile continues hops.2 s₁ fun _ => hs
        rw [if_pos hs]
        exact ⟨s₂, hafter.trans hafter' hhead.le hrest.le,
          hleads s₂ (delivers_while_pass hs hdelivers)⟩
      · rw [if_neg hs]
        refine ⟨s₁, ⟨rfl, Bool.eq_not_of_ne hs, hafter.ended,
          (hafter.widen le_rfl hrest.le).conditions⟩, hleads s₁ ?_⟩
        exact delivers_while_stop hs _

/-- `Chain` and `Broadcast`: all operands are run. -/
theorem BuiltAll.afterAll : ∀ {es : List (Expression π)} {n m : Nat} {row : Subscriber (RxStage π)},
    BuiltAll net none n m es .ignore row → AllHaveOperands es → ∀ s : RxState π σ,
    ∃ s₁, After n m s s₁ (Expression.execAll (termStep fn) es s.memory, s₁.result.success) ∧
      Delivers (rxStep fn) net row s s₁
  | [], n, _, _, .nil, _, s => ⟨s, ⟨rfl, rfl, rfl, fun _ _ => rfl⟩, delivers_ignore⟩
  | e :: es, n, m, _, .cons hhead hrest, hops, s => by
      obtain ⟨s₁, hafter, hleads⟩ := hhead.after hops.1 s
      obtain ⟨s₂, hafter', hdelivers⟩ := hrest.afterAll hops.2 s₁
      rw [Expression.execAll, ← hafter.memory]
      exact ⟨s₂, hafter.trans hafter' hhead.le hrest.le, hleads s₂ hdelivers⟩

end

end Simulation

/-! ## The controller -/

/-- An event was processed as the expression means, and has reached the output once. -/
structure Processed (fn : π → σ → Except ε (Result σ)) (e : Expression π) (event : σ)
    (s : RxState π σ) : Prop where
  memory : s.memory = (e.exec (termStep fn) (event, [])).1
  success : s.result.success = (e.exec (termStep fn) (event, [])).2
  ended : s.ended = [(e.exec (termStep fn) (event, [])).2]

section

variable (fn : π → σ → Except ε (Result σ)) (hops : HasOperands e) (conditions : Nat → Bool)

include hops

/-- One event, whatever the conditions are. -/
theorem ingest_returns (event : σ) :
    ∃ s, Processed fn e event s ∧
      ∃ n, ∀ fuel, n ≤ fuel → ingest fn fuel ⟨(create e).network, conditions⟩ event = some s := by
  -- the input has one subscriber, which leads through the network of the expression to the output
  have hextends := recBuild_extends e (.subject 0) ⟨fun _ => [], 1⟩ Nat.zero_lt_one fun _ _ => rfl
  obtain ⟨k, hagree, hbuilt⟩ := hextends.finished (Subscriber.ignore.behind .endCallback)
  have hinput : (create e).network 0 = [k] :=
    (hagree 0 Nat.zero_lt_one).trans (Network.add_self _ 0 k)
  obtain ⟨s, hafter, hleads⟩ :
      ∃ s, After 1 _ ⟨⟨event, true⟩, conditions, [], []⟩ s (e.exec (termStep fn) (event, [])) ∧
      ∀ s', Delivers (rxStep fn) (create e).network (Subscriber.ignore.behind .endCallback) s s' →
        Delivers (rxStep fn) (create e).network k ⟨⟨event, true⟩, conditions, [], []⟩ s' :=
          hbuilt.after hops _
  have hdelivers := hleads _ (delivers_ignore.pass rfl)
  refine ⟨(rxStep fn .endCallback s).1, ⟨hafter.memory, hafter.success, ?_⟩, ?_⟩
  · change s.ended ++ [s.result.success] = _
    rw [hafter.ended, hafter.success]
    rfl
  · apply DeliversAll.into
    rw [hinput]
    exact .cons hdelivers deliversAll_nil

/-- A sequence of events. -/
theorem ingestAll_returns (events : List σ) :
    ∃ states, List.Forall₂ (Processed fn e) events states ∧ ∃ n, ∀ fuel, n ≤ fuel →
        ingestAll fn fuel ⟨(create e).network, conditions⟩ events = some states := by
  induction events generalizing conditions with
  | nil => exact ⟨[], .nil, 0, fun _ _ => rfl⟩
  | cons event events ih =>
    obtain ⟨s, hs, n, hn⟩ := ingest_returns fn hops conditions event
    obtain ⟨states, hstates, m, hm⟩ := ih s.conditions
    refine ⟨s :: states, .cons hs hstates, max n m, fun fuel hfuel => ?_⟩
    rw [ingestAll, hn fuel (by omega)]
    change (ingestAll fn fuel ⟨(create e).network, s.conditions⟩ events).map (s :: ·) = _
    rw [hm fuel (by omega)]
    rfl

end

/-! ## Outcomes -/

/-- What a term does. -/
inductive Outcome where
  | success
  | failure
  | exception
  deriving DecidableEq

/-- An exception counts as a failure. -/
def Outcome.succeeds : Outcome → Bool
  | .success => true
  | .failure => false
  | .exception => false

/-- Terms with given outcomes. An event is its assignment of outcomes to the terms. -/
def outcomeFn (p : π) (event : π → Outcome) : Except Unit (Result (π → Outcome)) :=
  match event p with
  | .success => .ok ⟨event, true⟩
  | .failure => .ok ⟨event, false⟩
  | .exception => .error ()

theorem records_outcomeFn :
    Expression.Records (termStep (fun (p : π) event => outcomeFn p event)) Prod.snd fun s p =>
      (s.1 p).succeeds := by
  intro p s
  have hterm : termStep (fun (p : π) event => outcomeFn p event) p s =
      ((s.1, s.2 ++ [p]), (s.1 p).succeeds) := by
    rw [termStep, runTerm, outcomeFn]
    cases s.1 p with
    | success => rfl
    | failure => rfl
    | exception => rfl
  rw [hterm]
  exact ⟨rfl, rfl, rfl⟩

/-- Each event runs the terms that the meaning of the expression gives for it, in that order, and
reaches the output once, with that status. -/
theorem rx_backend_runs (e : Expression π) (hops : HasOperands e) (events : List (π → Outcome)) :
    ∃ states, (∃ n, ∀ fuel, n ≤ fuel →
      (Controller.create e).ingestAll outcomeFn fuel events = some states) ∧
      List.Forall₂ (fun event s => s.ran = (e.run fun p => (event p).succeeds).1 ∧
        s.result.success = (e.run fun p => (event p).succeeds).2 ∧
          s.ended = [(e.run fun p => (event p).succeeds).2])
        events states := by
  obtain ⟨states, hstates, n, hn⟩ := ingestAll_returns outcomeFn hops (fun _ => false) events
  refine ⟨states, ⟨n, hn⟩, hstates.imp fun event s hs => ?_⟩
  obtain ⟨hlog, -, hresult⟩ := Expression.exec_records records_outcomeFn e (event, [])
  have hran : s.ran = (e.exec (termStep outcomeFn) (event, [])).1.2 := congrArg Prod.snd hs.memory
  refine ⟨?_, ?_, ?_⟩
  · rw [hran, hlog]
    rfl
  · rw [hs.success, hresult]
  · rw [hs.ended, hresult]

/-- An implication in a chain, with a condition that fails for the first event and succeeds for the
second. -/
theorem rx_backend_runs_twoEvents :
    ∃ states, (∃ n, ∀ fuel, n ≤ fuel →
      (Controller.create (.operation .chain [] [.implication [] (.formula 0)
        (.formula 1), .formula 2])).ingestAll outcomeFn fuel
          [fun p => if p = 0 then .exception else .success, fun _ => .success] =
        some states) ∧ states.map RxState.ran = [[0, 2], [0, 1, 2]] := by
  refine (rx_backend_runs _ (by simp [HasOperands, AllHaveOperands]) _).imp
    fun states ⟨hn, hstates⟩ => ⟨hn, ?_⟩
  rcases hstates with _ | ⟨h₁, _ | ⟨h₂, _ | _⟩⟩
  rw [List.map_cons, List.map_cons, h₁.1, h₂.1]
  rfl

end WazAISentinel.Bk
