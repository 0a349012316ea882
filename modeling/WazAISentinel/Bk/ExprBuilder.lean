import Mathlib.Order.Nat
import WazAISentinel.Base.Expression
import WazAISentinel.Foundations.PushNetwork

/-!
# The reactive backend

`ExprBuilder::recBuild` (`bk/src/rx/exprBuilder.hpp`) and the controller that feeds events into what
it builds. The functions given to `map` and `filter` are the stages of an observable; they share the
result of the event and the flags of the implications. `publish().ref_count()` makes a subject,
which subscribes to its source with its first subscriber. Traces and the texts of failures are left
out.

`Built net n m e k k'` says what the network for an expression `e` looks like when the building is
over: its subjects and conditions have the numbers from `n` to `m`, and where the output is
subscribed by `k`, the input is subscribed by `k'`. An operation has one subject with two
subscribers: first the operands in a row, then whoever subscribed to its output.
-/

namespace WazAISentinel.Bk

open Base (Expression OperationType)
open Foundations

variable {π σ ε : Type}

/-- `base::result::Result`. -/
structure Result (σ : Type) where
  payload : σ
  success : Bool

/-- What is given to `map` and `filter`, over the terms `π`. -/
inductive RxStage (π : Type) where
  /-- `map`: the function of a term. -/
  | term (p : π)
  /-- `map`: `setStatus(true)`. -/
  | succeed
  /-- `map`: `setStatus(*condition)`. -/
  | status (condition : Nat)
  /-- `filter`: `success()`. -/
  | success
  /-- `filter`: `failure()`. -/
  | failure
  /-- `filter`: `success()`, which is also put into the condition. -/
  | condition (condition : Nat)
  /-- The subscriber of the output. -/
  | endCallback
  deriving DecidableEq

/-- The result of the event, the conditions, the terms that were run and the statuses with which the
output was reached. -/
structure RxState (π σ : Type) where
  result : Result σ
  conditions : Nat → Bool
  ran : List π
  ended : List Bool

/-- The function of a term: a term that throws has failed. -/
def runTerm (fn : π → σ → Except ε (Result σ)) (p : π) (payload : σ) : Result σ :=
  match fn p payload with
  | .ok result => result
  | .error _ => ⟨payload, false⟩

/-- What a stage does with a result, and whether it passes it on. -/
def rxStep (fn : π → σ → Except ε (Result σ)) : RxStage π → RxState π σ → RxState π σ × Bool
  | .term p, s => ({ s with result := runTerm fn p s.result.payload, ran := s.ran ++ [p] }, true)
  | .succeed, s => ({ s with result := ⟨s.result.payload, true⟩ }, true)
  | .status i, s => ({ s with result := ⟨s.result.payload, s.conditions i⟩ }, true)
  | .success, s => (s, s.result.success)
  | .failure, s => (s, !s.result.success)
  | .condition i, s =>
    ({ s with conditions := Function.update s.conditions i s.result.success }, s.result.success)
  | .endCallback, s => ({ s with ended := s.ended ++ [s.result.success] }, true)

/-! ## Building -/

/-- The network and the next number for a subject or a condition. -/
structure Building (π : Type) where
  network : Network (RxStage π)
  next : Nat

namespace Building

/-- `input.publish().ref_count()`. -/
def publish (b : Building π) (input : Observable (RxStage π)) :
    Observable (RxStage π) × Building π :=
  (.shared b.next input, { b with next := b.next + 1 })

/-- `std::make_shared<bool>(false)`. -/
def newCondition (b : Building π) : Nat × Building π := (b.next, { b with next := b.next + 1 })

/-- `observable.subscribe()`. -/
def subscribe (b : Building π) (o : Observable (RxStage π)) (k : Subscriber (RxStage π)) :
    Building π :=
  { b with network := b.network.subscribe o k }

end Building

/-- The filter behind each operand. -/
def operandFilter : OperationType → Option (RxStage π)
  | .and => some .success
  | .or => some .failure
  | .chain => none
  | .broadcast => none

/-- The filter, if there is one. -/
def withFilter (filter : Option (RxStage π)) (o : Observable (RxStage π)) :
    Observable (RxStage π) :=
  match filter with
  | none => o
  | some f => .stage f o

/-- What is returned for an operation. -/
def operationOutput (step1 : Observable (RxStage π)) : OperationType → Observable (RxStage π)
  | .and => step1
  | .or => step1
  | .chain => .stage .succeed step1
  | .broadcast => .stage .succeed step1

mutual

/-- `recBuild`. -/
def recBuild : Expression π → Observable (RxStage π) → Building π →
    Observable (RxStage π) × Building π
  | .formula p, input, b => (.stage (.term p) input, b)
  | .operation type _ operands, input, b =>
    let (step1, b) := b.publish input
    let (step2, b) := buildOperands (operandFilter type) operands step1 b
    (operationOutput step1 type, b.subscribe step2 .ignore)
  | .implication _ left right, input, b =>
    let (step, b) := b.publish input
    let (condition, b) := b.newCondition
    let (output, b) := recBuild left step b
    let (output, b) := recBuild right (.stage (.condition condition) output) b
    (.stage (.status condition) step, b.subscribe output .ignore)

/-- The loop over the operands. -/
def buildOperands (filter : Option (RxStage π)) :
    List (Expression π) → Observable (RxStage π) → Building π → Observable (RxStage π) × Building π
  | [], step2, b => (step2, b)
  | operand :: operands, step2, b =>
    let (output, b) := recBuild operand step2 b
    buildOperands filter operands (withFilter filter output) b

end

/-! ## The controller -/

/-- The input of the policy is the subject 0. -/
structure Controller (π : Type) where
  network : Network (RxStage π)
  conditions : Nat → Bool

/-- The constructor of the controller. -/
def Controller.create (expression : Expression π) : Controller π :=
  let (policyOutput, b) := recBuild expression (.subject 0) ⟨fun _ => [], 1⟩
  ⟨(b.subscribe policyOutput (Subscriber.ignore.behind .endCallback)).network, fun _ => false⟩

/-- `ingest`. -/
def Controller.ingest (fn : π → σ → Except ε (Result σ)) (fuel : Nat) (controller : Controller π)
    (event : σ) : Option (RxState π σ) :=
  emit (rxStep fn) controller.network fuel 0 ⟨⟨event, true⟩, controller.conditions, [], []⟩

/-- Events one after the other. Only the conditions stay. -/
def Controller.ingestAll (fn : π → σ → Except ε (Result σ)) (fuel : Nat) : Controller π → List σ →
    Option (List (RxState π σ))
  | _, [] => some []
  | controller, event :: events =>
    (controller.ingest fn fuel event).bind fun s =>
      (ingestAll fn fuel { controller with conditions := s.conditions } events).map (s :: ·)

/-! ## The finished network -/

/-- What the subscriber of an operation's output is for its subject. -/
def outputSubscriber (k : Subscriber (RxStage π)) : OperationType → Subscriber (RxStage π)
  | .and => k
  | .or => k
  | .chain => k.behind .succeed
  | .broadcast => k.behind .succeed

/-- What a subscriber behind a filter is for what is before the filter. -/
def filterSubscriber (filter : Option (RxStage π)) (k : Subscriber (RxStage π)) :
    Subscriber (RxStage π) :=
  match filter with
  | none => k
  | some f => k.behind f

mutual

/-- The network has the stages of an expression, at the subjects from `n` to `m`. -/
inductive Built (net : Network (RxStage π)) :
    Nat → Nat → Expression π → Subscriber (RxStage π) → Subscriber (RxStage π) → Prop
  | formula {n : Nat} {p : π} {k : Subscriber (RxStage π)} : Built net n n (.formula p) k
      (k.behind (.term p))
  | operation {n m : Nat} {type : OperationType} {name : List String}
      {operands : List (Expression π)}
      {k row : Subscriber (RxStage π)}
        (hrow : BuiltAll net (operandFilter type) (n + 1) m operands .ignore row)
      (hnet : net n = [row, outputSubscriber k type]) :
        Built net n m (.operation type name operands) k (.into n)
  | implication {n l m : Nat} {name : List String} {left right : Expression π}
      {k kleft kright : Subscriber (RxStage π)}
      (hleft : Built net (n + 2) l left (kright.behind (.condition (n + 1))) kleft)
        (hright : Built net l m right .ignore kright)
      (hnet : net n = [kleft, k.behind (.status (n + 1))]) :
        Built net n m (.implication name left right) k (.into n)

/-- The operands in a row, with a filter behind each. -/
inductive BuiltAll (net : Network (RxStage π)) :
    Option (RxStage π) → Nat → Nat → List (Expression π) → Subscriber (RxStage π) →
      Subscriber (RxStage π) → Prop
  | nil {filter : Option (RxStage π)} {n : Nat}
      {k : Subscriber (RxStage π)} : BuiltAll net filter n n [] k k
  | cons {filter : Option (RxStage π)} {n l m : Nat} {e : Expression π} {es : List (Expression π)}
      {k khead krest : Subscriber (RxStage π)}
        (hhead : Built net n l e (filterSubscriber filter krest) khead)
      (hrest : BuiltAll net filter l m es k krest) : BuiltAll net filter n m (e :: es) k khead

end

/-! ## The part that is finished stays -/

section Congr

variable {net net' : Network (RxStage π)}

mutual

theorem Built.le :
    ∀ {e : Expression π} {n m : Nat} {k k' : Subscriber (RxStage π)}, Built net n m e k k' → n ≤ m
  | .formula _, _, _, _, _, .formula => le_rfl
  | .operation _ _ _, _, _, _, _, .operation hrow _ => (Nat.le_succ _).trans hrow.le
  | .implication _ _ _, _, _, _, _, .implication hleft hright _ =>
    (Nat.le_add_right _ 2).trans (hleft.le.trans hright.le)

theorem BuiltAll.le : ∀ {es : List (Expression π)} {filter : Option (RxStage π)} {n m : Nat}
    {k k' : Subscriber (RxStage π)}, BuiltAll net filter n m es k k' → n ≤ m
  | [], _, _, _, _, _, .nil => le_rfl
  | _ :: _, _, _, _, _, _, .cons hhead hrest => hhead.le.trans hrest.le

end

mutual

theorem Built.congr : ∀ {e : Expression π} {n m : Nat} {k k' : Subscriber (RxStage π)},
    Built net n m e k k' → (∀ j, n ≤ j → j < m → net j = net' j) → Built net' n m e k k'
  | .formula _, _, _, _, _, .formula, _ => .formula
  | .operation _ _ _, n, m, _, _, .operation hrow hnet, h => by
      refine .operation (hrow.congr fun j hj hj' => h j (by omega) hj') ?_
      rw [← h n le_rfl hrow.le]
      exact hnet
  | .implication _ _ _, n, m, _, _, .implication hleft hright hnet, h => by
      have hle := hleft.le
      have hle' := hright.le
      refine .implication (hleft.congr fun j hj hj' => h j (by omega) (by omega))
        (hright.congr fun j hj hj' => h j (by omega) hj') ?_
      rw [← h n le_rfl (by omega)]
      exact hnet

theorem BuiltAll.congr : ∀ {es : List (Expression π)} {filter : Option (RxStage π)} {n m : Nat}
    {k k' : Subscriber (RxStage π)}, BuiltAll net filter n m es k k' →
      (∀ j, n ≤ j → j < m → net j = net' j) →
    BuiltAll net' filter n m es k k'
  | [], _, _, _, _, _, .nil, _ => .nil
  | _ :: _, _, n, m, _, _, .cons hhead hrest, h => by
      have hle := hhead.le
      have hle' := hrest.le
      exact .cons (hhead.congr fun j hj hj' => h j hj (by omega))
        (hrest.congr fun j hj hj' => h j (by omega) hj')

end

end Congr

/-! ## What is built -/

/-- Nothing has subscribed to subjects that are not made yet. -/
def Building.Fresh (b : Building π) : Prop := ∀ j, b.next ≤ j → b.network j = []

theorem subscribe_operationOutput (net : Network (RxStage π)) (o : Observable (RxStage π))
    (k : Subscriber (RxStage π)) (type : OperationType) :
    net.subscribe (operationOutput o type) k = net.subscribe o (outputSubscriber k type) := by
  cases type with
  | and => rfl
  | or => rfl
  | chain => rfl
  | broadcast => rfl

variable {n : Nat} {o input : Observable (RxStage π)} {b : Building π}
  {row : Subscriber (RxStage π)} {net : Network (RxStage π)}

theorem below_operationOutput (h : o.Below n) (type : OperationType) :
    (operationOutput o type).Below n := by
  cases type with
  | and | or | chain | broadcast => exact h

theorem subscribe_withFilter (filter : Option (RxStage π)) (k : Subscriber (RxStage π)) :
    net.subscribe (withFilter filter o) k = net.subscribe o (filterSubscriber filter k) := by
  cases filter with
  | none => rfl
  | some f => rfl

theorem below_withFilter (h : o.Below n) (filter : Option (RxStage π)) :
    (withFilter filter o).Below n := by
  cases filter with
  | none => exact h
  | some f => exact h

/-- What the building of an expression, or of some of them, has done: `output` is what was returned
for `input`. -/
structure Extends (b b' : Building π) (input output : Observable (RxStage π))
    (Finished : Network (RxStage π) → Subscriber (RxStage π) → Subscriber (RxStage π) → Prop) :
      Prop where
  le : b.next ≤ b'.next
  below : output.Below b'.next
  fresh : b'.Fresh
  /-- Once the output is subscribed, the new part is finished and the input has been subscribed. -/
  finished : ∀ k, ∃ k', (b'.network.subscribe output k).AgreeBelow b.next
    (b.network.subscribe input k') ∧ Finished (b'.network.subscribe output k) k k'

/-- The subject of an operation, after its row has been built and subscribed, and before its output
is. -/
theorem Extends.shared {b' : Building π} {output : Observable (RxStage π)}
    {Finished : Network (RxStage π) → Subscriber (RxStage π) → Subscriber (RxStage π) → Prop}
    (h : Extends { b with next := n } b' (.shared b.next input) output Finished) (hn : b.next < n)
    (hinput : input.Below b.next) (hfresh : b.Fresh) :
    ∃ row, Finished (b'.network.subscribe output .ignore) .ignore row ∧ b'.network.subscribe output
      .ignore b.next = [row] ∧ (b'.network.subscribe output .ignore).AgreeBelow b.next
      (b.network.subscribe input (.into b.next)) := by
  obtain ⟨row, hagree, hfinished⟩ := h.finished .ignore
  -- the row is the first subscriber of the subject, which then subscribes to the input
  have hfirst : b.network.subscribe (.shared b.next input) row =
      (b.network.add b.next row).subscribe input (.into b.next) := by
    rw [Network.subscribe, if_pos (hfresh b.next le_rfl)]
  refine ⟨row, hfinished, ?_, fun j hj => ?_⟩
  · rw [hagree b.next hn, hfirst, Network.subscribe_of_le hinput _ _ le_rfl, Network.add_self,
      hfresh b.next le_rfl]
    rfl
  · rw [hagree j (hj.trans hn), hfirst]
    have hbefore : (b.network.add b.next row).AgreeBelow b.next b.network :=
      fun i hi => Network.add_of_ne (ne_of_lt hi) row
    exact hbefore.subscribe hinput _ j hj

/-- The right operand of an implication behind the left one. -/
theorem Extends.implication {bl br : Building π} {l r : Observable (RxStage π)}
    {left right : Expression π} {c : Nat}
    (hleft : Extends b bl input l fun net k k' => Built net b.next bl.next left k k')
    (hright : Extends bl br (.stage (.condition c) l) r fun net k k' => Built net bl.next br.next
    right k k') :
    Extends b br input r fun net k k' =>
      ∃ kright, Built net bl.next br.next right k kright ∧
        Built net b.next bl.next left (kright.behind (.condition c)) k' := by
  refine ⟨hleft.le.trans hright.le, hright.below, hright.fresh, fun k => ?_⟩
  obtain ⟨kright, hagree, hbuilt⟩ := hright.finished k
  obtain ⟨kleft, hagree', hbuilt'⟩ := hleft.finished (kright.behind (.condition c))
  refine ⟨kleft, (hagree.mono hleft.le).trans hagree', kright, hbuilt,
    hbuilt'.congr fun j _ hj => ?_⟩
  exact (hagree j hj).symm

/-- The subscription of the output of an operation adds to its subject, and to no other one. -/
theorem subscribe_shared (h : net n = [row]) (input : Observable (RxStage π))
    (k : Subscriber (RxStage π)) :
    net.subscribe (.shared n input) k n = [row, k] ∧ ∀ j, j ≠ n →
      net j = net.subscribe (.shared n input) k j := by
  rw [Network.subscribe, h, if_neg (List.cons_ne_nil row [])]
  refine ⟨?_, fun j hj => (Network.add_of_ne hj k).symm⟩
  rw [Network.add_self, h]
  rfl

theorem Building.Fresh.subscribe (h : b.Fresh) (ho : o.Below b.next) (k : Subscriber (RxStage π)) :
    (b.subscribe o k).Fresh := by
  intro j hj
  change b.network.subscribe o k j = []
  rw [Network.subscribe_of_le ho k _ hj]
  exact h j hj

mutual

theorem recBuild_extends : ∀ (e : Expression π) (input : Observable (RxStage π)) (b : Building π),
    input.Below b.next → b.Fresh →
    Extends b (recBuild e input b).2 input (recBuild e input b).1
      fun net k k' => Built net b.next (recBuild e input b).2.next e k k'
  | .formula p, input, b, hinput, hfresh => by
      rw [recBuild]
      exact ⟨le_rfl, hinput, hfresh, fun k => ⟨k.behind (.term p), fun _ _ => rfl, .formula⟩⟩
  | .operation type name operands, input, b, hinput, hfresh => by
      have hrow := buildOperands_extends (operandFilter type) operands (.shared b.next input)
        { b with next := b.next + 1 }
        ⟨Nat.lt_succ_self _, hinput.mono (Nat.le_succ _)⟩ fun j hj =>
          hfresh j (Nat.le_of_succ_le hj)
      rw [recBuild]
      dsimp only [Building.publish]
      revert hrow
      generalize buildOperands (operandFilter type) operands (.shared b.next input)
        { b with next := b.next + 1 } = r
      intro hrow
      obtain ⟨row, hbuilt, hnet, hagree⟩ := hrow.shared (Nat.lt_succ_self _) hinput hfresh
      have hle : b.next + 1 ≤ r.2.next := hrow.le
      have hbelow : (Observable.shared b.next input).Below r.2.next :=
        ⟨hle, hinput.mono (Nat.le_of_succ_le hle)⟩
      refine ⟨Nat.le_of_succ_le hle, below_operationOutput hbelow type,
        hrow.fresh.subscribe hrow.below _, fun k => ⟨.into b.next, ?_⟩⟩
      · obtain ⟨hsubject, hothers⟩ := subscribe_shared hnet input (outputSubscriber k type)
        change (Network.AgreeBelow _ ((r.2.network.subscribe r.1 .ignore).subscribe _ k) _) ∧
          Built ((r.2.network.subscribe r.1 .ignore).subscribe _ k) _ _ _ _ _
        rw [subscribe_operationOutput]
        refine ⟨fun j hj => ?_,
          .operation (hbuilt.congr fun j hj _ => hothers j (Nat.ne_of_gt hj)) hsubject⟩
        rw [← hothers j (ne_of_lt hj), hagree j hj]
  | .implication name left right, input, b, hinput, hfresh => by
      have hleft := recBuild_extends left (.shared b.next input) { b with next := b.next + 2 }
        ⟨Nat.lt_add_of_pos_right (Nat.succ_pos 1), hinput.mono (Nat.le_add_right _ 2)⟩
        fun j hj => hfresh j ((Nat.le_add_right _ 2).trans hj)
      have hright := recBuild_extends right
        (.stage (.condition (b.next + 1))
          (recBuild left (.shared b.next input) { b with next := b.next + 2 }).1)
        (recBuild left (.shared b.next input) { b with next := b.next + 2 }).2
          hleft.below hleft.fresh
      rw [recBuild]
      dsimp only [Building.publish, Building.newCondition]
      revert hright
      generalize recBuild right _ _ = r
      revert hleft
      generalize recBuild left _ _ = l
      intro hleft hright
      have hboth := hleft.implication hright
      obtain ⟨kleft, ⟨kright, hbuilt, hbuilt'⟩, hnet, hagree⟩ :=
        hboth.shared (Nat.lt_add_of_pos_right (Nat.succ_pos 1)) hinput hfresh
      have hle : b.next + 2 ≤ r.2.next := hboth.le
      have hbelow : (Observable.shared b.next input).Below r.2.next :=
        ⟨Nat.lt_of_succ_lt hle, hinput.mono ((Nat.le_add_right _ 2).trans hle)⟩
      refine ⟨(Nat.le_add_right _ 2).trans hle, hbelow, hboth.fresh.subscribe hboth.below _,
        fun k => ⟨.into b.next, ?_⟩⟩
      obtain ⟨hsubject, hothers⟩ := subscribe_shared hnet input (k.behind (.status (b.next + 1)))
      change (Network.AgreeBelow _
          ((r.2.network.subscribe r.1 .ignore).subscribe (.shared b.next input) (k.behind _)) _) ∧
        Built ((r.2.network.subscribe r.1 .ignore).subscribe (.shared b.next input) (k.behind _)) _
          _ _ _ _
      have hle' : b.next + 2 ≤ l.2.next := hbuilt'.le
      refine ⟨fun j hj => ?_, .implication (hbuilt'.congr fun j (hj : b.next + 2 ≤ j) _ => hothers j
        (by omega)) (hbuilt.congr fun j hj _ => hothers j (by omega)) hsubject⟩
      rw [← hothers j (ne_of_lt hj), hagree j hj]

theorem buildOperands_extends (filter : Option (RxStage π)) :
    ∀ (es : List (Expression π)) (input : Observable (RxStage π))
    (b : Building π), input.Below b.next → b.Fresh →
    Extends b (buildOperands filter es input b).2 input (buildOperands filter es input b).1
      fun net k k' => BuiltAll net filter b.next (buildOperands filter es input b).2.next es k k'
  | [], input, b, hinput, hfresh => ⟨le_rfl, hinput, hfresh, fun k => ⟨k, fun _ _ => rfl, .nil⟩⟩
  | e :: es, input, b, hinput, hfresh => by
      have hhead := recBuild_extends e input b hinput hfresh
      have hrest := buildOperands_extends filter es (withFilter filter (recBuild e input b).1)
        (recBuild e input b).2 (below_withFilter hhead.below filter) hhead.fresh
      rw [buildOperands]
      refine ⟨hhead.le.trans hrest.le, hrest.below, hrest.fresh, fun k => ?_⟩
      obtain ⟨krest, hagree, hbuilt⟩ := hrest.finished k
      rw [subscribe_withFilter] at hagree
      obtain ⟨khead, hagree', hbuilt'⟩ := hhead.finished (filterSubscriber filter krest)
      refine ⟨khead, (hagree.mono hhead.le).trans hagree',
        .cons (hbuilt'.congr fun j _ hj => ?_) hbuilt⟩
      exact (hagree j hj).symm

end

end WazAISentinel.Bk
