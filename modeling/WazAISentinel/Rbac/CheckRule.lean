import Mathlib.Data.List.Count
import Mathlib.Data.Rat.Init

/-!
# Rules of roles

`RBAChecker.check_rule` decides whether the rule of a role matches an authorization context. A
logical operator compares the number of its satisfied clauses with the length of its value, which
for a list is the number of clauses. For an object it is the number of keys, while the object counts
as one clause at most: with two keys or more `AND` is never satisfied and `NOT` always is, and an
empty object satisfies `AND` and not `NOT`.
-/

namespace WazAISentinel.Rbac

/-- What `json.loads` returns. -/
inductive Json where
  | none
  | bool (b : Bool)
  | num (q : Rat)
  | str (s : String)
  | list (l : List Json)
  | dict (d : List (String × Json))

/-- The exceptions that a malformed rule can raise. -/
inductive PyError where
  | typeError
  | attributeError

def Json.len : Json → Except PyError Nat
  | .str s => .ok s.length
  | .list l => .ok l.length
  | .dict d => .ok d.length
  | .none | .bool _ | .num _ => .error .typeError

def logicalOperators : List String := ["AND", "OR", "NOT"]

def functions : List String := ["MATCH", "MATCH$", "FIND", "FIND$"]

def checkLogicOperation (ruleKey : String) (ruleValue : Json) (validatorCounter : Nat) :
  Except PyError (Option Bool) := do
  if ruleKey = "AND" then
    return if validatorCounter = (← ruleValue.len) then some true else none
  else if ruleKey = "OR" then
    return if validatorCounter > 0 then some true else none
  else if ruleKey = "NOT" then
    return some (if validatorCounter = (← ruleValue.len) then false else true)
  else
    return none

section

--  `match_item` or `find_item` of a chunk under a mode, with the authorization context of the
-- checker
variable (item : String → Json → Except PyError Bool)

mutual

/-- The results `True` and `1` are both `true`: they are the same number in a sum. -/
def checkRule : Json → Except PyError Bool
  | .dict rule => checkItems rule
  | _ => .error .attributeError

/-- The loop over the keys of a rule. -/
def checkItems : List (String × Json) → Except PyError Bool
  | [] => .ok false
  | (ruleKey, ruleValue) :: rest =>
    if ruleKey ∈ logicalOperators then do
      let validatorCounter ← match ruleValue with
        | .list l => countRules l
        | .dict d => Bool.toNat <$> checkItems d
        | _ => .ok 0
      match ← checkLogicOperation ruleKey ruleValue validatorCounter with
      | some result => .ok result
      | none => checkItems rest
    else if ruleKey ∈ functions then do
      if ← item ruleKey ruleValue then .ok true else checkItems rest
    else checkItems rest

/-- The sum of `check_rule` over the elements of a list. -/
def countRules : List Json → Except PyError Nat
  | [] => .ok 0
  | element :: l => do
    let result ← checkRule element
    let counter ← countRules l
    return result.toNat + counter

end

/-- The counter of a list is the number of satisfied clauses, unless one of them raises an
exception. -/
theorem countRules_spec (l : List Json) :
    (∃ e, l.mapM (checkRule item) = .error e ∧ countRules item l = .error e) ∨
      ∃ results, l.mapM (checkRule item) = .ok results ∧ results.length = l.length ∧
        countRules item l = .ok (results.count true) := by
  induction l with
  | nil => exact .inr ⟨[], rfl, rfl, rfl⟩
  | cons element l ih =>
    rw [List.mapM_cons, countRules]
    cases checkRule item element with
    | error e => exact .inl ⟨e, rfl, rfl⟩
    | ok result =>
      obtain ⟨e, hmap, hcount⟩ | ⟨results, hmap, hlength, hcount⟩ := ih
      · rw [hmap, hcount]
        exact .inl ⟨e, rfl, rfl⟩
      · rw [hmap, hcount]
        refine .inr ⟨result :: results, rfl, congrArg (· + 1) hlength, ?_⟩
        cases result <;> simp [bind, Except.bind, pure, Except.pure, Nat.add_comm]

/-- A rule with one operator is satisfied exactly if `check_logic_operation` returns `True`. -/
theorem checkRule_operator {ruleKey : String} (hkey : ruleKey ∈ logicalOperators)
    (d : List (String × Json)) (l : List Json) :
    (checkRule item (.dict [(ruleKey, .dict d)]) =
        checkRule item (.dict d) >>= fun b =>
          (·.getD false) <$> checkLogicOperation ruleKey (.dict d) b.toNat) ∧
      checkRule item (.dict [(ruleKey, .list l)]) =
        countRules item l >>= fun n =>
          (·.getD false) <$> checkLogicOperation ruleKey (.list l) n := by
  have hresult : ∀ r : Except PyError (Option Bool),
      (r >>= fun | some result => .ok result | none => .ok false) = (·.getD false) <$> r := by
    rintro (e | _ | result) <;> rfl
  simp only [checkRule, checkItems, if_pos hkey, hresult]
  exact ⟨by cases checkItems item d <;> rfl, trivial⟩

/-- On a list of clauses the operators are Boolean; on an object exactly if it has one key, or
several and is not satisfied. -/
theorem checkRule_operators_iff (d : List (String × Json)) (l : List Json) :
    (checkRule item (.dict [("NOT", .dict d)]) = not <$> checkRule item (.dict d) ↔
        d.length = 1 ∨ 2 ≤ d.length ∧ checkRule item (.dict d) ≠ .ok true) ∧
      (checkRule item (.dict [("AND", .dict d)]) = checkRule item (.dict d) ↔
        d.length = 1 ∨ 2 ≤ d.length ∧ checkRule item (.dict d) ≠ .ok true) ∧
      checkRule item (.dict [("AND", .list l)]) = (·.all id) <$> l.mapM (checkRule item) ∧
      checkRule item (.dict [("OR", .list l)]) = (·.any id) <$> l.mapM (checkRule item) ∧
      checkRule item (.dict [("NOT", .list l)]) = (!·.all id) <$> l.mapM (checkRule item) := by
  have hnot := checkRule_operator item (show "NOT" ∈ logicalOperators by decide) d l
  have hand := checkRule_operator item (show "AND" ∈ logicalOperators by decide) d l
  have hor := checkRule_operator item (show "OR" ∈ logicalOperators by decide) d l
  rw [hnot.1, hand.1, hnot.2, hand.2, hor.2, ← and_assoc]
  constructor
  · cases hd : checkRule item (.dict d) with
    | error e =>
      have hpos : 0 < d.length := List.length_pos_iff.2 fun h => by cases h ▸ hd
      simp [bind, Except.bind]
      omega
    | ok b =>
      cases b
        <;> simp [checkLogicOperation, Json.len, bind, Except.bind, pure, Except.pure] <;> grind
  · obtain ⟨e, hmap, hcount⟩ | ⟨results, hmap, hlength, hcount⟩ := countRules_spec item l
    · rw [hmap, hcount]
      exact ⟨rfl, rfl, rfl⟩
    · have hall : results.count true = results.length ↔ results.all id = true := by
        simp [List.count_eq_length]
      have hany : 0 < results.count true ↔ results.any id = true := by simp
      rw [hmap, hcount]
      simp only [checkLogicOperation, Json.len, bind, Except.bind, pure, Except.pure, Functor.map,
        Except.map, ← hlength, gt_iff_lt, hall, hany, String.reduceEq, if_true, if_false]
      cases results.all id <;> cases results.any id <;> exact ⟨rfl, rfl, rfl⟩

end

/-- An object with two satisfied functions is satisfied, and so is its negation. -/
theorem checkRule_not_two_keys :
    checkRule (fun _ _ => .ok true) (.dict [("MATCH", .str "a"), ("FIND", .str "b")]) = .ok true ∧
      checkRule (fun _ _ => .ok true)
        (.dict [("NOT", .dict [("MATCH", .str "a"), ("FIND", .str "b")])]) = .ok true :=
  ⟨rfl, rfl⟩

end WazAISentinel.Rbac
