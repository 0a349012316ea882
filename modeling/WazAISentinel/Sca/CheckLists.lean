import Mathlib.Data.List.DropRight
import Mathlib.Data.List.Flatten

/-!
# The lists of a check in the database

`NormalizeData` (`sca_policy_loader.cpp`) stores the lists of a check as the JSON text that `dump`
gives, and `NormalizeCheck` (`sca_event_handler.cpp`) cuts that text at its commas without parsing
it. The bracket in front of the text is therefore still there, and no list comes back as it was. Of
the JSON library's `dump` only that the text of a list has all opening brackets of its strings and
one more is used.
-/

namespace WazAISentinel.Sca

open List

/-- The values of the fields below: a string or a list of strings. -/
inductive Value where
  | string (s : List Char)
  | strings (l : List (List Char))
  deriving DecidableEq, Repr

/-- The fields of a check that are renamed or rewritten on their way. -/
structure Check where
  title : Option Value
  name : Option Value
  references : Option Value
  refs : Option Value
  rules : Option Value
  compliance : Option Value
  policyId : Option Value
  deriving DecidableEq, Repr

/-! ## Storing -/

/-- The check with the rules for which there is an evaluator. -/
def checkWithValidRules (valid : List Char → Bool) (policyId : List Char) (check : Check) : Check :=
  { check with
    rules :=
      match check.rules with
      | some (.strings l) => some (.strings (l.filter valid))
      | _ => some (.strings [])
    policyId := some (.string policyId) }

variable (dump : Value → List Char)

/-- The lists of a check as texts, and two of its fields under other names. -/
def normalizeData (entry : Check) : Check :=
  { entry with
    refs := (entry.references.map fun v => .string (dump v)).or entry.refs
    references := none
    name := entry.title.or entry.name
    title := none
    rules := entry.rules.map fun v => .string (dump v)
    compliance := entry.compliance.map fun v => .string (dump v) }

/-! ## Reading back -/

/-- The tokens of `getline`: nothing is behind a delimiter at the end. -/
def getlines (delim : Char) : List Char → List (List Char)
  | [] => []
  | c :: text =>
    if c = delim then [] :: getlines delim text
    else
      match getlines delim text with
      | [] => [[c]]
      | token :: tokens => (c :: token) :: tokens

/-- What `trim` removes at both ends. -/
def isBlank (c : Char) : Bool := c = ' ' ∨ c = '\t'

variable (s : List Char)

/-- The text without the blanks at its ends. -/
def trim : List Char := (s.rdropWhile isBlank).dropWhile isBlank

/-- The parts of a text between its commas, trimmed, without the empty ones. -/
def stringToJsonArray (input : List Char) : List (List Char) :=
  ((getlines ',' input).map trim).filter fun token => token ≠ []

/-- A text becomes a list, everything else stays as it is. -/
def toArray : Option Value → Option Value
  | some (.string s) => some (.strings (stringToJsonArray s))
  | v => v

/-- The check as the event has it: the texts as lists, `refs` under its former name. -/
def normalizeCheck (check : Check) : Check :=
  { check with
    references :=
      match check.refs with
      | some (.string s) => some (.strings (stringToJsonArray s))
      | _ => check.references
    refs :=
      match check.refs with
      | some (.string _) => none
      | v => v
    compliance := toArray check.compliance
    rules := toArray check.rules
    policyId := none }

/-- The check of the stateful event for a check of a policy file. -/
def eventCheck (valid : List Char → Bool) (policyId : List Char) (check : Check) : Check :=
  normalizeCheck (normalizeData dump (checkWithValidRules valid policyId check))

/-! ## The brackets of a text -/

/-- The delimiters that `getline` drops are not brackets. -/
theorem count_getlines (text : List Char) :
    count '[' (getlines ',' text).flatten = count '[' text := by
  induction text with
  | nil => rfl
  | cons c text ih =>
    rw [getlines]
    split_ifs with hc
    · rw [hc, flatten_cons, nil_append, ih, count_cons_of_ne (by decide)]
    · rw [count_cons, ← ih]
      cases getlines ',' text with
      | nil => rw [flatten_singleton, count_cons, flatten_nil]
      | cons token tokens => rw [flatten_cons, flatten_cons, cons_append, count_cons]

theorem count_dropWhile_isBlank :
    count '[' (s.dropWhile isBlank) = count '[' s := by
  induction s with
  | nil => rfl
  | cons c s ih =>
    rw [dropWhile_cons]
    split_ifs with hc
    · rw [ih, count_cons_of_ne]
      rintro rfl
      exact absurd hc (by decide)
    · rfl

/-- Blanks are not brackets. -/
theorem count_trim : count '[' (trim s) = count '[' s := by
  rw [trim, count_dropWhile_isBlank, rdropWhile, count_reverse, count_dropWhile_isBlank,
    count_reverse]

/-- Cutting a text up loses none of its brackets. -/
theorem count_stringToJsonArray (text : List Char) :
    count '[' (stringToJsonArray text).flatten = count '[' text := by
  rw [stringToJsonArray, flatten_filter_ne_nil, ← count_getlines text]
  induction getlines ',' text with
  | nil => rfl
  | cons token tokens ih =>
    rw [map_cons, flatten_cons, flatten_cons, count_append, count_append, count_trim, ih]

/-- For no check do both lists of the event equal those of the policy file: the references that are
read back have a bracket more. -/
theorem lists_do_not_survive (hdump : ∀ l, count '[' l.flatten < count '[' (dump (.strings l)))
    (valid : List Char → Bool) (policyId : List Char) (check : Check)
    (rules references : List (List Char)) :
    ¬ let event := eventCheck dump valid policyId
        { check with rules := some (.strings rules), references := some (.strings references) }
      event.rules = some (.strings rules) ∧ event.references = some (.strings references) := by
  rintro ⟨-, h⟩
  have hread : stringToJsonArray (dump (.strings references)) = references :=
    Value.strings.inj (Option.some.inj h)
  have hcount := count_stringToJsonArray (dump (.strings references))
  rw [hread] at hcount
  exact absurd hcount (hdump references).ne

/-! ## Strings without escapes -/

/-- The JSON text of a string in which nothing is escaped. -/
def plainString : List Char := '"' :: (s ++ ['"'])

/-- The JSON text of a value in whose strings nothing is escaped. -/
def plainText : Value → List Char
  | .string s => plainString s
  | .strings l => '[' :: ([','].intercalate (l.map plainString) ++ [']'])

theorem count_plainString : count '[' (plainString s) = count '[' s := by
  simp [plainString]

/-- Neither quotes nor commas are brackets. -/
theorem count_intercalate : (l : List (List Char)) →
    count '[' ([','].intercalate (l.map plainString)) = count '[' l.flatten
  | [] => rfl
  | [s] => by simp [count_plainString]
  | s :: t :: l => by
    rw [map_cons, map_cons, intercalate_cons_cons, ← map_cons, flatten_cons, count_append,
      count_append, count_append, count_plainString, count_intercalate (t :: l)]
    rfl

/-- The list has one bracket more. -/
theorem count_lt_plainText (l : List (List Char)) :
    count '[' l.flatten < count '[' (plainText (.strings l)) := by
  rw [plainText, count_cons_self, count_append, count_intercalate]
  omega

/-- Both lists of two strings come back with brackets and quotes. -/
theorem lists_with_brackets :
    eventCheck plainText (fun _ => true) ['p']
      ⟨none, none, some (.strings [['a'], ['b']]), none, some (.strings [['a'], ['b']]),
        none, none⟩ =
    ⟨none, none, some (.strings [['[', '"', 'a', '"'], ['"', 'b', '"', ']']]), none,
      some (.strings [['[', '"', 'a', '"'], ['"', 'b', '"', ']']]), none, none⟩ := by
  decide

/-- The same two lists are not those of the event. -/
theorem lists_do_not_survive_plain :
    ¬ let event := eventCheck plainText (fun _ => true) ['p']
        ⟨none, none, some (.strings [['a'], ['b']]), none,
          some (.strings [['a'], ['b']]), none, none⟩
      event.rules = some (.strings [['a'], ['b']]) ∧
        event.references = some (.strings [['a'], ['b']]) :=
  lists_do_not_survive plainText count_lt_plainText (fun _ => true) ['p']
    ⟨none, none, none, none, none, none, none⟩ [['a'], ['b']] [['a'], ['b']]

end WazAISentinel.Sca
