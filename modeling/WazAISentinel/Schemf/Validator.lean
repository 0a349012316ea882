import Mathlib.Tactic.Tauto

/-!
# Integers in the schema

`Validator::validate` decides whether an operation may write to a field. A value is checked at once;
an operation with a schema type is looked up in the table of compatible types, which says whether
its value is to be checked when it is written. The table gives fields of the types `BYTE` and
`SHORT` the validator of a byte, and it admits operations of type `SHORT` on fields of type `BYTE`
without a check.
-/

namespace WazAISentinel.Schemf

/-- The types of the schema that hold integers. -/
inductive IntegerType where
  | BYTE | SHORT | INTEGER | LONG
  deriving DecidableEq

def IntegerType.typeToStr : IntegerType → String
  | .BYTE => "byte"
  | .SHORT => "short"
  | .INTEGER => "integer"
  | .LONG => "long"

inductive JsonType where
  | Null | Object | Array | String | Number | Boolean | Unknow
  deriving DecidableEq

/-- A JSON value, as far as the validators of integers look at it. -/
inductive Json where
  | integer (v : Int)
  | array (items : List Json)
  | other

def Json.typeToStr : JsonType → String
  | .Null => "null"
  | .Object => "object"
  | .Array => "array"
  | .String => "string"
  | .Number => "number"
  | .Boolean => "boolean"
  | .Unknow => "unknown"

def Json.isInt : Json → Bool
  | .integer v => -2147483648 ≤ v ∧ v ≤ 2147483647
  | _ => false

def Json.isInt64 : Json → Bool
  | .integer v => -9223372036854775808 ≤ v ∧ v ≤ 9223372036854775807
  | _ => false

/-- The error a validator returns. -/
abbrev ValueValidator := Json → Option String

def getShortValidator : ValueValidator := fun value =>
  if !value.isInt || !value.isInt64 then some "Value is not an integer"
  else match value with
    | .integer v => if v < -128 ∨ 127 < v then some "Value not in range for byte" else none
    | _ => none

def getIntegerValidator : ValueValidator := fun value =>
  if !value.isInt then some "Value is not an integer" else none

def getLongValidator : ValueValidator := fun value =>
  if !value.isInt64 then some "Value is not a long" else none

def asArray (validator : ValueValidator) : ValueValidator
  | .array items => items.findSome? validator
  | _ => some "Value must be an array"

structure ValidationInfo where
  type : JsonType
  validator : ValueValidator
  compatibles : List (IntegerType × Bool)

/-- The rows of the table for the integer types, and of each row the integer types. -/
def registerCompatibles : IntegerType → ValidationInfo
  | .BYTE => ⟨.Number, getShortValidator, [(.INTEGER, true), (.LONG, true), (.SHORT, false)]⟩
  | .SHORT => ⟨.Number, getShortValidator, [(.INTEGER, true), (.LONG, true), (.BYTE, false)]⟩
  | .INTEGER => ⟨.Number, getIntegerValidator, [(.LONG, true), (.SHORT, false), (.BYTE, false)]⟩
  | .LONG => ⟨.Number, getLongValidator, [(.INTEGER, false), (.SHORT, false), (.BYTE, false)]⟩

/-- What is known of an operation when it is built. -/
inductive Token where
  | base (isArray : Bool)
  | jType (type : JsonType) (isArray : Bool)
  | sType (type : IntegerType) (isArray : Bool)
  | value (value : Json)

def Token.isArray : Token → Bool
  | .base isArray | .jType _ isArray | .sType _ isArray => isArray
  | .value (.array _) => true
  | .value _ => false

structure Field where
  type : IntegerType
  isArray : Bool

/-- The validator of a type, for each item of an array. -/
def ValidationInfo.runtime (entry : ValidationInfo) (isArray : Bool) : ValueValidator :=
  if isArray then asArray entry.validator else entry.validator

/-- An error, or the validator for the values that are written, if one is needed. -/
def validate (schema : String → Option Field) (name : String) (token : Option Token) :
    Except String (Option ValueValidator) :=
  match schema name with
  | none => .ok none
  | some field =>
    let entry := registerCompatibles field.type
    match token with
    | none => .ok (some (entry.runtime field.isArray))
    | some token =>
      if field.isArray ≠ token.isArray then
        .error ("Operation expects " ++ (if token.isArray then "an array" else "a non-array") ++
          ", but field '" ++ name ++ "' is" ++ if field.isArray then "" else " not")
      else match token with
        | .base _ => .ok (some (entry.runtime field.isArray))
        | .jType type isArray =>
          if entry.type ≠ type then
            .error ("Operation expects a JSON type '" ++ Json.typeToStr type ++ "', but field '" ++
              name ++ "' is of JSON type '" ++ Json.typeToStr entry.type ++ "'")
          else .ok (some (entry.runtime isArray))
        | .sType type isArray =>
          if field.type = type then .ok none
          else match entry.compatibles.lookup type with
            | some true => .ok (some (entry.runtime isArray))
            | some false => .ok none
            | none =>
              .error
                ("Operation expects schema type '" ++ type.typeToStr ++ "', but field '" ++ name ++
                "' is of incompatible schema type '" ++ field.type.typeToStr ++ "'")
        | .value value =>
          match entry.runtime token.isArray value with
          | some message => .error ("Field '" ++ name ++ "' value validation failed: " ++ message)
          | none => .ok none

/-! ## What the types represent -/

/-- The first number above the type: 2 to the power of 7, 15, 31 and 63. -/
def IntegerType.bound : IntegerType → Int
  | .BYTE => 128
  | .SHORT => 32768
  | .INTEGER => 2147483648
  | .LONG => 9223372036854775808

/-- The value is a signed integer of 8, 16, 32 or 64 bits. -/
def IntegerType.Represents (type : IntegerType) (v : Int) : Prop := -type.bound ≤ v ∧ v < type.bound

variable {F T : IntegerType} {schema : String → Option Field} {name : String} {isArray : Bool}

theorem bound_le_iff : (∀ v, T.Represents v → F.Represents v) ↔ T.bound ≤ F.bound := by
  have hpos : 0 < T.bound := by cases T <;> decide
  constructor
  · intro h
    have hlast := (h (T.bound - 1) ⟨by omega, by omega⟩).2
    omega
  · intro hle v hv
    exact ⟨Int.le_trans (Int.neg_le_neg hle) hv.1, Int.lt_of_lt_of_le hv.2 hle⟩

/-- The type whose values the validator of a field accepts. -/
def IntegerType.checkedAs : IntegerType → IntegerType
  | .BYTE | .SHORT => .BYTE
  | type => type

theorem validator_eq_none_iff (v : Int) :
    (registerCompatibles F).validator (.integer v) = none ↔ F.checkedAs.Represents v := by
  cases F <;>
    simp [registerCompatibles, getShortValidator, getIntegerValidator, getLongValidator, Json.isInt,
      Json.isInt64,
      IntegerType.checkedAs, IntegerType.Represents, IntegerType.bound, ite_eq_iff] <;> omega

theorem validate_value_iff (h : schema name = some ⟨F, false⟩) (v : Int) :
    (∃ validator, validate schema name (some (.value (.integer v))) = .ok validator) ↔
      F.checkedAs.Represents v := by
  rw [← validator_eq_none_iff, validate, h]
  change (∃ validator, (match (registerCompatibles F).validator (.integer v) with
    | some _ => _
    | none => Except.ok none) = Except.ok validator) ↔ _
  cases (registerCompatibles F).validator (.integer v) with
  | none => simp
  | some message => simp

theorem validate_sType_iff (h : schema name = some ⟨F, isArray⟩) (isArray' : Bool) :
    validate schema name (some (.sType T isArray')) = .ok none ↔
      isArray = isArray' ∧ (F = T ∨ (registerCompatibles F).compatibles.lookup T = some false) := by
  rw [validate, h]
  simp only [Token.isArray]
  by_cases harray : isArray = isArray'
  · by_cases hsame : F = T
    · simp [harray, hsame]
    · simp only [harray, hsame, ne_eq, not_true_eq_false, if_false, false_or, true_and]
      split <;> simp [*]
  · simp [harray]

/-- A value is accepted exactly if its field represents it, unless the field is a short and the
value in the range of a short and not of a byte; an operation accepted without a check writes what
the field represents, unless it is one on shorts and the field a byte. -/
theorem validate_integers_iff (schema : String → Option Field) (name : String) (F : IntegerType)
    (isArray : Bool) (h : schema name = some ⟨F, isArray⟩) :
    (isArray = false → ∀ v, ((∃ validator,
      validate schema name (some (.value (.integer v))) = .ok validator) ↔ F.Represents v) ↔
      ¬(F = .SHORT ∧ F.Represents v ∧ ¬ IntegerType.BYTE.Represents v)) ∧
    ∀ T isArray', (validate schema name (some (.sType T isArray')) = .ok none →
      ∀ v, T.Represents v → F.Represents v) ↔
      ¬(F = .BYTE ∧ T = .SHORT ∧ isArray = isArray') := by
  constructor
  · rintro rfl v
    rw [validate_value_iff h]
    cases F with
    | SHORT =>
      have hbyte : IntegerType.BYTE.Represents v → IntegerType.SHORT.Represents v :=
        bound_le_iff.2 (by decide) v
      tauto
    | BYTE | INTEGER | LONG => simp [IntegerType.checkedAs]
  · intro T isArray'
    rw [validate_sType_iff h, bound_le_iff]
    by_cases harray : isArray = isArray'
    · simp only [harray, true_and, and_true]
      cases F <;> cases T <;> decide
    · simp [harray]

theorem validate_integers_iff_long :
    ∃ validator, validate (fun _ => some ⟨.LONG, false⟩) "event.sequence"
      (some (.value (.integer 5000000000))) = .ok validator := by
  have hexact :=
    (validate_integers_iff (fun _ => some ⟨.LONG, false⟩) "event.sequence" .LONG false rfl).1
    rfl 5000000000
  exact (hexact.2 (by simp)).2 (by simp [IntegerType.Represents, IntegerType.bound])

/-- The number 200 has 16 bits and not 8: it is refused for a short, and an operation that may write
it to a byte is accepted without a check. -/
theorem validate_short_as_byte :
    IntegerType.SHORT.Represents 200 ∧ ¬ IntegerType.BYTE.Represents 200 ∧
    (∀ validator, validate (fun _ => some ⟨.SHORT, false⟩) "event.code"
      (some (.value (.integer 200))) ≠ .ok validator) ∧
    validate (fun _ => some ⟨.BYTE, false⟩) "event.code" (some (.sType .SHORT false)) =
      .ok none := by
  refine ⟨by simp [IntegerType.Represents, IntegerType.bound], by
    simp [IntegerType.Represents, IntegerType.bound], ?_, rfl⟩
  rintro validator ⟨⟩

end WazAISentinel.Schemf
