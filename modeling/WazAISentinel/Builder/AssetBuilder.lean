import WazAISentinel.Base.DotPath
import WazAISentinel.Base.Expression
import WazAISentinel.Builder.Factory

/-!
# The asset builder

`AssetBuilder` (`builder/src/policy/assetBuilder.cpp`) takes the keys of an asset document from the
front of a list. It reads the front without a test behind the name, the metadata and the check
stage; `build_defined_iff` says which documents end there.
-/

namespace WazAISentinel.Builder

open Base

/-! ## Documents -/

/-- A JSON value, with strings as `getString` returns them. -/
inductive Json where
  | null
  | bool (b : Bool)
  | number (text : String)
  | string (s : String)
  | array (items : List Json)
  | object (members : List (String × Json))

/-- `Json::typeName`. -/
def Json.typeName : Json → String
  | .null => "null"
  | .bool _ => "bool"
  | .number _ => "number"
  | .string _ => "string"
  | .array _ => "array"
  | .object _ => "object"

variable {α β π δ : Type}

/-- A computation that may throw, and that may read the front of an empty list: then it has no
result at all. -/
abbrev Reading := ExceptT String Option

/-- The entries of a document that are still to be taken. -/
abbrev ObjDoc := List (String × Json)

namespace ObjDoc

/-- `*objDoc.begin()`. -/
def begin : ObjDoc → Reading (String × Json)
  | [] => .mk none
  | entry :: _ => pure entry

/-- The first entry is read and erased if it has the key. -/
def take (key : String) (read : Json → Except String α) (absent : α) : ObjDoc →
    Except String (α × ObjDoc)
  | [] => .ok (absent, [])
  | entry :: rest =>
    if entry.1 = key then (read entry.2).map fun a => (a, rest) else .ok (absent, entry :: rest)

/-- The blocks for an optional key look at the front whether or not there is one. -/
def optional (key : String) (read : Json → Except String α) (absent : α) (objDoc : ObjDoc) :
  Reading (α × ObjDoc) := do
  let _ ← objDoc.begin
  objDoc.take key read absent

end ObjDoc

/-! ## The builder -/

/-- What the builder is given: the stage builders of the registry, the builder of definitions, the
constructor of `base::Name`, and the terms `AcceptAll` and `DeleteVariables`. -/
structure AssetBuilder (π δ : Type) where
  registry : String → Option (Json → String → δ → Except String (Expression π))
  definitionsBuilder : Json → Except String δ
  toName : String → Except String Name
  acceptAll : π
  deleteVariables : π

namespace AssetBuilder

variable (B : AssetBuilder π δ) (assetName : String) (definitions : δ)

/-- `getName`. -/
def getName : Json → Except String Name
  | .string s => (B.toName s).mapError fun e => "Invalid name '" ++ s ++ "': " ++ e
  | value => .error ("Expected 'name' to be a 'string' but got '" ++ value.typeName ++ "'")

/-- One round of the loop of `getParents`. -/
def readParent (parents : { l : List Name // l.Nodup }) : Json →
    Except String { l : List Name // l.Nodup }
  | .string s => do
    let parentName ← (B.toName s).mapError fun e => "Invalid parent name '" ++ s ++ "': " ++ e
    (addParent parents parentName).mapError fun _ =>
      "Parent '" ++ "/".intercalate parentName ++ "' is duplicated"
  | jParent => .error ("Found non-string value '" ++ jParent.typeName ++ "' in 'parents'")

/-- `getParents`. -/
def getParents : Json → Except String { l : List Name // l.Nodup }
  | .array items => items.foldlM B.readParent ⟨[], List.nodup_nil⟩
  | value => .error ("Expected 'parents' to be an 'array' but got '" ++ value.typeName ++ "'")

/-- The expression of the stage under `key`, by the builder that is registered for `stage`. -/
def buildStage (stage key : String) (value : Json) : Except String (Expression π) :=
  match B.registry stage with
  | none => .error ("Could not find builder for stage '" ++ key ++ "'")
  | some builder => builder value assetName definitions

/-- The definitions may stand anywhere. -/
def buildDefinitions (objDoc : ObjDoc) : Except String (δ × ObjDoc) :=
  match objDoc.find? fun entry => entry.1 = "definitions" with
  | some entry =>
    (B.definitionsBuilder entry.2).map fun d =>
      (d, objDoc.eraseP fun entry => entry.1 = "definitions")
  | none => (B.definitionsBuilder (.object [])).map fun d => (d, objDoc)

/-- An item of a parse stage, as its builder gets it. -/
def parseItem (targetField : List Char) : Json → Except String Json
  | .string s => .ok (.object [(String.ofList targetField, .string s)])
  | _ => .error "bad optional access"

/-- The stage under a key that starts with `parse`. -/
def parseStage (key : String) (value : Json) : Except String (Expression π) := do
  if key.toList[5]? ≠ some '|' then
    throw "Stage parse: needs the character '|' to indicate the field"
  let targetField := key.toList.drop 6
  let _ ← (DotPath.parse targetField).mapError fun e => "Stage parse: Could not get field: " ++ e
  let items ← match value with
    | .array items => items.mapM (parseItem targetField)
    | _ => pure []
  B.buildStage assetName definitions "parse" key (.array items)

/-- The parse stage is optional as well, but any key that starts so is taken. -/
def takeParse (objDoc : ObjDoc) : Reading (List (Expression π) × ObjDoc) := do
  let entry ← objDoc.begin
  if entry.1.toList.take 5 = "parse".toList then
    let parse ← B.parseStage assetName definitions entry.1 entry.2
    return ([parse], objDoc.tail)
  else
    return ([], objDoc)

/-- The check and the parse stage, and what is left. -/
def conditionStages (objDoc : ObjDoc) : Reading (List (Expression π) × ObjDoc) :=
  if objDoc = [] then pure ([], []) else do
    let (check, objDoc) ← objDoc.optional "check"
      (fun value => (B.buildStage assetName definitions "check" "check" value).map fun e => [e]) []
    let (parse, objDoc) ← B.takeParse assetName definitions objDoc
    return (check ++ parse, objDoc)

/-- The consequence, from the stages that are left. -/
def addConsequence (name : Name) (condition : Expression π) (objDoc : ObjDoc) :
  Except String (Expression π) := do
  let consequenceExpressions ← objDoc.mapM fun entry =>
    B.buildStage assetName definitions entry.1 entry.1 entry.2
  if consequenceExpressions.isEmpty then
    return .operation .and name [condition]
  return .implication name condition
    (.operation .and ["stages"] (consequenceExpressions ++ [.formula B.deleteVariables]))

/-- `buildExpression`. -/
def buildExpression (name : Name) (objDoc : ObjDoc) : Reading (Expression π) := do
  let assetName := "/".intercalate name
  let (definitions, objDoc) ← B.buildDefinitions objDoc
  let (conditionExpressions, objDoc) ← B.conditionStages assetName definitions objDoc
  let condition := .operation .and ["condition"] (conditionExpressions ++ [.formula B.acceptAll])
  B.addConsequence assetName definitions name condition objDoc

/-- `operator()`, behind the name. -/
def buildNamed (name : Name) (objDoc : ObjDoc) : Reading (Asset (Expression π)) := do
  let (_, objDoc) ← objDoc.optional "metadata" (fun _ => .ok ()) ()
  let (⟨parents, hnodup⟩, objDoc) ← objDoc.optional "parents" B.getParents ⟨[], List.nodup_nil⟩
  let expression ← B.buildExpression name objDoc
  return ⟨name, expression, parents, hnodup⟩

/-- `operator()`. -/
def build : Json → Reading (Asset (Expression π))
  | .object [] => throw "Document is empty"
  | .object (entry :: objDoc) =>
    if entry.1 = "name" then do
      let name ← B.getName entry.2
      B.buildNamed name objDoc
    else throw ("Expected 'name' key in asset document but got '" ++ entry.1 ++ "'")
  | _ => throw "Document is not an object"

end AssetBuilder

/-! ## Documents that end too early -/

/-- There is a result or an exception: no front of an empty list is read. -/
def Defined (r : Reading α) : Prop := r.run ≠ none

theorem defined_pure (a : α) : Defined (pure a) := nofun

theorem defined_lift (r : Except String α) : Defined (liftM r) := by
  cases r with
  | error e | ok a => exact nofun

theorem defined_lift_bind (r : Except String α) (f : α → Reading β) :
    Defined (liftM r >>= f) ↔ ∀ a, r = .ok a → Defined (f a) := by
  cases r with
  | error e => exact iff_of_true nofun nofun
  | ok a => exact ⟨fun h a' ha => Except.ok.inj ha ▸ h, fun h => h a rfl⟩

theorem defined_bind (r : Reading α) {f : α → Reading β} (hf : ∀ a, Defined (f a)) :
    Defined (r >>= f) ↔ Defined r := by
  rcases r with _ | e | a
  · exact iff_of_false (fun h => h rfl) (fun h => h rfl)
  · exact iff_of_true nofun nofun
  · exact iff_of_true (hf a) nofun

theorem defined_optional_bind (objDoc : ObjDoc) (key : String) (read : Json → Except String α)
    (absent : α) (f : α × ObjDoc → Reading β) :
    Defined (objDoc.optional key read absent >>= f) ↔
      objDoc ≠ [] ∧ ∀ r, objDoc.take key read absent = .ok r → Defined (f r) := by
  cases objDoc with
  | nil => exact iff_of_false (fun h => h rfl) (fun h => h.1 rfl)
  | cons entry rest =>
    exact (defined_lift_bind _ f).trans (and_iff_right (List.cons_ne_nil entry rest)).symm

namespace AssetBuilder

variable (B : AssetBuilder π δ) (assetName : String) (definitions : δ)

theorem defined_takeParse (objDoc : ObjDoc) :
    Defined (B.takeParse assetName definitions objDoc) ↔ objDoc ≠ [] := by
  cases objDoc with
  | nil => exact iff_of_false (fun h => h rfl) (fun h => h rfl)
  | cons entry rest =>
    refine iff_of_true ?_ (List.cons_ne_nil entry rest)
    change Defined (if _ then _ else _)
    split
    · exact (defined_bind _ fun _ => defined_pure _).2 (defined_lift _)
    · exact defined_pure _

/-- The parse stage is read from an empty list exactly if a check stage was built before it and was
the last. -/
theorem defined_conditionStages (objDoc : ObjDoc) :
    Defined (B.conditionStages assetName definitions objDoc) ↔
    ∀ value, objDoc = [("check", value)] →
      ∀ expression, B.buildStage assetName definitions "check" "check" value ≠ .ok expression := by
  rw [conditionStages]
  split_ifs with hempty
  · subst hempty
    exact iff_of_true nofun nofun
  · rw [defined_optional_bind, and_iff_right hempty]
    simp only [defined_bind (takeParse _ _ _ _) (fun _ => defined_pure _), defined_takeParse]
    obtain ⟨⟨key, value⟩, rest, rfl⟩ := List.exists_cons_of_ne_nil hempty
    by_cases hkey : key = "check"
    · cases hstage : B.buildStage assetName definitions "check" "check" value <;>
        simp [ObjDoc.take, hkey, hstage, Except.map]
    · simp [ObjDoc.take, hkey]

/-- Of the stages only a check stage is left, which is built. -/
def EndsAtCheck (name : Name) (objDoc : ObjDoc) : Prop :=
  ∃ definitions value expression,
    B.buildDefinitions objDoc = .ok (definitions, [("check", value)]) ∧
    B.buildStage ("/".intercalate name) definitions "check" "check" value = .ok expression

theorem defined_buildExpression (name : Name) (objDoc : ObjDoc) :
    Defined (B.buildExpression name objDoc) ↔ ¬B.EndsAtCheck name objDoc := by
  rw [buildExpression, defined_lift_bind]
  constructor
  · rintro h ⟨definitions, value, expression, hdefinitions, hcheck⟩
    have hstages := (defined_bind _ fun _ => defined_lift _).1 (h _ hdefinitions)
    exact (B.defined_conditionStages _ _ _).1 hstages value rfl expression hcheck
  · rintro h ⟨definitions, stages⟩ hdefinitions
    refine (defined_bind _ fun _ => defined_lift _).2 ((B.defined_conditionStages _ _ _).2 ?_)
    rintro value rfl expression hcheck
    exact h ⟨definitions, value, expression, hdefinitions, hcheck⟩

/-- An entry follows the name, another one the metadata, and behind the parents the stages do not
end at a check. -/
def GoesOn (name : Name) (objDoc : ObjDoc) : Prop :=
  objDoc ≠ [] ∧ ∀ r, objDoc.take "metadata" (fun _ => .ok ()) () = .ok r →
    r.2 ≠ [] ∧ ∀ r', r.2.take "parents" B.getParents ⟨[], List.nodup_nil⟩ = .ok r' →
      ¬B.EndsAtCheck name r'.2

/-- The builder returns an asset or throws exactly if the document goes on wherever the front is
read. -/
theorem build_defined_iff (document : Json) :
    Defined (B.build document) ↔
    ∀ value rest, document = .object (("name", value) :: rest) →
      ∀ name, B.getName value = .ok name → B.GoesOn name rest := by
  have hnamed (name : Name) (rest : ObjDoc) : Defined (B.buildNamed name rest) ↔
      B.GoesOn name rest := by
    rw [buildNamed]
    simp only [defined_optional_bind,
      defined_bind (buildExpression _ _ _) (fun _ => defined_pure _), defined_buildExpression]
    rfl
  cases document with
  | object members =>
    rcases members with _ | ⟨⟨key, value⟩, rest⟩
    · exact iff_of_true nofun nofun
    · rw [build]
      by_cases hkey : key = "name"
      · rw [if_pos hkey, defined_lift_bind]
        simp [hnamed, hkey]
      · rw [if_neg hkey]
        exact iff_of_true nofun fun _ _ h => absurd (by cases h; rfl) hkey
  | _ => exact iff_of_true nofun nofun

/-- A document with a name only, and one that ends with its check stage, are read past their end. -/
theorem build_past_end :
    ¬Defined
      ((⟨fun _ => none, fun _ => .ok (), fun s => .ok [s], (), ()⟩ : AssetBuilder Unit Unit).build
        (.object [("name", .string "decoder")])) ∧
      ¬Defined ((⟨fun _ => some fun _ _ _ => .ok (.formula ()), fun _ => .ok (),
        fun s => .ok [s], (), ()⟩ :
        AssetBuilder Unit Unit).build
          (.object [("name", .string "decoder"), ("check", .array [])])) :=
  ⟨fun h => h rfl, fun h => h rfl⟩

end AssetBuilder

end WazAISentinel.Builder
