import WazAISentinel.Hlp.Parser

/-!
# Quoted strings

`hlp/src/parsers/quoted.cpp`. The syntax pass reads an escape character together with the character
behind it. The semantic pass takes all escape characters out, also those that stand for themselves,
so that what is mapped is the string only if it has none.
-/

namespace WazAISentinel.Hlp

open List

/-- The fields of `hlp::Params` that the parser reads. -/
structure Params where
  name : String
  targetField : List Char
  options : List (List Char)

/-- An event, by the strings of its fields. -/
abbrev StringFields : Type := List Char → Option (List Char)

/-- `json::Json::setString`. -/
def setString (value field : List Char) : Mapper StringFields :=
  fun event => Function.update event field (some value)

namespace Quoted

variable (quote escape : Char)

/-- The loop of `getSynParser`, with `checkEscape`: what is left behind the closing quote. -/
def synLoop : Bool → List Char → Option (List Char)
  | _, [] => none
  | true, c :: rest => if c ≠ quote ∧ c ≠ escape then none else synLoop false rest
  | false, c :: rest =>
    if c = escape then synLoop true rest else if c = quote then some rest else synLoop false rest

/-- `getSynParser`. -/
def getSynParser : List Char → Option (List Char)
  | [] => none
  | c :: rest => if c ≠ quote then none else synLoop quote escape false rest

/-- `getSemParser`. -/
def getSemParser (targetField : List Char) : SemParser StringFields := fun parsed =>
  .ok (setString (parsed.tail.dropLast.filter (· ≠ escape)) targetField)

/-- The parser that `getQuotedParser` returns; without a field it maps nothing. -/
def quotedParser (name : String) (targetField : List Char) : Parser StringFields :=
  let semP := if targetField = [] then fun _ => .ok id else getSemParser escape targetField
  primitive fun txt =>
    match getSynParser quote escape txt with
    | none => .error (txt, name)
    | some remaining => .ok (some ⟨txt.take (txt.length - remaining.length), semP⟩, remaining)

/-- `getQuotedParser`. -/
def getQuotedParser (params : Params) : Except String (Parser StringFields) :=
  if 2 < params.options.length then
    .error ("Quoted parser requires 0, 1 or 2 parameters. The first parameter is the quote " ++
      "character, the second is the escape character")
  else if params.options ≠ [] ∧ (params.options.headD []).length ≠ 1 then
    .error ("Quoted parser requires a single character as delimiter. Got: " ++
      String.ofList (params.options.headD []))
  else if 1 < params.options.length ∧ (params.options.getD 1 []).length ≠ 1 then
    .error ("Quoted parser requires a single character as escape character. Got: " ++
      String.ofList (params.options.getD 1 []))
  else
    let quoteChar := (params.options.headD []).headD '"'
    let escapeChar := (params.options.getD 1 []).headD '\\'
    if quoteChar = escapeChar then
      .error ("Quoted parser requires different characters for quote and escape. Got: " ++
        String.ofList (params.options.headD []))
    else .ok (quotedParser quoteChar escapeChar params.name params.targetField)

/-- A string with an escape character before every quote and every escape character. -/
def enc (s : List Char) : List Char :=
  s.flatMap fun c => if c = quote ∨ c = escape then [escape, c] else [c]

/-- A text without an unescaped quote: it is read by pairs at the escape characters. -/
inductive Body : List Char → Prop
  | nil : Body []
  | escaped (c : Char) {body : List Char} : Body body → Body (escape :: c :: body)
  | plain {c : Char} {body : List Char} : c ≠ quote → c ≠ escape → Body body → Body (c :: body)

variable {quote escape} {s t rest : List Char}

theorem synLoop_enc (hne : escape ≠ quote) :
    synLoop quote escape false (enc quote escape s ++ quote :: rest) = some rest := by
  induction s with
  | nil =>
    change synLoop quote escape false (quote :: rest) = _
    rw [synLoop, if_neg hne.symm, if_pos rfl]
  | cons c s ih =>
    rw [enc, flatMap_cons, append_assoc, ← enc]
    by_cases hc : c = quote ∨ c = escape
    · rw [if_pos hc, cons_append, cons_append, nil_append, synLoop, if_pos rfl, synLoop,
        if_neg (not_and_or.2 (hc.imp not_not.2 not_not.2)), ih]
    · rw [if_neg hc, cons_append, nil_append, synLoop, if_neg (not_or.1 hc).2,
        if_neg (not_or.1 hc).1, ih]

theorem filter_enc : (enc quote escape s).filter (· ≠ escape) = s.filter (· ≠ escape) := by
  induction s with
  | nil => rfl
  | cons c s ih =>
    rw [enc, flatMap_cons, filter_append, ← enc, ih]
    split
    · rw [filter_cons_of_neg (by simp), ← filter_append]
      rfl
    · rw [← filter_append]
      rfl

/-- The loop ends at a quote that is not escaped. -/
theorem exists_body_of_synLoop {checkEscape : Bool}
    (h : synLoop quote escape checkEscape t = some rest) :
    ∃ body, Body quote escape (if checkEscape then escape :: body else body) ∧
      t = body ++ quote :: rest := by
  induction t generalizing checkEscape with
  | nil => cases checkEscape <;> cases h
  | cons c t ih =>
    cases checkEscape with
    | true =>
      rw [synLoop] at h
      split at h
      · cases h
      · obtain ⟨body, hbody, rfl⟩ := ih h
        exact ⟨c :: body, .escaped c hbody, rfl⟩
    | false =>
      rw [synLoop] at h
      split at h
      · rename_i hescape
        obtain ⟨body, hbody, rfl⟩ := ih h
        exact ⟨c :: body, hescape ▸ hbody, rfl⟩
      · rename_i hescape
        split_ifs at h with hquote
        · cases h
          exact ⟨[], .nil, by rw [hquote]; rfl⟩
        · obtain ⟨body, hbody, rfl⟩ := ih h
          exact ⟨c :: body, .plain hquote hescape hbody, rfl⟩

/-- The parser reads an encoded string to its closing quote. -/
theorem quotedParser_enc (name : String) {field : List Char} (hne : escape ≠ quote)
    (hfield : field ≠ []) :
    quotedParser quote escape name field (quote :: (enc quote escape s ++ quote :: rest)) =
      makeSuccess (some ⟨quote :: (enc quote escape s ++ [quote]), getSemParser escape field⟩)
        rest [] := by
  have hsyn :
      getSynParser quote escape (quote :: (enc quote escape s ++ quote :: rest)) = some rest := by
    rw [getSynParser, if_neg (not_not.2 rfl), synLoop_enc hne]
  have hsplit : quote :: (enc quote escape s ++ quote :: rest) = quote ::
    (enc quote escape s ++ [quote]) ++ rest := by simp
  rw [quotedParser, primitive, hsyn, if_neg hfield]
  dsimp only
  rw [hsplit, length_append, Nat.add_sub_cancel, take_left]

/-- An encoded string is mapped to the string exactly if it has no escape character; a text without
a closing quote is rejected. -/
theorem quoted_unescapes_iff (name : String) (quote escape : Char) (field : List Char)
    (hne : escape ≠ quote) (hfield : field ≠ []) :
    ∃ parser, getQuotedParser ⟨name, field, [[quote], [escape]]⟩ = .ok parser ∧
      (∀ s rest event, ((parser (quote :: (enc quote escape s ++ quote :: rest))).remaining = rest ∧
        run parser (quote :: (enc quote escape s ++ quote :: rest)) event =
          (none, setString s field event)) ↔ escape ∉ s) ∧
      ∀ t, (∀ body rest, Body quote escape body → t ≠ body ++ quote :: rest) →
        (parser (quote :: t)).success = false := by
  refine ⟨quotedParser quote escape name field, if_neg hne.symm, fun s rest event => ?_,
    fun t ht => ?_⟩
  · have hvalue : (quote :: (enc quote escape s ++ [quote])).tail.dropLast.filter (· ≠ escape) =
        s.filter (· ≠ escape) := by
      rw [tail_cons, dropLast_concat, filter_enc]
    rw [run, quotedParser_enc name hne hfield]
    refine (and_iff_right rfl).trans ?_
    change (none, setString (List.filter _ _) field event) = _ ↔ _
    rw [hvalue]
    constructor
    · intro hmapped hmem
      have hfiltered : some (s.filter (· ≠ escape)) = some s := by
        simpa [setString] using congrFun (congrArg Prod.snd hmapped) field
      have hkept := filter_eq_self.1 (Option.some.inj hfiltered) escape hmem
      exact absurd rfl (of_decide_eq_true hkept)
    · intro hnot
      rw [filter_eq_self.2 fun c hc => decide_eq_true (ne_of_mem_of_not_mem hc hnot)]
  · have hsyn : getSynParser quote escape (quote :: t) = none := by
      rw [getSynParser, if_neg (not_not.2 rfl), Option.eq_none_iff_forall_ne_some]
      intro rest hrest
      obtain ⟨body, hbody, heq⟩ := exists_body_of_synLoop hrest
      exact ht body rest hbody heq
    rw [quotedParser, primitive, hsyn]
    rfl

/-- The default characters, with the field `f`. -/
theorem quoted_unescapes_iff_default :
    ∃ parser, getQuotedParser ⟨"quoted", ['f'], [['"'], ['\\']]⟩ = .ok parser ∧
    run parser "\"a\\\"b\" c".toList (fun _ => none) =
      (none, setString "a\"b".toList ['f'] fun _ => none) := by
  obtain ⟨parser, hparser, hiff, -⟩ :=
    quoted_unescapes_iff "quoted" '"' '\\' ['f'] (by decide) (by decide)
  exact ⟨parser, hparser, ((hiff "a\"b".toList " c".toList _).2 (by decide)).2⟩

/-- An escaped escape character is lost. -/
theorem quoted_drops_escape :
    ∃ parser, getQuotedParser ⟨"quoted", ['f'], [['"'], ['\\']]⟩ = .ok parser ∧
    enc '"' '\\' "a\\b".toList = "a\\\\b".toList ∧
    (run parser "\"a\\\\b\"".toList fun _ => none).2 ['f'] = some "ab".toList :=
  ⟨_, rfl, by decide, by decide⟩

end Quoted

end WazAISentinel.Hlp
