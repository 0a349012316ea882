import Mathlib.Data.List.Basic

/-!
# Replacing definitions

`Definitions::replace` (`defs/src/defs.cpp`) makes one pass over the text for each definition, the
last one first. A pass whose name follows an escaped `$` takes the escape character away; if the
name of a later pass follows the `$` too, that pass finds a reference which is not escaped any more.
-/

namespace WazAISentinel.Defs

open List

/-- The names and values, as declared; a value is given by its string, or as it is printed. -/
abbrev Definitions : Type := List (List Char × List Char)

/-- The constructor. -/
def create (definitions : Definitions) : Except String Definitions :=
  match definitions.find? fun d => d.1.head? = some '$' with
  | some d => .error ("Definition name '" ++ String.ofList d.1 ++ "' cannot start with '$'")
  | none => .ok definitions

/-- The loop of one definition: `before` is the text before `pos`. -/
def pass (name value : List Char) (before : List Char) : List Char → List Char
  | [] => before
  | c :: text =>
    if ('$' :: name).isPrefixOf (c :: text) then
      if before.getLast? = some '\\'
        then pass name value (before.dropLast ++ '$' :: name) (text.drop name.length)
      else pass name value (before ++ value) (text.drop name.length)
    else pass name value (before ++ [c]) text
termination_by text => text.length

/-- `Definitions::replace`. -/
def replace (definitions : Definitions) (input : List Char) : List Char :=
  definitions.reverse.foldl (fun replaced d => pass d.1 d.2 [] replaced) input

variable {name value before text p body : List Char} {names : List (List Char)}
  (values : List Char → List Char)

/-- A pass does not change a text without references. -/
theorem pass_append (h : '$' ∉ p) :
    pass name value before (p ++ text) = pass name value (before ++ p) text := by
  induction p generalizing before with
  | nil => simp
  | cons c p ih =>
    obtain ⟨hc, hp⟩ := not_or.1 (mt mem_cons.2 h)
    rw [cons_append, pass, if_neg (by simp [hc]), ih hp, append_assoc, singleton_append]

theorem pass_of_not_mem (h : '$' ∉ p) : pass name value before p = before ++ p := by
  rw [← append_nil p, pass_append h, pass, append_nil]

/-- A pass over a text with one reference. -/
theorem pass_reference (hp : '$' ∉ p) (hbody : '$' ∉ body) :
    pass name value [] (p ++ '$' :: body) =
    if name <+: body then
      if p.getLast? = some '\\' then p.dropLast ++ '$' :: body
        else p ++ value ++ body.drop name.length
    else p ++ '$' :: body := by
  rw [pass_append hp, nil_append, pass]
  by_cases hname : name <+: body
  · obtain ⟨rest, rfl⟩ := hname
    have hrest : '$' ∉ rest := fun h => hbody (mem_append_right name h)
    rw [if_pos (by simp), if_pos (prefix_append name rest), drop_left,
      pass_of_not_mem hrest, pass_of_not_mem hrest, append_assoc, cons_append]
  · rw [if_neg (by simpa using hname), if_neg hname, pass_of_not_mem hbody, append_assoc,
      singleton_append]

/-- The passes of the names in turn, each with its value. -/
def passes (values : List Char → List Char) (names : List (List Char)) (text : List Char) :
    List Char :=
  names.foldl (fun replaced name => pass name (values name) [] replaced) text

theorem passes_cons :
    passes values (name :: names) text = passes values names (pass name (values name) [] text) :=
  rfl

theorem passes_of_not_mem (h : '$' ∉ text) : passes values names text = text := by
  induction names with
  | nil => rfl
  | cons name names ih => rw [passes_cons, pass_of_not_mem h, nil_append, ih]

/-- A reference that is not escaped stays under all values exactly if no name follows its `$`. -/
theorem passes_bare_iff (hp : '$' ∉ p ∧ '\\' ∉ p) (hbody : '$' ∉ body) :
    (∀ values, passes values names (p ++ '$' :: body) = p ++ '$' :: body) ↔
      names.countP (·.isPrefixOf body) = 0 := by
  have hlast : p.getLast? ≠ some '\\' := fun h => hp.2 (mem_of_getLast? h)
  induction names with
  | nil => exact iff_of_true (fun _ => rfl) rfl
  | cons name names ih =>
    simp only [passes_cons, pass_reference hp.1 hbody, if_neg hlast]
    by_cases hname : name <+: body
    · rw [countP_cons_of_pos (by simpa using hname)]
      refine iff_of_false (fun h => ?_) (Nat.succ_ne_zero _)
      -- empty values leave no `$`
      have hnone : '$' ∉ p ++ [] ++ body.drop name.length := by
        rw [append_nil, mem_append, not_or]
        exact ⟨hp.1, fun hmem => hbody (mem_of_mem_drop hmem)⟩
      have hgone := h fun _ => []
      rw [if_pos hname, passes_of_not_mem _ hnone] at hgone
      rw [hgone] at hnone
      exact hnone (by simp)
    · rw [countP_cons_of_neg (by simpa using hname)]
      simpa only [if_neg hname] using ih

/-- An escaped reference becomes literal under all values exactly if one name follows its `$`. -/
theorem passes_escaped_iff (hp : '$' ∉ p ∧ '\\' ∉ p) (hbody : '$' ∉ body) :
    (∀ values, passes values names (p ++ '\\' :: '$' :: body) = p ++ '$' :: body) ↔
      names.countP (·.isPrefixOf body) = 1 := by
  have hescaped : '$' ∉ p ++ ['\\'] := by simp [hp.1]
  have htext : p ++ '\\' :: '$' :: body = p ++ ['\\'] ++ '$' :: body := by simp
  rw [htext]
  induction names with
  | nil => exact iff_of_false (fun h => by simpa [passes] using h id) Nat.zero_ne_one
  | cons name names ih =>
    simp only [passes_cons, pass_reference hescaped hbody, getLast?_concat,
      dropLast_concat, if_true]
    by_cases hname : name <+: body
    · rw [countP_cons_of_pos (by simpa using hname), Nat.add_eq_right, ← passes_bare_iff hp hbody]
      simp only [if_pos hname]
    · rw [countP_cons_of_neg (by simpa using hname)]
      simpa only [if_neg hname] using ih

/-- An escaped reference stays literal, whatever the values are, exactly if its name is the only
defined one that follows the `$`. -/
theorem escaped_reference_literal_iff (names : List (List Char)) (n p s : List Char)
    (hnames : ∀ m ∈ names, ∀ c ∈ m, c.isAlphanum ∨ c = '_') (hn : n ∈ names)
    (hp : '$' ∉ p ∧ '\\' ∉ p) (hs : '$' ∉ s ∧ '\\' ∉ s) :
    (∀ values : List Char → List Char, ∃ definitions,
      create (names.map fun m => (m, values m)) = .ok definitions ∧
      replace definitions (p ++ '\\' :: '$' :: (n ++ s)) = p ++ '$' :: (n ++ s)) ↔
      names.countP (·.isPrefixOf (n ++ s)) = 1 := by
  have hdollar : ∀ m ∈ names, '$' ∉ m := fun m hm hmem => by simpa using hnames m hm '$' hmem
  have hbody : '$' ∉ n ++ s := by simp [hdollar n hn, hs.1]
  have hcreate : ∀ values : List Char → List Char,
      create (names.map fun m => (m, values m)) = .ok (names.map fun m => (m, values m)) := by
    intro values
    have hnone :
        (names.map fun m => (m, values m)).find? (fun d => d.1.head? = some '$') = none := by
      rw [find?_eq_none]
      intro d hd
      obtain ⟨m, hm, rfl⟩ := mem_map.1 hd
      simpa using fun h => hdollar m hm (mem_of_head? h)
    rw [create, hnone]
  rw [← countP_reverse, ← passes_escaped_iff hp hbody]
  refine forall_congr' fun values => ?_
  rw [hcreate]
  simp only [Except.ok.injEq, exists_eq_left', replace, passes, ← map_reverse, foldl_map]

/-- With `a` and `b` a reference to `a` before `c`. -/
theorem escaped_reference_literal_iff_two :
    ∃ definitions, create [(['a'], ['x']), (['b'], ['y'])] = .ok definitions ∧
    replace definitions "\\$ac".toList = "$ac".toList :=
  (escaped_reference_literal_iff [['a'], ['b']] ['a'] [] ['c'] (by simp) (by decide) (by decide)
    (by decide)).2 (by decide) fun m => if m = ['a'] then ['x'] else ['y']

/-- With `a` and `ab`, both of which follow the `$`, the reference is replaced. -/
theorem escaped_reference_replaced :
    replace [("a".toList, "x".toList), ("ab".toList, "y".toList)] "\\$ab".toList = "xb".toList := by
  decide +kernel

end WazAISentinel.Defs
