import Mathlib.Data.List.Infix
import WazAISentinel.Sca.CheckLists

/-!
# Compound patterns

`PatternMatches` (`sca_utils.cpp`) splits a pattern at ` && ` into minterms, and asks for a line of
the content that passes all of them. A single negated minterm asks that no line satisfies it. An
empty content matches no pattern, also no negated one. The test of a line, `EvaluateMinterm`, is a
parameter.
-/

namespace WazAISentinel.Sca

open List

def delimiter : List Char := [' ', '&', '&', ' ']

/-- The loop over the minterms of a pattern: there is none behind a delimiter at the end. -/
def splitPattern : List Char → List (List Char)
  | [] => []
  | ' ' :: '&' :: '&' :: ' ' :: s => [] :: splitPattern s
  | c :: s =>
    match splitPattern s with
    | [] => [[c]]
    | minterm :: minterms => (c :: minterm) :: minterms

/-- Whether the minterm is negated, and the minterm without its `!`. -/
def readMinterm : List Char → Bool × List Char
  | '!' :: minterm => (true, minterm)
  | minterm => (false, minterm)

variable (evaluateMinterm : List Char → List Char → Bool)

/-- The loops over the lines. -/
def matchLines (lines : List (List Char)) :
    List (Bool × List Char) → Bool
  | [(true, minterm)] => lines.all fun line => !evaluateMinterm minterm line
  | minterms => lines.any fun line => minterms.all fun m => evaluateMinterm m.2 line != m.1

def patternMatches (content pattern : List Char) :
    Bool :=
  if content = [] then false
  else matchLines evaluateMinterm (getlines '\n' content) ((splitPattern pattern).map readMinterm)

/-- The minterms between the delimiters of a pattern: each ends where a delimiter is complete for
the first time. -/
inductive Splits : List Char → List (List Char) → Prop
  | nil : Splits [] []
  | last {minterm : List Char} : minterm ≠ [] → ¬ delimiter <:+: minterm → Splits minterm [minterm]
  | cons {minterm rest : List Char} {minterms : List (List Char)} : ¬ delimiter <:+:
      (minterm ++ delimiter).dropLast →
      Splits rest minterms → Splits (minterm ++ delimiter ++ rest) (minterm :: minterms)

theorem splits_splitPattern (pattern : List Char) : Splits pattern (splitPattern pattern) := by
  fun_induction splitPattern pattern with
  | case1 => exact .nil
  | case2 s ih => exact @Splits.cons [] s _ (by decide) ih
  | case3 c s hother hnil ih =>
    rw [hnil] at ih
    cases ih
    exact .last (cons_ne_nil _ _) fun hin => absurd hin.length_le (by simp [delimiter])
  | case4 c s hother minterm minterms hsplit ih =>
    rw [hsplit] at ih
    -- a delimiter that begins here would begin the pattern
    have hbegins : ∀ t, t <+: s → ¬ delimiter <:+: t → ¬ delimiter <:+: c :: t := by
      intro t ht hin hcons
      rcases infix_cons_iff.1 hcons with hbegins | h
      · obtain ⟨rest, hrest⟩ := hbegins.trans ((prefix_cons_inj c).2 ht)
        injection hrest with hc hs
        exact hother rest hc.symm hs.symm
      · exact hin h
    cases ih with
    | last _ hin => exact .last (cons_ne_nil _ _) (hbegins _ prefix_rfl hin)
    | cons hin hrest =>
      refine @Splits.cons (c :: minterm) _ _ ?_ hrest
      rw [cons_append, dropLast_cons_of_ne_nil (by simp [delimiter])]
      refine hbegins _ (IsPrefix.trans ?_ (prefix_append ..)) hin
      exact dropLast_prefix _

/-- The line satisfies a plain minterm, and does not satisfy a negated one. -/
def Passes (line : List Char) : List Char → Prop
  | '!' :: minterm => evaluateMinterm minterm line = false
  | minterm => evaluateMinterm minterm line = true

/-- What a pattern means: no line satisfies a single negated minterm, or some line passes all
minterms. -/
def Satisfied (lines : List (List Char)) :
    List (List Char) → Prop
  | ['!' :: minterm] => ∀ line ∈ lines, evaluateMinterm minterm line = false
  | minterms => ∃ line ∈ lines, ∀ minterm ∈ minterms, Passes evaluateMinterm line minterm

section

theorem passes_iff (line minterm : List Char) :
    (evaluateMinterm (readMinterm minterm).2 line != (readMinterm minterm).1) = true ↔
      Passes evaluateMinterm line minterm := by
  fun_cases readMinterm minterm with
  | case1 minterm => simp [Passes]
  | case2 minterm hplain => simp [Passes]

theorem matchLines_iff (lines minterms : List (List Char)) :
    matchLines evaluateMinterm lines (minterms.map readMinterm) = true ↔
      Satisfied evaluateMinterm lines minterms := by
  fun_cases Satisfied evaluateMinterm lines minterms with
  | case1 minterm => simp [matchLines, readMinterm]
  | case2 hother =>
    rw [matchLines]
    · simp only [any_eq_true, all_map, all_eq_true, Function.comp_apply, passes_iff]
    · intro minterm hread
      obtain ⟨part, rfl, hpart⟩ := map_eq_singleton_iff.1 hread
      rw [readMinterm.eq_def] at hpart
      split at hpart
      · rename_i other
        exact other _ rfl
      · cases hpart

/-- A content that is not empty matches the pattern if its lines satisfy the minterms between the
delimiters. -/
theorem patternMatches_iff (content pattern : List Char) :
    Splits pattern (splitPattern pattern) ∧
      (patternMatches evaluateMinterm content pattern = true ↔
        content ≠ [] ∧
          Satisfied evaluateMinterm (getlines '\n' content) (splitPattern pattern)) := by
  refine ⟨splits_splitPattern pattern, ?_⟩
  rw [patternMatches]
  by_cases hempty : content = []
  · simp [hempty]
  · rw [if_neg hempty, matchLines_iff]
    exact (and_iff_right hempty).symm

end

/-- No line of an empty content satisfies the minterm behind `!`, and still the content does not
match. -/
theorem patternMatches_empty :
    patternMatches (fun _ _ => true) [] ['!', 'a'] = false ∧
      splitPattern ['!', 'a'] = [['!', 'a']] ∧
    Satisfied (fun _ _ => true) (getlines '\n' []) [['!', 'a']] := by
  exact ⟨rfl, rfl, fun line hline => absurd hline not_mem_nil⟩

end WazAISentinel.Sca
