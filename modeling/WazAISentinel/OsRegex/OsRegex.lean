import WazAISentinel.Foundations.Loops
import WazAISentinel.OsRegex.Maps

/-!
# Regular expressions

`os_regex_compile.c` and `os_regex_execute.c`. A pattern is rewritten (the character behind a
backslash becomes the number of a row of `regexmap`, both parentheses become the opening one) and
split at `|`. `_OS_Regex` compares a sub pattern with a string in one loop with a pointer into each:
a class with `+` or `*` takes characters until the next element takes one, the place is kept in one
of four slots in case of a later failure, and if there is none the pattern is tried again behind
`st_error`. A pointer is an offset, and a read behind the end gives the end character.

The string pointer moves backwards where the loop goes on from a saved place or from `st_error`. The
loop ends all the same: a round goes forward in the string, or in the pattern at the same character,
or fails (`moves_round`). A place is saved at the character of the round, and the matcher goes on
from it with the next one; so a state ends if failing with its saved places does, by induction on
what is left of the string and the pattern. Without saved places it fails to a later beginning.
-/

namespace WazAISentinel.OsRegex

open Foundations

def plus : UInt8 := 43

def asterisk : UInt8 := 42

def openParenthesis : UInt8 := 40

def closeParenthesis : UInt8 := 41

/-- The ranges of the characters `y` with `regexmap[x][y] == TRUECHAR`. -/
def regexRow (x : UInt8) : List (Nat × Nat) :=
  match x.toNat with
  | 0 => [(48, 57)]
  | 1 => [(48, 57)]
  | 2 => [(45, 45), (48, 57), (64, 90), (95, 95), (97, 122)]
  | 3 => [(32, 32)]
  | 4 => [(33, 46), (58, 63), (91, 91), (93, 93), (123, 125)]
  | 5 => [(40, 40)]
  | 6 => [(41, 41)]
  | 7 => [(92, 92)]
  | 8 => [(0, 47), (58, 255)]
  | 9 => [(0, 44), (46, 47), (58, 63), (91, 94), (96, 96), (123, 255)]
  | 10 => [(0, 31), (33, 255)]
  | 11 => [(0, 255)]
  | 12 => [(9, 9)]
  | 13 => [(36, 36)]
  | 14 => [(124, 124)]
  | 15 => [(60, 60)]
  | _ => []

/-- `Regex(x, y)`. -/
def regexmap (x y : UInt8) : Bool :=
  (regexRow x).any fun range => range.1 ≤ y.toNat && y.toNat ≤ range.2

def isPlus (x : UInt8) : Bool := x = plus || x = asterisk

/-- `*(s + k)`. -/
def byteAt (s : Text) (k : Nat) : UInt8 := s.getD k 0

/-! ## Compiling -/

/-- `reg->error`. -/
inductive RegexError where
  | patternNull
  | maxsize
  | badRegex
  | badParenthesis
  deriving DecidableEq

/-- The cases of the `switch` for the character behind a backslash, and the value it gets. -/
def escapeCodes : List (UInt8 × UInt8) :=
  [(100, 1),   -- d
   (119, 2),   -- w
   (115, 3),   -- s
   (112, 4),   -- p
   (40, 5),    -- (
   (41, 6),    -- )
   (92, 7),    -- \
   (68, 8),    -- D
   (87, 9),    -- W
   (83, 10),   -- S
   (46, 11),   -- .
   (116, 12),  -- t
   (36, 13),   -- $
   (124, 14),  -- |
   (60, 15)]   -- <

def escapeCode (c : UInt8) : Option UInt8 := escapeCodes.lookup c

/-- What the first loop of `OSRegex_Compile` leaves: the rewritten pattern, `parenthesis` and
`prts_size`. -/
structure Rewritten where
  text : Text
  parenthesis : Int
  prtsSize : Nat

/-- The first loop of `OSRegex_Compile`. -/
def rewrite (caseSensitive : Bool) : Text → Int → Nat → Except RegexError Rewritten
  | [], parenthesis, prtsSize => .ok ⟨[], parenthesis, prtsSize⟩
  | c :: pt, parenthesis, prtsSize =>
    if c = backslash then
      match pt with
      | [] => .error .badRegex
      | e :: pt =>
        match escapeCode e with
        | none => .error .badRegex
        | some code =>
          (rewrite caseSensitive pt parenthesis prtsSize).map fun r =>
            { r with text := c :: code :: r.text }
    else
      let parenthesis :=
        if c = openParenthesis then parenthesis + 1 else if c = closeParenthesis
          then parenthesis - 1 else parenthesis
      let prtsSize := if c = closeParenthesis then prtsSize + 1 else prtsSize
      -- internally, open and closed are the same
      let c := if c = closeParenthesis then openParenthesis else c
      if parenthesis ≠ 0 ∧ parenthesis ≠ 1 then .error .badParenthesis
      else
        let c := if caseSensitive then c else charmap c
        if c = orChar ∧ parenthesis ≠ 0 then .error .badParenthesis
        else (rewrite caseSensitive pt parenthesis prtsSize).map fun r =>
          { r with text := c :: r.text }

/-- `patterns[i]` and `flags[i]`. -/
structure SubRegex where
  pattern : Text
  beginSet : Bool
  endSet : Bool

/-- The sub pattern for the text from `new_str` to `pt`. -/
def subRegex (newStr : Text) : SubRegex :=
  let beginSet := newStr.head? = some beginRegex
  let newStr := if beginSet then newStr.tail else newStr
  let endSet := newStr.getLast? = some endRegex
  ⟨if endSet then newStr.dropLast else newStr, beginSet, endSet⟩

/-- The second loop of `OSRegex_Compile`: `newStr` is what has been passed since the last `|`. -/
def subRegexes (newStr : Text) : Text → List SubRegex
  | [] => [subRegex newStr]
  | c :: pt =>
    if c = orChar then subRegex newStr :: subRegexes [] pt else subRegexes (newStr ++ [c]) pt

/-- `OSRegex`; `closures` is whether `prts_closure` is allocated. -/
structure OSRegex where
  patterns : List SubRegex
  closures : Bool

/-- `prts_closure[i]`: the places of the parentheses. -/
def prtsClosure (pattern : Text) : List Nat :=
  (List.range pattern.length).filter fun k => byteAt pattern k = openParenthesis

/-- `OSRegex_Compile`. -/
def osRegexCompile (pattern : Option Text) (caseSensitive returnSubstring : Bool) :
    Except RegexError OSRegex :=
  match pattern with
  | none => .error .patternNull
  | some pattern =>
    if pattern.length > osPatternMaxsize then .error .maxsize
    else
      match rewrite caseSensitive pattern 0 0 with
      | .error e => .error e
      | .ok r =>
        if r.parenthesis ≠ 0 then .error .badParenthesis
        else .ok ⟨subRegexes [] r.text, returnSubstring && decide (0 < r.prtsSize)⟩

/-! ## Matching -/

/-- The arguments of `_OS_Regex`; `signed` is whether a plain `char` is signed. -/
structure Args where
  pattern : Text
  str : Text
  closure : Option (List Nat)
  beginSet : Bool
  endSet : Bool
  signed : Bool

/-- The variables of `_OS_Regex`. `ptError` has the occupied slots of `pt_error` with their
`pt_error_str`, the last one first: a slot is taken only after those before it, and given up only
before those. -/
structure Vars where
  rCode : Option Int
  regexMatched : Bool
  st : Nat
  stError : Option Nat
  pt : Nat
  ptError : List (Nat × Nat)
  prtsStr : List (Option Nat)

/-- What `_OS_Regex` returns, and the places it has written. -/
structure Ret where
  code : Option Int
  prtsStr : List (Option Nat)

namespace Args

variable (x : Args)

/-- `*pt`. -/
def pat (k : Nat) : UInt8 := byteAt x.pattern k

/-- `*st`. -/
def chr (k : Nat) : UInt8 := byteAt x.str k

/-- The place of the parenthesis at `pt` is written down. -/
def mark (prtsStr : List (Option Nat)) (pt place : Nat) : List (Option Nat) :=
  match x.closure with
  | none => prtsStr
  | some closure => prtsStr.set (closure.idxOf pt) (some place)

/-- `!(flags & END_SET) || ((flags & END_SET) && (*st == '\0'))`. -/
def mayEnd (st : Nat) : Bool := !x.endSet || (x.endSet && x.chr st = 0)

/-- A literal character of the pattern equals the character of the string. -/
def sameChar (pt st : Nat) : Bool := charValue x.signed (x.pat pt) = (charmap (x.chr st)).toNat

section

variable (v : Vars)

/-- A parenthesis is not matched against the character. -/
def passParenthesis : Vars := { v with prtsStr := x.mark v.prtsStr v.pt v.st, pt := v.pt + 1 }

/-- The `switch` at the beginning of a round. -/
def enter : Ret ⊕ Vars :=
  if x.pat v.pt = 0 then (if x.mayEnd v.st then .inl ⟨v.rCode, v.prtsStr⟩ else .inr v)
  else if x.pat v.pt = openParenthesis then
    let v := x.passParenthesis v
    if x.pat v.pt = 0 ∧ x.mayEnd v.st = true then .inl ⟨v.rCode, v.prtsStr⟩ else .inr v
  else .inr v

/-- The error handling at the end of a round, and the step to the next character. -/
def handleError : Ret ⊕ Vars :=
  match v.ptError with
  | (pt, st) :: rest => .inr { v with pt := pt, st := st + 1, ptError := rest }
  | [] =>
    if x.beginSet then .inl ⟨none, v.prtsStr⟩
    else .inr { v with pt := 0, st := v.stError.getD v.st + 1, stError := none, rCode := none }

/-- One character is read by an element that does not repeat. -/
def readOne (nextPt : Nat) : Vars :=
  { v with pt := nextPt, stError := v.stError.or (some v.st), rCode := some v.st, st := v.st + 1 }

/-- `ok_here` for the element at `next_pt`, or `none` for -1, and `_regex_matched`. -/
def okHere (nextPt st : Nat) : Option Nat × Bool :=
  if x.pat nextPt = 0 then (some 1, true)
  else if x.pat nextPt = backslash then
    if regexmap (x.pat (nextPt + 1)) (x.chr st) then
      (some (if isPlus (x.pat (nextPt + 2)) then 0 else 2), true)
    else (none, true)
  else if x.sameChar nextPt st then (some 1, false)
  else (none, true)

/-- A class that repeats and has been matched before: the next element is looked at. -/
def repeatClass : Vars :=
  let nextPt := if x.pat (v.pt + 3) = openParenthesis then v.pt + 4 else v.pt + 3
  match x.okHere nextPt v.st with
  | (none, regexMatched) =>
    { v with regexMatched := regexMatched, rCode := some v.st, st := v.st + 1 }
  | (some ok, regexMatched) =>
    let prtsStr :=
      if x.pat (nextPt - 1) = openParenthesis then
        x.mark v.prtsStr (nextPt - 1) (if regexMatched = true ∧ ok = 1 then v.st + 1 else v.st)
      else v.prtsStr
    if x.pat nextPt = 0 then
      { v with regexMatched := regexMatched, prtsStr := prtsStr, st := v.st + 1 }
    else
      { v with
        regexMatched := regexMatched
        prtsStr := prtsStr
        ptError := if v.ptError.length < 4 then (v.pt, v.st) :: v.ptError else v.ptError
        pt := nextPt + ok
        rCode := some v.st
        st := v.st + 1 }

/-- The class of the pattern has the character. -/
def inClass : Vars :=
  if isPlus (x.pat (v.pt + 2)) = false then readOne v (v.pt + 2)
  else if x.pat (v.pt + 2) = asterisk ∨ v.regexMatched = true then x.repeatClass v
  else
    { v with
      prtsStr :=
        if x.pat (v.pt + 3) = openParenthesis then
          x.mark v.prtsStr (v.pt + 3) (if x.chr (v.st + 1) = 0 then v.st + 1 else v.st)
        else v.prtsStr
      regexMatched := true
      rCode := some v.st
      st := v.st + 1 }

/-- The class of the pattern does not have the character. Where the class is passed, the next round
is for the same character (`st--`). -/
def notInClass : Ret ⊕ Vars :=
  if (x.pat (v.pt + 2) = 0 ∨ x.pat (v.pt + 3) = 0) ∧ v.regexMatched = true ∧
    v.rCode.isSome = true then
    if x.mayEnd v.st then .inl ⟨some v.st, v.prtsStr⟩
    else x.handleError { v with rCode := some v.st, regexMatched := false }
  else if x.pat (v.pt + 2) = plus ∧
    v.regexMatched = true then .inr { v with pt := v.pt + 3, regexMatched := false }
  else if x.pat (v.pt + 2) = asterisk then
    .inr { v with pt := v.pt + 3, rCode := some (v.st - 1), regexMatched := false }
  else x.handleError { v with regexMatched := false }

/-- The comparison of the element at `pt` with the character at `st`. -/
def compare : Ret ⊕ Vars :=
  if x.pat v.pt = backslash then
    if regexmap (x.pat (v.pt + 1)) (x.chr v.st) then .inr (x.inClass v) else x.notInClass v
  else if x.sameChar v.pt v.st then .inr (readOne v (v.pt + 1))
  else x.handleError v

/-- The length of the classes with `*` a pattern begins with. -/
def starsLength : Text → Nat
  | b :: _ :: q :: pt => if b = backslash ∧ q = asterisk then starsLength pt + 3 else 0
  | _ => 0

/-- `PRTS`. -/
def pastParenthesis (pt : Nat) : Nat := if x.pat pt = openParenthesis then pt + 1 else pt

/-- The second part of the condition at the end: a class that repeats, with at most one class with
`*` behind it. The pointer is left where the evaluation stopped. -/
def cleanUpRepeated (pt : Nat) (regexMatched : Bool) : Bool × Nat :=
  if x.pat pt = backslash ∧ regexMatched = true then
    if isPlus (x.pat (pt + 2)) then
      let pt := x.pastParenthesis (pt + 3)
      if x.pat pt = 0 then (true, pt)
      else if x.pat pt = backslash then
        if x.pat (pt + 2) = asterisk then
          let pt := x.pastParenthesis (pt + 3)
          (x.pat pt = 0, pt)
        else (false, pt + 2)
      else (false, pt)
    else (false, pt + 2)
  else (false, pt)

/-- The last part of the condition: a class with `*`. -/
def endsWithStar (pt : Nat) : Bool :=
  x.pat pt = backslash && x.pat (pt + 2) = asterisk && x.pat (x.pastParenthesis (pt + 3)) = 0

/-- The condition at the end: what is left of the pattern may be empty. -/
def cleanUp (pt : Nat) (regexMatched : Bool) : Bool :=
  let pt := x.pastParenthesis pt
  if x.pat pt = 0 then true
  else
    let repeated := x.cleanUpRepeated pt regexMatched
    repeated.1 || x.endsWithStar repeated.2

/-- After the loop. -/
def finish : Ret :=
  let pt := if x.closure.isSome then v.pt + starsLength (x.pattern.drop v.pt) else v.pt
  let prtsStr := if x.pat pt = openParenthesis then x.mark v.prtsStr pt v.st else v.prtsStr
  ⟨if x.cleanUp pt v.regexMatched then v.rCode else none, prtsStr⟩

/-- One round of the loop, or what comes after it at the end of the string. -/
def round : Ret ⊕ Vars :=
  if x.chr v.st = 0 then .inl (x.finish v)
  else
    match x.enter v with
    | .inl ret => .inl ret
    | .inr v => x.compare v

end

/-- The variables before the loop. -/
def init : Vars := ⟨some 0, false, 0, none, 0, [], List.replicate (x.closure.getD []).length none⟩

end Args

/-- `_OS_Regex`, with at most `fuel` rounds. -/
def osRegex (fuel : Nat) (x : Args) : Option Ret := iterate x.round fuel x.init

/-- The pairs of places `OSRegex_Execute_ex` makes sub strings of. -/
def subStrings : List (Option Nat) → List (Nat × Nat)
  | some a :: some b :: rest => (a, b) :: subStrings rest
  | _ => []

/-- What `OSRegex_Execute` returns, and the sub strings as pairs of places. -/
structure Executed where
  ret : Option Int
  subStrings : List (Nat × Nat)

/-- The arguments for a sub pattern. -/
def SubRegex.args (sub : SubRegex) (signed closures : Bool) (str : Text) : Args :=
  ⟨sub.pattern, str, if closures then some (prtsClosure sub.pattern) else none, sub.beginSet,
    sub.endSet, signed⟩

/-- The loop of `OSRegex_Execute` over the sub patterns. -/
def executePatterns (fuel : Nat) (signed closures : Bool) (str : Text) : List SubRegex →
    Option Executed
  | [] => some ⟨none, []⟩
  | sub :: rest =>
    match osRegex fuel (sub.args signed closures str) with
    | none => none
    | some ret =>
      match ret.code with
      | some code => some ⟨some code, if closures then subStrings ret.prtsStr else []⟩
      | none => executePatterns fuel signed closures str rest

/-- `OSRegex_Execute`. -/
def osRegexExecute (fuel : Nat) (signed : Bool) (str : Option Text) (reg : OSRegex) :
    Option Executed :=
  match str with
  | none => some ⟨none, []⟩
  | some str => executePatterns fuel signed reg.closures str reg.patterns

/-! ## The matcher ends -/

namespace Args

variable {x : Args} {v v' w : Vars} {start : Nat}

/-- The loop returns from a state. -/
def Stops (x : Args) (v : Vars) : Prop := ∃ ret, Returns x.round v ret

/-- What comes behind a round ends. -/
def StopsAfter (x : Args) : Ret ⊕ Vars → Prop
  | .inl _ => True
  | .inr v => x.Stops v

theorem stops_of_round (h : x.StopsAfter (x.round v)) : x.Stops v := by
  cases hround : x.round v with
  | inl ret => exact ⟨ret, returns_of_inl hround⟩
  | inr v' =>
    rw [hround] at h
    obtain ⟨ret, hret⟩ := h
    exact ⟨ret, hret.of_inr hround⟩

/-- A step to a later character, or at the same character to a later element. -/
def Forward (x : Args) (v v' : Vars) : Prop :=
  v.st < v'.st ∨ v'.st = v.st ∧ v.pt < v'.pt ∧ v.pt < x.pattern.length

/-- A round goes forward and may save its place, or it fails. -/
inductive Moves (x : Args) (v : Vars) : Ret ⊕ Vars → Prop
  | returns (ret : Ret) : Moves x v (.inl ret)
  | forward (v' : Vars) (h : x.Forward v v')
      (herror : v'.stError = v.stError ∨ v'.stError = some v.st)
      (hsaved : v'.ptError = v.ptError) : Moves x v (.inr v')
  | saves (v' : Vars) (pt : Nat) (h : x.Forward v v') (herror : v'.stError = v.stError)
      (hsaved : v'.ptError = (pt, v.st) :: v.ptError) : Moves x v (.inr v')
  | fails (w : Vars) (hst : w.st = v.st) (herror : w.stError = v.stError)
      (hsaved : w.ptError = v.ptError) : Moves x v (x.handleError w)

theorem lt_length_of_pat {k : Nat} (h : x.pat k ≠ 0) : k < x.pattern.length := by
  by_contra hge
  exact h (by simp [pat, byteAt, Nat.le_of_not_lt hge])

theorem moves_readOne (nextPt : Nat) : x.Moves v (.inr (readOne v nextPt)) := by
  refine .forward _ (.inl (Nat.lt_succ_self _)) ?_ rfl
  cases h : v.stError with
  | none => exact .inr (by simp [readOne, h])
  | some st => exact .inl (by simp [readOne, h])

theorem moves_repeatClass : x.Moves v (.inr (x.repeatClass v)) := by
  have hst : v.st < v.st + 1 := Nat.lt_succ_self _
  unfold repeatClass
  generalize (if x.pat (v.pt + 3) = openParenthesis then v.pt + 4 else v.pt + 3) = nextPt
  dsimp only
  split
  · exact .forward _ (.inl hst) (.inl rfl) rfl
  · split
    · exact .forward _ (.inl hst) (.inl rfl) rfl
    · by_cases hfree : v.ptError.length < 4
      · exact .saves _ v.pt (.inl hst) rfl (if_pos hfree)
      · exact .forward _ (.inl hst) (.inl rfl) (if_neg hfree)

theorem moves_inClass : x.Moves v (.inr (x.inClass v)) := by
  rw [inClass]
  split
  · exact moves_readOne _
  · split
    · exact moves_repeatClass
    · exact .forward _ (.inl (Nat.lt_succ_self _)) (.inl rfl) rfl

/-- Passing a class stays at the character. -/
theorem moves_notInClass (hpt : v.pt < x.pattern.length) : x.Moves v (x.notInClass v) := by
  have hforward : v.pt < v.pt + 3 := by omega
  rw [notInClass]
  split
  · split
    · exact .returns _
    · exact .fails _ rfl rfl rfl
  · split
    · exact .forward _ (.inr ⟨rfl, hforward, hpt⟩) (.inl rfl) rfl
    · split
      · exact .forward _ (.inr ⟨rfl, hforward, hpt⟩) (.inl rfl) rfl
      · exact .fails _ rfl rfl rfl

theorem moves_compare : x.Moves v (x.compare v) := by
  rw [compare]
  split
  · rename_i hbackslash
    have hpt : v.pt < x.pattern.length := lt_length_of_pat (by rw [hbackslash]; decide)
    split
    · exact moves_inClass
    · exact moves_notInClass hpt
  · split
    · exact moves_readOne _
    · exact .fails _ rfl rfl rfl

/-- A parenthesis is passed at the same character. -/
theorem Moves.of_passParenthesis {r : Ret ⊕ Vars} (h : x.Moves (x.passParenthesis v) r) :
    x.Moves v r := by
  have hpass : ∀ v', x.Forward (x.passParenthesis v) v' → x.Forward v v' := fun v' hforward =>
    hforward.imp id fun hsame => ⟨hsame.1, Nat.lt_of_succ_lt hsame.2.1, Nat.lt_of_succ_lt hsame.2.2⟩
  cases h with
  | returns ret => exact .returns ret
  | forward v' h herror hsaved => exact .forward v' (hpass v' h) herror hsaved
  | saves v' pt h herror hsaved => exact .saves v' pt (hpass v' h) herror hsaved
  | fails w hst herror hsaved => exact .fails w hst herror hsaved

theorem moves_round (v : Vars) : x.Moves v (x.round v) := by
  unfold round enter
  split
  · exact .returns _
  · by_cases hend : x.pat v.pt = 0
    · rw [if_pos hend]
      cases x.mayEnd v.st with
      | true => exact .returns _
      | false => exact moves_compare
    · rw [if_neg hend]
      by_cases hparen : x.pat v.pt = openParenthesis
      · rw [if_pos hparen]
        by_cases hdone : x.pat (x.passParenthesis v).pt = 0 ∧
          x.mayEnd (x.passParenthesis v).st = true
        · rw [if_pos hdone]
          exact .returns _
        · rw [if_neg hdone]
          exact moves_compare.of_passParenthesis
      · rw [if_neg hparen]
        exact moves_compare

/-- All places of the state are at `start` or behind it. -/
def Since (start : Nat) (v : Vars) : Prop := start ≤ v.st ∧ ∀ st, v.stError = some st → start ≤ st

theorem Since.of_moves (h : Since start v) (hst : v.st ≤ v'.st)
    (herror : v'.stError = v.stError ∨ v'.stError = some v.st) : Since start v' := by
  refine ⟨Nat.le_trans h.1 hst, fun st hst' => ?_⟩
  rcases herror with hsame | hnew
  · exact h.2 st (hsame ▸ hst')
  · obtain rfl : v.st = st := Option.some.inj (hnew.symm.trans hst')
    exact h.1

theorem Forward.le (h : x.Forward v v') : v.st ≤ v'.st := by
  rcases h with hlt | ⟨hsame, -⟩
  · exact Nat.le_of_lt hlt
  · exact Nat.le_of_eq hsame.symm

/-- The end of the string has been reached, or there is a character left. -/
theorem stops_or_lt : x.Stops v ∨ v.st < x.str.length := by
  by_cases hst : v.st < x.str.length
  · exact .inr hst
  · have hend : x.chr v.st = 0 := by simp [chr, byteAt, Nat.le_of_not_lt hst]
    exact .inl ⟨_, returns_of_inl (by rw [round, if_pos hend])⟩

theorem Forward.lex (h : x.Forward v v') (hst : v.st < x.str.length) :
    Prod.Lex (· < ·) (· < ·)
    (x.str.length - v'.st, x.pattern.length - v'.pt)
      (x.str.length - v.st, x.pattern.length - v.pt) := by
  rcases h with hlt | ⟨hsame, hpt, hlength⟩
  · exact .left _ _ (by omega)
  · rw [hsame]
    exact .right _ (by omega)

/-- A state ends if failing with its saved places ends. -/
theorem stops_of_handleError (v : Vars) (hsince : Since start v)
    (hfails : ∀ w, w.ptError = v.ptError → Since start w → x.StopsAfter (x.handleError w)) :
    x.Stops v := by
  rcases stops_or_lt (x := x) with hstops | hlt
  · exact hstops
  · apply stops_of_round
    have hmoves := moves_round (x := x) v
    generalize x.round v = r at hmoves ⊢
    cases hmoves with
    | returns ret => trivial
    | forward v' hforward herror hsaved =>
      exact stops_of_handleError v' (hsince.of_moves hforward.le herror) fun w hw =>
        hfails w (hw.trans hsaved)
    | saves v' pt hforward herror hsaved =>
      refine stops_of_handleError v' (hsince.of_moves hforward.le (.inl herror)) fun w hw hw' => ?_
      -- the saved place is left behind its character
      rw [handleError, hw.trans hsaved]
      exact stops_of_handleError _ ⟨Nat.le_succ_of_le hsince.1, hw'.2⟩ hfails
    | fails w hst herror hsaved =>
      exact hfails w hsaved ⟨hst ▸ hsince.1, fun st h => hsince.2 st (herror ▸ h)⟩
termination_by (x.str.length - v.st, x.pattern.length - v.pt)
decreasing_by
  · exact hforward.lex hlt
  · exact .left _ _ (by omega)
  · exact hforward.lex hlt

/-- A state without saved places ends: it begins again behind the place where it began. -/
theorem stops_of_since (start : Nat) (v : Vars) (hsince : Since start v) (hsaved : v.ptError = []) :
    x.Stops v := by
  rcases stops_or_lt (x := x) with hstops | hlt
  · exact hstops
  · refine stops_of_handleError v hsince fun w hw hw' => ?_
    rw [handleError, hw.trans hsaved]
    dsimp only
    split
    · trivial
    · refine stops_of_since (start + 1) _ ⟨?_, fun st hst => by cases hst⟩ rfl
      cases herror : w.stError with
      | none => exact Nat.succ_le_succ hw'.1
      | some st => exact Nat.succ_le_succ (hw'.2 st herror)
termination_by x.str.length - start
decreasing_by
  have := hsince.1
  omega

/-- **`_OS_Regex` ends.** For every pattern, string and flags the loop returns. -/
theorem osRegex_returns (x : Args) : ∃ ret n, ∀ fuel, n ≤ fuel → osRegex fuel x = some ret :=
  stops_of_since 0 x.init ⟨Nat.zero_le _, fun st hst => by cases hst⟩ rfl

end Args

end WazAISentinel.OsRegex
