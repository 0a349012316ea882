import Mathlib.Data.List.Infix
import WazAISentinel.OsRegex.Maps

/-!
# Simple patterns

`os_match_compile.c` and `os_match_execute.c`: a pattern is split at `|`, and each part is compared
with the string in one of five ways, chosen by its first and its last character.

What an alternative means is a relation of its own (`AltMatches`): anchored at both ends, at one
end, or contained in the string, without regard to case. The five matchers compute it, except that
`_OS_Match` compares the characters of the pattern as plain `char`: where that is signed, an
alternative without anchors does not match if it has a byte above 127.
-/

namespace WazAISentinel.OsRegex

/-! ## Compiling -/

/-- The functions `match_fp` points to. -/
inductive MatchFp where
  | osMatch
  | strncmp
  | strcmp
  | strmatch
  | strcmpLast
  deriving DecidableEq

/-- A sub pattern: `patterns[i]`, `size[i]` and `match_fp[i]`. -/
structure SubPattern where
  pattern : Text
  size : Nat
  matchFp : MatchFp
  deriving DecidableEq

/-- `OSMatch`. -/
structure OSMatch where
  negate : Nat
  patterns : List SubPattern

/-- `reg->error`. -/
inductive MatchError where
  | patternNull
  | maxsize

/-- The sub pattern for the text from `new_str` to `pt`. `*(pt - 1)` is its last character: it is
read only if the text is not empty. -/
def subPattern (newStr : Text) : SubPattern :=
  let pattern := if newStr.head? = some beginRegex then newStr.tail else newStr
  if newStr.head? = some beginRegex ∧ newStr.getLast? = some endRegex then
    ⟨pattern.take (pattern.length - 1), pattern.length - 1, .strcmp⟩
  else if newStr.length = 0 then ⟨pattern, 0, .strmatch⟩
  else if newStr.getLast? = some endRegex
    then ⟨pattern.take (pattern.length - 1), pattern.length - 1, .strcmpLast⟩
  else if newStr.head? = some beginRegex then ⟨pattern, pattern.length, .strncmp⟩
  else ⟨pattern, pattern.length, .osMatch⟩

/-- The loop over the pattern: `newStr` is what has been passed since the last `|`. -/
def subPatterns (newStr : Text) : Text → List SubPattern
  | [] => [subPattern newStr]
  | c :: pt =>
    if c = orChar then subPattern newStr :: subPatterns [] pt else subPatterns (newStr ++ [c]) pt

/-- `OSMatch_Compile`. -/
def osMatchCompile (pattern : Option Text) (caseSensitive : Bool) : Except MatchError OSMatch :=
  match pattern with
  | none => .error .patternNull
  | some pattern =>
    if pattern.length > osPatternMaxsize then .error .maxsize
    else
      let negate := if pattern.head? = some 33 then 1 else 0
      let pattern := if pattern.head? = some 33 then pattern.tail else pattern
      .ok ⟨negate, subPatterns [] (if caseSensitive then pattern else pattern.map charmap)⟩

/-! ## Executing -/

/-- `strcasecmp` returns 0. -/
def strcasecmp (a b : Text) : Bool := a.map charmap == b.map charmap

/-- `strncasecmp` returns 0. -/
def strncasecmp (a b : Text) (n : Nat) : Bool := (a.map charmap).take n == (b.map charmap).take n

/-- How the inner loop of `_OS_Match` ends. -/
inductive Inner where
  | found
  | ended
  | mismatch
  deriving DecidableEq

variable (signed : Bool)

/-- The inner loop of `_OS_Match`: the rest of the pattern against the string. -/
def osMatchInner : Text → Text → Inner
  | [], _ => .found
  | _ :: _, [] => .ended
  | p :: pt, c :: str =>
    if charValue signed p ≠ (charmap c).toNat then .mismatch else osMatchInner pt str

/-- One round of the outer loop of `_OS_Match`, at `str[i]`. -/
def osMatchAt (pattern str : Text) : Inner :=
  if charValue signed (pattern.headD 0) = (charmap (str.headD 0)).toNat then
    osMatchInner signed pattern.tail str.tail
  else .mismatch

/-- The outer loop of `_OS_Match` from `str[i]` on, with `size - i` more places. -/
def osMatchLoop (pattern : Text) : Nat → Text → Bool
  | 0, str => osMatchAt signed pattern str = .found
  | left + 1, str =>
    match osMatchAt signed pattern str with
    | .found => true
    | .ended => false
    | .mismatch => osMatchLoop pattern left str.tail

/-- `_OS_Match`. -/
def osMatch (pattern str : Text) (strLen size : Nat) : Bool :=
  if strLen < size then false else osMatchLoop signed pattern (strLen - size) str

/-- A call of `match_fp`. -/
def SubPattern.matches (str : Text) (strLen : Nat) (sub : SubPattern) : Bool :=
  match sub.matchFp with
  | .osMatch => osMatch signed sub.pattern str strLen sub.size
  | .strncmp => strncasecmp sub.pattern str sub.size
  | .strcmp => strcasecmp sub.pattern str
  | .strmatch => true
  | .strcmpLast =>
    if strLen < sub.size then false else strcasecmp sub.pattern (str.drop (strLen - sub.size))

/-- The loop of `OSMatch_Execute`. -/
def executeLoop (str : Text) (strLen negate : Nat) : List SubPattern → Nat
  | [] => negate
  | sub :: rest =>
    if sub.matches signed str strLen then (if negate = 0 then 1 else 0)
      else executeLoop str strLen negate rest

/-- `OSMatch_Execute`. -/
def osMatchExecute (str : Option Text) (strLen : Nat) (reg : OSMatch) : Nat :=
  match str with
  | none => 0
  | some str => executeLoop signed str strLen reg.negate reg.patterns

open List

/-! ## The meaning of a pattern -/

/-- The text without regard to case. -/
def folded (s : Text) : Text := s.map charmap

/-- What an alternative matches. -/
inductive AltMatches : Text → Text → Prop where
  | exact {p str : Text} (h : folded p = folded str) : AltMatches
      (beginRegex :: (p ++ [endRegex])) str
  | starts {p str : Text} (hp : p.getLast? ≠ some endRegex) (h : folded p <+: folded str) :
      AltMatches (beginRegex :: p) str
  | ends {p str : Text} (hp : p.head? ≠ some beginRegex) (h : folded p <:+ folded str) :
      AltMatches (p ++ [endRegex]) str
  | contains {p str : Text} (hne : p ≠ []) (hp : p.head? ≠ some beginRegex)
      (hp' : p.getLast? ≠ some endRegex) (h : folded p <:+: folded str) : AltMatches p str
  | empty {str : Text} : AltMatches [] str

/-- The pattern begins with `!`. -/
def Negated (pattern : Text) : Prop := pattern.head? = some 33

instance (pattern : Text) : Decidable (Negated pattern) := inferInstanceAs (Decidable (_ = _))

/-- The alternatives of a pattern. -/
def alternatives (pattern : Text) : List Text :=
  (if Negated pattern then pattern.tail else pattern).splitOn orChar

/-- An alternative without anchors. -/
def Plain (alt : Text) : Prop := alt.head? ≠ some beginRegex ∧ alt.getLast? ≠ some endRegex

/-! ## Searching -/

/-- The inner loop finds the rest of the pattern at the beginning of the string. -/
theorem osMatchInner_found_iff (pt str : Text) :
    osMatchInner signed pt str = .found ↔
      pt <+: folded str ∧ (signed = true → ∀ b ∈ pt, b.toNat < 128) := by
  induction pt generalizing str with
  | nil => exact iff_of_true rfl ⟨List.nil_prefix, fun _ b hb => absurd hb not_mem_nil⟩
  | cons p pt ih =>
    cases str with
    | nil => exact iff_of_false Inner.noConfusion fun h => cons_ne_nil p pt (prefix_nil.1 h.1)
    | cons c str =>
      have hfold : folded (c :: str) = charmap c :: folded str := rfl
      rw [osMatchInner, hfold, cons_prefix_cons]
      by_cases heq : charValue signed p = (charmap c).toNat
      · obtain ⟨hpc, hascii⟩ := (charValue_eq_iff signed p (charmap c)).1 heq
        rw [if_neg fun hne => hne heq, ih]
        constructor
        · intro h
          exact ⟨⟨hpc, h.1⟩, fun hs => forall_mem_cons.2 ⟨hascii hs, h.2 hs⟩⟩
        · intro h
          exact ⟨h.1.2, fun hs => (forall_mem_cons.1 (h.2 hs)).2⟩
      · rw [if_pos heq]
        refine iff_of_false Inner.noConfusion fun h =>
          heq ((charValue_eq_iff signed p (charmap c)).2 ⟨h.1.1, fun hs => ?_⟩)
        exact (forall_mem_cons.1 (h.2 hs)).1

variable {str p : Text}

/-- It does not come to the end of a string that is long enough. -/
theorem osMatchInner_ne_ended {pt : Text} (h : pt.length ≤ str.length) :
    osMatchInner signed pt str ≠ .ended := by
  induction pt generalizing str with
  | nil => exact Inner.noConfusion
  | cons p pt ih =>
    cases str with
    | nil => exact absurd h (Nat.not_succ_le_zero _)
    | cons c str =>
      rw [osMatchInner]
      split
      · exact Inner.noConfusion
      · exact ih (Nat.le_of_succ_le_succ h)

/-- A round compares the whole pattern. -/
theorem osMatchAt_eq (p c : UInt8) (pt str : Text) :
    osMatchAt signed (p :: pt) (c :: str) = osMatchInner signed (p :: pt) (c :: str) := by
  change (if charValue signed p = (charmap c).toNat then osMatchInner signed pt str
      else .mismatch) = _
  rw [osMatchInner]
  by_cases heq : charValue signed p = (charmap c).toNat
  · rw [if_pos heq, if_neg fun hne => hne heq]
  · rw [if_neg heq, if_pos heq]

/-- The outer loop finds the pattern at one of the places that are left. -/
theorem osMatchLoop_iff (p : UInt8) (pt : Text) {left : Nat}
    (h : (p :: pt).length + left ≤ str.length) :
    osMatchLoop signed (p :: pt) left str = true ↔
      ∃ i ≤ left, osMatchInner signed (p :: pt) (str.drop i) = .found := by
  induction left generalizing str with
  | zero =>
    cases str with
    | nil => exact absurd h (Nat.not_succ_le_zero _)
    | cons c str =>
      rw [osMatchLoop, osMatchAt_eq, decide_eq_true_iff]
      constructor
      · exact fun hfound => ⟨0, Nat.le_refl 0, hfound⟩
      · rintro ⟨i, hi, hfound⟩
        rw [Nat.le_zero.1 hi] at hfound
        exact hfound
  | succ left ih =>
    cases str with
    | nil => exact absurd h (Nat.not_succ_le_zero _)
    | cons c str =>
      have hlong : (p :: pt).length + left ≤ str.length := by
        simp only [length_cons] at h ⊢
        omega
      rw [osMatchLoop, osMatchAt_eq]
      cases hinner : osMatchInner signed (p :: pt) (c :: str) with
      | found => exact ⟨fun _ => ⟨0, Nat.zero_le _, hinner⟩, fun _ => rfl⟩
      | ended =>
        have hshort : (p :: pt).length ≤ (c :: str).length := Nat.le_trans (Nat.le_add_right _ _) h
        exact absurd hinner (osMatchInner_ne_ended signed hshort)
      | mismatch =>
        rw [tail_cons, ih hlong]
        constructor
        · rintro ⟨i, hi, hfound⟩
          exact ⟨i + 1, Nat.succ_le_succ hi, hfound⟩
        · rintro ⟨i, hi, hfound⟩
          cases i with
          | zero =>
            rw [drop_zero, hinner] at hfound
            cases hfound
          | succ i => exact ⟨i, Nat.le_of_succ_le_succ hi, hfound⟩

/-- `_OS_Match` finds a pattern that is contained in the string. -/
theorem osMatch_iff (hp : p ≠ []) :
    osMatch signed p str str.length p.length = true ↔
      p <:+: folded str ∧ (signed = true → ∀ b ∈ p, b.toNat < 128) := by
  cases p with
  | nil => exact absurd rfl hp
  | cons p pt =>
    have hfold : (folded str).length = str.length := length_map ..
    rw [osMatch]
    by_cases hshort : str.length < (p :: pt).length
    · rw [if_pos hshort]
      refine iff_of_false Bool.false_ne_true fun h => ?_
      have hle := h.1.length_le
      omega
    · rw [if_neg hshort, osMatchLoop_iff signed p pt (by omega)]
      simp only [osMatchInner_found_iff]
      constructor
      · rintro ⟨i, -, hbegins, hascii⟩
        refine ⟨?_, hascii⟩
        have hsuffix : folded (str.drop i) <:+ folded str := by
          rw [folded, map_drop]
          exact drop_suffix i _
        exact hbegins.isInfix.trans hsuffix.isInfix
      · rintro ⟨⟨before, after, heq⟩, hascii⟩
        have hlength := congrArg length heq
        rw [length_append, length_append, hfold] at hlength
        refine ⟨before.length, by omega, ?_, hascii⟩
        have hrest : folded (str.drop before.length) = (p :: pt) ++ after := by
          rw [folded, map_drop, ← folded, ← heq, append_assoc, drop_left]
        rw [hrest]
        exact prefix_append _ _

/-! ## The five kinds of alternatives -/

theorem subPattern_exact :
    subPattern (beginRegex :: (p ++ [endRegex])) = ⟨p, p.length, .strcmp⟩ := by
  have hlast : (beginRegex :: (p ++ [endRegex])).getLast? = some endRegex := by
    rw [← cons_append, getLast?_concat]
  have hlength : (p ++ [endRegex]).length - 1 = p.length := by
    rw [length_append]
    rfl
  have hhead : (beginRegex :: (p ++ [endRegex])).head? = some beginRegex := rfl
  rw [subPattern, if_pos ⟨hhead, hlast⟩, if_pos hhead, tail_cons, hlength, take_left]

theorem subPattern_starts (hp : p.getLast? ≠ some endRegex) :
    subPattern (beginRegex :: p) = ⟨p, p.length, .strncmp⟩ := by
  have hlast : (beginRegex :: p).getLast? ≠ some endRegex := by
    cases p with
    | nil => decide
    | cons c p =>
      exact hp
  have hhead : (beginRegex :: p).head? = some beginRegex := rfl
  have hlength : ¬ (beginRegex :: p).length = 0 := Nat.succ_ne_zero _
  rw [subPattern, if_neg fun h => hlast h.2, if_neg hlength, if_neg hlast, if_pos hhead,
    if_pos hhead, tail_cons]

theorem subPattern_ends (hp : p.head? ≠ some beginRegex) :
    subPattern (p ++ [endRegex]) = ⟨p, p.length, .strcmpLast⟩ := by
  have hhead : (p ++ [endRegex]).head? ≠ some beginRegex := by
    cases p with
    | nil => decide
    | cons c p => exact hp
  have hlength : (p ++ [endRegex]).length = p.length + 1 := length_append ..
  rw [subPattern, if_neg hhead, if_neg fun h => hhead h.1, hlength, if_neg (Nat.succ_ne_zero _),
    if_pos (getLast?_concat ..), Nat.add_sub_cancel, take_left]

theorem subPattern_contains (hne : p ≠ []) (hp : p.head? ≠ some beginRegex)
    (hp' : p.getLast? ≠ some endRegex) : subPattern p = ⟨p, p.length, .osMatch⟩ := by
  rw [subPattern, if_neg hp, if_neg fun h => hp h.1, if_neg fun h => hne (length_eq_zero_iff.1 h),
    if_neg hp', if_neg hp]

/-! ## The meaning of the compiled alternative -/

theorem folded_begin : folded (beginRegex :: p) = beginRegex :: folded p := rfl

theorem folded_end : folded (p ++ [endRegex]) = folded p ++ [endRegex] := map_append

theorem folded_folded : folded (folded p) = folded p := by
  rw [folded, folded, map_map]
  exact map_congr_left fun b _ => charmap_charmap b

theorem head?_folded_ne (hp : p.head? ≠ some beginRegex) : (folded p).head? ≠ some beginRegex := by
  rw [folded, head?_map, Ne, Option.map_eq_some_iff]
  simpa only [charmap_eq_iff (c := beginRegex) (by decide), exists_eq_right] using hp

theorem getLast?_folded_ne (hp : p.getLast? ≠ some endRegex) :
    (folded p).getLast? ≠ some endRegex := by
  rw [folded, getLast?_map, Ne, Option.map_eq_some_iff]
  simpa only [charmap_eq_iff (c := endRegex) (by decide), exists_eq_right] using hp

theorem matches_exact :
    (subPattern (folded (beginRegex :: (p ++ [endRegex])))).matches signed str str.length = true ↔
      folded p = folded str := by
  rw [folded_begin, folded_end, subPattern_exact]
  change (folded (folded p) == folded str) = true ↔ _
  rw [folded_folded, beq_iff_eq]

theorem matches_starts (hp : p.getLast? ≠ some endRegex) :
    (subPattern (folded (beginRegex :: p))).matches signed str str.length = true ↔
      folded p <+: folded str := by
  rw [folded_begin, subPattern_starts (getLast?_folded_ne hp)]
  change ((folded (folded p)).take (folded p).length == (folded str).take (folded p).length) =
      true ↔ _
  rw [folded_folded, take_length, beq_iff_eq, prefix_iff_eq_take]

theorem matches_ends (hp : p.head? ≠ some beginRegex) :
    (subPattern (folded (p ++ [endRegex]))).matches signed str str.length = true ↔
      folded p <:+ folded str := by
  have hfold : (folded str).length = str.length := length_map ..
  rw [folded_end, subPattern_ends (head?_folded_ne hp)]
  change (if str.length < (folded p).length then false else
    folded (folded p) == folded (str.drop (str.length - (folded p).length))) = true ↔ _
  have hdrop : folded (str.drop (str.length - (folded p).length)) =
      (folded str).drop ((folded str).length - (folded p).length) := by
    rw [hfold]
    exact map_drop
  by_cases hshort : str.length < (folded p).length
  · rw [if_pos hshort]
    refine iff_of_false Bool.false_ne_true fun h => ?_
    have hle := h.length_le
    omega
  · rw [if_neg hshort, folded_folded, beq_iff_eq, hdrop, suffix_iff_eq_drop]

theorem matches_contains (hne : p ≠ []) (hp : p.head? ≠ some beginRegex)
    (hp' : p.getLast? ≠ some endRegex) :
    (subPattern (folded p)).matches signed str str.length = true ↔
      folded p <:+: folded str ∧ (signed = true → ∀ b ∈ p, b.toNat < 128) := by
  have hne' : folded p ≠ [] := fun h => hne (map_eq_nil_iff.1 h)
  have hascii : (∀ b ∈ folded p, b.toNat < 128) ↔ ∀ b ∈ p, b.toNat < 128 := by
    rw [folded, forall_mem_map]
    simp [charmap_lt_iff]
  rw [subPattern_contains hne' (head?_folded_ne hp) (getLast?_folded_ne hp')]
  change osMatch signed (folded p) str str.length (folded p).length = true ↔ _
  rw [osMatch_iff signed hne', hascii]

/-- Every alternative is of one of five forms. -/
theorem alternative_cases (alt : Text) :
    (∃ p, alt = beginRegex :: (p ++ [endRegex])) ∨
      (∃ p, p.getLast? ≠ some endRegex ∧ alt = beginRegex :: p) ∨
      (∃ p, p.head? ≠ some beginRegex ∧ alt = p ++ [endRegex]) ∨
      (alt ≠ [] ∧ alt.head? ≠ some beginRegex ∧ alt.getLast? ≠ some endRegex) ∨ alt = [] := by
  have hconcat : ∀ p : Text, p.getLast? = some endRegex → ∃ q, p = q ++ [endRegex] := fun p hp =>
    getLast?_eq_some_iff.1 hp
  by_cases hhead : alt.head? = some beginRegex
  · obtain ⟨p, rfl⟩ := head?_eq_some_iff.1 hhead
    by_cases hlast : p.getLast? = some endRegex
    · obtain ⟨q, rfl⟩ := hconcat p hlast
      exact .inl ⟨q, rfl⟩
    · exact .inr (.inl ⟨p, hlast, rfl⟩)
  · by_cases hlast : alt.getLast? = some endRegex
    · obtain ⟨q, rfl⟩ := hconcat alt hlast
      refine .inr (.inr (.inl ⟨q, fun hq => hhead ?_, rfl⟩))
      rw [head?_append, hq]
      rfl
    · by_cases hne : alt = []
      · exact .inr (.inr (.inr (.inr hne)))
      · exact .inr (.inr (.inr (.inl ⟨hne, hhead, hlast⟩)))

/-- The compiled alternative matches what the alternative means, except for an unanchored one with a
byte above 127 where `char` is signed. -/
theorem matches_subPattern (alt str : Text) :
    (subPattern (folded alt)).matches signed str str.length = true ↔
      AltMatches alt str ∧ (signed = true → Plain alt → ∀ b ∈ alt, b.toNat < 128) := by
  constructor
  · intro hmatch
    rcases alternative_cases alt
        with ⟨p, rfl⟩ | ⟨p, hp, rfl⟩ | ⟨p, hp, rfl⟩ | ⟨hne, hhead, hlast⟩ | rfl
    · exact ⟨.exact ((matches_exact signed).1 hmatch), fun _ hplain => absurd rfl hplain.1⟩
    · exact ⟨.starts hp ((matches_starts signed hp).1 hmatch), fun _ hplain => absurd rfl hplain.1⟩
    · exact ⟨.ends hp ((matches_ends signed hp).1 hmatch),
        fun _ hplain => absurd (getLast?_concat ..) hplain.2⟩
    · obtain ⟨hcontained, hascii⟩ := (matches_contains signed hne hhead hlast).1 hmatch
      exact ⟨.contains hne hhead hlast hcontained, fun hs _ => hascii hs⟩
    · exact ⟨.empty, fun _ _ b hb => absurd hb not_mem_nil⟩
  · rintro ⟨hmatch, hascii⟩
    cases hmatch with
    | @exact p str h => exact (matches_exact signed).2 h
    | starts hp h => exact (matches_starts signed hp).2 h
    | ends hp h => exact (matches_ends signed hp).2 h
    | contains hne hp hp' h =>
      exact (matches_contains signed hne hp hp').2 ⟨h, fun hs => hascii hs ⟨hp, hp'⟩⟩
    | empty => rfl

/-! ## Patterns -/

/-- The loop of `OSMatch_Compile` splits the pattern at `|`. -/
theorem subPatterns_folded (newStr pt : Text) :
    subPatterns (folded newStr) (folded pt) =
      ((pt.splitOn orChar).modifyHead (newStr ++ ·)).map fun alt => subPattern (folded alt) := by
  induction pt generalizing newStr with
  | nil =>
    change [subPattern (folded newStr)] = [subPattern (folded (newStr ++ []))]
    rw [append_nil]
  | cons c pt ih =>
    have hfold : folded (c :: pt) = charmap c :: folded pt := rfl
    have hmap : charmap c = orChar ↔ c = orChar := charmap_eq_iff (by decide)
    rw [hfold, subPatterns, splitOn_collected]
    by_cases hc : c = orChar
    · rw [if_pos (hmap.2 hc), if_pos hc, map_cons]
      have hrest := ih []
      rw [modifyHead_nil] at hrest
      exact congrArg _ hrest
    · have hconcat : folded newStr ++ [charmap c] = folded (newStr ++ [c]) := by
        rw [folded, folded, map_append, map_singleton]
      rw [if_neg fun h => hc (hmap.1 h), if_neg hc, hconcat, ih]

/-- `OSMatch_Execute` looks for a sub pattern that matches. -/
theorem executeLoop_eq_one_iff {negate : Nat} (hnegate : negate ≤ 1) (patterns : List SubPattern) :
    executeLoop signed str str.length negate patterns = 1 ↔
      ((∃ sub ∈ patterns, sub.matches signed str str.length = true) ↔ negate = 0) := by
  induction patterns with
  | nil =>
    rw [executeLoop]
    simp only [not_mem_nil, false_and, exists_false, false_iff]
    omega
  | cons sub patterns ih =>
    rw [executeLoop]
    by_cases hsub : sub.matches signed str str.length = true
    · have hsome : ∃ sub' ∈ sub :: patterns, sub'.matches signed str str.length = true :=
        ⟨sub, mem_cons_self, hsub⟩
      rw [if_pos hsub]
      by_cases hzero : negate = 0
      · rw [if_pos hzero]
        exact ⟨fun _ => ⟨fun _ => hzero, fun _ => hsome⟩, fun _ => rfl⟩
      · rw [if_neg hzero]
        exact ⟨fun h => absurd h (by decide), fun h => absurd (h.1 hsome) hzero⟩
    · have hrest : (∃ sub' ∈ sub :: patterns, sub'.matches signed str str.length = true) ↔
          ∃ sub' ∈ patterns, sub'.matches signed str str.length = true := by
        rw [exists_mem_cons_iff]
        exact or_iff_right hsub
      rw [if_neg hsub, ih, hrest]

/-- The sub patterns of a compiled pattern are its alternatives. -/
theorem osMatchCompile_eq {pattern : Text} (hsize : pattern.length ≤ osPatternMaxsize) :
    osMatchCompile (some pattern) false =
      .ok ⟨if Negated pattern then 1 else 0,
        (alternatives pattern).map fun alt => subPattern (folded alt)⟩ := by
  have hsplit := subPatterns_folded [] (if Negated pattern then pattern.tail else pattern)
  rw [modifyHead_nil] at hsplit
  rw [osMatchCompile, if_neg (Nat.not_lt.2 hsize)]
  exact congrArg Except.ok (congrArg _ hsplit)

/-- Two answers of which one implies the other lead to the same result iff they agree. -/
theorem answers_agree_iff {found meant plain : Prop} (hsound : found → meant) :
    ((found ↔ plain) ↔ (meant ↔ plain)) ↔ (meant → found) := by
  have hagree : (found ↔ meant) ↔ (meant → found) := ⟨Iff.mpr, fun h => ⟨hsound, h⟩⟩
  by_cases hplain : plain
  · simp [hplain, hagree]
  · simp [hplain, not_iff_not, hagree]

/-- `OSMatch_Execute` returns 1 iff 'some alternative matches' differs from 'the pattern begins with
`!`', under exactly this condition: if alternatives match and `char` is signed, one of them has an
anchor or no byte above 127. -/
theorem os_match_language_iff (pattern str : Text) (hsize : pattern.length ≤ osPatternMaxsize) :
    ∃ reg, osMatchCompile (some pattern) false = .ok reg ∧
      ((osMatchExecute signed (some str) str.length reg = 1 ↔
          ((∃ alt ∈ alternatives pattern, AltMatches alt str) ↔ ¬ Negated pattern)) ↔
        (signed = true → (∃ alt ∈ alternatives pattern, AltMatches alt str) →
          ∃ alt ∈ alternatives pattern, AltMatches alt str ∧
            (Plain alt → ∀ b ∈ alt, b.toNat < 128))) := by
  refine ⟨_, osMatchCompile_eq hsize, ?_⟩
  have hnegate : (if Negated pattern then 1 else 0) ≤ 1 := by split <;> decide
  have hzero : (if Negated pattern then 1 else 0) = 0 ↔ ¬ Negated pattern := by
    rw [ite_eq_right_iff]
    exact forall_congr' fun _ => iff_false_intro Nat.one_ne_zero
  have hcode : (∃ sub ∈ (alternatives pattern).map fun alt => subPattern (folded alt),
      sub.matches signed str str.length = true) ↔
      ∃ alt ∈ alternatives pattern, AltMatches alt str ∧
        (signed = true → Plain alt → ∀ b ∈ alt, b.toNat < 128) := by
    simp [matches_subPattern]
  change (executeLoop signed str str.length _ _ = 1 ↔ _) ↔ _
  rw [executeLoop_eq_one_iff signed hnegate, hzero, hcode,
    answers_agree_iff fun ⟨alt, halt, hmatch, _⟩ => ⟨alt, halt, hmatch⟩]
  cases signed with
  | true => simp only [true_imp_iff]
  | false => simp only [Bool.false_eq_true, false_imp_iff, and_true, imp_self]

/-- `!^ab|C` does not reject a string without these. -/
theorem os_match_language_negated :
    ∃ reg, osMatchCompile (some [33, 94, 97, 98, 124, 67]) false = .ok reg ∧
      ((osMatchExecute true (some [120, 121]) 2 reg = 1 ↔
          ((∃ alt ∈ alternatives [33, 94, 97, 98, 124, 67], AltMatches alt [120, 121]) ↔
            ¬ Negated [33, 94, 97, 98, 124, 67])) ↔
        (true = true → (∃ alt ∈ alternatives [33, 94, 97, 98, 124, 67], AltMatches alt [120, 121]) →
          ∃ alt ∈ alternatives [33, 94, 97, 98, 124, 67], AltMatches alt [120, 121] ∧
            (Plain alt → ∀ b ∈ alt, b.toNat < 128))) :=
  os_match_language_iff true _ _ (by decide)

/-- The pattern `é` in UTF-8 against itself: with signed characters it is not found, while `^é`
is. -/
theorem os_match_misses_high_bytes :
    (∃ reg, osMatchCompile (some [195, 169]) false = .ok reg ∧
      osMatchExecute true (some [195, 169]) 2 reg = 0) ∧
      (∃ alt ∈ alternatives [195, 169], AltMatches alt [195, 169]) ∧ ¬ Negated [195, 169] ∧
      ∃ reg, osMatchCompile (some [94, 195, 169]) false = .ok reg ∧
        osMatchExecute true (some [195, 169]) 2 reg = 1 := by
  refine ⟨⟨_, rfl, by decide⟩, ⟨[195, 169], ?_, ?_⟩, by decide, _, rfl, by decide⟩
  · decide
  · exact .contains (by decide) (by decide) (by decide) (infix_refl _)

end WazAISentinel.OsRegex
