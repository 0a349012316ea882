import Mathlib.Data.List.TakeWhile
import WazAISentinel.Foundations.DecimalDigits
import WazAISentinel.VersionMatcher.CString

/-!
# RPM versions

`rpmvercmp` walks two strings at once: it skips separators, treats `~` and `^` on their own and
otherwise compares a run of digits or of letters. While a run is compared the character behind it is
overwritten with NUL and put back afterwards, so a run is a string of its own.

Read on its own a string is a sequence of symbols: numbers, words, tildes, carets and the end.
`rpmvercmp` returns the lexicographic order of these sequences, for `~` below the end, the end below
`^`, `^` below words and words below numbers.
-/

namespace WazAISentinel.VersionMatcher

open Foundations List

/-- `RIGHT_IS_NEWER`. -/
def rightIsNewer : Int := -1

/-- `LEFT_EQ_RIGHT`. -/
def leftEqRight : Int := 0

/-- `LEFT_IS_NEWER`. -/
def leftIsNewer : Int := 1

/-- `Rpm`, the fields of a `VersionObjectRpm`. -/
structure Rpm where
  epoch : UInt32
  version : List Char
  release : List Char

/-- The characters the comparison skips. -/
def isSeparator (c : Char) : Bool := c ≠ nul && !c.isAlphanum && c ≠ '~' && c ≠ '^'

variable (isNumber : Bool)

/-- Two runs of digits or of letters: numbers by their length without zeros first. -/
def compareSegments (auxLeft auxRight : List Char) : Int :=
  let auxLeft := if isNumber then dropZeros auxLeft else auxLeft
  let auxRight := if isNumber then dropZeros auxRight else auxRight
  if isNumber && auxRight.length < auxLeft.length then leftIsNewer
  else if isNumber && auxLeft.length < auxRight.length then rightIsNewer
  else
    let resultComparision := strcmp auxLeft auxRight
    if resultComparision ≠ 0 then (if resultComparision < 1 then rightIsNewer else leftIsNewer)
    else leftEqRight

/-- The end of `rpmvercmp`: whichever version still has characters left over wins. -/
def compareLeftOver (auxLeft auxRight : List Char) : Int :=
  if deref auxLeft = nul ∧ deref auxRight = nul then leftEqRight
  else if deref auxLeft = nul then rightIsNewer
  else leftIsNewer

/-- The body of the loop of `rpmvercmp` once the separators are skipped; `next` is the loop
itself. -/
def rpmvercmpRound (next : List Char → List Char → Option Int) (auxLeft auxRight : List Char) :
    Option Int :=
  if deref auxLeft = '~' ∨ deref auxRight = '~' then
    if deref auxLeft ≠ '~' then some leftIsNewer
    else if deref auxRight ≠ '~' then some rightIsNewer
    else next auxLeft.tail auxRight.tail
  else if deref auxLeft = '^' ∨ deref auxRight = '^' then
    if deref auxLeft = nul then some rightIsNewer
    else if deref auxRight = nul then some leftIsNewer
    else if deref auxLeft ≠ '^' then some leftIsNewer
    else if deref auxRight ≠ '^' then some rightIsNewer
    else next auxLeft.tail auxRight.tail
  else if deref auxLeft = nul ∨ deref auxRight = nul then some (compareLeftOver auxLeft auxRight)
  else
    -- a run of the kind the left string starts with, possibly empty in the right string
    let isNumber := (deref auxLeft).isDigit
    let inSegment := if isNumber then Char.isDigit else Char.isAlpha
    let segmentLeft := auxLeft.takeWhile inSegment
    let segmentRight := auxRight.takeWhile inSegment
    if segmentLeft = [] then some rightIsNewer
    else if segmentRight = [] then some (if isNumber then leftIsNewer else rightIsNewer)
    else if compareSegments isNumber segmentLeft segmentRight ≠ leftEqRight then
      some (compareSegments isNumber segmentLeft segmentRight)
    else next (auxLeft.dropWhile inSegment) (auxRight.dropWhile inSegment)

/-- The loop of `rpmvercmp`. Each round but the last takes a character off both strings, so `fuel`
above their lengths is never used up. -/
def rpmvercmpLoop : Nat → List Char → List Char → Option Int
  | 0, _, _ => none
  | fuel + 1, auxLeft, auxRight =>
    if deref auxLeft = nul ∧ deref auxRight = nul then some (compareLeftOver auxLeft auxRight)
    else rpmvercmpRound (rpmvercmpLoop fuel) (auxLeft.dropWhile isSeparator)
      (auxRight.dropWhile isSeparator)

/-- `rpmvercmp`. -/
def rpmvercmp (leftVer rightVer : List Char) : Option Int :=
  if leftVer = rightVer then some leftEqRight
  else rpmvercmpLoop (leftVer.length + rightVer.length + 1) leftVer rightVer

/-- `compareRpmVersion`. -/
def compareRpmVersion (a b : Rpm) : Option Int :=
  if a.epoch ≠ b.epoch then some (if a.epoch < b.epoch then rightIsNewer else leftIsNewer)
  else (rpmvercmp a.version b.version).bind fun verComp =>
    if verComp ≠ leftEqRight then some verComp else rpmvercmp a.release b.release

/-! ## The symbols of a string -/

/-- A symbol of a version string; `stop` is its end. -/
inductive Symbol where
  | tilde
  | stop
  | caret
  | letters (word : List Char)
  | number (value : Nat)
  deriving DecidableEq, Repr

namespace Symbol

/-- The order of the kinds. -/
def rank : Symbol → Nat
  | tilde => 0
  | stop => 1
  | caret => 2
  | letters _ => 3
  | number _ => 4

/-- The letters of a word. -/
def word : Symbol → List Char
  | letters word => word
  | _ => []

/-- The value of a number. -/
def value : Symbol → Nat
  | number value => value
  | _ => 0

/-- Symbols compare by kind, words by their letters and numbers by their values. -/
def compare (a b : Symbol) : Ordering :=
  (Ord.compare a.rank b.rank).then
    ((List.compareLex Ord.compare a.word b.word).then (Ord.compare a.value b.value))

instance : Std.TransCmp compare :=
  haveI := transCmp_on (Ord.compare : Nat → Nat → Ordering) value
  haveI :=
    transCmp_then (List.compareLex Ord.compare) word fun a b => Ord.compare (value a) (value b)
  transCmp_then Ord.compare rank _

instance : Std.LawfulEqCmp compare where
  eq_of_compare {a b} h := by
    simp only [compare, Ordering.then_eq_eq, Std.LawfulEqCmp.compare_eq_iff_eq] at h
    cases a <;> cases b <;> simp_all [rank, word, value]

end Symbol

/-- The maximal runs of digits as numbers, the maximal runs of letters, the tildes and the carets,
then the end; everything else is ignored. -/
def symbols : List Char → List Symbol
  | [] => [.stop]
  | c :: s =>
    if c.isDigit then
      .number (decimal (c :: s.takeWhile Char.isDigit)) :: symbols (s.dropWhile Char.isDigit)
    else if c.isAlpha then
      .letters (c :: s.takeWhile Char.isAlpha) :: symbols (s.dropWhile Char.isAlpha)
    else if c = '~' then .tilde :: symbols s
    else if c = '^' then .caret :: symbols s
    else symbols s
  termination_by s => s.length
  decreasing_by
    · exact Nat.lt_succ_of_le (dropWhile_sublist _).length_le
    · exact Nat.lt_succ_of_le (dropWhile_sublist _).length_le
    · exact Nat.lt_succ_self _
    · exact Nat.lt_succ_self _
    · exact Nat.lt_succ_self _

/-- The order of two version strings. -/
def compareSymbols (l r : List Char) : Ordering :=
  List.compareLex Symbol.compare (symbols l) (symbols r)

instance : Std.TransCmp compareSymbols := transCmp_on (List.compareLex Symbol.compare) symbols

theorem compareSymbols_self (s : List Char) : compareSymbols s s = .eq := Std.ReflCmp.compare_self

/-! ## What a cursor sees -/

/-- A text at which the comparison stops skipping. -/
inductive Head : List Char → Prop
  | stop : Head []
  | tilde (s : List Char) : Head ('~' :: s)
  | caret (s : List Char) : Head ('^' :: s)
  | digit {c : Char} (s : List Char) (hc : c.isDigit = true) : Head (c :: s)
  | letter {c : Char} (s : List Char) (hc : c.isAlpha = true) : Head (c :: s)

variable {c d : Char} {s l r t : List Char} {a b : Symbol} {as bs : List Symbol}

theorem not_isDigit_of_isAlpha (hc : c.isAlpha = true) : c.isDigit = false := by
  rw [Bool.eq_false_iff, Ne, Char.isDigit_iff_toNat]
  exact fun hdigit => (toNat_of_isAlpha hc).1.not_ge hdigit.2

theorem ne_of_isAlphanum (hc : c.isAlphanum = true) (hd : d.isAlphanum = false) : c ≠ d := by
  rintro rfl
  rw [hc] at hd
  cases hd

/-- The characters of a run of digits or of letters. -/
def inSegment : Char → Bool := if isNumber then Char.isDigit else Char.isAlpha

/-- The symbol of a run. -/
def Symbol.run (text : List Char) : Symbol :=
  if isNumber then .number (decimal text) else .letters text

theorem Symbol.two_lt_rank_run (text : List Char) :
    2 < (Symbol.run isNumber text).rank := by
  cases isNumber
  · exact Nat.lt_succ_self 2
  · exact Nat.le_succ 3

theorem inSegment_eq (hc : c.isAlphanum = true) (isNumber : Bool) :
    inSegment isNumber c = (isNumber == c.isDigit) := by
  cases isNumber with
  | true => exact (Bool.true_beq _).symm
  | false =>
    change c.isAlpha = _
    cases halpha : c.isAlpha with
    | true =>
      rw [not_isDigit_of_isAlpha halpha]
      rfl
    | false =>
      have hdigit : c.isDigit = true := by simpa [Char.isAlphanum, halpha] using hc
      rw [hdigit]
      rfl

theorem inSegment_self (hc : c.isAlphanum = true) : inSegment c.isDigit c = true := by
  rw [inSegment_eq hc, beq_self_eq_true]

/-- Behind the separators a string without NUL has ended or starts with a symbol. -/
theorem head_dropWhile (hs : nul ∉ s) : Head (s.dropWhile isSeparator) := by
  induction s with
  | nil => exact .stop
  | cons c s ih =>
    rw [mem_cons, not_or] at hs
    rw [dropWhile_cons]
    split_ifs with hc
    · exact ih hs.2
    · simp only [isSeparator, Bool.and_eq_true, decide_eq_true_eq, not_and, Bool.not_eq_true',
        not_not] at hc
      by_cases hdigit : c.isDigit = true
      · exact .digit s hdigit
      · by_cases halpha : c.isAlpha = true
        · exact .letter s halpha
        · have hother : c.isAlphanum = false := by simp [Char.isAlphanum, hdigit, halpha]
          by_cases htilde : c = '~'
          · subst htilde
            exact .tilde s
          · have hcaret : c = '^' := hc ⟨⟨Ne.symm hs.1, hother⟩, htilde⟩
            subst hcaret
            exact .caret s

/-- Separators are not symbols. -/
theorem symbols_dropWhile : symbols (s.dropWhile isSeparator) = symbols s := by
  induction s with
  | nil => rfl
  | cons c s ih =>
    rw [dropWhile_cons]
    split_ifs with hc
    · simp only [isSeparator, Bool.and_eq_true, Bool.not_eq_true', decide_eq_true_eq,
        Char.isAlphanum, Bool.or_eq_false_iff] at hc
      obtain ⟨⟨⟨-, halpha, hdigit⟩, htilde⟩, hcaret⟩ := hc
      rw [ih]
      conv_rhs => rw [symbols]
      simp [hdigit, halpha, htilde, hcaret]
    · rfl

@[simp] theorem symbols_nil : symbols [] = [.stop] := by rw [symbols]

@[simp] theorem symbols_tilde : symbols ('~' :: s) = .tilde :: symbols s := by
  rw [symbols]
  rfl

@[simp] theorem symbols_caret : symbols ('^' :: s) = .caret :: symbols s := by
  rw [symbols]
  rfl

theorem symbols_run (hc : c.isAlphanum = true) (s : List Char) :
    symbols (c :: s) =
    .run c.isDigit ((c :: s).takeWhile (inSegment c.isDigit)) ::
      symbols ((c :: s).dropWhile (inSegment c.isDigit)) := by
  have hin := inSegment_self hc
  rw [symbols, takeWhile_cons_of_pos hin, dropWhile_cons_of_pos hin]
  cases hdigit : c.isDigit with
  | true => rfl
  | false =>
    rw [hdigit] at hin
    exact if_pos hin

/-- A cursor stands at the end, at `~`, at `^` or at a run. -/
theorem Head.kinds (h : Head s) :
    s = [] ∨ (∃ t, s = '~' :: t) ∨ (∃ t, s = '^' :: t) ∨ ∃ c t, s = c :: t ∧
      c.isAlphanum = true := by
  cases h with
  | stop => exact .inl rfl
  | tilde t => exact .inr (.inl ⟨t, rfl⟩)
  | caret t => exact .inr (.inr (.inl ⟨t, rfl⟩))
  | digit t hc => exact .inr (.inr (.inr ⟨_, t, rfl, by simp [Char.isAlphanum, hc]⟩))
  | letter t hc => exact .inr (.inr (.inr ⟨_, t, rfl, by simp [Char.isAlphanum, hc]⟩))

/-! ## Comparing symbol by symbol -/

/-- The first symbols decide if they are of different kinds. -/
theorem sign_of_rank_lt (hl : symbols l = a :: as) (hr : symbols r = b :: bs)
    (h : a.rank < b.rank) : sign (compareSymbols l r) = rightIsNewer := by
  rw [compareSymbols, hl, hr, List.compareLex_cons_cons, Symbol.compare, Nat.compare_eq_lt.2 h]
  rfl

theorem sign_of_rank_gt (hl : symbols l = a :: as) (hr : symbols r = b :: bs)
    (h : b.rank < a.rank) : sign (compareSymbols l r) = leftIsNewer := by
  rw [compareSymbols, hl, hr, List.compareLex_cons_cons, Symbol.compare, Nat.compare_eq_gt.2 h]
  rfl

theorem compareSegments_number (hs : ∀ c ∈ s, c.isDigit = true) (ht : ∀ c ∈ t, c.isDigit = true) :
    compareSegments true s t =
      sign (Symbol.compare (.number (decimal s)) (.number (decimal t))) := by
  have hcompare : Symbol.compare (.number (decimal s)) (.number (decimal t)) =
      compare (decimal s) (decimal t) := rfl
  rw [hcompare, compare_decimal hs ht]
  simp only [compareSegments, if_true, Bool.true_and, strcmp_eq]
  rcases lt_trichotomy (dropZeros s).length (dropZeros t).length with hlt | heq | hgt
  · simp [hlt, hlt.not_gt, Nat.compare_eq_lt.2 hlt, sign, rightIsNewer]
  · simp only [heq, lt_irrefl, decide_false, Bool.false_eq_true, if_false, Nat.compare_eq_eq.2,
      Ordering.eq_then]
    cases List.compareLex compare (dropZeros s) (dropZeros t) <;> rfl
  · simp [hgt, Nat.compare_eq_gt.2 hgt, sign, leftIsNewer]

theorem compareSegments_letters :
    compareSegments false s t = sign (Symbol.compare (.letters s) (.letters t)) := by
  have hcompare : Symbol.compare (.letters s) (.letters t) =
      (List.compareLex compare s t).then .eq := rfl
  rw [hcompare]
  simp only [compareSegments, Bool.false_eq_true, if_false, Bool.false_and, strcmp_eq]
  cases List.compareLex compare s t <;> rfl

theorem compareSegments_run (s t : List Char) :
    compareSegments isNumber (s.takeWhile (inSegment isNumber)) (t.takeWhile (inSegment isNumber)) =
      sign ((Symbol.run isNumber (s.takeWhile (inSegment isNumber))).compare
        (.run isNumber (t.takeWhile (inSegment isNumber)))) := by
  cases isNumber with
  | true =>
    exact compareSegments_number (fun _ hx => mem_takeWhile_imp hx) fun _ hx =>
      mem_takeWhile_imp hx
  | false => exact compareSegments_letters

/-- Equal first symbols leave the rest to be compared, different ones decide. -/
theorem sign_compareSymbols_cons {l' r' : List Char} (hl : symbols l = a :: symbols l')
    (hr : symbols r = b :: symbols r') :
    sign (compareSymbols l r) = if sign (a.compare b) ≠ 0 then sign (a.compare b)
      else sign (compareSymbols l' r') := by
  rw [compareSymbols, hl, hr, List.compareLex_cons_cons]
  cases a.compare b <;> rfl

/-! ## The loop -/

/-- What a cursor at a run does not see. -/
theorem ne_of_run (hc : c.isAlphanum = true) : c ≠ '~' ∧ c ≠ '^' ∧ c ≠ nul :=
  ⟨ne_of_isAlphanum hc rfl, ne_of_isAlphanum hc rfl, ne_of_isAlphanum hc rfl⟩

section Round

variable {next : List Char → List Char → Option Int}

/-- One side stands at `~`. -/
theorem round_tilde_left (hr : Head r)
    (hnext : ∀ t, r = '~' :: t → next s t = some (sign (compareSymbols s t))) :
    rpmvercmpRound next ('~' :: s) r = some (sign (compareSymbols ('~' :: s) r)) := by
  rcases hr.kinds with rfl | ⟨t, rfl⟩ | ⟨t, rfl⟩ | ⟨c, t, rfl, hc⟩
  · rw [sign_of_rank_lt symbols_tilde symbols_nil (by decide)]
    rfl
  · rw [sign_compareSymbols_cons symbols_tilde symbols_tilde]
    exact hnext t rfl
  · rw [sign_of_rank_lt symbols_tilde symbols_caret (by decide)]
    rfl
  · rw [sign_of_rank_lt symbols_tilde (symbols_run hc t)
      (Nat.zero_lt_of_lt (Symbol.two_lt_rank_run _ _))]
    simp [rpmvercmpRound, (ne_of_run hc).1]

/-- The left side does not stand at `~`, the right side does. -/
theorem round_tilde_right (hl : symbols l = a :: as) (ha : 0 < a.rank) (hne : deref l ≠ '~') :
    rpmvercmpRound next l ('~' :: t) = some (sign (compareSymbols l ('~' :: t))) := by
  rw [sign_of_rank_gt hl symbols_tilde ha]
  simp [rpmvercmpRound, hne]

/-- The left side has ended. -/
theorem round_stop_left {r : List Char} (hr : Head r) :
    rpmvercmpRound next [] r = some (sign (compareSymbols [] r)) := by
  rcases hr.kinds with rfl | ⟨t, rfl⟩ | ⟨t, rfl⟩ | ⟨c, t, rfl, hc⟩
  · rw [compareSymbols_self]
    rfl
  · exact round_tilde_right symbols_nil (by decide) (by decide)
  · rw [sign_of_rank_lt symbols_nil symbols_caret (by decide)]
    rfl
  · obtain ⟨htilde, hcaret, hnul⟩ := ne_of_run hc
    rw [sign_of_rank_lt symbols_nil (symbols_run hc t)
      (Nat.lt_of_succ_lt (Symbol.two_lt_rank_run _ _))]
    simp [rpmvercmpRound, compareLeftOver, htilde, hcaret, hnul, show nul ≠ '~' by decide,
      show nul ≠ '^' by decide]

/-- The left side stands at `^`. -/
theorem round_caret_left (hr : Head r)
    (hnext : ∀ t, r = '^' :: t → next s t = some (sign (compareSymbols s t))) :
    rpmvercmpRound next ('^' :: s) r = some (sign (compareSymbols ('^' :: s) r)) := by
  rcases hr.kinds with rfl | ⟨t, rfl⟩ | ⟨t, rfl⟩ | ⟨c, t, rfl, hc⟩
  · rw [sign_of_rank_gt symbols_caret symbols_nil (by decide)]
    rfl
  · exact round_tilde_right symbols_caret (by decide) (by simp)
  · rw [sign_compareSymbols_cons symbols_caret symbols_caret]
    exact hnext t rfl
  · obtain ⟨htilde, hcaret, hnul⟩ := ne_of_run hc
    rw [sign_of_rank_lt symbols_caret (symbols_run hc t) (Symbol.two_lt_rank_run _ _)]
    simp [rpmvercmpRound, htilde, hcaret, hnul, show '^' ≠ nul by decide]

/-- Both sides stand at a run: runs of one kind are compared, and a number is above a word. -/
theorem round_runs (hc : c.isAlphanum = true) (hd : d.isAlphanum = true)
    (hnext : next ((c :: s).dropWhile (inSegment c.isDigit))
    ((d :: t).dropWhile (inSegment c.isDigit)) = some (sign (compareSymbols
    ((c :: s).dropWhile (inSegment c.isDigit)) ((d :: t).dropWhile (inSegment c.isDigit))))) :
    rpmvercmpRound next (c :: s) (d :: t) = some (sign (compareSymbols (c :: s) (d :: t))) := by
  obtain ⟨htilde, hcaret, hnul⟩ := ne_of_run hc
  obtain ⟨htilde', hcaret', hnul'⟩ := ne_of_run hd
  have hl := symbols_run hc s
  have hr := symbols_run hd t
  have hsegment : (c :: s).takeWhile (inSegment c.isDigit) ≠ [] := by simp [inSegment_self hc]
  have hright := inSegment_eq hd c.isDigit
  rw [rpmvercmpRound, if_neg (by simp [htilde, htilde']), if_neg (by simp [hcaret, hcaret']),
    if_neg (by simp [hnul, hnul'])]
  refine (if_neg hsegment).trans ?_
  change (if (d :: t).takeWhile (inSegment c.isDigit) = [] then _ else
    if compareSegments c.isDigit ((c :: s).takeWhile (inSegment c.isDigit))
      ((d :: t).takeWhile (inSegment c.isDigit)) ≠ leftEqRight then
      some (compareSegments c.isDigit ((c :: s).takeWhile (inSegment c.isDigit))
        ((d :: t).takeWhile (inSegment c.isDigit)))
    else next ((c :: s).dropWhile (inSegment c.isDigit))
      ((d :: t).dropWhile (inSegment c.isDigit))) = _
  by_cases hkind : c.isDigit = d.isDigit
  · rw [← hkind] at hr
    rw [hkind, beq_self_eq_true, ← hkind] at hright
    rw [if_neg (by simp [hright]), compareSegments_run, sign_compareSymbols_cons hl hr, hnext]
    exact (apply_ite some _ _ _).symm
  · rw [if_pos (by simp [hright, hkind])]
    cases hdigit : c.isDigit with
    | true =>
      have hword : d.isDigit = false := by simpa [hdigit] using Ne.symm hkind
      rw [hdigit] at hl
      rw [hword] at hr
      rw [sign_of_rank_gt hl hr (Nat.lt_succ_self 3)]
      exact congrArg some (if_pos hdigit)
    | false =>
      have hnumber : d.isDigit = true := by simpa [hdigit] using Ne.symm hkind
      rw [hdigit] at hl
      rw [hnumber] at hr
      rw [sign_of_rank_lt hl hr (Nat.lt_succ_self 3)]
      exact congrArg some (if_neg (Bool.eq_false_iff.1 hdigit))

/-- The left side stands at a run. -/
theorem round_run_left (hc : c.isAlphanum = true) (hr : Head r)
    (hnext : next ((c :: s).dropWhile (inSegment c.isDigit)) (r.dropWhile (inSegment c.isDigit)) =
    some (sign (compareSymbols ((c :: s).dropWhile (inSegment c.isDigit))
    (r.dropWhile (inSegment c.isDigit))))) :
    rpmvercmpRound next (c :: s) r = some (sign (compareSymbols (c :: s) r)) := by
  obtain ⟨htilde, hcaret, hnul⟩ := ne_of_run hc
  have hl := symbols_run hc s
  have hrank := Symbol.two_lt_rank_run c.isDigit ((c :: s).takeWhile (inSegment c.isDigit))
  rcases hr.kinds with rfl | ⟨t, rfl⟩ | ⟨t, rfl⟩ | ⟨d, t, rfl, hd⟩
  · rw [sign_of_rank_gt hl symbols_nil (Nat.lt_of_succ_lt hrank)]
    simp [rpmvercmpRound, compareLeftOver, htilde, hcaret, hnul, show nul ≠ '~' by decide,
      show nul ≠ '^' by decide]
  · exact round_tilde_right hl (Nat.zero_lt_of_lt hrank) (by simpa using htilde)
  · rw [sign_of_rank_gt hl symbols_caret hrank]
    simp [rpmvercmpRound, htilde, hcaret, hnul, show '^' ≠ nul by decide]
  · exact round_runs hc hd hnext

end Round

theorem length_dropWhile_lt {p : Char → Bool} (hc : p c = true) :
    ((c :: s).dropWhile p).length < (c :: s).length := by
  rw [dropWhile_cons_of_pos hc]
  exact Nat.lt_succ_of_le (s.length_dropWhile_le p)

/-- The loop returns the order of the symbols. -/
theorem rpmvercmpLoop_eq {fuel : Nat} (hl : nul ∉ l) (hr : nul ∉ r)
    (hfuel : l.length + r.length < fuel) :
    rpmvercmpLoop fuel l r = some (sign (compareSymbols l r)) := by
  induction fuel generalizing l r with
  | zero => cases hfuel
  | succ fuel ih =>
    rw [rpmvercmpLoop]
    split_ifs with hended
    · -- both strings have ended
      rw [(deref_eq_nul hl).1 hended.1, (deref_eq_nul hr).1 hended.2]
      exact @round_stop_left (fun _ _ => none) [] .stop
    · have hsuffix : ∀ {s : List Char} {p : Char → Bool}, nul ∉ s → nul ∉ s.dropWhile p :=
        fun hs hmem => hs ((dropWhile_sublist _).mem hmem)
      have hsame : compareSymbols l r =
          compareSymbols (l.dropWhile isSeparator) (r.dropWhile isSeparator) := by
        rw [compareSymbols, compareSymbols, symbols_dropWhile, symbols_dropWhile]
      have hl' := l.length_dropWhile_le isSeparator
      have hr' := r.length_dropWhile_le isSeparator
      rw [hsame]
      have hheadl := head_dropWhile hl
      have hheadr := head_dropWhile hr
      have hnol := hsuffix (p := isSeparator) hl
      have hnor := hsuffix (p := isSeparator) hr
      generalize l.dropWhile isSeparator = l' at hheadl hl' hnol ⊢
      generalize r.dropWhile isSeparator = r' at hheadr hr' hnor ⊢
      have htails : ∀ {c d s t}, l' = c :: s → r' = d :: t →
          rpmvercmpLoop fuel s t = some (sign (compareSymbols s t)) := by
        rintro c d s t rfl rfl
        rw [mem_cons, not_or] at hnol hnor
        simp only [length_cons] at hl' hr'
        exact ih hnol.2 hnor.2 (by omega)
      rcases hheadl.kinds with rfl | ⟨s, rfl⟩ | ⟨s, rfl⟩ | ⟨c, s, rfl, hc⟩
      · exact round_stop_left hheadr
      · exact round_tilde_left hheadr fun t ht => htails rfl ht
      · exact round_caret_left hheadr fun t ht => htails rfl ht
      · have hshort := length_dropWhile_lt (s := s) (inSegment_self hc)
        have hright := r'.length_dropWhile_le (inSegment c.isDigit)
        exact round_run_left hc hheadr (ih (hsuffix hnol) (hsuffix hnor) (by omega))

/-- `rpmvercmp` returns the order of the symbols. -/
theorem rpmvercmp_eq (l r : CString) :
    rpmvercmp l.text r.text = some (sign (compareSymbols l.text r.text)) := by
  rw [rpmvercmp]
  split_ifs with heq
  · rw [heq, compareSymbols_self]
    rfl
  · exact rpmvercmpLoop_eq l.noNul r.noNul (Nat.lt_succ_self _)

/-! ## Epoch, version and release -/

/-- Strings without NUL characters. -/
def Rpm.WithoutNul (v : Rpm) : Prop := nul ∉ v.version ∧ nul ∉ v.release

/-- The order of epoch, version and release. -/
def compareRpm (a b : {v : Rpm // v.WithoutNul}) : Ordering :=
  (compare a.1.epoch b.1.epoch).then
    ((compareSymbols a.1.version b.1.version).then (compareSymbols a.1.release b.1.release))

instance : Std.TransCmp compareRpm :=
  haveI := transCmp_on compareSymbols fun v : {v : Rpm // v.WithoutNul} => v.1.release
  haveI := transCmp_then compareSymbols (fun v : {v : Rpm // v.WithoutNul} => v.1.version)
    fun a b => compareSymbols a.1.release b.1.release
  transCmp_then compare (fun v : {v : Rpm // v.WithoutNul} => v.1.epoch) _

theorem compareRpmVersion_eq (a b : {v : Rpm // v.WithoutNul}) :
    compareRpmVersion a b = some (sign (compareRpm a b)) := by
  have hversion := rpmvercmp_eq ⟨a.1.version, a.2.1⟩ ⟨b.1.version, b.2.1⟩
  have hrelease := rpmvercmp_eq ⟨a.1.release, a.2.2⟩ ⟨b.1.release, b.2.2⟩
  rw [compareRpmVersion, compareRpm, hversion, hrelease]
  by_cases hepoch : a.1.epoch = b.1.epoch
  · have heq : compare a.1.epoch b.1.epoch = .eq := Std.LawfulEqCmp.compare_eq_iff_eq.2 hepoch
    rw [if_neg (not_not.2 hepoch), heq, Ordering.eq_then, Option.bind_some]
    cases compareSymbols a.1.version b.1.version <;> rfl
  · rw [if_pos hepoch]
    by_cases hlt : a.1.epoch < b.1.epoch
    · have hcompare : compare a.1.epoch b.1.epoch = .lt := Std.compare_eq_lt.2 hlt
      rw [if_pos hlt, hcompare]
      rfl
    · have hcompare : compare a.1.epoch b.1.epoch = .gt := by
        rw [Std.compare_eq_gt]
        exact UInt32.lt_of_le_of_ne (UInt32.not_lt.1 hlt) (Ne.symm hepoch)
      rw [if_neg hlt, hcompare]
      rfl

/-- **RPM versions are totally preordered.** `rpmvercmp` is the lexicographic order of the symbols
of two strings without NUL characters; `compareRpmVersion` ranks the triples of epoch, version and
release. -/
theorem rpm_total_preorder :
    (∀ l r : CString, rpmvercmp l.text r.text = some (sign (compareSymbols l.text r.text))) ∧
      (∀ l r : CString, rpmvercmp l.text r.text = some 0 ↔ symbols l.text = symbols r.text) ∧
      RanksTotally (fun l r : CString => rpmvercmp l.text r.text) ∧
      RanksTotally (fun a b : {v : Rpm // v.WithoutNul} => compareRpmVersion a b) := by
  refine ⟨rpmvercmp_eq, ?_, ?_, ?_⟩
  · intro l r
    rw [rpmvercmp_eq, Option.some.injEq, sign_eq_zero, compareSymbols]
    exact Std.LawfulEqCmp.compare_eq_iff_eq
  · have := transCmp_on compareSymbols CString.text
    exact ranksTotally_of_sign (fun l r : CString => compareSymbols l.text r.text) rpmvercmp_eq
  · exact ranksTotally_of_sign _ compareRpmVersion_eq

end WazAISentinel.VersionMatcher
