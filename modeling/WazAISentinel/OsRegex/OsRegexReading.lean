import WazAISentinel.OsRegex.OsRegexLanguage

/-!
# Reading a compiled pattern

The alternatives and strings for which the search of `_OS_Regex` is right: in no attempt does a
class that repeats take a character with which what comes after it can begin (`Alternative.Simple`).
Then the lookahead at the next element never succeeds, and the condition behind the loop says
whether what is left of the pattern may be empty.
-/

namespace WazAISentinel.OsRegex

open Foundations SeqItem List

/-! ## Alternatives without ambiguity -/

/-- The ends for which the condition behind the loop is wrong: two classes with `*`, and a class
that repeats, a class that does not and a class with `*`. If the places of the parentheses are kept
(`closures`), classes with `*` are passed over before the condition, and a class with `+` behind
them is taken for one that has begun to repeat. -/
def confusing (closures : Bool) : List Element → Bool
  | [.cls _ .star, .cls _ .star] => true
  | [.cls _ q, .cls _ .once, .cls _ .star] => q ≠ .once
  | [.cls _ .star, .cls _ .plus] => closures
  | [.cls _ .star, .cls _ .plus, .cls _ .star] => closures
  | _ => false

/-- What is left of a pattern at the end of the string has no end that confuses. -/
def settled (closures : Bool) (left : List Element) : Bool :=
  left.tails.all fun l => !confusing closures l

/-- What the search handles: no parentheses side by side, and no literal character above 127 that
occurs in the string if `char` is signed. -/
structure Simple (signed : Bool) (str : Text) (ps : List Piece) : Prop where
  parens : ps.IsChain fun p p' => ¬ (p = .paren ∧ p' = .paren)
  ascii : signed = true → ∀ b, .elem (.literal b) ∈ ps → ∀ c ∈ str, charmap c = charmap b →
    b.toNat < 128

/-- The last `n` elements. -/
def lastElements (ps : List Piece) (n : Nat) : List Element :=
  (elements ps).drop ((elements ps).length - n)

/-- The attempt at a place. -/
def Alternative.attempt (alt : Alternative) (str : Text) (i : Nat) : Outcome :=
  scan alt.ends (itemsOf alt.body) false none i (str.drop i)

/-- A simple alternative. In no attempt up to the first match does a class that may be left take a
character with which what comes after it can begin, or is something left at the end of the string
that confuses. Without `^`, if the first attempt gets stuck, of the first two elements not both
repeat, and with `$` the empty text does not match. -/
structure Alternative.Simple (signed closures : Bool) (str : Text) (alt : Alternative) : Prop where
  body : OsRegex.Simple signed str alt.body
  clear : ∀ i, (alt.begins = true → i = 0) → (∀ j < i, alt.attempt str j ≠ .accept) →
    SeqItem.clear alt.ends (fun n => settled closures (lastElements alt.body n))
      (itemsOf alt.body) false (str.drop i) = true
  stuck : alt.begins = false → ∀ q, alt.attempt str 0 = .failed q →
    OneRepeats (itemsOf alt.body) ∧
      (alt.ends = true → nullable (itemsOf alt.body) false = false)

/-- Pieces of a simple alternative of a pattern that is accepted. -/
structure Fine (x : Args) (ps : List Piece) : Prop where
  valid : ∀ p ∈ ps, p.Valid
  spaced : ps.IsChain Piece.Spaced
  simple : OsRegex.Simple x.signed x.str ps

theorem elements_cons_elem (e : Element) (ps : List Piece) :
    elements (.elem e :: ps) = e :: elements ps := rfl

theorem itemsOf_cons_elem (e : Element) (ps : List Piece) :
    itemsOf (.elem e :: ps) = e.item :: itemsOf ps := rfl

theorem repeats_item {e : UInt8} {q : Quantifier} (hq : q ≠ .once) :
    (Element.cls e q).item.repeats = true := by
  cases q with
  | once => exact absurd rfl hq
  | plus | star => rfl

theorem itemsOf_cons_paren (ps : List Piece) : itemsOf (.paren :: ps) = itemsOf ps := rfl

variable {x : Args} {p : Piece} {b e : UInt8} {q : Quantifier} {st pt : Nat} {r ps : List Piece}

theorem Fine.tail (h : Fine x (p :: ps)) : Fine x ps :=
  ⟨(forall_mem_cons.1 h.valid).2, h.spaced.of_cons, h.simple.parens.of_cons,
    fun hs b hb => h.simple.ascii hs b (mem_cons_of_mem p hb)⟩

theorem Fine.head (h : Fine x (p :: ps)) : p.Valid :=
  (forall_mem_cons.1 h.valid).1

/-! ## Reading the pattern -/

/-- The pointer is at these pieces. -/
def Reads (x : Args) (pt : Nat) (ps : List Piece) : Prop := x.pattern.drop pt = encodePieces ps

/-- A class that repeats comes next. -/
def Repeating (ps : List Piece) : Prop := ∃ e q r, ps = .elem (.cls e q) :: r ∧ q ≠ .once

section Reading

theorem pat_add (pt k : Nat) : x.pat (pt + k) = byteAt (x.pattern.drop pt) k := by
  rw [Args.pat, byteAt, byteAt, getD_eq_getElem?_getD, getD_eq_getElem?_getD, getElem?_drop]

theorem Reads.next (h : Reads x pt (p :: ps)) : Reads x (pt + p.encode.length) ps := by
  have hsplit : encodePieces (p :: ps) = p.encode ++ encodePieces ps := rfl
  rw [Reads, ← drop_drop, h, hsplit, drop_left]

theorem Reads.pat_eq {k : Nat} (h : Reads x pt ps) :
    x.pat (pt + k) = byteAt (encodePieces ps) k := by
  rw [pat_add, h]

theorem Reads.nil (h : Reads x pt []) : x.pat pt = 0 := h.pat_eq (k := 0)

theorem Reads.paren (h : Reads x pt (.paren :: ps)) : x.pat pt = openParenthesis :=
  h.pat_eq (k := 0)

theorem Reads.literal (h : Reads x pt (.elem (.literal b) :: ps)) : x.pat pt = charmap b :=
  h.pat_eq (k := 0)

theorem Reads.backslash (h : Reads x pt (.elem (.cls e q) :: ps)) : x.pat pt = OsRegex.backslash :=
  h.pat_eq (k := 0)

theorem Reads.code (h : Reads x pt (.elem (.cls e q) :: ps)) :
    x.pat (pt + 1) = (escapeCode e).getD 0 := h.pat_eq (k := 1)

theorem Reads.plus (h : Reads x pt (.elem (.cls e .plus) :: ps)) : x.pat (pt + 2) = OsRegex.plus :=
  h.pat_eq (k := 2)

theorem Reads.star (h : Reads x pt (.elem (.cls e .star) :: ps)) : x.pat (pt + 2) = asterisk :=
  h.pat_eq (k := 2)

theorem Reads.afterParenthesis (h : Reads x pt (.paren :: ps)) : Reads x (pt + 1) ps := h.next

theorem Reads.afterOnce (h : Reads x pt (.elem (.cls e .once) :: ps)) : Reads x (pt + 2) ps :=
  h.next

theorem Reads.afterRepeated (h : Reads x pt (.elem (.cls e q) :: ps)) (hq : q ≠ .once) :
    Reads x (pt + 3) ps := by
  cases q with
  | once => exact absurd rfl hq
  | plus => exact h.next
  | star => exact h.next

theorem Reads.repeated (h : Reads x pt (.elem (.cls e q) :: ps)) (hq : q ≠ .once) :
    isPlus (x.pat (pt + 2)) = true := by
  cases q with
  | once => exact absurd rfl hq
  | plus =>
    rw [h.plus]
    rfl
  | star =>
    rw [h.star]
    rfl

/-- A character with a meaning of its own is not the code of a literal one. -/
theorem Piece.Valid.charmap_ne (h : (Piece.elem (.literal b)).Valid) :
    charmap b ≠ 0 ∧ charmap b ≠ OsRegex.backslash ∧ charmap b ≠ openParenthesis := by
  obtain ⟨hback, hzero, hopen, -⟩ := h
  refine ⟨fun heq => hzero ?_, fun heq => hback ?_, fun heq => hopen ?_⟩
  · exact (charmap_eq_iff (by decide)).1 heq
  · exact (charmap_eq_iff (by decide)).1 heq
  · exact (charmap_eq_iff (by decide)).1 heq

theorem Reads.ne_zero (h : Reads x pt (p :: ps)) (hp : p.Valid) : x.pat pt ≠ 0 := by
  cases p with
  | paren =>
    rw [h.paren]
    decide
  | elem e =>
    cases e with
    | literal b =>
      rw [h.literal]
      exact hp.charmap_ne.1
    | cls e q =>
      rw [h.backslash]
      decide

theorem Reads.ne_paren {e : Element} (h : Reads x pt (.elem e :: ps)) (hp : (Piece.elem e).Valid) :
    x.pat pt ≠ openParenthesis := by
  cases e with
  | literal b =>
    rw [h.literal]
    exact hp.charmap_ne.2.2
  | cls e q =>
    rw [h.backslash]
    decide

/-- Behind a class without `+` and `*` there is none of these. -/
theorem Reads.not_isPlus (h : Reads x pt (.elem (.cls e .once) :: ps))
    (hfine : Fine x (.elem (.cls e .once) :: ps)) : isPlus (x.pat (pt + 2)) = false := by
  have hnext := h.afterOnce
  cases ps with
  | nil =>
    rw [hnext.nil]
    decide
  | cons p ps =>
    cases p with
    | paren =>
      rw [hnext.paren]
      decide
    | elem e' =>
      cases e' with
      | literal b =>
        obtain ⟨hplus, hstar⟩ := (isChain_cons_cons.1 hfine.spaced).1 e rfl
        rw [hnext.literal, isPlus, Bool.or_eq_false_iff, decide_eq_false_iff_not,
          decide_eq_false_iff_not]
        refine ⟨fun heq => hplus ?_, fun heq => hstar ?_⟩
        · rw [(charmap_eq_iff (by decide)).1 heq]
        · rw [(charmap_eq_iff (by decide)).1 heq]
      | cls e' q =>
        rw [hnext.backslash]
        decide

/-- The pieces behind one parenthesis. -/
def afterParen : List Piece → List Piece
  | .paren :: ps => ps
  | ps => ps

theorem itemsOf_afterParen : itemsOf (afterParen ps) = itemsOf ps := by
  cases ps with
  | nil => rfl
  | cons p ps => cases p <;> rfl

theorem elements_afterParen : elements (afterParen ps) = elements ps := by
  cases ps with
  | nil => rfl
  | cons p ps => cases p <;> rfl

theorem Fine.afterParen (h : Fine x ps) : Fine x (afterParen ps) := by
  cases ps with
  | nil => exact h
  | cons p ps =>
    cases p with
    | paren => exact h.tail
    | elem e => exact h

/-- There is no second parenthesis. -/
theorem Fine.afterParen_cases (h : Fine x ps) :
    OsRegex.afterParen ps = [] ∨ ∃ e r, OsRegex.afterParen ps = .elem e :: r := by
  cases ps with
  | nil => exact .inl rfl
  | cons p ps =>
    cases p with
    | elem e => exact .inr ⟨e, ps, rfl⟩
    | paren =>
      cases ps with
      | nil => exact .inl rfl
      | cons p' ps =>
        cases p' with
        | elem e => exact .inr ⟨e, ps, rfl⟩
        | paren => exact absurd ⟨rfl, rfl⟩ (isChain_cons_cons.1 h.simple.parens).1

theorem Reads.pastParenthesis (h : Reads x pt ps) (hfine : Fine x ps) :
    Reads x (x.pastParenthesis pt) (OsRegex.afterParen ps) := by
  rw [Args.pastParenthesis]
  cases ps with
  | nil =>
    rw [if_neg (by rw [h.nil]; decide)]
    exact h
  | cons p ps =>
    cases p with
    | paren =>
      rw [if_pos h.paren]
      exact h.afterParenthesis
    | elem e =>
      rw [if_neg (h.ne_paren hfine.head)]
      exact h

/-- A literal character takes the characters that are the same without regard to case. -/
theorem Reads.sameChar (h : Reads x pt (.elem (.literal b) :: ps))
    (hfine : Fine x (.elem (.literal b) :: ps)) (hst : x.chr st ∈ x.str) :
    x.sameChar pt st = decide (charmap (x.chr st) = charmap b) := by
  rw [Args.sameChar, h.literal, decide_eq_decide, charValue_eq_iff]
  refine (and_iff_left_of_imp fun heq hsigned => ?_).trans eq_comm
  rw [charmap_lt_iff]
  exact hfine.simple.ascii hsigned b mem_cons_self _ hst heq.symm

theorem Reads.regexmap (h : Reads x pt (.elem (.cls e q) :: ps))
    (hp : (Piece.elem (.cls e q)).Valid) :
    regexmap (x.pat (pt + 1)) (x.chr st) = classOf e (x.chr st) := by
  obtain ⟨code, hcode⟩ := Option.isSome_iff_exists.1 hp
  rw [h.code, hcode, Option.getD_some]
  exact regexmap_escapeCode hcode

/-- The lookahead fails at an element that cannot come next. -/
theorem Reads.okHere {e : Element} (h : Reads x pt (.elem e :: ps)) (hfine : Fine x (.elem e :: ps))
    (hst : x.chr st ∈ x.str) (hnext : starts (itemsOf (.elem e :: ps)) (x.chr st) = false) :
    x.okHere pt st = (none, true) := by
  rw [Args.okHere, if_neg (h.ne_zero hfine.head)]
  cases e with
  | literal b =>
    rw [if_neg (by rw [h.literal]; exact hfine.head.charmap_ne.2.1), h.sameChar hfine hst]
    have hne : decide (charmap (x.chr st) = charmap b) = false := (Bool.or_eq_false_iff.1 hnext).1
    rw [hne, if_neg Bool.false_ne_true]
  | cls e q =>
    have hne : classOf e (x.chr st) = false := (Bool.or_eq_false_iff.1 hnext).1
    rw [if_pos h.backslash, h.regexmap hfine.head, hne, if_neg Bool.false_ne_true]

end Reading

/-! ## The end of the string -/

section Finish

theorem pat_pastParenthesis_eq_zero (h : Reads x pt ps) (hfine : Fine x ps) :
    x.pat (x.pastParenthesis pt) = 0 ↔ elements ps = [] := by
  have hpast := h.pastParenthesis hfine
  rcases hfine.afterParen_cases with hnil | ⟨e, r, hcons⟩
  · rw [hnil] at hpast
    rw [← elements_afterParen, hnil]
    exact iff_of_true hpast.nil rfl
  · have hfine' := hfine.afterParen
    rw [hcons] at hpast hfine'
    rw [← elements_afterParen, hcons]
    exact iff_of_false (hpast.ne_zero hfine'.head) (cons_ne_nil e _)

/-- At no piece but a class with `*` is there a backslash with an asterisk two places behind it. -/
theorem Reads.star_iff (h : Reads x pt ps) (hfine : Fine x ps) :
    (x.pat pt = OsRegex.backslash ∧ x.pat (pt + 2) = asterisk) ↔
      ∃ e r, ps = .elem (.cls e .star) :: r := by
  constructor
  · rintro ⟨hback, hasterisk⟩
    cases ps with
    | nil => exact absurd (h.nil.symm.trans hback) (by decide)
    | cons p ps =>
      cases p with
      | paren => exact absurd (h.paren.symm.trans hback) (by decide)
      | elem e =>
        cases e with
        | literal b => exact absurd (h.literal.symm.trans hback) hfine.head.charmap_ne.2.1
        | cls e q =>
          cases q with
          | once =>
            have hplus := h.not_isPlus hfine
            rw [hasterisk] at hplus
            exact absurd hplus (by decide)
          | plus => exact absurd (h.plus.symm.trans hasterisk) (by decide)
          | star => exact ⟨e, ps, rfl⟩
  · rintro ⟨e, r, rfl⟩
    exact ⟨h.backslash, h.star⟩

theorem endsWithStar_iff (h : Reads x pt ps) (hfine : Fine x ps) :
    x.endsWithStar pt = true ↔ ∃ e r, ps = .elem (.cls e .star) :: r ∧ elements r = [] := by
  rw [Args.endsWithStar, Bool.and_eq_true, Bool.and_eq_true, decide_eq_true_eq, decide_eq_true_eq,
    decide_eq_true_eq, h.star_iff hfine]
  constructor
  · rintro ⟨⟨e, r, rfl⟩, hzero⟩
    rw [pat_pastParenthesis_eq_zero (h.afterRepeated (by decide)) hfine.tail] at hzero
    exact ⟨e, r, rfl, hzero⟩
  · rintro ⟨e, r, rfl, hr⟩
    rw [pat_pastParenthesis_eq_zero (h.afterRepeated (by decide)) hfine.tail]
    exact ⟨⟨e, r, rfl⟩, hr⟩

theorem not_confusing {closures : Bool} {l left : List Element} (h : settled closures left = true)
    (hl : l <:+ left) : confusing closures l = false := by
  have hall := all_eq_true.1 h l ((mem_tails _ _).2 hl)
  simpa using hall

theorem settled_of_suffix {closures : Bool} {l left : List Element}
    (h : settled closures left = true) (hl : l <:+ left) : settled closures l = true := by
  rw [settled, all_eq_true]
  intro l' hl'
  rw [not_confusing h (((mem_tails _ _).1 hl').trans hl)]
  rfl

/-- What may be left out are classes with `*`. -/
theorem isStar_of_nullable (hnull : nullable (itemsOf ps) false = true) {y : Element}
    (hy : y ∈ elements ps) : ∃ e, y = .cls e .star := by
  induction ps with
  | nil => cases hy
  | cons p ps ih =>
    cases p with
    | paren => exact ih hnull hy
    | elem y' =>
      cases y' with
      | literal b => cases hnull
      | cls e q =>
        cases q with
        | once | plus => cases hnull
        | star =>
          rcases mem_cons.1 hy with rfl | hy
          · exact ⟨e, rfl⟩
          · exact ih hnull hy

/-- What may be left out is at most one class, because two with `*` do not end the pattern. -/
theorem elements_of_nullable (hsettled : settled x.closure.isSome (elements ps) = true)
    (hnull : nullable (itemsOf ps) false = true) :
    elements ps = [] ∨ ∃ e, elements ps = [.cls e .star] := by
  rcases eq_nil_or_concat (elements ps) with hnil | ⟨init, y, heq⟩
  · exact .inl hnil
  · rw [concat_eq_append] at heq
    obtain ⟨e, rfl⟩ := isStar_of_nullable hnull (y := y) (by simp [heq])
    rcases eq_nil_or_concat init with rfl | ⟨init, y, rfl⟩
    · exact .inr ⟨e, heq⟩
    · rw [concat_eq_append, append_assoc] at heq
      obtain ⟨e', rfl⟩ := isStar_of_nullable hnull (y := y) (by simp [heq])
      rw [heq] at hsettled
      cases not_confusing hsettled (suffix_append init [.cls e' .star, .cls e .star])

/-- Behind a class with `*` something is needed, unless there is nothing. -/
theorem nullable_after_star
    (hsettled : settled x.closure.isSome (.cls e .star :: elements r) = true) :
    nullable (itemsOf r) false = true ↔ elements r = [] := by
  constructor
  · intro hnull
    rcases elements_of_nullable (settled_of_suffix hsettled (suffix_cons _ _)) hnull with
      hnil | ⟨e', heq⟩
    · exact hnil
    · rw [heq] at hsettled
      cases not_confusing hsettled (suffix_refl _)
  · intro hnil
    rw [itemsOf, hnil]
    rfl

/-- At an element the last part of the condition says whether nothing more is needed: only a class
with `*` may be left out. -/
theorem endsWithStar_eq {y : Element} (h : Reads x pt (.elem y :: r))
    (hfine : Fine x (.elem y :: r)) (hsettled : settled x.closure.isSome (y :: elements r) = true) :
    x.endsWithStar pt = nullable (itemsOf (.elem y :: r)) false := by
  rw [Bool.eq_iff_iff, endsWithStar_iff h hfine]
  constructor
  · rintro ⟨e, r, heq, hr⟩
    cases heq
    exact (nullable_after_star hsettled).2 hr
  · intro hnull
    obtain ⟨e, rfl⟩ := isStar_of_nullable hnull (y := y) mem_cons_self
    exact ⟨e, r, rfl, (nullable_after_star hsettled).1 hnull⟩

/-- A class that does not repeat and a class with `*` do not end the pattern behind one that
repeats. -/
theorem not_endsWithStar {e' : UInt8} (hq : q ≠ .once) (h : Reads x pt (.elem (.cls e .once) :: r))
    (hfine : Fine x (.elem (.cls e .once) :: r))
    (hsettled : settled x.closure.isSome (.cls e' q :: .cls e .once :: elements r) = true) :
    x.endsWithStar (pt + 2) = false := by
  rw [Bool.eq_false_iff, ne_eq, endsWithStar_iff h.afterOnce hfine.tail]
  rintro ⟨e'', r, rfl, hr⟩
  rw [elements_cons_elem, hr] at hsettled
  have hnot := not_confusing hsettled (suffix_refl _)
  cases q with
  | once => exact hq rfl
  | plus | star => cases hnot

/-- The part of the condition for a class that has begun to repeat, with the last part. -/
theorem cleanUpRepeated_eq (hq : q ≠ .once) (h : Reads x pt (.elem (.cls e q) :: r))
    (hfine : Fine x (.elem (.cls e q) :: r))
    (hsettled : settled x.closure.isSome (.cls e q :: elements r) = true) :
    ((x.cleanUpRepeated pt true).1 || x.endsWithStar (x.cleanUpRepeated pt true).2) =
      nullable (itemsOf r) false := by
  have hpast := (h.afterRepeated hq).pastParenthesis hfine.tail
  have hfine' := hfine.tail.afterParen
  rw [Args.cleanUpRepeated, if_pos ⟨h.backslash, rfl⟩, if_pos (h.repeated hq)]
  generalize x.pastParenthesis (pt + 3) = pt' at hpast
  rw [← itemsOf_afterParen]
  rw [← elements_afterParen] at hsettled
  -- what stands behind it
  rcases hfine.tail.afterParen_cases with hnil | ⟨e', r', hcons⟩
  · rw [hnil] at hpast ⊢
    rw [if_pos hpast.nil]
    rfl
  · rw [hcons] at hpast hfine' hsettled ⊢
    rw [if_neg (hpast.ne_zero hfine'.head)]
    have hbehind := settled_of_suffix hsettled (suffix_cons _ _)
    cases e' with
    | literal b =>
      rw [if_neg (by rw [hpast.literal]; exact hfine'.head.charmap_ne.2.1), Bool.false_or,
        endsWithStar_eq hpast hfine' hbehind]
    | cls e' q' =>
      rw [if_pos hpast.backslash]
      cases q' with
      | once =>
        have hne : x.pat (pt' + 2) ≠ asterisk := by
          intro heq
          have hfalse := hpast.not_isPlus hfine'
          rw [heq] at hfalse
          exact absurd hfalse (by decide)
        rw [if_neg hne, Bool.false_or, not_endsWithStar hq hpast hfine' hsettled]
        rfl
      | plus =>
        rw [if_neg (by rw [hpast.plus]; decide), Bool.false_or]
        change (decide (x.pat (pt' + 2) = backslash) && _ && _) = false
        rw [hpast.plus]
        rfl
      | star =>
        have hnext := hpast.afterRepeated (by decide)
        have hlast := hnext.pastParenthesis hfine'.tail
        rw [if_pos hpast.star]
        change (decide _ || x.endsWithStar (x.pastParenthesis (pt' + 3))) =
            nullable (itemsOf r') false
        rw [Bool.eq_iff_iff, Bool.or_eq_true, decide_eq_true_eq, pat_pastParenthesis_eq_zero hnext
          hfine'.tail, nullable_after_star hbehind, endsWithStar_iff hlast hfine'.tail.afterParen]
        refine or_iff_left ?_
        rintro ⟨e'', r'', heq, hr''⟩
        rw [elements_cons_elem, ← elements_afterParen, heq, elements_cons_elem, hr''] at hbehind
        cases not_confusing hbehind (suffix_refl _)

/-- At the end of the string the condition says whether more is needed. -/
theorem cleanUp_eq {started : Bool} (h : Reads x pt ps) (hfine : Fine x ps)
    (hsettled : settled x.closure.isSome (elements ps) = true)
    (hstarted : started = true → Repeating ps) :
    x.cleanUp pt started = nullable (itemsOf ps) started := by
  have hpast := h.pastParenthesis hfine
  have hfine' := hfine.afterParen
  cases started with
  | true =>
    obtain ⟨e, q, r, rfl, hq⟩ := hstarted rfl
    have hnull : nullable (itemsOf (.elem (.cls e q) :: r)) true = nullable (itemsOf r) false := by
      rw [itemsOf_cons_elem, nullable, skips_true (repeats_item hq), Bool.true_and]
    rw [hnull, ← cleanUpRepeated_eq hq hpast hfine' hsettled, Args.cleanUp,
      if_neg (hpast.ne_zero hfine'.head)]
  | false =>
    have hrepeated : ∀ pt, x.cleanUpRepeated pt false = (false, pt) :=
      fun pt => if_neg fun h => Bool.false_ne_true h.2
    rw [Args.cleanUp, hrepeated, ← itemsOf_afterParen]
    rcases hfine.afterParen_cases with hnil | ⟨e, r, hcons⟩
    · rw [hnil] at hpast ⊢
      rw [if_pos hpast.nil]
      rfl
    · rw [← elements_afterParen] at hsettled
      rw [hcons] at hpast hfine' hsettled ⊢
      rw [if_neg (hpast.ne_zero hfine'.head), Bool.false_or, endsWithStar_eq hpast hfine' hsettled]

/-! ## The end of the string with sub strings -/

/-- The pieces behind the classes with `*` at the beginning. -/
def skipStars : List Piece → List Piece
  | .elem (.cls _ .star) :: ps => skipStars ps
  | ps => ps

theorem nullable_skipStars :
    nullable (itemsOf (skipStars ps)) false = nullable (itemsOf ps) false := by
  induction ps using skipStars.induct with
  | case1 e ps ih => exact ih
  | case2 ps hne => rw [skipStars.eq_2 ps hne]

/-- A class with `*` stands before what is behind such classes. -/
theorem star_before_skipStars (e : UInt8) (ps : List Piece) :
    ∃ e', .cls e' .star :: elements (skipStars ps) <:+ .cls e .star :: elements ps := by
  induction ps using skipStars.induct generalizing e with
  | case1 e₁ ps ih =>
    obtain ⟨e', hsuffix⟩ := ih e₁
    exact ⟨e', hsuffix.trans (suffix_cons _ _)⟩
  | case2 ps hne =>
    rw [skipStars.eq_2 ps hne]
    exact ⟨e, suffix_refl _⟩

theorem skipStars_suffix : elements (skipStars ps) <:+ elements ps := by
  induction ps using skipStars.induct with
  | case1 e ps ih => exact ih.trans (suffix_cons _ _)
  | case2 ps hne => rw [skipStars.eq_2 ps hne]

theorem Fine.skipStars (h : Fine x ps) : Fine x (skipStars ps) := by
  induction ps using skipStars.induct with
  | case1 e ps ih => exact ih h.tail
  | case2 ps hne =>
    rw [skipStars.eq_2 ps hne]
    exact h

theorem Reads.skipStars (h : Reads x pt ps) (hfine : Fine x ps) :
    Reads x (pt + Args.starsLength (x.pattern.drop pt)) (skipStars ps) := by
  induction ps using skipStars.induct generalizing pt with
  | case1 e ps ih =>
    have hnext := h.afterRepeated (by decide)
    have hrest := ih hnext hfine.tail
    have hlength : Args.starsLength (x.pattern.drop pt) =
        Args.starsLength (x.pattern.drop (pt + 3)) + 3 := by
      rw [h, hnext]
      exact if_pos ⟨rfl, rfl⟩
    rw [hlength, Nat.add_comm _ 3, ← Nat.add_assoc]
    exact hrest
  | case2 ps hne =>
    have hlength : Args.starsLength (x.pattern.drop pt) = 0 := by
      have hstar : ¬ (x.pat pt = OsRegex.backslash ∧ x.pat (pt + 2) = asterisk) := by
        rw [h.star_iff hfine]
        exact fun ⟨e, r, heq⟩ => hne e r heq
      rw [← Nat.add_zero pt, Reads.pat_eq h, Nat.add_zero, h.pat_eq, ← h] at hstar
      rw [Args.starsLength.eq_def]
      split
      · rename_i heq
        rw [heq] at hstar
        exact if_neg hstar
      · rfl
    rw [hlength, skipStars.eq_2 ps hne]
    exact h

/-- The rest of the condition at an element behind classes with `*`, when the first of these has
begun to repeat. -/
theorem cleanUp_behind_star {y : Element} {e₁ : UInt8} (hclosure : x.closure.isSome = true)
    (h : Reads x pt (.elem y :: r)) (hfine : Fine x (.elem y :: r))
    (hsettled : settled x.closure.isSome (.cls e₁ .star :: y :: elements r) = true) :
    ((x.cleanUpRepeated pt true).1 || x.endsWithStar (x.cleanUpRepeated pt true).2) =
      nullable (itemsOf (.elem y :: r)) false := by
  have hbehind := settled_of_suffix hsettled (suffix_cons _ _)
  cases y with
  | literal b =>
    have hback : x.pat pt ≠ backslash := by
      rw [h.literal]
      exact hfine.head.charmap_ne.2.1
    rw [Args.cleanUpRepeated, if_neg fun hand => hback hand.1, Bool.false_or,
      endsWithStar_eq h hfine hbehind]
  | cls e q =>
    cases q with
    | once =>
      rw [Args.cleanUpRepeated, if_pos ⟨h.backslash, rfl⟩, h.not_isPlus hfine,
        if_neg Bool.false_ne_true, Bool.false_or, not_endsWithStar (by decide) h hfine hsettled]
      rfl
    | star =>
      rw [cleanUpRepeated_eq (by decide) h hfine hbehind, itemsOf_cons_elem, nullable]; rfl
    | plus =>
      rw [cleanUpRepeated_eq (by decide) h hfine hbehind]
      change _ = false
      rw [Bool.eq_false_iff]
      intro hnull
      rw [hclosure] at hsettled
      rcases elements_of_nullable (settled_of_suffix hbehind (suffix_cons _ _)) hnull with
        hnil | ⟨e', heq⟩
      · rw [hnil] at hsettled
        cases not_confusing hsettled (suffix_refl _)
      · rw [heq] at hsettled
        cases not_confusing hsettled (suffix_refl _)

/-- The condition takes a class with `+` behind those with `*` for one that has begun to repeat, but
such an end is excluded. -/
theorem cleanUp_skipStars {started : Bool} (hclosure : x.closure.isSome = true) (h : Reads x pt ps)
    (hfine : Fine x ps) (hsettled : settled x.closure.isSome (elements ps) = true)
    (hstarted : started = true → Repeating ps) :
    x.cleanUp (pt + Args.starsLength (x.pattern.drop pt)) started =
      nullable (itemsOf ps) started := by
  have hreads := h.skipStars hfine
  cases started with
  | false =>
    rw [cleanUp_eq hreads hfine.skipStars (settled_of_suffix hsettled skipStars_suffix)
      fun hf => absurd hf Bool.false_ne_true, nullable_skipStars]
  | true =>
    obtain ⟨e, q, r, rfl, hq⟩ := hstarted rfl
    cases q with
    | once => exact absurd rfl hq
    | plus => exact cleanUp_eq hreads hfine hsettled hstarted
    | star =>
      have hpast : Reads x _ (afterParen (skipStars r)) := hreads.pastParenthesis hfine.skipStars
      have hfine' : Fine x (afterParen (skipStars r)) := hfine.skipStars.afterParen
      obtain ⟨e₁, hbefore⟩ := star_before_skipStars e r
      rw [← elements_afterParen] at hbefore
      replace hsettled := settled_of_suffix hsettled hbefore
      have hnull : nullable (itemsOf (.elem (.cls e .star) :: r)) true =
          nullable (itemsOf (afterParen (skipStars r))) false := by
        rw [itemsOf_afterParen, nullable_skipStars]
        rfl
      rw [hnull, Args.cleanUp]
      generalize x.pastParenthesis _ = pt' at hpast
      rcases hfine.tail.skipStars.afterParen_cases with hnil | ⟨y, r', hcons⟩
      · rw [hnil] at hpast ⊢
        rw [if_pos hpast.nil]
        rfl
      · rw [hcons] at hpast hfine' hsettled ⊢
        rw [elements_cons_elem] at hsettled
        rw [if_neg (hpast.ne_zero hfine'.head)]
        exact cleanUp_behind_star hclosure hpast hfine' hsettled

/-- What is returned at the end of the string. -/
theorem finish_eq {v : Vars} {started : Bool} (h : Reads x v.pt ps) (hfine : Fine x ps)
    (hsettled : settled x.closure.isSome (elements ps) = true) (hmatched : v.regexMatched = started)
    (hstarted : started = true → Repeating ps) :
    (x.finish v).code = if nullable (itemsOf ps) started then v.rCode else none := by
  rw [Args.finish, hmatched]
  split
  · rename_i hclosure
    rw [cleanUp_skipStars hclosure h hfine hsettled hstarted]
  · rw [cleanUp_eq h hfine hsettled hstarted]

end Finish

end WazAISentinel.OsRegex
