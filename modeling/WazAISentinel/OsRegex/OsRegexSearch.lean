import WazAISentinel.OsRegex.OsRegexReading

/-!
# Searching with regular expressions

`_OS_Regex` on an alternative and a string for which it is simple: no place is ever saved, and a
round is a move of an attempt of the library, which therefore ends as `SeqItem.scan` says. The next
attempt begins behind `st_error`, and the matches the search skips do not exist.

In general this does not hold: where the lookahead succeeds, `_regex_matched` is still set behind
the class it has passed, and it is not set again when the matcher goes back to the saved place.
-/

namespace WazAISentinel.OsRegex

open Foundations SeqItem List

/-! ## Attempts -/

/-- The variables in the middle of an attempt with these pieces left. Nothing has been saved, and
`r_code` is NULL only before the first character of an attempt that needs one. -/
structure At (x : Args) (rest : List Piece) (started : Bool) (v : Vars) : Prop where
  place : Reads x v.pt rest
  matched : v.regexMatched = started
  repeating : started = true → Repeating rest
  saved : v.ptError = []
  rCode : v.rCode = none → started = false ∧ nullable (itemsOf rest) false = false

/-- The variables at the beginning of an attempt at `i`. -/
structure Begun (v : Vars) (i : Nat) : Prop where
  pt : v.pt = 0
  st : v.st = i
  stError : v.stError = none
  matched : v.regexMatched = false
  saved : v.ptError = []
  rCode : v.rCode = none

/-- The loop ends as an attempt does: it returns, or goes on with the next attempt. -/
def Ends (x : Args) (v : Vars) : Outcome → Prop
  | .accept => ∃ ret, Returns x.round v ret ∧ ret.code.isSome = true
  | .exhausted => ∃ ret, Returns x.round v ret ∧ ret.code = none
  | .failed q =>
    if x.beginSet then ∃ ret, Returns x.round v ret ∧ ret.code = none
    else ∃ v', Begun v' (q + 1) ∧ ∀ ret, Returns x.round v' ret → Returns x.round v ret

variable {rest : List Piece} {st : Nat}

section Attempts

variable {x : Args} {v v' : Vars} {o : Outcome} {allowed : Nat → Bool}

theorem Ends.of_returns (h : Ends x v' o)
    (hreturns : ∀ ret, Returns x.round v' ret → Returns x.round v ret) : Ends x v o := by
  cases o with
  | accept | exhausted =>
    obtain ⟨ret, hret, hcode⟩ := h
    exact ⟨ret, hreturns ret hret, hcode⟩
  | failed q =>
    rw [Ends] at h ⊢
    split_ifs with hbegin
    · rw [if_pos hbegin] at h
      obtain ⟨ret, hret, hcode⟩ := h
      exact ⟨ret, hreturns ret hret, hcode⟩
    · rw [if_neg hbegin] at h
      obtain ⟨w, hw, hnext⟩ := h
      exact ⟨w, hw, fun ret hret => hreturns ret (hnext ret hret)⟩

/-- One more round. -/
theorem Ends.of_round (h : Ends x v' o) (hround : x.round v = .inr v') : Ends x v o :=
  h.of_returns fun _ hret => hret.of_inr hround

/-- The error handling begins the next attempt, if there is one. -/
theorem ends_of_handleError (hround : x.round v = x.handleError v') (hsaved : v'.ptError = [])
    (hmatched : v'.regexMatched = false) : Ends x v (.failed (v'.stError.getD v'.st)) := by
  rw [Args.handleError, hsaved] at hround
  rw [Ends]
  split_ifs with hbegin
  · rw [if_pos hbegin] at hround
    exact ⟨_, returns_of_inl hround, rfl⟩
  · rw [if_neg hbegin] at hround
    refine ⟨_, ?_, fun ret hret => hret.of_inr hround⟩
    exact ⟨rfl, rfl, rfl, hmatched, rfl, rfl⟩

/-- A pointer that is needed is there. -/
theorem At.rCode_isSome {started : Bool} (h : At x rest started v)
    (hnull : nullable (itemsOf rest) started = true) : v.rCode.isSome = true := by
  rw [Option.isSome_iff_ne_none]
  intro hnone
  obtain ⟨hstarted, hneeded⟩ := h.rCode hnone
  rw [hstarted, hneeded] at hnull
  exact absurd hnull Bool.false_ne_true

theorem at_of_rCode (hplace : Reads x v.pt rest) (hmatched : v.regexMatched = false)
    (hsaved : v.ptError = []) (hcode : v.rCode ≠ none) : At x rest false v :=
  ⟨hplace, hmatched, fun hf => absurd hf Bool.false_ne_true, hsaved,
    fun hnone => absurd hnone hcode⟩

theorem At.not_started {started : Bool} (h : At x rest started v)
    (hrest : ∀ e q r, rest = .elem (.cls e q) :: r → q = .once) : started = false := by
  cases started with
  | false => rfl
  | true =>
    obtain ⟨e, q, r, heq, hq⟩ := h.repeating rfl
    exact absurd (hrest e q r heq) hq

/-- From every state with these pieces left and this text before it the loop ends as the attempt
does, if that is clear. -/
def Follows (x : Args) (allowed : Nat → Bool) (rest : List Piece) (t : Text) : Prop :=
  ∀ started v, At x rest started v → x.str.drop v.st = t →
    clear x.endSet allowed (itemsOf rest) started t = true →
    Ends x v (scan x.endSet (itemsOf rest) started v.stError v.st t)

theorem chr_of_drop {c : UInt8} {t : Text} (h : x.str.drop st = c :: t) : x.chr st = c := by
  have hc : x.chr (st + 0) = byteAt (x.str.drop st) 0 := by
    rw [Args.chr, byteAt, byteAt, getD_eq_getElem?_getD, getD_eq_getElem?_getD, getElem?_drop]
  rw [h] at hc
  exact hc

theorem chr_mem {c : UInt8} {t : Text} (h : x.str.drop st = c :: t) : x.chr st ∈ x.str := by
  rw [chr_of_drop h]
  exact mem_of_mem_drop (h ▸ mem_cons_self)

theorem drop_succ {c : UInt8} {t : Text} (h : x.str.drop st = c :: t) :
    x.str.drop (st + 1) = t := by
  rw [← drop_drop, h]
  rfl

/-- At the end of the string. -/
theorem follows_nil (hfine : Fine x rest) (hallowed : allowed (itemsOf rest).length = true →
    settled x.closure.isSome (elements rest) = true) : Follows x allowed rest [] := by
  intro started v hat hdrop hclear
  have hchr : x.chr v.st = 0 := by
    rw [Args.chr, byteAt, getD_eq_getElem?_getD, getElem?_eq_none (drop_eq_nil_iff.1 hdrop)]
    rfl
  have hround : x.round v = .inl (x.finish v) := if_pos hchr
  have hcode := finish_eq hat.place hfine (hallowed hclear) hat.matched hat.repeating
  rw [scan]
  split_ifs with hnull
  · refine ⟨_, returns_of_inl hround, ?_⟩
    rw [hcode, if_pos hnull]
    exact hat.rCode_isSome hnull
  · refine ⟨_, returns_of_inl hround, ?_⟩
    rw [hcode, if_neg hnull]

section Round

variable {c : UInt8} {t : Text} {r : List Piece}

theorem mayEnd_eq (hc : x.chr v.st ≠ 0) : x.mayEnd v.st = !x.endSet := by
  rw [Args.mayEnd, decide_eq_false hc, Bool.and_false, Bool.or_false]

theorem round_elem {e : Element} (hc : x.chr v.st ≠ 0) (h : Reads x v.pt (.elem e :: r))
    (he : (Piece.elem e).Valid) : x.round v = x.compare v := by
  have henter : x.enter v = .inr v := by
    rw [Args.enter, if_neg (h.ne_zero he), if_neg (h.ne_paren he)]
  rw [Args.round, if_neg hc, henter]

/-- At the end of the pattern the attempt is complete, or has to end the string. -/
theorem follows_end (hc : c ≠ 0) : Follows x allowed [] (c :: t) := by
  intro started v hat hdrop _
  have hstarted := hat.not_started fun e q r heq => absurd heq.symm (cons_ne_nil _ _)
  have hchr : x.chr v.st ≠ 0 := (chr_of_drop hdrop).symm ▸ hc
  cases hend : x.endSet with
  | false =>
    have hround : x.round v = .inl ⟨v.rCode, v.prtsStr⟩ := by
      rw [Args.round, if_neg hchr, Args.enter, if_pos hat.place.nil, mayEnd_eq hchr, hend]
      rfl
    exact ⟨_, returns_of_inl hround, hat.rCode_isSome rfl⟩
  | true =>
    have hround : x.round v = x.handleError v := by
      rw [Args.round, if_neg hchr, Args.enter, if_pos hat.place.nil, mayEnd_eq hchr, hend]
      change x.compare v = _
      have hsame : x.sameChar v.pt v.st = false := by
        rw [Args.sameChar, hat.place.nil, decide_eq_false_iff_not, charValue_eq_iff]
        intro hand
        exact hchr ((charmap_eq_iff (by decide)).1 hand.1.symm)
      rw [Args.compare, hat.place.nil, if_neg (by decide), hsame, if_neg Bool.false_ne_true]
    exact ends_of_handleError hround hat.saved (hat.matched.trans hstarted)

/-- A parenthesis is passed without a character. -/
theorem Follows.paren (hc : c ≠ 0) (hfine : Fine x (.paren :: r))
    (h : Follows x allowed r (c :: t)) : Follows x allowed (.paren :: r) (c :: t) := by
  intro started v hat hdrop hclear
  have hstarted := hat.not_started fun e q r heq => by cases heq
  have hchr : x.chr v.st ≠ 0 := (chr_of_drop hdrop).symm ▸ hc
  have hnext := hat.place.afterParenthesis
  have hround : x.round v = x.round (x.passParenthesis v) := by
    have hst : (x.passParenthesis v).st = v.st := rfl
    rw [Args.round, Args.round, hst, if_neg hchr, if_neg hchr, Args.enter, hat.place.paren,
      if_neg (by decide), if_pos rfl]
    dsimp only
    have hnext' : Reads x (x.passParenthesis v).pt r := hnext
    generalize x.passParenthesis v = v' at hnext'
    rcases hfine.afterParen_cases with hnil | ⟨e, r', hcons⟩
    · have hr : r = [] := hnil
      rw [hr] at hnext'
      rw [Args.enter, hnext'.nil, if_pos rfl]
      cases hmay : x.mayEnd v'.st with
      | true => rw [if_pos ⟨rfl, rfl⟩, if_pos rfl]
      | false => rw [if_neg fun hand => Bool.false_ne_true hand.2, if_neg Bool.false_ne_true]
    · have hr : r = .elem e :: r' := hcons
      rw [hr] at hnext' hfine
      have hzero := hnext'.ne_zero hfine.tail.head
      rw [Args.enter, if_neg hzero, if_neg (hnext'.ne_paren hfine.tail.head),
        if_neg fun hand => hzero hand.1]
  have hat' : At x r false (x.passParenthesis v) :=
    ⟨hnext, hat.matched.trans hstarted, fun hf => absurd hf Bool.false_ne_true, hat.saved,
      fun hnone => ⟨rfl, (hat.rCode hnone).2⟩⟩
  rw [itemsOf_cons_paren, hstarted] at hclear ⊢
  exact (h false (x.passParenthesis v) hat' hdrop hclear).of_returns fun ret hret =>
    hret.congr hround

/-- An element that does not repeat takes the character or ends the attempt. -/
theorem Follows.ends_of_single {p : UInt8 → Bool} {nextPt : Nat} (h : Follows x allowed r t)
    (hnext : Reads x nextPt r) (hmatched : v.regexMatched = false) (hsaved : v.ptError = [])
    (hdrop : x.str.drop v.st = c :: t) {started : Bool}
    (hclear : clear x.endSet allowed (⟨p, .once⟩ :: itemsOf r) started (c :: t) = true)
    (hround : x.round v = if p c then .inr (Args.readOne v nextPt) else x.handleError v) :
    Ends x v (scan x.endSet (⟨p, .once⟩ :: itemsOf r) started v.stError v.st (c :: t)) := by
  cases hp : p c with
  | true =>
    rw [hp, if_pos rfl] at hround
    have hmove :
      move x.endSet (⟨p, .once⟩ :: itemsOf r) started c = .next (itemsOf r) false := if_pos hp
    have hat : At x r false (Args.readOne v nextPt) :=
      at_of_rCode hnext hmatched hsaved (Option.some_ne_none _)
    rw [scan_next hmove]
    exact (h false _ hat (drop_succ hdrop) (clear_next hclear hmove)).of_round hround
  | false =>
    rw [hp, if_neg Bool.false_ne_true] at hround
    have hmove : move x.endSet (⟨p, .once⟩ :: itemsOf r) started c = .stuck :=
      if_neg (Bool.eq_false_iff.1 hp)
    rw [scan_stuck hmove]
    exact ends_of_handleError hround hsaved hmatched

/-- A literal character takes the character or ends the attempt. -/
theorem Follows.literal {b : UInt8} (hc : c ≠ 0) (hfine : Fine x (.elem (.literal b) :: r))
    (h : Follows x allowed r t) : Follows x allowed (.elem (.literal b) :: r) (c :: t) := by
  intro started v hat hdrop hclear
  have hstarted := hat.not_started fun e q r heq => by cases heq
  have hmatched := hat.matched.trans hstarted
  have hchr := chr_of_drop hdrop
  have hround : x.round v = if x.sameChar v.pt v.st then .inr (Args.readOne v (v.pt + 1))
      else x.handleError v := by
    rw [round_elem (hchr.symm ▸ hc) hat.place hfine.head, Args.compare,
      if_neg (by rw [hat.place.literal]; exact hfine.head.charmap_ne.2.1)]
  rw [hat.place.sameChar hfine (chr_mem hdrop), hchr] at hround
  exact h.ends_of_single hat.place.next hmatched hat.saved hdrop hclear hround

/-- A class that does not repeat takes the character or ends the attempt. -/
theorem Follows.once {e : UInt8} (hc : c ≠ 0) (hfine : Fine x (.elem (.cls e .once) :: r))
    (h : Follows x allowed r t) : Follows x allowed (.elem (.cls e .once) :: r) (c :: t) := by
  intro started v hat hdrop hclear
  have hstarted := hat.not_started fun e q r heq => by
    cases heq
    rfl
  have hmatched := hat.matched.trans hstarted
  have hchr := chr_of_drop hdrop
  have hplus := hat.place.not_isPlus hfine
  have hne : ¬ x.pat (v.pt + 2) = asterisk := by
    intro heq
    rw [heq] at hplus
    exact absurd hplus (by decide)
  have hout : x.notInClass v = x.handleError v := by
    rw [Args.notInClass, hmatched, if_neg fun hand => Bool.false_ne_true hand.2.1,
      if_neg fun hand => Bool.false_ne_true hand.2, if_neg hne, ← hmatched]
  have hround : x.round v =
      if regexmap (x.pat (v.pt + 1)) (x.chr v.st) then .inr (Args.readOne v (v.pt + 2))
        else x.handleError v := by
    rw [round_elem (hchr.symm ▸ hc) hat.place hfine.head, Args.compare, if_pos hat.place.backslash,
      hout, Args.inClass, if_pos hplus]
  rw [hat.place.regexmap hfine.head, hchr] at hround
  exact h.ends_of_single hat.place.afterOnce hmatched hat.saved hdrop hclear hround

section Repeated

variable {e : UInt8} {q : Quantifier} {started : Bool}

section

variable (hq : q ≠ .once) (hfine : Fine x (.elem (.cls e q) :: r))
  (hat : At x (.elem (.cls e q) :: r) started v) (hst : x.chr v.st ∈ x.str)
  (hstarts : (Element.cls e q).item.skips started = true → starts (itemsOf r) (x.chr v.st) = false)

include hq hfine hat hst hstarts

/-- The lookahead leaves the pointer at the class. -/
theorem at_repeatClass (hskips : (Element.cls e q).item.skips started = true) :
    At x (.elem (.cls e q) :: r) true (x.repeatClass v) ∧
      (x.repeatClass v).st = v.st + 1 ∧ (x.repeatClass v).stError = v.stError := by
  replace hstarts := hstarts hskips
  have hpast := (hat.place.afterRepeated hq).pastParenthesis hfine.tail
  have hnextPt : (if x.pat (v.pt + 3) = openParenthesis then v.pt + 4 else v.pt + 3) =
    x.pastParenthesis (v.pt + 3) := rfl
  have hrepeating : Repeating (.elem (.cls e q) :: r) := ⟨e, q, r, rfl, hq⟩
  rw [Args.repeatClass, hnextPt]
  generalize x.pastParenthesis (v.pt + 3) = nextPt at hpast
  rcases hfine.tail.afterParen_cases with hnil | ⟨e', r', hcons⟩
  · -- the last element: `r_code` stays as it is
    rw [hnil] at hpast
    have hok : x.okHere nextPt v.st = (some 1, true) := if_pos hpast.nil
    rw [hok]
    dsimp only
    rw [if_pos hpast.nil]
    refine ⟨⟨hat.place, rfl, fun _ => hrepeating, hat.saved, fun hnone => ?_⟩, rfl, rfl⟩
    obtain ⟨hstarted, hneeded⟩ := hat.rCode hnone
    rw [hstarted] at hskips
    rw [itemsOf_cons_elem, nullable, hskips, ← itemsOf_afterParen, hnil] at hneeded
    cases hneeded
  · have hfine' := hfine.tail.afterParen
    rw [hcons] at hpast hfine'
    rw [← itemsOf_afterParen, hcons] at hstarts
    rw [hpast.okHere hfine' hst hstarts]
    exact ⟨⟨hat.place, rfl, fun _ => hrepeating, hat.saved,
      fun hnone => absurd hnone (Option.some_ne_none _)⟩, rfl, rfl⟩

theorem at_inClass :
    At x (.elem (.cls e q) :: r) true (x.inClass v) ∧ (x.inClass v).st = v.st + 1 ∧
      (x.inClass v).stError = v.stError := by
  have hisPlus : ¬ isPlus (x.pat (v.pt + 2)) = false := by
    rw [hat.place.repeated hq]
    decide
  rw [Args.inClass, if_neg hisPlus]
  by_cases hrepeat : x.pat (v.pt + 2) = asterisk ∨ v.regexMatched = true
  · rw [if_pos hrepeat]
    refine at_repeatClass hq hfine hat hst hstarts ?_
    rcases hrepeat with hstar | hmatched
    · cases q with
      | once => exact absurd rfl hq
      | plus =>
        rw [hat.place.plus] at hstar
        exact absurd hstar (by decide)
      | star => rfl
    · rw [hat.matched.symm.trans hmatched]
      exact skips_true (repeats_item hq)
  · rw [if_neg hrepeat]
    exact ⟨⟨hat.place, rfl, fun _ => ⟨e, q, r, rfl, hq⟩, hat.saved,
      fun hnone => absurd hnone (Option.some_ne_none _)⟩, rfl, rfl⟩

end

theorem move_repeated (hq : q ≠ .once) (hclass : classOf e c = true) :
    move x.endSet (itemsOf (.elem (.cls e q) :: r)) started c =
      .next (itemsOf (.elem (.cls e q) :: r)) true := by
  rw [itemsOf_cons_elem, move, repeats_item hq]
  exact if_pos hclass

/-- The code behind a class with `+` or `*` is the end character only at the end. -/
theorem pat_behind (hq : q ≠ .once) (h : Reads x v.pt (.elem (.cls e q) :: r))
    (hfine : Fine x (.elem (.cls e q) :: r)) :
    (x.pat (v.pt + 2) = 0 ∨ x.pat (v.pt + 3) = 0) ↔ r = [] := by
  have hnext := h.afterRepeated hq
  have htwo : x.pat (v.pt + 2) ≠ 0 := by
    intro hzero
    have hplus := h.repeated hq
    rw [hzero] at hplus
    exact absurd hplus (by decide)
  rw [or_iff_right htwo]
  cases r with
  | nil => exact ⟨fun _ => rfl, fun _ => hnext.nil⟩
  | cons p r =>
    exact ⟨fun hzero => absurd hzero (hnext.ne_zero hfine.tail.head),
      fun h => absurd h (cons_ne_nil p r)⟩

theorem Quantifier.star_or_plus (hq : q ≠ .once) : q = .star ∨ q = .plus := by
  cases q with
  | once => exact absurd rfl hq
  | plus => exact .inr rfl
  | star => exact .inl rfl

/-- The class is passed: the next round is for the same character. -/
theorem Follows.ends_of_pass (hskip : Follows x allowed r (c :: t))
    (hskips : (Element.cls e q).item.skips started = true) (hdrop : x.str.drop v.st = c :: t)
    (hclass : classOf e c = false) (hround : x.round v = .inr v') (hst : v'.st = v.st)
    (hstError : v'.stError = v.stError) (hat : At x r false v')
    (hclear : clear x.endSet allowed (itemsOf (.elem (.cls e q) :: r)) started (c :: t) = true) :
    Ends x v (scan x.endSet (itemsOf (.elem (.cls e q) :: r)) started v.stError v.st (c :: t)) := by
  have hends := hskip false v' hat (by rw [hst]; exact hdrop)
    (clear_of_skips hclear hskips (Bool.eq_false_iff.1 hclass))
  rw [hst, hstError] at hends
  rw [itemsOf_cons_elem, scan_congr (move_of_skips hskips (Bool.eq_false_iff.1 hclass))]
  exact hends.of_round hround

/-- A character that a class which repeats does not take. -/
theorem ends_of_notInClass (hq : q ≠ .once) (hc : c ≠ 0) (hfine : Fine x (.elem (.cls e q) :: r))
    (hskip : Follows x allowed r (c :: t)) (hat : At x (.elem (.cls e q) :: r) started v)
    (hdrop : x.str.drop v.st = c :: t) (hclass : classOf e c = false)
    (hround : x.round v = x.notInClass v)
    (hclear : clear x.endSet allowed (itemsOf (.elem (.cls e q) :: r)) started (c :: t) = true) :
    Ends x v (scan x.endSet (itemsOf (.elem (.cls e q) :: r)) started v.stError v.st (c :: t)) := by
  have hchr : x.chr v.st ≠ 0 := (chr_of_drop hdrop).symm ▸ hc
  have hnext := hat.place.afterRepeated hq
  have hbehind := pat_behind hq hat.place hfine
  rw [Args.notInClass, hat.matched] at hround
  cases started with
  | false =>
    rw [if_neg fun hand => Bool.false_ne_true hand.2.1,
      if_neg fun hand => Bool.false_ne_true hand.2] at hround
    rcases Quantifier.star_or_plus hq with rfl | rfl
    · rw [if_pos hat.place.star] at hround
      refine hskip.ends_of_pass rfl hdrop hclass hround rfl rfl ?_ hclear
      exact at_of_rCode hnext rfl hat.saved (Option.some_ne_none _)
    · -- one character is needed
      rw [if_neg (by rw [hat.place.plus]; decide)] at hround
      have hmove : move x.endSet (itemsOf (.elem (.cls e .plus) :: r)) false c = .stuck :=
        (if_neg (Bool.eq_false_iff.1 hclass)).trans (if_neg Bool.false_ne_true)
      have hends := ends_of_handleError hround hat.saved rfl
      rw [scan_stuck hmove]
      exact hends
  | true =>
    have hpass : (Element.cls e q).item.skips true = true := skips_true (repeats_item hq)
    have hcode : v.rCode ≠ none := fun hnone => Bool.false_ne_true (hat.rCode hnone).1.symm
    by_cases hr : r = []
    · -- the end of the pattern
      rw [if_pos ⟨hbehind.2 hr, rfl, Option.isSome_iff_ne_none.2 hcode⟩, mayEnd_eq hchr] at hround
      have hmove : move x.endSet (itemsOf (.elem (.cls e q) :: r)) true c = if x.endSet then .stuck
          else .done := by
        rw [itemsOf_cons_elem, move_of_skips hpass (Bool.eq_false_iff.1 hclass), hr]
        rfl
      cases hend : x.endSet with
      | false =>
        rw [hend] at hround hmove
        rw [scan_done hmove]
        exact ⟨_, returns_of_inl hround, rfl⟩
      | true =>
        rw [hend] at hround hmove
        have hends := ends_of_handleError hround hat.saved rfl
        rw [scan_stuck hmove]
        exact hends
    · rw [if_neg fun hand => hr (hbehind.1 hand.1)] at hround
      rcases Quantifier.star_or_plus hq with rfl | rfl
      · rw [if_neg (by rw [hat.place.star]; decide), if_pos hat.place.star] at hround
        refine hskip.ends_of_pass hpass hdrop hclass hround rfl rfl ?_ hclear
        exact at_of_rCode hnext rfl hat.saved (Option.some_ne_none _)
      · rw [if_pos ⟨hat.place.plus, rfl⟩] at hround
        refine hskip.ends_of_pass hpass hdrop hclass hround rfl rfl ?_ hclear
        exact at_of_rCode hnext rfl hat.saved hcode

/-- A class that repeats takes the character, is passed, or ends the attempt. -/
theorem Follows.repeated (hq : q ≠ .once) (hc : c ≠ 0) (hfine : Fine x (.elem (.cls e q) :: r))
    (hsame : Follows x allowed (.elem (.cls e q) :: r) t) (hskip : Follows x allowed r (c :: t)) :
    Follows x allowed (.elem (.cls e q) :: r) (c :: t) := by
  intro started v hat hdrop hclear
  have hchr := chr_of_drop hdrop
  have hround : x.round v =
      if regexmap (x.pat (v.pt + 1)) (x.chr v.st) then .inr (x.inClass v) else x.notInClass v := by
    rw [round_elem (hchr.symm ▸ hc) hat.place hfine.head, Args.compare, if_pos hat.place.backslash]
  rw [hat.place.regexmap hfine.head, hchr] at hround
  cases hclass : classOf e c with
  | true =>
    obtain ⟨hat', hst, hstError⟩ := at_inClass hq hfine hat (chr_mem hdrop) fun hskips =>
      hchr.symm ▸ starts_of_clear hclear hskips hclass
    have hends := hsame true _ hat' (by rw [hst]; exact drop_succ hdrop)
      (clear_next hclear (move_repeated hq hclass))
    rw [hclass, if_pos rfl] at hround
    rw [hst, hstError] at hends
    rw [scan_next (move_repeated hq hclass)]
    exact hends.of_round hround
  | false =>
    rw [hclass, if_neg Bool.false_ne_true] at hround
    exact ends_of_notInClass hq hc hfine hskip hat hdrop hclass hround hclear

end Repeated

end Round

/-- The loop ends as the attempt does. -/
theorem follows_of_fine {t : Text} (hfine : Fine x rest) (hzero : 0 ∉ t) (hallowed : ∀ r,
    r <:+ rest → allowed (itemsOf r).length = true → settled x.closure.isSome (elements r) = true) :
    Follows x allowed rest t := by
  -- over the characters, and for each over the pieces that are passed
  induction t generalizing rest with
  | nil => exact follows_nil hfine (hallowed rest (suffix_refl _))
  | cons c t ih =>
    have hc : c ≠ 0 := fun h => hzero (h ▸ mem_cons_self)
    have hrest : 0 ∉ t := fun h => hzero (mem_cons_of_mem c h)
    induction rest with
    | nil => exact follows_end hc
    | cons p r ihr =>
      have hbehind := fun r' h => hallowed r' (List.IsSuffix.trans h (suffix_cons p r))
      cases p with
      | paren => exact (ihr hfine.tail hbehind).paren hc hfine
      | elem e =>
        cases e with
        | literal b => exact (ih hfine.tail hrest hbehind).literal hc hfine
        | cls e q =>
          by_cases hq : q = .once
          · subst hq
            exact (ih hfine.tail hrest hbehind).once hc hfine
          · exact (ih hfine hrest hallowed).repeated hq hc hfine (ihr hfine.tail hbehind)

end Attempts

/-! ## The search -/

section Search

variable {signed closures : Bool} {str : Text} {alt : Alternative}

/-- What is left of an alternative are its last elements. -/
theorem lastElements_length {ps : List Piece} (h : rest <:+ ps) :
    lastElements ps (itemsOf rest).length = elements rest := by
  obtain ⟨l, rfl⟩ := h
  simp [lastElements, itemsOf, elements]

/-- With `^` there is one attempt. Without it the attempts that are made find a match if there is
one. -/
theorem returns_of_search (hvalid : alt.Valid) (hsimple : alt.Simple signed closures str)
    (hzero : 0 ∉ str) {x : Args} (hx : x = alt.compiled.args signed closures str) {v : Vars}
    (hat : At x alt.body false v) (hstError : v.stError = none) (hle : v.st ≤ str.length)
    (hbegin : alt.begins = true → v.st = 0) (hbefore : ∀ j < v.st, alt.attempt str j ≠ .accept)
    (hstuck : alt.begins = false → ∀ q, alt.attempt str v.st = .failed q →
    OneRepeats (itemsOf alt.body) ∧ (alt.ends = true → nullable (itemsOf alt.body) false = false)) :
    ∃ ret, Returns x.round v ret ∧ (ret.code.isSome = true ↔
      ∃ k, (alt.begins = true → k = 0) ∧ alt.attempt str k = .accept) := by
  have hbegins : x.beginSet = alt.begins := by rw [hx]; rfl
  have hfine : Fine x alt.body := by
    rw [hx]
    exact ⟨hvalid.pieces, hvalid.spaced, hsimple.body⟩
  induction hn : str.length - v.st using Nat.strong_induction_on generalizing v with
  | _ n ih =>
    have hclear := hsimple.clear v.st hbegin hbefore
    have hends : Ends x v (alt.attempt str v.st) := by
      have hfollows : Follows x (fun n => settled closures (lastElements alt.body n)) alt.body
          (str.drop v.st) := by
        refine follows_of_fine hfine (fun h => hzero (mem_of_mem_drop h)) fun r hr hallowed =>
          ?_
        rw [lastElements_length hr] at hallowed
        rw [hx]
        cases closures <;> exact hallowed
      have hends := hfollows false v hat (by rw [hx]; rfl) (by rw [hx]; exact hclear)
      rw [hstError, hx] at hends
      rw [hx]
      exact hends
    cases hscan : alt.attempt str v.st with
    | accept =>
      rw [hscan] at hends
      obtain ⟨ret, hret, hcode⟩ := hends
      exact ⟨ret, hret, fun _ => ⟨v.st, hbegin, hscan⟩, fun _ => hcode⟩
    | exhausted =>
      rw [hscan] at hends
      obtain ⟨ret, hret, hcode⟩ := hends
      refine ⟨ret, hret, fun h => ?_, fun ⟨k, _, hk⟩ => ?_⟩
      · rw [hcode] at h
        cases h
      · rcases Nat.lt_or_ge k v.st with hlt | hge
        · exact absurd hk (hbefore k hlt)
        · -- the attempt was ahead of all later ones
          rw [Alternative.attempt, ← Nat.add_sub_of_le hge, ← drop_drop] at hk
          exact absurd hk (not_accept_of_exhausted (suffix_refl _) hscan _)
    | failed q =>
      rw [hscan, Ends, hbegins] at hends
      cases hanchor : alt.begins with
      | true =>
        rw [hanchor, if_pos rfl] at hends
        obtain ⟨ret, hret, hcode⟩ := hends
        refine ⟨ret, hret, fun h => ?_, fun ⟨k, hk, haccept⟩ => ?_⟩
        · rw [hcode] at h
          cases h
        · rw [hk rfl, ← hbegin hanchor] at haccept
          cases hscan.symm.trans haccept
      | false =>
        rw [hanchor, if_neg Bool.false_ne_true] at hends
        obtain ⟨v', hbegun, hnext⟩ := hends
        obtain ⟨hge, hlt⟩ := failed_bounds hscan
        rw [length_drop] at hlt
        obtain ⟨hfirst, hlast⟩ := hstuck hanchor q hscan
        have hneeded : nullable (itemsOf alt.body) false = false := by
          cases hend : alt.ends with
          | true => exact hlast hend
          | false =>
            rw [Bool.eq_false_iff]
            intro hnull
            have haccept : alt.attempt str v.st = .accept := by
              rw [Alternative.attempt, scan_accept_iff hclear]
              refine ⟨[], _, rfl, seqMatches_resume_nil.2 hnull, fun h => ?_⟩
              exact absurd (hend.symm.trans h) Bool.false_ne_true
            cases hscan.symm.trans haccept
        have hat' : At x alt.body false v' := by
          refine ⟨?_, hbegun.matched, fun hf => absurd hf Bool.false_ne_true, hbegun.saved,
            fun _ => ⟨rfl, hneeded⟩⟩
          rw [hbegun.pt, hx]
          rfl
        have hst := hbegun.st
        -- no match up to the place behind which the next attempt begins
        have hbefore' : ∀ j < v'.st, alt.attempt str j ≠ .accept := by
          intro j hj haccept
          rcases Nat.lt_or_ge j v.st with hlt | hge
          · exact hbefore j hlt haccept
          · rw [Alternative.attempt, ← Nat.add_sub_of_le hge, ← drop_drop] at haccept
            exact not_accept_of_failed hfirst hscan _ (by omega) haccept
        obtain ⟨ret, hret, hiff⟩ := ih (str.length - v'.st) (by omega) hat' hbegun.stError
          (by omega) (fun h => absurd (hanchor.symm.trans h) Bool.false_ne_true) hbefore'
          (fun _ _ _ => ⟨hfirst, hlast⟩) rfl
        rw [hanchor] at hiff
        exact ⟨ret, hnext ret hret, hiff⟩

/-- An attempt finds the match that begins at its place. -/
theorem attempt_accept_iff {allowed : Nat → Bool} {i : Nat}
    (hclear : clear alt.ends allowed (itemsOf alt.body) false (str.drop i) = true) :
    alt.attempt str i = .accept ↔ ∃ found back, str.drop i = found ++ back ∧
      SeqMatches (itemsOf alt.body) found ∧ (alt.ends = true → back = []) := by
  rw [Alternative.attempt, scan_accept_iff hclear, resume_false]

/-- The first attempt that finds something finds a match, and one before a match or at it finds
something. -/
theorem matches_iff (hsimple : alt.Simple signed closures str) :
    alt.Matches str ↔ ∃ k, (alt.begins = true → k = 0) ∧ alt.attempt str k = .accept := by
  constructor
  · rintro ⟨front, found, back, hstr, hfound, hfront, hback⟩
    have hbegins : alt.begins = true → front.length = 0 :=
      fun h => length_eq_zero_iff.2 (hfront h)
    by_cases hbefore : ∀ j < front.length, alt.attempt str j ≠ .accept
    · refine ⟨front.length, hbegins, ?_⟩
      rw [attempt_accept_iff (hsimple.clear _ hbegins hbefore)]
      exact ⟨found, back, by rw [hstr, drop_left], hfound, hback⟩
    · obtain ⟨j, hj, haccept⟩ : ∃ j < front.length, alt.attempt str j = .accept := by
        simpa using hbefore
      exact ⟨j, fun h => absurd (hbegins h) (by omega), haccept⟩
  · rintro ⟨k, hbegins, hk⟩
    -- down to the first attempt that finds something
    induction k using Nat.strong_induction_on with
    | _ k ih =>
      by_cases hbefore : ∀ j < k, alt.attempt str j ≠ .accept
      · obtain ⟨found, back, hdrop, hfound, hback⟩ :=
          (attempt_accept_iff (hsimple.clear k hbegins hbefore)).1 hk
        refine ⟨str.take k, found, back, ?_, hfound, fun h => ?_, hback⟩
        · rw [← hdrop]
          exact (take_append_drop k str).symm
        · rw [hbegins h]
          rfl
      · obtain ⟨j, hj, haccept⟩ : ∃ j < k, alt.attempt str j = .accept := by simpa using hbefore
        exact ih j hj (fun h => absurd (hbegins h) (by omega)) haccept

/-- `_OS_Regex` on a simple alternative. -/
theorem osRegex_alternative (hvalid : alt.Valid) (hsimple : alt.Simple signed closures str)
    (hzero : 0 ∉ str) :
    ∃ n ret, (∀ fuel, n ≤ fuel → osRegex fuel (alt.compiled.args signed closures str) = some ret) ∧
      (ret.code.isSome = true ↔ alt.Matches str) := by
  have hat : At (alt.compiled.args signed closures str) alt.body false
      (alt.compiled.args signed closures str).init :=
    at_of_rCode rfl rfl rfl (Option.some_ne_none _)
  obtain ⟨ret, ⟨n, hn⟩, hiff⟩ := returns_of_search hvalid hsimple hzero rfl hat rfl (Nat.zero_le _)
    (fun _ => rfl) (fun j hj => absurd hj (Nat.not_lt_zero j)) hsimple.stuck
  exact ⟨n, ret, hn, hiff.trans (matches_iff hsimple).symm⟩

/-- The sub patterns are tried one after the other. -/
theorem executePatterns_alternatives {alts : List Alternative} (hvalid : ∀ alt ∈ alts, alt.Valid)
    (hsimple : ∀ alt ∈ alts, alt.Simple signed closures str) (hzero : 0 ∉ str) :
    ∃ n, ∀ fuel, n ≤ fuel →
      ∃ r, executePatterns fuel signed closures str (alts.map Alternative.compiled) = some r ∧
        (r.ret.isSome = true ↔ ∃ alt ∈ alts, alt.Matches str) := by
  induction alts with
  | nil =>
    refine ⟨0, fun fuel _ => ⟨⟨none, []⟩, rfl, fun h => absurd h Bool.false_ne_true, ?_⟩⟩
    rintro ⟨alt, halt, -⟩
    exact absurd halt not_mem_nil
  | cons alt alts ih =>
    obtain ⟨hvalid₁, hvalid⟩ := forall_mem_cons.1 hvalid
    obtain ⟨hsimple₁, hsimple⟩ := forall_mem_cons.1 hsimple
    obtain ⟨n₁, ret, hret, hcode⟩ := osRegex_alternative hvalid₁ hsimple₁ hzero
    obtain ⟨n₂, hrest⟩ := ih hvalid hsimple
    refine ⟨max n₁ n₂, fun fuel hfuel => ?_⟩
    rw [map_cons, executePatterns, hret fuel (le_trans (le_max_left _ _) hfuel)]
    dsimp only
    cases hc : ret.code with
    | some code =>
      refine ⟨_, rfl, fun _ => ⟨alt, mem_cons_self, hcode.1 ?_⟩, fun _ => rfl⟩
      rw [hc]
      rfl
    | none =>
      have hnot : ¬ alt.Matches str := by
        rw [← hcode, hc]
        exact Bool.false_ne_true
      obtain ⟨r, hr, hiff⟩ := hrest fuel (le_trans (le_max_right _ _) hfuel)
      refine ⟨r, hr, hiff.trans ?_⟩
      rw [exists_mem_cons_iff, or_iff_right hnot]

end Search

end WazAISentinel.OsRegex
