import WazAISentinel.Foundations.PaddedOrder
import WazAISentinel.VersionMatcher.VersionObjectDpkg

/-!
# The order of Debian package versions

Read on its own a version string is a sequence of parts, each a run of other characters and a
number; behind its end it goes on with empty runs and zeros. Runs compare character by character,
with `~` below the end of the run and letters below other characters, numbers by their value.

On plain strings, of ASCII characters other than NUL, the comparison of the source returns that
order and never moves a cursor past the terminating NUL. The strings `match` accepts are plain.
-/

namespace WazAISentinel.VersionMatcher

open Foundations List

/-! ## Runs and parts -/

/-- A character of a run, or its end. -/
inductive Mark where
  | tilde
  | finish
  | letter (c : Char)
  | other (c : Char)
  deriving DecidableEq, Repr

namespace Mark

/-- The order of the kinds. -/
def rank : Mark → Nat
  | tilde => 0
  | finish => 1
  | letter _ => 2
  | other _ => 3

/-- The code of a letter or another character. -/
def code : Mark → Nat
  | letter c => c.toNat
  | other c => c.toNat
  | _ => 0

/-- The mark of a character. -/
def ofChar (c : Char) : Mark := if c.isAlpha then letter c else if c = '~' then tilde else other c

/-- Marks compare by kind and then by code. -/
def compare (a b : Mark) : Ordering := (Ord.compare a.rank b.rank).then (Ord.compare a.code b.code)

instance : Std.TransCmp compare :=
  haveI := transCmp_on (Ord.compare : Nat → Nat → Ordering) code
  transCmp_then Ord.compare rank _

end Mark

/-- A character that belongs to a run. -/
def inRun (c : Char) : Bool := !c.isDigit

/-- The marks of a run. -/
def marks (run : List Char) : List Mark := run.map Mark.ofChar ++ [.finish]

/-- A run of other characters and the number behind it. -/
abbrev Part := List Char × Nat

/-- Parts compare by their runs and then by their numbers. -/
def comparePart (p q : Part) : Ordering :=
  (List.compareLex Mark.compare (marks p.1) (marks q.1)).then (compare p.2 q.2)

instance : Std.TransCmp comparePart :=
  haveI := transCmp_on (compare : Nat → Nat → Ordering) fun p : Part => p.2
  transCmp_then (List.compareLex Mark.compare) (fun p : Part => marks p.1) _

/-- The first part of a string. -/
def firstPart (s : List Char) : Part :=
  (s.takeWhile inRun, decimal ((s.dropWhile inRun).takeWhile Char.isDigit))

/-- What follows the first part. -/
def afterPart (s : List Char) : List Char := (s.dropWhile inRun).dropWhile Char.isDigit

variable {c : Char} {a b : Mark} {fuel : Nat} {l r t s : List Char}

theorem length_afterPart_lt : (afterPart (c :: s)).length < (c :: s).length := by
  have hrun := s.length_dropWhile_le inRun
  have hdigits := (s.dropWhile inRun).length_dropWhile_le Char.isDigit
  have hdigits' := s.length_dropWhile_le Char.isDigit
  by_cases hc : inRun c = true
  · rw [afterPart, dropWhile_cons_of_pos hc, length_cons]
    omega
  · have hdigit : c.isDigit = true := by simpa [inRun] using hc
    rw [afterPart, dropWhile_cons_of_neg hc, dropWhile_cons_of_pos hdigit, length_cons]
    omega

/-- The parts of a string. -/
def parts : List Char → List Part
  | [] => []
  | c :: s => firstPart (c :: s) :: parts (afterPart (c :: s))
  termination_by s => s.length
  decreasing_by exact length_afterPart_lt

/-- The order of two version strings. -/
def compareParts (l r : List Char) : Ordering :=
  comparePadded comparePart ([], 0) (parts l) (parts r)

instance : Std.TransCmp compareParts := transCmp_on (comparePadded comparePart ([], 0)) parts

theorem compareParts_self (s : List Char) : compareParts s s = .eq := Std.ReflCmp.compare_self

/-- The first parts decide, and if they are equal the rest. -/
theorem compareParts_step (l r : List Char) :
    compareParts l r =
      (comparePart (firstPart l) (firstPart r)).then
        (compareParts (afterPart l) (afterPart r)) := by
  have hhead : ∀ s, (parts s).headD ([], 0) = firstPart s := by
    intro s
    cases s with
    | nil => simp [parts, firstPart]
    | cons c s => simp [parts]
  have htail : ∀ s, (parts s).tail = parts (afterPart s) := by
    intro s
    cases s with
    | nil => simp [parts, afterPart]
    | cons c s => simp [parts]
  rw [compareParts, comparePadded_step, hhead, hhead, htail, htail, compareParts]

/-! ## Characters -/

/-- A string of ASCII characters other than NUL. -/
def Plain (s : List Char) : Prop := ∀ c ∈ s, c.toNat < 128 ∧ c ≠ nul

theorem Plain.tail (h : Plain (c :: s)) : Plain s :=
  fun d hd => h d (mem_cons_of_mem c hd)

theorem Plain.dropWhile (h : Plain s) (p : Char → Bool) : Plain (s.dropWhile p) :=
  fun c hc => h c ((dropWhile_sublist p).mem hc)

theorem Plain.noNul (h : Plain s) : nul ∉ s := fun hmem => (h nul hmem).2 rfl

/-- A weight with the order of the marks; the end of a run weighs 0. -/
def Mark.weight : Mark → Int
  | .tilde => -1
  | .finish => 0
  | .letter c => c.toNat
  | .other c => c.toNat + 256

/-- A mark a plain string can have. -/
def Mark.Valid : Mark → Prop
  | .letter c => 0 < c.toNat ∧ c.toNat < 128
  | .other c => c.toNat < 128
  | _ => True

theorem Mark.valid_ofChar (hascii : c.toNat < 128) : (Mark.ofChar c).Valid := by
  unfold Mark.ofChar
  split
  · rename_i halpha
    exact (toNat_of_isAlpha halpha).imp_left Nat.zero_lt_of_lt
  · split
    · trivial
    · exact hascii

theorem sign_compare (m n : Nat) : sign (compare m n) = (m - n : Int).sign := by
  rcases lt_trichotomy m n with h | h | h
  · rw [Nat.compare_eq_lt.2 h, Int.sign_eq_neg_one_of_neg (by omega)]
    rfl
  · rw [Nat.compare_eq_eq.2 h, h, Int.sub_self]
    rfl
  · rw [Nat.compare_eq_gt.2 h, Int.sign_eq_one_of_pos (by omega)]
    rfl

/-- Marks compare as their weights. -/
theorem Mark.sign_compare (ha : a.Valid) (hb : b.Valid) :
    sign (a.compare b) = (a.weight - b.weight).sign := by
  cases a <;> cases b <;> simp only [Mark.Valid] at ha hb
  case letter.letter c d =>
    simpa [Mark.compare, rank, code, weight] using VersionMatcher.sign_compare c.toNat d.toNat
  case other.other c d =>
    simpa [Mark.compare, rank, code, weight] using VersionMatcher.sign_compare c.toNat d.toNat
  all_goals
    first
    | rfl
    | (rw [Int.sign_eq_neg_one_of_neg (by simp only [weight]; omega)]; rfl)
    | (rw [Int.sign_eq_one_of_pos (by simp only [weight]; omega)]; rfl)

/-- Equal weights are weights of one mark. -/
theorem Mark.eq_of_weight (ha : a.Valid) (hb : b.Valid) (h : a.weight = b.weight) : a = b := by
  have hchar : ∀ c d : Char, (c.toNat : Int) = d.toNat → c = d :=
    fun c d hcd => Char.toNat_inj.1 (by exact_mod_cast hcd)
  cases a <;> cases b <;> simp only [Mark.Valid] at ha hb <;> simp only [weight] at h
  case letter.letter c d => rw [hchar c d h]
  case other.other c d => rw [hchar c d (by omega)]
  all_goals
    first
    | rfl
    | omega

/-! ## The loop over other characters -/

/-- The mark at a cursor. -/
def headMark : List Char → Mark
  | [] => .finish
  | c :: _ => if inRun c then .ofChar c else .finish

theorem ofChar_ne_finish : Mark.ofChar c ≠ .finish := by
  unfold Mark.ofChar
  split
  · simp
  · split <;> simp

theorem valid_headMark (h : Plain s) : (headMark s).Valid := by
  cases s with
  | nil => trivial
  | cons c s =>
    rw [headMark]
    split
    · exact Mark.valid_ofChar (h c mem_cons_self).1
    · trivial

/-- The source weighs a character of a run as its mark. -/
theorem order_deref (h : Plain s) : order (deref s) = (headMark s).weight := by
  cases s with
  | nil => rfl
  | cons c s =>
    obtain ⟨hascii, hnul⟩ := h c mem_cons_self
    rw [deref_cons, headMark]
    split_ifs with hc
    · have hdigit : c.isDigit = false := by simpa [inRun] using hc
      have hvalue : charValue c = c.toNat := by simp [charValue, hascii]
      by_cases halpha : c.isAlpha = true
      · simp [order, Mark.ofChar, hdigit, halpha, hvalue, Mark.weight]
      · by_cases htilde : c = '~'
        · simp [order, Mark.ofChar, htilde, Mark.weight]
        · simp [order, Mark.ofChar, hdigit, halpha, htilde, hnul, hvalue, Mark.weight]
    · have hdigit : c.isDigit = true := by simpa [inRun] using hc
      simp [order, hdigit, Mark.weight]

/-- The loop goes on while one of the cursors stands at a mark other than the end of its run. -/
theorem headMark_ne_finish (h : Plain s) :
    headMark s ≠ .finish ↔ deref s ≠ nul ∧ ¬ (deref s).isDigit = true := by
  cases s with
  | nil => simp [headMark]
  | cons c s =>
    have hnul := (h c mem_cons_self).2
    by_cases hc : inRun c = true
    · have hdigit : c.isDigit = false := by simpa [inRun] using hc
      simp [headMark, hc, ofChar_ne_finish, hnul, hdigit]
    · have hdigit : c.isDigit = true := by simpa [inRun] using hc
      simp [headMark, hc, hdigit]

/-- At the end of a run nothing of it is left. -/
theorem run_of_finish (h : headMark s = .finish) :
    s.takeWhile inRun = [] ∧ s.dropWhile inRun = s := by
  cases s with
  | nil => exact ⟨rfl, rfl⟩
  | cons c s =>
    have hc : ¬ inRun c = true := by
      intro hc
      rw [headMark, if_pos hc] at h
      exact ofChar_ne_finish h
    exact ⟨takeWhile_cons_of_neg hc, dropWhile_cons_of_neg hc⟩

/-- A run starts with the mark at its cursor. -/
theorem run_of_ne_finish (h : headMark s ≠ .finish) :
    ∃ c t, s = c :: t ∧ s.takeWhile inRun = c :: t.takeWhile inRun ∧
      s.dropWhile inRun = t.dropWhile inRun ∧ headMark s = .ofChar c := by
  cases s with
  | nil => exact absurd rfl h
  | cons c s =>
    have hc : inRun c = true := by
      by_contra hc
      exact h (by rw [headMark, if_neg hc])
    exact ⟨c, s, rfl, takeWhile_cons_of_pos hc,
      dropWhile_cons_of_pos hc, by rw [headMark, if_pos hc]⟩

theorem marks_headMark : ∃ rest, marks (s.takeWhile inRun) = headMark s :: rest := by
  by_cases h : headMark s = .finish
  · exact ⟨[], by rw [(run_of_finish h).1, h]; rfl⟩
  · obtain ⟨c, t, -, hrun, -, hmark⟩ := run_of_ne_finish h
    exact ⟨marks (t.takeWhile inRun), by rw [hrun, hmark]; rfl⟩

/-- The order of the runs at two cursors. -/
def compareRuns (l r : List Char) : Ordering :=
  List.compareLex Mark.compare (marks (l.takeWhile inRun)) (marks (r.takeWhile inRun))

/-- The loop returns the order of the runs if they differ and reaches their ends if not. It never
moves a cursor past the NUL. -/
theorem nonDigitLoop_eq (hl : Plain l) (hr : Plain r) (hfuel : l.length < fuel) :
    (compareRuns l r = .eq ∧
      nonDigitLoop fuel l r = .reached (l.dropWhile inRun) (r.dropWhile inRun)) ∨
      ∃ n, compareRuns l r ≠ .eq ∧ n.sign = sign (compareRuns l r) ∧
        nonDigitLoop fuel l r = .differ n := by
  induction fuel generalizing l r with
  | zero => cases hfuel
  | succ fuel ih =>
    have hvalidl := valid_headMark hl
    have hvalidr := valid_headMark hr
    obtain ⟨restl, hmarksl⟩ := marks_headMark (s := l)
    obtain ⟨restr, hmarksr⟩ := marks_headMark (s := r)
    rw [nonDigitLoop]
    by_cases hfinish : headMark l = .finish ∧ headMark r = .finish
    · -- both cursors stand at the end of their runs
      obtain ⟨htakel, hdropl⟩ := run_of_finish hfinish.1
      obtain ⟨htaker, hdropr⟩ := run_of_finish hfinish.2
      refine .inl ⟨?_, ?_⟩
      · rw [compareRuns, htakel, htaker]
        have hself : ∀ m, List.compareLex Mark.compare m m = .eq :=
          fun _ => Std.ReflCmp.compare_self
        exact hself _
      · rw [if_neg, hdropl, hdropr]
        rw [← headMark_ne_finish hl, ← headMark_ne_finish hr]
        simp [hfinish.1, hfinish.2]
    · have hmore : (deref l ≠ nul ∧ ¬ (deref l).isDigit = true) ∨
          (deref r ≠ nul ∧ ¬ (deref r).isDigit = true) := by
        rw [← headMark_ne_finish hl, ← headMark_ne_finish hr]
        exact not_and_or.1 hfinish
      rw [if_pos hmore]
      rw [order_deref hl, order_deref hr]
      by_cases hweight : (headMark l).weight = (headMark r).weight
      · -- equal weights are equal characters, so neither cursor stands at the NUL
        have hmark := Mark.eq_of_weight hvalidl hvalidr hweight
        have hnel : headMark l ≠ .finish := fun h => hfinish ⟨h, hmark ▸ h⟩
        obtain ⟨c, l', rfl, htakel, hdropl, hheadl⟩ := run_of_ne_finish hnel
        obtain ⟨d, r', rfl, htaker, hdropr, hheadr⟩ := run_of_ne_finish (hmark ▸ hnel)
        have hadvance : ∀ {x : Char} {t : List Char}, Plain (x :: t) →
            advance (x :: t) = some t := by
          intro x t ht
          simp [advance, (ht x mem_cons_self).2]
        have hsame : compareRuns (c :: l') (d :: r') = compareRuns l' r' := by
          rw [compareRuns, htakel, htaker, compareRuns]
          simp only [marks, List.map_cons, List.cons_append, List.compareLex_cons_cons, ← hheadl,
            ← hheadr, hmark]
          have hself : Mark.compare (headMark (d :: r')) (headMark (d :: r')) = .eq :=
            Std.ReflCmp.compare_self
          rw [hself, Ordering.eq_then]
        rw [if_neg (not_not.2 hweight), hadvance hl, hadvance hr, hdropl, hdropr, hsame]
        exact ih hl.tail hr.tail (Nat.lt_of_succ_lt_succ hfuel)
      · have hsign := Mark.sign_compare hvalidl hvalidr
        have hne : (headMark l).compare (headMark r) ≠ .eq := by
          rwa [Ne, ← sign_eq_zero, hsign, Int.sign_eq_zero_iff_zero, Int.sub_eq_zero]
        have hruns : compareRuns l r = (headMark l).compare (headMark r) := by
          rw [compareRuns, hmarksl, hmarksr, List.compareLex_cons_cons, then_of_ne_eq hne]
        exact .inr ⟨_, by rw [hruns]; exact hne, by rw [hruns, hsign], by rw [if_pos hweight]⟩

/-! ## The loop over digits -/

/-- The difference of the first two digits that differ. -/
def firstDifference : List Char → List Char → Int
  | c :: s, d :: t => if c = d then firstDifference s t else charValue c - charValue d
  | _, _ => 0

theorem toNat_lt_of_isDigit (hc : c.isDigit = true) : c.toNat < 128 := by
  have hnine : '9'.toNat < 128 := by decide
  exact (Char.isDigit_iff_toNat.1 hc).2.trans_lt hnine

theorem charValue_of_isDigit (hc : c.isDigit = true) : charValue c = c.toNat := by
  simp [charValue, toNat_lt_of_isDigit hc]

theorem compare_toNat (c d : Char) : compare c d = compare c.toNat d.toNat := by
  simp only [compare, compareOfLessAndEq, Char.lt_def, UInt32.lt_iff_toNat_lt, Char.ext_iff,
    ← UInt32.toNat_inj, Char.toNat]

/-- Texts of digits of one length compare by their first difference. -/
theorem sign_firstDifference (hs : ∀ c ∈ s, c.isDigit = true) (ht : ∀ c ∈ t, c.isDigit = true)
    (hlength : s.length = t.length) :
    (firstDifference s t).sign = sign (List.compareLex compare s t) := by
  induction s generalizing t with
  | nil =>
    rw [length_eq_zero_iff.1 hlength.symm]
    rfl
  | cons c s ih =>
    cases t with
    | nil => simp at hlength
    | cons d t =>
      have hrest := ih (fun x hx => hs x (List.mem_cons_of_mem c hx))
        (fun x hx => ht x (List.mem_cons_of_mem d hx)) (by simpa using hlength)
      rw [firstDifference, List.compareLex_cons_cons]
      rw [charValue_of_isDigit (hs c List.mem_cons_self),
        charValue_of_isDigit (ht d List.mem_cons_self)]
      by_cases heq : c = d
      · rw [if_pos heq, compare_eq_iff_eq.2 heq, Ordering.eq_then, hrest]
      · rw [if_neg heq, then_of_ne_eq (compare_eq_iff_eq.not.2 heq), compare_toNat, sign_compare]

/-- The first difference is kept once it was found. -/
theorem firstDifference_cons {d : Char} (hc : c.isDigit = true) (hd : d.isDigit = true) (n : Int) :
    (if (if n = 0 then charValue c - charValue d else n) = 0 then firstDifference s t
      else if n = 0 then charValue c - charValue d else n) = if n = 0
        then firstDifference (c :: s) (d :: t) else n := by
  by_cases hn : n = 0
  · simp only [hn, if_true, firstDifference]
    by_cases hcd : c = d
    · simp [hcd]
    · have hne : charValue c - charValue d ≠ 0 := by
        rw [charValue_of_isDigit hc, charValue_of_isDigit hd]
        intro hzero
        exact hcd (Char.toNat_inj.1 (by omega))
      simp [hcd, hne]
  · simp [hn]

/-- A text that does not go on with a digit. -/
def EndsDigits (s : List Char) : Prop := (deref s).isDigit = false

theorem digitLoop_of_endsDigits (h : EndsDigits l ∨ EndsDigits r) (n : Int) :
    digitLoop n l r = (n, l, r) := by
  cases l with
  | nil => simp [digitLoop]
  | cons c l =>
    cases r with
    | nil => simp [digitLoop]
    | cons d r => rw [digitLoop, if_neg (by simpa [EndsDigits, imp_iff_not_or] using h)]

/-- The longer run of digits wins, and of two equally long ones the first difference decides. -/
theorem digitResult_digitLoop (n : Int) (hs : ∀ c ∈ s, c.isDigit = true)
    (ht : ∀ c ∈ t, c.isDigit = true) (hl : EndsDigits l) (hr : EndsDigits r) :
    (t.length < s.length → digitResult (digitLoop n (s ++ l) (t ++ r)) = some 1) ∧
      (s.length < t.length → digitResult (digitLoop n (s ++ l) (t ++ r)) = some (-1)) ∧
        (s.length = t.length →
        digitLoop n (s ++ l) (t ++ r) = (if n = 0 then firstDifference s t else n, l, r)) := by
  induction s generalizing t n with
  | nil =>
    cases t with
    | nil =>
      refine ⟨fun h => absurd h (Nat.lt_irrefl _), fun h => absurd h (Nat.lt_irrefl _), fun _ => ?_⟩
      simp [digitLoop_of_endsDigits (.inl hl), firstDifference]
    | cons d t =>
      have hd := ht d mem_cons_self
      refine ⟨fun h => absurd h (by simp), fun _ => ?_, fun h => absurd h (by simp)⟩
      rw [nil_append, digitLoop_of_endsDigits (.inl hl), digitResult, hl]
      simp [hd]
  | cons c s ih =>
    have hc := hs c mem_cons_self
    cases t with
    | nil =>
      refine ⟨fun _ => ?_, fun h => absurd h (by simp), fun h => absurd h (by simp)⟩
      simp [digitLoop_of_endsDigits (.inr hr), digitResult, hc]
    | cons d t =>
      have hd := ht d mem_cons_self
      have hrest := ih (t := t) (if n = 0 then charValue c - charValue d else n)
        (fun x hx => hs x (mem_cons_of_mem c hx))
          (fun x hx => ht x (mem_cons_of_mem d hx))
      simp only [cons_append, digitLoop, hc, hd, Bool.and_self, if_true, length_cons,
        Nat.add_lt_add_iff_right, Nat.add_right_cancel_iff]
      rw [firstDifference_cons hc hd n] at hrest
      exact hrest

/-- Zeros are dropped from the digits only. -/
theorem dropZeros_append (hl : EndsDigits l) : dropZeros (s ++ l) = dropZeros s ++ l := by
  induction s with
  | nil =>
    cases l with
    | nil => rfl
    | cons c l =>
      have hc : c ≠ '0' := by
        rintro rfl
        cases hl
      rw [nil_append, dropZeros_cons_of_ne hc]
      rfl
  | cons c s ih =>
    by_cases hc : c = '0'
    · subst hc
      exact ih
    · rw [cons_append, dropZeros_cons_of_ne hc, dropZeros_cons_of_ne hc]
      rfl

theorem endsDigits_dropWhile (s : List Char) : EndsDigits (s.dropWhile Char.isDigit) := by
  have hhead := s.head?_dropWhile_not Char.isDigit
  cases hrest : s.dropWhile Char.isDigit with
  | nil => rfl
  | cons c rest =>
    rw [hrest] at hhead
    exact hhead

/-! ## The comparison of two strings -/

/-- The digits at two cursors: their numbers decide, and equal numbers leave the cursors behind
them. -/
theorem digits_eq (l r : List Char) :
    let digits := digitLoop 0 (dropZeros l) (dropZeros r)
    let order := compare (decimal (l.takeWhile Char.isDigit)) (decimal (r.takeWhile Char.isDigit))
    (order = .eq ∧ digitResult digits = none ∧
        digits.2 = (l.dropWhile Char.isDigit, r.dropWhile Char.isDigit)) ∨
      ∃ n, order ≠ .eq ∧ n.sign = sign order ∧ digitResult digits = some n := by
  have hdigits : ∀ u : List Char, ∀ c ∈ u.takeWhile Char.isDigit, c.isDigit = true :=
    fun u c hc => mem_takeWhile_imp hc
  have hends := endsDigits_dropWhile
  have hzeros : ∀ u : List Char, dropZeros u =
      dropZeros (u.takeWhile Char.isDigit) ++ u.dropWhile Char.isDigit := by
    intro u
    conv_lhs => rw [← takeWhile_append_dropWhile (p := Char.isDigit) (l := u)]
    exact dropZeros_append (hends u)
  obtain ⟨hlonger, hshorter, hequal⟩ :=
    digitResult_digitLoop 0 (isDigit_of_mem_dropZeros (hdigits l))
    (isDigit_of_mem_dropZeros (hdigits r)) (hends l) (hends r)
  intro digits order
  have horder : order = _ := compare_decimal (hdigits l) (hdigits r)
  rw [← hzeros, ← hzeros] at hlonger hshorter hequal
  rcases lt_trichotomy (dropZeros (l.takeWhile Char.isDigit)).length
    (dropZeros (r.takeWhile Char.isDigit)).length with hlt | heq | hgt
  · rw [Nat.compare_eq_lt.2 hlt, Ordering.lt_then] at horder
    exact .inr ⟨-1, by simp [horder], by simp [horder, sign], hshorter hlt⟩
  · rw [Nat.compare_eq_eq.2 heq, Ordering.eq_then] at horder
    have hsign := sign_firstDifference (isDigit_of_mem_dropZeros (hdigits l))
      (isDigit_of_mem_dropZeros (hdigits r)) heq
    have hresult : digits = _ := hequal heq
    rw [← horder] at hsign
    have hendl : (deref (l.dropWhile Char.isDigit)).isDigit = false := hends l
    have hendr : (deref (r.dropWhile Char.isDigit)).isDigit = false := hends r
    by_cases hdifference : firstDifference (dropZeros (l.takeWhile Char.isDigit))
        (dropZeros (r.takeWhile Char.isDigit)) = 0
    · rw [hdifference, Int.sign_zero, eq_comm, sign_eq_zero] at hsign
      exact .inl ⟨hsign, by simp [hresult, digitResult, hdifference, hendl, hendr], by rw [hresult]⟩
    · refine .inr ⟨_, ?_, hsign, by simp [hresult, digitResult, hdifference, hendl, hendr]⟩
      rw [← Int.sign_eq_zero_iff_zero, hsign, sign_eq_zero] at hdifference
      exact hdifference
  · rw [Nat.compare_eq_gt.2 hgt, Ordering.gt_then] at horder
    exact .inr ⟨1, by simp [horder], by simp [horder, sign], hlonger hgt⟩

theorem length_afterPart_le (s : List Char) : (afterPart s).length ≤ s.length := by
  cases s with
  | nil => simp [afterPart]
  | cons c s => exact length_afterPart_lt.le

/-- The loop returns the order of the parts. -/
theorem compareVersionAndRevisionLoop_eq (hl : Plain l) (hr : Plain r)
    (hfuel : l.length + r.length < fuel) :
    ∃ n, compareVersionAndRevisionLoop fuel l r = .returned n ∧
      n.sign = sign (compareParts l r) := by
  induction fuel generalizing l r with
  | zero => cases hfuel
  | succ fuel ih =>
    rw [compareVersionAndRevisionLoop]
    by_cases hended : deref l = nul ∧ deref r = nul
    · refine ⟨0, by rw [if_pos hended], ?_⟩
      rw [(deref_eq_nul hl.noNul).1 hended.1, (deref_eq_nul hr.noNul).1 hended.2, compareParts_self]
      rfl
    · rw [if_neg hended, compareParts_step]
      have hpart : comparePart (firstPart l) (firstPart r) = (compareRuns l r).then
          (compare (decimal ((l.dropWhile inRun).takeWhile Char.isDigit))
            (decimal ((r.dropWhile inRun).takeWhile Char.isDigit))) := rfl
      rw [hpart]
      rcases nonDigitLoop_eq hl hr (Nat.lt_succ_self _)
          with ⟨hruns, hloop⟩ | ⟨n, hruns, hsign, hloop⟩
      · rw [hloop, hruns, Ordering.eq_then]
        rcases digits_eq (l.dropWhile inRun) (r.dropWhile inRun) with
          ⟨hnumbers, hnone, hrest⟩ | ⟨n, hnumbers, hsign, hsome⟩
        · -- equal parts: the loop goes on behind them
          simp only [hnone, hrest]
          rw [hnumbers, Ordering.eq_then]
          apply ih ((hl.dropWhile _).dropWhile _) ((hr.dropWhile _).dropWhile _)
          have hshort : (afterPart l).length + (afterPart r).length < l.length + r.length := by
            have hlel := length_afterPart_le l
            have hler := length_afterPart_le r
            cases l with
            | cons c l =>
              have hlt := length_afterPart_lt (c := c) (s := l)
              omega
            | nil =>
              cases r with
              | nil => exact absurd ⟨rfl, rfl⟩ hended
              | cons d r =>
                have hlt := length_afterPart_lt (c := d) (s := r)
                omega
          exact Nat.lt_of_lt_of_le hshort (Nat.le_of_lt_succ hfuel)
        · refine ⟨n, by simp only [hsome], ?_⟩
          rw [hsign, then_of_ne_eq hnumbers]
      · refine ⟨n, by rw [hloop], ?_⟩
        rw [hsign, then_of_ne_eq hruns, then_of_ne_eq hruns]

/-- `compareVersionAndRevision` returns the order of the parts of two plain strings. -/
theorem compareVersionAndRevision_eq (hl : Plain l) (hr : Plain r) :
    ∃ n, compareVersionAndRevision l r = .returned n ∧ n.sign = sign (compareParts l r) :=
  compareVersionAndRevisionLoop_eq hl hr (Nat.lt_succ_self _)

/-! ## Accepted versions -/

theorem toNat_lt_of_isVersionChar (hc : isVersionChar c = true) : c.toNat < 128 := by
  have hclass : c.isDigit = true ∨ c.isAlpha = true ∨ c ∈ ".-+~:".toList := by
    simpa [isVersionChar, or_assoc] using hc
  rcases hclass with hdigit | halpha | hother
  · exact toNat_lt_of_isDigit hdigit
  · exact (toNat_of_isAlpha halpha).2
  · have hall : (".-+~:".toList.all fun d => d.toNat < 128) = true := by decide
    exact of_decide_eq_true (all_eq_true.1 hall c hother)

theorem isVersionChar_of_isRevisionChar (hc : isRevisionChar c = true) :
    isVersionChar c = true := by
  have hmore : (".+~".toList.all fun d => d ∈ ".-+~:".toList) = true := by decide
  simp only [isRevisionChar, Bool.or_eq_true, decide_eq_true_eq] at hc
  simp only [isVersionChar, Bool.or_eq_true, decide_eq_true_eq]
  exact hc.imp_right fun h => of_decide_eq_true (all_eq_true.1 hmore c h)

/-- A string without NUL whose characters are allowed is plain. -/
theorem plain_of_all (hnul : nul ∉ s) (hall : (cstr s).all isVersionChar = true) : Plain s := by
  have hcstr : cstr s = s := by
    apply takeWhile_eq_self_iff.2
    intro c hc
    have hne : c ≠ nul := fun heq => hnul (heq ▸ hc)
    simpa using hne
  rw [hcstr, all_eq_true] at hall
  exact fun c hc => ⟨toNat_lt_of_isVersionChar (hall c hc), fun h => hnul (h ▸ hc)⟩

/-- The text behind the epoch is an end of the text. -/
theorem matchEpoch_suffix {string rest : List Char} {epoch : UInt32}
    (h : matchEpoch string = some (epoch, rest)) : rest <:+ string := by
  simp only [matchEpoch] at h
  split at h
  · repeat' (split at h; · cases h)
    cases h
    exact (tail_suffix _).trans (dropWhile_suffix _)
  · cases h
    exact suffix_refl _

/-- What remains of an end of a text once the last part of the text is cut off stood before that
part. -/
theorem mem_of_mem_take {α : Type} {whole front back rest : List α} (hwhole : whole = front ++ back)
    (hsuffix : rest <:+ whole) {c : α} (hc : c ∈ rest.take (rest.length - back.length)) :
    c ∈ front := by
  obtain ⟨before, hbefore⟩ := hsuffix
  rw [hwhole] at hbefore
  rcases append_eq_append_iff.1 hbefore with ⟨middle, rfl, hrest⟩ | ⟨middle, hbefore', rfl⟩
  · have htake : rest.take (rest.length - back.length) = middle := by
      rw [hrest]
      simp
    rw [htake] at hc
    exact mem_append_right _ hc
  · simp at hc

theorem mem_of_splitRevision {versionStr version revision : List Char}
    (h : splitRevision versionStr = some (version, revision)) :
    (∀ c ∈ version, c ∈ versionStr) ∧ ∀ c ∈ revision, c ∈ versionStr := by
  rw [splitRevision] at h
  split at h
  · dsimp only at h
    split at h
    · cases h
    · cases h
      constructor
      · intro c hc
        rw [mem_reverse] at hc
        exact mem_reverse.1 ((dropWhile_sublist _).mem (mem_of_mem_tail hc))
      · intro c hc
        rw [mem_reverse] at hc
        exact mem_reverse.1 ((takeWhile_sublist _).mem hc)
  · cases h
    exact ⟨fun c hc => hc, fun c hc => absurd hc (by simp)⟩

/-- The strings of an accepted version are plain. -/
theorem plain_of_matchDpkg {v : Dpkg} (h : matchDpkg s = some v) :
    Plain v.version ∧ Plain v.revision := by
  simp only [matchDpkg, Option.ite_none_left_eq_some, Option.bind_eq_some_iff, Prod.exists,
    Bool.not_eq_true', Bool.not_eq_false] at h
  generalize s.dropWhile (fun c => c ≠ nul && isspace c) = string at h
  obtain ⟨-, -, epoch, rest, hepoch, version, revision, hsplit, -, hdigit, hall, hall', h⟩ := h
  cases h
  obtain ⟨hversion, hrevision⟩ := mem_of_splitRevision hsplit
  -- the characters stood before the blank or the NUL that ends the version
  have hnul :
      nul ∉ rest.take (rest.length - (string.dropWhile fun c => c ≠ nul && !isspace c).length) := by
    intro hmem
    have hfront := mem_of_mem_take (takeWhile_append_dropWhile
      (p := fun c => c ≠ nul && !isspace c) (l := string)).symm (matchEpoch_suffix hepoch) hmem
    simpa using mem_takeWhile_imp hfront
  constructor
  · cases version with
    | nil => cases hdigit
    | cons c version =>
      have htail : Plain version := plain_of_all
        (fun hmem => hnul (hversion nul (mem_cons_of_mem c hmem))) hall
      intro d hd
      rcases mem_cons.1 hd with rfl | hd
      · refine ⟨toNat_lt_of_isVersionChar ?_, fun heq => hnul (hversion nul (heq ▸ hd))⟩
        have hfirst : d.isDigit = true := hdigit
        simp [isVersionChar, hfirst]
      · exact htail d hd
  · apply plain_of_all (fun hmem => hnul (hrevision nul hmem))
    rw [all_eq_true] at hall' ⊢
    exact fun c hc => isVersionChar_of_isRevisionChar (hall' c hc)

/-- A version that `match` accepts. -/
def AcceptedDpkg := {v : Dpkg // ∃ s, matchDpkg s = some v}

/-- The order of epoch, version and revision. -/
def compareDpkg (a b : Dpkg) : Ordering :=
  (compare a.epoch b.epoch).then
    ((compareParts a.version b.version).then (compareParts a.revision b.revision))

instance : Std.TransCmp compareDpkg :=
  haveI := transCmp_on compareParts Dpkg.revision
  haveI := transCmp_then compareParts Dpkg.version fun a b => compareParts a.revision b.revision
  transCmp_then compare Dpkg.epoch _

theorem compareDpkgVersion_eq {a b : Dpkg} (hav : Plain a.version) (har : Plain a.revision)
    (hbv : Plain b.version) (hbr : Plain b.revision) :
    ∃ n, compareDpkgVersion a b = .returned n ∧ n.sign = sign (compareDpkg a b) := by
  obtain ⟨m, hversion, hsignv⟩ := compareVersionAndRevision_eq hav hbv
  obtain ⟨n, hrevision, hsignr⟩ := compareVersionAndRevision_eq har hbr
  rw [compareDpkgVersion, compareDpkg]
  by_cases hgt : b.epoch < a.epoch
  · refine ⟨1, by rw [if_pos hgt], ?_⟩
    rw [Std.compare_eq_gt.2 hgt]
    rfl
  · by_cases hlt : a.epoch < b.epoch
    · refine ⟨-1, by rw [if_neg hgt, if_pos hlt], ?_⟩
      rw [Std.compare_eq_lt.2 hlt]
      rfl
    · have heq : a.epoch = b.epoch := UInt32.le_antisymm (UInt32.not_lt.1 hgt) (UInt32.not_lt.1 hlt)
      have hepoch : compare a.epoch b.epoch = .eq := Std.LawfulEqCmp.compare_eq_iff_eq.2 heq
      rw [if_neg hgt, if_neg hlt, hversion, hepoch, Ordering.eq_then]
      by_cases hm : m = 0
      · rw [hm, Int.sign_zero, eq_comm, sign_eq_zero] at hsignv
        refine ⟨n, by simp [hm, hrevision], ?_⟩
        rw [hsignv, Ordering.eq_then, hsignr]
      · refine ⟨m, by simp [hm], ?_⟩
        have hne : compareParts a.version b.version ≠ .eq := by
          rwa [Ne, ← sign_eq_zero, ← hsignv, Int.sign_eq_zero_iff_zero]
        rw [hsignv, then_of_ne_eq hne]

/-- The sign of a comparison that returned. -/
def Comparison.sign : Comparison → Option Int
  | .returned result => some result.sign
  | _ => none

/-- Zeros rank as nothing. -/
theorem compareParts_zeros (k : Nat) : compareParts [] (replicate k '0') = .eq := by
  have hzero : decimal (replicate k '0') = 0 := by
    rw [← decimal_dropZeros, dropZeros, dropWhile_replicate]
    rfl
  have hpart : firstPart (replicate k '0') = ([], 0) := by
    rw [firstPart, takeWhile_replicate, dropWhile_replicate, if_neg (by decide),
      if_neg (by decide), takeWhile_replicate, if_pos (by decide), hzero]
  have hafter : afterPart (replicate k '0') = [] := by
    rw [afterPart, dropWhile_replicate, if_neg (by decide), dropWhile_replicate, if_pos (by decide)]
  have hself : comparePart ([], 0) ([], 0) = .eq := Std.ReflCmp.compare_self
  rw [compareParts_step, hpart, hafter]
  exact congrArg₂ Ordering.then hself (compareParts_self [])

/-- **Debian versions are totally preordered.** For accepted versions `compareDpkgVersion` returns,
with no cursor past a NUL, the sign of the order of epochs, parts of the version and parts of the
revision; a missing revision equals one of zeros. -/
theorem dpkg_total_preorder :
    (∀ a b : AcceptedDpkg, ∃ n, compareDpkgVersion a.1 b.1 = .returned n ∧
      n.sign = sign (compareDpkg a.1 b.1)) ∧
    (∀ (a : AcceptedDpkg) (k : Nat),
      compareDpkgVersion { a.1 with revision := [] } { a.1 with revision := replicate k '0' } =
        .returned 0 ∧
      compareDpkgVersion { a.1 with revision := replicate k '0' } { a.1 with revision := [] } =
        .returned 0) ∧
    RanksTotally (fun a b : AcceptedDpkg => (compareDpkgVersion a.1 b.1).sign) := by
  have hplain : ∀ a : AcceptedDpkg, Plain a.1.version ∧ Plain a.1.revision := by
    rintro ⟨v, s, hs⟩
    exact plain_of_matchDpkg hs
  have hreturns : ∀ a b : AcceptedDpkg, ∃ n, compareDpkgVersion a.1 b.1 = .returned n ∧
      n.sign = sign (compareDpkg a.1 b.1) := fun a b =>
    compareDpkgVersion_eq (hplain a).1 (hplain a).2 (hplain b).1 (hplain b).2
  refine ⟨hreturns, ?_, ?_⟩
  · intro a k
    have hnone : Plain [] := fun c hc => absurd hc (by simp)
    have hzeros : Plain (replicate k '0') := by
      intro c hc
      rw [(mem_replicate.1 hc).2]
      decide
    have hepoch : compare a.1.epoch a.1.epoch = .eq := Std.ReflCmp.compare_self
    -- revisions that rank equally make equal versions
    have hequal : ∀ r s, Plain r → Plain s → compareParts r s = .eq →
        compareDpkgVersion { a.1 with revision := r } { a.1 with revision := s } = .returned 0 := by
      intro r s hr hs hrs
      obtain ⟨n, hn, hsign⟩ := compareDpkgVersion_eq (a := { a.1 with revision := r })
        (b := { a.1 with revision := s }) (hplain a).1 hr (hplain a).1 hs
      have hzero : n.sign = 0 := by
        rw [hsign, sign_eq_zero, compareDpkg, hepoch, compareParts_self, hrs]
        rfl
      rw [hn, Int.sign_eq_zero_iff_zero.1 hzero]
    exact ⟨hequal _ _ hnone hzeros (compareParts_zeros k),
      hequal _ _ hzeros hnone (Std.OrientedCmp.eq_symm (compareParts_zeros k))⟩
  · have := transCmp_on compareDpkg fun a : AcceptedDpkg => a.1
    apply ranksTotally_of_sign (fun a b : AcceptedDpkg => compareDpkg a.1 b.1)
    intro a b
    obtain ⟨n, hn, hsign⟩ := hreturns a b
    rw [hn, Comparison.sign, hsign]

-- a tilde is below the end of a run, and numbers may be of any length
example : compareVersionAndRevision "1.0~rc1".toList "1.0".toList = .returned (-1) := by
  decide +kernel
example :
    (compareVersionAndRevision "1.00000000000000000000002".toList "1.1".toList).sign = some 1 := by
  decide +kernel

end WazAISentinel.VersionMatcher
