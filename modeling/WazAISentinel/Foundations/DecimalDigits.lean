import Mathlib.Data.Char
import Mathlib.Data.Nat.Digits.Lemmas
import Mathlib.Tactic

/-!
# Decimal digits

The number a text of digits writes, and how two such numbers are compared without computing them;
what `printf` writes for an unsigned number with a minimal width, and the number that `atoi` reads
at the beginning of a text (with the 64-bit `long` of the C library).
-/

namespace WazAISentinel.Foundations

open List

/-- The value of a digit. -/
def digitValue (c : Char) : Nat := c.toNat - '0'.toNat

/-- The number a text of digits writes. -/
def decimal (s : List Char) : Nat := s.foldl (fun n c => 10 * n + digitValue c) 0

/-- The text without its leading zeros. -/
def dropZeros (s : List Char) : List Char := s.dropWhile fun c => c == '0'

variable {c : Char} {s t : List Char}

theorem digitValue_lt (hc : c.isDigit = true) : digitValue c < 10 := by
  have hnine := (Char.isDigit_iff_toNat.1 hc).2
  have hdigits : '9'.toNat = '0'.toNat + 9 := rfl
  rw [digitValue]
  omega

theorem digitValue_lt_iff {d : Char} (hc : c.isDigit = true) :
    digitValue c < digitValue d ↔ c < d := by
  have hle := (Char.isDigit_iff_toNat.1 hc).1
  rw [Char.lt_def, UInt32.lt_iff_toNat_lt, Char.toNat_val, Char.toNat_val]
  exact Nat.sub_lt_sub_iff_right hle

theorem digitValue_pos (hc : c.isDigit = true) (hne : c ≠ '0') : 0 < digitValue c := by
  have hle := (Char.isDigit_iff_toNat.1 hc).1
  exact Nat.sub_pos_of_lt (lt_of_le_of_ne hle (Char.toNat_inj.not.2 hne.symm))

theorem foldl_decimal (n : Nat) :
    s.foldl (fun n c => 10 * n + digitValue c) n = n * 10 ^ s.length + decimal s := by
  induction s generalizing n with
  | nil => simp [decimal]
  | cons c s ih =>
    rw [decimal, foldl_cons, foldl_cons, ih, ih, length_cons, pow_succ]
    ring

@[simp] theorem decimal_nil : decimal [] = 0 := rfl

theorem decimal_cons : decimal (c :: s) = digitValue c * 10 ^ s.length + decimal s := by
  rw [decimal, foldl_cons, foldl_decimal]
  simp

/-- A number has as many digits as its text. -/
theorem decimal_lt (hs : ∀ c ∈ s, c.isDigit = true) : decimal s < 10 ^ s.length := by
  induction s with
  | nil => simp
  | cons c s ih =>
    have hrest := ih fun d hd => hs d (mem_cons_of_mem c hd)
    have hfirst := digitValue_lt (hs c mem_cons_self)
    rw [decimal_cons, length_cons, pow_succ]
    nlinarith [Nat.zero_le (10 ^ s.length)]

@[simp] theorem dropZeros_zero_cons : dropZeros ('0' :: s) = dropZeros s := rfl

theorem dropZeros_cons_of_ne (hc : c ≠ '0') : dropZeros (c :: s) = c :: s := by
  simp [dropZeros, hc]

theorem decimal_dropZeros (s : List Char) : decimal (dropZeros s) = decimal s := by
  induction s with
  | nil => rfl
  | cons c s ih =>
    by_cases hc : c = '0'
    · subst hc
      rw [dropZeros_zero_cons, ih, decimal_cons]
      simp [digitValue]
    · rw [dropZeros_cons_of_ne hc]

/-- The text has no leading zero. -/
theorem ne_zero_of_dropZeros (h : dropZeros s = c :: t) : c ≠ '0' := by
  have hhead := head?_dropWhile_not (fun c => c == '0') s
  rw [← dropZeros, h] at hhead
  simpa using hhead

section

variable (hs : ∀ c ∈ s, c.isDigit = true)

include hs

theorem isDigit_of_mem_dropZeros : ∀ c ∈ dropZeros s, c.isDigit = true := fun c hc =>
  hs c ((dropWhile_sublist _).mem hc)

variable (ht : ∀ c ∈ t, c.isDigit = true)

include ht

/-- A text of more digits writes a greater number. -/
theorem decimal_lt_of_length_lt (hlength : (dropZeros s).length < (dropZeros t).length) :
    decimal s < decimal t := by
  rw [← decimal_dropZeros s, ← decimal_dropZeros t]
  have hbelow := decimal_lt (isDigit_of_mem_dropZeros hs)
  cases hdigits : dropZeros t with
  | nil => simp [hdigits] at hlength
  | cons c rest =>
    have hpos : 0 < digitValue c := by
      apply digitValue_pos _ (ne_zero_of_dropZeros hdigits)
      exact isDigit_of_mem_dropZeros ht c (by simp [hdigits])
    rw [hdigits, length_cons] at hlength
    calc decimal (dropZeros s) < 10 ^ (dropZeros s).length := hbelow
      _ ≤ 10 ^ rest.length := Nat.pow_le_pow_right (by norm_num) (Nat.le_of_lt_succ hlength)
      _ ≤ digitValue c * 10 ^ rest.length := Nat.le_mul_of_pos_left _ hpos
      _ ≤ decimal (c :: rest) := by
        rw [decimal_cons]
        exact Nat.le_add_right _ _

/-- Texts of one length compare as the numbers they write. -/
theorem compare_decimal_of_length_eq (hlength : s.length = t.length) :
    compare (decimal s) (decimal t) = List.compareLex compare s t := by
  induction s generalizing t with
  | nil =>
    rw [length_eq_zero_iff.1 hlength.symm]
    rfl
  | cons c s ih =>
    cases t with
    | nil => simp at hlength
    | cons d t =>
      simp only [length_cons, Nat.add_right_cancel_iff] at hlength
      have hsrest := fun x hx => hs x (mem_cons_of_mem c hx)
      have htrest := fun x hx => ht x (mem_cons_of_mem d hx)
      have hc := hs c mem_cons_self
      have hd := ht d mem_cons_self
      have hbelow := decimal_lt hsrest
      have hbelow' := decimal_lt htrest
      rw [List.compareLex_cons_cons, decimal_cons, decimal_cons, ← hlength]
      rw [← hlength] at hbelow'
      rcases lt_trichotomy c d with hlt | heq | hgt
      · have hvalue := (digitValue_lt_iff hc).2 hlt
        rw [compare_lt_iff_lt.2 hlt, Ordering.lt_then, Nat.compare_eq_lt]
        nlinarith
      · subst heq
        rw [compare_eq_iff_eq.2 rfl, Ordering.eq_then, ← ih hsrest htrest hlength]
        simp [Nat.compare_eq_ite_lt]
      · have hvalue := (digitValue_lt_iff hd).2 hgt
        rw [compare_gt_iff_gt.2 hgt, Ordering.gt_then, Nat.compare_eq_gt]
        nlinarith

/-- The longer number is greater, and of two with the same number of digits the one whose text is
greater. -/
theorem compare_decimal :
    compare (decimal s) (decimal t) =
      (compare (dropZeros s).length (dropZeros t).length).then
        (List.compareLex compare (dropZeros s) (dropZeros t)) := by
  rcases lt_trichotomy (dropZeros s).length (dropZeros t).length with hlt | heq | hgt
  · rw [Nat.compare_eq_lt.2 hlt, Ordering.lt_then, Nat.compare_eq_lt]
    exact decimal_lt_of_length_lt hs ht hlt
  · rw [Nat.compare_eq_eq.2 heq, Ordering.eq_then, ← decimal_dropZeros s, ← decimal_dropZeros t]
    exact compare_decimal_of_length_eq (isDigit_of_mem_dropZeros hs)
      (isDigit_of_mem_dropZeros ht) heq
  · rw [Nat.compare_eq_gt.2 hgt, Ordering.gt_then, Nat.compare_eq_gt]
    exact decimal_lt_of_length_lt ht hs hgt

end

/-! ## Printed numbers -/

/-- The characters `0` to `9`. -/
def isDecimalDigit (b : UInt8) : Bool := 48 ≤ b.toNat ∧ b.toNat ≤ 57

/-- The character of a digit. -/
def digitByte (d : Nat) : UInt8 := UInt8.ofNat (48 + d)

/-- The digits of a number, with zeros in front up to a width of at least one. -/
def printedDecimal (width n : Nat) : List UInt8 :=
  replicate (width - (Nat.digits 10 n).length) 48 ++ (Nat.digits 10 n).reverse.map digitByte

variable (s : List UInt8)

/-- The number a text of digits writes. -/
def decimalOf : Nat := s.foldl (fun n b => 10 * n + (b.toNat - 48)) 0

/-- The number at the beginning of a text. -/
def readDecimal : Nat := decimalOf (s.takeWhile isDecimalDigit)

/-- `isspace`. -/
def isSpace (b : UInt8) : Bool := b.toNat = 32 ∨ 9 ≤ b.toNat ∧ b.toNat ≤ 13

/-- `strtol` with base 10: a number out of range gives the bound. -/
def strtol : Int :=
  let s := s.dropWhile isSpace
  if s.head? = some 45 then max (-(readDecimal s.tail : Int)) (-2 ^ 63)
  else if s.head? = some 43 then min (readDecimal s.tail : Int) (2 ^ 63 - 1)
  else min (readDecimal s : Int) (2 ^ 63 - 1)

/-- `atoi`: the `int` that `strtol` is converted to, as a word. -/
def atoi : BitVec 32 := BitVec.ofInt 32 (strtol s)

theorem toNat_digitByte {d : Nat} (hd : d < 10) : (digitByte d).toNat = 48 + d := by
  rw [digitByte, UInt8.toNat_ofNat']
  omega

variable {n width : Nat} {b : UInt8}

theorem length_printedDecimal (hn : n < 10 ^ width) : (printedDecimal width n).length = width := by
  have hlength : (Nat.digits 10 n).length ≤ width := (Nat.digits_length_le_iff (by decide) n).2 hn
  rw [printedDecimal, length_append, length_replicate, length_map, length_reverse]
  omega

theorem isDecimalDigit_of_mem_printed (hb : b ∈ printedDecimal width n) :
    isDecimalDigit b = true := by
  rcases mem_append.1 hb with hzero | hdigit
  · rw [eq_of_mem_replicate hzero]
    decide
  · obtain ⟨d, hd, rfl⟩ := mem_map.1 hdigit
    have hlt : d < 10 := Nat.digits_lt_base (by decide) (mem_reverse.1 hd)
    rw [isDecimalDigit, toNat_digitByte hlt]
    simp only [decide_eq_true_eq]
    omega

/-- Zeros in front do not count. -/
theorem decimalOf_zeros_append (k : Nat) (s : List UInt8) :
    decimalOf (replicate k 48 ++ s) = decimalOf s := by
  induction k with
  | zero => rfl
  | succ k ih => exact ih

theorem decimalOf_digits {ds : List Nat} (hds : ∀ d ∈ ds, d < 10) :
    decimalOf (ds.reverse.map digitByte) = Nat.ofDigits 10 ds := by
  rw [decimalOf, foldl_map, foldl_reverse]
  induction ds with
  | nil => rfl
  | cons d ds ih =>
    have hlt := hds d mem_cons_self
    rw [foldr_cons, ih fun d hd => hds d (mem_cons_of_mem _ hd), toNat_digitByte hlt,
      Nat.ofDigits_cons, Nat.add_sub_cancel_left]
    exact Nat.add_comm _ _

theorem decimalOf_printed : decimalOf (printedDecimal width n) = n := by
  have hds : ∀ d ∈ Nat.digits 10 n, d < 10 := fun d hd => Nat.digits_lt_base (by decide) hd
  rw [printedDecimal, decimalOf_zeros_append, decimalOf_digits hds, Nat.ofDigits_digits]

/-- A printed number is read back. -/
theorem readDecimal_printed (hb : isDecimalDigit b = false) (rest : List UInt8) :
    readDecimal (printedDecimal width n ++ b :: rest) = n := by
  have hdigits :
      (printedDecimal width n ++ b :: rest).takeWhile isDecimalDigit = printedDecimal width n := by
    rw [takeWhile_append_of_pos fun c hc => isDecimalDigit_of_mem_printed hc,
      takeWhile_cons_of_neg (by rw [hb]; decide), append_nil]
  rw [readDecimal, hdigits, decimalOf_printed]

/-- A digit is neither a space nor a sign. -/
theorem isSpace_of_isDecimalDigit (hb : isDecimalDigit b = true) :
    isSpace b = false ∧ b ≠ 45 ∧ b ≠ 43 := by
  simp only [isDecimalDigit, decide_eq_true_eq] at hb
  refine ⟨?_, ?_, ?_⟩
  · simp only [isSpace, decide_eq_false_iff_not]
    omega
  · rintro rfl
    exact absurd hb.1 (by decide)
  · rintro rfl
    exact absurd hb.1 (by decide)

theorem atoi_printed (hwidth : 0 < width) (hfits : n < 10 ^ width) (hn : n < 2 ^ 32)
    (hb : isDecimalDigit b = false) (rest : List UInt8) :
    atoi (printedDecimal width n ++ b :: rest) = BitVec.ofNat 32 n := by
  obtain ⟨c, cs, hprinted⟩ : ∃ c cs, printedDecimal width n = c :: cs := by
    apply exists_cons_of_length_pos
    rw [length_printedDecimal hfits]
    exact hwidth
  have hc : c ∈ printedDecimal width n := by
    rw [hprinted]
    exact mem_cons_self
  obtain ⟨hspace, hminus, hplus⟩ := isSpace_of_isDecimalDigit (isDecimalDigit_of_mem_printed hc)
  have hdrop : (printedDecimal width n ++ b :: rest).dropWhile isSpace = printedDecimal width n ++
      b :: rest := by
    rw [hprinted, cons_append, dropWhile_cons_of_neg (by rw [hspace]; decide)]
  have hhead : (printedDecimal width n ++ b :: rest).head? = some c := by
    rw [hprinted]
    rfl
  have hstrtol : strtol (printedDecimal width n ++ b :: rest) = n := by
    rw [strtol]
    simp only [hdrop, hhead, Option.some.injEq, hminus, hplus, if_false,
      readDecimal_printed hb rest]
    omega
  rw [atoi, hstrtol, BitVec.ofInt_natCast]

end WazAISentinel.Foundations
