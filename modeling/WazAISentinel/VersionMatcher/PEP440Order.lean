import Mathlib.Data.List.TakeWhile
import WazAISentinel.Foundations.PaddedOrder
import WazAISentinel.VersionMatcher.VersionObjectPEP440

/-!
# The order of Python package versions

`Version` holds the parts of a version as PEP 440 has them, with numbers of any size, and
`comparePEP440` is the order that PEP 440 defines on them. The comparison of the code differs from
it in three ways: numbers of 64 bits or more are refused, the others keep their low 32 bits
(`Version.wrap`), and of two versions that differ in having a development release, or of a
development release and a pre-release of one version, the code takes the wrong one for the smaller
(`Misordered`).
-/

namespace WazAISentinel.VersionMatcher

open Foundations List

universe u

/-! ## The order of PEP 440 -/

/-- The phases of a pre-release, in their order. -/
inductive Phase where
  | alpha
  | beta
  | candidate
  deriving DecidableEq, Repr

/-- The phases from the first on. -/
def Phase.rank : Phase → Nat
  | alpha => 0
  | beta => 1
  | candidate => 2

/-- The normal form of a phase. -/
def Phase.text : Phase → List Char
  | alpha => "a".toList
  | beta => "b".toList
  | candidate => "rc".toList

/-- The phase that a text names, whatever the case of its letters. -/
def phaseOf (s : List Char) : Phase :=
  if s.map Char.toLower ∈ ["a".toList, "alpha".toList] then .alpha
  else if s.map Char.toLower ∈ ["b".toList, "beta".toList] then .beta
  else .candidate

/-- The parts of a version. -/
structure Version where
  epoch : Nat
  release : List Nat
  pre : Option (Phase × Nat)
  post : Option Nat
  dev : Option Nat
  deriving DecidableEq, Repr

open Version

/-- The numbers between the dots. -/
def releaseNumbers (s : List Char) : List Nat :=
  if s = [] then [] else (s.splitOn '.').map decimal

/-- The parts in the captured texts. A number that is left out is zero. -/
def Version.ofCaptures (c : Captures Char) : Version where
  epoch := decimal (str c 1)
  release := releaseNumbers (str c 2)
  pre := (c 3).map fun name => (phaseOf name, decimal (str c 4))
  post :=
    match c 5, c 6 with
    | some number, _ => some (decimal number)
    | none, some _ => some (decimal (str c 7))
    | none, none => none
  dev := (c 8).map fun _ => decimal (str c 9)

/-- An absent part before every present one. -/
def absentFirst {α : Type u} (cmp : α → α → Ordering) : Option α → Option α → Ordering
  | none, none => .eq
  | none, some _ => .lt
  | some _, none => .gt
  | some a, some b => cmp a b

/-- An absent part behind every present one. -/
def absentLast {α : Type u} (cmp : α → α → Ordering) : Option α → Option α → Ordering
  | none, none => .eq
  | none, some _ => .gt
  | some _, none => .lt
  | some a, some b => cmp a b

/-- Pre-releases by phase and number. -/
def comparePhase (a b : Phase × Nat) : Ordering :=
  (compare a.1.rank b.1.rank).then (compare a.2 b.2)

/-- Nothing but a development release on top of the release numbers. -/
def Version.DevOnly (v : Version) : Prop := v.pre = none ∧ v.post = none ∧ v.dev ≠ none

instance (v : Version) : Decidable v.DevOnly := inferInstanceAs (Decidable (_ ∧ _ ∧ _))

/-- The pre-releases of one release: a plain development release is before all of them, any other
version without a pre-release behind all of them. -/
def comparePre (a b : Version) : Ordering :=
  if a.DevOnly then if b.DevOnly then .eq else .lt
  else if b.DevOnly then .gt
  else absentLast comparePhase a.pre b.pre

/-- The order of PEP 440. -/
def comparePEP440 (a b : Version) : Ordering :=
  (compare a.epoch b.epoch).then <|
    (comparePadded compare 0 a.release b.release).then <|
      (comparePre a b).then <|
        (absentFirst compare a.post b.post).then <|
          absentLast compare a.dev b.dev

/-! ## The order of the code -/

/-- The cascade of `operator<`, on the parts. -/
def compareCascade (a b : Version) : Ordering :=
  (compare a.epoch b.epoch).then <|
    (comparePadded compare 0 a.release b.release).then <|
      (absentLast comparePhase a.pre b.pre).then <|
        (absentFirst compare a.post b.post).then <|
          absentFirst compare a.dev b.dev

/-- The pairs that the cascade orders the other way: with one epoch and release, a plain development
release and a pre-release, or two versions with the same pre-release and post release of which one
has a development release. -/
def Misordered (a b : Version) : Prop :=
  a.epoch = b.epoch ∧ comparePadded compare 0 a.release b.release = .eq ∧
    ((a.DevOnly ∧ b.pre ≠ none) ∨ (b.DevOnly ∧ a.pre ≠ none) ∨
      (a.pre = b.pre ∧ a.post = b.post ∧ a.dev.isSome ≠ b.dev.isSome))

instance (a b : Version) : Decidable (Misordered a b) := inferInstanceAs (Decidable (_ ∧ _ ∧ _))

theorem comparePhase_eq_iff {a b : Phase × Nat} : comparePhase a b = .eq ↔ a = b := by
  obtain ⟨p, n⟩ := a
  obtain ⟨q, m⟩ := b
  cases p <;> cases q <;> simp [comparePhase, Phase.rank]

theorem absentFirst_eq_iff {a b : Option Nat} : absentFirst compare a b = .eq ↔ a = b := by
  cases a <;> cases b <;> simp [absentFirst]

theorem absentLast_eq_iff {a b : Option (Phase × Nat)} :
    absentLast comparePhase a b = .eq ↔ a = b := by
  cases a <;> cases b <;> simp [absentLast, comparePhase_eq_iff]

/-- Development releases are ordered the other way when only one of the versions has one. -/
theorem absentFirst_eq_absentLast (a b : Option Nat) :
    absentFirst compare a b =
      if a.isSome ≠ b.isSome then (absentLast compare a b).swap else absentLast compare a b := by
  cases a <;> cases b <;> rfl

variable {a b : Version} {s : List Char} {numbers : List (List Char)} {c : Captures Char}
  {n m : Nat} {above below : Prop} {o o' : Ordering} (names : List (List Char))

/-- The order of PEP 440 behind equal release numbers. -/
def compareSuffix (a b : Version) : Ordering :=
  (comparePre a b).then <| (absentFirst compare a.post b.post).then <|
    absentLast compare a.dev b.dev

/-- The cascade behind equal release numbers. -/
def cascadeSuffix (a b : Version) : Ordering :=
  (absentLast comparePhase a.pre b.pre).then <| (absentFirst compare a.post b.post).then <|
    absentFirst compare a.dev b.dev

/-- Only the development releases are ordered the other way, and they decide only if everything else
is equal. -/
theorem cascade_of_comparePre (hpre : comparePre a b = absentLast comparePhase a.pre b.pre) :
    cascadeSuffix a b = if a.pre = b.pre ∧ a.post = b.post ∧
      a.dev.isSome ≠ b.dev.isSome then (compareSuffix a b).swap
      else compareSuffix a b := by
  rw [cascadeSuffix, compareSuffix, hpre, absentFirst_eq_absentLast a.dev b.dev]
  by_cases hdev : a.dev.isSome ≠ b.dev.isSome
  · by_cases heq : a.pre = b.pre ∧ a.post = b.post
    · rw [if_pos hdev, if_pos ⟨heq.1, heq.2, hdev⟩, absentLast_eq_iff.2 heq.1,
        absentFirst_eq_iff.2 heq.2]
      rfl
    · have hneg : ¬(a.pre = b.pre ∧ a.post = b.post ∧ a.dev.isSome ≠ b.dev.isSome) :=
        fun h => heq ⟨h.1, h.2.1⟩
      rw [if_neg hneg]
      -- an earlier part decides
      rcases not_and_or.1 heq with hne | hne
      · have hdecides := mt absentLast_eq_iff.1 hne
        rw [then_of_ne_eq hdecides, then_of_ne_eq hdecides]
      · have hdecides := mt absentFirst_eq_iff.1 hne
        rw [then_of_ne_eq hdecides, then_of_ne_eq hdecides]
  · rw [if_neg hdev, if_neg fun h => hdev h.2.2]

theorem cascadeSuffix_eq :
    cascadeSuffix a b = if (a.DevOnly ∧ b.pre ≠ none) ∨ (b.DevOnly ∧ a.pre ≠ none) ∨
        (a.pre = b.pre ∧ a.post = b.post ∧ a.dev.isSome ≠ b.dev.isSome)
          then (compareSuffix a b).swap
      else compareSuffix a b := by
  obtain ⟨ea, ra, prea, posta, deva⟩ := a
  obtain ⟨eb, rb, preb, postb, devb⟩ := b
  cases prea with
  | some p =>
    cases preb with
    | some q =>
      rw [cascade_of_comparePre (by simp [comparePre, DevOnly])]
      simp [DevOnly]
    | none =>
      cases postb <;> cases devb
        <;> simp [cascadeSuffix, compareSuffix, comparePre, DevOnly, absentLast]
  | none =>
    cases preb with
    | some q =>
      cases posta <;> cases deva
        <;> simp [cascadeSuffix, compareSuffix, comparePre, DevOnly, absentLast]
    | none =>
      cases posta with
      | some m =>
        cases postb with
        | some n =>
          rw [cascade_of_comparePre (by simp [comparePre, DevOnly])]
          simp [DevOnly]
        | none =>
          cases devb
            <;> simp [cascadeSuffix, compareSuffix, comparePre, DevOnly, absentLast, absentFirst]
      | none =>
        cases postb <;> cases deva <;> cases devb <;>
          simp [cascadeSuffix, compareSuffix, comparePre, DevOnly, absentLast, absentFirst]

/-- The cascade orders the misordered pairs, and no others, the other way. -/
theorem compareCascade_eq (a b : Version) :
    compareCascade a b = if Misordered a b then (comparePEP440 a b).swap
      else comparePEP440 a b := by
  rw [compareCascade, comparePEP440, ← cascadeSuffix, ← compareSuffix, cascadeSuffix_eq]
  by_cases hepoch : a.epoch = b.epoch
  · rw [Nat.compare_eq_eq.2 hepoch, Ordering.eq_then, Ordering.eq_then]
    cases hrelease : comparePadded compare 0 a.release b.release with
    | lt | gt => simp [Misordered, hrelease]
    | eq => simp [Misordered, hepoch, hrelease]
  · have hdecides := mt Nat.compare_eq_eq.1 hepoch
    rw [if_neg (fun h : Misordered a b => hepoch h.1), then_of_ne_eq hdecides,
      then_of_ne_eq hdecides]

/-! ## The numbers the code reads -/

theorem parseNumber_eq (hs : ∀ c ∈ s, c.isDigit = true) :
    parseNumber (UInt32.ofNat n) s =
      .ok (UInt32.ofNat (s.foldl (fun n c => 10 * n + digitValue c) n)) := by
  induction s generalizing n with
  | nil => rfl
  | cons c s ih =>
    have hc := hs c mem_cons_self
    simp only [Char.isDigit, Bool.and_eq_true, decide_eq_true_eq] at hc
    have hdigit : ¬(c < '0' ∨ '9' < c) := not_or.2 ⟨not_lt.2 hc.1, not_lt.2 hc.2⟩
    rw [parseNumber, if_neg hdigit, foldl_cons, ← ih fun d hd => hs d (mem_cons_of_mem c hd),
      UInt32.ofNat_add, UInt32.ofNat_mul, UInt32.mul_comm]
    rfl

theorem parseNumber_zero (hs : ∀ c ∈ s, c.isDigit = true) :
    parseNumber 0 s = .ok (UInt32.ofNat (decimal s)) :=
  parseNumber_eq hs

/-- A non-empty text of digits. -/
def IsNumber (s : List Char) : Prop := s ≠ [] ∧ ∀ c ∈ s, c.isDigit = true

theorem IsNumber.ne_dot (hs : IsNumber s) : ∀ c ∈ s, decide (c ≠ '.') = true := by
  intro c hc
  rw [decide_eq_true_eq]
  rintro rfl
  exact absurd (hs.2 '.' hc) (by decide)

theorem splitToNumbersLoop_eq (hne : numbers ≠ []) (hnumbers : ∀ s ∈ numbers, IsNumber s)
    (fuel : Nat) (hfuel : (['.'].intercalate numbers).length < fuel) :
    splitToNumbersLoop '.' fuel (['.'].intercalate numbers) =
      .ok (numbers.map fun s => UInt32.ofNat (decimal s)) := by
  induction numbers generalizing fuel with
  | nil => exact absurd rfl hne
  | cons first rest ih =>
    obtain ⟨fuel, rfl⟩ : ∃ n, fuel = n + 1 := ⟨fuel - 1, by omega⟩
    have hfirst := hnumbers first mem_cons_self
    have hnodot := hfirst.ne_dot
    cases rest with
    | nil =>
      -- the last number
      have htext : ['.'].intercalate [first] = first := intercalate_singleton
      have hdrop : first.dropWhile (fun c => decide (c ≠ '.')) = [] :=
        dropWhile_eq_nil_iff.2 hnodot
      rw [htext, splitToNumbersLoop, hdrop, parseNumber_zero hfirst.2]
      simp only [if_neg hfirst.1]
      rfl
    | cons second rest =>
      have htext : ['.'].intercalate (first :: second :: rest) =
          first ++ '.' :: ['.'].intercalate (second :: rest) := by
        rw [intercalate_cons_cons, append_assoc]
        rfl
      rw [htext, length_append, length_cons] at hfuel
      have hrest := ih (cons_ne_nil _ _) (fun s hs => hnumbers s (mem_cons_of_mem _ hs)) fuel
        (by omega)
      rw [htext, splitToNumbersLoop]
      generalize ['.'].intercalate (second :: rest) = tail at hrest ⊢
      have hdrop : (first ++ '.' :: tail).dropWhile (fun c => decide (c ≠ '.')) = '.' :: tail := by
        rw [dropWhile_append_of_pos hnodot]
        rfl
      have htake : (first ++ '.' :: tail).takeWhile (fun c => decide (c ≠ '.')) = first := by
        rw [takeWhile_append_of_pos hnodot]
        simp
      rw [hdrop, htake, parseNumber_zero hfirst.2]
      simp only [Except.bind, hrest]
      rfl

/-- The text of the release: numbers with dots between them. -/
def IsRelease (s : List Char) : Prop :=
  ∃ numbers : List (List Char), numbers ≠ [] ∧ (∀ n ∈ numbers, IsNumber n) ∧
    s = ['.'].intercalate numbers

theorem splitToNumbers_eq (hs : s = [] ∨ IsRelease s) :
    splitToNumbers s '.' = .ok ((releaseNumbers s).map UInt32.ofNat) := by
  rcases hs with rfl | ⟨numbers, hne, hnumbers, rfl⟩
  · rfl
  · have hnodot : ∀ n ∈ numbers, '.' ∉ n := fun n hn hdot =>
      absurd ((hnumbers n hn).2 '.' hdot) (by decide)
    have hsplit := splitOn_intercalate '.' hnodot hne
    have hnotNil : ['.'].intercalate numbers ≠ [] := by
      intro hempty
      rw [hempty] at hsplit
      exact (hnumbers [] (hsplit ▸ mem_singleton_self [])).1 rfl
    rw [splitToNumbers, splitToNumbersLoop_eq hne hnumbers _ (Nat.lt_succ_self _), releaseNumbers,
      if_neg hnotNil, hsplit, map_map]
    rfl

/-- A number that does not fit 64 bits is refused, of another one the low 32 bits are kept. -/
def narrowed (n : Nat) : Except Failure UInt32 :=
  if n < 2 ^ 64 then .ok (UInt32.ofNat n) else .error .outOfRange

theorem narrowed_bind {α : Type} (f : UInt32 → Except Failure α) :
    (narrowed n).bind f = if n < 2 ^ 64 then f (UInt32.ofNat n) else .error .outOfRange := by
  rw [narrowed]
  split <;> rfl

/-- `stoul` and the conversion. -/
theorem stoul_eq (hs : IsNumber s) : (stoul s).map UInt32.ofNat = narrowed (decimal s) := by
  have hall : s.takeWhile Char.isDigit = s := takeWhile_eq_self_iff.2 hs.2
  rw [stoul, hall, if_neg hs.1, narrowed]
  split
  · rfl
  · rfl

theorem optionalNumber_eq (hs : s = [] ∨ IsNumber s) : optionalNumber s = narrowed (decimal s) := by
  rcases hs with rfl | hs
  · rfl
  · rw [optionalNumber, if_neg hs.1, stoul_eq hs]

/-! ## The texts of the groups -/

theorem isNumber_of_accepts (h : digits.Accepts s) : IsNumber s := by
  obtain ⟨u, v, rfl, ⟨a, ha, rfl⟩, ts, rfl, hts⟩ := h
  refine ⟨by simp, ?_⟩
  intro c hc
  rcases mem_append.1 hc with hc | hc
  · rw [mem_singleton.1 hc]
    exact ha
  · obtain ⟨t, ht, hc⟩ := mem_flatten.1 hc
    obtain ⟨b, hb, rfl⟩ := hts t ht
    rw [mem_singleton.1 hc]
    exact hb

theorem isRelease_of_accepts (h : release.Accepts s) : IsRelease s := by
  obtain ⟨first, v, rfl, hfirst, ts, rfl, hts⟩ := h
  have hnumber := isNumber_of_accepts hfirst
  clear hfirst
  induction ts generalizing first with
  | nil => exact ⟨[first], by simp, by simpa using hnumber, by simp⟩
  | cons t ts ih =>
    obtain ⟨u, second, rfl, ⟨dot, hdot, rfl⟩, hsecond⟩ := hts t mem_cons_self
    obtain ⟨numbers, hne, hnumbers, htext⟩ := ih second
      (fun u hu => hts u (mem_cons_of_mem _ hu)) (isNumber_of_accepts hsecond)
    refine ⟨first :: numbers, by simp, forall_mem_cons.2 ⟨hnumber, hnumbers⟩, ?_⟩
    cases numbers with
    | nil => exact absurd rfl hne
    | cons n numbers =>
      rw [intercalate_cons_cons, ← htext, of_decide_eq_true hdot]
      simp

theorem map_toLower_of_accepts_literal {name : List Char} (h : (literal name).Accepts s) :
    s.map Char.toLower = name := by
  induction name generalizing s with
  | nil =>
    rw [show s = [] from h]
    rfl
  | cons c name ih =>
    obtain ⟨u, v, rfl, ⟨a, ha, rfl⟩, hv⟩ := h
    rw [map_append, ih hv, map_singleton, of_decide_eq_true ha]
    rfl

theorem map_toLower_mem_of_accepts_oneOf {names : List (List Char)} (h : (oneOf names).Accepts s) :
    s.map Char.toLower ∈ names := by
  induction names with
  | nil =>
    obtain ⟨a, ha, -⟩ := h
    cases ha
  | cons name names ih =>
    cases names with
    | nil => exact mem_singleton.2 (map_toLower_of_accepts_literal h)
    | cons name' names =>
      rcases h with h | h
      · exact mem_cons.2 (.inl (map_toLower_of_accepts_literal h))
      · exact mem_cons_of_mem _ (ih h)

@[simp] theorem hasGroup_literal (s name : List Char) : ¬(literal name).HasGroup n s := by
  induction name with
  | nil => exact id
  | cons c name ih => exact not_or.2 ⟨id, ih⟩

@[simp] theorem hasGroup_oneOf : ¬(oneOf names).HasGroup n s := by
  induction names with
  | nil => exact id
  | cons name names ih =>
    cases names with
    | nil => exact hasGroup_literal s name
    | cons name' names => exact not_or.2 ⟨hasGroup_literal s name, ih⟩

@[simp] theorem hasGroup_digits : ¬digits.HasGroup n s := not_or.2 ⟨id, id⟩

@[simp] theorem hasGroup_release : ¬release.HasGroup n s :=
  not_or.2 ⟨hasGroup_digits, not_or.2 ⟨id, hasGroup_digits⟩⟩

@[simp] theorem hasGroup_suffix :
    (suffix m names).HasGroup n s ↔
      (m = n ∧ (oneOf names).Accepts s) ∨ (m + 1 = n ∧ digits.Accepts s) := by
  simp [suffix, separator, Regex.HasGroup]

/-- The groups of the expression. -/
theorem hasGroup_parserRegex :
    parserRegex.HasGroup n s ↔
      (n = 1 ∧ digits.Accepts s) ∨ (n = 2 ∧ release.Accepts s) ∨
        (suffix 3 preReleaseNames).HasGroup n s ∨ (n = 5 ∧ digits.Accepts s) ∨
        (suffix 6 ["post".toList, "rev".toList, "r".toList]).HasGroup n s ∨
        (suffix 8 ["dev".toList]).HasGroup n s := by
  simp [parserRegex, Regex.HasGroup, eq_comm, or_assoc]

/-- What is known of the captures of a match. -/
structure Captured (c : Captures Char) : Prop where
  number : ∀ n ∈ [1, 4, 5, 7, 9], ∀ s, c n = some s → IsNumber s
  release : ∀ s, c 2 = some s → IsRelease s
  name : ∀ s, c 3 = some s → s.map Char.toLower ∈ preReleaseNames
  pre : c 3 = none → c 4 = none
  post : c 6 = none → c 7 = none
  dev : c 8 = none → c 9 = none

theorem captured_of_fullMatch (h : parserRegex.fullMatch s = some c) : Captured c where
  number n hn t ht := by
    have hgroup := (hasGroup_parserRegex).1 (Regex.hasGroup_of_fullMatch h ht)
    apply isNumber_of_accepts
    fin_cases hn <;> simpa using hgroup
  release t ht := by
    have hgroup := (hasGroup_parserRegex).1 (Regex.hasGroup_of_fullMatch h ht)
    apply isRelease_of_accepts
    simpa using hgroup
  name t ht := by
    have hgroup := (hasGroup_parserRegex).1 (Regex.hasGroup_of_fullMatch h ht)
    apply map_toLower_mem_of_accepts_oneOf
    simpa using hgroup
  pre := Regex.eq_none_of_follows (by decide) h
  post := Regex.eq_none_of_follows (by decide) h
  dev := Regex.eq_none_of_follows (by decide) h

/-! ## The fields of a match -/

/-- The number of the pre-release, zero without one. -/
def Version.preNumber (v : Version) : Nat := (v.pre.map Prod.snd).getD 0

/-- The numbers that `stoul` reads fit 64 bits. -/
def Version.Fits (v : Version) : Prop :=
  v.epoch < 2 ^ 64 ∧ v.preNumber < 2 ^ 64 ∧ v.post.getD 0 < 2 ^ 64 ∧ v.dev.getD 0 < 2 ^ 64

instance (v : Version) : Decidable v.Fits := inferInstanceAs (Decidable (_ ∧ _ ∧ _ ∧ _))

/-- All numbers reduced to 32 bits. -/
def Version.wrap (v : Version) : Version where
  epoch := v.epoch % 2 ^ 32
  release := v.release.map fun n => n % 2 ^ 32
  pre := v.pre.map fun p => (p.1, p.2 % 2 ^ 32)
  post := v.post.map fun n => n % 2 ^ 32
  dev := v.dev.map fun n => n % 2 ^ 32

/-- The fields hold a version, its numbers reduced to 32 bits. -/
structure Represents (p : PEP440) (v : Version) : Prop where
  epoch : p.epoch = UInt32.ofNat v.epoch
  versionStr : splitToNumbers p.versionStr '.' = .ok (v.release.map UInt32.ofNat)
  preReleaseStr : p.preReleaseStr = (v.pre.map fun q => q.1.text).getD []
  preReleaseNumber : p.preReleaseNumber = UInt32.ofNat v.preNumber
  postReleaseNumber : p.postReleaseNumber = UInt32.ofNat (v.post.getD 0)
  devReleaseNumber : p.devReleaseNumber = UInt32.ofNat (v.dev.getD 0)
  hasPreRelease : p.hasPreRelease = v.pre.isSome
  hasPostRelease : p.hasPostRelease = v.post.isSome
  hasDevRelease : p.hasDevRelease = v.dev.isSome

theorem preReleaseName_eq (hs : s.map Char.toLower ∈ preReleaseNames) :
    preReleaseName s = (phaseOf s).text := by
  rw [preReleaseName, phaseOf]
  generalize s.map Char.toLower = name at hs
  revert name
  decide

/-- The text of a group is empty or was captured. -/
theorem str_of_captured {P : List Char → Prop} (h : ∀ s, c n = some s → P s) :
    str c n = [] ∨ P (str c n) := by
  cases hc : c n with
  | none => exact .inl (by rw [str, hc]; rfl)
  | some s =>
    rw [str, hc]
    exact .inr (h s hc)

theorem Captured.preNumber_eq (h : Captured c) : (ofCaptures c).preNumber = decimal (str c 4) := by
  cases hname : c 3 with
  | none => simp [ofCaptures, preNumber, hname, str, h.pre hname]
  | some s => simp [ofCaptures, preNumber, hname]

theorem Captured.dev_eq (h : Captured c) : (ofCaptures c).dev.getD 0 = decimal (str c 9) := by
  cases hname : c 8 with
  | none => simp [ofCaptures, hname, str, h.dev hname]
  | some s => simp [ofCaptures, hname]

/-- The number of a post release is read from the group of the form that matched. -/
theorem Captured.post_eq (h : Captured c) :
    (if (c 5).isSome then (stoul (str c 5)).map UInt32.ofNat else optionalNumber (str c 7)) =
      narrowed ((ofCaptures c).post.getD 0) := by
  cases hshort : c 5 with
  | some s =>
    have hvalue : (ofCaptures c).post.getD 0 = decimal s := by simp [ofCaptures, hshort]
    rw [hvalue, str, hshort]
    exact stoul_eq (h.number 5 (by decide) s hshort)
  | none =>
    have hvalue : (ofCaptures c).post.getD 0 = decimal (str c 7) := by
      cases hname : c 6 with
      | none => simp [ofCaptures, hshort, hname, str, h.post hname]
      | some s => simp [ofCaptures, hshort, hname]
    rw [hvalue, if_neg (by simp)]
    exact optionalNumber_eq (str_of_captured (h.number 7 (by decide)))

theorem hasPost_eq : ((c 6).isSome || (c 5).isSome) = (ofCaptures c).post.isSome := by
  cases hshort : c 5 <;> cases hname : c 6 <;> simp [ofCaptures, hshort, hname]

/-- A match whose numbers fit gives the fields of its version, and any other one an exception. -/
theorem Captured.ofMatches_spec (h : Captured c) :
    ∃ p, Represents p (ofCaptures c) ∧
      ofMatches c = if (ofCaptures c).Fits then .ok p else .error .outOfRange := by
  have hread : ∀ n ∈ [1, 4, 5, 7, 9], optionalNumber (str c n) = narrowed (decimal (str c n)) :=
    fun n hn => optionalNumber_eq (str_of_captured (h.number n hn))
  rw [ofMatches, h.post_eq, hread 1 (by decide), hread 4 (by decide), hread 9 (by decide),
    ← h.preNumber_eq, ← h.dev_eq]
  simp only [narrowed_bind, ← ite_and]
  refine ⟨_, ⟨rfl, splitToNumbers_eq (str_of_captured h.release), ?_, rfl, rfl, rfl, ?_,
    hasPost_eq, ?_⟩, rfl⟩
  · cases hname : c 3 with
    | none => simp [ofCaptures, hname]
    | some s =>
      simp only [ofCaptures, hname, str, Option.isSome_some, if_true, Option.getD_some,
        Option.map_some]
      exact preReleaseName_eq (h.name s hname)
  · simp [ofCaptures]
  · simp [ofCaptures]

/-! ## The comparison of the fields -/

theorem ofNat_lt_iff :
    UInt32.ofNat n < UInt32.ofNat m ↔ compare (n % 2 ^ 32) (m % 2 ^ 32) = .lt := by
  rw [UInt32.lt_iff_toNat_lt, UInt32.toNat_ofNat', UInt32.toNat_ofNat', Nat.compare_eq_lt]

theorem ofNat_eq_iff : UInt32.ofNat n = UInt32.ofNat m ↔ n % 2 ^ 32 = m % 2 ^ 32 := by
  rw [UInt32.ofNat_eq_iff_mod_eq_toNat, UInt32.toNat_ofNat']

theorem ofNat_gt_iff :
    UInt32.ofNat m < UInt32.ofNat n ↔ compare (n % 2 ^ 32) (m % 2 ^ 32) = .gt := by
  rw [ofNat_lt_iff, Nat.compare_eq_lt, Nat.compare_eq_gt]

/-- A test for smaller, a test for greater and what decides otherwise are a comparison in two
steps. -/
theorem if_lt_then {γ : Type u} (f : Ordering → γ) [Decidable below] [Decidable above]
    (hbelow : below ↔ o = .lt) (habove : above ↔ o = .gt) :
    (if below then f .lt else if above then f .gt else f o') = f (o.then o') := by
  cases o <;> simp [hbelow, habove]

theorem if_below [Decidable below] [Decidable above] (hbelow : below ↔ o = .lt)
    (habove : above ↔ o = .gt) :
    (if below then true else if above then false else decide (o' = .lt)) =
      decide (o.then o' = .lt) :=
  if_lt_then (fun o => decide (o = .lt)) hbelow habove

/-- The first numbers decide, and if they are equal the rest. -/
theorem compareNumbers_cons {as bs : List UInt32} (h : compareNumbers as bs = sign o) :
    compareNumbers (UInt32.ofNat n :: as) (UInt32.ofNat m :: bs) =
      sign ((compare (n % 2 ^ 32) (m % 2 ^ 32)).then o) := by
  rw [compareNumbers, h]
  exact if_lt_then sign ofNat_lt_iff ofNat_gt_iff

theorem compareNumbers_eq (as bs : List Nat) :
    compareNumbers (as.map UInt32.ofNat ++ replicate (bs.length - as.length) 0)
        (bs.map UInt32.ofNat ++ replicate (as.length - bs.length) 0) =
      sign (comparePadded compare 0 (as.map fun n => n % 2 ^ 32) (bs.map fun n => n % 2 ^ 32)) := by
  induction as generalizing bs with
  | nil =>
    induction bs with
    | nil => rfl
    | cons b bs ih =>
      -- the shorter list goes on with a zero
      simp only [map_nil, nil_append, length_nil, Nat.sub_zero, Nat.zero_sub,
        replicate_zero, append_nil] at ih ⊢
      exact compareNumbers_cons (n := 0) ih
  | cons a as ih =>
    cases bs with
    | nil =>
      have hrest := ih []
      simp only [map_nil, nil_append, length_nil, Nat.sub_zero, Nat.zero_sub,
        replicate_zero, append_nil] at hrest ⊢
      exact compareNumbers_cons (m := 0) hrest
    | cons b bs =>
      have hrest := ih bs
      simp only [map_cons, cons_append, length_cons, Nat.add_sub_add_right]
      exact compareNumbers_cons hrest

theorem strcmp_text (a b : Phase) :
    (strcmp a.text b.text < 0 ↔ compare a.rank b.rank = .lt) ∧
    (0 < strcmp a.text b.text ↔ compare a.rank b.rank = .gt) := by
  cases a <;> cases b <;> decide

theorem sign_pos_iff : 0 < sign o ↔ o = .gt := by
  cases o <;> simp [sign]

/-- The part of `operator==` on a number that may be absent. -/
theorem part_eq_iff {n m : Option Nat} :
    (UInt32.ofNat (n.getD 0) = UInt32.ofNat (m.getD 0) ∧ n.isSome = m.isSome) ↔
      (n.map fun k => k % 2 ^ 32) = m.map fun k => k % 2 ^ 32 := by
  cases n <;> cases m <;> simp [ofNat_eq_iff]

theorem pre_eq_iff :
    ((a.pre.map fun q => q.1.text).getD [] = (b.pre.map fun q => q.1.text).getD [] ∧
        UInt32.ofNat a.preNumber = UInt32.ofNat b.preNumber ∧ a.pre.isSome = b.pre.isSome) ↔
          a.wrap.pre = b.wrap.pre := by
  have htext : ∀ p q : Phase, p.text = q.text ↔ p = q := by
    intro p q
    cases p <;> cases q <;> decide
  cases ha : a.pre <;> cases hb : b.pre <;>
    simp [wrap, preNumber, ha, hb, ofNat_eq_iff, htext]

section

variable {p q : PEP440} {v w : Version} (hp : Represents p v) (hq : Represents q w)

include hp hq

theorem compareVersionStr_eq :
    compareVersionStr p.versionStr q.versionStr =
      .ok (sign (comparePadded compare 0 v.wrap.release w.wrap.release)) := by
  rw [compareVersionStr, hp.versionStr, hq.versionStr]
  simp only [Except.bind, length_map]
  rw [compareNumbers_eq]
  rfl

theorem lessDev_eq :
    PEP440.lessDev p q = decide (absentFirst compare v.wrap.dev w.wrap.dev = .lt) := by
  rw [PEP440.lessDev, hp.hasDevRelease, hq.hasDevRelease, hp.devReleaseNumber, hq.devReleaseNumber]
  cases hv : v.dev <;> cases hw : w.dev <;> simp [wrap, hv, hw, absentFirst, ofNat_lt_iff]

theorem lessPost_eq :
    PEP440.lessPost p q =
      decide ((absentFirst compare v.wrap.post w.wrap.post).then
        (absentFirst compare v.wrap.dev w.wrap.dev) = .lt) := by
  rw [PEP440.lessPost, lessDev_eq hp hq, hp.hasPostRelease, hq.hasPostRelease, hp.postReleaseNumber,
    hq.postReleaseNumber]
  cases hv : v.post with
  | none => cases hw : w.post <;> simp [wrap, hv, hw, absentFirst]
  | some n =>
    cases hw : w.post with
    | none => simp [wrap, hv, hw, absentFirst]
    | some m =>
      rw [if_below ofNat_lt_iff ofNat_gt_iff]
      simp [wrap, hv, hw, absentFirst]

theorem lessPre_eq :
    PEP440.lessPre p q =
      decide ((absentLast comparePhase v.wrap.pre w.wrap.pre).then
        ((absentFirst compare v.wrap.post w.wrap.post).then
          (absentFirst compare v.wrap.dev w.wrap.dev)) = .lt) := by
  rw [PEP440.lessPre, lessPost_eq hp hq, hp.hasPreRelease, hq.hasPreRelease, hp.preReleaseNumber,
    hq.preReleaseNumber, hp.preReleaseStr, hq.preReleaseStr, preNumber, preNumber]
  cases hv : v.pre with
  | none => cases hw : w.pre <;> simp [wrap, hv, hw, absentLast]
  | some a =>
    cases hw : w.pre with
    | none => simp [wrap, hv, hw, absentLast]
    | some b =>
      simp only [Option.isSome_some, Option.map_some, Option.getD_some, Bool.not_true,
        Bool.and_false, Bool.and_true, Bool.false_eq_true, if_false, if_true]
      rw [if_below ofNat_lt_iff ofNat_gt_iff,
        if_below (strcmp_text a.1 b.1).1 (strcmp_text a.1 b.1).2]
      simp [wrap, hv, hw, absentLast, comparePhase, Ordering.then_assoc]

/-- `operator<` is the cascade. -/
theorem less_eq : p.less q = .ok (decide (compareCascade v.wrap w.wrap = .lt)) := by
  rw [PEP440.less, compareVersionStr_eq hp hq, lessPre_eq hp hq, hp.epoch, hq.epoch, compareCascade]
  simp only [Except.map]
  rw [if_below sign_neg sign_pos_iff]
  exact if_lt_then (fun o => Except.ok (decide (o = .lt))) ofNat_lt_iff ofNat_gt_iff

/-- `operator==` is equality of the parts in the cascade. -/
theorem equal_eq : p.equal q = .ok (decide (compareCascade v.wrap w.wrap = .eq)) := by
  rw [PEP440.equal, compareVersionStr_eq hp hq]
  by_cases hepoch : p.epoch = q.epoch
  · rw [if_pos hepoch]
    rw [hp.epoch, hq.epoch, ofNat_eq_iff] at hepoch
    have hfirst : compare v.wrap.epoch w.wrap.epoch = .eq := Nat.compare_eq_eq.2 hepoch
    rw [compareCascade, hfirst, Ordering.eq_then]
    refine congrArg Except.ok ?_
    rw [hp.preReleaseStr, hq.preReleaseStr, hp.preReleaseNumber, hq.preReleaseNumber,
      hp.postReleaseNumber, hq.postReleaseNumber, hp.devReleaseNumber, hq.devReleaseNumber,
      hp.hasPreRelease, hq.hasPreRelease, hp.hasPostRelease, hq.hasPostRelease, hp.hasDevRelease,
      hq.hasDevRelease]
    simp only [← Bool.decide_and, decide_eq_decide, Ordering.then_eq_eq, absentLast_eq_iff,
      absentFirst_eq_iff, sign_eq_zero]
    rw [← pre_eq_iff]
    simp only [wrap, ← part_eq_iff]
    tauto
  · rw [if_neg hepoch]
    rw [hp.epoch, hq.epoch, ofNat_eq_iff] at hepoch
    have hfirst : compare v.wrap.epoch w.wrap.epoch ≠ .eq := mt Nat.compare_eq_eq.1 hepoch
    rw [compareCascade, decide_eq_false fun h => hfirst (Ordering.then_eq_eq.1 h).1]

end

/-! ## The result -/

/-- The result that stands for an order. -/
def resultOf : Ordering → VersionComparisonResult
  | .lt => .aLessThanB
  | .eq => .aEqualB
  | .gt => .aGreaterThanB

/-- The result with the arguments exchanged. -/
def VersionComparisonResult.mirror : VersionComparisonResult → VersionComparisonResult
  | aLessThanB => aGreaterThanB
  | aEqualB => aEqualB
  | aGreaterThanB => aLessThanB

theorem resultOf_swap : resultOf o.swap = (resultOf o).mirror := by
  cases o <;> rfl

theorem resultOf_injective : Function.Injective resultOf := by
  intro o o' h
  cases o <;> cases o' <;> first | rfl | cases h

/-- The version that an accepted string writes. -/
def parse (s : List Char) : Option Version := (parserRegex.fullMatch s).map Version.ofCaptures

theorem createPEP440_spec {v : Version} (h : parse s = some v) :
    ∃ p, Represents p v ∧ createPEP440 s = if v.Fits then .ok p else .error .outOfRange := by
  obtain ⟨c, hc, rfl⟩ := Option.map_eq_some_iff.1 h
  obtain ⟨p, hrepresents, hp⟩ := (captured_of_fullMatch hc).ofMatches_spec
  refine ⟨p, hrepresents, ?_⟩
  rw [createPEP440, matchPEP440, hc, ← hp]
  dsimp only
  cases ofMatches c <;> rfl

/-- The code compares the versions reduced to 32 bits by its cascade, if their numbers fit 64
bits. -/
theorem compareVersions_eq {a b : List Char} {v w : Version} (ha : parse a = some v)
    (hb : parse b = some w) :
    compareVersions a b = if v.Fits ∧
      w.Fits then .ok (resultOf (compareCascade v.wrap w.wrap)) else .error .outOfRange := by
  obtain ⟨p, hpv, hp⟩ := createPEP440_spec ha
  obtain ⟨q, hqw, hq⟩ := createPEP440_spec hb
  rw [compareVersions, hp, hq, ite_and]
  by_cases hv : v.Fits
  · by_cases hw : w.Fits
    · simp only [if_pos hv, if_pos hw, Except.bind, equal_eq hpv hqw, less_eq hpv hqw]
      cases compareCascade v.wrap w.wrap <;> rfl
    · simp [if_pos hv, if_neg hw, Except.bind]
  · simp [if_neg hv, Except.bind]

theorem absentFirst_swap (a b : Option Nat) :
    absentFirst compare b a = (absentFirst compare a b).swap := by
  cases a <;> cases b <;> simp [absentFirst, Nat.compare_swap]

theorem absentLast_swap (a b : Option (Phase × Nat)) :
    absentLast comparePhase b a = (absentLast comparePhase a b).swap := by
  cases a <;> cases b <;> simp [absentLast, comparePhase, Ordering.swap_then, Nat.compare_swap]

theorem compareCascade_swap : compareCascade b a = (compareCascade a b).swap := by
  simp only [compareCascade, Ordering.swap_then, Nat.compare_swap]
  rw [absentLast_swap, absentFirst_swap a.post, absentFirst_swap a.dev,
    comparePadded_swap b.release a.release]

/-- A misordered pair is not a pair of equal versions. -/
theorem Misordered.comparePEP440_ne_eq (h : Misordered a b) : comparePEP440 a b ≠ .eq := by
  intro heq
  have hcascade := compareCascade_eq a b
  rw [if_pos h, heq, Ordering.swap_eq, compareCascade] at hcascade
  simp only [Ordering.then_eq_eq, absentLast_eq_iff, absentFirst_eq_iff] at hcascade
  obtain ⟨-, -, hpre, -, hdev⟩ := hcascade
  rcases h.2.2 with ⟨hdevOnly, hsome⟩ | ⟨hdevOnly, hsome⟩ | ⟨-, -, hne⟩
  · exact hsome (hpre ▸ hdevOnly.1)
  · exact hsome (hpre ▸ hdevOnly.1)
  · exact hne (congrArg Option.isSome hdev)

/-- For two accepted strings the result is the order of PEP 440 if and only if the numbers fit 64
bits and the versions reduced to 32 bits are in the order of the full ones, or in the opposite order
where the cascade turns it round. With the arguments exchanged the result is always the mirror
image. -/
theorem compareVersions_pep440_iff {a b : List Char} {v w : Version} (ha : parse a = some v)
    (hb : parse b = some w) :
    (compareVersions a b = .ok (resultOf (comparePEP440 v w)) ↔ v.Fits ∧ w.Fits ∧
      if Misordered v.wrap w.wrap then comparePEP440 v.wrap w.wrap = (comparePEP440 v w).swap
      else comparePEP440 v.wrap w.wrap = comparePEP440 v w) ∧
    (v.Fits → w.Fits → v.wrap = v → w.wrap = w →
      (compareVersions a b = .ok (resultOf (comparePEP440 v w)) ↔ ¬Misordered v w)) ∧
    compareVersions b a = (compareVersions a b).map VersionComparisonResult.mirror := by
  rw [compareVersions_eq ha hb, compareVersions_eq hb ha]
  by_cases hfits : v.Fits ∧ w.Fits
  · rw [if_pos hfits, if_pos hfits.symm]
    simp only [Except.ok.injEq, resultOf_injective.eq_iff, hfits.1, hfits.2, true_and]
    refine ⟨?_, ?_, ?_⟩
    · rw [compareCascade_eq]
      split
      · rw [← Ordering.swap_inj, Ordering.swap_swap]
      · rfl
    · intro _ _ hv hw
      rw [hv, hw, compareCascade_eq]
      split
      · rename_i hmisordered
        have hne := hmisordered.comparePEP440_ne_eq
        refine iff_of_false ?_ (not_not_intro hmisordered)
        cases hcompare : comparePEP440 v w with
        | lt => decide
        | eq => exact absurd hcompare hne
        | gt => decide
      · rename_i hordered
        exact iff_of_true rfl hordered
    · rw [compareCascade_swap, resultOf_swap]
      rfl
  · rw [if_neg hfits, if_neg (mt And.symm hfits : ¬(w.Fits ∧ v.Fits))]
    refine ⟨?_, fun hv hw => absurd ⟨hv, hw⟩ hfits, rfl⟩
    exact iff_of_false (fun h => by cases h) fun h => hfits ⟨h.1, h.2.1⟩

/-- The post releases of two versions of one release, in the two ways to write them. -/
theorem compareVersions_pep440_iff_posts :
    compareVersions "1.0.post2".toList "v1-10".toList = .ok .aLessThanB ∧
      compareVersions "v1-10".toList "1.0.post2".toList = .ok .aGreaterThanB := by
  have hleft : parse "1.0.post2".toList = some ⟨0, [1, 0], none, some 2, none⟩ := by decide +kernel
  have hright : parse "v1-10".toList = some ⟨0, [1], none, some 10, none⟩ := by decide +kernel
  obtain ⟨hiff, -, hmirror⟩ := compareVersions_pep440_iff hleft hright
  have hresult := hiff.2 (by decide +kernel)
  refine ⟨hresult, ?_⟩
  rw [hmirror, hresult]
  rfl

/-- A development release is taken to be newer than the release and its pre-releases, a number of 33
bits to be zero, and one of 65 bits is refused. -/
theorem development_release_above_release :
    (∃ v w, parse "1.0.dev1".toList = some v ∧ parse "1.0".toList = some w ∧
      comparePEP440 v w = .lt) ∧
    compareVersions "1.0.dev1".toList "1.0".toList = .ok .aGreaterThanB ∧
    (∃ v w, parse "1.0.dev1".toList = some v ∧ parse "1.0a1".toList = some w ∧
      comparePEP440 v w = .lt) ∧
    compareVersions "1.0.dev1".toList "1.0a1".toList = .ok .aGreaterThanB ∧
    (∃ v w, parse "4294967296".toList = some v ∧ parse "1".toList = some w ∧
      comparePEP440 v w = .gt) ∧
    compareVersions "4294967296".toList "1".toList = .ok .aLessThanB ∧
    (∃ v, parse "1.0.post18446744073709551616".toList = some v) ∧
    compareVersions "1.0.post18446744073709551616".toList "1".toList = .error .outOfRange := by
  refine ⟨⟨⟨0, [1, 0], none, none, some 1⟩, ⟨0, [1, 0], none, none, none⟩, ?_⟩, by decide +kernel,
    ⟨⟨0, [1, 0], none, none, some 1⟩, ⟨0, [1, 0], some (.alpha, 1), none, none⟩, ?_⟩, by
      decide +kernel,
    ⟨⟨0, [4294967296], none, none, none⟩, ⟨0, [1], none, none, none⟩, ?_⟩, by decide +kernel,
    ⟨⟨0, [1, 0], none, some 18446744073709551616, none⟩, by decide +kernel⟩, by decide +kernel⟩
  · decide +kernel
  · decide +kernel
  · decide +kernel

end WazAISentinel.VersionMatcher
