import WazAISentinel.Foundations.DecimalDigits
import WazAISentinel.Foundations.Regex
import WazAISentinel.VersionMatcher.CString

/-!
# Python package versions

`VersionObjectPEP440` reads a version with one regular expression, turns the captured digits into
32-bit numbers and compares the fields in a cascade. `stoul` throws for numbers of more than 64
bits, and the conversion to 32 bits keeps the low ones; `splitToNumbers` accumulates in 32 bits.
`compareVersions` is `VersionMatcher::compare` with the type `PEP440`.
-/

namespace WazAISentinel.VersionMatcher

open Foundations

/-- The exceptions. -/
inductive Failure where
  | invalidArgument
  | outOfRange
  | runtimeError
  deriving DecidableEq, Repr

/-- `VersionComparisonResult`. -/
inductive VersionComparisonResult where
  | aLessThanB
  | aEqualB
  | aGreaterThanB
  deriving DecidableEq, Repr

/-- `PEP440`, the fields of a `VersionObjectPEP440`. -/
structure PEP440 where
  epoch : UInt32
  versionStr : List Char
  preReleaseStr : List Char
  preReleaseNumber : UInt32
  postReleaseNumber : UInt32
  devReleaseNumber : UInt32
  hasPreRelease : Bool
  hasPostRelease : Bool
  hasDevRelease : Bool
  deriving DecidableEq

/-! ## The regular expression -/

/-- A text, whatever the case of its letters. -/
def literal : List Char → Regex Char
  | [] => .empty
  | c :: s => .seq (.char fun d => d.toLower = c) (literal s)

/-- One of several texts, tried in order. -/
def oneOf : List (List Char) → Regex Char
  | [] => .char fun _ => false
  | [s] => literal s
  | s :: ss => .alt (literal s) (oneOf ss)

/-- `[0-9]+`. -/
def digits : Regex Char := .seq (.char Char.isDigit) (.star (.char Char.isDigit))

/-- `[-_\.]?`. -/
def separator : Regex Char := .opt (.char fun c => c ∈ ['-', '_', '.'])

/-- `[0-9]+(?:\.[0-9]+)*`. -/
def release : Regex Char := .seq digits (.star (.seq (.char fun c => c = '.') digits))

/-- The names of a pre-release. -/
def preReleaseNames : List (List Char) :=
  ["a".toList, "b".toList, "c".toList, "rc".toList, "alpha".toList, "beta".toList, "pre".toList,
    "preview".toList]

/-- `[-_\.]?(names)[-_\.]?([0-9]+)?` with the groups `n` and `n + 1`. -/
def suffix (n : Nat) (names : List (List Char)) : Regex Char :=
  .seq separator (.seq (.group n (oneOf names)) (.seq separator (.opt (.group (n + 1) digits))))

/-- `m_parserRegex`. -/
def parserRegex : Regex Char :=
  .seq (.opt (literal "v".toList)) (.opt (
    .seq (.opt (.seq (.group 1 digits) (.char fun c => c = '!')))
      (.seq (.group 2 release)
        (.seq (.opt (suffix 3 preReleaseNames))
          (.seq (.opt (.alt (.seq (.char fun c => c = '-') (.group 5 digits))
              (suffix 6 ["post".toList, "rev".toList, "r".toList])))
            (.opt (suffix 8 ["dev".toList])))))))

/-! ## Matching a version -/

/-- `parserMatches.str(n)`: empty for a group without a match. -/
def str (parserMatches : Captures Char) (n : Nat) : List Char := (parserMatches n).getD []

variable (s : List Char)

/-- `std::stoul` of a text of digits. -/
def stoul : Except Failure Nat :=
  if s.takeWhile Char.isDigit = [] then .error .invalidArgument
  else if decimal (s.takeWhile Char.isDigit) < 2 ^ 64 then .ok (decimal (s.takeWhile Char.isDigit))
  else .error .outOfRange

/-- A number that may be left out, converted to 32 bits. -/
def optionalNumber : Except Failure UInt32 :=
  if s = [] then .ok 0 else (stoul s).map UInt32.ofNat

/-- The name of a pre-release in its normal form. -/
def preReleaseName : List Char :=
  let s := s.map Char.toLower
  if s = "alpha".toList then "a".toList
  else if s = "beta".toList then "b".toList
  else if s = "c".toList ∨ s = "pre".toList ∨ s = "preview".toList then "rc".toList
  else s

/-- The fields of a match. -/
def ofMatches (parserMatches : Captures Char) : Except Failure PEP440 :=
  (optionalNumber (str parserMatches 1)).bind fun epoch =>
  (optionalNumber (str parserMatches 4)).bind fun preReleaseNumber =>
  (if (parserMatches 5).isSome then (stoul (str parserMatches 5)).map UInt32.ofNat
    else optionalNumber (str parserMatches 7)).bind fun postReleaseNumber =>
  (optionalNumber (str parserMatches 9)).bind fun devReleaseNumber =>
  .ok
    { epoch := epoch
      versionStr := str parserMatches 2
      preReleaseStr := if (parserMatches 3).isSome then preReleaseName (str parserMatches 3) else []
      preReleaseNumber := preReleaseNumber
      postReleaseNumber := postReleaseNumber
      devReleaseNumber := devReleaseNumber
      hasPreRelease := (parserMatches 3).isSome
      hasPostRelease := (parserMatches 6).isSome || (parserMatches 5).isSome
      hasDevRelease := (parserMatches 8).isSome }

/-- `match`; without a match there is no version. -/
def matchPEP440 (version : List Char) : Except Failure (Option PEP440) :=
  match parserRegex.fullMatch version with
  | none => .ok none
  | some parserMatches => (ofMatches parserMatches).map some

/-! ## The comparison -/

/-- One number of `splitToNumbers`, accumulated in 32 bits. -/
def parseNumber : UInt32 → List Char → Except Failure UInt32
  | num, [] => .ok num
  | num, c :: s =>
    if c < '0' ∨ '9' < c then .error .runtimeError
    else parseNumber (num * 10 + UInt32.ofNat (digitValue c)) s

/-- The loop of `splitToNumbers`. Each round takes a delimiter off the text, so `fuel` above its
length is never used up. -/
def splitToNumbersLoop (delimiter : Char) : Nat → List Char → Except Failure (List UInt32)
  | 0, _ => .ok []
  | fuel + 1, start =>
    match start.dropWhile fun c => c ≠ delimiter with
    | [] => if start = [] then .ok [] else (parseNumber 0 start).map fun num => [num]
    | _ :: rest =>
      (parseNumber 0 (start.takeWhile fun c => c ≠ delimiter)).bind fun num =>
        (splitToNumbersLoop delimiter fuel rest).map fun tokens => num :: tokens

/-- `splitToNumbers`. -/
def splitToNumbers (delimiter : Char) : Except Failure (List UInt32) :=
  splitToNumbersLoop delimiter (s.length + 1) s

/-- The first difference of two lists of numbers of one length. -/
def compareNumbers : List UInt32 → List UInt32 → Int
  | a :: as, b :: bs => if a < b then -1 else if b < a then 1 else compareNumbers as bs
  | _, _ => 0

/-- `compareVersionStr`; the shorter list is padded with zeros. -/
def compareVersionStr (versionStrA versionStrB : List Char) : Except Failure Int :=
  (splitToNumbers versionStrA '.').bind fun splitA =>
  (splitToNumbers versionStrB '.').bind fun splitB =>
  .ok (compareNumbers (splitA ++ List.replicate (splitB.length - splitA.length) 0)
    (splitB ++ List.replicate (splitA.length - splitB.length) 0))

namespace PEP440

/-- `operator==`. -/
def equal (a b : PEP440) : Except Failure Bool :=
  if a.epoch = b.epoch then
    (compareVersionStr a.versionStr b.versionStr).map fun result =>
      result = 0 && a.preReleaseStr = b.preReleaseStr && a.preReleaseNumber = b.preReleaseNumber &&
        a.postReleaseNumber = b.postReleaseNumber && a.devReleaseNumber = b.devReleaseNumber &&
        a.hasPreRelease = b.hasPreRelease && a.hasPostRelease = b.hasPostRelease &&
        a.hasDevRelease = b.hasDevRelease
  else .ok false

/-- The last part of `operator<`: the development releases. -/
def lessDev (a b : PEP440) : Bool :=
  if a.hasDevRelease && !b.hasDevRelease then false
  else if !a.hasDevRelease && b.hasDevRelease then true
  else if a.hasDevRelease && b.hasDevRelease then
    if a.devReleaseNumber < b.devReleaseNumber then true else false
  else false

/-- The post releases, and what follows them. -/
def lessPost (a b : PEP440) : Bool :=
  if a.hasPostRelease && !b.hasPostRelease then false
  else if !a.hasPostRelease && b.hasPostRelease then true
  else if a.hasPostRelease && b.hasPostRelease then
    if a.postReleaseNumber < b.postReleaseNumber then true
    else if b.postReleaseNumber < a.postReleaseNumber then false
    else lessDev a b
  else lessDev a b

/-- The pre-releases, and what follows them. The names are compared by `std::string::compare`, which
goes character by character as `strcmp` does. -/
def lessPre (a b : PEP440) : Bool :=
  if a.hasPreRelease && !b.hasPreRelease then true
  else if !a.hasPreRelease && b.hasPreRelease then false
  else if a.hasPreRelease && b.hasPreRelease then
    if strcmp a.preReleaseStr b.preReleaseStr < 0 then true
    else if 0 < strcmp a.preReleaseStr b.preReleaseStr then false
    else if a.preReleaseNumber < b.preReleaseNumber then true
    else if b.preReleaseNumber < a.preReleaseNumber then false
    else lessPost a b
  else lessPost a b

/-- `operator<`. -/
def less (a b : PEP440) : Except Failure Bool :=
  if a.epoch < b.epoch then .ok true
  else if b.epoch < a.epoch then .ok false
  else
    (compareVersionStr a.versionStr b.versionStr).map fun resultVersionStr =>
      if resultVersionStr < 0 then true
      else if 0 < resultVersionStr then false
      else lessPre a b

end PEP440

/-- The version object of a string; a string that does not match has none. -/
def createPEP440 (version : List Char) : Except Failure PEP440 :=
  (matchPEP440 version).bind fun
    | none => .error .invalidArgument
    | some v => .ok v

/-- `VersionMatcher::compare` with the type `PEP440`. -/
def compareVersions (versionA versionB : List Char) : Except Failure VersionComparisonResult :=
  (createPEP440 versionA).bind fun a =>
  (createPEP440 versionB).bind fun b =>
  (a.equal b).bind fun same =>
    if same then .ok .aEqualB
    else (a.less b).map fun below => if below then .aLessThanB else .aGreaterThanB

end WazAISentinel.VersionMatcher
