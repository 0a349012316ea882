import Mathlib.Data.List.TakeWhile
import WazAISentinel.Foundations.DecimalDigits
import WazAISentinel.VersionMatcher.CString

/-!
# Debian package versions

`match` splits a version into epoch, upstream version and revision; `compareVersionAndRevision`
walks two strings, over characters that are not digits and over digits in turn. Its first inner loop
moves both cursors together, also when one of them stands at a digit or at the end. A cursor that
would be moved past the terminating NUL is an outcome of its own (`pastNul`).
-/

namespace WazAISentinel.VersionMatcher

open Foundations

/-- `Dpkg`, the fields of a `VersionObjectDpkg`. -/
structure Dpkg where
  epoch : UInt32
  version : List Char
  revision : List Char
  deriving DecidableEq

/-! ## The comparison -/

/-- The value of a `char`, which is signed. -/
def charValue (c : Char) : Int := if c.toNat < 128 then c.toNat else c.toNat - 256

/-- `order`. -/
def order (chr : Char) : Int :=
  if chr.isDigit then 0
  else if chr.isAlpha then charValue chr
  else if chr = '~' then -1
  else if chr ≠ nul then charValue chr + 256
  else 0

/-- `p++`; a pointer at the NUL stays inside the string only if it is not moved. -/
def advance (s : List Char) : Option (List Char) := if deref s = nul then none else some s.tail

/-- How the loop over other characters ends. -/
inductive NonDigits where
  | differ (result : Int)
  | reached (leftSide rightSide : List Char)
  | pastNul
  | running
  deriving DecidableEq

/-- How the comparison ends. -/
inductive Comparison where
  | returned (result : Int)
  | pastNul
  | running
  deriving DecidableEq

/-- The loop over the characters that are not digits. -/
def nonDigitLoop : Nat → List Char → List Char → NonDigits
  | 0, _, _ => .running
  | fuel + 1, leftSide, rightSide =>
    if (deref leftSide ≠ nul ∧ ¬ (deref leftSide).isDigit) ∨
        (deref rightSide ≠ nul ∧ ¬ (deref rightSide).isDigit) then
      let firstAux := order (deref leftSide)
      let secondAux := order (deref rightSide)
      if firstAux ≠ secondAux then .differ (firstAux - secondAux)
      else
        match advance leftSide, advance rightSide with
        | some leftSide, some rightSide => nonDigitLoop fuel leftSide rightSide
        | _, _ => .pastNul
    else .reached leftSide rightSide

/-- The loop over digits: the first difference, and where the cursors stand. -/
def digitLoop : Int → List Char → List Char → Int × List Char × List Char
  | firstDiff, c :: leftSide, d :: rightSide =>
    if c.isDigit && d.isDigit then
      digitLoop (if firstDiff = 0 then charValue c - charValue d else firstDiff) leftSide rightSide
    else (firstDiff, c :: leftSide, d :: rightSide)
  | firstDiff, leftSide, rightSide => (firstDiff, leftSide, rightSide)

/-- The rest of a round once the cursors stand at digits; `none` goes on with the loop. -/
def digitResult : Int × List Char × List Char → Option Int
  | (firstDiff, leftSide, rightSide) =>
    if (deref leftSide).isDigit then some 1
    else if (deref rightSide).isDigit then some (-1)
    else if firstDiff ≠ 0 then some firstDiff
    else none

/-- The loop of `compareVersionAndRevision`. Each round takes a character off one of the strings, so
`fuel` above their lengths is never used up. -/
def compareVersionAndRevisionLoop : Nat → List Char → List Char → Comparison
  | 0, _, _ => .running
  | fuel + 1, leftSide, rightSide =>
    if deref leftSide = nul ∧ deref rightSide = nul then .returned 0
    else
      match nonDigitLoop (leftSide.length + 1) leftSide rightSide with
      | .differ result => .returned result
      | .pastNul => .pastNul
      | .running => .running
      | .reached leftSide rightSide =>
        let digits := digitLoop 0 (dropZeros leftSide) (dropZeros rightSide)
        match digitResult digits with
        | some result => .returned result
        | none => compareVersionAndRevisionLoop fuel digits.2.1 digits.2.2

/-- `compareVersionAndRevision`; the null pointers it treats as empty strings do not occur. -/
def compareVersionAndRevision (leftSide rightSide : List Char) : Comparison :=
  compareVersionAndRevisionLoop (leftSide.length + rightSide.length + 1) leftSide rightSide

/-- `compareDpkgVersion`. -/
def compareDpkgVersion (a b : Dpkg) : Comparison :=
  if b.epoch < a.epoch then .returned 1
  else if a.epoch < b.epoch then .returned (-1)
  else
    match compareVersionAndRevision a.version b.version with
    | .returned result =>
      if result ≠ 0 then .returned result else compareVersionAndRevision a.revision b.revision
    | other => other

/-! ## Matching a version -/

/-- `isspace` in the C locale. -/
def isspace (c : Char) : Bool := c = ' ' || (9 ≤ c.toNat && c.toNat ≤ 13)

/-- The characters of a string up to its NUL. -/
def cstr (s : List Char) : List Char := s.takeWhile fun c => c ≠ nul

/-- The result of `strtol` in base 10: the value, whether it is out of range, and the end
pointer. -/
structure Strtol where
  value : Int
  erange : Bool
  endptr : List Char

/-- `LONG_MAX`. -/
def longMax : Int := 2 ^ 63 - 1

/-- `strtol`: blanks, a sign, digits. Without digits the end pointer is the start. -/
def strtol (s : List Char) : Strtol :=
  let t := s.dropWhile isspace
  let negative := deref t = '-'
  let digitsAt := if deref t = '-' ∨ deref t = '+' then t.tail else t
  let digits := digitsAt.takeWhile Char.isDigit
  if digits = [] then ⟨0, false, s⟩
  else
    let value : Int := if negative then -(decimal digits : Int) else decimal digits
    if longMax < value then ⟨longMax, true, digitsAt.dropWhile Char.isDigit⟩
    else if value < -longMax - 1 then ⟨-longMax - 1, true, digitsAt.dropWhile Char.isDigit⟩
    else ⟨value, false, digitsAt.dropWhile Char.isDigit⟩

/-- `UINT32_MAX`. -/
def uint32Max : Int := 2 ^ 32 - 1

/-- The epoch before a colon and the text behind it; without a colon the epoch is 0. -/
def matchEpoch (string : List Char) : Option (UInt32 × List Char) :=
  let colon := string.dropWhile fun c => c ≠ nul && c ≠ ':'
  if deref colon = ':' then
    let epoch := strtol string
    if epoch.endptr.length = string.length then none
    else if colon.length ≠ epoch.endptr.length then none
    else if epoch.value < 0 then none
    else if uint32Max < epoch.value ∨ epoch.erange then none
    else if deref colon.tail = nul then none
    else some (epoch.value.toNat.toUInt32, colon.tail)
  else some (0, string)

/-- The version and the revision, which stands behind the last hyphen and is not empty. -/
def splitRevision (versionStr : List Char) : Option (List Char × List Char) :=
  if '-' ∈ versionStr then
    let behind := (versionStr.reverse.takeWhile fun c => c ≠ '-').reverse
    let before := (versionStr.reverse.dropWhile fun c => c ≠ '-').tail.reverse
    if behind = [] then none else some (before, behind)
  else some (versionStr, [])

/-- The characters of a version behind the first one. -/
def isVersionChar (c : Char) : Bool := c.isDigit || c.isAlpha || c ∈ ".-+~:".toList

/-- The characters of a revision. -/
def isRevisionChar (c : Char) : Bool := c.isDigit || c.isAlpha || c ∈ ".+~".toList

/-- `match`. -/
def matchDpkg (version : List Char) : Option Dpkg :=
  let string := version.dropWhile fun c => c ≠ nul && isspace c
  if deref string = nul then none
  else
    let stop := string.dropWhile fun c => c ≠ nul && !isspace c
    -- only blanks may follow
    if deref (stop.dropWhile fun c => c ≠ nul && isspace c) ≠ nul then none
    else
      (matchEpoch string).bind fun (epoch, string) =>
        (splitRevision (string.take (string.length - stop.length))).bind fun (version, revision) =>
          if deref version = nul then none
          else if !(deref version).isDigit then none
          else if !(cstr version.tail).all isVersionChar then none
          else if !(cstr revision).all isRevisionChar then none
          else some ⟨epoch, version, revision⟩

end WazAISentinel.VersionMatcher
