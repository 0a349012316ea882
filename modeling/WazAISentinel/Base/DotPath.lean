import Mathlib.Data.List.Basic

/-!
# The two readers of field paths

`DotPath` (`base/include/base/dotPath.hpp`), for the schema, splits a path with `splitEscaped`
(`base/src/utils/stringUtils.cpp`). `formatJsonPath` (`base/src/json.cpp`), for the events, makes it
a JSON pointer, which `decodePointer` reads.
-/

namespace WazAISentinel.Base

/-- The loop of `splitEscaped`: `back` is the last segment, `splitted` are those before it. -/
def splitEscapedLoop (splitChar escape : Char) : List Char → List (List Char) → List Char →
    List (List Char)
  | [], splitted, back => splitted ++ [back]
  | [thisChar], splitted, back =>
    if thisChar = splitChar then splitted ++ [back] ++ [[]] else splitted ++ [back ++ [thisChar]]
  | thisChar :: nextChar :: rest, splitted, back =>
    if thisChar = escape then
      if nextChar = escape ∨ nextChar = splitChar
        then splitEscapedLoop splitChar escape rest splitted (back ++ [nextChar])
      else splitEscapedLoop splitChar escape (nextChar :: rest) splitted (back ++ [thisChar])
    else if thisChar = splitChar
      then splitEscapedLoop splitChar escape (nextChar :: rest) (splitted ++ [back]) []
    else splitEscapedLoop splitChar escape (nextChar :: rest) splitted (back ++ [thisChar])

/-- `utils::string::splitEscaped`. -/
def splitEscaped (input : List Char) (splitChar escape : Char) : List (List Char) :=
  splitEscapedLoop splitChar escape input [] []

/-! ## Dot paths -/

/-- A path and its parts. -/
structure DotPath where
  str : List Char
  parts : List (List Char)
  deriving DecidableEq

namespace DotPath

/-- The optional leading dot is removed. -/
def withoutLeadingDot : List Char → List Char
  | [] => []
  | c :: rest => if c = '.' then rest else c :: rest

/-- The constructor from a string. -/
def parse (text : List Char) : Except String DotPath :=
  let str := withoutLeadingDot text
  if str = [] then .ok ⟨str, []⟩
  else
    let parts := splitEscaped str '.' '\\'
    if parts.any fun part => part = [] ∧
      str ≠ ['.'] then .error "DotPath cannot have empty parts" else .ok ⟨str, parts⟩

end DotPath

/-! ## JSON pointers -/

/-- Each occurrence of a character is replaced. -/
def replaceChar (c : Char) (replacement text : List Char) : List Char :=
  text.flatMap fun d => if d = c then replacement else [d]

/-- The loop that replaces the dots. -/
def replaceDots : Bool → List Char → List Char
  | _, [] => []
  | prevCharWasSlash, c :: rest =>
    (if c = '.' ∧ prevCharWasSlash = false then ['/']
      else if c ≠ '\\' ∨ ((c = '.' ∨ c = '\\') ∧ prevCharWasSlash = true) then [c]
      else []) ++ replaceDots (c = '\\') rest

/-- `Json::formatJsonPath`. -/
def formatJsonPath (dotPath : List Char) (skipDot : Bool) : List Char :=
  if skipDot = false ∧ dotPath = ['.'] then []
  else
    let ptrPath := replaceChar '/' ['~', '1'] (replaceChar '~' ['~', '0'] dotPath)
    let ptrPath := if skipDot then ptrPath else replaceDots false ptrPath
    match ptrPath with
    | [] => ['/']
    | c :: rest => if c ≠ '/' then '/' :: c :: rest else c :: rest

/-- Each occurrence of a pair of characters is replaced. -/
def replacePair (c d replacement : Char) : List Char → List Char
  | [] => []
  | [e] => [e]
  | e :: f :: rest =>
    if e = c ∧ f = d then replacement :: replacePair c d replacement rest
      else e :: replacePair c d replacement (f :: rest)

/-- The part of a document that a reference token names. -/
def decodeToken (token : List Char) : List Char :=
  replacePair '~' '0' '~' (replacePair '~' '1' '/' token)

/-- The empty pointer is the document, and each reference token is behind a slash. -/
def decodePointer : List Char → List (List Char)
  | [] => []
  | _ :: tokens => (tokens.splitOn '/').map decodeToken

end WazAISentinel.Base
