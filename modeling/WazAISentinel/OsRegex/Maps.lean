import Mathlib.Tactic.Common

/-!
# Characters of the pattern libraries

The tables of `os_regex_maps.c` and the characters of `os_regex_internal.h`. A C string is the list
of its bytes before the end character. A comparison of a plain `char` with an element of a table
promotes both to `int`: whether a `char` above 127 is negative depends on the platform
(`charValue`).
-/

namespace WazAISentinel.OsRegex

abbrev Text := List UInt8

def backslash : UInt8 := 92

def beginRegex : UInt8 := 94

def endRegex : UInt8 := 36

def orChar : UInt8 := 124

/-- `OS_PATTERN_MAXSIZE`. -/
def osPatternMaxsize : Nat := 20480

/-- `charmap`: capital letters are mapped to small ones, and all other bytes to themselves. -/
def charmap (b : UInt8) : UInt8 :=
  if 65 ≤ b.toNat ∧ b.toNat ≤ 90 then UInt8.ofNat (b.toNat + 32) else b

/-- A plain `char` as an `int`. -/
def charValue (signed : Bool) (b : UInt8) : Int :=
  if signed = true ∧ 128 ≤ b.toNat then b.toNat - 256 else b.toNat

/-- A `char` of a pattern equals an element of `charmap` only if it is not negative. -/
theorem charValue_eq_iff (signed : Bool) (p c : UInt8) :
    charValue signed p = (c.toNat : Int) ↔ p = c ∧ (signed = true → p.toNat < 128) := by
  have hp := p.toNat_lt
  rw [charValue, ← UInt8.toNat_inj]
  by_cases hneg : signed = true ∧ 128 ≤ p.toNat
  · rw [if_pos hneg]
    constructor
    · intro heq
      omega
    · intro hand
      have := hand.2 hneg.1
      omega
  · rw [if_neg hneg]
    constructor
    · intro heq
      refine ⟨by omega, fun hsigned => ?_⟩
      by_contra hge
      exact hneg ⟨hsigned, by omega⟩
    · intro hand
      rw [hand.1]

theorem toNat_charmap (b : UInt8) :
    (charmap b).toNat = if 65 ≤ b.toNat ∧ b.toNat ≤ 90 then b.toNat + 32 else b.toNat := by
  rw [charmap]
  split
  · rw [UInt8.toNat_ofNat']
    omega
  · rfl

theorem charmap_charmap (b : UInt8) : charmap (charmap b) = charmap b := by
  have hb := toNat_charmap b
  rw [charmap, if_neg]
  split at hb <;> omega

/-- A character that is no letter is not changed, and nothing else is mapped to it. -/
theorem charmap_eq_iff {b c : UInt8}
    (hc : c.toNat < 65 ∨ 90 < c.toNat ∧ c.toNat < 97 ∨ 122 < c.toNat) : charmap b = c ↔ b = c := by
  rw [← UInt8.toNat_inj, ← UInt8.toNat_inj, toNat_charmap]
  split <;> omega

theorem charmap_lt_iff (b : UInt8) : (charmap b).toNat < 128 ↔ b.toNat < 128 := by
  rw [toNat_charmap]
  split <;> omega

/-! ## Splitting a pattern -/

/-- What a loop that collects the elements of a part goes on with. -/
theorem splitOn_collected {α : Type} [DecidableEq α] (sep c : α) (front l : List α) :
    ((c :: l).splitOn sep).modifyHead (front ++ ·) =
      if c = sep then front :: l.splitOn sep
        else (l.splitOn sep).modifyHead (front ++ [c] ++ ·) := by
  rw [List.splitOn_cons_eq_if_modifyHead]
  by_cases hc : c = sep
  · rw [if_pos hc, if_pos (beq_iff_eq.2 hc), List.modifyHead_cons, List.append_nil]
  · have hfun : (front ++ ·) ∘ List.cons c = (front ++ [c] ++ ·) := by
      funext l
      exact (List.append_assoc front [c] l).symm
    rw [if_neg hc, if_neg fun h => hc (beq_iff_eq.1 h), List.modifyHead_modifyHead, hfun]

theorem modifyHead_nil {α : Type} (l : List (List α)) : l.modifyHead ([] ++ ·) = l := by
  cases l <;> rfl

end WazAISentinel.OsRegex
