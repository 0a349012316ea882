import Mathlib.Tactic

/-!
# Machine words

A computation that increments and decrements words is written once, over a monad that decides what
happens at the two ends of the range: `wrapping` is the arithmetic of unsigned integers, `checked`
fails instead of wrapping, and `exact` computes on the naturals. The first two are `Faithful`: they
agree with `exact` wherever the result is a word.
-/

namespace WazAISentinel.Foundations

/-- Number of 64-bit words. -/
def wordCount : Nat := 2 ^ 64

/-- The increment and the decrement of a word. -/
structure WordOps (m : Type → Type) where
  succ : Nat → m Nat
  pred : Nat → m Nat

/-- Unsigned arithmetic modulo `2 ^ 64`. -/
def wrapping : WordOps Id where
  succ n := (n + 1) % wordCount
  pred n := (n + (wordCount - 1)) % wordCount

/-- Arithmetic that fails where unsigned arithmetic wraps. -/
def checked : WordOps Option where
  succ n := if n + 1 < wordCount then some (n + 1) else none
  pred n := if 0 < n then some (n - 1) else none

/-- Arithmetic on naturals, without bounds. -/
def exact : WordOps Id where
  succ n := n + 1
  pred n := n - 1

/-- Operations that are exact wherever the result is a word. -/
structure WordOps.Faithful {m : Type → Type} [Monad m] (ops : WordOps m) : Prop where
  succ : ∀ n, n + 1 < wordCount → ops.succ n = pure (n + 1)
  pred : ∀ n, 0 < n → n < wordCount → ops.pred n = pure (n - 1)

/-- The computation gives `a`, whatever faithful arithmetic runs it. -/
structure Computes {α : Type} (f : {m : Type → Type} → [Monad m] → WordOps m → m α)
    (a : α) : Prop where
  eq : ∀ {m : Type → Type} [Monad m] [LawfulMonad m] {ops : WordOps m}, ops.Faithful →
    f ops = pure a

theorem wrapping_faithful : wrapping.Faithful where
  succ _ h := Nat.mod_eq_of_lt h
  pred n h₀ h := by
    have hsplit : n + (wordCount - 1) = (n - 1) + wordCount := by omega
    show (n + (wordCount - 1)) % wordCount = n - 1
    rw [hsplit, Nat.add_mod_right]
    exact Nat.mod_eq_of_lt (by omega)

theorem checked_faithful : checked.Faithful where
  succ _ h := if_pos h
  pred _ h₀ _ := if_pos h₀

/-! ## Words as bytes -/

variable (v : BitVec 32)

/-- The byte `k` of a word, counted from the low one. -/
def byteAt (k : Nat) : UInt8 := UInt8.ofBitVec (v.extractLsb' (8 * k) 8)

/-- The word with the given bytes, low byte first. -/
def joinBytes (a b c d : UInt8) : BitVec 32 := d.toBitVec ++ c.toBitVec ++ b.toBitVec ++ a.toBitVec

/-- The least significant byte first. -/
def bytesLittle : List UInt8 := [byteAt v 0, byteAt v 1, byteAt v 2, byteAt v 3]

/-- The most significant byte first. -/
def bytesBig : List UInt8 := [byteAt v 3, byteAt v 2, byteAt v 1, byteAt v 0]

/-- Reads what `bytesLittle` writes. -/
def wordLittle : List UInt8 → Option (BitVec 32)
  | [a, b, c, d] => some (joinBytes a b c d)
  | _ => none

/-- Reads what `bytesBig` writes. -/
def wordBig : List UInt8 → Option (BitVec 32)
  | [a, b, c, d] => some (joinBytes d c b a)
  | _ => none

@[simp] theorem length_bytesLittle : (bytesLittle v).length = 4 := rfl

theorem joinBytes_byteAt :
    joinBytes (byteAt v 0) (byteAt v 1) (byteAt v 2) (byteAt v 3) = v := by
  apply BitVec.eq_of_getLsbD_eq
  intro i hi
  simp only [joinBytes, byteAt, BitVec.getLsbD_append, BitVec.getLsbD_extractLsb']
  interval_cases i <;> simp

theorem wordLittle_bytesLittle : wordLittle (bytesLittle v) = some v :=
  congrArg some (joinBytes_byteAt v)

/-- Four bytes are a word. -/
theorem exists_wordLittle {bs : List UInt8} (h : bs.length = 4) : ∃ v, wordLittle bs = some v := by
  match bs, h with
  | [a, b, c, d], _ => exact ⟨_, rfl⟩

end WazAISentinel.Foundations
