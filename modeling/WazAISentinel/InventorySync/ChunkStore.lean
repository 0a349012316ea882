import Mathlib.Data.Char
import WazAISentinel.Foundations.MachineWord
import WazAISentinel.Foundations.OrderedStore

/-!
# Sync messages and the chunk store

The tables of `inventorySync.fbs` that agent and manager exchange, and the RocksDB store in which
the manager keeps the data messages of its sessions. A string stands for its bytes, one character a
byte, and RocksDB orders keys bytewise. A stored value is the data message it encodes.

Three key texts are built from a session id: the key of a chunk, the prefix under which chunks are
read, with the separator, and the prefix under which they are deleted, without it.
-/

namespace WazAISentinel.InventorySync

open Foundations List

/-! ## Messages -/

/-- The enumeration `Mode`. -/
inductive Mode where
  | full
  | delta
  deriving DecidableEq, Repr

/-- The field `operation` of a data message: `Upsert`, `Delete`, or a byte that is neither. -/
inductive WireOperation where
  | upsert
  | delete
  | other (code : Nat)
  deriving DecidableEq, Repr

/-- The enumeration `Status`. -/
inductive Status where
  | ok
  | partialOk
  | error
  | offline
  deriving DecidableEq, Repr

/-- The table `Data`. The texts are optional in the schema, and the handler reads them without a
check: messages without one of them are left out. -/
structure DataMessage where
  seq : Nat
  session : Nat
  operation : WireOperation
  id : String
  index : String
  data : String
  deriving DecidableEq, Repr

/-- The table `Start`; its size is a 64-bit word. -/
structure StartMessage where
  mode : Mode
  size : Nat
  size_lt : size < wordCount
  deriving DecidableEq, Repr

/-- What the manager sends to an agent: the tables `StartAck`, `EndAck` and `ReqRet`. -/
inductive Reply where
  | startAck (status : Status) (session : Nat)
  | endAck (status : Status) (session : Nat)
  | reqRet (ranges : List (Nat × Nat)) (session : Nat)
  deriving DecidableEq, Repr

/-! ## Keys -/

/-- `std::to_string` and `std::format` of an unsigned number. -/
def decimal (n : Nat) : List Char := Nat.toDigits 10 n

/-- `std::format("{}_{}", session, seq)`. -/
def chunkKey (session seq : Nat) : List Char := decimal session ++ '_' :: decimal seq

/-- `std::format("{}_", session)`. -/
def chunkPrefix (session : Nat) : List Char := decimal session ++ ['_']

variable {m n q s t : Nat}

theorem decimal_injective (h : decimal m = decimal n) : m = n := by
  have hval : Nat.ofDigitChars 10 (decimal m) 0 = Nat.ofDigitChars 10 (decimal n) 0 := by rw [h]
  simpa [decimal] using hval

theorem separator_not_mem_decimal : '_' ∉ decimal n := Nat.underscore_not_in_toDigits

/-- The text before the only separator determines the session, the text after it the sequence
number. -/
theorem chunkKey_eq_append_iff {xs ys : List Char} :
    chunkKey s q = xs ++ '_' :: ys ↔ decimal s = xs ∧ '_' = '_' ∧ decimal q = ys :=
  append_cons_inj_of_notMem separator_not_mem_decimal separator_not_mem_decimal

theorem chunkKey_injective {p : Nat} (h : chunkKey s p = chunkKey t q) : s = t ∧ p = q := by
  obtain ⟨hs, -, hp⟩ := chunkKey_eq_append_iff.1 h
  exact ⟨decimal_injective hs, decimal_injective hp⟩

/-- Reading under the prefix of `s` finds the chunks of `s` only. -/
theorem chunkPrefix_isPrefixOf_chunkKey :
    (chunkPrefix s).isPrefixOf (chunkKey t q) = true ↔ s = t := by
  rw [List.isPrefixOf_iff_prefix]
  constructor
  · rintro ⟨rest, h⟩
    rw [chunkPrefix, append_assoc] at h
    exact decimal_injective (chunkKey_eq_append_iff.1 h.symm).1.symm
  · rintro rfl
    exact ⟨decimal q, by simp [chunkPrefix, chunkKey]⟩

/-- The text of `s` starts a chunk key of `t` exactly when it starts the text of `t`. -/
theorem decimal_isPrefixOf_chunkKey :
    (decimal s).isPrefixOf (chunkKey t q) = true ↔ (decimal s).isPrefixOf (decimal t) = true := by
  rw [List.isPrefixOf_iff_prefix, isPrefixOf_iff_prefix]
  constructor
  · intro h
    rcases prefix_or_prefix_of_prefix h (prefix_append (decimal t) _) with hst | hts
    · exact hst
    · -- were the text of `t` shorter, the separator would be a digit of `s`
      obtain ⟨rest, hrest⟩ := hts
      cases rest with
      | nil => rw [← hrest, append_nil]
      | cons c rest =>
        rw [← hrest] at h
        have hc : c = '_' := by
          have h' := (prefix_append_right_inj (decimal t)).1 h
          exact (cons_prefix_cons.1 h').1
        refine absurd (?_ : '_' ∈ decimal s) separator_not_mem_decimal
        rw [← hrest, hc]
        simp
  · exact fun h => h.trans (prefix_append _ _)

/-! ## The store -/

/-- The data store of the manager. -/
abbrev ChunkStore : Type := OrderedStore Char DataMessage

/-- The byte `\xFF`. -/
def byteFF : Char := Char.ofNat 255

/-- `deleteByPrefix`: the range from the prefix to the prefix followed by the byte `\xFF`. -/
def deleteByPrefix (store : ChunkStore) (p : List Char) : ChunkStore :=
  store.deleteRange p (p ++ [byteFF])

theorem lt_byteFF_of_mem_chunkKey {c : Char} (hc : c ∈ chunkKey s q) : c < byteFF := by
  have hdigit : ∀ n, c ∈ decimal n → c < byteFF := by
    intro n hn
    have h := Nat.isDigit_of_mem_toDigits (by decide) (by decide) hn
    simp only [Char.isDigit, Bool.and_eq_true, decide_eq_true_eq] at h
    have hle : c ≤ '9' := h.2
    exact lt_of_le_of_lt hle (by decide)
  rcases mem_append.1 hc with h | h
  · exact hdigit s h
  · rcases mem_cons.1 h with rfl | h
    · decide
    · exact hdigit q h

/-- Deleting under the text of `s` removes a chunk of `t` exactly when the decimal text of `t`
starts with that of `s`. -/
theorem mem_deleteByPrefix {store : ChunkStore} {d : DataMessage} :
    (chunkKey t q, d) ∈ (deleteByPrefix store (decimal s)).entries ↔
      (chunkKey t q, d) ∈ store.entries ∧ ¬ (decimal s).isPrefixOf (decimal t) = true := by
  have hrange : inRange (decimal s) (decimal s ++ [byteFF]) (chunkKey t q) =
      (decimal s).isPrefixOf (chunkKey t q) :=
    inRange_iff_isPrefixOf fun _ => lt_byteFF_of_mem_chunkKey
  have hmem := (store.mem_filter (q := fun k => !inRange (decimal s) (decimal s ++ [byteFF]) k)
    (e := (chunkKey t q, d)))
  rw [hrange, Bool.not_eq_true', Bool.eq_false_iff, ne_eq, decimal_isPrefixOf_chunkKey] at hmem
  exact hmem

end WazAISentinel.InventorySync
