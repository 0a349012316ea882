
import Mathlib.Tactic

/-!
# Segments of memory

A segment is a list of cells; a cell that was not written has no value. Reading or writing outside
the segment and copying between overlapping ranges with `memcpy` are undefined (`none`).
-/

namespace WazAISentinel.Foundations

open List

universe u

/-- Cells of memory. -/
abbrev Segment (β : Type u) := List (Option β)

variable {start n k : Nat}

namespace Segment

variable {β : Type u} {m : Segment β} {bs : List β}

section

variable (m : Segment β)

/-- The cells of a range. -/
def read (start n : Nat) : Option (Segment β) :=
  if start + n ≤ m.length then some ((m.drop start).take n) else none

/-- Replace the cells from `start` on. -/
def write (start : Nat) (cells : Segment β) : Option (Segment β) :=
  if start + cells.length ≤ m.length
    then some (m.take start ++ cells ++ m.drop (start + cells.length)) else none

/-- Copy a range; the ranges may overlap. -/
def memmove (dst src n : Nat) : Option (Segment β) := (m.read src n).bind (m.write dst)

/-- Copy a range to one that does not overlap with it. -/
def memcpy (dst src n : Nat) : Option (Segment β) :=
  if dst + n ≤ src ∨ src + n ≤ dst then m.memmove dst src n else none

/-- Change the size; what is added has no value. -/
def realloc (n : Nat) : Segment β := m.take n ++ List.replicate (n - m.length) none

end

theorem write_spec {cells : Segment β} (h : start + cells.length ≤ m.length) :
    ∃ m', m.write start cells = some m' ∧ m'.length = m.length ∧
      ∀ j, m'[j]? = if start ≤ j ∧ j < start + cells.length then cells[j - start]? else m[j]? := by
  refine ⟨_, if_pos h, ?_, ?_⟩
  · simp only [length_append, length_take, length_drop]
    omega
  · intro j
    have hlength : (m.take start).length = start := length_take_of_le (by omega)
    by_cases hbefore : j < start
    · rw [append_assoc, getElem?_append_left (by omega), getElem?_take_of_lt hbefore,
        if_neg (by omega)]
    · by_cases hinside : j < start + cells.length
      · rw [append_assoc, getElem?_append_right (by omega), hlength,
          getElem?_append_left (by omega), if_pos ⟨by omega, hinside⟩]
      · rw [getElem?_append_right (by simp only [length_append]; omega), getElem?_drop,
          if_neg (by omega)]
        congr 1
        simp only [length_append]
        omega

section

variable (m : Segment β) (dst src n : Nat) (hdst : dst + n ≤ m.length) (hsrc : src + n ≤ m.length)

include hdst hsrc

theorem memmove_spec :
    ∃ m', m.memmove dst src n = some m' ∧ m'.length = m.length ∧
      ∀ j, m'[j]? = if dst ≤ j ∧ j < dst + n then m[src + (j - dst)]? else m[j]? := by
  have hlength : ((m.drop src).take n).length = n := by
    rw [length_take, length_drop]
    omega
  have hroom : dst + ((m.drop src).take n).length ≤ m.length := by omega
  obtain ⟨m', hwrite, hsize, hcells⟩ := write_spec hroom
  refine ⟨m', ?_, hsize, ?_⟩
  · rw [memmove, read, if_pos hsrc]
    exact hwrite
  · intro j
    rw [hcells, hlength]
    split
    · rw [getElem?_take_of_lt (by omega), getElem?_drop]
    · rfl

theorem memcpy_spec (hdisjoint : dst + n ≤ src ∨ src + n ≤ dst) :
    ∃ m', m.memcpy dst src n = some m' ∧ m'.length = m.length ∧
      ∀ j, m'[j]? = if dst ≤ j ∧ j < dst + n then m[src + (j - dst)]? else m[j]? := by
  rw [memcpy, if_pos hdisjoint]
  exact memmove_spec m dst src n hdst hsrc

end

@[simp] theorem length_realloc (m : Segment β) (n : Nat) : (m.realloc n).length = n := by
  rw [realloc, length_append, length_take, length_replicate]
  omega

/-- The cells that both sizes have are kept. -/
theorem getElem?_realloc {j : Nat} (hn : j < n) (hm : j < m.length) :
    (m.realloc n)[j]? = m[j]? := by
  rw [realloc, getElem?_append_left (by rw [length_take]; omega), getElem?_take_of_lt hn]

/-! ## Reading around the end -/

/-- The position `k` places after the start, with one turn at most. -/
theorem mod_eq_wrap (h : k < 2 * n) : k % n = if k < n then k else k - n := by
  split
  · exact Nat.mod_eq_of_lt (by assumption)
  · rw [Nat.mod_eq_sub_mod (by omega), Nat.mod_eq_of_lt (by omega)]

/-- The cells from `start` on hold the values `bs`. -/
def Stores (m : Segment β) (start : Nat) (bs : List β) : Prop :=
  ∀ i, i < bs.length → m[(start + i) % m.length]? = bs[i]?.map some

/-- The positions written out, for values that take one turn at most. -/
theorem stores_iff_wrap (hstart : start < m.length) (hsize : bs.length ≤ m.length) :
    m.Stores start bs ↔
      ∀ i, i < bs.length →
        m[if start + i < m.length then start + i else start + i - m.length]? = bs[i]?.map some := by
  refine forall_congr' fun i => forall_congr' fun hi => ?_
  rw [mod_eq_wrap (by omega)]

theorem stores_append {cs : List β} :
    m.Stores start (bs ++ cs) ↔
      m.Stores start bs ∧ m.Stores ((start + bs.length) % m.length) cs := by
  constructor
  · intro h
    refine ⟨fun i hi => ?_, fun i hi => ?_⟩
    · rw [h i (by rw [length_append]; omega), getElem?_append_left hi]
    · rw [Nat.mod_add_mod, Nat.add_assoc, h (bs.length + i) (by rw [length_append]; omega),
        getElem?_append_right (Nat.le_add_right ..), Nat.add_sub_cancel_left]
  · rintro ⟨hbs, hcs⟩ i hi
    rw [length_append] at hi
    by_cases hfirst : i < bs.length
    · rw [hbs i hfirst, getElem?_append_left hfirst]
    · have hsecond := hcs (i - bs.length) (by omega)
      rw [Nat.mod_add_mod, Nat.add_assoc, Nat.add_sub_cancel' (by omega)] at hsecond
      rw [hsecond, getElem?_append_right (by omega)]

/-- Reading values that do not go around the end. -/
theorem Stores.read (h : m.Stores start bs) (hn : n ≤ bs.length) (hend : start + n ≤ m.length) :
    m.read start n = some ((bs.take n).map some) := by
  rw [Segment.read, if_pos hend, Option.some.injEq]
  apply ext_getElem?
  intro i
  rw [getElem?_take, getElem?_drop, getElem?_map, getElem?_take]
  split
  · rw [← h i (by omega), Nat.mod_eq_of_lt (by omega)]
  · rfl

/-- Writing values behind those that are stored, up to the end of the segment. -/
theorem Stores.write {dst : Nat} (h : m.Stores start bs) (cs : List β) (hstart : start < m.length)
    (hdst : dst = (start + bs.length) % m.length) (hroom : bs.length + cs.length ≤ m.length)
    (hend : dst + cs.length ≤ m.length) :
    ∃ m', m.write dst (cs.map some) = some m' ∧ m'.length = m.length ∧
      m'.Stores start (bs ++ cs) := by
  have hlength : (cs.map some).length = cs.length := length_map _
  obtain ⟨m', hwrite, hm', hcells⟩ := write_spec (m := m) (hlength.symm ▸ hend)
  refine ⟨m', hwrite, hm', ?_⟩
  rw [mod_eq_wrap (by omega)] at hdst
  rw [stores_iff_wrap (by omega) (by rw [length_append]; omega), hm', length_append]
  rw [stores_iff_wrap hstart (by omega)] at h
  intro i hi
  rw [hcells, hlength]
  by_cases hold : i < bs.length
  · rw [getElem?_append_left hold, ← h i hold, if_neg]
    split at hdst <;> split <;> omega
  · have hposition : (if start + i < m.length then start + i else start + i - m.length) = dst +
        (i - bs.length) := by
      split at hdst <;> split <;> omega
    rw [hposition, if_pos (by omega), getElem?_append_right (by omega), getElem?_map,
      Nat.add_sub_cancel_left]

/-! ## Reading from the beginning -/

/-- The values of cells that all were written. -/
def values : Segment β → Option (List β)
  | [] => some []
  | none :: _ => none
  | some b :: cells => (values cells).map (b :: ·)

@[simp] theorem values_map_some : values (bs.map some) = some bs := by
  induction bs with
  | nil => rfl
  | cons b bs ih => rw [map_cons, values, ih, Option.map_some]

/-- The values of a range. -/
def load (m : Segment β) (start n : Nat) : Option (List β) := (m.read start n).bind values

/-- The segment begins with the values `bs`. -/
structure Begins (m : Segment β) (bs : List β) : Prop where
  length_le : bs.length ≤ m.length
  cells : ∀ i, i < bs.length → m[i]? = bs[i]?.map some

theorem begins_nil (m : Segment β) : m.Begins [] :=
  ⟨Nat.zero_le _, fun i hi => absurd hi (Nat.not_lt_zero i)⟩

namespace Begins

/-- Reading values. -/
theorem load (h : m.Begins bs) (hend : start + n ≤ bs.length) :
    m.load start n = some ((bs.drop start).take n) := by
  have hcells : (m.drop start).take n = ((bs.drop start).take n).map some := by
    apply ext_getElem?
    intro i
    rw [getElem?_take, getElem?_drop, getElem?_map, getElem?_take, getElem?_drop]
    split
    · exact h.cells _ (by omega)
    · rfl
  rw [Segment.load, Segment.read, if_pos (hend.trans h.length_le), Option.bind_some, hcells,
    values_map_some]

/-- Appending values. -/
theorem write (h : m.Begins bs) (cs : List β) (hroom : bs.length + cs.length ≤ m.length) :
    ∃ m', m.write bs.length (cs.map some) = some m' ∧ m'.length = m.length ∧
      m'.Begins (bs ++ cs) := by
  have hlength : (cs.map some).length = cs.length := length_map _
  obtain ⟨m', hwrite, hm', hcells⟩ := write_spec (m := m) (hlength.symm ▸ hroom)
  refine ⟨m', hwrite, hm', ?_, ?_⟩
  · rw [length_append, hm']
    exact hroom
  · intro i hi
    rw [length_append] at hi
    rw [hcells, hlength]
    by_cases hold : i < bs.length
    · rw [if_neg (by omega), h.cells i hold, getElem?_append_left hold]
    · rw [if_pos (by omega), getElem?_append_right (by omega), getElem?_map]

/-- Moving what follows `k` values to the beginning. -/
theorem memmove (h : m.Begins bs) (hk : k ≤ bs.length) :
    ∃ m', m.memmove 0 k (bs.length - k) = some m' ∧ m'.length = m.length ∧
      m'.Begins (bs.drop k) := by
  have hlength := h.length_le
  obtain ⟨m', hmove, hm', hcells⟩ := memmove_spec m 0 k (bs.length - k) (by omega) (by omega)
  refine ⟨m', hmove, hm', ?_, ?_⟩
  · rw [length_drop, hm']
    omega
  · intro i hi
    rw [length_drop] at hi
    rw [hcells, if_pos (by omega), Nat.sub_zero, h.cells _ (by omega), getElem?_drop]

/-- Changing the size. -/
theorem realloc (h : m.Begins bs) (hn : bs.length ≤ n) : (m.realloc n).Begins bs := by
  have hlength := h.length_le
  refine ⟨by rwa [length_realloc], ?_⟩
  intro i hi
  rw [getElem?_realloc (by omega) (by omega), h.cells i hi]

end Begins

end Segment

end WazAISentinel.Foundations
