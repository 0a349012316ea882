import WazAISentinel.Foundations.Segment

/-!
# The binary queue

`bqueue_op.c`: a queue of bytes in a circular buffer that grows with the data and, with
`BQUEUE_SHRINK`, shrinks when less than half of it is in use. One byte of the buffer stays free, so
`head == tail` means that it is empty.

`head` and `tail` are offsets into `memory`, which is empty for a queue without a buffer. The calls
are made without `BQUEUE_WAIT`. Accesses outside the buffer, `memcpy` between overlapping ranges and
a remainder by zero are undefined (`none`).

The bytes between `head` and `tail`, read around the end of the buffer, are a list of bytes
(`Contains`). Making the buffer larger or smaller keeps them, and every sequence of calls does to
that list what a queue of bytes does, with the same replies.
-/

namespace WazAISentinel.Shared

open Foundations

/-- A byte of memory. -/
abbrev Cells := Segment UInt8

/-- `bqueue_t`. -/
structure BQueue where
  memory : Cells
  head : Nat
  tail : Nat
  length : Nat
  maxLength : Nat
  shrinks : Bool

namespace BQueue

/-- The remainder of a division by something that must not be zero. -/
def remainder (a b : Nat) : Option Nat := if b = 0 then none else some (a % b)

/-- `bqueue_init`; `none` for a NULL result. -/
def init (maxLength : Nat) (shrinks : Bool) : Option BQueue :=
  if maxLength ≤ 1 then none else some ⟨[], 0, 0, 0, maxLength, shrinks⟩

variable (q : BQueue)

/-- `_bqueue_used`. -/
def used : Nat := if q.length > 0 then (q.tail + q.length - q.head) % q.length else 0

/-- `_bqueue_empty`. -/
def empty : Bool := q.head = q.tail

/-- `_bqueue_trim`. -/
def trim : BQueue := { q with memory := [], head := 0, tail := 0, length := 0 }

/-- `_bqueue_expand`: the part of the data at the beginning of the buffer moves behind the part at
its end, as far as there is room. -/
def expand (newLength : Nat) : Option BQueue :=
  let memory := q.memory.realloc newLength
  if q.tail < q.head then
    let tailLen := q.tail
    let growth := newLength - q.length
    if tailLen ≤ growth then do
      let memory ← memory.memcpy q.length 0 tailLen
      let tail ← remainder (q.length + tailLen) newLength
      pure { q with memory := memory, tail := tail, length := newLength }
    else do
      let memory ← memory.memcpy q.length 0 growth
      let memory ← memory.memmove 0 growth (tailLen - growth)
      pure { q with memory := memory, tail := q.tail - growth, length := newLength }
  else some { q with memory := memory, length := newLength }

/-- The end of the data moves to the end of the smaller buffer. -/
def moveHead (newLength newHead : Nat) : Option Cells :=
  if q.head < newLength then q.memory.memmove newHead q.head (q.length - q.head)
  else q.memory.memcpy newHead q.head (q.length - q.head)

/-- The moves of `_bqueue_shrink` before the buffer is made smaller. -/
def compact (newLength : Nat) : Option BQueue :=
  if q.empty then some { q with head := 0, tail := 0 }
  else
    let headLen := q.head
    let tailLen := q.tail
    if headLen < tailLen then
      if newLength ≤ headLen then do
        let memory ← q.memory.memcpy 0 q.head (q.tail - q.head)
        pure { q with memory := memory, head := 0, tail := q.tail - headLen }
      else if newLength ≤ tailLen then do
        let chunkLen := tailLen - newLength
        let memory ← q.memory.memcpy 0 (q.tail - chunkLen) chunkLen
        pure { q with memory := memory, tail := chunkLen }
      else some q
    else if q.head < q.length - newLength then none
    else do
      let newHead := q.head - (q.length - newLength)
      let memory ← q.moveHead newLength newHead
      pure { q with memory := memory, head := newHead }

/-- `_bqueue_shrink`. -/
def shrink (newLength : Nat) : Option BQueue :=
  (q.compact newLength).map fun q =>
    { q with memory := q.memory.realloc newLength, length := newLength }

/-- The copies of `_bqueue_insert`. -/
def insertBytes (data : Cells) : Option Cells :=
  if q.tail + data.length ≤ q.length then q.memory.write q.tail data
  else do
    let chunkLen := q.length - q.tail
    let memory ← q.memory.write q.tail (data.take chunkLen)
    memory.write 0 (data.drop chunkLen)

/-- `_bqueue_insert`. -/
def insert (data : Cells) : Option BQueue := do
  let memory ← q.insertBytes data
  let tail ← remainder (q.tail + data.length) q.length
  pure { q with memory := memory, tail := tail }

/-- `_bqueue_extract`: the bytes it copies to the buffer of the caller. -/
def extract (bufferLen : Nat) : Option Cells :=
  if q.head > q.tail then
    let headLen := q.length - q.head
    if bufferLen < headLen then q.memory.read q.head bufferLen
    else do
      let first ← q.memory.read q.head headLen
      let second ← q.memory.read 0 (min (bufferLen - headLen) q.tail)
      pure (first ++ second)
  else q.memory.read q.head (min bufferLen (q.tail - q.head))

/-- What `bqueue_pop` and `bqueue_drop` do with the buffer afterwards. -/
def release : Option BQueue :=
  if q.empty then some q.trim
  else if q.shrinks ∧ q.used < q.length / 2 then q.shrink (q.length / 2)
  else some q

variable (length : Nat)

/-- The buffer is made larger if the data do not fit. -/
def reserve : Option BQueue :=
  if length + q.used ≥ q.length then q.expand (length + q.used + 1) else some q

/-- `bqueue_push`. -/
def push (data : List UInt8) : Option (BQueue × Int) :=
  if data.length ≥ q.maxLength then some (q, -1)
  else if data.length + q.used ≥ q.maxLength then some (q, -1)
  else do
    let q ← q.reserve data.length
    let q ← q.insert (data.map some)
    pure (q, 0)

/-- `bqueue_pop`: the bytes it returns. -/
def pop : Option (BQueue × Cells) :=
  if q.empty then some (q, [])
  else do
    let bytes ← q.extract length
    let head ← remainder (q.head + bytes.length) q.length
    let q ← release { q with head := head }
    pure (q, bytes)

/-- `bqueue_peek`. -/
def peek : Option Cells := if q.empty then some [] else q.extract length

/-- `bqueue_drop`. -/
def drop : Option (BQueue × Int) :=
  if length ≤ q.used then do
    let head ← remainder (q.head + length) q.length
    let q ← release { q with head := head }
    pure (q, 0)
  else some (q, -1)

/-- `bqueue_clear`. -/
def clear : BQueue := q.trim

end BQueue

/-! ## The bytes of a queue -/

open Segment List Option

variable {data : List UInt8} {k n : Nat}

namespace BQueue

/-- The queue holds the bytes `bs`, with `head` and `tail` inside the buffer. -/
structure Contains (q : BQueue) (bs : List UInt8) : Prop where
  size : q.memory.length = q.length
  limit : q.length ≤ q.maxLength
  null : q.length = 0 → q.head = 0 ∧ bs = []
  head : 0 < q.length → q.head < q.length
  room : 0 < q.length → bs.length < q.length
  tail : q.tail = (q.head + bs.length) % q.length
  bytes : q.memory.Stores q.head bs

variable {q : BQueue} {bs : List UInt8}

/-- A queue with bytes has a buffer. -/
theorem Contains.length_pos (h : q.Contains bs) (hbs : 0 < bs.length) : 0 < q.length := by
  rcases Nat.eq_zero_or_pos q.length with hzero | hpos
  · rw [(h.null hzero).2] at hbs
    exact absurd hbs (Nat.lt_irrefl 0)
  · exact hpos

/-- The bytes are in one piece, in a buffer or without one, or go around the end. -/
theorem Contains.layout (h : q.Contains bs) :
    q.tail = q.head + bs.length ∧ (q.tail < q.length ∨ q.length = 0 ∧ q.tail = 0) ∨
      q.tail + q.length = q.head + bs.length ∧ q.tail < q.head ∧ q.head < q.length := by
  rcases Nat.eq_zero_or_pos q.length with hzero | hpos
  · obtain ⟨hhead, hbs⟩ := h.null hzero
    simp [h.tail, hhead, hbs, hzero]
  · have hhead := h.head hpos
    have hroom := h.room hpos
    rw [h.tail, mod_eq_wrap (by omega)]
    split <;> omega

/-- The cells without the remainder. -/
theorem Contains.cell (h : q.Contains bs) {i : Nat} (hi : i < bs.length) :
    q.memory[if q.head + i < q.length then q.head + i else q.head + i - q.length]? =
      bs[i]?.map some := by
  have hpos := h.length_pos (Nat.zero_lt_of_lt hi)
  have hbytes := h.bytes
  rw [stores_iff_wrap (by rw [h.size]; exact h.head hpos) (by rw [h.size]; exact (h.room hpos).le),
    h.size] at hbytes
  exact hbytes i hi

/-- How the contents of a buffer that is not NULL are shown. -/
theorem contains_of_cells {memory : Cells} {head tail length maxLength : Nat} {shrinks : Bool}
    (hsize : memory.length = length) (hlimit : length ≤ maxLength) (hhead : head < length)
    (hroom : bs.length < length) (htail : tail = if head + bs.length < length then head + bs.length
    else head + bs.length - length) (hcells : ∀ i, i < bs.length →
    memory[if head + i < length then head + i else head + i - length]? = bs[i]?.map some) :
    (BQueue.mk memory head tail length maxLength shrinks).Contains bs where
  size := hsize
  limit := hlimit
  null hzero := absurd hzero (Nat.ne_of_gt (Nat.zero_lt_of_lt hhead))
  head _ := hhead
  room _ := hroom
  tail := by
    have hturn : head + bs.length < 2 * length := by omega
    exact htail.trans (mod_eq_wrap hturn).symm
  bytes := by
    have hstart : head < memory.length := by omega
    have hmost : bs.length ≤ memory.length := by omega
    exact (stores_iff_wrap hstart hmost).2 (by rwa [hsize])

theorem Contains.used_eq (h : q.Contains bs) : q.used = bs.length := by
  rw [used]
  split_ifs with hpos
  · have hroom := h.room hpos
    have hlayout := h.layout
    rw [mod_eq_wrap (by omega)]
    split <;> omega
  · rw [(h.null (by omega)).2, length_nil]

theorem Contains.empty_eq (h : q.Contains bs) : q.empty = decide (bs = []) := by
  have hlayout := h.layout
  rw [empty, decide_eq_decide, ← length_eq_zero_iff]
  omega

/-- An empty queue without a buffer. -/
theorem contains_trim (q : BQueue) : q.trim.Contains [] where
  size := rfl
  limit := Nat.zero_le _
  null _ := ⟨rfl, rfl⟩
  head h := absurd h (Nat.lt_irrefl 0)
  room h := absurd h (Nat.lt_irrefl 0)
  tail := rfl
  bytes := fun i hi => absurd hi (Nat.not_lt_zero i)

/-- The same limit and flags. -/
def SameSettings (q q' : BQueue) : Prop := q'.maxLength = q.maxLength ∧ q'.shrinks = q.shrinks

theorem SameSettings.trans {q q' q'' : BQueue} (h : SameSettings q q') (h' : SameSettings q' q'') :
    SameSettings q q'' :=
  ⟨h'.1.trans h.1, h'.2.trans h.2⟩

/-- The same bytes in a buffer of another size. -/
structure Resized (q q' : BQueue) (bs : List UInt8) (newLength : Nat) : Prop where
  contains : q'.Contains bs
  length : q'.length = newLength
  same : SameSettings q q'

/-! ## A larger buffer -/

section Expand

variable {newLength : Nat}

section

variable (h : q.Contains bs) (hpos : 0 < q.length) (hwrapped : q.tail < q.head)
  (hend : q.head + bs.length = q.length + q.tail) (hlonger : q.length < newLength)
  (hlimit : newLength ≤ q.maxLength)

include h hpos hwrapped hend hlonger hlimit

/-- Data around the end whose first part fits behind the second one. -/
theorem expand_all (hfits : q.tail ≤ newLength - q.length) :
    ∃ q', q.expand newLength = some q' ∧ Resized q q' bs newLength := by
  have hsize := h.size
  have hhead := h.head hpos
  have hrealloc := length_realloc q.memory newLength
  obtain ⟨m, hcopy, hm, hcells⟩ := memcpy_spec (q.memory.realloc newLength) q.length 0 q.tail
    (by omega) (by omega) (by omega)
  refine ⟨{ q with memory := m, tail := (q.length + q.tail) % newLength, length := newLength }, ?_,
    ⟨contains_of_cells (by omega) hlimit (by omega) (by omega) ?_ ?_, rfl, rfl, rfl⟩⟩
  · rw [expand, if_pos hwrapped, if_pos hfits]
    simp [hcopy, remainder, if_neg (Nat.ne_of_gt (Nat.zero_lt_of_lt hlonger))]
  · rw [hend, mod_eq_wrap (by omega)]
  · intro i hi
    have hcell := h.cell hi
    rw [if_pos (by omega), hcells]
    by_cases hfirst : q.head + i < q.length
    · rw [if_pos hfirst] at hcell
      rw [if_neg (by omega), getElem?_realloc (by omega) (by omega), hcell]
    · rw [if_neg hfirst] at hcell
      rw [if_pos (by omega), Nat.zero_add, getElem?_realloc (by omega) (by omega), hcell]

/-- Data around the end whose first part does not fit behind the second one as a whole. -/
theorem expand_part (hfits : ¬q.tail ≤ newLength - q.length) :
    ∃ q', q.expand newLength = some q' ∧ Resized q q' bs newLength := by
  have hsize := h.size
  have hhead := h.head hpos
  have hrealloc := length_realloc q.memory newLength
  obtain ⟨m, hcopy, hm, hcells⟩ := memcpy_spec (q.memory.realloc newLength) q.length 0
    (newLength - q.length) (by omega) (by omega) (by omega)
  obtain ⟨m', hmove, hm', hcells'⟩ := memmove_spec m 0 (newLength - q.length)
    (q.tail - (newLength - q.length)) (by omega) (by omega)
  refine ⟨{ q with memory := m', tail := q.tail - (newLength - q.length), length := newLength }, ?_,
    ⟨contains_of_cells (by omega) hlimit (by omega) (by omega) ?_ ?_, rfl, rfl, rfl⟩⟩
  · rw [expand, if_pos hwrapped, if_neg hfits]
    simp [hcopy, hmove]
  · rw [if_neg (by omega)]
    omega
  · intro i hi
    have hcell := h.cell hi
    by_cases hfirst : q.head + i < q.length
    · -- before the old end: not moved
      rw [if_pos hfirst] at hcell
      rw [if_pos (by omega), hcells', if_neg (by omega), hcells, if_neg (by omega),
        getElem?_realloc (by omega) (by omega), hcell]
    · rw [if_neg hfirst] at hcell
      by_cases hnew : q.head + i < newLength
      · -- in the new part of the buffer
        rw [if_pos hnew, hcells', if_neg (by omega), hcells, if_pos (by omega), Nat.zero_add,
          getElem?_realloc (by omega) (by omega), hcell]
      · -- moved down to the beginning
        have hposition :
          newLength - q.length + (q.head + i - newLength - 0) = q.head + i - q.length := by omega
        rw [if_neg hnew, hcells', if_pos (by omega), hposition, hcells, if_neg (by omega),
          getElem?_realloc (by omega) (by omega), hcell]

end

/-- Data in one piece stay where they are. -/
theorem expand_contiguous (h : q.Contains bs) (hwrapped : ¬q.tail < q.head)
    (hlonger : q.length < newLength) (hlimit : newLength ≤ q.maxLength) :
    ∃ q', q.expand newLength = some q' ∧ Resized q q' bs newLength := by
  have hsize := h.size
  have hlayout := h.layout
  have hend : q.tail = q.head + bs.length ∧ q.head + bs.length < newLength := by omega
  refine ⟨{ q with memory := q.memory.realloc newLength, length := newLength }, ?_,
    ⟨contains_of_cells (length_realloc ..) hlimit (by omega) (by omega) ?_ ?_, rfl, rfl, rfl⟩⟩
  · rw [expand, if_neg hwrapped]
  · rw [if_pos hend.2, hend.1]
  · intro i hi
    have hcell := h.cell hi
    rw [if_pos (by omega)] at hcell
    rw [if_pos (by omega), getElem?_realloc (by omega) (by omega), hcell]

/-- A larger buffer holds the same bytes. -/
theorem expand_spec (h : q.Contains bs) (hlonger : q.length < newLength)
    (hlimit : newLength ≤ q.maxLength) :
    ∃ q', q.expand newLength = some q' ∧ Resized q q' bs newLength := by
  by_cases hwrapped : q.tail < q.head
  · have hlayout := h.layout
    have hpos : 0 < q.length := by omega
    have hend : q.head + bs.length = q.length + q.tail := by omega
    by_cases hfits : q.tail ≤ newLength - q.length
    · exact expand_all h hpos hwrapped hend hlonger hlimit hfits
    · exact expand_part h hpos hwrapped hend hlonger hlimit hfits
  · exact expand_contiguous h hwrapped hlonger hlimit

end Expand

/-! ## A smaller buffer -/

section Shrink

variable {newLength : Nat} (h : q.Contains bs) (hroom : bs.length < newLength)
  (hshorter : newLength ≤ q.length)

include h hroom hshorter

/-- After the moves the bytes are in the part of the buffer that is kept. -/
theorem shrink_of_compact {m : Cells} {head tail : Nat} (hm : m.length = q.memory.length)
    (hcompact : q.compact newLength = some { q with memory := m, head := head, tail := tail })
    (hhead : head < newLength) (htail : tail = if head + bs.length < newLength then head + bs.length
    else head + bs.length - newLength) (hcells : ∀ i, i < bs.length →
    m[if head + i < newLength then head + i else head + i - newLength]? = bs[i]?.map some) :
    ∃ q', q.shrink newLength = some q' ∧ Resized q q' bs newLength := by
  have hsize := h.size
  refine ⟨⟨m.realloc newLength, head, tail, newLength, q.maxLength, q.shrinks⟩, ?_,
    ⟨contains_of_cells (length_realloc ..) (hshorter.trans h.limit) hhead hroom htail ?_,
      rfl, rfl, rfl⟩⟩
  · rw [shrink, hcompact, map_some]
  · intro i hi
    have hcell := hcells i hi
    rw [getElem?_realloc, hcell]
    · split <;> omega
    · split <;> omega

/-- Data in one piece, of which some may be behind the new end. -/
theorem shrink_contiguous (hbs : 0 < bs.length) (hnonempty : q.empty = false)
    (hend : q.tail = q.head + bs.length) (hinside : q.tail < q.length) :
    ∃ q', q.shrink newLength = some q' ∧ Resized q q' bs newLength := by
  have hsize := h.size
  have hcontiguous : q.head < q.tail := by omega
  have hcell : ∀ i, i < bs.length → q.memory[q.head + i]? = bs[i]?.map some := by
    intro i hi
    have hcell := h.cell hi
    rwa [if_pos (by omega)] at hcell
  have hstart : q.compact newLength = if newLength ≤ q.head then do
        let memory ← q.memory.memcpy 0 q.head (q.tail - q.head)
        pure { q with memory := memory, head := 0, tail := q.tail - q.head }
      else if newLength ≤ q.tail then do
        let memory ← q.memory.memcpy 0 (q.tail - (q.tail - newLength)) (q.tail - newLength)
        pure { q with memory := memory, tail := q.tail - newLength }
      else some q := by
    simp [compact, hnonempty, if_pos hcontiguous]
  by_cases hright : newLength ≤ q.head
  · -- all of it is behind the new end and moves to the beginning
    obtain ⟨m, hcopy, hm, hcells⟩ := memcpy_spec q.memory 0 q.head (q.tail - q.head)
      (by omega) (by omega) (by omega)
    apply shrink_of_compact h hroom hshorter hm
    · rw [hstart, if_pos hright, hcopy]
      rfl
    · exact Nat.zero_lt_of_lt hroom
    · rw [if_pos (by omega)]
      omega
    · intro i hi
      rw [if_pos (by omega), hcells, if_pos (by omega), ← hcell i hi]
      congr 1
      omega
  · by_cases hsplit : newLength ≤ q.tail
    · -- the end of it moves to the beginning
      obtain ⟨m, hcopy, hm, hcells⟩ := memcpy_spec q.memory 0 (q.tail - (q.tail - newLength))
        (q.tail - newLength) (by omega) (by omega) (by omega)
      apply shrink_of_compact h hroom hshorter hm
      · rw [hstart, if_neg hright, if_pos hsplit, hcopy]
        rfl
      · exact Nat.lt_of_not_le hright
      · rw [if_neg (by omega)]
        omega
      · intro i hi
        by_cases hkept : q.head + i < newLength
        · rw [if_pos hkept, hcells, if_neg (by omega), hcell i hi]
        · rw [if_neg hkept, hcells, if_pos (by omega), ← hcell i hi]
          congr 1
          omega
    · apply shrink_of_compact h hroom hshorter rfl
      · rw [hstart, if_neg hright, if_neg hsplit]
      · exact Nat.lt_of_not_le hright
      · rw [if_pos (by omega), hend]
      · intro i hi
        rw [if_pos (by omega), hcell i hi]

/-- Data around the end: the second part moves down to the new end. -/
theorem shrink_wrapped (hhead : q.head < q.length) (hnonempty : q.empty = false)
    (hwrapped : ¬q.head < q.tail) (hend : q.head + bs.length = q.length + q.tail) :
    ∃ q', q.shrink newLength = some q' ∧ Resized q q' bs newLength := by
  have hsize := h.size
  -- the second part does not reach down to the first one
  have hmove : ∃ m, q.moveHead newLength (q.head - (q.length - newLength)) = some m ∧
      m.length = q.memory.length ∧
      ∀ j, m[j]? = if q.head - (q.length - newLength) ≤ j ∧
        j < q.head - (q.length - newLength) + (q.length - q.head)
        then q.memory[q.head + (j - (q.head - (q.length - newLength)))]? else q.memory[j]? := by
    rw [moveHead]
    split
    · exact memmove_spec _ _ _ _ (by omega) (by omega)
    · exact memcpy_spec _ _ _ _ (by omega) (by omega) (by omega)
  obtain ⟨m, hmove, hm, hcells⟩ := hmove
  apply shrink_of_compact h hroom hshorter hm
  · simp only [compact, hnonempty, Bool.false_eq_true, if_false, if_neg hwrapped,
      if_neg (show ¬q.head < q.length - newLength by omega), hmove, bind_eq_bind, bind_some,
      Option.pure_def]
    rfl
  · omega
  · rw [if_neg (by omega)]
    omega
  · intro i hi
    have hcell := h.cell hi
    by_cases hsecond : q.head + i < q.length
    · rw [if_pos hsecond] at hcell
      rw [if_pos (by omega), hcells, if_pos (by omega), ← hcell]
      congr 1
      omega
    · rw [if_neg hsecond] at hcell
      rw [if_neg (by omega), hcells, if_neg (by omega), ← hcell]
      congr 1
      omega

/-- A smaller buffer that is large enough holds the same bytes. -/
theorem shrink_spec (hbs : 0 < bs.length) :
    ∃ q', q.shrink newLength = some q' ∧ Resized q q' bs newLength := by
  have hpos := h.length_pos hbs
  have hhead := h.head hpos
  have hlayout := h.layout
  have hnonempty : q.empty = false := by
    rw [h.empty_eq]
    simpa [← length_eq_zero_iff] using hbs.ne'
  by_cases hcontiguous : q.head < q.tail
  · apply shrink_contiguous h hroom hshorter hbs hnonempty
    · omega
    · omega
  · apply shrink_wrapped h hroom hshorter hhead hnonempty hcontiguous
    omega

end Shrink

/-! ## Bytes in and out -/

section

variable (h : q.Contains bs)

include h

/-- The copies of an insertion: the bytes of the data follow those of the queue. -/
theorem insertBytes_spec (hfits : bs.length + data.length < q.length) :
    ∃ m, q.insertBytes (data.map some) = some m ∧ m.length = q.length ∧
      m.Stores q.head (bs ++ data) := by
  have hsize := h.size
  have hpos : 0 < q.length := Nat.zero_lt_of_lt hfits
  have hhead := h.head hpos
  have hlayout := h.layout
  have htail := h.tail
  rw [← hsize] at htail
  by_cases hone : q.tail + data.length ≤ q.length
  · -- in one piece
    obtain ⟨m, hwrite, hm, hstores⟩ := h.bytes.write data (by omega) htail (by omega) (by omega)
    refine ⟨m, ?_, hm.trans hsize, hstores⟩
    rw [insertBytes, length_map, if_pos hone, hwrite]
  · -- up to the end, and on from the beginning
    have htake : (data.take (q.length - q.tail)).length = q.length - q.tail :=
      length_take_of_le (by omega)
    have hdrop :
      (data.drop (q.length - q.tail)).length = data.length - (q.length - q.tail) := length_drop
    obtain ⟨m, hwrite, hm, hstores⟩ :=
      h.bytes.write (data.take (q.length - q.tail)) (by omega) htail (by omega) (by omega)
    have hzero : 0 = (q.head + (bs ++ data.take (q.length - q.tail)).length) % m.length := by
      rw [length_append, htake, hm, ← Nat.add_assoc, ← Nat.mod_add_mod, ← htail, hsize,
        Nat.add_sub_cancel' (by omega), Nat.mod_self]
    obtain ⟨m', hwrite', hm', hstores'⟩ := hstores.write (data.drop (q.length - q.tail)) (by omega)
      hzero (by rw [length_append]; omega) (by omega)
    rw [append_assoc, take_append_drop] at hstores'
    refine ⟨m', ?_, by omega, hstores'⟩
    rw [map_take] at hwrite
    rw [map_drop] at hwrite'
    rw [insertBytes, length_map, if_neg hone]
    simp [hwrite, hwrite']

/-- `_bqueue_insert` appends. -/
theorem insert_spec (hfits : bs.length + data.length < q.length) :
    ∃ q', q.insert (data.map some) = some q' ∧ q'.Contains (bs ++ data) ∧ SameSettings q q' := by
  obtain ⟨m, hinsert, hm, hstores⟩ := insertBytes_spec h hfits
  have hpos : 0 < q.length := Nat.zero_lt_of_lt hfits
  refine ⟨{ q with memory := m, tail := (q.tail + data.length) % q.length }, ?_, ?_, rfl, rfl⟩
  · simp [insert, hinsert, remainder, if_neg hpos.ne']
  · refine ⟨hm, h.limit, fun hzero => absurd hzero hpos.ne', fun _ => h.head hpos, fun _ => ?_,
      ?_, hstores⟩
    · rwa [length_append]
    · rw [h.tail, Nat.mod_add_mod, Nat.add_assoc, length_append]

/-- `_bqueue_extract` copies the first bytes. -/
theorem extract_spec (hbs : 0 < bs.length) (n : Nat) :
    q.extract n = some ((bs.take n).map some) := by
  have hpos := h.length_pos hbs
  have hsize := h.size
  have hhead := h.head hpos
  have hroom := h.room hpos
  have hlayout := h.layout
  by_cases hwrapped : q.head > q.tail
  · rw [extract, if_pos hwrapped]
    by_cases hshort : n < q.length - q.head
    · rw [if_pos hshort]
      exact h.bytes.read (by omega) (by omega)
    · -- the second part begins at the start of the buffer
      have hparts := h.bytes
      rw [← take_append_drop (q.length - q.head) bs, stores_append, hsize,
        length_take_of_le (by omega), Nat.add_sub_cancel' hhead.le, Nat.mod_self] at hparts
      have hfirst := h.bytes.read (n := q.length - q.head) (by omega) (by omega)
      have hsecond := hparts.2.read (n := min (n - (q.length - q.head)) q.tail) (by
        rw [length_drop]
        omega) (by omega)
      have hmin : (bs.drop (q.length - q.head)).take (min (n - (q.length - q.head)) q.tail) =
          (bs.drop (q.length - q.head)).take (n - (q.length - q.head)) := by
        rw [take_eq_take_iff, length_drop]
        omega
      have hwhole : bs.take n = bs.take (q.length - q.head) ++
          (bs.drop (q.length - q.head)).take (n - (q.length - q.head)) := by
        rw [← take_add, Nat.add_sub_cancel' (by omega)]
      rw [if_neg hshort, hfirst, hsecond, hmin, hwhole, map_append]
      rfl
  · have hmin : bs.take (min n (q.tail - q.head)) = bs.take n := by
      rw [take_eq_take_iff]
      omega
    rw [extract, if_neg hwrapped, h.bytes.read (by omega) (by omega), hmin]

/-- Moving the head removes bytes. -/
theorem contains_advance (hpos : 0 < q.length) (hk : k ≤ bs.length) :
    { q with head := (q.head + k) % q.length }.Contains (bs.drop k) where
  size := h.size
  limit := h.limit
  null hzero := absurd hzero hpos.ne'
  head _ := Nat.mod_lt _ hpos
  room _ := by
    rw [length_drop]
    exact (Nat.sub_le _ _).trans_lt (h.room hpos)
  tail := by
    rw [h.tail, Nat.mod_add_mod, length_drop, Nat.add_assoc, Nat.add_sub_cancel' hk]
  bytes := by
    have hparts := h.bytes
    rw [← take_append_drop k bs, stores_append, h.size, length_take_of_le hk] at hparts
    exact hparts.2

/-- What is done with the buffer after bytes were removed keeps the rest. -/
theorem release_spec : ∃ q', q.release = some q' ∧ q'.Contains bs ∧ SameSettings q q' := by
  rw [release, h.empty_eq]
  by_cases hbs : bs = []
  · subst hbs
    exact ⟨q.trim, by simp, contains_trim q, rfl, rfl⟩
  · have hpos : 0 < bs.length := length_pos_iff.2 hbs
    rw [decide_eq_false hbs, if_neg Bool.false_ne_true]
    split_ifs with hshrink
    · rw [h.used_eq] at hshrink
      obtain ⟨q', hq', hresized⟩ := shrink_spec h hshrink.2 (Nat.div_le_self _ _) hpos
      exact ⟨q', hq', hresized.contains, hresized.same⟩
    · exact ⟨q, rfl, h, rfl, rfl⟩

/-! ## The calls -/

/-- Room for the data, in the buffer as it is or in a larger one. -/
theorem reserve_spec (hfits : n + bs.length < q.maxLength) :
    ∃ q', q.reserve n = some q' ∧ q'.Contains bs ∧ bs.length + n < q'.length ∧
      SameSettings q q' := by
  rw [reserve, h.used_eq]
  split
  · have hlonger : q.length < n + bs.length + 1 := by omega
    obtain ⟨q', hexpand, hresized⟩ := expand_spec h hlonger hfits
    exact ⟨q', hexpand, hresized.contains, by rw [hresized.length]; omega, hresized.same⟩
  · exact ⟨q, rfl, h, by omega, rfl, rfl⟩

theorem push_spec (hfits : data.length + bs.length < q.maxLength) :
    ∃ q', q.push data = some (q', 0) ∧ q'.Contains (bs ++ data) ∧ SameSettings q q' := by
  obtain ⟨q₁, hreserve, h₁, hroom, hsame₁⟩ := reserve_spec h hfits
  obtain ⟨q₂, hinsert, h₂, hsame₂⟩ := insert_spec h₁ hroom
  refine ⟨q₂, ?_, h₂, hsame₁.trans hsame₂⟩
  rw [push, if_neg (by omega), h.used_eq, if_neg (by omega)]
  simp [hreserve, hinsert]

/-- Data that do not fit are refused. -/
theorem push_refused (hfits : ¬data.length + bs.length < q.maxLength) :
    q.push data = some (q, -1) := by
  rw [push, h.used_eq]
  split
  · rfl
  · rw [if_pos (by omega)]

theorem pop_spec (n : Nat) :
    ∃ q', q.pop n = some (q', (bs.take n).map some) ∧ q'.Contains (bs.drop n) ∧
      SameSettings q q' := by
  rw [pop, h.empty_eq]
  by_cases hbs : bs = []
  · subst hbs
    exact ⟨q, by simp, by simpa using h, rfl, rfl⟩
  · have hbytes : 0 < bs.length := length_pos_iff.2 hbs
    have hpos := h.length_pos hbytes
    obtain ⟨q', hrelease, hcontains, hsame⟩ :=
      release_spec (contains_advance h hpos (k := min n bs.length) (Nat.min_le_right ..))
    have hdrop : bs.drop (min n bs.length) = bs.drop n := by
      rw [drop_eq_drop_iff]
      omega
    rw [hdrop] at hcontains
    refine ⟨q', ?_, hcontains, hsame⟩
    rw [decide_eq_false hbs, if_neg Bool.false_ne_true, extract_spec h hbytes]
    simp [remainder, if_neg hpos.ne', hrelease]

theorem peek_spec (n : Nat) : q.peek n = some ((bs.take n).map some) := by
  rw [peek, h.empty_eq]
  by_cases hbs : bs = []
  · subst hbs
    simp
  · rw [decide_eq_false hbs, if_neg Bool.false_ne_true]
    exact extract_spec h (length_pos_iff.2 hbs) n

theorem drop_spec (hpos : 0 < q.length) (hmost : n ≤ bs.length) :
    ∃ q', q.drop n = some (q', 0) ∧ q'.Contains (bs.drop n) ∧ SameSettings q q' := by
  obtain ⟨q', hrelease, hcontains, hsame⟩ := release_spec (contains_advance h hpos hmost)
  refine ⟨q', ?_, hcontains, hsame⟩
  rw [BQueue.drop, h.used_eq, if_pos hmost]
  simp [remainder, if_neg hpos.ne', hrelease]

end

end BQueue

/-! ## Runs -/

/-- The calls of a queue. -/
inductive QueueCall where
  | push (data : List UInt8)
  | pop (length : Nat)
  | peek (length : Nat)
  | drop (length : Nat)
  | clear

/-- What a call gives back. -/
inductive QueueReply where
  | status (code : Int)
  | bytes (cells : Cells)
  | done

namespace BQueue

/-- One call. -/
def step (q : BQueue) : QueueCall → Option (BQueue × QueueReply)
  | .push data => (q.push data).map fun r => (r.1, .status r.2)
  | .pop length => (q.pop length).map fun r => (r.1, .bytes r.2)
  | .peek length => (q.peek length).map fun cells => (q, .bytes cells)
  | .drop length => (q.drop length).map fun r => (r.1, .status r.2)
  | .clear => some (q.clear, .done)

/-- A sequence of calls with their replies. -/
def run (q : BQueue) : List QueueCall → Option (BQueue × List QueueReply)
  | [] => some (q, [])
  | call :: calls => do
      let (q, reply) ← q.step call
      let (q, replies) ← run q calls
      pure (q, reply :: replies)

/-- The cells from `head` to `tail`, read around the end of the buffer. -/
def contents (q : BQueue) : Cells :=
  (List.range q.used).map fun i => (q.memory[(q.head + i) % q.length]?).join

end BQueue

/-- What a call does to a queue of bytes with a limit. -/
def fifoStep (maxLength : Nat) (bs : List UInt8) : QueueCall → List UInt8 × QueueReply
  | .push data =>
    if data.length + bs.length < maxLength then (bs ++ data, .status 0) else (bs, .status (-1))
  | .pop length => (bs.drop length, .bytes ((bs.take length).map some))
  | .peek length => (bs, .bytes ((bs.take length).map some))
  | .drop length => if length ≤ bs.length then (bs.drop length, .status 0) else (bs, .status (-1))
  | .clear => ([], .done)

/-- A sequence of calls on a queue of bytes. -/
def fifoRun (maxLength : Nat) (bs : List UInt8) : List QueueCall → List UInt8 × List QueueReply
  | [] => (bs, [])
  | call :: calls =>
    let (bs, reply) := fifoStep maxLength bs call
    let (bs, replies) := fifoRun maxLength bs calls
    (bs, reply :: replies)

namespace BQueue

variable {q : BQueue} {bs : List UInt8}

section

variable (h : q.Contains bs)

include h

theorem Contains.contents_eq : q.contents = bs.map some := by
  rw [contents, h.used_eq]
  apply ext_getElem?
  intro i
  rw [getElem?_map, getElem?_map]
  by_cases hi : i < bs.length
  · have hcell := h.bytes i hi
    rw [h.size, getElem?_eq_getElem hi, map_some] at hcell
    rw [getElem?_range hi, getElem?_eq_getElem hi, map_some, hcell]
    rfl
  · rw [getElem?_eq_none (by simpa using hi), getElem?_eq_none (by simpa using hi)]
    rfl

/-- One call does to the bytes what it is for, unless it drops nothing from a queue without a
buffer. -/
theorem step_spec (call : QueueCall) (hdrop : call = .drop 0 → 0 < q.length) :
    ∃ q', q.step call = some (q', (fifoStep q.maxLength bs call).2) ∧
      q'.Contains (fifoStep q.maxLength bs call).1 ∧ SameSettings q q' := by
  cases call with
  | push data =>
    by_cases hfits : data.length + bs.length < q.maxLength
    · obtain ⟨q', hpush, hcontains, hsame⟩ := push_spec h hfits
      rw [fifoStep, if_pos hfits]
      exact ⟨q', by rw [step, hpush]; rfl, hcontains, hsame⟩
    · rw [fifoStep, if_neg hfits]
      exact ⟨q, by rw [step, push_refused h hfits]; rfl, h, rfl, rfl⟩
  | pop n =>
    obtain ⟨q', hpop, hcontains, hsame⟩ := pop_spec h n
    exact ⟨q', by rw [step, hpop]; rfl, hcontains, hsame⟩
  | peek n => exact ⟨q, by rw [step, peek_spec h n]; rfl, h, rfl, rfl⟩
  | drop n =>
    by_cases hmost : n ≤ bs.length
    · have hpos : 0 < q.length := by
        rcases Nat.eq_zero_or_pos n with rfl | hn
        · exact hdrop rfl
        · exact h.length_pos (hn.trans_le hmost)
      obtain ⟨q', hq', hcontains, hsame⟩ := drop_spec h hpos hmost
      rw [fifoStep, if_pos hmost]
      exact ⟨q', by rw [step, hq']; rfl, hcontains, hsame⟩
    · rw [fifoStep, if_neg hmost]
      exact ⟨q, by rw [step, BQueue.drop, h.used_eq, if_neg hmost]; rfl, h, rfl, rfl⟩
  | clear => exact ⟨q.trim, rfl, contains_trim q, rfl, rfl⟩

/-- Every sequence of calls does to the bytes what the calls are for. -/
theorem run_spec (calls : List QueueCall) (hdrop : ∀ n, QueueCall.drop n ∈ calls → 1 ≤ n) :
    ∃ q', q.run calls = some (q', (fifoRun q.maxLength bs calls).2) ∧
      q'.Contains (fifoRun q.maxLength bs calls).1 ∧ SameSettings q q' := by
  induction calls generalizing q bs with
  | nil => exact ⟨q, rfl, h, rfl, rfl⟩
  | cons call calls ih =>
    obtain ⟨q₁, hstep, h₁, hsame₁⟩ := step_spec h call fun hzero =>
      absurd (hdrop 0 (hzero ▸ mem_cons_self)) (Nat.not_succ_le_zero 0)
    obtain ⟨q₂, hrun, h₂, hsame₂⟩ := ih h₁ fun n hn => hdrop n (mem_cons_of_mem _ hn)
    rw [hsame₁.1] at hrun h₂
    refine ⟨q₂, ?_, h₂, hsame₁.trans hsame₂⟩
    rw [run, hstep]
    simp only [Option.bind_eq_bind, Option.bind_some, hrun, Option.pure_def]
    rfl

/-- A call is undefined only if it drops nothing from a queue without a buffer. -/
theorem step_eq_none_iff (call : QueueCall) :
    q.step call = none ↔ call = .drop 0 ∧ q.length = 0 := by
  constructor
  · intro hnone
    by_contra hnot
    obtain ⟨q', hstep, -⟩ :=
      step_spec h call fun hdrop => Nat.pos_of_ne_zero fun hzero => hnot ⟨hdrop, hzero⟩
    rw [hnone] at hstep
    cases hstep
  · rintro ⟨rfl, hzero⟩
    simp [step, BQueue.drop, remainder, hzero]

/-- The states of a run hold bytes, whatever the lengths of the calls are. -/
theorem contains_of_run {calls : List QueueCall} {q' : BQueue} {replies : List QueueReply}
    (hrun : q.run calls = some (q', replies)) : ∃ bs', q'.Contains bs' := by
  induction calls generalizing q bs replies with
  | nil =>
    cases hrun
    exact ⟨bs, h⟩
  | cons call calls ih =>
    obtain ⟨⟨q₁, reply⟩, hstep, hrest⟩ := bind_eq_some_iff.1 hrun
    obtain ⟨⟨q₂, replies₂⟩, hcalls, heq⟩ := bind_eq_some_iff.1 hrest
    cases heq
    have hdrop : call = .drop 0 → 0 < q.length := by
      intro hcall
      by_contra hzero
      rw [(step_eq_none_iff h call).2 ⟨hcall, by omega⟩] at hstep
      cases hstep
    obtain ⟨q₁', hstep', h₁, -⟩ := step_spec h call hdrop
    obtain ⟨rfl, -⟩ := Prod.mk.inj (some.inj (hstep.symm.trans hstep'))
    exact ih h₁ hcalls

end

end BQueue

/-- After every sequence of calls from `bqueue_init` the contents and all replies are those of the
list of bytes, no access is undefined, `head` and `tail` are inside the buffer, and the buffer is
not larger than the limit. -/
theorem bqueue_is_fifo {maxLength : Nat} (hmax : 1 < maxLength) (shrinks : Bool)
    (calls : List QueueCall) (hdrop : ∀ n, QueueCall.drop n ∈ calls → 1 ≤ n) :
    ∃ q₀ q, BQueue.init maxLength shrinks = some q₀ ∧
      q₀.run calls = some (q, (fifoRun maxLength [] calls).2) ∧
      q.contents = (fifoRun maxLength [] calls).1.map some ∧
      q.memory.length = q.length ∧ q.length ≤ maxLength ∧
      (0 < q.length → q.head < q.length ∧ q.tail < q.length) ∧
      (q.length = 0 → q.head = 0 ∧ q.tail = 0) := by
  have hempty : (BQueue.mk [] 0 0 0 maxLength shrinks).Contains [] :=
    BQueue.contains_trim ⟨[], 0, 0, 0, maxLength, shrinks⟩
  obtain ⟨q, hrun, h, hmax', -⟩ := BQueue.run_spec hempty calls hdrop
  have hlayout := h.layout
  refine ⟨_, q, if_neg (by omega), hrun, h.contents_eq, h.size, ?_, ?_, ?_⟩
  · exact h.limit.trans hmax'.le
  · intro hpos
    exact ⟨h.head hpos, by omega⟩
  · intro hzero
    exact ⟨(h.null hzero).1, by omega⟩

/-- A queue that grows, goes around its end and shrinks. -/
theorem bqueue_is_fifo_shrinks :
    ∃ q₀ q, BQueue.init 9 true = some q₀ ∧
      q₀.run [.push [1, 2, 3, 4, 5, 6], .pop 4, .push [7, 8, 9], .drop 4, .peek 5] =
        some (q,
          (fifoRun 9 [] [.push [1, 2, 3, 4, 5, 6], .pop 4, .push [7, 8, 9], .drop 4, .peek 5]).2) ∧
      q.contents = [some 9] ∧ q.memory.length = q.length ∧ q.length ≤ 9 ∧
      (0 < q.length → q.head < q.length ∧ q.tail < q.length) ∧
      (q.length = 0 → q.head = 0 ∧ q.tail = 0) :=
  bqueue_is_fifo (by decide) true _ (by simp)

/-- In every state that calls with any lengths lead to, the one call that is undefined, by a
remainder by zero, is dropping no bytes from a queue without a buffer. -/
theorem remainder_by_zero_iff {maxLength : Nat} {shrinks : Bool} {q₀ q : BQueue}
    {calls : List QueueCall} {replies : List QueueReply}
    (hinit : BQueue.init maxLength shrinks = some q₀) (hrun : q₀.run calls = some (q, replies))
    (call : QueueCall) : q.step call = none ↔ call = .drop 0 ∧ q.length = 0 := by
  obtain ⟨-, hq₀⟩ := ite_none_left_eq_some.1 hinit
  have hempty : q₀.Contains [] := by
    rw [← some.inj hq₀]
    exact BQueue.contains_trim ⟨[], 0, 0, 0, maxLength, shrinks⟩
  obtain ⟨bs, h⟩ := BQueue.contains_of_run hempty hrun
  exact BQueue.step_eq_none_iff h call

/-- Requests for zero bytes on a queue with a buffer. -/
theorem remainder_by_zero_iff_zero_lengths :
    ∃ q₀ q replies, BQueue.init 4 true = some q₀ ∧
      q₀.run [.push [], .drop 0, .push [1, 2], .pop 0, .drop 0] = some (q, replies) ∧
        q.step (.drop 0) ≠ none := by
  have hinit : BQueue.init 4 true = some ⟨[], 0, 0, 0, 4, true⟩ := rfl
  have hrun : BQueue.run ⟨[], 0, 0, 0, 4, true⟩ [.push [], .drop 0, .push [1, 2], .pop 0, .drop 0] =
      some (⟨[some 1, some 2, none], 0, 2, 3, 4, true⟩, _) := rfl
  exact ⟨_, _, _, hinit, hrun, mt (remainder_by_zero_iff hinit hrun (.drop 0)).1 (by simp)⟩

/-- A new queue, and one that was emptied, take a remainder by zero when nothing is dropped from
them. -/
theorem drop_of_nothing_divides_by_zero :
    ((BQueue.init 2 false).bind fun q => q.step (.drop 0)) = none ∧
      (∃ q₀ q replies, BQueue.init 4 true = some q₀ ∧
        q₀.run [.push [1], .pop 1] = some (q, replies) ∧
        q.drop 0 = none ∧ BQueue.remainder (q.head + 0) q.length = none) :=
  ⟨rfl, _, _, _, rfl, rfl, rfl, rfl⟩

end WazAISentinel.Shared
