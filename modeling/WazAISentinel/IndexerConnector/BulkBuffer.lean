import WazAISentinel.IndexerConnector.SyncImpl

/-!
# The buffer of the connector and its parts

The positions recorded for a list of operations (`ends`) and how they split. `Holds` says that a
slice of the buffer contains a given run of operations, `Outcome.Ends` what holds when a call ends,
and `Sends` that a call did nothing but send requests.

`chunkBodies` is what `processBulkChunk` sends to a server that accepts exactly the bodies up to a
limit, without the repetitions after busy answers: when the run `B` of a buffer `A ++ B ++ C` has to
be split, the body of its first half is all of `A ++ B₁` and the body of its second half is all of
`B₂ ++ C`. So batches are delivered as they are exactly if one split is enough for each.
-/

namespace WazAISentinel.IndexerConnector

open List

/-! ## Positions -/

/-- The operations' texts, one after the other. -/
def texts (ops : List Operation) : Text := ops.flatMap Operation.text

/-- The length of the operations' texts. -/
def size (ops : List Operation) : Nat := (texts ops).length

/-- The positions where the operations end, if the first of them starts at `position`. -/
def ends : Nat → List Operation → List Nat
  | _, [] => []
  | position, op :: ops => (position + op.text.length) :: ends (position + op.text.length) ops

@[simp] theorem texts_nil : texts [] = [] := rfl

@[simp] theorem texts_append (A B : List Operation) : texts (A ++ B) = texts A ++ texts B := by
  simp [texts]

@[simp] theorem size_nil : size [] = 0 := rfl

@[simp] theorem size_cons (op : Operation) (ops : List Operation) :
    size (op :: ops) = op.text.length + size ops := by
  simp [size, texts]

@[simp] theorem size_append (A B : List Operation) : size (A ++ B) = size A + size B := by
  simp [size]

variable {ops : List Operation} {position : Nat} {op : Operation}

theorem size_pos (hops : ops ≠ []) (hne : ∀ op ∈ ops, op.text ≠ []) : 0 < size ops := by
  cases ops with
  | nil => exact absurd rfl hops
  | cons op ops =>
    have hop := length_pos_iff.2 (hne op (by simp))
    rw [size_cons]
    omega

@[simp] theorem length_ends : (ends position ops).length = ops.length := by
  induction ops generalizing position with
  | nil => rfl
  | cons op ops ih => simp [ends, ih]

theorem ends_ne_nil (hops : ops ≠ []) : ends position ops ≠ [] := by
  cases ops with
  | nil => exact absurd rfl hops
  | cons op ops => simp [ends]

theorem ends_append (position : Nat) (A B : List Operation) :
    ends position (A ++ B) = ends position A ++ ends (position + size A) B := by
  induction A generalizing position with
  | nil => simp [ends]
  | cons op A ih => simp [ends, ih, Nat.add_assoc]

/-- The last position recorded for a list is where the list ends. -/
theorem getD_ends (position : Nat) {A : List Operation} (hA : A ≠ []) (B : List Operation) :
    (ends position (A ++ B)).getD (A.length - 1) 0 = position + size A := by
  obtain ⟨A, op, rfl⟩ := (eq_nil_or_concat' A).resolve_left hA
  have hlength : (A ++ [op]).length - 1 = (ends position A).length := by simp
  rw [append_assoc, ends_append, hlength, getD_eq_getElem?_getD,
    getElem?_append_right (Nat.le_refl _)]
  simp [ends, Nat.add_assoc]

/-- A list of at least two operations splits at the middle, and its positions split with it. -/
theorem ends_split {B : List Operation} (hB : 1 < B.length) (position : Nat) :
    ∃ B₁ B₂, B = B₁ ++ B₂ ∧ B₁ ≠ [] ∧ B₂ ≠ [] ∧ B₁.length = B.length / 2 ∧
      (ends position B).getD (B.length / 2 - 1) 0 = position + size B₁ ∧
      (ends position B).take (B.length / 2) = ends position B₁ ∧
      (ends position B).drop (B.length / 2) = ends (position + size B₁) B₂ := by
  have hlength : (B.take (B.length / 2)).length = B.length / 2 := by
    rw [length_take]
    omega
  have hfirst : B.take (B.length / 2) ≠ [] := by
    intro h
    rw [h, length_nil] at hlength
    omega
  have hsecond : B.drop (B.length / 2) ≠ [] := by
    rw [Ne, drop_eq_nil_iff]
    omega
  have hends : ends position B = ends position (B.take (B.length / 2)) ++
      ends (position + size (B.take (B.length / 2))) (B.drop (B.length / 2)) := by
    rw [← ends_append, take_append_drop]
  refine ⟨B.take (B.length / 2), B.drop (B.length / 2), (take_append_drop _ _).symm, hfirst,
    hsecond, hlength, ?_, ?_, ?_⟩
  · have h := getD_ends position hfirst (B.drop (B.length / 2))
    rwa [take_append_drop, hlength] at h
  · rw [hends]
    exact take_left' (by rw [length_ends, hlength])
  · rw [hends]
    exact drop_left' (by rw [length_ends, hlength])

/-! ## The texts of the operations -/

/-- The fixed parts are variables here: their literals would be evaluated whenever one of them is
compared with another. -/
theorem length_actionLine {opening field closing line : Text} (id index : Text)
    (hfield : field.length = 9) (hclosing : closing.length = 3) (hline : line.length = 1) :
    (opening ++ index ++ field ++ id ++ closing ++ line).length = opening.length + 9 + 3 +
      index.length + id.length + 1 := by
  simp only [length_append, hfield, hclosing, hline]
  omega

/-- The text of a delete operation is one longer than the source estimates. -/
theorem length_deleteText (id index : Text) :
    (Connector.deleteText id index).length =
    deleteFormattedLength + index.length + id.length + 1 :=
  length_actionLine id index (by decide) (by decide) (by decide)

/-- The text of an index operation is one longer than the source estimates. -/
theorem length_indexText (id index data : Text) :
    (Connector.indexText id index data).length =
    formattedLength + index.length + id.length + data.length + 1 := by
  have hadd : ∀ action line : Text, action.length = 20 + 9 + 3 + index.length + id.length + 1 →
      line.length = 1 → (action ++ data ++ line).length =
        formattedLength + index.length + id.length + data.length + 1 := by
    intro action line haction hline
    simp only [length_append, haction, hline, formattedLength]
    omega
  exact hadd _ _ (length_actionLine id index (by decide) (by decide) (by decide)) (by decide)

/-! ## Slices -/

theorem coveredFrom_append (start stop position : Nat) (A B : List Operation) :
    coveredFrom start stop position (A ++ B) =
      coveredFrom start stop position A ++ coveredFrom start stop (position + size A) B := by
  induction A generalizing position with
  | nil => rfl
  | cons a A ih =>
    rw [cons_append, coveredFrom, coveredFrom, ih, size_cons, Nat.add_assoc]
    split
    · rfl
    · rfl

/-- A slice that contains all operations covers each of them. -/
theorem coveredFrom_all {start stop : Nat} (hstart : start ≤ position)
    (hstop : position + size ops ≤ stop) :
    coveredFrom start stop position ops = ops.map Operation.number := by
  induction ops generalizing position with
  | nil => rfl
  | cons op ops ih =>
    rw [size_cons] at hstop
    rw [coveredFrom, ih (by omega) (by omega), if_pos ⟨hstart, by omega⟩, map_cons]

/-- The slice from `start` to `stop` contains the operations `B` of the buffer `A ++ B ++ C`. -/
structure Holds (c : Connector) (A B C : List Operation) (start stop : Nat) : Prop where
  buffered : c.buffered = A ++ (B ++ C)
  bulkData : c.bulkData = texts c.buffered
  start_le : start ≤ size A
  le_stop : size A + size B ≤ stop
  stop_le : stop ≤ c.bulkData.length

namespace Holds

variable {c : Connector} {A B B₁ B₂ C : List Operation} {start stop : Nat}

theorem length_bulkData (h : Holds c A B C start stop) :
    c.bulkData.length = size A + size B + size C := by
  rw [h.bulkData, h.buffered, ← size, size_append, size_append]
  omega

theorem covers (h : Holds c A B C start stop) (hop : op ∈ B) :
    op.number ∈ coveredFrom start stop 0 c.buffered := by
  have hB : coveredFrom start stop (0 + size A) B = B.map Operation.number :=
    coveredFrom_all (by simpa using h.start_le) (by simpa using h.le_stop)
  rw [h.buffered, coveredFrom_append, coveredFrom_append, hB]
  exact mem_append_right _ (mem_append_left _ (mem_map_of_mem hop))

theorem inBounds (h : Holds c A B C start stop) : start ≤ stop ∧ stop ≤ c.bulkData.length := by
  have hstart := h.start_le
  have hstop := h.le_stop
  exact ⟨by omega, h.stop_le⟩

/-- The view of the first half starts at the beginning of the buffer. -/
theorem first (h : Holds c A (B₁ ++ B₂) C start stop) :
    Holds c A B₁ (B₂ ++ C) 0 (size A + size B₁) := by
  have hlength := h.length_bulkData
  rw [size_append] at hlength
  exact ⟨by rw [h.buffered, append_assoc], h.bulkData, Nat.zero_le _, Nat.le_refl _, by omega⟩

/-- The view of the second half ends at the end of the buffer. -/
theorem second (h : Holds c A (B₁ ++ B₂) C start stop) :
    Holds c (A ++ B₁) B₂ C (size A + size B₁) c.bulkData.length := by
  have hlength := h.length_bulkData
  rw [size_append] at hlength
  refine ⟨by simp [h.buffered], h.bulkData, by simp, ?_, Nat.le_refl _⟩
  rw [size_append]
  omega

theorem congr {t : Connector} (h : Holds c A B C start stop) (hbuffered : t.buffered = c.buffered)
    (hdata : t.bulkData = c.bulkData) : Holds t A B C start stop :=
  ⟨by rw [hbuffered, h.buffered], by rw [hdata, h.bulkData, hbuffered], h.start_le, h.le_stop,
    by rw [hdata]; exact h.stop_le⟩

end Holds

/-! ## Buffers that agree with their operations -/

/-- The buffer and the recorded positions agree with the buffered operations. -/
structure Consistent (c : Connector) : Prop where
  bulkData : c.bulkData = texts c.buffered
  boundaries : c.boundaries = ends 0 c.buffered
  nonempty : ∀ op ∈ c.buffered, op.text ≠ []

namespace Consistent

variable {c : Connector}

/-- The whole buffer is a slice that contains every operation. -/
theorem holds (h : Consistent c) : Holds c [] c.buffered [] 0 c.bulkData.length := by
  refine ⟨by simp, h.bulkData, Nat.zero_le _, ?_, Nat.le_refl _⟩
  simp [h.bulkData, size]

theorem buffered_eq_nil (h : Consistent c) (hdata : c.bulkData = []) : c.buffered = [] := by
  by_contra hbuffered
  have hpos := size_pos hbuffered h.nonempty
  rw [size, ← h.bulkData, hdata] at hpos
  exact absurd hpos (Nat.lt_irrefl 0)

/-- A buffer without text and positions. -/
theorem cleared (hdata : c.bulkData = []) (hboundaries : c.boundaries = [])
    (hbuffered : c.buffered = []) : Consistent c :=
  ⟨by rw [hdata, hbuffered, texts_nil], by rw [hboundaries, hbuffered, ends], by simp [hbuffered]⟩

theorem append (h : Consistent c) {text : Text} (htext : text ≠ []) :
    Consistent (c.append text) := by
  refine ⟨?_, ?_, ?_⟩
  · simp [Connector.append, h.bulkData, texts]
  · simp [Connector.append, h.boundaries, ends_append, ends, h.bulkData, size]
  · exact forall_mem_append.2 ⟨h.nonempty, forall_mem_singleton.2 htext⟩

/-- The two halves of a buffer with at least two operations, and the positions of each. -/
theorem split (h : Consistent c) (hlength : 1 < c.boundaries.length) :
    ∃ B₁ B₂, c.buffered = B₁ ++ B₂ ∧ B₁ ≠ [] ∧ B₂ ≠ [] ∧ B₁.length = c.buffered.length / 2 ∧
      0 < size B₁ ∧ size B₁ < c.bulkData.length ∧
        c.boundaries.getD (c.boundaries.length / 2 - 1) 0 = size B₁ ∧
      c.boundaries.take (c.boundaries.length / 2) = ends 0 B₁ ∧
        c.boundaries.drop (c.boundaries.length / 2) = ends (size B₁) B₂ ∧
      Holds c [] B₁ B₂ 0 (size B₁) ∧ Holds c B₁ B₂ [] (size B₁) c.bulkData.length := by
  rw [h.boundaries, length_ends] at hlength
  obtain ⟨B₁, B₂, hB, hB₁, hB₂, hlength₁, hposition, hfirst, hsecond⟩ := ends_split hlength 0
  have hheld : Holds c [] (B₁ ++ B₂) [] 0 c.bulkData.length := hB ▸ h.holds
  have hpos₁ := size_pos hB₁ fun op hop => h.nonempty op (by simp [hB, hop])
  have hpos₂ := size_pos hB₂ fun op hop => h.nonempty op (by simp [hB, hop])
  have hdata := hheld.length_bulkData
  simp only [size_nil, size_append, Nat.zero_add, Nat.add_zero] at hdata hposition hsecond
  rw [h.boundaries, length_ends]
  refine ⟨B₁, B₂, hB, hB₁, hB₂, hlength₁, hpos₁, by omega, hposition, hfirst, hsecond, ?_, ?_⟩
  · simpa using hheld.first
  · simpa using hheld.second

end Consistent

/-! ## Outcomes -/

/-- What holds when a call returns and when it throws; `U` must hold if it leaves the buffer. -/
def Outcome.Ends (U : Prop) (returned thrown : Connector → Prop) : Outcome → Prop
  | .done c => returned c
  | .thrown _ c => thrown c
  | .waiting => True
  | .undefined => U

namespace Outcome

variable {U V : Prop} {P Q R T : Connector → Prop} {o : Outcome} {next : Connector → Outcome}

/-- The rule for a sequence of two statements. -/
theorem Ends.andThen (h : o.Ends U P T) (hnext : ∀ c, P c → (next c).Ends U Q T) :
    (o.andThen next).Ends U Q T := by
  cases o with
  | done c => exact hnext c h
  | thrown message c => exact h
  | waiting => trivial
  | undefined => exact h

theorem Ends.mono (h : o.Ends U P T) (hU : U → V) (hP : ∀ c, P c → Q c) (hT : ∀ c, T c → R c) :
    o.Ends V Q R := by
  cases o with
  | done c => exact hP c h
  | thrown message c => exact hT c h
  | waiting => trivial
  | undefined => exact hU h

end Outcome

/-- Nothing but requests and their answers lies between the two states. -/
def Sends (c t : Connector) : Prop :=
  ∃ entries rest, t = { c with log := entries ++ c.log, replies := rest } ∧
    ∀ e ∈ entries, ∀ callback, e ≠ .invoked callback

namespace Sends

variable {c t u : Connector}

theorem refl (c : Connector) : Sends c c := ⟨[], c.replies, rfl, by simp⟩

section

variable (h : Sends c t)

include h

theorem trans (h' : Sends t u) : Sends c u := by
  obtain ⟨es, rest, rfl, hes⟩ := h
  obtain ⟨es', rest', rfl, hes'⟩ := h'
  exact ⟨es' ++ es, rest', by simp, forall_mem_append.2 ⟨hes', hes⟩⟩

theorem buffered : t.buffered = c.buffered := by
  obtain ⟨es, rest, rfl, -⟩ := h
  rfl

theorem bulkData : t.bulkData = c.bulkData := by
  obtain ⟨es, rest, rfl, -⟩ := h
  rfl

theorem boundaries : t.boundaries = c.boundaries := by
  obtain ⟨es, rest, rfl, -⟩ := h
  rfl

theorem stopping : t.stopping = c.stopping := by
  obtain ⟨es, rest, rfl, -⟩ := h
  rfl

theorem log_subset {e : Entry} (he : e ∈ c.log) : e ∈ t.log := by
  obtain ⟨es, rest, rfl, -⟩ := h
  exact mem_append_right _ he

end

end Sends

/-- The rule for a request: the handler is reached with the next answer of the server and one more
entry in the log. -/
theorem Connector.ends_post {U : Prop} {P T : Connector → Prop} {c : Connector} {request : Request}
    {operations : List Nat} {handler : Answer → Connector → Outcome}
    (h : ∀ answer t, (∃ reply, c.replies = reply :: t.replies ∧ reply request = answer) →
    Sends c t → .answered request operations answer ∈ t.log → (handler answer t).Ends U P T) :
    (c.post request operations handler).Ends U P T := by
  unfold Connector.post
  cases hreplies : c.replies with
  | nil => trivial
  | cons reply rest =>
    apply h
    · exact ⟨reply, hreplies, rfl⟩
    · exact ⟨[.answered request operations (reply request)], rest, rfl, by simp⟩
    · exact mem_cons_self

/-! ## The bodies a batch is cut into -/

/-- The accepted bodies of a chunk sent as `body` for the run `B`; nothing if an operation is too
large. -/
def chunkBodies (limit : Nat) (A B C : List Operation) (body : Text) : Option (List Text) :=
  if body.length ≤ limit then some [body]
  else if 1 < B.length then
    let B₁ := B.take (B.length / 2)
    let B₂ := B.drop (B.length / 2)
    (chunkBodies limit A B₁ (B₂ ++ C) (texts (A ++ B₁))).bind fun first =>
      (chunkBodies limit (A ++ B₁) B₂ C (texts (B₂ ++ C))).map fun second => first ++ second
  else none
termination_by B.length
decreasing_by
  · simp only [length_take]
    omega
  · simp only [length_drop]
    omega

/-- The accepted bodies of a batch. -/
def batchBodies (limit : Nat) (B : List Operation) : Option (List Text) :=
  if size B ≤ limit then some [texts B]
  else if 1 < B.length then
    let B₁ := B.take (B.length / 2)
    let B₂ := B.drop (B.length / 2)
    (chunkBodies limit [] B₁ B₂ (texts B₁)).bind fun first =>
      (chunkBodies limit B₁ B₂ [] (texts B₂)).map fun second => first ++ second
  else none

/-- The batch is accepted as a whole or in two halves. -/
def Fits (limit : Nat) (B : List Operation) : Prop :=
  size B ≤ limit ∨
    (size (B.take (B.length / 2)) ≤ limit ∧ size (B.drop (B.length / 2)) ≤ limit)

instance (limit : Nat) (B : List Operation) : Decidable (Fits limit B) :=
  inferInstanceAs (Decidable (_ ∨ _))

variable {limit : Nat} {A B C : List Operation} {body : Text} {bodies : List Text}

theorem chunkBodies_of_le (h : body.length ≤ limit) :
    chunkBodies limit A B C body = some [body] := by
  rw [chunkBodies, if_pos h]

theorem chunkBodies_of_single (h : limit < body.length) (hB : B.length ≤ 1) :
    chunkBodies limit A B C body = none := by
  rw [chunkBodies, if_neg (by omega), if_neg (by omega)]

variable {B₁ B₂ : List Operation} {Bs : List (List Operation)}

theorem chunkBodies_of_split (h : limit < body.length) (hlength : B₁.length = (B₁ ++ B₂).length / 2)
    (hB : 1 < (B₁ ++ B₂).length) :
    chunkBodies limit A (B₁ ++ B₂) C body =
      (chunkBodies limit A B₁ (B₂ ++ C) (texts (A ++ B₁))).bind fun first =>
        (chunkBodies limit (A ++ B₁) B₂ C (texts (B₂ ++ C))).map fun second => first ++ second := by
  rw [chunkBodies, if_neg (by omega), if_pos hB, ← hlength, take_left, drop_left]

section

variable (hbodies : chunkBodies limit A B C body = some bodies)

include hbodies

/-- The two halves of a run in which a split results, each with its bodies. -/
theorem chunkBodies_cases :
    (body.length ≤ limit ∧ bodies = [body]) ∨
    (limit < body.length ∧ ∃ B₁ B₂ first second, B = B₁ ++ B₂ ∧ B₁ ≠ [] ∧ B₂ ≠ [] ∧
      B₁.length = B.length / 2 ∧
      bodies = first ++ second ∧ chunkBodies limit A B₁ (B₂ ++ C) (texts (A ++ B₁)) = some first ∧
      chunkBodies limit (A ++ B₁) B₂ C (texts (B₂ ++ C)) = some second) := by
  rcases Nat.lt_or_ge limit body.length with hlong | hshort
  · right
    refine ⟨hlong, ?_⟩
    rcases Nat.lt_or_ge 1 B.length with hB | hB
    · obtain ⟨B₁, B₂, rfl, hB₁, hB₂, hlength, -⟩ := ends_split hB 0
      rw [chunkBodies_of_split hlong hlength hB, Option.bind_eq_some_iff] at hbodies
      obtain ⟨first, hfirst, hrest⟩ := hbodies
      obtain ⟨second, hsecond, rfl⟩ := Option.map_eq_some_iff.1 hrest
      exact ⟨B₁, B₂, first, second, rfl, hB₁, hB₂, hlength, rfl, hfirst, hsecond⟩
    · rw [chunkBodies_of_single hlong hB] at hbodies
      cases hbodies
  · left
    rw [chunkBodies_of_le hshort] at hbodies
    exact ⟨hshort, (Option.some.inj hbodies).symm⟩

/-- A chunk delivers at least its run, and more if its body is longer, as that of every chunk that
is split while other operations are in the buffer. -/
theorem size_le_of_chunkBodies (hle : size B ≤ body.length) :
    size B ≤ bodies.flatten.length ∧
      (size B < body.length ∧ body.length ≤ limit ∨ 0 < size A + size C ∧ limit < body.length →
        size B < bodies.flatten.length) := by
  -- induction on the length of the run: both halves of a split are shorter
  induction hn : B.length using Nat.strong_induction_on generalizing A B C body bodies with
  | _ n ih =>
    subst hn
    rcases chunkBodies_cases hbodies
        with ⟨hshort, rfl⟩ | ⟨hlong, B₁, B₂, first, second, rfl, hB₁, hB₂, -, rfl, hfirst, hsecond⟩
    · simp only [flatten_cons, flatten_nil, append_nil]
      exact ⟨hle, by omega⟩
    · have hbody₁ : (texts (A ++ B₁)).length = size A + size B₁ := by rw [← size, size_append]
      have hbody₂ : (texts (B₂ ++ C)).length = size B₂ + size C := by rw [← size, size_append]
      obtain ⟨hle₁, hmore₁⟩ := ih _ (by simpa using length_pos_iff.2 hB₂) hfirst (by omega) rfl
      obtain ⟨hle₂, hmore₂⟩ :=
        ih _ (by simpa using length_pos_iff.2 hB₁) hsecond (by omega) rfl
      simp only [size_append, flatten_append, length_append] at hmore₁ hmore₂ ⊢
      refine ⟨by omega, ?_⟩
      --  operations before the run are sent again with its first half, those after it with its
      -- second
      rintro (⟨_, hshort⟩ | ⟨hother, _⟩)
      · omega
      · rcases Nat.eq_zero_or_pos (size A) with hA | hA
        · have := hmore₂ (by omega)
          omega
        · have := hmore₁ (by omega)
          omega

/-- A chunk that is split while other operations are in the buffer delivers too much. -/
theorem size_lt_of_chunkBodies (hbody : body.length = size B) (hother : 0 < size A + size C)
    (hlong : limit < size B) : size B < bodies.flatten.length :=
  (size_le_of_chunkBodies hbodies (by omega)).2 (.inr ⟨hother, by omega⟩)

end

/-! ## Batches -/

/-- A batch is a chunk with nothing around it. -/
theorem batchBodies_eq : batchBodies limit B = chunkBodies limit [] B [] (texts B) := by
  rw [batchBodies, chunkBodies]
  simp [size]

/-- A batch that fits is delivered as it is. -/
theorem batchBodies_of_fits (hfits : Fits limit B) (hsingle : ∀ op ∈ B, op.text.length ≤ limit) :
    ∃ bodies, batchBodies limit B = some bodies ∧ bodies.flatten = texts B := by
  rcases Nat.lt_or_ge limit (size B) with hlong | hshort
  · have hB : 1 < B.length := by
      rcases B with _ | ⟨op, _ | ⟨op', B⟩⟩
      · simp at hlong
      · have hop := hsingle op (by simp)
        simp only [size_cons, size_nil] at hlong
        omega
      · simp
    obtain ⟨hle₁, hle₂⟩ := hfits.resolve_left (by omega)
    obtain ⟨B₁, B₂, rfl, -, -, hlength, -⟩ := ends_split hB 0
    rw [← hlength, take_left] at hle₁
    rw [← hlength, drop_left] at hle₂
    refine ⟨[texts B₁] ++ [texts B₂], ?_, by simp⟩
    rw [batchBodies_eq, chunkBodies_of_split hlong hlength hB, append_nil, nil_append,
      chunkBodies_of_le hle₁, chunkBodies_of_le hle₂]
    rfl
  · exact ⟨[texts B], batchBodies_eq.trans (chunkBodies_of_le hshort), by simp⟩

/-- A batch is never delivered in part, and one that does not fit is delivered with repetitions. -/
theorem size_le_of_batchBodies (hbodies : batchBodies limit B = some bodies)
    (hne : ∀ op ∈ B, op.text ≠ []) :
    size B ≤ bodies.flatten.length ∧ (¬ Fits limit B → size B < bodies.flatten.length) := by
  rw [batchBodies_eq] at hbodies
  refine ⟨(size_le_of_chunkBodies hbodies (Nat.le_refl _)).1, ?_⟩
  intro hfits
  simp only [Fits, not_or, not_and_or, not_le] at hfits
  rcases chunkBodies_cases hbodies
      with ⟨hshort, -⟩ | ⟨-, B₁, B₂, first, second, rfl, hB₁, hB₂, hlength, rfl, hfirst, hsecond⟩
  · exact absurd hshort (Nat.not_le.2 hfits.1)
  · rw [← hlength, take_left, drop_left] at hfits
    rw [append_nil] at hfirst hsecond
    have hpos₁ := size_pos hB₁ fun op hop => hne op (by simp [hop])
    have hpos₂ := size_pos hB₂ fun op hop => hne op (by simp [hop])
    have hle₁ := (size_le_of_chunkBodies hfirst (Nat.le_refl _)).1
    have hle₂ := (size_le_of_chunkBodies hsecond (Nat.le_refl _)).1
    simp only [size_append, flatten_append, length_append]
    -- one of the halves is split again while the other one is in the buffer
    rcases hfits.2 with hlong₁ | hlong₂
    · have := size_lt_of_chunkBodies hfirst rfl (by omega) hlong₁
      omega
    · have := size_lt_of_chunkBodies hsecond rfl (Nat.lt_add_right _ hpos₁) hlong₂
      omega

/-- The accepted bodies of one batch after the other. -/
def allBodies (limit : Nat) : List (List Operation) → Option (List Text)
  | [] => some []
  | B :: Bs => (batchBodies limit B).bind fun first =>
    (allBodies limit Bs).map fun second => first ++ second

theorem allBodies_cons_eq_some :
    allBodies limit (B :: Bs) = some bodies ↔ ∃ first second, batchBodies limit B = some first ∧
      allBodies limit Bs = some second ∧ bodies = first ++ second := by
  simp [allBodies, Option.bind_eq_some_iff, @eq_comm _ bodies]

theorem allBodies_singleton : allBodies limit [B] = batchBodies limit B := by
  cases hbodies : batchBodies limit B with
  | none | some bodies => simp [allBodies, hbodies]

theorem allBodies_of_fits (hfits : ∀ B ∈ Bs, Fits limit B)
    (hsingle : ∀ B ∈ Bs, ∀ op ∈ B, op.text.length ≤ limit) :
    ∃ bodies, allBodies limit Bs = some bodies ∧ bodies.flatten = texts Bs.flatten := by
  induction Bs with
  | nil => exact ⟨[], rfl, rfl⟩
  | cons B Bs ih =>
    rw [forall_mem_cons] at hfits hsingle
    obtain ⟨first, hfirst, htexts₁⟩ := batchBodies_of_fits hfits.1 hsingle.1
    obtain ⟨second, hsecond, htexts₂⟩ := ih hfits.2 hsingle.2
    refine ⟨first ++ second, allBodies_cons_eq_some.2 ⟨first, second, hfirst, hsecond, rfl⟩, ?_⟩
    rw [flatten_append, htexts₁, htexts₂, flatten_cons, texts_append]

theorem size_le_of_allBodies (hbodies : allBodies limit Bs = some bodies)
    (hne : ∀ B ∈ Bs, ∀ op ∈ B, op.text ≠ []) :
    size Bs.flatten ≤ bodies.flatten.length ∧
      (bodies.flatten.length ≤ size Bs.flatten → ∀ B ∈ Bs, Fits limit B) := by
  induction Bs generalizing bodies with
  | nil => simp
  | cons B Bs ih =>
    obtain ⟨first, second, hfirst, hsecond, rfl⟩ := allBodies_cons_eq_some.1 hbodies
    rw [forall_mem_cons] at hne ⊢
    obtain ⟨hle₁, hmore⟩ := size_le_of_batchBodies hfirst hne.1
    obtain ⟨hle₂, hall⟩ := ih hsecond hne.2
    simp only [flatten_cons, size_append, flatten_append, length_append]
    refine ⟨by omega, fun hle => ⟨?_, hall (by omega)⟩⟩
    by_contra hfits
    have := hmore hfits
    omega

/-- The batches are delivered in order and without repetition exactly if each of them fits. -/
theorem allBodies_flatten_iff (hne : ∀ B ∈ Bs, ∀ op ∈ B, op.text ≠ [])
    (hsingle : ∀ B ∈ Bs, ∀ op ∈ B, op.text.length ≤ limit) :
    (∃ bodies, allBodies limit Bs = some bodies ∧ bodies.flatten = texts Bs.flatten) ↔
      ∀ B ∈ Bs, Fits limit B := by
  constructor
  · rintro ⟨bodies, hbodies, htexts⟩
    apply (size_le_of_allBodies hbodies hne).2
    rw [htexts, size]
  · intro hfits
    exact allBodies_of_fits hfits hsingle

/-! ## How the calls form batches -/

/-- The batches of the operations when `current` is in the buffer: a batch ends before an operation
that would make it too long. -/
def batchesFrom (maxBulkSize : Nat) : List Operation → List Operation → List (List Operation)
  | current, [] => if current = [] then [] else [current]
  | current, op :: ops =>
    if maxBulkSize < size current + (op.text.length - 1) then
      current :: batchesFrom maxBulkSize [op] ops
    else batchesFrom maxBulkSize (current ++ [op]) ops

theorem flatten_batchesFrom (maxBulkSize : Nat) (current ops : List Operation) :
    (batchesFrom maxBulkSize current ops).flatten = current ++ ops := by
  induction ops generalizing current with
  | nil =>
    rw [batchesFrom]
    split_ifs with hempty
    · simp [hempty]
    · simp
  | cons op ops ih =>
    rw [batchesFrom]
    split
    · rw [flatten_cons, ih]
      simp
    · rw [ih]
      simp

end WazAISentinel.IndexerConnector
