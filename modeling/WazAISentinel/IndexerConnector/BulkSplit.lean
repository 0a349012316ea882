import WazAISentinel.IndexerConnector.BulkBuffer

/-!
# Splitting against a server with a limit

The server answers 413 to a body longer than a limit; a shorter body it may refuse with 409 or 429
for a while and then accepts. The connector sends such a server what `SplitBodies` says: the refused
requests change nothing but the number of replies that are used up. A half that has to be split
again is sent together with what is around it in the buffer, which repeats operations or exceeds the
limit.
-/

namespace WazAISentinel.IndexerConnector

open List

/-! ## The server -/

/-- An answer after which the connector sends the request again. -/
def Answer.Busy (answer : Answer) : Prop :=
  ∃ message status, answer = .error message status ∧
    (status = httpVersionConflict ∨ status = httpTooManyRequests)

/-- A server that refuses exactly the bodies longer than the limit and accepts the others sooner or
later; `reply k` answers request `k`. -/
structure LimitServer (limit : Nat) (reply : Nat → Request → Answer) : Prop where
  large : ∀ k body, limit < body.length →
    ∃ message, reply k (.bulk body) = .error message httpContentLength
  small : ∀ k body, body.length ≤ limit →
    reply k (.bulk body) = .success ∨ (reply k (.bulk body)).Busy
  fair : ∀ k body, body.length ≤ limit → ∃ wait, reply (k + wait) (.bulk body) = .success

/-- The bodies of the requests answered with success, in the order of the answers. -/
def accepted : List Entry → Text
  | [] => []
  | .answered (.bulk body) _ .success :: older => accepted older ++ body
  | _ :: older => accepted older

@[simp] theorem accepted_error (request : Request) (operations : List Nat) (message : String)
    (status : Int) (older : List Entry) :
    accepted (.answered request operations (.error message status) :: older) = accepted older := by
  cases request with
  | deleteByQuery index agentIds => rfl
  | bulk body => rfl

/-- The connector when the next `m` replies are those from number `k` on. -/
def Connector.serve (c : Connector) (reply : Nat → Request → Answer) (k m : Nat) : Connector :=
  { c with replies := (range' k m).map reply }

/-- The connector with one more entry in its log. -/
def Connector.record (c : Connector) (e : Entry) : Connector := { c with log := e :: c.log }

/-- The call returns in the state `t` if there are bodies, and throws if there are none. -/
def Outcome.Follows (o : Outcome) (bodies : Option (List Text)) (t : Connector) : Prop :=
  match bodies with
  | some _ => o = .done t
  | none => ∃ message u, o = .thrown message u

variable {next : Connector → Outcome} {o : Outcome} {t u c : Connector} {status : Int}
  {message : String} {needToRetry : Bool} {bodies : Option (List Text)}

theorem Outcome.Follows.andThen {first second : Option (List Text)} (h : o.Follows first t)
    (hnext : (next t).Follows second u) :
    (o.andThen next).Follows (first.bind fun x => second.map fun y => x ++ y) u := by
  cases first with
  | none =>
    obtain ⟨message, v, rfl⟩ := h
    exact ⟨message, v, rfl⟩
  | some x =>
    obtain rfl : o = .done t := h
    cases second with
    | none => exact hnext
    | some y => exact hnext

/-- A statement that always returns changes the state only. -/
theorem Outcome.Follows.andThen_done (h : o.Follows bodies t) (hnext : next t = .done u) :
    (o.andThen next).Follows bodies u := by
  cases bodies with
  | none =>
    obtain ⟨message, v, rfl⟩ := h
    exact ⟨message, v, rfl⟩
  | some x =>
    obtain rfl : o = .done t := h
    exact hnext

/-- The state of a call that returned. -/
def Outcome.returned : Outcome → Option Connector
  | .done c => some c
  | _ => none

theorem Outcome.eq_done_of_returned (h : o.returned = some c) : o = .done c := by
  cases o with
  | done t => exact congrArg Outcome.done (Option.some.inj h)
  | thrown message t | waiting | undefined => cases h

theorem ne_contentLength (h : status = httpVersionConflict ∨ status = httpTooManyRequests) :
    status ≠ httpContentLength := by
  rcases h with rfl | rfl
  · decide
  · decide

namespace Connector

/-! ## One request -/

section

variable {reply : Nat → Request → Answer} {A B C : List Operation} {start stop k m fuel : Nat}
  {bs : List Nat}

/-- The body of a slice. -/
def slice (c : Connector) (start stop : Nat) : Text := (c.bulkData.take stop).drop start

/-- The log entry of a slice the server answers with `answer`. -/
def sliceEntry (c : Connector) (start stop : Nat) (answer : Answer) : Entry :=
  .answered (.bulk (c.slice start stop)) (coveredFrom start stop 0 c.buffered) answer

section

variable (hbounds : start ≤ stop ∧ stop ≤ c.bulkData.length) (hstop : c.stopping = false)

include hbounds hstop

/-- A round of a loop: the slice is sent and the answer is handled. -/
theorem round_serve (handler : Answer → Connector → Outcome) :
    (if (c.serve reply k (m + 1)).stopping then .done (c.serve reply k (m + 1))
      else (c.serve reply k (m + 1)).postSlice start stop handler) =
        handler (reply k (.bulk (c.slice start stop)))
        ((c.record (c.sliceEntry start stop (reply k (.bulk (c.slice start stop))))).serve reply
          (k + 1) m) := by
  have hrunning : (c.serve reply k (m + 1)).stopping = false := hstop
  have hserved : start ≤ stop ∧ stop ≤ (c.serve reply k (m + 1)).bulkData.length := hbounds
  rw [if_neg (by simp [hrunning]), postSlice, if_pos hserved]
  rfl

end

/-- What a chunk that is too large is replaced by. -/
def splitChunk (bs : List Nat) (fuel : Nat) (c : Connector) : Outcome :=
  if 1 < bs.length then
    (processBulkChunk fuel c 0 (bs.getD (bs.length / 2 - 1) 0) (bs.take (bs.length / 2))).andThen
      fun t => processBulkChunk fuel t (bs.getD (bs.length / 2 - 1) 0) t.bulkData.length
        (bs.drop (bs.length / 2))
  else .thrown "Single operation exceeds server limits" c

theorem sends_record (answer : Answer) : Sends c (c.record (c.sliceEntry start stop answer)) :=
  ⟨[c.sliceEntry start stop answer], c.replies, rfl, by simp [sliceEntry]⟩

/-! ## Runs that send bodies -/

/-- With the replies from number `k` on, the run sends the bodies and nothing else and returns in
the state that `last` makes of the one it leaves; without bodies it throws. -/
def Sent (reply : Nat → Request → Answer) (run : Nat → Connector → Outcome)
    (last : Connector → Connector) (c : Connector) (k : Nat) (bodies : Option (List Text)) : Prop :=
  ∃ used t, Sends c t ∧ (∀ x, bodies = some x → accepted t.log = accepted c.log ++ x.flatten) ∧
    ∀ m fuel, used ≤ fuel →
      (run fuel (c.serve reply k (used + m))).Follows bodies ((last t).serve reply (k + used) m)

namespace Sent

variable {run run' : Nat → Connector → Outcome} {last : Connector → Connector}
  {first second : Option (List Text)}

theorem of_eq (h : Sent reply run' last c k bodies)
    (hrun : ∀ n fuel, run fuel (c.serve reply k n) = run' fuel (c.serve reply k n)) :
    Sent reply run last c k bodies := by
  obtain ⟨used, t, ht, haccepted, hfollows⟩ := h
  refine ⟨used, t, ht, haccepted, fun m fuel hfuel => ?_⟩
  rw [hrun]
  exact hfollows m fuel hfuel

/-- The slice is accepted at once. -/
theorem of_success (hrun : ∀ m fuel, run (fuel + 1) (c.serve reply k (m + 1)) =
    .done ((last (c.record (c.sliceEntry start stop .success))).serve reply (k + 1) m)) :
    Sent reply run last c k (some [c.slice start stop]) := by
  refine ⟨1, c.record (c.sliceEntry start stop .success), sends_record _, ?_, ?_⟩
  · rintro x ⟨⟩
    rw [flatten_singleton]
    rfl
  · intro m fuel hfuel
    obtain ⟨fuel, rfl⟩ := Nat.exists_eq_add_of_le' hfuel
    rw [Nat.add_comm 1 m]
    exact hrun m fuel

/-- The slice is refused, and another run follows. -/
theorem of_refused (h : Sent reply run' last
    (c.record (c.sliceEntry start stop (.error message status))) (k + 1) bodies)
    (hrun : ∀ m fuel, run (fuel + 1) (c.serve reply k (m + 1)) = run' fuel
    ((c.record (c.sliceEntry start stop (.error message status))).serve reply (k + 1) m)) :
    Sent reply run last c k bodies := by
  obtain ⟨used, t, ht, haccepted, hfollows⟩ := h
  refine ⟨used + 1, t, (sends_record _).trans ht, ?_, ?_⟩
  · intro x hx
    rw [haccepted x hx]
    exact congrArg (· ++ x.flatten) (accepted_error _ _ message status c.log)
  · intro m fuel hfuel
    obtain ⟨fuel, rfl⟩ := Nat.exists_eq_add_of_le' (Nat.le_of_add_left_le hfuel)
    rw [Nat.add_right_comm used 1 m, hrun, Nat.add_comm used 1, ← Nat.add_assoc]
    exact hfollows m fuel (by omega)

theorem of_thrown (hrun : ∀ n fuel, ∃ message t, run fuel (c.serve reply k n) = .thrown message t) :
    Sent reply run last c k none := by
  refine ⟨0, c, Sends.refl c, ?_, fun m fuel _ => hrun _ fuel⟩
  rintro x ⟨⟩

theorem andThen {next : Nat → Connector → Outcome} (h : Sent reply run id c k first)
    (hnext : ∀ t k', Sends c t → Sent reply next last t k' second) :
    Sent reply (fun fuel c => (run fuel c).andThen (next fuel)) last c k
      (first.bind fun x => second.map fun y => x ++ y) := by
  obtain ⟨used₁, t₁, ht₁, haccepted₁, hrun₁⟩ := h
  obtain ⟨used₂, t₂, ht₂, haccepted₂, hrun₂⟩ := hnext t₁ (k + used₁) ht₁
  refine ⟨used₁ + used₂, t₂, ht₁.trans ht₂, ?_, ?_⟩
  · intro bodies hbodies
    obtain ⟨x, hx, hrest⟩ := Option.bind_eq_some_iff.1 hbodies
    obtain ⟨y, hy, rfl⟩ := Option.map_eq_some_iff.1 hrest
    rw [haccepted₂ y hy, haccepted₁ x hx, flatten_append, append_assoc]
  · intro m fuel hfuel
    rw [Nat.add_assoc used₁, ← Nat.add_assoc k]
    exact (hrun₁ (used₂ + m) fuel (by omega)).andThen (hrun₂ m fuel (by omega))

theorem andThen_done {f : Connector → Connector} (h : Sent reply run last c k bodies)
    (hf : ∀ t k m, f (serve t reply k m) = (f t).serve reply k m) :
    Sent reply (fun fuel c => (run fuel c).andThen fun t => .done (f t)) (fun t => f (last t)) c k
      bodies := by
  obtain ⟨used, t, ht, haccepted, hrun⟩ := h
  refine ⟨used, t, ht, haccepted, fun m fuel hfuel => ?_⟩
  exact (hrun m fuel hfuel).andThen_done (congrArg Outcome.done (hf _ _ _))

end Sent

/-! ## A chunk -/

/-- A chunk up to the limit is sent until it is accepted. -/
theorem sent_chunk_small {limit wait : Nat} (hserver : LimitServer limit reply)
    (hbounds : start ≤ stop ∧ stop ≤ c.bulkData.length) (hstop : c.stopping = false)
    (hshort : (c.slice start stop).length ≤ limit)
    (hwait : reply (k + wait) (.bulk (c.slice start stop)) = .success) :
    Sent reply (fun fuel c => processBulkChunk fuel c start stop bs) id c k
      (some [c.slice start stop]) := by
  -- induction on the number of requests until the answer that is known to be a success
  induction wait generalizing k c with
  | zero =>
    refine .of_success fun m fuel => ?_
    rw [Nat.add_zero] at hwait
    rw [processBulkChunk, round_serve hbounds hstop, hwait]
    rfl
  | succ wait ih =>
    rcases hserver.small k _ hshort with hsuccess | ⟨message, status, hreply, hstatus⟩
    · refine .of_success fun m fuel => ?_
      rw [processBulkChunk, round_serve hbounds hstop, hsuccess]
      rfl
    · have hrest := @ih (c.record (c.sliceEntry start stop (.error message status))) (k + 1) hbounds
        hstop hshort (by rw [Nat.add_right_comm, Nat.add_assoc]; exact hwait)
      refine hrest.of_refused fun m fuel => ?_
      rw [processBulkChunk, round_serve hbounds hstop, hreply]
      dsimp only
      rw [if_neg (ne_contentLength hstatus), if_pos hstatus]

/-- A slice from the beginning of the buffer to the end of a run. -/
theorem slice_first {stop : Nat} (h : Holds c A B C 0 stop) (hstop : stop = size A + size B) :
    c.slice 0 stop = texts (A ++ B) := by
  have hdata : c.bulkData = texts (A ++ B) ++ texts C := by
    rw [h.bulkData, h.buffered, ← append_assoc, texts_append]
  rw [slice, drop_zero, hdata]
  exact take_left' (by rw [hstop, ← size, size_append])

/-- A slice from the beginning of a run to the end of the buffer. -/
theorem slice_second {start : Nat} (h : Holds c A B C start c.bulkData.length)
    (hstart : start = size A) : c.slice start c.bulkData.length = texts (B ++ C) := by
  have hdata : c.bulkData = texts A ++ texts (B ++ C) := by
    rw [h.bulkData, h.buffered, texts_append]
  rw [slice, take_length, hdata]
  exact drop_left' (by rw [hstart, ← size])

/-- A chunk is sent as `chunkBodies` says. -/
theorem sent_chunk {limit : Nat} (hserver : LimitServer limit reply) (h : Holds c A B C start stop)
    (hstop : c.stopping = false) (k : Nat) :
    Sent reply (fun fuel c => processBulkChunk fuel c start stop (ends (size A) B)) id c k
      (chunkBodies limit A B C (c.slice start stop)) := by
  -- induction on the length of the run: both halves of a split are shorter
  induction hn : B.length using Nat.strong_induction_on generalizing c A B C start stop k with
  | _ n ih =>
    rcases Nat.lt_or_ge limit (c.slice start stop).length with hlong | hshort
    · obtain ⟨message, hreply⟩ := hserver.large k _ hlong
      suffices hrest : Sent reply (splitChunk (ends (size A) B)) id
          (c.record (c.sliceEntry start stop (.error message httpContentLength))) (k + 1) _ by
        refine hrest.of_refused fun m fuel => ?_
        rw [processBulkChunk, round_serve h.inBounds hstop, hreply]
        rfl
      have hheld : Holds (c.record (c.sliceEntry start stop (.error message httpContentLength))) A B
          C start stop :=
        h.congr rfl rfl
      rcases Nat.lt_or_ge 1 B.length with hB | hB
      · obtain ⟨B₁, B₂, rfl, hB₁, hB₂, hlength, hposition, hfirst, hsecond⟩ :=
          ends_split hB (size A)
        have hsum : (B₁ ++ B₂).length = B₁.length + B₂.length := length_append
        rw [chunkBodies_of_split hlong hlength hB, ← slice_first hheld.first rfl]
        delta splitChunk
        simp only [length_ends, if_pos hB, hposition, hfirst, hsecond]
        apply Sent.andThen (ih B₁.length (by omega) hheld.first hstop (k + 1) rfl)
        -- the second half is sent from the state the first one leaves
        intro t k' ht
        have hheld₂ := hheld.second.congr ht.buffered ht.bulkData
        rw [← ht.bulkData] at hheld₂
        rw [← slice_second hheld₂ (size_append A B₁).symm, ← size_append]
        rw [← size_append] at hheld₂
        exact ih B₂.length (by omega) hheld₂ (ht.stopping.trans hstop) k' rfl
      · rw [chunkBodies_of_single hlong hB]
        apply Sent.of_thrown
        intro n fuel
        rw [splitChunk, length_ends, if_neg (by omega)]
        exact ⟨_, _, rfl⟩
    · obtain ⟨wait, hwait⟩ := hserver.fair k _ hshort
      rw [chunkBodies_of_le hshort]
      exact sent_chunk_small hserver h.inBounds hstop hshort hwait

end

/-! ## A batch -/

section

variable {reply : Nat → Request → Answer} {limit : Nat}

theorem fuel_serve (c : Connector) (k m : Nat) : (c.serve reply k m).fuel = m + 1 := by
  simp [fuel, serve]

/-- A half is a chunk. -/
theorem sent_half {start stop k : Nat} {bs : List Nat} (hlt : start < stop) (hbs : bs ≠ [])
    (h : Sent reply (fun fuel c => processBulkChunk fuel c start stop bs) id c k bodies) :
    Sent reply (fun _ c => c.processHalf start stop bs) id c k bodies := by
  obtain ⟨used, t, ht, haccepted, hrun⟩ := h
  refine ⟨used, t, ht, haccepted, fun m _ _ => ?_⟩
  dsimp only
  rw [processHalf, if_pos ⟨hlt, hbs⟩, fuel_serve]
  exact hrun m (used + m + 1) (by omega)

/-- A batch that is too large is split as `batchBodies` says. -/
theorem sent_split (hserver : LimitServer limit reply) (h : Consistent c)
    (hstop : c.stopping = false) (hlong : limit < size c.buffered)
    (hB : 1 < c.boundaries.length) (k : Nat) :
    Sent reply (fun _ c => c.splitAndProcessBulk)
      (fun t => t.notifyAll.clearData.clearBoundaries) c k
      (batchBodies limit c.buffered) := by
  have hoperations : 1 < c.buffered.length := by
    rw [h.boundaries, length_ends] at hB
    exact hB
  obtain ⟨B₁, B₂, hbuffered, hB₁, hB₂, hlength, hpos, hlt, hposition, hfirst, hsecond,
      hheld₁, hheld₂⟩ :=
    h.split hB
  have hslice₁ := slice_first hheld₁ (by simp)
  rw [nil_append] at hslice₁
  rw [hbuffered] at hlong hlength hoperations ⊢
  rw [batchBodies_eq, chunkBodies_of_split hlong hlength hoperations, append_nil,
    nil_append, ← hslice₁]
  have hrun : ∀ n, (c.serve reply k n).splitAndProcessBulk =
      ((c.serve reply k n).processHalf 0 (size B₁) (ends 0 B₁)).andThen fun t =>
        (t.processHalf (size B₁) t.bulkData.length
          (t.boundaries.drop (c.boundaries.length / 2))).andThen
          fun t => .done t.notifyAll.clearData.clearBoundaries := by
    intro n
    have hboundaries : (c.serve reply k n).boundaries = c.boundaries := rfl
    have hdata : (c.serve reply k n).bulkData = c.bulkData := rfl
    rw [splitAndProcessBulk, hboundaries, hdata, if_neg (by omega)]
    dsimp only
    rw [hposition, hfirst, if_neg (by omega)]
  refine Sent.of_eq (Sent.andThen
    (sent_half hpos (ends_ne_nil hB₁) (sent_chunk hserver hheld₁ hstop k)) ?_) fun n _ => hrun n
  -- the callbacks are invoked and the buffer is cleared once both halves are sent
  intro t k' ht
  have hheld := hheld₂.congr ht.buffered ht.bulkData
  rw [← ht.bulkData] at hheld
  have hslice₂ := slice_second hheld rfl
  rw [append_nil] at hslice₂
  rw [← hslice₂]
  have hsent := sent_half (by rw [ht.bulkData]; exact hlt) (ends_ne_nil hB₂)
    (sent_chunk hserver hheld (ht.stopping.trans hstop) k')
  rw [← hsecond] at hsent
  nth_rewrite 2 [← ht.boundaries] at hsent
  exact hsent.andThen_done (f := fun t => t.notifyAll.clearData.clearBoundaries) fun _ _ _ => rfl

theorem all_inBounds (c : Connector) :
    0 ≤ c.bulkData.length ∧ c.bulkData.length ≤ c.bulkData.length :=
  ⟨Nat.zero_le _, Nat.le_refl _⟩

/-- What a buffer that is too large is replaced by. -/
def splitBuffer (c : Connector) : Outcome :=
  if c.boundaries.length ≤ 1 then
    .thrown "Single operation exceeds server payload limits" c.clearData.clearBoundaries
  else c.splitAndProcessBulk.andThen fun t => .done t.finish

/-- A buffer up to the limit is sent until it is accepted, whether or not an earlier request was
refused. -/
theorem sent_loop_small {k wait : Nat} {needToRetry : Bool} (hserver : LimitServer limit reply)
    (hstop : c.stopping = false) (hshort : (c.slice 0 c.bulkData.length).length ≤ limit)
    (hwait : reply (k + wait) (.bulk (c.slice 0 c.bulkData.length)) = .success) :
    Sent reply (fun fuel c => bulkLoop fuel needToRetry c) (fun t => t.notifyAll.finish) c k
      (some [c.slice 0 c.bulkData.length]) := by
  induction wait generalizing k c needToRetry with
  | zero =>
    refine .of_success fun m fuel => (round_serve c.all_inBounds hstop _).trans ?_
    rw [Nat.add_zero] at hwait
    rw [hwait]
    rfl
  | succ wait ih =>
    rcases hserver.small k _ hshort with hsuccess | ⟨message, status, hreply, hstatus⟩
    · refine .of_success fun m fuel => (round_serve c.all_inBounds hstop _).trans ?_
      rw [hsuccess]
      rfl
    · have hrest := @ih (c.record (c.sliceEntry 0 c.bulkData.length (.error message status)))
        (k + 1) true hstop hshort (by rw [Nat.add_right_comm, Nat.add_assoc]; exact hwait)
      refine hrest.of_refused fun m fuel => (round_serve c.all_inBounds hstop _).trans ?_
      rw [hreply]
      dsimp only
      rw [if_neg (ne_contentLength hstatus), if_pos hstatus]

/-- A connector on which nothing but `bulkIndex` and `bulkDelete` was called. -/
structure Ready (c : Connector) : Prop extends Consistent c where
  deletes : c.deletesByQuery.entries = []
  notify : c.notify = []
  running : c.stopping = false

/-- The loop sends the buffer as `batchBodies` says. -/
theorem sent_loop (hserver : LimitServer limit reply) (h : Ready c) (k : Nat) :
    Sent reply (fun fuel c => bulkLoop fuel false c) (fun t => t.notifyAll.finish) c k
      (batchBodies limit c.buffered) := by
  have hslice : c.slice 0 c.bulkData.length = texts c.buffered := by
    rw [slice, take_length, drop_zero, h.bulkData]
  rcases Nat.lt_or_ge limit (size c.buffered) with hlong | hshort
  · obtain ⟨message, hreply⟩ :=
      hserver.large k (c.slice 0 c.bulkData.length) (by rw [hslice]; exact hlong)
    suffices hrest : Sent reply (fun _ t => t.splitBuffer) _
        (c.record (c.sliceEntry 0 c.bulkData.length (.error message httpContentLength)))
          (k + 1) _ by
      refine hrest.of_refused fun m fuel => (round_serve c.all_inBounds h.running _).trans ?_
      rw [hreply]
      rfl
    rcases Nat.lt_or_ge 1 c.boundaries.length with hB | hB
    · have hrecorded : Consistent (c.record (c.sliceEntry 0 c.bulkData.length
          (.error message httpContentLength))) := { h.toConsistent with }
      have hsent := (sent_split hserver hrecorded h.running hlong hB (k + 1)).andThen_done
        (f := Connector.finish) fun _ _ _ => rfl
      exact hsent.of_eq fun n _ => if_neg (Nat.not_le.2 hB)
    · have hsingle : c.buffered.length ≤ 1 := by
        rw [h.boundaries, length_ends] at hB
        exact hB
      rw [batchBodies_eq, chunkBodies_of_single hlong hsingle]
      apply Sent.of_thrown
      intro n fuel
      exact ⟨_, _, if_pos hB⟩
  · rw [batchBodies_eq, chunkBodies_of_le hshort, ← hslice]
    rw [size, ← hslice] at hshort
    obtain ⟨wait, hwait⟩ := hserver.fair k _ hshort
    exact sent_loop_small hserver h.running hshort hwait

/-- A buffer is sent as `batchBodies` says. -/
theorem processBulk_follows (hserver : LimitServer limit reply) (h : Ready c)
    (hne : c.buffered ≠ []) (k : Nat) :
    ∃ used t, Ready t ∧ t.buffered = [] ∧ t.appended = c.appended ∧
      (∀ bodies, batchBodies limit c.buffered = some bodies →
        accepted t.log = accepted c.log ++ bodies.flatten) ∧
      ∀ m, (c.serve reply k (used + m)).processBulk.Follows (batchBodies limit c.buffered)
        (t.serve reply (k + used) m) := by
  -- there are no delete requests, so the loop comes first
  have hloop :
      ∀ n, (c.serve reply k n).processBulk = bulkLoop (n + 1) false (c.serve reply k n) := by
    intro n
    have hdeletes : (c.serve reply k n).deletesByQuery.entries = [] := h.deletes
    have hserved : (c.serve reply k n).bulkData ≠ [] := fun hempty => hne (h.buffered_eq_nil hempty)
    rw [processBulk, if_neg (fun hempty => hserved hempty.1), hdeletes]
    change (if (c.serve reply k n).bulkData = [] then _ else _) = _
    rw [if_neg hserved, fuel_serve]
  obtain ⟨used, t, ht, haccepted, hrun⟩ := sent_loop hserver h k
  refine ⟨used, t.notifyAll.finish, ?_⟩
  -- sending, invoking no callbacks and clearing leaves a connector without operations
  obtain ⟨entries, rest, rfl, -⟩ := ht
  refine ⟨⟨.cleared rfl rfl rfl, rfl, rfl, h.running⟩, rfl, rfl, ?_, ?_⟩
  · intro bodies hbodies
    rw [← haccepted bodies hbodies]
    simp [finish, clearData, clearBoundaries, Connector.notifyAll, h.notify]
  · intro m
    rw [hloop]
    exact hrun m (used + m + 1) (by omega)

end

/-! ## Sequences of calls -/

/-- A call that appends an operation. -/
inductive BulkCall where
  | bulkIndex (id index data : Text)
  | bulkDelete (id index : Text)
  deriving DecidableEq, Repr

/-- The text of the operation. -/
def BulkCall.text : BulkCall → Text
  | .bulkIndex id index data => indexText id index data
  | .bulkDelete id index => deleteText id index

section

variable (maxBulkSize : Nat)

/-- The call. -/
def perform (c : Connector) : BulkCall → Outcome
  | .bulkIndex id index data => c.bulkIndex maxBulkSize id index data
  | .bulkDelete id index => c.bulkDelete maxBulkSize id index

/-- The calls in turn, then `flush`; an exception ends the sequence. -/
def runCalls : List BulkCall → Connector → Outcome
  | [], c => c.flush
  | call :: calls, c => (c.perform maxBulkSize call).andThen (runCalls calls)

/-- The operations of the calls, numbered from `n` on. -/
def operationsFrom : Nat → List BulkCall → List Operation
  | _, [] => []
  | n, call :: calls => ⟨n, call.text⟩ :: operationsFrom (n + 1) calls

/-- The batches the calls form in an empty connector. -/
def batches (calls : List BulkCall) : List (List Operation) :=
  batchesFrom maxBulkSize [] (operationsFrom 0 calls)

/-- With enough replies of the server the calls return, and the accepted bodies are the texts of the
operations, in order and without repetition. -/
def ExactlyOnce (reply : Nat → Request → Answer) (calls : List BulkCall) : Prop :=
  ∃ enough, ∀ n, enough ≤ n → ∃ t, runCalls maxBulkSize calls (init.serve reply 0 n) = .done t ∧
    accepted t.log = calls.flatMap BulkCall.text

end

theorem length_text_pos (call : BulkCall) : 0 < call.text.length := by
  cases call with
  | bulkIndex id index data =>
    rw [BulkCall.text, length_indexText]
    omega
  | bulkDelete id index =>
    rw [BulkCall.text, length_deleteText]
    omega

/-- The source estimates each text one character short. -/
theorem perform_eq (maxBulkSize : Nat) (c : Connector) (call : BulkCall) :
    c.perform maxBulkSize call =
      c.appendBounded maxBulkSize (call.text.length - 1) call.text := by
  cases call with
  | bulkIndex id index data =>
    rw [BulkCall.text, length_indexText, Nat.add_sub_cancel]
    rfl
  | bulkDelete id index =>
    rw [BulkCall.text, length_deleteText, Nat.add_sub_cancel]
    rfl

theorem map_text_operationsFrom (n : Nat) (calls : List BulkCall) :
    (operationsFrom n calls).map Operation.text = calls.map BulkCall.text := by
  induction calls generalizing n with
  | nil => rfl
  | cons call calls ih => exact congrArg (call.text :: ·) (ih (n + 1))

section

variable {reply : Nat → Request → Answer} {limit maxBulkSize : Nat}

theorem Ready.append (h : Ready c) (call : BulkCall) : Ready (c.append call.text) :=
  ⟨h.toConsistent.append (ne_nil_of_length_pos (length_text_pos call)), h.deletes, h.notify,
    h.running⟩

/-- The last batch is sent by `flush`. -/
theorem flush_follows (hserver : LimitServer limit reply) (h : Ready c) (k : Nat) :
    ∃ (used : Nat) (t : Connector),
      (∀ bodies, allBodies limit (batchesFrom maxBulkSize c.buffered []) = some bodies →
        accepted t.log = accepted c.log ++ bodies.flatten) ∧
          ∀ m, (c.serve reply k (used + m)).flush.Follows
        (allBodies limit (batchesFrom maxBulkSize c.buffered [])) (t.serve reply (k + used) m) := by
  have hdeletes : ∀ n, (c.serve reply k n).deletesByQuery.entries = [] := fun _ => h.deletes
  rw [batchesFrom]
  by_cases hbuffered : c.buffered = []
  · have hdata : c.bulkData = [] := by rw [h.bulkData, hbuffered, texts_nil]
    rw [if_pos hbuffered]
    refine ⟨0, c, ?_, ?_⟩
    · rintro bodies ⟨⟩
      simp
    · intro m
      have hserved : ∀ n, (c.serve reply k n).bulkData = [] := fun _ => hdata
      rw [flush, if_neg (by simp [hserved, hdeletes])]
      simp [allBodies, Outcome.Follows]
  · obtain ⟨used, t, -, -, -, haccepted, hrun⟩ := processBulk_follows hserver h hbuffered k
    rw [if_neg hbuffered, allBodies_singleton]
    refine ⟨used, t, haccepted, ?_⟩
    intro m
    have hserved : (c.serve reply k (used + m)).bulkData ≠ [] :=
      fun hdata => hbuffered (h.buffered_eq_nil hdata)
    rw [flush, if_pos (.inl hserved)]
    exact hrun m

/-- The calls send what `allBodies` says of their batches. -/
theorem runCalls_follows {calls : List BulkCall} {c : Connector} (hserver : LimitServer limit reply)
    (h : Ready c) (hcalls : ∀ call ∈ calls, call.text.length < maxBulkSize - 1) (k : Nat) :
    ∃ (used : Nat) (t : Connector),
      (∀ bodies, allBodies limit
        (batchesFrom maxBulkSize c.buffered (operationsFrom c.appended calls)) = some bodies →
        accepted t.log = accepted c.log ++ bodies.flatten) ∧
      ∀ m, (runCalls maxBulkSize calls (c.serve reply k (used + m))).Follows
        (allBodies limit (batchesFrom maxBulkSize c.buffered (operationsFrom c.appended calls)))
        (t.serve reply (k + used) m) := by
  induction calls generalizing c k with
  | nil => exact flush_follows hserver h k
  | cons call calls ih =>
    have hrest : ∀ call' ∈ calls, call'.text.length < maxBulkSize - 1 := by
      intro call' hcall'
      exact hcalls call' (by simp [hcall'])
    have hcall := hcalls call (by simp)
    have hlength : c.bulkData.length = size c.buffered := by rw [h.bulkData, size]
    have hcalled : ∀ n, runCalls maxBulkSize (call :: calls) (c.serve reply k n) =
        ((if maxBulkSize < size c.buffered + (call.text.length - 1) then
          (c.serve reply k n).processBulk else .done (c.serve reply k n)).andThen fun t =>
            .done (t.append call.text)).andThen (runCalls maxBulkSize calls) := by
      intro n
      rw [runCalls, perform_eq, appendBounded, ← hlength]
      rfl
    rw [operationsFrom, batchesFrom]
    split
    · rename_i hestimate
      have hlong : maxBulkSize < size c.buffered + (call.text.length - 1) := hestimate
      -- the buffer is sent first; it is not empty, since a single operation is short enough
      have hne : c.buffered ≠ [] := by
        intro hempty
        rw [hempty, size_nil] at hlong
        omega
      obtain ⟨used₁, t₁, hready, hempty, happended, haccepted₁, hrun₁⟩ :=
        processBulk_follows hserver h hne k
      obtain ⟨used₂, t₂, haccepted₂, hrun₂⟩ := ih (hready.append call) hrest (k + used₁)
      have hbuffered : (t₁.append call.text).buffered = [⟨c.appended, call.text⟩] := by
        simp [Connector.append, hempty, happended]
      have hnumber : (t₁.append call.text).appended = c.appended + 1 := by
        simp [Connector.append, happended]
      rw [hbuffered, hnumber] at haccepted₂ hrun₂
      refine ⟨used₁ + used₂, t₂, ?_, ?_⟩
      · intro bodies hbodies
        obtain ⟨first, second, hfirst, hsecond, rfl⟩ := allBodies_cons_eq_some.1 hbodies
        have hlog : accepted (t₁.append call.text).log = accepted t₁.log := rfl
        rw [haccepted₂ second hsecond, hlog, haccepted₁ first hfirst, flatten_append, append_assoc]
      · intro m
        rw [hcalled, if_pos hlong, Nat.add_assoc used₁, ← Nat.add_assoc k]
        -- the buffer is sent, the operation appended, and the other calls follow
        have happend : ((c.serve reply k (used₁ + (used₂ + m))).processBulk.andThen fun t =>
            .done (t.append call.text)).Follows (batchBodies limit c.buffered)
            ((t₁.append call.text).serve reply (k + used₁) (used₂ + m)) :=
          (hrun₁ (used₂ + m)).andThen_done rfl
        exact happend.andThen (hrun₂ m)
    · rename_i hfits
      obtain ⟨used, t, haccepted, hrun⟩ := ih (h.append call) hrest k
      refine ⟨used, t, haccepted, ?_⟩
      intro m
      rw [hcalled, if_neg hfits]
      exact hrun m

/-- The calls deliver each operation once and in order exactly if every batch they form is accepted
as a whole or in two halves. -/
theorem bulkCalls_exactlyOnce_iff (limit maxBulkSize : Nat) (reply : Nat → Request → Answer)
    (calls : List BulkCall) (hserver : LimitServer limit reply)
    (hcalls : ∀ call ∈ calls, call.text.length ≤ limit ∧ call.text.length < maxBulkSize - 1) :
    ExactlyOnce maxBulkSize reply calls ↔
      ∀ batch ∈ batches maxBulkSize calls, Fits limit batch := by
  have hready : Ready init := ⟨.cleared rfl rfl rfl, rfl, rfl, rfl⟩
  obtain ⟨used, t, haccepted, hrun⟩ :=
    @runCalls_follows reply limit maxBulkSize calls init hserver hready
      (fun call h => (hcalls call h).2) 0
  have hflatten : (batches maxBulkSize calls).flatten = operationsFrom 0 calls :=
    flatten_batchesFrom maxBulkSize [] _
  have htexts : texts (batches maxBulkSize calls).flatten = calls.flatMap BulkCall.text := by
    rw [hflatten, texts, flatMap_def, map_text_operationsFrom, flatMap_def]
  -- every operation of a batch is one of the calls
  have hmem :
      ∀ batch ∈ batches maxBulkSize calls, ∀ op ∈ batch, ∃ call ∈ calls, op.text = call.text := by
    intro batch hbatch op hop
    have htext :=
      mem_map_of_mem (f := Operation.text) (hflatten ▸ mem_flatten_of_mem hbatch hop)
    rw [map_text_operationsFrom] at htext
    obtain ⟨call, hcall, heq⟩ := mem_map.1 htext
    exact ⟨call, hcall, heq.symm⟩
  rw [← allBodies_flatten_iff (fun batch hbatch op hop => ?_) (fun batch hbatch op hop => ?_),
    htexts]
  · constructor
    · rintro ⟨enough, hexact⟩
      obtain ⟨u, hdone, htext⟩ := hexact (used + enough) (by omega)
      have hfollows := hrun enough
      change Outcome.Follows _ (allBodies limit (batches maxBulkSize calls)) _ at hfollows
      cases hbodies : allBodies limit (batches maxBulkSize calls) with
      | none =>
        rw [hbodies] at hfollows
        obtain ⟨message, v, hthrown⟩ := hfollows
        rw [hdone] at hthrown
        cases hthrown
      | some bodies =>
        rw [hbodies, Outcome.Follows, hdone] at hfollows
        cases hfollows
        refine ⟨bodies, rfl, ?_⟩
        rw [← htext]
        exact (haccepted bodies hbodies).symm
    · rintro ⟨bodies, hbodies, hexact⟩
      refine ⟨used, fun n hn => ?_⟩
      obtain ⟨m, rfl⟩ := Nat.exists_eq_add_of_le hn
      have hfollows := hrun m
      change Outcome.Follows _ (allBodies limit (batches maxBulkSize calls)) _ at hfollows
      rw [hbodies] at hfollows
      refine ⟨_, hfollows, ?_⟩
      rw [← hexact]
      exact haccepted bodies hbodies
  · obtain ⟨call, -, htext⟩ := hmem batch hbatch op hop
    rw [htext]
    exact ne_nil_of_length_pos (length_text_pos call)
  · obtain ⟨call, hcall, htext⟩ := hmem batch hbatch op hop
    rw [htext]
    exact (hcalls call hcall).1

end

/-- A server that is busy at every other request. -/
def everyOther (limit : Nat) (k : Nat) : Request → Answer
  | .bulk body =>
    if limit < body.length then .error "large" httpContentLength
    else if k % 2 = 0 then .error "busy" httpTooManyRequests else .success
  | .deleteByQuery _ _ => .success

theorem limitServer_everyOther (limit : Nat) : LimitServer limit (everyOther limit) where
  large := by
    intro k body hlong
    exact ⟨"large", if_pos hlong⟩
  small := by
    intro k body hshort
    rw [everyOther, if_neg (by omega)]
    split
    · exact .inr ⟨"busy", httpTooManyRequests, rfl, .inr rfl⟩
    · exact .inl rfl
  fair := by
    intro k body hshort
    refine ⟨(k + 1) % 2, ?_⟩
    rw [everyOther, if_neg (by omega), if_neg (by omega)]

/-- Three operations of which the last is larger than the first. -/
def unevenCalls : List BulkCall :=
  [.bulkDelete ['a'] ['i'], .bulkDelete ['b'] ['i'], .bulkIndex ['c'] ['i'] (replicate 60 'x')]

/-- The second half of the three operations is split again, and the first operation is sent with it:
it is delivered twice. -/
theorem bulkCalls_repeat_operation :
    LimitServer 100 (everyOther 100) ∧
    (∀ call ∈ unevenCalls, call.text.length ≤ 100 ∧ call.text.length < 1000 - 1) ∧
    ∃ t, runCalls 1000 unevenCalls (init.serve (everyOther 100) 0 20) = .done t ∧
      accepted t.log = deleteText ['a'] ['i'] ++ unevenCalls.flatMap BulkCall.text ∧
      accepted t.log ≠ unevenCalls.flatMap BulkCall.text := by
  have h : (runCalls 1000 unevenCalls (init.serve (everyOther 100) 0 20)).returned.any (fun t =>
      accepted t.log = deleteText ['a'] ['i'] ++ unevenCalls.flatMap BulkCall.text ∧
        accepted t.log ≠ unevenCalls.flatMap BulkCall.text) = true := by
    decide +kernel
  rw [Option.any_eq_true] at h
  obtain ⟨t, hreturned, haccepted⟩ := h
  refine ⟨limitServer_everyOther 100, by decide +kernel, t, ?_, of_decide_eq_true haccepted⟩
  exact Outcome.eq_done_of_returned hreturned

/-- Two operations that are accepted one by one. -/
def pairCalls : List BulkCall := [.bulkIndex ['a'] ['i'] ['x'], .bulkDelete ['b'] ['i']]

/-- Neither the busy server nor the split repeats or loses an operation. -/
theorem bulkCalls_exactlyOnce_iff_pair : ExactlyOnce 1000 (everyOther 50) pairCalls :=
  (bulkCalls_exactlyOnce_iff 50 1000 (everyOther 50) pairCalls (limitServer_everyOther 50)
    (by decide +kernel)).2 (by decide +kernel)

end Connector

end WazAISentinel.IndexerConnector
