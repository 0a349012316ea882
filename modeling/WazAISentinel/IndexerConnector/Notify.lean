import WazAISentinel.Foundations.TransitionSystem
import WazAISentinel.IndexerConnector.BulkBuffer

/-!
# Callbacks and the data they stand for

A callback registered with `registerNotify` is what acknowledges a session to its agent. It should
be invoked only when every operation appended before it was in a request the server answered with
success.

When `processBulk` returns, the buffer and the callbacks are both settled. Some answers make it
throw after clearing the buffer; the callbacks stay and are invoked by the next success. In every
run in which the server gives none of these answers to a buffer with operations (`NoBatchLost`) each
invoked callback is justified.
-/

namespace WazAISentinel.IndexerConnector

open Foundations List

/-! ## The log -/

/-- The entry is a bulk request answered with success that contains the operation. -/
def Entry.delivers (number : Nat) : Entry → Bool
  | .answered (.bulk _) operations .success => operations.contains number
  | _ => false

/-- The operation was part of a request body the server answered with success. -/
def Delivered (log : List Entry) (number : Nat) : Prop := log.any (Entry.delivers number) = true

instance (log : List Entry) (number : Nat) : Decidable (Delivered log number) :=
  inferInstanceAs (Decidable (_ = true))

/-- When a callback was invoked, every operation appended before its registration was delivered. -/
def Justified : List Entry → Prop
  | [] => True
  | .answered _ _ _ :: older => Justified older
  | .invoked callback :: older =>
    (∀ number < callback.after, Delivered older number) ∧ Justified older

instance decidableJustified : ∀ log, Decidable (Justified log)
  | [] => isTrue trivial
  | .answered _ _ _ :: older => decidableJustified older
  | .invoked callback :: older =>
    haveI := decidableJustified older
    inferInstanceAs (Decidable ((∀ number < callback.after, Delivered older number) ∧ _))

/-- The invoked callbacks, newest first. -/
def invokedIn (log : List Entry) : List Callback :=
  log.filterMap fun
    | .invoked callback => some callback
    | .answered _ _ _ => none

variable {log entries : List Entry} {number : Nat}

theorem Delivered.mono {log' : List Entry} (h : Delivered log number) (hsub : ∀ e ∈ log, e ∈ log') :
    Delivered log' number := by
  simp only [Delivered, any_eq_true] at h ⊢
  obtain ⟨e, he, hdelivers⟩ := h
  exact ⟨e, hsub e he, hdelivers⟩

theorem delivered_of_mem {body : Text} {operations : List Nat}
    (he : .answered (.bulk body) operations .success ∈ log) (hn : number ∈ operations) :
    Delivered log number := by
  simp only [Delivered, any_eq_true]
  exact ⟨_, he, by simpa [Entry.delivers] using hn⟩

theorem justified_append (hentries : ∀ e ∈ entries, ∀ callback, e ≠ .invoked callback)
    (h : Justified log) : Justified (entries ++ log) := by
  induction entries with
  | nil => exact h
  | cons e entries ih =>
    cases e with
    | answered request operations answer => exact ih fun e he => hentries e (by simp [he])
    | invoked callback => exact absurd rfl (hentries _ (by simp) callback)

/-- Callbacks invoked when everything before them was delivered. -/
theorem justified_invoked {callbacks : List Callback} (h : Justified log)
    (hafter : ∀ callback ∈ callbacks, ∀ number < callback.after, Delivered log number) :
    Justified (callbacks.map Entry.invoked ++ log) := by
  induction callbacks with
  | nil => exact h
  | cons callback callbacks ih =>
    refine ⟨?_, ih fun cb hcb => hafter cb (by simp [hcb])⟩
    intro number hnumber
    apply (hafter callback (by simp) number hnumber).mono
    exact fun e he => mem_append_right _ he

theorem invokedIn_append (hentries : ∀ e ∈ entries, ∀ callback, e ≠ .invoked callback) :
    invokedIn (entries ++ log) = invokedIn log := by
  rw [invokedIn, filterMap_append, filterMap_eq_nil_iff.2, nil_append, invokedIn]
  intro e he
  cases e with
  | answered request operations answer => rfl
  | invoked callback => exact absurd rfl (hentries _ he callback)

namespace Connector

/-! ## Runs -/

/-- A call on the connector, with the replies the server gives during it. -/
inductive ConnectorEvent where
  | bulkIndex (id index data : Text) (replies : List (Request → Answer))
  | bulkDelete (id index : Text) (replies : List (Request → Answer))
  | deleteByQuery (index agentId : Text)
  | registerNotify
  | flush (replies : List (Request → Answer))
  | timer (replies : List (Request → Answer))
  | stop

section

variable (maxBulkSize : Nat)

/-- The call. -/
def call (c : Connector) : ConnectorEvent → Outcome
  | .bulkIndex id index data replies =>
    bulkIndex maxBulkSize { c with replies := replies } id index data
  | .bulkDelete id index replies => bulkDelete maxBulkSize { c with replies := replies } id index
  | .deleteByQuery index agentId => .done (c.deleteByQuery index agentId)
  | .registerNotify => .done c.registerNotify
  | .flush replies => flush { c with replies := replies }
  | .timer replies => timer { c with replies := replies }
  | .stop => .done c.stop

/-- The state after a call that returned or threw. -/
def step (c : Connector) (e : ConnectorEvent) : Option Connector :=
  match c.call maxBulkSize e with
  | .done t => some t
  | .thrown _ t => some t
  | .waiting => none
  | .undefined => none

/-- The connector as a transition system. -/
def connectorSystem : TransitionSystem Connector ConnectorEvent :=
  ⟨init, step maxBulkSize⟩

end

/-- A conflict or a busy server, which is no error for `processBulk`. -/
def tolerated (status : Int) : Bool := status = httpVersionConflict ∨ status = httpTooManyRequests

/-- Every request to delete is answered with success or one of the two tolerated statuses. -/
def deletesPass : List (Text × List Text) → List (Request → Answer) → Bool
  | (index, agentIds) :: entries, reply :: replies =>
    (match reply (.deleteByQuery index agentIds) with
      | .success => true
      | .error _ status => tolerated status) && deletesPass entries replies
  | _, _ => true

/-- The first answer to the body that is not tolerated is success, or says that the body is too
large when it has several operations. -/
def bulkPasses (operations : Nat) (body : Text) : List (Request → Answer) → Bool
  | [] => true
  | reply :: replies =>
    match reply (.bulk body) with
    | .success => true
    | .error _ status =>
      if status = httpContentLength then 1 < operations
      else tolerated status && bulkPasses operations body replies

/-- With operations in the buffer, the server gives no answer after which `processBulk` clears it,
neither to the requests to delete nor to the buffer, which is sent as long as the connector is not
stopped. -/
def KeepsBatch (c : Connector) (replies : List (Request → Answer)) : Prop :=
  c.bulkData ≠ [] → deletesPass c.deletesByQuery.entries replies = true ∧
    (c.stopping = false → bulkPasses c.boundaries.length c.bulkData
      (replies.drop c.deletesByQuery.entries.length) = true)

instance (c : Connector) (replies : List (Request → Answer)) : Decidable (c.KeepsBatch replies) :=
  inferInstanceAs (Decidable (_ → _ ∧ (_ → _)))

/-- If the call sends the buffer, the answers keep the batch. -/
def NoBatchLost (maxBulkSize : Nat) (c : Connector) : ConnectorEvent → Prop
  | .bulkIndex id index data replies =>
    maxBulkSize < c.bulkData.length +
      (formattedLength + index.length + id.length + data.length) → c.KeepsBatch replies
  | .bulkDelete id index replies =>
    maxBulkSize < c.bulkData.length + (deleteFormattedLength + index.length + id.length) →
      c.KeepsBatch replies
  | .flush replies => c.KeepsBatch replies
  | .timer replies => c.KeepsBatch replies
  | _ => True

instance (maxBulkSize : Nat) (c : Connector) : DecidablePred (NoBatchLost maxBulkSize c)
  | .bulkIndex _ _ _ replies => inferInstanceAs (Decidable (_ → c.KeepsBatch replies))
  | .bulkDelete _ _ replies => inferInstanceAs (Decidable (_ → c.KeepsBatch replies))
  | .deleteByQuery _ _ => isTrue trivial
  | .registerNotify => isTrue trivial
  | .flush replies => inferInstanceAs (Decidable (c.KeepsBatch replies))
  | .timer replies => inferInstanceAs (Decidable (c.KeepsBatch replies))
  | .stop => isTrue trivial

variable {P : Connector → Prop} {U : Prop} {e : ConnectorEvent} {A B C : List Operation}
  {start stop maxBulkSize : Nat} {c t : Connector} (fuel : Nat)

/-- What a call ensures however it ends holds in the state after it. -/
theorem of_step (h : (c.call maxBulkSize e).Ends U P P) (hstep : c.step maxBulkSize e = some t) :
    P t := by
  unfold step at hstep
  cases hcall : c.call maxBulkSize e with
  | done u | thrown message u =>
    rw [hcall] at h hstep
    cases hstep
    exact h
  | waiting | undefined => simp [hcall] at hstep

/-- What `processBulk` and `append` keep is kept by the calls that append an operation. -/
theorem ends_appendBounded {estimate : Nat} {text : Text} (hc : P c)
    (hprocess : maxBulkSize < c.bulkData.length + estimate → c.processBulk.Ends U P P)
    (happend : ∀ t, P t → P (t.append text)) :
    (c.appendBounded maxBulkSize estimate text).Ends U P P := by
  apply Outcome.Ends.andThen (P := P)
  · split_ifs with hlong
    · exact hprocess hlong
    · exact hc
  · exact happend

theorem ends_flush (hc : P c) (hprocess : c.processBulk.Ends U P P) : c.flush.Ends U P P := by
  unfold flush
  split
  · exact hprocess
  · exact hc

theorem ends_timer (hc : P c) (hprocess : c.processBulk.Ends U P P) : c.timer.Ends U P P := by
  unfold timer
  split
  · exact hc
  · cases hresult : c.processBulk with
    | done t | thrown message t | undefined =>
      rw [hresult] at hprocess
      exact hprocess
    | waiting => trivial

/-! ## Every callback once -/

/-- All callbacks in the order of their registration: the invoked ones and the waiting ones. -/
def callbacks (c : Connector) : List Callback := (invokedIn c.log).reverse ++ c.notify

/-- The callbacks are numbered in the order of their registration. -/
def Numbered (c : Connector) : Prop := c.callbacks.map Callback.number = range c.registered

namespace Numbered

theorem sends (h : Numbered c) (hsends : Sends c t) : Numbered t := by
  obtain ⟨entries, rest, rfl, hentries⟩ := hsends
  rw [Numbered, callbacks, invokedIn_append hentries]
  exact h

/-- Invoking the waiting callbacks moves them from one list to the other. -/
theorem notifyAll (h : Numbered c) : Numbered c.notifyAll := by
  have hsame : c.notifyAll.callbacks = c.callbacks := by
    simp [callbacks, Connector.notifyAll, invokedIn]
  rw [Numbered, hsame]
  exact h

/-- Whatever the buffer and the positions are. -/
theorem processBulkChunk (h : Numbered c) (start stop : Nat) (bs : List Nat) :
    (processBulkChunk fuel c start stop bs).Ends True Numbered Numbered := by
  induction fuel generalizing c start stop bs with
  | zero => trivial
  | succ fuel ih =>
    unfold Connector.processBulkChunk
    split
    · exact h
    · unfold postSlice
      split
      · apply ends_post
        intro answer t _ hsends _
        have ht := h.sends hsends
        cases answer with
        | success => exact ht
        | error message status =>
          dsimp only
          split
          · split
            · exact (ih ht _ _ _).andThen fun u hu => ih hu _ _ _
            · exact ht
          · split
            · exact ih ht _ _ _
            · exact ht
      · trivial

theorem processHalf (h : Numbered c) (start stop : Nat) (bs : List Nat) :
    (c.processHalf start stop bs).Ends True Numbered Numbered := by
  unfold Connector.processHalf
  split
  · exact h.processBulkChunk _ start stop bs
  · exact h

theorem splitAndProcessBulk (h : Numbered c) :
    c.splitAndProcessBulk.Ends True Numbered Numbered := by
  unfold Connector.splitAndProcessBulk
  split
  · exact h
  · dsimp only
    split
    · trivial
    · exact (h.processHalf _ _ _).andThen fun t ht => (ht.processHalf _ _ _).andThen fun u hu =>
        hu.notifyAll

theorem bulkLoop (h : Numbered c) (needToRetry : Bool) :
    (bulkLoop fuel needToRetry c).Ends True Numbered Numbered := by
  induction fuel generalizing needToRetry c with
  | zero => trivial
  | succ fuel ih =>
    unfold Connector.bulkLoop
    split
    · exact h
    · unfold postSlice
      split
      · apply ends_post
        intro answer t _ hsends _
        have ht := h.sends hsends
        cases answer with
        | success => exact ht.notifyAll
        | error message status =>
          dsimp only
          split
          · split
            · exact ht
            · apply ht.splitAndProcessBulk.andThen
              intro u hu
              split
              · exact ih hu _
              · exact hu
          · split
            · exact ih ht _
            · exact ht
      · trivial

end Numbered

/-- The requests to delete change nothing, or one is answered with an error that clears the
buffer. -/
theorem ends_deleteLoop (entries : List (Text × List Text)) (c : Connector) :
    (deleteLoop entries c).Ends False
      (fun t => Sends c t ∧ t.replies = c.replies.drop entries.length)
      (fun t => deletesPass entries c.replies = false ∧ ∃ u, Sends c u ∧ t = u.clearData) := by
  induction entries generalizing c with
  | nil => exact ⟨Sends.refl c, rfl⟩
  | cons entry entries ih =>
    apply ends_post
    rintro answer t ⟨reply, hreplies, hreply⟩ ht -
    have hagain : deletesPass (entry :: entries) c.replies = deletesPass entries t.replies →
        (deleteLoop entries t).Ends False
          (fun u => Sends c u ∧ u.replies = c.replies.drop (entries.length + 1))
          (fun u => deletesPass (entry :: entries) c.replies = false ∧
            ∃ v, Sends c v ∧ u = v.clearData) := by
      intro hsame
      rw [hsame, hreplies, drop_succ_cons]
      apply (ih t).mono id
      · rintro u ⟨hu, hrest⟩
        exact ⟨ht.trans hu, hrest⟩
      · rintro _ ⟨hfails, u, hu, rfl⟩
        exact ⟨hfails, u, ht.trans hu, rfl⟩
    cases answer with
    | success => exact hagain (by simp [hreplies, deletesPass, hreply])
    | error message status =>
      dsimp only
      split
      · rename_i htolerated
        exact hagain (by simp [hreplies, deletesPass, hreply, tolerated, htolerated])
      · rename_i herror
        exact ⟨by simp [hreplies, deletesPass, hreply, tolerated, herror], t, ht, rfl⟩

theorem Numbered.processBulk (h : Numbered c) : c.processBulk.Ends True Numbered Numbered := by
  unfold Connector.processBulk
  split
  · exact h
  · apply Outcome.Ends.andThen (P := Sends c)
    · apply (ends_deleteLoop _ c).mono False.elim (fun _ h => h.1)
      rintro _ ⟨-, u, hu, rfl⟩
      have hnumbered := h.sends hu
      exact hnumbered
    · intro t hsends
      have ht := h.sends hsends
      split
      · exact ht
      · exact ht.bulkLoop _ _

/-! ## Every callback justified -/

/-- A chunk that is processed without an exception was sent in full; the slice contains the
operations it is sent for. -/
theorem delivers_processBulkChunk (h : Holds c A B C start stop) (hstop : c.stopping = false) :
    (processBulkChunk fuel c start stop (ends (size A) B)).Ends False
      (fun t => Sends c t ∧ ∀ op ∈ B, Delivered t.log op.number) (Sends c) := by
  induction fuel generalizing c A B C start stop with
  | zero => trivial
  | succ fuel ih =>
    unfold processBulkChunk
    rw [if_neg (by simp [hstop])]
    unfold postSlice
    rw [if_pos h.inBounds]
    apply ends_post
    intro answer t _ ht hentry
    have hheld := h.congr ht.buffered ht.bulkData
    have hrunning : t.stopping = false := by rw [ht.stopping, hstop]
    cases answer with
    | success => exact ⟨ht, fun op hop => delivered_of_mem hentry (h.covers hop)⟩
    | error message status =>
      dsimp only
      split
      · split_ifs with hlength
        · rw [length_ends] at hlength
          obtain ⟨B₁, B₂, rfl, -, -, -, hposition, hfirst, hsecond⟩ := ends_split hlength (size A)
          rw [length_ends, hposition, hfirst, hsecond]
          -- the first half, then the second from the state the first one leaves
          apply ((ih hheld.first hrunning).mono id (fun _ h => h) (fun _ => ht.trans)).andThen
          rintro u ⟨hu, hdelivered₁⟩
          have hsecondHeld := hheld.second.congr hu.buffered hu.bulkData
          have hrest := ih hsecondHeld (by rw [hu.stopping, hrunning])
          rw [size_append] at hrest
          rw [hu.bulkData]
          apply hrest.mono id
          · rintro v ⟨hv, hdelivered₂⟩
            refine ⟨(ht.trans hu).trans hv, ?_⟩
            intro op hop
            rcases mem_append.1 hop with hop | hop
            · exact (hdelivered₁ op hop).mono fun e he => hv.log_subset he
            · exact hdelivered₂ op hop
          · intro v hv
            exact (ht.trans hu).trans hv
        · exact ht
      · split
        · apply (ih hheld hrunning).mono id
          · rintro u ⟨hu, hdelivered⟩
            exact ⟨ht.trans hu, hdelivered⟩
          · exact fun _ => ht.trans
        · exact ht

/-- The buffer and the positions agree with the buffered operations, every operation is delivered or
still buffered, and every invoked callback was justified. -/
structure Good (c : Connector) : Prop extends Consistent c where
  accounted : ∀ number < c.appended, Delivered c.log number ∨ ∃ op ∈ c.buffered, op.number = number
  after_le : ∀ callback ∈ c.notify, callback.after ≤ c.appended
  justified : Justified c.log

namespace Good

theorem sends (h : Good c) (hsends : Sends c t) : Good t := by
  obtain ⟨entries, rest, rfl, hentries⟩ := hsends
  refine ⟨⟨h.bulkData, h.boundaries, h.nonempty⟩, ?_, h.after_le,
    justified_append hentries h.justified⟩
  intro number hnumber
  apply (h.accounted number hnumber).imp_left
  intro hdelivered
  exact hdelivered.mono fun e he => mem_append_right _ he

section

variable (h : Good c) (hall : ∀ op ∈ c.buffered, Delivered c.log op.number)

include h hall

theorem delivered {number : Nat} (hnumber : number < c.appended) : Delivered c.log number := by
  rcases h.accounted number hnumber with hdelivered | ⟨op, hop, rfl⟩
  · exact hdelivered
  · exact hall op hop

theorem notifyAll : Good c.notifyAll := by
  have hjustified : Justified ((c.notify.map Entry.invoked).reverse ++ c.log) := by
    rw [← map_reverse]
    apply justified_invoked h.justified
    intro callback hcallback number hnumber
    have hafter := h.after_le callback (mem_reverse.1 hcallback)
    exact h.delivered hall (Nat.lt_of_lt_of_le hnumber hafter)
  refine ⟨⟨h.bulkData, h.boundaries, h.nonempty⟩, ?_, by simp [Connector.notifyAll], hjustified⟩
  intro number hnumber
  left
  exact (h.delivered hall hnumber).mono fun e he => mem_append_right _ he

/-- An emptied buffer whose operations were all delivered. -/
theorem settled : Good c.clearData.clearBoundaries :=
  ⟨.cleared rfl rfl rfl, fun _ hn => .inl (h.delivered hall hn), h.after_le, h.justified⟩

theorem finish : Good c.finish :=
  ⟨.cleared rfl rfl rfl, fun _ hn => .inl (h.delivered hall hn), h.after_le, h.justified⟩

end

end Good

/-- A half that contains operations is sent. -/
theorem delivers_processHalf (h : Holds c A B C start stop) (hstop : c.stopping = false)
    (hB : B ≠ []) (hlt : start < stop) :
    (c.processHalf start stop (ends (size A) B)).Ends False
      (fun t => Sends c t ∧ ∀ op ∈ B, Delivered t.log op.number) (Sends c) := by
  unfold processHalf
  rw [if_pos ⟨hlt, ends_ne_nil hB⟩]
  exact delivers_processBulkChunk _ h hstop

namespace Good

theorem splitAndProcessBulk (h : Good c) (hstop : c.stopping = false)
    (hlength : 1 < c.boundaries.length) :
    c.splitAndProcessBulk.Ends False (fun t => Good t ∧ t.buffered = []) Good := by
  obtain ⟨B₁, B₂, hB, hB₁, hB₂, -, hpos, hlt, hposition, hfirst, hsecond, hheld₁, hheld₂⟩ :=
    h.split hlength
  unfold Connector.splitAndProcessBulk
  rw [if_neg (by omega)]
  dsimp only
  rw [hposition, hfirst, if_neg (by omega)]
  apply ((delivers_processHalf hheld₁ hstop hB₁ hpos).mono id (fun _ h => h)
    (fun _ => h.sends)).andThen
  rintro t ⟨ht, hdelivered₁⟩
  have hheld := hheld₂.congr ht.buffered ht.bulkData
  have hrunning : t.stopping = false := by rw [ht.stopping, hstop]
  rw [ht.boundaries, hsecond, ht.bulkData]
  apply ((delivers_processHalf hheld hrunning hB₂ hlt).mono id (fun _ h => h)
    fun _ hu => h.sends (ht.trans hu)).andThen
  rintro u ⟨hu, hdelivered₂⟩
  have hgood : Good u := h.sends (ht.trans hu)
  have hall : ∀ op ∈ u.buffered, Delivered u.log op.number := by
    rw [hu.buffered, ht.buffered, hB]
    intro op hop
    rcases mem_append.1 hop with hop | hop
    · exact (hdelivered₁ op hop).mono fun e he => hu.log_subset he
    · exact hdelivered₂ op hop
  refine ⟨(hgood.notifyAll hall).settled ?_, rfl⟩
  intro op hop
  exact (hall op hop).mono fun e he => mem_append_right _ he

/-- The loop settles the buffer or keeps all of it, if the answers let it. -/
theorem bulkLoop (needToRetry : Bool) (h : Good c)
    (hpasses : c.buffered ≠ [] → c.stopping = false →
      bulkPasses c.boundaries.length c.bulkData c.replies = true) :
    (bulkLoop fuel needToRetry c).Ends False Good Good := by
  induction fuel generalizing needToRetry c with
  | zero => trivial
  | succ fuel ih =>
    unfold Connector.bulkLoop
    split
    · exact h
    · rename_i hstop
      have hrunning : c.stopping = false := by simpa using hstop
      unfold postSlice
      rw [if_pos h.holds.inBounds, take_length, drop_zero]
      apply ends_post
      rintro answer t ⟨reply, hreplies, hreply⟩ ht hentry
      have hgood := h.sends ht
      cases answer with
      | success =>
        have hall : ∀ op ∈ t.buffered, Delivered t.log op.number := by
          rw [ht.buffered]
          exact fun op hop => delivered_of_mem hentry (h.holds.covers hop)
        apply (hgood.notifyAll hall).finish
        intro op hop
        exact (hall op hop).mono fun e he => mem_append_right _ he
      | error message status =>
        -- what the condition says about this answer
        have hanswer : t.buffered ≠ [] → if status = httpContentLength then 1 < t.boundaries.length
            else tolerated status = true ∧
              bulkPasses t.boundaries.length t.bulkData t.replies = true := by
          intro hne
          rw [ht.buffered] at hne
          rw [ht.boundaries, ht.bulkData]
          simpa [hreplies, bulkPasses, hreply] using hpasses hne hrunning
        -- an empty buffer may be cleared
        have hclear : t.buffered = [] → Good t.clearData.clearBoundaries := by
          intro hempty
          exact hgood.settled (by simp [hempty])
        dsimp only
        split
        · rename_i hlarge
          rw [if_pos hlarge] at hanswer
          split
          · exact hclear (by_contra fun hne => absurd (hanswer hne) (by omega))
          · apply (hgood.splitAndProcessBulk (ht.stopping.trans hrunning) (by omega)).andThen
            rintro u ⟨hu, hempty⟩
            split
            · exact ih needToRetry hu fun hne => absurd hempty hne
            · exact hu.finish (by simp [hempty])
        · rename_i hlarge
          rw [if_neg hlarge] at hanswer
          split_ifs with herror
          · exact ih true hgood fun hne _ => (hanswer hne).2
          · exact hclear (by_contra fun hne => by simpa [tolerated, herror] using (hanswer hne).1)

theorem processBulk (h : Good c) (hkeeps : c.KeepsBatch c.replies) :
    c.processBulk.Ends False Good Good := by
  unfold Connector.processBulk
  split
  · exact h
  · apply ((ends_deleteLoop _ c).mono id (fun _ h => h) ?_).andThen
    · rintro t ⟨ht, hreplies⟩
      have hgood := h.sends ht
      split_ifs with hdata
      · exact hgood.finish (by simp [hgood.buffered_eq_nil hdata])
      · rw [ht.bulkData] at hdata
        apply hgood.bulkLoop
        intro _ hrunning
        rw [ht.boundaries, ht.bulkData, hreplies]
        exact (hkeeps hdata).2 (ht.stopping.symm.trans hrunning)
    · rintro _ ⟨hfails, u, hu, rfl⟩
      have hempty : c.bulkData = [] := by
        by_contra hdata
        exact absurd (hkeeps hdata).1 (by simp [hfails])
      have hgood := h.sends hu
      have hsame : u.clearData = u := by
        rw [clearData, ← h.buffered_eq_nil hempty, ← hu.buffered, ← hempty, ← hu.bulkData]
      rw [hsame]
      exact hgood

end Good

/-! ## Whole runs -/

theorem Numbered.step (h : Numbered c) (hstep : c.step maxBulkSize e = some t) : Numbered t := by
  have hprocess : ∀ replies,
      (Connector.processBulk { c with replies := replies }).Ends True Numbered Numbered := by
    intro replies
    have hc : Numbered { c with replies := replies } := h
    exact hc.processBulk
  apply of_step (U := True) _ hstep
  cases e with
  | bulkIndex id index data replies =>
    exact ends_appendBounded h (fun _ => hprocess replies) fun _ h => h
  | bulkDelete id index replies =>
    exact ends_appendBounded h (fun _ => hprocess replies) fun _ h => h
  | deleteByQuery index agentId => exact h
  | registerNotify =>
    change Numbered c.registerNotify
    simp only [Numbered, callbacks, Connector.registerNotify] at h ⊢
    rw [← append_assoc, map_append, h, range_succ]
    rfl
  | flush replies => exact ends_flush h (hprocess replies)
  | timer replies => exact ends_timer h (hprocess replies)
  | stop => exact h

namespace Good

theorem init : Good Connector.init := by
  refine ⟨.cleared rfl rfl rfl, ?_, ?_, trivial⟩
  · intro number hnumber
    exact absurd hnumber (Nat.not_lt_zero _)
  · intro callback hcallback
    cases hcallback

theorem withReplies (h : Good c) (replies : List (Request → Answer)) :
    Good { c with replies := replies } :=
  { h with }

theorem append (h : Good c) {text : Text} (htext : text ≠ []) : Good (c.append text) := by
  refine ⟨h.toConsistent.append htext, ?_, ?_, h.justified⟩
  · intro number hnumber
    -- the new operation is the last one
    rcases Nat.lt_succ_iff_lt_or_eq.1 hnumber with hlt | rfl
    · apply (h.accounted number hlt).imp_right
      rintro ⟨op, hop, rfl⟩
      exact ⟨op, mem_append_left _ hop, rfl⟩
    · exact .inr ⟨⟨c.appended, text⟩, by simp [Connector.append], rfl⟩
  · intro callback hcallback
    exact Nat.le_succ_of_le (h.after_le callback hcallback)

theorem registerNotify (h : Good c) : Good c.registerNotify :=
  { h with
    after_le :=
      forall_mem_append.2 ⟨h.after_le, forall_mem_singleton.2 (Nat.le_refl _)⟩ }

theorem step {e : ConnectorEvent} (h : Good c) (hkeeps : NoBatchLost maxBulkSize c e)
    (hstep : c.step maxBulkSize e = some t) : Good t := by
  apply of_step (U := False) _ hstep
  cases e with
  | bulkIndex id index data replies =>
    apply ends_appendBounded (h.withReplies replies)
      (fun hlong => (h.withReplies replies).processBulk (hkeeps hlong))
    intro u hu
    apply hu.append
    apply ne_nil_of_length_pos
    rw [length_indexText]
    omega
  | bulkDelete id index replies =>
    apply ends_appendBounded (h.withReplies replies)
      (fun hlong => (h.withReplies replies).processBulk (hkeeps hlong))
    intro u hu
    apply hu.append
    apply ne_nil_of_length_pos
    rw [length_deleteText]
    omega
  | deleteByQuery index agentId => exact { h with }
  | registerNotify => exact h.registerNotify
  | flush replies =>
    exact ends_flush (h.withReplies replies) ((h.withReplies replies).processBulk hkeeps)
  | timer replies =>
    exact ends_timer (h.withReplies replies) ((h.withReplies replies).processBulk hkeeps)
  | stop => exact { h with }

end Good

/-- No run invokes a callback twice, and in a run whose answers keep each batch a callback is
invoked only after every operation appended before its registration was delivered. -/
theorem notified_callbacks_justified (maxBulkSize : Nat) (es : List ConnectorEvent) (c : Connector)
    (hrun : (connectorSystem maxBulkSize).run es = some c) :
    ((invokedIn c.log).map Callback.number).Nodup ∧
      ((connectorSystem maxBulkSize).StepsMeet (NoBatchLost maxBulkSize) init es →
        Justified c.log) := by
  constructor
  · have hnumbered : Numbered c := by
      have hinit : Numbered init := rfl
      apply (connectorSystem maxBulkSize).runFrom_induction (P := Numbered) _ hinit hrun
      exact fun s e t hs ht => hs.step ht
    have hnodup : (c.callbacks.map Callback.number).Nodup := by
      rw [hnumbered]
      exact nodup_range
    rw [callbacks, map_append, map_reverse] at hnodup
    exact nodup_reverse.1 (nodup_append.1 hnodup).1
  · intro hmeet
    have hgood : Good c := by
      apply (connectorSystem maxBulkSize).runFrom_induction_of_stepsMeet (P := Good) _ Good.init
        hmeet hrun
      exact fun s e t hs hok ht => hs.step hok ht
    exact hgood.justified

/-- An answer that does not depend on the request. -/
def always (answer : Answer) : Request → Answer := fun _ => answer

/-- The first batch is refused with status 500, the second one is accepted. -/
def lostBatchRun : List ConnectorEvent :=
  [.bulkIndex ['a'] ['i'] ['x'] [], .registerNotify, .flush [always (.error "failed" 500)],
    .bulkIndex ['b'] ['i'] ['y'] [], .flush [always .success]]

/-- The callback that stands for the lost batch is invoked by the success of the next one. -/
theorem notified_without_data :
    ∃ c, (connectorSystem 1000).run lostBatchRun = some c ∧ invokedIn c.log = [⟨0, 1⟩] ∧
      ¬ Delivered c.log 0 ∧ ¬ Justified c.log := by
  have h : ((connectorSystem 1000).run lostBatchRun).any (fun c =>
      invokedIn c.log = [⟨0, 1⟩] ∧ ¬ Delivered c.log 0 ∧ ¬ Justified c.log) = true := by
    decide +kernel
  simpa only [Option.any_eq_true, decide_eq_true_eq] using h

/-- Two operations, a busy server, a request that is too large and its two halves. -/
def splitRun : List ConnectorEvent :=
  [.bulkIndex ['a'] ['i'] ['x'] [], .bulkDelete ['b'] ['i'] [], .registerNotify,
    .flush [always (.error "busy" 429), always (.error "large" 413), always .success,
      always .success, always .success]]

/-- The callback of a split batch is invoked once and is justified. -/
theorem notified_callbacks_justified_split :
    ∃ c, (connectorSystem 1000).run splitRun = some c ∧ invokedIn c.log = [⟨0, 2⟩] ∧
      ((invokedIn c.log).map Callback.number).Nodup ∧ Justified c.log := by
  have h :
      ((connectorSystem 1000).run splitRun).any (fun c => invokedIn c.log = [⟨0, 2⟩]) = true := by
    decide +kernel
  simp only [Option.any_eq_true, decide_eq_true_eq] at h
  obtain ⟨c, hrun, hinvoked⟩ := h
  obtain ⟨hnodup, hjustified⟩ := notified_callbacks_justified 1000 splitRun c hrun
  exact ⟨c, hrun, hinvoked, hnodup, hjustified (by decide +kernel)⟩

end Connector

end WazAISentinel.IndexerConnector
