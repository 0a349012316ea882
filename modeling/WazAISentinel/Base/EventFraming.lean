import Mathlib.Data.List.Basic
import Mathlib.Data.List.TakeWhile
import WazAISentinel.Shared.MqOp

/-!
# Events from the queue

`parseLegacyEvent` of `base/src/eventParser.cpp`, for texts `<queue>:<location>:<message>`, and what
it makes of the text that `SendMSGAction` sends. What merging the information about the host into
the event gives is an argument. The writer escapes the colon and the bar, and the reader undoes the
first only; so the result is for locations without a bar.
-/

namespace WazAISentinel.Base

/-- An event: `/wazuh/queue`, `/agent/id` and `/agent/name`, what was merged, `/wazuh/location` and
`/event/original`. -/
structure LegacyEvent (Host : Type) where
  queue : Nat
  agent : Option (List Char × List Char)
  host : Option Host
  location : List Char
  message : List Char
  deriving DecidableEq

/-- What stands before and behind the first arrow. -/
def findArrow : List Char → Option (List Char × List Char)
  | [] => none
  | [_] => none
  | c :: d :: rest =>
    if c = '-' ∧ d = '>' then some ([], rest) else (findArrow (d :: rest)).map fun found =>
      (c :: found.1, found.2)

/-- The agent's id and name and the module, if the location is `[id] (name) ip->module`. -/
def parseLegacyLocation (location : List Char) : Option (List Char × List Char × List Char) :=
  if location.length < 12 then none
  else
    match location with
    | '[' :: rest =>
      let svID := rest.takeWhile fun c => c ≠ ']'
      match rest.dropWhile fun c => c ≠ ']' with
      | ']' :: ' ' :: '(' :: rest =>
        let svName := rest.takeWhile fun c => c ≠ ')'
        match rest.dropWhile fun c => c ≠ ')' with
        | ')' :: ' ' :: rest =>
          (findArrow rest).bind fun found =>
            let svModule := found.2
            if svID = [] ∨ svName = [] ∨ svModule = [] then none else some (svID, svName, svModule)
        | _ => none
      | _ => none
    | _ => none

/-- What stands before and behind the first colon that is not behind a bar, and the character before
the text. -/
def splitAtSeparator : Char → List Char → Option (List Char × List Char)
  | _, [] => none
  | prev, c :: rest =>
    if c = ':' ∧ prev ≠ '|' then some ([], rest) else (splitAtSeparator c rest).map fun found =>
      (c :: found.1, found.2)

/-- A bar before a colon is dropped. -/
def unescapeLocation : List Char → List Char
  | [] => []
  | [c] => [c]
  | c :: d :: rest =>
    if c = '|' ∧ d = ':' then ':' :: unescapeLocation rest else c :: unescapeLocation (d :: rest)

/-- `parseLegacyEvent`. -/
def parseLegacyEvent {Host : Type} (rawEvent : List Char) (hostInfo : Except String Host) :
    Except String (LegacyEvent Host) :=
  match rawEvent with
  | queue :: ':' :: rest =>
    if rawEvent.length < 5 then
      .error "Invalid format: event must be at least 5 bytes (\"<byte>:<location>:<message>\")"
    else
      match splitAtSeparator ':' rest with
      | none => .error "Invalid format: missing unescaped ':' between location and message"
      | some (rawLocation, message) =>
        if rawLocation = [] then .error "Invalid format: location cannot be empty"
        else
          let location := unescapeLocation rawLocation
          match parseLegacyLocation location with
          | some (id, name, module_) => .ok ⟨queue.toNat, some (id, name), none, module_, message⟩
          | none =>
            match hostInfo with
            | .error error => .error ("merge failed: " ++ error)
            | .ok host => .ok ⟨queue.toNat, none, some host, location, message⟩
  | _ => .error "Invalid format: event must be at least 5 bytes (\"<byte>:<location>:<message>\")"

open Shared List
open VersionMatcher (CString nul)

/-- The escaped location, as it stands in the text. -/
def escapeLocation (location : List Char) : List Char := escapeText '|' ':' location

/-! ## Reading what was escaped -/

/-- No separator is seen in an escaped character, and behind it the last character read is the one
that was escaped. -/
theorem splitAtSeparator_escapeChar (prev c : Char) (rest : List Char) :
    splitAtSeparator prev (escapeChar '|' ':' c ++ rest) =
      (splitAtSeparator c rest).map fun found => (escapeChar '|' ':' c ++ found.1, found.2) := by
  rw [escapeChar]
  split_ifs with hc
  · have hbar : ¬ ('|' = ':' ∧ prev ≠ '|') := fun h => absurd h.1 (by decide)
    have hreserved : ¬ (c = ':' ∧ '|' ≠ '|') := fun h => h.2 rfl
    rw [cons_append, cons_append, nil_append, splitAtSeparator, if_neg hbar,
      splitAtSeparator, if_neg hreserved, Option.map_map]
    rfl
  · have hplain : ¬ (c = ':' ∧ prev ≠ '|') := fun h => hc (decide_eq_true (.inr h.1))
    rw [singleton_append, splitAtSeparator, if_neg hplain]
    rfl

theorem splitAtSeparator_escapeLocation (prev : Char) (location rest : List Char) :
    splitAtSeparator prev (escapeLocation location ++ rest) =
      (splitAtSeparator (location.getLast?.getD prev) rest).map fun found =>
        (escapeLocation location ++ found.1, found.2) := by
  induction location generalizing prev with
  | nil => exact Option.map_id'.symm
  | cons c location ih =>
    have hlast : (c :: location).getLast?.getD prev = location.getLast?.getD c := by
      rw [getLast?_cons]
      rfl
    rw [escapeLocation, escapeText, flatMap_cons, append_assoc,
      splitAtSeparator_escapeChar, ← escapeText, ← escapeLocation, ih, Option.map_map, hlast]
    congr 1
    funext found
    exact congrArg (fun read => (read, found.2)) (append_assoc _ _ _).symm

theorem unescapeLocation_cons {c : Char} (hc : c ≠ '|') (rest : List Char) :
    unescapeLocation (c :: rest) = c :: unescapeLocation rest := by
  cases rest with
  | nil => rfl
  | cons d rest => rw [unescapeLocation, if_neg fun h => hc h.1]

variable {location : List Char}

theorem unescapeLocation_escapeLocation (hbar : '|' ∉ location) :
    unescapeLocation (escapeLocation location) = location := by
  induction location with
  | nil => rfl
  | cons c location ih =>
    rw [mem_cons, not_or] at hbar
    rw [escapeLocation, escapeText, flatMap_cons, ← escapeText, ← escapeLocation]
    by_cases hcolon : c = ':'
    · subst hcolon
      change ':' :: unescapeLocation (escapeLocation location) = _
      rw [ih hbar.2]
    · have hplain : escapeChar '|' ':' c = [c] := by
        rw [escapeChar, if_neg]
        rw [isReserved, decide_eq_true_iff]
        exact not_or.2 ⟨Ne.symm hbar.1, hcolon⟩
      rw [hplain, singleton_append, unescapeLocation_cons (Ne.symm hbar.1), ih hbar.2]

/-- The separator is the colon behind the location, as the location does not end with a bar. -/
theorem splitAtSeparator_framed (hbar : '|' ∉ location) (message : List Char) :
    splitAtSeparator ':' (escapeLocation location ++ ':' :: message) =
      some (escapeLocation location, message) := by
  have hlast : location.getLast?.getD ':' ≠ '|' := by
    cases hl : location.getLast? with
    | none => decide
    | some c =>
      rintro rfl
      exact hbar (mem_of_getLast? hl)
  rw [splitAtSeparator_escapeLocation, splitAtSeparator, if_pos ⟨rfl, hlast⟩, Option.map_some,
    append_nil]

theorem escapeLocation_ne_nil (h : location ≠ []) : escapeLocation location ≠ [] := by
  have hlength := length_le_length_escapeText '|' ':' location
  have hpos := length_pos_iff.2 h
  exact length_pos_iff.1 (hpos.trans_le hlength)

theorem parseLegacyEvent_framed {Host : Type} (queue : Char) (hne : location ≠ [])
    (hbar : '|' ∉ location) (hlegacy : parseLegacyLocation location = none) (message : List Char)
    (host : Host) :
    parseLegacyEvent (queue :: ':' :: (escapeLocation location ++ ':' :: message)) (.ok host) =
      if (escapeLocation location).length + message.length < 2 then
        .error "Invalid format: event must be at least 5 bytes (\"<byte>:<location>:<message>\")"
      else .ok ⟨queue.toNat, none, some host, location, message⟩ := by
  have hlength : (queue :: ':' :: (escapeLocation location ++ ':' :: message)).length < 5 ↔
      (escapeLocation location).length + message.length < 2 := by
    rw [length_cons, length_cons, length_append, length_cons]
    omega
  rw [parseLegacyEvent]
  refine if_congr hlength rfl ?_
  rw [splitAtSeparator_framed hbar]
  dsimp only
  rw [if_neg (escapeLocation_ne_nil hne), unescapeLocation_escapeLocation hbar, hlegacy]

/-! ## Writing -/

theorem nul_not_mem_escapeLocation (h : nul ∉ location) : nul ∉ escapeLocation location := by
  intro hmem
  obtain ⟨c, hc, hmem⟩ := mem_flatMap.1 hmem
  rw [escapeChar] at hmem
  split at hmem
  · rcases mem_cons.1 hmem with heq | hmem
    · exact absurd heq (by decide)
    · rw [← mem_singleton.1 hmem] at hc
      exact h hc
  · rw [← mem_singleton.1 hmem] at hc
    exact h hc

theorem osSendUnix_eq {msg : List Char} (h : nul ∉ msg) : osSendUnix msg = msg := by
  rw [osSendUnix, takeWhile_eq_self_iff]
  intro c hc
  exact decide_eq_true fun heq => h (heq ▸ hc)

/-- The text that is sent; the message is cut to what the buffer holds. -/
theorem sendMSGAction_eq (message location : CString) {queue : Char} (hnul : queue ≠ nul)
    (hsecure : queue ≠ secureMq) (hfits : Fits (osSize8192 + 1) '|' ':' location.text) :
    sendMSGAction message location queue = some (queue :: ':' :: (escapeLocation location.text ++
      ':' :: message.text.take (osMaxStr - 4 - (escapeLocation location.text).length))) := by
  have hshort : (escapeLocation location.text).length < 8193 := hfits.1
  have htake :
      snprintf osMaxStr (queue :: ':' :: (escapeLocation location.text ++ ':' :: message.text)) =
      queue :: ':' :: (escapeLocation location.text ++
        ':' :: message.text.take (osMaxStr - 4 - (escapeLocation location.text).length)) := by
    have hrest : osMaxStr - 3 - (escapeLocation location.text).length =
        (osMaxStr - 4 - (escapeLocation location.text).length) + 1 := by
      change 65536 - 3 - _ = (65536 - 4 - _) + 1
      omega
    change queue :: ':' ::
        (escapeLocation location.text ++ ':' :: message.text).take (osMaxStr - 3) = _
    rw [take_append, hrest, take_succ_cons, take_of_length_le]
    omega
  have hmem : nul ∉ queue :: ':' :: (escapeLocation location.text ++
      ':' :: message.text.take (osMaxStr - 4 - (escapeLocation location.text).length)) := by
    rw [mem_cons, mem_cons, mem_append, mem_cons, not_or, not_or, not_or, not_or]
    refine ⟨hnul.symm, by decide, nul_not_mem_escapeLocation location.noNul, by decide, fun h => ?_⟩
    exact message.noNul (mem_of_mem_take h)
  rw [sendMSGAction, if_neg hsecure, wstrEscape_eq hfits]
  exact congrArg some ((congrArg osSendUnix htake).trans (osSendUnix_eq hmem))

/-- For a location without a bar that is read as it is and fits its buffer, the event has the queue
byte, the location and as much of the message as the text can hold, unless the text is shorter than
five bytes. -/
theorem legacyEvent_of_sendMSGAction {Host : Type} (queue : Char) (location message : CString)
    (host : Host) (hnul : queue ≠ nul) (hsecure : queue ≠ secureMq) (hne : location.text ≠ [])
    (hbar : '|' ∉ location.text) (hlegacy : parseLegacyLocation location.text = none)
    (hfits : Fits (osSize8192 + 1) '|' ':' location.text) :
    (sendMSGAction message location queue).map (fun text => parseLegacyEvent text (.ok host)) =
      some (if (escapeLocation location.text).length + message.text.length < 2 then
          .error "Invalid format: event must be at least 5 bytes (\"<byte>:<location>:<message>\")"
        else .ok ⟨queue.toNat, none, some host, location.text,
          message.text.take (osMaxStr - 4 - (escapeLocation location.text).length)⟩) := by
  have hcut : (escapeLocation location.text).length +
        (message.text.take (osMaxStr - 4 - (escapeLocation location.text).length)).length < 2 ↔
      (escapeLocation location.text).length + message.text.length < 2 := by
    rw [length_take]
    change _ + min (65536 - 4 - _) _ < 2 ↔ _
    omega
  rw [sendMSGAction_eq message location hnul hsecure hfits, Option.map_some,
    parseLegacyEvent_framed queue hne hbar hlegacy, if_congr hcut rfl rfl]

/-- A location with a colon. -/
theorem legacyEvent_of_sendMSGAction_colon :
    (sendMSGAction ⟨['m'], by decide⟩ ⟨['a', ':', 'b'], by decide⟩ '1').map
      (fun text => parseLegacyEvent text (.ok ())) =
      some (.ok ⟨49, none, some (), ['a', ':', 'b'], ['m']⟩) := by
  have hfits : Fits (osSize8192 + 1) '|' ':' ['a', ':', 'b'] :=
    ⟨by decide, fun h => absurd h (by decide)⟩
  exact legacyEvent_of_sendMSGAction '1' ⟨['a', ':', 'b'], by decide⟩ ⟨['m'], by decide⟩ ()
    (by decide) (by decide) (by decide) (by decide) rfl hfits

/-- A location of one character and an empty message are refused. -/
theorem empty_message_refused :
    (sendMSGAction ⟨[], by decide⟩ ⟨['a'], by decide⟩ '1').map
      (fun text => parseLegacyEvent text (.ok ())) =
      some (.error
        "Invalid format: event must be at least 5 bytes (\"<byte>:<location>:<message>\")") := rfl

-- the bar is doubled by the writer only
example : (sendMSGAction ⟨['m'], by decide⟩ ⟨['a', '|', 'b'], by decide⟩ '1').map
  (fun text => parseLegacyEvent text (.ok ())) =
    some (.ok ⟨49, none, some (), ['a', '|', '|', 'b'], ['m']⟩) := rfl

end WazAISentinel.Base
