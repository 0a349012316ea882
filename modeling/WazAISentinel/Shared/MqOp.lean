import WazAISentinel.VersionMatcher.CString

/-!
# Sending a message to the queue

`wstr_escape` (`shared/string_op.c`) and the text that `SendMSGAction` (`shared/mq_op.c`) sends. The
loop of `wstr_escape` stops one byte early if it has just written an escaped character.
-/

namespace WazAISentinel.Shared

open List

open VersionMatcher (CString nul)

/-- One of the two characters that are escaped. -/
def isReserved (escape match_ : Char) (c : Char) : Bool := c = escape ∨ c = match_

/-- The loop of `wstr_escape`: `str` is what is left to read and `dst` what has been written. -/
def wstrEscapeLoop (dstSize : Nat) (escape match_ : Char) : Nat → List Char → List Char → List Char
  | 0, _, dst => dst
  | fuel + 1, str, dst =>
    let j := dst.length
    -- strcspn
    let z := (str.takeWhile fun c => !isReserved escape match_ c).length
    let next := fun rest dst =>
      if rest ≠ [] ∧
        dst.length < dstSize - 2 then wstrEscapeLoop dstSize escape match_ fuel rest dst else dst
    if str.length = z ∨ j + z ≥ dstSize - 2 then
      let z := if z + j ≤ dstSize - 1 then z else dstSize - j - 1
      next (str.drop z) (dst ++ str.take z)
    else next (str.drop (z + 1))
      (dst ++ (str.take z ++ [escape, if str[z]? = some escape then escape else match_]))

/-- Each round but the last one reads a reserved character. -/
def wstrEscape (dstSize : Nat) (str : List Char) (escape match_ : Char) : List Char :=
  wstrEscapeLoop dstSize escape match_ (str.length + 1) str []

def osMaxStr : Nat := 65536

def osSize8192 : Nat := 8192

def secureMq : Char := '4'

/-- `snprintf` with a buffer of the size. -/
def snprintf (size : Nat) (text : List Char) : List Char := text.take (size - 1)

/-- The C string in the buffer that `OS_SendUnix` sends, without the end character that is sent with
it: what the forwarder of the agent passes on. -/
def osSendUnix (msg : List Char) : List Char := msg.takeWhile fun c => c ≠ nul

/-- The text that `SendMSGAction` sends, if any. -/
def sendMSGAction (message locmsg : CString) (loc : Char) : Option (List Char) :=
  let locBuff := wstrEscape (osSize8192 + 1) locmsg.text '|' ':'
  if loc = secureMq then
    match message.text with
    | loc :: ':' :: rest =>
      if rest.take 9 = ['k', 'e', 'e', 'p', 'a', 'l', 'i', 'v', 'e'] then none
      else some (osSendUnix (snprintf osMaxStr (loc :: ':' :: (locBuff ++ '-' :: '>' :: rest))))
    | _ => none
  else some (osSendUnix (snprintf osMaxStr (loc :: ':' :: (locBuff ++ ':' :: message.text))))

/-! ## The whole escaped string -/

def escapeChar (escape match_ : Char) (c : Char) : List Char :=
  if isReserved escape match_ c then [escape, c] else [c]

def escapeText (escape match_ : Char) (str : List Char) : List Char :=
  str.flatMap (escapeChar escape match_)

variable {str span dst : List Char} {c : Char} {dstSize fuel : Nat}

section Escape

variable {escape match_ : Char}

theorem escapeText_plain (h : ∀ c ∈ str, isReserved escape match_ c = false) :
    escapeText escape match_ str = str := by
  induction str with
  | nil => rfl
  | cons c str ih =>
    obtain ⟨hc, hstr⟩ := forall_mem_cons.1 h
    rw [escapeText, flatMap_cons, ← escapeText, ih hstr, escapeChar, hc]
    rfl

theorem escapeText_span (hplain : ∀ c ∈ span, isReserved escape match_ c = false)
    (rest : List Char) :
    escapeText escape match_ (span ++ c :: rest) = span ++
      (escapeChar escape match_ c ++ escapeText escape match_ rest) := by
  have hspan := escapeText_plain hplain
  rw [escapeText] at hspan ⊢
  rw [flatMap_append, hspan, flatMap_cons]
  rfl

theorem length_escapeChar (escape match_ c : Char) :
    (escapeChar escape match_ c).length = if isReserved escape match_ c then 2 else 1 := by
  rw [escapeChar]
  split
  · rfl
  · rfl

theorem length_le_length_escapeText (escape match_ : Char) (str : List Char) :
    str.length ≤ (escapeText escape match_ str).length := by
  induction str with
  | nil => exact Nat.le_refl 0
  | cons c str ih =>
    rw [escapeText, flatMap_cons, ← escapeText, length_append, length_escapeChar, length_cons]
    split
    · omega
    · omega

/-- The character that is written behind the escape character is the one that is read. -/
theorem escapeChar_reserved (hc : isReserved escape match_ c = true) :
    escapeChar escape match_ c = [escape, if some c = some escape then escape else match_] := by
  rw [escapeChar, if_pos hc]
  rw [isReserved, decide_eq_true_iff] at hc
  rcases hc with rfl | rfl
  · rw [if_pos rfl]
  · split_ifs with heq
    · rw [Option.some_inj.1 heq]
    · rfl

theorem takeWhile_span (hplain : ∀ c ∈ span, isReserved escape match_ c = false) (tail : List Char)
    (htail : ∀ c ∈ tail.head?, isReserved escape match_ c = true) :
    ((span ++ tail).takeWhile fun c => !isReserved escape match_ c) = span := by
  have hspan : ∀ c ∈ span, (!isReserved escape match_ c) = true :=
    fun c hc => by rw [hplain c hc]; rfl
  rw [takeWhile_append_of_pos hspan]
  cases tail with
  | nil => exact append_nil span
  | cons c tail =>
    rw [takeWhile_cons, htail c rfl]
    exact append_nil span

/-- The last round: the rest of the string is plain and fits. -/
theorem wstrEscapeLoop_end (hplain : ∀ c ∈ span, isReserved escape match_ c = false)
    (hfits : dst.length + span.length < dstSize) :
    wstrEscapeLoop dstSize escape match_ (fuel + 1) span dst = dst ++ span := by
  have htake := takeWhile_span hplain [] fun c hc => by cases hc
  have hz : span.length + dst.length ≤ dstSize - 1 := by omega
  rw [append_nil] at htake
  rw [wstrEscapeLoop, htake]
  dsimp only
  rw [if_pos (.inl rfl), if_pos hz, drop_length, take_length, if_neg fun h => h.1 rfl]

/-- Another round: a reserved character behind a plain beginning. -/
theorem wstrEscapeLoop_reserved {rest : List Char}
    (hplain : ∀ d ∈ span, isReserved escape match_ d = false)
    (hc : isReserved escape match_ c = true) (hfits : dst.length + span.length < dstSize - 2) :
    wstrEscapeLoop dstSize escape match_ (fuel + 1) (span ++ c :: rest) dst =
      if rest ≠ [] ∧ (dst ++ (span ++ escapeChar escape match_ c)).length < dstSize - 2 then
        wstrEscapeLoop dstSize escape match_ fuel rest (dst ++ (span ++ escapeChar escape match_ c))
      else dst ++ (span ++ escapeChar escape match_ c) := by
  have htake := takeWhile_span hplain (c :: rest) fun d hd => by
    obtain rfl := Option.some_inj.1 hd
    exact hc
  have hnotEnd :
      ¬ ((span ++ c :: rest).length = span.length ∨ dst.length + span.length ≥ dstSize - 2) := by
    rw [length_append, length_cons]
    omega
  have hread : (span ++ c :: rest)[span.length]? = some c := by
    rw [getElem?_append_right (Nat.le_refl _), Nat.sub_self, getElem?_cons_zero]
  have hdrop : (span ++ c :: rest).drop (span.length + 1) = rest := by
    rw [drop_append, Nat.add_sub_cancel_left, drop_of_length_le (Nat.le_succ _), nil_append,
      drop_one, tail_cons]
  rw [wstrEscapeLoop, htake]
  rw [if_neg hnotEnd, hread, hdrop, take_left, ← escapeChar_reserved hc]

/-- A string is plain, or has a first reserved character. -/
theorem plain_or_exists_reserved (escape match_ : Char) (str : List Char) :
    (∀ c ∈ str, isReserved escape match_ c = false) ∨
      ∃ span c rest,
        str = span ++ c :: rest ∧ (∀ d ∈ span, isReserved escape match_ d = false) ∧
          isReserved escape match_ c = true := by
  induction str with
  | nil => exact .inl fun c hc => absurd hc not_mem_nil
  | cons d str ih =>
    cases hd : isReserved escape match_ d with
    | true => exact .inr ⟨[], d, str, rfl, fun c hc => absurd hc not_mem_nil, hd⟩
    | false =>
      rcases ih with hplain | ⟨span, c, rest, rfl, hplain, hc⟩
      · exact .inl (forall_mem_cons.2 ⟨hd, hplain⟩)
      · exact .inr ⟨d :: span, c, rest, rfl, forall_mem_cons.2 ⟨hd, hplain⟩, hc⟩

theorem wstrEscapeLoop_eq (str dst : List Char) (hfuel : str.length < fuel)
    (hfits : dst.length + (escapeText escape match_ str).length < dstSize)
    (hedge : dst.length + (escapeText escape match_ str).length = dstSize - 1 → ∀ init d c,
    str = init ++ [d, c] → isReserved escape match_ d = true → isReserved escape match_ c = true) :
    wstrEscapeLoop dstSize escape match_ fuel str dst = dst ++ escapeText escape match_ str := by
  induction fuel generalizing str dst with
  | zero => exact absurd hfuel (Nat.not_lt_zero _)
  | succ fuel ih =>
    rcases plain_or_exists_reserved escape match_ str with hplain | ⟨span, c, rest, rfl, hplain, hc⟩
    · rw [escapeText_plain hplain] at hfits ⊢
      exact wstrEscapeLoop_end hplain hfits
    · have hpair := length_escapeChar escape match_ c
      rw [if_pos hc] at hpair
      have hsum : dst.length + (escapeText escape match_ (span ++ c :: rest)).length =
          (dst ++ (span ++ escapeChar escape match_ c)).length +
            (escapeText escape match_ rest).length := by
        rw [escapeText_span hplain, length_append, length_append, length_append, length_append]
        omega
      have hwritten :
          (dst ++ (span ++ escapeChar escape match_ c)).length = dst.length + span.length + 2 := by
        rw [length_append, length_append, hpair]
        omega
      rw [hsum] at hfits hedge
      rw [wstrEscapeLoop_reserved hplain hc (by omega), escapeText_span hplain]
      cases rest with
      | nil =>
        rw [if_neg fun h => h.1 rfl]
        exact congrArg _ (congrArg _ (append_nil _).symm)
      | cons e rest =>
        have hrest := length_le_length_escapeText escape match_ (e :: rest)
        rw [length_cons] at hrest
        by_cases hroom : (dst ++ (span ++ escapeChar escape match_ c)).length < dstSize - 2
        · rw [if_pos ⟨cons_ne_nil e rest, hroom⟩, ih _ _ ?_ hfits ?_, append_assoc, append_assoc]
          · rw [length_append, length_cons] at hfuel
            omega
          · intro hfull init d f heq
            exact hedge hfull (span ++ c :: init) d f (by rw [heq]; simp)
        · -- one byte is left, which would hold a plain character
          have hlast : rest = [] := eq_nil_of_length_eq_zero (by omega)
          subst hlast
          have hreserved := hedge (by omega) span c e rfl hc
          have htwo := length_escapeChar escape match_ e
          rw [if_pos hreserved] at htwo
          rw [escapeText, flatMap_singleton, htwo] at hfits
          omega

end Escape

/-- The buffer holds the whole escaped string. Where it would be full and end with an escaped
character and a plain one, the last one is lost. -/
def Fits (dstSize : Nat) (escape match_ : Char) (str : List Char) : Prop :=
  (escapeText escape match_ str).length < dstSize ∧
    ((escapeText escape match_ str).length = dstSize - 1 →
      ∀ init d c, str = init ++ [d, c] → isReserved escape match_ d = true →
        isReserved escape match_ c = true)

theorem wstrEscape_eq {escape match_ : Char} (h : Fits dstSize escape match_ str) :
    wstrEscape dstSize str escape match_ = escapeText escape match_ str := by
  have hloop :=
    wstrEscapeLoop_eq str [] (Nat.lt_succ_self str.length) (by simpa using h.1) (by simpa using h.2)
  rw [wstrEscape, hloop, nil_append]

end WazAISentinel.Shared
