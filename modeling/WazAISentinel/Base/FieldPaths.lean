import Mathlib.Tactic.IntervalCases
import WazAISentinel.Base.DotPath

/-!
# When the two readers of field paths agree

Both readers are described by the characters and separators that they see in a path. They differ in
the backslashes: `DotPath` takes two of them for one, and one before another character for itself;
`formatJsonPath` drops the first one of a run, and takes a dot behind a run for a character.
`runAgrees` says for which runs this is the same.
-/

namespace WazAISentinel.Base

open List

/-! ## Segments -/

/-- The segments between the separators (`none`). -/
def segments : List (Option Char) → List (List Char)
  | [] => [[]]
  | none :: rest => [] :: segments rest
  | some c :: rest => (segments rest).modifyHead (c :: ·)

variable (symbols : List (Option Char))

theorem exists_segments :
    ∃ first others, segments symbols = first :: others := by
  induction symbols with
  | nil => exact ⟨[], [], rfl⟩
  | cons s symbols ih =>
    obtain ⟨first, others, heq⟩ := ih
    cases s with
    | none => exact ⟨[], _, rfl⟩
    | some c => exact ⟨c :: first, others, by rw [segments, heq, modifyHead_cons]⟩

/-- The symbols of which the segments are. -/
def joined : List (List Char) → List (Option Char)
  | [] => []
  | [segment] => segment.map some
  | segment :: next :: segments => segment.map some ++ none :: joined (next :: segments)

theorem joined_segments : joined (segments symbols) = symbols := by
  induction symbols with
  | nil => rfl
  | cons s symbols ih =>
    obtain ⟨first, others, heq⟩ := exists_segments symbols
    rw [heq] at ih
    cases s with
    | none =>
      rw [segments, heq, joined, ih]
      rfl
    | some c =>
      rw [segments, heq, modifyHead_cons]
      cases others with
      | nil =>
        rw [joined] at ih ⊢
        rw [map_cons, ih]
      | cons next others =>
        rw [joined] at ih ⊢
        rw [map_cons, cons_append, ih]

theorem segments_inj {s t : List (Option Char)} : segments s = segments t ↔ s = t :=
  (Function.LeftInverse.injective joined_segments).eq_iff

/-! ## The symbols of a dot path -/

/-- A dotted path, read symbol by symbol; `none` is a separator. -/
def dotSymbols : List Char → List (Option Char)
  | [] => []
  | [c] => [if c = '.' then none else some c]
  | c :: d :: rest =>
    if c = '\\' then if d = '\\' ∨
      d = '.' then some d :: dotSymbols rest else some c :: dotSymbols (d :: rest)
    else (if c = '.' then none else some c) :: dotSymbols (d :: rest)

/-- A character that goes to the last segment. -/
theorem modifyHead_append_some (back : List Char) (c : Char) (symbols : List (Option Char)) :
    (segments symbols).modifyHead (back ++ [c] ++ ·) =
      (segments (some c :: symbols)).modifyHead (back ++ ·) := by
  obtain ⟨first, others, heq⟩ := exists_segments symbols
  rw [segments, heq, modifyHead_cons, modifyHead_cons, modifyHead_cons, append_assoc]
  rfl

theorem modifyHead_append_none (back : List Char) (symbols : List (Option Char)) :
    back :: (segments symbols).modifyHead ([] ++ ·) =
      (segments (none :: symbols)).modifyHead (back ++ ·) := by
  obtain ⟨first, others, heq⟩ := exists_segments symbols
  rw [segments, heq, modifyHead_cons, modifyHead_cons, append_nil]
  rfl

theorem splitEscapedLoop_eq (input : List Char) (splitted : List (List Char)) (back : List Char) :
    splitEscapedLoop '.' '\\' input splitted back = splitted ++
      (segments (dotSymbols input)).modifyHead (back ++ ·) := by
  induction input, splitted, back using splitEscapedLoop.induct '.' '\\' with
  | case1 splitted back =>
    rw [splitEscapedLoop, dotSymbols, segments, modifyHead_cons, append_nil]
  | case2 splitted back =>
    rw [splitEscapedLoop, if_pos rfl, dotSymbols, if_pos rfl, ← modifyHead_append_none,
      append_assoc]
    rfl
  | case3 c splitted back hc =>
    rw [splitEscapedLoop, if_neg hc, dotSymbols, if_neg hc, ← modifyHead_append_some, segments,
      modifyHead_cons, append_nil]
  | case4 d rest splitted back hd ih =>
    rw [splitEscapedLoop, if_pos rfl, if_pos hd, ih, dotSymbols, if_pos rfl, if_pos hd,
      modifyHead_append_some]
  | case5 d rest splitted back hd ih =>
    rw [splitEscapedLoop, if_pos rfl, if_neg hd, ih, dotSymbols, if_pos rfl, if_neg hd,
      modifyHead_append_some]
  | case6 d rest splitted back hc ih =>
    rw [splitEscapedLoop, if_neg hc, if_pos rfl, ih, dotSymbols, if_neg hc, if_pos rfl,
      ← modifyHead_append_none, append_assoc]
    rfl
  | case7 c d rest splitted back hc hdot ih =>
    rw [splitEscapedLoop, if_neg hc, if_neg hdot, ih, dotSymbols, if_neg hc, if_neg hdot,
      modifyHead_append_some]

theorem splitEscaped_eq (input : List Char) :
    splitEscaped input '.' '\\' = segments (dotSymbols input) := by
  obtain ⟨first, others, heq⟩ := exists_segments (dotSymbols input)
  rw [splitEscaped, splitEscapedLoop_eq, heq]
  rfl

variable {text : List Char} {c : Char} (n : Nat)

theorem DotPath.parse_ok {path : DotPath} (h : DotPath.parse text = .ok path) :
    path.parts = if withoutLeadingDot text = [] then []
      else segments (dotSymbols (withoutLeadingDot text)) := by
  rw [DotPath.parse] at h
  dsimp only at h
  split at h
  · rename_i hstr
    obtain rfl := Except.ok.inj h
    rw [if_pos hstr]
  · rename_i hstr
    rw [if_neg hstr, ← splitEscaped_eq]
    split at h
    · cases h
    · obtain rfl := Except.ok.inj h
      rfl

/-! ## The symbols of a JSON pointer -/

/-- The same for the loop that writes the pointer. -/
def pointerSymbols : Bool → List Char → List (Option Char)
  | _, [] => []
  | prevCharWasSlash, c :: rest =>
    (if c = '.' ∧ prevCharWasSlash = false then [none] else if c ≠ '\\' ∨
      prevCharWasSlash = true then [some c] else []) ++ pointerSymbols (c = '\\') rest

/-- The escapes of a JSON pointer. -/
def encodeChar (c : Char) : List Char :=
  if c = '~' then ['~', '0'] else if c = '/' then ['~', '1'] else [c]

/-- A text in a JSON pointer. -/
def encode (text : List Char) : List Char := text.flatMap encodeChar

theorem replaceChar_replaceChar :
    replaceChar '/' ['~', '1'] (replaceChar '~' ['~', '0'] text) = encode text := by
  induction text with
  | nil => rfl
  | cons c text ih =>
    rw [replaceChar, replaceChar] at ih ⊢
    rw [flatMap_cons, flatMap_append, ih, encode, encode, flatMap_cons, encodeChar]
    by_cases htilde : c = '~'
    · subst htilde
      rfl
    · rw [if_neg htilde, if_neg htilde, flatMap_singleton]

/-- A symbol in a JSON pointer. -/
def encodeSymbol : Option Char → List Char
  | none => ['/']
  | some c => encodeChar c

/-- The dots are replaced in the same way before and behind the other two replacements. -/
theorem replaceDots_encode (prev : Bool) (text : List Char) :
    replaceDots prev (encode text) = (pointerSymbols prev text).flatMap encodeSymbol := by
  induction text generalizing prev with
  | nil => rfl
  | cons c text ih =>
    rw [encode, flatMap_cons, pointerSymbols, flatMap_append, ← ih, encode]
    by_cases htilde : c = '~'
    · subst htilde
      rfl
    · by_cases hslash : c = '/'
      · subst hslash
        rfl
      · rw [encodeChar, if_neg htilde, if_neg hslash, singleton_append, replaceDots]
        by_cases hdot : c = '.'
        · subst hdot
          cases prev with
          | true => rfl
          | false => rfl
        · by_cases hback : c = '\\'
          · subst hback
            cases prev with
            | true => rfl
            | false => rfl
          · simp [hdot, hback, encodeSymbol, encodeChar, htilde, hslash]

theorem slash_not_mem_encodeChar : '/' ∉ encodeChar c := by
  rw [encodeChar]
  split
  · decide
  · split_ifs with hslash
    · decide
    · rw [mem_singleton]
      exact fun h => hslash h.symm

theorem splitOn_append {first : List Char} (hfirst : '/' ∉ first) :
    (first ++ text).splitOn '/' = (text.splitOn '/').modifyHead (first ++ ·) := by
  induction first with
  | nil => exact (congrFun modifyHead_id _).symm
  | cons c first ih =>
    rw [mem_cons, not_or] at hfirst
    rw [cons_append, splitOn_cons_eq_if_modifyHead, if_neg fun h => hfirst.1 (beq_iff_eq.1 h).symm,
      ih hfirst.2, modifyHead_modifyHead]
    rfl

/-- The slashes of a pointer are its separators, as those of the parts are encoded. -/
theorem splitOn_encode :
    (symbols.flatMap encodeSymbol).splitOn '/' = (segments symbols).map encode := by
  induction symbols with
  | nil => rfl
  | cons s symbols ih =>
    rw [flatMap_cons]
    cases s with
    | none =>
      rw [encodeSymbol, singleton_append, splitOn_cons_eq_if_modifyHead,
        if_pos (beq_self_eq_true '/'), ih, segments]
      rfl
    | some c =>
      obtain ⟨first, others, heq⟩ := exists_segments symbols
      rw [encodeSymbol, splitOn_append slash_not_mem_encodeChar, ih, segments, heq]
      rfl

/-! ### Decoding -/

theorem replacePair_cons {d e : Char} (he : e ≠ c) (replacement : Char) :
    replacePair c d replacement (e :: text) = e :: replacePair c d replacement text := by
  cases text with
  | nil => rfl
  | cons f text => rw [replacePair, if_neg fun h => he h.1]

theorem replacePair_encode :
    replacePair '~' '1' '/' (encode text) = replaceChar '~' ['~', '0'] text := by
  induction text with
  | nil => rfl
  | cons c text ih =>
    rw [encode, flatMap_cons, replaceChar, flatMap_cons, ← encode, ← replaceChar, ← ih, encodeChar]
    by_cases htilde : c = '~'
    · rw [if_pos htilde, if_pos htilde]
      change replacePair '~' '1' '/' ('~' :: '0' :: encode text) = '~' :: '0' ::
          replacePair '~' '1' '/' (encode text)
      rw [replacePair, if_neg (by decide), replacePair_cons (by decide)]
    · rw [if_neg htilde, if_neg htilde]
      by_cases hslash : c = '/'
      · subst hslash
        rfl
      · rw [if_neg hslash]
        exact replacePair_cons htilde '/'

theorem replacePair_replaceChar :
    replacePair '~' '0' '~' (replaceChar '~' ['~', '0'] text) = text := by
  induction text with
  | nil => rfl
  | cons c text ih =>
    rw [replaceChar, flatMap_cons, ← replaceChar]
    by_cases htilde : c = '~'
    · subst htilde
      change '~' :: replacePair '~' '0' '~' (replaceChar '~' ['~', '0'] text) = _
      rw [ih]
    · rw [if_neg htilde, singleton_append, replacePair_cons htilde, ih]

theorem decodeToken_encode : decodeToken (encode text) = text := by
  rw [decodeToken, replacePair_encode, replacePair_replaceChar]

theorem map_decodeToken_splitOn :
    ((symbols.flatMap encodeSymbol).splitOn '/').map decodeToken = segments symbols := by
  rw [splitOn_encode, map_map]
  conv_rhs => rw [← map_id (segments symbols)]
  exact map_congr_left fun segment _ => decodeToken_encode

/-- Behind a backslash each character is kept. -/
theorem pointerSymbols_true_cons (c : Char) (text : List Char) :
    pointerSymbols true (c :: text) = some c :: pointerSymbols (c = '\\') text := by
  rw [pointerSymbols, if_neg fun h => Bool.noConfusion h.2, if_pos (.inr rfl), singleton_append]

theorem pointerSymbols_false_cons (hback : c ≠ '\\') (text : List Char) :
    pointerSymbols false (c :: text) = (if c = '.' then none else some c) ::
      pointerSymbols false text := by
  rw [pointerSymbols, decide_eq_false hback]
  by_cases hdot : c = '.'
  · rw [if_pos ⟨hdot, rfl⟩, if_pos hdot, singleton_append]
  · rw [if_neg fun h => hdot h.1, if_neg hdot, if_pos (.inl hback), singleton_append]

/-- A path that does not begin with a dot does not begin with a separator. -/
theorem pointerSymbols_head (hc : c ≠ '.') :
    pointerSymbols false (c :: text) = [] ∨
      ∃ d symbols, pointerSymbols false (c :: text) = some d :: symbols := by
  by_cases hback : c = '\\'
  · subst hback
    cases text with
    | nil => exact .inl rfl
    | cons d text => exact .inr ⟨d, _, pointerSymbols_true_cons d text⟩
  · refine .inr ⟨c, pointerSymbols false text, ?_⟩
    rw [pointerSymbols_false_cons hback, if_neg hc]

theorem exists_encodeChar : ∃ d text, encodeChar c = d :: text ∧ d ≠ '/' := by
  rw [encodeChar]
  split
  · exact ⟨'~', ['0'], rfl, by decide⟩
  · split_ifs with hslash
    · exact ⟨'~', ['1'], rfl, by decide⟩
    · exact ⟨c, [], rfl, hslash⟩

/-- The parts that the pointer names. -/
theorem decodePointer_formatJsonPath (h : text ≠ []) :
    decodePointer (formatJsonPath text false) =
      if DotPath.withoutLeadingDot text = [] then []
        else segments (pointerSymbols false (DotPath.withoutLeadingDot text)) := by
  cases text with
  | nil => exact absurd rfl h
  | cons c text =>
    have hrewritten := replaceDots_encode false (c :: text)
    rw [formatJsonPath, replaceChar_replaceChar, DotPath.withoutLeadingDot]
    dsimp only
    rw [if_neg Bool.false_ne_true, hrewritten]
    by_cases hdot : c = '.'
    · subst hdot
      rw [if_pos rfl]
      cases text with
      | nil => rfl
      | cons d text =>
        -- the leading dot is the slash of the first part
        rw [pointerSymbols_false_cons (by decide), if_pos rfl, if_neg (fun heq => by cases heq.2),
          if_neg (cons_ne_nil d text)]
        exact map_decodeToken_splitOn (pointerSymbols false (d :: text))
    · rw [if_neg hdot, if_neg (cons_ne_nil c text), if_neg fun heq => hdot (cons.inj heq.2).1]
      rcases pointerSymbols_head hdot with hnil | ⟨d, symbols, hcons⟩
      · rw [hnil]
        rfl
      · have hparts := map_decodeToken_splitOn (some d :: symbols)
        obtain ⟨e, others, hencode, he⟩ := exists_encodeChar
        rw [hcons, ← hparts, flatMap_cons, encodeSymbol, hencode, cons_append]
        dsimp only
        rw [if_pos he]
        rfl

/-! ## Runs of backslashes -/

/-- The runs of backslashes that both readers take in the same way: none or one before a dot, and
none, two or three before another character or at the end. -/
def runAgrees (length : Nat) (next : Option Char) : Bool :=
  if next = some '.' then length ≤ 1 else length = 0 ∨ length = 2 ∨ length = 3

/-- All runs of backslashes in a text are such, where the first one has already begun. -/
def runsAgree : Nat → List Char → Bool
  | begun, [] => runAgrees begun none
  | begun, c :: rest =>
    if c = '\\' then runsAgree (begun + 1) rest else runAgrees begun (some c) && runsAgree 0 rest

/-- `DotPath` takes two backslashes for one. -/
theorem dotSymbols_run : (n : Nat) → (rest : List Char) →
    dotSymbols (replicate n '\\' ++ rest) =
      replicate (n / 2) (some '\\') ++ dotSymbols (replicate (n % 2) '\\' ++ rest)
  | 0, _ => rfl
  | 1, _ => rfl
  | n + 2, rest => by
      have hpair :
        replicate (n + 2) '\\' ++ rest = '\\' :: '\\' :: (replicate n '\\' ++ rest) := rfl
      rw [hpair, dotSymbols, if_pos rfl, if_pos (.inl rfl), dotSymbols_run n rest,
        Nat.add_mod_right, Nat.add_div_right n two_pos]
      rfl

theorem dotSymbols_cons (hback : c ≠ '\\') (rest : List Char) :
    dotSymbols (c :: rest) = (if c = '.' then none else some c) :: dotSymbols rest := by
  cases rest with
  | nil => rfl
  | cons d rest => rw [dotSymbols, if_neg hback]

theorem dotSymbols_run_dot (rest : List Char) :
    dotSymbols (replicate n '\\' ++ '.' :: rest) =
      replicate (n / 2) (some '\\') ++ (if n % 2 = 0 then none else some '.') ::
        dotSymbols rest := by
  rw [dotSymbols_run]
  rcases Nat.mod_two_eq_zero_or_one n with h | h
  · rw [h, if_pos rfl, replicate_zero, nil_append, dotSymbols_cons (by decide), if_pos rfl]
  · rw [h, if_neg (by decide)]
    rfl

theorem dotSymbols_run_cons (hback : c ≠ '\\') (hdot : c ≠ '.') (rest : List Char) :
    dotSymbols (replicate n '\\' ++ c :: rest) =
      replicate (n / 2 + n % 2) (some '\\') ++ some c :: dotSymbols rest := by
  rw [dotSymbols_run, replicate_add, append_assoc]
  congr 1
  rcases Nat.mod_two_eq_zero_or_one n with h | h
  · rw [h, replicate_zero, nil_append, dotSymbols_cons hback, if_neg hdot]
    rfl
  · rw [h]
    change dotSymbols ('\\' :: c :: rest) = some '\\' :: some c :: dotSymbols rest
    rw [dotSymbols, if_pos rfl, if_neg (not_or.2 ⟨hback, hdot⟩), dotSymbols_cons hback, if_neg hdot]

theorem dotSymbols_run_end :
    dotSymbols (replicate n '\\') = replicate (n / 2 + n % 2) (some '\\') := by
  have hrun := dotSymbols_run n []
  rw [append_nil, append_nil] at hrun
  rw [hrun, replicate_add]
  rcases Nat.mod_two_eq_zero_or_one n with h | h
  · rw [h]
    rfl
  · rw [h]
    rfl

/-- `formatJsonPath` drops the first backslash of a run. -/
theorem pointerSymbols_run (rest : List Char) :
    pointerSymbols false (replicate n '\\' ++ rest) =
      replicate (n - 1) (some '\\') ++ pointerSymbols (0 < n) rest := by
  have hbehind : ∀ m, pointerSymbols true (replicate m '\\' ++ rest) =
      replicate m (some '\\') ++ pointerSymbols true rest := by
    intro m
    induction m with
    | zero => rfl
    | succ m ih =>
      rw [replicate_succ, cons_append, pointerSymbols_true_cons, decide_eq_true rfl, ih]
      rfl
  cases n with
  | zero => rfl
  | succ n => exact hbehind n

theorem pointerSymbols_run_dot (rest : List Char) :
    pointerSymbols false (replicate n '\\' ++ '.' :: rest) =
      replicate (n - 1) (some '\\') ++ (if n = 0 then none else some '.') ::
        pointerSymbols false rest := by
  rw [pointerSymbols_run]
  cases n with
  | zero => rfl
  | succ n => rfl

theorem pointerSymbols_run_cons (hback : c ≠ '\\') (hdot : c ≠ '.') (rest : List Char) :
    pointerSymbols false (replicate n '\\' ++ c :: rest) =
      replicate (n - 1) (some '\\') ++ some c :: pointerSymbols false rest := by
  rw [pointerSymbols_run]
  cases n with
  | zero =>
    have hfirst := pointerSymbols_false_cons hback rest
    rw [if_neg hdot] at hfirst
    exact congrArg _ hfirst
  | succ n =>
    have hfirst := pointerSymbols_true_cons c rest
    rw [decide_eq_false hback] at hfirst
    exact congrArg _ hfirst

/-- What follows a run of a symbol tells how long it is. -/
theorem replicate_append_cons_inj {s x y : Option Char} (hx : x ≠ s) (hy : y ≠ s) {m n : Nat}
    {l k : List (Option Char)} :
    replicate m s ++ x :: l = replicate n s ++ y :: k ↔ m = n ∧ x = y ∧ l = k := by
  constructor
  · intro h
    induction m generalizing n with
    | zero =>
      cases n with
      | zero =>
        obtain ⟨rfl, rfl⟩ := cons.inj h
        exact ⟨rfl, rfl, rfl⟩
      | succ n => exact absurd (cons.inj h).1 hx
    | succ m ih =>
      cases n with
      | zero => exact absurd (cons.inj h).1.symm hy
      | succ n =>
        obtain ⟨rfl, hrest⟩ := ih (cons.inj h).2
        exact ⟨rfl, hrest⟩
  · rintro ⟨rfl, rfl, rfl⟩
    rfl

theorem pred_eq_half_iff : n - 1 = n / 2 + n % 2 ↔ n = 0 ∨ n = 2 ∨ n = 3 := by omega

theorem dot_run_iff :
    n - 1 = n / 2 ∧
      (if n = 0 then none else some '.') = (if n % 2 = 0 then none else some '.') ↔ n ≤ 1 := by
  constructor
  · rintro ⟨hlength, hmark⟩
    by_contra hlong
    -- only two backslashes are one to both readers, and then one of them sees a separator
    obtain rfl : n = 2 := by omega
    cases hmark
  · intro h
    interval_cases n
    · exact ⟨rfl, rfl⟩
    · exact ⟨rfl, rfl⟩

/-- Between two runs there is a character, so that no run can make up for another. -/
theorem pointerSymbols_eq_dotSymbols_iff (text : List Char) :
    pointerSymbols false (replicate n '\\' ++ text) = dotSymbols (replicate n '\\' ++ text) ↔
      runsAgree n text = true := by
  induction text generalizing n with
  | nil =>
    rw [pointerSymbols_run, append_nil, dotSymbols_run_end, pointerSymbols, append_nil,
      replicate_inj, runsAgree,
      runAgrees, if_neg (fun h => by cases h), decide_eq_true_iff, ← pred_eq_half_iff]
    exact and_iff_left (.inr rfl)
  | cons c text ih =>
    have hnext := ih 0
    rw [replicate_zero, nil_append] at hnext
    rw [runsAgree]
    by_cases hback : c = '\\'
    · subst hback
      have hlonger : replicate n '\\' ++ '\\' :: text = replicate (n + 1) '\\' ++ text := by
        rw [replicate_succ', append_assoc]
        rfl
      rw [if_pos rfl, hlonger]
      exact ih (n + 1)
    · rw [if_neg hback, Bool.and_eq_true, ← hnext]
      by_cases hdot : c = '.'
      · subst hdot
        have hpointer : (if n = 0 then none else some '.') ≠ some '\\' := by
          split
          · decide
          · decide
        have hdots : (if n % 2 = 0 then none else some '.') ≠ some '\\' := by
          split
          · decide
          · decide
        rw [pointerSymbols_run_dot, dotSymbols_run_dot, replicate_append_cons_inj hpointer hdots,
          ← and_assoc, dot_run_iff, runAgrees, if_pos rfl, decide_eq_true_iff]
      · have hchar : some c ≠ some '\\' := fun h => hback (Option.some_inj.1 h)
        rw [pointerSymbols_run_cons n hback hdot, dotSymbols_run_cons n hback hdot,
          replicate_append_cons_inj hchar hchar, pred_eq_half_iff, runAgrees,
          if_neg fun h => hdot (Option.some_inj.1 h), decide_eq_true_iff]
        exact and_congr_right fun _ => and_iff_right rfl

/-! ## Agreement -/

theorem runsAgree_withoutLeadingDot :
    runsAgree 0 (DotPath.withoutLeadingDot text) = runsAgree 0 text := by
  cases text with
  | nil => rfl
  | cons c text =>
    rw [DotPath.withoutLeadingDot]
    split_ifs with hdot
    · subst hdot
      rfl
    · rfl

/-- For a text that `DotPath` accepts, the two readers agree if it is not empty and all its runs of
backslashes are taken in the same way. -/
theorem readers_agree_iff (text : List Char) (path : DotPath) (h : DotPath.parse text = .ok path) :
    decodePointer (formatJsonPath text false) = path.parts ↔
      text ≠ [] ∧ runsAgree 0 text = true := by
  rw [DotPath.parse_ok h]
  by_cases hnil : text = []
  · subst hnil
    exact iff_of_false (fun heq => by cases heq) fun h => h.1 rfl
  · have hruns := pointerSymbols_eq_dotSymbols_iff 0 (DotPath.withoutLeadingDot text)
    rw [runsAgree_withoutLeadingDot] at hruns
    rw [decodePointer_formatJsonPath hnil]
    by_cases hroot : DotPath.withoutLeadingDot text = []
    · rw [if_pos hroot, if_pos hroot]
      refine ⟨fun _ => ⟨hnil, hruns.1 ?_⟩, fun _ => rfl⟩
      rw [hroot]
      rfl
    · rw [if_neg hroot, if_neg hroot, segments_inj]
      exact hruns.trans (and_iff_right hnil).symm

/-- An escaped dot, a tilde and a slash. -/
theorem readers_agree_iff_escapedDot :
    DotPath.parse ['a', '\\', '.', '~', '.', '/'] =
      .ok ⟨['a', '\\', '.', '~', '.', '/'], [['a', '.', '~'], ['/']]⟩ ∧
      decodePointer (formatJsonPath ['a', '\\', '.', '~', '.', '/'] false) =
        [['a', '.', '~'], ['/']] := by
  refine ⟨?hparse, (readers_agree_iff _ ⟨_, _⟩ ?hparse).2 ⟨List.cons_ne_nil _ _, rfl⟩⟩
  rfl

/-- An escaped backslash before a separator: the pointer has one part, with a backslash and a dot in
it. -/
theorem escaped_backslash_before_dot :
    ∃ path, DotPath.parse ['a', '\\', '\\', '.', 'b'] = .ok path ∧
      path.parts = [['a', '\\'], ['b']] ∧
      decodePointer (formatJsonPath ['a', '\\', '\\', '.', 'b'] false) = [['a', '\\', '.', 'b']] ∧
        decodePointer (formatJsonPath ['a', '\\', '\\', '.', 'b'] false) ≠ path.parts :=
  ⟨_, rfl, rfl, rfl, by decide⟩

end WazAISentinel.Base
