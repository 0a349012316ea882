import Mathlib.Data.List.Chain
import WazAISentinel.Foundations.GreedySequence
import WazAISentinel.OsRegex.OsRegex

/-!
# The language of regular expressions

What a pattern means is said in its own terms: it is a list of characters and escapes (`tokens`),
split at `|`, and an alternative is a sequence of literal characters and classes, the latter with
`+` or `*` or without (`pieces`), to be found in the string at any place or, with `^` and `$`, at
its beginning or its end. Parentheses mean nothing. `OSRegex_Compile` keeps the pieces of each
alternative in their order.
-/

namespace WazAISentinel.OsRegex

open Foundations List

/-! ## The meaning of a pattern -/

/-- A character of a pattern, or a character behind a backslash. -/
inductive Token where
  | char (b : UInt8)
  | escape (e : UInt8)
  deriving DecidableEq

def tokens : Text → List Token
  | [] => []
  | c :: pt =>
    if c = backslash then
      match pt with
      | [] => [.char c]
      | e :: pt => .escape e :: tokens pt
    else .char c :: tokens pt

def isDigit (c : UInt8) : Bool := 48 ≤ c.toNat && c.toNat ≤ 57

def isLetter (c : UInt8) : Bool := (65 ≤ c.toNat && c.toNat ≤ 90) || (97 ≤ c.toNat && c.toNat ≤ 122)

/-- Letters, digits, `-`, `@` and `_`. -/
def isWordChar (c : UInt8) : Bool := isLetter c || isDigit c || c = 45 || c = 64 || c = 95

/-- The characters `()*+,-.:;<=>?[]!"'#$%&|{}`. -/
def isPunctuation (c : UInt8) : Bool :=
  (33 ≤ c.toNat && c.toNat ≤ 46) || (58 ≤ c.toNat && c.toNat ≤ 63) || c = 91 || c = 93 ||
    (123 ≤ c.toNat && c.toNat ≤ 125)

/-- The characters an escape stands for. -/
def classOf (e c : UInt8) : Bool :=
  if e = 100 then isDigit c              -- d
  else if e = 119 then isWordChar c      -- w
  else if e = 115 then c = 32            -- s
  else if e = 112 then isPunctuation c   -- p
  else if e = 68 then !isDigit c         -- D
  else if e = 87 then !isWordChar c      -- W
  else if e = 83 then c ≠ 32             -- S
  else if e = 46 then true               -- .
  else if e = 116 then c = 9             -- t
  else c = e

/-- An element of an alternative: a literal character, or a class that may repeat. -/
inductive Element where
  | literal (b : UInt8)
  | cls (e : UInt8) (q : Quantifier)
  deriving DecidableEq

/-- What an element matches. -/
def Element.item : Element → SeqItem UInt8
  | .literal b => ⟨fun c => charmap c = charmap b, .once⟩
  | .cls e q => ⟨classOf e, q⟩

/-- The parts of an alternative: parentheses and elements. -/
inductive Piece where
  | paren
  | elem (e : Element)
  deriving DecidableEq

/-- A `+` or `*` directly behind a class belongs to it; elsewhere it is a literal character. -/
def pieces : List Token → List Piece
  | [] => []
  | .char b :: ts =>
    (if b = openParenthesis ∨ b = closeParenthesis then .paren else .elem (.literal b)) :: pieces ts
  | .escape e :: ts =>
    match ts with
    | [] => [.elem (.cls e .once)]
    | t :: ts =>
      if t = .char plus then .elem (.cls e .plus) :: pieces ts
      else if t = .char asterisk then .elem (.cls e .star) :: pieces ts
      else .elem (.cls e .once) :: pieces (t :: ts)

def Piece.element? : Piece → Option Element
  | .paren => none
  | .elem e => some e

/-- The elements; parentheses only mark. -/
def elements (ps : List Piece) : List Element := ps.filterMap Piece.element?

/-- What the elements match, as a sequence. -/
def itemsOf (ps : List Piece) : List (SeqItem UInt8) := (elements ps).map Element.item

/-- An alternative without its anchors. -/
structure Alternative where
  begins : Bool
  ends : Bool
  body : List Piece

def stripBegin (ts : List Token) : List Token :=
  if ts.head? = some (.char beginRegex) then ts.tail else ts

def stripEnd (ts : List Token) : List Token :=
  if ts.getLast? = some (.char endRegex) then ts.dropLast else ts

/-- The anchors of an alternative, and what is between them. -/
def alternative (ts : List Token) : Alternative :=
  ⟨ts.head? = some (.char beginRegex), (stripBegin ts).getLast? = some (.char endRegex),
    pieces (stripEnd (stripBegin ts))⟩

/-- The alternatives of a pattern. -/
def regexAlternatives (pattern : Text) : List Alternative :=
  ((tokens pattern).splitOn (.char orChar)).map alternative

/-- The alternative matches the string. -/
def Alternative.Matches (alt : Alternative) (str : Text) : Prop :=
  ∃ front found back, str = front ++ (found ++ back) ∧ SeqItem.SeqMatches (itemsOf alt.body) found ∧
    (alt.begins = true → front = []) ∧ (alt.ends = true → back = [])

/-! ## Classes -/

variable {code e b c : UInt8} {α ε : Type} {pattern : Text} {ts : List Token} {t : Token}
  {r : Except ε α}

theorem mem_escapeCodes (h : escapeCode e = some code) : (e, code) ∈ escapeCodes := by
  obtain ⟨l₁, l₂, heq, -⟩ := lookup_eq_some_iff.1 h
  rw [heq]
  exact mem_append_right l₁ mem_cons_self

/-- The row of an escape has the characters it stands for. -/
theorem regexmap_escapeCode (h : escapeCode e = some code) : regexmap code c = classOf e c := by
  have hrows : ∀ pair ∈ escapeCodes, regexmap pair.2 c = classOf pair.1 c := by
    have hc := c.toNat_lt
    simp only [escapeCodes, forall_mem_cons, not_mem_nil, false_imp_iff, forall_const, and_true]
    refine ⟨?_, ?_, ?_, ?_, ?_, ?_, ?_, ?_, ?_, ?_, ?_, ?_, ?_, ?_, ?_⟩ <;> rw [Bool.eq_iff_iff]
    -- in every row both sides are bounds for the number of the character
    all_goals simp [regexmap, regexRow, classOf, isWordChar, isLetter, isDigit, isPunctuation,
      ← UInt8.toNat_inj]
    all_goals omega
  exact hrows (e, code) (mem_escapeCodes h)

/-- The numbers of the rows are no characters with a meaning of their own. -/
theorem escapeCode_le (h : escapeCode e = some code) : 1 ≤ code.toNat ∧ code.toNat ≤ 15 := by
  have hcodes :
    (escapeCodes.all fun pair => 1 ≤ pair.2.toNat ∧ pair.2.toNat ≤ 15) = true := by decide
  exact of_decide_eq_true (all_eq_true.1 hcodes (e, code) (mem_escapeCodes h))

/-! ## Compiling -/

/-- What a token becomes. -/
def Token.encode : Token → Text
  | .char b => [charmap (if b = closeParenthesis then openParenthesis else b)]
  | .escape e => [backslash, (escapeCode e).getD 0]

/-- A token of a pattern that is accepted. -/
def Token.Valid : Token → Prop
  | .char b => b ≠ backslash ∧ b ≠ 0
  | .escape e => (escapeCode e).isSome = true

theorem ok_of_ite_error {p : Prop} [Decidable p] {e : ε} {a : α}
    (h : (if p then .error e else r) = .ok a) : r = .ok a := by
  by_cases hp : p
  · rw [if_pos hp] at h
    cases h
  · rwa [if_neg hp] at h

/-- The first loop of `OSRegex_Compile` turns each token into its code. -/
theorem rewrite_eq {parenthesis : Int} {prtsSize : Nat} {r : Rewritten} (hzero : 0 ∉ pattern)
    (h : rewrite false pattern parenthesis prtsSize = .ok r) :
    r.text = (tokens pattern).flatMap Token.encode ∧ ∀ t ∈ tokens pattern, t.Valid := by
  induction pattern using tokens.induct generalizing parenthesis prtsSize r with
  | case1 =>
    cases h
    exact ⟨rfl, fun t ht => absurd ht not_mem_nil⟩
  | case2 =>
    rw [rewrite, if_pos rfl] at h
    cases h
  | case3 e pt ih =>
    rw [rewrite, if_pos rfl] at h
    rw [tokens, if_pos rfl]
    cases hcode : escapeCode e with
    | none =>
      simp only [hcode] at h
      cases h
    | some code =>
      simp only [hcode] at h
      obtain ⟨r', hr', rfl⟩ := map_eq_ok.1 h
      obtain ⟨htext, hvalid⟩ := ih (fun h0 => hzero (mem_cons_of_mem _ (mem_cons_of_mem _ h0))) hr'
      refine ⟨?_, forall_mem_cons.2 ⟨?_, hvalid⟩⟩
      · rw [flatMap_cons, ← htext, Token.encode, hcode]
        rfl
      · rw [Token.Valid, hcode]
        rfl
  | case4 c pt hc ih =>
    have htokens : tokens (c :: pt) = .char c :: tokens pt := by
      rw [tokens.eq_def]
      exact if_neg hc
    rw [htokens]
    rw [rewrite.eq_def] at h
    dsimp only at h
    rw [if_neg hc] at h
    obtain ⟨r', hr', rfl⟩ := map_eq_ok.1 (ok_of_ite_error (ok_of_ite_error h))
    obtain ⟨htext, hvalid⟩ := ih (fun h0 => hzero (mem_cons_of_mem _ h0)) hr'
    refine ⟨?_, forall_mem_cons.2 ⟨⟨hc, fun h0 => hzero (h0 ▸ mem_cons_self)⟩, hvalid⟩⟩
    rw [flatMap_cons, ← htext]
    rfl

/-- The codes of a list of tokens. -/
def encodeTokens (ts : List Token) : Text := ts.flatMap Token.encode

theorem encodeTokens_append (ts us : List Token) :
    encodeTokens (ts ++ us) = encodeTokens ts ++ encodeTokens us :=
  flatMap_append

/-- A character that is no letter and no parenthesis is the code of itself only. -/
theorem encode_char_eq_iff (hc : (c.toNat < 65 ∨ 90 < c.toNat ∧ c.toNat < 97 ∨ 122 < c.toNat) ∧
    c ≠ openParenthesis ∧ c ≠ closeParenthesis) :
    charmap (if b = closeParenthesis then openParenthesis else b) = c ↔ b = c := by
  obtain ⟨hletter, hopen, hclose⟩ := hc
  rw [charmap_eq_iff hletter]
  split_ifs with hb
  · exact ⟨fun h => absurd h.symm hopen, fun h => absurd (h.symm.trans hb) hclose⟩
  · exact Iff.rfl

theorem escapeCode_getD_ne (he : (escapeCode e).isSome = true) (hc : 15 < c.toNat) :
    (escapeCode e).getD 0 ≠ c := by
  obtain ⟨code, hcode⟩ := Option.isSome_iff_exists.1 he
  have hle := escapeCode_le hcode
  rw [hcode, Option.getD_some]
  intro heq
  rw [heq] at hle
  omega

/-- The second loop of `OSRegex_Compile` splits the pattern at `|`. -/
theorem subRegexes_encode (newTs : List Token) (hts : ∀ t ∈ ts, t.Valid) :
    subRegexes (encodeTokens newTs) (encodeTokens ts) =
      ((ts.splitOn (.char orChar)).modifyHead (newTs ++ ·)).map fun alt =>
        subRegex (encodeTokens alt) := by
  induction ts generalizing newTs with
  | nil =>
    change [subRegex (encodeTokens newTs)] = [subRegex (encodeTokens (newTs ++ []))]
    rw [append_nil]
  | cons t ts ih =>
    obtain ⟨ht, hts⟩ := forall_mem_cons.1 hts
    have hrest := ih (newTs ++ [t]) hts
    rw [encodeTokens_append] at hrest
    rw [splitOn_collected]
    -- a token other than the separator has no code that looks like it
    by_cases hor : t = .char orChar
    · have hnil := ih [] hts
      rw [modifyHead_nil] at hnil
      rw [if_pos hor, map_cons, ← hnil, hor]
      rfl
    · rw [if_neg hor, ← hrest]
      cases t with
      | char b =>
        change subRegexes _ (charmap _ :: encodeTokens ts) = _
        rw [subRegexes, if_neg]
        · rfl
        · rw [encode_char_eq_iff (by decide)]
          exact fun h => hor (congrArg Token.char h)
      | escape e =>
        change subRegexes _ (backslash :: _ :: encodeTokens ts) = _
        rw [subRegexes, if_neg (by decide), subRegexes, if_neg (escapeCode_getD_ne ht (by decide)),
          append_assoc]
        rfl

section

variable (hc : (c.toNat < 65 ∨ 90 < c.toNat ∧ c.toNat < 97 ∨ 122 < c.toNat) ∧ c ≠ openParenthesis ∧
  c ≠ closeParenthesis)

include hc

theorem head?_encodeTokens_iff (hback : c ≠ backslash) :
    (encodeTokens ts).head? = some c ↔ ts.head? = some (.char c) := by
  cases ts with
  | nil =>
    exact ⟨fun h => absurd h.symm (Option.some_ne_none c),
      fun h => absurd h.symm (Option.some_ne_none _)⟩
  | cons t ts =>
    rw [head?_cons, Option.some_inj]
    cases t with
    | char b =>
      change some (charmap _) = some c ↔ _
      rw [Option.some_inj, encode_char_eq_iff hc]
      exact ⟨congrArg Token.char, Token.char.inj⟩
    | escape e =>
      refine ⟨fun h => absurd (Option.some.inj h).symm hback, fun h => ?_⟩
      cases h

theorem getLast?_encodeTokens_iff (hts : ∀ t ∈ ts, t.Valid) (hcode : 15 < c.toNat) :
    (encodeTokens ts).getLast? = some c ↔ ts.getLast? = some (.char c) := by
  rcases eq_nil_or_concat ts with rfl | ⟨init, t, rfl⟩
  · exact ⟨fun h => absurd h.symm (Option.some_ne_none c),
      fun h => absurd h.symm (Option.some_ne_none _)⟩
  · rw [concat_eq_append, encodeTokens_append, getLast?_concat, Option.some_inj]
    cases t with
    | char b =>
      change (encodeTokens init ++ [charmap _]).getLast? = some c ↔ _
      rw [getLast?_concat, Option.some_inj, encode_char_eq_iff hc]
      exact ⟨congrArg Token.char, Token.char.inj⟩
    | escape e =>
      have he : (escapeCode e).isSome = true := hts (.escape e) (by simp)
      have hsplit : encodeTokens [.escape e] = [backslash] ++ [(escapeCode e).getD 0] := rfl
      rw [hsplit, ← append_assoc, getLast?_concat, Option.some_inj]
      refine ⟨fun h => absurd h (escapeCode_getD_ne he hcode), fun h => ?_⟩
      cases h

end

/-! ## Pieces -/

/-- What a quantifier becomes. -/
def encodeQuantifier : Quantifier → Text
  | .once => []
  | .plus => [plus]
  | .star => [asterisk]

/-- What a piece becomes. -/
def Piece.encode : Piece → Text
  | .paren => [openParenthesis]
  | .elem (.literal b) => [charmap b]
  | .elem (.cls e q) => backslash :: (escapeCode e).getD 0 :: encodeQuantifier q

def encodePieces (ps : List Piece) : Text := ps.flatMap Piece.encode

/-- A piece of a pattern that is accepted. -/
def Piece.Valid : Piece → Prop
  | .paren => True
  | .elem (.literal b) => b ≠ backslash ∧ b ≠ 0 ∧ b ≠ openParenthesis ∧ b ≠ closeParenthesis
  | .elem (.cls e _) => (escapeCode e).isSome = true

/-- A class without `+` and `*` has none of these behind it. -/
def Piece.Spaced (p p' : Piece) : Prop :=
  ∀ e, p = .elem (.cls e .once) → p' ≠ .elem (.literal plus) ∧ p' ≠ .elem (.literal asterisk)

theorem pieces_char :
    pieces (.char b :: ts) =
      (if b = openParenthesis ∨ b = closeParenthesis then .paren else .elem (.literal b)) ::
        pieces ts := by
  rw [pieces]

/-- A literal character at the head of the pieces is the first token. -/
theorem head_pieces (h : (pieces (t :: ts)).head? = some (.elem (.literal b))) : t = .char b := by
  cases t with
  | char c =>
    rw [pieces_char, head?_cons, Option.some_inj] at h
    split at h
    · cases h
    · cases h
      rfl
  | escape e =>
    cases ts with
    | nil => cases h
    | cons t ts =>
      rw [pieces] at h
      split at h
      · cases h
      · split at h <;> cases h

/-- Pieces that are accepted, and the tokens they stand for. -/
structure Encodes (ps : List Piece) (ts : List Token) : Prop where
  encode : encodePieces ps = encodeTokens ts
  valid : ∀ p ∈ ps, p.Valid
  spaced : ps.IsChain Piece.Spaced

theorem Encodes.cons {p : Piece} {ps : List Piece} (h : Encodes ps ts) (us : List Token)
    (hencode : p.encode = encodeTokens us) (hvalid : p.Valid)
    (hspaced : ∀ p' ∈ ps.head?, p.Spaced p') : Encodes (p :: ps) (us ++ ts) where
  encode := by
    rw [encodeTokens_append, ← hencode, ← h.encode]
    rfl
  valid := forall_mem_cons.2 ⟨hvalid, h.valid⟩
  spaced := isChain_cons.2 ⟨hspaced, h.spaced⟩

theorem encodes_pieces (hts : ∀ t ∈ ts, t.Valid) : Encodes (pieces ts) ts := by
  induction ts using pieces.induct with
  | case1 => exact ⟨rfl, fun p hp => absurd hp not_mem_nil, .nil⟩
  | case2 b ts ih =>
    obtain ⟨hb, hts⟩ := forall_mem_cons.1 hts
    rw [pieces_char]
    split
    · rename_i hparen
      refine (ih hts).cons [.char b] ?_ trivial fun _ _ e he => by cases he
      rcases hparen with rfl | rfl
      · rfl
      · rfl
    · rename_i hne
      obtain ⟨hopen, hclose⟩ := not_or.1 hne
      refine (ih hts).cons [.char b] ?_ ⟨hb.1, hb.2, hopen, hclose⟩ fun _ _ e he => by cases he
      rw [encodeTokens, flatMap_singleton, Token.encode, if_neg hclose]
      rfl
  | case3 e =>
    exact ⟨rfl, forall_mem_cons.2
      ⟨hts (.escape e) mem_cons_self, fun p hp => absurd hp not_mem_nil⟩, .singleton _⟩
  | case4 e ts ih =>
    obtain ⟨he, hts⟩ := forall_mem_cons.1 hts
    rw [pieces, if_pos rfl]
    exact (ih (forall_mem_cons.1 hts).2).cons [.escape e, .char plus] rfl he fun _ _ e he => by
      cases he
  | case5 e ts hne ih =>
    obtain ⟨he, hts⟩ := forall_mem_cons.1 hts
    rw [pieces, if_neg hne, if_pos rfl]
    exact (ih (forall_mem_cons.1 hts).2).cons [.escape e, .char asterisk] rfl he fun _ _ e he => by
      cases he
  | case6 e t ts hplus hstar ih =>
    obtain ⟨he, hts⟩ := forall_mem_cons.1 hts
    rw [pieces, if_neg hplus, if_neg hstar]
    refine (ih hts).cons [.escape e] rfl he fun p' hhead _ _ =>
      ⟨fun hp' => hplus ?_, fun hp' => hstar ?_⟩
    · exact head_pieces (hhead.trans (congrArg some hp'))
    · exact head_pieces (hhead.trans (congrArg some hp'))

/-! ## Alternatives -/

theorem mem_of_mem_splitOn {part : List Token} {a : Token} (hpart : part ∈ ts.splitOn a)
    (ht : t ∈ part) : t ∈ ts := by
  have hjoin : [a].intercalate (ts.splitOn a) = ts := intercalate_splitOn a
  rw [← hjoin]
  generalize ts.splitOn a = parts at hpart ⊢
  induction parts with
  | nil => exact absurd hpart not_mem_nil
  | cons first rest ih =>
    cases rest with
    | nil => rwa [intercalate_singleton, ← mem_singleton.1 hpart]
    | cons second rest =>
      rw [intercalate_cons_cons]
      rcases mem_cons.1 hpart with rfl | hpart
      · exact mem_append_left _ (mem_append_left _ ht)
      · exact mem_append_right _ (ih hpart)

/-- An alternative as it is compiled. -/
def Alternative.compiled (alt : Alternative) : SubRegex :=
  ⟨encodePieces alt.body, alt.begins, alt.ends⟩

/-- The pieces are those of a pattern that is accepted. -/
structure Alternative.Valid (alt : Alternative) : Prop where
  pieces : ∀ p ∈ alt.body, p.Valid
  spaced : alt.body.IsChain Piece.Spaced

theorem mem_of_mem_stripBegin (h : t ∈ stripBegin ts) : t ∈ ts := by
  rw [stripBegin] at h
  split at h
  · exact mem_of_mem_tail h
  · exact h

theorem mem_of_mem_stripEnd (h : t ∈ stripEnd ts) : t ∈ ts := by
  rw [stripEnd] at h
  split at h
  · exact mem_of_mem_dropLast h
  · exact h

theorem encodes_alternative (hts : ∀ t ∈ ts, t.Valid) :
    Encodes (alternative ts).body (stripEnd (stripBegin ts)) :=
  encodes_pieces fun t ht => hts t (mem_of_mem_stripBegin (mem_of_mem_stripEnd ht))

theorem encodeTokens_stripBegin :
    (if (encodeTokens ts).head? = some beginRegex then (encodeTokens ts).tail
      else encodeTokens ts) =
      encodeTokens (stripBegin ts) := by
  have hiff : (encodeTokens ts).head? = some beginRegex ↔ ts.head? = some (.char beginRegex) :=
    head?_encodeTokens_iff (by decide) (by decide)
  rw [stripBegin, apply_ite encodeTokens]
  refine ite_congr (propext hiff) (fun h => ?_) fun _ => rfl
  obtain ⟨rest, rfl⟩ := head?_eq_some_iff.1 h
  rfl

theorem encodeTokens_stripEnd (hts : ∀ t ∈ ts, t.Valid) :
    (if (encodeTokens ts).getLast? = some endRegex then (encodeTokens ts).dropLast
      else encodeTokens ts) =
      encodeTokens (stripEnd ts) := by
  have hiff : (encodeTokens ts).getLast? = some endRegex ↔ ts.getLast? = some (.char endRegex) :=
    getLast?_encodeTokens_iff (by decide) hts (by decide)
  rw [stripEnd, apply_ite encodeTokens]
  refine ite_congr (propext hiff) (fun h => ?_) fun _ => rfl
  obtain ⟨init, rfl⟩ := getLast?_eq_some_iff.1 h
  rw [encodeTokens_append, dropLast_concat]
  exact dropLast_concat

/-- The anchors of an alternative are found in its codes. -/
theorem subRegex_encode (hts : ∀ t ∈ ts, t.Valid) :
    subRegex (encodeTokens ts) = (alternative ts).compiled := by
  have hstrip : ∀ t ∈ stripBegin ts, t.Valid := fun t ht => hts t (mem_of_mem_stripBegin ht)
  rw [subRegex, Alternative.compiled, encodeTokens_stripBegin, encodeTokens_stripEnd hstrip,
    (encodes_alternative hts).encode]
  congr 1
  · exact decide_eq_decide.2 (head?_encodeTokens_iff (by decide) (by decide))
  · exact decide_eq_decide.2 (getLast?_encodeTokens_iff (by decide) hstrip (by decide))

/-- `OSRegex_Compile` keeps the alternatives. -/
theorem osRegexCompile_patterns {returnSubstring : Bool} {reg : OSRegex} (hzero : 0 ∉ pattern)
    (h : osRegexCompile (some pattern) false returnSubstring = .ok reg) :
    reg.patterns = (regexAlternatives pattern).map Alternative.compiled ∧
      ∀ alt ∈ regexAlternatives pattern, alt.Valid := by
  rw [osRegexCompile] at h
  have h' := ok_of_ite_error h
  cases hr : rewrite false pattern 0 0 with
  | error e =>
    rw [hr] at h'
    cases h'
  | ok r =>
    rw [hr] at h'
    have hreg := ok_of_ite_error h'
    obtain ⟨htext, hvalid⟩ := rewrite_eq hzero hr
    have hparts : ∀ part ∈ (tokens pattern).splitOn (.char orChar), ∀ t ∈ part, t.Valid :=
      fun part hpart t ht => hvalid t (mem_of_mem_splitOn hpart ht)
    have hsplit := subRegexes_encode [] hvalid
    rw [modifyHead_nil] at hsplit
    refine ⟨?_, ?_⟩
    · rw [← Except.ok.inj hreg, regexAlternatives, map_map]
      rw [htext]
      refine hsplit.trans (map_congr_left fun part hpart => ?_)
      exact subRegex_encode (hparts part hpart)
    · intro alt halt
      obtain ⟨part, hpart, rfl⟩ := mem_map.1 halt
      have hencodes := encodes_alternative (hparts part hpart)
      exact ⟨hencodes.valid, hencodes.spaced⟩

end WazAISentinel.OsRegex
