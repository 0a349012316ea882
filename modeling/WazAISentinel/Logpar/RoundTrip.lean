import WazAISentinel.Logpar.Parser

/-!
# Reading inverts writing

`pLogpar` accepts exactly the texts that are written for well-formed lists, and gives the list back.
A field, a choice and a group are read from their writing whatever follows; a literal ends where no
character of a literal follows.
-/

namespace WazAISentinel.Logpar

open Parsec Parsec.Parser ParserInfo List Option

/-! ## Characters -/

variable {c d : Char} {s reserved v rest : List Char} {f : Field} {i j : ParserInfo}
  {l : List ParserInfo}

theorem satisfying_run_eq_some {test : Char → Bool} :
    (satisfying test).run s = some (c, rest) ↔ test c = true ∧ s = c :: rest := by
  cases s with
  | nil =>
    exact iff_of_false (fun h => by cases h) fun h => by cases h.2
  | cons d s =>
    change (if test d then some (d, s) else none) = _ ↔ _
    rw [ite_none_right_eq_some, some_inj, Prod.mk.injEq, cons.injEq]
    exact and_congr_left fun h => by rw [h.1]

theorem isOneOf_singleton : isOneOf [c] d = true ↔ d = c := by
  simp [isOneOf, eq_comm]

theorem pChar_run_eq_some : (pChar [c]).run s = some (d, rest) ↔ d = c ∧ s = c :: rest := by
  rw [pChar, satisfying_run_eq_some, isOneOf_singleton]
  exact and_congr_right fun h => by rw [h]

/-- A mark before what is read. -/
theorem seqRight_pChar_run_eq_some {α : Type} {b : Bool} {p : Parser b α} {a : α} :
    (seqRight (pChar [c]) p).run s = some (a, rest) ↔
      ∃ mid, s = c :: mid ∧ p.run mid = some (a, rest) := by
  simp [seqRight_run_eq_some, pChar_run_eq_some]

/-- A mark behind what is read. -/
theorem seqLeft_pChar_run_eq_some {α : Type} {b : Bool} {p : Parser b α} {a : α} :
    (seqLeft p (pChar [c])).run s = some (a, rest) ↔ p.run s = some (a, c :: rest) := by
  simp [seqLeft_run_eq_some, pChar_run_eq_some]

/-- A raw character is read from its escaped writing. -/
theorem pRawChar_run_eq_some :
    (pRawChar reserved exprEscape).run s = some (c, rest) ↔ s = escapeChar reserved c ++ rest := by
  have hescape : isOneOf (reserved ++ [exprEscape]) exprEscape = true := by simp [isOneOf]
  rw [pRawChar, either_run_eq_some, pNotChar, satisfying_run_eq_some, pEscapedChar,
    seqRight_pChar_run_eq_some, escapeChar]
  cases hc : isOneOf (reserved ++ [exprEscape]) c with
  | true =>
    constructor
    · rintro (⟨hnot, -⟩ | ⟨-, mid, rfl, hmid⟩)
      · cases hnot
      · obtain ⟨-, rfl⟩ := satisfying_run_eq_some.1 hmid
        rfl
    · rintro rfl
      refine .inr ⟨?_, c :: rest, rfl, satisfying_run_eq_some.2 ⟨hc, rfl⟩⟩
      change (if !isOneOf (reserved ++ [exprEscape]) exprEscape then _ else none) = none
      rw [hescape]
      rfl
  | false =>
    constructor
    · rintro (⟨-, rfl⟩ | ⟨-, mid, -, hmid⟩)
      · rfl
      · rw [pChar, satisfying_run_eq_some, hc] at hmid
        exact absurd hmid.1 Bool.false_ne_true
    · rintro rfl
      exact .inl ⟨rfl, rfl⟩

/-- A raw literal ends where no raw character follows. -/
theorem pRawLiteral_run_eq_some :
    (pRawLiteral reserved exprEscape).run s = some (v, rest) ↔
      s = escape reserved v ++ rest ∧ (pRawChar reserved exprEscape).run rest = none := by
  constructor
  · intro h
    obtain ⟨-, hs, hnone⟩ :=
      many_sound (D := fun _ => True) (fun s a rest ha => ⟨trivial, pRawChar_run_eq_some.1 ha⟩) h
    exact ⟨hs, hnone⟩
  · rintro ⟨rfl, hnone⟩
    exact many_of_follow (D := fun _ => True) (F := fun _ => True) (fun a rest _ _ =>
      pRawChar_run_eq_some.2 rfl) (fun _ _ _ => trivial) (fun _ _ => trivial) trivial hnone

theorem pLiteral_run_eq_some :
    pLiteral.run s = some (v, rest) ↔ v ≠ [] ∧ s = escape reservedLiteralChars v ++ rest ∧
      (pRawChar reservedLiteralChars exprEscape).run rest = none := by
  rw [pLiteral, pRawLiteral1, many1_run_eq_some]
  exact and_congr_right fun _ => pRawLiteral_run_eq_some

/-! ## Fields -/

/-- An argument ends where no character of an argument follows. -/
theorem pArg_run_eq_some {arg : List Char} :
    pArg.run s = some (arg, rest) ↔
      s = renderArg arg ++ rest ∧ (pRawChar reservedArgChars exprEscape).run rest = none := by
  rw [pArg, seqRight_pChar_run_eq_some]
  constructor
  · rintro ⟨mid, rfl, hmid⟩
    obtain ⟨rfl, hnone⟩ := pRawLiteral_run_eq_some.1 hmid
    exact ⟨rfl, hnone⟩
  · rintro ⟨rfl, hnone⟩
    exact ⟨_, rfl, pRawLiteral_run_eq_some.2 ⟨rfl, hnone⟩⟩

/-- The arguments, up to the end of a field. -/
theorem pArgs_run_eq_some {args : List (List Char)} :
    pArgs.run s = some (args, exprEnd :: rest) ↔ s = args.flatMap renderArg ++ exprEnd :: rest := by
  constructor
  · intro h
    exact (many_sound (D := fun _ => True)
      (fun s a rest ha => ⟨trivial, (pArg_run_eq_some.1 ha).1⟩) h).2.1
  · rintro rfl
    refine many_of_follow (D := fun _ => True)
      (F := fun rest => (pRawChar reservedArgChars exprEscape).run rest = none)
      (fun a rest _ hrest => pArg_run_eq_some.2 ⟨rfl, hrest⟩) (fun a rest _ => ?_)
        (fun _ _ => trivial) ?_ ?_
    · rfl
    · rfl
    · rfl

/-- A name ends where no character of a name follows. -/
theorem pFieldName_run_eq_some {name : List Char} :
    pFieldName.run s = some (name, rest) ↔
      (∃ c cs, name = c :: cs ∧ isAlphaNum exprFieldExtendedCharsFirst c = true ∧
        ∀ d ∈ cs, isAlphaNum (exprFieldExtendedChars ++ [exprFieldSep]) d = true) ∧
      s = name ++ rest ∧
        (pCharAlphaNum (exprFieldExtendedChars ++ [exprFieldSep])).run rest = none := by
  have hsingle (cs : List Char) : cs.flatMap (fun c => [c]) = cs := flatMap_singleton' cs
  rw [pFieldName, fmap_run_eq_some]
  constructor
  · rintro ⟨⟨c, cs⟩, hboth, rfl⟩
    obtain ⟨mid, hc, hcs⟩ := both_run_eq_some.1 hboth
    obtain ⟨hfirst, rfl⟩ := satisfying_run_eq_some.1 hc
    obtain ⟨hall, hmid, hnone⟩ :=
      many_sound (r := fun c => [c]) (fun s a rest ha => satisfying_run_eq_some.1 ha) hcs
    rw [hsingle] at hmid
    exact ⟨⟨c, cs, rfl, hfirst, hall⟩, by rw [hmid]; rfl, hnone⟩
  · rintro ⟨⟨c, cs, rfl, hfirst, hall⟩, rfl, hnone⟩
    refine ⟨(c, cs),
      both_run_eq_some.2 ⟨cs ++ rest, satisfying_run_eq_some.2 ⟨hfirst, rfl⟩, ?_⟩, rfl⟩
    have hmany := many_of_follow (p := pCharAlphaNum (exprFieldExtendedChars ++ [exprFieldSep]))
      (r := fun c => [c])
      (F := fun _ => True) (fun a rest ha _ => satisfying_run_eq_some.2 ⟨ha, rfl⟩)
        (fun _ _ _ => trivial) hall trivial hnone
    rw [hsingle] at hmany
    exact hmany

/-- The mark of an optional field is no first character of a name. -/
theorem pChar_opt_run_name (hc : isAlphaNum exprFieldExtendedCharsFirst c = true) :
    (pChar [exprOpt]).run (c :: rest) = none := by
  refine eq_none_iff_forall_ne_some.2 fun r hrun => ?_
  obtain ⟨-, heq⟩ := pChar_run_eq_some.1 hrun
  obtain ⟨rfl, -⟩ := cons.inj heq
  exact absurd hc (by decide)

theorem pFieldBody_run_eq_some :
    pFieldBody.run s = some (f, exprEnd :: rest) ↔ f.WellFormed ∧
      s = (if f.optional then [exprOpt] else []) ++
        (f.name ++ (f.args.flatMap renderArg ++ exprEnd :: rest)) := by
  rw [pFieldBody, fmap_run_eq_some]
  constructor
  · rintro ⟨⟨⟨o, name⟩, args⟩, hboth, rfl⟩
    obtain ⟨mid, hleft, hargs⟩ := both_run_eq_some.1 hboth
    obtain ⟨mid', hopt, hname⟩ := both_run_eq_some.1 hleft
    obtain rfl := pArgs_run_eq_some.1 hargs
    obtain ⟨hwf, rfl, -⟩ := pFieldName_run_eq_some.1 hname
    refine ⟨hwf, ?_⟩
    change some (((pChar [exprOpt]).run s).getD (Char.ofNat 0, s)) = _ at hopt
    cases hmark : (pChar [exprOpt]).run s with
    | none =>
      rw [hmark] at hopt
      obtain ⟨rfl, rfl⟩ := Prod.mk.inj (some_inj.1 hopt)
      rfl
    | some r =>
      rw [hmark] at hopt
      obtain rfl := some_inj.1 hopt
      obtain ⟨rfl, rfl⟩ := pChar_run_eq_some.1 hmark
      rfl
  · rintro ⟨hwf, rfl⟩
    obtain ⟨name, args, optional⟩ := f
    -- after a name come the arguments or the end, which are no characters of a name
    have hname : pFieldName.run (name ++ (args.flatMap renderArg ++ exprEnd :: rest)) =
        some (name, args.flatMap renderArg ++ exprEnd :: rest) :=
      pFieldName_run_eq_some.2 ⟨hwf, rfl, by cases args <;> rfl⟩
    have hargs := pArgs_run_eq_some.2 (rfl : args.flatMap renderArg ++ exprEnd :: rest = _)
    cases optional with
    | true =>
      refine ⟨((exprOpt, name), args),
        both_run_eq_some.2 ⟨_, both_run_eq_some.2 ⟨_, ?_, hname⟩, hargs⟩, rfl⟩
      rfl
    | false =>
      refine ⟨((Char.ofNat 0, name), args),
        both_run_eq_some.2 ⟨_, both_run_eq_some.2 ⟨_, ?_, hname⟩, hargs⟩, rfl⟩
      obtain ⟨c, cs, hcons, hfirst, -⟩ := hwf
      subst hcons
      change some (((pChar [exprOpt]).run (c :: _)).getD _) = _
      rw [pChar_opt_run_name hfirst]
      rfl

/-- A field is read from its writing, whatever follows. -/
theorem pField_run_eq_some :
    pField.run s = some (f, rest) ↔ f.WellFormed ∧ s = f.render ++ rest := by
  rw [pField, seqLeft_pChar_run_eq_some, seqRight_pChar_run_eq_some]
  constructor
  · rintro ⟨mid, rfl, hbody⟩
    obtain ⟨hwf, rfl⟩ := pFieldBody_run_eq_some.1 hbody
    refine ⟨hwf, ?_⟩
    simp [Field.render]
  · rintro ⟨hwf, rfl⟩
    refine ⟨_, rfl, pFieldBody_run_eq_some.2 ⟨hwf, ?_⟩⟩
    simp [append_assoc]

/-- A choice is read from its writing, whatever follows. -/
theorem pChoice_run_eq_some {c : Field × Field} :
    pChoice.run s = some (c, rest) ↔
      (choice c.1 c.2).WellFormed ∧ s = (choice c.1 c.2).render ++ rest := by
  obtain ⟨left, right⟩ := c
  change Option.filter _ _ = _ ↔ _
  rw [filter_eq_some_iff, both_run_eq_some, ParserInfo.WellFormed, render]
  constructor
  · rintro ⟨⟨mid, hleft, hright⟩, hoptional⟩
    obtain ⟨hwf, rfl⟩ := pField_run_eq_some.1 (seqLeft_pChar_run_eq_some.1 hleft)
    obtain ⟨hwf', rfl⟩ := pField_run_eq_some.1 hright
    rw [Bool.and_eq_true, Bool.not_eq_true', Bool.not_eq_true'] at hoptional
    exact ⟨⟨⟨hwf, hoptional.1⟩, hwf', hoptional.2⟩, by simp⟩
  · rintro ⟨⟨⟨hwf, hleft⟩, hwf', hright⟩, rfl⟩
    refine ⟨⟨right.render ++ rest, seqLeft_pChar_run_eq_some.2 (pField_run_eq_some.2 ⟨hwf, ?_⟩),
      pField_run_eq_some.2 ⟨hwf', rfl⟩⟩, ?_⟩
    · simp
    · rw [hleft, hright]
      rfl

/-! ## Items -/

/-- What an item is followed by, when it is read from its writing. -/
def Follows (i : ParserInfo) (rest : List Char) : Prop :=
  (i.isLiteral = true → (pRawChar reservedLiteralChars exprEscape).run rest = none) ∧
    (∀ f, i = .field f → rest.head? ≠ some exprOpt)

theorem pField_run_of_head (h : s.head? ≠ some exprBegin) : pField.run s = none := by
  refine eq_none_iff_forall_ne_some.2 fun r hfield => ?_
  obtain ⟨-, rfl⟩ := pField_run_eq_some.1 hfield
  exact absurd rfl h

theorem pChoice_run_of_head (h : s.head? ≠ some exprBegin) : pChoice.run s = none := by
  refine eq_none_iff_forall_ne_some.2 fun r hchoice => ?_
  obtain ⟨-, rfl⟩ := pChoice_run_eq_some.1 hchoice
  exact absurd rfl h

theorem pItem_sound (h : pItem.run s = some (i, rest)) :
    i.WellFormed ∧ s = i.render ++ rest ∧
      (i.isLiteral = true → (pRawChar reservedLiteralChars exprEscape).run rest = none) := by
  rw [pItem, either_run_eq_some, either_run_eq_some] at h
  rcases h with (hchoice | ⟨-, hfield⟩) | ⟨-, hliteral⟩
  · obtain ⟨c, hc, rfl⟩ := fmap_run_eq_some.1 hchoice
    obtain ⟨hwf, hs⟩ := pChoice_run_eq_some.1 hc
    exact ⟨hwf, hs, fun hlit => by cases hlit⟩
  · obtain ⟨f, hf, rfl⟩ := fmap_run_eq_some.1 hfield
    obtain ⟨hwf, hs⟩ := pField_run_eq_some.1 hf
    exact ⟨hwf, hs, fun hlit => by cases hlit⟩
  · obtain ⟨v, hv, rfl⟩ := fmap_run_eq_some.1 hliteral
    obtain ⟨hne, hs, hnone⟩ := pLiteral_run_eq_some.1 hv
    exact ⟨hne, hs, fun _ => hnone⟩

/-- The first character of the writing of a literal begins nothing else. -/
theorem head_literal_ne (hd : isOneOf reservedLiteralChars d = true) :
    ((literal (c :: v)).render ++ rest).head? ≠ some d := by
  rw [render, escape, flatMap_cons, escapeChar]
  split_ifs with hc
  · rintro ⟨⟩
    cases hd
  · rw [isOneOf, any_append, Bool.or_eq_true, not_or] at hc
    rintro ⟨⟩
    exact hc.1 hd

theorem pItem_complete (hwf : i.WellFormed) (hgroup : ∀ children, i ≠ .group children)
    (hfollows : Follows i rest) : pItem.run (i.render ++ rest) = some (i, rest) := by
  rw [pItem, either_run_eq_some, either_run_eq_some]
  cases i with
  | group children => exact absurd rfl (hgroup children)
  | choice left right =>
    exact .inl (.inl (fmap_run_eq_some.2 ⟨(left, right), pChoice_run_eq_some.2 ⟨hwf, rfl⟩, rfl⟩))
  | field f =>
    have hfield : pField.run (f.render ++ rest) = some (f, rest) := pField_run_eq_some.2 ⟨hwf, rfl⟩
    refine .inl (.inr ⟨?_, fmap_run_eq_some.2 ⟨f, hfield, rfl⟩⟩)
    -- a choice would have its mark behind the field
    change (pChoice.run (f.render ++ rest)).map _ = none
    cases hchoice : pChoice.run (f.render ++ rest) with
    | none => rfl
    | some r =>
      exfalso
      obtain ⟨⟨⟨hleft, -⟩, -⟩, hs⟩ := pChoice_run_eq_some.1 hchoice
      rw [render, append_assoc] at hs
      have hfirst := pField_run_eq_some.2 ⟨hleft, hs⟩
      rw [hfield] at hfirst
      obtain ⟨-, rfl⟩ := Prod.mk.inj (some_inj.1 hfirst)
      exact hfollows.2 f rfl rfl
  | literal v =>
    cases v with
    | nil => exact absurd rfl hwf
    | cons c v =>
      have hhead : ((literal (c :: v)).render ++ rest).head? ≠ some exprBegin := head_literal_ne rfl
      refine .inr
        ⟨?_, fmap_run_eq_some.2 ⟨c :: v, pLiteral_run_eq_some.2 ⟨hwf, rfl, hfollows.1 rfl⟩, rfl⟩⟩
      change Option.or (Option.map _ (pChoice.run _)) (Option.map _ (pField.run _)) = none
      rw [pChoice_run_of_head hhead, pField_run_of_head hhead]
      rfl

/-! ## Lists of items and groups -/

/-- An item or a group. -/
def pInfo (pGfn : Parser true (List ParserInfo)) : Parser true ParserInfo :=
  either pItem (fmap .group pGfn)

/-- The runs of items that the parser makes do not show in its result. -/
theorem pBody_run (pGfn : Parser true (List ParserInfo)) (s : List Char) :
    (pBody pGfn).run s = (many1 (pInfo pGfn)).run s := by
  rw [pInfo, ← many1_runsOr, runsOr, fmap_fmap]
  rfl

/-- Where a list ends: at the end of the text or at the end of its group. -/
def Ends (rest : List Char) : Prop := ∀ c ∈ rest.head?, c = exprGroupEnd

theorem pRawChar_run_ends (h : Ends rest) :
    (pRawChar reservedLiteralChars exprEscape).run rest = none := by
  cases rest with
  | nil => rfl
  | cons c rest =>
    obtain rfl := h c rfl
    rfl

/-- What is written for an item or a group is not taken for the end of what is before it. -/
theorem render_follows (hwf : j.WellFormed) :
    (j.render ++ rest).head? ≠ some exprOpt ∧
      (j.isLiteral = false →
        (pRawChar reservedLiteralChars exprEscape).run (j.render ++ rest) = none) := by
  cases j with
  | field f | choice left right | group children =>
    exact ⟨fun h => absurd (some_inj.1 h) (by decide), fun _ => rfl⟩
  | literal v =>
    refine ⟨?_, fun h => by cases h⟩
    cases v with
    | nil => exact absurd rfl hwf
    | cons c v => exact head_literal_ne rfl

theorem follows_of_separated (hwf : ∀ j ∈ l, j.WellFormed) (hsep : ParserInfo.Separated (i :: l))
    (hrest : Ends rest) : Follows i (l.flatMap render ++ rest) := by
  cases l with
  | nil =>
    refine ⟨fun _ => pRawChar_run_ends hrest, fun f _ h => ?_⟩
    exact absurd (hrest exprOpt h) (by decide)
  | cons j l =>
    rw [flatMap_cons, append_assoc]
    obtain ⟨hhead, hraw⟩ := render_follows (hwf j mem_cons_self)
    refine ⟨fun hi => hraw ?_, fun f _ => hhead⟩
    have hij := (isChain_cons.1 hsep).1 j rfl
    exact Bool.eq_false_iff.2 fun hj => hij ⟨hi, hj⟩

/-! ### Soundness -/

section Sound

variable {pGfn : Parser true (List ParserInfo)}
  (hgroup : ∀ s g rest, pGfn.run s = some (g, rest) →
    (group g).WellFormed ∧ s = (group g).render ++ rest)

include hgroup

theorem pInfo_sound (h : (pInfo pGfn).run s = some (i, rest)) :
    i.WellFormed ∧ s = i.render ++ rest ∧
      (i.isLiteral = true → (pRawChar reservedLiteralChars exprEscape).run rest = none) := by
  rcases either_run_eq_some.1 h with hitem | ⟨-, hg⟩
  · exact pItem_sound hitem
  · obtain ⟨g, hrun, rfl⟩ := fmap_run_eq_some.1 hg
    obtain ⟨hwf, hs⟩ := hgroup s g rest hrun
    exact ⟨hwf, hs, fun hlit => by cases hlit⟩

/-- A literal takes all that it can, so none follows it. -/
theorem pInfo_pInfo_separated {mid : List Char} (hi : (pInfo pGfn).run s = some (i, mid))
    (hj : (pInfo pGfn).run mid = some (j, rest)) : ¬ (i.isLiteral = true ∧ j.isLiteral = true) := by
  rintro ⟨hilit, hjlit⟩
  have hnone := (pInfo_sound hgroup hi).2.2 hilit
  obtain ⟨hwf, rfl, -⟩ := pInfo_sound hgroup hj
  cases j with
  | field f | choice left right | group children => cases hjlit
  | literal v =>
    cases v with
    | nil => exact absurd rfl hwf
    | cons c v =>
      have hsome := (pRawChar_run_eq_some (c := c)).2
        (rfl : escapeChar reservedLiteralChars c ++ (escape reservedLiteralChars v ++ rest) = _)
      rw [render, escape, flatMap_cons, append_assoc] at hnone
      exact absurd (hnone.symm.trans hsome) (some_ne_none _).symm

theorem pBody_sound (h : (pBody pGfn).run s = some (l, rest)) :
    l ≠ [] ∧ ParserInfo.Separated l ∧ ParserInfo.AllWellFormed l ∧ s = renderAll l ++ rest := by
  rw [pBody_run] at h
  obtain ⟨hne, hmany⟩ := many1_run_eq_some.1 h
  have hprints : ∀ s i rest, (pInfo pGfn).run s = some (i, rest) →
    i.WellFormed ∧ s = i.render ++ rest := fun s i rest hrun =>
    ⟨(pInfo_sound hgroup hrun).1, (pInfo_sound hgroup hrun).2.1⟩
  obtain ⟨hall, rfl, -⟩ := many_sound hprints hmany
  obtain ⟨hchain, -⟩ := many_isChain (fun s a mid b rest => pInfo_pInfo_separated hgroup) hmany
  exact ⟨hne, hchain, (allWellFormed_iff l).2 hall, by rw [renderAll_eq]⟩

end Sound

theorem pG_sound (n : Nat) (s : List Char) (g : List ParserInfo) (rest : List Char)
    (h : (pG n).run s = some (g, rest)) : (group g).WellFormed ∧ s = (group g).render ++ rest := by
  induction n generalizing s g rest with
  | zero => cases h
  | succ n ih =>
    obtain ⟨mid, begins, hbegins, hbody⟩ := seqRight_run_eq_some.1 (seqLeft_pChar_run_eq_some.1 h)
    obtain ⟨mid', hbegin, hopt⟩ := both_run_eq_some.1 hbegins
    obtain ⟨-, rfl⟩ := pChar_run_eq_some.1 hbegin
    obtain ⟨-, rfl⟩ := pChar_run_eq_some.1 hopt
    obtain ⟨hne, hsep, hall, rfl⟩ := pBody_sound ih hbody
    rw [ParserInfo.WellFormed, render]
    refine ⟨⟨hne, hsep, hall⟩, ?_⟩
    simp

/-! ### Completeness -/

theorem pInfo_run_ends {pGfn : Parser true (List ParserInfo)}
    (hfail : ∀ s, Ends s → pGfn.run s = none) (hrest : Ends rest) :
    (pInfo pGfn).run rest = none := by
  have hgroups := hfail rest hrest
  have hitems : pItem.run rest = none := by
    cases rest with
    | nil => exact run_nil pItem
    | cons c rest =>
      obtain rfl := hrest c rfl
      rfl
  rw [pInfo, either_run_of_none hitems]
  change (pGfn.run rest).map _ = none
  rw [hgroups]
  rfl

section Complete

variable {pGfn : Parser true (List ParserInfo)} {n : Nat}
  (hgroup : ∀ g rest, (group g).WellFormed → ((group g).render ++ rest).length ≤ n →
    pGfn.run ((group g).render ++ rest) = some (g, rest))

include hgroup

theorem pInfo_complete (hwf : i.WellFormed) (hfollows : Follows i rest)
    (hlen : (i.render ++ rest).length ≤ n) :
    (pInfo pGfn).run (i.render ++ rest) = some (i, rest) := by
  rw [pInfo, either_run_eq_some]
  by_cases h : ∃ g, i = .group g
  · obtain ⟨g, rfl⟩ := h
    right
    refine ⟨?_, fmap_run_eq_some.2 ⟨g, hgroup g rest hwf hlen, rfl⟩⟩
    -- a group begins with neither an item's bracket nor a character of a literal
    rw [render]
    rfl
  · left
    exact pItem_complete hwf (fun g hg => h ⟨g, hg⟩) hfollows

theorem many_pInfo_complete (hfail : ∀ s, Ends s → pGfn.run s = none) (hwf : ∀ i ∈ l, i.WellFormed)
    (hsep : ParserInfo.Separated l) (hrest : Ends rest)
    (hlen : (l.flatMap render ++ rest).length ≤ n) :
    (many (pInfo pGfn)).run (l.flatMap render ++ rest) = some (l, rest) := by
  induction l with
  | nil => exact many_run_of_none (pInfo_run_ends hfail hrest)
  | cons i l ih =>
    obtain ⟨hi, hl⟩ := forall_mem_cons.1 hwf
    have hfollows := follows_of_separated hl hsep hrest
    rw [flatMap_cons, append_assoc] at hlen ⊢
    rw [many_run_of_some (pInfo_complete hgroup hi hfollows hlen), ih hl (isChain_cons.1 hsep).2 ?_]
    · rfl
    · rw [length_append] at hlen
      exact (Nat.le_add_left _ _).trans hlen

theorem pBody_complete (hfail : ∀ s, Ends s → pGfn.run s = none) (hne : l ≠ [])
    (hsep : ParserInfo.Separated l) (hwf : ParserInfo.AllWellFormed l) (hrest : Ends rest)
    (hlen : (renderAll l ++ rest).length ≤ n) :
    (pBody pGfn).run (renderAll l ++ rest) = some (l, rest) := by
  rw [pBody_run, many1_run_eq_some]
  rw [renderAll_eq] at hlen ⊢
  exact ⟨hne, many_pInfo_complete hgroup hfail ((allWellFormed_iff l).1 hwf) hsep hrest hlen⟩

end Complete

theorem pG_run_ends (n : Nat) (h : Ends s) : (pG n).run s = none := by
  cases n with
  | zero => rfl
  | succ n =>
    cases s with
    | nil => exact run_nil (pG (n + 1))
    | cons c s =>
      obtain rfl := h c rfl
      rfl

/-- A group needs no more fuel than it has characters: its body is shorter. -/
theorem pG_complete (n : Nat) (g : List ParserInfo) (rest : List Char) (hwf : (group g).WellFormed)
    (hlen : ((group g).render ++ rest).length ≤ n) :
    (pG n).run ((group g).render ++ rest) = some (g, rest) := by
  induction n generalizing g rest with
  | zero => exact absurd hlen (Nat.not_succ_le_zero _)
  | succ n ih =>
    have hrender : (group g).render ++ rest =
        exprGroupBegin :: exprOpt :: (renderAll g ++ exprGroupEnd :: rest) := by
      rw [render]
      simp
    rw [hrender] at hlen ⊢
    obtain ⟨hne, hsep, hall⟩ := hwf
    have hshort : (renderAll g ++ exprGroupEnd :: rest).length ≤ n :=
      (Nat.le_succ _).trans (Nat.le_of_succ_le_succ hlen)
    have hends : Ends (exprGroupEnd :: rest) := fun c hc => (some_inj.1 hc).symm
    have hbody := pBody_complete ih (fun s => pG_run_ends n) hne hsep hall hends hshort
    refine seqLeft_pChar_run_eq_some.2
      (seqRight_run_eq_some.2 ⟨_, (exprGroupBegin, exprOpt), ?_, hbody⟩)
    rfl

/-! ## Expressions -/

theorem pEof_run_eq_some {u : Unit} : pEof.run s = some (u, rest) ↔ s = [] ∧ rest = [] := by
  change (if s = [] then some ((), s) else none) = _ ↔ _
  rw [ite_none_right_eq_some, some_inj, Prod.mk.injEq]
  exact and_congr_right fun hs => ⟨fun h => h.2.symm.trans hs, fun h => ⟨rfl, hs.trans h.symm⟩⟩

/-- `pLogpar` gives a list exactly for the text that is written for it, and these lists are those of
well-formed items without two literals in a row. -/
theorem pLogpar_inverts_render (text : List Char) (l : List ParserInfo) (rest : List Char) :
    pLogpar.run text = some (l, rest) ↔
      (l ≠ [] ∧ ParserInfo.Separated l ∧ ParserInfo.AllWellFormed l) ∧
        text = ParserInfo.renderAll l ∧ rest = [] := by
  change (seqLeft (pBody pGroup) pEof).run text = _ ↔ _
  rw [seqLeft_run_eq_some]
  constructor
  · rintro ⟨mid, u, hbody, heof⟩
    obtain ⟨rfl, rfl⟩ := pEof_run_eq_some.1 heof
    have hgroup : ∀ s g rest, pGroup.run s = some (g, rest) →
        (ParserInfo.group g).WellFormed ∧ s = (ParserInfo.group g).render ++ rest :=
          fun s => pG_sound s.length s
    obtain ⟨hne, hsep, hall, rfl⟩ := pBody_sound hgroup hbody
    exact ⟨⟨hne, hsep, hall⟩, append_nil _, rfl⟩
  · rintro ⟨⟨hne, hsep, hall⟩, rfl, rfl⟩
    have hgroup : ∀ g rest, (ParserInfo.group g).WellFormed →
        ((ParserInfo.group g).render ++ rest).length ≤ (ParserInfo.renderAll l ++ []).length →
          pGroup.run ((ParserInfo.group g).render ++ rest) = some (g, rest) := fun g rest hwf _ =>
      pG_complete _ g rest hwf le_rfl
    have hends : Ends [] := fun c hc => by cases hc
    have hbody := pBody_complete hgroup (fun s => pG_run_ends s.length) hne hsep hall hends le_rfl
    rw [append_nil] at hbody
    exact ⟨[], (), hbody, pEof_run_eq_some.2 ⟨rfl, rfl⟩⟩

example : pLogpar.run ['a', '(', '?', '<', 'b', '>', ')'] =
    some ([.literal ['a'], .group [.field ⟨['b'], [], false⟩]], []) := rfl

end WazAISentinel.Logpar
