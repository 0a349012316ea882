import Mathlib.Data.List.Chain
import Mathlib.Order.Nat

/-!
# Parser combinators

The combinators of `parsec` (`parsec/interface/parsec/parsec.hpp`). A parser gets what is left of
the text, and returns its value with what is left then. Traces and messages are left out, as no
parser looks at them.

`Parser true α` takes a character whenever it succeeds. `many` runs its parser until it fails, which
need not end for a parser that takes nothing, so it is given for the others only. Repeating a parser
that inverts a printer inverts the printing of lists (`many_sound`, `many_of_follow`).
-/

namespace WazAISentinel.Parsec

open List Option

variable {α β : Type}

/-- A parser that takes a character at least, if `strict`. -/
@[ext]
structure Parser (strict : Bool) (α : Type) where
  run : List Char → Option (α × List Char)
  takes : ∀ s a rest, run s = some (a, rest) → rest.length + strict.toNat ≤ s.length

namespace Parser

variable {b c : Bool}

/-- `makeError`. -/
def fail : Parser true α := ⟨fun _ => none, fun _ _ _ h => by cases h⟩

/-- `opt`: the value that is given if the parser fails is the default of its type. -/
def opt (default : α) (p : Parser b α) : Parser false α where
  run s := some ((p.run s).getD (default, s))
  takes s a rest h := by
    obtain rfl := (congrArg Prod.snd (some_inj.1 h)).symm
    cases hp : p.run s with
    | none => exact le_rfl
    | some r => exact (Nat.le_add_right _ _).trans (p.takes s r.1 r.2 hp)

variable (p : Parser b α)

/-- `operator&`. -/
def both (q : Parser c β) : Parser (b || c) (α × β) where
  run s := (p.run s).bind fun l => (q.run l.2).map fun r => ((l.1, r.1), r.2)
  takes s a rest h := by
    obtain ⟨l, hl, hlr⟩ := bind_eq_some_iff.1 h
    obtain ⟨r, hr, heq⟩ := map_eq_some_iff.1 hlr
    obtain ⟨-, rfl⟩ := Prod.mk.inj heq
    have hp := p.takes s l.1 l.2 hl
    have hq := q.takes l.2 r.1 r.2 hr
    cases b with
    | false => exact hq.trans ((Nat.le_add_right _ _).trans hp)
    | true => exact (Nat.add_le_add_right ((Nat.le_add_right _ _).trans hq) 1).trans hp

/-- `fmap`. -/
def fmap (f : α → β) (p : Parser b α) : Parser b β where
  run s := (p.run s).map fun r => (f r.1, r.2)
  takes s a rest h := by
    obtain ⟨r, hr, heq⟩ := map_eq_some_iff.1 h
    obtain ⟨-, rfl⟩ := Prod.mk.inj heq
    exact p.takes s r.1 r.2 hr

/-- `operator<<`. -/
def seqLeft (q : Parser c β) : Parser (b || c) α := fmap Prod.fst (both p q)

/-- `operator>>`. -/
def seqRight (q : Parser c β) : Parser (b || c) β := fmap Prod.snd (both p q)

/-- `operator|`. -/
def either (q : Parser b α) : Parser b α where
  run s := (p.run s).or (q.run s)
  takes s a rest h := by
    cases hp : p.run s with
    | some r =>
      rw [hp] at h
      obtain rfl := some_inj.1 h
      exact p.takes s a rest hp
    | none =>
      rw [hp] at h
      exact q.takes s a rest h

/-! ## Repetition -/

/-- The loop of `many`, for at most `n` rounds. -/
def manyLoop (p : Parser true α) : Nat → List Char → List α × List Char
  | 0, s => ([], s)
  | n + 1, s =>
    match p.run s with
    | none => ([], s)
    | some (a, rest) => (a :: (manyLoop p n rest).1, (manyLoop p n rest).2)

theorem length_manyLoop (p : Parser true α) (n : Nat) (s : List Char) :
    (manyLoop p n s).2.length ≤ s.length := by
  induction n generalizing s with
  | zero => exact le_rfl
  | succ n ih =>
    rw [manyLoop]
    cases hp : p.run s with
    | none => exact le_rfl
    | some r => exact (ih r.2).trans ((Nat.le_succ _).trans (p.takes s r.1 r.2 hp))

/-- `many`. As each round takes a character, there are no more rounds than characters. -/
def many (p : Parser true α) : Parser false (List α) where
  run s := some (manyLoop p s.length s)
  takes s a rest h := by
    obtain rfl := (congrArg Prod.snd (some_inj.1 h)).symm
    exact length_manyLoop p s.length s

/-- `many1`. -/
def many1 (p : Parser true α) : Parser true (List α) := fmap (fun r => r.1 :: r.2) (both p (many p))

theorem run_nil (p : Parser true α) : p.run [] = none := by
  cases hp : p.run [] with
  | none => rfl
  | some r => exact absurd (p.takes [] r.1 r.2 hp) (Nat.not_succ_le_zero _)

variable {s rest : List Char} {a : α} {q : Parser c β} {y : β} {p : Parser true α}

theorem manyLoop_eq (p : Parser true α) {n m : Nat} (hn : s.length ≤ n) (hm : s.length ≤ m) :
    manyLoop p n s = manyLoop p m s := by
  induction n generalizing m s with
  | zero =>
    obtain rfl := eq_nil_of_length_eq_zero (Nat.le_zero.1 hn)
    cases m with
    | zero => rfl
    | succ m => rw [manyLoop, manyLoop, run_nil]
  | succ n ih =>
    cases m with
    | zero =>
      obtain rfl := eq_nil_of_length_eq_zero (Nat.le_zero.1 hm)
      rw [manyLoop, manyLoop, run_nil]
    | succ m =>
      rw [manyLoop, manyLoop]
      cases hp : p.run s with
      | none => rfl
      | some r =>
        have htakes := p.takes s r.1 r.2 hp
        have heq := ih (m := m) (s := r.2) (Nat.le_of_succ_le_succ (htakes.trans hn))
          (Nat.le_of_succ_le_succ (htakes.trans hm))
        dsimp only
        rw [heq]

/-- The loop of `many`: it ends where the parser fails, and goes on behind what the parser took. -/
theorem many_run :
    (many p).run s = match p.run s with
      | none => some ([], s)
      | some (a, rest) => ((many p).run rest).map fun r => (a :: r.1, r.2) := by
  change some (manyLoop p s.length s) = _
  rw [manyLoop_eq p le_rfl (Nat.le_succ s.length), manyLoop]
  cases hp : p.run s with
  | none => rfl
  | some r =>
    have htakes := p.takes s r.1 r.2 hp
    have heq :=
      manyLoop_eq p (n := s.length) (m := r.2.length) (s := r.2) (Nat.le_of_succ_le htakes) le_rfl
    dsimp only
    rw [heq]
    rfl

theorem many_run_of_none (h : p.run s = none) : (many p).run s = some ([], s) := by
  rw [many_run, h]

theorem many_run_of_some (h : p.run s = some (a, rest)) :
    (many p).run s = ((many p).run rest).map fun r => (a :: r.1, r.2) := by
  rw [many_run, h]

theorem many1_run_of_some (h : p.run s = some (a, rest)) :
    (many1 p).run s = ((many p).run rest).map fun r => (a :: r.1, r.2) := by
  change (((p.run s).bind fun l => ((many p).run l.2).map fun r => ((l.1, r.1), r.2)).map _) = _
  rw [h, Option.bind_some, Option.map_map]
  rfl

theorem many1_run_of_none (h : p.run s = none) : (many1 p).run s = none := by
  change (((p.run s).bind fun l => ((many p).run l.2).map fun r => ((l.1, r.1), r.2)).map _) = _
  rw [h]
  rfl

/-! ## When a combination succeeds -/

theorem both_run_eq_some {p : Parser b α} :
    (both p q).run s = some ((a, y), rest) ↔
      ∃ mid, p.run s = some (a, mid) ∧ q.run mid = some (y, rest) := by
  simp [both, bind_eq_some_iff]

theorem fmap_run_eq_some {f : α → β} {p : Parser b α} :
    (fmap f p).run s = some (y, rest) ↔ ∃ a, p.run s = some (a, rest) ∧ f a = y := by
  simp [fmap, and_comm]

theorem seqLeft_run_eq_some {p : Parser b α} :
    (seqLeft p q).run s = some (a, rest) ↔
      ∃ mid y, p.run s = some (a, mid) ∧ q.run mid = some (y, rest) := by
  simp only [seqLeft, fmap_run_eq_some, Prod.exists, both_run_eq_some]
  rw [exists_comm]
  simp only [exists_eq_right]
  exact exists_comm

theorem seqRight_run_eq_some {p : Parser b α} :
    (seqRight p q).run s = some (y, rest) ↔
      ∃ mid a, p.run s = some (a, mid) ∧ q.run mid = some (y, rest) := by
  simp only [seqRight, fmap_run_eq_some, Prod.exists, both_run_eq_some, exists_eq_right]
  exact exists_comm

theorem either_run_eq_some {p q : Parser b α} {r : α × List Char} :
    (either p q).run s = some r ↔ p.run s = some r ∨ p.run s = none ∧ q.run s = some r :=
  or_eq_some_iff

/-! ## What a parser prints -/

section Prints

variable {D : α → Prop} {r : α → List Char} {l : List α}

/-- The first value `many` gives was taken first. -/
theorem many_run_eq_cons (hmany : (many p).run s = some (a :: l, rest)) :
    ∃ mid, p.run s = some (a, mid) ∧ (many p).run mid = some (l, rest) := by
  cases hp : p.run s with
  | none =>
    rw [many_run_of_none hp] at hmany
    cases hmany
  | some first =>
    rw [many_run_of_some hp] at hmany
    obtain ⟨others, hothers, heq⟩ := map_eq_some_iff.1 hmany
    obtain ⟨hlist, rfl⟩ := Prod.mk.inj heq
    obtain ⟨rfl, rfl⟩ := cons.inj hlist
    exact ⟨first.2, rfl, hothers⟩

/-- What `many` has taken is the printing of its values, and the parser fails on what is left. -/
theorem many_sound (h : ∀ s a rest, p.run s = some (a, rest) → D a ∧ s = r a ++ rest)
    (hmany : (many p).run s = some (l, rest)) :
    (∀ a ∈ l, D a) ∧ s = l.flatMap r ++ rest ∧ p.run rest = none := by
  induction l generalizing s with
  | nil =>
    cases hp : p.run s with
    | none =>
      rw [many_run_of_none hp] at hmany
      obtain rfl := (congrArg Prod.snd (some_inj.1 hmany))
      exact ⟨fun a ha => absurd ha not_mem_nil, rfl, hp⟩
    | some first =>
      rw [many_run_of_some hp] at hmany
      obtain ⟨others, -, heq⟩ := map_eq_some_iff.1 hmany
      cases heq
  | cons a l ih =>
    obtain ⟨mid, hp, hothers⟩ := many_run_eq_cons hmany
    obtain ⟨hD, hs⟩ := h s a mid hp
    obtain ⟨hall, hrest, hnone⟩ := ih hothers
    refine ⟨forall_mem_cons.2 ⟨hD, hall⟩, ?_, hnone⟩
    rw [flatMap_cons, append_assoc, ← hrest]
    exact hs

/-- What holds between a value and the next one holds along the list. -/
theorem many_isChain {R : α → α → Prop}
    (h : ∀ s a mid b rest, p.run s = some (a, mid) → p.run mid = some (b, rest) → R a b)
    (hmany : (many p).run s = some (l, rest)) :
    l.IsChain R ∧ ∀ a ∈ l.head?, ∃ mid, p.run s = some (a, mid) := by
  induction l generalizing s with
  | nil => exact ⟨isChain_nil, fun a ha => by cases ha⟩
  | cons a l ih =>
    obtain ⟨mid, hp, hothers⟩ := many_run_eq_cons hmany
    obtain ⟨hchain, hhead⟩ := ih hothers
    refine ⟨isChain_cons.2 ⟨fun y hy => ?_, hchain⟩, fun z hz => ?_⟩
    · obtain ⟨mid', hmid⟩ := hhead y hy
      exact h s a mid y mid' hp hmid
    · obtain rfl := some_inj.1 hz
      exact ⟨mid, hp⟩

/-- `many` takes a printed list, if each value is taken before what may follow it. -/
theorem many_of_follow {F : List Char → Prop}
    (h : ∀ a rest, D a → F rest → p.run (r a ++ rest) = some (a, rest))
    (hF : ∀ a rest, D a → F (r a ++ rest)) (hl : ∀ a ∈ l, D a) (hrest : F rest)
    (hnone : p.run rest = none) : (many p).run (l.flatMap r ++ rest) = some (l, rest) := by
  induction l with
  | nil => exact many_run_of_none hnone
  | cons a l ih =>
    obtain ⟨ha, hl⟩ := forall_mem_cons.1 hl
    have hfollow : F (l.flatMap r ++ rest) := by
      cases l with
      | nil => exact hrest
      | cons b l =>
        rw [flatMap_cons, append_assoc]
        exact hF b _ (hl b mem_cons_self)
    rw [flatMap_cons, append_assoc, many_run_of_some (h a _ ha hfollow), ih hl]
    rfl

end Prints

/-! ## Runs of values -/

/-- `many1` is `many` that gives something. -/
theorem many1_run_eq_some {l : List α} :
    (many1 p).run s = some (l, rest) ↔ l ≠ [] ∧ (many p).run s = some (l, rest) := by
  cases hp : p.run s with
  | none =>
    rw [many1_run_of_none hp, many_run_of_none hp]
    refine iff_of_false nofun ?_
    rintro ⟨hne, ⟨⟩⟩
    exact hne rfl
  | some first =>
    rw [many1_run_of_some hp, many_run_of_some hp]
    refine (and_iff_right_of_imp fun hmany => ?_).symm
    obtain ⟨others, -, heq⟩ := map_eq_some_iff.1 hmany
    cases heq
    exact cons_ne_nil _ _

theorem exists_many_run (p : Parser true α) (s : List Char) : ∃ r, (many p).run s = some r :=
  ⟨_, rfl⟩

/-- `many` is `many1` or nothing. -/
theorem many_run_eq_or : (many p).run s = ((many1 p).run s).or (some ([], s)) := by
  cases hp : p.run s with
  | none => rw [many_run_of_none hp, many1_run_of_none hp, none_or]
  | some r =>
    obtain ⟨l, hl⟩ := exists_many_run p r.2
    rw [many_run_of_some hp, many1_run_of_some hp, hl, map_some, some_or]

/-- Runs of one parser, or single values of another. -/
def runsOr (p q : Parser true α) : Parser true (List α) := either (many1 p) (fmap (fun a => [a]) q)

theorem fmap_fmap {γ : Type} (g : β → γ) (f : α → β) (p : Parser b α) :
    fmap g (fmap f p) = fmap (fun a => g (f a)) p := by
  apply Parser.ext
  funext s
  exact map_map _ _ _

theorem either_run_of_some {p q : Parser b α} {r : α × List Char} (h : p.run s = some r) :
    (either p q).run s = some r := by
  change (p.run s).or _ = _
  rw [h, some_or]

theorem either_run_of_none {p q : Parser b α} (h : p.run s = none) :
    (either p q).run s = q.run s := by
  change (p.run s).or _ = _
  rw [h, none_or]

theorem runsOr_run_of_some {q : Parser true α} (h : p.run s = some (a, rest)) :
    (runsOr p q).run s = ((many p).run rest).map fun r => (a :: r.1, r.2) := by
  have hmany1 := many1_run_of_some h
  exact either_run_of_some hmany1

/-- The values of the runs in one list. -/
def flatRuns (r : List (List α) × List Char) : List α × List Char := (r.1.flatten, r.2)

/-- Repeating runs of one parser and single values of another is repeating either, as a run ends
where its parser fails; also when a run has begun. -/
def RunsFlat (p q : Parser true α) (s : List Char) : Prop :=
  ((many (runsOr p q)).run s).map flatRuns = (many (either p q)).run s ∧
    (((many p).run s).bind fun l => ((many (runsOr p q)).run l.2).map fun r =>
      (l.1 ++ r.1.flatten, r.2)) = (many (either p q)).run s

theorem many1_runsOr_of_runsFlat {q : Parser true α}
    (h : ∀ rest, rest.length < s.length → RunsFlat p q rest) :
    ((many1 (runsOr p q)).run s).map flatRuns = (many1 (either p q)).run s := by
  cases hp : p.run s with
  | some first =>
    obtain ⟨a, rest⟩ := first
    obtain ⟨-, hbegun⟩ := h rest (p.takes s a rest hp)
    obtain ⟨run, hrun⟩ := exists_many_run p rest
    rw [hrun, bind_some] at hbegun
    have hruns := runsOr_run_of_some (q := q) hp
    rw [hrun, map_some] at hruns
    rw [many1_run_of_some hruns, many1_run_of_some (either_run_of_some hp), ← hbegun,
      Option.map_map, Option.map_map]
    rfl
  | none =>
    have hruns : (runsOr p q).run s = (q.run s).map fun r => ([r.1], r.2) :=
      either_run_of_none (many1_run_of_none hp)
    have heither := either_run_of_none (q := q) hp
    cases hq : q.run s with
    | none =>
      rw [hq] at hruns heither
      rw [many1_run_of_none hruns, many1_run_of_none heither]
      rfl
    | some single =>
      obtain ⟨a, rest⟩ := single
      rw [hq] at hruns heither
      rw [many1_run_of_some hruns, many1_run_of_some heither, ← (h rest (q.takes s a rest hq)).1,
        Option.map_map, Option.map_map]
      rfl

theorem runsFlat (p q : Parser true α) (s : List Char) : RunsFlat p q s := by
  induction hn : s.length using Nat.strong_induction_on generalizing s with
  | h n ih =>
    subst hn
    have hflat : ((many (runsOr p q)).run s).map flatRuns = (many (either p q)).run s := by
      rw [many_run_eq_or, many_run_eq_or,
        ← many1_runsOr_of_runsFlat fun rest hrest => ih _ hrest rest rfl, map_or]
      rfl
    refine ⟨hflat, ?_⟩
    cases hp : p.run s with
    | some first =>
      obtain ⟨a, rest⟩ := first
      obtain ⟨-, hbegun⟩ := ih _ (p.takes s a rest hp) rest rfl
      obtain ⟨run, hrun⟩ := exists_many_run p rest
      rw [hrun, bind_some] at hbegun
      rw [many_run_of_some (either_run_of_some hp), many_run_of_some hp, hrun, ← hbegun,
        Option.map_map]
      rfl
    | none =>
      -- neither a run nor the rest of one
      rw [many_run_of_none hp, bind_some, ← hflat]
      rfl

theorem many1_runsOr (p q : Parser true α) :
    ((many1 (runsOr p q)).run s).map flatRuns = (many1 (either p q)).run s :=
  many1_runsOr_of_runsFlat fun rest _ => runsFlat p q rest

end Parser

end WazAISentinel.Parsec
