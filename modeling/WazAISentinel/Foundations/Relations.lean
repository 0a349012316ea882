import Mathlib.Data.List.Chain
import Mathlib.Data.Set.Finite.List

/-!
# Relations

`Spliced r p f` is the relation `r` after the vertex `f` has been put between `p` and everything `r`
leads to from `p`. A way out of `p` then goes through `f`, and what had to be passed before still
has to be passed. On finitely many points a relation has no endless descent exactly where it has no
cycle.
-/

namespace WazAISentinel.Foundations

open List

universe u

variable {α : Type u} {r : α → α → Prop} {p f : α}

/-- `p` leads to `f` alone, and `f` to where `p` led. -/
def Spliced (r : α → α → Prop) (p f a b : α) : Prop :=
  a = p ∧ b = f ∨ a = f ∧ r p b ∨ a ≠ p ∧ a ≠ f ∧ r a b

theorem spliced_reaches (hf : ∀ b, ¬ r f b) {a b : α} (h : r a b) :
    Relation.TransGen (Spliced r p f) a b := by
  by_cases ha : a = p
  · subst ha
    exact .tail (.single (.inl ⟨rfl, rfl⟩)) (.inr (.inl ⟨rfl, h⟩))
  · have haf : a ≠ f := by
      rintro rfl
      exact hf b h
    exact .single (.inr (.inr ⟨ha, haf, h⟩))

theorem transGen_spliced (hf : ∀ b, ¬ r f b) {a b : α} (h : Relation.TransGen r a b) :
    Relation.TransGen (Spliced r p f) a b :=
  Relation.TransGen.closed (fun _ _ => spliced_reaches hf) a b h

/-- Every way from `p` to `c` goes through `f`. -/
def Guards (r : α → α → Prop) (p f c : α) : Prop :=
  ∀ path : List α, (p :: path).IsChain r → path.getLast? = some c → f ∈ path

theorem guards_spliced_self (hpf : p ≠ f) (c : α) : Guards (Spliced r p f) p f c := by
  intro path hpath hlast
  cases path with
  | nil => cases hlast
  | cons b rest =>
    rcases (isChain_cons_cons.1 hpath).1 with ⟨-, rfl⟩ | ⟨hp, -⟩ | ⟨hp, -, -⟩
    · exact mem_cons_self
    · exact absurd hp hpf
    · exact absurd rfl hp

theorem getLast?_ne_of_cons {b x : α} {rest : List α} (h : (b :: rest).getLast? ≠ some x) :
    rest.getLast? ≠ some x := by
  intro hrest
  apply h
  rw [getLast?_cons, hrest, Option.getD_some]

variable [DecidableEq α]

/-- A way that neither begins nor ends in `f`, without its visits to `f`. -/
theorem isChain_filter_of_spliced (hpf : p ≠ f) (hf : ∀ a, ¬ r a f) {a : α} {path : List α}
    (ha : a ≠ f) (hlast : path.getLast? ≠ some f) (hpath : (a :: path).IsChain (Spliced r p f)) :
    (a :: path.filter (· ≠ f)).IsChain r := by
  -- by the length of the way: a visit to `f` takes two of its steps at once
  induction hn : path.length using Nat.strong_induction_on generalizing a path with
  | _ n ih =>
    cases path with
    | nil => exact .singleton a
    | cons b rest =>
      obtain ⟨hstep, htail⟩ := isChain_cons_cons.1 hpath
      have hlen : rest.length < n := by
        rw [← hn]
        exact Nat.lt_succ_self _
      by_cases hb : b = f
      · subst hb
        cases rest with
        | nil => exact absurd rfl hlast
        | cons c rest =>
          obtain ⟨hsecond, htail'⟩ := isChain_cons_cons.1 htail
          have hap : a = p := by
            rcases hstep with ⟨hap, -⟩ | ⟨haf, -⟩ | ⟨-, -, har⟩
            · exact hap
            · exact absurd haf ha
            · exact absurd har (hf a)
          have hpc : r p c := by
            rcases hsecond with ⟨hfp, -⟩ | ⟨-, hpc⟩ | ⟨-, hff, -⟩
            · exact absurd hfp.symm hpf
            · exact hpc
            · exact absurd rfl hff
          have hcf : c ≠ b := by
            rintro rfl
            exact hf p hpc
          have hlast' := getLast?_ne_of_cons (getLast?_ne_of_cons hlast)
          have hrest := ih rest.length (Nat.lt_of_succ_lt hlen) hcf hlast' htail' rfl
          rw [filter_cons_of_neg (by simp), filter_cons_of_pos (by simpa using hcf), hap]
          exact .cons_cons hpc hrest
      · have hlast' := getLast?_ne_of_cons hlast
        have hab : r a b := by
          rcases hstep with ⟨-, hbf⟩ | ⟨haf, -⟩ | ⟨-, -, hab⟩
          · exact absurd hbf hb
          · exact absurd haf ha
          · exact hab
        rw [filter_cons_of_pos (by simpa using hb)]
        exact .cons_cons hab (ih rest.length hlen hb hlast' htail rfl)

theorem Guards.spliced {q g c : α} (h : Guards r q g c) (hpf : p ≠ f) (hf : ∀ a, ¬ r a f)
    (hq : q ≠ f) (hc : c ≠ f) : Guards (Spliced r p f) q g c := by
  intro path hpath hlast
  have hne : path.getLast? ≠ some f := by
    rw [hlast]
    exact fun heq => hc (Option.some_inj.1 heq)
  have hold := isChain_filter_of_spliced hpf hf hq hne hpath
  have hlast' : (path.filter (· ≠ f)).getLast? = some c := by
    obtain ⟨front, rfl⟩ := getLast?_eq_some_iff.1 hlast
    rw [filter_append, filter_cons_of_pos (by simpa using hc), filter_nil, getLast?_concat]
  exact mem_of_mem_filter (h _ hold hlast')

/-! ## Accessibility and cycles -/

variable {α : Type u} {r : α → α → Prop}

theorem not_transGen_self_of_acc {a : α} (h : Acc r a) : ¬ Relation.TransGen r a a := by
  induction h with
  | intro a _ ih =>
    intro hcycle
    rcases Relation.TransGen.tail'_iff.1 hcycle with ⟨b, hreach, hstep⟩
    exact ih b hstep (Relation.TransGen.head' hstep hreach)

/-- The points from which one step can be taken are finitely many. -/
theorem acc_of_acyclic {l : List α} (hl : ∀ a b, r a b → a ∈ l)
    (hacyclic : ∀ a ∈ l, ¬ Relation.TransGen r a a) (a : α) : Acc r a := by
  have hwf : WellFounded fun x y : { x // x ∈ l } => Relation.TransGen r x.1 y.1 := by
    have hfinite : Finite { x // x ∈ l } := l.finite_toSet.to_subtype
    have hirrefl : Std.Irrefl fun x y : { x // x ∈ l } => Relation.TransGen r x.1 y.1 :=
      ⟨fun x => hacyclic x.1 x.2⟩
    exact Finite.wellFounded_of_trans_of_irrefl _
  have hmem (x : { x // x ∈ l }) : Acc r x.1 := by
    induction hwf.apply x with
    | intro x _ ih => exact Acc.intro x.1 fun y hy => ih ⟨y, hl y x.1 hy⟩ (.single hy)
  exact Acc.intro a fun y hy => hmem ⟨y, hl y a hy⟩

end WazAISentinel.Foundations
