import Mathlib.Tactic

/-!
# Lexicographic comparison with padding

Two lists are compared element by element, and behind its end a list goes on with one fixed element,
so that trailing copies of it do not count.
-/

namespace WazAISentinel.Foundations

universe u

variable {α : Type u}

/-- The lexicographic comparison of two lists that both go on with `pad`. -/
def comparePadded (cmp : α → α → Ordering) (pad : α) : List α → List α → Ordering
  | [], bs => bs.foldr (fun b rest => (cmp pad b).then rest) .eq
  | a :: as, bs => (cmp a (bs.headD pad)).then (comparePadded cmp pad as bs.tail)

variable {cmp : α → α → Ordering} {pad : α}

/-- The first elements decide, and if they are equal the rest. -/
theorem comparePadded_step [Std.ReflCmp cmp] (as bs : List α) :
    comparePadded cmp pad as bs =
      (cmp (as.headD pad) (bs.headD pad)).then (comparePadded cmp pad as.tail bs.tail) := by
  cases as with
  | nil =>
    cases bs with
    | nil => simp [comparePadded, Std.ReflCmp.compare_self]
    | cons b bs => rfl
  | cons a as => rfl

theorem comparePadded_swap [Std.OrientedCmp cmp] (as bs : List α) :
    comparePadded cmp pad as bs = (comparePadded cmp pad bs as).swap := by
  induction as generalizing bs with
  | nil =>
    induction bs with
    | nil => rfl
    | cons b bs ih =>
      have hhead : cmp pad b = (cmp b pad).swap := Std.OrientedCmp.eq_swap
      rw [comparePadded_step, comparePadded_step (b :: bs), Ordering.swap_then]
      exact congrArg₂ _ hhead ih
  | cons a as ih =>
    have hhead : cmp a (bs.headD pad) = (cmp (bs.headD pad) a).swap := Std.OrientedCmp.eq_swap
    rw [comparePadded_step, comparePadded_step bs, Ordering.swap_then]
    exact congrArg₂ _ hhead (ih bs.tail)

theorem comparePadded_isLE_trans [Std.TransCmp cmp] (as bs cs : List α)
    (hab : (comparePadded cmp pad as bs).isLE = true)
    (hbc : (comparePadded cmp pad bs cs).isLE = true) :
    (comparePadded cmp pad as cs).isLE = true := by
  -- by induction on the longest of the three lists
  obtain ⟨n, hn⟩ : ∃ n, as.length ≤ n ∧ bs.length ≤ n ∧ cs.length ≤ n :=
    ⟨as.length + bs.length + cs.length, by omega, by omega, by omega⟩
  induction n generalizing as bs cs with
  | zero =>
    obtain ⟨ha, -, hc⟩ := hn
    rw [List.length_eq_zero_iff.1 (Nat.le_zero.1 ha), List.length_eq_zero_iff.1 (Nat.le_zero.1 hc)]
    rfl
  | succ n ih =>
    rw [comparePadded_step, Ordering.isLE_then_iff_or] at hab hbc ⊢
    rcases hab with hab | ⟨hab, hab'⟩
    · rcases hbc with hbc | ⟨hbc, -⟩
      · exact .inl (Std.TransCmp.lt_trans hab hbc)
      · exact .inl (Std.TransCmp.lt_of_lt_of_eq hab hbc)
    · rcases hbc with hbc | ⟨hbc, hbc'⟩
      · exact .inl (Std.TransCmp.lt_of_eq_of_lt hab hbc)
      · refine .inr ⟨Std.TransCmp.eq_trans hab hbc, ?_⟩
        apply ih _ _ _ hab' hbc'
        simp only [List.length_tail]
        omega

instance [Std.TransCmp cmp] : Std.TransCmp (comparePadded cmp pad) where
  eq_swap := comparePadded_swap _ _
  isLE_trans := comparePadded_isLE_trans _ _ _

end WazAISentinel.Foundations
