import Mathlib.Tactic

/-!
# Sets of naturals as lists of closed intervals

A canonical list of closed intervals is sorted, and consecutive intervals neither overlap nor touch.
Here: inserting an interval between two parts of such a list, when the list is one full interval,
and the `gaps` it leaves.
-/

namespace WazAISentinel.Foundations

open List

/-- The closed interval from `start` to `stop`. -/
structure Interval where
  start : Nat
  stop : Nat
  deriving DecidableEq, Repr

variable {iv : Interval} {l l₁ l₂ : List Interval} {n pos : Nat} (s : Nat)

namespace IntervalSet

/-- `s` lies in one of the intervals. -/
def Covers (l : List Interval) (s : Nat) : Prop := ∃ iv ∈ l, iv.start ≤ s ∧ s ≤ iv.stop

/-- Nonempty intervals in increasing order, no two of them overlapping or adjacent. -/
@[mk_iff]
structure Canonical (l : List Interval) : Prop where
  nonempty : ∀ iv ∈ l, iv.start ≤ iv.stop
  separated : l.Pairwise fun a b => a.stop + 1 < b.start

@[simp] theorem not_covers_nil : ¬ Covers [] s := by
  rintro ⟨iv, h, -⟩
  simp at h

theorem covers_cons : Covers (iv :: l) s ↔ (iv.start ≤ s ∧ s ≤ iv.stop) ∨ Covers l s := by
  simp [Covers]

theorem covers_append : Covers (l₁ ++ l₂) s ↔ Covers l₁ s ∨ Covers l₂ s := by
  simp only [Covers, mem_append, or_and_right, exists_or]

theorem canonical_nil : Canonical [] := ⟨by simp, .nil⟩

theorem canonical_cons :
    Canonical (iv :: l) ↔ iv.start ≤ iv.stop ∧ (∀ b ∈ l, iv.stop + 1 < b.start) ∧ Canonical l := by
  rw [canonical_iff, canonical_iff, forall_mem_cons, pairwise_cons, and_assoc,
    and_left_comm (c := l.Pairwise _)]

theorem Canonical.append_left (h : Canonical (l₁ ++ l₂)) : Canonical l₁ :=
  ⟨fun iv hiv => h.nonempty iv (by simp [hiv]), (pairwise_append.1 h.separated).1⟩

theorem Canonical.append_right (h : Canonical (l₁ ++ l₂)) : Canonical l₂ :=
  ⟨fun iv hiv => h.nonempty iv (by simp [hiv]), (pairwise_append.1 h.separated).2.1⟩

/-- An interval that touches neither side may stand between two parts of a canonical list. -/
theorem canonical_insert (h₁ : Canonical l₁) (h₂ : Canonical (iv :: l₂))
    (hlt : ∀ a ∈ l₁, a.stop + 1 < iv.start) : Canonical (l₁ ++ iv :: l₂) := by
  obtain ⟨hiv, hsep, hl₂⟩ := canonical_cons.1 h₂
  refine ⟨forall_mem_append.2 ⟨h₁.nonempty, h₂.nonempty⟩,
    pairwise_append.2 ⟨h₁.separated, h₂.separated, fun a ha => ?_⟩⟩
  refine forall_mem_cons.2 ⟨hlt a ha, fun b hb => ?_⟩
  have hab := hlt a ha
  have hb' := hsep b hb
  omega

/-- A canonical list that covers exactly the numbers below `n`, with `0 < n`, is one interval. -/
theorem eq_singleton_of_covers (h : Canonical l) (hn : 0 < n) (hcov : ∀ s, Covers l s ↔ s < n) :
    l = [⟨0, n - 1⟩] := by
  cases l with
  | nil => exact absurd ((hcov 0).2 hn) (not_covers_nil 0)
  | cons iv l =>
    obtain ⟨hiv, hsep, hl⟩ := canonical_cons.1 h
    have hstart : iv.start = 0 := by
      rcases (covers_cons 0).1 ((hcov 0).2 hn) with h0 | ⟨b, hb, h0⟩
      · omega
      · have hb' := hsep b hb
        omega
    have hstop : iv.stop < n := (hcov iv.stop).1 ((covers_cons _).2 (Or.inl ⟨hiv, le_refl _⟩))
    -- the number after the first interval is uncovered, so it is not below `n`
    have hnext : ¬ iv.stop + 1 < n := by
      intro hlt
      rcases (covers_cons _).1 ((hcov _).2 hlt) with hc | ⟨b, hb, hc⟩
      · omega
      · have hb' := hsep b hb
        omega
    have hl : l = [] := by
      cases l with
      | nil => rfl
      | cons b l =>
        have hb := hsep b (by simp)
        have hbne := h.nonempty b (by simp)
        have hlt : b.start < n := (hcov b.start).1 ⟨b, by simp, le_refl _, hbne⟩
        omega
    have hiv' : iv = ⟨0, n - 1⟩ := by
      cases iv
      simp only [Interval.mk.injEq] at *
      omega
    rw [hl, hiv']

/-! ## Gaps -/

/-- The uncovered intervals from `pos` up to `n`, for a canonical list that starts at or after
`pos`. -/
def gaps (n : Nat) : Nat → List Interval → List (Nat × Nat)
  | pos, [] => if pos < n then [(pos, n - 1)] else []
  | pos, iv :: l =>
    (if pos < iv.start then [(pos, iv.start - 1)] else []) ++ gaps n (iv.stop + 1) l

/-- The list lies inside `[pos, n)`. -/
def Within (n pos : Nat) (l : List Interval) : Prop := ∀ iv ∈ l, pos ≤ iv.start ∧ iv.stop < n

theorem Within.tail (h : Within n pos (iv :: l)) (hc : Canonical (iv :: l)) :
    Within n (iv.stop + 1) l := by
  intro b hb
  have hsep := (canonical_cons.1 hc).2.1 b hb
  have hb' := h b (by simp [hb])
  omega

/-- The numbers of the gap from `pos` up to `n`, if there is one. -/
theorem covers_gap :
    (∃ p ∈ (if pos < n then [(pos, n - 1)] else [] : List (Nat × Nat)), p.1 ≤ s ∧ s ≤ p.2) ↔
      pos ≤ s ∧ s < n := by
  by_cases hpos : pos < n
  · simp only [if_pos hpos, mem_singleton, exists_eq_left]
    omega
  · simp only [if_neg hpos, not_mem_nil, false_and, exists_false, false_iff]
    omega

/-- The gaps cover exactly what the list leaves uncovered in `[pos, n)`. -/
theorem covers_gaps :
    ∀ {l : List Interval} {pos : Nat}, Canonical l → Within n pos l →
    ∀ s, (∃ p ∈ gaps n pos l, p.1 ≤ s ∧ s ≤ p.2) ↔ pos ≤ s ∧ s < n ∧ ¬ Covers l s := by
  intro l
  induction l with
  | nil =>
    intro pos _ _ s
    simp only [gaps, covers_gap, not_covers_nil, not_false_eq_true, and_true]
  | cons iv l ih =>
    intro pos hc hw s
    have hiv := hw iv (by simp)
    have hne := hc.nonempty iv (by simp)
    have htail := ih (canonical_cons.1 hc).2.2 (hw.tail hc) s
    have hsplit : (∃ p ∈ gaps n pos (iv :: l), p.1 ≤ s ∧ s ≤ p.2) ↔
        (pos ≤ s ∧ s < iv.start) ∨ (iv.stop + 1 ≤ s ∧ s < n ∧ ¬ Covers l s) := by
      rw [← covers_gap, ← htail]
      simp [gaps, or_and_right, exists_or]
    rw [hsplit, covers_cons]
    constructor
    · rintro (h | ⟨h1, h2, h3⟩)
      · refine ⟨h.1, by omega, ?_⟩
        rintro (hs | ⟨b, hb, hbs⟩)
        · omega
        · have hb' := hw.tail hc b hb
          omega
      · refine ⟨by omega, h2, ?_⟩
        rintro (hs | hs)
        · omega
        · exact h3 hs
    · rintro ⟨h1, h2, h3⟩
      by_cases hs : s < iv.start
      · exact Or.inl ⟨h1, hs⟩
      · exact Or.inr ⟨by omega, h2, fun hcov => h3 (Or.inr hcov)⟩

/-- The gaps are listed in increasing order, and no two of them touch. Each is a nonempty interval
inside `[pos, n)`, bounded by its ends or by covered numbers. -/
theorem gaps_spec :
    ∀ {l : List Interval} {pos : Nat}, Canonical l → Within n pos l →
    ((gaps n pos l).Pairwise fun p q => p.2 + 1 < q.1) ∧
      ∀ p ∈ gaps n pos l, (pos ≤ p.1 ∧ p.1 ≤ p.2 ∧ p.2 < n) ∧
      (p.1 = pos ∨ Covers l (p.1 - 1)) ∧ (p.2 + 1 = n ∨ Covers l (p.2 + 1)) := by
  intro l
  induction l with
  | nil =>
    intro pos _ _
    simp only [gaps]
    constructor
    · split <;> simp
    · intro p hp
      simp only [mem_ite_nil_right, mem_singleton] at hp
      obtain ⟨hpos, rfl⟩ := hp
      exact ⟨by simp only; omega, Or.inl rfl, Or.inl (by simp only; omega)⟩
  | cons iv l ih =>
    intro pos hc hw
    have hiv := hw iv (by simp)
    have hne := hc.nonempty iv (by simp)
    obtain ⟨hsorted, hmaximal⟩ := ih (canonical_cons.1 hc).2.2 (hw.tail hc)
    refine ⟨pairwise_append.2 ⟨by split <;> simp, hsorted, fun p hp q hq => ?_⟩,
      fun p hp => ?_⟩
    · have hq' := (hmaximal q hq).1
      obtain ⟨hpos, hp⟩ := mem_ite_nil_right.1 hp
      rw [mem_singleton.1 hp]
      omega
    · simp only [gaps, mem_append, mem_ite_nil_right, mem_singleton] at hp
      simp only [covers_cons]
      rcases hp with ⟨hpos, rfl⟩ | hp
      · exact ⟨by simp only; omega, Or.inl rfl, Or.inr (Or.inl (by simp only; omega))⟩
      · obtain ⟨hbounds, h1, h2⟩ := hmaximal p hp
        refine ⟨by omega, Or.inr (h1.imp_left fun h => ?_), h2.imp_right Or.inr⟩
        omega

end IntervalSet

end WazAISentinel.Foundations
