import Mathlib.Data.List.TakeWhile
import WazAISentinel.Foundations.IntervalSet
import WazAISentinel.Foundations.MachineWord

/-!
# The gap set of a session

`gapSet.hpp`: the sequence numbers observed so far, kept as a sorted set of closed intervals with a
counter and a completion flag. The functions are written over `WordOps`; `observe` and `ranges` are
their wrapping instances, as the code runs. The time of the last update is left out: only the
session timeout reads it.

`Represents g S` relates a gap set to the finite set of observed numbers. Within its bounds every
faithful arithmetic gives one result: with `wrapping` and `checked`, no computation of the code
wraps. `observe` splits the intervals at the lower bound, merges on both sides and inserts.
-/

namespace WazAISentinel.InventorySync

open Foundations Foundations.IntervalSet

/-- `Interval::operator<`: by `start`, then by `stop`. -/
def intervalLt (a b : Interval) : Bool :=
  if a.start ≠ b.start then a.start < b.start else a.stop < b.stop

/-- `Interval::contains`. -/
def intervalContains (iv : Interval) (seq : Nat) : Bool := seq ≥ iv.start && seq ≤ iv.stop

/-- `Interval::mergeWith`. -/
def mergeWith (iv other : Interval) : Interval :=
  ⟨min iv.start other.start, max iv.stop other.stop⟩

/-- The fields of `GapSet`; `intervals` lists `m_intervals` in the order of the set. -/
structure GapSet where
  size : Nat
  observedCount : Nat
  allObserved : Bool
  intervals : List Interval
  deriving DecidableEq, Repr

/-- The constructor `GapSet(size)`. -/
def GapSet.new (size : Nat) : GapSet := ⟨size, 0, size = 0, []⟩

/-- The elements of `m_intervals` before `lower_bound(Interval(seq, seq))`. -/
def beforeSeq (l : List Interval) (seq : Nat) : List Interval :=
  l.takeWhile fun iv => intervalLt iv ⟨seq, seq⟩

/-- The elements of `m_intervals` from `lower_bound(Interval(seq, seq))` on. -/
def fromSeq (l : List Interval) (seq : Nat) : List Interval :=
  l.dropWhile fun iv => intervalLt iv ⟨seq, seq⟩

/-- `m_intervals.insert`: an equivalent element is not inserted again. -/
def setInsert (iv : Interval) (l : List Interval) : List Interval :=
  let rest := l.dropWhile fun a => intervalLt a iv
  if rest.head? = some iv then l else l.takeWhile (fun a => intervalLt a iv) ++ iv :: rest

section Code

variable {m : Type → Type} [Monad m] (ops : WordOps m)

/-- `Interval::canMergeWith`: adjacent or overlapping. -/
def canMergeWith (iv other : Interval) : m Bool := do
  let afterOther ← ops.succ other.stop
  if iv.start ≤ afterOther then
    let afterThis ← ops.succ iv.stop
    pure (other.start ≤ afterThis)
  else pure false

/-- The merge with the previous interval: the new interval and the elements kept before it. -/
def mergePrevious (before : List Interval) (newInterval : Interval) :
    m (List Interval × Interval) :=
  match before.getLast? with
  | none => pure (before, newInterval)
  | some prev => do
      if ← canMergeWith ops prev newInterval then
        pure (before.dropLast, mergeWith prev newInterval)
      else pure (before, newInterval)

/-- The loop that merges following intervals: the new interval and the elements kept after it. -/
def mergeFollowing : Interval → List Interval → m (Interval × List Interval)
  | newInterval, [] => pure (newInterval, [])
  | newInterval, it :: rest => do
      if ← canMergeWith ops newInterval it then mergeFollowing (mergeWith newInterval it) rest
      else pure (newInterval, it :: rest)

/-- The test that one interval from `0` to `size - 1` is left. -/
def isComplete (size : Nat) : List Interval → m Bool
  | [iv] =>
    if iv.start = 0 then do
      let last ← ops.pred size
      pure (iv.stop = last)
    else pure false
  | _ => pure false

/-- `GapSet::observe`. -/
def observeWith (g : GapSet) (seq : Nat) : m (Except String GapSet) :=
  if seq ≥ g.size then pure (.error "Sequence number out of range")
  else if g.allObserved then pure (.ok g)
  else if (beforeSeq g.intervals seq).getLast?.any (intervalContains · seq) then pure (.ok g)
  else if (fromSeq g.intervals seq).head?.any (intervalContains · seq) then pure (.ok g)
  else do
    let observedCount ← ops.succ g.observedCount
    let (before, newInterval) ← mergePrevious ops (beforeSeq g.intervals seq) ⟨seq, seq⟩
    let (newInterval, after) ← mergeFollowing ops newInterval (fromSeq g.intervals seq)
    let intervals := setInsert newInterval (before ++ after)
    let allObserved ← isComplete ops g.size intervals
    pure (.ok ⟨g.size, observedCount, allObserved, intervals⟩)

/-- The loop of `GapSet::ranges` from position `pos`. -/
def rangesFrom (size : Nat) : Nat → List Interval → m (List (Nat × Nat))
  | pos, [] =>
    if pos < size then do
      let last ← ops.pred size
      pure [(pos, last)]
    else pure []
  | pos, iv :: rest => do
      let gap ← if pos < iv.start then do
          let last ← ops.pred iv.start
          pure [(pos, last)]
        else pure []
      let next ← ops.succ iv.stop
      let gaps ← rangesFrom size next rest
      pure (gap ++ gaps)

/-- `GapSet::ranges`. -/
def rangesWith (g : GapSet) : m (List (Nat × Nat)) :=
  if g.size = 0 ∨ g.allObserved then pure []
  else if g.intervals = [] then do
    let last ← ops.pred g.size
    pure [(0, last)]
  else rangesFrom ops g.size 0 g.intervals

/-- A sequence of `observe` calls; a call that throws leaves the set as it is. -/
def observeAllWith : GapSet → List Nat → m GapSet
  | g, [] => pure g
  | g, seq :: seqs => do
      match ← observeWith ops g seq with
      | .ok g' => observeAllWith g' seqs
      | .error _ => observeAllWith g seqs

end Code

namespace GapSet

variable (g : GapSet)

/-- `GapSet::observe` with wrapping arithmetic. -/
def observe (seq : Nat) : Except String GapSet := observeWith wrapping g seq

/-- `GapSet::ranges` with wrapping arithmetic. -/
def ranges : List (Nat × Nat) := rangesWith wrapping g

/-- A sequence of `observe` calls with wrapping arithmetic. -/
def observeAll (seqs : List Nat) : GapSet := observeAllWith wrapping g seqs

/-- `GapSet::empty`. -/
def empty : Bool := if g.size = 0 then true else g.allObserved

/-- `GapSet::contains`. -/
def contains (seq : Nat) : Bool :=
  if seq ≥ g.size then false
  else if g.allObserved then true
  else if (fromSeq g.intervals seq).head?.any (intervalContains · seq) then true
  else (beforeSeq g.intervals seq).getLast?.any (intervalContains · seq)

end GapSet

open List

/-- The gap set `g` stands for the set `S` of observed numbers. -/
structure Represents (g : GapSet) (S : Finset Nat) : Prop where
  canonical : Canonical g.intervals
  covers : ∀ s, Covers g.intervals s ↔ s ∈ S
  bounded : ∀ s ∈ S, s < g.size
  count : g.observedCount = S.card
  complete : g.allObserved = true ↔ ∀ s < g.size, s ∈ S
  word : g.size < wordCount

variable {iv : Interval} {before : List Interval} {size n : Nat} {S : Finset Nat} {g : GapSet}

namespace Represents

theorem stop_lt (h : Represents g S) (hiv : iv ∈ g.intervals) : iv.stop < g.size :=
  h.bounded _ ((h.covers _).1 ⟨iv, hiv, h.canonical.nonempty iv hiv, le_refl _⟩)

theorem within (h : Represents g S) : Within g.size 0 g.intervals :=
  fun _ hiv => ⟨Nat.zero_le _, h.stop_lt hiv⟩

theorem card_lt (h : Represents g S) {seq : Nat} (hseq : seq < g.size) (hnew : seq ∉ S) :
    S.card < g.size := by
  have hsub : S ⊂ Finset.range g.size := by
    refine (Finset.ssubset_iff_of_subset ?_).2 ⟨seq, by simpa using hseq, hnew⟩
    intro s hs
    simpa using h.bounded s hs
  simpa using Finset.card_lt_card hsub

end Represents

/-! ## The split at the lower bound -/

section Split

variable {l : List Interval} {seq : Nat}

theorem intervalLt_iff {a b : Interval} :
    intervalLt a b = true ↔ a.start < b.start ∨ (a.start = b.start ∧ a.stop < b.stop) := by
  unfold intervalLt
  split <;> rw [decide_eq_true_iff] <;> omega

theorem beforeSeq_append_fromSeq (l : List Interval) (seq : Nat) :
    beforeSeq l seq ++ fromSeq l seq = l :=
  takeWhile_append_dropWhile

theorem canonical_beforeSeq (hc : Canonical l) : Canonical (beforeSeq l seq) := by
  rw [← beforeSeq_append_fromSeq l seq] at hc
  exact hc.append_left

theorem canonical_fromSeq (hc : Canonical l) : Canonical (fromSeq l seq) := by
  rw [← beforeSeq_append_fromSeq l seq] at hc
  exact hc.append_right

theorem covers_split (l : List Interval) (seq s : Nat) :
    Covers l s ↔ Covers (beforeSeq l seq) s ∨ Covers (fromSeq l seq) s := by
  rw [← covers_append, beforeSeq_append_fromSeq]

section

variable (hc : Canonical l)

include hc

/-- Every interval before the lower bound starts before `seq`. -/
theorem start_lt_of_mem_beforeSeq (hiv : iv ∈ beforeSeq l seq) : iv.start < seq := by
  have hne := (canonical_beforeSeq hc).nonempty iv hiv
  have h := intervalLt_iff.1 (mem_takeWhile_imp (p := fun iv => intervalLt iv ⟨seq, seq⟩) hiv)
  dsimp only at h
  omega

/-- Every interval from the lower bound on starts at or after `seq`. -/
theorem le_start_of_mem_fromSeq (hiv : iv ∈ fromSeq l seq) : seq ≤ iv.start := by
  have hfrom : Canonical (fromSeq l seq) := canonical_fromSeq hc
  cases hl : fromSeq l seq with
  | nil => simp [hl] at hiv
  | cons a rest =>
    have ha : seq ≤ a.start := by
      have hhead := head?_dropWhile_not (fun iv => intervalLt iv ⟨seq, seq⟩) l
      have heq : (l.dropWhile fun iv => intervalLt iv ⟨seq, seq⟩) = a :: rest := hl
      rw [heq] at hhead
      have h := mt intervalLt_iff.2 (Bool.eq_false_iff.1 hhead)
      dsimp only at h
      omega
    rw [hl] at hiv hfrom
    obtain ⟨hane, hsep, -⟩ := canonical_cons.1 hfrom
    rcases mem_cons.1 hiv with rfl | hmem
    · exact ha
    · have h := hsep iv hmem
      omega

/-- Only the interval before the lower bound can reach `seq` from the left. -/
theorem covers_beforeSeq_iff :
    Covers (beforeSeq l seq) seq ↔
      (beforeSeq l seq).getLast?.any (intervalContains · seq) = true := by
  have hb : Canonical (beforeSeq l seq) := canonical_beforeSeq hc
  have hlt : ∀ iv ∈ beforeSeq l seq, iv.start < seq := fun _ => start_lt_of_mem_beforeSeq hc
  rcases eq_nil_or_concat (beforeSeq l seq) with hnil | ⟨init, last, hlast⟩
  · simp [hnil]
  · rw [concat_eq_append] at hlast
    rw [hlast] at hb hlt ⊢
    have hsep := (pairwise_append.1 hb.separated).2.2
    have hinit : ¬ Covers init seq := by
      rintro ⟨iv, hiv, hs⟩
      have h1 := hsep iv hiv last (by simp)
      have h2 := hlt last (by simp)
      omega
    rw [covers_append, covers_cons]
    simp [hinit, intervalContains]

/-- Only the interval at the lower bound can start at `seq`. -/
theorem covers_fromSeq_iff :
    Covers (fromSeq l seq) seq ↔
      (fromSeq l seq).head?.any (intervalContains · seq) = true := by
  have hf : Canonical (fromSeq l seq) := canonical_fromSeq hc
  have hle : ∀ iv ∈ fromSeq l seq, seq ≤ iv.start := fun _ => le_start_of_mem_fromSeq hc
  cases hl : fromSeq l seq with
  | nil => simp
  | cons a rest =>
    rw [hl] at hf hle
    obtain ⟨hane, hsep, -⟩ := canonical_cons.1 hf
    have hrest : ¬ Covers rest seq := by
      rintro ⟨iv, hiv, hs⟩
      have h1 := hsep iv hiv
      have h2 := hle a (by simp)
      omega
    rw [covers_cons]
    simp [hrest, intervalContains]

/-- An uncovered number lies strictly between the two parts. -/
theorem between_of_not_covers (hun : ¬ Covers l seq) :
    (∀ iv ∈ beforeSeq l seq, iv.stop < seq) ∧ ∀ iv ∈ fromSeq l seq, seq < iv.start := by
  rw [covers_split l seq, not_or] at hun
  constructor
  · intro iv hiv
    have hlt := start_lt_of_mem_beforeSeq hc hiv
    by_contra hge
    exact hun.1 ⟨iv, hiv, by omega, by omega⟩
  · intro iv hiv
    have hle := le_start_of_mem_fromSeq hc hiv
    have hne := (canonical_fromSeq hc).nonempty iv hiv
    by_contra hge
    exact hun.2 ⟨iv, hiv, by omega, by omega⟩

end

end Split

/-! ## Merging and inserting -/

theorem canMergeWith_computes {other : Interval} (hiv : iv.stop + 1 < wordCount)
    (hother : other.stop + 1 < wordCount) :
    Computes (fun ops => canMergeWith ops iv other)
      (decide (iv.start ≤ other.stop + 1 ∧ other.start ≤ iv.stop + 1)) := by
  refine ⟨fun hops => ?_⟩
  simp only [canMergeWith, hops.succ _ hiv, hops.succ _ hother, pure_bind]
  by_cases h : iv.start ≤ other.stop + 1 <;> simp [h]

/-- Merging with the previous interval: the elements kept do not touch the new interval, and nothing
but `seq` is added. -/
theorem mergePrevious_spec {seq : Nat} (hc : Canonical before) (hlt : ∀ a ∈ before, a.stop < seq)
    (hword : seq + 1 < wordCount) :
    ∃ kept start, Computes (fun ops => mergePrevious ops before ⟨seq, seq⟩) (kept, ⟨start, seq⟩) ∧
      start ≤ seq ∧
      Canonical kept ∧ (∀ a ∈ kept, a.stop + 1 < start) ∧
      ∀ s, Covers kept s ∨ (start ≤ s ∧ s ≤ seq) ↔ Covers before s ∨ s = seq := by
  rcases eq_nil_or_concat before with rfl | ⟨init, last, rfl⟩
  · refine ⟨[], seq, ⟨fun _ => rfl⟩, le_refl _, hc, by simp, fun s => ?_⟩
    simp only [not_covers_nil, false_or]
    omega
  · rw [concat_eq_append] at hc hlt ⊢
    have hsep := (pairwise_append.1 hc.separated).2.2
    have hlast := hlt last (by simp)
    have hne := hc.nonempty last (by simp)
    have hrun : Computes (fun ops => mergePrevious ops (init ++ [last]) ⟨seq, seq⟩)
        (if last.stop + 1 = seq then (init, ⟨last.start, seq⟩)
          else (init ++ [last], ⟨seq, seq⟩)) := by
      refine ⟨fun hops => ?_⟩
      simp only [mergePrevious, getLast?_append, getLast?_singleton, Option.some_or,
        dropLast_concat]
      rw [(canMergeWith_computes (by omega) hword).eq hops, pure_bind]
      by_cases htouch : last.stop + 1 = seq
      · have hmerge : mergeWith last ⟨seq, seq⟩ = ⟨last.start, seq⟩ := by
          simp only [mergeWith, Interval.mk.injEq]
          omega
        rw [if_pos (by simp only [decide_eq_true_eq]; omega), if_pos htouch, hmerge]
      · rw [if_neg (by simp only [decide_eq_true_eq]; omega), if_neg htouch]
    by_cases htouch : last.stop + 1 = seq
    · rw [if_pos htouch] at hrun
      refine ⟨init, last.start, hrun, by omega, hc.append_left,
        fun a ha => hsep a ha last (by simp), fun s => ?_⟩
      rw [covers_append, covers_cons]
      simp only [not_covers_nil, or_false]
      rw [or_assoc]
      exact or_congr_right (by omega)
    · rw [if_neg htouch] at hrun
      refine ⟨init ++ [last], seq, hrun, le_refl _, hc, ?_, fun s => or_congr_right (by omega)⟩
      intro a ha
      rcases mem_append.1 ha with ha | ha
      · have h := hsep a ha last (by simp)
        omega
      · rw [mem_singleton] at ha
        subst ha
        omega

/-- The merge loop: the new interval absorbs the following intervals it touches. -/
theorem mergeFollowing_spec :
    ∀ {after : List Interval} {iv : Interval}, Canonical after →
    iv.start ≤ iv.stop → (∀ a ∈ after, iv.stop < a.start ∧ a.stop + 1 < wordCount) →
      iv.stop + 1 < wordCount →
    ∃ stop rest, Computes (fun ops => mergeFollowing ops iv after) (⟨iv.start, stop⟩, rest) ∧
      Canonical (⟨iv.start, stop⟩ :: rest) ∧ ∀ s, Covers (⟨iv.start, stop⟩ :: rest) s ↔
        Covers (iv :: after) s := by
  intro after
  induction after with
  | nil =>
    intro iv _ hiv _ _
    exact ⟨iv.stop, [], ⟨fun _ => rfl⟩, canonical_cons.2 ⟨hiv, by simp, canonical_nil⟩,
      fun s => Iff.rfl⟩
  | cons a rest ih =>
    intro iv hc hiv hlt hword
    obtain ⟨hane, hsep, hrest⟩ := canonical_cons.1 hc
    obtain ⟨ha, haword⟩ := hlt a (by simp)
    by_cases htouch : a.start = iv.stop + 1
    · have hmerge : mergeWith iv a = ⟨iv.start, a.stop⟩ := by
        simp only [mergeWith, Interval.mk.injEq]
        omega
      obtain ⟨stop, after', hrun, hcan, hcov⟩ := @ih ⟨iv.start, a.stop⟩ hrest (by simp only; omega)
        (fun b hb => ⟨by have h := hsep b hb; simp only; omega, (hlt b (by simp [hb])).2⟩) haword
      refine ⟨stop, after', ⟨fun hops => ?_⟩, hcan, fun s => (hcov s).trans ?_⟩
      · rw [← hrun.eq hops, mergeFollowing, (canMergeWith_computes hword haword).eq hops, pure_bind,
          hmerge, if_pos (by simp only [decide_eq_true_eq]; omega)]
      · simp only [covers_cons]
        rw [← or_assoc]
        exact or_congr_left (by omega)
    · refine ⟨iv.stop, a :: rest, ⟨fun hops => ?_⟩, canonical_cons.2 ⟨hiv, ?_, hc⟩,
        fun s => Iff.rfl⟩
      · rw [mergeFollowing, (canMergeWith_computes hword haword).eq hops, pure_bind,
          if_neg (by simp only [decide_eq_true_eq]; omega)]
      · intro b hb
        show iv.stop + 1 < b.start
        rcases mem_cons.1 hb with rfl | hb
        · omega
        · have h := hsep b hb
          omega

/-- Inserting an interval that lies between two parts puts it there. -/
theorem setInsert_between {l₁ l₂ : List Interval} (h₁ : ∀ a ∈ l₁, a.start < iv.start)
    (h₂ : ∀ a ∈ l₂, iv.start < a.start) : setInsert iv (l₁ ++ l₂) = l₁ ++ iv :: l₂ := by
  have hlt : ∀ a ∈ l₁, intervalLt a iv = true := fun a ha => intervalLt_iff.2 (.inl (h₁ a ha))
  have hge : ∀ a ∈ l₂, intervalLt a iv = false := by
    intro a ha
    have h := h₂ a ha
    rw [Bool.eq_false_iff, ne_eq, intervalLt_iff]
    omega
  have hdrop : (l₁ ++ l₂).dropWhile (fun a => intervalLt a iv) = l₂ := by
    rw [dropWhile_append_of_pos hlt]
    cases l₂ with
    | nil => rfl
    | cons b l => simp [hge b (by simp)]
  have htake : (l₁ ++ l₂).takeWhile (fun a => intervalLt a iv) = l₁ := by
    rw [takeWhile_append_of_pos hlt]
    cases l₂ with
    | nil => simp
    | cons b l => simp [hge b (by simp)]
  have hhead : l₂.head? ≠ some iv := by
    intro h
    have hiv := h₂ iv (mem_of_head? h)
    omega
  simp only [setInsert]
  rw [hdrop, htake, if_neg hhead]

/-- The completion test holds exactly when every number below `size` is covered. -/
theorem isComplete_exact (hsize : 0 < size) {l : List Interval} (hc : Canonical l)
    (hlt : ∀ iv ∈ l, iv.stop < size) :
    (isComplete exact size l).run = true ↔ ∀ s < size, Covers l s := by
  constructor
  · intro h
    match l, h with
    | [iv], h =>
      have h' : (if iv.start = 0 then decide (iv.stop = size - 1) else false) = true := h
      intro s hs
      split at h'
      · have hstop : iv.stop = size - 1 := by simpa using h'
        exact ⟨iv, by simp, by omega, by omega⟩
      · exact absurd h' (by simp)
  · intro h
    have hl : l = [⟨0, size - 1⟩] := by
      refine eq_singleton_of_covers hc hsize fun s => ⟨?_, h s⟩
      rintro ⟨iv, hiv, hs⟩
      have hstop := hlt iv hiv
      omega
    rw [hl]
    show (if (0 : Nat) = 0 then decide (size - 1 = size - 1) else false) = true
    simp

/-! ## No computation wraps -/

section NoWrap

variable {m : Type → Type} [Monad m] [LawfulMonad m] {ops : WordOps m}

section

variable (hops : ops.Faithful)

include hops

theorem isComplete_eq_pure (h₀ : 0 < size) (h : size < wordCount) (l : List Interval) :
    isComplete ops size l = pure (isComplete exact size l).run := by
  match l with
  | [] => rfl
  | [iv] =>
    simp only [isComplete]
    rw [hops.pred _ h₀ h, pure_bind]
    split <;> rfl
  | _ :: _ :: _ => rfl

theorem rangesFrom_eq_pure (h₀ : 0 < size) (h : size < wordCount) :
    ∀ {l : List Interval} {pos : Nat}, Canonical l →
    (∀ iv ∈ l, iv.stop < size) → rangesFrom ops size pos l = pure (gaps size pos l) := by
  intro l
  induction l with
  | nil =>
    intro pos _ _
    simp only [rangesFrom, gaps]
    rw [hops.pred _ h₀ h, pure_bind]
    split <;> rfl
  | cons iv rest ih =>
    intro pos hc hlt
    have hstop := hlt iv (by simp)
    have hne := hc.nonempty iv (by simp)
    have hrest := @ih (iv.stop + 1) (canonical_cons.1 hc).2.2 fun b hb => hlt b (by simp [hb])
    simp only [rangesFrom, gaps]
    rw [hops.succ _ (by omega)]
    by_cases hpos : pos < iv.start
    · rw [if_pos hpos, if_pos hpos, hops.pred _ (by omega) (by omega)]
      simp [pure_bind, hrest]
    · rw [if_neg hpos, if_neg hpos]
      simp [pure_bind, hrest]

/-- Within a represented set, `ranges` lists the gaps. -/
theorem rangesWith_eq_pure (h : Represents g S) :
    rangesWith ops g = pure (if g.allObserved then [] else gaps g.size 0 g.intervals) := by
  have hword := h.word
  by_cases hall : g.allObserved = true
  · simp [rangesWith, hall]
  · have hsize : 0 < g.size := by
      by_contra hzero
      exact hall (h.complete.2 fun s hs => absurd hs (by omega))
    have hcond : ¬ (g.size = 0 ∨ g.allObserved = true) := by
      rintro (h0 | h1)
      · omega
      · exact hall h1
    simp only [rangesWith, if_neg hcond, if_neg hall]
    by_cases hnil : g.intervals = []
    · rw [if_pos hnil, hops.pred _ hsize hword, pure_bind, hnil]
      simp [gaps, hsize]
    · rw [if_neg hnil]
      exact rangesFrom_eq_pure hops hsize hword h.canonical fun iv hiv => h.stop_lt hiv

end

end NoWrap

/-! ## One call and every sequence of calls -/

theorem represents_new (hn : n < wordCount) : Represents (GapSet.new n) ∅ where
  canonical := canonical_nil
  covers s := by simp [GapSet.new]
  bounded s hs := by simp at hs
  count := rfl
  complete := by
    simp only [GapSet.new, decide_eq_true_eq]
    constructor
    · intro h s hs
      omega
    · intro h
      by_contra hne
      exact absurd (h 0 (by omega)) (by simp)
  word := hn

/-- Whatever faithful arithmetic runs it, `observe` throws for a number out of range, and otherwise
adds it. -/
theorem observeWith_spec (h : Represents g S) (seq : Nat) :
    ∃ r, Computes (fun ops => observeWith ops g seq) r ∧
    if seq < g.size then ∃ g', r = .ok g' ∧ g'.size = g.size ∧ Represents g' (insert seq S)
    else r = .error "Sequence number out of range" := by
  by_cases hseq : seq < g.size
  swap
  · exact ⟨_, ⟨fun _ => if_pos (Nat.le_of_not_lt hseq)⟩, by rw [if_neg hseq]⟩
  simp only [observeWith, if_neg (Nat.not_le_of_lt hseq), if_pos hseq]
  have hknown : seq ∈ S → Represents g (insert seq S) := fun hmem => by
    rw [Finset.insert_eq_of_mem hmem]
    exact h
  by_cases hall : g.allObserved = true
  · exact ⟨_, ⟨fun _ => if_pos hall⟩, g, rfl, rfl, hknown (h.complete.1 hall seq hseq)⟩
  simp only [if_neg hall]
  by_cases hprev : (beforeSeq g.intervals seq).getLast?.any (intervalContains · seq) = true
  · refine ⟨_, ⟨fun _ => if_pos hprev⟩, g, rfl, rfl,
      hknown ((h.covers seq).1 ((covers_split _ seq _).2 (Or.inl ?_)))⟩
    exact (covers_beforeSeq_iff h.canonical).2 hprev
  simp only [if_neg hprev]
  by_cases hnext : (fromSeq g.intervals seq).head?.any (intervalContains · seq) = true
  · refine ⟨_, ⟨fun _ => if_pos hnext⟩, g, rfl, rfl,
      hknown ((h.covers seq).1 ((covers_split _ seq _).2 (Or.inr ?_)))⟩
    exact (covers_fromSeq_iff h.canonical).2 hnext
  simp only [if_neg hnext]
  -- neither neighbour of the lower bound contains `seq`, so no interval does
  have hun : ¬ Covers g.intervals seq := by
    rw [covers_split g.intervals seq, covers_beforeSeq_iff h.canonical,
      covers_fromSeq_iff h.canonical]
    exact not_or.2 ⟨hprev, hnext⟩
  have hnew : seq ∉ S := fun hmem => hun ((h.covers seq).2 hmem)
  obtain ⟨hbefore, hfrom⟩ := between_of_not_covers h.canonical hun
  have hword := h.word
  obtain ⟨kept, start, hprevious, hstart, hkept, hsep, hcovKept⟩ :=
    mergePrevious_spec (canonical_beforeSeq h.canonical) hbefore (by omega)
  obtain ⟨stop, rest, hfollowing, hcan, hcovRest⟩ :=
    @mergeFollowing_spec _ ⟨start, seq⟩ (canonical_fromSeq h.canonical) hstart
    (fun iv hiv => ⟨hfrom iv hiv, by have hlt := h.stop_lt (dropWhile_subset _ hiv); omega⟩)
      (by simp only; omega)
  have hins : setInsert ⟨start, stop⟩ (kept ++ rest) = kept ++ ⟨start, stop⟩ :: rest := by
    obtain ⟨hne, hgt, -⟩ := canonical_cons.1 hcan
    refine setInsert_between (fun a ha => ?_) fun a ha => ?_
    · have h1 := hsep a ha
      have h2 := hkept.nonempty a ha
      simp only
      omega
    · have h1 := hgt a ha
      simp only at h1 hne ⊢
      omega
  -- the new list covers what the old one covered, and `seq`
  have hcover : ∀ s, Covers (kept ++ ⟨start, stop⟩ :: rest) s ↔ s ∈ insert seq S := by
    intro s
    rw [covers_append, hcovRest, covers_cons, Finset.mem_insert, ← h.covers s,
      covers_split g.intervals seq s, ← or_assoc, hcovKept s]
    tauto
  have hcanonical : Canonical (kept ++ ⟨start, stop⟩ :: rest) := canonical_insert hkept hcan hsep
  have hbounded : ∀ s ∈ insert seq S, s < g.size := by
    intro s hs
    rcases Finset.mem_insert.1 hs with rfl | hs
    · exact hseq
    · exact h.bounded s hs
  have hcomplete := isComplete_exact (Nat.zero_lt_of_lt hseq) hcanonical fun iv hiv =>
    hbounded _ ((hcover _).1 ⟨iv, hiv, hcanonical.nonempty iv hiv, le_refl _⟩)
  refine ⟨.ok
    ⟨g.size, g.observedCount + 1, (isComplete exact g.size (kept ++ ⟨start, stop⟩ :: rest)).run,
    kept ++ ⟨start, stop⟩ :: rest⟩, ⟨fun hops => ?_⟩, _, rfl, rfl, ?_⟩
  · have hcount : g.observedCount + 1 < wordCount := by
      have hcard := h.card_lt hseq hnew
      rw [h.count]
      omega
    rw [hops.succ _ hcount, pure_bind, hprevious.eq hops, pure_bind, hfollowing.eq hops, pure_bind,
      hins, isComplete_eq_pure hops (by omega) hword, pure_bind]
  · refine ⟨hcanonical, hcover, hbounded, ?_, ?_, h.word⟩
    · simp [h.count, Finset.card_insert_of_notMem hnew]
    · simp [hcomplete, hcover]

/-- `observe` throws for a number out of range, and otherwise adds it. -/
theorem represents_observe (h : Represents g S) (seq : Nat) :
    if seq < g.size then
      ∃ g', g.observe seq = .ok g' ∧ g'.size = g.size ∧ Represents g' (insert seq S)
    else g.observe seq = .error "Sequence number out of range" := by
  obtain ⟨r, hr, hspec⟩ := observeWith_spec h seq
  have hobserve : g.observe seq = r := hr.eq wrapping_faithful
  rwa [hobserve]

theorem observeAll_cons (g : GapSet) (seq : Nat) (seqs : List Nat) :
    g.observeAll (seq :: seqs) =
      match g.observe seq with
      | .ok g' => g'.observeAll seqs
      | .error _ => g.observeAll seqs := by
  show (do match ← observeWith wrapping g seq with
    | .ok g' => observeAllWith wrapping g' seqs
    | .error _ => observeAllWith wrapping g seqs : Id GapSet) = _
  have hrun : observeWith wrapping g seq = pure (g.observe seq) := rfl
  rw [hrun, pure_bind]
  cases g.observe seq <;> rfl

/-- The numbers of a sequence of calls that do not throw. -/
def observedBelow (n : Nat) (seqs : List Nat) : Finset Nat := seqs.toFinset.filter (· < n)

theorem mem_observedBelow {s : Nat} {seqs : List Nat} :
    s ∈ observedBelow n seqs ↔ s < n ∧ s ∈ seqs := by
  simp [observedBelow, and_comm]

theorem observedBelow_cons (n seq : Nat) (seqs : List Nat) :
    observedBelow n (seq :: seqs) =
    if seq < n then insert seq (observedBelow n seqs) else observedBelow n seqs := by
  rw [observedBelow, toFinset_cons, Finset.filter_insert]
  rfl

/-- Every sequence of calls adds exactly the numbers in range, whatever faithful arithmetic runs
it. -/
theorem observeAllWith_spec (seqs : List Nat) (h : Represents g S) :
    ∃ g', Computes (fun ops => observeAllWith ops g seqs) g' ∧
      g'.size = g.size ∧ Represents g' (S ∪ observedBelow g.size seqs) := by
  induction seqs generalizing g S with
  | nil =>
    refine ⟨g, ⟨fun _ => rfl⟩, rfl, ?_⟩
    simpa [observedBelow] using h
  | cons seq seqs ih =>
    obtain ⟨r, hr, hspec⟩ := observeWith_spec h seq
    rw [observedBelow_cons]
    by_cases hseq : seq < g.size
    · rw [if_pos hseq] at hspec ⊢
      obtain ⟨g₁, rfl, hsize, hrep⟩ := hspec
      obtain ⟨g', hrun, hsize', hrep'⟩ := ih hrep
      refine ⟨g', ⟨fun hops => ?_⟩, hsize'.trans hsize, ?_⟩
      · rw [observeAllWith, hr.eq hops, pure_bind]
        exact hrun.eq hops
      · rw [Finset.union_insert, ← Finset.insert_union, ← hsize]
        exact hrep'
    · rw [if_neg hseq] at hspec ⊢
      obtain ⟨g', hrun, hsize', hrep'⟩ := ih h
      refine ⟨g', ⟨fun hops => ?_⟩, hsize', hrep'⟩
      rw [observeAllWith, hr.eq hops, pure_bind, hspec]
      exact hrun.eq hops

/-- The answers of a gap set of size `n` after the calls `seqs`. -/
structure AnswersFor (g : GapSet) (n : Nat) (seqs : List Nat) : Prop where
  contains_iff : ∀ s, g.contains s = true ↔ s < n ∧ s ∈ seqs
  empty_iff : g.empty = true ↔ ∀ s < n, s ∈ seqs
  observedCount_eq : g.observedCount = (observedBelow n seqs).card
  intervals_nonempty : ∀ iv ∈ g.intervals, iv.start ≤ iv.stop
  intervals_separated : g.intervals.Pairwise fun a b => a.stop + 1 < b.start
  ranges_sorted : g.ranges.Pairwise fun p q => p.2 < q.1
  ranges_cover : ∀ s, (∃ p ∈ g.ranges, p.1 ≤ s ∧ s ≤ p.2) ↔ s < n ∧ s ∉ seqs
  ranges_maximal : ∀ p ∈ g.ranges, p.1 ≤ p.2 ∧ p.2 < n ∧ (p.1 = 0 ∨ p.1 - 1 ∈ seqs) ∧
    (p.2 + 1 = n ∨ p.2 + 1 ∈ seqs)

namespace Represents

section

variable (h : Represents g S)

include h

theorem contains_iff (s : Nat) : g.contains s = true ↔ s ∈ S := by
  simp only [GapSet.contains]
  split
  · have hns : s ∉ S := fun hmem => absurd (h.bounded s hmem) (by omega)
    simp [hns]
  · split
    · rename_i hall
      simp [h.complete.1 hall s (by omega)]
    · rw [← h.covers s, covers_split g.intervals s s, covers_beforeSeq_iff h.canonical,
        covers_fromSeq_iff h.canonical]
      split_ifs with hnext
      · simp [hnext]
      · simp [hnext]

theorem empty_iff : g.empty = true ↔ ∀ s < g.size, s ∈ S := by
  simp only [GapSet.empty]
  split_ifs with hzero
  · simp [hzero]
  · exact h.complete

theorem ranges_eq : g.ranges = if g.allObserved then [] else gaps g.size 0 g.intervals :=
  rangesWith_eq_pure wrapping_faithful h

/-- The ranges cover the unobserved numbers also when all are observed and the list is empty. -/
theorem ranges_cover (s : Nat) : (∃ p ∈ g.ranges, p.1 ≤ s ∧ s ≤ p.2) ↔ s < g.size ∧ s ∉ S := by
  rw [h.ranges_eq]
  by_cases hall : g.allObserved = true
  · rw [if_pos hall]
    simp only [not_mem_nil, false_and, exists_false, false_iff, not_and, not_not]
    exact h.complete.1 hall s
  · rw [if_neg hall, covers_gaps h.canonical h.within, h.covers]
    simp

theorem ranges_maximal {p : Nat × Nat} (hp : p ∈ g.ranges) :
    p.1 ≤ p.2 ∧ p.2 < g.size ∧ (p.1 = 0 ∨ p.1 - 1 ∈ S) ∧ (p.2 + 1 = g.size ∨ p.2 + 1 ∈ S) := by
  rw [h.ranges_eq] at hp
  split at hp
  · simp at hp
  · obtain ⟨⟨-, hle, hlt⟩, hleft, hright⟩ := (gaps_spec h.canonical h.within).2 p hp
    rw [h.covers] at hleft hright
    exact ⟨hle, hlt, hleft, hright⟩

theorem ranges_sorted : g.ranges.Pairwise fun p q => p.2 < q.1 := by
  rw [h.ranges_eq]
  split
  · exact .nil
  · exact (gaps_spec h.canonical h.within).1.imp fun hpq => by omega

end

end Represents

theorem represents_observed (hn : n < wordCount) (seqs : List Nat) :
    Computes (fun ops => observeAllWith ops (GapSet.new n) seqs) ((GapSet.new n).observeAll seqs) ∧
      ((GapSet.new n).observeAll seqs).size = n ∧
        Represents ((GapSet.new n).observeAll seqs) (observedBelow n seqs) := by
  obtain ⟨g, hrun, hsize, hrep⟩ := observeAllWith_spec seqs (represents_new hn)
  have hobserved : (GapSet.new n).observeAll seqs = g := hrun.eq wrapping_faithful
  rw [hobserved]
  refine ⟨hrun, hsize, ?_⟩
  rwa [Finset.empty_union] at hrep

theorem answersFor_observed (hn : n < wordCount) (seqs : List Nat) :
    AnswersFor ((GapSet.new n).observeAll seqs) n seqs := by
  obtain ⟨-, hsize, hrep⟩ := represents_observed hn seqs
  refine ⟨?_, ?_, hrep.count, hrep.canonical.nonempty, hrep.canonical.separated,
    hrep.ranges_sorted, ?_, ?_⟩
  · intro s
    rw [hrep.contains_iff, mem_observedBelow]
  · rw [hrep.empty_iff, hsize]
    exact forall₂_congr fun s hs => by simp [mem_observedBelow, hs]
  · intro s
    rw [hrep.ranges_cover, hsize, mem_observedBelow]
    tauto
  · intro p hp
    obtain ⟨hle, hlt, hleft, hright⟩ := hrep.ranges_maximal hp
    rw [hsize] at hlt hright
    rw [mem_observedBelow] at hleft hright
    exact ⟨hle, hlt, hleft.imp_right And.right, hright.imp_right And.right⟩

/-- **The gap set represents exactly the observed set.** For every size below `2 ^ 64` and every
sequence of `observe` calls, throwing ones included, the set answers for the observed numbers, and
no increment or decrement wraps: the checked computation succeeds with the same result. -/
theorem gapSet_answersFor_observed (n : Nat) (hn : n < 2 ^ 64) (seqs : List Nat) :
    AnswersFor ((GapSet.new n).observeAll seqs) n seqs ∧
      observeAllWith checked (GapSet.new n) seqs = some ((GapSet.new n).observeAll seqs) ∧
      rangesWith checked ((GapSet.new n).observeAll seqs) =
        some ((GapSet.new n).observeAll seqs).ranges := by
  obtain ⟨hrun, -, hrep⟩ := represents_observed hn seqs
  refine ⟨answersFor_observed hn seqs, hrun.eq checked_faithful, ?_⟩
  rw [rangesWith_eq_pure checked_faithful hrep, hrep.ranges_eq]
  rfl

/-- Numbers `1`, `3`, `2` and the out-of-range `9` observed in a set of size `5`. -/
theorem gapSet_answersFor_observed_five :
    AnswersFor ((GapSet.new 5).observeAll [1, 3, 9, 2]) 5 [1, 3, 9, 2] ∧
      ((GapSet.new 5).observeAll [1, 3, 9, 2]).ranges = [(0, 0), (4, 4)] :=
  ⟨(gapSet_answersFor_observed 5 (by decide) [1, 3, 9, 2]).1, by decide⟩

end WazAISentinel.InventorySync
