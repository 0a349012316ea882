import Mathlib.Data.List.Basic
import Mathlib.Data.List.Induction
import Mathlib.Tactic.Common

/-!
# Loops

A round of a loop either returns or goes on with another state, and the loop returns a result when
every fuel above some amount is enough to get it (`Returns`). A loop over a list whose body can
throw is a `foldlM` in `Except`; one that makes a step on one replica after the other until it fails
leaves what was done on the replicas before.
-/

namespace WazAISentinel.Foundations

universe u v

variable {σ : Type u} {ρ : Type v}

/-- At most `fuel` rounds of a loop, until one returns. -/
def iterate (round : σ → ρ ⊕ σ) : Nat → σ → Option ρ
  | 0, _ => none
  | fuel + 1, s =>
    match round s with
    | .inl r => some r
    | .inr t => iterate round fuel t

/-- The loop returns `r`, with any fuel above some amount. -/
def Returns (round : σ → ρ ⊕ σ) (s : σ) (r : ρ) : Prop :=
  ∃ n, ∀ fuel, n ≤ fuel → iterate round fuel s = some r

variable {r : ρ} {round : σ → ρ ⊕ σ} {s t : σ}

theorem returns_of_inl (h : round s = .inl r) : Returns round s r := by
  refine ⟨1, fun fuel hfuel => ?_⟩
  obtain ⟨k, rfl⟩ : ∃ k, fuel = k + 1 := ⟨fuel - 1, by omega⟩
  rw [iterate, h]

theorem Returns.of_inr (ht : Returns round t r) (h : round s = .inr t) : Returns round s r := by
  obtain ⟨n, hn⟩ := ht
  refine ⟨n + 1, fun fuel hfuel => ?_⟩
  obtain ⟨k, rfl⟩ : ∃ k, fuel = k + 1 := ⟨fuel - 1, by omega⟩
  rw [iterate, h]
  exact hn k (by omega)

/-- States with the same round return the same. -/
theorem Returns.congr (ht : Returns round t r) (h : round s = round t) : Returns round s r := by
  obtain ⟨n, hn⟩ := ht
  refine ⟨n + 1, fun fuel hfuel => ?_⟩
  obtain ⟨k, rfl⟩ : ∃ k, fuel = k + 1 := ⟨fuel - 1, by omega⟩
  rw [iterate, h, ← iterate]
  exact hn (k + 1) (by omega)

/-! ## Loops that can throw -/

open List

universe w

variable {ε : Type u} {α : Type v} {β : Type w} {f : β → α → Except ε β}

theorem bind_eq_ok {γ : Type w} {r : Except ε β} {g : β → Except ε γ} {c : γ} :
    r.bind g = .ok c ↔ ∃ b, r = .ok b ∧ g b = .ok c := by
  cases r with
  | error e | ok b => simp [Except.bind]

theorem map_eq_ok {γ : Type w} {r : Except ε β} {g : β → γ} {c : γ} :
    r.map g = .ok c ↔ ∃ b, r = .ok b ∧ g b = c := by
  cases r with
  | error e | ok b => simp [Except.map]

variable {b c : β} {l : List α}

theorem foldlM_cons_eq_ok {a : α} :
    (a :: l).foldlM f b = .ok c ↔ ∃ b', f b a = .ok b' ∧ l.foldlM f b' = .ok c := by
  rw [foldlM_cons]
  exact bind_eq_ok

theorem foldlM_append_eq_ok {l' : List α} :
    (l ++ l').foldlM f b = .ok c ↔ ∃ b', l.foldlM f b = .ok b' ∧ l'.foldlM f b' = .ok c := by
  rw [foldlM_append]
  exact bind_eq_ok

/-- A nested loop goes through all elements one after the other. -/
theorem foldlM_flatMap {γ : Type v} (g : γ → List α) (l : List γ) (b : β) :
    l.foldlM (fun b e => (g e).foldlM f b) b = (l.flatMap g).foldlM f b := by
  induction l generalizing b with
  | nil => rfl
  | cons e l ih =>
    rw [foldlM_cons, flatMap_cons, foldlM_append]
    exact bind_congr fun b' => ih b'

theorem foldlM_invariant {P : β → Prop} (h : l.foldlM f b = .ok c) (hb : P b)
    (hstep : ∀ a ∈ l, ∀ b b', P b → f b a = .ok b' → P b') : P c := by
  induction l generalizing b with
  | nil =>
    obtain rfl := Except.ok.inj h
    exact hb
  | cons a l ih =>
    obtain ⟨b', hfirst, hrest⟩ := foldlM_cons_eq_ok.1 h
    exact ih hrest (hstep a mem_cons_self b b' hb hfirst)
      fun a' ha' => hstep a' (mem_cons_of_mem a ha')

/-- A loop returns if its body does from every state that satisfies the invariant, which speaks of
what has been done. -/
theorem foldlM_returns (P : List α → β → Prop) (hb : P [] b) (hstep : ∀ front a back b,
    l = front ++ a :: back → P front b → ∃ b', f b a = .ok b' ∧ P (front ++ [a]) b') :
    ∃ c, l.foldlM f b = .ok c ∧ P l c := by
  -- from the end of the list: the last round comes after all others
  induction l using reverseRecOn with
  | nil => exact ⟨b, rfl, hb⟩
  | append_singleton l a ih =>
    obtain ⟨c, hc, hP⟩ :=
      ih fun front a' back b heq => hstep front a' (back ++ [a]) b (by rw [heq]; simp)
    obtain ⟨c', hlast, hP'⟩ := hstep l a [] c rfl hP
    exact ⟨c', foldlM_append_eq_ok.2 ⟨c, hc, foldlM_cons_eq_ok.2 ⟨c', hlast, rfl⟩⟩, hP'⟩

/-! ## Replicas -/

variable {α : Type u} {ε : Type v}

/-- The step may depend on the number of the replica, which is counted from `i`. -/
def eachReplica (step : Nat → α → Except ε α) : Nat → List α → List α × Option ε
  | _, [] => ([], none)
  | i, a :: l =>
    match step i a with
    | .error e => (a :: l, some e)
    | .ok a' => (a' :: (eachReplica step (i + 1) l).1, (eachReplica step (i + 1) l).2)

variable {step : Nat → α → Except ε α} {i : Nat} {a : α} {l : List α}

theorem eachReplica_of_error {e : ε} (h : step i a = .error e) :
    eachReplica step i (a :: l) = (a :: l, some e) := by
  rw [eachReplica, h]

theorem eachReplica_of_ok {a' : α} (h : step i a = .ok a') :
    eachReplica step i (a :: l) =
      (a' :: (eachReplica step (i + 1) l).1, (eachReplica step (i + 1) l).2) := by
  rw [eachReplica, h]

/-- A step that fails on no replica. -/
theorem eachReplica_all {P : α → Prop}
    (h : ∀ j a, l[j]? = some a → ∃ a', step (i + j) a = .ok a' ∧ P a') :
    (eachReplica step i l).2 = none ∧ ∀ a' ∈ (eachReplica step i l).1, P a' := by
  induction l generalizing i with
  | nil => exact ⟨rfl, fun a' ha' => absurd ha' List.not_mem_nil⟩
  | cons a l ih =>
    obtain ⟨a', ha', hP⟩ := h 0 a rfl
    obtain ⟨hnone, hall⟩ := ih (i := i + 1) fun j b hb => by
      rw [Nat.add_right_comm]
      exact h (j + 1) b hb
    rw [Nat.add_zero] at ha'
    rw [eachReplica_of_ok ha']
    exact ⟨hnone, List.forall_mem_cons.2 ⟨hP, hall⟩⟩

/-- A step that fails on some replica. -/
theorem eachReplica_some {j : Nat} {e : ε} (hj : l[j]? = some a) (he : step (i + j) a = .error e) :
    ∃ e, (eachReplica step i l).2 = some e := by
  induction l generalizing i j with
  | nil => cases hj
  | cons b l ih =>
    cases hb : step i b with
    | error e' => exact ⟨e', by rw [eachReplica_of_error hb]⟩
    | ok b' =>
      rw [eachReplica_of_ok hb]
      cases j with
      | zero =>
        obtain rfl := Option.some_inj.1 hj
        rw [Nat.add_zero, hb] at he
        cases he
      | succ j =>
        refine ih (i := i + 1) hj ?_
        rw [Nat.add_right_comm]
        exact he

end WazAISentinel.Foundations
