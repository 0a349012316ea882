import Mathlib.Logic.Basic

/-!
# Guarded transition systems and their runs

`step s e` is `some t` when the event `e` is enabled in `s` and leads to `t`, and `none` when it is
disabled. A run is a list of events, all enabled in turn; a concrete run is evaluated by the
function the invariants are proved about. `StepsMeet` restricts attention to the runs whose steps
all meet a condition on the event and the state before it.
-/

namespace WazAISentinel.Foundations

universe u v

/-- Going on from a result. -/
theorem some_bind {α β : Type u} (a : α) (f : α → Option β) : (some a >>= f) = f a := rfl

/-- An initial state and a guarded step function. -/
structure TransitionSystem (S : Type u) (E : Type v) where
  init : S
  step : S → E → Option S

namespace TransitionSystem

variable {S : Type u} {E : Type v} (M : TransitionSystem S E)

/-- The state after the events, if each of them is enabled in turn. -/
def runFrom : S → List E → Option S
  | s, [] => some s
  | s, e :: es => (M.step s e).bind fun t => runFrom t es

/-- The state after the events from the initial state. -/
def run (es : List E) : Option S := M.runFrom M.init es

/-- Every step of the run meets `ok` in the state before the step. -/
def StepsMeet (ok : S → E → Prop) : S → List E → Prop
  | _, [] => True
  | s, e :: es => ok s e ∧ ∀ t, M.step s e = some t → StepsMeet ok t es

/-- Along a concrete run a decidable condition is decided step by step. -/
instance decidableStepsMeet {ok : S → E → Prop} [∀ s e, Decidable (ok s e)] :
    ∀ s es, Decidable (M.StepsMeet ok s es)
  | _, [] => isTrue trivial
  | s, e :: es =>
    match h : M.step s e with
    | none => decidable_of_iff (ok s e)
        ⟨fun hok => ⟨hok, fun t ht => by rw [h] at ht; cases ht⟩, And.left⟩
    | some t =>
      haveI : Decidable (M.StepsMeet ok t es) := decidableStepsMeet t es
      decidable_of_iff (ok s e ∧ M.StepsMeet ok t es)
        ⟨fun hok => ⟨hok.1, fun u hu => by rw [h] at hu; cases hu; exact hok.2⟩,
          fun hok => ⟨hok.1, hok.2 t h⟩⟩

@[simp] theorem runFrom_nil (s : S) : M.runFrom s [] = some s := rfl

variable {es : List E} {s u : S} {P : S → Prop} {ok : S → E → Prop}

theorem runFrom_cons_eq_some {e : E} :
    M.runFrom s (e :: es) = some u ↔ ∃ t, M.step s e = some t ∧ M.runFrom t es = some u := by
  simp [runFrom, Option.bind_eq_some_iff]

theorem runFrom_append_eq_some {es₁ es₂ : List E} :
    ∀ {s u : S}, M.runFrom s (es₁ ++ es₂) = some u ↔
      ∃ t, M.runFrom s es₁ = some t ∧ M.runFrom t es₂ = some u := by
  induction es₁ with
  | nil => intro s u; simp
  | cons e es ih =>
    intro s u
    simp only [List.cons_append, runFrom_cons_eq_some, ih]
    constructor
    · rintro ⟨t, ht, t', ht', hu⟩
      exact ⟨t', ⟨t, ht, ht'⟩, hu⟩
    · rintro ⟨t', ⟨t, ht, ht'⟩, hu⟩
      exact ⟨t, ht, t', ht', hu⟩

/-- The invariant rule for the runs whose steps all meet `ok`. -/
theorem runFrom_induction_of_stepsMeet (hstep : ∀ s e t, P s → ok s e → M.step s e = some t → P t) :
    ∀ {es : List E} {s u : S}, P s → M.StepsMeet ok s es → M.runFrom s es = some u → P u := by
  intro es
  induction es with
  | nil =>
    intro s u hs _ hrun
    simp only [runFrom_nil, Option.some.injEq] at hrun
    exact hrun ▸ hs
  | cons e es ih =>
    intro s u hs hok hrun
    obtain ⟨t, ht, hu⟩ := M.runFrom_cons_eq_some.1 hrun
    exact ih (hstep s e t hs hok.1 ht) (hok.2 t ht) hu

/-- Under an invariant of the runs whose steps meet `ok`, a weaker condition is met as well. -/
theorem StepsMeet.imp {ok' : S → E → Prop}
    (hstep : ∀ s e t, P s → ok s e → M.step s e = some t → P t)
    (himp : ∀ s e, P s → ok s e → ok' s e) :
    ∀ {es : List E} {s : S}, P s → M.StepsMeet ok s es → M.StepsMeet ok' s es := by
  intro es
  induction es with
  | nil => exact fun _ _ => trivial
  | cons e es ih =>
    intro s hs hok
    exact ⟨himp s e hs hok.1, fun t ht => ih (hstep s e t hs hok.1 ht) (hok.2 t ht)⟩

theorem stepsMeet_of_forall_mem :
    ∀ (es : List E) (s : S), (∀ e ∈ es, ∀ s, ok s e) → M.StepsMeet ok s es
  | [], _, _ => trivial
  | e :: es, s, h =>
    ⟨h e (by simp) s, fun t _ => stepsMeet_of_forall_mem es t fun e' he' => h e' (by simp [he'])⟩

/-- The invariant rule: what holds at the start and is kept by every enabled step holds at the end
of every run. -/
theorem runFrom_induction (hstep : ∀ s e t, P s → M.step s e = some t → P t) (hs : P s)
    (hrun : M.runFrom s es = some u) : P u := by
  have hmeet : M.StepsMeet (fun _ _ => True) s es :=
    M.stepsMeet_of_forall_mem es s fun _ _ _ => trivial
  exact M.runFrom_induction_of_stepsMeet (fun s e t hs _ ht => hstep s e t hs ht) hs hmeet hrun

/-- If every event is enabled as long as the invariant holds, every list of events is a run. -/
theorem exists_runFrom (hstep : ∀ s e, P s → ∃ t, M.step s e = some t ∧ P t) (hs : P s)
    (es : List E) : ∃ u, M.runFrom s es = some u ∧ P u := by
  induction es generalizing s with
  | nil => exact ⟨s, rfl, hs⟩
  | cons e es ih =>
    obtain ⟨t, ht, htP⟩ := hstep s e hs
    obtain ⟨u, hu, huP⟩ := ih htP
    exact ⟨u, M.runFrom_cons_eq_some.2 ⟨t, ht, hu⟩, huP⟩

/-- If every step is a step of `N` on the projected states or leaves the projected state as it is, a
run projects to a run of `N`. So two runs with the same projected events end in the same projected
state. -/
theorem runFrom_projection {T : Type u} {F : Type v} (N : TransitionSystem T F) (view : S → T)
    (p : E → Option F) {ok : E → Prop} (hinv : ∀ s e t, P s → ok e → M.step s e = some t → P t)
    (hsome : ∀ s e t e', P s → ok e → M.step s e = some t → p e = some e' →
    N.step (view s) e' = some (view t))
    (hnone : ∀ s e t, P s → ok e → M.step s e = some t → p e = none → view t = view s) :
    ∀ {es : List E} {s u : S}, P s → (∀ e ∈ es, ok e) → M.runFrom s es = some u →
      N.runFrom (view s) (es.filterMap p) = some (view u) := by
  intro es
  induction es with
  | nil =>
    intro s u _ _ hrun
    simp only [runFrom_nil, Option.some.injEq] at hrun
    simp [hrun]
  | cons e es ih =>
    intro s u hs hok hrun
    obtain ⟨t, ht, hu⟩ := M.runFrom_cons_eq_some.1 hrun
    have he : ok e := hok e (by simp)
    have hrest := ih (hinv s e t hs he ht) (fun a ha => hok a (by simp [ha])) hu
    cases hp : p e with
    | none =>
      rw [List.filterMap_cons_none hp, ← hnone s e t hs he ht hp]
      exact hrest
    | some e' =>
      rw [List.filterMap_cons_some hp]
      exact N.runFrom_cons_eq_some.2 ⟨view t, hsome s e t e' hs he ht hp, hrest⟩

end TransitionSystem

end WazAISentinel.Foundations
