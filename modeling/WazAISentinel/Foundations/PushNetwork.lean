import Mathlib.Logic.Function.Basic

/-!
# Networks that push items

Observables with stages, and subjects that are shared by their subscribers. A subject gives an item
to its subscribers, in the order in which they have subscribed, and each passes it through its
stages. The item is one object that the stages change, so there is one state for all. A shared
observable subscribes to its source with its first subscriber.

`Delivers` and `Emits` say what pushing an item does, whatever the fuel.
-/

namespace WazAISentinel.Foundations

universe u v

variable {κ : Type u} {S : Type v}

/-- Observables, with stages `κ`. Subjects have numbers. -/
inductive Observable (κ : Type u) where
  | subject (id : Nat)
  | shared (id : Nat) (source : Observable κ)
  | stage (f : κ) (source : Observable κ)

/-- The stages through which an item goes, and the subject to which it is given then. -/
structure Subscriber (κ : Type u) where
  stages : List κ
  target : Option Nat

/-- A subscriber that does nothing. -/
def Subscriber.ignore : Subscriber κ := ⟨[], none⟩

/-- A subscriber that gives the items to a subject. -/
def Subscriber.into (id : Nat) : Subscriber κ := ⟨[], some id⟩

/-- The subscriber behind a further stage. -/
def Subscriber.behind (f : κ) (k : Subscriber κ) : Subscriber κ := ⟨f :: k.stages, k.target⟩

/-- The subscribers of each subject. -/
abbrev Network (κ : Type u) := Nat → List (Subscriber κ)

/-- A further subscriber of a subject. -/
def Network.add (net : Network κ) (id : Nat) (k : Subscriber κ) : Network κ :=
  Function.update net id (net id ++ [k])

/-- A subscription. A shared observable subscribes to its source once. -/
def Network.subscribe : Observable κ → Subscriber κ → Network κ → Network κ
  | .subject id, k, net => net.add id k
  | .shared id source, k, net =>
    if net id = [] then subscribe source (.into id) (net.add id k) else net.add id k
  | .stage f source, k, net => subscribe source (k.behind f) net

/-! ## Pushing an item -/

/-- The stages in turn, until one does not pass the item on. -/
def through (step : κ → S → S × Bool) : List κ → S → S × Bool
  | [], s => (s, true)
  | f :: fs, s => if (step f s).2 then through step fs (step f s).1 else ((step f s).1, false)

/-- A value goes through the stages to the target. -/
def deliver (step : κ → S → S × Bool) (push : Nat → S → Option S) (s : S) (k : Subscriber κ) :
    Option S :=
  if (through step k.stages s).2 then
    match k.target with
    | none => some (through step k.stages s).1
    | some id => push id (through step k.stages s).1
  else some (through step k.stages s).1

/-- A subject gives an item to its subscribers. -/
def emit (step : κ → S → S × Bool) (net : Network κ) : Nat → Nat → S → Option S
  | 0, _, _ => none
  | fuel + 1, id, s => (net id).foldlM (deliver step (emit step net fuel)) s

variable {f : κ} {s s' : S} {id m n j : Nat} {o : Observable κ} {net' : Network κ}

section Rules

variable {step : κ → S → S × Bool} {net : Network κ}

/-- Pushing an item to a subscriber ends, in the state `s'`. -/
def Delivers (step : κ → S → S × Bool) (net : Network κ) (k : Subscriber κ) (s s' : S) : Prop :=
  ∃ n, ∀ fuel, n ≤ fuel → deliver step (emit step net fuel) s k = some s'

/-- Pushing it to some subscribers in turn ends in the state `s'`. -/
def DeliversAll (step : κ → S → S × Bool) (net : Network κ) (ks : List (Subscriber κ)) (s s' : S) :
    Prop :=
  ∃ n, ∀ fuel, n ≤ fuel → ks.foldlM (deliver step (emit step net fuel)) s = some s'

theorem deliversAll_nil : DeliversAll step net [] s s := ⟨0, fun _ _ => rfl⟩

theorem DeliversAll.cons {k : Subscriber κ} {ks : List (Subscriber κ)} {s s₁ s₂ : S}
    (hhead : Delivers step net k s s₁) (hrest : DeliversAll step net ks s₁ s₂) :
    DeliversAll step net (k :: ks) s s₂ := by
  obtain ⟨n, hn⟩ := hhead
  obtain ⟨m, hm⟩ := hrest
  refine ⟨max n m, fun fuel hfuel => ?_⟩
  rw [List.foldlM_cons, hn fuel (Nat.le_trans (Nat.le_max_left n m) hfuel)]
  exact hm fuel (Nat.le_trans (Nat.le_max_right n m) hfuel)

theorem delivers_ignore : Delivers step net .ignore s s := ⟨0, fun _ _ => rfl⟩

theorem Delivers.pass {k : Subscriber κ} (hf : (step f s).2 = true)
    (h : Delivers step net k (step f s).1 s') : Delivers step net (k.behind f) s s' := by
  obtain ⟨n, hn⟩ := h
  refine ⟨n, fun fuel hfuel => ?_⟩
  rw [← hn fuel hfuel, deliver, deliver, Subscriber.behind, through, if_pos hf]

theorem delivers_stop (hf : (step f s).2 = false) (k : Subscriber κ) :
    Delivers step net (k.behind f) s (step f s).1 := by
  refine ⟨0, fun fuel _ => ?_⟩
  rw [deliver, Subscriber.behind, through, hf, if_neg Bool.false_ne_true, if_neg Bool.false_ne_true]

/-- A subject pushes the item to its subscribers. -/
theorem DeliversAll.into (h : DeliversAll step net (net id) s s') :
    Delivers step net (.into id) s s' := by
  obtain ⟨n, hn⟩ := h
  refine ⟨n + 1, fun fuel hfuel => ?_⟩
  obtain ⟨m, rfl⟩ : ∃ m, fuel = m + 1 := ⟨fuel - 1, by omega⟩
  exact hn m (by omega)

end Rules

/-! ## Subscriptions below a bound -/

/-- The subjects of an observable have numbers below `n`. -/
def Observable.Below (n : Nat) : Observable κ → Prop
  | .subject id => id < n
  | .shared id source => id < n ∧ source.Below n
  | .stage _ source => source.Below n

theorem Observable.Below.mono (hnm : n ≤ m) (h : o.Below n) : o.Below m := by
  induction o with
  | subject id => exact Nat.lt_of_lt_of_le h hnm
  | shared id source ih => exact ⟨Nat.lt_of_lt_of_le h.1 hnm, ih h.2⟩
  | stage f source ih => exact ih h

namespace Network

theorem add_self (net : Network κ) (id : Nat) (k : Subscriber κ) :
    net.add id k id = net id ++ [k] := Function.update_self ..

variable {net : Network κ}

theorem add_of_ne (h : j ≠ id) (k : Subscriber κ) : net.add id k j = net j :=
  Function.update_of_ne h ..

/-- The two networks have the same subscribers below `n`. -/
def AgreeBelow (n : Nat) (net net' : Network κ) : Prop := ∀ j < n, net j = net' j

theorem AgreeBelow.trans {net₁ net₂ net₃ : Network κ} (h : AgreeBelow n net₁ net₂)
    (h' : AgreeBelow n net₂ net₃) : AgreeBelow n net₁ net₃ := fun j hj => (h j hj).trans (h' j hj)

theorem AgreeBelow.mono (hnm : n ≤ m) (h : AgreeBelow m net net') : AgreeBelow n net net' :=
  fun j hj => h j (Nat.lt_of_lt_of_le hj hnm)

theorem AgreeBelow.add (h : AgreeBelow n net net') (hid : id < n) (k : Subscriber κ) :
    AgreeBelow n (net.add id k) (net'.add id k) := by
  intro j hj
  by_cases hj' : j = id
  · subst hj'
    rw [add_self, add_self, h j hj]
  · rw [add_of_ne hj', add_of_ne hj', h j hj]

/-- A subscription depends on the subjects of the observable only, -/
theorem AgreeBelow.subscribe (h : AgreeBelow n net net') (ho : o.Below n) (k : Subscriber κ) :
    AgreeBelow n (net.subscribe o k) (net'.subscribe o k) := by
  induction o generalizing net net' k with
  | subject id => exact h.add ho k
  | shared id source ih =>
    rw [Network.subscribe, Network.subscribe, h id ho.1]
    split
    · exact ih (h.add ho.1 k) ho.2 _
    · exact h.add ho.1 k
  | stage f source ih => exact ih h ho _

/-- and changes only these. -/
theorem subscribe_of_le (ho : o.Below n) (k : Subscriber κ) (net : Network κ) (hj : n ≤ j) :
    net.subscribe o k j = net j := by
  induction o generalizing net k with
  | subject id => exact add_of_ne (Nat.ne_of_gt (Nat.lt_of_lt_of_le ho hj)) k
  | shared id source ih =>
    have hne : j ≠ id := Nat.ne_of_gt (Nat.lt_of_lt_of_le ho.1 hj)
    rw [Network.subscribe]
    split
    · rw [ih ho.2, add_of_ne hne]
    · exact add_of_ne hne k
  | stage f source ih => exact ih ho _ net

end Network

end WazAISentinel.Foundations
