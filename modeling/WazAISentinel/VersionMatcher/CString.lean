import Mathlib.Data.Char
import Mathlib.Order.Compare

/-!
# Strings as the version objects read them

A pointer is the text from its position on: reading behind the last character gives NUL, and `++`
drops the first character. A text stands for its bytes, one character a byte; the classes of
`<cctype>` are those of the C locale, which for bytes are the classes of `Char`. A result of a
comparison is compared with zero only, so a three-way comparison is turned into a number by its sign
(`sign`).
-/

namespace WazAISentinel.VersionMatcher

/-- The terminating character. -/
def nul : Char := '\x00'

/-- `*p`. -/
def deref : List Char → Char
  | [] => nul
  | c :: _ => c

@[simp] theorem deref_nil : deref [] = nul := rfl

@[simp] theorem deref_cons (c : Char) (s : List Char) : deref (c :: s) = c := rfl

theorem deref_eq_nul {s : List Char} (hs : nul ∉ s) : deref s = nul ↔ s = [] := by
  cases s with
  | nil => simp
  | cons c s => simp [(List.ne_of_not_mem_cons hs).symm]

/-- The letters are two ranges. -/
theorem toNat_of_isAlpha {c : Char} (hc : c.isAlpha = true) :
    '9'.toNat < c.toNat ∧ c.toNat < 128 := by
  have hranges : (decide (c.val ≥ 'A'.val ∧ c.val ≤ 'Z'.val) || decide (c.val ≥ 'a'.val) &&
    decide (c.val ≤ 'z'.val)) = true := hc
  simp only [Bool.or_eq_true, Bool.and_eq_true, decide_eq_true_eq, ge_iff_le,
    UInt32.le_iff_toNat_le, Char.toNat_val] at hranges
  have hupper : '9'.toNat < 'A'.toNat ∧ 'Z'.toNat < 'z'.toNat := by decide
  have hlower : 'A'.toNat < 'a'.toNat ∧ 'z'.toNat < 128 := by decide
  omega

/-- A string without NUL characters. -/
structure CString where
  text : List Char
  noNul : nul ∉ text

/-- A number with the sign of a comparison. -/
def sign : Ordering → Int
  | .lt => -1
  | .eq => 0
  | .gt => 1

variable {o : Ordering} {s t : List Char} {α : Type}

@[simp] theorem sign_eq_zero : sign o = 0 ↔ o = .eq := by
  cases o <;> simp [sign]

theorem sign_swap : sign o.swap = -sign o := by
  cases o <;> rfl

theorem sign_nonpos : sign o ≤ 0 ↔ o.isLE = true := by
  cases o <;> simp [sign]

theorem sign_neg : sign o < 0 ↔ o = .lt := by
  cases o <;> simp [sign]

/-- A part that differs decides. -/
theorem then_of_ne_eq {p : Ordering} (h : o ≠ .eq) : o.then p = o := by
  cases o with
  | eq => exact absurd rfl h
  | lt => rfl
  | gt => rfl

/-- `strcmp`. -/
def strcmp : List Char → List Char → Int
  | [], [] => 0
  | [], _ :: _ => -1
  | _ :: _, [] => 1
  | a :: as, b :: bs => if a = b then strcmp as bs else if a < b then -1 else 1

theorem strcmp_eq : strcmp s t = sign (List.compareLex compare s t) := by
  induction s generalizing t with
  | nil => cases t <;> rfl
  | cons a s ih =>
    cases t with
    | nil => rfl
    | cons b t =>
      rw [strcmp, List.compareLex_cons_cons]
      rcases lt_trichotomy a b with hlt | rfl | hgt
      · rw [if_neg hlt.ne, if_pos hlt, compare_lt_iff_lt.2 hlt]
        rfl
      · rw [if_pos rfl, ih, compare_eq_iff_eq.2 rfl]
        rfl
      · rw [if_neg hgt.ne', if_neg hgt.not_gt, compare_gt_iff_gt.2 hgt]
        rfl

theorem strcmp_eq_zero : strcmp s t = 0 ↔ s = t := by
  rw [strcmp_eq, sign_eq_zero]
  exact Std.LawfulEqCmp.compare_eq_iff_eq

theorem strcmp_swap (s t : List Char) : strcmp t s = -strcmp s t := by
  rw [strcmp_eq, strcmp_eq, ← sign_swap, ← Std.OrientedCmp.eq_swap]

theorem strcmp_lt_trans {u : List Char} (hst : strcmp s t < 0) (htu : strcmp t u < 0) :
    strcmp s u < 0 := by
  rw [strcmp_eq, sign_neg] at hst htu ⊢
  exact Std.TransCmp.lt_trans hst htu

/-- A comparison of keys is transitive if the comparison of the keys is. -/
theorem transCmp_on {β : Type} (cmp : β → β → Ordering) [Std.TransCmp cmp] (key : α → β) :
    Std.TransCmp fun a b => cmp (key a) (key b) where
  eq_swap := Std.OrientedCmp.eq_swap
  isLE_trans := Std.TransCmp.isLE_trans

/-- A comparison of keys that leaves equal keys to another comparison. -/
theorem transCmp_then {β : Type} (cmp : β → β → Ordering) [Std.TransCmp cmp] (key : α → β)
    (next : α → α → Ordering) [Std.TransCmp next] :
    Std.TransCmp fun a b => (cmp (key a) (key b)).then (next a b) :=
  haveI := transCmp_on cmp key
  inferInstanceAs (Std.TransCmp (compareLex (fun a b => cmp (key a) (key b)) next))

/-- A total preorder: the comparison returns, is reflexive, changes its sign with the arguments
exchanged and is transitive. -/
structure RanksTotally {α : Type} (cmp : α → α → Option Int) : Prop where
  returns : ∀ a b, ∃ n, cmp a b = some n
  refl : ∀ a, cmp a a = some 0
  swap : ∀ a b, cmp b a = (cmp a b).map Neg.neg
  trans : ∀ a b c m n, cmp a b = some m → m ≤ 0 → cmp b c = some n → n ≤ 0 →
    ∃ k ≤ 0, cmp a c = some k

/-- A comparison with the sign of a transitive order ranks totally. -/
theorem ranksTotally_of_sign {cmp : α → α → Option Int} (order : α → α → Ordering)
    [Std.TransCmp order] (h : ∀ a b, cmp a b = some (sign (order a b))) : RanksTotally cmp where
  returns a b := ⟨_, h a b⟩
  refl a := by
    have hself : order a a = .eq := Std.ReflCmp.compare_self
    rw [h, hself, sign]
  swap a b := by
    have hswap : order b a = (order a b).swap := Std.OrientedCmp.eq_swap
    rw [h, h, hswap, sign_swap]
    rfl
  trans a b c m n hab hm hbc hn := by
    rw [h, Option.some.injEq] at hab hbc
    subst hab hbc
    rw [sign_nonpos] at hm hn
    exact ⟨_, sign_nonpos.2 (Std.TransCmp.isLE_trans hm hn), h a c⟩

end WazAISentinel.VersionMatcher
