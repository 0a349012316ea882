import Mathlib.Data.List.TakeWhile
import WazAISentinel.Foundations.RowTable

/-!
# Ordered key-value stores with sequence keys

Keys are sequences over a linear order, compared lexicographically, and a store keeps its entries in
increasing order of the keys. Those that start with a prefix are contiguous, so that `scan`, which
walks from the lower bound of the prefix, finds exactly them, and so does a range that ends with the
prefix followed by a symbol above all symbols in use.
-/

namespace WazAISentinel.Foundations

open List

universe u v

section Order

variable {A : Type u} [LinearOrder A]

/-- Lexicographic order; a proper prefix comes first. -/
def lexLt : List A → List A → Bool
  | _, [] => false
  | [], _ :: _ => true
  | a :: as, b :: bs => if a < b then true else if b < a then false else lexLt as bs

@[simp] theorem lexLt_nil (xs : List A) : lexLt xs [] = false := by cases xs <;> rfl

@[simp] theorem nil_lexLt_cons (b : A) (bs : List A) : lexLt [] (b :: bs) = true := rfl

theorem lexLt_cons_cons (a b : A) (as bs : List A) :
    lexLt (a :: as) (b :: bs) = true ↔ a < b ∨ (a = b ∧ lexLt as bs = true) := by
  rcases lt_trichotomy a b with h | h | h
  · simp [lexLt, h]
  · subst h
    simp [lexLt]
  · simp [lexLt, h, h.not_gt, h.ne']

/-- It is the order of Mathlib on lists. -/
theorem lexLt_iff {xs ys : List A} : lexLt xs ys = true ↔ xs < ys := by
  induction xs generalizing ys with
  | nil => cases ys <;> simp
  | cons x xs ih =>
    cases ys with
    | nil => simp
    | cons y ys => rw [lexLt_cons_cons, ih, cons_lt_cons_iff]

theorem lexLt_trans {xs ys zs : List A} (hxy : lexLt xs ys = true) (hyz : lexLt ys zs = true) :
    lexLt xs zs = true :=
  lexLt_iff.2 ((lexLt_iff.1 hxy).trans (lexLt_iff.1 hyz))

theorem ne_of_lexLt {xs ys : List A} (h : lexLt xs ys = true) : xs ≠ ys := (lexLt_iff.1 h).ne

theorem eq_of_not_lexLt {xs ys : List A} (h : ¬ lexLt xs ys = true) (h' : ¬ lexLt ys xs = true) :
    xs = ys := by
  rw [lexLt_iff, not_lt] at h h'
  exact le_antisymm h' h

variable {k p : List A}

/-- Between a prefix and a key that starts with it there are only keys that start with it. -/
theorem isPrefixOf_of_between {k' : List A} (hp : lexLt k p = false) (hk : lexLt k k' = true)
    (hk' : p.isPrefixOf k' = true) : p.isPrefixOf k = true := by
  induction p generalizing k k' with
  | nil => rfl
  | cons a p ih =>
    cases k' with
    | nil => simp at hk'
    | cons b k' =>
      simp only [isPrefixOf_cons_cons, Bool.and_eq_true, beq_iff_eq] at hk'
      obtain ⟨rfl, hk'⟩ := hk'
      cases k with
      | nil => simp at hp
      | cons c k =>
        have hle : ¬ (c < a ∨ c = a ∧ lexLt k p = true) := by
          rw [← lexLt_cons_cons, hp]
          simp
        rw [lexLt_cons_cons] at hk
        rcases hk with h | ⟨rfl, h⟩
        · exact absurd (Or.inl h) hle
        · have hkp : lexLt k p = false := by
            cases hkp : lexLt k p with
            | false => rfl
            | true => exact absurd (Or.inr ⟨rfl, hkp⟩) hle
          simp [ih hkp h hk']

/-- `k` lies in the half-open range from `lo` to `hi`. -/
def inRange (lo hi k : List A) : Bool := !lexLt k lo && lexLt k hi

/-- If `top` is above every symbol of `k`, then `k` lies between `p` and `p` followed by `top`
exactly when it starts with `p`. -/
theorem inRange_iff_isPrefixOf {top : A} (htop : ∀ a ∈ k, a < top) :
    inRange p (p ++ [top]) k = p.isPrefixOf k := by
  induction p generalizing k with
  | nil =>
    cases k with
    | nil => rfl
    | cons c k => simp [inRange, lexLt, htop c (by simp)]
  | cons a p ih =>
    cases k with
    | nil => simp [inRange]
    | cons c k =>
      have ih' := ih (k := k) fun x hx => htop x (by simp [hx])
      simp only [inRange] at ih'
      rcases lt_trichotomy c a with h | rfl | h
      · simp [inRange, lexLt, isPrefixOf_cons_cons, h, h.ne']
      · simp [inRange, lexLt, ih']
      · simp [inRange, lexLt, isPrefixOf_cons_cons, h, h.not_gt, h.ne]

end Order

/-- Entries in increasing key order. -/
structure OrderedStore (A : Type u) (V : Type v) [LinearOrder A] where
  entries : List (List A × V)
  sorted : entries.Pairwise fun a b => lexLt a.1 b.1 = true

/-- Insert an entry at its place, replacing an entry with the same key. -/
def insertEntry {A : Type u} {V : Type v} [LinearOrder A] (k : List A) (x : V) :
    List (List A × V) → List (List A × V)
  | [] => [(k, x)]
  | e :: es =>
    if lexLt k e.1 then (k, x) :: e :: es
    else if lexLt e.1 k then e :: insertEntry k x es
    else (k, x) :: es

section InsertEntry

variable {A : Type u} {V : Type v} [LinearOrder A] {es : List (List A × V)} {k : List A} {x : V}

theorem mem_insertEntry (hs : es.Pairwise fun a b => lexLt a.1 b.1 = true) {e : List A × V} :
    e ∈ insertEntry k x es ↔ e = (k, x) ∨ (e ∈ es ∧ e.1 ≠ k) := by
  induction es with
  | nil => simp [insertEntry]
  | cons a es ih =>
    rw [pairwise_cons] at hs
    simp only [insertEntry]
    split
    · -- `k` is below every key of the list
      rename_i hlt
      have hne : ∀ b ∈ a :: es, b.1 ≠ k :=
        forall_mem_cons.2
          ⟨(ne_of_lexLt hlt).symm, fun b hb => (ne_of_lexLt (lexLt_trans hlt (hs.1 b hb))).symm⟩
      rw [mem_cons]
      exact or_congr_right ⟨fun h => ⟨h, hne e h⟩, And.left⟩
    · split
      · rename_i hgt
        have hne : a.1 ≠ k := ne_of_lexLt hgt
        rw [mem_cons, ih hs.2, mem_cons, or_left_comm, or_and_right]
        exact or_congr_right (or_congr_left (and_iff_left_of_imp fun h => h ▸ hne).symm)
      · -- the head has the key `k`
        rename_i hnlt hngt
        have hak : a.1 = k := eq_of_not_lexLt hngt hnlt
        have hne : ∀ b ∈ es, b.1 ≠ k := fun b hb => hak ▸ (ne_of_lexLt (hs.1 b hb)).symm
        rw [mem_cons, mem_cons]
        apply or_congr_right
        constructor
        · exact fun h => ⟨Or.inr h, hne e h⟩
        · rintro ⟨rfl | h, hk⟩
          · exact absurd hak hk
          · exact h

theorem sorted_insertEntry (hs : es.Pairwise fun a b => lexLt a.1 b.1 = true) :
    (insertEntry k x es).Pairwise fun a b => lexLt a.1 b.1 = true := by
  induction es with
  | nil => simp [insertEntry]
  | cons a es ih =>
    have hs' := pairwise_cons.1 hs
    simp only [insertEntry]
    split
    · rename_i hlt
      exact pairwise_cons.2 ⟨forall_mem_cons.2 ⟨hlt, fun b hb => lexLt_trans hlt (hs'.1 b hb)⟩, hs⟩
    · split
      · rename_i hgt
        refine pairwise_cons.2 ⟨fun b hb => ?_, ih hs'.2⟩
        rcases (mem_insertEntry hs'.2).1 hb with rfl | hb
        · exact hgt
        · exact hs'.1 b hb.1
      · rename_i hnlt hngt
        have hak : a.1 = k := eq_of_not_lexLt hngt hnlt
        exact pairwise_cons.2 ⟨fun b hb => hak ▸ hs'.1 b hb, hs'.2⟩

/-- An entry that contributes what the one it replaces does, or nothing if it replaces none. -/
theorem flatMap_insertEntry {B : Type*} {f : List A × V → List B}
    (hs : es.Pairwise fun a b => lexLt a.1 b.1 = true) (hnew : (∀ y, (k, y) ∉ es) → f (k, x) = [])
    (hold : ∀ y, (k, y) ∈ es → f (k, x) = f (k, y)) :
    (insertEntry k x es).flatMap f = es.flatMap f := by
  induction es with
  | nil => simp [insertEntry, hnew]
  | cons a es ih =>
    rw [pairwise_cons] at hs
    simp only [insertEntry]
    split
    · rename_i hlt
      rw [flatMap_cons, hnew, nil_append]
      intro y hy
      rcases mem_cons.1 hy with rfl | hy
      · exact ne_of_lexLt hlt rfl
      · exact ne_of_lexLt (lexLt_trans hlt (hs.1 _ hy)) rfl
    · split
      · rename_i hgt
        rw [flatMap_cons, flatMap_cons, ih hs.2 ?_ fun y hy => hold y (mem_cons_of_mem _ hy)]
        intro hnone
        apply hnew
        intro y hy
        rcases mem_cons.1 hy with rfl | hy
        · exact ne_of_lexLt hgt rfl
        · exact hnone y hy
      · rename_i hnlt hngt
        obtain ⟨ka, y⟩ := a
        obtain rfl : ka = k := eq_of_not_lexLt hngt hnlt
        rw [flatMap_cons, flatMap_cons, hold y mem_cons_self]

end InsertEntry

namespace OrderedStore

variable {A : Type u} {V : Type v} [LinearOrder A]

/-- The store with no entries. -/
def empty : OrderedStore A V := ⟨[], .nil⟩

variable (s : OrderedStore A V)

/-- Write `x` under the key `k`. -/
def put (k : List A) (x : V) : OrderedStore A V :=
  ⟨insertEntry k x s.entries, sorted_insertEntry s.sorted⟩

/-- The entries selected by `q`. -/
def filter (q : List A → Bool) : OrderedStore A V :=
  ⟨s.entries.filter fun e => q e.1, s.sorted.filter _⟩

/-- Remove the keys from `lo` up to, but not including, `hi`. -/
def deleteRange (lo hi : List A) : OrderedStore A V :=
  s.filter fun k => !inRange lo hi k

/-- The entries from the lower bound of `p` on, while their keys start with `p`. -/
def scan (p : List A) : List (List A × V) :=
  (s.entries.dropWhile fun e => lexLt e.1 p).takeWhile fun e => p.isPrefixOf e.1

variable {e : List A × V} {k : List A} {x : V} {q : List A → Bool}

section

theorem mem_put : e ∈ (s.put k x).entries ↔ e = (k, x) ∨ (e ∈ s.entries ∧ e.1 ≠ k) :=
  mem_insertEntry s.sorted

theorem mem_filter : e ∈ (s.filter q).entries ↔ e ∈ s.entries ∧ q e.1 = true := by
  simp [filter]

theorem nodup_keys : (s.entries.map Prod.fst).Nodup := by
  rw [Nodup, pairwise_map]
  exact s.sorted.imp ne_of_lexLt

end

/-- The value under the key `k`. -/
def lookup (k : List A) : Option V :=
  (s.entries.find? fun e => e.1 = k).map Prod.snd

theorem lookup_eq_some_iff : s.lookup k = some x ↔ (k, x) ∈ s.entries := by
  have hfind := fun e => @findKey_eq_some_iff _ _ _ Prod.fst _ (s.sorted.imp ne_of_lexLt) k e
  rw [lookup, ← findKey, Option.map_eq_some_iff]
  simp [hfind]

theorem lookup_put (k' : List A) :
    (s.put k x).lookup k' = if k' = k then some x else s.lookup k' := by
  ext y
  rw [lookup_eq_some_iff, mem_put]
  split_ifs with hk
  · simp [hk, eq_comm]
  · simp [hk, lookup_eq_some_iff]

/-- Contributions that are unchanged key by key are unchanged as a whole. -/
theorem flatMap_put {B : Type*} {f : List A × V → List B}
    (h : f (k, x) = ((s.lookup k).map fun y => f (k, y)).getD []) :
    (s.put k x).entries.flatMap f = s.entries.flatMap f := by
  apply flatMap_insertEntry s.sorted
  · intro hnone
    have hlookup : s.lookup k = none :=
      Option.eq_none_iff_forall_not_mem.2 fun y hy => hnone y (s.lookup_eq_some_iff.1 hy)
    rw [h, hlookup]
    rfl
  · intro y hy
    rw [h, s.lookup_eq_some_iff.2 hy]
    rfl

/-- Sorted entries with the same members are the same entries. -/
theorem ext_mem {s t : OrderedStore A V} (h : ∀ e, e ∈ s.entries ↔ e ∈ t.entries) : s = t := by
  have hnodup (r : OrderedStore A V) : r.entries.Nodup := r.nodup_keys.of_map _
  have hperm : s.entries.Perm t.entries :=
    (perm_ext_iff_of_nodup (hnodup s) (hnodup t)).2 h
  have heq : s.entries = t.entries := hperm.eq_of_pairwise
    (fun a b _ _ hab hba => absurd rfl (ne_of_lexLt (lexLt_trans hab hba))) s.sorted t.sorted
  cases s
  cases t
  simp only [OrderedStore.mk.injEq]
  exact heq

section

variable {s} in
theorem filter_put_congr {t : OrderedStore A V} (h : s.filter q = t.filter q) (x : V) :
    (s.put k x).filter q = (t.put k x).filter q := by
  refine ext_mem fun e => ?_
  simp only [mem_filter, mem_put, or_and_right, and_right_comm]
  rw [← mem_filter, ← mem_filter, h]

theorem filter_put_of_neg (x : V) (hk : q k = false) : (s.put k x).filter q = s.filter q := by
  refine ext_mem fun e => ?_
  simp only [mem_filter, mem_put]
  apply and_congr_left
  intro hq
  have hne : e.1 ≠ k := by
    rintro rfl
    rw [hk] at hq
    cases hq
  exact ⟨fun h => (h.resolve_left fun heq => hne (heq ▸ rfl)).1, fun he => Or.inr ⟨he, hne⟩⟩

theorem filter_filter_comm (q r : List A → Bool) :
    (s.filter q).filter r = (s.filter r).filter q := by
  refine ext_mem fun e => ?_
  simp only [mem_filter]
  exact and_right_comm

/-- The keys that start with a prefix are contiguous: the walk finds exactly them. -/
theorem scan_eq_filter (p : List A) : s.scan p = s.entries.filter fun e => p.isPrefixOf e.1 := by
  obtain ⟨es, hs⟩ := s
  simp only [scan]
  induction es with
  | nil => rfl
  | cons a es ih =>
    rw [pairwise_cons] at hs
    by_cases hlt : lexLt a.1 p = true
    · -- a key that starts with `p` is not below `p`
      have hnot : ¬ p.isPrefixOf a.1 = true :=
        fun h => (List.isPrefixOf_iff_prefix.1 h).le (lexLt_iff.1 hlt)
      rw [dropWhile_cons, if_pos hlt, filter_cons, if_neg hnot]
      exact ih hs.2
    · have hge : lexLt a.1 p = false := by simpa using hlt
      rw [dropWhile_cons, if_neg hlt]
      by_cases hpre : p.isPrefixOf a.1 = true
      · rw [takeWhile_cons, if_pos hpre, filter_cons, if_pos hpre, ← ih hs.2]
        -- later keys are above the head, hence not below the prefix
        have hdrop : es.dropWhile (fun e => lexLt e.1 p) = es := by
          cases es with
          | nil => rfl
          | cons b es =>
            rw [dropWhile_cons, if_neg]
            intro hb
            have h := lexLt_trans (hs.1 b (by simp)) hb
            rw [hge] at h
            exact absurd h (by simp)
        rw [hdrop]
      · rw [takeWhile_cons, if_neg hpre, filter_cons, if_neg hpre]
        refine (filter_eq_nil_iff.2 fun b hb hbp => hpre ?_).symm
        exact isPrefixOf_of_between hge (hs.1 b hb) hbp

end

end OrderedStore

end WazAISentinel.Foundations
