import Mathlib.Data.List.Basic
import Mathlib.Tactic

/-!
# Maps and row tables

A finite map is the list of its entries, of which the first one with a key counts. A row table
stores its rows in rowid order and never holds two rows with one primary key. Insertion allocates
the rowid after the largest one in use and leaves the table unchanged on a key conflict; updates and
deletions select rows by a predicate. The lookup lemmas describe every operation key by key, so that
a proof about a table is a proof about one row.
-/

namespace WazAISentinel.Foundations

/-- A finite map. -/
structure AssocMap (K V : Type) where
  entries : List (K × V)
  deriving DecidableEq

namespace AssocMap

variable {K V : Type} [DecidableEq K] (m : AssocMap K V)

/-- The value of a key. -/
def get (k : K) : Option V := m.entries.lookup k

/-- Without the keys that satisfy `p`. -/
def eraseWhere (p : K → Bool) : AssocMap K V :=
  ⟨m.entries.filter fun entry => !p entry.1⟩

/-- Without a key. -/
def erase (k : K) : AssocMap K V := m.eraseWhere fun key => key = k

/-- With a value for a key. -/
def set (k : K) (v : V) : AssocMap K V := ⟨(k, v) :: (m.erase k).entries⟩

@[simp] theorem get_nil (k : K) : get (⟨[]⟩ : AssocMap K V) k = none := rfl

theorem get_cons (entries : List (K × V)) (key k : K) (v : V) :
    get ⟨(key, v) :: entries⟩ k = if k = key then some v else get ⟨entries⟩ k := by
  rw [get, List.lookup_cons]
  by_cases hk : k = key
  · rw [if_pos hk, beq_iff_eq.2 hk]
  · rw [if_neg hk, beq_false_of_ne hk, get]

theorem get_eraseWhere (p : K → Bool) (k : K) :
    (m.eraseWhere p).get k = if p k = true then none else m.get k := by
  obtain ⟨entries⟩ := m
  rw [eraseWhere]
  induction entries with
  | nil =>
    split
    · rfl
    · rfl
  | cons entry entries ih =>
    obtain ⟨key, v⟩ := entry
    rw [get_cons, List.filter_cons]
    by_cases hkey : p key = true
    · rw [if_neg (by simpa using hkey), ih]
      split
      · rfl
      · rename_i hk
        rw [if_neg fun h : k = key => hk (h ▸ hkey)]
    · rw [if_pos (by simpa using hkey), get_cons, ih]
      -- the entry that stays is not at a key that is erased
      by_cases hk : k = key
      · rw [if_pos hk, if_pos hk, if_neg fun h => hkey (hk ▸ h)]
      · rw [if_neg hk, if_neg hk]

theorem get_erase (key k : K) : (m.erase key).get k = if k = key then none else m.get k := by
  rw [erase, get_eraseWhere]
  exact if_congr decide_eq_true_iff rfl rfl

theorem get_set (key k : K) (v : V) :
    (m.set key v).get k = if k = key then some v else m.get k := by
  rw [set, get_cons]
  refine ite_congr rfl (fun _ => rfl) fun hk => ?_
  exact (get_erase m key k).trans (if_neg hk)

theorem mem_of_get {m : AssocMap K V} {k : K} {v : V} (h : m.get k = some v) :
    (k, v) ∈ m.entries := by
  obtain ⟨front, back, hentries, -⟩ := List.lookup_eq_some_iff.1 h
  rw [hentries]
  exact List.mem_append_right _ List.mem_cons_self

end AssocMap

/-! ## Row tables -/

open List

universe u v w

/-- Rows in rowid order, no two of them with the same primary key. -/
structure RowTable {R : Type u} {K : Type v} (key : R → K) (rowid : R → Nat) where
  rows : List R
  sorted : rows.Pairwise fun a b => rowid a < rowid b
  unique : rows.Pairwise fun a b => key a ≠ key b

/-- The row with key `k` in a list of rows, the first one if there are several. -/
def findKey {R : Type u} {K : Type v} [DecidableEq K] (key : R → K) (rows : List R) (k : K) :
    Option R :=
  rows.find? fun r => key r = k

section FindKey

variable {R : Type u} {K : Type v} [DecidableEq K] {key : R → K} {p : R → Bool}

@[simp] theorem findKey_nil (k : K) : findKey key [] k = none := rfl

theorem findKey_cons (r : R) (rows : List R) (k : K) :
    findKey key (r :: rows) k = if key r = k then some r else findKey key rows k := by
  by_cases h : key r = k <;> simp [findKey, h]

/-- With pairwise distinct keys, lookup is membership. -/
theorem findKey_eq_some_iff {rows : List R} (hu : rows.Pairwise fun a b => key a ≠ key b)
    {k : K} {r : R} : findKey key rows k = some r ↔ r ∈ rows ∧ key r = k := by
  induction rows with
  | nil => simp
  | cons a rows ih =>
    rw [pairwise_cons] at hu
    rw [findKey_cons, mem_cons]
    by_cases ha : key a = k
    · rw [if_pos ha, Option.some.injEq]
      constructor
      · rintro rfl
        exact ⟨Or.inl rfl, ha⟩
      · rintro ⟨rfl | hr, hk⟩
        · rfl
        · exact absurd (ha.trans hk.symm) (hu.1 r hr)
    · rw [if_neg ha, ih hu.2]
      constructor
      · rintro ⟨hr, hk⟩
        exact ⟨Or.inr hr, hk⟩
      · rintro ⟨rfl | hr, hk⟩
        · exact absurd hk ha
        · exact ⟨hr, hk⟩

theorem findKey_eq_none_iff {rows : List R} {k : K} :
    findKey key rows k = none ↔ ∀ r ∈ rows, key r ≠ k := by
  simp [findKey]

theorem findKey_append (xs ys : List R) (k : K) :
    findKey key (xs ++ ys) k = (findKey key xs k).or (findKey key ys k) := by
  simp [findKey, find?_append]

theorem findKey_filter {rows : List R} (hu : rows.Pairwise fun a b => key a ≠ key b) (k : K) :
    findKey key (rows.filter p) k = (findKey key rows k).filter p := by
  ext r
  simp only [findKey_eq_some_iff (hu.filter p), Option.filter_eq_some_iff,
    findKey_eq_some_iff hu, mem_filter]
  tauto

theorem findKey_map {rows : List R} {S : Type w} {key' : S → K} {f : R → S}
    (hf : ∀ r, key' (f r) = key r) (k : K) :
    findKey key' (rows.map f) k = (findKey key rows k).map f := by
  rw [findKey, find?_map, findKey]
  simp only [Function.comp_def, hf]

end FindKey

namespace RowTable

variable {R : Type u} {K : Type v} [DecidableEq K] {key : R → K} {rowid : R → Nat}
  (t : RowTable key rowid)

/-- The table with no rows. -/
def empty : RowTable key rowid := ⟨[], .nil, .nil⟩

/-- The row with primary key `k`. -/
def find? (k : K) : Option R := findKey key t.rows k

/-- The rowid the next insertion gets: one more than the largest in use, `1` on an empty table. -/
def nextRowid : Nat :=
  match t.rows.getLast? with
  | none => 1
  | some r => rowid r + 1

omit [DecidableEq K] in
theorem rowid_lt_nextRowid {r : R} (hr : r ∈ t.rows) :
    rowid r < t.nextRowid := by
  obtain ⟨rows, hs, hu⟩ := t
  rcases eq_nil_or_concat rows with rfl | ⟨init, last, rfl⟩
  · simp at hr
  · simp only [concat_eq_append, mem_append, mem_singleton] at hr
    simp only [nextRowid, concat_eq_append, getLast?_append, getLast?_singleton, Option.some_or]
    rcases hr with hr | rfl
    · rw [concat_eq_append, pairwise_append] at hs
      exact Nat.lt_succ_of_lt (hs.2.2 r hr last (by simp))
    · exact Nat.lt_succ_self _

/-- Insert the row `mk n` under the next rowid `n`; a key conflict leaves the table unchanged. -/
def insert (mk : Nat → R) (hid : ∀ n, rowid (mk n) = n) :
    RowTable key rowid :=
  if h : t.find? (key (mk t.nextRowid)) = none then
    { rows := t.rows ++ [mk t.nextRowid]
      sorted := by
        refine pairwise_append.2 ⟨t.sorted, pairwise_singleton _ _, ?_⟩
        intro a ha b hb
        rw [mem_singleton] at hb
        rw [hb, hid]
        exact t.rowid_lt_nextRowid ha
      unique := by
        refine pairwise_append.2 ⟨t.unique, pairwise_singleton _ _, ?_⟩
        intro a ha b hb
        rw [mem_singleton] at hb
        rw [hb]
        exact findKey_eq_none_iff.1 h a ha }
  else t

/-- Replace every row selected by `p` by its image under `f`, which keeps key and rowid. -/
def updateWhere (p : R → Bool) (f : R → R)
    (hkey : ∀ r, key (f r) = key r) (hid : ∀ r, rowid (f r) = rowid r) : RowTable key rowid where
  rows := t.rows.map fun r => if p r then f r else r
  sorted := by
    refine List.Pairwise.map _ ?_ t.sorted
    intro a b hab
    have h : ∀ r, rowid (if p r then f r else r) = rowid r := by
      intro r; split <;> simp [hid]
    rw [h, h]
    exact hab
  unique := by
    refine List.Pairwise.map _ ?_ t.unique
    intro a b hab
    have h : ∀ r, key (if p r then f r else r) = key r := by
      intro r; split <;> simp [hkey]
    rw [h, h]
    exact hab

/-- Delete every row selected by `p`. -/
def deleteWhere (p : R → Bool) : RowTable key rowid where
  rows := t.rows.filter fun r => !p r
  sorted := t.sorted.filter _
  unique := t.unique.filter _

theorem find?_eq_some_iff {k : K} {r : R} :
    t.find? k = some r ↔ r ∈ t.rows ∧ key r = k :=
  findKey_eq_some_iff t.unique

theorem key_of_find? {k : K} {r : R} (h : t.find? k = some r) :
    key r = k :=
  by simpa using find?_some h

omit [DecidableEq K] in
/-- Distinct rows have distinct rowids. -/
theorem eq_of_rowid_eq {a b : R} (ha : a ∈ t.rows) (hb : b ∈ t.rows) (h : rowid a = rowid b) :
    a = b := by
  have hne : t.rows.Pairwise fun a b => rowid a ≠ rowid b :=
    t.sorted.imp fun hab => Nat.ne_of_lt hab
  exact Option.some.inj (((findKey_eq_some_iff hne).2 ⟨ha, rfl⟩).symm.trans
    ((findKey_eq_some_iff hne).2 ⟨hb, h.symm⟩))

/-- Inserting under an absent key adds exactly that row. -/
theorem find?_insert (mk : Nat → R) (hid : ∀ n, rowid (mk n) = n)
    (h : t.find? (key (mk t.nextRowid)) = none) (k : K) :
    (t.insert mk hid).find? k =
      if key (mk t.nextRowid) = k then some (mk t.nextRowid) else t.find? k := by
  have hrows : (t.insert mk hid).rows = t.rows ++ [mk t.nextRowid] := by
    unfold insert
    rw [dif_pos h]
  by_cases hk : key (mk t.nextRowid) = k
  · rw [if_pos hk, find?, hrows, findKey_append, ← hk]
    have h' : findKey key t.rows (key (mk t.nextRowid)) = none := h
    simp [h', findKey_cons]
  · rw [if_neg hk, find?, hrows, findKey_append, findKey_cons, if_neg hk]
    simp [find?]

theorem find?_updateWhere (p : R → Bool) (f : R → R) (hkey : ∀ r, key (f r) = key r)
    (hid : ∀ r, rowid (f r) = rowid r) (k : K) :
    (t.updateWhere p f hkey hid).find? k =
      (t.find? k).map fun r => if p r then f r else r :=
  findKey_map (fun r => by split <;> simp [hkey]) k

theorem find?_deleteWhere (p : R → Bool) (k : K) :
    (t.deleteWhere p).find? k = (t.find? k).filter fun r => !p r :=
  findKey_filter t.unique k

end RowTable

/-- Write the values of the rows into a map, in order: a row without a value clears its key. -/
def applyAll {R : Type u} {K : Type v} {V : Type w} [DecidableEq K] (key : R → K)
    (value : R → Option V) (m : K → Option V) (rows : List R) : K → Option V :=
  rows.foldl (fun m r => Function.update m (key r) (value r)) m

section ApplyAll

variable {R : Type u} {K : Type v} {V : Type w} [DecidableEq K] {key : R → K} {value : R → Option V}

/-- With pairwise distinct keys, each key gets the value of its row, and keeps its value if it has
no row. -/
theorem applyAll_apply {rows : List R} (hu : rows.Pairwise fun a b => key a ≠ key b)
    (m : K → Option V) (k : K) :
    applyAll key value m rows k =
      match findKey key rows k with
      | none => m k
      | some r => value r := by
  induction rows generalizing m with
  | nil => rfl
  | cons a rows ih =>
    rw [pairwise_cons] at hu
    have hcons : applyAll key value m (a :: rows) =
        applyAll key value (Function.update m (key a) (value a)) rows := rfl
    rw [hcons, ih hu.2, findKey_cons]
    by_cases ha : key a = k
    · have hnone : findKey key rows k = none :=
        findKey_eq_none_iff.2 fun r hr h => hu.1 r hr (ha.trans h.symm)
      rw [hnone, if_pos ha, ← ha]
      simp
    · rw [if_neg ha]
      cases findKey key rows k with
      | none => simp [Function.update_of_ne (Ne.symm ha)]
      | some r => rfl

end ApplyAll

end WazAISentinel.Foundations
