import Mathlib.Tactic.Common

/-!
# Hash tables that could not be resized

`OSHash_setSize` stores the new number of rows before it reallocates the table. If that fails, the
old table is kept with the new number of rows, by which every later operation reduces the hash of a
key. The new number is larger, unless it has wrapped, so that keys are looked for behind the end of
the table.
-/

namespace WazAISentinel.Shared

/-- The inner loop of `os_getprime`; `i` does not wrap, since `maxI` is half of `val`. -/
def divisorLoop (val maxI i : Nat) : Nat :=
  if i ≤ maxI then
    if val % i = 0 then i else divisorLoop val maxI (i + 2)
  else i
termination_by maxI + 1 - i

/-- The outer loop of `os_getprime`, which ends at the latest when `val` has wrapped. -/
def primeLoop (val : UInt32) : UInt32 :=
  if val.toNat / 2 ≤ divisorLoop val.toNat (val.toNat / 2) 3 then val
  else if val + 2 = 0 then 0 else primeLoop (val + 2)
termination_by if val.toNat ≤ 1 then 0 else 4294967296 - val.toNat
decreasing_by
  have hsum : (val + 2).toNat = (val.toNat + 2) % 2 ^ 32 := UInt32.toNat_add val 2
  have hlt := val.toNat_lt
  split <;> split <;> omega

/-- `os_getprime`. -/
def osGetprime (val : UInt32) : UInt32 := primeLoop (if val % 2 = 0 then val + 1 else val)

theorem primeLoop_eq_or_le {val : UInt32} (hodd : val.toNat % 2 = 1) :
    primeLoop val = 1 ∨ val ≤ primeLoop val := by
  fun_induction primeLoop val with
  | case1 val hprime => exact .inr (UInt32.le_refl val)
  | case2 val hcomposite hzero =>
    -- an odd number does not wrap to zero
    have hsum := UInt32.toNat_add val 2
    rw [hzero] at hsum
    simp at hsum
    omega
  | case3 val hcomposite hzero ih =>
    have hsum : (val + 2).toNat = (val.toNat + 2) % 2 ^ 32 := UInt32.toNat_add val 2
    have hlt := val.toNat_lt
    rcases ih (by omega) with hone | hle
    · exact .inl hone
    · rw [UInt32.le_iff_toNat_le] at hle ⊢
      by_cases hwrapped : val.toNat + 2 < 2 ^ 32
      · exact .inr (by omega)
      · have hval : val + 2 = 1 := UInt32.toNat_inj.1 (by rw [hsum, UInt32.toNat_one]; omega)
        rw [hval]
        exact .inl (by decide +kernel)

/-- The number of rows is not smaller than the size asked for, or one. -/
theorem osGetprime_eq_or_le (val : UInt32) : osGetprime val = 1 ∨ val ≤ osGetprime val := by
  have hlt := val.toNat_lt
  have hmod : (val % 2).toNat = val.toNat % 2 := UInt32.toNat_mod val 2
  rw [osGetprime]
  split
  · rename_i heven
    have hsum : (val + 1).toNat = (val.toNat + 1) % 2 ^ 32 := UInt32.toNat_add val 1
    rw [heven, UInt32.toNat_zero] at hmod
    refine (primeLoop_eq_or_le (by omega)).imp_right fun hle => ?_
    rw [UInt32.le_iff_toNat_le] at hle ⊢
    omega
  · rename_i hodd
    apply primeLoop_eq_or_le
    have hne : (val % 2).toNat ≠ 0 := fun h => hodd (UInt32.toNat_inj.1 h)
    omega

/-- The fields of an `OSHash` that decide where a key is found; a row of the table is a chain of
nodes. -/
structure OSHash (δ : Type) where
  rows : UInt32
  initialSeed : UInt32
  constant : UInt32
  table : List (List (List Int8 × δ))
  deriving DecidableEq

namespace OSHash

variable {δ : Type}

/-- `OSHash_Create`, with the two random numbers. -/
def create (random random' : UInt32) : OSHash δ where
  rows := osGetprime 32
  initialSeed := osGetprime (random % osGetprime 32)
  constant := osGetprime (random' % osGetprime 32)
  table := List.replicate ((osGetprime 32).toNat + 1) []

variable (self : OSHash δ)

/-- `_os_genhash`; a character is extended with its sign. -/
def genhash (key : List Int8) : UInt32 :=
  key.foldl (fun hashKey c => hashKey * self.constant + c.toInt32.toUInt32) self.initialSeed

/-- `OSHash_Get`; without rows or outside the table its behaviour is not defined. -/
def get (key : List Int8) : Option (Option δ) :=
  if self.rows = 0 then none
  else (self.table[(self.genhash key % self.rows).toNat]?).map fun chain =>
    (chain.find? (·.1 = key)).map Prod.snd

/-- `OSHash_setSize`, with the answer of `realloc`. -/
def setSize (newSize : UInt32) (reallocated : Bool) : Option (OSHash δ × Nat) :=
  if newSize ≤ self.rows then some (self, 1)
  else
    let rows := osGetprime newSize
    if rows = 0 then some ({ self with rows }, 0)
    else if reallocated = false then some ({ self with rows }, 0)
    -- the chains of the old rows are freed, which reads behind a table that has become smaller
    else if rows.toNat + 1 < self.rows.toNat then none
    else
      some (⟨rows, osGetprime (456 % rows), osGetprime (789 % rows),
        List.replicate (rows.toNat + 1) []⟩, 1)

/-- There are rows, and all of them are allocated: one pointer more than `rows`. -/
def Valid : Prop := 0 < self.rows ∧ self.table.length = self.rows.toNat + 1

instance (self : OSHash δ) : Decidable self.Valid := inferInstanceAs (Decidable (_ ∧ _))

variable {self self' : OSHash δ} {newSize : UInt32} {reallocated : Bool}

/-- A failed call has replaced the number of rows and nothing else. -/
theorem setSize_failed (h : self.setSize newSize reallocated = some (self', 0)) :
    self.rows < newSize ∧ self' = { self with rows := osGetprime newSize } := by
  rw [setSize] at h
  split at h
  · cases h
  · rename_i hlarger
    refine ⟨UInt32.not_le.1 hlarger, ?_⟩
    dsimp only at h
    split at h
    · cases h
      rfl
    · split at h
      · cases h
        rfl
      · split at h <;> cases h

/-- A failed call leaves a usable table in which every key is found as before exactly if there was
one row and there is one again. -/
theorem setSize_atomic_iff (self self' : OSHash δ) (newSize : UInt32) (reallocated : Bool)
    (hvalid : self.Valid) (hfailed : self.setSize newSize reallocated = some (self', 0)) :
    (self'.Valid ∧ ∀ key, self'.get key = self.get key) ↔
      self.rows = 1 ∧ osGetprime newSize = 1 := by
  obtain ⟨hlarger, rfl⟩ := setSize_failed hfailed
  constructor
  · rintro ⟨⟨-, hlength⟩, -⟩
    -- the table is the old one, so the number of rows has to be the old one
    have hrows : osGetprime newSize = self.rows := by
      rw [← UInt32.toNat_inj]
      exact Nat.succ.inj (hlength.symm.trans hvalid.2)
    rcases osGetprime_eq_or_le newSize with hone | hle
    · exact ⟨hrows.symm.trans hone, hone⟩
    · rw [hrows] at hle
      exact absurd hlarger (UInt32.not_lt.2 hle)
  · rintro ⟨hrow, hone⟩
    rw [hone, ← hrow]
    exact ⟨hvalid, fun _ => rfl⟩

/-- A table with one row. -/
def oneRow : OSHash Nat := ⟨1, 1, 1, [[], []]⟩

/-- Behind this size no prime is left in 32 bits. -/
theorem setSize_atomic_iff_one_row :
    oneRow.setSize 4294967295 false = some (oneRow, 0) ∧ oneRow.Valid ∧
    ∀ key, oneRow.get key = oneRow.get key :=
  ⟨by decide +kernel,
    (setSize_atomic_iff oneRow oneRow 4294967295 false (by decide) (by decide +kernel)).2
      (by decide +kernel)⟩

/-- The key `S` is absent from a new table; after a call that could not allocate 41 rows it is
looked for behind the end of the table. -/
theorem setSize_failed_new_table :
    (create 36 0 : OSHash Nat).Valid ∧ (create 36 0 : OSHash Nat).get [83] = some none ∧
    ∃ self' : OSHash Nat, (create 36 0).setSize 38 false = some (self', 0) ∧ ¬ self'.Valid ∧
      self'.get [83] = none :=
  ⟨by decide +kernel, by decide +kernel,
    { create 36 0 with rows := 41 }, by decide +kernel, by decide +kernel,
    by decide +kernel⟩

end OSHash

end WazAISentinel.Shared
