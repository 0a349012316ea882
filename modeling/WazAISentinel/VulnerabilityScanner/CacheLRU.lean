import Mathlib.Data.Char
import WazAISentinel.Foundations.OrderedStore
import WazAISentinel.Foundations.TransitionSystem

/-!
# The LRU cache

`LRUCache` of the shared utilities: a map with string keys and a list of its keys, the most recently
used one in front. The list holds exactly the keys of the map, each once, and the map does not
outgrow the capacity.

`insertKey` takes the last element of the list when the map is full. With an empty list that is
undefined, so the model has no result then; it does not happen for a positive capacity.
-/

namespace WazAISentinel.VulnerabilityScanner

open Foundations List

universe u

/-- `LRUCache`. -/
structure LRUCache (V : Type u) where
  map : OrderedStore Char V
  list : List (List Char)
  capacity : Nat
  nodup : list.Nodup
  keys : ∀ k, k ∈ list ↔ k ∈ map.entries.map Prod.fst
  bounded : map.entries.length ≤ capacity

namespace LRUCache

variable {V : Type u}

/-- The cache with no entries. -/
def new (capacity : Nat) : LRUCache V where
  map := .empty
  list := []
  capacity := capacity
  nodup := .nil
  keys _ := Iff.rfl
  bounded := Nat.zero_le _

/-- `m_map.size()`. -/
def size (c : LRUCache V) : Nat := c.map.entries.length

/-- `isFull`. -/
def isFull (c : LRUCache V) : Bool := c.size = c.capacity

variable {c c' : LRUCache V} {k k' lruKey : List Char} {list : List (List Char)} {v : V}

theorem size_lt_of_not_isFull (h : ¬c.isFull = true) : c.size < c.capacity :=
  lt_of_le_of_ne c.bounded fun heq => h (decide_eq_true heq)

/-- `isHit`. -/
def isHit (c : LRUCache V) (k : List Char) : Bool := (c.map.lookup k).isSome

theorem length_list (c : LRUCache V) : c.list.length = c.size := by
  have hperm : c.list.Perm (c.map.entries.map Prod.fst) :=
    (perm_ext_iff_of_nodup c.nodup c.map.nodup_keys).2 c.keys
  rw [hperm.length_eq, length_map, size]

theorem mem_refreshed : k' ∈ k :: list.filter (fun l => l ≠ k) ↔ k' = k ∨ k' ∈ list := by
  by_cases h : k' = k
  · simp [h]
  · simp [h]

theorem nodup_refreshed (h : list.Nodup) : (k :: list.filter fun l => l ≠ k).Nodup :=
  nodup_cons.2 ⟨by simp, h.filter _⟩

/-- `refreshKey`, for a key of the map. -/
def refreshKey (c : LRUCache V) (k : List Char) (hk : k ∈ c.list) : LRUCache V where
  map := c.map
  list := k :: c.list.filter fun l => l ≠ k
  capacity := c.capacity
  nodup := nodup_refreshed c.nodup
  keys k' := by
    rw [mem_refreshed, ← c.keys]
    exact or_iff_right_of_imp fun h => h ▸ hk
  bounded := c.bounded

theorem isHit_iff (c : LRUCache V) (k : List Char) : c.isHit k = true ↔ k ∈ c.list := by
  rw [isHit, Option.isSome_iff_exists, c.keys]
  simp only [OrderedStore.lookup_eq_some_iff, mem_map]
  constructor
  · rintro ⟨v, hv⟩
    exact ⟨(k, v), hv, rfl⟩
  · rintro ⟨e, he, rfl⟩
    exact ⟨e.2, he⟩

/-- `getValue`: the value, and the cache with the key in front. -/
def getValue (c : LRUCache V) (k : List Char) : Option V × LRUCache V :=
  if hk :
    c.isHit k = true then (c.map.lookup k, c.refreshKey k ((c.isHit_iff k).1 hk)) else (none, c)

/-- The keys without the last one of the list. -/
theorem keys_dropLast (h : c.list.getLast? = some lruKey) (k : List Char) :
    k ∈ c.list.dropLast ↔ k ∈ (c.map.filter fun k => k ≠ lruKey).entries.map Prod.fst := by
  have hlist : c.list = c.list.dropLast ++ [lruKey] := (dropLast_append_getLast? _ h).symm
  have hnodup := c.nodup
  have hkeys := c.keys k
  rw [hlist, nodup_append] at hnodup
  rw [hlist, mem_append, mem_singleton] at hkeys
  have hmem : k ∈ (c.map.filter fun k => k ≠ lruKey).entries.map Prod.fst ↔
      k ∈ c.map.entries.map Prod.fst ∧ k ≠ lruKey := by
    simp [OrderedStore.filter]
  rw [hmem, ← hkeys]
  constructor
  · intro hk
    exact ⟨.inl hk, hnodup.2.2 k hk lruKey (by simp)⟩
  · rintro ⟨hk | hk, hne⟩
    · exact hk
    · exact absurd hk hne

/-- The cache without the least recently used entry. -/
def evict (c : LRUCache V) (lruKey : List Char) (h : c.list.getLast? = some lruKey) :
    LRUCache V where
  map := c.map.filter fun k => k ≠ lruKey
  list := c.list.dropLast
  capacity := c.capacity
  nodup := c.nodup.sublist (dropLast_sublist _)
  keys := keys_dropLast h
  bounded := (length_filter_le _ _).trans c.bounded

theorem size_evict_lt (c : LRUCache V) (h : c.list.getLast? = some lruKey) :
    (c.evict lruKey h).size < (c.evict lruKey h).capacity := by
  have hne : c.list ≠ [] := by
    intro hnil
    rw [hnil] at h
    cases h
  have hlength : (c.evict lruKey h).size = c.list.length - 1 := by
    rw [← length_list]
    exact length_dropLast
  have hbounded := c.bounded
  have hsize : c.list.length = c.map.entries.length := c.length_list
  have hpos := length_pos_of_ne_nil hne
  rw [hlength]
  simp only [evict]
  omega

/-- The first part of `insertKey`: a full cache loses its least recently used entry, so there is
room. -/
def makeRoom (c : LRUCache V) : Option {c' : LRUCache V // c'.size < c'.capacity} :=
  if hfull : c.capacity ≤ c.size then
    match hlast : c.list.getLast? with
    | none => none
    | some lruKey => some ⟨c.evict lruKey hlast, c.size_evict_lt hlast⟩
  else some ⟨c, Nat.lt_of_not_le hfull⟩

theorem keys_put (c : LRUCache V) (k : List Char) (v : V) (k' : List Char) :
    k' ∈ k :: c.list.filter (fun l => l ≠ k) ↔ k' ∈ (c.map.put k v).entries.map Prod.fst := by
  rw [mem_refreshed, c.keys]
  simp only [mem_map, OrderedStore.mem_put]
  constructor
  · rintro (rfl | ⟨e, he, rfl⟩)
    · exact ⟨(k', v), .inl rfl, rfl⟩
    · by_cases hk : e.1 = k
      · exact ⟨(k, v), .inl rfl, hk.symm⟩
      · exact ⟨e, .inr ⟨he, hk⟩, rfl⟩
  · rintro ⟨e, rfl | ⟨he, -⟩, rfl⟩
    · exact .inl rfl
    · exact .inr ⟨e, he, rfl⟩

theorem length_insertEntry_le (entries : List (List Char × V)) :
    (insertEntry k v entries).length ≤ entries.length + 1 := by
  induction entries with
  | nil => exact le_rfl
  | cons e entries ih =>
    rw [insertEntry]
    split
    · exact le_rfl
    · split
      · exact Nat.succ_le_succ ih
      · exact Nat.le_succ _

/-- `insertKey`. -/
def insertKey (c : LRUCache V) (k : List Char) (v : V) : Option (LRUCache V) :=
  c.makeRoom.map fun room =>
    { map := room.1.map.put k v
      list := k :: room.1.list.filter fun l => l ≠ k
      capacity := room.1.capacity
      nodup := nodup_refreshed room.1.nodup
      keys := keys_put room.1 k v
      bounded := (length_insertEntry_le _).trans room.2 }

/-! ## What is cached -/

section

variable (c : LRUCache V) (k : List Char)

theorem getValue_eq_lookup : (c.getValue k).1 = c.map.lookup k := by
  rw [getValue]
  split_ifs with hk
  · rfl
  · rw [isHit, Bool.not_eq_true, Option.isSome_eq_false_iff, Option.isNone_iff_eq_none] at hk
    exact hk.symm

/-- Reading a value changes the order of the list only. -/
theorem map_getValue : (c.getValue k).2.map = c.map := by
  rw [getValue]
  split <;> rfl

theorem capacity_getValue : (c.getValue k).2.capacity = c.capacity := by
  rw [getValue]
  split <;> rfl

end

/-- An entry of the cache with room is one of the cache before; a full cache has lost the last key
of its list. -/
theorem makeRoom_spec {room : {c' : LRUCache V // c'.size < c'.capacity}}
    (h : c.makeRoom = some room) :
    room.1.capacity = c.capacity ∧ (∀ e ∈ room.1.map.entries, e ∈ c.map.entries) ∧
      room.1.list = if c.isFull then c.list.dropLast else c.list := by
  have hfull : c.isFull = true ↔ c.capacity ≤ c.size :=
    decide_eq_true_iff.trans ⟨Eq.ge, c.bounded.antisymm⟩
  rw [makeRoom] at h
  split at h
  · rename_i hle
    rw [if_pos (hfull.2 hle)]
    split at h
    · cases h
    · cases h
      exact ⟨rfl, fun e he => (c.map.mem_filter.1 he).1, rfl⟩
  · rename_i hlt
    cases h
    exact ⟨rfl, fun e he => he, (if_neg (mt hfull.1 hlt)).symm⟩

/-- A stored value is the one inserted last, or it was there before. -/
theorem lookup_insertKey {v' : V} (h : c.insertKey k v = some c')
    (hv : c'.map.lookup k' = some v') :
    (k' = k ∧ v' = v) ∨ (k' ≠ k ∧ c.map.lookup k' = some v') := by
  obtain ⟨room, hroom, rfl⟩ := Option.map_eq_some_iff.1 h
  rw [OrderedStore.lookup_eq_some_iff, OrderedStore.mem_put] at hv
  rw [OrderedStore.lookup_eq_some_iff]
  rcases hv with heq | ⟨hmem, hne⟩
  · cases heq
    exact .inl ⟨rfl, rfl⟩
  · exact .inr ⟨hne, (makeRoom_spec hroom).2.1 _ hmem⟩

/-- A cache that is not full loses nothing. -/
theorem map_insertKey (hfull : ¬c.isFull = true) (h : c.insertKey k v = some c') :
    c'.map = c.map.put k v := by
  have hroom : c.makeRoom = some ⟨c, size_lt_of_not_isFull hfull⟩ := by
    rw [makeRoom, dif_neg (size_lt_of_not_isFull hfull).not_ge]
  rw [insertKey, hroom] at h
  cases h
  rfl

theorem capacity_insertKey (h : c.insertKey k v = some c') : c'.capacity = c.capacity := by
  obtain ⟨room, hroom, rfl⟩ := Option.map_eq_some_iff.1 h
  exact (makeRoom_spec hroom).1

/-- With a positive capacity there is a least recently used entry whenever the cache is full. -/
theorem insertKey_eq_some (c : LRUCache V) (hcapacity : 0 < c.capacity) (k : List Char) (v : V) :
    ∃ c', c.insertKey k v = some c' := by
  suffices hroom : ∃ room, c.makeRoom = some room by
    obtain ⟨room, hroom⟩ := hroom
    exact ⟨_, Option.map_eq_some_iff.2 ⟨room, hroom, rfl⟩⟩
  rw [makeRoom]
  split
  · have hne : c.list ≠ [] := by
      have hlength := c.length_list
      intro hnil
      rw [hnil, length_nil] at hlength
      omega
    split
    · rename_i hlast
      exact absurd (getLast?_eq_none_iff.1 hlast) hne
    · exact ⟨_, rfl⟩
  · exact ⟨_, rfl⟩

/-! ## Runs -/

/-- A call of the cache. -/
inductive Call (V : Type u) where
  | insertKey (key : List Char) (value : V)
  | getValue (key : List Char)

/-- A cache with the keys of its inserts and hits, the last one in front, and the value inserted
last for a key. -/
structure Used (V : Type u) where
  cache : LRUCache V
  uses : List (List Char)
  inserted : List Char → Option V

namespace Used

/-- A call. -/
def step (s : Used V) : Call V → Option (Used V)
  | .insertKey key value =>
    (s.cache.insertKey key value).map fun c =>
      ⟨c, key :: s.uses, Function.update s.inserted key (some value)⟩
  | .getValue key =>
    some ⟨(s.cache.getValue key).2, if s.cache.isHit key then key :: s.uses else s.uses, s.inserted⟩

/-- The keys are in the order of their last uses, and have the values inserted last. -/
structure InOrder (s : Used V) : Prop where
  recent : s.cache.list.Pairwise fun a b => s.uses.idxOf a < s.uses.idxOf b
  values : ∀ key value, s.cache.map.lookup key = some value → s.inserted key = some value

end Used

/-- Calls of a new cache. -/
def system (V : Type u) (capacity : Nat) : TransitionSystem (Used V) (Call V) where
  init := ⟨new capacity, [], fun _ => none⟩
  step := Used.step

/-- A full cache loses the last key of its list, and the key inserted goes to the front. -/
theorem list_insertKey (h : c.insertKey k v = some c') :
    c'.list = k :: (if c.isFull then c.list.dropLast else c.list).filter fun l => l ≠ k := by
  obtain ⟨room, hroom, rfl⟩ := Option.map_eq_some_iff.1 h
  rw [← (makeRoom_spec hroom).2.2]

theorem pairwise_refreshed {uses : List (List Char)}
    (h : list.Pairwise fun a b => uses.idxOf a < uses.idxOf b) (k : List Char) :
    (k :: list.filter fun l => l ≠ k).Pairwise fun a b =>
      (k :: uses).idxOf a < (k :: uses).idxOf b := by
  have hlater : ∀ a ∈ list.filter (fun l => l ≠ k), (k :: uses).idxOf a = uses.idxOf a + 1 := by
    intro a ha
    exact idxOf_cons_ne _ (of_decide_eq_true (mem_filter.1 ha).2).symm
  refine pairwise_cons.2 ⟨fun a ha => ?_, (h.filter _).imp_of_mem fun ha hb hab => ?_⟩
  · rw [idxOf_cons_self, hlater a ha]
    exact Nat.succ_pos _
  · rw [hlater _ ha, hlater _ hb]
    exact Nat.succ_lt_succ hab

namespace Used

variable {s t : Used V}

theorem InOrder.step {e : Call V} (h : s.InOrder) (hstep : s.step e = some t) : t.InOrder := by
  cases e with
  | insertKey key value =>
    obtain ⟨c, hinsert, rfl⟩ := Option.map_eq_some_iff.1 hstep
    refine ⟨?_, fun key' value' hvalue => ?_⟩
    · rw [list_insertKey hinsert]
      refine pairwise_refreshed ?_ key
      split
      · exact h.recent.sublist (dropLast_sublist _)
      · exact h.recent
    · rcases lookup_insertKey hinsert hvalue with ⟨rfl, rfl⟩ | ⟨hne, hold⟩
      · exact Function.update_self ..
      · exact (Function.update_of_ne hne ..).trans (h.values key' value' hold)
  | getValue key =>
    cases hstep
    refine ⟨?_, fun key' value' hvalue => h.values key' value' ?_⟩
    · dsimp only [LRUCache.getValue]
      split
      · exact pairwise_refreshed h.recent key
      · exact h.recent
    · rwa [map_getValue] at hvalue

/-- The oldest of the keys is the last one of the list. -/
theorem mem_dropLast_iff {uses : List (List Char)}
    (h : list.Pairwise fun a b => uses.idxOf a < uses.idxOf b) (hk : k ∈ list) :
    k ∈ list.dropLast ↔ ¬ ∀ b ∈ list, uses.idxOf b ≤ uses.idxOf k := by
  rcases eq_nil_or_concat list with rfl | ⟨front, oldest, rfl⟩
  · cases hk
  rw [concat_eq_append] at h hk ⊢
  rw [dropLast_concat]
  have hbelow : ∀ b ∈ front, uses.idxOf b < uses.idxOf oldest := fun b hb =>
    (pairwise_append.1 h).2.2 b hb oldest (mem_singleton_self _)
  constructor
  · intro hfront hall
    exact (hbelow k hfront).not_ge
      (hall oldest (mem_append_right _ (mem_singleton_self _)))
  · intro hnot
    refine (mem_append.1 hk).resolve_right fun hlast => hnot fun b hb => ?_
    rw [mem_singleton.1 hlast]
    rcases mem_append.1 hb with hb | hb
    · exact (hbelow b hb).le
    · rw [mem_singleton.1 hb]

/-- What a call throws out of the cache: the oldest key, if a key is inserted into a full cache and
is not the oldest one itself. -/
theorem InOrder.evicted_iff {e : Call V} (h : s.InOrder) (hstep : s.step e = some t)
    (hk : k ∈ s.cache.list) :
    k ∉ t.cache.list ↔ s.cache.isFull = true ∧ (∃ key value, e = .insertKey key value ∧ k ≠ key) ∧
      ∀ b ∈ s.cache.list, s.uses.idxOf b ≤ s.uses.idxOf k := by
  cases e with
  | insertKey key value =>
    obtain ⟨c, hinsert, rfl⟩ := Option.map_eq_some_iff.1 hstep
    rw [list_insertKey hinsert, mem_refreshed]
    split_ifs with hfull
    · rw [mem_dropLast_iff h.recent hk]
      simp [hfull]
    · simp [hfull, hk]
  | getValue key =>
    cases hstep
    rw [(s.cache.getValue key).2.keys, map_getValue, ← s.cache.keys]
    simp [hk]

end Used

/-- For every capacity of at least one and every sequence of calls, the list has every key of the
map once, there are at most `capacity` keys, and a key that is present has the value inserted last
for it. A call throws out a key exactly if it inserts another key, present or not, into a full cache
and no key has an older last insert or hit. -/
theorem lru_cache_run (V : Type u) (capacity : Nat) (hcapacity : 0 < capacity)
    (calls : List (Call V)) :
    ∃ s, (system V capacity).run calls = some s ∧ s.cache.list.Nodup ∧
      (∀ k, k ∈ s.cache.list ↔ k ∈ s.cache.map.entries.map Prod.fst) ∧ s.cache.size ≤ capacity ∧
      (∀ k ∈ s.cache.list, (s.cache.getValue k).1 = s.inserted k ∧ (s.inserted k).isSome) ∧
      ∀ e, ∃ t, s.step e = some t ∧ ∀ k ∈ s.cache.list, k ∉ t.cache.list ↔
        s.cache.isFull = true ∧ (∃ key value, e = .insertKey key value ∧ k ≠ key) ∧
        ∀ b ∈ s.cache.list, s.uses.idxOf b ≤ s.uses.idxOf k := by
  have hnext : ∀ (s : Used V) e, s.cache.capacity = capacity →
      ∃ t, s.step e = some t ∧ t.cache.capacity = capacity := by
    intro s e hs
    cases e with
    | insertKey key value =>
      obtain ⟨c, hc⟩ := s.cache.insertKey_eq_some (hs ▸ hcapacity) key value
      exact ⟨_, Option.map_eq_some_iff.2 ⟨c, hc, rfl⟩, (capacity_insertKey hc).trans hs⟩
    | getValue key => exact ⟨_, rfl, (s.cache.capacity_getValue key).trans hs⟩
  have hinit : (system V capacity).init.InOrder := ⟨.nil, fun _ _ h => by cases h⟩
  obtain ⟨s, hrun, hs, horder⟩ :=
    (system V capacity).exists_runFrom (P := fun s => s.cache.capacity = capacity ∧ s.InOrder)
    (fun s e h => (hnext s e h.1).imp fun t ht => ⟨ht.1, ht.2, h.2.step ht.1⟩) ⟨rfl, hinit⟩ calls
  refine ⟨s, hrun, s.cache.nodup, s.cache.keys, hs ▸ s.cache.bounded, fun k hk => ?_, fun e => ?_⟩
  · obtain ⟨value, hvalue⟩ := Option.isSome_iff_exists.1 ((s.cache.isHit_iff k).2 hk)
    rw [getValue_eq_lookup, horder.values k value hvalue]
    exact ⟨hvalue, rfl⟩
  · obtain ⟨t, ht, -⟩ := hnext s e hs
    exact ⟨t, ht, fun k hk => horder.evicted_iff ht hk⟩

/-- Three inserts and a hit: the hit saves the first key. -/
theorem lru_cache_run_two :
    ∃ s, (system Nat 2).run [.insertKey ['a'] 1, .insertKey ['b'] 2, .getValue ['a'],
    .insertKey ['c'] 3] = some s ∧ s.cache.list.Nodup := by
  exact (lru_cache_run Nat 2 (by decide) _).imp fun s h => ⟨h.1, h.2.1⟩

/-- A present key is inserted again into the full cache, and the other one is thrown out. -/
theorem present_key_evicts :
    ((system Nat 2).run [.insertKey ['a'] 1, .insertKey ['b'] 2]).any (fun s =>
    s.cache.isHit ['b'] && (s.step (.insertKey ['b'] 3)).any fun t =>
      t.cache.list = [['b']]) = true := by
  decide +kernel

end LRUCache

end WazAISentinel.VulnerabilityScanner
