import Mathlib.Data.List.Nodup
import WazAISentinel.Foundations.FileTree

/-!
# Names of documents and their cache

`base/name.hpp`, `store/namespaceId.hpp` and the class `DBDocNames` of `store/src/store.cpp`. The
cache has a map from names to namespaces and a multimap back, from which entries are erased one by
one. `Coherent` says that both are the same relation and that the multimap has no entry twice; every
operation of the cache keeps it.
-/

namespace WazAISentinel.Store

open Foundations List

/-! ## Names -/

/-- A text that can be the name of a file. -/
structure FileName where
  text : List Char
  valid : text ≠ [] ∧ '/' ∉ text ∧ '\x00' ∉ text ∧ text ≠ ['.'] ∧ text ≠ ['.', '.']
  deriving DecidableEq

/-- A part of a name: a text that is not empty and has no separator, thus `.`, `..` or the name of a
file. -/
abbrev Part : Type := Component FileName

/-- `MAX_PARTS`. -/
def maxParts : Nat := 10

/-- `base::Name`. -/
@[ext] structure Name where
  parts : List Part
  size : parts.length ≤ maxParts
  deriving DecidableEq

/-- The constructor throws if there are too many parts. -/
def Name.ofParts (parts : List Part) : Option Name :=
  if h : parts.length ≤ maxParts then some ⟨parts, h⟩ else none

theorem Name.parts_of_ofParts {parts : List Part} {name : Name}
    (h : Name.ofParts parts = some name) : name.parts = parts := by
  obtain ⟨_, hname⟩ := Option.dite_none_right_eq_some.1 h
  cases hname
  rfl

/-- A name of one part. -/
structure NamespaceId where
  part : Part
  deriving DecidableEq

/-- The part `namespaces`. -/
def prefixNS : FileName := ⟨['n', 'a', 'm', 'e', 's', 'p', 'a', 'c', 'e', 's'], by decide⟩

/-- The parts of a real name. -/
def realParts (virtualName : Name) (namespaceId : NamespaceId) : List Part :=
  .name prefixNS :: namespaceId.part :: virtualName.parts

/-- None if the constructor of the name throws. -/
def virtualToRealName (virtualName : Name) (namespaceId : NamespaceId) : Option Name :=
  Name.ofParts (realParts virtualName namespaceId)

/-! ## The cache -/

/-- `DBDocNames`. -/
structure DBDocNames where
  nameToNS : AssocMap Name NamespaceId
  nsToNames : List (NamespaceId × Name)

namespace DBDocNames

/-- A cache without names. -/
def empty : DBDocNames := ⟨⟨[]⟩, []⟩

section

variable (cache : DBDocNames) (name : Name)

/-- `getNamespaceId`. -/
def getNamespaceId : Option NamespaceId := cache.nameToNS.get name

/-- `existsName`. -/
def existsName : Bool := (cache.nameToNS.get name).isSome

/-- The strict comparison. -/
def isPrefix (first name : Name) : Bool :=
  first.parts.length < name.parts.length && first.parts.isPrefixOf name.parts

/-- The names of a namespace below a name. -/
def filterByPrefix (first : Name) (namespaceId : NamespaceId) : List Name :=
  (cache.nsToNames.filter fun entry => entry.1 = namespaceId && isPrefix first entry.2).map Prod.snd

/-- `add`. -/
def add (namespaceId : NamespaceId) : DBDocNames × Bool :=
  match cache.nameToNS.get name with
  | some _ => (cache, false)
  | none => (⟨cache.nameToNS.set name namespaceId, (namespaceId, name) :: cache.nsToNames⟩, true)

/-- Nothing is erased if the multimap does not have the entry. -/
def del : DBDocNames :=
  match cache.nameToNS.get name with
  | none => cache
  | some namespaceId =>
    if cache.nsToNames.contains (namespaceId, name) then
      ⟨cache.nameToNS.erase name, cache.nsToNames.erase (namespaceId, name)⟩
    else cache

/-- `delCol`. -/
def delCol (namespaceId : NamespaceId) : DBDocNames where
  nameToNS := cache.nameToNS.eraseWhere fun key =>
    cache.nsToNames.any fun entry =>
      (entry.1 = namespaceId && isPrefix name entry.2) && entry.2 = key
  nsToNames := cache.nsToNames.filter fun entry => !(entry.1 = namespaceId && isPrefix name entry.2)

end

/-- Both directions are the same relation, and no entry is there twice. -/
structure Coherent (cache : DBDocNames) : Prop where
  same : ∀ name namespaceId, cache.getNamespaceId name = some namespaceId ↔
    (namespaceId, name) ∈ cache.nsToNames
  nodup : cache.nsToNames.Nodup

theorem coherent_empty : empty.Coherent where
  same _ _ := iff_of_false (fun h => by cases h) not_mem_nil
  nodup := nodup_nil

variable {name : Name} {namespaceId old : NamespaceId}

theorem isPrefix_iff {first : Name} :
    isPrefix first name = true ↔ first.parts <+: name.parts ∧ first.parts ≠ name.parts := by
  rw [isPrefix, Bool.and_eq_true, decide_eq_true_iff, isPrefixOf_iff_prefix, and_comm]
  refine and_congr_right fun habove => habove.length_le.lt_iff_ne.trans (not_congr ?_)
  exact ⟨habove.eq_of_length, congrArg length⟩

variable {cache : DBDocNames}

theorem getNamespaceId_add (key : Name) :
    (cache.add name namespaceId).1.getNamespaceId key =
      (cache.getNamespaceId key).or (if key = name then some namespaceId else none) := by
  rw [add]
  cases hname : cache.nameToNS.get name with
  | some old =>
    -- the name keeps its namespace
    split_ifs with hkey
    · rw [hkey, getNamespaceId, hname, Option.some_or]
    · rw [Option.or_none]
  | none =>
    change (cache.nameToNS.set name namespaceId).get key = _
    rw [AssocMap.get_set]
    split_ifs with hkey
    · rw [hkey, getNamespaceId, hname, Option.none_or]
    · rw [Option.or_none, getNamespaceId]

section

variable (h : cache.Coherent)

include h

/-- A name that the cache does not have is put into both maps. -/
theorem Coherent.insert (hname : cache.getNamespaceId name = none) {m : AssocMap Name NamespaceId}
    (hm : ∀ key, m.get key = if key = name then some namespaceId else cache.getNamespaceId key) :
    Coherent ⟨m, (namespaceId, name) :: cache.nsToNames⟩ := by
  have hnew : ∀ ns, (ns, name) ∉ cache.nsToNames := by
    intro ns hmem
    have hfound := (h.same name ns).2 hmem
    rw [hname] at hfound
    cases hfound
  refine ⟨fun key ns => ?_, nodup_cons.2 ⟨hnew namespaceId, h.nodup⟩⟩
  change m.get key = some ns ↔ (ns, key) ∈ (namespaceId, name) :: cache.nsToNames
  rw [hm, mem_cons, Prod.mk.injEq]
  by_cases hkey : key = name
  · subst hkey
    rw [if_pos rfl, Option.some_inj]
    exact ⟨fun hns => .inl ⟨hns.symm, rfl⟩,
      fun hor => hor.elim (fun h => h.1.symm) fun hmem => absurd hmem (hnew ns)⟩
  · rw [if_neg hkey]
    exact (h.same key ns).trans ⟨.inr, fun hor => hor.resolve_left fun h => hkey h.2⟩

theorem Coherent.add (name : Name) (namespaceId : NamespaceId) :
    (cache.add name namespaceId).1.Coherent := by
  rw [DBDocNames.add]
  cases hname : cache.nameToNS.get name with
  | some old => exact h
  | none => exact h.insert hname fun key => AssocMap.get_set _ _ _ _

/-- The map from names without `name`, and the multimap without its entry. -/
theorem Coherent.erase (hname : cache.getNamespaceId name = some old) :
    Coherent ⟨cache.nameToNS.erase name, cache.nsToNames.erase (old, name)⟩ := by
  refine ⟨fun key ns => ?_, h.nodup.erase _⟩
  change (cache.nameToNS.erase name).get key = some ns ↔
      (ns, key) ∈ cache.nsToNames.erase (old, name)
  rw [AssocMap.get_erase, h.nodup.mem_erase_iff, Option.ite_none_left_eq_some, ← h.same]
  refine and_congr_left fun hns => not_congr ⟨fun hkey => ?_, congrArg Prod.snd⟩
  rw [hkey] at hns ⊢
  rw [Option.some_inj.1 (hns.symm.trans hname)]

theorem Coherent.del_eq (hname : cache.getNamespaceId name = some old) :
    cache.del name = ⟨cache.nameToNS.erase name, cache.nsToNames.erase (old, name)⟩ := by
  have hget : cache.nameToNS.get name = some old := hname
  rw [del, hget]
  exact if_pos (contains_iff_mem.2 ((h.same name old).1 hname))

theorem Coherent.del (name : Name) : (cache.del name).Coherent := by
  cases hname : cache.getNamespaceId name with
  | none =>
    have hget : cache.nameToNS.get name = none := hname
    rw [DBDocNames.del, hget]
    exact h
  | some old =>
    rw [h.del_eq hname]
    exact h.erase hname

theorem getNamespaceId_del (hname : cache.getNamespaceId name = some old) (key : Name) :
    (cache.del name).getNamespaceId key = if key = name then none
      else cache.getNamespaceId key := by
  rw [h.del_eq hname]
  exact AssocMap.get_erase _ _ _

section

variable (name : Name) (namespaceId : NamespaceId)

/-! Below a name: what `delCol` erases from the map from names is what it erases from the
multimap. -/

theorem getNamespaceId_delCol (key : Name) :
    (cache.delCol name namespaceId).getNamespaceId key =
      if cache.getNamespaceId key = some namespaceId ∧
        isPrefix name key = true then none else cache.getNamespaceId key := by
  change (cache.nameToNS.eraseWhere _).get key = _
  rw [AssocMap.get_eraseWhere]
  refine ite_congr (propext ?_) (fun _ => rfl) fun _ => rfl
  rw [any_eq_true]
  constructor
  · rintro ⟨⟨ns, n⟩, hmem, hentry⟩
    rw [Bool.and_eq_true, Bool.and_eq_true, decide_eq_true_iff, decide_eq_true_iff] at hentry
    obtain ⟨⟨rfl, hbelow⟩, rfl⟩ := hentry
    exact ⟨(h.same n ns).2 hmem, hbelow⟩
  · rintro ⟨hns, hbelow⟩
    refine ⟨(namespaceId, key), (h.same key namespaceId).1 hns, ?_⟩
    rw [Bool.and_eq_true, Bool.and_eq_true, decide_eq_true_iff, decide_eq_true_iff]
    exact ⟨⟨rfl, hbelow⟩, rfl⟩

theorem Coherent.delCol :
    (cache.delCol name namespaceId).Coherent := by
  refine ⟨fun key ns => ?_, h.nodup.filter _⟩
  rw [getNamespaceId_delCol h, Option.ite_none_left_eq_some, and_comm]
  change _ ↔ (ns, key) ∈ cache.nsToNames.filter _
  rw [mem_filter, ← h.same key ns]
  refine and_congr_right fun hns => ?_
  rw [hns, Option.some_inj, Bool.not_eq_true', ← Bool.not_eq_true, Bool.and_eq_true,
    decide_eq_true_iff]

end

theorem filterByPrefix_ne_nil (hne : cache.filterByPrefix name namespaceId ≠ []) :
    ∃ key, cache.getNamespaceId key = some namespaceId ∧ isPrefix name key = true := by
  obtain ⟨key, hkey⟩ := exists_mem_of_ne_nil _ hne
  obtain ⟨⟨ns, n⟩, hentry, rfl⟩ := mem_map.1 hkey
  obtain ⟨hmem, hbelow⟩ := mem_filter.1 hentry
  rw [Bool.and_eq_true, decide_eq_true_iff] at hbelow
  obtain ⟨rfl, hbelow⟩ := hbelow
  exact ⟨n, (h.same n ns).2 hmem, hbelow⟩

end

end DBDocNames

end WazAISentinel.Store
