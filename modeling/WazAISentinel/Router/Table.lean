import Mathlib.Order.Nat
import WazAISentinel.Foundations.RowTable

/-!
# The table of a router

`internal::Table` (`router/src/table.hpp`): objects with unique names, in the order of their unique
priorities. The index by name refers to the items of the list and is not modelled beside it. An
operation that returns a flag in the source gives `none` where the flag is false, and then the table
stays as it is.

`Table.map` changes the objects only. Every operation commutes with it, so what happens to a part of
the objects depends on that part.
-/

namespace WazAISentinel.Router

open Foundations List

variable {T U : Type}

/-- `Table::Item`. -/
structure Item (T : Type) where
  name : String
  priority : Nat
  object : T

/-- Another object under the same name and priority. -/
def Item.map (f : T → U) (item : Item T) : Item U := ⟨item.name, item.priority, f item.object⟩

/-- The items in the order of their priorities. Names and priorities are unique. -/
@[ext] structure Table (T : Type) where
  items : List (Item T)
  sorted : items.Pairwise fun a b => a.priority < b.priority
  names : items.Pairwise fun a b => a.name ≠ b.name

/-! ## Lists of items -/

/-- The loop of `priorityExists`, which stops behind the priority. -/
def priorityIn (priority : Nat) : List (Item T) → Bool
  | [] => false
  | item :: items =>
    if item.priority = priority then true else if priority < item.priority then false
      else priorityIn priority items

/-- An item is put before the first one with a priority that is not smaller
(`findInsertionPoint`). -/
def emplaceItem (new : Item T) : List (Item T) → List (Item T)
  | [] => [new]
  | item :: items =>
    if new.priority ≤ item.priority then new :: item :: items else item :: emplaceItem new items

variable {items : List (Item T)} {priority : Nat} {item new : Item T} {t : Table T} {name : String}
  {f : T → U} {g : T → T}

/-- In a sorted list nothing is missed by stopping there. -/
theorem priorityIn_eq_true (hsorted : items.Pairwise fun a b => a.priority < b.priority) :
    priorityIn priority items = true ↔ ∃ item ∈ items, item.priority = priority := by
  induction items with
  | nil => simp [priorityIn]
  | cons item items ih =>
    obtain ⟨hhead, hrest⟩ := pairwise_cons.1 hsorted
    rw [priorityIn, exists_mem_cons_iff]
    split
    · rename_i h
      exact ⟨fun _ => .inl h, fun _ => rfl⟩
    · rename_i h
      split
      · -- all that follow have greater priorities
        refine ⟨fun hfalse => absurd hfalse Bool.false_ne_true, ?_⟩
        rintro (heq | ⟨other, hother, heq⟩)
        · exact absurd heq h
        · have := hhead other hother
          omega
      · rw [ih hrest]
        exact ⟨.inr, fun hor => hor.resolve_left h⟩

/-- Nothing else is added or lost. -/
theorem perm_emplaceItem : (emplaceItem new items).Perm (new :: items) := by
  induction items with
  | nil => exact .refl _
  | cons head items ih =>
    rw [emplaceItem]
    split
    · exact .refl _
    · exact (ih.cons head).trans (.swap new head items)

theorem mem_emplaceItem : item ∈ emplaceItem new items ↔ item = new ∨ item ∈ items :=
  perm_emplaceItem.mem_iff.trans mem_cons

/-- A new priority keeps the order. -/
theorem sorted_emplaceItem (hsorted : items.Pairwise fun a b => a.priority < b.priority)
    (hnew : ∀ item ∈ items, item.priority ≠ new.priority) :
    (emplaceItem new items).Pairwise fun a b => a.priority < b.priority := by
  induction items with
  | nil => exact pairwise_singleton ..
  | cons head items ih =>
    obtain ⟨hhead, hrest⟩ := pairwise_cons.1 hsorted
    obtain ⟨hne, hnew⟩ := forall_mem_cons.1 hnew
    rw [emplaceItem]
    split
    · have hlt : new.priority < head.priority := by omega
      exact pairwise_cons.2
        ⟨forall_mem_cons.2 ⟨hlt, fun item hitem => hlt.trans (hhead item hitem)⟩, hsorted⟩
    · refine pairwise_cons.2 ⟨fun item hitem => ?_, ih hrest hnew⟩
      rcases mem_emplaceItem.1 hitem with rfl | hitem
      · omega
      · exact hhead item hitem

/-- A new name keeps the names apart. -/
theorem names_emplaceItem (hnames : items.Pairwise fun a b => a.name ≠ b.name)
    (hnew : ∀ item ∈ items, item.name ≠ new.name) :
    (emplaceItem new items).Pairwise fun a b => a.name ≠ b.name := by
  rw [perm_emplaceItem.pairwise_iff Ne.symm]
  exact pairwise_cons.2 ⟨fun item hitem => (hnew item hitem).symm, hnames⟩

theorem priorityIn_map :
    priorityIn priority (items.map (Item.map f)) = priorityIn priority items := by
  induction items with
  | nil => rfl
  | cons item items ih =>
    rw [map_cons, priorityIn, priorityIn, ih]
    rfl

/-- Where an item is put does not depend on the objects. -/
theorem emplaceItem_map (f : T → U) (new : Item T) (items : List (Item T)) :
    emplaceItem (new.map f) (items.map (Item.map f)) =
      (emplaceItem new items).map (Item.map f) := by
  induction items with
  | nil => rfl
  | cons item items ih =>
    rw [map_cons, emplaceItem, emplaceItem, ih]
    change (if new.priority ≤ item.priority then _ else _) = _
    split
    · rfl
    · rfl

namespace Table

/-! ## The operations -/

/-- A table without items. -/
def empty : Table T := ⟨[], List.Pairwise.nil, List.Pairwise.nil⟩

/-- `priorityExists`. -/
def priorityExists (t : Table T) (priority : Nat) : Bool := priorityIn priority t.items

/-- The item of a name. -/
def find? (t : Table T) (name : String) : Option (Item T) :=
  t.items.find? fun item => item.name = name

/-- `nameExists`. -/
def nameExists (t : Table T) (name : String) : Bool := (t.find? name).isSome

/-- `get`. -/
def get? (t : Table T) (name : String) : Option T := (t.find? name).map Item.object

/-- An item with a name and a priority that are not in use. -/
def emplace (t : Table T) (new : Item T) (hname : ∀ item ∈ t.items, item.name ≠ new.name)
    (hpriority : ∀ item ∈ t.items, item.priority ≠ new.priority) : Table T :=
  ⟨emplaceItem new t.items, sorted_emplaceItem t.sorted hpriority, names_emplaceItem t.names hname⟩

/-- `erase`. -/
def erase (t : Table T) (name : String) : Table T :=
  ⟨t.items.filter fun item => item.name ≠ name, t.sorted.filter _, t.names.filter _⟩

theorem priority_ne_of_not_exists (h : ¬ t.priorityExists priority = true)
    (hitem : item ∈ t.items) : item.priority ≠ priority :=
  fun heq => h ((priorityIn_eq_true t.sorted).2 ⟨item, hitem, heq⟩)

theorem name_ne_of_not_exists (h : ¬ t.nameExists name = true) (hitem : item ∈ t.items) :
    item.name ≠ name := by
  rintro rfl
  refine h ?_
  rw [nameExists, find?, find?_isSome]
  exact ⟨item, hitem, decide_eq_true rfl⟩

/-- `insert`: neither the name nor the priority may be in use. -/
def insert (t : Table T) (name : String) (priority : Nat) (object : T) : Option (Table T) :=
  if h : t.nameExists name = true ∨ t.priorityExists priority = true then none
  else some (t.emplace ⟨name, priority, object⟩ (fun _ => name_ne_of_not_exists fun hn => h
    (.inl hn)) fun _ => priority_ne_of_not_exists fun hp => h (.inr hp))

/-- `setPriority`: the item is taken out and put in again. -/
def setPriority (t : Table T) (name : String) (newPriority : Nat) : Option (Table T) :=
  match t.find? name with
  | none => none
  | some item =>
    if item.priority = newPriority then some t
    else if h : t.priorityExists newPriority = true then none
    else some ((t.erase name).emplace ⟨name, newPriority, item.object⟩
      (fun _ hother => of_decide_eq_true (mem_filter.1 hother).2)
      fun _ hother => priority_ne_of_not_exists h (mem_filter.1 hother).1)

/-- The object of a name is changed through the reference that `get` returns. -/
def modify (t : Table T) (name : String) (f : T → T) : Table T :=
  ⟨t.items.map fun item => if item.name = name then { item with object := f item.object } else item,
    pairwise_map.2 (t.sorted.imp fun {a b} h => by
      have hp (c : Item T) :
          (if c.name = name then { c with object := f c.object } else c).priority = c.priority := by
        split
        · rfl
        · rfl
      rw [hp a, hp b]
      exact h),
    pairwise_map.2 (t.names.imp fun {a b} h => by
      have hn (c : Item T) :
          (if c.name = name then { c with object := f c.object } else c).name = c.name := by
        split
        · rfl
        · rfl
      rw [hn a, hn b]
      exact h)⟩

/-! ## Changing the objects only -/

/-- Other objects under the same names and priorities. -/
def map (f : T → U) (t : Table T) : Table U :=
  ⟨t.items.map (Item.map f), pairwise_map.2 t.sorted, pairwise_map.2 t.names⟩

section

variable (f : T → U) (t : Table T)

theorem find?_map : (t.map f).find? name = (t.find? name).map (Item.map f) := by
  rw [find?, map, List.find?_map]
  rfl

theorem nameExists_map (name : String) : (t.map f).nameExists name = t.nameExists name := by
  rw [nameExists, find?_map, Option.isSome_map]
  rfl

theorem priorityExists_map (priority : Nat) :
    (t.map f).priorityExists priority = t.priorityExists priority := priorityIn_map

/-- `insert` does not look at the objects. -/
theorem insert_map (name : String) (priority : Nat) (object : T) :
    (t.map f).insert name priority (f object) = (t.insert name priority object).map (map f) := by
  simp only [insert, nameExists_map, priorityExists_map]
  split
  · rfl
  · refine congrArg some (Table.ext ?_)
    exact emplaceItem_map f ⟨name, priority, object⟩ t.items

theorem erase_map (name : String) : (t.map f).erase name = (t.erase name).map f := by
  apply Table.ext
  change (t.items.map (Item.map f)).filter _ = (t.items.filter _).map (Item.map f)
  rw [filter_map]
  rfl

/-- Nor does `setPriority`. -/
theorem setPriority_map (newPriority : Nat) :
    (t.map f).setPriority name newPriority = (t.setPriority name newPriority).map (map f) := by
  rw [setPriority, setPriority, find?_map]
  cases t.find? name with
  | none => rfl
  | some item =>
    simp only [Option.map_some, Item.map, priorityExists_map]
    split
    · rfl
    · split
      · rfl
      · refine congrArg some (Table.ext ?_)
        change emplaceItem (Item.map f ⟨name, newPriority, item.object⟩)
            ((t.map f).erase name).items = _
        rw [erase_map]
        exact emplaceItem_map f _ _

end

/-- A change of an object that `f` shows as `g'`. -/
theorem modify_map {g' : U → U} (hg : ∀ x, f (g x) = g' (f x)) (t : Table T) (name : String) :
    (t.map f).modify name g' = (t.modify name g).map f := by
  apply Table.ext
  change (t.items.map (Item.map f)).map _ = (t.items.map _).map (Item.map f)
  rw [map_map, map_map]
  refine map_congr_left fun item _ => ?_
  change (if item.name = name then _ else _) = Item.map f (if item.name = name then _ else _)
  split
  · rw [Item.map, Item.map, hg]
  · rfl

/-- A change that `f` does not show. -/
theorem map_modify_of_eq (hg : ∀ x, f (g x) = f x) (t : Table T) (name : String) :
    (t.modify name g).map f = t.map f := by
  have hid : ∀ x, f (g x) = id (f x) := hg
  rw [← modify_map hid]
  apply Table.ext
  exact map_id'' (fun item => ite_self item) _

/-! ## What is found afterwards -/

/-- The item of the name is the changed one. -/
theorem find?_modify (f : T → T) :
    (t.modify name f).find? name = (t.find? name).map fun item =>
      { item with object := f item.object } := by
  refine (findKey_map (fun item => ?_) name).trans (Option.map_congr fun item hitem => ?_)
  · split
    · rfl
    · rfl
  · exact if_pos ((findKey_eq_some_iff t.names).1 hitem).2

/-- `get` returns the changed object. -/
theorem get?_modify (f : T → T) : (t.modify name f).get? name = (t.get? name).map f := by
  rw [get?, find?_modify, get?, Option.map_map, Option.map_map]
  rfl

theorem get?_eq_none (h : ¬ t.nameExists name = true) : t.get? name = none := by
  rw [nameExists, Option.not_isSome_iff_eq_none] at h
  rw [get?, h, Option.map_none]

/-- Every item is found by its name. -/
theorem get?_of_mem (h : item ∈ t.items) : t.get? item.name = some item.object := by
  have hfind : t.find? item.name = some item := (findKey_eq_some_iff t.names).2 ⟨h, rfl⟩
  rw [get?, hfind, Option.map_some]

/-- What was inserted is found. -/
theorem get?_of_insert {t' : Table T} {object : T} (h : t.insert name priority object = some t') :
    t'.get? name = some object := by
  rw [insert] at h
  split at h
  · cases h
  · obtain rfl := Option.some_inj.1 h
    have hmem : ⟨name, priority, object⟩ ∈ emplaceItem ⟨name, priority, object⟩ t.items :=
      mem_emplaceItem.2 (.inl rfl)
    exact get?_of_mem (t := t.emplace _ _ _) hmem

end Table

end WazAISentinel.Router
