import WazAISentinel.Shared.IndexedQueueOp

/-!
# Updates of the indexed queue

The linked queue is told by the list of its nodes (`LinkedQueue.Holds`), and the index and the queue
belong together: every entry points to a node of the queue with the same data, and every node
belongs to the entry of its key. A call of `upsert_ex` that returns has stored its data, except that
one which slept and finds its key in the index when it goes on returns -1.
-/

namespace WazAISentinel.Shared.IndexedQueue

open Foundations Function List Option

namespace LinkedQueue

variable {δ : Type} {q q' : LinkedQueue δ} {a b : NodeId} {node : Node δ} {data : δ}
  {l l₁ l₂ : List NodeId}

/-! ## Writing to nodes -/

theorem modify_eq (f : Node δ → Node δ) (h : q.nodes a = some node) :
    q.modify a f = some (q.put a (f node)) := by
  rw [modify, h]
  rfl

theorem nextOf_put : (q.put a node).nextOf = Function.update q.nextOf a node.next :=
  comp_update (bind · Node.next) q.nodes a (some node)

theorem prevOf_put : (q.put a node).prevOf = Function.update q.prevOf a node.prev :=
  comp_update (bind · Node.prev) q.nodes a (some node)

theorem dataOf_put : (q.put a node).dataOf = Function.update q.dataOf a (some node.data) :=
  comp_update (Option.map Node.data) q.nodes a (some node)

theorem nextOf_free : (q.free a).nextOf = Function.update q.nextOf a none :=
  comp_update (bind · Node.next) q.nodes a none

theorem prevOf_free : (q.free a).prevOf = Function.update q.prevOf a none :=
  comp_update (bind · Node.prev) q.nodes a none

theorem dataOf_free : (q.free a).dataOf = Function.update q.dataOf a none :=
  comp_update (Option.map Node.data) q.nodes a none

theorem update_apply_some {β : Type} (f : NodeId → β) (v : β) (x : NodeId) :
    Function.update f a v x = if some a = some x then v else f x := by
  rw [update_apply]
  exact if_congr (eq_comm.trans some_inj.symm) rfl rfl

theorem exists_node (h : (q.dataOf a).isSome) : ∃ node, q.nodes a = some node := by
  obtain ⟨data, hdata⟩ := isSome_iff_exists.1 h
  obtain ⟨node, hnode, -⟩ := map_eq_some_iff.1 hdata
  exact ⟨node, hnode⟩

section

variable (h : q.nodes a = some node)

include h

theorem nextOf_eq : q.nextOf a = node.next := by rw [nextOf, h, bind_some]

theorem prevOf_eq : q.prevOf a = node.prev := by rw [prevOf, h, bind_some]

theorem dataOf_eq : q.dataOf a = some node.data := by rw [dataOf, h, map_some]

end

/-! ## The list of the queue -/

/-- The queue is the list `l` of nodes. -/
structure Holds (q : LinkedQueue δ) (l : List NodeId) : Prop where
  nodup : l.Nodup
  first : q.first = l.head?
  last : q.last = l.getLast?
  links : Strand q.nextOf q.prevOf none l none
  elements : q.elements = l.length
  fresh : ∀ a, q.allocated ≤ a → q.dataOf a = none
  present : ∀ a ∈ l, (q.dataOf a).isSome

theorem Holds.order_eq (h : q.Holds l) : q.order = l := by
  rw [order, h.elements, h.first, h.links.walk_eq]

theorem Holds.exists_node (h : q.Holds l) (ha : a ∈ l) : ∃ node, q.nodes a = some node :=
  LinkedQueue.exists_node (h.present a ha)

theorem Holds.lt_allocated (h : q.Holds l) (ha : a ∈ l) : a < q.allocated := by
  by_contra hge
  have hsome := h.present a ha
  rw [h.fresh a (Nat.le_of_not_lt hge)] at hsome
  cases hsome

theorem Holds.allocated_notMem (h : q.Holds l) : q.allocated ∉ l :=
  fun hmem => (h.lt_allocated hmem).false

/-- Other data in a node. -/
theorem Holds.setData (h : q.Holds l) (ha : a ∈ l) (hnode : q.nodes a = some node) (data : δ) :
    (q.put a { node with data := data }).Holds l ∧
      (q.put a { node with data := data }).dataOf = Function.update q.dataOf a (some data) := by
  have hnext : (q.put a { node with data := data }).nextOf = q.nextOf := by
    rw [nextOf_put, ← nextOf_eq hnode, update_eq_self]
  have hprev : (q.put a { node with data := data }).prevOf = q.prevOf := by
    rw [prevOf_put, ← prevOf_eq hnode, update_eq_self]
  refine ⟨⟨h.nodup, h.first, h.last, ?_, h.elements, ?_, ?_⟩, dataOf_put⟩
  · rw [hnext, hprev]
    exact h.links
  · intro b hb
    rw [dataOf_put, update_of_ne ((h.lt_allocated ha).trans_le hb).ne']
    exact h.fresh b hb
  · intro b hb
    by_cases hba : b = a
    · rw [dataOf_put, hba, update_self]
      rfl
    · rw [dataOf_put, update_of_ne hba]
      exact h.present b hb

/-- The nodes have other links; nothing else changes. -/
structure Relinked (q q' : LinkedQueue δ) (next prev : NodeId → Option NodeId)
    (first last : Option NodeId) : Prop where
  nextOf : ∀ x, q'.nextOf x = next x
  prevOf : ∀ x, q'.prevOf x = prev x
  first : q'.first = first
  last : q'.last = last
  dataOf : q'.dataOf = q.dataOf
  elements : q'.elements = q.elements
  allocated : q'.allocated = q.allocated

theorem linkNext_spec {prev : Option NodeId} (next : Option NodeId)
    (hprev : ∀ p, prev = some p → (q.dataOf p).isSome) :
    ∃ q', q.linkNext prev next = some q' ∧
      Relinked q q' (fun x => if prev = some x then next else q.nextOf x) q.prevOf
        (prev.elim next fun _ => q.first) q.last := by
  cases prev with
  | none =>
    exact ⟨{ q with first := next }, rfl, fun _ => rfl, fun _ => rfl, rfl, rfl, rfl, rfl, rfl⟩
  | some p =>
    obtain ⟨nodep, hnodep⟩ := exists_node (hprev p rfl)
    refine ⟨q.put p { nodep with next := next }, modify_eq _ hnodep, ?_, ?_, rfl, rfl, ?_, rfl, rfl⟩
    · intro x
      rw [nextOf_put, update_apply_some]
    · intro x
      rw [prevOf_put, ← prevOf_eq hnodep, update_eq_self]
    · rw [dataOf_put, ← dataOf_eq hnodep, update_eq_self]

theorem linkPrev_spec (prev : Option NodeId) {next : Option NodeId}
    (hnext : ∀ n, next = some n → (q.dataOf n).isSome) :
    ∃ q', q.linkPrev prev next = some q' ∧
      Relinked q q' q.nextOf (fun x => if next = some x then prev else q.prevOf x) q.first
        (next.elim prev fun _ => q.last) := by
  cases next with
  | none =>
    exact ⟨{ q with last := prev }, rfl, fun _ => rfl, fun _ => rfl, rfl, rfl, rfl, rfl, rfl⟩
  | some n =>
    obtain ⟨noden, hnoden⟩ := exists_node (hnext n rfl)
    refine ⟨q.put n { noden with prev := prev }, modify_eq _ hnoden, ?_, ?_, rfl, rfl, ?_, rfl, rfl⟩
    · intro x
      rw [nextOf_put, ← nextOf_eq hnoden, update_eq_self]
    · intro x
      rw [prevOf_put, update_apply_some]
    · rw [dataOf_put, ← dataOf_eq hnoden, update_eq_self]

/-- `linked_queue_append_node` links the last node and the new one. -/
theorem appendLinks_spec {new : NodeId} (hfirst : q.first = l.head?) (hlast : q.last = l.getLast?)
    (hpresent : ∀ a ∈ l, (q.dataOf a).isSome) (hnew : q.nodes new = some node) :
    ∃ q', q.appendLinks new = some q' ∧
      Relinked q q' (fun x => if x = new then none else if l.getLast? = some x then some new
        else q.nextOf x) (fun x => if x = new then l.getLast? else q.prevOf x)
        (l ++ [new]).head? (some new) := by
  -- the link to the new node: in the last one, or in the queue itself
  obtain ⟨q₁, hrun, hlink⟩ :=
    linkNext_spec (some new) fun p hp => hpresent p (mem_of_getLast? hp)
  obtain ⟨node₁, hnode₁⟩ : ∃ node₁, q₁.nodes new = some node₁ := by
    apply exists_node
    rw [hlink.dataOf, dataOf_eq hnew]
    rfl
  refine ⟨({ q₁ with last := some new } : LinkedQueue δ).put new
    { node₁ with prev := l.getLast?, next := none },
    ?_, ?_, ?_, hlink.first.trans ?_, rfl, ?_, hlink.elements, hlink.allocated⟩
  · cases l with
    | nil =>
      cases hrun
      rw [appendLinks, hfirst]
      exact modify_eq _ hnode₁
    | cons b l =>
      rw [getLast?_eq_some_getLast (cons_ne_nil b l)] at hlast hrun ⊢
      rw [appendLinks, hfirst, head?_cons]
      rw [linkNext] at hrun
      rw [hlast, some_bind, hrun, some_bind, modify_eq _ hnode₁]
      rfl
  · intro x
    rw [nextOf_put, update_apply, ← hlink.nextOf]
    rfl
  · intro x
    rw [prevOf_put, update_apply, ← hlink.prevOf]
    rfl
  · cases l with
    | nil => rfl
    | cons b l =>
      rw [getLast?_eq_some_getLast (cons_ne_nil b l), elim_some, hfirst, cons_append,
        head?_cons, head?_cons]
  · rw [dataOf_put, ← hlink.dataOf]
    exact (congrArg _ (dataOf_eq hnode₁).symm).trans (update_eq_self ..)

/-- `linked_queue_push` appends a node. -/
theorem push_spec (h : q.Holds l) (data : δ) :
    ∃ q', q.push data = some (q', q.allocated) ∧ q'.Holds (l ++ [q.allocated]) ∧
      q'.dataOf = Function.update q.dataOf q.allocated (some data) := by
  let q₁ : LinkedQueue δ :=
    { q.put q.allocated ⟨data, none, none⟩ with allocated := q.allocated + 1 }
  have hnot := h.allocated_notMem
  have hne : ∀ x ∈ l, x ≠ q.allocated := fun x hx hsame => hnot (hsame ▸ hx)
  have hnode : q₁.nodes q.allocated = some ⟨data, none, none⟩ := update_self ..
  have hnext : q₁.nextOf = Function.update q.nextOf q.allocated none := nextOf_put
  have hprev : q₁.prevOf = Function.update q.prevOf q.allocated none := prevOf_put
  have hdata : q₁.dataOf = Function.update q.dataOf q.allocated (some data) := dataOf_put
  have hpresent : ∀ a ∈ l, (q₁.dataOf a).isSome := by
    intro a ha
    rw [hdata, update_of_ne (hne a ha)]
    exact h.present a ha
  obtain ⟨q₂, happend, hlinks⟩ := appendLinks_spec (q := q₁) h.first h.last hpresent hnode
  have hdata₂ := hlinks.dataOf.trans hdata
  refine ⟨{ q₂ with elements := q₂.elements + 1 }, ?_,
    ⟨?_, hlinks.first, ?_, ?_, ?_, ?_, ?_⟩, hdata₂⟩
  · rw [push, happend]
    rfl
  · rw [← concat_eq_append]
    exact h.nodup.concat hnot
  · rw [getLast?_concat]
    exact hlinks.last
  · refine h.links.concat h.nodup ?_ ?_ ?_ ?_ ?_
    · intro x hx
      refine (hlinks.nextOf x).trans ?_
      rw [if_neg (hne x (mem_of_getLast? hx)), if_pos hx]
    · intro x hx hnotlast
      refine (hlinks.nextOf x).trans ?_
      rw [if_neg (hne x hx), if_neg hnotlast, hnext, update_of_ne (hne x hx)]
    · intro x hx
      refine (hlinks.prevOf x).trans ?_
      rw [if_neg (hne x hx), hprev, update_of_ne (hne x hx)]
    · exact (hlinks.prevOf _).trans (if_pos rfl)
    · exact (hlinks.nextOf _).trans (if_pos rfl)
  · rw [hlinks.elements, length_append, length_singleton, ← h.elements]
    rfl
  · intro a ha
    have hle : q.allocated + 1 ≤ a := hlinks.allocated.ge.trans ha
    have hother : a ≠ q.allocated := by omega
    refine (congrFun hdata₂ a).trans ?_
    rw [update_of_ne hother]
    exact h.fresh a (Nat.le_of_succ_le hle)
  · intro a ha
    change (q₂.dataOf a).isSome
    rw [hlinks.dataOf]
    rcases mem_append.1 ha with ha | ha
    · exact hpresent a ha
    · rw [mem_singleton.1 ha, hdata, update_self]
      rfl

/-- A node is unlinked and freed. -/
theorem unlink_spec (h : q.Holds (l₁ ++ a :: l₂)) :
    ∃ q', q.unlink a = some q' ∧ (q'.free a).Holds (l₁ ++ l₂) ∧
      (q'.free a).dataOf = Function.update q.dataOf a none := by
  have ha : a ∈ l₁ ++ a :: l₂ := mem_append_right _ mem_cons_self
  obtain ⟨node, hnode⟩ := h.exists_node ha
  obtain ⟨hprev, hnext⟩ := h.links.links
  rw [prevOf_eq hnode] at hprev
  rw [nextOf_eq hnode] at hnext
  have hmem : ∀ x ∈ l₁ ++ l₂, x ∈ l₁ ++ a :: l₂ ∧ x ≠ a :=
    fun x hx => (mem_append_iff_of_nodup h.nodup).1 hx
  have hbefore : ∀ p, l₁.getLast? = some p → (q.dataOf p).isSome := fun p hp =>
    h.present p (mem_append_left _ (mem_of_getLast? hp))
  have hafter : ∀ n, l₂.head? = some n → (q.dataOf n).isSome := fun n hn =>
    h.present n (mem_append_right _ (mem_cons_of_mem a (mem_of_head? hn)))
  obtain ⟨q₁, hrun₁, h₁⟩ := linkNext_spec l₂.head? hbefore
  rw [← h₁.dataOf] at hafter
  obtain ⟨q₂, hrun₂, h₂⟩ := linkPrev_spec l₁.getLast? hafter
  have hdata : (q₂.free a).dataOf = Function.update q.dataOf a none := by
    rw [dataOf_free, h₂.dataOf, h₁.dataOf]
  have hdata' : ∀ x ∈ l₁ ++ l₂, (q₂.free a).dataOf x = q.dataOf x := by
    intro x hx
    rw [hdata, update_of_ne (hmem x hx).2]
  refine ⟨{ q₂ with elements := q₂.elements - 1 }, ?_, ⟨?_, ?_, ?_, ?_, ?_, ?_, ?_⟩, hdata⟩
  · rw [unlink, hnode, some_bind, hprev, hnext, hrun₁, some_bind, hrun₂]
    rfl
  · exact (nodup_cons.1 (nodup_middle.1 h.nodup)).2
  · refine (h₂.first.trans h₁.first).trans ?_
    cases l₁ with
    | nil => rfl
    | cons b l₁ =>
      rw [getLast?_eq_some_getLast (cons_ne_nil b l₁), elim_some, h.first]
      rfl
  · refine (h₂.last.trans ?_)
    rw [h₁.last, h.last]
    cases l₂ with
    | nil => rw [append_nil]; rfl
    | cons b l₂ => simp [getLast?_append, getLast?_cons]
  · have hnextOf : ∀ x ∈ l₁ ++ l₂, (q₂.free a).nextOf x = if l₁.getLast? = some x then l₂.head?
        else q.nextOf x := by
      intro x hx
      rw [nextOf_free, update_of_ne (hmem x hx).2, h₂.nextOf, h₁.nextOf]
    have hprevOf : ∀ x ∈ l₁ ++ l₂, (q₂.free a).prevOf x = if l₂.head? = some x then l₁.getLast?
        else q.prevOf x := by
      intro x hx
      rw [prevOf_free, update_of_ne (hmem x hx).2, h₂.prevOf, h₁.prevOf]
    refine h.links.remove h.nodup ?_ ?_ ?_ ?_
    · intro x hx
      exact (hnextOf x (mem_append_left _ (mem_of_getLast? hx))).trans (if_pos hx)
    · intro x hx
      exact (hprevOf x (mem_append_right _ (mem_of_head? hx))).trans (if_pos hx)
    · exact fun x hx hnot => (hnextOf x hx).trans (if_neg hnot)
    · exact fun x hx hnot => (hprevOf x hx).trans (if_neg hnot)
  · change q₂.elements - 1 = _
    rw [h₂.elements, h₁.elements, h.elements, length_append, length_append, length_cons]
    omega
  · intro x hx
    change (q₂.free a).dataOf x = none
    rw [hdata, update_apply]
    split
    · rfl
    · refine h.fresh x ?_
      rw [← h₁.allocated, ← h₂.allocated]
      exact hx
  · intro x hx
    change ((q₂.free a).dataOf x).isSome
    rw [hdata' x hx]
    exact h.present x (hmem x hx).1

/-- `linked_queue_pop` unlinks and frees the first node. -/
theorem pop_spec (h : q.Holds (a :: l)) :
    ∃ q' data, q.pop = some (q', some data) ∧ q.dataOf a = some data ∧ q'.Holds l ∧
      q'.dataOf = Function.update q.dataOf a none := by
  obtain ⟨node, hnode⟩ := h.exists_node mem_cons_self
  have hsplit : q.Holds ([] ++ a :: l) := h
  obtain ⟨q', hrun, hholds, hdata⟩ := unlink_spec hsplit
  have hfirst : q.first = some a := h.first
  have hprev : node.prev = none := (prevOf_eq hnode).symm.trans hsplit.links.links.1
  refine ⟨q'.free a, node.data, ?_, dataOf_eq hnode, hholds, hdata⟩
  -- the node has none before it, so unlinking it is what `linked_queue_pop_node` does
  rw [unlink, hnode, some_bind, hprev] at hrun
  change ((linkPrev { q with first := node.next } none node.next).bind fun q =>
    some { q with elements := q.elements - 1 }) = some q' at hrun
  obtain ⟨q₂, hlink, hend⟩ := bind_eq_some_iff.1 hrun
  cases hend
  rw [pop, hfirst]
  dsimp only
  rw [hnode, some_bind]
  change (linkPrev { q with first := node.next } none node.next).bind _ = _
  rw [hlink]
  rfl

end LinkedQueue

/-! ## The index and the queue -/

namespace Queue

variable {κ δ : Type} {getKey : δ → κ} {q : Queue κ δ} {l : List NodeId} {key : κ} {data : δ}
  {entry : Entry κ δ}

/-- The index and the queue belong together. -/
structure Consistent (getKey : δ → κ) (q : Queue κ δ) (l : List NodeId) : Prop where
  holds : q.queue.Holds l
  size : q.currentSize = l.length
  entries : ∀ key entry, q.index key = some entry →
    entry.queueNode ∈ l ∧ q.queue.dataOf entry.queueNode = some entry.data ∧ getKey entry.data = key
  nodes : ∀ a ∈ l, ∀ data, q.queue.dataOf a = some data →
    ∃ entry, q.index (getKey data) = some entry ∧ entry.queueNode = a

/-- The data is stored under the key, in the entry and in its node. -/
def Stored (q : Queue κ δ) (key : κ) (data : δ) : Prop :=
  ∃ entry, q.index key = some entry ∧ entry.data = data ∧ q.queue.dataOf entry.queueNode = some data

/-- The node of an entry belongs to no other key. -/
theorem Consistent.node_eq_iff (h : q.Consistent getKey l) (hentry : q.index key = some entry)
    (key' : κ) (entry' : Entry κ δ) (hentry' : q.index key' = some entry') :
    entry'.queueNode = entry.queueNode ↔ key' = key := by
  constructor
  · intro hsame
    obtain ⟨-, hdata, hkey⟩ := h.entries key entry hentry
    obtain ⟨-, hdata', hkey'⟩ := h.entries key' entry' hentry'
    rw [hsame, hdata, some.injEq] at hdata'
    rw [← hkey, ← hkey', hdata']
  · rintro rfl
    cases hentry.symm.trans hentry'
    rfl

/-- The keys in the queue are different. -/
theorem Consistent.keys_nodup (h : q.Consistent getKey l) : (q.queue.items.map getKey).Nodup := by
  rw [LinkedQueue.items, h.holds.order_eq, map_filterMap, Nodup, pairwise_filterMap]
  refine h.holds.nodup.imp_of_mem ?_
  intro a b ha hb hne key hkey key' hkey' hsame
  obtain ⟨data, hdata, rfl⟩ := map_eq_some_iff.1 hkey
  obtain ⟨data', hdata', rfl⟩ := map_eq_some_iff.1 hkey'
  -- both nodes belong to the entry of the key
  obtain ⟨entry, hentry, rfl⟩ := h.nodes a ha data hdata
  obtain ⟨entry', hentry', rfl⟩ := h.nodes b hb data' hdata'
  rw [hsame, hentry'] at hentry
  cases hentry
  exact hne rfl

variable [DecidableEq κ] {queue : LinkedQueue δ}

/-- The entry of one key and its node are changed: `e` is the entry behind it, and `a` the node. -/
theorem Consistent.change (h : q.Consistent getKey l) {l' : List NodeId} {a : NodeId}
    {e : Option (Entry κ δ)} {size : Nat} (hholds : queue.Holds l') (hsize : size = l'.length)
    (hmem : ∀ x, x ≠ a → (x ∈ l' ↔ x ∈ l)) (hdata : ∀ x, x ≠ a → queue.dataOf x = q.queue.dataOf x)
    (hown : ∀ key' entry, q.index key' = some entry → (entry.queueNode = a ↔ key' = key))
    (hentry : ∀ entry, e = some entry → entry.queueNode = a ∧ a ∈ l' ∧
    queue.dataOf a = some entry.data ∧ getKey entry.data = key) (hnode : a ∈ l' → e ≠ none) :
    Consistent getKey { q with
      queue := queue, index := Function.update q.index key e, currentSize := size } l' := by
  refine ⟨hholds, hsize, ?_, ?_⟩
  · intro key' entry hindex
    change Function.update q.index key e key' = _ at hindex
    by_cases hkey : key' = key
    · subst hkey
      rw [update_self] at hindex
      obtain ⟨rfl, hspec⟩ := hentry entry hindex
      exact hspec
    · rw [update_of_ne hkey] at hindex
      have hne : entry.queueNode ≠ a := fun hsame => hkey ((hown key' entry hindex).1 hsame)
      obtain ⟨hold, hspec⟩ := h.entries key' entry hindex
      exact ⟨(hmem _ hne).2 hold, by rw [hdata _ hne]; exact hspec.1, hspec.2⟩
  · intro x hx data hxdata
    change ∃ entry, Function.update q.index key e (getKey data) = _ ∧ _
    by_cases hxa : x = a
    · subst hxa
      obtain ⟨entry, he⟩ := ne_none_iff_exists'.1 (hnode hx)
      obtain ⟨hsame, -, hown', hkey⟩ := hentry entry he
      cases hown'.symm.trans hxdata
      exact ⟨entry, by rw [hkey, update_self, he], hsame⟩
    · obtain ⟨entry, hindex, rfl⟩ :=
        h.nodes x ((hmem x hxa).1 hx) data (by rw [← hdata x hxa]; exact hxdata)
      refine ⟨entry, ?_, rfl⟩
      rw [update_of_ne fun hkey => hxa ((hown _ entry hindex).2 hkey)]
      exact hindex

/-- `indexed_queue_push` to a queue that is not full: a key that is there or cannot be copied is
refused. -/
theorem push_spec (h : q.Consistent getKey l) (hkey : getKey data = key) (hfull : q.full = false)
    (copied : Bool) :
    ∃ q' l' code, q.push key data copied = some (q', code) ∧ q'.Consistent getKey l' ∧
      (q.index key = none ∧ copied = true → code = 0 ∧ q'.Stored key data) ∧
      (¬ (q.index key = none ∧ copied = true) → code = -1) := by
  rw [push, hfull, if_neg Bool.false_ne_true]
  by_cases hsome : (q.index key).isSome = true
  · rw [if_pos hsome]
    refine ⟨q, l, -1, rfl, h, fun hand => ?_, fun _ => rfl⟩
    rw [hand.1] at hsome
    cases hsome
  rw [if_neg hsome]
  have hnone := not_isSome_iff_eq_none.1 hsome
  cases copied with
  | false => exact ⟨q, l, -1, rfl, h, fun hand => absurd hand.2 Bool.false_ne_true, fun _ => rfl⟩
  | true =>
    obtain ⟨queue, hpush, hholds, hdata⟩ := LinkedQueue.push_spec h.holds data
    have hself : queue.dataOf q.queue.allocated = some data := by
      rw [hdata, update_self]
    refine ⟨{ q with
        queue := queue
        index := Function.update q.index key (some ⟨key, data, q.queue.allocated⟩)
        currentSize := q.currentSize + 1 }, l ++ [q.queue.allocated], 0, ?_,
      h.change (a := q.queue.allocated) hholds ?_ ?_ ?_ ?_ ?_ ?_,
      fun _ => ⟨rfl, ⟨key, data, _⟩, update_self .., rfl, hself⟩,
      fun hnot => absurd ⟨hnone, rfl⟩ hnot⟩
    · rw [hpush]
      simp only [Bool.not_true, Bool.false_eq_true, if_false, some_bind]
      rw [rbtreeInsert, if_neg hsome]
      rfl
    · rw [length_append, ← h.size]
      rfl
    · intro x hx
      simp [hx]
    · intro x hx
      rw [hdata, update_of_ne hx]
    · -- no entry has the new node, and none is under the key
      intro key' entry hentry
      refine iff_of_false
        (fun hsame => h.holds.allocated_notMem (hsame ▸ (h.entries key' entry hentry).1)) ?_
      rintro rfl
      rw [hnone] at hentry
      cases hentry
    · rintro entry ⟨⟩
      exact ⟨rfl, mem_append_right _ (mem_singleton_self _), hself, hkey⟩
    · exact fun _ => some_ne_none _

/-- The entry of a key and its node get other data. -/
theorem update_stored (h : q.Consistent getKey l) (hkey : getKey data = key)
    (hentry : q.index key = some entry) :
    ∃ q', q.update key entry data = some q' ∧ q'.Consistent getKey l ∧ q'.Stored key data := by
  obtain ⟨hmem, -, -⟩ := h.entries key entry hentry
  obtain ⟨node, hnode⟩ := h.holds.exists_node hmem
  obtain ⟨hholds, hdata⟩ := h.holds.setData hmem hnode data
  let queue := q.queue.put entry.queueNode { node with data := data }
  have hself : queue.dataOf entry.queueNode = some data := by
    rw [hdata, update_self]
  refine ⟨{ q with
    queue := queue, index := Function.update q.index key (some { entry with data := data }) }, ?_,
    h.change hholds h.size (fun _ _ => Iff.rfl) ?_ (h.node_eq_iff hentry) ?_ ?_, ?_⟩
  · rw [update, LinkedQueue.modify_eq _ hnode]
    rfl
  · intro x hx
    rw [hdata, update_of_ne hx]
  · rintro entry' ⟨⟩
    exact ⟨rfl, hmem, hself, hkey⟩
  · exact fun _ => some_ne_none _
  · exact ⟨{ entry with data := data }, update_self .., rfl, hself⟩

/-- A node and the entry of its key are taken out. -/
theorem Consistent.remove {l₁ l₂ : List NodeId} {a : NodeId}
    (h : q.Consistent getKey (l₁ ++ a :: l₂)) (hentry : q.index key = some entry)
    (hnode : entry.queueNode = a) (hholds : queue.Holds (l₁ ++ l₂))
    (hdata : queue.dataOf = Function.update q.queue.dataOf a none) :
    Consistent getKey { q with
      queue := queue, index := rbtreeDelete q.index key, currentSize := q.currentSize - 1 }
      (l₁ ++ l₂) := by
  subst hnode
  have hmem : ∀ x, x ∈ l₁ ++ l₂ ↔ x ∈ l₁ ++ entry.queueNode :: l₂ ∧ x ≠ entry.queueNode := fun x =>
    mem_append_iff_of_nodup h.holds.nodup
  refine h.change hholds ?_ ?_ ?_ (h.node_eq_iff hentry) ?_ ?_
  · rw [h.size, length_append, length_append, length_cons]
    omega
  · exact fun x hx => (hmem x).trans (and_iff_left hx)
  · intro x hx
    rw [hdata, update_of_ne hx]
  · rintro entry' ⟨⟩
  · exact fun hin => absurd rfl ((hmem _).1 hin).2

/-- `indexed_queue_pop` takes the first item and its entry. -/
theorem pop_spec (h : q.Consistent getKey l) (hempty : q.empty = false) :
    ∃ q' popped l', q.pop getKey = some (q', popped) ∧ q'.Consistent getKey l' := by
  cases l with
  | nil =>
    rw [empty, h.size] at hempty
    cases hempty
  | cons a l =>
    obtain ⟨queue, data, hpop, hdata, hholds, hqueue⟩ := LinkedQueue.pop_spec h.holds
    obtain ⟨entry, hentry, hnode⟩ := h.nodes a mem_cons_self data hdata
    have hsplit : q.Consistent getKey ([] ++ a :: l) := h
    refine ⟨_, some data, l, ?_, hsplit.remove hentry hnode hholds hqueue⟩
    rw [pop, hempty, if_neg Bool.false_ne_true, hpop]
    rfl

/-- `indexed_queue_delete` takes the item of a key. -/
theorem delete_spec (h : q.Consistent getKey l) :
    ∃ q' disposed code l', q.delete key = some (q', disposed, code) ∧ q'.Consistent getKey l' := by
  rw [delete]
  cases hentry : q.index key with
  | none => exact ⟨q, [], 0, l, rfl, h⟩
  | some entry =>
    obtain ⟨hmem, -, -⟩ := h.entries key entry hentry
    obtain ⟨l₁, l₂, rfl⟩ := append_of_mem hmem
    obtain ⟨queue, hrun, hholds, hdata⟩ := LinkedQueue.unlink_spec h.holds
    refine ⟨_, q.disposes entry.data, 1, l₁ ++ l₂, ?_, h.remove hentry rfl hholds hdata⟩
    dsimp only
    rw [hrun]
    rfl

end Queue

/-! ## Runs -/

variable {κ δ : Type} {getKey : δ → κ}

/-- What holds between the steps. -/
structure State.Good (getKey : δ → κ) (s : State κ δ) : Prop where
  fault : s.fault = false
  consistent : ∃ l, s.queue.Consistent getKey l
  keys : ∀ call ∈ s.calls, getKey call.data = call.key

/-- The items are stored under the keys `get_key` gives. -/
def Action.Keyed (getKey : δ → κ) : Action κ δ → Prop
  | .upsert key data _ => getKey data = key
  | _ => True

/-- A call that slept does not find its key in the index when it goes on, and a key that is to be
inserted can be copied. -/
def Undisturbed (s : State κ δ) : Action κ δ → Prop
  | .upsert key _ copied => s.queue.index key = none → copied = true
  | .resume i copied =>
    ∀ call, s.calls[i]? = some call → s.queue.index call.key = none ∧ copied = true
  | _ => True

/-- A call of `upsert_ex` returns in a step. -/
def Returns (s t : State κ δ) (key : κ) (data : δ) (code : Int) : Prop :=
  ∃ i : Nat, t.calls[i]? = some ⟨key, data, .returned code⟩ ∧ s.calls[i]? ≠ t.calls[i]?

variable {call : Upsert κ δ} {code : Int} {i : Nat} {copied : Bool} {data : δ} {key : κ}

theorem returns_append {s t : State κ δ} (hcalls : t.calls = s.calls ++ [call])
    (h : Returns s t key data code) : call = ⟨key, data, .returned code⟩ := by
  obtain ⟨i, hcall, hnew⟩ := h
  rw [hcalls] at hcall hnew
  rcases Nat.lt_or_ge i s.calls.length with hi | hi
  · rw [getElem?_append_left hi] at hnew
    exact absurd rfl hnew
  · rw [getElem?_append_right hi] at hcall
    exact (mem_singleton.1 (mem_of_getElem? hcall)).symm

theorem returns_set {s t : State κ δ} (hcalls : t.calls = s.calls.set i call)
    (h : Returns s t key data code) : call = ⟨key, data, .returned code⟩ := by
  obtain ⟨j, hcall, hnew⟩ := h
  rw [hcalls] at hcall hnew
  by_cases hij : i = j
  · subst hij
    rcases Nat.lt_or_ge i s.calls.length with hi | hi
    · rw [getElem?_set_self hi] at hcall
      exact some.inj hcall
    · rw [getElem?_eq_none (by rw [length_set]; exact hi)] at hcall
      cases hcall
  · rw [getElem?_set_ne hij] at hnew
    exact absurd rfl hnew

variable [DecidableEq κ] {s t : State κ δ} {action : Action κ δ}

/-- What a call that returns in a step has done and answers. -/
def Answers (s t : State κ δ) (action : Action κ δ) : Prop :=
  ∀ key data code, Returns s t key data code →
    (Undisturbed s action → (code = 0 ∨ code = 1) ∧ t.queue.Stored key data) ∧
      (¬ Undisturbed s action → code = -1)

omit [DecidableEq κ] in
theorem answers_of_calls_eq (hcalls : t.calls = s.calls) : Answers s t action := by
  rintro key data code ⟨i, -, hnew⟩
  rw [hcalls] at hnew
  exact absurd rfl hnew

theorem upsert_spec (h : s.Good getKey) (hkey : getKey data = key) :
    (s.upsert key data copied).Good getKey ∧
      Answers s (s.upsert key data copied) (.upsert key data copied) := by
  obtain ⟨l, hl⟩ := h.consistent
  have hkeys : ∀ status, ∀ call ∈ s.calls ++ [⟨key, data, status⟩], getKey call.data = call.key :=
    fun status => forall_mem_append.2 ⟨h.keys, forall_mem_singleton.2 hkey⟩
  rw [State.upsert]
  cases hindex : s.queue.index key with
  | some entry =>
    -- the item of the key is replaced, even if the queue is full
    obtain ⟨queue, hupdate, hqueue, hstored⟩ := Queue.update_stored hl hkey hindex
    dsimp only
    rw [hupdate]
    refine ⟨⟨h.fault, ⟨l, hqueue⟩, hkeys _⟩, ?_⟩
    intro key' data' code hreturns
    cases returns_append rfl hreturns
    refine ⟨fun _ => ⟨.inr rfl, hstored⟩, fun hnot => absurd ?_ hnot⟩
    intro hnone
    rw [hindex] at hnone
    cases hnone
  | none =>
    cases hfull : s.queue.full with
    | true =>
      -- the call falls asleep and does not return
      refine ⟨⟨h.fault, ⟨l, hl⟩, hkeys _⟩, ?_⟩
      intro key' data' code hreturns
      cases returns_append rfl hreturns
    | false =>
      obtain ⟨queue, l', code, hpush, hqueue, hyes, hno⟩ := Queue.push_spec hl hkey hfull copied
      rw [hpush]
      refine ⟨⟨h.fault, ⟨l', hqueue⟩, hkeys _⟩, ?_⟩
      intro key' data' code' hreturns
      cases returns_append rfl hreturns
      exact ⟨fun hundisturbed => (hyes ⟨hindex, hundisturbed hindex⟩).imp_left .inl,
        fun hnot => hno fun hand => hnot fun _ => hand.2⟩

theorem resume_spec (h : s.Good getKey) (hcall : s.calls[i]? = some call) :
    (s.resume i call copied).Good getKey ∧
      Answers s (s.resume i call copied) (.resume i copied) := by
  obtain ⟨l, hl⟩ := h.consistent
  have hkey := h.keys call (mem_of_getElem? hcall)
  have hkeys : ∀ status, ∀ call' ∈ s.calls.set i { call with status := status },
      getKey call'.data = call'.key := by
    intro status call' hcall'
    rcases mem_or_eq_of_mem_set hcall' with hold | rfl
    · exact h.keys call' hold
    · exact hkey
  rw [State.resume]
  cases hfull : s.queue.full with
  | true => exact ⟨h, answers_of_calls_eq rfl⟩
  | false =>
    -- only the fullness was tested again: a key that was inserted in the meantime makes `push`
    -- refuse the item
    obtain ⟨queue, l', code, hpush, hqueue, hyes, hno⟩ := Queue.push_spec hl hkey hfull copied
    rw [hpush]
    refine ⟨⟨h.fault, ⟨l', hqueue⟩, hkeys _⟩, ?_⟩
    intro key' data' code' hreturns
    cases returns_set rfl hreturns
    refine ⟨fun hundisturbed => (hyes (hundisturbed call hcall)).imp_left .inl,
      fun hnot => hno fun hand => hnot ?_⟩
    intro call' hcall'
    cases hcall.symm.trans hcall'
    exact hand

/-- Every step keeps index and queue together, and the calls that return in it have stored their
data unless they were disturbed. -/
theorem step_spec (h : s.Good getKey) (hkeyed : action.Keyed getKey)
    (hstep : s.step getKey action = some t) : t.Good getKey ∧ Answers s t action := by
  have hfault : ¬ s.fault = true := by
    rw [h.fault]
    exact Bool.false_ne_true
  obtain ⟨l, hl⟩ := h.consistent
  cases action with
  | upsert key data copied =>
    rw [State.step, if_neg hfault] at hstep
    cases hstep
    exact upsert_spec h hkeyed
  | resume i copied =>
    rw [State.step, if_neg hfault] at hstep
    split at hstep
    · cases hstep
    · rename_i call hcall
      obtain ⟨-, hresume⟩ := ite_none_right_eq_some.1 hstep
      cases hresume
      exact resume_spec h hcall
  | pop =>
    rw [State.step, if_neg hfault] at hstep
    cases hstep
    rw [State.pop]
    cases hempty : s.queue.empty with
    | true => exact ⟨h, answers_of_calls_eq rfl⟩
    | false =>
      obtain ⟨queue, popped, l', hpop, hqueue⟩ := Queue.pop_spec hl hempty
      rw [if_neg Bool.false_ne_true, hpop]
      exact ⟨⟨h.fault, ⟨l', hqueue⟩, h.keys⟩, answers_of_calls_eq rfl⟩
  | delete key =>
    rw [State.step, if_neg hfault] at hstep
    cases hstep
    obtain ⟨queue, disposed, code, l', hdelete, hqueue⟩ := Queue.delete_spec hl
    rw [State.delete, hdelete]
    exact ⟨⟨h.fault, ⟨l', hqueue⟩, h.keys⟩, answers_of_calls_eq rfl⟩

omit [DecidableEq κ] in
theorem good_init (maxSize : Nat) (dispose : Bool) :
    (init maxSize dispose : State κ δ).Good getKey where
  fault := rfl
  consistent := ⟨[], {
    holds := ⟨nodup_nil, rfl, rfl, trivial, rfl, fun _ _ => rfl, fun _ h => absurd h not_mem_nil⟩
    size := rfl
    entries := fun _ _ h => by cases h
    nodes := fun _ h => absurd h not_mem_nil }⟩
  keys _ h := absurd h not_mem_nil

theorem run_good {maxSize : Nat} {dispose : Bool} {actions : List (Action κ δ)}
    (hkeyed : ∀ action ∈ actions, action.Keyed getKey)
    (hrun : (system getKey maxSize dispose).run actions = some s) : s.Good getKey := by
  have hmeet : (system getKey maxSize dispose).StepsMeet (fun _ action => action.Keyed getKey)
      (init maxSize dispose) actions :=
    TransitionSystem.stepsMeet_of_forall_mem _ actions _ fun action haction _ =>
      hkeyed action haction
  refine TransitionSystem.runFrom_induction_of_stepsMeet _ ?_ (good_init maxSize dispose) hmeet hrun
  intro s action t hs hkey hstep
  exact (step_spec hs hkey hstep).1

/-- In every state of every run the keys in the queue are different, and the entry of a key and its
node hold the same data. A call of `upsert_ex` that returns has stored its data under its key and
returns 0 or 1 if the step is undisturbed; otherwise it returns -1. -/
theorem upsert_ex_stores_iff (getKey : δ → κ) (maxSize : Nat) (dispose : Bool)
    (actions : List (Action κ δ)) (hkeyed : ∀ action ∈ actions, action.Keyed getKey) (s : State κ δ)
    (hrun : (system getKey maxSize dispose).run actions = some s) :
    s.fault = false ∧ (s.queue.queue.items.map getKey).Nodup ∧
    (∀ key entry, s.queue.index key = some entry →
      entry.queueNode ∈ s.queue.queue.order ∧
        s.queue.queue.dataOf entry.queueNode = some entry.data ∧ getKey entry.data = key) ∧
    (∀ action t, action.Keyed getKey → s.step getKey action = some t →
      ∀ key data code, Returns s t key data code →
        (Undisturbed s action ↔ (code = 0 ∨ code = 1) ∧ t.queue.Stored key data) ∧
        (¬ Undisturbed s action ↔ code = -1)) := by
  have hgood := run_good hkeyed hrun
  obtain ⟨l, hl⟩ := hgood.consistent
  refine ⟨hgood.fault, hl.keys_nodup, ?_, ?_⟩
  · rw [hl.holds.order_eq]
    exact hl.entries
  · intro action t hkey hstep key data code hreturns
    obtain ⟨hyes, hno⟩ := (step_spec hgood hkey hstep).2 key data code hreturns
    by_cases hundisturbed : Undisturbed s action
    · obtain ⟨hcode, hstored⟩ := hyes hundisturbed
      have hne : code ≠ -1 := by
        rcases hcode with rfl | rfl <;> decide
      exact ⟨iff_of_true hundisturbed ⟨hcode, hstored⟩, iff_of_false (not_not.2 hundisturbed) hne⟩
    · have hcode := hno hundisturbed
      refine ⟨iff_of_false hundisturbed fun hand => ?_, iff_of_true hundisturbed hcode⟩
      rw [hcode] at hand
      exact absurd hand.1 (by decide)

/-- The queue is full, a call sleeps, an item is popped and the call stores its item. -/
theorem upsert_ex_stores_after_sleep :
    ∃ s t : State Nat (Nat × Nat),
      (system Prod.fst 2 true).run
        [.upsert 1 (1, 10) true, .upsert 3 (3, 30) true, .upsert 2 (2, 20) true, .pop] = some s ∧
      s.step Prod.fst (.resume 2 true) = some t ∧ Returns s t 2 (2, 20) 0 ∧
        t.queue.Stored 2 (2, 20) := by
  refine ⟨_, _, rfl, rfl, ⟨2, rfl, by decide⟩, ?_⟩
  refine ((((upsert_ex_stores_iff Prod.fst 2 true [.upsert 1 (1, 10) true, .upsert 3 (3, 30) true,
    .upsert 2 (2, 20) true, .pop] ?_ _ rfl).2.2.2 (.resume 2 true) _ trivial rfl 2 (2, 20) 0
    ⟨2, rfl, by decide⟩).1).1 ?_).2
  · simp [Action.Keyed]
  · intro call hcall
    cases hcall
    exact ⟨rfl, rfl⟩

/-- Two calls sleep with the same key. The first one that goes on inserts it; the second one returns
-1, and its item is lost. -/
theorem upsert_ex_loses_update :
    ∃ s : State Nat (Nat × Nat),
      (system Prod.fst 2 true).run
        [.upsert 1 (1, 10) true, .upsert 3 (3, 30) true, .upsert 2 (2, 20) true,
        .upsert 2 (2, 21) true, .pop, .resume 2 true, .pop, .resume 3 true] = some s ∧
      s.calls[3]? = some ⟨2, (2, 21), .returned (-1)⟩ ∧ s.queue.queue.items = [(2, 20)] ∧
      s.popped = [(1, 10), (3, 30)] ∧ s.disposed = [] :=
  ⟨_, rfl, rfl, rfl, rfl, rfl⟩

end WazAISentinel.Shared.IndexedQueue
