import WazAISentinel.Shared.BatchQueueOp

/-!
# The ring of the batch queue

`Linked s l`: the pointers of the scheduler and the links of the slots are those of the circular
list `l`, and `in_ring` says which slots are in it. `AtHead s`: the cursor is at the head of the
ring, and the tail is before it. `ring_append`, `ring_find_prev` and `ring_remove_node` are told by
what they do to this list.
-/

namespace WazAISentinel.Shared.BatchQueue

open Foundations Function List

variable {κ : Type}

/-- What a scheduler is apart from its ring. -/
structure Agents (κ : Type) where
  contents : SlotId → Option (κ × List Item)
  allocated : Nat
  agentIndex : κ → Option SlotId
  maxItemsGlobal : BitVec 64
  maxItemsPerAgent : Nat
  itemsGlobal : BitVec 64
  dispose : Bool

namespace Scheduler

/-- The scheduler apart from its ring. -/
def agents (s : Scheduler κ) : Agents κ :=
  ⟨s.contents, s.allocated, s.agentIndex, s.maxItemsGlobal, s.maxItemsPerAgent,
    s.itemsGlobal, s.dispose⟩

variable {s s' : Scheduler κ} {a b node prev : SlotId} {slot slot' : Slot κ} {l : List SlotId}

/-! ## Writing to slots -/

theorem modify_eq (f : Slot κ → Slot κ) (h : s.slots a = some slot) :
    s.modify a f = some (s.put a (f slot)) := by
  rw [modify, h]
  rfl

@[simp] theorem slots_put_self : (s.put a slot).slots a = some slot := update_self ..

@[simp] theorem slots_put_of_ne (h : b ≠ a) : (s.put a slot).slots b = s.slots b :=
  update_of_ne h ..

@[simp] theorem slots_remove_self : (s.remove a).slots a = none := update_self ..

@[simp] theorem slots_remove_of_ne (h : b ≠ a) : (s.remove a).slots b = s.slots b :=
  update_of_ne h ..

@[simp] theorem nextOf_put_self : (s.put a slot).nextOf a = slot.next := by
  rw [nextOf, slots_put_self, Option.bind_some]

@[simp] theorem nextOf_put_of_ne (h : b ≠ a) : (s.put a slot).nextOf b = s.nextOf b := by
  rw [nextOf, slots_put_of_ne h, nextOf]

theorem nextOf_eq (h : s.slots a = some slot) : s.nextOf a = slot.next := by
  rw [nextOf, h, Option.bind_some]

theorem contents_eq (h : s.slots a = some slot) : s.contents a = some (slot.key, slot.q) := by
  rw [contents, h, Option.map_some]

theorem exists_slot_of_contents {content : κ × List Item} (h : s.contents a = some content) :
    ∃ slot, s.slots a = some slot ∧ (slot.key, slot.q) = content :=
  Option.map_eq_some_iff.1 h

/-- Changes to the ring keep the key and the queue of a slot. -/
theorem exists_slot_of_agents (h : s'.agents = s.agents) (hslot : s.slots a = some slot) :
    ∃ slot', s'.slots a = some slot' ∧ slot'.key = slot.key ∧ slot'.q = slot.q := by
  have hcontents : s'.contents a = s.contents a := congrFun (congrArg Agents.contents h) a
  obtain ⟨slot', hslot', hsame⟩ := exists_slot_of_contents (hcontents.trans (contents_eq hslot))
  exact ⟨slot', hslot', Prod.mk.inj hsame⟩

theorem contents_put : (s.put a slot).contents = update s.contents a (some (slot.key, slot.q)) :=
  comp_update (Option.map fun slot : Slot κ => (slot.key, slot.q)) s.slots a (some slot)

theorem agents_put :
    (s.put a slot).agents =
      { s.agents with contents := update s.agents.contents a (some (slot.key, slot.q)) } := by
  rw [agents, contents_put]
  rfl

/-- Writing links and flags only. -/
theorem agents_put_of_eq (h : s.slots a = some slot) (hkey : slot'.key = slot.key)
    (hq : slot'.q = slot.q) : (s.put a slot').agents = s.agents := by
  have hsame : s.agents.contents a = some (slot'.key, slot'.q) := by
    rw [hkey, hq]
    exact contents_eq h
  rw [agents_put, ← hsame, update_eq_self]

theorem agents_remove :
    (s.remove a).agents = { s.agents with contents := update s.agents.contents a none } := by
  have hcontents : (s.remove a).contents = update s.contents a none :=
    comp_update (Option.map fun slot : Slot κ => (slot.key, slot.q)) s.slots a none
  rw [agents, hcontents]
  rfl

theorem agents_makeSlot [DecidableEq κ] (key : κ) :
    (s.makeSlot key).agents =
      { s.agents with
        contents := update s.agents.contents s.agents.allocated (some (key, []))
        allocated := s.agents.allocated + 1 } := by
  have hcontents :
    (s.makeSlot key).contents = (s.put s.allocated ⟨key, [], none, false⟩).contents := rfl
  rw [agents, hcontents, contents_put]
  rfl

/-! ## The list of the ring -/

/-- The ring is the circular list `l`. -/
structure Linked (s : Scheduler κ) (l : List SlotId) : Prop where
  nodup : l.Nodup
  head : s.ringHead = l.head?
  tail : s.ringTail = l.getLast?
  links : Circular s.nextOf l
  count : s.ringSlots = l.length
  flags : ∀ a slot, s.slots a = some slot → (slot.inRing = true ↔ a ∈ l)

/-- The cursor is at the head, and the tail is the slot before it. -/
def AtHead (s : Scheduler κ) : Prop := s.cursor = s.ringHead ∧ s.prevCursor = s.ringTail

theorem Linked.ring_eq (h : s.Linked l) : s.ring = l := by
  rw [ring, h.count, h.head, h.links.walk_eq]

theorem Linked.exists_slot (h : s.Linked l) (ha : a ∈ l) : ∃ slot, s.slots a = some slot := by
  obtain ⟨b, hb⟩ := h.links.exists_next ha
  obtain ⟨slot, hslot, -⟩ := Option.bind_eq_some_iff.1 hb
  exact ⟨slot, hslot⟩

/-- What does not touch the slots and the pointers of the ring. -/
theorem Linked.congr (h : s.Linked l) (hhead : s'.ringHead = s.ringHead)
    (htail : s'.ringTail = s.ringTail) (hcount : s'.ringSlots = s.ringSlots)
    (hnext : ∀ a ∈ l, s'.nextOf a = s.nextOf a)
    (hflags : ∀ a slot, s'.slots a = some slot → (slot.inRing = true ↔ a ∈ l)) : s'.Linked l where
  nodup := h.nodup
  head := hhead.trans h.head
  tail := htail.trans h.tail
  links := h.links.congr hnext
  count := hcount.trans h.count
  flags := hflags

/-- The flags after a slot is written. -/
theorem flags_put {l' : List SlotId}
    (h : ∀ b slotb, s.slots b = some slotb → (slotb.inRing = true ↔ b ∈ l))
    (ha : slot.inRing = true ↔ a ∈ l') (hsame : ∀ b, b ≠ a → (b ∈ l ↔ b ∈ l')) :
    ∀ b slotb, (s.put a slot).slots b = some slotb → (slotb.inRing = true ↔ b ∈ l') := by
  intro b slotb hb
  by_cases hba : b = a
  · subst hba
    rw [slots_put_self, Option.some.injEq] at hb
    rw [← hb]
    exact ha
  · rw [slots_put_of_ne hba] at hb
    exact (h b slotb hb).trans (hsame b hba)

/-! ## Appending -/

/-- `ring_append` to the empty ring. -/
theorem ringAppend_nil (h : s.Linked []) (hslot : s.slots a = some slot) :
    ∃ s', s.ringAppend a = some s' ∧ s'.Linked [a] ∧ s'.AtHead ∧ s'.agents = s.agents := by
  have hhead : s.ringHead = none := h.head
  have hcount : s.ringSlots = 0 := h.count
  let s₁ : Scheduler κ :=
    { s.put a { slot with next := some a } with
      ringHead := some a, ringTail := some a, cursor := some a, prevCursor := some a }
  have hslot₁ : s₁.slots a = some { slot with next := some a } := slots_put_self
  let s₂ := s₁.put a { slot with next := some a, inRing := true }
  have hnext : s₂.nextOf a = some a := nextOf_put_self
  refine ⟨{ s₂ with ringSlots := s₂.ringSlots + 1 }, ?_, ?_, ?_, ?_⟩
  · have hlink : s.ringLink a = some s₁ := by
      rw [ringLink, hhead]
      rw [modify_eq _ hslot]
      rfl
    rw [ringAppend, hlink, some_bind, modify_eq _ hslot₁]
    rfl
  · refine ⟨nodup_singleton a, rfl, rfl, circular_singleton.2 hnext, ?_, ?_⟩
    · change s.ringSlots + 1 = 1
      rw [hcount]
    · apply flags_put (s := s₁) (flags_put h.flags (h.flags a slot hslot) fun _ _ => Iff.rfl)
      · simp
      · simp
  · exact ⟨rfl, rfl⟩
  · have hflag : s₂.agents = s₁.agents := agents_put_of_eq hslot₁ rfl rfl
    have hlink : s₁.agents = s.agents := agents_put_of_eq hslot rfl rfl
    exact hflag.trans hlink

/-- `ring_append` behind the last slot. -/
theorem ringAppend_cons {first last : SlotId} (h : s.Linked (first :: l)) (hcursor : s.AtHead)
    (hslot : s.slots a = some slot) (ha : a ∉ first :: l)
    (hlast : (first :: l).getLast? = some last) :
    ∃ s', s.ringAppend a = some s' ∧ s'.Linked (first :: l ++ [a]) ∧ s'.AtHead ∧
      s'.agents = s.agents := by
  have hlastmem : last ∈ first :: l := mem_of_getLast? hlast
  have hne : a ≠ last := fun hsame => ha (hsame ▸ hlastmem)
  obtain ⟨slotl, hslotl⟩ := h.exists_slot hlastmem
  have htail : s.ringTail = some last := h.tail.trans hlast
  let s₁ := (s.put a { slot with next := some first }).put last { slotl with next := some a }
  let s₂ : Scheduler κ :=
    { s₁ with ringTail := some a, prevCursor := if s.cursor = some first then some a
      else s.prevCursor }
  have hslot₂ : s₂.slots a = some { slot with next := some first } :=
    (slots_put_of_ne hne).trans slots_put_self
  let s₃ := s₂.put a { slot with next := some first, inRing := true }
  have hnexta : s₃.nextOf a = some first := nextOf_put_self
  have hnextl : s₃.nextOf last = some a := (nextOf_put_of_ne hne.symm).trans nextOf_put_self
  have hnext : ∀ b ∈ first :: l, b ≠ last → s₃.nextOf b = s.nextOf b := by
    intro b hb hbl
    have hba : b ≠ a := fun hsame => ha (hsame ▸ hb)
    exact ((nextOf_put_of_ne hba).trans (nextOf_put_of_ne hbl)).trans (nextOf_put_of_ne hba)
  refine ⟨{ s₃ with ringSlots := s₃.ringSlots + 1 }, ?_, ?_, ?_, ?_⟩
  · have hlink : s.ringLink a = some s₂ := by
      rw [ringLink, h.head, head?_cons]
      dsimp only
      rw [modify_eq _ hslot, some_bind]
      change (s.ringTail >>= _) = _
      rw [htail, some_bind, modify_eq _ ((slots_put_of_ne hne.symm).trans hslotl)]
      rfl
    rw [ringAppend, hlink, some_bind, modify_eq _ hslot₂]
    rfl
  · refine ⟨?_, ?_, ?_, ?_, ?_, ?_⟩
    · rw [← concat_eq_append]
      exact h.nodup.concat ha
    · exact h.head
    · exact (getLast?_concat ..).symm
    · exact h.links.concat h.nodup hlast hnexta hnextl hnext
    · rw [length_append, ← h.count]
      rfl
    · apply flags_put (s := s₂) (flags_put (flags_put h.flags (h.flags a slot hslot) fun _ _ =>
        Iff.rfl) (h.flags last slotl hslotl) fun _ _ => Iff.rfl)
      · simp
      · intro b hb
        simp [hb]
  · exact ⟨hcursor.1, if_pos (hcursor.1.trans h.head)⟩
  · have hflag : s₃.agents = s₂.agents := agents_put_of_eq hslot₂ rfl rfl
    have hlinkl : s₂.agents = (s.put a { slot with next := some first }).agents :=
      agents_put_of_eq ((slots_put_of_ne hne.symm).trans hslotl) rfl rfl
    exact (hflag.trans hlinkl).trans (agents_put_of_eq hslot rfl rfl)

theorem ringAppend_spec (h : s.Linked l) (hcursor : s.AtHead) (hslot : s.slots a = some slot)
    (ha : a ∉ l) :
    ∃ s', s.ringAppend a = some s' ∧ s'.Linked (l ++ [a]) ∧ s'.AtHead ∧ s'.agents = s.agents := by
  cases l with
  | nil => exact ringAppend_nil h hslot
  | cons first l =>
    exact ringAppend_cons h hcursor hslot ha (getLast?_eq_some_getLast (cons_ne_nil first l))

/-! ## Removing -/

/-- The pointers before a removal: as they are between the sections, or moved on from the head by
`drain_next_ex`. -/
def Removable (s : Scheduler κ) (node : SlotId) : Prop :=
  s.AtHead ∨ (s.ringHead = some node ∧ s.cursor = s.nextOf node ∧ s.prevCursor = s.ringTail)

/-- The pointers pass over the node alike. -/
theorem Removable.passNode {next : SlotId} (h : s.Removable node) (prev : SlotId)
    (hnext : s.nextOf node = some next) : (s.passNode node prev (some next)).AtHead := by
  rcases h with ⟨hcursor, hprev⟩ | ⟨hhead, hmoved, hprev⟩
  · exact ⟨by simp only [Scheduler.passNode, hcursor], by simp only [Scheduler.passNode, hprev]⟩
  · exact ⟨by
      simp [Scheduler.passNode, hhead, hmoved, hnext], by simp only [Scheduler.passNode, hprev]⟩

section

variable (h : s.Linked l) (hnode : node ∈ l)

include h hnode

/-- `ring_remove_node` of the only slot. -/
theorem ringRemoveNode_self (hself : s.nextOf node = some node) :
    ∃ s', s.ringRemoveNode node (some node) = some s' ∧ s'.Linked (l.erase node) ∧ s'.AtHead ∧
      s'.agents = s.agents := by
  obtain ⟨slot, hslot⟩ := h.exists_slot hnode
  -- no other slot is linked to the node, so there is no other slot
  obtain rfl : l = [node] := by
    obtain ⟨before, after, rfl⟩ := append_of_mem hnode
    have hlast := h.links.getLast?_rotate h.nodup hnode hself
    have hnodup : (node :: (after ++ before)).Nodup := perm_append_comm.nodup h.nodup
    cases hrest : after ++ before with
    | nil =>
      obtain ⟨rfl, rfl⟩ := append_eq_nil_iff.1 hrest
      rfl
    | cons b rest =>
      rw [hrest, getLast?_cons_cons] at hlast
      rw [hrest] at hnodup
      exact absurd (mem_of_getLast? hlast) (nodup_cons.1 hnodup).1
  let s₁ : Scheduler κ :=
    { s with
      ringHead := none, ringTail := none, cursor := none, prevCursor := none, ringSlots := 0 }
  let s₂ := s₁.put node { slot with inRing := false, next := none }
  have hhead : s.ringHead = some node := h.head
  have herase : [node].erase node = [] := erase_cons_head ..
  rw [herase]
  refine ⟨s₂, ?_, ?_, ⟨rfl, rfl⟩, ?_⟩
  · unfold ringRemoveNode
    rw [hhead]
    dsimp only
    rw [if_pos rfl]
    exact modify_eq (s := s₁) _ hslot
  · refine ⟨nodup_nil, rfl, rfl, circular_nil, rfl, ?_⟩
    apply flags_put (s := s₁) h.flags
    · simp
    · simp
  · exact agents_put_of_eq (s := s₁) hslot rfl rfl

section

variable (hprev : prev ∈ l) (hlink : s.nextOf prev = some node) (hcursor : s.Removable node)

include hprev hlink hcursor

/-- `ring_remove_node` of a slot that is not the only one. -/
theorem ringRemoveNode_other (hne : node ≠ prev) :
    ∃ s', s.ringRemoveNode node (some prev) = some s' ∧ s'.Linked (l.erase node) ∧ s'.AtHead ∧
      s'.agents = s.agents := by
  obtain ⟨slot, hslot⟩ := h.exists_slot hnode
  obtain ⟨slotp, hslotp⟩ := h.exists_slot hprev
  obtain ⟨next, hnext⟩ := h.links.exists_next hnode
  have hslotnext : slot.next = some next := (nextOf_eq hslot).symm.trans hnext
  obtain ⟨before, after, rfl⟩ := append_of_mem hnode
  obtain ⟨hnot, hnodup⟩ := nodup_cons.1 (nodup_middle.1 h.nodup)
  rw [mem_append, not_or] at hnot
  have herase : (before ++ node :: after).erase node = before ++ after := by
    rw [erase_append_right _ hnot.1, erase_cons_head]
  have hmem : ∀ b, b ∈ before ++ after ↔ b ∈ before ++ node :: after ∧ b ≠ node :=
    fun b => mem_append_iff_of_nodup h.nodup
  have hprev' : prev ∈ before ++ after := (hmem prev).2 ⟨hprev, hne.symm⟩
  let s₁ := s.put prev { slotp with next := some next }
  let s₂ := s₁.passNode node prev (some next)
  have hslot₂ : s₂.slots node = some slot := (slots_put_of_ne hne).trans hslot
  let s₃ := s₂.put node { slot with inRing := false, next := none }
  have hnextp : s₃.nextOf prev = some next := (nextOf_put_of_ne hne.symm).trans nextOf_put_self
  have hnextb : ∀ b, b ≠ node → b ≠ prev → s₃.nextOf b = s.nextOf b := fun b hbn hbp =>
    (nextOf_put_of_ne hbn).trans (nextOf_put_of_ne hbp)
  refine ⟨{ s₃ with ringSlots := s₃.ringSlots - 1 }, ?_, ?_, ?_, ?_⟩
  · obtain ⟨head, hhead⟩ : ∃ head, s.ringHead = some head := by
      rw [h.head]
      cases before with
      | nil => exact ⟨node, rfl⟩
      | cons b before => exact ⟨b, rfl⟩
    unfold ringRemoveNode
    rw [hhead]
    dsimp only
    rw [if_neg hne, hslot, some_bind, modify_eq _ hslotp, some_bind, hslotnext,
      modify_eq (s := s₂) _ hslot₂]
    rfl
  · rw [herase]
    refine ⟨hnodup, ?_, ?_, ?_, ?_, ?_⟩
    · -- the head is the node or stays
      change (if s.ringHead = some node then some next else s.ringHead) = _
      rw [h.head]
      cases before with
      | nil =>
        have hsome : after ≠ [] := by
          rintro rfl
          exact absurd hprev' not_mem_nil
        rw [nil_append, head?_cons, if_pos rfl, nil_append, ← h.links.next_eq_head? hsome, hnext]
      | cons b before =>
        rw [cons_append, head?_cons, if_neg, cons_append, head?_cons]
        intro hsame
        exact hnot.1 (Option.some.inj hsame ▸ mem_cons_self)
    · -- the tail is the node or stays
      change (if s.ringTail = some node then some prev else s.ringTail) = _
      rw [h.tail]
      rcases eq_nil_or_concat after with rfl | ⟨rest, last, rfl⟩
      · rw [append_nil, if_pos (getLast?_concat ..)]
        have hlast := h.links.getLast?_rotate h.nodup hprev hlink
        rw [nil_append] at hlast
        cases before with
        | nil => exact absurd hprev' not_mem_nil
        | cons b before => rw [← hlast, getLast?_cons_cons]
      · rw [concat_eq_append, ← cons_append, ← append_assoc, getLast?_concat, if_neg,
          ← append_assoc, getLast?_concat]
        intro hsame
        exact hnot.2 (Option.some.inj hsame ▸ by simp)
    · refine h.links.remove h.nodup hprev' hlink (hnextp.trans hnext.symm) ?_
      intro b hb hbp
      exact hnextb b ((hmem b).1 hb).2 hbp
    · change s.ringSlots - 1 = _
      rw [h.count, ← herase, length_erase_of_mem hnode]
    · apply flags_put (s := s₂) (flags_put h.flags (h.flags prev slotp hslotp) fun _ _ => Iff.rfl)
      · simp [hnot]
      · exact fun b hb => ((hmem b).trans (and_iff_left hb)).symm
  · exact hcursor.passNode prev hnext
  · have hflag : s₃.agents = s₂.agents := agents_put_of_eq hslot₂ rfl rfl
    have hpass : s₂.agents = s.agents := agents_put_of_eq hslotp rfl rfl
    exact hflag.trans hpass

/-- `ring_remove_node` takes the slot out of the ring. -/
theorem ringRemoveNode_spec :
    ∃ s', s.ringRemoveNode node (some prev) = some s' ∧ s'.Linked (l.erase node) ∧ s'.AtHead ∧
      s'.agents = s.agents := by
  by_cases hne : node = prev
  · subst hne
    exact ringRemoveNode_self h hnode hlink
  · exact ringRemoveNode_other h hnode hprev hlink hcursor hne

end

omit hnode

/-! ## Finding the predecessor -/

/-- The loop, at a slot before the predecessor or at it. -/
theorem ringFindPrevLoop_spec {before after : List SlotId} {p : SlotId}
    (hsplit : before ++ p :: after = l) (hprev : prev ∈ p :: after)
    (hlink : s.nextOf prev = some node) {fuel : Nat} (hfuel : after.length < fuel) :
    ∃ prev ∈ l, s.ringFindPrevLoop node fuel p = some (some prev) ∧ s.nextOf prev = some node := by
  induction fuel generalizing before p after with
  | zero => cases hfuel
  | succ fuel ih =>
    have hp : p ∈ l := by
      rw [← hsplit]
      exact mem_append_right _ mem_cons_self
    obtain ⟨slotp, hslotp⟩ := h.exists_slot hp
    have hnextp := nextOf_eq hslotp
    rw [ringFindPrevLoop, hslotp, some_bind]
    by_cases hfound : slotp.next = some node
    · rw [if_pos hfound]
      exact ⟨p, hp, rfl, hnextp.trans hfound⟩
    · rcases mem_cons.1 hprev with rfl | hrest
      · exact absurd (hnextp.symm.trans hlink) hfound
      · cases after with
        | nil => cases hrest
        | cons next after =>
          have hlinks := h.links
          have hnodup := h.nodup
          have hstart := h.head
          rw [← hsplit] at hlinks hnodup hstart
          have hnext : slotp.next = some next := by
            rw [← hnextp, hlinks.next_eq_head? (cons_ne_nil next after), head?_cons]
          -- the loop is not yet back at the head
          have hhead : s.ringHead ≠ some next := by
            rw [hstart]
            intro hsame
            cases before with
            | nil | cons b before =>
              cases hsame
              exact absurd hnodup (by simp)
          rw [if_neg hfound, hnext]
          dsimp only
          rw [if_neg hhead]
          have hsplit' : (before ++ [p]) ++ next :: after = l := by
            rw [append_assoc]
            exact hsplit
          exact ih hsplit' hrest (Nat.lt_of_succ_lt_succ hfuel)

theorem ringFindPrev_spec (hnode : node ∈ l) :
    ∃ prev ∈ l, s.ringFindPrev node = some (some prev) ∧ s.nextOf prev = some node := by
  obtain ⟨prev, hprev, hlink⟩ := h.links.exists_prev hnode
  cases l with
  | nil => cases hnode
  | cons first l =>
    rw [ringFindPrev, h.head, head?_cons]
    refine ringFindPrevLoop_spec h (nil_append _) hprev hlink ?_
    rw [h.count, length_cons]
    omega

end

/-! ## The ring between the sections -/

/-- The ring is `l`, with the cursor in it. -/
def RingIs (s : Scheduler κ) (l : List SlotId) : Prop := s.Linked l ∧ s.AtHead

/-- Slots and pointers stay. -/
theorem RingIs.congr (h : s.RingIs l) (hslots : s'.slots = s.slots)
    (hhead : s'.ringHead = s.ringHead) (htail : s'.ringTail = s.ringTail)
    (hcount : s'.ringSlots = s.ringSlots) (hcursor : s'.cursor = s.cursor)
    (hprev : s'.prevCursor = s.prevCursor) : s'.RingIs l := by
  have hnext : ∀ a ∈ l, s'.nextOf a = s.nextOf a := fun a _ => by rw [nextOf, hslots, nextOf]
  refine ⟨h.1.congr hhead htail hcount hnext ?_, ?_⟩
  · rw [hslots]
    exact h.1.flags
  · rw [AtHead, hcursor, hhead, hprev, htail]
    exact h.2

/-- Another queue in a slot. -/
theorem RingIs.put (h : s.RingIs l) (hslot : s.slots a = some slot) (q : List Item) :
    (s.put a { slot with q := q }).RingIs l := by
  have hnext : ∀ b ∈ l, (s.put a { slot with q := q }).nextOf b = s.nextOf b := by
    intro b _
    by_cases hba : b = a
    · rw [hba, nextOf_put_self, nextOf_eq hslot]
    · exact nextOf_put_of_ne hba
  refine ⟨h.1.congr rfl rfl rfl hnext ?_, h.2⟩
  exact flags_put h.1.flags (h.1.flags a slot hslot) fun _ _ => Iff.rfl

/-- A new slot is not in the ring. -/
theorem RingIs.makeSlot (h : s.RingIs l) (hnew : s.slots s.allocated = none) (key : κ) :
    (s.makeSlot key).RingIs l := by
  have hnot : s.allocated ∉ l := by
    intro hmem
    obtain ⟨slot, hslot⟩ := h.1.exists_slot hmem
    rw [hnew] at hslot
    cases hslot
  have hnext : ∀ b ∈ l, (s.makeSlot key).nextOf b = s.nextOf b := by
    intro b hb
    exact nextOf_put_of_ne fun hba => hnot (hba ▸ hb)
  refine ⟨h.1.congr rfl rfl rfl hnext ?_, h.2⟩
  exact flags_put h.1.flags (iff_of_false Bool.false_ne_true hnot) fun _ _ => Iff.rfl

/-- A slot that is not in the ring is released. -/
theorem RingIs.remove (h : s.RingIs l) (hnot : a ∉ l) : (s.remove a).RingIs l := by
  have hnext : ∀ b ∈ l, (s.remove a).nextOf b = s.nextOf b := by
    intro b hb
    have hba : b ≠ a := fun hba => hnot (hba ▸ hb)
    rw [nextOf, slots_remove_of_ne hba, nextOf]
  refine ⟨h.1.congr rfl rfl rfl hnext ?_, h.2⟩
  intro b slotb hb
  by_cases hba : b = a
  · rw [hba, slots_remove_self] at hb
    cases hb
  · rw [slots_remove_of_ne hba] at hb
    exact h.1.flags b slotb hb

theorem RingIs.adjustItems [DecidableEq κ] (h : s.RingIs l) (change : BitVec 64) :
    (s.adjustItems change).RingIs l :=
  h.congr rfl rfl rfl rfl rfl rfl

end Scheduler

end WazAISentinel.Shared.BatchQueue
