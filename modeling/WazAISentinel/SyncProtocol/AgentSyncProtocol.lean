import WazAISentinel.InventorySync.GapSet
import WazAISentinel.SyncProtocol.PersistentQueueStorage

/-!
# The agent side of the synchronization protocol

The parts of `agent_sync_protocol.cpp` that do not wait for the manager: the numbering of the
fetched items and the selection of the items a `ReqRet` asks for. The manager reports the gaps of
its gap set; what the agent sends again is exactly what the manager has not observed, and observing
it completes the set.
-/

namespace WazAISentinel.SyncProtocol

open List

/-- `synchronizeModule` numbers the fetched items from `0`. -/
def assignSeq (dataToSync : List PersistedData) : List PersistedData :=
  dataToSync.mapIdx fun i item => { item with seq := i }

/-- The inner loop of `filterDataByRanges` for one item: whether a range holds it, or `none` when a
malformed range comes first. -/
def matchRanges (seq : Nat) : List (Nat × Nat) → Option Bool
  | [] => some false
  | range :: ranges =>
    if range.2 < range.1 then none
    else if seq ≥ range.1 ∧ seq ≤ range.2 then some true
    else matchRanges seq ranges

/-- The outer loop of `filterDataByRanges`; a malformed range discards the whole result. -/
def filterLoop (ranges : List (Nat × Nat)) :
    List PersistedData → List PersistedData → List PersistedData
  | result, [] => result
  | result, item :: rest =>
    match matchRanges item.seq ranges with
    | none => []
    | some true => filterLoop ranges (result ++ [item]) rest
    | some false => filterLoop ranges result rest

/-- `AgentSyncProtocol::filterDataByRanges`. -/
def filterDataByRanges (sourceData : List PersistedData) (ranges : List (Nat × Nat)) :
    List PersistedData :=
  if ranges = [] ∨ sourceData = [] then [] else filterLoop ranges [] sourceData

/-! ## What the functions compute -/

@[simp] theorem length_assignSeq (data : List PersistedData) :
    (assignSeq data).length = data.length := by
  simp [assignSeq]

/-- The items are numbered in order. -/
theorem map_seq_assignSeq (data : List PersistedData) :
    (assignSeq data).map PersistedData.seq = range data.length := by
  apply ext_getElem
  · simp
  · intro i h₁ h₂
    simp [assignSeq]

variable {ranges : List (Nat × Nat)} {item : PersistedData}

section

variable (hwf : ∀ p ∈ ranges, p.1 ≤ p.2)

include hwf

/-- On well-formed ranges the inner loop decides membership in their union. -/
theorem matchRanges_eq (seq : Nat) :
    matchRanges seq ranges = some (decide (∃ p ∈ ranges, p.1 ≤ seq ∧ seq ≤ p.2)) := by
  induction ranges with
  | nil => simp [matchRanges]
  | cons range ranges ih =>
    have hrange := hwf range (by simp)
    rw [matchRanges, if_neg (by omega)]
    by_cases hin : seq ≥ range.1 ∧ seq ≤ range.2
    · rw [if_pos hin]
      have hex : ∃ p ∈ range :: ranges, p.1 ≤ seq ∧ seq ≤ p.2 := ⟨range, by simp, hin⟩
      simp only [hex, decide_true]
    · rw [if_neg hin, ih fun p hp => hwf p (by simp [hp])]
      congr 2
      simp only [mem_cons, exists_eq_or_imp, eq_iff_iff]
      exact (or_iff_right hin).symm

/-- On well-formed ranges the outer loop is a filter. -/
theorem filterLoop_eq :
    ∀ (data result : List PersistedData), filterLoop ranges result data =
      result ++ data.filter fun item => ∃ p ∈ ranges, p.1 ≤ item.seq ∧ item.seq ≤ p.2 := by
  intro data
  induction data with
  | nil => intro result; simp [filterLoop]
  | cons item rest ih =>
    intro result
    rw [filterLoop, matchRanges_eq hwf]
    by_cases hin : ∃ p ∈ ranges, p.1 ≤ item.seq ∧ item.seq ≤ p.2
    · simp only [hin, decide_true, filter_cons_of_pos]
      rw [ih, append_assoc]
      rfl
    · simp only [hin, decide_false]
      rw [ih, filter_cons_of_neg (by simpa using hin)]

theorem filterDataByRanges_eq (data : List PersistedData) :
    filterDataByRanges data ranges =
      data.filter fun item => ∃ p ∈ ranges, p.1 ≤ item.seq ∧ item.seq ≤ p.2 := by
  rw [filterDataByRanges]
  split_ifs with hempty
  · rcases hempty with rfl | rfl <;> simp
  · rw [filterLoop_eq hwf]
    rfl

end

/-- Whatever the ranges are, the loop only keeps items it was given. -/
theorem mem_of_mem_filterLoop :
    ∀ {data result : List PersistedData}, item ∈ filterLoop ranges result data →
      item ∈ result ∨ item ∈ data := by
  intro data
  induction data with
  | nil => exact fun h => Or.inl h
  | cons x rest ih =>
    intro result h
    unfold filterLoop at h
    split at h
    · cases h
    · have hmem := ih h
      rwa [mem_append, mem_singleton, or_assoc, ← mem_cons] at hmem
    · exact (ih h).imp_right (mem_cons_of_mem _)

theorem mem_of_mem_filterDataByRanges {data : List PersistedData}
    (h : item ∈ filterDataByRanges data ranges) : item ∈ data := by
  unfold filterDataByRanges at h
  split at h
  · cases h
  · exact (mem_of_mem_filterLoop h).resolve_left not_mem_nil

/-! ## Retransmission -/

open Foundations InventorySync

/-- Calls one after the other are one sequence of calls. -/
theorem observeAll_append (g : GapSet) (xs ys : List Nat) :
    g.observeAll (xs ++ ys) = (g.observeAll xs).observeAll ys := by
  induction xs generalizing g with
  | nil => rfl
  | cons x xs ih =>
    rw [cons_append, observeAll_cons, observeAll_cons]
    cases g.observe x with
    | ok g' => exact ih g'
    | error e => exact ih g

/-- **Retransmission is exact.** Whatever numbers the manager has observed, the agent selects
exactly the items with an unobserved number, each once and in increasing order, and observing them
leaves no gap. -/
theorem retransmission_exact (data : List PersistedData) (hlen : data.length < 2 ^ 64)
    (seqs : List Nat) : let g := (GapSet.new data.length).observeAll seqs
    let resent := filterDataByRanges (assignSeq data) g.ranges
    (∀ item, item ∈ resent ↔ item ∈ assignSeq data ∧ item.seq ∉ seqs) ∧
      (resent.map PersistedData.seq).Pairwise (· < ·) ∧
      (g.observeAll (resent.map PersistedData.seq)).empty = true := by
  intro g resent
  have hans : AnswersFor g data.length seqs := answersFor_observed hlen seqs
  have hmemSeq : ∀ item ∈ assignSeq data, item.seq < data.length := by
    intro item hitem
    have hmem := mem_map_of_mem (f := PersistedData.seq) hitem
    rw [map_seq_assignSeq] at hmem
    simpa using hmem
  have hresent : resent = (assignSeq data).filter fun item =>
      ∃ p ∈ g.ranges, p.1 ≤ item.seq ∧ item.seq ≤ p.2 :=
    filterDataByRanges_eq (fun p hp => (hans.ranges_maximal p hp).1) _
  have hmem : ∀ item, item ∈ resent ↔ item ∈ assignSeq data ∧ item.seq ∉ seqs := by
    intro item
    rw [hresent, mem_filter, decide_eq_true_eq, hans.ranges_cover]
    constructor
    · rintro ⟨hitem, -, hun⟩
      exact ⟨hitem, hun⟩
    · rintro ⟨hitem, hun⟩
      exact ⟨hitem, hmemSeq item hitem, hun⟩
  refine ⟨hmem, ?_, ?_⟩
  · have hsub : (resent.map PersistedData.seq).Sublist (range data.length) := by
      rw [← map_seq_assignSeq, hresent]
      exact filter_sublist.map _
    exact pairwise_lt_range.sublist hsub
  · -- a number below the size was observed before or is observed now
    have hans' := answersFor_observed hlen (seqs ++ resent.map PersistedData.seq)
    rw [observeAll_append] at hans'
    rw [hans'.empty_iff]
    intro s hs
    by_cases hobs : s ∈ seqs
    · exact mem_append.2 (Or.inl hobs)
    · have hs' : s ∈ (assignSeq data).map PersistedData.seq := by
        rw [map_seq_assignSeq]
        simpa using hs
      obtain ⟨item, hitem, rfl⟩ := mem_map.1 hs'
      exact mem_append.2 (Or.inr (mem_map_of_mem ((hmem item).2 ⟨hitem, hobs⟩)))

/-- Three items of which the second was observed. -/
theorem retransmission_exact_three :
    let data : List PersistedData :=
      [⟨0, "a", "idx", "1", .create⟩, ⟨0, "b", "idx", "2", .delete⟩, ⟨0, "c", "idx", "3", .modify⟩]
    let g := (GapSet.new 3).observeAll [1]
    let resent := filterDataByRanges (assignSeq data) g.ranges
    resent = [⟨0, "a", "idx", "1", .create⟩, ⟨2, "c", "idx", "3", .modify⟩] ∧
      (g.observeAll (resent.map PersistedData.seq)).empty = true := by
  intro data g resent
  exact ⟨by decide, (retransmission_exact data (by decide) [1]).2.2⟩

end WazAISentinel.SyncProtocol
