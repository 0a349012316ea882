import WazAISentinel.Store.Store

/-!
# When the cache agrees with the driver

The cache of the store follows the replies of the driver. A write is done only if the file is there,
and if it is not done no file has changed; so writes keep the agreement whatever fails, for names
without the parts `.` and `..`. The reply of a deletion is that of pruning the directories above: it
can be an error when the file is gone, and no error when the file is still there. So `cache_agrees`
is about runs in which nothing fails in a deletion.
-/

namespace WazAISentinel.Store

open Foundations List Option

/-- No part of the name or of the namespace is `.` or `..`. -/
def Plain (name : Name) (ns : NamespaceId) : Prop :=
  ∀ part ∈ realParts name ns, part ≠ .dot ∧ part ≠ .dotdot

instance (name : Name) (ns : NamespaceId) : Decidable (Plain name ns) :=
  inferInstanceAs (Decidable (∀ part ∈ realParts name ns, part ≠ .dot ∧ part ≠ .dotdot))

/-- A document is written under a plain name, and nothing fails in a deletion. -/
def SoundCall (_ : State) (e : Event) : Prop :=
  match e.call with
  | .createDoc name ns _ => Plain name ns
  | .updateDoc _ _ => True
  | .upsertDoc name ns _ => Plain name ns
  | .deleteDoc _ => e.faults.Deletes
  | .deleteCol _ _ => e.faults.Deletes

theorem exists_map_name {parts : List Part} (h : ∀ part ∈ parts, part ≠ .dot ∧ part ≠ .dotdot) :
    ∃ ps : List FileName, parts = ps.map .name := by
  induction parts with
  | nil => exact ⟨[], rfl⟩
  | cons part parts ih =>
    obtain ⟨ps, rfl⟩ := ih fun p hp => h p (mem_cons_of_mem _ hp)
    cases part with
    | name a => exact ⟨a :: ps, rfl⟩
    | dot => exact absurd rfl (h .dot mem_cons_self).1
    | dotdot => exact absurd rfl (h .dotdot mem_cons_self).2

variable {name : Name} {ns : NamespaceId} {t : Tree} {ps : List FileName}

theorem Plain.exists_at {rName : Name} (h : Plain name ns)
    (hreal : virtualToRealName name ns = some rName) :
    ∃ ps : List FileName, rName.parts = ps.map .name := by
  rw [Name.parts_of_ofParts hreal]
  exact exists_map_name h

/-- The two directions of the cache and the driver agree. -/
structure Consistent (root : List FileName) (s : State) : Prop where
  coherent : s.cache.Coherent
  agrees : Agrees root s

section

variable {root : List FileName} {s : State} {f : Faults}

section

variable (h : Consistent root s)

include h

theorem Consistent.of_isFile (hfiles : ∀ q, t.IsFile q ↔ s.tree.IsFile q) :
    Consistent root ⟨t, s.cache⟩ :=
  ⟨h.coherent, fun name ns => (h.agrees name ns).trans (held_congr hfiles name ns).symm⟩

/-- If the driver is not done, neither the files nor the cache have changed. -/
theorem Consistent.commit {result : Tree × Reply DriverError} {after : List FileName → Prop}
    {cache : DBDocNames} (heffect : FileDriver.Effect s.tree result after)
    (hdone : ∀ t : Tree, (∀ q, t.IsFile q ↔ after q) → Consistent root ⟨t, cache⟩) :
    Consistent root (commit s result cache).1 := by
  obtain ⟨t, reply⟩ := result
  rcases heffect with ⟨hreply, hfiles⟩ | ⟨hreply, hfiles⟩
  · cases hreply
    exact hdone t hfiles
  · cases reply with
    | done => exact absurd rfl hreply
    | error e | thrown => exact h.of_isFile hfiles

/-- A document that is in no namespace has been put into one. -/
theorem Consistent.add (hat : At name ns ps) (hnew : s.cache.getNamespaceId name = none)
    (hfiles : ∀ q, t.IsFile q ↔ q = root ++ ps ∨ s.tree.IsFile q) :
    Consistent root ⟨t, (s.cache.add name ns).1⟩ := by
  refine ⟨h.coherent.add name ns, fun key ns' => ?_⟩
  rw [held_put hat hfiles, ← h.agrees key ns', DBDocNames.getNamespaceId_add, or_eq_some_iff,
    ite_none_right_eq_some, some_inj, or_comm]
  apply or_congr_left
  constructor
  · rintro ⟨-, rfl, rfl⟩
    exact ⟨rfl, rfl⟩
  · rintro ⟨rfl, rfl⟩
    exact ⟨hnew, rfl, rfl⟩

/-- A document that the driver holds has been written again. -/
theorem Consistent.rewrite (hat : At name ns ps) (hns : s.cache.getNamespaceId name = some ns)
    (hfiles : ∀ q, t.IsFile q ↔ q = root ++ ps ∨ s.tree.IsFile q) :
    Consistent root ⟨t, s.cache⟩ := by
  obtain ⟨ps', hat', hfile⟩ := held_iff.1 ((h.agrees name ns).1 hns)
  rw [hat'.eq hat] at hfile
  refine h.of_isFile fun q => (hfiles q).trans ⟨fun hq => hq.elim (fun heq => heq ▸ hfile) id, .inr⟩

theorem Consistent.createDoc (hplain : Plain name ns) (content : Doc) :
    Consistent root (createDoc root f s name ns content).1 := by
  rw [Store.createDoc]
  split_ifs with hname
  · exact h
  · split
    · exact h
    · rename_i rName hreal
      obtain ⟨ps, hparts⟩ := hplain.exists_at hreal
      refine h.commit (FileDriver.createDoc_effect hparts content) fun t hfiles => ?_
      exact h.add ⟨rName, hreal, hparts⟩ (not_isSome_iff_eq_none.1 hname) hfiles

theorem Consistent.updateDoc (name : Name) (content : Doc) :
    Consistent root (updateDoc root f s name content).1 := by
  rw [Store.updateDoc]
  split
  · exact h
  · rename_i ns hns
    split
    · exact h
    · rename_i rName hreal
      -- a name in the cache is held, so it is plain
      obtain ⟨r, hr, ⟨ps, hparts⟩, -⟩ := (h.agrees name ns).1 hns
      obtain rfl := some_inj.1 (hr.symm.trans hreal)
      exact h.commit (FileDriver.updateDoc_effect hparts content) fun t hfiles =>
        h.rewrite ⟨r, hr, hparts⟩ hns hfiles

theorem Consistent.upsertDoc (hplain : Plain name ns) (content : Doc) :
    Consistent root (upsertDoc root f s name ns content).1 := by
  rw [Store.upsertDoc]
  split
  · exact h
  · rename_i hother
    split
    · exact h
    · rename_i rName hreal
      obtain ⟨ps, hparts⟩ := hplain.exists_at hreal
      refine h.commit (FileDriver.upsertDoc_effect hparts content) fun t hfiles => ?_
      cases hns : s.cache.getNamespaceId name with
      | none => exact h.add ⟨rName, hreal, hparts⟩ hns hfiles
      | some ns' =>
        -- the document is in the namespace of the call already
        have hsame : some ns' = some ns := by
          by_contra hne
          rw [hns] at hother
          exact hother ⟨rfl, hne⟩
        exact h.rewrite ⟨rName, hreal, hparts⟩ (hns.trans hsame) hfiles

theorem Consistent.deleteDoc (hf : f.Deletes) (name : Name) :
    Consistent root (deleteDoc root f s name).1 := by
  rw [Store.deleteDoc]
  split
  · exact h
  · rename_i ns hns
    split
    · exact h
    · rename_i rName hreal
      obtain ⟨r, hr, ⟨ps, hparts⟩, -⟩ := (h.agrees name ns).1 hns
      obtain rfl := some_inj.1 (hr.symm.trans hreal)
      have hat : At name ns ps := ⟨r, hr, hparts⟩
      refine h.commit (FileDriver.deleteDoc_effect hf hparts) fun t hfiles =>
        ⟨h.coherent.del name, fun key ns' => ?_⟩
      rw [held_of_removed hfiles fun ps' hat' _ => hat'.place_eq_iff root hat, ← h.agrees key ns',
        DBDocNames.getNamespaceId_del h.coherent hns, ite_none_left_eq_some, and_comm]
      refine and_congr_right fun hold => not_congr ⟨fun hkey => ⟨hkey, ?_⟩, fun hboth => hboth.1⟩
      rw [hkey, hns] at hold
      exact (some_inj.1 hold).symm

theorem Consistent.deleteCol (hf : f.Deletes) (name : Name) (ns : NamespaceId) :
    Consistent root (deleteCol root f s name ns).1 := by
  rw [Store.deleteCol]
  split_ifs with hcol
  · exact h
  · split
    · exact h
    · rename_i rName hreal
      -- some document is below the name, so the name is plain and a directory
      obtain ⟨key, hkey, hbelow⟩ :=
        DBDocNames.filterByPrefix_ne_nil h.coherent fun hnil => hcol (isEmpty_iff.2 hnil)
      obtain ⟨ps', hat', hfile⟩ := held_iff.1 ((h.agrees key ns).1 hkey)
      obtain ⟨habove, hne⟩ := DBDocNames.isPrefix_iff.1 hbelow
      have hrabove : rName.parts <+: ps'.map .name := by
        rw [Name.parts_of_ofParts hreal, ← hat'.realParts_eq]
        exact cons_prefix_cons.2 ⟨rfl, cons_prefix_cons.2 ⟨rfl, habove⟩⟩
      have hparts : rName.parts = (ps'.take rName.parts.length).map .name := by
        rw [map_take]
        exact prefix_iff_eq_take.1 hrabove
      have hat : At name ns (ps'.take rName.parts.length) := ⟨rName, hreal, hparts⟩
      have hdir : s.tree.node (root ++ ps'.take rName.parts.length) = some .dir := by
        refine FileTree.node_eq_dir_of_isPrefix ((prefix_append_right_inj root).2
          (List.take_prefix _ _)) (fun heq => hne ?_) hfile.node_ne_none
        rw [append_cancel_left heq] at hat
        rw [(hat.inj hat').1]
      refine h.commit (FileDriver.deleteCol_effect hf hparts) fun t hfiles =>
        ⟨h.coherent.delCol name ns, fun k ns' => ?_⟩
      rw [held_removeBelow hat hfiles hdir, ← h.agrees k ns',
        DBDocNames.getNamespaceId_delCol h.coherent, ite_none_left_eq_some, and_comm]
      refine and_congr_right fun hold => ?_
      rw [hold, some_inj]

theorem consistent_perform {e : Event} (hsound : SoundCall s e) :
    Consistent root (perform root s e).1 := by
  obtain ⟨call, f⟩ := e
  cases call with
  | createDoc name ns content => exact h.createDoc hsound content
  | updateDoc name content => exact h.updateDoc name content
  | upsertDoc name ns content => exact h.upsertDoc hsound content
  | deleteDoc name => exact h.deleteDoc hsound name
  | deleteCol name ns => exact h.deleteCol hsound name ns

end

end

/-- From a state in which the cache and the driver agree, if documents are written under plain names
and nothing fails in a deletion, the cache has a name with a namespace exactly if the driver holds
the document there, both directions of the cache are the same relation, and no document is in two
namespaces. -/
theorem cache_agrees (root : List FileName) (init s : State) (es : List Event)
    (hinit : Consistent root init) (hrun : (system root init).runFrom init es = some s)
    (hsound : (system root init).StepsMeet SoundCall init es) :
    Agrees root s ∧
      (∀ name ns, s.cache.getNamespaceId name = some ns ↔ (ns, name) ∈ s.cache.nsToNames) ∧
      OneNamespace root s.tree := by
  have hs : Consistent root s := by
    refine (system root init).runFrom_induction_of_stepsMeet (fun s e u hs hok hstep => ?_)
      hinit hsound hrun
    obtain rfl := some_inj.1 hstep
    exact consistent_perform hs hok
  refine ⟨hs.agrees, hs.coherent.same, fun name ns ns' hheld hheld' => ?_⟩
  exact some_inj.1 (((hs.agrees name ns).2 hheld).symm.trans ((hs.agrees name ns').2 hheld'))

/-- The base path. -/
def storeDir : FileName := ⟨['s', 't', 'o', 'r', 'e'], by decide⟩

/-- A directory for the store with nothing in it, and an empty cache. -/
def newStore : State := ⟨FileTree.empty.makeDir [storeDir], .empty⟩

theorem newStore_consistent : Consistent [storeDir] newStore := by
  refine ⟨DBDocNames.coherent_empty, fun name ns => ⟨fun h => ?_, fun hheld => ?_⟩⟩
  · cases h
  · obtain ⟨ps, -, hfile⟩ := held_iff.1 hheld
    have hempty := (FileTree.isFile_makeDir (cons_ne_nil storeDir []) (by decide) _).1 hfile
    exact absurd hempty FileTree.not_isFile_empty

def docName : Name := ⟨[.name ⟨['d'], by decide⟩], by decide⟩

def otherName : Name := ⟨[.name ⟨['c'], by decide⟩, .name ⟨['e'], by decide⟩], by decide⟩

def userNamespace : NamespaceId := ⟨.name ⟨['u'], by decide⟩⟩

/-- Every call of the file system succeeds. -/
def noFaults : Faults where
  answers := true
  makesDir _ := true
  opens := true
  arrives text := text
  stuck _ := false
  emptyAnswers _ := true
  removesDir _ := true

theorem noFaults_deletes : noFaults.Deletes := ⟨fun _ => rfl, fun _ => rfl, fun _ => rfl⟩

/-- A document is created. -/
def creates (name : Name) : Event := ⟨.createDoc name userNamespace ⟨[], false⟩, noFaults⟩

def deletionEvents : List Event :=
  [creates docName, creates otherName, ⟨.deleteDoc docName, noFaults⟩]

theorem cache_agrees_deleted :
    ∃ s, (system [storeDir] newStore).runFrom newStore deletionEvents = some s ∧
      s.cache.getNamespaceId docName = none ∧
        s.cache.getNamespaceId otherName = some userNamespace ∧ Agrees [storeDir] s := by
  have hdoc : Plain docName userNamespace := by decide
  have hother : Plain otherName userNamespace := by decide
  exact ⟨_, rfl, by decide, by decide,
    (cache_agrees [storeDir] newStore _ deletionEvents newStore_consistent rfl
    ⟨hdoc, fun _ _ => ⟨hother, fun _ _ => ⟨noFaults_deletes, fun _ _ => trivial⟩⟩⟩).1⟩

/-- The file cannot be removed, and the directory above it is then not empty, so that pruning ends
without an error: the store forgets a document that the driver still holds. -/
theorem deleted_document_still_held :
    Consistent [storeDir] newStore ∧ ∃ s, (system [storeDir] newStore).runFrom newStore
      [creates docName, ⟨.deleteDoc docName, { noFaults with stuck := fun _ => true }⟩] = some s ∧
      s.cache.getNamespaceId docName = none ∧ Held [storeDir] s.tree docName userNamespace := by
  refine ⟨newStore_consistent, _, rfl, by decide, ?_⟩
  exact ⟨⟨[.name prefixNS, userNamespace.part, .name ⟨['d'], by decide⟩], by decide⟩, rfl,
    ⟨[prefixNS, _, _], rfl⟩, by decide⟩

end WazAISentinel.Store
