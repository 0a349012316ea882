import WazAISentinel.Foundations.TransitionSystem
import WazAISentinel.OsCrypto.MsgsRoundTrip

/-!
# Replay protection

One sender and one receiver with a network between them that delivers any message that was created,
any number of times and in any order. The counters of the messages increase, and the receiver
accepts a message only if its counters are above the stored ones. So no message is accepted twice
and the accepted ones are in the order of their creation.
-/

namespace WazAISentinel.OsCrypto.Msgs

open Foundations List

/-! ## The system -/

/-- Both sides, the messages created, the numbers of those accepted, and how often the global
counter was increased. -/
structure Link where
  sender : Sender
  receiver : Receiver
  sent : List Created
  accepted : List Nat
  rollovers : Nat

/-- A message is created; one that was created before is delivered, into buffers with some content;
messages of other senders change `rcv_count`. -/
inductive LinkAction where
  | create (msg : Bytes) (rand1 : BitVec 16) (newInode : Nat)
  | deliver (i : Nat) (memory cleartext : Bytes) (newInode : Nat)
  | others (rcvCount : BitVec 32)

namespace Link

variable (P : Primitives)

/-- `CreateSecMSG`; a message of size 0 is not sent. -/
def create (isAgent : Bool) (s : Link) (msg : Bytes) (rand1 : BitVec 16) (newInode : Nat) : Link :=
  let (sender, created) := createSecMSG P isAgent s.sender msg rand1 newInode
  { s with
    sender := sender
    sent := if created.size = 0 then s.sent else s.sent ++ [created]
    rollovers :=
      if sender.stored.counter.globalCount = s.sender.stored.counter.globalCount then s.rollovers
        else s.rollovers + 1 }

/-- `ReadSecMSG` on a message. -/
def deliver (cfg : Settings) (s : Link) (i : Nat) (created : Created) (memory cleartext : Bytes)
    (newInode : Nat) : Link :=
  let (receiver, read) :=
    s.receiver.receive P cfg (created.encrypted ++ memory) cleartext created.size.toNat newInode
  { s with
    receiver := receiver
    accepted := if read.map Read.code = some .valid then s.accepted ++ [i] else s.accepted }

def step (isAgent : Bool) (cfg : Settings) (s : Link) : LinkAction → Option Link
  | .create msg rand1 newInode => some (s.create P isAgent msg rand1 newInode)
  | .deliver i memory cleartext newInode =>
    (s.sent[i]?).map fun created => s.deliver P cfg i created memory cleartext newInode
  | .others rcvCount => some { s with receiver := { s.receiver with rcvCount := rcvCount } }

/-- Both sides after `OS_StartCounter`. -/
def init (sender : Sender) (receiver : Receiver) (newInode newInode' : Nat) : Link where
  sender := { sender with stored := .start sender.stored.counter sender.stored.file newInode }
  receiver :=
    { receiver with entry :=
      { receiver.entry with
        stored := .start receiver.entry.stored.counter receiver.entry.stored.file newInode' } }
  sent := []
  accepted := []
  rollovers := 0

def system (isAgent : Bool) (cfg : Settings) (sender : Sender) (receiver : Receiver)
    (newInode newInode' : Nat) : TransitionSystem Link LinkAction where
  init := init sender receiver newInode newInode'
  step := step P isAgent cfg

end Link

/-! ## Counters -/

/-- The pair of counters as one number. -/
def Counter.key (c : Counter) : Nat := 2 ^ 32 * c.globalCount.toNat + c.localCount.toNat

theorem Counter.below_iff (c d : Counter) : c.Below d ↔ c.key < d.key := by
  simp only [Below, key, BitVec.lt_def, ← BitVec.toNat_inj]
  omega

/-- A step of the sender's counters: the pair increases as long as the global one does not
overflow. -/
theorem increase_key (c : Counter)
    (hroll : c.globalCount.toNat + 1 < 2 ^ 32 ∨ c.localCount.toNat < 9997) :
    c.key < (increase c).key := by
  rw [increase]
  by_cases hfull : 9997 ≤ c.localCount.toNat
  · rw [if_pos hfull]
    have hnext : (c.globalCount + 1).toNat = c.globalCount.toNat + 1 := toNat_add_one (by omega)
    change 2 ^ 32 * c.globalCount.toNat + c.localCount.toNat < 2 ^ 32 *
        (c.globalCount + 1).toNat + 1
    omega
  · rw [if_neg hfull]
    have hnext : (c.localCount + 1).toNat = c.localCount.toNat + 1 := toNat_add_one (by omega)
    change 2 ^ 32 * c.globalCount.toNat + c.localCount.toNat < 2 ^ 32 * c.globalCount.toNat +
        (c.localCount + 1).toNat
    omega

/-- The counter file has not been replaced. -/
def StoredCounter.Kept (c : StoredCounter) : Prop :=
  ∃ file, c.file = some file ∧ c.inode = file.inode

theorem kept_start (counter : Counter) (file : Option RidsFile) (newInode : Nat) :
    (StoredCounter.start counter file newInode).Kept := by
  cases file with
  | none => exact ⟨_, rfl, rfl⟩
  | some file => exact ⟨file, rfl, rfl⟩

variable {c : StoredCounter} {r : Receiver} {created : Created} {i : Nat} {action : LinkAction}

theorem StoredCounter.Kept.reload (h : c.Kept) (newInode : Nat) : c.reload newInode = c := by
  obtain ⟨file, hfile, hinode⟩ := h
  apply if_pos
  rw [hfile, hinode]
  rfl

theorem StoredCounter.Kept.storeSender (h : c.Kept) : c.storeSender.Kept := by
  obtain ⟨file, hfile, hinode⟩ := h
  refine ⟨{ file with counter := some c.counter }, ?_, hinode⟩
  rw [StoredCounter.storeSender, hfile]
  rfl

theorem StoredCounter.Kept.store (h : c.Kept) (newInode : Nat) : (c.store newInode).Kept := by
  obtain ⟨file, hfile, hinode⟩ := h
  refine ⟨{ file with counter := some c.counter }, ?_, ?_⟩
  · rw [StoredCounter.store, hfile]
  · rw [StoredCounter.store, hfile]
    exact hinode

/-! ## The receiver -/

variable {P : Primitives} {isAgent : Bool} {cfg : Settings} {entry : KeyEntry}

/-- A receiver that can read the messages of the sender with an entry, and whose counter file has
not been replaced. -/
structure Receiver.Reads (cfg : Settings) (entry : KeyEntry) (r : Receiver) : Prop where
  mode : r.keyMode.encrypts = true
  key : r.entry.encryptionKey = entry.encryptionKey
  method : cfg.client = true → r.entry.cryptoMethod = entry.cryptoMethod
  kept : r.entry.stored.Kept

theorem Receiver.Reads.setMethod (h : r.Reads cfg entry) (method : CryptMethod) :
    (r.setMethod cfg method).Reads cfg entry := by
  rw [Receiver.setMethod]
  by_cases hclient : cfg.client = true
  · rw [if_pos hclient]
    exact h
  · rw [if_neg hclient]
    exact ⟨h.mode, h.key, fun hc => absurd hc hclient, h.kept⟩

theorem Receiver.Reads.accept (h : r.Reads cfg entry) (c : Counter) (newInode : Nat) :
    (r.accept cfg c newInode).Reads cfg entry := by
  have hkept : StoredCounter.Kept { r.entry.stored with counter := c } := h.kept
  rw [Receiver.accept]
  by_cases hflush : r.rcvCount ≥ cfg.recvFlush
  · rw [if_pos hflush]
    exact ⟨h.mode, h.key, h.method, hkept.store newInode⟩
  · rw [if_neg hflush]
    exact ⟨h.mode, h.key, h.method, hkept⟩

theorem Receiver.Reads.reloadDue (h : r.Reads cfg entry) (newInode : Nat) :
    r.reloadDue cfg newInode = r := by
  rw [Receiver.reloadDue, h.kept.reload]
  split <;> rfl

/-- With verification counters are accepted only if they are above the stored ones, which they then
replace. -/
theorem checkCounter_spec (hverify : cfg.verifyCounter = true) (h : r.Reads cfg entry) (c : Counter)
    (newInode : Nat) :
    (r.checkCounter cfg c newInode).1.Reads cfg entry ∧
      (((r.checkCounter cfg c newInode).2 = .valid ∧ r.entry.stored.counter.key < c.key ∧
          (r.checkCounter cfg c newInode).1.entry.stored.counter = c) ∨
            ((r.checkCounter cfg c newInode).2 ≠ .valid ∧
          (r.checkCounter cfg c newInode).1.entry.stored.counter = r.entry.stored.counter)) := by
  have hnot : ¬ (!cfg.verifyCounter) = true := by
    rw [hverify]
    decide
  rw [Receiver.checkCounter, if_neg hnot, h.reloadDue newInode]
  by_cases hbelow : r.entry.stored.counter.Below c
  · rw [if_pos hbelow]
    exact ⟨h.accept c newInode, .inl ⟨rfl, (Counter.below_iff _ _).1 hbelow, counter_accept _⟩⟩
  · rw [if_neg hbelow]
    split
    · exact ⟨h, .inr ⟨ReadCode.noConfusion, rfl⟩⟩
    · exact ⟨h, .inr ⟨ReadCode.noConfusion, rfl⟩⟩

/-! ## Runs -/

/-- A message with counters `c`. -/
def IsMessage (P : Primitives) (isAgent : Bool) (entry : KeyEntry) (created : Created)
    (c : Counter) : Prop :=
  ∃ rand1 msg, msg.length ≤ osMaxstr - osHeaderSize ∧ c.localCount.toNat < 10 ^ 4 ∧
    created = ⟨BitVec.ofNat 64 (messageBytes P isAgent entry rand1 c msg).length,
      messageBytes P isAgent entry rand1 c msg⟩

/-- What holds between the steps; `stamps` are the counters of the messages and `start` is the
global counter at the beginning. -/
structure Link.Good (P : Primitives) (isAgent : Bool) (cfg : Settings) (entry : KeyEntry)
    (start : Nat) (s : Link) (stamps : List Counter) : Prop where
  entry_eq : s.sender.entry = entry
  mode : s.sender.keyMode.encrypts = true
  kept : s.sender.stored.Kept
  count : s.sender.stored.counter.globalCount.toNat = start + s.rollovers
  reads : s.receiver.Reads cfg entry
  length : stamps.length = s.sent.length
  messages : ∀ (i : Nat) c, stamps[i]? = some c →
    ∃ created, s.sent[i]? = some created ∧ IsMessage P isAgent entry created c
  increasing : (stamps.map Counter.key).Pairwise (· < ·)
  last : ∀ c ∈ stamps, c.key ≤ s.sender.stored.counter.key
  sorted : s.accepted.Pairwise (· < ·)
  accepted : ∀ i ∈ s.accepted, ∃ c, stamps[i]? = some c ∧
    c.key ≤ s.receiver.entry.stored.counter.key

variable {start : Nat} {s t : Link} {stamps : List Counter}

/-- The size of a message is its length, and it is not 0. -/
theorem IsMessage.size (hP : P.Lawful) {c : Counter} (h : IsMessage P isAgent entry created c) :
    created.size.toNat = created.encrypted.length ∧ created.size ≠ 0 := by
  obtain ⟨rand1, msg, hmsg, hlocal, rfl⟩ := h
  have hfits : (messageBytes P isAgent entry rand1 c msg).length ≤ osMaxstr :=
    length_messageBytes_le hP isAgent entry hlocal hmsg
  have hsize := toNat_size hfits
  refine ⟨hsize, fun hzero => ?_⟩
  obtain ⟨hne, hdiv⟩ := plaintext_ne_nil P rand1 c msg
  have hlong := (length_ciphertext hP entry hne hdiv).1
  have hlength : (messageBytes P isAgent entry rand1 c msg).length = 0 := by
    rw [← hsize]
    exact congrArg BitVec.toNat hzero
  rw [messageBytes, length_append] at hlength
  omega

/-- Creating a message of an admissible length. -/
theorem create_eq (isAgent : Bool) (hP : P.Lawful) (hmode : s.sender.keyMode.encrypts = true)
    (hkept : s.sender.stored.Kept) {msg : Bytes} (hpos : 1 ≤ msg.length)
    (hmsg : msg.length ≤ osMaxstr - osHeaderSize) (rand1 : BitVec 16) (newInode : Nat) :
    ∃ created sender, createSecMSG P isAgent s.sender msg rand1 newInode = (sender, created) ∧
      IsMessage P isAgent s.sender.entry created (increase s.sender.stored.counter) ∧
      sender.entry = s.sender.entry ∧ sender.keyMode = s.sender.keyMode ∧ sender.stored.Kept ∧
      sender.stored.counter = increase s.sender.stored.counter := by
  have hnext : s.sender.stored.next newInode =
      { s.sender.stored with counter := increase s.sender.stored.counter } := by
    rw [StoredCounter.next, hkept.reload]
  have hcounter :
    (s.sender.stored.next newInode).counter = increase s.sender.stored.counter := by rw [hnext]
  have hlocal := localCount_next s.sender.stored newInode
  refine ⟨_, _, createSecMSG_eq hP isAgent hmode hpos hmsg rand1 newInode, ?_, rfl, rfl,
    ?_, hcounter⟩
  · rw [hcounter] at hlocal ⊢
    exact ⟨rand1, msg, hmsg, hlocal, rfl⟩
  · apply StoredCounter.Kept.storeSender
    rw [hnext]
    exact hkept

/-- The count of the increments is that of the global counter until it overflows, and then the pair
of counters has increased. -/
theorem rollovers_increase {c : Counter} {rollovers : Nat}
    (hcount : c.globalCount.toNat = start + rollovers) (hbound : start +
    (if (increase c).globalCount = c.globalCount then rollovers else rollovers + 1) < 2 ^ 32) :
    (increase c).globalCount.toNat = start +
      (if (increase c).globalCount = c.globalCount then rollovers else rollovers + 1) ∧
      c.key < (increase c).key := by
  by_cases hroll : 9997 ≤ c.localCount.toNat
  · have hglobal : (increase c).globalCount = c.globalCount + 1 := by rw [increase, if_pos hroll]
    have hne : ¬ (increase c).globalCount = c.globalCount := by
      bv_omega
    rw [if_neg hne] at hbound ⊢
    refine ⟨?_, increase_key c (.inl (by omega))⟩
    rw [hglobal, toNat_add_one (by omega)]
    omega
  · have hglobal : (increase c).globalCount = c.globalCount := by rw [increase, if_neg hroll]
    rw [if_pos hglobal]
    exact ⟨by rw [hglobal, hcount], increase_key c (.inr (Nat.lt_of_not_le hroll))⟩

theorem rollovers_le_step (hstep : s.step P isAgent cfg action = some t) :
    s.rollovers ≤ t.rollovers := by
  cases action with
  | create msg rand1 newInode =>
    cases hstep
    rw [Link.create]
    dsimp only
    split <;> omega
  | deliver i memory cleartext newInode =>
    obtain ⟨created, -, rfl⟩ := Option.map_eq_some_iff.1 hstep
    exact Nat.le_refl _
  | others rcvCount =>
    cases hstep
    exact Nat.le_refl _

section

variable (h : s.Good P isAgent cfg entry start stamps)

include h

/-- A message that is created has counters above those of all messages before. -/
theorem create_spec (hP : P.Lawful) (msg : Bytes) (rand1 : BitVec 16) (newInode : Nat)
    (hbound : start + (s.create P isAgent msg rand1 newInode).rollovers < 2 ^ 32) :
    (∃ stamps', (s.create P isAgent msg rand1 newInode).Good P isAgent cfg entry start stamps') ∧
      ((s.create P isAgent msg rand1 newInode).sent ≠ s.sent →
        s.sender.stored.counter.Below
          (s.create P isAgent msg rand1 newInode).sender.stored.counter ∧
          (s.create P isAgent msg rand1 newInode).sender.stored.counter =
            increase s.sender.stored.counter) := by
  by_cases hfits : msg.length > osMaxstr - osHeaderSize ∨ msg.length < 1
  · -- the message is refused before the counters are touched
    have hrefused : createSecMSG P isAgent s.sender msg rand1 newInode = (s.sender, ⟨0, []⟩) := by
      rw [createSecMSG, if_neg (by rw [h.mode]; decide), if_pos hfits]
    have hsame : s.create P isAgent msg rand1 newInode = s := by
      rw [Link.create, hrefused]
      dsimp only
      rw [if_pos rfl, if_pos rfl]
    rw [hsame]
    exact ⟨⟨stamps, h⟩, fun hne => absurd rfl hne⟩
  · have hpos : 1 ≤ msg.length := by omega
    have hmsg : msg.length ≤ osMaxstr - osHeaderSize := by omega
    obtain ⟨created, sender, hcreate, hmessage, hentry, hmode, hkept, hcounter⟩ :=
      create_eq isAgent hP h.mode h.kept hpos hmsg rand1 newInode
    have hcreated : s.create P isAgent msg rand1 newInode =
        { s with
          sender := sender
          sent := s.sent ++ [created]
          rollovers := if (increase s.sender.stored.counter).globalCount =
            s.sender.stored.counter.globalCount then
            s.rollovers else s.rollovers + 1 } := by
      rw [Link.create, hcreate]
      dsimp only
      rw [if_neg (hmessage.size hP).2, hcounter]
    rw [hcreated] at hbound ⊢
    obtain ⟨hcount, hkey⟩ := rollovers_increase h.count hbound
    rw [h.entry_eq] at hmessage
    refine ⟨⟨stamps ++ [increase s.sender.stored.counter], ?_⟩, fun _ => ⟨?_, hcounter⟩⟩
    · refine
        { entry_eq := hentry.trans h.entry_eq
          mode := by rw [hmode]; exact h.mode
          kept := hkept
          count := by rw [hcounter]; exact hcount
          reads := h.reads
          length := by rw [length_append, length_append, h.length]; rfl
          messages := ?_
          increasing := ?_
          last := ?_
          sorted := h.sorted
          accepted := ?_ }
      · intro i c hc
        rw [getElem?_append] at hc
        rw [getElem?_append, ← h.length]
        split_ifs at hc with hi
        · rw [if_pos hi]
          exact h.messages i c hc
        · rw [getElem?_singleton, Option.ite_none_right_eq_some] at hc
          rw [if_neg hi, hc.1, ← Option.some.inj hc.2]
          exact ⟨created, rfl, hmessage⟩
      · rw [map_append, pairwise_append, map_singleton, forall_mem_map]
        refine ⟨h.increasing, pairwise_singleton _ _, fun c hc => ?_⟩
        exact forall_mem_singleton.2 ((h.last c hc).trans_lt hkey)
      · rw [hcounter, forall_mem_append, forall_mem_singleton]
        exact ⟨fun c hc => (h.last c hc).trans hkey.le, Nat.le_refl _⟩
      · intro i hi
        obtain ⟨c, hc, hle⟩ := h.accepted i hi
        obtain ⟨hlt, -⟩ := List.getElem?_eq_some_iff.1 hc
        exact ⟨c, (getElem?_append_left hlt).trans hc, hle⟩
    · rw [Counter.below_iff, hcounter]
      exact hkey

/-- The counters of a message that is accepted are above those of the messages accepted before, so
it was created later. -/
theorem accepted_lt {c : Counter} (hc : stamps[i]? = some c)
    (hkey : s.receiver.entry.stored.counter.key < c.key) : ∀ j ∈ s.accepted, j < i := by
  intro j hj
  obtain ⟨d, hd, hle⟩ := h.accepted j hj
  obtain ⟨hi, rfl⟩ := List.getElem?_eq_some_iff.1 hc
  obtain ⟨hj', rfl⟩ := List.getElem?_eq_some_iff.1 hd
  have hincreasing := List.pairwise_iff_getElem.1 (List.pairwise_map.1 h.increasing)
  rcases Nat.lt_trichotomy j i with hlt | rfl | hgt
  · exact hlt
  · exact absurd (hle.trans_lt hkey) (Nat.lt_irrefl _)
  · exact absurd ((hle.trans_lt hkey).trans (hincreasing i j hi hj' hgt)) (Nat.lt_irrefl _)

/-- A delivery changes the stored counters only to larger ones. -/
theorem deliver_spec (hP : P.Lawful) (hclient : cfg.client = !isAgent)
    (hverify : cfg.verifyCounter = true) (hsent : s.sent[i]? = some created)
    (memory cleartext : Bytes) (newInode : Nat) :
    (s.deliver P cfg i created memory cleartext newInode).Good P isAgent cfg entry start stamps ∧
      s.receiver.entry.stored.counter.key ≤
        (s.deliver P cfg i created memory cleartext
          newInode).receiver.entry.stored.counter.key := by
  obtain ⟨hi, -⟩ := List.getElem?_eq_some_iff.1 hsent
  rw [← h.length] at hi
  have hstamp : stamps[i]? = some stamps[i] := getElem?_eq_getElem hi
  generalize stamps[i] = c at hstamp
  obtain ⟨created', hsent', hmessage⟩ := h.messages i c hstamp
  cases hsent.symm.trans hsent'
  have hsize := (hmessage.size hP).1
  obtain ⟨rand1, msg, hmsg, hlocal, rfl⟩ := hmessage
  obtain ⟨rest, hreceive⟩ := receive_created rand1 hP hclient h.reads.mode h.reads.key
    h.reads.method hlocal hmsg memory cleartext newInode
  obtain ⟨hreads, hcode⟩ :=
    checkCounter_spec hverify (h.reads.setMethod entry.cryptoMethod) c newInode
  rw [setMethod_stored] at hcode
  have hdeliver :
      s.deliver P cfg i ⟨BitVec.ofNat 64 (messageBytes P isAgent entry rand1 c msg).length,
      messageBytes P isAgent entry rand1 c msg⟩ memory cleartext newInode =
      { s with
        receiver := ((s.receiver.setMethod cfg entry.cryptoMethod).checkCounter cfg c newInode).1
        accepted := if some ((s.receiver.setMethod cfg entry.cryptoMethod).checkCounter cfg c
          newInode).2 = some .valid
          then s.accepted ++ [i] else s.accepted } := by
    rw [Link.deliver, hsize, hreceive]
    rfl
  rw [hdeliver]
  rcases hcode with ⟨hvalid, hkey, hcounter⟩ | ⟨hinvalid, hcounter⟩
  · rw [if_pos (congrArg some hvalid)]
    have hlt := accepted_lt h hstamp hkey
    refine ⟨{ h with reads := hreads, sorted := ?_, accepted := ?_ }, ?_⟩
    · rw [pairwise_append]
      exact ⟨h.sorted, pairwise_singleton _ _,
        fun j hj => forall_mem_singleton.2 (hlt j hj)⟩
    · rw [hcounter, forall_mem_append, forall_mem_singleton]
      refine ⟨fun j hj => ?_, c, hstamp, Nat.le_refl _⟩
      obtain ⟨d, hd, hle⟩ := h.accepted j hj
      exact ⟨d, hd, hle.trans hkey.le⟩
    · rw [hcounter]
      exact Nat.le_of_lt hkey
  · rw [if_neg fun heq => hinvalid (Option.some.inj heq)]
    refine ⟨{ h with reads := hreads, accepted := ?_ }, ?_⟩
    · rw [hcounter]
      exact h.accepted
    · rw [hcounter]

/-- One step, as long as the global counter does not overflow. -/
theorem step_good (hP : P.Lawful) (hclient : cfg.client = !isAgent)
    (hverify : cfg.verifyCounter = true) (hstep : s.step P isAgent cfg action = some t)
    (hbound : start + t.rollovers < 2 ^ 32) :
    ∃ stamps', t.Good P isAgent cfg entry start stamps' := by
  cases action with
  | create msg rand1 newInode =>
    cases hstep
    exact (create_spec h hP msg rand1 newInode hbound).1
  | deliver i memory cleartext newInode =>
    obtain ⟨created, hsent, rfl⟩ := Option.map_eq_some_iff.1 hstep
    exact ⟨stamps, (deliver_spec h hP hclient hverify hsent memory cleartext newInode).1⟩
  | others rcvCount =>
    cases hstep
    exact ⟨stamps, { h with reads := ⟨h.reads.mode, h.reads.key, h.reads.method, h.reads.kept⟩ }⟩

end

theorem run_good (hP : P.Lawful) (hclient : cfg.client = !isAgent)
    (hverify : cfg.verifyCounter = true) {sender : Sender} {receiver : Receiver}
    {newInode newInode' : Nat} (hs : sender.keyMode.encrypts = true)
    (hr : receiver.keyMode.encrypts = true)
    (hkey : receiver.entry.encryptionKey = sender.entry.encryptionKey)
    (hmethod : cfg.client = true → receiver.entry.cryptoMethod = sender.entry.cryptoMethod)
    {actions : List LinkAction} (hstart :
    (Link.init sender receiver newInode newInode').sender.stored.counter.globalCount.toNat = start)
    (hrun : (Link.system P isAgent cfg sender receiver newInode newInode').run actions = some s)
    (hbound : start + s.rollovers < 2 ^ 32) :
    ∃ stamps, s.Good P isAgent cfg sender.entry start stamps := by
  -- the count of the increments grows, so the bound at the end is one for every state
  refine TransitionSystem.runFrom_induction
    (Link.system P isAgent cfg sender receiver newInode newInode')
    (P := fun s => start + s.rollovers < 2 ^ 32 →
      ∃ stamps, s.Good P isAgent cfg sender.entry start stamps) ?_ ?_ hrun hbound
  · intro s action t ih hstep hbound
    have hle := rollovers_le_step hstep
    obtain ⟨stamps, hgood⟩ := ih (by omega)
    exact step_good hgood hP hclient hverify hstep hbound
  · intro _
    exact ⟨[], {
      entry_eq := rfl
      mode := hs
      kept := kept_start _ _ _
      count := hstart
      reads := ⟨hr, hkey, hmethod, kept_start _ _ _⟩
      length := rfl
      messages := fun i c hc => by cases hc
      increasing := List.Pairwise.nil
      last := fun c hc => absurd hc not_mem_nil
      sorted := List.Pairwise.nil
      accepted := fun i hi => absurd hi not_mem_nil }⟩

/-- In every state of every run in which the global counter has not overflowed, the numbers of the
accepted messages increase. No step makes the stored counters smaller, and every message that is
created has counters above the ones before, with the local one from 1 to 9997. -/
theorem replay_protection (P : Primitives) (hP : P.Lawful) (isAgent : Bool) (cfg : Settings)
    (hclient : cfg.client = !isAgent) (hverify : cfg.verifyCounter = true) (sender : Sender)
    (receiver : Receiver) (newInode newInode' : Nat) (hs : sender.keyMode.encrypts = true)
    (hr : receiver.keyMode.encrypts = true)
    (hkey : receiver.entry.encryptionKey = sender.entry.encryptionKey)
    (hmethod : cfg.client = true → receiver.entry.cryptoMethod = sender.entry.cryptoMethod)
    (actions : List LinkAction) (s : Link)
    (hrun : (Link.system P isAgent cfg sender receiver newInode newInode').run actions = some s)
    (hbound : (Link.init sender receiver newInode
    newInode').sender.stored.counter.globalCount.toNat + s.rollovers < 2 ^ 32) :
    s.accepted.Pairwise (· < ·) ∧ (∀ action t, s.step P isAgent cfg action = some t →
      ¬ t.receiver.entry.stored.counter.Below s.receiver.entry.stored.counter) ∧
    (∀ msg rand1 newInode'' t, s.step P isAgent cfg (.create msg rand1 newInode'') = some t →
      t.sent ≠ s.sent →
      (Link.init sender receiver newInode newInode').sender.stored.counter.globalCount.toNat +
        t.rollovers < 2 ^ 32 →
      s.sender.stored.counter.Below t.sender.stored.counter ∧
        1 ≤ t.sender.stored.counter.localCount.toNat ∧
        t.sender.stored.counter.localCount.toNat ≤ 9997) := by
  obtain ⟨stamps, hgood⟩ := run_good hP hclient hverify hs hr hkey hmethod rfl hrun hbound
  refine ⟨hgood.sorted, ?_, ?_⟩
  · intro action t hstep
    rw [Counter.below_iff, Nat.not_lt]
    cases action with
    | create msg rand1 newInode | others rcvCount =>
      cases hstep
      exact Nat.le_refl _
    | deliver i memory cleartext newInode =>
      obtain ⟨created, hsent, rfl⟩ := Option.map_eq_some_iff.1 hstep
      exact (deliver_spec hgood hP hclient hverify hsent memory cleartext newInode).2
  · intro msg rand1 newInode'' t hstep hne hbound
    cases hstep
    obtain ⟨hbelow, hcounter⟩ := (create_spec hgood hP msg rand1 newInode'' hbound).2 hne
    refine ⟨hbelow, ?_⟩
    rw [hcounter]
    exact localCount_increase

/-- Two messages are created, the local counter rolls over between them; the second is delivered,
then the first, then the second again. -/
theorem replay_protection_reordered :
    ∃ s, (Link.system copying true ⟨false, true, 10⟩
      ⟨.encryption, dynamicEntry ⟨0, 0⟩, ⟨⟨0, 0⟩, 3, some ⟨3, some ⟨4, 9996⟩⟩⟩⟩
        ⟨.encryption, dynamicEntry ⟨0, 0⟩, 0⟩ 1 1).run
        [.create [104] 5 0, .create [105] 6 0, .deliver 1 [] [] 0, .deliver 0 [] [] 0,
          .deliver 1 [] [] 0] = some s ∧
      s.accepted = [1] ∧ s.accepted.Pairwise (· < ·) := by
  refine ⟨?s, ?hrun, ?_, (replay_protection copying copying_lawful true _ rfl rfl _ _ 1 1 rfl rfl
    rfl (fun _ => rfl) _ ?s ?hrun ?_).1⟩
  case hrun => exact rfl
  · decide
  · decide

end WazAISentinel.OsCrypto.Msgs
