import WazAISentinel.OsCrypto.MsgsRoundTrip

/-!
# Rejected messages

What `ReadSecMSG` of the manager leaves in the key entry when it does not accept a message. The
entry is written at four places before the last check: the method is taken from the message that is
not yet decrypted, the counters of a compressed message may be read from their file before they are
compared, and those of a message of the old format are set, with and without verification, before
the colon behind them is looked for. Each of these has to write what was there.
-/

namespace WazAISentinel.OsCrypto.Msgs

open Foundations

/-- The method that a message names, and the message behind the name. -/
def named (buffer : Bytes) : CryptMethod × Bytes :=
  if buffer.take 4 = ascii "#AES" then (.aes, buffer.drop 4) else (.blowfish, buffer)

namespace Receiver

variable (P : Primitives)

/-- The decrypted text. -/
def clearText (r : Receiver) (buffer cleartext : Bytes) (bufferSize : BitVec 32) :
    Option Bytes :=
  if (named buffer).2.head? ≠ some (chr ':') then none
  else
    (decryptByMethod P (named buffer).1 r.entry.encryptionKey (named buffer).2.tail bufferSize).map
      (overwrite cleartext)

/-- The text that a compressed message is uncompressed to. -/
def uncompressed (text : Bytes) (bufferSize : BitVec 32) : Bytes :=
  let padded := (text.set bufferSize.toNat 0).tail
  let stream := padded.dropWhile fun b => b == chr '!'
  let bufferSize := bufferSize - 1 - BitVec.ofNat 32 (padded.length - stream.length)
  osZlibUncompress P (stream.take bufferSize.toNat) osMaxstr

/-- The counters of a compressed message are looked at: its text is not empty, its checksum is
right, and a colon stands behind the global counter. -/
def Stamped (buffer text : Bytes) (bufferSize : BitVec 32) : Prop :=
  let out := uncompressed P text bufferSize
  out.length ≠ 0 ∧ ∃ msg, checkSum P (overwrite buffer (out ++ [0])) out.length = some msg ∧
    ((msg.drop 5).drop 10).head? = some (chr ':')

/-- Counters that are due to be read again are those in the entry. -/
def KeepsDue (cfg : Settings) (r : Receiver) (newInode : Nat) : Prop :=
  r.rcvCount ≥ cfg.recvFlush →
    (r.entry.stored.reload newInode).counter = r.entry.stored.counter

/-- The counters of a message of the old format are those in the entry. It is rejected for its
counters before they are set, and for the missing colon after that. -/
def KeepsOld (cfg : Settings) (r : Receiver) (text : Bytes) (bufferSize : BitVec 32) : Prop :=
  ∀ msg, checkSum P (text.set bufferSize.toNat 0).tail bufferSize.toNat = some msg →
    if cfg.verifyCounter then ¬ r.entry.stored.counter.Below ⟨atoi msg, atoi (msg.drop 11)⟩
    else r.entry.stored.counter = ⟨atoi msg, 0⟩

/-- The counters that are written before a text is rejected are those in the entry. `buffer` is what
the text was decrypted from. -/
def KeepsCounter (cfg : Settings) (r : Receiver) (buffer text : Bytes)
    (bufferSize : BitVec 32) (newInode : Nat) : Prop :=
  (text.head? = some (chr '!') → Stamped P buffer text bufferSize → r.KeepsDue cfg newInode) ∧
    (text.head? = some (chr ':') → r.KeepsOld P cfg text bufferSize)

variable {P : Primitives} {cfg : Settings} {r : Receiver} {buffer cleartext text : Bytes}
  {bufferSize : BitVec 32} {newInode : Nat} (c : Counter)

/-- The result of a stage that leaves the method alone and, if it rejects the message, the counters
just if `condition`. -/
structure Leaves (r : Receiver) (result : Receiver × Read) (condition : Prop) : Prop where
  method : result.1.entry.cryptoMethod = r.entry.cryptoMethod
  counter : result.2.code ≠ .valid →
    (result.1.entry.stored.counter = r.entry.stored.counter ↔ condition)

/-- A stage that rejects a message before anything is written. -/
theorem leaves_fail {condition : Prop} {code : ReadCode} (h : condition) :
    r.Leaves (r, .fail code) condition :=
  ⟨rfl, fun _ => iff_of_true rfl h⟩

/-- The condition may be put in other words. -/
theorem Leaves.congr {result : Receiver × Read} {condition condition' : Prop}
    (h : r.Leaves result condition) (hiff : condition ↔ condition') : r.Leaves result condition' :=
  ⟨h.method, fun hcode => (h.counter hcode).trans hiff⟩

/-! ## Compressed messages -/

theorem cryptoMethod_accept :
    (r.accept cfg c newInode).entry.cryptoMethod = r.entry.cryptoMethod := by
  rw [accept]
  split <;> rfl

theorem cryptoMethod_reloadDue :
    (r.reloadDue cfg newInode).entry.cryptoMethod = r.entry.cryptoMethod := by
  rw [reloadDue]
  split <;> rfl

theorem counter_reloadDue_iff :
    (r.reloadDue cfg newInode).entry.stored.counter = r.entry.stored.counter ↔
      r.KeepsDue cfg newInode := by
  rw [reloadDue, KeepsDue]
  split_ifs with hdue
  · exact ⟨fun h _ => h, fun h => h hdue⟩
  · exact iff_of_true rfl fun h => absurd h hdue

/-- The counters are compared after they were read again. -/
theorem leaves_checkCounter (msg : Bytes) (finalSize : BitVec 64) :
    r.Leaves (answer (r.checkCounter cfg c newInode) msg finalSize) (r.KeepsDue cfg newInode) := by
  unfold checkCounter
  dsimp only
  split_ifs
  · exact ⟨cryptoMethod_accept c, fun hcode => absurd rfl hcode⟩
  · exact ⟨(cryptoMethod_accept c).trans cryptoMethod_reloadDue, fun hcode => absurd rfl hcode⟩
  all_goals exact ⟨cryptoMethod_reloadDue, fun _ => counter_reloadDue_iff⟩

/-- A text that is not stamped is rejected before the counters are read again. -/
theorem leaves_readCompressed :
    r.Leaves (r.readCompressed P cfg buffer text bufferSize newInode)
      (Stamped P buffer text bufferSize → r.KeepsDue cfg newInode) := by
  unfold Stamped
  generalize hout : uncompressed P text bufferSize = out
  unfold uncompressed at hout
  unfold readCompressed
  dsimp only at hout ⊢
  rw [hout]
  split
  next hempty => exact leaves_fail fun hstamped => absurd hempty hstamped.1
  next hnonempty =>
    split
    next hsum => exact leaves_fail (by simp [hsum])
    next msg hsum =>
      simp only [hsum, Option.some.injEq, exists_eq_left']
      unfold readStamped
      dsimp only
      split
      next hcolon => exact leaves_fail fun hstamped => absurd hstamped.2 hcolon
      next hcolon =>
        refine (leaves_checkCounter _ _ _).congr ⟨fun h _ => h, fun h => h ⟨hnonempty, ?_⟩⟩
        exact not_not.1 hcolon

/-! ## Messages of the old format -/

/-- The counters are set, and then the colon may be missing. -/
theorem leaves_answerOld (cleartext msg : Bytes) :
    r.Leaves (answerOld (r.setCounter c) cleartext msg bufferSize)
      (r.entry.stored.counter = c) := by
  rw [answerOld]
  split
  · exact ⟨rfl, fun _ => eq_comm⟩
  · exact ⟨rfl, fun hcode => absurd rfl hcode⟩

theorem leaves_readOldFormat :
    r.Leaves (r.readOldFormat P cfg text bufferSize) (r.KeepsOld P cfg text bufferSize) := by
  unfold readOldFormat KeepsOld
  dsimp only
  split
  next hsum => exact leaves_fail (by simp [hsum])
  next msg hsum =>
    simp only [hsum, Option.some.injEq, forall_eq']
    cases hverify : cfg.verifyCounter with
    | false => exact leaves_answerOld _ _ _
    | true =>
      by_cases hbelow : r.entry.stored.counter.Below ⟨atoi msg, atoi (msg.drop 11)⟩
      · have hne : r.entry.stored.counter ≠ ⟨atoi msg, atoi (msg.drop 11)⟩ := by
          intro heq
          rw [← heq] at hbelow
          simp [Counter.Below] at hbelow
        simpa [hbelow, hne] using leaves_answerOld (r := r) ⟨atoi msg, atoi (msg.drop 11)⟩
          (text.set bufferSize.toNat 0).tail (msg.drop 16)
      · simpa [hbelow] using leaves_fail trivial

/-! ## Any message -/

theorem leaves_readCleartext :
    r.Leaves (r.readCleartext P cfg buffer text bufferSize newInode)
      (r.KeepsCounter P cfg buffer text bufferSize newInode) := by
  rw [readCleartext]
  by_cases hcompressed : text.head? = some (chr '!')
  · have hother : text.head? ≠ some (chr ':') := by
      rw [hcompressed]
      decide
    rw [if_pos hcompressed]
    refine leaves_readCompressed.congr ⟨fun h => ⟨fun _ => h, ?_⟩, fun h => h.1 hcompressed⟩
    exact fun hold => absurd hold hother
  · rw [if_neg hcompressed]
    by_cases hold : text.head? = some (chr ':')
    · rw [if_pos hold]
      refine leaves_readOldFormat.congr ⟨fun h => ⟨?_, fun _ => h⟩, fun h => h.2 hold⟩
      exact fun hc => absurd hc hcompressed
    · rw [if_neg hold]
      exact leaves_fail ⟨fun hc => absurd hc hcompressed, fun ho => absurd ho hold⟩

theorem readSecMSG_named (hmode : r.keyMode.encrypts = true) :
    r.readSecMSG P cfg buffer cleartext bufferSize newInode =
      (r.setMethod cfg (named buffer).1).readEncrypted P cfg (named buffer).2 cleartext bufferSize
        newInode := by
  rw [readSecMSG, hmode, named]
  by_cases haes : buffer.take 4 = ascii "#AES"
  · simp only [haes, if_true]
    rfl
  · simp only [haes, if_false]
    rfl

theorem setMethod_manager (hclient : cfg.client = false) (method : CryptMethod) :
    r.setMethod cfg method = { r with entry := { r.entry with cryptoMethod := method } } := by
  rw [setMethod, hclient]
  rfl

theorem leaves_readEncrypted (hclient : cfg.client = false) :
    (r.setMethod cfg (named buffer).1).Leaves
      ((r.setMethod cfg (named buffer).1).readEncrypted P cfg (named buffer).2 cleartext bufferSize
        newInode)
      (∀ text, r.clearText P buffer cleartext bufferSize = some text →
        r.KeepsCounter P cfg (named buffer).2.tail text bufferSize newInode) := by
  rw [readEncrypted, clearText]
  split_ifs with hcolon
  · exact leaves_fail fun text htext => absurd htext (by simp)
  · rw [setMethod_manager hclient]
    cases hdecrypt :
      decryptByMethod P (named buffer).1 r.entry.encryptionKey (named buffer).2.tail bufferSize with
    | none => exact leaves_fail fun text htext => absurd htext (by simp)
    | some clear =>
      simp only [Option.map_some, Option.some.injEq, forall_eq']
      exact leaves_readCleartext

/-- If the keys are used for encryption, a rejected message has to name the method of the entry, and
a text that is decrypted has to leave the counters alone. -/
theorem rejected_unchanged_iff (P : Primitives) (cfg : Settings) (hclient : cfg.client = false)
    (r r' : Receiver) (buffer cleartext : Bytes) (bufferSize : BitVec 32) (newInode : Nat)
    (read : Read) (hread : r.readSecMSG P cfg buffer cleartext bufferSize newInode = (r', read))
    (hrejected : read.code ≠ .valid) :
    (r'.entry.stored.counter = r.entry.stored.counter ∧
      r'.entry.cryptoMethod = r.entry.cryptoMethod) ↔
    (r.keyMode.encrypts = true → (named buffer).1 = r.entry.cryptoMethod ∧
      ∀ text, r.clearText P buffer cleartext bufferSize = some text →
        r.KeepsCounter P cfg (named buffer).2.tail text bufferSize newInode) := by
  cases hmode : r.keyMode.encrypts with
  | false =>
    rw [readSecMSG, hmode] at hread
    cases hread
    simp
  | true =>
    rw [readSecMSG_named hmode] at hread
    have hleaves := hread ▸ leaves_readEncrypted hclient
    rw [setMethod_manager hclient] at hleaves
    rw [hleaves.method, hleaves.counter hrejected, and_comm]
    simp

/-- A message without the colon changes the method of the entry from AES to Blowfish. -/
theorem rejected_changes_method :
    ∃ r', (Receiver.mk .encryption (dynamicEntry ⟨0, 0⟩) 0).readSecMSG copying ⟨false, true, 10⟩
      [120] [] 1 0 =
        (r', .fail .corrupt) ∧
      r'.entry.cryptoMethod = .blowfish ∧ (dynamicEntry ⟨0, 0⟩).cryptoMethod = .aes :=
  ⟨_, rfl, rfl, rfl⟩

/-- One that names AES leaves the entry as it was. -/
theorem rejected_unchanged_iff_aes :
    ∃ r', (Receiver.mk .encryption (dynamicEntry ⟨4, 2⟩) 0).readSecMSG copying ⟨false, true, 10⟩
      (ascii "#AESx") [] 5 0 =
        (r', .fail .corrupt) ∧
      r'.entry.stored.counter = ⟨4, 2⟩ ∧ r'.entry.cryptoMethod = .aes :=
  ⟨⟨.encryption, dynamicEntry ⟨4, 2⟩, 0⟩, rfl, (rejected_unchanged_iff copying ⟨false, true, 10⟩ rfl
    ⟨.encryption, dynamicEntry ⟨4, 2⟩, 0⟩ _ (ascii "#AESx") [] 5 0 (.fail .corrupt) rfl
      (by decide)).2 fun _ => ⟨rfl, fun _ htext => nomatch htext⟩⟩

end Receiver

end WazAISentinel.OsCrypto.Msgs
