
import WazAISentinel.OsCrypto.Msgs

/-!
# The round trip of a secure message

What `CreateSecMSG` writes is a header, then an encrypted text, then nothing. What `ReadSecMSG` does
with such a text, whatever stands behind it in memory, is the check of its counters. So a message
that is received with counters above the stored ones is the message that was sent.
-/

namespace WazAISentinel.OsCrypto.Msgs

open Foundations Receiver List

/-- `compressBound` of zlib. -/
def compressBound (n : Nat) : Nat := n + n / 2 ^ 12 + n / 2 ^ 14 + n / 2 ^ 25 + 13

/-- Decryption inverts encryption: Blowfish keeps the length of whole blocks, AES pads to the next
block. Reading a compressed text back ignores what follows it; it does not begin with `!`, is not
longer than zlib's bound and fits into the buffers. -/
structure Primitives.Lawful (P : Primitives) : Prop where
  bf_inverse : ∀ key text, 8 ∣ text.length → P.bfDecrypt key (P.bfEncrypt key text) = text
  bf_length : ∀ key text, 8 ∣ text.length → (P.bfEncrypt key text).length = text.length
  aes_inverse : ∀ key text, P.aesDecrypt key (P.aesEncrypt key text) = some text
  aes_length : ∀ key text, (P.aesEncrypt key text).length = 16 * (text.length / 16 + 1)
  uncompress_compress2 : ∀ text rest, text.length ≤ osMaxstr →
    P.uncompress (P.compress2 text ++ rest) = some text
  compress2_head : ∀ text, ∃ b rest, P.compress2 text = b :: rest ∧ b ≠ chr '!'
  compress2_length : ∀ text, text.length ≤ osMaxstr →
    (P.compress2 text).length ≤ compressBound text.length

variable {P : Primitives} {cfg : Settings} {r : Receiver} {s : Sender} {c : Counter} {msg : Bytes}
  {rand1 : BitVec 16}

/-! ## The text that is compressed -/

theorem length_osMd5Str (P : Primitives) (str : Bytes) (length : Int) :
    (osMd5Str P str length).length = 32 := by
  have hbyte : ∀ b, (hexByte b).length = 2 := fun _ => rfl
  simp only [osMd5Str, length_flatMap, hbyte, map_const', length_finRange, sum_replicate_nat,
    Nat.reduceMul]

theorem length_stamped (hlocal : c.localCount.toNat < 10 ^ 4) :
    (stamped rand1 c msg).length = msg.length + 21 := by
  have hrand : rand1.toNat < 10 ^ 5 := rand1.isLt.trans (by decide)
  have hglobal : c.globalCount.toNat < 10 ^ 10 := c.globalCount.isLt.trans (by decide)
  rw [stamped, length_append, length_append, length_cons, length_append, length_cons,
    length_printedDecimal hrand, length_printedDecimal hglobal, length_printedDecimal hlocal]
  omega

theorem length_summed (hlocal : c.localCount.toNat < 10 ^ 4) :
    (summed P (stamped rand1 c msg)).length = msg.length + 53 := by
  rw [summed, length_append, length_osMd5Str, length_stamped hlocal]
  omega

theorem length_summed_le (hlocal : c.localCount.toNat < 10 ^ 4)
    (hmsg : msg.length ≤ osMaxstr - osHeaderSize) :
    (summed P (stamped rand1 c msg)).length ≤ osMaxstr := by
  rw [length_summed hlocal]
  unfold osMaxstr osHeaderSize at hmsg
  unfold osMaxstr
  omega

/-- A counter that does not overflow. -/
theorem toNat_add_one {x : BitVec 32} (hx : x.toNat + 1 < 2 ^ 32) : (x + 1).toNat = x.toNat + 1 :=
  BitVec.toNat_add_of_lt hx

/-- A difference that does not wrap. -/
theorem toNat_sub_ofNat {x : BitVec 32} {n : Nat} (hn : n ≤ x.toNat) :
    (x - BitVec.ofNat 32 n).toNat = x.toNat - n := by
  have hofNat : (BitVec.ofNat 32 n).toNat = n := by
    rw [BitVec.toNat_ofNat]
    exact Nat.mod_eq_of_lt (hn.trans_lt x.isLt)
  rw [BitVec.toNat_sub_of_le, hofNat]
  rw [BitVec.le_def, hofNat]
  exact hn

/-- The counters that `CreateSecMSG` writes. -/
theorem localCount_increase :
    1 ≤ (increase c).localCount.toNat ∧ (increase c).localCount.toNat ≤ 9997 := by
  rw [increase]
  by_cases hroll : 9997 ≤ c.localCount.toNat
  · rw [if_pos hroll]
    change 1 ≤ (1 : BitVec 32).toNat ∧ (1 : BitVec 32).toNat ≤ 9997
    decide
  · rw [if_neg hroll]
    have hnext : (c.localCount + 1).toNat = c.localCount.toNat + 1 := toNat_add_one (by omega)
    change 1 ≤ (c.localCount + 1).toNat ∧ (c.localCount + 1).toNat ≤ 9997
    omega

theorem colon_not_digit : isDecimalDigit (chr ':') = false := by decide

/-- The stamp is read back. -/
theorem readStamped_stamped (hlocal : c.localCount.toNat < 10 ^ 4) (sum rest : Bytes)
    (hsum : sum.length = 32) (newInode : Nat) :
    r.readStamped cfg (sum ++ (stamped rand1 c msg ++ rest)) (stamped rand1 c msg ++ rest)
      (msg.length + 53) newInode =
      answer (r.checkCounter cfg c newInode) (msg ++ rest) (BitVec.ofNat 64 msg.length) := by
  have hrand : rand1.toNat < 10 ^ 5 := rand1.isLt.trans (by decide)
  have hglobal : c.globalCount.toNat < 10 ^ 10 := c.globalCount.isLt.trans (by decide)
  -- the pointers into the text
  have hdrop₁ : (stamped rand1 c msg ++ rest).drop 5 = printedDecimal 10 c.globalCount.toNat ++
      (chr ':' :: (printedDecimal 4 c.localCount.toNat ++ (chr ':' :: (msg ++ rest)))) := by
    simp only [stamped, append_assoc, cons_append]
    exact drop_left' (length_printedDecimal hrand)
  have hdrop₂ :
      (printedDecimal 4 c.localCount.toNat ++ (chr ':' :: (msg ++ rest))).drop 5 = msg ++ rest := by
    have hsplit : printedDecimal 4 c.localCount.toNat ++ (chr ':' :: (msg ++ rest)) =
        (printedDecimal 4 c.localCount.toNat ++ [chr ':']) ++ (msg ++ rest) := by
      rw [append_assoc]
      rfl
    rw [hsplit]
    apply drop_left'
    rw [length_append, length_printedDecimal hlocal]
    rfl
  have hreadGlobal := atoi_printed (by decide) hglobal c.globalCount.isLt colon_not_digit
    (printedDecimal 4 c.localCount.toNat ++ (chr ':' :: (msg ++ rest)))
  have hreadLocal := atoi_printed (by decide) hlocal c.localCount.isLt colon_not_digit (msg ++ rest)
  have hsize : BitVec.ofNat 64 (msg.length + 53) -
      BitVec.ofNat 64 ((sum ++ (stamped rand1 c msg ++ rest)).length - (msg ++ rest).length) =
      BitVec.ofNat 64 msg.length := by
    have hpointers : (sum ++ (stamped rand1 c msg ++ rest)).length - (msg ++ rest).length = 53 := by
      rw [length_append, length_append, length_append, length_stamped hlocal, hsum]
      omega
    rw [hpointers, BitVec.ofNat_add, BitVec.add_sub_cancel]
  rw [readStamped]
  simp only [hdrop₁, drop_left' (length_printedDecimal hglobal), head?_cons, ne_eq,
    not_true_eq_false, if_false,
    tail_cons, hdrop₂, hreadGlobal, hreadLocal, BitVec.ofNat_toNat, BitVec.setWidth_eq, hsize]

/-- The checksum of a text that was summed is right, whatever follows it. -/
theorem checkSum_summed (tmpmsg rest : Bytes) :
    checkSum P (summed P tmpmsg ++ rest) (summed P tmpmsg).length = some (tmpmsg ++ rest) := by
  have hsum := length_osMd5Str P tmpmsg tmpmsg.length
  have hassoc : summed P tmpmsg ++ rest = osMd5Str P tmpmsg tmpmsg.length ++ (tmpmsg ++ rest) :=
    append_assoc ..
  have hlength : ((summed P tmpmsg).length : Int) - 32 = tmpmsg.length := by
    rw [summed, length_append, hsum]
    omega
  have hbehind :
      osMd5Str P (tmpmsg ++ rest) (tmpmsg.length : Int) = osMd5Str P tmpmsg tmpmsg.length := by
    have hnonneg : ¬ (tmpmsg.length : Int) < 0 := by omega
    simp [osMd5Str, hnonneg]
  rw [checkSum, hlength, hassoc, drop_left' hsum, take_left' hsum, hbehind, if_pos rfl]

/-! ## Padding -/

/-- One to eight `!` in front of the compressed text, up to whole blocks. -/
theorem padMessage_eq (stream : Bytes) :
    ∃ k < 8, padMessage stream = chr '!' :: (replicate k (chr '!') ++ stream) ∧
      8 ∣ (padMessage stream).length := by
  obtain ⟨k, hk, hdiv, hbfsize⟩ : ∃ k < 8, 8 ∣ stream.length + 1 + k ∧
      k = if 8 - (stream.length + 1) % 8 = 8 then 0 else 8 - (stream.length + 1) % 8 := by
    refine ⟨_, ?_, ?_, rfl⟩
    · split <;> omega
    · split <;> omega
  have hdrop :
      (replicate 8 (chr '!') ++ stream).drop (7 - k) = replicate (k + 1) (chr '!') ++ stream := by
    rw [drop_append_of_le_length (by rw [length_replicate]; omega), drop_replicate]
    have hcount : 8 - (7 - k) = k + 1 := by omega
    rw [hcount]
  have hlength : (replicate (k + 1) (chr '!') ++ stream).length = stream.length + 1 + k := by
    rw [length_append, length_replicate]
    omega
  have hpad : padMessage stream = replicate (k + 1) (chr '!') ++ stream := by
    simp only [padMessage, ← hbfsize, hdrop]
    exact take_of_length_le (Nat.le_of_eq hlength)
  refine ⟨k, hk, hpad, ?_⟩
  rw [hpad, hlength]
  exact hdiv

variable {bufferSize : BitVec 32} {text : Bytes} (method : CryptMethod)

/-- A compressed message is read from the memory the decrypted text was written to, and its checksum
is right. -/
theorem readCleartext_padded (hP : P.Lawful) (cfg : Settings) (r : Receiver) {tmpmsg : Bytes}
    (hfits : (summed P tmpmsg).length ≤ osMaxstr) (buffer junk : Bytes) (newInode : Nat)
    (hsize : (padMessage (P.compress2 (summed P tmpmsg))).length ≤ bufferSize.toNat) :
    ∃ rest, r.readCleartext P cfg buffer (padMessage (P.compress2 (summed P tmpmsg)) ++ junk)
      bufferSize newInode =
      r.readStamped cfg (osMd5Str P tmpmsg tmpmsg.length ++ (tmpmsg ++ rest)) (tmpmsg ++ rest)
        (tmpmsg.length + 32) newInode := by
  generalize hsummed : summed P tmpmsg = out at hfits hsize
  obtain ⟨b, stream, hstream, hb⟩ := hP.compress2_head out
  obtain ⟨k, hk, hpad, -⟩ := padMessage_eq (P.compress2 out)
  have hpadLength : (padMessage (P.compress2 out)).length = k + (b :: stream).length + 1 := by
    rw [hpad, hstream, length_cons, length_append, length_replicate]
  rw [hpadLength] at hsize
  -- the end character is written behind the text
  have hset : ((padMessage (P.compress2 out) ++ junk).set bufferSize.toNat 0).tail =
      replicate k (chr '!') ++
        (b :: stream ++ junk.set (bufferSize.toNat - (k + (b :: stream).length + 1)) 0) := by
    rw [set_append_right _ _ (by rw [hpadLength]; exact hsize), hpadLength, hpad, hstream]
    exact append_assoc ..
  generalize junk.set (bufferSize.toNat - (k + (b :: stream).length + 1)) 0 = behind at hset
  have hdrop :
      (replicate k (chr '!') ++ (b :: stream ++ behind)).dropWhile (fun b => b == chr '!') =
      b :: stream ++ behind := by
    rw [dropWhile_append_of_pos, cons_append, dropWhile_cons_of_neg]
    · simpa using hb
    · intro x hx
      rw [eq_of_mem_replicate hx]
      exact beq_self_eq_true _
  -- what is left of the size covers the compressed text
  have hleft : (replicate k (chr '!') ++ (b :: stream ++ behind)).length -
      (b :: stream ++ behind).length = k := by
    rw [length_append, length_replicate]
    omega
  have hleftSize : (bufferSize - 1 - BitVec.ofNat 32 k).toNat = bufferSize.toNat - 1 - k := by
    have hone : (bufferSize - 1).toNat = bufferSize.toNat - 1 := toNat_sub_ofNat (n := 1) (by omega)
    rw [toNat_sub_ofNat (by omega), hone]
  have hout : osZlibUncompress P ((b :: stream ++ behind).take (bufferSize.toNat - 1 - k))
      osMaxstr = out := by
    rw [osZlibUncompress, take_append, take_of_length_le (by omega), ← hstream,
      hP.uncompress_compress2 _ _ hfits]
    exact if_pos hfits
  have hlength : out.length = tmpmsg.length + 32 := by
    rw [← hsummed, summed, length_append, length_osMd5Str, Nat.add_comm]
  have hnonempty : ¬ out.length = 0 := by omega
  have hmemory : overwrite buffer (out ++ [0]) = out ++ (0 :: buffer.drop (out ++ [0]).length) := by
    rw [overwrite, append_assoc]
    rfl
  have hhead : (padMessage (P.compress2 out) ++ junk).head? = some (chr '!') := by
    rw [hpad]
    rfl
  refine ⟨0 :: buffer.drop (out ++ [0]).length, ?_⟩
  rw [readCleartext, if_pos hhead, readCompressed]
  simp only [hset, hdrop, hleft, hleftSize, hout, hnonempty, if_false, hmemory]
  rw [← hlength, ← hsummed, checkSum_summed]
  simp only [summed, append_assoc]

/-! ## Encryption -/

/-- The text that is encrypted. -/
def plaintext (P : Primitives) (rand1 : BitVec 16) (c : Counter) (msg : Bytes) : Bytes :=
  padMessage (P.compress2 (summed P (stamped rand1 c msg)))

/-- The encrypted text. -/
def ciphertext (P : Primitives) (entry : KeyEntry) (text : Bytes) : Bytes :=
  (doEncryptByMethod P entry.cryptoMethod entry.encryptionKey text).1

theorem plaintext_ne_nil (P : Primitives) (rand1 : BitVec 16) (c : Counter) (msg : Bytes) :
    (plaintext P rand1 c msg).length ≠ 0 ∧ 8 ∣ (plaintext P rand1 c msg).length := by
  obtain ⟨k, -, hpad, hdiv⟩ := padMessage_eq (P.compress2 (summed P (stamped rand1 c msg)))
  refine ⟨?_, hdiv⟩
  rw [plaintext, hpad, length_cons]
  exact Nat.succ_ne_zero _

theorem length_plaintext_le (hP : P.Lawful) (hlocal : c.localCount.toNat < 10 ^ 4)
    (hmsg : msg.length ≤ osMaxstr - osHeaderSize) : (plaintext P rand1 c msg).length ≤ 65500 := by
  obtain ⟨k, hk, hpad, -⟩ := padMessage_eq (P.compress2 (summed P (stamped rand1 c msg)))
  have hfits : (summed P (stamped rand1 c msg)).length ≤ osMaxstr := length_summed_le hlocal hmsg
  have hbound := hP.compress2_length _ hfits
  rw [length_summed hlocal] at hbound
  rw [plaintext, hpad, length_cons, length_append, length_replicate]
  unfold osMaxstr osHeaderSize at hmsg
  unfold compressBound at hbound
  omega

/-- The value `doEncryptByMethod` returns makes `cmp_size` the length of the encrypted text, which
is at most one block longer. -/
theorem length_ciphertext (hP : P.Lawful) (entry : KeyEntry) (hne : text.length ≠ 0)
    (hdiv : 8 ∣ text.length) :
    max text.length (doEncryptByMethod P entry.cryptoMethod entry.encryptionKey text).2 =
      (ciphertext P entry text).length ∧
      (ciphertext P entry text).length ≤ text.length + 16 := by
  rw [ciphertext]
  cases entry.cryptoMethod with
  | blowfish =>
    change max text.length 1 = (P.bfEncrypt entry.encryptionKey text).length ∧
        (P.bfEncrypt entry.encryptionKey text).length ≤ _
    rw [hP.bf_length _ _ hdiv]
    omega
  | aes =>
    change max text.length (P.aesEncrypt entry.encryptionKey text).length =
        (P.aesEncrypt entry.encryptionKey text).length ∧
      (P.aesEncrypt entry.encryptionKey text).length ≤ _
    rw [hP.aes_length]
    omega

theorem length_cryptoToken_le :
    1 ≤ (cryptoToken method).length ∧ (cryptoToken method).length ≤ 5 := by
  cases method <;> decide

/-- The text behind the token is decrypted; the size the caller passes is that of the text with the
token, minus one. -/
theorem decrypt_ciphertext (hP : P.Lawful) (entry : KeyEntry) (hne : text.length ≠ 0)
    (hdiv : 8 ∣ text.length) (hshort : text.length ≤ 65500) (memory : Bytes)
    (hsize : bufferSize.toNat + 1 = (cryptoToken entry.cryptoMethod).length +
    (ciphertext P entry text).length) :
    decryptByMethod P entry.cryptoMethod entry.encryptionKey (ciphertext P entry text ++ memory)
      bufferSize = some text := by
  have hlong := (length_ciphertext hP entry hne hdiv).2
  rw [ciphertext] at hsize hlong ⊢
  cases hmethod : entry.cryptoMethod with
  | blowfish =>
    rw [hmethod] at hsize
    change bufferSize.toNat + 1 = 1 + (P.bfEncrypt entry.encryptionKey text).length at hsize
    change some
        (P.bfDecrypt _ ((P.bfEncrypt entry.encryptionKey text ++ memory).take bufferSize.toNat)) = _
    rw [take_left' (by omega), hP.bf_inverse _ _ hdiv]
  | aes =>
    rw [hmethod] at hsize hlong
    change bufferSize.toNat + 1 = 5 + (P.aesEncrypt entry.encryptionKey text).length at hsize
    change (P.aesEncrypt entry.encryptionKey text).length ≤ _ at hlong
    have hfour : (bufferSize - 4).toNat = (P.aesEncrypt entry.encryptionKey text).length :=
      (toNat_sub_ofNat (n := 4) (by omega)).trans (by omega)
    have hnonneg : ¬ (bufferSize - 4).toInt < 0 := by
      rw [BitVec.toInt_eq_toNat_of_lt (by omega)]
      omega
    rw [decryptByMethod, if_neg hnonneg, hfour]
    change ((P.aesDecrypt _ ((P.aesEncrypt entry.encryptionKey text ++ memory).take _)).filter _) =
        _
    rw [take_left' rfl, hP.aes_inverse]
    exact if_pos (by simpa using hne)

/-! ## What `CreateSecMSG` writes -/

/-- The sender after a message. -/
def Sender.afterMessage (s : Sender) (newInode : Nat) : Sender :=
  { s with stored := (s.stored.next newInode).storeSender }

/-- The bytes of a message. -/
def messageBytes (P : Primitives) (isAgent : Bool) (entry : KeyEntry) (rand1 : BitVec 16)
    (c : Counter) (msg : Bytes) : Bytes :=
  messageHeader isAgent entry ++ ciphertext P entry (plaintext P rand1 c msg)

theorem localCount_next (c : StoredCounter) (newInode : Nat) :
    (c.next newInode).counter.localCount.toNat < 10 ^ 4 :=
  Nat.lt_of_le_of_lt localCount_increase.2 (by decide)

theorem encryptMessage_eq (hP : P.Lawful) (isAgent : Bool) (entry : KeyEntry) :
    encryptMessage P isAgent entry (P.compress2 (summed P (stamped rand1 c msg))) =
      ⟨BitVec.ofNat 64 (messageBytes P isAgent entry rand1 c msg).length,
        messageBytes P isAgent entry rand1 c msg⟩ := by
  obtain ⟨hne, hdiv⟩ := plaintext_ne_nil P rand1 c msg
  have hlength : max (plaintext P rand1 c msg).length
      (doEncryptByMethod P entry.cryptoMethod entry.encryptionKey (plaintext P rand1 c msg)).2 +
        (messageHeader isAgent entry).length =
          (messageBytes P isAgent entry rand1 c msg).length := by
    rw [(length_ciphertext hP entry hne hdiv).1, messageBytes, length_append, Nat.add_comm]
  rw [← hlength]
  rfl

theorem createSecMSG_eq (hP : P.Lawful) (isAgent : Bool) (hmode : s.keyMode.encrypts = true)
    (hpos : 1 ≤ msg.length) (hmsg : msg.length ≤ osMaxstr - osHeaderSize) (rand1 : BitVec 16)
    (newInode : Nat) :
    createSecMSG P isAgent s msg rand1 newInode = (s.afterMessage newInode,
        ⟨BitVec.ofNat 64
          (messageBytes P isAgent s.entry rand1 (s.stored.next newInode).counter msg).length,
          messageBytes P isAgent s.entry rand1 (s.stored.next newInode).counter msg⟩) := by
  have hfits : ¬ (msg.length > osMaxstr - osHeaderSize ∨ msg.length < 1) := by omega
  have hencrypts : ¬ (!s.keyMode.encrypts) = true := by
    rw [hmode]
    decide
  rw [createSecMSG, if_neg hencrypts, if_neg hfits]
  dsimp only
  have hlocal := localCount_next s.stored newInode
  generalize (s.stored.next newInode).counter = c at hlocal
  have hbound := hP.compress2_length (summed P (stamped rand1 c msg)) (length_summed_le hlocal hmsg)
  rw [length_summed hlocal] at hbound
  generalize hout : summed P (stamped rand1 c msg) = out at hbound
  obtain ⟨b, rest, hstream, -⟩ := hP.compress2_head out
  -- zlib's bound leaves room in the buffer
  have hcompress : osZlibCompress P out (osMaxstr - 12) = P.compress2 out := by
    apply if_pos
    unfold osMaxstr osHeaderSize at hmsg
    unfold compressBound at hbound
    unfold osMaxstr
    omega
  have hnonempty : ¬ (P.compress2 out).length = 0 := by
    rw [hstream, length_cons]
    exact Nat.succ_ne_zero _
  rw [hcompress, if_neg hnonempty, ← hout, encryptMessage_eq hP, Sender.afterMessage]

/-! ## What is read -/

/-- Behind the header the receiver finds the token, and `recv_b` is reduced by what stands before
it. -/
theorem stripId_header (isAgent : Bool) (entry : KeyEntry) (rest : Bytes) (n : Int) :
    stripId (messageHeader isAgent entry ++ rest) ((messageHeader isAgent entry).length + n) =
      some
        (cryptoToken entry.cryptoMethod ++ rest, (cryptoToken entry.cryptoMethod).length + n) := by
  unfold messageHeader
  by_cases hdynamic : (!entry.singleHost && isAgent) = true
  · rw [if_pos hdynamic]
    have hdrop : (entry.id.text ++ chr '!' :: (cryptoToken entry.cryptoMethod ++ rest)).dropWhile
        isDecimalDigit =
        chr '!' :: (cryptoToken entry.cryptoMethod ++ rest) := by
      rw [dropWhile_append_of_pos (all_eq_true.1 entry.id.digits),
        dropWhile_cons_of_neg (by decide)]
    have htext : (chr '!' :: (entry.id.text ++ chr '!' :: cryptoToken entry.cryptoMethod)) ++ rest =
        chr '!' :: (entry.id.text ++ chr '!' :: (cryptoToken entry.cryptoMethod ++ rest)) := by
      rw [cons_append, append_assoc, cons_append]
    have hleft :
        ((chr '!' :: (entry.id.text ++ chr '!' :: cryptoToken entry.cryptoMethod)).length : Int) +
        n -
        ((entry.id.text ++ chr '!' :: (cryptoToken entry.cryptoMethod ++ rest)).length -
          (chr '!' :: (cryptoToken entry.cryptoMethod ++ rest)).length : Nat) - 2 =
        (cryptoToken entry.cryptoMethod).length + n := by
      simp only [length_cons, length_append]
      omega
    rw [htext, stripId]
    simp only [head?_cons, if_true, tail_cons, hdrop, hleft]
  · rw [if_neg hdynamic]
    cases entry.cryptoMethod with
    | blowfish => rfl
    | aes => rfl

/-- `ReadSecMSG` finds the method by the token. -/
theorem readSecMSG_token (hmode : r.keyMode.encrypts = true) (method : CryptMethod)
    (rest cleartext : Bytes) (bufferSize : BitVec 32) (newInode : Nat) :
    r.readSecMSG P cfg (cryptoToken method ++ rest) cleartext bufferSize newInode =
      (r.setMethod cfg method).readEncrypted P cfg (chr ':' :: rest) cleartext bufferSize
        newInode := by
  have hencrypts : ¬ (!r.keyMode.encrypts) = true := by
    rw [hmode]
    decide
  rw [readSecMSG, if_neg hencrypts]
  cases method with
  | blowfish =>
    apply if_neg
    intro heq
    have hhead := congrArg head? heq
    exact absurd (Option.some.inj hhead) (by decide)
  | aes => exact if_pos rfl

theorem setMethod_entry (hmethod : cfg.client = true → r.entry.cryptoMethod = method) :
    (r.setMethod cfg method).entry.cryptoMethod = method ∧
      (r.setMethod cfg method).entry.encryptionKey = r.entry.encryptionKey := by
  rw [setMethod]
  by_cases hclient : cfg.client = true
  · rw [if_pos hclient]
    exact ⟨hmethod hclient, rfl⟩
  · rw [if_neg hclient]
    exact ⟨rfl, rfl⟩

theorem length_messageHeader_le (isAgent : Bool) (entry : KeyEntry) :
    (messageHeader isAgent entry).length ≤ 15 := by
  have htoken := (length_cryptoToken_le entry.cryptoMethod).2
  have hid := entry.id.short
  rw [messageHeader]
  split
  · simp only [length_cons, length_append]
    omega
  · omega

/-- The message fits into the buffers of both sides. -/
theorem length_messageBytes_le (hP : P.Lawful) (isAgent : Bool) (entry : KeyEntry)
    (hlocal : c.localCount.toNat < 10 ^ 4) (hmsg : msg.length ≤ osMaxstr - osHeaderSize) :
    (messageBytes P isAgent entry rand1 c msg).length ≤ osMaxstr := by
  have hheader := length_messageHeader_le isAgent entry
  have hplain : (plaintext P rand1 c msg).length ≤ 65500 := length_plaintext_le hP hlocal hmsg
  obtain ⟨hne, hdiv⟩ := plaintext_ne_nil P rand1 c msg
  have hcipher := (length_ciphertext hP entry hne hdiv).2
  rw [messageBytes, length_append]
  unfold osMaxstr
  omega

theorem toNat_size {n : Nat} (hn : n ≤ osMaxstr) : (BitVec.ofNat 64 n).toNat = n := by
  unfold osMaxstr at hn
  rw [BitVec.toNat_ofNat, Nat.mod_eq_of_lt (by omega)]

/-- The counters of a message from the other side are checked, and the message is given out if they
are accepted. -/
theorem receive_created (rand1 : BitVec 16) (hP : P.Lawful) {isAgent : Bool}
    (hclient : cfg.client = !isAgent) {entry : KeyEntry} (hmode : r.keyMode.encrypts = true)
    (hkey : r.entry.encryptionKey = entry.encryptionKey)
    (hmethod : cfg.client = true → r.entry.cryptoMethod = entry.cryptoMethod)
    (hlocal : c.localCount.toNat < 10 ^ 4) (hmsg : msg.length ≤ osMaxstr - osHeaderSize)
    (memory cleartext : Bytes) (newInode : Nat) :
    ∃ rest, r.receive P cfg (messageBytes P isAgent entry rand1 c msg ++ memory) cleartext
        (messageBytes P isAgent entry rand1 c msg).length newInode =
      Prod.map id some
        (answer ((r.setMethod cfg entry.cryptoMethod).checkCounter cfg c newInode) (msg ++ rest)
        (BitVec.ofNat 64 msg.length)) := by
  obtain ⟨hne, hdiv⟩ := plaintext_ne_nil P rand1 c msg
  have hshort : (plaintext P rand1 c msg).length ≤ 65500 := length_plaintext_le hP hlocal hmsg
  obtain ⟨hlong, hcipher⟩ := length_ciphertext hP entry hne hdiv
  have hdecrypt := fun size => @decrypt_ciphertext P size _ hP entry hne hdiv hshort memory
  unfold messageBytes
  generalize ciphertext P entry (plaintext P rand1 c msg) = cipher at hcipher hlong hdecrypt ⊢
  obtain ⟨htoken, htoken'⟩ := length_cryptoToken_le entry.cryptoMethod
  -- the text for `ReadSecMSG`: only the agent writes its id, and only the manager looks for it
  have hstrip : (if cfg.client then some (messageHeader isAgent entry ++ cipher ++ memory,
        ((messageHeader isAgent entry ++ cipher).length : Int))
      else stripId (messageHeader isAgent entry ++ cipher ++ memory)
        (messageHeader isAgent entry ++ cipher).length) =
      some (cryptoToken entry.cryptoMethod ++ (cipher ++ memory),
        ((cryptoToken entry.cryptoMethod).length + cipher.length : Int)) := by
    rw [append_assoc, length_append, Nat.cast_add]
    cases hagent : isAgent with
    | true =>
      rw [if_neg (by rw [hclient, hagent]; decide)]
      exact stripId_header true entry _ _
    | false =>
      rw [if_pos (by rw [hclient, hagent]; decide), messageHeader, Bool.and_false]
      rfl
  obtain ⟨size, hofInt⟩ : ∃ size, BitVec.ofInt 32
      (((cryptoToken entry.cryptoMethod).length + cipher.length : Int) - 1) = size :=
    ⟨_, rfl⟩
  have hsize : size.toNat + 1 = (cryptoToken entry.cryptoMethod).length + cipher.length := by
    rw [← hofInt, BitVec.toNat_ofInt]
    omega
  have hplain : (plaintext P rand1 c msg).length ≤ size.toNat := by omega
  obtain ⟨hmethod', hkey'⟩ := setMethod_entry entry.cryptoMethod hmethod
  obtain ⟨rest, hclear⟩ :=
    readCleartext_padded hP cfg (r.setMethod cfg entry.cryptoMethod) (length_summed_le hlocal hmsg)
    (cipher ++ memory) (cleartext.drop (plaintext P rand1 c msg).length) newInode hplain
  rw [length_stamped hlocal, readStamped_stamped hlocal _ _ (length_osMd5Str P _ _)] at hclear
  refine ⟨rest, ?_⟩
  have hreceived : ¬ ((cryptoToken entry.cryptoMethod).length + cipher.length : Int) ≤ 0 := by omega
  have hread : r.readSecMSG P cfg (cryptoToken entry.cryptoMethod ++ (cipher ++ memory)) cleartext
      size newInode =
      answer ((r.setMethod cfg entry.cryptoMethod).checkCounter cfg c newInode) (msg ++ rest)
        (BitVec.ofNat 64 msg.length) := by
    rw [readSecMSG_token hmode, readEncrypted, if_neg fun hne => hne rfl, tail_cons, hmethod',
      hkey', hkey, hdecrypt size hsize]
    exact hclear
  rw [receive, hstrip]
  simp only [hreceived, if_false, hofInt, hread]
  rfl

/-! ## The counters -/

theorem setMethod_stored (cfg : Settings) (r : Receiver) (method : CryptMethod) :
    (r.setMethod cfg method).entry.stored = r.entry.stored := by
  rw [setMethod]
  split <;> rfl

theorem counter_accept (newInode : Nat) : (r.accept cfg c newInode).entry.stored.counter = c := by
  rw [accept]
  by_cases hflush : r.rcvCount ≥ cfg.recvFlush
  · rw [if_pos hflush]
    rw [StoredCounter.store]
    split <;> rfl
  · rw [if_neg hflush]

/-- After a reload the counters are those from before or those of a file with another inode. -/
theorem counter_reload (c : StoredCounter) (newInode : Nat) :
    (c.reload newInode).counter = c.counter ∨ ∃ file, c.file = some file ∧ file.inode ≠ c.inode ∧
      (c.reload newInode).counter = file.counter.getD ⟨0, 0⟩ := by
  rw [StoredCounter.reload]
  by_cases hinode : c.inode = fileInode c.file
  · rw [if_pos hinode]
    exact .inl rfl
  · rw [if_neg hinode]
    cases hfile : c.file with
    | none => exact .inl rfl
    | some file =>
      refine .inr ⟨file, rfl, fun heq => hinode ?_, rfl⟩
      rw [hfile, ← heq]
      rfl

theorem checkCounter_of_below (cfg : Settings) (r : Receiver) (c : Counter) (newInode : Nat)
    (hbelow : r.entry.stored.counter.Below c) (hfile : ∀ file, r.entry.stored.file = some file →
    file.inode ≠ r.entry.stored.inode → (file.counter.getD ⟨0, 0⟩).Below c) :
    ∃ r', r.checkCounter cfg c newInode = (r', .valid) ∧ r'.entry.stored.counter = c := by
  have hdue : (r.reloadDue cfg newInode).entry.stored.counter.Below c := by
    rw [reloadDue]
    split
    · rcases counter_reload r.entry.stored newInode with hsame | ⟨file, hsome, hinode, hread⟩
      · rw [hsame]
        exact hbelow
      · rw [hread]
        exact hfile file hsome hinode
    · exact hbelow
  rw [checkCounter]
  by_cases hverify : (!cfg.verifyCounter) = true
  · rw [if_pos hverify]
    exact ⟨_, rfl, counter_accept _⟩
  · rw [if_neg hverify]
    exact ⟨_, if_pos hdue, counter_accept _⟩

/-- A message of any admissible length is accepted by the other side if its stored counters, and
those in a counter file that was replaced, are below the sender's; what it gives out is the message.
The message fits into the buffers, whatever was in them. -/
theorem secure_message_round_trip (P : Primitives) (hP : P.Lawful) (isAgent : Bool) (s : Sender)
    (cfg : Settings) (r : Receiver) (msg : Bytes) (rand1 : BitVec 16) (memory cleartext : Bytes)
    (newInode newInode' : Nat) (hpos : 1 ≤ msg.length) (hmsg : msg.length ≤ osMaxstr - osHeaderSize)
    (hclient : cfg.client = !isAgent) (hs : s.keyMode.encrypts = true)
    (hr : r.keyMode.encrypts = true) (hkey : r.entry.encryptionKey = s.entry.encryptionKey)
    (hmethod : cfg.client = true → r.entry.cryptoMethod = s.entry.cryptoMethod)
    (hbelow :
      r.entry.stored.counter.Below (createSecMSG P isAgent s msg rand1 newInode).1.stored.counter)
    (hfile : ∀ file, r.entry.stored.file = some file → file.inode ≠ r.entry.stored.inode →
      (file.counter.getD ⟨0, 0⟩).Below
        (createSecMSG P isAgent s msg rand1 newInode).1.stored.counter) :
    ∃ r' output, r.receive P cfg
        ((createSecMSG P isAgent s msg rand1 newInode).2.encrypted ++ memory) cleartext
        (createSecMSG P isAgent s msg rand1 newInode).2.size.toNat newInode' =
          (r', some ⟨.valid, some output, BitVec.ofNat 64 msg.length⟩) ∧
      output.take msg.length = msg ∧
      r'.entry.stored.counter = (createSecMSG P isAgent s msg rand1 newInode).1.stored.counter ∧
      (createSecMSG P isAgent s msg rand1 newInode).2.size.toNat ≤ osMaxstr := by
  rw [createSecMSG_eq hP isAgent hs hpos hmsg] at hbelow hfile ⊢
  have hlocal := localCount_next s.stored newInode
  have hfits : (messageBytes P isAgent s.entry rand1 (s.stored.next newInode).counter msg).length ≤
      osMaxstr :=
    length_messageBytes_le hP isAgent s.entry hlocal hmsg
  have hsize := toNat_size hfits
  obtain ⟨rest, hreceive⟩ :=
    receive_created rand1 hP hclient hr hkey hmethod hlocal hmsg memory cleartext newInode'
  have hstored := setMethod_stored cfg r s.entry.cryptoMethod
  rw [← hstored] at hbelow hfile
  obtain ⟨r', haccepted, hcounter⟩ := checkCounter_of_below cfg _ _ newInode' hbelow hfile
  refine ⟨r', msg ++ rest, ?_, List.take_left, hcounter, ?_⟩
  · rw [hsize, hreceive]
    change Prod.map id some (Receiver.answer ((r.setMethod cfg s.entry.cryptoMethod).checkCounter
        cfg (s.afterMessage newInode).stored.counter newInode') _ _) = _
    rw [haccepted]
    rfl
  · rw [hsize]
    exact hfits

/-! ## A round trip -/

/-- Texts are copied: AES pads as PKCS #7 does, and a compressed text has its length in front. -/
def copying : Primitives where
  bfEncrypt _ text := text
  bfDecrypt _ text := text
  aesEncrypt _ text :=
    text ++ List.replicate (16 - text.length % 16) (UInt8.ofNat (16 - text.length % 16))
  aesDecrypt _ text := text.getLast?.map fun pad => text.take (text.length - pad.toNat)
  md5 _ _ := 0
  compress2 text :=
    120 :: UInt8.ofNat (text.length / 65536) :: UInt8.ofNat (text.length / 256) ::
      UInt8.ofNat text.length :: text
  uncompress
    | _ :: a :: b :: c :: rest => some (rest.take (65536 * a.toNat + 256 * b.toNat + c.toNat))
    | _ => none

theorem copying_lawful : copying.Lawful where
  bf_inverse _ _ _ := rfl
  bf_length _ _ _ := rfl
  aes_inverse key text := by
    have hpad : (UInt8.ofNat (16 - text.length % 16)).toNat = 16 - text.length % 16 := by
      rw [UInt8.toNat_ofNat']
      omega
    have hlast :
        (text ++ replicate (16 - text.length % 16) (UInt8.ofNat (16 - text.length % 16))).getLast? =
        some (UInt8.ofNat (16 - text.length % 16)) := by
      rw [getLast?_append, getLast?_replicate, if_neg (by omega), Option.some_or]
    have hencrypt : copying.aesEncrypt key text =
        text ++ replicate (16 - text.length % 16) (UInt8.ofNat (16 - text.length % 16)) := rfl
    change Option.map _ _ = _
    rw [hencrypt, hlast, Option.map_some, hpad, length_append, length_replicate,
      Nat.add_sub_cancel, take_left]
  aes_length _ text := by
    change (text ++ replicate _ _).length = _
    rw [length_append, length_replicate]
    omega
  uncompress_compress2 text rest htext := by
    unfold osMaxstr at htext
    have hlength : 65536 * (UInt8.ofNat (text.length / 65536)).toNat + 256 *
        (UInt8.ofNat (text.length / 256)).toNat +
        (UInt8.ofNat text.length).toNat = text.length := by
      rw [UInt8.toNat_ofNat', UInt8.toNat_ofNat', UInt8.toNat_ofNat']
      omega
    change some ((text ++ rest).take _) = _
    rw [hlength, take_left]
  compress2_head text := ⟨120, _, rfl, by decide⟩
  compress2_length text _ := by
    change text.length + 4 ≤ _
    unfold compressBound
    omega

/-- The entry of agent 001 with a dynamic address. -/
def dynamicEntry (counter : Counter) : KeyEntry where
  id := ⟨[48, 48, 49], by decide, by decide⟩
  encryptionKey := [107]
  stored := ⟨counter, 7, some ⟨7, none⟩⟩
  cryptoMethod := .aes
  singleHost := false

/-- An agent's message whose local counter rolls over. -/
theorem secure_message_round_trip_rollover :
    ∃ r' output,
      (Receiver.mk .encryption (dynamicEntry ⟨4, 9997⟩) 0).receive copying ⟨false, true, 10⟩
        ((createSecMSG copying true ⟨.encryption, dynamicEntry ⟨0, 0⟩,
          ⟨⟨4, 9997⟩, 3, some ⟨3, none⟩⟩⟩ [104, 105] 9 0).2.encrypted ++
          [1, 2, 3]) [33, 33]
        (createSecMSG copying true ⟨.encryption, dynamicEntry ⟨0, 0⟩,
          ⟨⟨4, 9997⟩, 3, some ⟨3, none⟩⟩⟩ [104, 105] 9 0).2.size.toNat 0 =
          (r', some ⟨.valid, some output, 2⟩) ∧ output.take 2 = [104, 105] := by
  refine (secure_message_round_trip copying copying_lawful true _ _ _ [104, 105] 9 _ _ 0 0
    (by decide) (by decide) rfl rfl rfl rfl
    (fun _ => rfl) ?_ ?_).imp fun r' => Exists.imp fun output h => ⟨h.1, h.2.1⟩
  · rw [createSecMSG_eq copying_lawful true rfl (by decide) (by decide)]
    decide
  · intro file hfile hinode
    cases hfile
    exact absurd rfl hinode

end WazAISentinel.OsCrypto.Msgs
