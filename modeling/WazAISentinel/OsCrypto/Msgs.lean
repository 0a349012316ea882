import WazAISentinel.Foundations.DecimalDigits

/-!
# Secure messages

`os_crypto/shared/msgs.c`: `CreateSecMSG` stamps a message with a random number and the sender's
counters, puts a checksum in front, compresses it, pads it with `!` and encrypts it; `ReadSecMSG`
undoes that and checks the counters against those stored for the sender.

The ciphers, MD5 and zlib are parameters (`Primitives`). A pointer is the memory from its address
on, so that reading goes on behind the text that was put there. An open counter file is its inode
and the counters in it. Logging and the averages of the compression are left out.
-/

namespace WazAISentinel.OsCrypto.Msgs

open Foundations

abbrev Bytes := List UInt8

def chr (c : Char) : UInt8 := UInt8.ofNat c.toNat

def ascii (s : String) : Bytes := s.toList.map chr

/-- `OS_MAXSTR`. -/
def osMaxstr : Nat := 65536

/-- `OS_HEADER_SIZE`. -/
def osHeaderSize : Nat := 128

/-! ## Libraries -/

/-- The library functions. `aesDecrypt` has no result for a text with a wrong padding, `uncompress`
none for one that does not begin with a compressed stream. -/
structure Primitives where
  bfEncrypt : Bytes → Bytes → Bytes
  bfDecrypt : Bytes → Bytes → Bytes
  aesEncrypt : Bytes → Bytes → Bytes
  aesDecrypt : Bytes → Bytes → Option Bytes
  md5 : Bytes → Fin 16 → UInt8
  compress2 : Bytes → Bytes
  uncompress : Bytes → Option Bytes

/-- The character `%x` writes for a digit. -/
def hexDigit (d : Nat) : UInt8 := if d < 10 then digitByte d else UInt8.ofNat (87 + d)

/-- `%02x`. -/
def hexByte (b : UInt8) : Bytes := [hexDigit (b.toNat / 16), hexDigit (b.toNat % 16)]

section

variable (P : Primitives)

/-- `OS_MD5_Str`: a negative length stands for the text up to its end. -/
def osMd5Str (str : Bytes) (length : Int) : Bytes :=
  let text := if length < 0 then str.takeWhile fun b => b != 0 else str.take length.toNat
  (List.finRange 16).flatMap fun n => hexByte (P.md5 text n)

/-- `os_zlib_compress`; the empty text is the result 0. -/
def osZlibCompress (src : Bytes) (dstSize : Nat) : Bytes :=
  if (P.compress2 src).length ≤ dstSize then P.compress2 src else []

/-- `os_zlib_uncompress`; the empty text is the result 0. -/
def osZlibUncompress (src : Bytes) (dstSize : Nat) : Bytes :=
  match P.uncompress src with
  | some out => if out.length ≤ dstSize then out else []
  | none => []

/-- `crypt_method`. -/
inductive CryptMethod where
  | blowfish
  | aes
  deriving DecidableEq

/-- `doEncryptByMethod` with `OS_ENCRYPT`: the output and the value returned. -/
def doEncryptByMethod (method : CryptMethod) (key input : Bytes) : Bytes × Nat :=
  match method with
  | .blowfish => (P.bfEncrypt key input, 1)
  | .aes => (P.aesEncrypt key input, (P.aesEncrypt key input).length)

/-- `OS_BF_Str` and `OS_AES_Str` with `OS_DECRYPT` as `ReadSecMSG` calls them; no result stands for
the value 0. -/
def decryptByMethod (method : CryptMethod) (key buffer : Bytes) (bufferSize : BitVec 32) :
    Option Bytes :=
  match method with
  | .blowfish => some (P.bfDecrypt key (buffer.take bufferSize.toNat))
  | .aes =>
    if (bufferSize - 4).toInt < 0 then none
    else (P.aesDecrypt key (buffer.take (bufferSize - 4).toNat)).filter fun clear =>
      clear.length != 0

end

/-! ## Counters -/

/-- The global and the local counter. -/
structure Counter where
  globalCount : BitVec 32
  localCount : BitVec 32
  deriving DecidableEq

/-- The comparison of `ReadSecMSG`. -/
def Counter.Below (stored msg : Counter) : Prop :=
  stored.globalCount < msg.globalCount ∨ stored.globalCount = msg.globalCount ∧
    stored.localCount < msg.localCount

instance (stored msg : Counter) : Decidable (stored.Below msg) :=
  inferInstanceAs (Decidable (_ ∨ _ ∧ _))

/-- A counter file; `counter` is what `fscanf` reads. -/
structure RidsFile where
  inode : Nat
  counter : Option Counter

/-- Counters in memory, the inode of the file they were read from, and the file. -/
structure StoredCounter where
  counter : Counter
  inode : Nat
  file : Option RidsFile

/-- `File_Inode`. -/
def fileInode : Option RidsFile → Nat
  | none => 0
  | some file => file.inode

namespace StoredCounter

/-- `OS_StartCounter`; `newInode` is the inode of a file that is created. -/
def start (counter : Counter) (file : Option RidsFile) (newInode : Nat) : StoredCounter :=
  match file with
  | none => ⟨counter, newInode, some ⟨newInode, none⟩⟩
  | some file => ⟨file.counter.getD ⟨0, 0⟩, file.inode, some file⟩

/-- `ReloadCounter`: the file is read again if it has another inode. -/
def reload (c : StoredCounter) (newInode : Nat) : StoredCounter :=
  if c.inode = fileInode c.file then c
  else
    match c.file with
    | none => { c with inode := 0, file := some ⟨newInode, none⟩ }
    | some file => { c with counter := file.counter.getD ⟨0, 0⟩, inode := file.inode }

/-- `StoreCounter`. -/
def store (c : StoredCounter) (newInode : Nat) : StoredCounter :=
  match c.file with
  | none => { c with file := some ⟨newInode, some c.counter⟩ }
  | some file => { c with file := some { file with counter := some c.counter } }

/-- `StoreSenderCounter`: the file is open. -/
def storeSender (c : StoredCounter) : StoredCounter :=
  { c with file := c.file.map fun file => { file with counter := some c.counter } }

end StoredCounter

/-! ## Keys -/

/-- `key_mode_t`. -/
inductive KeyMode where
  | raw
  | encryption
  | dual
  deriving DecidableEq

/-- The modes in which messages can be created and read. -/
def KeyMode.encrypts : KeyMode → Bool
  | .raw => false
  | .encryption => true
  | .dual => true

/-- An agent id as `OS_IsValidID` accepts it. -/
structure AgentId where
  text : Bytes
  short : text.length ≤ 8
  digits : text.all isDecimalDigit = true

/-- `keyentry`; `singleHost` is `isSingleHost` of its address. -/
structure KeyEntry where
  id : AgentId
  encryptionKey : Bytes
  stored : StoredCounter
  cryptoMethod : CryptMethod
  singleHost : Bool

/-! ## Creating a message -/

/-- The sender's side: its entry for the receiver, and its own counters. -/
structure Sender where
  keyMode : KeyMode
  entry : KeyEntry
  stored : StoredCounter

/-- The value `CreateSecMSG` returns and the bytes it has written to `msg_encrypted`. -/
structure Created where
  size : BitVec 64
  encrypted : Bytes

/-- `crypto_token`. -/
def cryptoToken : CryptMethod → Bytes
  | .blowfish => ascii ":"
  | .aes => ascii "#AES:"

/-- The counters are increased. -/
def increase (c : Counter) : Counter :=
  if 9997 ≤ c.localCount.toNat then ⟨c.globalCount + 1, 1⟩ else ⟨c.globalCount, c.localCount + 1⟩

/-- `"%05hu%010u:%04u:"` and the message. -/
def stamped (rand1 : BitVec 16) (c : Counter) (msg : Bytes) : Bytes :=
  printedDecimal 5 rand1.toNat ++ (printedDecimal 10 c.globalCount.toNat ++ (chr ':' ::
    (printedDecimal 4 c.localCount.toNat ++ (chr ':' :: msg))))

variable (P : Primitives)

/-- The text that is compressed: the checksum and the stamped message. -/
def summed (tmpmsg : Bytes) : Bytes := osMd5Str P tmpmsg tmpmsg.length ++ tmpmsg

/-- The compressed text with one to eight `!` in front, so that its length is divisible by 8. -/
def padMessage (stream : Bytes) : Bytes :=
  let cmpSize := stream.length + 1
  let bfsize := if 8 - cmpSize % 8 = 8 then 0 else 8 - cmpSize % 8
  ((List.replicate 8 (chr '!') ++ stream).drop (7 - bfsize)).take (cmpSize + bfsize)

/-- The beginning of the message that is not encrypted. An id has at most 8 digits, so it is not cut
off. -/
def messageHeader (isAgent : Bool) (entry : KeyEntry) : Bytes :=
  if !entry.singleHost && isAgent
    then chr '!' :: (entry.id.text ++ chr '!' :: cryptoToken entry.cryptoMethod)
  else cryptoToken entry.cryptoMethod

/-- The counters are read again if their file is another one, and increased. -/
def StoredCounter.next (c : StoredCounter) (newInode : Nat) : StoredCounter :=
  { c.reload newInode with counter := increase (c.reload newInode).counter }

/-- The padded text is encrypted behind the header. -/
def encryptMessage (isAgent : Bool) (entry : KeyEntry) (stream : Bytes) :
    Created :=
  let padded := padMessage stream
  let header := messageHeader isAgent entry
  let (out, cryptoLength) := doEncryptByMethod P entry.cryptoMethod entry.encryptionKey padded
  ⟨BitVec.ofNat 64 (max padded.length cryptoLength + header.length), header ++ out⟩

/-- `CreateSecMSG`. -/
def createSecMSG (isAgent : Bool) (s : Sender) (msg : Bytes) (rand1 : BitVec 16)
    (newInode : Nat) : Sender × Created :=
  if !s.keyMode.encrypts then (s, ⟨-1, []⟩)
  else if msg.length > osMaxstr - osHeaderSize ∨ msg.length < 1 then (s, ⟨0, []⟩)
  else
    let stored := s.stored.next newInode
    let stream := osZlibCompress P (summed P (stamped rand1 stored.counter msg)) (osMaxstr - 12)
    if stream.length = 0 then ({ s with stored := stored }, ⟨0, []⟩)
    else ({ s with stored := stored.storeSender }, encryptMessage P isAgent s.entry stream)

/-! ## Reading a message -/

/-- `key_states`; `wrongUsage` is -1. -/
inductive ReadCode where
  | wrongUsage
  | valid
  | rids
  | corrupt
  | enckey
  deriving DecidableEq

/-- What `ReadSecMSG` returns: the code, the memory from `*output` on, and `*final_size`. -/
structure Read where
  code : ReadCode
  output : Option Bytes
  finalSize : BitVec 64

/-- A result without a message. -/
def Read.fail (code : ReadCode) : Read := ⟨code, none, 0⟩

/-- Whether the program is the agent, `_s_verify_counter` and `_s_recv_flush`. -/
structure Settings where
  client : Bool
  verifyCounter : Bool
  recvFlush : BitVec 32

/-- The receiver's side: its entry for the sender, and `rcv_count`. -/
structure Receiver where
  keyMode : KeyMode
  entry : KeyEntry
  rcvCount : BitVec 32

/-- `CheckSum`: the text behind the checksum. The computed one has no end character, so `strncmp`
compares all of it. -/
def checkSum (msg : Bytes) (length : Nat) : Option Bytes :=
  if osMd5Str P (msg.drop 32) (length - 32 : Int) = msg.take 32 then some (msg.drop 32) else none

namespace Receiver

variable (cfg : Settings)

/-- The counters are updated and, after `_s_recv_flush` messages, stored. -/
def accept (r : Receiver) (c : Counter) (newInode : Nat) : Receiver :=
  let stored := { r.entry.stored with counter := c }
  if r.rcvCount ≥ cfg.recvFlush then
    { r with entry := { r.entry with stored := stored.store newInode }, rcvCount := 1 }
  else { r with entry := { r.entry with stored := stored }, rcvCount := r.rcvCount + 1 }

/-- The counters are read again when they are due. -/
def reloadDue (r : Receiver) (newInode : Nat) : Receiver :=
  if r.rcvCount ≥ cfg.recvFlush
    then { r with entry := { r.entry with stored := r.entry.stored.reload newInode } }
  else r

/-- The check of the counters of a compressed message. -/
def checkCounter (r : Receiver) (c : Counter) (newInode : Nat) :
    Receiver × ReadCode :=
  if !cfg.verifyCounter then (r.accept cfg c newInode, .valid)
  else
    let r := r.reloadDue cfg newInode
    if r.entry.stored.counter.Below c then (r.accept cfg c newInode, .valid)
    else if c.globalCount = r.entry.stored.counter.globalCount then (r, .rids)
    else (r, .enckey)

/-- What is done with the counters is the result; the message is given out only if they are
accepted. -/
def answer (checked : Receiver × ReadCode) (msg : Bytes) (finalSize : BitVec 64) :
    Receiver × Read :=
  (checked.1, ⟨checked.2, if checked.2 = .valid then some msg else none, finalSize⟩)

/-- The text of a compressed message behind the checksum: the random number, the counters and the
message. -/
def readStamped (r : Receiver) (buffer msg : Bytes) (length newInode : Nat) :
    Receiver × Read :=
  let globalText := msg.drop 5
  let separator := globalText.drop 10
  if separator.head? ≠ some (chr ':') then (r, .fail .corrupt)
  else
    let localText := separator.tail
    let msg := localText.drop 5
    answer (r.checkCounter cfg ⟨atoi globalText, atoi localText⟩ newInode) msg
      (BitVec.ofNat 64 length - BitVec.ofNat 64 (buffer.length - msg.length))

/-- Memory that begins with a text that was written to it. -/
def overwrite (memory text : Bytes) : Bytes := text ++ memory.drop text.length

variable (r : Receiver)

/-- A compressed message. -/
def readCompressed (buffer cleartext : Bytes) (bufferSize : BitVec 32)
    (newInode : Nat) : Receiver × Read :=
  let padded := (cleartext.set bufferSize.toNat 0).tail
  let stream := padded.dropWhile fun b => b == chr '!'
  let bufferSize := bufferSize - 1 - BitVec.ofNat 32 (padded.length - stream.length)
  let out := osZlibUncompress P (stream.take bufferSize.toNat) osMaxstr
  if out.length = 0 then (r, .fail .corrupt)
  else
    let buffer := overwrite buffer (out ++ [0])
    match checkSum P buffer out.length with
    | none => (r, .fail .corrupt)
    | some msg => readStamped cfg r buffer msg out.length newInode

/-- `strchr`. -/
def strchr (c : UInt8) : Bytes → Option Bytes
  | [] => none
  | b :: rest => if b = c then some (b :: rest) else if b = 0 then none else strchr c rest

/-- The message of the old format is the text behind the next colon. -/
def answerOld (cleartext msg : Bytes) (bufferSize : BitVec 32) : Receiver × Read :=
  match strchr (chr ':') msg with
  | none => (r, .fail .corrupt)
  | some colon =>
    (r, ⟨.valid, some colon.tail,
      BitVec.ofNat 64 bufferSize.toNat - BitVec.ofNat 64 (cleartext.length - colon.tail.length)⟩)

/-- New counters, without the files. -/
def setCounter (c : Counter) : Receiver :=
  { r with entry := { r.entry with stored := { r.entry.stored with counter := c } } }

/-- The time takes the place of the global counter. Without verification the local counter is set to
`msg_local`, which is 0. -/
def readOldFormat (cleartext : Bytes) (bufferSize : BitVec 32) :
    Receiver × Read :=
  let cleartext := (cleartext.set bufferSize.toNat 0).tail
  match checkSum P cleartext bufferSize.toNat with
  | none => (r, .fail .corrupt)
  | some msg =>
    let msgTime := atoi msg
    let msgCount := atoi (msg.drop 11)
    let msg := msg.drop 16
    if !cfg.verifyCounter then answerOld (r.setCounter ⟨msgTime, 0⟩) cleartext msg bufferSize
    else if r.entry.stored.counter.Below ⟨msgTime, msgCount⟩ then
      answerOld (r.setCounter ⟨msgTime, msgCount⟩) cleartext msg bufferSize
    else (r, .fail .rids)

/-- The text after decryption. -/
def readCleartext (buffer cleartext : Bytes) (bufferSize : BitVec 32)
    (newInode : Nat) : Receiver × Read :=
  if cleartext.head? = some (chr '!')
    then r.readCompressed P cfg buffer cleartext bufferSize newInode
  else if cleartext.head? = some (chr ':') then r.readOldFormat P cfg cleartext bufferSize
  else (r, .fail .enckey)

/-- The manager takes the method from the message; the agent has it in its configuration. -/
def setMethod (method : CryptMethod) : Receiver :=
  if cfg.client then r else { r with entry := { r.entry with cryptoMethod := method } }

/-- The text behind the token: a colon and the encrypted message. -/
def readEncrypted (buffer cleartext : Bytes) (bufferSize : BitVec 32)
    (newInode : Nat) : Receiver × Read :=
  if buffer.head? ≠ some (chr ':') then (r, .fail .corrupt)
  else
    match decryptByMethod P r.entry.cryptoMethod r.entry.encryptionKey buffer.tail bufferSize with
    | none => (r, .fail .enckey)
    | some clear =>
      r.readCleartext P cfg buffer.tail (overwrite cleartext clear) bufferSize newInode

/-- `ReadSecMSG`. -/
def readSecMSG (buffer cleartext : Bytes) (bufferSize : BitVec 32)
    (newInode : Nat) : Receiver × Read :=
  if !r.keyMode.encrypts then (r, .fail .wrongUsage)
  else if buffer.take 4 = ascii "#AES" then
    (r.setMethod cfg .aes).readEncrypted P cfg (buffer.drop 4) cleartext bufferSize newInode
  else (r.setMethod cfg .blowfish).readEncrypted P cfg buffer cleartext bufferSize newInode

end Receiver

/-! ## Receiving -/

/-- What `HandleSecureMessage` makes of the beginning of a message: the text for `ReadSecMSG` and
what is left of `recv_b`, or nothing. -/
def stripId (buffer : Bytes) (recvB : Int) : Option (Bytes × Int) :=
  if buffer.head? = some (chr '!') then
    let tmpMsg := buffer.tail.dropWhile isDecimalDigit
    if tmpMsg.head? = some (chr '!')
      then some (tmpMsg.tail, recvB - (buffer.tail.length - tmpMsg.length : Nat) - 2)
    else none
  else if buffer.take 5 = ascii "#ping" then none
  else some (buffer, recvB)

/-- A message of `recvB` bytes is received: by the agent in `receive_msg`, by the manager in
`HandleSecureMessage`. -/
def Receiver.receive (P : Primitives) (cfg : Settings) (r : Receiver) (buffer cleartext : Bytes)
    (recvB : Int) (newInode : Nat) : Receiver × Option Read :=
  match if cfg.client then some (buffer, recvB) else stripId buffer recvB with
  | none => (r, none)
  | some (tmpMsg, recvB) =>
    if recvB ≤ 0 then (r, none)
    else
      let (r, read) := r.readSecMSG P cfg tmpMsg cleartext (BitVec.ofInt 32 (recvB - 1)) newInode
      (r, some read)

end WazAISentinel.OsCrypto.Msgs
