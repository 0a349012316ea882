import WazAISentinel.Foundations.MachineWord
import WazAISentinel.Foundations.Segment

/-!
# Receiving messages from a stream

`netbuffer.c`: the bytes that `recv` gives are collected in a buffer per socket. A message is its
length in four bytes (in the order of `wnet_order`) and the payload; `nb_recv` pushes every message
that is complete and keeps the rest. So after any calls the messages pushed and the rest make up all
that was received, however it was segmented.

The byte order of the machine is a parameter and the result of `recv` an input. Reading cells that
were not written and accesses outside the buffer are undefined (`none`).
-/

namespace WazAISentinel.Remoted

open Foundations

/-- The settings of the daemon and the byte order of the machine. -/
structure Settings where
  bigEndian : Bool
  receiveChunk : Nat
  bufferRelax : Nat

/-- `OS_MAXSTR`. -/
def osMaxStr : Nat := 65536

variable (bigEndian : Bool)

/-- `wnet_order`. -/
def wnetOrder (value : BitVec 32) : BitVec 32 :=
  if bigEndian then
    (value >>> 24) ||| (value <<< 24) ||| ((value &&& 0xFF0000#32) >>> 8) |||
      ((value &&& 0xFF00#32) <<< 8)
  else value

/-- A word as the machine stores it. -/
def storeWord (value : BitVec 32) : List UInt8 :=
  if bigEndian then bytesBig value else bytesLittle value

/-- A word as the machine reads it. -/
def loadWord (bytes : List UInt8) : Option (BitVec 32) :=
  if bigEndian then wordBig bytes else wordLittle bytes

/-- The data `nb_queue` puts into the queue: header and payload. -/
def queueData (msg : List UInt8) : List UInt8 :=
  storeWord bigEndian (wnetOrder bigEndian (BitVec.ofNat 32 msg.length)) ++ msg

/-- `sockbuffer_t`: the receiving part. -/
structure SockBuffer where
  data : Segment UInt8
  dataSize : Nat
  dataLen : Nat

/-- What `recv` returns: a number of bytes, or no bytes and a code that is not positive. -/
inductive Received where
  | bytes (bs : List UInt8)
  | failed (code : Int)

namespace SockBuffer

/-- The buffer after `nb_open`. -/
def opened : SockBuffer := ⟨[], 0, 0⟩

variable (cfg : Settings)

/-- Extend the data buffer. -/
def extend (buf : SockBuffer) : SockBuffer :=
  let dataExt := buf.dataLen + cfg.receiveChunk
  if dataExt > buf.dataSize
    then { buf with data := buf.data.realloc dataExt, dataSize := dataExt } else buf

/-- The loop that dispatches messages: where it ends, the messages it pushed and whether a header
was too large. -/
def dispatch (buf : SockBuffer) :
    Nat → Nat → List (List UInt8) → Option (Nat × List (List UInt8) × Bool)
  | 0, _, _ => none
  | fuel + 1, i, pushed =>
    if i + 4 ≤ buf.dataLen then do
      let header ← buf.data.load i 4
      let word ← loadWord cfg.bigEndian header
      let curLen := (wnetOrder cfg.bigEndian word).toNat
      if curLen > osMaxStr then pure (i, pushed, true)
      else
        let curOffset := i + 4
        if curOffset + curLen > buf.dataLen then pure (i, pushed, false)
        else do
          let msg ← buf.data.load curOffset curLen
          dispatch buf fuel (curOffset + curLen) (pushed ++ [msg])
    else pure (i, pushed, false)

/-- The remaining data at the data start. -/
def moveRest (buf : SockBuffer) (i : Nat) : Option (Segment UInt8) :=
  if i < buf.dataLen then buf.data.memmove 0 i (buf.dataLen - i) else some buf.data

/-- The memory that is kept, by `buffer_relax`. -/
def relax (buf : SockBuffer) : SockBuffer :=
  match cfg.bufferRelax with
  | 0 => buf
  | 1 =>
    let dataSize := if buf.dataLen > cfg.receiveChunk then buf.dataLen else cfg.receiveChunk
    { buf with data := buf.data.realloc dataSize, dataSize := dataSize }
  | _ =>
    { buf with
      data := if buf.dataLen ≠ 0 then buf.data.realloc buf.dataLen else []
      dataSize := buf.dataLen }

/-- Remove what was dispatched. -/
def compact (buf : SockBuffer) (i : Nat) : Option SockBuffer :=
  if i > 0 then do
    let data ← buf.moveRest i
    pure (relax cfg { buf with data := data, dataLen := buf.dataLen - i })
  else some buf

/-- `nb_recv`: the messages it pushes and the value it returns. -/
def nbRecv (buf : SockBuffer) (received : Received) :
    Option (SockBuffer × List (List UInt8) × Int) :=
  let buf := buf.extend cfg
  match received with
  | .failed code => some (buf, [], code)
  | .bytes bs => do
      let data ← buf.data.write buf.dataLen (bs.map some)
      let buf := { buf with data := data, dataLen := buf.dataLen + bs.length }
      let (i, pushed, corrupted) ← buf.dispatch cfg (buf.dataLen + 1) 0 []
      if corrupted then pure (buf, pushed, -2)
      else do
        let buf ← buf.compact cfg i
        pure (buf, pushed, bs.length)

/-- A sequence of calls of `nb_recv`: all messages pushed and the values returned. -/
def nbRecvAll (buf : SockBuffer) :
    List Received → Option (SockBuffer × List (List UInt8) × List Int)
  | [] => some (buf, [], [])
  | received :: rest => do
      let (buf, pushed, code) ← buf.nbRecv cfg received
      let (buf, later, codes) ← nbRecvAll buf rest
      pure (buf, pushed ++ later, code :: codes)

end SockBuffer

open List Option

/-! ## Headers -/

/-- A message with its header. -/
def frame (msg : List UInt8) : List UInt8 := bytesLittle (BitVec.ofNat 32 msg.length) ++ msg

variable (msgs : List (List UInt8))

/-- Messages with their headers. -/
def frames : List UInt8 := msgs.flatMap frame

@[simp] theorem frames_nil : frames [] = [] := rfl

@[simp] theorem frames_cons (m : List UInt8) (ms : List (List UInt8)) :
    frames (m :: ms) = frame m ++ frames ms := rfl

theorem frames_append (ms ms' : List (List UInt8)) : frames (ms ++ ms') = frames ms ++ frames ms' :=
  flatMap_append

@[simp] theorem length_frame (m : List UInt8) : (frame m).length = 4 + m.length := by
  rw [frame, length_append, length_bytesLittle]

/-- There are at least as many bytes as messages. -/
theorem length_le_frames (ms : List (List UInt8)) : ms.length ≤ (frames ms).length := by
  induction ms with
  | nil => exact Nat.le_refl _
  | cons m ms ih =>
    rw [frames_cons, length_append, length_frame, length_cons]
    omega

/-- Exchanging the bytes of a word, bit by bit. -/
theorem byteAt_wnetOrder (v : BitVec 32) {k : Nat} (hk : k < 4) :
    byteAt (wnetOrder true v) k = byteAt v (3 - k) := by
  simp only [byteAt]
  congr 1
  apply BitVec.eq_of_getLsbD_eq
  intro i hi
  simp only [wnetOrder, if_true, BitVec.getLsbD_extractLsb', BitVec.getLsbD_or, BitVec.getLsbD_and,
    BitVec.getLsbD_ushiftRight, BitVec.getLsbD_shiftLeft]
  interval_cases k <;> interval_cases i <;> simp

/-- The header in memory has the low byte first. -/
theorem queueData_eq (bigEndian : Bool) (msg : List UInt8) :
    queueData bigEndian msg = frame msg := by
  rw [queueData, frame]
  cases bigEndian with
  | false => rfl
  | true =>
    have h0 := byteAt_wnetOrder (BitVec.ofNat 32 msg.length) (k := 0) (by decide)
    have h1 := byteAt_wnetOrder (BitVec.ofNat 32 msg.length) (k := 1) (by decide)
    have h2 := byteAt_wnetOrder (BitVec.ofNat 32 msg.length) (k := 2) (by decide)
    have h3 := byteAt_wnetOrder (BitVec.ofNat 32 msg.length) (k := 3) (by decide)
    rw [storeWord, if_pos rfl, bytesBig, bytesLittle, h0, h1, h2, h3]

variable {v : BitVec 32} {m chunk tail rest : List UInt8} {i : Nat} {ms : List (List UInt8)}
  {calls : List Received}

/-- The header is read with the low byte first. -/
theorem loadWord_header (bigEndian : Bool) {header : List UInt8} (h : wordLittle header = some v) :
    ∃ w, loadWord bigEndian header = some w ∧ wnetOrder bigEndian w = v := by
  match header, h with
  | [a, b, c, d], h =>
    cases bigEndian with
    | false => exact ⟨v, h, rfl⟩
    | true =>
      refine ⟨joinBytes d c b a, rfl, ?_⟩
      rw [← some.inj h]
      apply BitVec.eq_of_getLsbD_eq
      intro i hi
      simp only [wnetOrder, if_true, joinBytes, BitVec.getLsbD_or, BitVec.getLsbD_and,
        BitVec.getLsbD_ushiftRight, BitVec.getLsbD_shiftLeft, BitVec.getLsbD_append]
      interval_cases i <;> simp

/-- The length in the header of a message. -/
theorem wordLittle_frame (m bs : List UInt8) :
    wordLittle ((frame m ++ bs).take 4) = some (BitVec.ofNat 32 m.length) := by
  have htake : (frame m ++ bs).take 4 = bytesLittle (BitVec.ofNat 32 m.length) := by
    rw [frame, append_assoc]
    exact take_left' (length_bytesLittle _)
  rw [htake, wordLittle_bytesLittle]

theorem toNat_length (hm : m.length ≤ osMaxStr) : (BitVec.ofNat 32 m.length).toNat = m.length := by
  rw [osMaxStr] at hm
  rw [BitVec.toNat_ofNat, Nat.mod_eq_of_lt (by omega)]

/-! ## Complete messages and the rest -/

/-- Bytes that do not begin with a complete message. -/
def Incomplete (rest : List UInt8) : Prop :=
  rest.length < 4 ∨
    ∃ v, wordLittle (rest.take 4) = some v ∧ v.toNat ≤ osMaxStr ∧ rest.length < 4 + v.toNat

/-- Bytes that begin with a header that is too large. -/
def Corrupt (rest : List UInt8) : Prop :=
  4 ≤ rest.length ∧ ∃ v, wordLittle (rest.take 4) = some v ∧ osMaxStr < v.toNat

/-- A beginning of a message that is not all of it. -/
theorem incomplete_of_prefix (hm : m.length ≤ osMaxStr) (hbegins : rest <+: frame m)
    (hless : rest.length < (frame m).length) : Incomplete rest := by
  by_cases hheader : rest.length < 4
  · exact .inl hheader
  · refine .inr ⟨BitVec.ofNat 32 m.length, ?_, ?_, ?_⟩
    · have htake : rest.take 4 = (frame m).take 4 := by
        rw [prefix_iff_eq_take.1 hbegins, take_take, Nat.min_eq_left (by omega)]
      have hword := wordLittle_frame m []
      rw [append_nil] at hword
      rw [htake, hword]
    · rw [toNat_length hm]
      exact hm
    · rw [toNat_length hm]
      rwa [length_frame] at hless

section Dispatch

variable {buf : SockBuffer} {bs : List UInt8}

/-- One round of the loop at a header. -/
theorem dispatch_header (cfg : Settings) (hdata : buf.data.Begins bs)
    (hlen : buf.dataLen = bs.length) (hi : i + 4 ≤ bs.length)
    (hword : wordLittle ((bs.drop i).take 4) = some v) (fuel : Nat) (pushed : List (List UInt8)) :
    buf.dispatch cfg (fuel + 1) i pushed = if v.toNat > osMaxStr then some (i, pushed, true)
      else if i + 4 + v.toNat > bs.length then some (i, pushed, false)
      else
        buf.dispatch cfg fuel (i + 4 + v.toNat) (pushed ++ [(bs.drop (i + 4)).take v.toNat]) := by
  obtain ⟨w, hload, hw⟩ := loadWord_header cfg.bigEndian hword
  rw [SockBuffer.dispatch, if_pos (by omega), hdata.load hi]
  simp only [Option.bind_eq_bind, Option.bind_some, hload, hw, Option.pure_def, hlen]
  split
  · rfl
  · split
    · rfl
    · rw [hdata.load (by omega)]
      rfl

/-- The loop of `nb_recv` pushes the complete messages and stops before the rest. -/
theorem dispatch_spec (cfg : Settings) (hdata : buf.data.Begins bs) (hlen : buf.dataLen = bs.length)
    (hms : ∀ m ∈ ms, m.length ≤ osMaxStr) {fuel : Nat} (pushed : List (List UInt8))
    (hi : i ≤ bs.length) (hsplit : bs.drop i = frames ms ++ rest) (hfuel : ms.length < fuel) :
    (Incomplete rest →
      buf.dispatch cfg fuel i pushed = some (i + (frames ms).length, pushed ++ ms, false)) ∧
    (Corrupt rest →
      buf.dispatch cfg fuel i pushed = some (i + (frames ms).length, pushed ++ ms, true)) := by
  -- induction on the messages; each round of the loop takes one
  induction ms generalizing i fuel pushed with
  | nil =>
    obtain ⟨fuel, rfl⟩ : ∃ k, fuel = k + 1 := Nat.exists_eq_add_one.2 (Nat.zero_lt_of_lt hfuel)
    rw [frames_nil, nil_append] at hsplit
    have hlength : bs.length - i = rest.length := by
      rw [← length_drop, hsplit]
    simp only [frames_nil, length_nil, Nat.add_zero, append_nil]
    constructor
    · intro hrest
      by_cases hshort : rest.length < 4
      · rw [SockBuffer.dispatch, if_neg (by omega)]
        rfl
      · obtain ⟨v, hword, hmax, hless⟩ := hrest.resolve_left hshort
        rw [dispatch_header cfg hdata hlen (by omega) (by rw [hsplit, hword]), if_neg (by omega),
          if_pos (by omega)]
    · rintro ⟨hlong, v, hword, hmax⟩
      rw [dispatch_header cfg hdata hlen (by omega) (by rw [hsplit, hword]), if_pos hmax]
  | cons m ms ih =>
    obtain ⟨fuel, rfl⟩ : ∃ k, fuel = k + 1 := Nat.exists_eq_add_one.2 (Nat.zero_lt_of_lt hfuel)
    rw [frames_cons, append_assoc] at hsplit
    have hm := hms m mem_cons_self
    have htoNat := toNat_length hm
    have hlength : bs.length - i = 4 + m.length + (frames ms ++ rest).length := by
      rw [← length_drop, hsplit, length_append, length_frame]
    have hword : wordLittle ((bs.drop i).take 4) = some (BitVec.ofNat 32 m.length) := by
      rw [hsplit, wordLittle_frame]
    have hpayload : (bs.drop (i + 4)).take m.length = m := by
      rw [← drop_drop, hsplit, frame, append_assoc, drop_left' (length_bytesLittle _)]
      exact take_left
    have hnext : bs.drop (i + 4 + m.length) = frames ms ++ rest := by
      rw [Nat.add_assoc, ← drop_drop, hsplit, ← length_frame]
      exact drop_left
    have hround : buf.dispatch cfg (fuel + 1) i pushed =
        buf.dispatch cfg fuel (i + 4 + m.length) (pushed ++ [m]) := by
      rw [dispatch_header cfg hdata hlen (by omega) hword, htoNat, if_neg (by omega),
        if_neg (by omega), hpayload]
    have hlater := ih (fun m' hm' => hms m' (mem_cons_of_mem _ hm')) (pushed ++ [m])
      (by omega) hnext (by simpa using hfuel)
    have hend : i + (frames (m :: ms)).length = i + 4 + m.length + (frames ms).length := by
      rw [frames_cons, length_append, length_frame]
      omega
    rw [append_assoc, singleton_append] at hlater
    rw [hround, hend]
    exact hlater

end Dispatch

/-! ## One call -/

namespace SockBuffer

/-- The buffer keeps the bytes `bs`. -/
structure Keeps (buf : SockBuffer) (bs : List UInt8) : Prop where
  size : buf.data.length = buf.dataSize
  length : buf.dataLen = bs.length
  bytes : buf.data.Begins bs

variable {cfg : Settings} {buf : SockBuffer} {bs kept : List UInt8}

theorem keeps_opened : opened.Keeps [] := ⟨rfl, rfl, Segment.begins_nil _⟩

theorem Keeps.extend (h : buf.Keeps bs) (cfg : Settings) :
    (buf.extend cfg).Keeps bs ∧ bs.length + cfg.receiveChunk ≤ (buf.extend cfg).data.length := by
  have hsize := h.size
  have hlength := h.length
  rw [SockBuffer.extend]
  split
  · refine ⟨⟨Segment.length_realloc .., hlength, h.bytes.realloc (by omega)⟩, ?_⟩
    rw [Segment.length_realloc, hlength]
  · exact ⟨h, by omega⟩

/-- Releasing memory keeps the bytes. -/
theorem Keeps.relax (h : buf.Keeps bs) (cfg : Settings) : (buf.relax cfg).Keeps bs := by
  have hlength := h.length
  rw [SockBuffer.relax]
  split
  · exact h
  · refine ⟨Segment.length_realloc .., hlength, h.bytes.realloc ?_⟩
    split <;> omega
  · by_cases hzero : buf.dataLen = 0
    · have hbs : bs = [] := length_eq_zero_iff.1 (by omega)
      subst hbs
      rw [if_neg (not_not.2 hzero), hzero]
      exact ⟨rfl, rfl, Segment.begins_nil _⟩
    · rw [if_pos hzero]
      exact ⟨Segment.length_realloc .., hlength, h.bytes.realloc (by omega)⟩

/-- Removing what was dispatched keeps the rest. -/
theorem Keeps.compact (h : buf.Keeps bs) (cfg : Settings) (hi : i ≤ bs.length) :
    ∃ buf', buf.compact cfg i = some buf' ∧ buf'.Keeps (bs.drop i) := by
  have hlength := h.length
  rw [SockBuffer.compact]
  by_cases hpos : i > 0
  · have hmove : ∃ data, buf.moveRest i = some data ∧ data.length = buf.data.length ∧
        data.Begins (bs.drop i) := by
      rw [moveRest]
      split
      · rw [hlength]
        exact h.bytes.memmove hi
      · have hall : bs.drop i = [] := drop_eq_nil_iff.2 (by omega)
        rw [hall]
        exact ⟨buf.data, rfl, rfl, Segment.begins_nil _⟩
    obtain ⟨data, hdata, hsize, hbytes⟩ := hmove
    have hkeeps : { buf with data := data, dataLen := buf.dataLen - i }.Keeps (bs.drop i) :=
      ⟨hsize.trans h.size, by rw [length_drop, hlength], hbytes⟩
    refine ⟨_, ?_, hkeeps.relax cfg⟩
    rw [if_pos hpos, hdata]
    rfl
  · obtain rfl : i = 0 := by omega
    exact ⟨buf, if_neg hpos, h⟩

/-- The buffer with the bytes received. -/
theorem Keeps.receive (h : buf.Keeps kept) (cfg : Settings)
    (hchunk : chunk.length ≤ cfg.receiveChunk) :
    ∃ data, (buf.extend cfg).data.write (buf.extend cfg).dataLen (chunk.map some) = some data ∧
      (SockBuffer.mk data (buf.extend cfg).dataSize ((buf.extend cfg).dataLen + chunk.length)).Keeps
        (kept ++ chunk) := by
  obtain ⟨hkeeps, hroom⟩ := h.extend cfg
  obtain ⟨data, hwrite, hsize, hbytes⟩ := hkeeps.bytes.write chunk (by omega)
  rw [← hkeeps.length] at hwrite
  refine ⟨data, hwrite, hsize.trans hkeeps.size, ?_, hbytes⟩
  rw [length_append, hkeeps.length]

/-- `nb_recv` pushes the complete messages. It keeps the rest, or reports that it begins with a
header that is too large. -/
theorem nbRecv_spec (h : buf.Keeps kept) (hchunk : chunk.length ≤ cfg.receiveChunk)
    (hms : ∀ m ∈ ms, m.length ≤ osMaxStr) (hsplit : kept ++ chunk = frames ms ++ rest) :
    (Incomplete rest → ∃ buf',
      buf.nbRecv cfg (.bytes chunk) = some (buf', ms, (chunk.length : Int)) ∧ Keeps buf' rest) ∧
    (Corrupt rest → ∃ buf', buf.nbRecv cfg (.bytes chunk) = some (buf', ms, -2)) := by
  obtain ⟨data, hwrite, hkeeps⟩ := h.receive cfg hchunk
  have hfuel : ms.length < (buf.extend cfg).dataLen + chunk.length + 1 := by
    have hmost := length_le_frames ms
    have hlength := hkeeps.length
    rw [hsplit, length_append] at hlength
    dsimp only at hlength
    omega
  have hloop := dispatch_spec cfg hkeeps.bytes hkeeps.length hms [] (Nat.zero_le _) hsplit hfuel
  rw [Nat.zero_add, nil_append] at hloop
  constructor
  · intro hrest
    have hinside : (frames ms).length ≤ (kept ++ chunk).length := by
      rw [hsplit, length_append]
      exact Nat.le_add_right ..
    obtain ⟨buf', hcompact, hbuf'⟩ := hkeeps.compact cfg hinside
    rw [hsplit, drop_left] at hbuf'
    refine ⟨buf', ?_, hbuf'⟩
    simp [nbRecv, hwrite, hloop.1 hrest, hcompact]
  · intro hrest
    refine ⟨⟨data, (buf.extend cfg).dataSize, (buf.extend cfg).dataLen + chunk.length⟩, ?_⟩
    simp [nbRecv, hwrite, hloop.2 hrest]

end SockBuffer

/-! ## Any number of calls -/

/-- The bytes that `recv` gave. -/
def bytesOf : List Received → List UInt8
  | [] => []
  | .bytes bs :: calls => bs ++ bytesOf calls
  | .failed _ :: calls => bytesOf calls

/-- What `recv` can return. -/
def Received.Possible (cfg : Settings) : Received → Prop
  | .bytes bs => 1 ≤ bs.length ∧ bs.length ≤ cfg.receiveChunk
  | .failed code => code ≤ 0

/-- What `nb_recv` returns if no header is too large: the result of `recv`. -/
def Received.code : Received → Int
  | .bytes bs => bs.length
  | .failed code => code

/-- The rest of what was received: less than the next message, or bytes after the last one. -/
def Rest (later : List (List UInt8)) (tail rest : List UInt8) : Prop :=
  match later with
  | [] => rest <+: tail
  | m :: _ => rest <+: frame m ∧ rest.length < (frame m).length

/-- A beginning of a stream is some complete messages and a rest. -/
theorem exists_rest {received : List UInt8} (h : received <+: frames msgs ++ tail) :
    ∃ ms later rest, msgs = ms ++ later ∧ received = frames ms ++ rest ∧ Rest later tail rest := by
  induction msgs generalizing received with
  | nil => exact ⟨[], [], received, rfl, rfl, h⟩
  | cons m msgs ih =>
    rw [frames_cons, append_assoc] at h
    by_cases hless : received.length < (frame m).length
    · refine ⟨[], m :: msgs, received, rfl, rfl, ?_, hless⟩
      exact prefix_of_prefix_length_le h (prefix_append ..) hless.le
    · obtain ⟨received', rfl⟩ :=
        prefix_of_prefix_length_le (prefix_append ..) h (Nat.le_of_not_lt hless)
      obtain ⟨ms, later, rest, rfl, rfl, hrest⟩ := ih ((prefix_append_right_inj _).1 h)
      refine ⟨m :: ms, later, rest, rfl, ?_, hrest⟩
      rw [frames_cons, append_assoc]

namespace SockBuffer

variable {cfg : Settings} {buf : SockBuffer} {kept : List UInt8}

/-- Whatever the calls of `recv` give: the messages pushed and the rest make up what was
received. -/
theorem nbRecvAll_spec {msgs : List (List UInt8)} (hmsgs : ∀ m ∈ msgs, m.length ≤ osMaxStr)
    (hpossible : ∀ r ∈ calls, r.Possible cfg) (hkeeps : buf.Keeps kept)
    (hkept : Rest msgs tail kept) (hreceived : kept ++ bytesOf calls <+: frames msgs ++ tail)
    (hshort : (kept ++ bytesOf calls).length < (frames msgs).length + 4) :
    ∃ buf' ms later rest, msgs = ms ++ later ∧
      buf.nbRecvAll cfg calls = some (buf', ms, calls.map Received.code) ∧ Keeps buf' rest ∧
      kept ++ bytesOf calls = frames ms ++ rest ∧ Rest later tail rest := by
  induction calls generalizing buf kept msgs with
  | nil =>
    refine ⟨buf, [], msgs, kept, rfl, rfl, hkeeps, ?_, hkept⟩
    rw [bytesOf, append_nil]
    rfl
  | cons received calls ih =>
    have hlater : ∀ r ∈ calls, r.Possible cfg := fun r hr => hpossible r (mem_cons_of_mem _ hr)
    cases received with
    | failed code =>
      -- no bytes: only the size of the buffer may change
      obtain ⟨buf', ms, later, rest, hmsgs', hrun, hend⟩ :=
        ih hmsgs hlater (hkeeps.extend cfg).1 hkept hreceived hshort
      refine ⟨buf', ms, later, rest, hmsgs', ?_, hend⟩
      rw [nbRecvAll, nbRecv]
      simp [hrun, Received.code]
    | bytes chunk =>
      rw [bytesOf, ← append_assoc] at hreceived hshort
      obtain ⟨ms, later, rest, rfl, hsplit, hrest⟩ :=
        exists_rest msgs ((prefix_append ..).trans hreceived)
      rw [hsplit, append_assoc, frames_append, append_assoc, prefix_append_right_inj] at hreceived
      simp only [hsplit, frames_append, length_append] at hshort
      have hms : ∀ m ∈ ms, m.length ≤ osMaxStr := fun m hm => hmsgs m (mem_append_left _ hm)
      have hlater' : ∀ m ∈ later, m.length ≤ osMaxStr := fun m hm => hmsgs m (mem_append_right _ hm)
      -- the header after the messages is not there yet
      have hincomplete : Incomplete rest := by
        cases later with
        | nil =>
          rw [frames_nil, length_nil] at hshort
          exact .inl (by omega)
        | cons m later => exact incomplete_of_prefix (hlater' m mem_cons_self) hrest.1 hrest.2
      obtain ⟨buf₁, hcall, hkeeps₁⟩ :=
        (nbRecv_spec hkeeps (hpossible _ mem_cons_self).2 hms hsplit).1 hincomplete
      obtain ⟨buf', ms', later', rest', rfl, hrun, hkeeps', hall, hrest'⟩ :=
        ih hlater' hlater hkeeps₁ hrest hreceived (by rw [length_append]; omega)
      refine ⟨buf', ms ++ ms', later', rest', (append_assoc ..).symm, ?_, hkeeps', ?_, hrest'⟩
      · rw [nbRecvAll, hcall]
        simp [hrun, Received.code]
      · rw [bytesOf, ← append_assoc, hsplit, append_assoc, hall, frames_append, append_assoc]

theorem nbRecvAll_append (buf : SockBuffer) (calls more : List Received) :
    buf.nbRecvAll cfg (calls ++ more) =
    (buf.nbRecvAll cfg calls).bind fun r => (r.1.nbRecvAll cfg more).map fun r' =>
      (r'.1, r.2.1 ++ r'.2.1, r.2.2 ++ r'.2.2) := by
  induction calls generalizing buf with
  | nil => exact map_id'.symm
  | cons first calls ih =>
    rw [cons_append, nbRecvAll, nbRecvAll]
    cases buf.nbRecv cfg first with
    | none => rfl
    | some call =>
      simp only [bind_eq_bind, bind_some, ih]
      cases call.1.nbRecvAll cfg calls with
      | none => rfl
      | some r => cases hmore : r.1.nbRecvAll cfg more <;> simp [hmore]

end SockBuffer

/-! ## The stream -/

/-- The stream of messages, as `nb_queue` encodes them. -/
def stream (cfg : Settings) (msgs : List (List UInt8)) : List UInt8 :=
  msgs.flatMap (queueData cfg.bigEndian)

theorem stream_eq (cfg : Settings) (msgs : List (List UInt8)) : stream cfg msgs = frames msgs := by
  rw [stream, funext (queueData_eq cfg.bigEndian), frames]

theorem rest_nil (tail : List UInt8) : Rest msgs tail [] := by
  cases msgs with
  | nil => exact nil_prefix
  | cons m msgs =>
    refine ⟨List.nil_prefix, ?_⟩
    rw [length_frame, length_nil]
    omega

/-- A header that is too large, in the order of the machine. -/
theorem corrupt_of_header {bigEndian : Bool} {header : List UInt8} {word : BitVec 32}
    (hload : loadWord bigEndian header = some word)
    (hlarge : osMaxStr < (wnetOrder bigEndian word).toNat) (hrest : rest.take 4 = header)
    (hlength : 4 ≤ rest.length) : Corrupt rest := by
  have hheader : header.length = 4 := by
    rw [← hrest, length_take_of_le hlength]
  obtain ⟨v, hv⟩ := exists_wordLittle hheader
  obtain ⟨w, hload', hw⟩ := loadWord_header bigEndian hv
  rw [hload, some.injEq] at hload'
  rw [hload', hw] at hlarge
  exact ⟨hlength, v, by rw [hrest, hv], hlarge⟩

/-- However the stream of messages is cut into the results of `recv`, the calls of `nb_recv` push a
beginning of the list of messages, and the buffer keeps the bytes that follow it, which are less
than the next message. If a header that is too large follows the messages, the call that receives it
returns -2 and exactly these messages have been pushed. -/
theorem nb_recv_framing (cfg : Settings) (msgs : List (List UInt8))
    (hmsgs : ∀ m ∈ msgs, m.length ≤ osMaxStr) :
    (∀ calls, (∀ r ∈ calls, r.Possible cfg) → bytesOf calls <+: stream cfg msgs →
      ∃ buf ms later rest, msgs = ms ++ later ∧
        SockBuffer.opened.nbRecvAll cfg calls = some (buf, ms, calls.map Received.code) ∧
        SockBuffer.Keeps buf rest ∧ bytesOf calls = stream cfg ms ++ rest ∧
        (∀ m ∈ later.head?, rest.length < (queueData cfg.bigEndian m).length) ∧
        (bytesOf calls = stream cfg msgs → ms = msgs ∧ rest = [])) ∧
    (∀ calls last header tail word, (∀ r ∈ calls, r.Possible cfg) →
      (Received.bytes last).Possible cfg →
      header.length = 4 → loadWord cfg.bigEndian header = some word →
      osMaxStr < (wnetOrder cfg.bigEndian word).toNat →
      bytesOf calls ++ last <+: stream cfg msgs ++ (header ++ tail) →
      (bytesOf calls).length < (stream cfg msgs).length + 4 →
      (stream cfg msgs).length + 4 ≤ (bytesOf calls ++ last).length →
      ∃ buf, SockBuffer.opened.nbRecvAll cfg (calls ++ [.bytes last]) =
        some (buf, msgs, calls.map Received.code ++ [-2])) := by
  simp only [stream_eq, queueData_eq]
  constructor
  · intro calls hpossible hbegins
    have hshort := hbegins.length_le
    rw [← append_nil (frames msgs)] at hbegins
    obtain ⟨buf, ms, later, rest, hsplit, hrun, hkeeps, hall, hrest⟩ :=
      SockBuffer.nbRecvAll_spec hmsgs hpossible SockBuffer.keeps_opened
        (rest_nil msgs []) hbegins (by
        rw [nil_append]
        omega)
    rw [nil_append] at hall
    refine ⟨buf, ms, later, rest, hsplit, hrun, hkeeps, hall, ?_, ?_⟩
    · intro m hm
      cases later with
      | nil => cases hm
      | cons m' later =>
        obtain rfl : m' = m := some.inj hm
        exact hrest.2
    · intro heverything
      rw [heverything, hsplit, frames_append, append_cancel_left_eq] at hall
      cases later with
      | nil => exact ⟨by rw [hsplit, append_nil], hall.symm⟩
      | cons m later =>
        have hless := hrest.2
        rw [← hall, frames_cons, length_append] at hless
        exact absurd hless (by omega)
  · intro calls last header tail word hpossible hlast hheader hload hlarge hbegins hbefore hafter
    obtain ⟨buf, ms, later, rest, rfl, hrun, hkeeps, hall, -⟩ :=
      SockBuffer.nbRecvAll_spec hmsgs hpossible SockBuffer.keeps_opened
        (rest_nil msgs (header ++ tail)) ((prefix_append ..).trans hbegins) hbefore
    rw [nil_append] at hall
    rw [hall, frames_append, append_assoc, append_assoc, prefix_append_right_inj] at hbegins
    rw [hall, frames_append] at hafter
    simp only [length_append] at hafter
    -- what the last call works on: the other messages, then the header
    have hlater : frames later <+: rest ++ last :=
      prefix_of_prefix_length_le (prefix_append ..) hbegins
        (by rw [length_append]; omega)
    obtain ⟨more, hmore⟩ := hlater
    rw [← hmore, prefix_append_right_inj] at hbegins
    have hlong : 4 ≤ more.length := by
      have hlength := congrArg length hmore
      rw [length_append, length_append] at hlength
      omega
    have htake : more.take 4 = header := by
      rw [prefix_iff_eq_take.1 hbegins, take_take, Nat.min_eq_left hlong, take_left' hheader]
    obtain ⟨buf', hcall⟩ := (SockBuffer.nbRecv_spec hkeeps hlast.2
      (fun m hm => hmsgs m (mem_append_right _ hm)) hmore.symm).2
        (corrupt_of_header hload hlarge htake hlong)
    refine ⟨buf', ?_⟩
    rw [SockBuffer.nbRecvAll_append, hrun, bind_some, SockBuffer.nbRecvAll, hcall]
    simp [SockBuffer.nbRecvAll]

/-- Two messages on a big endian machine, cut inside both headers: one call returns
nothing, and the header of the last call is too large. -/
theorem nb_recv_framing_two :
    (∃ buf ms later rest, [[1, 2], [3]] = ms ++ later ∧
      SockBuffer.opened.nbRecvAll ⟨true, 4, 2⟩
        [.bytes [2, 0, 0], .failed (-1), .bytes [0, 1, 2, 1]] =
        some (buf, ms, [3, -1, 4]) ∧ SockBuffer.Keeps buf rest) ∧
    ∃ buf, SockBuffer.opened.nbRecvAll ⟨true, 4, 2⟩
        [.bytes [2, 0, 0], .failed (-1), .bytes [0, 1, 2, 1], .bytes [0, 0, 0, 3],
          .bytes [0, 0, 1, 1]] =
      some (buf, [[1, 2], [3]], [3, -1, 4, 4, -2]) := by
  have hframing := nb_recv_framing ⟨true, 4, 2⟩ [[1, 2], [3]] (by decide)
  constructor
  · obtain ⟨buf, ms, later, rest, hsplit, hrun, hkeeps, -⟩ :=
      hframing.1 [.bytes [2, 0, 0], .failed (-1), .bytes [0, 1, 2, 1]]
        (by simp [Received.Possible]) (by decide)
    exact ⟨buf, ms, later, rest, hsplit, hrun, hkeeps⟩
  · exact hframing.2 [.bytes [2, 0, 0], .failed (-1), .bytes [0, 1, 2, 1], .bytes [0, 0, 0, 3]]
      [0, 0, 1, 1]
      [0, 0, 1, 1] [] 0x00000101#32 (by simp [Received.Possible]) (by simp [Received.Possible])
        rfl (by decide)
      (by decide) (by decide) (by decide) (by decide)

end WazAISentinel.Remoted
