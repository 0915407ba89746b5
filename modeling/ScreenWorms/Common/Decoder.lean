import Mathlib.Logic.Relation
import ScreenWorms.Common.Messages

/-!
# Decoding server messages

The checksum, and the constructors that decode a datagram in the client's receive buffer, with every
access to memory checked: an access outside of an object is a fault of the model.

A record is refused when it does not fit what is left of the datagram. The check adds `len - 5` to
the size of the header as 32-bit numbers, so it is right except for the four largest values of
`len`. `Wraps` says when one of these passes. `Reached` says which positions the decoder gets to,
from the bytes alone: those that follow `Intact` records.

## Main definitions

* `crc32`
* `Event.decode`, `ReceivedMessage.decode`
* `Intact`, `Reached`, `Wraps`
* `recordEvent`, `recordOutcome` — the event of a record, and what becomes of it

## Main results

* `Event.decode_eq`, `Event.decode_cases` — what a record does
* `decode_inBounds_iff` — when decoding stays within the buffer
* `decode_safe_iff` — and when it refuses every record that does not fit
-/

namespace ScreenWorms

/-! ## The checksum -/

/-- `POLYNOMIAL`. -/
def crcPolynomial : BitVec 64 := 0xEDB88320

/-- One round of the inner loop of `generate_crc2_table`. -/
def crcRound (remainder : BitVec 64) : BitVec 64 :=
  if remainder &&& 1 ≠ 0 then (remainder >>> 1) ^^^ crcPolynomial else remainder >>> 1

/-- `crc2_table`. -/
def crc2Table (b : Byte) : BitVec 32 := (Nat.iterate crcRound 8 (BitVec.ofNat 64 b.val)).setWidth 32

/-- One round of the loop of `crc32`. -/
def crc32Step (crc32Value : BitVec 32) (b : Byte) : BitVec 32 :=
  (crc32Value >>> 8) ^^^
    crc2Table (Fin.ofNat 256 ((crc32Value ^^^ BitVec.ofNat 32 b.val) &&& 0xFF).toNat)

/-- `utils::crc32`. -/
def crc32 (data : List Byte) : BitVec 32 := data.foldl crc32Step 0xFFFFFFFF ^^^ 0xFFFFFFFF

/-! ## Checked memory -/

/-- Why decoding stops: one of the two exceptions, or an access outside of an object. -/
inductive DecodeError
  | encoderDecoderError
  | crc32MismatchError
  | readBeyond
  | writeBeyond
deriving DecidableEq

/-- The `n` bytes from `pos` on. -/
def readBytes (buffer : List Byte) (pos n : ℕ) : Except DecodeError (List Byte) :=
  if pos + n ≤ buffer.length then .ok ((buffer.drop pos).take n) else .error .readBeyond

/-- `be32toh(binaryToNum<uint32_t>(buffer + pos))`. -/
def readUInt32 (buffer : List Byte) (pos : ℕ) : Except DecodeError ℕ :=
  match readBytes buffer pos 4 with
  | .ok bytes => .ok (bigEndian bytes)
  | .error e => .error e

/-- `buffer[pos]`. -/
def readByte (buffer : List Byte) (pos : ℕ) : Except DecodeError Byte :=
  if pos < buffer.length then .ok (buffer.getD pos 0) else .error .readBeyond

/-! ## Payloads -/

/-- The decoding constructor of `EventNewGame`. -/
def EventNewGame.decode (buffer : List Byte) (pos size : ℕ) : Except DecodeError EventNewGame :=
  if size < 10 then .error .encoderDecoderError
  else do
    let maxx ← readUInt32 buffer pos
    let maxy ← readUInt32 buffer (pos + 4)
    let playersFieldSize := size - 8
    let players ← readBytes buffer (pos + 8) playersFieldSize
    if playersFieldSize > maxPlayersFieldSize then .error .writeBeyond
    else if players.getD (playersFieldSize - 1) 0 ≠ 0 then .error .encoderDecoderError
    else .ok ⟨maxx, maxy, players⟩

/-- The decoding constructor of `EventPixel`. -/
def EventPixel.decode (buffer : List Byte) (pos size : ℕ) : Except DecodeError EventPixel :=
  if size < 9 then .error .encoderDecoderError
  else do
    let playerNumber ← readByte buffer pos
    let x ← readUInt32 buffer (pos + 1)
    let y ← readUInt32 buffer (pos + 5)
    .ok ⟨playerNumber.val, x, y⟩

/-- The decoding constructor of `EventPlayerEliminated`. -/
def EventPlayerEliminated.decode (buffer : List Byte) (pos size : ℕ) :
    Except DecodeError EventPlayerEliminated :=
  if size < 1 then .error .encoderDecoderError
  else do
    let playerNumber ← readByte buffer pos
    .ok ⟨playerNumber.val⟩

/-- The payload of an event of a given type; there is none for an unknown type. -/
def decodeEventData (eventType : Byte) (buffer : List Byte) (pos size : ℕ) :
    Except DecodeError (Option GameEventVariant) :=
  if eventType = 0 then (EventNewGame.decode buffer pos size).map fun e => some (.newGame e)
  else if eventType = 1 then (EventPixel.decode buffer pos size).map fun e => some (.pixel e)
  else if eventType = 2 then
    (EventPlayerEliminated.decode buffer pos size).map fun e => some (.playerEliminated e)
  else if eventType = 3 then .ok (some .gameOver)
  else .ok none

/-! ## Records -/

/-- The check whether a record fits: `uint32_t`s are added first, and then a `size_t`. -/
def recordFits (len size : ℕ) : Bool := toUInt32 (9 + (len - 5)) + 4 ≤ size

/-- The decoding constructor of `Event`, for the record at `pos`: the event, and `bytesUsed`. -/
def Event.decode (buffer : List Byte) (pos size : ℕ) : Except DecodeError (ReceivedEvent × ℕ) := do
  let len ← readUInt32 buffer pos
  if len < 5 then .error .encoderDecoderError
  else
    let eventNo ← readUInt32 buffer (pos + 4)
    let eventType ← readByte buffer (pos + 8)
    let eventDataSize := len - 5
    let bytesUsed := len + 4 + 4
    if !recordFits len size then .error .encoderDecoderError
    else
      let crc32Got ← readUInt32 buffer (pos + 9 + eventDataSize)
      let data ← readBytes buffer pos (len + 4)
      if crc32Got ≠ (crc32 data).toNat then .error .crc32MismatchError
      else
        let eventData ← decodeEventData eventType buffer (pos + 9) eventDataSize
        .ok (⟨eventNo, eventData⟩, bytesUsed)

/-- The loop of the decoding constructor of `ServerToClientMessage`. A record takes at least 13
bytes, so `size` rounds are enough. -/
def decodeEvents (buffer : List Byte) (size : ℕ) : ℕ → ℕ → Except DecodeError (List ReceivedEvent)
  | 0, _ => .ok []
  | fuel + 1, bytesRead =>
    if size > bytesRead then
      match Event.decode buffer bytesRead (size - bytesRead) with
      | .ok (event, eventSize) =>
        match decodeEvents buffer size fuel (bytesRead + eventSize) with
        | .ok events => .ok (event :: events)
        | .error e => .error e
      | .error .crc32MismatchError => .ok []
      | .error e => .error e
    else .ok []

/-- The decoding constructor of `ServerToClientMessage`. -/
def ReceivedMessage.decode (buffer : List Byte) (size : ℕ) : Except DecodeError ReceivedMessage :=
  if size < 4 ∨ size > maxUdpDataFieldSize then .error .encoderDecoderError
  else do
    let gameId ← readUInt32 buffer 0
    let events ← decodeEvents buffer size size 4
    .ok ⟨gameId, events⟩

/-- `INBOUND_SERVER_MESSAGE_BUFFER_SIZE`. -/
def inboundServerMessageBufferSize : ℕ := maxUdpDataFieldSize + 10

/-! ## What a record does -/

/-- The 32-bit field at `pos`. -/
def field32 (buffer : List Byte) (pos : ℕ) : ℕ := bigEndian ((buffer.drop pos).take 4)

/-- The payload constructors accept the payload of this type. -/
def PayloadValid (eventType : Byte) (buffer : List Byte) (pos size : ℕ) : Prop :=
  if eventType = 0 then 10 ≤ size ∧ buffer.getD (pos + size - 1) 0 = 0
  else if eventType = 1 then 9 ≤ size
  else if eventType = 2 then 1 ≤ size
  else True

instance decidablePayloadValid (eventType : Byte) (buffer : List Byte) (pos size : ℕ) :
    Decidable (PayloadValid eventType buffer pos size) := by
  unfold PayloadValid
  infer_instance

/-- The payload of an event of a given type, without any checks. -/
def payload (eventType : Byte) (datagram : List Byte) (pos size : ℕ) : Option GameEventVariant :=
  if eventType = 0 then some (.newGame ⟨field32 datagram pos, field32 datagram (pos + 4),
    (datagram.drop (pos + 8)).take (size - 8)⟩)
  else if eventType = 1 then some (.pixel ⟨(datagram.getD pos 0).val, field32 datagram (pos + 1),
    field32 datagram (pos + 5)⟩)
  else if eventType = 2 then some (.playerEliminated ⟨(datagram.getD pos 0).val⟩)
  else if eventType = 3 then some .gameOver
  else none

/-- The event of the record at `pos`: its number, and its payload, which comes with the type. -/
def recordEvent (datagram : List Byte) (pos : ℕ) : ReceivedEvent where
  eventNo := field32 datagram (pos + 4)
  eventData := payload (datagram.getD (pos + 8) 0) datagram (pos + 9) (field32 datagram pos - 5)

/-- An intact record at `pos`, with `size` bytes left. -/
structure Intact (buffer : List Byte) (pos size : ℕ) : Prop where
  len_ge : 5 ≤ field32 buffer pos
  fits : field32 buffer pos + 8 ≤ size
  checksum : field32 buffer (pos + field32 buffer pos + 4) =
    (crc32 ((buffer.drop pos).take (field32 buffer pos + 4))).toNat
  payload : PayloadValid (buffer.getD (pos + 8) 0) buffer (pos + 9) (field32 buffer pos - 5)

/-- The sum in the check of the record wraps around, and what is left of it fits. -/
def Wraps (len size : ℕ) : Prop := 2 ^ 32 - 4 ≤ len ∧ len + 8 ≤ size + 2 ^ 32

instance (len size : ℕ) : Decidable (Wraps len size) := inferInstanceAs (Decidable (_ ∧ _))

/-- What becomes of the record at `pos` with `size` bytes left. -/
def recordOutcome (buffer : List Byte) (pos size : ℕ) : Except DecodeError (ReceivedEvent × ℕ) :=
  if Wraps (field32 buffer pos) size then .error .readBeyond
  else if ¬(5 ≤ field32 buffer pos ∧ field32 buffer pos + 8 ≤ size) then .error .encoderDecoderError
  else if field32 buffer (pos + field32 buffer pos + 4) ≠
      (crc32 ((buffer.drop pos).take (field32 buffer pos + 4))).toNat then .error .crc32MismatchError
  else if ¬PayloadValid (buffer.getD (pos + 8) 0) buffer (pos + 9) (field32 buffer pos - 5) then
    .error .encoderDecoderError
  else .ok (recordEvent buffer pos, field32 buffer pos + 8)

variable {buffer : List Byte} {pos size : ℕ}

theorem bigEndian_lt (bs : List Byte) : bigEndian bs < 256 ^ bs.length := by
  have hfold : ∀ (bs : List Byte) (n k : ℕ), n < 256 ^ k →
      bs.foldl (fun n b => n * 256 + b.val) n < 256 ^ (k + bs.length) := by
    intro bs
    induction bs with
    | nil => exact fun n k h => h
    | cons b bs ih =>
      intro n k h
      have hb := b.isLt
      have hstep := ih (n * 256 + b.val) (k + 1) (by rw [pow_succ]; omega)
      rwa [Nat.add_assoc, Nat.add_comm 1] at hstep
  have h := hfold bs 0 0 (by decide)
  rwa [Nat.zero_add] at h

theorem field32_lt (buffer : List Byte) (pos : ℕ) : field32 buffer pos < 2 ^ 32 :=
  (bigEndian_lt _).trans_le (Nat.pow_le_pow_right (by decide) (List.length_take_le _ _))

theorem readBytes_of_le {n : ℕ} (h : pos + n ≤ buffer.length) :
    readBytes buffer pos n = .ok ((buffer.drop pos).take n) := if_pos h

theorem readUInt32_of_le (h : pos + 4 ≤ buffer.length) :
    readUInt32 buffer pos = .ok (field32 buffer pos) := by
  rw [readUInt32, readBytes_of_le h]
  rfl

theorem readUInt32_of_lt (h : buffer.length < pos + 4) :
    readUInt32 buffer pos = .error .readBeyond := by
  rw [readUInt32, readBytes, if_neg (not_le.mpr h)]

theorem readByte_of_lt (h : pos < buffer.length) :
    readByte buffer pos = .ok (buffer.getD pos 0) := if_pos h

/-- The check is right unless it wraps around. -/
theorem recordFits_iff {len : ℕ} (hlen : 5 ≤ len) (hlt : len < 2 ^ 32) (hsize : size < 2 ^ 32) :
    recordFits len size = true ↔ len + 8 ≤ size ∨ Wraps len size := by
  rw [recordFits, decide_eq_true_eq, Wraps, toUInt32, show 9 + (len - 5) = len + 4 by omega]
  omega

/-- **Payloads.** What the payload constructors do with bytes inside the buffer. -/
theorem decodeEventData_eq (eventType : Byte) (hend : pos + size ≤ buffer.length)
    (hsize : size ≤ 8 + EventNewGame.maxPlayersFieldSize) :
    decodeEventData eventType buffer pos size =
      if PayloadValid eventType buffer pos size then .ok (payload eventType buffer pos size)
      else .error .encoderDecoderError := by
  simp only [decodeEventData, PayloadValid, payload]
  by_cases h0 : eventType = 0
  · simp only [if_pos h0]
    by_cases hlt : size < 10
    · rw [if_neg fun h => absurd h.1 (not_le.mpr hlt), EventNewGame.decode, if_pos hlt]
      rfl
    · have hplayers : ((buffer.drop (pos + 8)).take (size - 8)).getD (size - 8 - 1) 0 =
          buffer.getD (pos + size - 1) 0 := by
        rw [List.getD_eq_getElem?_getD, List.getElem?_take_of_lt (by omega), List.getElem?_drop,
          ← List.getD_eq_getElem?_getD, show pos + 8 + (size - 8 - 1) = pos + size - 1 by omega]
      simp only [EventNewGame.decode, if_neg hlt, bind, Except.bind,
        readUInt32_of_le (show pos + 4 ≤ buffer.length by omega),
        readUInt32_of_le (show pos + 4 + 4 ≤ buffer.length by omega),
        readBytes_of_le (show pos + 8 + (size - 8) ≤ buffer.length by omega),
        if_neg (show ¬size - 8 > EventNewGame.maxPlayersFieldSize by omega), hplayers]
      by_cases hlast : buffer.getD (pos + size - 1) 0 = 0
      · rw [if_neg (not_not.mpr hlast), if_pos ⟨not_lt.mp hlt, hlast⟩]
        rfl
      · rw [if_pos hlast, if_neg fun h => hlast h.2]
        rfl
  · simp only [if_neg h0]
    by_cases h1 : eventType = 1
    · simp only [if_pos h1]
      by_cases hlt : size < 9
      · rw [if_neg (not_le.mpr hlt), EventPixel.decode, if_pos hlt]
        rfl
      · simp only [EventPixel.decode, if_neg hlt, bind, Except.bind,
          readByte_of_lt (show pos < buffer.length by omega),
          readUInt32_of_le (show pos + 1 + 4 ≤ buffer.length by omega),
          readUInt32_of_le (show pos + 5 + 4 ≤ buffer.length by omega), if_pos (not_lt.mp hlt)]
        rfl
    · simp only [if_neg h1]
      by_cases h2 : eventType = 2
      · simp only [if_pos h2]
        by_cases hlt : size < 1
        · rw [if_neg (not_le.mpr hlt), EventPlayerEliminated.decode, if_pos hlt]
          rfl
        · simp only [EventPlayerEliminated.decode, if_neg hlt, bind, Except.bind,
            readByte_of_lt (show pos < buffer.length by omega), if_pos (not_lt.mp hlt)]
          rfl
      · simp only [if_neg h2, if_true]
        split <;> rfl

section Record

-- the record is inside a datagram in a buffer with room for ten more bytes
variable (hend : pos + size ≤ maxUdpDataFieldSize)
  (hbuffer : buffer.length = inboundServerMessageBufferSize)

include hend hbuffer

/-- **The defect.** When the check wraps around, the decoder reads beyond the buffer. -/
theorem Event.decode_of_wraps (h : Wraps (field32 buffer pos) size) :
    Event.decode buffer pos size = .error .readBeyond := by
  have hlt := field32_lt buffer pos
  have hlen := h.1
  simp only [maxUdpDataFieldSize, inboundServerMessageBufferSize] at hend hbuffer
  have hfits := (recordFits_iff (show 5 ≤ field32 buffer pos by omega) hlt
    (show size < 2 ^ 32 by omega)).mpr (Or.inr h)
  simp only [Event.decode, bind, Except.bind,
    readUInt32_of_le (show pos + 4 ≤ buffer.length by omega),
    readUInt32_of_le (show pos + 4 + 4 ≤ buffer.length by omega),
    readByte_of_lt (show pos + 8 < buffer.length by omega),
    if_neg (show ¬field32 buffer pos < 5 by omega), hfits, Bool.not_true, Bool.false_eq_true,
    if_false,
    readUInt32_of_lt (show buffer.length < pos + 9 + (field32 buffer pos - 5) + 4 by omega)]

/-- **A record**, in a receive buffer with room for ten bytes more than a datagram. It comes after
the game id, so that its players fit their array. -/
theorem Event.decode_eq (hstart : 4 ≤ pos) :
    Event.decode buffer pos size = recordOutcome buffer pos size := by
  rw [recordOutcome]
  by_cases hwraps : Wraps (field32 buffer pos) size
  · rw [if_pos hwraps, Event.decode_of_wraps hend hbuffer hwraps]
  have hlt := field32_lt buffer pos
  simp only [maxUdpDataFieldSize, inboundServerMessageBufferSize] at hend hbuffer
  rw [if_neg hwraps]
  simp only [Event.decode, bind, Except.bind,
    readUInt32_of_le (show pos + 4 ≤ buffer.length by omega)]
  by_cases hlen : field32 buffer pos < 5
  · rw [if_pos hlen, if_pos fun h => absurd hlen (not_lt.mpr h.1)]
  have hfits := recordFits_iff (not_lt.mp hlen) hlt (show size < 2 ^ 32 by omega)
  simp only [if_neg hlen, readUInt32_of_le (show pos + 4 + 4 ≤ buffer.length by omega),
    readByte_of_lt (show pos + 8 < buffer.length by omega)]
  by_cases hle : field32 buffer pos + 8 ≤ size
  · have hinside : (pos + 9) + (field32 buffer pos - 5) ≤ buffer.length := by omega
    have hsize : field32 buffer pos - 5 ≤ 8 + EventNewGame.maxPlayersFieldSize := by
      simp only [EventNewGame.maxPlayersFieldSize, maxPlayers, maxPlayerNameLength]
      omega
    rw [hfits.mpr (Or.inl hle), if_neg (not_not.mpr ⟨not_lt.mp hlen, hle⟩)]
    simp only [Bool.not_true, Bool.false_eq_true, if_false,
      show pos + 9 + (field32 buffer pos - 5) = pos + field32 buffer pos + 4 by omega,
      readUInt32_of_le (show pos + field32 buffer pos + 4 + 4 ≤ buffer.length by omega),
      readBytes_of_le (show pos + (field32 buffer pos + 4) ≤ buffer.length by omega)]
    split
    · rfl
    · rw [decodeEventData_eq _ hinside hsize]
      by_cases hvalid : PayloadValid (buffer.getD (pos + 8) 0) buffer (pos + 9)
          (field32 buffer pos - 5)
      · rw [if_pos hvalid, if_neg (not_not.mpr hvalid)]
        rfl
      · rw [if_neg hvalid, if_pos hvalid]
  · have hrefused : recordFits (field32 buffer pos) size = false := by
      rw [Bool.eq_false_iff, ne_eq, hfits]
      exact fun hor => hor.elim hle hwraps
    rw [hrefused, if_pos fun h => hle h.2]
    rfl

/-- Unless the check wraps around, the record is decoded if it is intact, and refused if it is
not. -/
theorem Event.decode_cases (hstart : 4 ≤ pos) (h : ¬Wraps (field32 buffer pos) size) :
    (Intact buffer pos size ∧
      ∃ e, Event.decode buffer pos size = .ok (e, field32 buffer pos + 8)) ∨
    (¬Intact buffer pos size ∧ (Event.decode buffer pos size = .error .crc32MismatchError ∨
      Event.decode buffer pos size = .error .encoderDecoderError)) := by
  rw [Event.decode_eq hend hbuffer hstart, recordOutcome, if_neg h]
  by_cases hfits : 5 ≤ field32 buffer pos ∧ field32 buffer pos + 8 ≤ size
  · rw [if_neg (not_not.mpr hfits)]
    split
    · rename_i hsum
      exact Or.inr ⟨fun hintact => hsum hintact.checksum, Or.inl rfl⟩
    rename_i hsum
    split
    · rename_i hpayload
      exact Or.inr ⟨fun hintact => hpayload hintact.payload, Or.inr rfl⟩
    · rename_i hpayload
      exact Or.inl ⟨⟨hfits.1, hfits.2, not_not.mp hsum, not_not.mp hpayload⟩, _, rfl⟩
  · rw [if_pos hfits]
    exact Or.inr ⟨fun hintact => hfits ⟨hintact.len_ge, hintact.fits⟩, Or.inr rfl⟩

end Record

/-! ## What a datagram does -/

/-- The record at `p` is intact, and `q` is where it ends. -/
def Follows (buffer : List Byte) (size p q : ℕ) : Prop :=
  Intact buffer p (size - p) ∧ q = p + field32 buffer p + 8

/-- The decoder gets to `pos`: only intact records lie before it, and the datagram goes on. -/
def Reached (buffer : List Byte) (size pos : ℕ) : Prop :=
  Relation.ReflTransGen (Follows buffer size) 4 pos ∧ pos < size

/-- No access was outside of an object. -/
def InBounds {α : Type} (r : Except DecodeError α) : Prop :=
  r ≠ .error .readBeyond ∧ r ≠ .error .writeBeyond

/-- The check of a record refuses every record that runs past the end of the datagram. -/
def ChecksRecords (buffer : List Byte) (size : ℕ) : Prop :=
  ∀ pos, Reached buffer size pos → recordFits (field32 buffer pos) (size - pos) = true →
    field32 buffer pos + 8 ≤ size - pos

theorem le_of_follows {p q : ℕ} (h : Relation.ReflTransGen (Follows buffer size) p q) : p ≤ q := by
  induction h with
  | refl => exact le_rfl
  | tail _ hstep ih =>
    rw [hstep.2]
    omega

/-- **The loop.** It stays within the buffer as long as no check wraps around. -/
theorem decodeEvents_inBounds_iff (hbuffer : buffer.length = inboundServerMessageBufferSize)
    (hsize : size ≤ maxUdpDataFieldSize) : ∀ (fuel pos : ℕ), 4 ≤ pos →
    size - pos ≤ fuel → (InBounds (decodeEvents buffer size fuel pos) ↔
      ∀ q, Relation.ReflTransGen (Follows buffer size) pos q → q < size →
        ¬Wraps (field32 buffer q) (size - q)) := by
  -- once the datagram is used up, nothing is reached
  have done : ∀ pos, ¬size > pos → ∀ q, Relation.ReflTransGen (Follows buffer size) pos q →
      q < size → ¬Wraps (field32 buffer q) (size - q) := by
    intro pos hpos q hq hlt
    rcases hq.cases_head with rfl | ⟨r, hr, -⟩
    · exact absurd hlt hpos
    · have hfits := hr.1.fits
      omega
  intro fuel
  induction fuel with
  | zero =>
    intro pos _ hfuel
    refine ⟨fun _ => done pos (by omega), fun _ => ?_⟩
    exact ⟨fun h => (by cases h), fun h => (by cases h)⟩
  | succ fuel ih =>
    intro pos hstart hfuel
    rw [decodeEvents]
    by_cases hpos : size > pos
    · rw [if_pos hpos]
      have hend : pos + (size - pos) ≤ maxUdpDataFieldSize := by omega
      by_cases hwraps : Wraps (field32 buffer pos) (size - pos)
      · rw [Event.decode_of_wraps hend hbuffer hwraps]
        exact ⟨fun h => absurd rfl h.1, fun h => absurd hwraps (h pos .refl hpos)⟩
      · rcases Event.decode_cases hend hbuffer hstart hwraps with ⟨hintact, e, heq⟩ | ⟨hnot, heq⟩
        · have hlen := hintact.len_ge
          have hnext := ih (pos + (field32 buffer pos + 8)) (by omega) (by omega)
          have hstep : (∀ q, Relation.ReflTransGen (Follows buffer size) pos q → q < size →
                ¬Wraps (field32 buffer q) (size - q)) ↔
              ∀ q, Relation.ReflTransGen (Follows buffer size) (pos + (field32 buffer pos + 8)) q →
                q < size → ¬Wraps (field32 buffer q) (size - q) := by
            constructor
            · intro h q hq
              exact h q (.head ⟨hintact, (Nat.add_assoc _ _ _).symm⟩ hq)
            · intro h q hq hlt
              rcases hq.cases_head with rfl | ⟨r, hr, hrq⟩
              · exact hwraps
              · rw [hr.2, Nat.add_assoc] at hrq
                exact h q hrq hlt
          rw [hstep, ← hnext, heq]
          simp only
          cases decodeEvents buffer size fuel (pos + (field32 buffer pos + 8)) with
          | ok events =>
            exact ⟨fun _ => ⟨fun h => (by cases h), fun h => (by cases h)⟩,
              fun _ => ⟨fun h => (by cases h), fun h => (by cases h)⟩⟩
          | error err => simp [InBounds]
        · have hstop : ∀ q, Relation.ReflTransGen (Follows buffer size) pos q → q < size →
              ¬Wraps (field32 buffer q) (size - q) := by
            intro q hq _
            rcases hq.cases_head with rfl | ⟨r, hr, -⟩
            · exact hwraps
            · exact absurd hr.1 hnot
          rcases heq with heq | heq <;> rw [heq]
          · exact ⟨fun _ => hstop, fun _ => ⟨fun h => (by cases h), fun h => (by cases h)⟩⟩
          · exact ⟨fun _ => hstop, fun _ => ⟨fun h => (by cases h), fun h => (by cases h)⟩⟩
    · rw [if_neg hpos]
      exact ⟨fun _ => done pos hpos, fun _ => ⟨fun h => (by cases h), fun h => (by cases h)⟩⟩

theorem decode_inBounds_iff (hbuffer : buffer.length = inboundServerMessageBufferSize)
    (hsize : size ≤ maxUdpDataFieldSize) : InBounds (ReceivedMessage.decode buffer size) ↔
      ∀ pos, Reached buffer size pos → ¬Wraps (field32 buffer pos) (size - pos) := by
  have hloop := decodeEvents_inBounds_iff hbuffer hsize size 4 le_rfl (by omega)
  have hreached : (∀ pos, Reached buffer size pos → ¬Wraps (field32 buffer pos) (size - pos)) ↔
      InBounds (decodeEvents buffer size size 4) := by
    rw [hloop]
    exact ⟨fun h q hq hlt => h q ⟨hq, hlt⟩, fun h pos hpos => h pos hpos.1 hpos.2⟩
  rw [hreached, ReceivedMessage.decode]
  by_cases hlt : size < 4
  · rw [if_pos (Or.inl hlt)]
    refine ⟨fun _ => hloop.mpr fun q hq hqlt => ?_,
      fun _ => ⟨fun h => (by cases h), fun h => (by cases h)⟩⟩
    have hle := le_of_follows hq
    omega
  · rw [if_neg (not_or.mpr ⟨hlt, not_lt.mpr hsize⟩)]
    have hread : readUInt32 buffer 0 = .ok (field32 buffer 0) :=
      readUInt32_of_le (by rw [hbuffer]; decide)
    simp only [hread, bind, Except.bind]
    cases decodeEvents buffer size size 4 <;> simp [InBounds]

/-- **Decoding is safe** — it stays inside the buffer and inside `EventNewGame::players`, and
refuses every record that runs past the end of the datagram — exactly when no `len` field it reaches
makes the check wrap around. -/
theorem decode_safe_iff (hbuffer : buffer.length = inboundServerMessageBufferSize)
    (hsize : size ≤ maxUdpDataFieldSize) :
    InBounds (ReceivedMessage.decode buffer size) ∧ ChecksRecords buffer size ↔
      ∀ pos, Reached buffer size pos → ¬Wraps (field32 buffer pos) (size - pos) := by
  have hchecks : ChecksRecords buffer size ↔
      ∀ pos, Reached buffer size pos → ¬Wraps (field32 buffer pos) (size - pos) := by
    refine forall₂_congr fun pos hpos => ?_
    have hlt := field32_lt buffer pos
    rw [recordFits, decide_eq_true_eq, Wraps, toUInt32]
    simp only [maxUdpDataFieldSize] at hsize
    omega
  rw [decode_inBounds_iff hbuffer hsize, hchecks, and_self]

/-- The receive buffer after a datagram; the rest of it is zero. -/
def received (datagram : List Byte) : List Byte :=
  datagram ++ List.replicate (inboundServerMessageBufferSize - datagram.length) 0

theorem length_received {datagram : List Byte}
    (h : datagram.length ≤ inboundServerMessageBufferSize) :
    (received datagram).length = inboundServerMessageBufferSize := by
  rw [received, List.length_append, List.length_replicate, Nat.add_sub_cancel' h]

/-- A datagram with one record, a `GAME_OVER`. -/
theorem decode_safe_gameOver :
    let buffer := received [0, 0, 0, 0, 0, 0, 0, 5, 0, 0, 0, 0, 3, 0, 0, 0, 0]
    InBounds (ReceivedMessage.decode buffer 17) ∧ ChecksRecords buffer 17 := by
  refine (decode_safe_iff (length_received (by decide)) (by decide)).mpr fun pos hpos => ?_
  rcases hpos.1.cases_head with rfl | ⟨q, hq, hrest⟩
  · decide
  · have hlen : field32 (received [0, 0, 0, 0, 0, 0, 0, 5, 0, 0, 0, 0, 3, 0, 0, 0, 0]) 4 = 5 := rfl
    have hle := le_of_follows hrest
    have hlt := hpos.2
    rw [hq.2, hlen] at hle
    omega

/-- A datagram of eight bytes, the last four of which are a `len` field that wraps around. -/
theorem not_decode_safe : let buffer := received [0, 0, 0, 0, 255, 255, 255, 252]
    ReceivedMessage.decode buffer 8 = .error .readBeyond ∧
    ¬(InBounds (ReceivedMessage.decode buffer 8) ∧ ChecksRecords buffer 8) := by
  have herr : ReceivedMessage.decode (received [0, 0, 0, 0, 255, 255, 255, 252]) 8 =
      .error .readBeyond := by decide +kernel
  exact ⟨herr, fun h => h.1.1 herr⟩

end ScreenWorms
