import Mathlib.Data.List.Chain
import ScreenWorms.Common.Encoder

/-!
# Batches of events

`fromEvents` takes as many events as a datagram has room for, going by `getEncodedSize`, and `encode`
writes the datagram field by field. The fields and their places add up to what was predicted, so the
records lie next to each other and the last one ends where the batch does.

Called again and again from the position it returns, `fromEvents` deals out all events.

## Main definitions

* `writeAt`, `ServerToClientMessage.encodeInto` — writing into a buffer that may be too short
* `batches`, `IsBatch`

## Main results

* `ServerToClientMessage.encodeInto_eq` — what `encode` writes
* `batches_eq_some` — how the events are dealt out
-/

namespace ScreenWorms

/-! ## The send buffer -/

/-- Writing some bytes at `pos`; `none` if the buffer is too short. -/
def writeAt (buffer : List Byte) (pos : ℕ) (bytes : List Byte) : Option (List Byte) :=
  if pos + bytes.length ≤ buffer.length then some (writeBytes buffer pos bytes) else none

/-- `EventNewGame::encode`: the buffer after, and the number that is returned. -/
def EventNewGame.encodeInto (e : EventNewGame) (buffer : List Byte) (pos : ℕ) :
    Option (List Byte × ℕ) := do
  let buffer ← writeAt buffer pos (toBigEndian 4 e.maxx)
  let buffer ← writeAt buffer (pos + 4) (toBigEndian 4 e.maxy)
  let buffer ← writeAt buffer (pos + 8) e.players
  return (buffer, 8 + e.players.length)

/-- `EventPixel::encode`. -/
def EventPixel.encodeInto (e : EventPixel) (buffer : List Byte) (pos : ℕ) :
    Option (List Byte × ℕ) := do
  let buffer ← writeAt buffer pos [Fin.ofNat 256 e.playerNumber]
  let buffer ← writeAt buffer (pos + 1) (toBigEndian 4 e.x)
  let buffer ← writeAt buffer (pos + 5) (toBigEndian 4 e.y)
  return (buffer, 9)

/-- `EventPlayerEliminated::encode`. -/
def EventPlayerEliminated.encodeInto (e : EventPlayerEliminated) (buffer : List Byte) (pos : ℕ) :
    Option (List Byte × ℕ) := do
  let buffer ← writeAt buffer pos [Fin.ofNat 256 e.playerNumber]
  return (buffer, 1)

/-- `encode` of the four payloads. -/
def GameEventVariant.encodeInto (buffer : List Byte) (pos : ℕ) :
    GameEventVariant → Option (List Byte × ℕ)
  | .newGame e => e.encodeInto buffer pos
  | .pixel e => e.encodeInto buffer pos
  | .playerEliminated e => e.encodeInto buffer pos
  | .gameOver => some (buffer, 0)

/-- `Event::encode`. The checksum is that of what has just been written. -/
def Event.encodeInto (e : Event) (buffer : List Byte) (pos : ℕ) : Option (List Byte × ℕ) := do
  let encodedSize := e.getEncodedSize
  let len := toUInt32 (encodedSize - 4 - 4)
  let buffer ← writeAt buffer pos (toBigEndian 4 len)
  let buffer ← writeAt buffer (pos + 4) (toBigEndian 4 e.eventNo)
  let buffer ← writeAt buffer (pos + 8) [e.eventData.eventType]
  let (buffer, size) ← e.eventData.encodeInto buffer (pos + 9)
  let crc := crc32 ((buffer.drop pos).take (len + 4))
  let buffer ← writeAt buffer (pos + 9 + size) (toBigEndian 4 crc.toNat)
  return (buffer, encodedSize)

/-- The loop of `ServerToClientMessage::encode`. -/
def encodeEvents : List Event → List Byte → ℕ → Option (List Byte × ℕ)
  | [], buffer, written => some (buffer, written)
  | e :: es, buffer, written => do
    let (buffer, size) ← e.encodeInto buffer written
    encodeEvents es buffer (written + size)

/-- `ServerToClientMessage::encode`, into a buffer. -/
def ServerToClientMessage.encodeInto (m : ServerToClientMessage) (buffer : List Byte) :
    Option (List Byte × ℕ) := do
  let buffer ← writeAt buffer 0 (toBigEndian 4 m.gameId)
  encodeEvents m.events buffer 4

variable {buffer bytes bytes' : List Byte} {pos : ℕ}

theorem writeBytes_writeBytes (hfits : pos + bytes.length ≤ buffer.length) :
    writeBytes (writeBytes buffer pos bytes) (pos + bytes.length) bytes' =
      writeBytes buffer pos (bytes ++ bytes') := by
  have hfront : (buffer.take pos ++ bytes).length = pos + bytes.length := by
    rw [List.length_append, List.length_take]
    omega
  rw [writeBytes, writeBytes, writeBytes, ← hfront, List.take_left, List.drop_length_add_append,
    List.drop_drop, hfront, List.append_assoc _ bytes, List.length_append, Nat.add_assoc]

theorem length_writeBytes (hfits : pos + bytes.length ≤ buffer.length) :
    (writeBytes buffer pos bytes).length = buffer.length := by
  rw [writeBytes, List.length_append, List.length_append, List.length_take, List.length_drop]
  omega

theorem eq_of_writeAt {buffer' : List Byte} (h : writeAt buffer pos bytes = some buffer') :
    buffer' = writeBytes buffer pos bytes ∧ pos + bytes.length ≤ buffer.length := by
  rw [writeAt] at h
  split at h
  · rename_i hfits
    exact ⟨(Option.some.inj h).symm, hfits⟩
  · cases h

theorem writeAt_nil (hpos : pos ≤ buffer.length) : writeAt buffer pos [] = some buffer := by
  have hfits : pos + ([] : List Byte).length ≤ buffer.length := hpos
  rw [writeAt, if_pos hfits, writeBytes, List.append_nil, List.length_nil, Nat.add_zero,
    List.take_append_drop]

section Fields

variable {β : Type} {pos' : ℕ}

/-- **Fields next to each other** are written as one. -/
theorem writeAt_bind_writeAt (hpos : pos' = pos + bytes.length) (k : List Byte → Option β) :
    ((writeAt buffer pos bytes).bind fun buffer => (writeAt buffer pos' bytes').bind k) =
    (writeAt buffer pos (bytes ++ bytes')).bind k := by
  subst hpos
  rcases hwrite : writeAt buffer pos bytes with _ | buffer'
  · have hnone : writeAt buffer pos (bytes ++ bytes') = none := by
      rw [writeAt, ite_eq_right_iff] at hwrite
      rw [writeAt, if_neg fun hfits => ?_]
      rw [List.length_append] at hfits
      exact absurd (hwrite (by omega)) (Option.some_ne_none _)
    rw [hnone]
    rfl
  · obtain ⟨rfl, hfits⟩ := eq_of_writeAt hwrite
    rw [Option.bind_some, writeAt, length_writeBytes hfits, writeAt, writeBytes_writeBytes hfits,
      List.length_append, Nat.add_assoc]

/-- What follows a field finds it in the buffer. -/
theorem writeAt_bind_congr {k k' : List Byte → Option β}
    (h : pos + bytes.length ≤ buffer.length →
      k (writeBytes buffer pos bytes) = k' (writeBytes buffer pos bytes)) :
    (writeAt buffer pos bytes).bind k = (writeAt buffer pos bytes).bind k' := by
  rcases hwrite : writeAt buffer pos bytes with _ | buffer'
  · rfl
  · obtain ⟨rfl, hfits⟩ := eq_of_writeAt hwrite
    exact h hfits

end Fields

/-- Payloads have the size that `getSize` predicts. -/
theorem GameEventVariant.encodeInto_eq (v : GameEventVariant) (hpos : pos ≤ buffer.length) :
    v.encodeInto buffer pos = (writeAt buffer pos v.encode).bind fun buffer =>
      some (buffer, v.getSize) := by
  cases v with
  | newGame e =>
    simp only [encodeInto, EventNewGame.encodeInto, Option.bind_eq_bind]
    rw [writeAt_bind_writeAt (by rw [length_toBigEndian]),
      writeAt_bind_writeAt (by rw [List.length_append, length_toBigEndian, length_toBigEndian]),
      List.append_assoc]
    rfl
  | pixel e =>
    simp only [encodeInto, EventPixel.encodeInto, Option.bind_eq_bind]
    rw [writeAt_bind_writeAt (show pos + 1 = pos + [Fin.ofNat 256 e.playerNumber].length from rfl),
      writeAt_bind_writeAt (by rw [List.length_append, length_toBigEndian]; rfl)]
    rfl
  | playerEliminated e => rfl
  | gameOver =>
    rw [encode, writeAt_nil hpos]
    rfl

/-- The bytes of a record before its checksum are in the buffer when the checksum is taken. -/
theorem take_drop_writeBytes {n : ℕ} (hfits : pos + bytes.length ≤ buffer.length)
    (hn : n ≤ bytes.length) : ((writeBytes buffer pos bytes).drop pos).take n = bytes.take n := by
  have hfront : (buffer.take pos).length = pos := by
    rw [List.length_take]
    omega
  rw [writeBytes, List.append_assoc, List.drop_left' hfront, List.take_append_of_le_length hn]

/-- **A record** has the size that `getEncodedSize` predicts, and its fields follow each other. -/
theorem Event.encodeInto_eq (e : Event) (buffer : List Byte) (pos : ℕ) : e.encodeInto buffer pos =
    (writeAt buffer pos e.encode).bind fun buffer => some (buffer, e.getEncodedSize) := by
  let header := toBigEndian 4 e.len ++ toBigEndian 4 e.eventNo ++ [e.eventData.eventType]
  have hheader : header.length = 9 := by
    rw [List.length_append, List.length_append, length_toBigEndian, length_toBigEndian]
    rfl
  have hbody : header ++ e.eventData.encode = e.encodeBody := by
    simp only [header, encodeBody, List.append_assoc, List.singleton_append]
  have hsize : pos + 9 + e.eventData.getSize = pos + e.encodeBody.length := by
    rw [length_encodeBody]
    omega
  have hlen : e.len + 4 ≤ e.encodeBody.length := by
    have hle := Nat.mod_le (e.getEncodedSize - 4 - 4) (2 ^ 32)
    rw [length_encodeBody, len, toUInt32]
    rw [getEncodedSize] at hle ⊢
    omega
  -- the payload starts where the header ends
  have hpayload : ∀ k : List Byte × ℕ → Option (List Byte × ℕ), ((writeAt buffer pos header).bind
      fun buffer => (e.eventData.encodeInto buffer (pos + 9)).bind k) =
      (writeAt buffer pos e.encodeBody).bind fun buffer => k (buffer, e.eventData.getSize) := by
    intro k
    rw [← hbody, ← writeAt_bind_writeAt (show pos + 9 = pos + header.length by rw [hheader])]
    refine writeAt_bind_congr fun hfits => ?_
    rw [e.eventData.encodeInto_eq, Option.bind_assoc]
    · rfl
    · rw [length_writeBytes hfits]
      omega
  simp only [encodeInto, Option.bind_eq_bind]
  rw [writeAt_bind_writeAt (by rw [length_toBigEndian]),
    writeAt_bind_writeAt (by rw [List.length_append, length_toBigEndian, length_toBigEndian])]
  refine (hpayload _).trans ?_
  rw [encode, ← writeAt_bind_writeAt hsize]
  refine writeAt_bind_congr fun hfits => ?_
  rw [show toUInt32 (e.getEncodedSize - 4 - 4) = e.len from rfl, take_drop_writeBytes hfits hlen]
  rfl

/-- The loop writes record after record. -/
theorem encodeEvents_eq (es : List Event) : ∀ (buffer : List Byte) (written : ℕ),
    written ≤ buffer.length → encodeEvents es buffer written =
      (writeAt buffer written (es.flatMap Event.encode)).bind fun buffer =>
        some (buffer, written + encodedSize es) := by
  induction es with
  | nil =>
    intro buffer written hwritten
    rw [List.flatMap_nil, writeAt_nil hwritten]
    rfl
  | cons e es ih =>
    intro buffer written hwritten
    rw [encodeEvents, Option.bind_eq_bind, e.encodeInto_eq, Option.bind_assoc, List.flatMap_cons,
      ← writeAt_bind_writeAt rfl]
    refine writeAt_bind_congr fun hfits => ?_
    show encodeEvents es (writeBytes buffer written e.encode) (written + e.getEncodedSize) = _
    rw [← e.length_encode, ih, encodedSize_cons, e.length_encode, Nat.add_assoc]
    rw [length_writeBytes hfits]
    exact hfits

/-- **A message** is written from the start of the buffer, up to the end that `fromEvents` goes by.
If the buffer is shorter, this fails. -/
theorem ServerToClientMessage.encodeInto_eq (m : ServerToClientMessage) (buffer : List Byte) :
    m.encodeInto buffer = (writeAt buffer 0 m.encode.1).bind fun buffer =>
      some (buffer, 4 + encodedSize m.events) := by
  rw [encodeInto, Option.bind_eq_bind, encode_eq,
    ← writeAt_bind_writeAt (show 4 = 0 + (toBigEndian 4 m.gameId).length by
      rw [length_toBigEndian])]
  refine writeAt_bind_congr fun hfits => ?_
  rw [encodeEvents_eq]
  rw [length_writeBytes hfits, ← length_toBigEndian 4 m.gameId]
  omega

/-! ## Batches -/

/-- Calling `fromEvents` from `pos` and then from where it got to, until no events are left: what it
returns each time. `none` if the calls are not enough. -/
def batches (gameId : ℕ) (events : List Event) :
    ℕ → ℕ → Option (List (ℕ × ServerToClientMessage))
  | 0, pos => if pos < events.length then none else some []
  | calls + 1, pos =>
    if pos < events.length then
      let (count, msg) := ServerToClientMessage.fromEvents gameId (events.drop pos)
      (batches gameId events calls (pos + count)).map ((count, msg) :: ·)
    else some []

/-- What `fromEvents` returns: some events of the game, their number, and a message that takes no
more than a datagram. It is written in full, and nothing behind it. -/
structure IsBatch (gameId : ℕ) (batch : ℕ × ServerToClientMessage) : Prop where
  gameId_eq : batch.2.gameId = gameId
  count_eq : batch.1 = batch.2.events.length
  events_ne_nil : batch.2.events ≠ []
  encodedSize_le : 4 + encodedSize batch.2.events ≤ maxUdpDataFieldSize
  encodes : ∃ bytes : List Byte, bytes.length = 4 + encodedSize batch.2.events ∧
    ∀ buffer : List Byte, batch.2.encodeInto buffer =
      if 4 + encodedSize batch.2.events ≤ buffer.length then
        some (bytes ++ buffer.drop (4 + encodedSize batch.2.events),
          4 + encodedSize batch.2.events)
      else none

/-- The next batch starts with an event that there was no room for. -/
def IsMaximal (batch next : ℕ × ServerToClientMessage) : Prop :=
  ∀ e ∈ next.2.events.head?,
    maxUdpDataFieldSize < 4 + encodedSize batch.2.events + e.getEncodedSize

variable {gameId : ℕ} {events : List Event}

/-- **A batch stays within a datagram.** -/
theorem encodedSize_pickEvents : ∀ {reservedSize : ℕ} (es : List Event),
    reservedSize ≤ maxUdpDataFieldSize →
    reservedSize + encodedSize (pickEvents reservedSize es) ≤ maxUdpDataFieldSize
  | _, [], h => h
  | r, e :: es, h => by
    rw [pickEvents]
    split
    · exact h
    · rename_i hfits
      rw [encodedSize_cons, ← Nat.add_assoc]
      exact encodedSize_pickEvents es (not_lt.mp hfits)

/-- **A batch is maximal**: there is no room for the event behind it. -/
theorem lt_encodedSize_pickEvents {e : Event} : ∀ {reservedSize : ℕ} (es : List Event),
    es[(pickEvents reservedSize es).length]? = some e →
    maxUdpDataFieldSize < reservedSize + encodedSize (pickEvents reservedSize es) + e.getEncodedSize
  | _, [], h => by cases h
  | r, e' :: es, h => by
    rw [pickEvents] at h ⊢
    split
    · rename_i hfull
      rw [if_pos hfull] at h
      obtain rfl := Option.some.inj h
      exact hfull
    · rename_i hfits
      rw [if_neg hfits, List.length_cons, List.getElem?_cons_succ] at h
      rw [encodedSize_cons, ← Nat.add_assoc]
      exact lt_encodedSize_pickEvents es h

theorem ServerToClientMessage.encodes (m : ServerToClientMessage) :
    ∃ bytes : List Byte, bytes.length = 4 + encodedSize m.events ∧
      ∀ buffer : List Byte, m.encodeInto buffer =
        if 4 + encodedSize m.events ≤ buffer.length then
          some (bytes ++ buffer.drop (4 + encodedSize m.events), 4 + encodedSize m.events)
        else none := by
  have hlength : m.encode.1.length = 4 + encodedSize m.events := by
    rw [length_encode, encode_eq]
  refine ⟨m.encode.1, hlength, fun buffer => ?_⟩
  rw [m.encodeInto_eq, writeAt, Nat.zero_add, hlength]
  split
  · rw [writeBytes, hlength, List.take_zero, List.nil_append, Nat.zero_add]
    rfl
  · rfl

/-- One call, in front of at least one event. -/
theorem isBatch_fromEvents (hne : events ≠ [])
    (hsize : ∀ e ∈ events, e.getEncodedSize ≤ 546) :
    IsBatch gameId (ServerToClientMessage.fromEvents gameId events) where
  gameId_eq := rfl
  count_eq := rfl
  events_ne_nil := pickEvents_ne_nil hne fun e he => by
    have hle := hsize e he
    rw [maxUdpDataFieldSize]
    omega
  encodedSize_le := encodedSize_pickEvents events (by decide)
  encodes := ServerToClientMessage.encodes _

theorem batches_of_calls (hsize : ∀ e ∈ events, e.getEncodedSize ≤ 546) : ∀ calls pos,
    events.length ≤ pos + calls → ∃ bs, batches gameId events calls pos = some bs ∧
      (bs.flatMap fun b => b.2.events) = events.drop pos ∧
      (∀ b ∈ bs, IsBatch gameId b) ∧ bs.IsChain IsMaximal := by
  intro calls
  induction calls with
  | zero =>
    intro pos hcalls
    refine ⟨[], if_neg (by omega), ?_, fun b hb => absurd hb List.not_mem_nil, .nil⟩
    rw [List.flatMap_nil, List.drop_of_length_le (by omega)]
  | succ calls ih =>
    intro pos hcalls
    by_cases hpos : pos < events.length
    · have hbatch : IsBatch gameId (ServerToClientMessage.fromEvents gameId (events.drop pos)) := by
        refine isBatch_fromEvents ?_ fun e he => hsize e (List.mem_of_mem_drop he)
        rw [ne_eq, List.drop_eq_nil_iff]
        omega
      generalize hfrom : ServerToClientMessage.fromEvents gameId (events.drop pos) = batch at hbatch
      have hpositive := List.length_pos_iff.mpr hbatch.events_ne_nil
      obtain ⟨bs, hbs, hflat, hall, hchain⟩ := ih (pos + batch.1) (by
        rw [hbatch.count_eq]
        omega)
      have htaken : batch.2.events = (events.drop pos).take batch.1 := by
        rw [← hfrom]
        exact pickEvents_eq_take 4 _
      refine ⟨batch :: bs, ?_, ?_, ?_, List.isChain_cons.mpr ⟨fun next hnext => ?_, hchain⟩⟩
      · rw [batches, if_pos hpos, hfrom]
        simp only [hbs, Option.map_some]
      · rw [List.flatMap_cons, hflat, htaken, ← List.drop_drop, List.take_append_drop]
      · exact List.forall_mem_cons.mpr ⟨hbatch, hall⟩
      · -- the first event of the next batch is the one behind this batch
        intro e he
        obtain ⟨tail, rfl⟩ : ∃ tail, bs = next :: tail := List.head?_eq_some_iff.mp hnext
        obtain ⟨es, hes⟩ := List.head?_eq_some_iff.mp he
        rw [List.flatMap_cons, hes, List.cons_append] at hflat
        have hbehind : (events.drop pos)[batch.1]? = some e := by
          rw [List.getElem?_drop, ← List.head?_drop, ← hflat, List.head?_cons]
        subst hfrom
        exact lt_encodedSize_pickEvents _ hbehind
    · refine ⟨[], ?_, ?_, fun b hb => absurd hb List.not_mem_nil, .nil⟩
      · rw [batches, if_neg hpos]
      · rw [List.flatMap_nil, List.drop_of_length_le (by omega)]

/-- **Batches**: when every event fits a datagram, `fromEvents` deals out all events from the start
position on, in order, in maximal batches. -/
theorem batches_eq_some (hsize : ∀ e ∈ events, e.getEncodedSize ≤ 546) (gameId pos : ℕ) :
    ∃ bs, batches gameId events events.length pos = some bs ∧
      (bs.flatMap fun b => b.2.events) = events.drop pos ∧
      (∀ b ∈ bs, IsBatch gameId b) ∧ bs.IsChain IsMaximal :=
  batches_of_calls hsize events.length pos (Nat.le_add_left _ _)

/-- 40 pixels and the end of the game, which are dealt out in two batches. -/
def fortyPixels : List Event :=
  ((List.range 40).map fun i => ⟨i, .pixel ⟨0, i, i⟩⟩) ++ [⟨40, .gameOver⟩]

theorem batches_eq_some_forty : fortyPixels.length = 41 ∧
    (batches 7 fortyPixels 41 0).map (List.map Prod.fst) = some [24, 17] ∧
    ∃ bs, batches 7 fortyPixels fortyPixels.length 0 = some bs ∧
      (bs.flatMap fun b => b.2.events) = fortyPixels.drop 0 ∧
      (∀ b ∈ bs, IsBatch 7 b) ∧ bs.IsChain IsMaximal :=
  ⟨by decide +kernel, by decide +kernel, batches_eq_some (by decide +kernel) 7 0⟩

end ScreenWorms
