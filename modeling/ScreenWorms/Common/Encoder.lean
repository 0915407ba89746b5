import Mathlib.Algebra.BigOperators.Group.List.Basic
import Mathlib.Data.List.Induction
import ScreenWorms.Common.Decoder

/-!
# Encoding server messages

`encode` of a server message, of its events and of their payloads, and what the decoder makes of it.

The encoder takes the length of a record from `getEncodedSize`, the decoder from the `len` field of
the record. `length_encode` says that the first is the number of bytes written, so the records of a
message lie next to each other, and `Event.decode_encode` says that the second is right, whatever
lies before and behind the record. `Holds` says where in a buffer some bytes are.

What becomes of a datagram that is damaged in transit depends on the `len` field of the first record
that is not intact: only if the record fits into the datagram, its checksum is looked at.

## Main definitions

* `Event.encode`, `ServerToClientMessage.encode`
* `Event.Built` — an event of the server's constructors

## Main results

* `Event.decode_encode`, `decodeEvents_append` — what the decoder makes of records
* `message_roundTrip` — the decoder inverts the encoder
* `damaged_decode_iff` — which damage costs no event before it
-/

namespace ScreenWorms

/-! ## The encoder -/

/-- `EventNewGame::encode`. -/
def EventNewGame.encode (e : EventNewGame) : List Byte :=
  toBigEndian 4 e.maxx ++ (toBigEndian 4 e.maxy ++ e.players)

/-- `EventPixel::encode`. -/
def EventPixel.encode (e : EventPixel) : List Byte :=
  Fin.ofNat 256 e.playerNumber :: (toBigEndian 4 e.x ++ toBigEndian 4 e.y)

/-- `EventPlayerEliminated::encode`. -/
def EventPlayerEliminated.encode (e : EventPlayerEliminated) : List Byte :=
  [Fin.ofNat 256 e.playerNumber]

/-- The type of an event, as it is sent. -/
def GameEventVariant.eventType : GameEventVariant → Byte
  | .newGame _ => 0
  | .pixel _ => 1
  | .playerEliminated _ => 2
  | .gameOver => 3

/-- `encode` of the four payloads. -/
def GameEventVariant.encode : GameEventVariant → List Byte
  | .newGame e => e.encode
  | .pixel e => e.encode
  | .playerEliminated e => e.encode
  | .gameOver => []

/-- The `len` field: a `uint32_t`. -/
def Event.len (e : Event) : ℕ := toUInt32 (e.getEncodedSize - 4 - 4)

/-- A record without its checksum. -/
def Event.encodeBody (e : Event) : List Byte :=
  toBigEndian 4 e.len ++ (toBigEndian 4 e.eventNo ++ e.eventData.eventType :: e.eventData.encode)

/-- The record that `Event::encode` writes. It returns `getEncodedSize`. -/
def Event.encode (e : Event) : List Byte :=
  e.encodeBody ++ toBigEndian 4 (crc32 (e.encodeBody.take (e.len + 4))).toNat

/-- Writing some bytes at `pos`. -/
def writeBytes (buffer : List Byte) (pos : ℕ) (bytes : List Byte) : List Byte :=
  buffer.take pos ++ bytes ++ buffer.drop (pos + bytes.length)

/-- `ServerToClientMessage::encode`: the buffer after, and the number of bytes written. -/
def ServerToClientMessage.encode (m : ServerToClientMessage) : List Byte × ℕ :=
  m.events.foldl (fun r e => (writeBytes r.1 r.2 e.encode, r.2 + e.getEncodedSize))
    (toBigEndian 4 m.gameId, 4)

/-! ## Numbers -/

theorem length_toBigEndian : ∀ k n, (toBigEndian k n).length = k
  | 0, _ => rfl
  | k + 1, n => by
    rw [toBigEndian, List.length_append, length_toBigEndian k]
    rfl

theorem bigEndian_concat (bs : List Byte) (b : Byte) :
    bigEndian (bs ++ [b]) = bigEndian bs * 256 + b.val := by
  rw [bigEndian, List.foldl_append]
  rfl

theorem bigEndian_toBigEndian : ∀ k {n : ℕ}, n < 256 ^ k → bigEndian (toBigEndian k n) = n
  | 0, n, h => by
    rw [pow_zero] at h
    show 0 = n
    omega
  | k + 1, n, h => by
    have hdiv : n / 256 < 256 ^ k := by
      rw [pow_succ] at h
      exact Nat.div_lt_of_lt_mul (by omega)
    rw [toBigEndian, bigEndian_concat, bigEndian_toBigEndian k hdiv]
    show n / 256 * 256 + n % 256 = n
    omega

/-- Writing back what was read gives the bytes themselves. -/
theorem toBigEndian_bigEndian (bs : List Byte) : toBigEndian bs.length (bigEndian bs) = bs := by
  induction bs using List.reverseRecOn with
  | nil => rfl
  | append_singleton bs b ih =>
    have hb := b.isLt
    have hdiv : (bigEndian bs * 256 + b.val) / 256 = bigEndian bs := by omega
    have hlast : Fin.ofNat 256 (bigEndian bs * 256 + b.val) = b := by
      refine Fin.ext ?_
      show (bigEndian bs * 256 + b.val) % 256 = b.val
      omega
    rw [List.length_append, List.length_singleton, bigEndian_concat, toBigEndian, hdiv, hlast, ih]

theorem val_ofNat {n : ℕ} (h : n < 2 ^ 8) : (Fin.ofNat 256 n).val = n := Nat.mod_eq_of_lt h

/-! ## Bytes in a buffer -/

/-- The buffer has these bytes at `pos`. -/
def Holds (buffer : List Byte) (pos : ℕ) (bytes : List Byte) : Prop :=
  ∃ front rest, buffer = front ++ (bytes ++ rest) ∧ front.length = pos

variable {buffer bytes bytes' : List Byte} {pos size : ℕ}

namespace Holds

theorem left (h : Holds buffer pos (bytes ++ bytes')) : Holds buffer pos bytes := by
  obtain ⟨front, rest, rfl, hpos⟩ := h
  exact ⟨front, bytes' ++ rest, by rw [List.append_assoc], hpos⟩

theorem right (h : Holds buffer pos (bytes ++ bytes')) :
    Holds buffer (pos + bytes.length) bytes' := by
  obtain ⟨front, rest, rfl, rfl⟩ := h
  exact ⟨front ++ bytes, rest, by simp only [List.append_assoc], List.length_append⟩

theorem tail {b : Byte} (h : Holds buffer pos (b :: bytes)) : Holds buffer (pos + 1) bytes :=
  (show Holds buffer pos ([b] ++ bytes) from h).right

theorem le_length (h : Holds buffer pos bytes) : pos + bytes.length ≤ buffer.length := by
  obtain ⟨front, rest, rfl, rfl⟩ := h
  simp only [List.length_append]
  omega

theorem take_drop (h : Holds buffer pos bytes) :
    (buffer.drop pos).take bytes.length = bytes := by
  obtain ⟨front, rest, rfl, rfl⟩ := h
  rw [List.drop_left, List.take_left]

theorem readBytes (h : Holds buffer pos bytes) :
    readBytes buffer pos bytes.length = .ok bytes := by
  rw [readBytes_of_le h.le_length, h.take_drop]

theorem field32 {n : ℕ} (h : Holds buffer pos (toBigEndian 4 n)) (hn : n < 2 ^ 32) :
    field32 buffer pos = n := by
  have hbytes := h.take_drop
  rw [length_toBigEndian] at hbytes
  rw [ScreenWorms.field32, hbytes, bigEndian_toBigEndian 4 (hn.trans_le (by decide))]

theorem readUInt32 {n : ℕ} (h : Holds buffer pos (toBigEndian 4 n)) (hn : n < 2 ^ 32) :
    readUInt32 buffer pos = .ok n := by
  have hle := h.le_length
  rw [length_toBigEndian] at hle
  rw [readUInt32_of_le hle, h.field32 hn]

theorem getD {b : Byte} (h : Holds buffer pos (b :: bytes)) : buffer.getD pos 0 = b := by
  obtain ⟨front, rest, rfl, rfl⟩ := h
  simp

theorem readByte {b : Byte} (h : Holds buffer pos (b :: bytes)) :
    readByte buffer pos = .ok b := by
  have hle := h.le_length
  rw [List.length_cons] at hle
  rw [readByte_of_lt (by omega), h.getD]

end Holds

/-! ## Events of the constructors -/

/-- A payload of the constructors: numbers are in the range of their types, and a `NEW_GAME` is made
of 1 to 25 valid names. -/
inductive GameEventVariant.Built : GameEventVariant → Prop
  | newGame {maxx maxy : ℕ} {playerNames : List PlayerName} (hx : maxx < 2 ^ 32) (hy : maxy < 2 ^ 32)
      (hne : playerNames ≠ []) (hle : playerNames.length ≤ maxPlayers)
      (hnames : ∀ n ∈ playerNames, n.val ≠ []) :
      Built (.newGame (.ofNames maxx maxy (playerNames.map Subtype.val)))
  | pixel {playerNumber x y : ℕ} (hno : playerNumber < 2 ^ 8) (hx : x < 2 ^ 32) (hy : y < 2 ^ 32) :
      Built (.pixel ⟨playerNumber, x, y⟩)
  | playerEliminated {playerNumber : ℕ} (hno : playerNumber < 2 ^ 8) :
      Built (.playerEliminated ⟨playerNumber⟩)
  | gameOver : Built .gameOver

/-- An event of the constructor. -/
structure Event.Built (e : Event) : Prop where
  eventNo_lt : e.eventNo < 2 ^ 32
  eventData : e.eventData.Built

/-- The size of the `players` field. -/
theorem length_players_le (maxx maxy : ℕ) {playerNames : List PlayerName}
    (hle : playerNames.length ≤ maxPlayers) :
    (EventNewGame.ofNames maxx maxy (playerNames.map Subtype.val)).players.length ≤
      EventNewGame.maxPlayersFieldSize := by
  have hsum : ∀ ns : List PlayerName,
      ((ns.map Subtype.val).flatMap fun pname => pname ++ [(32 : Byte)]).length ≤
        ns.length * (maxPlayerNameLength + 1) := by
    intro ns
    induction ns with
    | nil => exact Nat.zero_le _
    | cons n ns ih =>
      have hn := n.length_le
      rw [List.map_cons, List.flatMap_cons, List.length_append, List.length_append,
        List.length_singleton, List.length_cons, Nat.succ_mul]
      omega
  rw [EventNewGame.ofNames, List.length_map]
  exact (hsum playerNames).trans (Nat.mul_le_mul_right _ hle)

/-- It ends with a zero byte, which is not the first. -/
theorem players_ofNames (maxx maxy : ℕ) {playerNames : List PlayerName} (hne : playerNames ≠ [])
    (hnames : ∀ n ∈ playerNames, n.val ≠ []) :
    ∃ b front, (EventNewGame.ofNames maxx maxy (playerNames.map Subtype.val)).players =
      b :: front ++ [0] := by
  obtain ⟨ns, n, rfl⟩ := List.eq_nil_or_concat playerNames |>.resolve_left hne
  obtain ⟨c, cs, hn⟩ := List.exists_cons_of_ne_nil (hnames n (by simp))
  have hsplit : ((ns.concat n).map Subtype.val).flatMap (fun pname => pname ++ [(32 : Byte)]) =
      ((ns.map Subtype.val).flatMap fun pname => pname ++ [(32 : Byte)]) ++ (c :: cs) ++ [32] := by
    simp [hn]
  rw [EventNewGame.ofNames]
  simp only [hsplit]
  rcases (ns.map Subtype.val).flatMap fun pname => pname ++ [(32 : Byte)] with _ | ⟨b, bs⟩
  · exact ⟨_, _, by rw [List.nil_append, List.map_append, List.map_cons]; rfl⟩
  · exact ⟨_, _, by rw [List.cons_append, List.map_append, List.map_cons]; rfl⟩

/-! ## Payloads -/

theorem EventNewGame.decode_encode {e : EventNewGame} (hx : e.maxx < 2 ^ 32) (hy : e.maxy < 2 ^ 32)
    (hle : e.players.length ≤ maxPlayersFieldSize) {b : Byte} {front : List Byte}
    (hplayers : e.players = b :: front ++ [0]) (h : Holds buffer pos e.encode) :
    EventNewGame.decode buffer pos (4 + 4 + e.players.length) = .ok e := by
  have hmaxy := h.right
  rw [length_toBigEndian] at hmaxy
  have hbytes := hmaxy.right
  rw [length_toBigEndian] at hbytes
  have hsize : e.players.length = front.length + 2 := by
    rw [hplayers, List.length_append, List.length_cons]
    rfl
  have hlast : e.players.getD (e.players.length - 1) 0 = 0 := by
    rw [hsize, hplayers, List.getD_eq_getElem?_getD, List.getElem?_append_right (by simp)]
    simp
  rw [EventNewGame.decode, if_neg (by omega)]
  simp only [bind, Except.bind, h.left.readUInt32 hx, hmaxy.left.readUInt32 hy,
    show 4 + 4 + e.players.length - 8 = e.players.length by omega,
    show pos + 8 = pos + 4 + 4 by omega, hbytes.readBytes, if_neg (not_lt.mpr hle)]
  rw [if_neg (not_not.mpr hlast)]

theorem EventPixel.decode_encode {e : EventPixel} (hno : e.playerNumber < 2 ^ 8) (hx : e.x < 2 ^ 32)
    (hy : e.y < 2 ^ 32) (h : Holds buffer pos e.encode) :
    EventPixel.decode buffer pos 9 = .ok e := by
  have hxs := h.tail
  have hys := hxs.right
  rw [length_toBigEndian] at hys
  rw [EventPixel.decode, if_neg (by omega)]
  simp only [bind, Except.bind, h.readByte, hxs.left.readUInt32 hx,
    show pos + 5 = pos + 1 + 4 by omega, hys.readUInt32 hy, val_ofNat hno]

theorem EventPlayerEliminated.decode_encode {e : EventPlayerEliminated}
    (hno : e.playerNumber < 2 ^ 8) (h : Holds buffer pos e.encode) :
    EventPlayerEliminated.decode buffer pos 1 = .ok e := by
  rw [EventPlayerEliminated.decode, if_neg (by omega)]
  simp only [bind, Except.bind, h.readByte, val_ofNat hno]

namespace GameEventVariant

theorem length_encode (v : GameEventVariant) : v.encode.length = v.getSize := by
  rcases v with e | e | e | _
  · simp only [encode, EventNewGame.encode, List.length_append, length_toBigEndian, getSize]
    omega
  · simp [encode, EventPixel.encode, length_toBigEndian, getSize]
  · rfl
  · rfl

theorem Built.getSize_le {v : GameEventVariant} (h : v.Built) :
    v.getSize ≤ 8 + EventNewGame.maxPlayersFieldSize := by
  rcases h with @⟨maxx, maxy, playerNames, -, -, -, hle, -⟩ | - | - | -
  · have hplayers := length_players_le maxx maxy hle
    rw [getSize]
    omega
  all_goals exact Nat.le_of_ble_eq_true rfl

/-- **Payloads.** The decoder gets back what was encoded. -/
theorem Built.decodeEventData {v : GameEventVariant} (h : v.Built)
    (hholds : Holds buffer pos v.encode) :
    decodeEventData v.eventType buffer pos v.getSize = .ok (some v) := by
  rw [ScreenWorms.decodeEventData]
  rcases h with @⟨maxx, maxy, playerNames, hx, hy, hne, hle, hnames⟩ | ⟨hno, hx, hy⟩ | hno | -
  · obtain ⟨b, front, hplayers⟩ := players_ofNames maxx maxy hne hnames
    rw [eventType, if_pos rfl, getSize,
      EventNewGame.decode_encode hx hy (length_players_le maxx maxy hle) hplayers hholds]
    rfl
  · rw [eventType, if_neg (by decide), if_pos rfl, getSize,
      EventPixel.decode_encode hno hx hy hholds]
    rfl
  · rw [eventType, if_neg (by decide), if_neg (by decide), if_pos rfl, getSize,
      EventPlayerEliminated.decode_encode hno hholds]
    rfl
  · rfl

end GameEventVariant

/-! ## Records -/

namespace Event

theorem length_encodeBody (e : Event) : e.encodeBody.length = 9 + e.eventData.getSize := by
  rw [encodeBody, List.length_append, List.length_append, List.length_cons, length_toBigEndian,
    length_toBigEndian, GameEventVariant.length_encode]
  omega

/-- `encode` returns the number of bytes it writes. -/
theorem length_encode (e : Event) : e.encode.length = e.getEncodedSize := by
  rw [encode, List.length_append, length_encodeBody, length_toBigEndian, getEncodedSize]
  omega

theorem Built.len_eq {e : Event} (h : e.Built) : e.len = e.eventData.getSize + 5 := by
  have hsize := h.eventData.getSize_le
  have hmax : EventNewGame.maxPlayersFieldSize = 525 := rfl
  rw [len, getEncodedSize, toUInt32_of_lt (by omega)]
  omega

theorem Built.length_encodeBody {e : Event} (h : e.Built) : e.encodeBody.length = e.len + 4 := by
  rw [Event.length_encodeBody, h.len_eq]
  omega

/-- **Records.** The decoder gets an encoded event back, wherever it lies. -/
theorem Built.decode_encode {e : Event} (h : e.Built) (hholds : Holds buffer pos e.encode)
    (hfits : e.getEncodedSize ≤ size) (hsize : size < 2 ^ 32) :
    Event.decode buffer pos size = .ok (e.received, e.getEncodedSize) := by
  have hlen := h.len_eq
  have hencoded : e.getEncodedSize = e.len + 8 := by
    rw [getEncodedSize, hlen]
  have hbody := hholds.left
  -- the fields, one after another
  have hno := hbody.right
  rw [length_toBigEndian] at hno
  have htype := hno.right
  rw [length_toBigEndian] at htype
  have hdata := htype.tail
  have hchecksum := hholds.right
  rw [List.take_of_length_le h.length_encodeBody.le, h.length_encodeBody,
    show pos + (e.len + 4) = pos + 4 + 4 + 1 + e.eventData.getSize by omega] at hchecksum
  have hbytes := hbody.readBytes
  rw [h.length_encodeBody] at hbytes
  have hrecord : recordFits e.len size = true := by
    rw [recordFits_iff (by omega) (by omega) hsize]
    omega
  simp only [Event.decode, bind, Except.bind, hbody.left.readUInt32 (by omega),
    if_neg (show ¬e.len < 5 by omega), hno.left.readUInt32 h.eventNo_lt,
    show pos + 8 = pos + 4 + 4 by omega, htype.readByte, hrecord, Bool.not_true,
    Bool.false_eq_true, if_false, show pos + 9 = pos + 4 + 4 + 1 by omega,
    show e.len - 5 = e.eventData.getSize by omega, hchecksum.readUInt32 (BitVec.isLt _), hbytes,
    h.eventData.decodeEventData hdata, hencoded]
  rw [if_neg (not_not.mpr rfl)]
  rfl

end Event

/-- The number of bytes of some records. -/
def encodedSize (events : List Event) : ℕ := (events.map Event.getEncodedSize).sum

theorem encodedSize_cons (e : Event) (es : List Event) :
    encodedSize (e :: es) = e.getEncodedSize + encodedSize es := List.sum_cons

theorem length_le_encodedSize (events : List Event) : events.length ≤ encodedSize events := by
  rw [encodedSize, ← List.length_map Event.getEncodedSize]
  refine List.length_le_sum_of_one_le _ fun n hn => ?_
  obtain ⟨e, -, rfl⟩ := List.mem_map.mp hn
  rw [Event.getEncodedSize]
  omega

theorem length_flatMap_encode (events : List Event) :
    (events.flatMap Event.encode).length = encodedSize events := by
  induction events with
  | nil => rfl
  | cons e es ih =>
    rw [List.flatMap_cons, List.length_append, e.length_encode, ih, encodedSize_cons]

/-- **The loop of the decoder.** It takes encoded events from the front of a datagram. -/
theorem decodeEvents_append {events : List Event} (h : ∀ e ∈ events, e.Built)
    (hsize : size < 2 ^ 32) {fuel : ℕ} (hholds : Holds buffer pos (events.flatMap Event.encode))
    (hfits : pos + encodedSize events ≤ size) :
    decodeEvents buffer size (fuel + events.length) pos =
      (decodeEvents buffer size fuel (pos + encodedSize events)).map
        (events.map Event.received ++ ·) := by
  induction events generalizing pos with
  | nil =>
    show decodeEvents buffer size fuel pos = (decodeEvents buffer size fuel pos).map id
    cases decodeEvents buffer size fuel pos <;> rfl
  | cons e es ih =>
    have he := h e List.mem_cons_self
    have hcons := encodedSize_cons e es
    have hpos : 0 < e.getEncodedSize := by
      rw [Event.getEncodedSize]
      omega
    have hrest := hholds.right
    rw [e.length_encode] at hrest
    rw [List.length_cons, ← Nat.add_assoc, decodeEvents, if_pos (by omega),
      he.decode_encode hholds.left (by omega) (by omega)]
    simp only
    rw [ih (fun e' he' => h e' (List.mem_cons_of_mem _ he')) hrest (by omega), hcons,
      ← Nat.add_assoc]
    cases decodeEvents buffer size fuel (pos + e.getEncodedSize + encodedSize es) <;> rfl

/-! ## Messages -/

/-- The records lie next to each other. -/
theorem ServerToClientMessage.encode_eq (m : ServerToClientMessage) :
    m.encode = (toBigEndian 4 m.gameId ++ m.events.flatMap Event.encode,
      4 + encodedSize m.events) := by
  have hfold : ∀ (events : List Event) (bytes : List Byte) (written : ℕ), bytes.length = written →
      events.foldl (fun r e => (writeBytes r.1 r.2 e.encode, r.2 + e.getEncodedSize))
        (bytes, written) = (bytes ++ events.flatMap Event.encode, written + encodedSize events) := by
    intro events
    induction events with
    | nil =>
      intro bytes written _
      rw [List.foldl_nil, List.flatMap_nil, List.append_nil]
      rfl
    | cons e es ih =>
      intro bytes written hlength
      have hwrite : writeBytes bytes written e.encode = bytes ++ e.encode := by
        rw [writeBytes, ← hlength, List.take_length, List.drop_of_length_le (by omega),
          List.append_nil]
      rw [List.foldl_cons, hwrite, ih _ _ (by rw [List.length_append, hlength, e.length_encode])]
      rw [List.flatMap_cons, List.append_assoc, encodedSize_cons, Nat.add_assoc]
  exact hfold m.events _ 4 (length_toBigEndian 4 _)

/-- `encode` returns the number of bytes it has written. -/
theorem ServerToClientMessage.length_encode (m : ServerToClientMessage) :
    m.encode.1.length = m.encode.2 := by
  rw [encode_eq, List.length_append, length_toBigEndian, length_flatMap_encode]

/-- What follows the records of a message is decoded on its own. -/
theorem ReceivedMessage.decode_append {m : ServerToClientMessage} (hid : m.gameId < 2 ^ 32)
    (h : ∀ e ∈ m.events, e.Built) (hholds : Holds buffer 0 m.encode.1) (hle : m.encode.2 ≤ size)
    (hsize : size ≤ maxUdpDataFieldSize) :
    ReceivedMessage.decode buffer size =
      (decodeEvents buffer size (size - m.events.length) m.encode.2).map fun events =>
        ⟨m.gameId, m.events.map Event.received ++ events⟩ := by
  rw [ServerToClientMessage.encode_eq] at hholds hle ⊢
  have hrecords := hholds.right
  rw [length_toBigEndian] at hrecords
  have hcount := length_le_encodedSize m.events
  have hloop := @decodeEvents_append buffer 4 size m.events h (hsize.trans_lt (by decide))
    (size - m.events.length) hrecords hle
  rw [Nat.sub_add_cancel (show m.events.length ≤ size by simp only at hle; omega)] at hloop
  rw [ReceivedMessage.decode, if_neg (not_or.mpr ⟨by simp only at hle; omega, not_lt.mpr hsize⟩)]
  simp only [bind, Except.bind, hholds.left.readUInt32 hid, hloop]
  cases decodeEvents buffer size (size - m.events.length) (4 + encodedSize m.events) <;> rfl

/-- **The decoder inverts the encoder**, whatever the rest of the receive buffer holds. -/
theorem message_roundTrip {m : ServerToClientMessage} (hid : m.gameId < 2 ^ 32)
    (hbuilt : ∀ e ∈ m.events, e.Built) (hsize : m.encode.2 ≤ maxUdpDataFieldSize)
    (rest : List Byte) :
    ReceivedMessage.decode (m.encode.1 ++ rest) m.encode.2 =
      .ok ⟨m.gameId, m.events.map Event.received⟩ := by
  have hdone : ∀ fuel, decodeEvents (m.encode.1 ++ rest) m.encode.2 fuel m.encode.2 = .ok [] := by
    intro fuel
    rcases fuel with _ | fuel
    · rfl
    · rw [decodeEvents, if_neg (lt_irrefl _)]
  have hholds : Holds (m.encode.1 ++ rest) 0 m.encode.1 := ⟨[], rest, rfl, rfl⟩
  rw [ReceivedMessage.decode_append hid hbuilt hholds le_rfl hsize, hdone]
  show Except.ok (ReceivedMessage.mk m.gameId (m.events.map Event.received ++ [])) = _
  rw [List.append_nil]

/-- The first message of a game of two players. -/
theorem message_roundTrip_newGame :
    let m : ServerToClientMessage :=
      ⟨7, [⟨0, .newGame (.ofNames 16 16 [[97], [98]])⟩, ⟨1, .pixel ⟨0, 3, 4⟩⟩]⟩
    ReceivedMessage.decode (m.encode.1 ++ []) m.encode.2 =
      .ok ⟨7, [⟨0, some (.newGame ⟨16, 16, [97, 0, 98, 0]⟩)⟩, ⟨1, some (.pixel ⟨0, 3, 4⟩)⟩]⟩ := by
  have hnames : GameEventVariant.Built (.newGame (.ofNames 16 16 [[97], [98]])) :=
    @GameEventVariant.Built.newGame 16 16 [⟨[97], by decide⟩, ⟨[98], by decide⟩] (by decide)
      (by decide) (by decide) (by decide) (by decide)
  refine message_roundTrip (m := ⟨7, [⟨0, .newGame (.ofNames 16 16 [[97], [98]])⟩,
    ⟨1, .pixel ⟨0, 3, 4⟩⟩]⟩) (by decide) ?_ (by decide +kernel) []
  intro e he
  rcases List.mem_pair.mp he with rfl | rfl
  · exact ⟨by decide, hnames⟩
  · exact ⟨by decide, .pixel (by decide) (by decide) (by decide)⟩

/-! ## Damaged datagrams -/

/-- A message with the first `k` events only. -/
def ServerToClientMessage.upTo (m : ServerToClientMessage) (k : ℕ) : ServerToClientMessage :=
  ⟨m.gameId, m.events.take k⟩

/-- Where the record after the first `k` ones starts. -/
def recordStart (m : ServerToClientMessage) (k : ℕ) : ℕ := (m.upTo k).encode.2

theorem four_le_recordStart (m : ServerToClientMessage) (k : ℕ) : 4 ≤ recordStart m k := by
  rw [recordStart, ServerToClientMessage.encode_eq]
  exact Nat.le_add_right _ _

/-- A record with a valid checksum at `pos`, with `size` bytes left. -/
structure CrcValid (buffer : List Byte) (pos size : ℕ) : Prop where
  len_ge : 5 ≤ field32 buffer pos
  fits : field32 buffer pos + 8 ≤ size
  checksum : field32 buffer (pos + field32 buffer pos + 4) =
    (crc32 ((buffer.drop pos).take (field32 buffer pos + 4))).toNat

/-- A datagram of `size` bytes in the receive buffer that agrees with an encoded message on what
lies before record `k`, where no record with a valid checksum starts. -/
structure DamagedAt (m : ServerToClientMessage) (k : ℕ) (buffer : List Byte) (size : ℕ) : Prop where
  length_buffer : buffer.length = inboundServerMessageBufferSize
  size_le : size ≤ maxUdpDataFieldSize
  start_le : recordStart m k ≤ size
  kept : buffer.take (recordStart m k) = m.encode.1.take (recordStart m k)
  damaged : ¬CrcValid buffer (recordStart m k) (size - recordStart m k)

section Record

variable (hend : pos + size ≤ maxUdpDataFieldSize)
  (hbuffer : buffer.length = inboundServerMessageBufferSize)

include hend hbuffer

/-- A record whose checksum is looked at ends the datagram. The others are errors. -/
theorem Event.decode_damaged (hstart : 4 ≤ pos) (h : ¬CrcValid buffer pos size) :
    5 ≤ field32 buffer pos ∧ field32 buffer pos + 8 ≤ size ∧
      Event.decode buffer pos size = .error .crc32MismatchError ∨
    ¬(5 ≤ field32 buffer pos ∧ field32 buffer pos + 8 ≤ size) ∧
      (Event.decode buffer pos size = .error .encoderDecoderError ∨
        Event.decode buffer pos size = .error .readBeyond) := by
  rw [Event.decode_eq hend hbuffer hstart, recordOutcome]
  by_cases hfits : 5 ≤ field32 buffer pos ∧ field32 buffer pos + 8 ≤ size
  · left
    have hnot : ¬Wraps (field32 buffer pos) size := by
      intro hwraps
      have hge := hwraps.1
      have hle := hfits.2
      simp only [maxUdpDataFieldSize] at hend
      omega
    rw [if_neg hnot, if_neg (not_not.mpr hfits),
      if_pos fun hsum => h ⟨hfits.1, hfits.2, hsum⟩]
    exact ⟨hfits.1, hfits.2, rfl⟩
  · right
    refine ⟨hfits, ?_⟩
    rw [if_pos hfits]
    split
    · exact Or.inr rfl
    · exact Or.inl rfl

end Record

/-- The first records of an encoded message. -/
theorem take_encode (m : ServerToClientMessage) (k : ℕ) :
    m.encode.1.take (recordStart m k) = (m.upTo k).encode.1 := by
  have hsplit : m.events.flatMap Event.encode =
      (m.upTo k).events.flatMap Event.encode ++ (m.events.drop k).flatMap Event.encode := by
    rw [← List.flatMap_append, ServerToClientMessage.upTo, List.take_append_drop]
  rw [recordStart, ServerToClientMessage.encode_eq, ServerToClientMessage.encode_eq, hsplit,
    ← List.append_assoc]
  refine List.take_left' ?_
  rw [List.length_append, length_toBigEndian, length_flatMap_encode]

/-- **Damage.** The events before the damaged record are decoded exactly when the datagram ends
there, or the `len` field at that place makes a record of a possible size that fits the datagram. -/
theorem damaged_decode_iff {m : ServerToClientMessage} (hid : m.gameId < 2 ^ 32)
    (hbuilt : ∀ e ∈ m.events, e.Built) {k : ℕ} (h : DamagedAt m k buffer size) :
    ReceivedMessage.decode buffer size = .ok ⟨m.gameId, (m.events.take k).map Event.received⟩ ↔
      size = recordStart m k ∨
        5 ≤ field32 buffer (recordStart m k) ∧
          field32 buffer (recordStart m k) + 8 ≤ size - recordStart m k := by
  have htake : ∀ e ∈ (m.upTo k).events, e.Built := fun e he => hbuilt e (List.mem_of_mem_take he)
  have hsize := h.size_le
  have hstart := h.start_le
  have hkept := h.kept
  rw [take_encode] at hkept
  have hholds : Holds buffer 0 (m.upTo k).encode.1 :=
    ⟨[], buffer.drop (recordStart m k), by rw [← hkept, List.nil_append, List.take_append_drop],
      rfl⟩
  rw [ReceivedMessage.decode_append (m := m.upTo k) hid htake hholds hstart hsize]
  show Except.map _ (decodeEvents buffer size (size - (m.events.take k).length)
    (recordStart m k)) = _ ↔ _
  rcases hstart.eq_or_lt with heq | hlt
  · have hdone : ∀ fuel, decodeEvents buffer size fuel (recordStart m k) = .ok [] := by
      intro fuel
      rcases fuel with _ | fuel
      · rfl
      · rw [decodeEvents, if_neg (by omega)]
    rw [hdone, Except.map, List.append_nil]
    exact ⟨fun _ => Or.inl heq.symm, fun _ => rfl⟩
  · have hfuel : (m.events.take k).length < recordStart m k := by
      have hcount := length_le_encodedSize (m.events.take k)
      rw [recordStart, ServerToClientMessage.encode_eq]
      show (m.events.take k).length < 4 + encodedSize (m.events.take k)
      omega
    obtain ⟨fuel, hfuel⟩ := Nat.exists_eq_add_of_lt (hfuel.trans hlt)
    rw [show size - (m.events.take k).length = fuel + 1 by omega, decodeEvents, if_pos hlt]
    rcases Event.decode_damaged (by omega) h.length_buffer (four_le_recordStart m k) h.damaged with
      ⟨hge, hle, heq⟩ | ⟨hnot, heq | heq⟩
    · rw [heq]
      simp only [Except.map, List.append_nil]
      exact ⟨fun _ => Or.inr ⟨hge, hle⟩, fun _ => rfl⟩
    all_goals
      rw [heq]
      exact ⟨fun h => (by cases h), fun h => absurd h (not_or.mpr ⟨hlt.ne', hnot⟩)⟩

/-- A message with two events. -/
def twoGameOvers : ServerToClientMessage := ⟨7, [⟨0, .gameOver⟩, ⟨1, .gameOver⟩]⟩

theorem built_twoGameOvers : ∀ e ∈ twoGameOvers.events, e.Built := by
  intro e he
  rcases List.mem_pair.mp he with rfl | rfl <;> exact ⟨by decide, .gameOver⟩

/-- Its second event has lost its checksum. -/
theorem damaged_decode_checksum :
    let buffer := received (twoGameOvers.encode.1.take 26 ++ [0, 0, 0, 0])
    ReceivedMessage.decode buffer 30 = .ok ⟨7, [⟨0, some .gameOver⟩]⟩ := by
  refine (damaged_decode_iff (m := twoGameOvers) (k := 1) (by decide) built_twoGameOvers
    ⟨by decide +kernel, by decide, by decide +kernel, by decide +kernel, ?_⟩).mpr
    (Or.inr (by decide +kernel))
  exact fun h => absurd h.checksum (by decide +kernel)

/-- Its second event has lost its length, and the first is lost with it. -/
theorem not_damaged_decode :
    let buffer := received (twoGameOvers.encode.1.take 17 ++ [0, 0, 0, 0, 0, 0, 0, 1, 3, 0, 0, 0, 0])
    (∀ e ∈ twoGameOvers.events, e.Built) ∧ DamagedAt twoGameOvers 1 buffer 30 ∧
      ReceivedMessage.decode buffer 30 = .error .encoderDecoderError := by
  refine ⟨built_twoGameOvers, ⟨by decide +kernel, by decide, by decide +kernel, by decide +kernel,
    fun h => absurd h.len_ge (by decide +kernel)⟩, by decide +kernel⟩

end ScreenWorms
