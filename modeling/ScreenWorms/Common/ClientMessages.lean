import Mathlib.Data.List.GetD
import ScreenWorms.Common.Encoder

/-!
# Encoding client messages

The codec of client messages is a bijection. A buffer is accepted for what it is made of (`Valid`):
its size, the byte that holds the direction, and the bytes of the name, whose number no field of the
message tells. The two big-endian numbers take any value of their types, so nothing of the buffer is
lost, and nothing of the message.

## Main results

* `decode_isSome_iff` — which buffers are accepted
* `encode_of_decode`, `decode_encode` — both round trips
* `clientMessage_codec` — the three together
-/

namespace ScreenWorms

/-! ## Directions and names -/

theorem TurnDirection.ofByte_eq_some {b : Byte} {d : TurnDirection} :
    TurnDirection.ofByte b = some d ↔ b = d.toByte := by
  rw [TurnDirection.ofByte]
  split
  · subst b
    cases d <;> decide
  · split
    · subst b
      cases d <;> decide
    · split
      · subst b
        cases d <;> decide
      · refine ⟨fun h => absurd h (by simp), fun h => ?_⟩
        cases d <;> exact absurd h (by assumption)

theorem TurnDirection.ofByte_toByte (d : TurnDirection) : TurnDirection.ofByte d.toByte = some d :=
  TurnDirection.ofByte_eq_some.mpr rfl

theorem TurnDirection.ofByte_isSome {b : Byte} : (TurnDirection.ofByte b).isSome ↔ b.val ≤ 2 := by
  rw [Option.isSome_iff_exists]
  refine ⟨fun ⟨d, hd⟩ => ?_, fun h => ?_⟩
  · rw [ofByte_eq_some.mp hd]
    cases d <;> decide
  · obtain h0 | h1 | h2 : b = 0 ∨ b = 1 ∨ b = 2 := by
      simp only [Fin.ext_iff]
      show b.val = 0 ∨ b.val = 1 ∨ b.val = 2
      omega
    · exact ⟨.straight, ofByte_eq_some.mpr h0⟩
    · exact ⟨.right, ofByte_eq_some.mpr h1⟩
    · exact ⟨.left, ofByte_eq_some.mpr h2⟩

theorem isValidPlayerName_iff {s : List Byte} :
    isValidPlayerName s = true ↔
      s.length ≤ maxPlayerNameLength ∧ ∀ c ∈ s, 33 ≤ c.val ∧ c.val ≤ 126 := by
  simp [isValidPlayerName]

namespace ClientToServerMessage

variable {buffer : List Byte} {msg : ClientToServerMessage}

/-! ## What the decoder accepts -/

/-- A buffer that holds a message. -/
structure Valid (buffer : List Byte) : Prop where
  minStructSize_le : minStructSize ≤ buffer.length
  le_maxStructSize : buffer.length ≤ maxStructSize
  turnDirection : (buffer.getD 8 0).val ≤ 2
  playerName : ∀ b ∈ buffer.drop minStructSize, 33 ≤ b.val ∧ b.val ≤ 126

/-- The size of a datagram bounds the size of the name. -/
theorem Valid.isValidPlayerName (h : Valid buffer) :
    isValidPlayerName (buffer.drop minStructSize) = true := by
  have hle := h.le_maxStructSize
  refine isValidPlayerName_iff.mpr ⟨?_, h.playerName⟩
  rw [List.length_drop]
  exact Nat.sub_le_iff_le_add.mpr hle

/-- Everything decoding does, field by field. -/
theorem decode_eq_some :
    decode buffer = some msg ↔
      minStructSize ≤ buffer.length ∧ buffer.length ≤ maxStructSize ∧
        buffer.getD 8 0 = msg.turnDirection.toByte ∧ buffer.drop minStructSize = msg.playerName.val ∧
        bigEndian (buffer.take 8) = msg.sessionId ∧
        bigEndian ((buffer.drop 9).take 4) = msg.nextExpectedEventNo := by
  rw [decode]
  split
  · rename_i hsize
    refine ⟨fun h => absurd h (by simp), fun h => ?_⟩
    omega
  · rename_i hsize
    have hmin : minStructSize ≤ buffer.length := by omega
    have hmax : buffer.length ≤ maxStructSize := by omega
    cases hdir : TurnDirection.ofByte (buffer.getD 8 0) with
    | none =>
      refine ⟨fun h => absurd h (by simp), fun h => ?_⟩
      rw [h.2.2.1, TurnDirection.ofByte_toByte] at hdir
      exact absurd hdir (by simp)
    | some turnDirection =>
      have hbyte := TurnDirection.ofByte_eq_some.mp hdir
      dsimp only
      split
      · refine ⟨fun h => ?_, fun h => ?_⟩
        · rw [← Option.some.inj h]
          exact ⟨hmin, hmax, hbyte, rfl, rfl, rfl⟩
        · obtain ⟨-, -, hdir', hname, hid, hno⟩ := h
          have hturn : turnDirection = msg.turnDirection := by
            rw [hdir', TurnDirection.ofByte_toByte] at hdir
            exact (Option.some.inj hdir).symm
          subst hturn
          simp only [hid, hno, hname]
      · rename_i hvalid
        refine ⟨fun h => absurd h (by simp), fun h => ?_⟩
        rw [h.2.2.2.1] at hvalid
        exact absurd msg.playerName.property hvalid

theorem decode_isSome_iff : (decode buffer).isSome ↔ Valid buffer := by
  refine ⟨fun h => ?_, fun h => ?_⟩
  · obtain ⟨msg, hmsg⟩ := Option.isSome_iff_exists.mp h
    obtain ⟨hmin, hmax, hdir, hname, -, -⟩ := decode_eq_some.mp hmsg
    refine ⟨hmin, hmax, ?_, ?_⟩
    · rw [← TurnDirection.ofByte_isSome, hdir, TurnDirection.ofByte_toByte]
      rfl
    · rw [hname]
      exact (isValidPlayerName_iff.mp msg.playerName.property).2
  · obtain ⟨turnDirection, hdir⟩ :=
      Option.isSome_iff_exists.mp (TurnDirection.ofByte_isSome.mpr h.turnDirection)
    refine Option.isSome_iff_exists.mpr ⟨⟨bigEndian (buffer.take 8), turnDirection,
      bigEndian ((buffer.drop 9).take 4), ⟨_, h.isValidPlayerName⟩⟩, ?_⟩
    exact decode_eq_some.mpr ⟨h.minStructSize_le, h.le_maxStructSize,
      TurnDirection.ofByte_eq_some.mp hdir, rfl, rfl, rfl⟩

/-! ## Round trips -/

/-- A buffer is its first eight bytes, the direction, the next four bytes, and the name. -/
theorem split_buffer (h : minStructSize ≤ buffer.length) :
    buffer.take 8 ++ buffer.getD 8 0 :: ((buffer.drop 9).take 4 ++ buffer.drop minStructSize) =
      buffer := by
  have hlt : 8 < buffer.length := lt_of_lt_of_le (by decide) h
  have hname : buffer.drop minStructSize = (buffer.drop 9).drop 4 := by rw [List.drop_drop]; rfl
  have hbyte : buffer.getD 8 0 :: buffer.drop 9 = buffer.drop 8 := by
    rw [List.getD_eq_getElem buffer 0 hlt]
    exact (List.drop_eq_getElem_cons hlt).symm
  rw [hname, List.take_append_drop, hbyte, List.take_append_drop]

theorem encode_of_decode (h : decode buffer = some msg) : msg.encode = buffer := by
  obtain ⟨hmin, -, hdir, hname, hid, hno⟩ := decode_eq_some.mp h
  have hmin' : 13 ≤ buffer.length := hmin
  have h8 : (buffer.take 8).length = 8 := by rw [List.length_take]; omega
  have h4 : ((buffer.drop 9).take 4).length = 4 := by
    rw [List.length_take, List.length_drop]
    omega
  have hid' := toBigEndian_bigEndian (buffer.take 8)
  have hno' := toBigEndian_bigEndian ((buffer.drop 9).take 4)
  rw [h8, hid] at hid'
  rw [h4, hno] at hno'
  rw [encode, hid', hno', ← hdir, ← hname, split_buffer hmin]

theorem length_encode (msg : ClientToServerMessage) :
    msg.encode.length = minStructSize + msg.playerNameSize := by
  rw [encode, List.length_append, List.length_cons, List.length_append, length_toBigEndian,
    length_toBigEndian, playerNameSize, minStructSize]
  omega

theorem decode_encode (hid : msg.sessionId < 2 ^ 64) (hno : msg.nextExpectedEventNo < 2 ^ 32) :
    decode msg.encode = some msg := by
  have h8 := length_toBigEndian 8 msg.sessionId
  have h4 := length_toBigEndian 4 msg.nextExpectedEventNo
  have hname := msg.playerName.length_le
  -- the buffer from the direction on, and from the second number on
  have hfrom8 : msg.encode.drop 8 = msg.turnDirection.toByte ::
      (toBigEndian 4 msg.nextExpectedEventNo ++ msg.playerName.val) := by
    rw [encode, List.drop_left' h8]
  have hfrom9 : msg.encode.drop 9 =
      toBigEndian 4 msg.nextExpectedEventNo ++ msg.playerName.val := by
    rw [show 9 = 8 + 1 from rfl, ← List.drop_drop, hfrom8]
    rfl
  have hlength := length_encode msg
  refine decode_eq_some.mpr ⟨?_, ?_, ?_, ?_, ?_, ?_⟩
  · omega
  · rw [hlength]
    exact Nat.add_le_add_left hname _
  · rw [List.getD_eq_getElem?_getD, ← List.head?_drop, hfrom8]
    rfl
  · rw [show minStructSize = 9 + 4 from rfl, ← List.drop_drop, hfrom9, List.drop_left' h4]
  · rw [encode, List.take_left' h8, bigEndian_toBigEndian 8 (lt_of_lt_of_le hid (by decide))]
  · rw [hfrom9, List.take_left' h4, bigEndian_toBigEndian 4 (lt_of_lt_of_le hno (by decide))]

end ClientToServerMessage

open ClientToServerMessage in
/-- The codec of client messages: a buffer of any size is accepted if and only if it is made as the
format says, the message it holds encodes to that buffer, and every message is decoded to itself. -/
theorem clientMessage_codec :
    (∀ buffer : List Byte, (∃ msg, decode buffer = some msg) ↔
      13 ≤ buffer.length ∧ buffer.length ≤ 33 ∧ (buffer.getD 8 0).val ≤ 2 ∧
        ∀ b ∈ buffer.drop 13, 33 ≤ b.val ∧ b.val ≤ 126) ∧
    (∀ (buffer : List Byte) (msg : ClientToServerMessage),
      decode buffer = some msg → msg.encode = buffer) ∧
    ∀ msg : ClientToServerMessage, msg.sessionId < 2 ^ 64 → msg.nextExpectedEventNo < 2 ^ 32 →
      decode msg.encode = some msg := by
  refine ⟨fun buffer => ?_, fun buffer msg h => encode_of_decode h, fun msg hid hno =>
    decode_encode hid hno⟩
  rw [← Option.isSome_iff_exists, decode_isSome_iff]
  exact ⟨fun h => ⟨h.1, h.2, h.3, h.4⟩, fun h => ⟨h.1, h.2.1, h.2.2.1, h.2.2.2⟩⟩

/-- The request of a client named "worm" for the first event. -/
def firstRequest : ClientToServerMessage :=
  ⟨2 ^ 64 - 1, .left, 0, ⟨[119, 111, 114, 109], by decide⟩⟩

theorem clientMessage_codec_firstRequest :
    ClientToServerMessage.decode firstRequest.encode = some firstRequest ∧
      ClientToServerMessage.encode firstRequest =
        [255, 255, 255, 255, 255, 255, 255, 255, 2, 0, 0, 0, 0, 119, 111, 114, 109] := by
  have hdecode := clientMessage_codec.2.2 firstRequest (by decide) (by decide)
  have hencode := clientMessage_codec.2.1
    [255, 255, 255, 255, 255, 255, 255, 255, 2, 0, 0, 0, 0, 119, 111, 114, 109] firstRequest
    (by decide)
  exact ⟨hdecode, hencode⟩

end ScreenWorms
