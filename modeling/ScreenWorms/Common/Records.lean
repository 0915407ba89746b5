import ScreenWorms.Common.Encoder

/-!
# The records of a datagram

What the decoder of a server message returns, from the bytes of the datagram alone. The decoder reads
the header of a record before it knows that it is there, so that it may look at what the receive
buffer holds behind the datagram. `recordOutcome_append` says that this has no influence: a record
that starts with fewer than four bytes left is refused whatever its length seems to be, and one that
does not fit is refused whatever the rest of its header is.

## Main definitions

* `Records` — consecutive records, with their events

## Main results

* `recordOutcome_append` — what becomes of a record does not depend on the rest of the buffer
* `decode_records` — a message consists of the records of its datagram, and of nothing else
-/

namespace ScreenWorms

variable {buffer : List Byte} {pos size : ℕ}

/-! ## What lies behind the datagram -/

section Stale

variable {datagram : List Byte} (rest : List Byte)

theorem field32_append (h : pos + 4 ≤ datagram.length) :
    field32 (datagram ++ rest) pos = field32 datagram pos := by
  rw [field32, field32, List.drop_append_of_le_length (by omega),
    List.take_append_of_le_length (by rw [List.length_drop]; omega)]

theorem take_drop_append {n : ℕ} (h : pos + n ≤ datagram.length) :
    ((datagram ++ rest).drop pos).take n = (datagram.drop pos).take n := by
  rw [List.drop_append_of_le_length (by omega),
    List.take_append_of_le_length (by rw [List.length_drop]; omega)]

theorem getD_append_of_lt (h : pos < datagram.length) :
    (datagram ++ rest).getD pos 0 = datagram.getD pos 0 := by
  rw [List.getD_eq_getElem?_getD, List.getD_eq_getElem?_getD, List.getElem?_append_left h]

theorem payloadValid_append {eventType : Byte} (h : pos + size ≤ datagram.length) :
    PayloadValid eventType (datagram ++ rest) pos size ↔
      PayloadValid eventType datagram pos size := by
  rw [PayloadValid, PayloadValid]
  by_cases h0 : eventType = 0
  · simp only [if_pos h0]
    refine and_congr_right fun hsize => ?_
    rw [getD_append_of_lt rest (by omega)]
  · simp only [if_neg h0]

theorem payload_append {eventType : Byte} (hvalid : PayloadValid eventType datagram pos size)
    (h : pos + size ≤ datagram.length) :
    payload eventType (datagram ++ rest) pos size = payload eventType datagram pos size := by
  rw [PayloadValid] at hvalid
  rw [payload, payload]
  by_cases h0 : eventType = 0
  · simp only [if_pos h0] at hvalid ⊢
    rw [field32_append rest (by omega), field32_append rest (by omega),
      take_drop_append rest (by omega)]
  · simp only [if_neg h0] at hvalid ⊢
    by_cases h1 : eventType = 1
    · simp only [if_pos h1] at hvalid ⊢
      rw [field32_append rest (by omega), field32_append rest (by omega),
        getD_append_of_lt rest (by omega)]
    · simp only [if_neg h1] at hvalid ⊢
      by_cases h2 : eventType = 2
      · simp only [if_pos h2] at hvalid ⊢
        rw [getD_append_of_lt rest (by omega)]
      · simp only [if_neg h2]

/-- A length that makes the check wrap around is within the datagram. -/
theorem four_le_of_wraps {len : ℕ} (h : Wraps len size) : 4 ≤ size := by
  have hge := h.1
  have hle := h.2
  omega

/-- **What becomes of a record does not depend on what lies behind the datagram.** -/
theorem recordOutcome_append (h : pos ≤ datagram.length) :
    recordOutcome (datagram ++ rest) pos (datagram.length - pos) =
      recordOutcome datagram pos (datagram.length - pos) := by
  by_cases hlen : pos + 4 ≤ datagram.length
  · have hfield := field32_append rest hlen
    rw [recordOutcome, recordOutcome, hfield]
    by_cases hwraps : Wraps (field32 datagram pos) (datagram.length - pos)
    · rw [if_pos hwraps, if_pos hwraps]
    by_cases hfits : 5 ≤ field32 datagram pos ∧ field32 datagram pos + 8 ≤ datagram.length - pos
    · obtain ⟨hlen, hle⟩ := hfits
      have hinside : pos + 9 + (field32 datagram pos - 5) ≤ datagram.length := by omega
      rw [field32_append rest (by omega), take_drop_append rest (by omega),
        getD_append_of_lt rest (by omega)]
      simp only [payloadValid_append rest hinside]
      split
      · rfl
      split
      · rfl
      split
      · rfl
      split
      · rfl
      · rename_i hvalid
        rw [recordEvent, recordEvent, hfield, field32_append rest (by omega),
          getD_append_of_lt rest (by omega), payload_append rest (not_not.mp hvalid) hinside]
    · rw [if_neg hwraps, if_neg hwraps, if_pos hfits, if_pos hfits]
  · -- whatever the length seems to be, the record does not fit
    have hnot : ∀ len, ¬Wraps len (datagram.length - pos) := by
      intro len hwraps
      have hsize := four_le_of_wraps hwraps
      omega
    rw [recordOutcome, recordOutcome, if_neg (hnot _), if_neg (hnot _), if_pos fun h => by omega,
      if_pos fun h => by omega]

end Stale

/-! ## The records of a datagram -/

/-- A record inside the datagram whose checksum is wrong. -/
structure WrongChecksum (datagram : List Byte) (pos : ℕ) : Prop where
  len_ge : 5 ≤ field32 datagram pos
  fits : pos + field32 datagram pos + 8 ≤ datagram.length
  checksum : field32 datagram (pos + field32 datagram pos + 4) ≠
    (crc32 ((datagram.drop pos).take (field32 datagram pos + 4))).toNat

/-- Consecutive records from `pos` on, each `len + 8` bytes long, inside the datagram and with a
valid checksum; their events; and where the last record ends. -/
inductive Records (datagram : List Byte) : ℕ → List ReceivedEvent → ℕ → Prop
  | nil {pos : ℕ} : Records datagram pos [] pos
  | cons {pos stop : ℕ} {events : List ReceivedEvent} :
    CrcValid datagram pos (datagram.length - pos) →
    Records datagram (pos + (field32 datagram pos + 8)) events stop →
    Records datagram pos (recordEvent datagram pos :: events) stop

/-- The three ways a round of the loop ends other than with an error. -/
theorem recordOutcome_cases (datagram : List Byte) (pos : ℕ) :
    (CrcValid datagram pos (datagram.length - pos) ∧
      recordOutcome datagram pos (datagram.length - pos) =
        .ok (recordEvent datagram pos, field32 datagram pos + 8)) ∨
    (WrongChecksum datagram pos ∧
      recordOutcome datagram pos (datagram.length - pos) = .error .crc32MismatchError) ∨
    ∃ e ≠ .crc32MismatchError, recordOutcome datagram pos (datagram.length - pos) = .error e := by
  rw [recordOutcome]
  split
  · exact Or.inr (Or.inr ⟨_, by decide, rfl⟩)
  split
  · exact Or.inr (Or.inr ⟨_, by decide, rfl⟩)
  rename_i hfits
  obtain ⟨hlen, hle⟩ := not_not.mp hfits
  split
  · rename_i hsum
    exact Or.inr (Or.inl ⟨⟨hlen, by omega, hsum⟩, rfl⟩)
  rename_i hsum
  split
  · exact Or.inr (Or.inr ⟨_, by decide, rfl⟩)
  · exact Or.inl ⟨⟨hlen, hle, not_not.mp hsum⟩, rfl⟩

section Datagram

variable {datagram rest : List Byte} (hsize : datagram.length ≤ maxUdpDataFieldSize)
  (hbuffer : (datagram ++ rest).length = inboundServerMessageBufferSize)

include hsize hbuffer

/-- A round of the loop, from the bytes of the datagram. -/
theorem Event.decode_append (hstart : 4 ≤ pos) (hpos : pos < datagram.length) :
    Event.decode (datagram ++ rest) pos (datagram.length - pos) =
      recordOutcome datagram pos (datagram.length - pos) := by
  rw [Event.decode_eq (by omega) hbuffer hstart, recordOutcome_append rest hpos.le]

/-- **The loop** finds records that follow each other, until the datagram ends or a checksum is
wrong. -/
theorem records_of_decodeEvents : ∀ {fuel pos : ℕ} {events : List ReceivedEvent}, 4 ≤ pos →
    datagram.length - pos ≤ fuel →
    decodeEvents (datagram ++ rest) datagram.length fuel pos = .ok events →
    pos ≤ datagram.length →
    ∃ stop, Records datagram pos events stop ∧ (stop = datagram.length ∨ WrongChecksum datagram stop)
  | 0, pos, events, _, hfuel, h, hle => by
    obtain rfl : [] = events := Except.ok.inj h
    exact ⟨pos, .nil, Or.inl (by omega)⟩
  | fuel + 1, pos, events, hstart, hfuel, h, hle => by
    rw [decodeEvents] at h
    by_cases hpos : datagram.length > pos
    · rw [if_pos hpos, Event.decode_append hsize hbuffer hstart hpos] at h
      rcases recordOutcome_cases datagram pos with ⟨hvalid, heq⟩ | ⟨hwrong, heq⟩ | ⟨e, hne, heq⟩
      · have hfits := hvalid.fits
        rw [heq] at h
        simp only at h
        rcases hrest : decodeEvents (datagram ++ rest) datagram.length fuel
            (pos + (field32 datagram pos + 8)) with e | events'
        · rw [hrest] at h
          exact absurd h (by simp)
        · rw [hrest] at h
          obtain rfl := Except.ok.inj h
          obtain ⟨stop, hrecords, hstop⟩ :=
            records_of_decodeEvents (by omega) (by omega) hrest (by omega)
          exact ⟨stop, .cons hvalid hrecords, hstop⟩
      · rw [heq] at h
        obtain rfl : [] = events := Except.ok.inj h
        exact ⟨pos, .nil, Or.inr hwrong⟩
      · rw [heq] at h
        rcases e with _ | _ | _ | _
        · exact absurd h (by simp)
        · exact absurd rfl hne
        · exact absurd h (by simp)
        · exact absurd h (by simp)
    · rw [if_neg hpos] at h
      obtain rfl : [] = events := Except.ok.inj h
      exact ⟨pos, .nil, Or.inl (by omega)⟩

/-- The loop does not depend on what lies behind the datagram. -/
theorem decodeEvents_append_congr {rest' : List Byte}
    (hbuffer' : (datagram ++ rest').length = inboundServerMessageBufferSize) :
    ∀ {fuel pos : ℕ}, 4 ≤ pos → decodeEvents (datagram ++ rest) datagram.length fuel pos =
      decodeEvents (datagram ++ rest') datagram.length fuel pos
  | 0, _, _ => rfl
  | fuel + 1, pos, hstart => by
    rw [decodeEvents, decodeEvents]
    by_cases hpos : datagram.length > pos
    · rw [if_pos hpos, if_pos hpos, Event.decode_append hsize hbuffer hstart hpos,
        Event.decode_append hsize hbuffer' hstart hpos]
      rcases recordOutcome datagram pos (datagram.length - pos) with e | ⟨event, eventSize⟩
      · rcases e with _ | _ | _ | _ <;> rfl
      · simp only
        rw [decodeEvents_append_congr hbuffer' (by omega)]
    · rw [if_neg hpos, if_neg hpos]

end Datagram

/-- **Decoding a datagram.** What comes of it does not depend on what the receive buffer holds behind
it. If it is a message, then that is the game id and the events of consecutive records, which end
with the datagram or at a record in it with a wrong checksum. -/
theorem decode_records {datagram rest rest' : List Byte}
    (hbuffer : (datagram ++ rest).length = inboundServerMessageBufferSize)
    (hbuffer' : (datagram ++ rest').length = inboundServerMessageBufferSize) :
    ReceivedMessage.decode (datagram ++ rest) datagram.length =
        ReceivedMessage.decode (datagram ++ rest') datagram.length ∧
      ∀ msg, ReceivedMessage.decode (datagram ++ rest) datagram.length = .ok msg →
        msg.gameId = field32 datagram 0 ∧ ∃ stop, Records datagram 4 msg.events stop ∧
          (stop = datagram.length ∨ WrongChecksum datagram stop) := by
  rw [ReceivedMessage.decode, ReceivedMessage.decode]
  by_cases hlength : datagram.length < 4 ∨ datagram.length > maxUdpDataFieldSize
  · rw [if_pos hlength, if_pos hlength]
    exact ⟨rfl, fun _ h => (by cases h)⟩
  obtain ⟨hge, hsize⟩ := not_or.mp hlength
  have hid : ∀ rest : List Byte, readUInt32 (datagram ++ rest) 0 = .ok (field32 datagram 0) := by
    intro rest
    rw [readUInt32_of_le (by rw [List.length_append]; omega), field32_append rest (by omega)]
  rw [if_neg hlength, if_neg hlength, hid, hid,
    decodeEvents_append_congr (not_lt.mp hsize) hbuffer hbuffer' le_rfl]
  refine ⟨rfl, fun msg h => ?_⟩
  simp only [bind, Except.bind] at h
  rcases hloop : decodeEvents (datagram ++ rest') datagram.length datagram.length 4 with e | events
  · rw [hloop] at h
    exact absurd h (by simp)
  · rw [hloop] at h
    obtain rfl := Except.ok.inj h
    exact ⟨rfl, records_of_decodeEvents (not_lt.mp hsize) hbuffer' le_rfl (by omega) hloop
      (by omega)⟩

/-- A message with two events, before zeros and before ones. -/
theorem decode_records_twoGameOvers :
    let datagram := twoGameOvers.encode.1
    ReceivedMessage.decode (datagram ++ List.replicate 530 0) datagram.length =
        ReceivedMessage.decode (datagram ++ List.replicate 530 1) datagram.length ∧
      ∃ stop, Records datagram 4 [⟨0, some .gameOver⟩, ⟨1, some .gameOver⟩] stop ∧
        (stop = datagram.length ∨ WrongChecksum datagram stop) := by
  obtain ⟨heq, hmsg⟩ := @decode_records twoGameOvers.encode.1 (List.replicate 530 0)
    (List.replicate 530 1) (by decide +kernel) (by decide +kernel)
  exact ⟨heq, (hmsg ⟨7, [⟨0, some .gameOver⟩, ⟨1, some .gameOver⟩]⟩ (by decide +kernel)).2⟩

end ScreenWorms
