import ScreenWorms.Common.Encoder
import ScreenWorms.ForStd.Crc

/-!
# The checksum

`crc32` goes through its input byte by byte, with a table. It is the CRC-32-IEEE of the input, which
is defined bit by bit, and it notices whatever a burst of up to 32 bits does to a record. The decoder
looks at the checksum before it looks at the type or the payload, so that such a record ends the
datagram.

## Main definitions

* `crc32Ieee` — the checksum bit by bit
* `ChangedIn` — a byte string differs from another one within some consecutive bytes only

## Main results

* `crc32_eq_crc32Ieee` — the table-driven loop computes it
* `crc32_ne_of_changedIn` — it notices bursts
* `changed_decode` — what becomes of a message with a burst in one of its records
-/

namespace ScreenWorms

/-! ## Bit by bit -/

/-- The polynomial of CRC-32-IEEE, reflected. -/
def crc32Polynomial : BitVec 32 := 0xEDB88320

/-- The bits of a byte string, in order. The lowest bit of a byte comes first. -/
def bitsOf (data : List Byte) : List Bool := data.flatMap fun b => (List.range 8).map b.val.testBit

/-- CRC-32-IEEE. -/
def crc32Ieee (data : List Byte) : BitVec 32 :=
  Crc.run crc32Polynomial 0xFFFFFFFF (bitsOf data) ^^^ 0xFFFFFFFF

/-! ## The table -/

/-- The table is computed with 64-bit numbers, of which the upper half stays zero. -/
theorem crcRound_setWidth (c : BitVec 32) :
    crcRound (c.setWidth 64) = (Crc.shift crc32Polynomial c).setWidth 64 := by
  have hlast : c.setWidth 64 &&& 1#64 = (BitVec.ofBool (c.getLsbD 0)).setWidth 64 := by
    rw [BitVec.and_one_eq_setWidth_ofBool_getLsbD, BitVec.getLsbD_setWidth]
    rfl
  have hpolynomial : crcPolynomial = crc32Polynomial.setWidth 64 := rfl
  rw [crcRound, show (1 : BitVec 64) = 1#64 from rfl, hlast, hpolynomial, Crc.shift]
  rcases c.getLsbD 0 with _ | _
  · rw [if_neg (by decide), if_neg Bool.false_ne_true,
      BitVec.setWidth_ushiftRight (by decide)]
  · rw [if_pos (by decide), if_pos rfl, BitVec.setWidth_xor,
      BitVec.setWidth_ushiftRight (by decide)]

/-- **The table** holds eight steps of the division for every byte. -/
theorem crc2Table_eq (b : Byte) :
    crc2Table b = (Crc.shift crc32Polynomial)^[8] (BitVec.ofNat 32 b.val) := by
  have hrounds : Function.Semiconj (BitVec.setWidth 64) (Crc.shift crc32Polynomial) crcRound :=
    fun c => (crcRound_setWidth c).symm
  have hb : BitVec.ofNat 64 b.val = (BitVec.ofNat 32 b.val).setWidth 64 := by
    refine BitVec.eq_of_toNat_eq ?_
    have hlt := b.isLt
    simp only [BitVec.toNat_ofNat, BitVec.toNat_setWidth]
    omega
  rw [crc2Table, hb, ← (hrounds.iterate_right 8).eq, BitVec.setWidth_setWidth_of_le _ (by decide),
    BitVec.setWidth_eq]

/-! ## The loop -/

theorem getLsbD_byte (b : Byte) {i : ℕ} (hi : i < 8) :
    (BitVec.ofNat 32 b.val).getLsbD i = b.val.testBit i := by
  rw [BitVec.getLsbD_ofNat, decide_eq_true (show i < 32 by omega), Bool.true_and]

/-- **One byte.** A round of the loop takes in the eight bits of its byte. -/
theorem crc32Step_eq (c : BitVec 32) (b : Byte) :
    crc32Step c b = Crc.run crc32Polynomial c ((List.range 8).map b.val.testBit) := by
  have hbits : (List.range 8).map b.val.testBit = Crc.lowBits 8 (BitVec.ofNat 32 b.val) :=
    List.map_congr_left fun i hi => (getLsbD_byte b (List.mem_range.mp hi)).symm
  have hbyte : BitVec.ofNat 32 b.val >>> 8 = 0#32 := by
    refine BitVec.eq_of_toNat_eq ?_
    have hlt := b.isLt
    simp only [BitVec.toNat_ushiftRight, BitVec.toNat_ofNat, Nat.shiftRight_eq_div_pow]
    omega
  -- the index is the lowest byte of the state with the new byte
  generalize hindex : (c ^^^ BitVec.ofNat 32 b.val) &&& 0xFF = index
  have hlt : index.toNat < 256 := by
    rw [← hindex, BitVec.toNat_and]
    exact Nat.lt_of_le_of_lt Nat.and_le_right (by decide)
  have hval : BitVec.ofNat 32 (Fin.ofNat 256 index.toNat).val = index := by
    rw [Fin.val_ofNat, Nat.mod_eq_of_lt hlt, BitVec.ofNat_toNat, BitVec.setWidth_eq]
  have hhigh : index >>> 8 = 0#32 := by
    refine BitVec.eq_of_toNat_eq ?_
    simp only [BitVec.toNat_ushiftRight, BitVec.toNat_ofNat, Nat.shiftRight_eq_div_pow]
    omega
  have hlow : ∀ i < 8, index.getLsbD i = (c ^^^ BitVec.ofNat 32 b.val).getLsbD i := by
    have hones : ∀ i < 8, (0xFF : BitVec 32).getLsbD i = true := by decide
    intro i hi
    rw [← hindex, BitVec.getLsbD_and, hones i hi, Bool.and_true]
  rw [crc32Step, hindex, crc2Table_eq, hval, hbits, Crc.run_lowBits _ hbyte,
    Crc.iterate_shift_eq _ hhigh hlow, BitVec.ushiftRight_xor_distrib, hbyte, BitVec.xor_zero,
    BitVec.xor_comm]

/-- **The table-driven loop computes CRC-32-IEEE**, for every byte string. -/
theorem crc32_eq_crc32Ieee (data : List Byte) : crc32 data = crc32Ieee data := by
  have hloop : ∀ (data : List Byte) (c : BitVec 32),
      data.foldl crc32Step c = Crc.run crc32Polynomial c (bitsOf data) := by
    intro data
    induction data with
    | nil => exact fun _ => rfl
    | cons b bs ih =>
      intro c
      rw [List.foldl_cons, crc32Step_eq, ih, ← Crc.run_append]
      rfl
  rw [crc32, crc32Ieee, hloop]

/-- The checksum of `martinez`. -/
example : crc32 [109, 97, 114, 116, 105, 110, 101, 122] = 3850936052 := by decide +kernel

/-! ## Bursts -/

/-- `d'` differs from `d`, but only in the `n` bytes from `pos` on. -/
structure ChangedIn (d d' : List Byte) (pos n : ℕ) : Prop where
  length_eq : d'.length = d.length
  ne : d' ≠ d
  same : ∀ i, i < pos ∨ pos + n ≤ i → d'[i]? = d[i]?

namespace ChangedIn

variable {d d' : List Byte} {pos n : ℕ}

theorem append (h : ChangedIn d d' pos n) (rest : List Byte) :
    ChangedIn (d ++ rest) (d' ++ rest) pos n where
  length_eq := by rw [List.length_append, List.length_append, h.length_eq]
  ne heq := h.ne (List.append_cancel_right heq)
  same i hi := by
    rw [List.getElem?_append, List.getElem?_append, h.length_eq]
    split
    · exact h.same i hi
    · rfl

/-- Outside of the window nothing has changed. -/
theorem take_drop_eq (h : ChangedIn d d' pos n) (start l : ℕ)
    (hout : start + l ≤ pos ∨ pos + n ≤ start) : (d'.drop start).take l = (d.drop start).take l := by
  refine List.ext_getElem? fun i => ?_
  rw [List.getElem?_take, List.getElem?_take]
  split
  · rw [List.getElem?_drop, List.getElem?_drop]
    exact h.same _ (by omega)
  · rfl

/-- Around the window, the change is the same. -/
theorem take_drop (h : ChangedIn d d' pos n) (start l : ℕ) (hstart : start ≤ pos)
    (hend : pos + n ≤ start + l) :
    ChangedIn ((d.drop start).take l) ((d'.drop start).take l) (pos - start) n where
  length_eq := by rw [List.length_take, List.length_take, List.length_drop, List.length_drop,
    h.length_eq]
  ne heq := by
    refine h.ne (List.ext_getElem? fun i => ?_)
    by_cases hi : i < pos ∨ pos + n ≤ i
    · exact h.same i hi
    · have hat := congrArg (·[i - start]?) heq
      simpa [List.getElem?_take, List.getElem?_drop, show i - start < l by omega,
        show start + (i - start) = i by omega] using hat
  same i hi := by
    rw [List.getElem?_take, List.getElem?_take]
    split
    · rw [List.getElem?_drop, List.getElem?_drop]
      exact h.same _ (by omega)
    · rfl

end ChangedIn

theorem length_bitsOf (data : List Byte) : (bitsOf data).length = 8 * data.length := by
  induction data with
  | nil => rfl
  | cons b bs ih =>
    rw [bitsOf, List.flatMap_cons, List.length_append, List.length_map, List.length_range,
      List.length_cons, Nat.mul_succ, ← ih, Nat.add_comm]
    rfl

theorem bitsOf_append (data data' : List Byte) :
    bitsOf (data ++ data') = bitsOf data ++ bitsOf data' := List.flatMap_append

theorem bitsOf_injective : Function.Injective bitsOf := by
  intro data
  induction data with
  | nil =>
    intro data' h
    have hlen := congrArg List.length h
    rw [length_bitsOf, length_bitsOf, List.length_nil] at hlen
    exact (List.length_eq_zero_iff.mp (by omega)).symm
  | cons b bs ih =>
    intro data' h
    rcases data' with _ | ⟨b', bs'⟩
    · have hlen := congrArg List.length h
      rw [length_bitsOf, length_bitsOf, List.length_nil, List.length_cons] at hlen
      omega
    · rw [bitsOf, bitsOf, List.flatMap_cons, List.flatMap_cons] at h
      obtain ⟨hb, hbs⟩ := List.append_inj h (by simp)
      have hval : b.val = b'.val := by
        refine Nat.eq_of_testBit_eq fun i => ?_
        by_cases hi : i < 8
        · exact List.map_inj_left.mp hb i (List.mem_range.mpr hi)
        · have hpow : 2 ^ 8 ≤ 2 ^ i := Nat.pow_le_pow_right (by decide) (not_lt.mp hi)
          rw [Nat.testBit_lt_two_pow (b.isLt.trans_le hpow),
            Nat.testBit_lt_two_pow (b'.isLt.trans_le hpow)]
      rw [Fin.ext hval, ih hbs]

/-- **The checksum notices bursts** of up to four bytes. -/
theorem crc32_ne_of_changedIn {d d' : List Byte} {pos n : ℕ} (h : ChangedIn d d' pos n)
    (hn : n ≤ 4) : crc32 d' ≠ crc32 d := by
  have split : ∀ d : List Byte, d = d.take pos ++ ((d.drop pos).take n ++ d.drop (pos + n)) := by
    intro d
    rw [← List.drop_drop, List.take_append_drop, List.take_append_drop]
  have hbefore : d'.take pos = d.take pos :=
    h.take_drop_eq 0 pos (Or.inl (Nat.zero_add pos).le)
  have hafter : d'.drop (pos + n) = d.drop (pos + n) := by
    refine List.ext_getElem? fun i => ?_
    rw [List.getElem?_drop, List.getElem?_drop]
    exact h.same _ (by omega)
  have hwindow := h.take_drop pos n le_rfl le_rfl
  have hlen : (bitsOf ((d'.drop pos).take n)).length ≤ 32 := by
    have hle := List.length_take_le n (d'.drop pos)
    rw [length_bitsOf]
    omega
  have hlen' : (bitsOf ((d.drop pos).take n)).length = (bitsOf ((d'.drop pos).take n)).length := by
    rw [length_bitsOf, length_bitsOf, hwindow.length_eq]
  rw [crc32_eq_crc32Ieee, crc32_eq_crc32Ieee, crc32Ieee, crc32Ieee, Ne, BitVec.xor_left_inj,
    split d', split d, hbefore, hafter]
  simp only [bitsOf_append]
  exact Crc.run_burst_ne (by decide) hlen hlen' (fun heq => hwindow.ne (bitsOf_injective heq)) _ _ _

/-! ## Bursts in a record -/

/-- Where the checksum of the record after the first `k` ones starts. -/
def checksumStart (m : ServerToClientMessage) (k : ℕ) : ℕ := recordStart m (k + 1) - 4

/-- At most four consecutive bytes within the fields `event_no`, `event_type` and `event_data` of the
record after the first `k` ones, or within its checksum. -/
structure BurstIn (m : ServerToClientMessage) (k pos n : ℕ) : Prop where
  n_le : n ≤ 4
  within : recordStart m k + 4 ≤ pos ∧ pos + n ≤ checksumStart m k ∨
    checksumStart m k ≤ pos ∧ pos + n ≤ recordStart m (k + 1)

theorem recordStart_succ {m : ServerToClientMessage} {k : ℕ} (hk : k < m.events.length) :
    recordStart m (k + 1) = recordStart m k + m.events[k].getEncodedSize := by
  rw [recordStart, recordStart, ServerToClientMessage.encode_eq, ServerToClientMessage.encode_eq]
  show 4 + encodedSize (m.events.take (k + 1)) = 4 + encodedSize (m.events.take k) + _
  rw [List.take_succ_eq_append_getElem hk, encodedSize, encodedSize, List.map_append,
    List.sum_append]
  simp [Nat.add_assoc]

/-- The record after the first `k` ones, in the encoded message. -/
theorem holds_encode {m : ServerToClientMessage} {k : ℕ} (hk : k < m.events.length)
    (rest : List Byte) : Holds (m.encode.1 ++ rest) (recordStart m k) m.events[k].encode := by
  have hsplit : m.events.flatMap Event.encode = (m.events.take k).flatMap Event.encode ++
      (m.events[k].encode ++ (m.events.drop (k + 1)).flatMap Event.encode) := by
    rw [← List.flatMap_cons, ← List.drop_eq_getElem_cons hk, ← List.flatMap_append,
      List.take_append_drop]
  refine ⟨(m.upTo k).encode.1, (m.events.drop (k + 1)).flatMap Event.encode ++ rest, ?_,
    (m.upTo k).length_encode⟩
  rw [ServerToClientMessage.encode_eq, ServerToClientMessage.encode_eq, hsplit]
  simp only [ServerToClientMessage.upTo, List.append_assoc]

theorem bigEndian_injective {bs bs' : List Byte} (hlen : bs.length = bs'.length)
    (h : bigEndian bs = bigEndian bs') : bs = bs' := by
  rw [← toBigEndian_bigEndian bs, ← toBigEndian_bigEndian bs', hlen, h]

/-- **The checksum of a record with a burst is wrong**, and its length has not changed. -/
theorem not_crcValid_of_burst {e : Event} (he : e.Built) (size : ℕ) {buffer buffer' : List Byte}
    {start pos n : ℕ} (hholds : Holds buffer start e.encode)
    (hchanged : ChangedIn buffer buffer' pos n) (hn : n ≤ 4)
    (hwithin : start + 4 ≤ pos ∧ pos + n ≤ start + e.len + 4 ∨
      start + e.len + 4 ≤ pos ∧ pos + n ≤ start + e.len + 8) :
    field32 buffer' start = e.len ∧ ¬CrcValid buffer' start size := by
  have hsize := he.len_eq
  have hbody := he.length_encodeBody
  have hpayload := he.eventData.getSize_le
  have hmax : EventNewGame.maxPlayersFieldSize = 525 := rfl
  have hlen : field32 buffer' start = e.len := by
    rw [field32, hchanged.take_drop_eq _ _ (by omega)]
    exact hholds.left.left.field32 (by omega)
  refine ⟨hlen, fun hvalid => ?_⟩
  have hdata := hholds.left.take_drop
  have hsum := hholds.right
  rw [hbody] at hdata
  rw [List.take_of_length_le hbody.le, hbody, ← Nat.add_assoc] at hsum
  have hchecksum := hvalid.checksum
  rw [hlen] at hchecksum
  rcases hwithin with ⟨hge, hle⟩ | ⟨hge, hle⟩
  · -- the checksum is the old one, and that of the data is another
    have hold : field32 buffer' (start + e.len + 4) = (crc32 e.encodeBody).toNat := by
      rw [field32, hchanged.take_drop_eq _ _ (by omega)]
      exact hsum.field32 (BitVec.isLt _)
    have hnew := crc32_ne_of_changedIn
      (hchanged.take_drop start (e.len + 4) (by omega) (by omega)) hn
    rw [hdata] at hnew
    rw [hold] at hchecksum
    exact hnew (BitVec.eq_of_toNat_eq hchecksum.symm)
  · -- the data are the old ones, and their checksum is another
    rw [hchanged.take_drop_eq start (e.len + 4) (by omega), hdata,
      ← hsum.field32 (BitVec.isLt _)] at hchecksum
    have hwindow := hchanged.take_drop (start + e.len + 4) 4 (by omega) (by omega)
    exact hwindow.ne (bigEndian_injective hwindow.length_eq hchecksum)

/-- **A burst ends the datagram** at the record it is in: the decoder of the record notices it, and
the events before it are kept. -/
theorem changed_decode {m : ServerToClientMessage} (hid : m.gameId < 2 ^ 32)
    (hbuilt : ∀ e ∈ m.events, e.Built) (hsize : m.encode.2 ≤ maxUdpDataFieldSize) {k pos n : ℕ}
    (hk : k < m.events.length) (hburst : BurstIn m k pos n) {datagram rest : List Byte}
    (hchanged : ChangedIn m.encode.1 datagram pos n)
    (hbuffer : (datagram ++ rest).length = inboundServerMessageBufferSize) :
    Event.decode (datagram ++ rest) (recordStart m k) (datagram.length - recordStart m k) =
        .error .crc32MismatchError ∧
      ReceivedMessage.decode (datagram ++ rest) datagram.length =
        .ok ⟨m.gameId, (m.events.take k).map Event.received⟩ := by
  have he : m.events[k].Built := hbuilt _ (List.getElem_mem hk)
  have hlen := he.len_eq
  have hend := recordStart_succ hk
  have hencoded : m.events[k].getEncodedSize = m.events[k].len + 8 := by
    rw [Event.getEncodedSize, hlen]
  have hlength : datagram.length = m.encode.2 := hchanged.length_eq.trans m.length_encode
  have hholds := holds_encode hk rest
  have hfits : recordStart m k + (m.events[k].len + 8) ≤ datagram.length := by
    have hle := (holds_encode hk []).le_length
    rwa [List.append_nil, m.length_encode, Event.length_encode, hencoded, ← hlength] at hle
  have hwithin := hburst.within
  rw [checksumStart, hend, hencoded] at hwithin
  obtain ⟨hfield, hdamaged⟩ := not_crcValid_of_burst he (datagram.length - recordStart m k)
    hholds (hchanged.append rest) hburst.n_le (by omega)
  have hmax : datagram.length ≤ maxUdpDataFieldSize := hlength.trans_le hsize
  have hkept : (datagram ++ rest).take (recordStart m k) = m.encode.1.take (recordStart m k) := by
    have hsame := (hchanged.append rest).take_drop_eq 0 (recordStart m k) (by omega)
    have hinside : recordStart m k ≤ m.encode.1.length := by
      rw [m.length_encode]
      omega
    rwa [List.drop_zero, List.drop_zero, List.take_append_of_le_length hinside] at hsame
  have hand : 5 ≤ field32 (datagram ++ rest) (recordStart m k) ∧
      field32 (datagram ++ rest) (recordStart m k) + 8 ≤ datagram.length - recordStart m k := by
    rw [hfield]
    omega
  constructor
  · rcases Event.decode_damaged (by omega) hbuffer (four_le_recordStart m k) hdamaged with
      ⟨-, -, herror⟩ | ⟨hnot, -⟩
    · exact herror
    · exact absurd hand hnot
  · exact (damaged_decode_iff hid hbuilt ⟨hbuffer, hmax, by omega, hkept, hdamaged⟩).mpr
      (Or.inr hand)

/-- In a message with two events, the number of the second one is damaged. -/
theorem changed_decode_twoGameOvers :
    let datagram := twoGameOvers.encode.1.set 24 7
    let rest := List.replicate 530 0
    Event.decode (datagram ++ rest) (recordStart twoGameOvers 1)
        (datagram.length - recordStart twoGameOvers 1) = .error .crc32MismatchError ∧
      ReceivedMessage.decode (datagram ++ rest) datagram.length =
        .ok ⟨7, (twoGameOvers.events.take 1).map Event.received⟩ := by
  have hchanged : ChangedIn twoGameOvers.encode.1 (twoGameOvers.encode.1.set 24 7) 24 1 := by
    refine ⟨List.length_set, by decide +kernel, fun i hi => ?_⟩
    rw [List.getElem?_set_ne (by omega)]
  exact changed_decode (by decide) built_twoGameOvers (by decide +kernel) (by decide)
    ⟨by decide, by decide +kernel⟩ hchanged (by decide +kernel)

end ScreenWorms
