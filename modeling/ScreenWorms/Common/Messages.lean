import Mathlib.Data.Fin.Basic
import Mathlib.Data.List.Lex
import Mathlib.Algebra.Ring.Nat
import Mathlib.Tactic.Common

/-!
# Messages between client and server

The data of `common/messages.h` and `common/misc.cpp`, the codec of client messages, and the way the
server batches events into one datagram.

Bytes are `Fin 256` and strings are lists of bytes, compared lexicographically as `std::string` is.
Unsigned machine integers are natural numbers; where the source narrows one, the model says so with
`toUInt32` or `toUInt8`.

An event is built in two places. The server pairs a type with its payload (`Event`), and the client
decodes a record whose type byte may be unknown (`ReceivedEvent`). The variant and its type tag are
always set together, so the model keeps only the variant.

## Main definitions

* `PlayerName` — a name `isValidPlayerName` accepts
* `ClientToServerMessage`, `ClientToServerMessage.decode`
* `GameEventVariant`, `Event`, `ReceivedEvent`
* `ServerToClientMessage.fromEvents` — the longest batch that fits a datagram

## Main results

* `pickEvents_isPrefix` — a batch is a prefix of the events offered
* `pickEvents_ne_nil` — it is non-empty as soon as the first event fits a datagram alone
-/

namespace ScreenWorms

/-- `unsigned char`. -/
abbrev Byte := Fin 256

/-- Bytes have numerals. -/
instance neZero_byte : NeZero 256 := ⟨by decide⟩

/-- Conversion to `uint32_t`. -/
def toUInt32 (n : ℕ) : ℕ := n % 2 ^ 32

/-- Conversion to `uint8_t`. -/
def toUInt8 (n : ℕ) : ℕ := n % 2 ^ 8

theorem toUInt32_lt (n : ℕ) : toUInt32 n < 2 ^ 32 := Nat.mod_lt _ (by decide)

theorem toUInt32_of_lt {n : ℕ} (h : n < 2 ^ 32) : toUInt32 n = n := Nat.mod_eq_of_lt h

theorem toUInt8_of_lt {n : ℕ} (h : n < 2 ^ 8) : toUInt8 n = n := Nat.mod_eq_of_lt h

def maxUdpDataFieldSize : ℕ := 550

def maxPlayers : ℕ := 25

def maxPlayerNameLength : ℕ := 20

/-! ## Player names -/

/-- `utils::isValidPlayerName`. A `char` is signed on the platforms the program is built for, so the
lower bound also rejects the bytes from 128 on, which the upper bound rejects here. -/
def isValidPlayerName (s : List Byte) : Bool :=
  s.length ≤ maxPlayerNameLength && s.all fun c => 33 ≤ c.val && c.val ≤ 126

/-- A name that passed `isValidPlayerName`. The empty name is one of them. -/
abbrev PlayerName := {s : List Byte // isValidPlayerName s = true}

theorem PlayerName.length_le (n : PlayerName) : n.val.length ≤ maxPlayerNameLength := by
  have h := n.property
  simp only [isValidPlayerName, Bool.and_eq_true, decide_eq_true_eq] at h
  exact h.1

/-! ## Big-endian numbers -/

/-- The number a big-endian field holds, as `be32toh` and `be64toh` read it. -/
def bigEndian (bs : List Byte) : ℕ := bs.foldl (fun n b => n * 256 + b.val) 0

/-- The lowest `k` bytes of `n`, highest first, as `htobe32` and `htobe64` write them. -/
def toBigEndian : ℕ → ℕ → List Byte
  | 0, _ => []
  | k + 1, n => toBigEndian k (n / 256) ++ [Fin.ofNat 256 n]

/-! ## Client messages -/

inductive TurnDirection
  | straight
  | right
  | left
deriving DecidableEq, Repr

/-- The value an enumerator is sent as. -/
def TurnDirection.toByte : TurnDirection → Byte
  | .straight => 0
  | .right => 1
  | .left => 2

/-- The enumerator of a byte; bytes above `left` are refused by the decoder. -/
def TurnDirection.ofByte (b : Byte) : Option TurnDirection :=
  if b = 0 then some .straight else if b = 1 then some .right else if b = 2 then some .left else none

/-- `ClientToServerMessage`. Both of its constructors are given a valid name. -/
structure ClientToServerMessage where
  sessionId : ℕ
  turnDirection : TurnDirection
  nextExpectedEventNo : ℕ
  playerName : PlayerName
deriving DecidableEq

namespace ClientToServerMessage

def minStructSize : ℕ := 13

def maxStructSize : ℕ := 33

/-- `playerNameSize`. -/
def playerNameSize (msg : ClientToServerMessage) : ℕ := msg.playerName.val.length

/-- The decoding constructor; `none` is a thrown `EncoderDecoderError`. -/
def decode (buffer : List Byte) : Option ClientToServerMessage :=
  if buffer.length < minStructSize ∨ buffer.length > maxStructSize then none
  else
    match TurnDirection.ofByte (buffer.getD 8 0) with
    | none => none
    | some turnDirection =>
      if h : isValidPlayerName (buffer.drop minStructSize) = true then
        some {
          sessionId := bigEndian (buffer.take 8)
          turnDirection := turnDirection
          nextExpectedEventNo := bigEndian ((buffer.drop 9).take 4)
          playerName := ⟨buffer.drop minStructSize, h⟩ }
      else none

/-- `ClientToServerMessage::encode`. -/
def encode (msg : ClientToServerMessage) : List Byte :=
  toBigEndian 8 msg.sessionId ++ msg.turnDirection.toByte ::
    (toBigEndian 4 msg.nextExpectedEventNo ++ msg.playerName.val)

end ClientToServerMessage

/-! ## Events -/

/-- `EventNewGame`; `players` is the part of the array that is in use, so `playersFieldSize` is its
length. -/
structure EventNewGame where
  maxx : ℕ
  maxy : ℕ
  players : List Byte
deriving DecidableEq

/-- `EventNewGame::maxPlayersFieldSize`. -/
def EventNewGame.maxPlayersFieldSize : ℕ := maxPlayers * (maxPlayerNameLength + 1)

/-- The constructor from a list of names: every name is followed by a blank, and then every blank
becomes a zero byte. -/
def EventNewGame.ofNames (maxx maxy : ℕ) (playerNames : List (List Byte)) : EventNewGame where
  maxx := maxx
  maxy := maxy
  players := (playerNames.flatMap fun pname => pname ++ [32]).map fun c => if c = 32 then 0 else c

structure EventPixel where
  playerNumber : ℕ
  x : ℕ
  y : ℕ
deriving DecidableEq

structure EventPlayerEliminated where
  playerNumber : ℕ
deriving DecidableEq

/-- `GameEventVariant`, together with the event type that goes with each alternative. -/
inductive GameEventVariant
  | newGame (e : EventNewGame)
  | pixel (e : EventPixel)
  | playerEliminated (e : EventPlayerEliminated)
  | gameOver
deriving DecidableEq

/-- `getSize` of the four payloads. -/
def GameEventVariant.getSize : GameEventVariant → ℕ
  | .newGame e => 4 + 4 + e.players.length
  | .pixel _ => 4 + 4 + 1
  | .playerEliminated _ => 1
  | .gameOver => 0

/-- An event the server has built. -/
structure Event where
  eventNo : ℕ
  eventData : GameEventVariant
deriving DecidableEq

/-- `Event::getEncodedSize`: the payload, and the fields `len`, `event_no`, `event_type` and
`crc32`. -/
def Event.getEncodedSize (e : Event) : ℕ := e.eventData.getSize + 4 + 4 + 1 + 4

/-- An event the client has decoded; `eventData` is `none` for an unknown event type. -/
structure ReceivedEvent where
  eventNo : ℕ
  eventData : Option GameEventVariant
deriving DecidableEq

/-- What a client that decodes `e` correctly gets. -/
def Event.received (e : Event) : ReceivedEvent := ⟨e.eventNo, some e.eventData⟩

/-! ## Server messages -/

/-- A `ServerToClientMessage` on the server's side. -/
structure ServerToClientMessage where
  gameId : ℕ
  events : List Event
deriving DecidableEq

/-- A `ServerToClientMessage` on the client's side. -/
structure ReceivedMessage where
  gameId : ℕ
  events : List ReceivedEvent
deriving DecidableEq

/-- The loop of `fromEvents`: take events as long as the message fits a datagram. -/
def pickEvents (reservedSize : ℕ) : List Event → List Event
  | [] => []
  | e :: es =>
    if reservedSize + e.getEncodedSize > maxUdpDataFieldSize then []
    else e :: pickEvents (reservedSize + e.getEncodedSize) es

/-- `ServerToClientMessage::fromEvents`: the number of events taken, and the message. -/
def ServerToClientMessage.fromEvents (gameId : ℕ) (events : List Event) :
    ℕ × ServerToClientMessage :=
  let pickedEvents := pickEvents 4 events
  (pickedEvents.length, ⟨gameId, pickedEvents⟩)

theorem pickEvents_isPrefix : ∀ (reservedSize : ℕ) (es : List Event),
    pickEvents reservedSize es <+: es
  | _, [] => List.nil_prefix
  | r, e :: es => by
    rw [pickEvents]
    split
    · exact List.nil_prefix
    · exact List.cons_prefix_cons.mpr ⟨rfl, pickEvents_isPrefix _ es⟩

theorem length_pickEvents_le (reservedSize : ℕ) (es : List Event) :
    (pickEvents reservedSize es).length ≤ es.length :=
  (pickEvents_isPrefix reservedSize es).length_le

/-- A batch takes the events it contains from the front. -/
theorem pickEvents_eq_take (reservedSize : ℕ) (es : List Event) :
    pickEvents reservedSize es = es.take (pickEvents reservedSize es).length :=
  List.prefix_iff_eq_take.mp (pickEvents_isPrefix reservedSize es)

theorem pickEvents_ne_nil {reservedSize : ℕ} {es : List Event} (hne : es ≠ [])
    (hfits : ∀ e ∈ es, reservedSize + e.getEncodedSize ≤ maxUdpDataFieldSize) :
    pickEvents reservedSize es ≠ [] := by
  cases es with
  | nil => exact absurd rfl hne
  | cons e es =>
    have he := hfits e List.mem_cons_self
    rw [pickEvents, if_neg (by omega)]
    exact List.cons_ne_nil _ _

/-- A record takes at least 13 bytes, so a batch is short. -/
theorem length_pickEvents_lt : ∀ {reservedSize : ℕ} (es : List Event),
    reservedSize ≤ maxUdpDataFieldSize →
    reservedSize + 13 * (pickEvents reservedSize es).length ≤ maxUdpDataFieldSize
  | _, [], h => by simpa [pickEvents] using h
  | r, e :: es, h => by
    rw [pickEvents]
    split
    · simpa using h
    · rename_i hfits
      have ih := length_pickEvents_lt es (not_lt.mp hfits)
      have hsize : 13 ≤ e.getEncodedSize := by simp [Event.getEncodedSize]
      rw [List.length_cons]
      omega

end ScreenWorms
