import ScreenWorms.Server.Server

/-!
# A platform to run the server on

`fixedPoint` computes with millionths of a pixel instead of `double`s. It names the same pixels as
long as nothing depends on less than that, and makes runs of the server computable.

## Main definitions

* `fixedPoint`
* `serverAfter` — the server after a list of steps

## Main results

* `exists_reachable` — reachable states with a given property, by computation
-/

namespace ScreenWorms

/-- The cosines of the angles from 0 to 90 degrees, in millionths. -/
def cosTable : List ℤ :=
  [1000000, 999848, 999391, 998630, 997564, 996195, 994522, 992546, 990268, 987688, 984808,
    981627, 978148, 974370, 970296, 965926, 961262, 956305, 951057, 945519, 939693, 933580,
    927184, 920505, 913545, 906308, 898794, 891007, 882948, 874620, 866025, 857167, 848048,
    838671, 829038, 819152, 809017, 798636, 788011, 777146, 766044, 754710, 743145, 731354,
    719340, 707107, 694658, 681998, 669131, 656059, 642788, 629320, 615661, 601815, 587785,
    573576, 559193, 544639, 529919, 515038, 500000, 484810, 469472, 453990, 438371, 422618,
    406737, 390731, 374607, 358368, 342020, 325568, 309017, 292372, 275637, 258819, 241922,
    224951, 207912, 190809, 173648, 156434, 139173, 121869, 104528, 87156, 69756, 52336, 34899,
    17452, 0]

/-- The cosine of an angle below 360 degrees, in millionths. -/
def cosMillionths (degrees : ℕ) : ℤ :=
  if degrees ≤ 90 then cosTable.getD degrees 0
  else if degrees ≤ 180 then -cosTable.getD (180 - degrees) 0
  else if degrees ≤ 270 then -cosTable.getD (degrees - 180) 0
  else cosTable.getD (360 - degrees) 0

/-- Positions in millionths of a pixel. -/
def fixedPoint : Platform ℤ where
  centre r := r * 1000000 + 500000
  cos := cosMillionths
  sin degrees := cosMillionths ((degrees + 270) % 360)
  add := (· + ·)
  isNegative x := x < 0
  toUInt16 x := (x / 1000000).toNat % 2 ^ 16
  unsetCoords := (0, 0)
  unsetPixel := (0, 0)
  unsetDirection := 0

/-- The server after a list of steps. -/
def serverAfter (config : ServerConfig) (ops : List Server.Op) : Except Fault (Server ℤ) :=
  (serverMachine fixedPoint).exec ops (.new config 0 0)

/-- A state that a computed run ends in is reachable. -/
theorem exists_reachable {P : Server ℤ → Prop} [DecidablePred P] (config : ServerConfig)
    (ops : List Server.Op)
    (h : ((serverAfter config ops).toOption.any fun s => decide (P s)) = true) :
    ∃ s, (serverMachine fixedPoint).Reachable s ∧ P s := by
  have hinit : (serverMachine fixedPoint).init (.new config 0 0) := ⟨config, 0, 0, rfl⟩
  exact (Machine.Reachable.init hinit).exists_of_exec ops h

/-- A board of 16 by 16 pixels. -/
def smallBoard (rngSeed : ℕ) (h : rngSeed < 2 ^ 32) : ServerConfig where
  rngSeed := rngSeed
  turningSpeed := 6
  boardWidth := 16
  boardHeight := 16
  rngSeed_lt := h
  turningSpeed_mem := by decide
  boardWidth_mem := by decide
  boardHeight_mem := by decide

/-- A message from a client whose name is one printable character. -/
def letter (sessionId : ℕ) (turnDirection : TurnDirection) (c : Byte)
    (h : isValidPlayerName [c] = true := by decide) : ClientToServerMessage where
  sessionId := sessionId
  turnDirection := turnDirection
  nextExpectedEventNo := 0
  playerName := ⟨[c], h⟩

/-- A datagram from the socket `[port]`, from a client whose name is one letter or empty. -/
def Server.Op.said (now : ℤ) (port : Byte) (sessionId : ℕ) (turnDirection : TurnDirection)
    (nextExpectedEventNo : ℕ) (name : List Byte) : Server.Op :=
  .read now [port] [] (toBigEndian 8 sessionId ++ turnDirection.toByte ::
    (toBigEndian 4 nextExpectedEventNo ++ name))

end ScreenWorms
