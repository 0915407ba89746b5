import ScreenWorms.ForStd.Machine
import ScreenWorms.Server.MQManager
import Mathlib.Data.Finset.Insert

/-!
# The game manager

`GameManager` of `server_src/game.cpp`, without its member `mqManager`: the game only issues calls
on it, and they are collected as data (`MQCall`). A `GameTask` is an operation under way, that is,
the members and the calls made so far.

The `double` arithmetic of the game is a parameter, `Platform D`: nothing is assumed about the
trigonometric functions, the additions or the conversion to `uint16_t`. Resetting the turn timer,
which touches no member, is left out.

## Loops over `players`

`forPlayers` is a range-based loop whose body may erase entries but never adds one. It visits the
keys that were there at the start and skips those erased before it reaches them, as an iterator
would. Stepping on from an entry that the body has erased is undefined behaviour and is the fault
`erasedEntry`.

## Main definitions

* `GameState`, `Player`, `Watcher`, `GameTask`
* `GameTask.forPlayers`
* `GameTask.handleMessage`, `GameTask.dropConnection`, `GameTask.runTurn` — the public operations
* `gameMachine` — any order of the public operations, with the history of calls on the queue
-/

namespace ScreenWorms

/-! ## Data -/

/-- `RNG`: the value the next draw returns. -/
structure RNG where
  v : ℕ
deriving DecidableEq

/-- `RNG::generateNext`. -/
def RNG.generateNext (rng : RNG) : ℕ × RNG := (rng.v, ⟨toUInt32 (rng.v * 279410273 % 4294967291)⟩)

structure Watcher where
  sessionId : ℕ
deriving DecidableEq

/-- `Player`. -/
structure Player (D : Type) where
  fingerprint : Fingerprint
  playerName : PlayerName
  coords : D × D
  sessionId : ℕ
  pixel : ℕ × ℕ
  movementDirection : ℕ
  turnDirection : TurnDirection
  takesPartInCurrentGame : Bool
  isDisconnected : Bool
  isEliminated : Bool
  isReadyToPlay : Bool
deriving DecidableEq

/-- What the source takes from the machine it runs on: its `double`s, and the memory in which a new
`Player` finds the members that nobody initialises. -/
structure Platform (D : Type) where
  /-- `r % max + 0.5`, from the remainder. -/
  centre : ℕ → D
  /-- `std::cos` of a heading in degrees. -/
  cos : ℕ → D
  /-- `std::sin` of a heading in degrees. -/
  sin : ℕ → D
  /-- Addition of two `double`s. -/
  add : D → D → D
  /-- Comparison with `0`. -/
  isNegative : D → Bool
  /-- `static_cast<uint16_t>`. -/
  toUInt16 : D → ℕ
  /-- `coords` of a `Player` before it is set. -/
  unsetCoords : D × D
  /-- `pixel` of a `Player` before it is set. -/
  unsetPixel : ℕ × ℕ
  /-- `movementDirection` of a `Player` before it is set. -/
  unsetDirection : ℕ

/-- The members of `GameManager` but `mqManager`. -/
structure GameState (D : Type) where
  gameId : ℕ
  gameStarted : Bool
  watchers : SortedMap Fingerprint Watcher
  players : SortedMap PlayerName (Player D)
  playerNumberInGame : SortedMap PlayerName ℕ
  eatenPixels : Finset (ℕ × ℕ)
  rng : RNG
  maxx : ℕ
  maxy : ℕ
  turningSpeed : ℕ
  alivePlayers : ℕ
deriving DecidableEq

/-- An operation of the game manager under way. -/
structure GameTask (D : Type) extends GameState D where
  /-- The calls made on `mqManager` so far, in order. -/
  calls : List MQCall
deriving DecidableEq

/-- How the body of a loop ends: on to the next entry, or out of the loop. -/
inductive Flow
  | next
  | exit
deriving DecidableEq

variable {D : Type}

/-! ## Worms -/

/-- A worm is put on the board: its position and its heading are the next three draws. -/
def Player.placed (pf : Platform D) (maxx maxy : ℕ) (rng : RNG) (player : Player D) :
    Player D × RNG :=
  let (r₁, rng) := rng.generateNext
  let (r₂, rng) := rng.generateNext
  let (r₃, rng) := rng.generateNext
  let coords := (pf.centre (r₁ % maxx), pf.centre (r₂ % maxy))
  ({ player with
      takesPartInCurrentGame := true
      isEliminated := false
      coords := coords
      movementDirection := r₃ % 360
      pixel := (pf.toUInt16 coords.1, pf.toUInt16 coords.2) }, rng)

/-- A worm turns as its player asked and moves on by one. -/
def Player.advance (pf : Platform D) (turningSpeed : ℕ) (player : Player D) : Player D :=
  let movementDirection := match player.turnDirection with
    | .straight => player.movementDirection
    | .right => (player.movementDirection + turningSpeed) % 360
    | .left => (player.movementDirection + 360 - turningSpeed) % 360
  { player with
    movementDirection := movementDirection
    coords := (pf.add player.coords.1 (pf.cos movementDirection),
      pf.add player.coords.2 (pf.sin movementDirection)) }

/-- What becomes of a worm that has moved. -/
inductive Verdict
  /-- It left the board or ran into an eaten pixel. -/
  | eliminated
  /-- It is still on the pixel it was on. -/
  | stays
  /-- It eats a new pixel. -/
  | eats (pixel : ℕ × ℕ)
deriving DecidableEq

/-- The checks of `runTurn` on a worm that has moved, in their order. -/
def Player.verdict (pf : Platform D) (maxx maxy : ℕ) (eatenPixels : Finset (ℕ × ℕ))
    (player : Player D) : Verdict :=
  if pf.isNegative player.coords.1 || pf.isNegative player.coords.2 then .eliminated
  else
    let x := pf.toUInt16 player.coords.1
    let y := pf.toUInt16 player.coords.2
    if x = player.pixel.1 ∧ y = player.pixel.2 then .stays
    else if x ≥ maxx ∨ y ≥ maxy ∨ (x, y) ∈ eatenPixels then .eliminated
    else .eats (x, y)

/-! ## Messages and players -/

/-- What a message from a known player changes in its entry. -/
def Player.updated (gameStarted : Bool) (msg : ClientToServerMessage) (p : Player D) : Player D :=
  { p with
    turnDirection := msg.turnDirection
    isReadyToPlay := p.isReadyToPlay || (!gameStarted && msg.turnDirection != .straight) }

/-- The entry of a new player. -/
def Player.joining (pf : Platform D) (gameStarted : Bool) (fingerprint : Fingerprint)
    (msg : ClientToServerMessage) : Player D where
  fingerprint := fingerprint
  playerName := msg.playerName
  coords := pf.unsetCoords
  sessionId := msg.sessionId
  pixel := pf.unsetPixel
  movementDirection := pf.unsetDirection
  turnDirection := msg.turnDirection
  takesPartInCurrentGame := false
  isDisconnected := false
  isEliminated := false
  isReadyToPlay := !gameStarted && msg.turnDirection != .straight

namespace GameTask

/-! ## Building blocks -/

/-- Make a call on `mqManager`. -/
def call (c : MQCall) (g : GameTask D) : GameTask D := { g with calls := g.calls ++ [c] }

/-- Write through a reference to a player. -/
def setPlayer (name : PlayerName) (player : Player D) (g : GameTask D) : GameTask D :=
  { g with players := g.players.adjust name fun _ => player }

/-- `for (auto &p : players) body`. -/
def forPlayers (body : PlayerName → Player D → GameTask D → Except Fault (Flow × GameTask D)) :
    List PlayerName → GameTask D → Except Fault (GameTask D)
  | [], g => .ok g
  | name :: names, g =>
    match g.players.find? name with
    | none => forPlayers body names g
    | some player =>
      match body name player g with
      | .error e => .error e
      | .ok (.exit, g') => .ok g'
      | .ok (.next, g') =>
        if name ∈ g'.players then forPlayers body names g' else .error .erasedEntry

/-! ## Events -/

/-- `GameManager::saveEvent`. -/
def saveEvent (event : GameEventVariant) (g : GameTask D) : GameTask D :=
  g.call (.schedule g.gameId event)

/-- `GameManager::emitNewGameEvent`. -/
def emitNewGameEvent (g : GameTask D) : GameTask D :=
  g.saveEvent (.newGame (.ofNames g.maxx g.maxy (g.players.keys.map Subtype.val)))

/-- `GameManager::emitGameOver`. -/
def emitGameOver (g : GameTask D) : GameTask D := g.saveEvent .gameOver

/-- `playerNumberInGame.find(player.playerName)->second`. -/
def playerNo (player : Player D) (g : GameTask D) : Except Fault ℕ :=
  match g.playerNumberInGame.find? player.playerName with
  | some no => .ok no
  | none => .error .missingNumber

/-- `GameManager::emitPixelEvent`. -/
def emitPixelEvent (player : Player D) (g : GameTask D) : Except Fault (GameTask D) := do
  let no ← g.playerNo player
  return g.saveEvent (.pixel ⟨no, player.pixel.1, player.pixel.2⟩)

/-- `GameManager::emitPlayerEliminatedEvent`. -/
def emitPlayerEliminatedEvent (player : Player D) (g : GameTask D) : Except Fault (GameTask D) := do
  let no ← g.playerNo player
  return g.saveEvent (.playerEliminated ⟨no⟩)

/-! ## End of a game, elimination -/

/-- `GameManager::eraseDisconnectedPlayers`. -/
def eraseDisconnectedPlayers (g : GameTask D) : GameTask D :=
  let g := { g with
    players := g.players.mapValues fun _ (p : Player D) => { p with isReadyToPlay := false } }
  let playersToErase := g.players.entries.filter fun p => p.2.isDisconnected
  playersToErase.foldl
    (fun g p => call (.dropQueue p.2.fingerprint) { g with players := g.players.erase p.1 }) g

/-- `GameManager::endGame`. -/
def endGame (g : GameTask D) : GameTask D :=
  let g := g.emitGameOver
  eraseDisconnectedPlayers { g with gameStarted := false }

/-- `GameManager::eliminatePlayer`, for the player in the entry `name`. -/
def eliminatePlayer (name : PlayerName) (player : Player D) (g : GameTask D) :
    Except Fault (GameTask D) := do
  let player := { player with isEliminated := true }
  let g := { g.setPlayer name player with alivePlayers := toUInt8 (g.alivePlayers + 255) }
  let g ← g.emitPlayerEliminatedEvent player
  if g.alivePlayers < 2 then return g.endGame else return g

/-! ## Disconnecting -/

/-- The first entry of `players` that belongs to a socket. -/
def firstPlayerOf (fingerprint : Fingerprint) (players : SortedMap PlayerName (Player D)) :
    Option (PlayerName × Player D) :=
  players.entries.find? fun p => p.2.fingerprint = fingerprint

/-- The loop of `dropConnection`: it marks the first player of the socket, and stops. -/
def markDisconnected (fingerprint : Fingerprint) (players : SortedMap PlayerName (Player D)) :
    SortedMap PlayerName (Player D) :=
  match firstPlayerOf fingerprint players with
  | none => players
  | some p => players.adjust p.1 fun player => { player with isDisconnected := true }

/-- `GameManager::dropConnection`. -/
def dropConnection (fingerprint : Fingerprint) (g : GameTask D) : GameTask D :=
  let g := g.call (.dropQueue fingerprint)
  if fingerprint ∈ g.watchers then { g with watchers := g.watchers.erase fingerprint }
  else
    let g := { g with players := markDisconnected fingerprint g.players }
    if g.gameStarted then g else g.eraseDisconnectedPlayers

/-! ## Start of a game -/

/-- `GameManager::canStartGame`. -/
def canStartGame (players : SortedMap PlayerName (Player D)) : Bool :=
  let readyPlayers := players.entries.countP fun player => player.2.isReadyToPlay
  readyPlayers > 1 && readyPlayers == players.size

/-- The loop of `startGame` that numbers the players. -/
def numberPlayers (names : List PlayerName) : SortedMap PlayerName ℕ :=
  names.foldl (fun numbers name => numbers.insert name (toUInt8 numbers.size)) ∅

/-- The body of the loop of `startGame` that places the worms. -/
def placePlayer (pf : Platform D) (name : PlayerName) (player : Player D) (g : GameTask D) :
    Except Fault (Flow × GameTask D) := do
  let (player, rng) := player.placed pf g.maxx g.maxy g.rng
  let g : GameTask D := { g.setPlayer name player with rng := rng }
  let g ←
    if player.pixel ∈ g.eatenPixels then g.eliminatePlayer name player
    else emitPixelEvent player { g with eatenPixels := insert player.pixel g.eatenPixels }
  return (if g.gameStarted then .next else .exit, g)

/-- The part of `startGame` before the worms are placed. -/
def prepareGame (g : GameTask D) : GameTask D :=
  let (gameId, rng) := g.rng.generateNext
  emitNewGameEvent { g with
    rng := rng
    gameId := gameId
    gameStarted := true
    alivePlayers := toUInt8 g.players.size
    eatenPixels := ∅
    playerNumberInGame := numberPlayers g.players.keys }

/-- `GameManager::startGame`. -/
def startGame (pf : Platform D) (g : GameTask D) : Except Fault (GameTask D) :=
  forPlayers (placePlayer pf) g.prepareGame.players.keys g.prepareGame

/-! ## Messages -/

/-- `GameManager::handleMessageFromWatcher`. -/
def handleMessageFromWatcher (fingerprint : Fingerprint) (msg : ClientToServerMessage)
    (g : GameTask D) : GameTask D :=
  match g.watchers.find? fingerprint with
  | none =>
    if g.players.entries.any fun p => p.2.fingerprint = fingerprint then g
    else
      call (.addQueue fingerprint msg.nextExpectedEventNo)
        { g with watchers := g.watchers.insert fingerprint ⟨msg.sessionId⟩ }
  | some watcher =>
    if watcher.sessionId = msg.sessionId then
      g.call (.ack fingerprint msg.nextExpectedEventNo)
    else if watcher.sessionId < msg.sessionId then
      let g := g.call (.dropQueue fingerprint)
      let g := g.call (.addQueue fingerprint msg.nextExpectedEventNo)
      { g with watchers := g.watchers.adjust fingerprint fun _ => ⟨msg.sessionId⟩ }
    else g

/-- The last lines of `handleMessageFromPlayer`. -/
def startGameIfReady (pf : Platform D) (g : GameTask D) : Except Fault (GameTask D) :=
  if !g.gameStarted && canStartGame g.players then g.startGame pf else .ok g

/-- The body of the loop of `handleMessageFromPlayer`. -/
def dropIfOlder (fingerprint : Fingerprint) (msg : ClientToServerMessage) (_ : PlayerName)
    (p : Player D) (g : GameTask D) : Except Fault (Flow × GameTask D) :=
  if p.fingerprint = fingerprint ∧ msg.sessionId > p.sessionId then
    .ok (.next, g.dropConnection fingerprint)
  else .ok (.next, g)

/-- `GameManager::handleMessageFromPlayer`. -/
def handleMessageFromPlayer (pf : Platform D) (fingerprint : Fingerprint)
    (msg : ClientToServerMessage) (g : GameTask D) : Except Fault (GameTask D) :=
  match g.players.find? msg.playerName with
  | some p =>
    if p.fingerprint ≠ fingerprint then .ok g
    else
      let g := g.setPlayer msg.playerName (Player.updated g.gameStarted msg p)
      startGameIfReady pf (g.call (.ack fingerprint msg.nextExpectedEventNo))
  | none => do
    let g ← forPlayers (dropIfOlder fingerprint msg) g.players.keys g
    if g.players.size = maxPlayers then return g
    let p := Player.joining pf g.gameStarted fingerprint msg
    let g := { g with players := g.players.insert msg.playerName p }
    startGameIfReady pf (g.call (.addQueue fingerprint msg.nextExpectedEventNo))

/-- `GameManager::handleMessage`. -/
def handleMessage (pf : Platform D) (fingerprint : Fingerprint) (msg : ClientToServerMessage)
    (g : GameTask D) : Except Fault (GameTask D) :=
  if msg.playerNameSize = 0 then .ok (g.handleMessageFromWatcher fingerprint msg)
  else g.handleMessageFromPlayer pf fingerprint msg

/-! ## Turns -/

/-- The body of the loop of `runTurn`. -/
def moveWorm (pf : Platform D) (name : PlayerName) (player : Player D) (g : GameTask D) :
    Except Fault (Flow × GameTask D) := do
  if !g.gameStarted then return (.exit, g)
  if player.isEliminated || !player.takesPartInCurrentGame then return (.next, g)
  let player := player.advance pf g.turningSpeed
  let g := g.setPlayer name player
  match player.verdict pf g.maxx g.maxy g.eatenPixels with
  | .eliminated => return (.next, ← g.eliminatePlayer name player)
  | .stays => return (.next, g)
  | .eats pixel =>
    let player := { player with pixel := pixel }
    let g := { g.setPlayer name player with eatenPixels := insert pixel g.eatenPixels }
    return (.next, ← g.emitPixelEvent player)

/-- `GameManager::runTurn`. -/
def runTurn (pf : Platform D) (g : GameTask D) : Except Fault (GameTask D) :=
  forPlayers (moveWorm pf) g.players.keys g

end GameTask

/-! ## Any order of operations -/

/-- A call from outside on the game manager. -/
inductive GameOp
  | message (fingerprint : Fingerprint) (msg : ClientToServerMessage)
  | drop (fingerprint : Fingerprint)
  | turn

/-- The operation a call from outside runs. -/
def GameOp.run (pf : Platform D) : GameOp → GameTask D → Except Fault (GameTask D)
  | .message fingerprint msg, g => g.handleMessage pf fingerprint msg
  | .drop fingerprint, g => .ok (g.dropConnection fingerprint)
  | .turn, g => g.runTurn pf

/-- The game manager as constructed; `unsetAlive` is what the memory of `alivePlayers` held. -/
def GameState.new (rngSeed turningSpeed maxx maxy unsetAlive : ℕ) : GameState D where
  gameId := 0
  gameStarted := false
  watchers := ∅
  players := ∅
  playerNumberInGame := ∅
  eatenPixels := ∅
  rng := ⟨rngSeed⟩
  maxx := maxx
  maxy := maxy
  turningSpeed := turningSpeed
  alivePlayers := unsetAlive

/-- The game manager on its own: its public operations in any order. `calls` is the whole history of
calls on the queue, which nothing in the program reads. -/
def gameMachine (pf : Platform D) : Machine (GameTask D) GameOp Fault where
  init g := g.calls = [] ∧ ∃ rngSeed turningSpeed maxx maxy unsetAlive,
    g.toGameState = .new rngSeed turningSpeed maxx maxy unsetAlive
  step op g :=
    match op.run pf { g with calls := [] } with
    | .ok g' => .ok { g' with calls := g.calls ++ g'.calls }
    | .error e => .error e

/-- A step is an operation on the members, and its calls go to the history. -/
theorem gameMachine_step_eq_ok {pf : Platform D} {op : GameOp} {g g' : GameTask D} :
    (gameMachine pf).step op g = .ok g' ↔ ∃ g₁, op.run pf { g with calls := [] } = .ok g₁ ∧
      g' = { g₁ with calls := g.calls ++ g₁.calls } := by
  simp only [gameMachine]
  rcases op.run pf { g with calls := [] } with e | g₁
  · simp
  · simp [eq_comm]

end ScreenWorms
