import ScreenWorms.Common.Messages
import ScreenWorms.ForStd.SortedMap

/-!
# The message queue

`MQManager` of `server_src/game.h`: the log of the game being broadcast, the games waiting behind
it, every client's position in the log and the round-robin schedule.

Operations that can hit undefined behaviour return `Except Fault`. The rotating loop of
`getNextMessage` has no bound in the source; `serve` takes the number of rotations it may make, and
running out of them is the fault `spins`. One rotation more than the schedule is long is enough: it
finds every client that is due (`serve_ok_of_pending`), and more rotations find the same one
(`serve_mono`).

## Main definitions

* `MQManager` and its operations `schedule`, `isEmpty`, `getNextMessage`, `ack`, `dropQueue`,
  `addQueue`
* `MQManager.sendMessage` — a send that succeeds: `getNextMessage`, then `ack` of its number
* `MQCall`, `MQManager.exec` — the calls the game makes on its queue, as data
-/

namespace ScreenWorms

/-- `utils::fingerprint_t`. -/
abbrev Fingerprint := List Byte

/-- Undefined behaviour a server operation may run into. -/
inductive Fault
  /-- `queues.find(fingerprint)->second` where there is no such queue. -/
  | missingQueue
  /-- `clientsToServeSchedule.front()` of an empty deque. -/
  | emptySchedule
  /-- The loop of `getNextMessage` goes round without ever finding a client to serve. -/
  | spins
  /-- A loop over `players` steps on from an entry that its body has erased. -/
  | erasedEntry
  /-- `playerNumberInGame.find(playerName)->second` where the player has no number. -/
  | missingNumber
  /-- `clientAddrs.find(fingerprint)->second` where there is no such address. -/
  | missingAddr
deriving DecidableEq, Repr

/-- `MQManager`. -/
@[ext] structure MQManager where
  nextGames : List (ℕ × List GameEventVariant)
  queues : SortedMap Fingerprint ℕ
  clientsToServeSchedule : List Fingerprint
  currentGameEvents : List Event
  currentlyBroadcastedGameId : ℕ
deriving DecidableEq

/-- `MessageAndRecipient`. -/
structure MessageAndRecipient where
  fingerprint : Fingerprint
  ackNumber : ℕ
  msg : ServerToClientMessage
deriving DecidableEq

/-- Append one event to a log, numbered by its position. -/
def appendNumbered (events : List Event) (event : GameEventVariant) : List Event :=
  events ++ [⟨toUInt32 events.length, event⟩]

/-- The log a waiting game turns into when it becomes the current one. -/
def numbered (scheduled : List GameEventVariant) : List Event := scheduled.foldl appendNumbered []

namespace MQManager

/-- The queue as constructed; `unsetId` is what the memory of the id held before. -/
def new (unsetId : ℕ) : MQManager where
  nextGames := []
  queues := ∅
  clientsToServeSchedule := []
  currentGameEvents := []
  currentlyBroadcastedGameId := unsetId

/-- Add an event to the waiting game `gameId`, which is created when there is none. -/
def addToNextGames (gameId : ℕ) (event : GameEventVariant) :
    List (ℕ × List GameEventVariant) → List (ℕ × List GameEventVariant)
  | [] => [(gameId, [event])]
  | upcomingGame :: rest =>
    if upcomingGame.1 = gameId then (upcomingGame.1, upcomingGame.2 ++ [event]) :: rest
    else upcomingGame :: addToNextGames gameId event rest

/-- `MQManager::schedule`. -/
def schedule (mq : MQManager) (gameId : ℕ) (event : GameEventVariant) : MQManager :=
  if gameId = mq.currentlyBroadcastedGameId then
    { mq with currentGameEvents := appendNumbered mq.currentGameEvents event }
  else
    { mq with nextGames := addToNextGames gameId event mq.nextGames }

/-- `MQManager::hasPendingMessagesForCurrentGame`. -/
def hasPendingMessagesForCurrentGame (mq : MQManager) : Bool :=
  mq.queues.entries.any fun queue => queue.2 < mq.currentGameEvents.length

/-- `MQManager::isEmpty`. -/
def isEmpty (mq : MQManager) : Bool :=
  !mq.hasPendingMessagesForCurrentGame && mq.nextGames.isEmpty

/-- Whether `getNextMessage` starts with making the first waiting game the current one. -/
def switches (mq : MQManager) : Bool :=
  !mq.hasPendingMessagesForCurrentGame && !mq.nextGames.isEmpty

/-- The first part of `getNextMessage`: once everything is sent, go on to the next game. -/
def switchGame (mq : MQManager) : MQManager :=
  if mq.hasPendingMessagesForCurrentGame then mq
  else
    match mq.nextGames with
    | [] => mq
    | game :: rest =>
      { mq with
        nextGames := rest
        queues := mq.queues.mapValues fun _ _ => 0
        currentGameEvents := numbered game.2
        currentlyBroadcastedGameId := game.1 }

/-- The loop of `getNextMessage`, with a bound on the number of rotations. -/
def serve (mq : MQManager) : ℕ → Except Fault (MessageAndRecipient × MQManager)
  | 0 => .error .spins
  | rotations + 1 =>
    match mq.clientsToServeSchedule with
    | [] => .error .emptySchedule
    | fprint :: rest =>
      let mq' : MQManager := { mq with clientsToServeSchedule := rest ++ [fprint] }
      match mq.queues.find? fprint with
      | none => .error .missingQueue
      | some clientNextWanted =>
        if clientNextWanted < mq.currentGameEvents.length then
          let picked := ServerToClientMessage.fromEvents mq.currentlyBroadcastedGameId
            (mq.currentGameEvents.drop clientNextWanted)
          .ok (⟨fprint, toUInt32 (clientNextWanted + picked.1), picked.2⟩, mq')
        else mq'.serve rotations
termination_by structural rotations => rotations

/-- `MQManager::getNextMessage`. -/
def getNextMessage (mq : MQManager) : Except Fault (MessageAndRecipient × MQManager) :=
  mq.switchGame.serve (mq.clientsToServeSchedule.length + 1)

/-- `MQManager::ack`. -/
def ack (mq : MQManager) (fingerprint : Fingerprint) (nextExpectedEventNo : ℕ) :
    Except Fault MQManager :=
  if mq.nextGames.isEmpty then
    if fingerprint ∈ mq.queues then
      .ok { mq with
        queues := mq.queues.set fingerprint
          (min (toUInt32 mq.currentGameEvents.length) nextExpectedEventNo) }
    else .error .missingQueue
  else .ok mq

/-- `MQManager::dropQueue`. -/
def dropQueue (mq : MQManager) (fingerprint : Fingerprint) : MQManager :=
  { mq with
    queues := mq.queues.erase fingerprint
    clientsToServeSchedule := mq.clientsToServeSchedule.erase fingerprint }

/-- `MQManager::addQueue`. -/
def addQueue (mq : MQManager) (fingerprint : Fingerprint) (nextExpectedEventNo : ℕ) : MQManager :=
  if fingerprint ∈ mq.queues then mq
  else
    { mq with
      queues := mq.queues.insert fingerprint
        (min (toUInt32 mq.currentGameEvents.length) nextExpectedEventNo)
      clientsToServeSchedule := mq.clientsToServeSchedule ++ [fingerprint] }

/-- What `Server::sendMessageToClient` does to the queue when `sendto` succeeds. -/
def sendMessage (mq : MQManager) : Except Fault (MessageAndRecipient × MQManager) :=
  match mq.getNextMessage with
  | .error e => .error e
  | .ok (m, mq') =>
    match mq'.ack m.fingerprint m.ackNumber with
    | .error e => .error e
    | .ok mq'' => .ok (m, mq'')

end MQManager

/-! ## Calls as data

The game only ever commands its queue and never reads it, so an operation of the game is modelled by
the list of the calls it makes, and the queue executes them. -/

/-- A call on `mqManager`. -/
inductive MQCall
  | schedule (gameId : ℕ) (event : GameEventVariant)
  | ack (fingerprint : Fingerprint) (nextExpectedEventNo : ℕ)
  | dropQueue (fingerprint : Fingerprint)
  | addQueue (fingerprint : Fingerprint) (nextExpectedEventNo : ℕ)
deriving DecidableEq

namespace MQManager

/-- Execute one call. -/
def exec (mq : MQManager) : MQCall → Except Fault MQManager
  | .schedule gameId event => .ok (mq.schedule gameId event)
  | .ack fingerprint nextExpectedEventNo => mq.ack fingerprint nextExpectedEventNo
  | .dropQueue fingerprint => .ok (mq.dropQueue fingerprint)
  | .addQueue fingerprint nextExpectedEventNo => .ok (mq.addQueue fingerprint nextExpectedEventNo)

/-- Execute calls in order. -/
def execAll (mq : MQManager) : List MQCall → Except Fault MQManager
  | [] => .ok mq
  | call :: calls =>
    match mq.exec call with
    | .error e => .error e
    | .ok mq' => mq'.execAll calls

end MQManager

end ScreenWorms
