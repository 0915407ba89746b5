import ScreenWorms.Server.GameState

/-!
# The server

`Server` of `server_src/server.cpp`: the game manager with its queue, the addresses of the clients
and the times they were last heard of. The outside world enters as the labels of a machine: what
`recvfrom` delivers and when, when the turn timer fires, and whether `sendto` succeeds.

The loop `Server::run` polls and then runs up to three of these steps, in a fixed order. Since a
round may consist of one of them alone, the steps in any order reach what the loop reaches. Failures
of `poll` and `recvfrom` change nothing and are left out.

## Main definitions

* `GameManager` — the members of the game together with `mqManager`
* `managerMachine` — the game manager and its queue: operations and sends in any order
* `Server`, `Server.readMessageFromClient`, `Server.sendMessageToClient`,
  `Server.cleanupObsoleteConnections`
* `serverMachine` — the server and everything that can happen to it

## Main results

* `GameManager.perform_eq_ok` — an operation is its effect on the members and the calls it makes
* `server_simulation` — a step of the server is a series of operations and sends
* `server_game` — a run of the server is a run of its game
-/

namespace ScreenWorms

variable {D : Type}

/-! ## The game manager with its queue -/

/-- `GameManager`, with all its members. -/
structure GameManager (D : Type) extends GameState D where
  mqManager : MQManager
deriving DecidableEq

namespace GameManager

/-- Run an operation of the game: change the members, and execute its calls on the queue. -/
def perform (op : GameTask D → Except Fault (GameTask D)) (gm : GameManager D) :
    Except Fault (GameManager D) :=
  match op ⟨gm.toGameState, []⟩ with
  | .error e => .error e
  | .ok g =>
    match gm.mqManager.execAll g.calls with
    | .error e => .error e
    | .ok mq => .ok ⟨g.toGameState, mq⟩

/-- `GameManager::handleMessage`. -/
def handleMessage (pf : Platform D) (fingerprint : Fingerprint) (msg : ClientToServerMessage) :
    GameManager D → Except Fault (GameManager D) :=
  perform (GameTask.handleMessage pf fingerprint msg)

/-- `GameManager::dropConnection`. -/
def dropConnection (fingerprint : Fingerprint) : GameManager D → Except Fault (GameManager D) :=
  perform fun g => .ok (g.dropConnection fingerprint)

/-- `GameManager::runTurn`. -/
def runTurn (pf : Platform D) : GameManager D → Except Fault (GameManager D) :=
  perform (GameTask.runTurn pf)

theorem perform_eq_ok {op : GameTask D → Except Fault (GameTask D)} {gm gm' : GameManager D} :
    gm.perform op = .ok gm' ↔ ∃ g, op ⟨gm.toGameState, []⟩ = .ok g ∧
      gm.mqManager.execAll g.calls = .ok gm'.mqManager ∧ gm'.toGameState = g.toGameState := by
  rw [perform]
  cases hop : op ⟨gm.toGameState, []⟩ with
  | error e => simp
  | ok g =>
    cases hmq : gm.mqManager.execAll g.calls with
    | error e => simp [hmq]
    | ok mq =>
      simp only [hmq, Except.ok.injEq, exists_eq_left']
      constructor
      · rintro rfl
        exact ⟨rfl, rfl⟩
      · rintro ⟨rfl, hg⟩
        rw [← hg]

/-- What `Server::sendMessageToClient` does to the game manager; `delivered` says whether `sendto`
succeeds. -/
def send (delivered : Bool) (gm : GameManager D) : Except Fault (GameManager D) :=
  match gm.mqManager.getNextMessage with
  | .error e => .error e
  | .ok (m, mq) =>
    if delivered then
      match mq.ack m.fingerprint m.ackNumber with
      | .error e => .error e
      | .ok mq => .ok { gm with mqManager := mq }
    else .ok { gm with mqManager := mq }

/-- A send is `getNextMessage`, followed by the acknowledgement of the message if it is
delivered. -/
theorem send_eq_ok {delivered : Bool} {gm gm' : GameManager D}
    (h : gm.send delivered = .ok gm') : ∃ m mq, gm.mqManager.getNextMessage = .ok (m, mq) ∧
      gm'.toGameState = gm.toGameState ∧
      (gm'.mqManager = mq ∨ mq.ack m.fingerprint m.ackNumber = .ok gm'.mqManager) := by
  rw [send] at h
  rcases hnext : gm.mqManager.getNextMessage with e | ⟨m, mq⟩
  · rw [hnext] at h
    exact absurd h (by simp)
  · rw [hnext] at h
    simp only at h
    split at h
    · rcases hack : mq.ack m.fingerprint m.ackNumber with e | mq'
      · rw [hack] at h
        exact absurd h (by simp)
      · rw [hack] at h
        obtain rfl := Except.ok.inj h
        exact ⟨m, mq, rfl, rfl, Or.inr hack⟩
    · obtain rfl := Except.ok.inj h
      exact ⟨m, mq, rfl, rfl, Or.inl rfl⟩

theorem toGameState_send {delivered : Bool} {gm gm' : GameManager D}
    (h : gm.send delivered = .ok gm') : gm'.toGameState = gm.toGameState := by
  obtain ⟨-, -, -, hgame, -⟩ := send_eq_ok h
  exact hgame

end GameManager

/-- What is done with a game manager. -/
inductive ManagerOp
  | op (op : GameOp)
  | send (delivered : Bool)

/-- The game manager and its queue: operations, and sends while the queue is not empty, in any
order. -/
def managerMachine (pf : Platform D) : Machine (GameManager D) ManagerOp Fault where
  init gm := ∃ rngSeed turningSpeed maxx maxy unsetId unsetAlive, gm =
    { GameState.new rngSeed turningSpeed maxx maxy unsetAlive with mqManager := .new unsetId }
  step
    | .op op, gm => gm.perform (op.run pf)
    | .send delivered, gm => if gm.mqManager.isEmpty then .ok gm else gm.send delivered

/-! ## The server -/

/-- A `sockaddr_storage` with its length. -/
abbrev SockAddr := List Byte

/-- The values of `ServerConfig` that reach the game, within the limits its parser enforces. -/
structure ServerConfig where
  rngSeed : ℕ
  turningSpeed : ℕ
  boardWidth : ℕ
  boardHeight : ℕ
  rngSeed_lt : rngSeed < 2 ^ 32
  turningSpeed_mem : 1 ≤ turningSpeed ∧ turningSpeed ≤ 90
  boardWidth_mem : 16 ≤ boardWidth ∧ boardWidth ≤ 4096
  boardHeight_mem : 16 ≤ boardHeight ∧ boardHeight ≤ 4096

/-- `Server`. Time stamps count microseconds. -/
structure Server (D : Type) where
  gameManager : GameManager D
  clientAddrs : SortedMap Fingerprint SockAddr
  lastCommunicationTs : SortedMap Fingerprint ℤ

namespace Server

/-- `INCOMING_MSG_BUFFER_SIZE - 1`, the number of bytes `recvfrom` stores. -/
def incomingMsgSize : ℕ := 99

/-- `CONNECTION_EXPIRATION_TIME_SEC * US_IN_SECOND`. -/
def connectionExpirationTime : ℤ := 2 * 1000000

/-- The server as constructed. The two last arguments are what the memory of members that the
constructors leave alone held before. -/
def new (config : ServerConfig) (unsetId unsetAlive : ℕ) : Server D where
  gameManager := {
    GameState.new config.rngSeed config.turningSpeed config.boardWidth config.boardHeight
      unsetAlive with
    mqManager := .new unsetId }
  clientAddrs := ∅
  lastCommunicationTs := ∅

/-- `Server::readMessageFromClient`, when `recvfrom` returns a datagram. -/
def readMessageFromClient (pf : Platform D) (now : ℤ) (fingerprint : Fingerprint)
    (their_addr : SockAddr) (datagram : List Byte) (s : Server D) : Except Fault (Server D) :=
  let s := { s with
    lastCommunicationTs := s.lastCommunicationTs.set fingerprint now
    clientAddrs := s.clientAddrs.insert fingerprint their_addr }
  match ClientToServerMessage.decode (datagram.take incomingMsgSize) with
  | none => .ok s
  | some m =>
    match s.gameManager.handleMessage pf fingerprint m with
    | .error e => .error e
    | .ok gm => .ok { s with gameManager := gm }

/-- `Server::sendMessageToClient`; `delivered` says whether `sendto` succeeds. -/
def sendMessageToClient (delivered : Bool) (s : Server D) : Except Fault (Server D) :=
  match s.gameManager.mqManager.getNextMessage with
  | .error e => .error e
  | .ok (m, mq) =>
    if m.fingerprint ∈ s.clientAddrs then
      if delivered then
        match mq.ack m.fingerprint m.ackNumber with
        | .error e => .error e
        | .ok mq => .ok { s with gameManager := { s.gameManager with mqManager := mq } }
      else .ok { s with gameManager := { s.gameManager with mqManager := mq } }
    else .error .missingAddr

/-- The keys of a hash map in the order an iteration visits them: the order is up to the map, so it
starts with any list that the outside world likes. -/
def iterationOrder (order : List Fingerprint) (keys : List Fingerprint) : List Fingerprint :=
  (order.dedup.filter fun k => k ∈ keys) ++ keys.filter fun k => k ∉ order

/-- One round of the loop of `cleanupObsoleteConnections`. -/
def dropIfSilent (currentTime : ℤ) (fingerprint : Fingerprint) (s : Server D) :
    Except Fault (Server D) :=
  match s.lastCommunicationTs.find? fingerprint with
  | none => .ok s
  | some lastConnTime =>
    if currentTime - lastConnTime > connectionExpirationTime then
      match s.gameManager.dropConnection fingerprint with
      | .error e => .error e
      | .ok gm => .ok { s with gameManager := gm, clientAddrs := s.clientAddrs.erase fingerprint }
    else .ok s

/-- The loop of `cleanupObsoleteConnections`. -/
def dropSilent (currentTime : ℤ) : List Fingerprint → Server D → Except Fault (Server D)
  | [], s => .ok s
  | fingerprint :: rest, s =>
    match s.dropIfSilent currentTime fingerprint with
    | .error e => .error e
    | .ok s' => dropSilent currentTime rest s'

/-- `Server::cleanupObsoleteConnections`. -/
def cleanupObsoleteConnections (currentTime : ℤ) (order : List Fingerprint) (s : Server D) :
    Except Fault (Server D) :=
  match s.dropSilent currentTime (iterationOrder order s.lastCommunicationTs.keys) with
  | .error e => .error e
  | .ok s' => .ok { s' with
      lastCommunicationTs := s'.lastCommunicationTs.filter fun _ lastConnTime =>
        decide (currentTime - lastConnTime ≤ connectionExpirationTime) }

/-- What the loop of the server does when the turn timer has fired. -/
def tick (pf : Platform D) (now : ℤ) (order : List Fingerprint) (s : Server D) :
    Except Fault (Server D) :=
  match s.cleanupObsoleteConnections now order with
  | .error e => .error e
  | .ok s' =>
    match s'.gameManager.runTurn pf with
    | .error e => .error e
    | .ok gm => .ok { s' with gameManager := gm }

/-- Something the loop of the server reacts to. -/
inductive Op
  | tick (now : ℤ) (order : List Fingerprint)
  | read (now : ℤ) (fingerprint : Fingerprint) (their_addr : SockAddr) (datagram : List Byte)
  | send (delivered : Bool)

/-- The reaction; a message is sent only while the queue is not empty. -/
def step (pf : Platform D) : Op → Server D → Except Fault (Server D)
  | .tick now order, s => s.tick pf now order
  | .read now fingerprint their_addr datagram, s =>
    s.readMessageFromClient pf now fingerprint their_addr datagram
  | .send delivered, s =>
    if s.gameManager.mqManager.isEmpty then .ok s else s.sendMessageToClient delivered

end Server

/-- The server and everything that can happen to it. -/
def serverMachine (pf : Platform D) : Machine (Server D) Server.Op Fault where
  init s := ∃ config unsetId unsetAlive, s = .new config unsetId unsetAlive
  step := Server.step pf

/-! ## What the server does with its game manager -/

namespace Server

variable {pf : Platform D} {s s' : Server D}

/-- A socket was last heard of too long ago. -/
def Silent (currentTime : ℤ) (f : Fingerprint) (s : Server D) : Prop :=
  ∃ lastConnTime, s.lastCommunicationTs.find? f = some lastConnTime ∧
    currentTime - lastConnTime > connectionExpirationTime

theorem dropIfSilent_eq_ok {currentTime : ℤ} {f : Fingerprint}
    (h : s.dropIfSilent currentTime f = .ok s') : (¬s.Silent currentTime f ∧ s' = s) ∨
      s.Silent currentTime f ∧ ∃ gm, s.gameManager.dropConnection f = .ok gm ∧
        s' = { s with gameManager := gm, clientAddrs := s.clientAddrs.erase f } := by
  rw [dropIfSilent] at h
  split at h
  · rename_i hnone
    refine Or.inl ⟨?_, (Except.ok.inj h).symm⟩
    rintro ⟨_, hfind, -⟩
    exact absurd (hnone.symm.trans hfind) (by simp)
  · rename_i lastConnTime hfind
    split at h
    · rename_i hold
      rcases hdrop : s.gameManager.dropConnection f with e | gm
      · rw [hdrop] at h
        exact absurd h (by simp)
      · rw [hdrop] at h
        exact Or.inr ⟨⟨_, hfind, hold⟩, gm, rfl, (Except.ok.inj h).symm⟩
    · rename_i hnew
      refine Or.inl ⟨?_, (Except.ok.inj h).symm⟩
      rintro ⟨_, hfind', hold⟩
      obtain rfl := Option.some.inj (hfind.symm.trans hfind')
      exact hnew hold

/-- One socket, then the others. -/
theorem dropSilent_cons_eq_ok {currentTime : ℤ} {f : Fingerprint} {rest : List Fingerprint}
    (h : s.dropSilent currentTime (f :: rest) = .ok s') :
    (¬s.Silent currentTime f ∧ s.dropSilent currentTime rest = .ok s') ∨
      s.Silent currentTime f ∧ ∃ gm, s.gameManager.dropConnection f = .ok gm ∧
        dropSilent currentTime rest
          { s with gameManager := gm, clientAddrs := s.clientAddrs.erase f } = .ok s' := by
  rw [dropSilent] at h
  rcases hf : s.dropIfSilent currentTime f with e | s₁
  · rw [hf] at h
    exact absurd h (by simp)
  · rw [hf] at h
    rcases dropIfSilent_eq_ok hf with ⟨hheard, rfl⟩ | ⟨hsilent, gm, hdrop, rfl⟩
    · exact Or.inl ⟨hheard, h⟩
    · exact Or.inr ⟨hsilent, gm, hdrop, h⟩

/-- **What dropping one socket preserves, dropping all silent ones does.** -/
theorem dropSilent_induction {P : Server D → Prop} {currentTime : ℤ}
    (hstep : ∀ s f gm, P s → s.gameManager.dropConnection f = .ok gm →
      P { s with gameManager := gm, clientAddrs := s.clientAddrs.erase f }) :
    ∀ {fingerprints : List Fingerprint} {s : Server D}, P s →
      s.dropSilent currentTime fingerprints = .ok s' → P s'
  | [], s, hs, h => by
    obtain rfl : s = s' := Except.ok.inj h
    exact hs
  | f :: rest, s, hs, h => by
    rcases dropSilent_cons_eq_ok h with ⟨-, h⟩ | ⟨-, gm, hdrop, h⟩
    · exact dropSilent_induction hstep hs h
    · exact dropSilent_induction hstep (hstep s f gm hs hdrop) h

theorem dropSilent_exec (pf : Platform D) {currentTime : ℤ} {fingerprints : List Fingerprint}
    (h : s.dropSilent currentTime fingerprints = .ok s') :
    ∃ ops, (managerMachine pf).exec ops s.gameManager = .ok s'.gameManager := by
  refine dropSilent_induction (P := fun t => ∃ ops,
    (managerMachine pf).exec ops s.gameManager = .ok t.gameManager) ?_ ⟨[], rfl⟩ h
  rintro t f gm ⟨ops, hops⟩ hdrop
  have hstep : (managerMachine pf).step (.op (.drop f)) t.gameManager = .ok gm := hdrop
  exact ⟨ops ++ [.op (.drop f)], Machine.exec_append hops hstep⟩

theorem cleanupObsoleteConnections_eq_ok {currentTime : ℤ} {order : List Fingerprint}
    (h : s.cleanupObsoleteConnections currentTime order = .ok s') :
    ∃ s₁, s.dropSilent currentTime (iterationOrder order s.lastCommunicationTs.keys) = .ok s₁ ∧
      s' = { s₁ with
        lastCommunicationTs := s₁.lastCommunicationTs.filter fun _ lastConnTime =>
          decide (currentTime - lastConnTime ≤ connectionExpirationTime) } := by
  rw [cleanupObsoleteConnections] at h
  rcases hdrop : s.dropSilent currentTime (iterationOrder order s.lastCommunicationTs.keys) with
    e | s₁
  · rw [hdrop] at h
    exact absurd h (by simp)
  · rw [hdrop] at h
    exact ⟨s₁, rfl, (Except.ok.inj h).symm⟩

theorem tick_eq_ok {now : ℤ} {order : List Fingerprint} (h : s.tick pf now order = .ok s') :
    ∃ s₁ gm, s.cleanupObsoleteConnections now order = .ok s₁ ∧
      s₁.gameManager.runTurn pf = .ok gm ∧ s' = { s₁ with gameManager := gm } := by
  rw [tick] at h
  rcases hclean : s.cleanupObsoleteConnections now order with e | s₁
  · rw [hclean] at h
    exact absurd h (by simp)
  · simp only [hclean] at h
    rcases hturn : s₁.gameManager.runTurn pf with e | gm
    · rw [hturn] at h
      exact absurd h (by simp)
    · rw [hturn] at h
      exact ⟨s₁, gm, rfl, hturn, (Except.ok.inj h).symm⟩

/-- What a datagram changes before it is decoded. -/
def heard (now : ℤ) (f : Fingerprint) (addr : SockAddr) (s : Server D) : Server D :=
  { s with
    lastCommunicationTs := s.lastCommunicationTs.set f now
    clientAddrs := s.clientAddrs.insert f addr }

theorem readMessageFromClient_eq_ok {now : ℤ} {f : Fingerprint} {addr : SockAddr}
    {datagram : List Byte} (h : s.readMessageFromClient pf now f addr datagram = .ok s') :
    (ClientToServerMessage.decode (datagram.take incomingMsgSize) = none ∧
      s' = s.heard now f addr) ∨
    ∃ m gm, ClientToServerMessage.decode (datagram.take incomingMsgSize) = some m ∧
      s.gameManager.handleMessage pf f m = .ok gm ∧
      s' = { s.heard now f addr with gameManager := gm } := by
  rw [readMessageFromClient] at h
  rcases hdecode : ClientToServerMessage.decode (datagram.take incomingMsgSize) with _ | m
  · rw [hdecode] at h
    exact Or.inl ⟨rfl, (Except.ok.inj h).symm⟩
  · simp only [hdecode] at h
    rcases hmsg : s.gameManager.handleMessage pf f m with e | gm
    · rw [hmsg] at h
      exact absurd h (by simp)
    · rw [hmsg] at h
      exact Or.inr ⟨m, gm, rfl, hmsg, (Except.ok.inj h).symm⟩

theorem sendMessageToClient_eq_ok {delivered : Bool}
    (h : s.sendMessageToClient delivered = .ok s') :
    ∃ gm, s.gameManager.send delivered = .ok gm ∧ s' = { s with gameManager := gm } := by
  rw [sendMessageToClient] at h
  rw [GameManager.send]
  rcases hnext : s.gameManager.mqManager.getNextMessage with e | ⟨m, mq⟩
  · rw [hnext] at h
    exact absurd h (by simp)
  · simp only [hnext] at h ⊢
    split at h
    · rcases delivered with _ | _
      · exact ⟨_, rfl, (Except.ok.inj h).symm⟩
      · rcases hack : mq.ack m.fingerprint m.ackNumber with e | mq'
        · simp only [if_true, hack] at h
          exact absurd h (by simp)
        · simp only [if_true, hack] at h
          exact ⟨_, by rw [if_pos rfl], (Except.ok.inj h).symm⟩
    · exact absurd h (by simp)

end Server

/-- **A step of the server is a series of operations and sends.** -/
theorem server_simulation (pf : Platform D) :
    Machine.Simulation (serverMachine pf) (managerMachine pf) Server.gameManager where
  init s hs := by
    obtain ⟨config, unsetId, unsetAlive, rfl⟩ := hs
    exact ⟨_, _, _, _, unsetId, unsetAlive, rfl⟩
  step s op s' hstep := by
    cases op with
    | tick now order =>
      obtain ⟨s₁, gm, hclean, hturn, rfl⟩ := Server.tick_eq_ok hstep
      obtain ⟨s₂, hdrop, rfl⟩ := Server.cleanupObsoleteConnections_eq_ok hclean
      obtain ⟨ops, hops⟩ := Server.dropSilent_exec pf hdrop
      have hlast : (managerMachine pf).step (.op .turn) s₂.gameManager = .ok gm := hturn
      exact ⟨ops ++ [.op .turn], Machine.exec_append hops hlast⟩
    | read now f addr datagram =>
      rcases Server.readMessageFromClient_eq_ok hstep with ⟨-, rfl⟩ | ⟨m, gm, -, hmsg, rfl⟩
      · exact ⟨[], rfl⟩
      · have hop : (managerMachine pf).step (.op (.message f m)) s.gameManager = .ok gm := hmsg
        exact ⟨[.op (.message f m)], Machine.exec_singleton hop⟩
    | send delivered =>
      simp only [serverMachine, Server.step] at hstep
      split at hstep
      · obtain rfl : s = s' := Except.ok.inj hstep
        exact ⟨[], rfl⟩
      · rename_i hne
        obtain ⟨gm, hsend, rfl⟩ := Server.sendMessageToClient_eq_ok hstep
        refine ⟨[.send delivered], Machine.exec_singleton ?_⟩
        simp only [managerMachine, if_neg hne]
        exact hsend

/-- What holds of every state the game manager can be in holds in the server. -/
theorem reachable_gameManager {pf : Platform D} {s : Server D}
    (hs : (serverMachine pf).Reachable s) : (managerMachine pf).Reachable s.gameManager :=
  (server_simulation pf).reachable hs

/-! ## The game of a server -/

/-- The operations of the game that a step of the server is made of. -/
def Server.gameOps : Server D × Server.Op → List GameOp
  | (s, .tick now order) =>
    ((iterationOrder order s.lastCommunicationTs.keys).filter fun f =>
      (s.lastCommunicationTs.find? f).any fun lastConnTime =>
        now - lastConnTime > connectionExpirationTime).map .drop ++ [.turn]
  | (_, .read _ fingerprint _ datagram) =>
    ((ClientToServerMessage.decode (datagram.take incomingMsgSize)).map
      (.message fingerprint)).toList
  | (_, .send _) => []

/-- The game, without its queue, follows the game manager. -/
theorem GameManager.perform_step (pf : Platform D) (op : GameOp) {gm gm' : GameManager D}
    (h : gm.perform (op.run pf) = .ok gm') (g : GameTask D)
    (hg : g.toGameState = gm.toGameState) :
    ∃ g', (gameMachine pf).step op g = .ok g' ∧ g'.toGameState = gm'.toGameState := by
  obtain ⟨g₁, hrun, -, hgm'⟩ := GameManager.perform_eq_ok.mp h
  exact ⟨_, gameMachine_step_eq_ok.mpr ⟨g₁, by rw [hg, hrun], rfl⟩, hgm'.symm⟩

theorem Server.dropSilent_game (pf : Platform D) {currentTime : ℤ} :
    ∀ {fingerprints : List Fingerprint} {s s' : Server D},
    s.dropSilent currentTime fingerprints = .ok s' → ∀ g : GameTask D,
    g.toGameState = s.gameManager.toGameState →
    ∃ g', (gameMachine pf).exec ((fingerprints.filter fun f =>
        (s.lastCommunicationTs.find? f).any fun lastConnTime =>
          currentTime - lastConnTime > connectionExpirationTime).map .drop) g = .ok g' ∧
      g'.toGameState = s'.gameManager.toGameState
  | [], s, s', h, g, hg => by
    obtain rfl : s = s' := Except.ok.inj h
    exact ⟨g, rfl, hg⟩
  | f :: rest, s, s', h, g, hg => by
    rcases dropSilent_cons_eq_ok h with ⟨hheard, h⟩ | ⟨⟨t, ht, hold⟩, gm, hdrop, h⟩
    · rw [List.filter_cons_of_neg fun hany => ?_]
      · exact dropSilent_game pf h g hg
      · obtain ⟨t, ht, hold⟩ := (Option.any_eq_true _ _).mp hany
        exact hheard ⟨t, ht, of_decide_eq_true hold⟩
    · obtain ⟨g₁, hstep, hg₁⟩ := GameManager.perform_step pf (.drop f) hdrop g hg
      obtain ⟨g', hexec, hg'⟩ := dropSilent_game pf h g₁ hg₁
      rw [List.filter_cons_of_pos (by simp [ht, hold])]
      exact ⟨g', Machine.exec_cons_eq_ok.mpr ⟨g₁, hstep, hexec⟩, hg'⟩

/-- **A run of the server is a run of its game**, with the operations of its steps. -/
theorem server_game (pf : Platform D) {s s' : Server D} {tr : List (Server D × Server.Op)}
    (h : (serverMachine pf).Run s tr s') (g : GameTask D)
    (hg : g.toGameState = s.gameManager.toGameState) :
    ∃ g', (gameMachine pf).exec (tr.flatMap Server.gameOps) g = .ok g' ∧
      g'.toGameState = s'.gameManager.toGameState := by
  refine h.follow (R := fun s (g : GameTask D) => g.toGameState = s.gameManager.toGameState)
    (fun s op s' g hg hstep => ?_) hg
  cases op with
  | tick now order =>
    obtain ⟨s₁, gm, hclean, hturn, rfl⟩ := Server.tick_eq_ok hstep
    obtain ⟨s₂, hdrop, rfl⟩ := Server.cleanupObsoleteConnections_eq_ok hclean
    obtain ⟨g₂, hexec, hg₂⟩ := Server.dropSilent_game pf hdrop g hg
    obtain ⟨g', hlast, hg'⟩ := GameManager.perform_step pf .turn hturn g₂ hg₂
    exact ⟨g', Machine.exec_append hexec hlast, hg'⟩
  | read now f addr datagram =>
    rw [Server.gameOps]
    rcases Server.readMessageFromClient_eq_ok hstep with ⟨hnone, rfl⟩ | ⟨m, gm, hsome, hmsg, rfl⟩
    · rw [hnone]
      exact ⟨g, rfl, hg⟩
    · obtain ⟨g', hop, hg'⟩ := GameManager.perform_step pf (.message f m) hmsg g hg
      rw [hsome]
      exact ⟨g', Machine.exec_singleton hop, hg'⟩
  | send delivered =>
    refine ⟨g, rfl, hg.trans ?_⟩
    simp only [serverMachine, Server.step] at hstep
    split at hstep
    · exact congrArg (fun s => s.gameManager.toGameState) (Except.ok.inj hstep)
    · obtain ⟨gm, hsend, rfl⟩ := Server.sendMessageToClient_eq_ok hstep
      exact (GameManager.toGameState_send hsend).symm

end ScreenWorms
