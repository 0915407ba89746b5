import Mathlib.Order.Bounds.Defs
import ScreenWorms.Client.Games
import ScreenWorms.Common.Decoder
import ScreenWorms.Common.Encoder

/-!
# What the client asks for

The messages that the client sends. `run` waits for the timer, the graphical interface and the
server, and calls one function for each of them. A message to the server asks for the event
`nextWantedEventNo`.

The constructor does not set `nextWantedEventNo`. The first server message does, whatever it says,
since no game has the id -1 and none has been seen. Before that the client asks for whatever the
memory held.

A process that goes on has not got all numbers, or the loop that looks for the next one would not
have ended. So what holds of a client with a number missing holds of the client of every process.

## Main definitions

* `ClientProcess`, `ClientOp`, `processMachine`
* `AsksForMissing` — every message asks for the least number that is not stored

## Main results

* `clientRun_of_run` — the client of a process runs as `clientMachine` does
* `processMachine_asks_iff` — when every message asks for the right event
* `processMessageFromServer_nil` — what a message without events does
-/

namespace ScreenWorms

open Machine Client

/-- Why the process ends or makes no further step. -/
inductive ProcessFault
  /-- Processing a message ends the client. -/
  | client (fault : ClientFault)
  /-- Decoding a datagram fails. An `EncoderDecoderError` makes `readMessageFromServer` exit. -/
  | decode (error : DecodeError)
  /-- `while (events.find(nextWantedEventNo) != events.end())` goes on for ever. -/
  | endless
deriving DecidableEq

/-- `MessageToServer`. The first `size` bytes of `data` are kept. -/
structure MessageToServer where
  data : List Byte
  ready : Bool
deriving DecidableEq

/-- The client and the members that its messages to the server are about. -/
structure ClientProcess where
  client : Client
  messageToServer : MessageToServer
  sessionId : ℕ
  turnDirection : TurnDirection
  playerName : PlayerName
  /-- The static buffer of `readMessageFromServer`. -/
  buf : List Byte
deriving DecidableEq

/-- What `run` reacts to. -/
inductive ClientOp
  /-- The timer has fired. -/
  | timer
  /-- There are lines of the graphical interface to read. -/
  | gui (lines : List (List Byte))
  /-- `recv` yields a datagram of the server. -/
  | receive (datagram : List Byte)
  /-- The server's socket is writable; `sendto` takes the datagram or fails. -/
  | send (taken : Bool)
deriving DecidableEq

namespace ClientProcess

/-- A process as constructed. -/
def new (client : Client) (sessionId : ℕ) (playerName : PlayerName) : ClientProcess where
  client := client
  messageToServer := ⟨[], false⟩
  sessionId := sessionId
  turnDirection := .straight
  playerName := playerName
  buf := List.replicate inboundServerMessageBufferSize 0

/-- `Client::enqueueMessageToServer`. -/
def enqueueMessageToServer (p : ClientProcess) : ClientProcess :=
  { p with messageToServer := { p.messageToServer with ready := true } }

/-- The body of the loop of `Client::readUpdateFromGui`. -/
def turn (turnDirection : TurnDirection) (line : List Byte) : TurnDirection :=
  if line = ascii "LEFT_KEY_DOWN" then .left
  else if line = ascii "RIGHT_KEY_DOWN" then .right
  else if line = ascii "LEFT_KEY_UP" ∧ turnDirection = .left ∨
      line = ascii "RIGHT_KEY_UP" ∧ turnDirection = .right then .straight
  else turnDirection

/-- `Client::readUpdateFromGui`. -/
def readUpdateFromGui (lines : List (List Byte)) (p : ClientProcess) : ClientProcess :=
  { p with turnDirection := lines.foldl turn p.turnDirection }

/-- `Client::readMessageFromServer`, when `recv` yields a datagram. -/
def readMessageFromServer (datagram : List Byte) (p : ClientProcess) :
    Except ProcessFault ClientProcess :=
  let bytes := datagram.take inboundServerMessageBufferSize
  let p := { p with buf := writeBytes p.buf 0 bytes }
  if bytes.length > maxUdpDataFieldSize then .ok p
  else
    match ReceivedMessage.decode p.buf bytes.length with
    | .error e => .error (.decode e)
    | .ok msg =>
      match p.client.processMessageFromServer msg with
      | .error e => .error (.client e)
      | .ok (_, c) =>
        -- every round of the loop has been made, and the last number is stored as well
        if c.nextWantedEventNo ∈ c.events then .error .endless else .ok { p with client := c }

/-- The message that `Client::sendMessageToServer` makes. -/
def message (p : ClientProcess) : ClientToServerMessage :=
  ⟨p.sessionId, p.turnDirection, p.client.nextWantedEventNo, p.playerName⟩

/-- `Client::sendMessageToServer`. -/
def sendMessageToServer (taken : Bool) (p : ClientProcess) : ClientProcess :=
  let p := { p with messageToServer := { p.messageToServer with data := p.message.encode } }
  if taken then { p with messageToServer := { p.messageToServer with ready := false } } else p

/-- One call of `Client::run`. -/
def step : ClientOp → ClientProcess → Except ProcessFault ClientProcess
  | .timer, p => .ok p.enqueueMessageToServer
  | .gui lines, p => .ok (p.readUpdateFromGui lines)
  | .receive datagram, p => p.readMessageFromServer datagram
  | .send taken, p => .ok (if p.messageToServer.ready then p.sendMessageToServer taken else p)

end ClientProcess

/-- A client process, in whatever order things happen to it. -/
def processMachine : Machine ClientProcess ClientOp ProcessFault where
  init p := ∃ unsetWanted unsetToSend unsetPlayers unsetMaxx unsetMaxy sessionId playerName,
    p = .new (.new unsetWanted unsetToSend unsetPlayers unsetMaxx unsetMaxy) sessionId playerName
  step := ClientProcess.step

/-- The message that a step sends. -/
def sent : ClientProcess × ClientOp → Option ClientToServerMessage
  | (p, .send true) => if p.messageToServer.ready then some p.message else none
  | _ => none

/-- A server message has been processed: a datagram that is not too long. -/
def Processed (tr : List (ClientProcess × ClientOp)) : Prop :=
  ∃ p datagram, (p, ClientOp.receive datagram) ∈ tr ∧ datagram.length ≤ maxUdpDataFieldSize

/-- Every message sent in a run asks for the least event number that is not stored, and for 0 before
a server message has been processed. -/
def AsksForMissing (tr : List (ClientProcess × ClientOp)) : Prop :=
  ∀ before x after msg, tr = before ++ x :: after → sent x = some msg →
    IsLeast {no | no ∉ x.1.client.events} msg.nextExpectedEventNo ∧
    (¬Processed before → msg.nextExpectedEventNo = 0)

/-! ## The client's runs -/

variable {p p' : ClientProcess} {tr : List (ClientProcess × ClientOp)}
  {msgs : List (ClientRun × ReceivedMessage)} {r u t : ClientRun} {msg : ReceivedMessage}

/-- Reading a datagram processes its message, if it is not too long. -/
theorem readMessageFromServer_cases {datagram : List Byte}
    (h : p.readMessageFromServer datagram = .ok p') :
    maxUdpDataFieldSize < datagram.length ∧ p'.client = p.client ∨
    datagram.length ≤ maxUdpDataFieldSize ∧ ∃ msg out,
      p.client.processMessageFromServer msg = .ok (out, p'.client) ∧
      p'.client.nextWantedEventNo ∉ p'.client.events := by
  have hlength : maxUdpDataFieldSize < (datagram.take inboundServerMessageBufferSize).length ↔
      maxUdpDataFieldSize < datagram.length := by
    rw [List.length_take, inboundServerMessageBufferSize]
    omega
  rw [ClientProcess.readMessageFromServer] at h
  simp only [gt_iff_lt, hlength] at h
  split at h
  · rename_i hlong
    obtain rfl := Except.ok.inj h
    exact Or.inl ⟨hlong, rfl⟩
  · rename_i hshort
    refine Or.inr ⟨not_lt.mp hshort, ?_⟩
    split at h
    · cases h
    · rename_i msg _
      rcases hprocess : p.client.processMessageFromServer msg with e | ⟨out, c⟩
      · simp only [hprocess] at h
        cases h
      · simp only [hprocess] at h
        split at h
        · cases h
        · rename_i hmissing
          obtain rfl := Except.ok.inj h
          exact ⟨msg, out, hprocess, hmissing⟩

/-- A step processes a server message, or leaves the client alone. -/
theorem processMachine_step_cases {op : ClientOp} (h : processMachine.step op p = .ok p') :
    ¬Processed [(p, op)] ∧ p'.client = p.client ∨
    Processed [(p, op)] ∧ ∃ msg out, p.client.processMessageFromServer msg = .ok (out, p'.client) ∧
      p'.client.nextWantedEventNo ∉ p'.client.events := by
  have hother : (∀ datagram, op ≠ .receive datagram) → ¬Processed [(p, op)] := by
    rintro hne ⟨q, datagram, hmem, -⟩
    exact hne datagram (Prod.mk.inj (List.mem_singleton.mp hmem)).2.symm
  cases op with
  | timer =>
    obtain rfl := Except.ok.inj h
    exact Or.inl ⟨hother (by simp), rfl⟩
  | gui lines =>
    obtain rfl := Except.ok.inj h
    exact Or.inl ⟨hother (by simp), rfl⟩
  | receive datagram =>
    rcases readMessageFromServer_cases h with ⟨hlong, heq⟩ | ⟨hshort, hprocess⟩
    · refine Or.inl ⟨?_, heq⟩
      rintro ⟨q, datagram', hmem, hshort⟩
      obtain ⟨-, hop⟩ := Prod.mk.inj (List.mem_singleton.mp hmem)
      obtain rfl := ClientOp.receive.inj hop
      exact not_le.mpr hlong hshort
    · exact Or.inr ⟨⟨p, datagram, List.mem_singleton_self _, hshort⟩, hprocess⟩
  | send taken =>
    obtain rfl := Except.ok.inj h
    refine Or.inl ⟨hother (by simp), ?_⟩
    cases taken <;> cases p.messageToServer.ready <;> rfl

theorem processed_append {tr₁ tr₂ : List (ClientProcess × ClientOp)} :
    Processed (tr₁ ++ tr₂) ↔ Processed tr₁ ∨ Processed tr₂ := by
  simp only [Processed, List.mem_append, or_and_right, exists_or]

/-! ## The number that is missing -/

/-- The loop over the stored events has ended, so that a number is missing. -/
theorem hasHole_step (h : Recalls msgs u) (hhole : msgs ≠ [] → u.client.HasHole)
    (hstep : clientMachine.step msg u = .ok t)
    (hmissing : t.client.nextWantedEventNo ∉ t.client.events) : t.client.HasHole := by
  obtain ⟨c₁, out, n, m, htook, hpending, rfl⟩ := clientMachine_step_cases hstep
  have hwanted : c₁.nextWantedEventNo < 2 ^ 32 := by
    rcases htook.gameId with hid | ⟨-, hne, hnew⟩
    · obtain ⟨⟨g, hg, -⟩, hsettled⟩ := h.entered htook hid
      obtain ⟨x, hx, -⟩ := (h.seen g).mp hg
      have hopen := hhole (List.ne_nil_of_mem hx)
      have hcoherent := (hsettled hopen).coherent
      obtain ⟨hole, hlt, hmem⟩ := hopen
      rw [(htook.playerNames hid).2]
      exact (hcoherent.le_hole hmem).trans_lt hlt
    · rw [htook.nextWantedEventNo hne hnew]
      decide
  refine ⟨n, ?_, hmissing⟩
  have hn := nextWantedEventNo_of_writePending hpending
  exact hn.trans_lt (skipStored_lt _ _ hwanted)

/-- **The client of a process** runs as `clientMachine` does. It has got messages if the process has
processed some, and then a number is missing. -/
theorem clientRun_of_run (hinit : processMachine.init p) (hrun : processMachine.Run p tr p') :
    ∃ r msgs t, clientMachine.init r ∧ r.client = p.client ∧ clientMachine.Run r msgs t ∧
      t.client = p'.client ∧ (msgs ≠ [] ↔ Processed tr) ∧ (msgs ≠ [] → t.client.HasHole) := by
  induction hrun with
  | nil =>
    obtain ⟨unsetWanted, unsetToSend, unsetPlayers, unsetMaxx, unsetMaxy, -, -, rfl⟩ := hinit
    refine ⟨⟨_, []⟩, [], ⟨_, []⟩, ⟨rfl, unsetWanted, unsetToSend, unsetPlayers, unsetMaxx,
      unsetMaxy, rfl⟩, rfl, .nil, rfl, iff_of_false (not_not.mpr rfl) ?_, fun h => absurd rfl h⟩
    rintro ⟨q, datagram, hmem, -⟩
    exact List.not_mem_nil hmem
  | @snoc tr p₁ p₂ op _ hstep ih =>
    obtain ⟨r, msgs, t, hr, hclient, hrun, ht, hmsgs, hhole⟩ := ih
    rcases processMachine_step_cases hstep with ⟨hnot, heq⟩ | ⟨hone, msg, out, hprocess, hmissing⟩
    · refine ⟨r, msgs, t, hr, hclient, hrun, ht.trans heq.symm, ?_, hhole⟩
      rw [hmsgs, processed_append, or_iff_left hnot]
    · have hstep' : clientMachine.step msg t = .ok ⟨p₂.client,
          if p₂.client.gameId = t.client.gameId then t.lines ++ out else out⟩ := by
        rw [← ht] at hprocess
        simp only [clientMachine, hprocess]
      refine ⟨r, msgs ++ [(t, msg)], _, hr, hclient, hrun.snoc hstep', rfl, ?_, fun _ => ?_⟩
      · exact iff_of_true (by simp) (processed_append.mpr (Or.inr hone))
      · exact hasHole_step (recalls_run hr hrun) hhole hstep' hmissing

/-- The client of a process that goes on, as one of `clientMachine`: some number is missing. -/
theorem clientRun_of_reachable (hp : processMachine.Reachable p) :
    ∃ r tr t, clientMachine.init r ∧ clientMachine.Run r tr t ∧ t.client = p.client ∧
      t.client.HasHole := by
  obtain ⟨p₀, ptr, hinit, hrun⟩ := hp.exists_run
  obtain ⟨r, tr, t, hr, -, hrun, ht, -, hhole⟩ := clientRun_of_run hinit hrun
  refine ⟨r, tr, t, hr, hrun, ht, ?_⟩
  by_cases hnil : tr = []
  · obtain rfl : t = r := hrun.eq_of_nil hnil
    obtain ⟨-, unsetWanted, unsetToSend, unsetPlayers, unsetMaxx, unsetMaxy, hclient⟩ := hr
    rw [hclient]
    exact ⟨0, by decide, SortedMap.not_mem_empty 0⟩
  · exact hhole hnil

/-- Before it has processed a server message, the client stores nothing and wants what the memory
held. -/
theorem client_of_not_processed (hinit : processMachine.init p)
    (hrun : processMachine.Run p tr p') (hnot : ¬Processed tr) :
    p'.client.events = ∅ ∧ p'.client.nextWantedEventNo = p.client.nextWantedEventNo := by
  obtain ⟨r, msgs, t, hr, hclient, hrun, ht, hmsgs, -⟩ := clientRun_of_run hinit hrun
  obtain rfl : msgs = [] := not_not.mp fun hne => hnot (hmsgs.mp hne)
  obtain rfl : t = r := hrun.eq_of_nil rfl
  obtain ⟨-, unsetWanted, unsetToSend, unsetPlayers, unsetMaxx, unsetMaxy, hnew⟩ := hr
  rw [← ht, ← hclient]
  exact ⟨by rw [hnew]; rfl, rfl⟩

/-- **Once it has processed one**, it wants the least number that is missing. -/
theorem isLeast_of_processed (hinit : processMachine.init p) (hrun : processMachine.Run p tr p')
    (hprocessed : Processed tr) :
    IsLeast {no | no ∉ p'.client.events} p'.client.nextWantedEventNo := by
  obtain ⟨r, msgs, t, hr, -, hrun, ht, hmsgs, hhole⟩ := clientRun_of_run hinit hrun
  have hne := hmsgs.mpr hprocessed
  rcases (recalls_run hr hrun).settled with ⟨hnil, -⟩ | ⟨-, hsettled⟩
  · exact absurd hnil hne
  · have hsettled := hsettled (hhole hne)
    rw [← ht]
    exact ⟨hsettled.missing, fun no hno => hsettled.coherent.le_hole hno⟩

/-- The loop only goes on for ever if all numbers are stored. -/
theorem not_hasHole_of_endless (hinit : processMachine.init p)
    (hrun : processMachine.Run p tr p') {out : List (List Byte)} {c : Client}
    (hprocess : p'.client.processMessageFromServer msg = .ok (out, c))
    (hendless : c.nextWantedEventNo ∈ c.events) : ¬c.HasHole := by
  obtain ⟨r, msgs, t, hr, -, hrun, ht, -, -⟩ := clientRun_of_run hinit hrun
  have hstep : clientMachine.step msg t = .ok ⟨c,
      if c.gameId = t.client.gameId then t.lines ++ out else out⟩ := by
    rw [← ht] at hprocess
    simp only [clientMachine, hprocess]
  intro hhole
  rcases ((recalls_run hr hrun).step hstep).settled with ⟨hnil, -⟩ | ⟨-, hsettled⟩
  · exact List.append_ne_nil_of_right_ne_nil _ (List.cons_ne_nil _ _) hnil
  · exact (hsettled hhole).missing hendless

theorem nextExpectedEventNo_of_sent {x : ClientProcess × ClientOp} {msg : ClientToServerMessage}
    (h : sent x = some msg) : msg.nextExpectedEventNo = x.1.client.nextWantedEventNo := by
  unfold sent at h
  split at h
  · split at h
    · rw [← Option.some.inj h]
      rfl
    · cases h
  · cases h

/-- **The client asks for the least number that is missing**, in every message of a run, if and only
if the memory held a 0 or every message is sent after a server message has been processed. -/
theorem processMachine_asks_iff (hinit : processMachine.init p)
    (hrun : processMachine.Run p tr p') :
    AsksForMissing tr ↔ p.client.nextWantedEventNo = 0 ∨
      ∀ before x after msg, tr = before ++ x :: after → sent x = some msg → Processed before := by
  constructor
  · intro hasks
    refine or_iff_not_imp_left.mpr fun hne before x after msg heq hsent => ?_
    by_contra hnot
    have hzero := (hasks before x after msg heq hsent).2 hnot
    rw [nextExpectedEventNo_of_sent hsent,
      (client_of_not_processed hinit (hrun.before heq) hnot).2] at hzero
    exact hne hzero
  · intro hcond before x after msg heq hsent
    have hbefore := hrun.before heq
    rw [nextExpectedEventNo_of_sent hsent]
    by_cases hprocessed : Processed before
    · exact ⟨isLeast_of_processed hinit hbefore hprocessed, fun hnot => absurd hprocessed hnot⟩
    · have hzero : p.client.nextWantedEventNo = 0 :=
        hcond.resolve_right fun hall => hprocessed (hall before x after msg heq hsent)
      obtain ⟨hevents, hwanted⟩ := client_of_not_processed hinit hbefore hprocessed
      rw [hevents, hwanted, hzero]
      exact ⟨⟨SortedMap.not_mem_empty 0, fun no _ => Nat.zero_le no⟩, fun _ => rfl⟩

/-- The memory held a 5. The player's name is `z`. -/
def dirtyProcess : ClientProcess := .new (.new 5 0 0 0 0) 1 ⟨[122], by decide⟩

theorem init_dirtyProcess : processMachine.init dirtyProcess :=
  ⟨5, 0, 0, 0, 0, 1, ⟨[122], by decide⟩, rfl⟩

/-- A datagram of game 7 comes before the timer fires. -/
theorem processMachine_asks_datagram : ∃ tr p', processMachine.Run dirtyProcess tr p' ∧
    (tr.filterMap sent).map ClientToServerMessage.nextExpectedEventNo = [0] ∧
    AsksForMissing tr := by
  let ops : List ClientOp := [.receive [0, 0, 0, 7], .timer, .send true]
  have hok : (processMachine.exec ops dirtyProcess).isOk = true := by decide +kernel
  have hsent : ((processMachine.trace ops dirtyProcess).filterMap sent).map
      ClientToServerMessage.nextExpectedEventNo = [0] := by decide +kernel
  have hhead : (processMachine.trace ops dirtyProcess).head? =
      some (dirtyProcess, .receive [0, 0, 0, 7]) := by decide +kernel
  obtain ⟨p', hexec⟩ := Except.exists_of_isOk hok
  refine ⟨_, p', run_trace hexec, hsent,
    (processMachine_asks_iff init_dirtyProcess (run_trace hexec)).mpr (Or.inr ?_)⟩
  intro before x after msg heq hmsg
  rw [heq] at hhead
  rcases before with - | ⟨y, before⟩
  · obtain rfl := Option.some.inj hhead
    cases hmsg
  · obtain rfl := Option.some.inj hhead
    exact ⟨dirtyProcess, _, List.mem_cons_self, by decide⟩

/-- The timer fires first. -/
theorem not_asks : ¬∀ p tr p', processMachine.init p → processMachine.Run p tr p' →
    AsksForMissing tr := by
  intro hall
  let ready := dirtyProcess.enqueueMessageToServer
  have hrun : processMachine.Run dirtyProcess
      [(dirtyProcess, .timer), (ready, .send true)] (ready.sendMessageToServer true) :=
    .cons rfl (.cons rfl .nil)
  have hzero := (hall _ _ _ init_dirtyProcess hrun [(dirtyProcess, .timer)] (ready, .send true) []
    ready.message rfl rfl).2 fun ⟨_, _, hmem, _⟩ => by simp at hmem
  exact absurd hzero (by decide)

/-! ## Messages without events -/

/-- **A message without events** has no effect on the client of a process if its game has been seen.
If not, the client enters the game. -/
theorem processMessageFromServer_nil (hp : processMachine.Reachable p) (hnone : msg.events = []) :
    p.client.processMessageFromServer msg = .ok ([],
      if (msg.gameId : ℤ) = p.client.gameId ∨ msg.gameId ∈ p.client.seenGameIds then p.client
      else p.client.enter msg.gameId) := by
  obtain ⟨r, tr, t, hr, hrun, ht, hhole⟩ := clientRun_of_reachable hp
  rw [← ht]
  exact (recalls_run hr hrun).events_eq_nil hhole hnone

/-- The log of two players in a datagram. -/
def logDatagram : List Byte :=
  (⟨7, [⟨0, .newGame (.ofNames 16 16 [[97], [98]])⟩, ⟨1, .pixel ⟨0, 1, 2⟩⟩,
    ⟨2, .pixel ⟨1, 3, 4⟩⟩]⟩ : ServerToClientMessage).encode.1

/-- A process has got the log of game 7, and has not seen game 9. -/
theorem processMessageFromServer_nil_fresh : ∃ p : ClientProcess, processMachine.Reachable p ∧
    p.client.gameId = 7 ∧ p.client.events.size = 3 ∧
    p.client.processMessageFromServer ⟨7, []⟩ = .ok ([], p.client) ∧
    p.client.processMessageFromServer ⟨9, []⟩ = .ok ([], p.client.enter 9) := by
  obtain ⟨tr, p, hrun, -, hchecks⟩ := exists_run_of_any (M := processMachine) (s := dirtyProcess)
    (P := fun _ p => decide (p.client.gameId = 7 ∧ p.client.events.size = 3 ∧
      9 ∉ p.client.seenGameIds) = true) [.receive logDatagram] (by decide +kernel)
  obtain ⟨hid, hsize, hnew⟩ := of_decide_eq_true hchecks
  have hp := (Machine.Reachable.init init_dirtyProcess).run hrun
  refine ⟨p, hp, hid, hsize, ?_, ?_⟩
  · exact (processMessageFromServer_nil hp rfl).trans (by rw [hid]; rfl)
  · exact (processMessageFromServer_nil hp rfl).trans (by rw [hid, if_neg (by simp [hnew])])

/-- A client that shows game 7 gets a datagram of four bytes, and forgets what it has stored. -/
theorem enter_without_events : ReceivedMessage.decode (received [0, 0, 0, 9]) 4 = .ok ⟨9, []⟩ ∧
    ∃ t c, clientMachine.exec [⟨7, (twoPlayersLog 7).events⟩] freshClient = .ok t ∧
      t.client.processMessageFromServer ⟨9, []⟩ = .ok ([], c) ∧
      t.client.gameId = 7 ∧ t.client.events.size = 3 ∧ c.gameId = 9 ∧ c.events.size = 0 := by
  have hrun : (match clientMachine.exec [⟨7, (twoPlayersLog 7).events⟩] freshClient with
      | .ok t => match t.client.processMessageFromServer ⟨9, []⟩ with
        | .ok (out, c) => decide (out = [] ∧ t.client.gameId = 7 ∧ t.client.events.size = 3 ∧
            c.gameId = 9 ∧ c.events.size = 0)
        | .error _ => false
      | .error _ => false) = true := by decide +kernel
  refine ⟨by decide +kernel, ?_⟩
  rcases ht : clientMachine.exec [⟨7, (twoPlayersLog 7).events⟩] freshClient with e | t
  · rw [ht] at hrun
    exact absurd hrun Bool.false_ne_true
  · rw [ht] at hrun
    rcases hp : t.client.processMessageFromServer ⟨9, []⟩ with e | ⟨out, c⟩
    · simp only [hp] at hrun
      exact absurd hrun Bool.false_ne_true
    · simp only [hp, decide_eq_true_eq] at hrun
      obtain ⟨rfl, hrest⟩ := hrun
      exact ⟨t, c, rfl, hp, hrest⟩

end ScreenWorms
