import ScreenWorms.Client.Gui

/-!
# The whole client

The client with its server and with its graphical interface. `ClientProcess` models the one side of
it and `GuiConnection` the other; here a server message makes the lines that are written to the
interface, and the commands read from the interface turn the worm. What the client has shown so far
is kept, each line with the game it is about.

## Main definitions

* `ClientNode`, `NodeOp`, `nodeMachine`
* `ClientNode.linesOf` — what has been shown of a game

## Main results

* `readMessageFromServer_eq_ok` — what a datagram does
* `node_gui` — the connection to the interface runs as it does alone
* `nodeMachine_turned` — the direction of a client
* `nodeMachine_output` — the bytes written are those of the lines shown
-/

namespace ScreenWorms

open Machine Client

/-! ## Messages and lines -/

namespace ClientProcess

/-- The message that `readMessageFromServer` makes of a datagram, if it makes one. -/
def decoded (datagram : List Byte) (p : ClientProcess) : Option ReceivedMessage :=
  let bytes := datagram.take inboundServerMessageBufferSize
  if bytes.length > maxUdpDataFieldSize then none
  else (ReceivedMessage.decode (writeBytes p.buf 0 bytes) bytes.length).toOption

/-- The lines that `readMessageFromServer` passes to `guiSock.writeData`. -/
def output (datagram : List Byte) (p : ClientProcess) : List (List Byte) :=
  match p.decoded datagram with
  | none => []
  | some msg =>
    match p.client.processMessageFromServer msg with
    | .error _ => []
    | .ok (lines, _) => lines

end ClientProcess

/-! ## The client -/

/-- A client process and its connection to the graphical interface. -/
structure ClientNode where
  process : ClientProcess
  gui : GuiConnection
  /-- The lines it has shown, each with the game it was in. -/
  shown : List (ℤ × List Byte)
deriving DecidableEq

/-- What `run` reacts to. -/
inductive NodeOp
  /-- The timer has fired. -/
  | timer
  /-- `readUpdateFromGui`, given the result of `read` if it is called. -/
  | readUpdateFromGui (result : ReadResult)
  /-- `flushOutgoing`, given the result of `write` if it is called. -/
  | flushOutgoing (result : WriteResult)
  /-- `recv` yields a datagram of the server. -/
  | receive (datagram : List Byte)
  /-- The server's socket is writable; `sendto` takes the datagram or fails. -/
  | send (taken : Bool)
deriving DecidableEq

/-- Why a client ends. -/
inductive NodeFault
  | process (fault : ProcessFault)
  | socket (fault : SocketFault)
deriving DecidableEq

/-- Call `writeData` for each line. -/
def GuiConnection.writeLines (lines : List (List Byte)) (g : GuiConnection) : GuiConnection :=
  lines.foldl (fun g line =>
    { g with guiSock := g.guiSock.writeData line, queued := g.queued ++ line }) g

namespace ClientNode

/-- A client that is constructed. -/
def new (process : ClientProcess) : ClientNode := ⟨process, .new, []⟩

/-- One call of `Client::run`. -/
def step : NodeOp → ClientNode → Except NodeFault ClientNode
  | .timer, n => .ok { n with process := n.process.enqueueMessageToServer }
  | .send taken, n => .ok { n with
      process := if n.process.messageToServer.ready then n.process.sendMessageToServer taken
        else n.process }
  | .flushOutgoing result, n =>
    match guiMachine.step (.flushOutgoing result) n.gui with
    | .error e => .error (.socket e)
    | .ok gui => .ok { n with gui := gui }
  | .readUpdateFromGui result, n =>
    match guiMachine.step (.readUpdateFromGui result) n.gui with
    | .error e => .error (.socket e)
    | .ok gui => .ok { n with
        gui := gui
        process := { n.process with turnDirection := gui.turnDirection } }
  | .receive datagram, n =>
    match n.process.readMessageFromServer datagram with
    | .error e => .error (.process e)
    | .ok p =>
      let lines := n.process.output datagram
      .ok {
        process := p
        gui := n.gui.writeLines lines
        shown := n.shown ++ lines.map (Prod.mk p.client.gameId) }

/-- What has been shown of a game. -/
def linesOf (gameId : ℤ) (n : ClientNode) : List (List Byte) :=
  (n.shown.filter fun x => x.1 = gameId).map Prod.snd

/-- The client with what it has shown of its current game. -/
def current (n : ClientNode) : ClientRun := ⟨n.process.client, n.linesOf n.process.client.gameId⟩

end ClientNode

/-- A client, in whatever order things happen to it. -/
def nodeMachine : Machine ClientNode NodeOp NodeFault where
  init n := ∃ p, processMachine.init p ∧ n = .new p
  step := ClientNode.step

/-! ## Both sides of a client -/

variable {n n' : ClientNode} {op : NodeOp} {datagram : List Byte} {msg : ReceivedMessage}

theorem step_flushOutgoing_eq_ok {result : WriteResult} :
    nodeMachine.step (.flushOutgoing result) n = .ok n' ↔
      ∃ gui, guiMachine.step (.flushOutgoing result) n.gui = .ok gui ∧
        { n with gui := gui } = n' := by
  show ClientNode.step (.flushOutgoing result) n = .ok n' ↔ _
  rw [ClientNode.step]
  cases guiMachine.step (.flushOutgoing result) n.gui <;> simp

theorem step_readUpdateFromGui_eq_ok {result : ReadResult} :
    nodeMachine.step (.readUpdateFromGui result) n = .ok n' ↔
      ∃ gui, guiMachine.step (.readUpdateFromGui result) n.gui = .ok gui ∧
        { n with
          gui := gui
          process := { n.process with turnDirection := gui.turnDirection } } = n' := by
  show ClientNode.step (.readUpdateFromGui result) n = .ok n' ↔ _
  rw [ClientNode.step]
  cases guiMachine.step (.readUpdateFromGui result) n.gui <;> simp

theorem step_receive_eq_ok : nodeMachine.step (.receive datagram) n = .ok n' ↔
    ∃ p, n.process.readMessageFromServer datagram = .ok p ∧
      { process := p
        gui := n.gui.writeLines (n.process.output datagram)
        shown := n.shown ++ (n.process.output datagram).map (Prod.mk p.client.gameId) } = n' := by
  show ClientNode.step (.receive datagram) n = .ok n' ↔ _
  rw [ClientNode.step]
  cases n.process.readMessageFromServer datagram <;> simp

/-- Writing lines is one call of `writeData` after another. -/
theorem exec_writeLines : ∀ (lines : List (List Byte)) (g : GuiConnection),
    guiMachine.exec (lines.map .writeData) g = .ok (g.writeLines lines)
  | [], _ => rfl
  | line :: lines, g =>
    exec_cons_eq_ok.mpr ⟨{ g with
      guiSock := g.guiSock.writeData line
      queued := g.queued ++ line }, rfl, exec_writeLines lines _⟩

/-- **The connection to the graphical interface** runs as it does alone. -/
theorem node_gui : Simulation nodeMachine guiMachine ClientNode.gui where
  init n hn := by
    obtain ⟨p, -, rfl⟩ := hn
    rfl
  step n op n' hstep := by
    cases op with
    | timer =>
      obtain rfl := Except.ok.inj hstep
      exact ⟨[], rfl⟩
    | send taken =>
      obtain rfl := Except.ok.inj hstep
      exact ⟨[], rfl⟩
    | readUpdateFromGui result =>
      obtain ⟨gui, hgui, rfl⟩ := step_readUpdateFromGui_eq_ok.mp hstep
      exact ⟨_, exec_singleton hgui⟩
    | flushOutgoing result =>
      obtain ⟨gui, hgui, rfl⟩ := step_flushOutgoing_eq_ok.mp hstep
      exact ⟨_, exec_singleton hgui⟩
    | receive datagram =>
      obtain ⟨p, -, rfl⟩ := step_receive_eq_ok.mp hstep
      exact ⟨_, exec_writeLines _ _⟩

/-- What a call that is not about a datagram leaves alone. -/
theorem step_frame (hop : ∀ datagram, op ≠ .receive datagram)
    (hstep : nodeMachine.step op n = .ok n') :
    n'.process.client = n.process.client ∧ n'.process.buf = n.process.buf ∧
      n'.process.sessionId = n.process.sessionId ∧
      n'.process.playerName = n.process.playerName ∧ n'.shown = n.shown := by
  cases op with
  | timer =>
    obtain rfl := Except.ok.inj hstep
    exact ⟨rfl, rfl, rfl, rfl, rfl⟩
  | send taken =>
    obtain rfl := Except.ok.inj hstep
    cases hready : n.process.messageToServer.ready <;> cases taken <;>
      simp [ClientProcess.sendMessageToServer]
  | readUpdateFromGui result =>
    obtain ⟨_, -, rfl⟩ := step_readUpdateFromGui_eq_ok.mp hstep
    exact ⟨rfl, rfl, rfl, rfl, rfl⟩
  | flushOutgoing result =>
    obtain ⟨_, -, rfl⟩ := step_flushOutgoing_eq_ok.mp hstep
    exact ⟨rfl, rfl, rfl, rfl, rfl⟩
  | receive datagram => exact absurd rfl (hop datagram)

/-- What a datagram does: the message in it is processed, if there is one, and its lines are written
to the interface. -/
theorem readMessageFromServer_eq_ok {p p' : ClientProcess}
    (h : p.readMessageFromServer datagram = .ok p') :
    p.decoded datagram = none ∧ p.output datagram = [] ∧ p'.client = p.client ∨
    ∃ msg, p.decoded datagram = some msg ∧
      p.client.processMessageFromServer msg = .ok (p.output datagram, p'.client) := by
  rw [ClientProcess.readMessageFromServer] at h
  simp only at h
  split at h
  · rename_i hlong
    obtain rfl := Except.ok.inj h
    have hnone : p.decoded datagram = none := if_pos hlong
    exact Or.inl ⟨hnone, by rw [ClientProcess.output, hnone], rfl⟩
  · rename_i hshort
    rcases hdecode : ReceivedMessage.decode
      (writeBytes p.buf 0 (datagram.take inboundServerMessageBufferSize))
      (datagram.take inboundServerMessageBufferSize).length with e | msg
    · rw [hdecode] at h
      cases h
    · rw [hdecode] at h
      have hsome : p.decoded datagram = some msg := by
        rw [ClientProcess.decoded, if_neg hshort, hdecode]
        rfl
      rcases hprocess : p.client.processMessageFromServer msg with e | ⟨out, c⟩
      · simp only [hprocess] at h
        cases h
      · simp only [hprocess] at h
        split at h
        · cases h
        · obtain rfl := Except.ok.inj h
          refine Or.inr ⟨msg, hsome, ?_⟩
          rw [ClientProcess.output, hsome]
          simp only [hprocess]

/-! ## Keys -/

/-- The direction of the connection is the one that its lines lead to. -/
theorem guiMachine_turned : guiMachine.Invariant fun g =>
    g.turnDirection = g.lines.foldl ClientProcess.turn .straight where
  init g hg := by
    rw [show g = .new from hg]
    rfl
  step g op g' _ h hstep := by
    cases op with
    | writeData data =>
      cases hstep
      exact h
    | flushOutgoing result =>
      rcases flushOutgoing_cases result g with ⟨heq, -⟩ | ⟨written, left, -, heq⟩
      · cases heq.symm.trans hstep
      · cases heq.symm.trans hstep
        exact h
    | readUpdateFromGui result =>
      refine readUpdateFromGui_induction
        (P := fun g => g.turnDirection = g.lines.foldl ClientProcess.turn .straight)
        (fun _ _ h _ => h) (fun g line guiSock h _ => ?_) _ g h hstep
      show ClientProcess.turn g.turnDirection line = _
      rw [h, List.foldl_append]
      rfl

/-- What a datagram leaves alone. -/
theorem readMessageFromServer_frame {p p' : ClientProcess}
    (h : p.readMessageFromServer datagram = .ok p') :
    p'.turnDirection = p.turnDirection ∧ p'.messageToServer = p.messageToServer := by
  rw [ClientProcess.readMessageFromServer] at h
  simp only at h
  split at h
  · rw [← Except.ok.inj h]
    exact ⟨rfl, rfl⟩
  · split at h
    · cases h
    · split at h
      · cases h
      · split at h
        · cases h
        · rw [← Except.ok.inj h]
          exact ⟨rfl, rfl⟩

theorem turnDirection_writeLines : ∀ (lines : List (List Byte)) (g : GuiConnection),
    (g.writeLines lines).turnDirection = g.turnDirection
  | [], _ => rfl
  | line :: lines, g => turnDirection_writeLines lines
    { g with guiSock := g.guiSock.writeData line, queued := g.queued ++ line }

/-- **The direction of a client** is the one that its keys lead to. -/
theorem nodeMachine_turned {n : ClientNode} (hn : nodeMachine.Reachable n) :
    n.process.turnDirection = n.gui.lines.foldl ClientProcess.turn .straight := by
  have hsame : nodeMachine.Invariant fun n => n.process.turnDirection = n.gui.turnDirection := by
    refine ⟨fun n hn => ?_, fun n op n' _ h hstep => ?_⟩
    · obtain ⟨p, ⟨_, _, _, _, _, _, _, rfl⟩, rfl⟩ := hn
      rfl
    · cases op with
      | timer =>
        obtain rfl := Except.ok.inj hstep
        exact h
      | send taken =>
        obtain rfl := Except.ok.inj hstep
        show (if n.process.messageToServer.ready then n.process.sendMessageToServer taken
          else n.process).turnDirection = _
        rw [← h]
        cases n.process.messageToServer.ready <;> cases taken <;> rfl
      | readUpdateFromGui result =>
        obtain ⟨gui, -, rfl⟩ := step_readUpdateFromGui_eq_ok.mp hstep
        rfl
      | flushOutgoing result =>
        obtain ⟨gui, hgui, rfl⟩ := step_flushOutgoing_eq_ok.mp hstep
        rcases flushOutgoing_cases result n.gui with ⟨heq, -⟩ | ⟨written, left, -, heq⟩
        · cases heq.symm.trans hgui
        · cases heq.symm.trans hgui
          exact h
      | receive datagram =>
        obtain ⟨p, hread, rfl⟩ := step_receive_eq_ok.mp hstep
        exact (readMessageFromServer_frame hread).1.trans (h.trans (turnDirection_writeLines _ _).symm)
  exact (hsame.reachable hn).trans (guiMachine_turned.reachable (node_gui.reachable hn))

/-! ## Lines and games -/

/-- The client has not got a server message, or is in a game that it has seen. -/
def Client.Entered (c : Client) : Prop :=
  c.gameId = -1 ∧ c.seenGameIds = ∅ ∨ ∃ g ∈ c.seenGameIds, c.gameId = (g : ℤ)

theorem Client.Took.entered {c c₁ : Client} (h : c.Took msg c₁) (hc : c.Entered) :
    ∃ g ∈ c₁.seenGameIds, c₁.gameId = (g : ℤ) := by
  rcases h with ⟨-, hseen⟩ | ⟨hid, -⟩ | - | -
  · rcases hc with ⟨-, hnone⟩ | hgame
    · rw [hnone] at hseen
      exact absurd hseen (Finset.notMem_empty _)
    · exact hgame
  · rcases hc with ⟨hnone, -⟩ | hgame
    · omega
    · exact hgame
  · exact ⟨msg.gameId, Finset.mem_insert_self _ _, rfl⟩
  · exact ⟨msg.gameId, Finset.mem_insert_self _ _, rfl⟩

/-- Games stay seen. -/
theorem Client.Took.seen_mono {c c₁ : Client} (h : c.Took msg c₁) :
    c.seenGameIds ⊆ c₁.seenGameIds := by
  rcases h with - | - | - | -
  · exact subset_rfl
  · exact subset_rfl
  · exact Finset.subset_insert _ _
  · exact Finset.subset_insert _ _

/-- Processing a message is taking it and writing lines. -/
theorem processMessageFromServer_eq_ok {c c' : Client} {out : List (List Byte)}
    (h : c.processMessageFromServer msg = .ok (out, c')) :
    ∃ c₁ n m, c.Took msg c₁ ∧ c' = { c₁ with nextWantedEventNo := n, nextEventToSendNo := m } := by
  rcases processMessageFromServer_cases msg c with ⟨c₁, htook, heq⟩ | heq | heq
  · obtain ⟨n, m, rfl⟩ := exists_of_writePending (heq.symm.trans h)
    exact ⟨c₁, n, m, htook, rfl⟩
  · cases heq.symm.trans h
  · cases heq.symm.trans h

/-- Lines are shown in games that the client has seen. -/
structure ClientNode.Tagged (n : ClientNode) : Prop where
  entered : n.process.client.Entered
  seen : ∀ x ∈ n.shown, ∃ g ∈ n.process.client.seenGameIds, x.1 = (g : ℤ)

theorem ClientNode.Tagged.receive (h : n.Tagged)
    (hstep : nodeMachine.step (.receive datagram) n = .ok n') : n'.Tagged := by
  obtain ⟨p, hread, rfl⟩ := step_receive_eq_ok.mp hstep
  rcases readMessageFromServer_eq_ok hread with ⟨-, hout, hclient⟩ | ⟨msg, -, hprocess⟩
  · refine ⟨?_, fun x hx => ?_⟩
    · show p.client.Entered
      rw [hclient]
      exact h.entered
    · show ∃ g ∈ p.client.seenGameIds, _
      simp only [hout, List.map_nil, List.append_nil] at hx
      rw [hclient]
      exact h.seen x hx
  · obtain ⟨c₁, no, m, htook, hc⟩ := processMessageFromServer_eq_ok hprocess
    obtain ⟨g, hg, hid⟩ := htook.entered h.entered
    have hseen : p.client.seenGameIds = c₁.seenGameIds := by rw [hc]
    have hgame : p.client.gameId = (g : ℤ) := by rw [hc]; exact hid
    refine ⟨Or.inr ⟨g, hseen ▸ hg, hgame⟩, fun x hx => ?_⟩
    show ∃ g ∈ p.client.seenGameIds, _
    rw [hseen]
    rcases List.mem_append.mp hx with hx | hx
    · obtain ⟨g', hg', hx'⟩ := h.seen x hx
      exact ⟨g', htook.seen_mono hg', hx'⟩
    · obtain ⟨line, -, rfl⟩ := List.mem_map.mp hx
      exact ⟨g, hg, hgame⟩

theorem nodeMachine_tagged : nodeMachine.Invariant ClientNode.Tagged where
  init n hn := by
    obtain ⟨p, ⟨_, _, _, _, _, _, _, rfl⟩, rfl⟩ := hn
    exact ⟨Or.inl ⟨rfl, rfl⟩, fun x hx => absurd hx List.not_mem_nil⟩
  step n op n' _ h hstep := by
    by_cases hop : ∀ datagram, op ≠ .receive datagram
    · obtain ⟨hclient, -, -, -, hshown⟩ := step_frame hop hstep
      exact ⟨hclient ▸ h.entered, fun x hx => hclient ▸ h.seen x (hshown ▸ hx)⟩
    · simp only [not_forall, not_not] at hop
      obtain ⟨datagram, rfl⟩ := hop
      exact h.receive hstep

/-- **A datagram with a message**: the client goes on as `clientMachine` does. -/
theorem ClientNode.Tagged.current_receive (h : n.Tagged)
    (hstep : nodeMachine.step (.receive datagram) n = .ok n')
    (hmsg : n.process.decoded datagram = some msg) :
    clientMachine.step msg n.current = .ok n'.current := by
  obtain ⟨p, hread, rfl⟩ := step_receive_eq_ok.mp hstep
  rcases readMessageFromServer_eq_ok hread with ⟨hnone, -, -⟩ | ⟨msg', hsome, hprocess⟩
  · cases hnone.symm.trans hmsg
  · obtain rfl := Option.some.inj (hsome.symm.trans hmsg)
    simp only [clientMachine, ClientNode.current, hprocess]
    have hlines : ClientNode.linesOf p.client.gameId
        { process := p
          gui := n.gui.writeLines (n.process.output datagram)
          shown := n.shown ++ (n.process.output datagram).map (Prod.mk p.client.gameId) } =
        n.linesOf p.client.gameId ++ n.process.output datagram := by
      simp [ClientNode.linesOf, List.filter_map, Function.comp_def]
    rw [hlines]
    split
    · rename_i hsame
      rw [hsame]
    · -- nothing has been shown of a game that the client enters
      rename_i hother
      obtain ⟨c₁, no, m, htook, hc⟩ := processMessageFromServer_eq_ok hprocess
      have hgame : p.client.gameId = c₁.gameId := by rw [hc]
      rcases htook.gameId with hsame | ⟨hid, -, hnew⟩
      · exact absurd (hgame.trans hsame) hother
      · have hnil : n.linesOf p.client.gameId = [] := by
          rw [ClientNode.linesOf, List.filter_eq_nil_iff.mpr, List.map_nil]
          intro x hx
          obtain ⟨g, hg, hx⟩ := h.seen x hx
          rw [decide_eq_true_eq, hx, hgame, hid]
          intro heq
          exact hnew (Int.ofNat_inj.mp heq ▸ hg)
        rw [hnil, List.nil_append]

/-! ## The bytes that are written -/

theorem queued_writeLines : ∀ (lines : List (List Byte)) (g : GuiConnection),
    (g.writeLines lines).queued = g.queued ++ lines.flatten
  | [], g => (List.append_nil _).symm
  | line :: lines, g => by
    rw [GuiConnection.writeLines, List.foldl_cons, List.flatten_cons, ← List.append_assoc]
    exact queued_writeLines lines _

/-- What is read from the interface or flushed to it is not new data for it. -/
theorem queued_step {op : GuiOp} {g g' : GuiConnection} (hop : ∀ data, op ≠ .writeData data)
    (h : guiMachine.step op g = .ok g') : g'.queued = g.queued := by
  cases op with
  | writeData data => exact absurd rfl (hop data)
  | flushOutgoing result =>
    rcases flushOutgoing_cases result g with ⟨heq, -⟩ | ⟨written, left, -, heq⟩
    · cases heq.symm.trans h
    · cases heq.symm.trans h
      rfl
  | readUpdateFromGui result =>
    exact readUpdateFromGui_induction (P := fun t => t.queued = g.queued) (fun _ _ h _ => h)
      (fun _ _ _ h _ => h) _ g rfl h

/-- **The bytes for the graphical interface** are those of the lines shown, in their order: the ones
that have been written, and then the ones that wait in the buffer. -/
theorem nodeMachine_output (hn : nodeMachine.Reachable n) :
    n.gui.written ++ n.gui.guiSock.outBuffer = (n.shown.map Prod.snd).flatten := by
  have hqueued : nodeMachine.Invariant fun n =>
      n.gui.queued = (n.shown.map Prod.snd).flatten := by
    refine ⟨fun n hn => ?_, fun n op n' _ h hstep => ?_⟩
    · obtain ⟨p, -, rfl⟩ := hn
      rfl
    · cases op with
      | timer =>
        obtain rfl := Except.ok.inj hstep
        exact h
      | send taken =>
        obtain rfl := Except.ok.inj hstep
        exact h
      | readUpdateFromGui result =>
        obtain ⟨gui, hgui, rfl⟩ := step_readUpdateFromGui_eq_ok.mp hstep
        exact (queued_step (fun _ => by simp) hgui).trans h
      | flushOutgoing result =>
        obtain ⟨gui, hgui, rfl⟩ := step_flushOutgoing_eq_ok.mp hstep
        exact (queued_step (fun _ => by simp) hgui).trans h
      | receive datagram =>
        obtain ⟨p, -, rfl⟩ := step_receive_eq_ok.mp hstep
        show (n.gui.writeLines _).queued = _
        rw [queued_writeLines, h, List.map_append, List.flatten_append, List.map_map]
        congr 2
        exact (List.map_id _).symm
  rw [← hqueued.reachable hn]
  exact invariant_outputKept.reachable (node_gui.reachable hn)

/-! ## A client to run -/

/-- A client that has just started. -/
def newcomer (sessionId : ℕ) (c : Byte) (h : isValidPlayerName [c] = true) : {n // nodeMachine.init n} :=
  ⟨.new (.new (.new 0 0 0 0 0) sessionId ⟨[c], h⟩), _, ⟨0, 0, 0, 0, 0, sessionId, ⟨[c], h⟩, rfl⟩, rfl⟩

theorem isValidPlayerName_a : isValidPlayerName [97] = true := rfl

theorem isValidPlayerName_b : isValidPlayerName [98] = true := rfl

theorem length_leftKeyDown : (ascii "LEFT_KEY_DOWN\n").length ≤ tcpBuffSize := by decide

end ScreenWorms
