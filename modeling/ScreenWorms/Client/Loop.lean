import ScreenWorms.Client.Node
import ScreenWorms.ForStd.EventLoop

/-!
# The loop of the client

`Client::run`. A round looks at the timer, the commands, the output that waits, the datagrams and the
message that is due, in this order. Commands that have been read are obeyed even if no more can be
read, so a round may not leave them out and the client has fewer runs than `nodeMachine`. In return
every message says what the commands ask for that had come before the round.

## Main definitions

* `ClientRevents`, `ClientEvents`, `ClientInput`
* `clientLoop`

## Main results

* `clientLoop_obeys` — what the messages of a round say, and what it waits for
-/

namespace ScreenWorms

open Machine TcpSocket

/-- `revents` of the client's descriptors. -/
structure ClientRevents where
  /-- `POLLIN` of the timer. -/
  timer : Bool
  /-- `POLLIN` and `POLLOUT` of the server's socket. -/
  serverReadable : Bool
  serverWritable : Bool
  /-- `POLLIN` and `POLLOUT` of the interface's socket. -/
  guiReadable : Bool
  guiWritable : Bool
deriving DecidableEq, Inhabited

/-- Whether `POLLOUT` is in `events` of the two sockets. -/
structure ClientEvents where
  server : Bool
  gui : Bool
deriving DecidableEq

/-- What a round of the client gets from outside. -/
structure ClientInput where
  read : ReadResult
  write : WriteResult
  /-- What `recv` yields, if it does not fail. -/
  datagram : Option (List Byte)
  /-- Whether `sendto` takes the message. -/
  taken : Bool
deriving DecidableEq

/-- `Client::run`. -/
def clientLoop :
    EventLoop ClientNode NodeOp NodeFault ClientEvents ClientRevents ClientInput where
  toMachine := nodeMachine
  calls := [
    fun r _ _ => if r.timer then some .timer else none,
    fun r i n =>
      if n.gui.guiSock.hasAvailableLine || r.guiReadable then some (.readUpdateFromGui i.read)
      else none,
    fun r i n =>
      if n.gui.guiSock.hasPendingOutgoingData && r.guiWritable then some (.flushOutgoing i.write)
      else none,
    fun r i _ => if r.serverReadable then i.datagram.map .receive else none,
    fun r i n =>
      if n.process.messageToServer.ready && r.serverWritable then some (.send i.taken) else none]
  start := ⟨false, false⟩
  wanted n := ⟨n.process.messageToServer.ready, n.gui.guiSock.hasPendingOutgoingData⟩
  report events r := { r with
    serverWritable := r.serverWritable && events.server
    guiWritable := r.guiWritable && events.gui }
  nothing := ⟨false, false, false, false, false⟩

/-- At first there is nothing to send or to write. -/
theorem clientLoop_start (n : ClientNode) (hn : nodeMachine.init n) :
    clientLoop.wanted n = clientLoop.start := by
  obtain ⟨p, ⟨_, _, _, _, _, _, _, rfl⟩, rfl⟩ := hn
  rfl

/-! ## Calls that do not read from the interface -/

/-- Nothing has been read from the connection in between. -/
structure SameInput (g g' : GuiConnection) : Prop where
  inBuffer : g'.guiSock.inBuffer = g.guiSock.inBuffer
  unreadNewlines : g'.guiSock.unreadNewlines = g.guiSock.unreadNewlines
  received : g'.received = g.received
  lines : g'.lines = g.lines
  turned : g'.turnDirection = g.turnDirection

theorem SameInput.refl (g : GuiConnection) : SameInput g g := ⟨rfl, rfl, rfl, rfl, rfl⟩

theorem SameInput.trans {g g' g'' : GuiConnection} (h : SameInput g g') (h' : SameInput g' g'') :
    SameInput g g'' :=
  ⟨h'.inBuffer.trans h.inBuffer, h'.unreadNewlines.trans h.unreadNewlines,
    h'.received.trans h.received, h'.lines.trans h.lines, h'.turned.trans h.turned⟩

theorem SameInput.inputRead {g g' : GuiConnection} (h : SameInput g g') (hg : InputRead g) :
    InputRead g' where
  received := by rw [h.received, h.lines, h.inBuffer, hg.received]
  complete := h.lines ▸ hg.complete
  counted := by rw [Counted, h.unreadNewlines, h.inBuffer, hg.counted]
  turned := by rw [h.turned, h.lines, hg.turned]

theorem sameInput_writeLines : ∀ (lines : List (List Byte)) (g : GuiConnection),
    SameInput g (g.writeLines lines)
  | [], g => .refl g
  | line :: lines, g =>
    have hfirst : SameInput g { g with
      guiSock := g.guiSock.writeData line
      queued := g.queued ++ line } := ⟨rfl, rfl, rfl, rfl, rfl⟩
    hfirst.trans (sameInput_writeLines lines _)

variable {n n' : ClientNode} {op : NodeOp}

theorem sameInput_step (hop : ∀ result, op ≠ .readUpdateFromGui result)
    (hstep : nodeMachine.step op n = .ok n') : SameInput n.gui n'.gui := by
  cases op with
  | timer =>
    obtain rfl := Except.ok.inj hstep
    exact .refl _
  | send taken =>
    obtain rfl := Except.ok.inj hstep
    exact .refl _
  | readUpdateFromGui result => exact absurd rfl (hop result)
  | flushOutgoing result =>
    obtain ⟨gui, hgui, rfl⟩ := step_flushOutgoing_eq_ok.mp hstep
    rcases flushOutgoing_cases result n.gui with ⟨heq, -⟩ | ⟨written, left, -, heq⟩
    · cases heq.symm.trans hgui
    · cases heq.symm.trans hgui
      exact ⟨rfl, rfl, rfl, rfl, rfl⟩
  | receive datagram =>
    obtain ⟨p, -, rfl⟩ := step_receive_eq_ok.mp hstep
    exact sameInput_writeLines _ _

/-- A message that is due stays due until it is sent. -/
theorem ready_step (hop : ∀ taken, op ≠ .send taken) (hn : n.process.messageToServer.ready = true)
    (hstep : nodeMachine.step op n = .ok n') : n'.process.messageToServer.ready = true := by
  cases op with
  | timer =>
    obtain rfl := Except.ok.inj hstep
    rfl
  | send taken => exact absurd rfl (hop taken)
  | readUpdateFromGui result =>
    obtain ⟨gui, -, rfl⟩ := step_readUpdateFromGui_eq_ok.mp hstep
    exact hn
  | flushOutgoing result =>
    obtain ⟨gui, -, rfl⟩ := step_flushOutgoing_eq_ok.mp hstep
    exact hn
  | receive datagram =>
    obtain ⟨p, hread, rfl⟩ := step_receive_eq_ok.mp hstep
    exact (congrArg _ (readMessageFromServer_frame hread).2).trans hn

/-! ## Calls that do -/

/-- Reading does not write. -/
theorem outBuffer_readUpdateFromGui {result : ReadResult} {rounds : ℕ} {g t : GuiConnection}
    (h : g.readUpdateFromGui result rounds = .ok t) :
    t.guiSock.outBuffer = g.guiSock.outBuffer :=
  readUpdateFromGui_induction (P := fun t => t.guiSock.outBuffer = g.guiSock.outBuffer)
    (fun _ _ ht hsock => (outBuffer_readline hsock).trans ht)
    (fun _ _ _ ht hsock => (outBuffer_readline hsock).trans ht) rounds g rfl h

/-- The timer and the commands do not write either. -/
theorem outBuffer_step {result : ReadResult} (hop : op = .timer ∨ op = .readUpdateFromGui result)
    (hstep : nodeMachine.step op n = .ok n') :
    n'.gui.guiSock.outBuffer = n.gui.guiSock.outBuffer := by
  rcases hop with rfl | rfl
  · obtain rfl := Except.ok.inj hstep
    rfl
  · obtain ⟨gui, hgui, rfl⟩ := step_readUpdateFromGui_eq_ok.mp hstep
    exact outBuffer_readUpdateFromGui hgui

/-- If there is no line to take, all have been taken. -/
theorem InputRead.lines_eq {g : GuiConnection} (h : InputRead g)
    (hnone : g.guiSock.hasAvailableLine = false) : g.lines = completeLines g.received := by
  rw [hasAvailableLine, decide_eq_false_iff_not, h.counted, gt_iff_lt, List.count_pos_iff] at hnone
  rw [h.received, completeLines_flatMap h.complete, completeLines_of_not_mem hnone, List.append_nil]

/-- **All lines are taken** that were there before a call. -/
theorem InputRead.lines_readUpdateFromGui {result : ReadResult} {t : GuiConnection} :
    ∀ rounds (g : GuiConnection), InputRead g → g.guiSock.inBuffer.length < 2 ^ 32 →
      g.readUpdateFromGui result rounds = .ok t → t.lines = completeLines g.received := by
  intro rounds
  induction rounds with
  | zero =>
    intro g _ _ h
    cases h
  | succ rounds ih =>
    intro g hg hsmall h
    rw [GuiConnection.readUpdateFromGui] at h
    by_cases hline : newline ∈ g.guiSock.inBuffer
    · obtain ⟨line, guiSock, hread, hshorter, -, hinput⟩ := hg.take_line hsmall hline result
      rw [hread] at h
      simp only at h
      split at h
      · rename_i hnone
        cases h
        exact hinput.lines_eq (by simpa using hnone)
      · have hrest := ih _ hinput (hshorter.trans hsmall) h
        exact hrest
    · rcases hg.read hline result with ⟨hread, -⟩ | ⟨guiSock, hread, -⟩
      · rw [hread] at h
        cases h
      · rw [hread] at h
        cases h
        show g.lines = _
        rw [hg.received, completeLines_flatMap hg.complete, completeLines_of_not_mem hline,
          List.append_nil]

/-! ## A round -/

variable {r : ClientRevents} {i : ClientInput}

/-- **The first two calls** take the lines that were there. -/
theorem takes_lines (hn : InputRead n.gui) (hsmall : n.gui.guiSock.inBuffer.length < 2 ^ 32)
    (h : clientLoop.round r i (clientLoop.calls.take 2) n = .ok n') :
    n'.gui.lines = completeLines n.gui.received ∧
      (n'.gui.guiSock.inBuffer.length < 2 ^ 32 → InputRead n'.gui) := by
  obtain ⟨n₁, htimer, hread, -⟩ := EventLoop.exists_of_round_append
    (clientLoop.calls.take 1) ((clientLoop.calls.drop 1).take 1) h
  have hgui : n₁.gui = n.gui := by
    rcases EventLoop.round_singleton htimer with ⟨-, rfl⟩ | ⟨op, hcall, hop⟩
    · rfl
    · obtain ⟨-, heq⟩ := Option.ite_none_right_eq_some.mp hcall
      obtain rfl := Option.some.inj heq
      obtain rfl := Except.ok.inj hop
      rfl
  rw [← hgui] at hn hsmall ⊢
  rcases EventLoop.round_singleton hread with ⟨hnone, rfl⟩ | ⟨op, hcall, hop⟩
  · have hidle : n₁.gui.guiSock.hasAvailableLine = false ∧ r.guiReadable = false := by
      simpa using hnone
    exact ⟨hn.lines_eq hidle.1, fun _ => hn⟩
  · obtain ⟨-, heq⟩ := Option.ite_none_right_eq_some.mp hcall
    obtain rfl := Option.some.inj heq
    obtain ⟨gui, hstep, rfl⟩ := step_readUpdateFromGui_eq_ok.mp hop
    exact ⟨hn.lines_readUpdateFromGui _ _ hsmall hstep, hn.step hsmall hstep⟩

/-- The first two calls are about the timer and the commands. -/
theorem of_mem_take_two {call : ClientRevents → ClientInput → ClientNode → Option NodeOp}
    (hcall : call ∈ clientLoop.calls.take 2) (hop : call r i n = some op) :
    op = .timer ∨ op = .readUpdateFromGui i.read := by
  simp only [clientLoop, List.take_succ_cons, List.take_zero, List.mem_cons, List.not_mem_nil,
    or_false] at hcall
  rcases hcall with rfl | rfl
  · obtain ⟨-, heq⟩ := Option.ite_none_right_eq_some.mp hop
    exact Or.inl (Option.some.inj heq).symm
  · obtain ⟨-, heq⟩ := Option.ite_none_right_eq_some.mp hop
    exact Or.inr (Option.some.inj heq).symm

/-- Only the last call sends. -/
theorem not_send_of_mem_take {call : ClientRevents → ClientInput → ClientNode → Option NodeOp}
    (hcall : call ∈ clientLoop.calls.take 4) {taken : Bool} : call r i n ≠ some (.send taken) := by
  simp only [clientLoop, List.take_succ_cons, List.take_zero, List.mem_cons, List.not_mem_nil,
    or_false] at hcall
  rcases hcall with rfl | rfl | rfl | rfl <;> simp

/-- The other calls read nothing. -/
theorem not_read_of_mem_drop {call : ClientRevents → ClientInput → ClientNode → Option NodeOp}
    (hcall : call ∈ clientLoop.calls.drop 2) {result : ReadResult} :
    call r i n ≠ some (.readUpdateFromGui result) := by
  simp only [clientLoop, List.drop_succ_cons, List.drop_zero, List.mem_cons, List.not_mem_nil,
    or_false] at hcall
  rcases hcall with rfl | rfl | rfl <;> simp

variable {w w₀ w' : Waiting ClientNode ClientEvents ClientRevents}
  {p : Poll ClientRevents ClientInput}
  {tr : List (Waiting ClientNode ClientEvents ClientRevents × Poll ClientRevents ClientInput)}

/-- **A round** takes the lines that were there before it sends. -/
theorem InputRead.round (hw : InputRead w.state.gui)
    (hsmall : w.state.gui.guiSock.inBuffer.length < 2 ^ 32)
    (hsmall' : w'.state.gui.guiSock.inBuffer.length < 2 ^ 32)
    (hstep : clientLoop.loop.step p w = .ok w') : InputRead w'.state.gui ∧
      ∀ m taken, (m, .send taken) ∈ clientLoop.steps (w, p) →
        m.gui.lines = completeLines w.state.gui.received := by
  rcases hr : clientLoop.reported (w, p) with _ | ⟨r, i⟩
  · rw [← EventLoop.eq_of_step_of_none hr hstep]
    refine ⟨hw, fun m taken hm => ?_⟩
    simp only [EventLoop.steps, EventLoop.performed, hr] at hm
    cases hm
  · obtain ⟨n, hfirst, hothers, hsteps⟩ := EventLoop.exists_of_step
      (clientLoop.calls.take 2) (clientLoop.calls.drop 2) rfl hr hstep
    obtain ⟨hlines, hinput⟩ := takes_lines hw hsmall hfirst
    obtain ⟨hsame, hbetween⟩ := EventLoop.round_induction (P := fun m => SameInput n.gui m.gui)
      (fun call hcall m op m' hm hop hstep => hm.trans (sameInput_step
        (fun result heq => not_read_of_mem_drop hcall (heq ▸ hop)) hstep)) (.refl _) hothers
    rw [hsame.inBuffer] at hsmall'
    refine ⟨hsame.inputRead (hinput hsmall'), fun m taken hm => ?_⟩
    rw [hsteps] at hm
    rcases List.mem_append.mp hm with hm | hm
    · obtain ⟨call, hcall, hsend⟩ := EventLoop.exists_call_of_mem_trace hm
      rcases of_mem_take_two hcall hsend with heq | heq <;> cases heq
    · exact (hbetween _ hm).lines.trans hlines

theorem inputRead_loop (hinit : clientLoop.loop.init w₀) (hrun : clientLoop.loop.Run w₀ tr w)
    (hsmall : ∀ u ∈ visited tr w, u.state.gui.guiSock.inBuffer.length < 2 ^ 32) :
    InputRead w.state.gui := by
  induction hrun with
  | nil =>
    obtain ⟨⟨p, -, hnew⟩, -⟩ := hinit
    rw [hnew]
    exact ⟨rfl, fun line hline => absurd hline List.not_mem_nil, rfl, rfl⟩
  | @snoc tr u v p hrun hstep ih =>
    rw [visited_concat] at hsmall
    have hu := hsmall u (List.mem_append_left _ (List.mem_append_right _ (List.mem_singleton_self u)))
    have hv := hsmall v (List.mem_append_right _ (List.mem_singleton_self v))
    exact ((ih fun x hx => hsmall x (List.mem_append_left _ hx)).round hu hv hstep).1

/-- **What waits is served.** If a message is due and the server's socket is writable, the round
sends it; if output waits and the interface's socket is writable, the round flushes it. -/
theorem clientLoop_serves (hw : clientLoop.loop.Reachable w) {happened : ClientRevents}
    (hstep : clientLoop.loop.step (.ready happened i) w = .ok w') :
    (w.state.process.messageToServer.ready = true → happened.serverWritable = true →
      ∃ m, (m, .send i.taken) ∈ clientLoop.steps (w, .ready happened i)) ∧
    (w.state.gui.guiSock.hasPendingOutgoingData = true → happened.guiWritable = true →
      ∃ m, (m, .flushOutgoing i.write) ∈ clientLoop.steps (w, .ready happened i)) := by
  have hevents : w.events = clientLoop.wanted w.state :=
    (EventLoop.loop_events clientLoop_start).reachable hw
  constructor
  · intro hready hwritable
    obtain ⟨m, m', hfirst, -, -, hmem⟩ := EventLoop.exists_call_of_step
      (clientLoop.calls.take 4) [] rfl rfl hstep
    have hm : m.process.messageToServer.ready = true := (EventLoop.round_induction
      (P := fun n => n.process.messageToServer.ready = true)
      (fun call hcall n op n' hn hop hstep => ready_step
        (fun taken heq => not_send_of_mem_take hcall (heq ▸ hop)) hn hstep) hready hfirst).1
    have hreported : (clientLoop.report w.events happened).serverWritable = true := by
      rw [hevents]
      simp only [clientLoop, hwritable, hready, Bool.and_true]
    refine ⟨m, hmem _ ?_⟩
    simp only [hm, hreported, Bool.and_true, if_true]
  · intro hpending hwritable
    obtain ⟨m, m', hfirst, -, -, hmem⟩ := EventLoop.exists_call_of_step
      (clientLoop.calls.take 2) _ rfl rfl hstep
    have hm : m.gui.guiSock.outBuffer = w.state.gui.guiSock.outBuffer := (EventLoop.round_induction
      (P := fun n => n.gui.guiSock.outBuffer = w.state.gui.guiSock.outBuffer)
      (fun call hcall n op n' hn hop hstep => (outBuffer_step (of_mem_take_two hcall hop)
        hstep).trans hn) rfl hfirst).1
    have hreported : (clientLoop.report w.events happened).guiWritable = true := by
      rw [hevents]
      simp only [clientLoop, hwritable, hpending, Bool.and_true]
    refine ⟨m, hmem _ ?_⟩
    rw [hasPendingOutgoingData] at hpending
    simp only [hasPendingOutgoingData, hm, hpending, hreported, Bool.and_true, if_true]

/-- **What the client does in its rounds.** A message says the direction which the commands lead to
that had been read before the round. A message that is due and output that waits are only waiting for
their sockets. -/
theorem clientLoop_obeys (hinit : clientLoop.loop.init w₀) (hrun : clientLoop.loop.Run w₀ tr w)
    (hsmall : ∀ u ∈ visited tr w, u.state.gui.guiSock.inBuffer.length < 2 ^ 32) :
    ∀ x ∈ tr, (∀ m taken, (m, .send taken) ∈ clientLoop.steps x → m.process.message.turnDirection =
        (completeLines x.1.state.gui.received).foldl ClientProcess.turn .straight) ∧
      ∀ happened i, x.2 = .ready happened i →
        (x.1.state.process.messageToServer.ready = true → happened.serverWritable = true →
          ∃ m, (m, .send i.taken) ∈ clientLoop.steps x) ∧
        (x.1.state.gui.guiSock.hasPendingOutgoingData = true → happened.guiWritable = true →
          ∃ m, (m, .flushOutgoing i.write) ∈ clientLoop.steps x) := by
  induction hrun with
  | nil => exact fun x hx => absurd hx List.not_mem_nil
  | @snoc tr u v p hrun hstep ih =>
    rw [visited_concat] at hsmall
    have hbefore := fun x hx => hsmall x (List.mem_append_left _ hx)
    intro x hx
    rcases List.mem_append.mp hx with hx | hx
    · exact ih hbefore x hx
    · obtain rfl := List.mem_singleton.mp hx
      have hu := hbefore u (List.mem_append_right _ (List.mem_singleton_self u))
      have hv := hsmall v (List.mem_append_right _ (List.mem_singleton_self v))
      have hreach : clientLoop.loop.Reachable u := (Machine.Reachable.init hinit).run hrun
      obtain ⟨-, hsends⟩ := (inputRead_loop hinit hrun hbefore).round hu hv hstep
      refine ⟨fun m taken hm => ?_, ?_⟩
      · have hmreach := EventLoop.reachable_of_mem_steps hreach hstep hm
        exact (nodeMachine_turned hmreach).trans (congrArg _ (hsends m taken hm))
      · rintro happened i rfl
        exact clientLoop_serves hreach hstep

/-- A key is pressed and a message gets due, but the socket is not asked whether it is writable. After
a while without events the message is sent. -/
def pressAndSend : List (Poll ClientRevents ClientInput) :=
  [.ready ⟨true, false, true, true, false⟩
    ⟨.yields (ascii "LEFT_KEY_DOWN\n") length_leftKeyDown, .failed, none, true⟩,
    .timeout, .ready ⟨false, false, true, false, false⟩ ⟨.failed, .failed, none, true⟩]

/-- Nothing is sent in the first round, and the message says that the key is down. -/
theorem clientLoop_obeys_key : ∃ w₀ tr w, clientLoop.loop.Run w₀ tr w ∧
    tr.map Prod.snd = pressAndSend ∧
    (tr.flatMap clientLoop.steps).filterMap (fun x =>
      if x.2 = .send true then some x.1.process.message.turnDirection else none) = [.left] ∧
    ∀ x ∈ tr, (∀ m taken, (m, .send taken) ∈ clientLoop.steps x → m.process.message.turnDirection =
        (completeLines x.1.state.gui.received).foldl ClientProcess.turn .straight) ∧
      ∀ happened i, x.2 = .ready happened i →
        (x.1.state.process.messageToServer.ready = true → happened.serverWritable = true →
          ∃ m, (m, .send i.taken) ∈ clientLoop.steps x) ∧
        (x.1.state.gui.guiSock.hasPendingOutgoingData = true → happened.guiWritable = true →
          ∃ m, (m, .flushOutgoing i.write) ∈ clientLoop.steps x) := by
  let n := newcomer 1 97 isValidPlayerName_a
  obtain ⟨tr, w, hrun, hpolls, hsmall, hsent⟩ := exists_run_of_any (M := clientLoop.loop)
    (s := ⟨n.val, ⟨false, false⟩, default⟩)
    (P := fun tr w => (∀ u ∈ visited tr w, u.state.gui.guiSock.inBuffer.length < 2 ^ 32) ∧
      (tr.flatMap clientLoop.steps).filterMap (fun x =>
        if x.2 = .send true then some x.1.process.message.turnDirection else none) = [.left])
    pressAndSend (by decide +kernel)
  have hinit : clientLoop.loop.init ⟨n.val, ⟨false, false⟩, default⟩ := ⟨n.property, rfl⟩
  exact ⟨_, tr, w, hrun, hpolls, hsent, clientLoop_obeys hinit hrun hsmall⟩

end ScreenWorms
