import ScreenWorms.Client.Requests
import ScreenWorms.Common.Sockets

/-!
# The connection to the graphical interface

The client reads commands from the connection and writes lines to it. Whatever pieces the bytes are
read and written in, the lines are those of the stream, and nothing is lost.

## Main definitions

* `GuiConnection`, `GuiConnection.readUpdateFromGui`
* `guiMachine`

## Main results

* `readUpdateFromGui_turns` — how this is the call of a client process
* `guiMachine_lines` — what has been read
* `guiMachine_written` — what has been written
-/

namespace ScreenWorms

open Machine TcpSocket

/-- The connection, and what has been read from it and written to it. -/
structure GuiConnection where
  guiSock : TcpSocket
  turnDirection : TurnDirection
  /-- The bytes that `read` has yielded. -/
  received : List Byte
  /-- The lines that `readline` has returned. -/
  lines : List (List Byte)
  /-- The data that `writeData` has been called with. -/
  queued : List Byte
  /-- The bytes that `write` has taken. -/
  written : List Byte
deriving DecidableEq

/-- What the client does with the connection. -/
inductive GuiOp
  | writeData (data : List Byte)
  | flushOutgoing (result : WriteResult)
  | readUpdateFromGui (result : ReadResult)
deriving DecidableEq

namespace GuiConnection

/-- The connection of a client as constructed. -/
def new : GuiConnection := ⟨.new, .straight, [], [], [], []⟩

/-- The loop of `Client::readUpdateFromGui`, given the result of `read` if it is called. -/
def readUpdateFromGui (result : ReadResult) : ℕ → GuiConnection → Except SocketFault GuiConnection
  | 0, _ => .error .endless
  | rounds + 1, g =>
    match g.guiSock.readline result with
    | .error e => .error e
    | .ok (none, guiSock) =>
      .ok { g with guiSock := guiSock, received := g.received ++ result.bytes }
    | .ok (some line, guiSock) =>
      let g := { g with
        guiSock := guiSock
        turnDirection := ClientProcess.turn g.turnDirection line
        lines := g.lines ++ [line] }
      if !guiSock.hasAvailableLine then .ok g else readUpdateFromGui result rounds g

/-- One call. Every round of the loop but one takes a line. -/
def step : GuiOp → GuiConnection → Except SocketFault GuiConnection
  | .writeData data, g =>
    .ok { g with guiSock := g.guiSock.writeData data, queued := g.queued ++ data }
  | .flushOutgoing result, g =>
    match g.guiSock.flushOutgoing result with
    | .error e => .error e
    | .ok (written, guiSock) =>
      .ok { g with guiSock := guiSock, written := g.written ++ written }
  | .readUpdateFromGui result, g => g.readUpdateFromGui result (g.guiSock.unreadNewlines + 1)

end GuiConnection

/-- The connection, in whatever order the client's functions are called. -/
def guiMachine : Machine GuiConnection GuiOp SocketFault where
  init g := g = .new
  step := GuiConnection.step

/-! ## Reading -/

/-- What has been read is the lines, each with a newline, and what is in the buffer. -/
structure InputRead (g : GuiConnection) : Prop where
  received : g.received = g.lines.flatMap (· ++ [newline]) ++ g.guiSock.inBuffer
  complete : ∀ line ∈ g.lines, newline ∉ line
  counted : g.guiSock.Counted
  turned : g.turnDirection = g.lines.foldl ClientProcess.turn .straight

variable {g t : GuiConnection} {result : ReadResult} {op : GuiOp} {fault : SocketFault}

/-- **What a round keeps, the loop keeps.** A round reads bytes or takes a line. -/
theorem readUpdateFromGui_induction {P : GuiConnection → Prop}
    (hread : ∀ g guiSock, P g → g.guiSock.readline result = .ok (none, guiSock) →
      P { g with guiSock := guiSock, received := g.received ++ result.bytes })
    (hline : ∀ g line guiSock, P g → g.guiSock.readline result = .ok (some line, guiSock) →
      P { g with
        guiSock := guiSock
        turnDirection := ClientProcess.turn g.turnDirection line
        lines := g.lines ++ [line] }) :
    ∀ rounds (g : GuiConnection), P g → g.readUpdateFromGui result rounds = .ok t → P t := by
  intro rounds
  induction rounds with
  | zero =>
    intro g _ h
    cases h
  | succ rounds ih =>
    intro g hg h
    rw [GuiConnection.readUpdateFromGui] at h
    rcases hsock : g.guiSock.readline result with e | ⟨_ | line, guiSock⟩
    · rw [hsock] at h
      cases h
    · rw [hsock] at h
      cases h
      exact hread g guiSock hg hsock
    · rw [hsock] at h
      simp only at h
      have hround := hline g line guiSock hg hsock
      split at h
      · cases h
        exact hround
      · exact ih _ hround h

/-- A call takes some lines, and turns as a client process does that gets these. -/
theorem readUpdateFromGui_turns {p : ClientProcess} : ∀ rounds (g : GuiConnection),
    g.readUpdateFromGui result rounds = .ok t → ∃ taken, t.lines = g.lines ++ taken ∧
      (p.turnDirection = g.turnDirection →
        t.turnDirection = (p.readUpdateFromGui taken).turnDirection) := by
  intro rounds g h
  have hkept : ∃ taken, t.lines = g.lines ++ taken ∧
      t.turnDirection = taken.foldl ClientProcess.turn g.turnDirection := by
    refine readUpdateFromGui_induction (P := fun t => ∃ taken, t.lines = g.lines ++ taken ∧
      t.turnDirection = taken.foldl ClientProcess.turn g.turnDirection) ?_ ?_ rounds g ?_ h
    · exact fun t guiSock ht _ => ht
    · rintro t line guiSock ⟨taken, hlines, hturn⟩ -
      refine ⟨taken ++ [line], ?_, ?_⟩
      · show t.lines ++ [line] = _
        rw [hlines, List.append_assoc]
      · show ClientProcess.turn t.turnDirection line = _
        rw [hturn, List.foldl_append]
        rfl
    · exact ⟨[], (List.append_nil _).symm, rfl⟩
  obtain ⟨taken, hlines, hturn⟩ := hkept
  exact ⟨taken, hlines, fun hp => hturn.trans (hp ▸ rfl)⟩

/-- A line that is there is taken. -/
theorem InputRead.take_line (h : InputRead g) (hsmall : g.guiSock.inBuffer.length < 2 ^ 32)
    (hline : newline ∈ g.guiSock.inBuffer) (result : ReadResult) : ∃ line guiSock,
      g.guiSock.readline result = .ok (some line, guiSock) ∧
      guiSock.inBuffer.length < g.guiSock.inBuffer.length ∧
      guiSock.unreadNewlines + 1 = g.guiSock.unreadNewlines ∧
      InputRead { g with
        guiSock := guiSock
        turnDirection := ClientProcess.turn g.turnDirection line
        lines := g.lines ++ [line] } := by
  obtain ⟨line, rest, hbuffer, hno⟩ := List.eq_append_cons_of_mem hline
  refine ⟨line, _, readline_eq_line h.counted hno hbuffer hsmall result, ?_, ?_, ?_⟩
  · rw [hbuffer, List.length_append, List.length_cons]
    show rest.length < _
    omega
  · show rest.count newline + 1 = _
    rw [h.counted, hbuffer, List.count_append, List.count_eq_zero.mpr hno, List.count_cons_self,
      Nat.zero_add]
  · refine ⟨?_, fun l hl => ?_, rfl, ?_⟩
    · rw [h.received, hbuffer, List.flatMap_append, List.flatMap_singleton, List.append_assoc,
        List.append_assoc, List.singleton_append]
    · rcases List.mem_append.mp hl with hl | hl
      · exact h.complete l hl
      · rw [List.mem_singleton.mp hl]
        exact hno
    · rw [h.turned, List.foldl_append]
      rfl

/-- If there is no line, bytes are read, unless the peer has closed the connection. -/
theorem InputRead.read (h : InputRead g) (hno : newline ∉ g.guiSock.inBuffer)
    (result : ReadResult) :
    g.guiSock.readline result = .error .exit ∧ (∃ h, result = .yields [] h) ∨
    ∃ guiSock, g.guiSock.readline result = .ok (none, guiSock) ∧
      (guiSock.inBuffer.length < 2 ^ 32 → InputRead { g with
        guiSock := guiSock
        received := g.received ++ result.bytes }) := by
  refine (readline_eq_none h.counted hno result).imp_right fun heq => ⟨_, heq, fun hsmall => ?_⟩
  rw [inBuffer_foldl_push] at hsmall
  refine ⟨?_, h.complete, ?_, h.turned⟩
  · rw [h.received, inBuffer_foldl_push, List.append_assoc]
  · rw [foldl_push _ _ h.counted hsmall]
    rfl

/-- **Reading**: either all lines that are there are taken, or bytes are read. -/
theorem InputRead.readUpdateFromGui (result : ReadResult) : ∀ rounds (g : GuiConnection),
    InputRead g →
    g.guiSock.inBuffer.length < 2 ^ 32 → g.guiSock.unreadNewlines < rounds →
    g.readUpdateFromGui result rounds = .error .exit ∧ (∃ h, result = .yields [] h) ∨
    ∃ t, g.readUpdateFromGui result rounds = .ok t ∧
      (t.guiSock.inBuffer.length < 2 ^ 32 → InputRead t) := by
  intro rounds
  induction rounds with
  | zero => exact fun g h hsmall hrounds => absurd hrounds (Nat.not_lt_zero _)
  | succ rounds ih =>
    intro g h hsmall hrounds
    rw [GuiConnection.readUpdateFromGui]
    by_cases hline : newline ∈ g.guiSock.inBuffer
    · obtain ⟨line, guiSock, hread, hshorter, hcount, hinput⟩ := h.take_line hsmall hline result
      rw [hread]
      simp only
      split
      · exact Or.inr ⟨_, rfl, fun _ => hinput⟩
      · exact ih _ hinput (hshorter.trans hsmall) (show guiSock.unreadNewlines < rounds by omega)
    · rcases h.read hline result with ⟨hread, hclosed⟩ | ⟨guiSock, hread, hinput⟩
      · rw [hread]
        exact Or.inl ⟨rfl, hclosed⟩
      · rw [hread]
        exact Or.inr ⟨_, rfl, hinput⟩

/-- What a step of the connection yields is known from that of the socket. -/
theorem flushOutgoing_cases (result : WriteResult) (g : GuiConnection) :
    guiMachine.step (.flushOutgoing result) g = .error .exit ∧ result = .brokenPipe ∨
    ∃ written left, written ++ left = g.guiSock.outBuffer ∧
      guiMachine.step (.flushOutgoing result) g = .ok { g with
        guiSock := { g.guiSock with outBuffer := left }
        written := g.written ++ written } := by
  simp only [guiMachine, GuiConnection.step]
  rcases flushOutgoing_eq result g.guiSock with ⟨heq, hresult⟩ | ⟨written, left, heq, happend⟩
  · rw [heq]
    exact Or.inl ⟨rfl, hresult⟩
  · rw [heq]
    exact Or.inr ⟨written, left, happend, rfl⟩

/-- **No step fails** but those in which the client exits. -/
theorem InputRead.step_eq_error (h : InputRead g) (hsmall : g.guiSock.inBuffer.length < 2 ^ 32)
    (hstep : guiMachine.step op g = .error fault) : fault = .exit ∧
      (op = .flushOutgoing .brokenPipe ∨ ∃ h, op = .readUpdateFromGui (.yields [] h)) := by
  cases op with
  | writeData data => cases hstep
  | flushOutgoing result =>
    rcases flushOutgoing_cases result g with ⟨heq, rfl⟩ | ⟨written, left, -, heq⟩
    · rw [heq] at hstep
      cases hstep
      exact ⟨rfl, Or.inl rfl⟩
    · rw [heq] at hstep
      cases hstep
  | readUpdateFromGui result =>
    rcases h.readUpdateFromGui result _ g hsmall (Nat.lt_succ_self _) with
      ⟨heq, hlength, rfl⟩ | ⟨t, heq, -⟩
    · cases heq.symm.trans hstep
      exact ⟨rfl, Or.inr ⟨hlength, rfl⟩⟩
    · cases heq.symm.trans hstep

theorem InputRead.step (h : InputRead g) (hsmall : g.guiSock.inBuffer.length < 2 ^ 32)
    (hstep : guiMachine.step op g = .ok t) (hsmall' : t.guiSock.inBuffer.length < 2 ^ 32) :
    InputRead t := by
  cases op with
  | writeData data =>
    cases hstep
    exact ⟨h.received, h.complete, h.counted, h.turned⟩
  | flushOutgoing result =>
    rcases flushOutgoing_cases result g with ⟨heq, -⟩ | ⟨written, left, -, heq⟩
    · cases heq.symm.trans hstep
    · cases heq.symm.trans hstep
      exact ⟨h.received, h.complete, h.counted, h.turned⟩
  | readUpdateFromGui result =>
    rcases h.readUpdateFromGui result _ g hsmall (Nat.lt_succ_self _) with
      ⟨heq, -⟩ | ⟨t', heq, hinput⟩
    · cases heq.symm.trans hstep
    · cases heq.symm.trans hstep
      exact hinput hsmall'

theorem inputRead_run {s : GuiConnection} {tr : List (GuiConnection × GuiOp)}
    (hs : guiMachine.init s) (hrun : guiMachine.Run s tr t)
    (hsmall : ∀ g ∈ visited tr t, g.guiSock.inBuffer.length < 2 ^ 32) : InputRead t := by
  induction hrun with
  | nil =>
    rw [show s = .new from hs]
    exact ⟨rfl, fun line hline => absurd hline List.not_mem_nil, rfl, rfl⟩
  | @snoc tr u t op hrun hstep ih =>
    rw [visited_concat] at hsmall
    have hinput := ih fun g hg => hsmall g (List.mem_append_left _ hg)
    refine hinput.step ?_ hstep (hsmall t (List.mem_append_right _ List.mem_cons_self))
    exact hsmall u (List.mem_append_left _ (List.mem_append_right _ List.mem_cons_self))

/-- **What has been read.** Whatever pieces a stream is read in, and whatever else happens to the
connection, the lines that `readline` has returned are those of the stream, but for the ones still
in the buffer. `unreadNewlines` counts these, so no step reads outside of the buffer. When there is
none left, the direction is the one that the commands of the stream lead to. -/
theorem guiMachine_lines {s : GuiConnection} {tr : List (GuiConnection × GuiOp)}
    (hs : guiMachine.init s) (hrun : guiMachine.Run s tr t)
    (hsmall : ∀ g ∈ visited tr t, g.guiSock.inBuffer.length < 2 ^ 32) :
    completeLines t.received = t.lines ++ completeLines t.guiSock.inBuffer ∧
    t.guiSock.unreadNewlines = t.guiSock.inBuffer.count newline ∧
    (∀ op fault, guiMachine.step op t = .error fault → fault = .exit) ∧
    (t.guiSock.hasAvailableLine = false → t.lines = completeLines t.received ∧
      t.turnDirection = (completeLines t.received).foldl ClientProcess.turn .straight) := by
  have hinput := inputRead_run hs hrun hsmall
  have hlast := hsmall t (List.mem_append_right _ List.mem_cons_self)
  have hlines : completeLines t.received = t.lines ++ completeLines t.guiSock.inBuffer := by
    rw [hinput.received, completeLines_flatMap hinput.complete]
  refine ⟨hlines, hinput.counted, fun op fault hstep => (hinput.step_eq_error hlast hstep).1,
    fun hnone => ?_⟩
  have hno : newline ∉ t.guiSock.inBuffer := by
    rw [hasAvailableLine, decide_eq_false_iff_not, hinput.counted, gt_iff_lt,
      List.count_pos_iff] at hnone
    exact hnone
  have hall : t.lines = completeLines t.received := by
    rw [hlines, completeLines_of_not_mem hno, List.append_nil]
  exact ⟨hall, hall ▸ hinput.turned⟩

/-- A command comes in two reads, the second of which has the start of the next command. -/
def splitCommand : List GuiOp :=
  [.readUpdateFromGui (.yields (ascii "LEFT_KEY") (by decide)), .readUpdateFromGui .failed,
    .readUpdateFromGui (.yields (ascii "_DOWN\nRIGHT") (by decide)), .readUpdateFromGui .failed]

theorem guiMachine_lines_split : ∃ tr t, guiMachine.Run .new tr t ∧ t.turnDirection = .left ∧
    completeLines t.received = t.lines ++ completeLines t.guiSock.inBuffer ∧
    t.guiSock.unreadNewlines = t.guiSock.inBuffer.count newline ∧
    (∀ op fault, guiMachine.step op t = .error fault → fault = .exit) ∧
    (t.guiSock.hasAvailableLine = false → t.lines = completeLines t.received ∧
      t.turnDirection = (completeLines t.received).foldl ClientProcess.turn .straight) := by
  have hok : ((guiMachine.exec splitCommand .new).toOption.any fun t =>
      decide (t.turnDirection = .left ∧ ∀ g ∈ visited (guiMachine.trace splitCommand .new) t,
        g.guiSock.inBuffer.length < 2 ^ 32)) = true := by decide +kernel
  obtain ⟨t, hexec, hleft, hsmall⟩ := exists_exec_of_any hok
  exact ⟨_, t, run_trace hexec, hleft, guiMachine_lines rfl (run_trace hexec) hsmall⟩

/-! ## Writing -/

/-- What has been written and what is in the buffer is what was to be written. -/
def OutputKept (g : GuiConnection) : Prop := g.written ++ g.guiSock.outBuffer = g.queued

/-- Reading does not touch it. -/
theorem OutputKept.readUpdateFromGui (rounds : ℕ) (g : GuiConnection) (h : OutputKept g)
    (hread : g.readUpdateFromGui result rounds = .ok t) : OutputKept t := by
  refine readUpdateFromGui_induction (P := OutputKept) ?_ ?_ rounds g h hread
  · intro g guiSock h hsock
    rw [OutputKept, outBuffer_readline hsock]
    exact h
  · intro g line guiSock h hsock
    rw [OutputKept, outBuffer_readline hsock]
    exact h

theorem invariant_outputKept : guiMachine.Invariant OutputKept where
  init := by
    intro g hg
    rw [show g = .new from hg]
    rfl
  step := by
    intro g op t _ hkept hstep
    cases op with
    | writeData data =>
      cases hstep
      show g.written ++ (g.guiSock.outBuffer ++ data) = g.queued ++ data
      rw [← List.append_assoc, hkept]
    | flushOutgoing result =>
      rcases flushOutgoing_cases result g with ⟨heq, -⟩ | ⟨written, left, happend, heq⟩
      · cases heq.symm.trans hstep
      · cases heq.symm.trans hstep
        show g.written ++ written ++ left = g.queued
        rw [List.append_assoc, happend, hkept]
    | readUpdateFromGui result => exact hkept.readUpdateFromGui _ g hstep

/-- **What has been written**, followed by what is in the buffer, is the data that `writeData` has
been called with, whatever `write` takes. A flush fails only when the client exits. -/
theorem guiMachine_written (h : guiMachine.Reachable g) :
    g.written ++ g.guiSock.outBuffer = g.queued ∧ ∀ result ≠ WriteResult.brokenPipe,
      ∃ t, guiMachine.step (.flushOutgoing result) g = .ok t := by
  refine ⟨invariant_outputKept.reachable h, fun result hresult => ?_⟩
  rcases flushOutgoing_cases result g with ⟨-, heq⟩ | ⟨written, left, -, heq⟩
  · exact absurd heq hresult
  · exact ⟨_, heq⟩

/-- Eight bytes, five of which are taken in two pieces. -/
theorem guiMachine_written_five : ∃ g, guiMachine.Reachable g ∧ g.written = [1, 2, 3, 4, 5] ∧
    g.written ++ g.guiSock.outBuffer = g.queued ∧ ∀ result ≠ WriteResult.brokenPipe,
      ∃ t, guiMachine.step (.flushOutgoing result) g = .ok t := by
  obtain ⟨g, hg, hwritten⟩ := (Reachable.init rfl).exists_of_exec (M := guiMachine)
    (P := fun g => g.written = [1, 2, 3, 4, 5]) (s := .new)
    [.writeData [1, 2, 3, 4, 5, 6], .flushOutgoing (.takes 2), .writeData [7, 8],
      .flushOutgoing .failed, .flushOutgoing (.takes 3)] (by decide +kernel)
  exact ⟨g, hg, hwritten, guiMachine_written hg⟩

end ScreenWorms
