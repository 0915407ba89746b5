import ScreenWorms.Common.Messages

/-!
# The buffers of a TCP socket

`TcpSocket` keeps what is still to be written in `outBuffer` and what has been read in `inBuffer`.
The results of `read` and `write` are arguments of the model.

`readline` looks for a newline without looking at the size of the buffer; `unreadNewlines` says that
there is one. `flushOutgoing` moves what is left to the front of the buffer it reads from.

## Main definitions

* `ReadResult`, `WriteResult`
* `TcpSocket`, `TcpSocket.readline`, `TcpSocket.writeData`, `TcpSocket.flushOutgoing`
* `completeLines`

## Main results

* `readline_eq_line`, `readline_eq_none` — what `readline` returns
* `shiftDown_eq` — the loop of `flushOutgoing`
* `flushOutgoing_eq` — what is written and what is left
-/

namespace ScreenWorms

/-- `'\n'`. -/
def newline : Byte := 10

/-- `TCP_BUFF_SIZE`. -/
def tcpBuffSize : ℕ := 1000

/-- What `read` does. -/
inductive ReadResult
  /-- There is nothing to read yet, or an error. -/
  | failed
  /-- The bytes that have been read. There are none if the peer has closed the connection. -/
  | yields (bytes : List Byte) (hlength : bytes.length ≤ tcpBuffSize)
deriving DecidableEq

/-- What `write` does. -/
inductive WriteResult
  /-- The peer has closed the connection: `EPIPE`. -/
  | brokenPipe
  /-- Another error. -/
  | failed
  /-- It takes as many bytes as there is room for. -/
  | takes (room : ℕ)
deriving DecidableEq

/-- Why there is no next state of a socket. -/
inductive SocketFault
  /-- `exit(EXIT_FAILURE)`. -/
  | exit
  /-- A buffer is read at a place behind its end. -/
  | outOfRange
  /-- A loop that does not end. -/
  | endless
deriving DecidableEq

/-- The bytes that have been read. -/
def ReadResult.bytes : ReadResult → List Byte
  | .failed => []
  | .yields bytes _ => bytes

/-- `TcpSocket`, without its descriptor. -/
structure TcpSocket where
  outBuffer : List Byte
  inBuffer : List Byte
  unreadNewlines : ℕ
deriving DecidableEq

namespace TcpSocket

/-- A socket as constructed. -/
def new : TcpSocket := ⟨[], [], 0⟩

/-- `TcpSocket::writeData`. -/
def writeData (data : List Byte) (s : TcpSocket) : TcpSocket :=
  { s with outBuffer := s.outBuffer ++ data }

/-- `TcpSocket::hasPendingOutgoingData`. -/
def hasPendingOutgoingData (s : TcpSocket) : Bool := !s.outBuffer.isEmpty

/-- `for (; i < leftInBuffer; i++) outBuffer[i] = outBuffer[offset + i]`, with the rounds that are
left. -/
def shiftDown (offset : ℕ) : ℕ → ℕ → List Byte → Except SocketFault (List Byte)
  | 0, _, outBuffer => .ok outBuffer
  | rounds + 1, i, outBuffer =>
    match outBuffer[offset + i]? with
    | none => .error .outOfRange
    | some c => shiftDown offset rounds (i + 1) (outBuffer.set i c)

/-- `TcpSocket::flushOutgoing`: the bytes that `write` takes, and the socket after. -/
def flushOutgoing (result : WriteResult) (s : TcpSocket) :
    Except SocketFault (List Byte × TcpSocket) :=
  if !s.hasPendingOutgoingData then .ok ([], s)
  else
    match result with
    | .brokenPipe => .error .exit
    | .failed => .ok ([], s)
    | .takes room =>
      let written := s.outBuffer.take room
      let offset := written.length
      if offset = s.outBuffer.length then .ok (written, { s with outBuffer := [] })
      else
        let leftInBuffer := s.outBuffer.length - offset
        match shiftDown offset leftInBuffer 0 s.outBuffer with
        | .error e => .error e
        | .ok outBuffer => .ok (written, { s with outBuffer := outBuffer.take leftInBuffer })

/-- `TcpSocket::hasAvailableLine`. -/
def hasAvailableLine (s : TcpSocket) : Bool := s.unreadNewlines > 0

/-- `for (unsigned i = 0;; i++)` until `inBuffer[i]` is a newline. If there is a round for every
place of the buffer and one more, then `i` has left the buffer or comes back to its start for
ever. -/
def scanNewline (inBuffer : List Byte) : ℕ → ℕ → Except SocketFault ℕ
  | 0, _ => .error .endless
  | rounds + 1, i =>
    match inBuffer[i]? with
    | none => .error .outOfRange
    | some c => if c ≠ newline then scanNewline inBuffer rounds (toUInt32 (i + 1)) else .ok i

/-- A byte that has been read is counted and kept. -/
def push (s : TcpSocket) (c : Byte) : TcpSocket :=
  { s with
    unreadNewlines := if c = newline then toUInt32 (s.unreadNewlines + 1) else s.unreadNewlines
    inBuffer := s.inBuffer ++ [c] }

/-- `TcpSocket::readline`, given the result of `read` if it is called: the line if there is one, and
the socket after. -/
def readline (result : ReadResult) (s : TcpSocket) :
    Except SocketFault (Option (List Byte) × TcpSocket) :=
  if s.hasAvailableLine then
    match scanNewline s.inBuffer (s.inBuffer.length + 1) 0 with
    | .error e => .error e
    | .ok i => .ok (some (s.inBuffer.take i), { s with
        inBuffer := s.inBuffer.drop (i + 1)
        unreadNewlines := s.unreadNewlines - 1 })
  else
    match result with
    | .failed => .ok (none, s)
    | .yields [] _ => .error .exit
    | .yields (c :: cs) _ => .ok (none, (c :: cs).foldl push s)

/-! ## Writing -/

variable {s s' : TcpSocket}

/-- **The loop** has moved the first `i` bytes, and has not touched any that it is still going to
read. -/
theorem shiftDown_eq (offset : ℕ) (old : List Byte) : ∀ rounds i, offset + i + rounds = old.length →
    shiftDown offset rounds i ((old.drop offset).take i ++ old.drop i) =
      .ok (old.drop offset ++ old.drop (old.length - offset)) := by
  intro rounds
  induction rounds with
  | zero =>
    intro i hi
    rw [shiftDown, List.take_of_length_le (by rw [List.length_drop]; omega),
      show old.length - offset = i by omega]
  | succ rounds ih =>
    intro i hi
    have hmoved : ((old.drop offset).take i).length = i := by
      rw [List.length_take, List.length_drop]
      omega
    have hinside : offset + i < old.length := by omega
    have hread : ((old.drop offset).take i ++ old.drop i)[offset + i]? = some old[offset + i] := by
      rw [List.getElem?_append_right (by omega), hmoved, Nat.add_sub_cancel, List.getElem?_drop,
        Nat.add_comm i offset, List.getElem?_eq_getElem]
    have hwrite : ((old.drop offset).take i ++ old.drop i).set i old[offset + i] =
        (old.drop offset).take (i + 1) ++ old.drop (i + 1) := by
      rw [List.set_append_right _ _ (by omega), hmoved, Nat.sub_self,
        List.drop_eq_getElem_cons (show i < old.length by omega), List.set_cons_zero,
        List.take_add_one, List.getElem?_drop, List.getElem?_eq_getElem hinside,
        Option.toList_some, List.append_assoc]
      rfl
    rw [shiftDown, hread]
    simp only [hwrite]
    exact ih (i + 1) (by omega)

/-- **Flushing**: what is written is taken from the front of the buffer. -/
theorem flushOutgoing_eq (result : WriteResult) (s : TcpSocket) :
    s.flushOutgoing result = .error .exit ∧ result = .brokenPipe ∨
    ∃ written left, s.flushOutgoing result = .ok (written, { s with outBuffer := left }) ∧
      written ++ left = s.outBuffer := by
  unfold flushOutgoing
  split
  · exact Or.inr ⟨[], s.outBuffer, rfl, rfl⟩
  · cases result with
    | brokenPipe => exact Or.inl ⟨rfl, rfl⟩
    | failed => exact Or.inr ⟨[], s.outBuffer, rfl, rfl⟩
    | takes room =>
      right
      simp only
      have hprefix := List.take_prefix room s.outBuffer
      split
      · rename_i hall
        refine ⟨_, [], rfl, ?_⟩
        rw [List.append_nil]
        exact hprefix.eq_of_length hall
      · have hlength := hprefix.length_le
        have htake := List.prefix_iff_eq_take.mp hprefix
        generalize (s.outBuffer.take room).length = offset at hlength htake
        have hshift := shiftDown_eq offset s.outBuffer
          (s.outBuffer.length - offset) 0 (by omega)
        rw [List.take_zero, List.nil_append, List.drop_zero] at hshift
        rw [hshift]
        refine ⟨_, _, rfl, ?_⟩
        rw [List.take_left' (List.length_drop ..), htake, List.take_append_drop]

/-! ## Reading -/

/-- The pieces of a stream that end with a newline, without it. -/
def completeLines (stream : List Byte) : List (List Byte) :=
  (stream.splitOnP (· = newline)).dropLast

section CompleteLines

variable {line rest : List Byte} {lines : List (List Byte)}

theorem forall_ne_newline (hline : newline ∉ line) :
    ∀ c ∈ line, decide (c = newline) = false := by
  intro c hc
  rw [decide_eq_false_iff_not]
  exact fun heq => hline (heq ▸ hc)

theorem completeLines_append_cons (hline : newline ∉ line) (rest : List Byte) :
    completeLines (line ++ newline :: rest) = line :: completeLines rest := by
  have hsplit := List.splitOnP_append_cons_of_forall_mem (forall_ne_newline hline) newline
    (by decide) rest
  rw [completeLines, hsplit, List.dropLast_cons_of_ne_nil (List.splitOnP_ne_nil _ _), completeLines]

theorem completeLines_of_not_mem (hrest : newline ∉ rest) : completeLines rest = [] := by
  rw [completeLines, List.splitOnP_eq_singleton (forall_ne_newline hrest), List.dropLast_singleton]

/-- The lines are there, one after another, and then the rest. -/
theorem completeLines_flatMap (hlines : ∀ line ∈ lines, newline ∉ line) (rest : List Byte) :
    completeLines (lines.flatMap (· ++ [newline]) ++ rest) = lines ++ completeLines rest := by
  induction lines with
  | nil => rfl
  | cons line lines ih =>
    have ih := ih fun l hl => hlines l (List.mem_cons_of_mem _ hl)
    rw [List.flatMap_cons, List.append_assoc, List.append_assoc, List.singleton_append,
      completeLines_append_cons (hlines line List.mem_cons_self), ih, List.cons_append]

end CompleteLines

/-- `unreadNewlines` counts the newlines that are in the buffer. -/
def Counted (s : TcpSocket) : Prop := s.unreadNewlines = s.inBuffer.count newline

/-- The scan stops at the first newline. -/
theorem scanNewline_eq_ok {l rest : List Byte} (hl : newline ∉ l)
    (hsmall : (l ++ newline :: rest).length < 2 ^ 32) : ∀ rounds i, i ≤ l.length →
    l.length < i + rounds → scanNewline (l ++ newline :: rest) rounds i = .ok l.length := by
  intro rounds
  induction rounds with
  | zero =>
    intro i hle hlt
    omega
  | succ rounds ih =>
    intro i hle hlt
    rw [List.length_append, List.length_cons] at hsmall
    rw [scanNewline]
    rcases Nat.lt_or_eq_of_le hle with hbefore | rfl
    · rw [List.getElem?_append_left hbefore, List.getElem?_eq_getElem hbefore]
      have hne : l[i] ≠ newline := fun heq => hl (heq ▸ List.getElem_mem hbefore)
      simp only [ne_eq, hne, not_false_eq_true, if_true]
      rw [toUInt32_of_lt (by omega)]
      exact ih (i + 1) (by omega) (by omega)
    · rw [List.getElem?_append_right le_rfl, Nat.sub_self, List.getElem?_cons_zero]
      simp only [ne_eq, not_true_eq_false, if_false]

/-- **A line is there**: `readline` returns it. -/
theorem readline_eq_line {line rest : List Byte} (hcounted : s.Counted) (hline : newline ∉ line)
    (hbuffer : s.inBuffer = line ++ newline :: rest) (hsmall : s.inBuffer.length < 2 ^ 32)
    (result : ReadResult) : s.readline result = .ok (some line, { s with
      inBuffer := rest
      unreadNewlines := rest.count newline }) := by
  have hcount : s.unreadNewlines = rest.count newline + 1 := by
    rw [hcounted, hbuffer, List.count_append, List.count_eq_zero.mpr hline, List.count_cons_self,
      Nat.zero_add]
  have havailable : s.hasAvailableLine = true := by
    rw [hasAvailableLine, hcount]
    exact decide_eq_true (Nat.succ_pos _)
  rw [hbuffer] at hsmall
  have hscan := scanNewline_eq_ok hline hsmall (s.inBuffer.length + 1) 0 (Nat.zero_le _) (by
    rw [hbuffer, List.length_append]
    omega)
  rw [← hbuffer] at hscan
  unfold readline
  rw [if_pos havailable, hscan, hcount, Nat.add_sub_cancel, hbuffer]
  simp only [List.take_left, Except.ok.injEq, Prod.mk.injEq, true_and]
  rw [List.append_cons, List.drop_left' (by rw [List.length_append, List.length_singleton])]

theorem inBuffer_foldl_push (bytes : List Byte) : ∀ s : TcpSocket,
    (bytes.foldl push s).inBuffer = s.inBuffer ++ bytes := by
  induction bytes with
  | nil => exact fun s => (List.append_nil _).symm
  | cons c cs ih =>
    intro s
    rw [List.foldl_cons, ih, push, List.append_assoc, List.singleton_append]

/-- The bytes that have been read are counted. -/
theorem foldl_push (bytes : List Byte) : ∀ s : TcpSocket, s.Counted →
    (s.inBuffer ++ bytes).length < 2 ^ 32 → bytes.foldl push s = { s with
      inBuffer := s.inBuffer ++ bytes
      unreadNewlines := (s.inBuffer ++ bytes).count newline } := by
  induction bytes with
  | nil =>
    intro s hcounted hsmall
    rw [List.append_nil, ← hcounted]
    rfl
  | cons c cs ih =>
    intro s hcounted hsmall
    have hle := List.count_le_length (a := newline) (l := s.inBuffer)
    rw [List.length_append, List.length_cons] at hsmall
    let s' : TcpSocket := { s with
      inBuffer := s.inBuffer ++ [c]
      unreadNewlines := (s.inBuffer ++ [c]).count newline }
    have hpush : push s c = s' := by
      show push s c = TcpSocket.mk _ _ _
      rw [push, hcounted, List.count_append, List.count_singleton]
      by_cases hc : c = newline
      · rw [if_pos hc, hc, toUInt32_of_lt (by omega)]
        rfl
      · rw [if_neg hc]
        simp [hc]
    rw [List.foldl_cons, hpush, ih s' rfl]
    · simp only [s', List.append_assoc, List.singleton_append]
    · simp only [s', List.length_append, List.length_singleton]
      omega

/-- **No line is there**: `readline` reads. -/
theorem readline_eq_none (hcounted : s.Counted) (hno : newline ∉ s.inBuffer)
    (result : ReadResult) : s.readline result = .error .exit ∧ (∃ h, result = .yields [] h) ∨
    s.readline result = .ok (none, result.bytes.foldl push s) := by
  have hnone : s.hasAvailableLine = false := by
    rw [hasAvailableLine, hcounted, List.count_eq_zero.mpr hno]
    rfl
  unfold readline
  rw [hnone, if_neg Bool.false_ne_true]
  rcases result with - | ⟨_ | ⟨c, cs⟩, hlength⟩
  · exact Or.inr rfl
  · exact Or.inl ⟨rfl, hlength, rfl⟩
  · exact Or.inr rfl

theorem outBuffer_foldl_push (bytes : List Byte) : ∀ s : TcpSocket,
    (bytes.foldl push s).outBuffer = s.outBuffer := by
  induction bytes with
  | nil => exact fun s => rfl
  | cons c cs ih => exact fun s => ih (s.push c)

/-- Reading leaves alone what is still to be written. -/
theorem outBuffer_readline {result : ReadResult} {line : Option (List Byte)}
    (h : s.readline result = .ok (line, s')) : s'.outBuffer = s.outBuffer := by
  unfold readline at h
  split at h
  · split at h
    · cases h
    · cases h
      rfl
  · split at h
    · cases h
      rfl
    · cases h
    · cases h
      exact outBuffer_foldl_push _ s

end TcpSocket

end ScreenWorms
