import Mathlib.Data.Finset.Insert
import ScreenWorms.Common.PlayerNames
import ScreenWorms.ForStd.Machine

/-!
# The client's view of a game

What the client does with a decoded server message: `processMessageFromServer` and the functions it
calls. Sockets, the timer and the messages to the server are left out. A process that ends, or goes
wrong, is a fault of the model.

`clientMachine` processes one message after another, and keeps the lines that the graphical
interface has been sent since the client entered its current game.

## Main definitions

* `Client`, `Client.processMessageFromServer`
* `clientMachine`

## Main results

* `readInEventsListOfCurrentGame_eq_ok` — what reading in valid events stores
* `find?_store_eq` — the first event that came with a number is kept
* `skipStored_spec`, `skipStored_not_mem` — the client skips the events it has got
* `writePending_eq_ok` — the lines it writes
-/

namespace ScreenWorms

/-- Why the client ends. -/
inductive ClientFault
  /-- `exit(EXIT_FAILURE)` in `validateEvent`. -/
  | exit
  /-- An `EncoderDecoderError` reaches `readMessageFromServer`, which exits. -/
  | decoderError
  /-- `events.find(nextEventToSendNo)` is `end()`. -/
  | missingEvent
  /-- `eventToMessageForGui` does not find a name. -/
  | missingName
deriving DecidableEq

/-- The members of `Client` that server messages are about. -/
structure Client where
  events : SortedMap ℕ ReceivedEvent
  nextWantedEventNo : ℕ
  nextEventToSendNo : ℕ
  seenGameIds : Finset ℕ
  gameId : ℤ
  playersInGame : ℕ
  maxx : ℕ
  maxy : ℕ
  playerNames : SortedMap ℕ PlayerName
deriving DecidableEq

namespace Client

/-- The client as constructed. The arguments are what the memory of members that the constructor
leaves alone held before. -/
def new (unsetWanted unsetToSend unsetPlayers unsetMaxx unsetMaxy : ℕ) : Client where
  events := ∅
  nextWantedEventNo := unsetWanted
  nextEventToSendNo := unsetToSend
  seenGameIds := ∅
  gameId := -1
  playersInGame := unsetPlayers
  maxx := unsetMaxx
  maxy := unsetMaxy
  playerNames := ∅

/-- `Client::validateEvent` returns. -/
def validateEvent (event : ReceivedEvent) (c : Client) : Bool :=
  validEvent c.maxx c.maxy c.playersInGame event

/-- `Client::readInEventsListOfCurrentGame`. -/
def readInEventsListOfCurrentGame : List ReceivedEvent → Client → Except ClientFault Client
  | [], c => .ok c
  | event :: rest, c =>
    if c.validateEvent event then
      readInEventsListOfCurrentGame rest
        (if event.eventNo ∈ c.events then c
          else { c with events := c.events.insert event.eventNo event })
    else .error .exit

/-- The first `NEW_GAME` event of a message. -/
def firstNewGame : List ReceivedEvent → Option (ReceivedEvent × EventNewGame)
  | [] => none
  | event :: rest =>
    match event.eventData with
    | some (.newGame newGame) => some (event, newGame)
    | _ => firstNewGame rest

/-- What the client forgets when it enters a game. -/
def enter (gameId : ℕ) (c : Client) : Client :=
  { c with
    gameId := gameId
    seenGameIds := insert gameId c.seenGameIds
    playersInGame := 0
    nextWantedEventNo := 0
    nextEventToSendNo := 0
    events := ∅ }

/-- `Client::processMessageFromServerWithMismatchedGameId`. -/
def processMessageFromServerWithMismatchedGameId (msg : ReceivedMessage) (c : Client) :
    Except ClientFault Client :=
  if msg.gameId ∈ c.seenGameIds then .ok c
  else
    let c := c.enter msg.gameId
    match firstNewGame msg.events with
    | none => .ok c
    | some (event, newGame) =>
      if c.validateEvent event then
        match newGame.parsedPlayers with
        | .error _ => .error .decoderError
        | .ok playerNames =>
          readInEventsListOfCurrentGame msg.events { c with
            maxx := newGame.maxx
            maxy := newGame.maxy
            playerNames := playerNames
            playersInGame := toUInt8 playerNames.size }
      else .error .exit

/-- `while (events.find(no) != events.end()) no++`. As long as there are fewer than `2 ^ 32` events,
as many rounds as there are events are enough. -/
def skipStored (events : SortedMap ℕ ReceivedEvent) : ℕ → ℕ → ℕ
  | 0, no => no
  | fuel + 1, no => if no ∈ events then skipStored events fuel (toUInt32 (no + 1)) else no

/-- The lines of the events with the given numbers. -/
def writeLines (c : Client) : List ℕ → Except ClientFault (List (List Byte))
  | [] => .ok []
  | no :: rest =>
    match c.events.find? no with
    | none => .error .missingEvent
    | some event =>
      match eventToMessageForGui event c.playerNames with
      | none => .error .missingName
      | some line =>
        match writeLines c rest with
        | .ok lines => .ok (line :: lines)
        | .error e => .error e

/-- The loops at the end of `processMessageFromServer`: the lines written, and the client after. -/
def writePending (c : Client) : Except ClientFault (List (List Byte) × Client) :=
  let c := { c with
    nextWantedEventNo := skipStored c.events c.events.size c.nextWantedEventNo }
  match c.writeLines (List.range' c.nextEventToSendNo
      (c.nextWantedEventNo - c.nextEventToSendNo)) with
  | .error e => .error e
  | .ok lines =>
    .ok (lines, { c with nextEventToSendNo := max c.nextEventToSendNo c.nextWantedEventNo })

/-- `Client::processMessageFromServer`: the lines written, and the client after. -/
def processMessageFromServer (msg : ReceivedMessage) (c : Client) :
    Except ClientFault (List (List Byte) × Client) :=
  match if (msg.gameId : ℤ) ≠ c.gameId then c.processMessageFromServerWithMismatchedGameId msg
    else readInEventsListOfCurrentGame msg.events c with
  | .error e => .error e
  | .ok c => c.writePending

/-! ## What the functions do -/

variable {c : Client} {es : List ReceivedEvent} {events : SortedMap ℕ ReceivedEvent}

/-- The stored events once those of a message have been read in. -/
def store (es : List ReceivedEvent) (events : SortedMap ℕ ReceivedEvent) :
    SortedMap ℕ ReceivedEvent :=
  es.foldl (fun events event => events.insert event.eventNo event) events

theorem readInEventsListOfCurrentGame_eq_ok (h : ∀ e ∈ es, c.validateEvent e = true) :
    readInEventsListOfCurrentGame es c = .ok { c with events := store es c.events } := by
  induction es generalizing c with
  | nil => rfl
  | cons e es ih =>
    have hinsert : (if e.eventNo ∈ c.events then c
        else { c with events := c.events.insert e.eventNo e }) =
        { c with events := c.events.insert e.eventNo e } := by
      split
      · rename_i hmem
        rw [SortedMap.insert_of_mem hmem]
      · rfl
    have hrest : ∀ e' ∈ es, validateEvent e' { c with
        events := c.events.insert e.eventNo e } = true :=
      fun e' he' => h e' (List.mem_cons_of_mem _ he')
    rw [readInEventsListOfCurrentGame, if_pos (h e List.mem_cons_self), hinsert, ih hrest]
    rfl

theorem readInEventsListOfCurrentGame_eq_exit (h : ∃ e ∈ es, c.validateEvent e = false) :
    readInEventsListOfCurrentGame es c = .error .exit := by
  induction es generalizing c with
  | nil =>
    obtain ⟨e, he, -⟩ := h
    exact absurd he List.not_mem_nil
  | cons e es ih =>
    rw [readInEventsListOfCurrentGame]
    split
    · rename_i hvalid
      obtain ⟨e', he', hinvalid⟩ := h
      rcases List.mem_cons.mp he' with rfl | he'
      · rw [hvalid] at hinvalid
        cases hinvalid
      · refine ih ⟨e', he', ?_⟩
        split <;> exact hinvalid
    · rfl

/-- The first event that came with a number is kept. -/
theorem find?_store_eq (k : ℕ) : ∀ (es : List ReceivedEvent) (events : SortedMap ℕ ReceivedEvent),
    (store es events).find? k = (events.find? k).or (es.find? fun e => e.eventNo = k)
  | [], events => by
    rw [List.find?_nil, Option.or_none]
    rfl
  | e :: es, events => by
    show (store es (events.insert e.eventNo e)).find? k = _
    rw [find?_store_eq k es]
    by_cases hk : e.eventNo = k
    · subst hk
      rw [List.find?_cons_of_pos (by simp)]
      by_cases hmem : e.eventNo ∈ events
      · obtain ⟨e', he'⟩ := SortedMap.mem_iff_find?.mp hmem
        rw [SortedMap.insert_of_mem hmem, he', Option.some_or, Option.some_or]
      · rw [SortedMap.find?_insert hmem, if_pos rfl, SortedMap.find?_eq_none.mpr hmem,
          Option.some_or, Option.none_or]
    · rw [List.find?_cons_of_neg (by simpa using hk)]
      by_cases hmem : e.eventNo ∈ events
      · rw [SortedMap.insert_of_mem hmem]
      · rw [SortedMap.find?_insert hmem, if_neg (Ne.symm hk)]

theorem find?_store {k : ℕ} {e : ReceivedEvent} (h : (store es events).find? k = some e) :
    events.find? k = some e ∨ e ∈ es ∧ e.eventNo = k := by
  rw [find?_store_eq, Option.or_eq_some_iff] at h
  rcases h with h | ⟨-, h⟩
  · exact Or.inl h
  · exact Or.inr ⟨List.mem_of_find?_eq_some h, by simpa using List.find?_some h⟩

theorem mem_store {k : ℕ} : k ∈ store es events ↔ k ∈ events ∨ ∃ e ∈ es, e.eventNo = k := by
  rw [← not_iff_not, ← SortedMap.find?_eq_none, find?_store_eq, Option.or_eq_none_iff,
    SortedMap.find?_eq_none, List.find?_eq_none]
  simp

theorem skipStored_lt : ∀ fuel no, no < 2 ^ 32 → skipStored events fuel no < 2 ^ 32 := by
  intro fuel
  induction fuel with
  | zero => exact fun no hno => hno
  | succ fuel ih =>
    intro no hno
    rw [skipStored]
    split
    · exact ih _ (Nat.mod_lt _ (by decide))
    · exact hno

section Skip

-- some number is missing
variable {hole : ℕ} (hhole : hole < 2 ^ 32) (hmem : hole ∉ events)

include hhole hmem

/-- The loop only skips stored events. -/
theorem skipStored_spec : ∀ fuel no, no ≤ hole → no ≤ skipStored events fuel no ∧
    skipStored events fuel no ≤ hole ∧ ∀ k, no ≤ k → k < skipStored events fuel no → k ∈ events := by
  intro fuel
  induction fuel with
  | zero => exact fun no hno => ⟨le_rfl, hno, fun k hge hk => absurd hk (not_lt.mpr hge)⟩
  | succ fuel ih =>
    intro no hno
    rw [skipStored]
    split
    · rename_i hin
      have hne : no ≠ hole := fun heq => hmem (heq ▸ hin)
      rw [toUInt32_of_lt (by omega)]
      obtain ⟨hle, hhole', hall⟩ := ih (no + 1) (by omega)
      refine ⟨by omega, hhole', fun k hge hk => ?_⟩
      rcases Nat.eq_or_lt_of_le hge with rfl | hgt
      · exact hin
      · exact hall k hgt hk
    · exact ⟨le_rfl, hno, fun k hge hk => absurd hk (not_lt.mpr hge)⟩

/-- It goes on as long as there are rounds left. -/
theorem skipStored_stops : ∀ fuel no, no ≤ hole →
    skipStored events fuel no ∉ events ∨ skipStored events fuel no = no + fuel := by
  intro fuel
  induction fuel with
  | zero => exact fun no _ => Or.inr rfl
  | succ fuel ih =>
    intro no hno
    rw [skipStored]
    split
    · rename_i hin
      have hne : no ≠ hole := fun heq => hmem (heq ▸ hin)
      rw [toUInt32_of_lt (by omega)]
      exact (ih (no + 1) (by omega)).imp_right fun h => by omega
    · exact Or.inl (by assumption)

/-- **The loop** ends at the first number that is missing: there are rounds enough. -/
theorem skipStored_not_mem {no : ℕ} (hno : no ≤ hole) :
    skipStored events events.size no ∉ events := by
  intro hin
  obtain ⟨-, -, hall⟩ := skipStored_spec hhole hmem events.size no hno
  rcases skipStored_stops hhole hmem events.size no hno with hout | heq
  · exact hout hin
  · rw [heq] at hin hall
    have hsubset : List.range' no (events.size + 1) ⊆ events.keys := by
      intro k hk
      rw [List.mem_range'_1] at hk
      rcases Nat.lt_or_ge k (no + events.size) with hlt | hge
      · exact SortedMap.mem_keys.mpr (hall k hk.1 hlt)
      · rw [show k = no + events.size by omega]
        exact SortedMap.mem_keys.mpr hin
    have hle := (List.subperm_of_subset List.nodup_range' hsubset).length_le
    rw [List.length_range', SortedMap.length_keys] at hle
    omega

/-- It skips at least the first one. -/
theorem lt_skipStored {no : ℕ} (hno : no ∈ events) (hle : no ≤ hole) :
    no < skipStored events events.size no := by
  have hne : skipStored events events.size no ≠ no := fun heq =>
    skipStored_not_mem hhole hmem hle (heq.symm ▸ hno)
  have hge := (skipStored_spec hhole hmem events.size no hle).1
  omega

end Skip

/-- The line of the event with a given number. -/
def lineOf (c : Client) (no : ℕ) : Option (List Byte) :=
  (c.events.find? no).bind fun event => eventToMessageForGui event c.playerNames

theorem writeLines_eq_ok {nos : List ℕ} (h : ∀ no ∈ nos, (c.lineOf no).isSome = true) :
    ∃ lines, c.writeLines nos = .ok lines ∧ lines.map some = nos.map c.lineOf := by
  induction nos with
  | nil => exact ⟨[], rfl, rfl⟩
  | cons no nos ih =>
    obtain ⟨lines, hlines, hmap⟩ := ih fun no' hno' => h no' (List.mem_cons_of_mem _ hno')
    obtain ⟨line, hline⟩ := Option.isSome_iff_exists.mp (h no List.mem_cons_self)
    obtain ⟨event, hfind, hevent⟩ := Option.bind_eq_some_iff.mp hline
    refine ⟨line :: lines, ?_, ?_⟩
    · rw [writeLines, hfind]
      simp only [hevent, hlines]
    · rw [List.map_cons, List.map_cons, hmap, hline]

/-- The loops at the end write a line for each event up to the first that is missing. -/
theorem writePending_eq_ok {n : ℕ} (hn : skipStored c.events c.events.size c.nextWantedEventNo = n)
    (h : ∀ no, c.nextEventToSendNo ≤ no → no < n → (c.lineOf no).isSome = true) :
    ∃ lines, c.writePending = .ok (lines, { c with
        nextWantedEventNo := n
        nextEventToSendNo := max c.nextEventToSendNo n }) ∧
      lines.map some = (List.range' c.nextEventToSendNo (n - c.nextEventToSendNo)).map c.lineOf := by
  let c₁ : Client := { c with nextWantedEventNo := n }
  obtain ⟨lines, hlines, hmap⟩ := @writeLines_eq_ok c₁
    (List.range' c.nextEventToSendNo (n - c.nextEventToSendNo)) fun no hno => by
      rw [List.mem_range'_1] at hno
      exact h no hno.1 (by omega)
  refine ⟨lines, ?_, hmap⟩
  rw [writePending, hn]
  simp only [show writeLines { c with nextWantedEventNo := n }
    (List.range' c.nextEventToSendNo (n - c.nextEventToSendNo)) = .ok lines from hlines]

theorem nextWantedEventNo_of_writePending {out : List (List Byte)} {c' : Client}
    (h : c.writePending = .ok (out, c')) :
    c'.nextWantedEventNo = skipStored c.events c.events.size c.nextWantedEventNo := by
  rw [writePending] at h
  simp only at h
  split at h
  · cases h
  · cases h
    rfl

end Client

/-- A client, and the lines it has written since it entered its current game. -/
structure ClientRun where
  client : Client
  lines : List (List Byte)
deriving DecidableEq

/-- A client that gets one server message after another. -/
def clientMachine : Machine ClientRun ReceivedMessage ClientFault where
  init r := r.lines = [] ∧ ∃ unsetWanted unsetToSend unsetPlayers unsetMaxx unsetMaxy,
    r.client = .new unsetWanted unsetToSend unsetPlayers unsetMaxx unsetMaxy
  step msg r :=
    match r.client.processMessageFromServer msg with
    | .error e => .error e
    | .ok (lines, c) => .ok ⟨c, if c.gameId = r.client.gameId then r.lines ++ lines else lines⟩

end ScreenWorms
