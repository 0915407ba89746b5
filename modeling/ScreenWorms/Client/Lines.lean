import ScreenWorms.Client.Client

/-!
# What the client shows of a history of games

The server's side of the story is a list of games, each with the log of its events (`EventLog`); the
network may lose, repeat and reorder datagrams, so the client gets any sequence of slices of these
logs. `Shows` says that the client is in one of the games, has stored events of its log only, and
has written the first lines of it.

The settings of a game are installed only by the datagram that the game is entered with. A client
that has entered a game without its `NEW_GAME` event takes every pixel for invalid, and writes a
late `NEW_GAME` with the names of an earlier game. `Harmless` says which datagrams such a client can
take.

## Main definitions

* `EventLog`, `IsSlice`
* `Harmless`
* `Shows`, `Shown`

## Main results

* `Shows.readIn`, `shows_enter`, `Shows.writePending` — what one datagram does
* `clientMachine_shown_iff` — when the client goes on and shows what happened
-/

namespace ScreenWorms

open Client

/-! ## Histories -/

/-- Events with their places as event numbers. -/
def withNumbers (events : List GameEventVariant) : List ReceivedEvent :=
  events.zipIdx.map fun p => ⟨p.2, some p.1⟩

theorem getElem?_withNumbers (events : List GameEventVariant) (no : ℕ) :
    (withNumbers events)[no]? = events[no]?.map fun e => ⟨no, some e⟩ := by
  simp [withNumbers, List.getElem?_zipIdx, Function.comp_def]

theorem getElem?_of_mem_withNumbers {events : List GameEventVariant} {e : ReceivedEvent}
    (h : e ∈ withNumbers events) : (withNumbers events)[e.eventNo]? = some e := by
  obtain ⟨no, hno⟩ := List.mem_iff_getElem?.mp h
  have hno' := hno
  rw [getElem?_withNumbers, Option.map_eq_some_iff] at hno'
  obtain ⟨v, -, rfl⟩ := hno'
  exact hno

/-- The log of a game: `NEW_GAME`, and later events that are valid for it. -/
structure EventLog where
  gameId : ℕ
  newGame : EventNewGame
  later : List GameEventVariant
  /-- The names of its players. -/
  names : SortedMap ℕ PlayerName
  parsed : newGame.parsedPlayers = .ok names
  valid : ∀ e ∈ withNumbers (.newGame newGame :: later),
    validEvent newGame.maxx newGame.maxy (toUInt8 names.size) e = true
  /-- Event numbers are 32-bit numbers. -/
  length_lt : later.length + 1 < 2 ^ 32

namespace EventLog

def events (log : EventLog) : List ReceivedEvent := withNumbers (.newGame log.newGame :: log.later)

/-- The log as lines, with the names of its own `NEW_GAME`. -/
def rendered (log : EventLog) : List (Option (List Byte)) :=
  log.events.map fun e => eventToMessageForGui e log.names

theorem length_events_lt (log : EventLog) : log.events.length < 2 ^ 32 := by
  simpa [events, withNumbers] using log.length_lt

theorem isSome_rendered {log : EventLog} {e : ReceivedEvent} (h : e ∈ log.events) :
    (eventToMessageForGui e log.names).isSome = true :=
  isSome_eventToMessageForGui (mem_parsedPlayers log.parsed) (log.valid e h)

/-- The log has one `NEW_GAME` event, the first one. -/
theorem eq_newGame {log : EventLog} {e : ReceivedEvent} (h : e ∈ log.events) {newGame : EventNewGame}
    (he : e.eventData = some (.newGame newGame)) : e.eventNo = 0 ∧ newGame = log.newGame := by
  have hvalid := log.valid e h
  rw [validEvent, he] at hvalid
  have hno : e.eventNo = 0 := by
    cases hparsed : newGame.parsedPlayers <;> simp [hparsed] at hvalid
    exact hvalid.1
  have hget := getElem?_of_mem_withNumbers h
  rw [hno, getElem?_withNumbers, List.getElem?_cons_zero, Option.map_some, Option.some.injEq] at hget
  rw [← hget] at he
  cases he
  exact ⟨hno, rfl⟩

end EventLog

/-- A datagram with a contiguous part of a log. -/
def IsSlice (msg : ReceivedMessage) (log : EventLog) : Prop :=
  msg.gameId = log.gameId ∧ msg.events <:+: log.events

theorem IsSlice.mem {msg : ReceivedMessage} {log : EventLog} (h : IsSlice msg log)
    {e : ReceivedEvent} (he : e ∈ msg.events) : e ∈ log.events := h.2.subset he

/-! ## Datagrams without settings -/

/-- An event that a client without the settings of the game can take. -/
def HarmlessEvent (playerNames : SortedMap ℕ PlayerName) (e : ReceivedEvent) : Prop :=
  match e.eventData with
  | some (.newGame newGame) => ∀ names, newGame.parsedPlayers = .ok names →
    listedNames playerNames = listedNames names
  | some (.pixel _) => False
  | some (.playerEliminated _) => False
  | _ => True

/-- If the client has entered the game of the datagram without its settings, the datagram has no
`PIXEL` and no `PLAYER_ELIMINATED`, and a `NEW_GAME` only if it lists the names the client knows
already. -/
def Harmless (msg : ReceivedMessage) (c : Client) : Prop :=
  (msg.gameId : ℤ) = c.gameId → c.playersInGame = 0 →
    ∀ e ∈ msg.events, HarmlessEvent c.playerNames e

/-- What is valid without players is valid with any settings. -/
theorem validEvent_of_zero (maxx' maxy' : ℕ) {maxx maxy playersInGame : ℕ} {e : ReceivedEvent}
    (h : validEvent maxx maxy 0 e = true) : validEvent maxx' maxy' playersInGame e = true := by
  rw [validEvent] at h ⊢
  split at h <;> simp_all

/-- A harmless event of a log is valid for a client without its settings. -/
theorem HarmlessEvent.valid {playerNames : SortedMap ℕ PlayerName} {e : ReceivedEvent}
    (h : HarmlessEvent playerNames e) {maxx maxy playersInGame maxx' maxy' playersInGame' : ℕ}
    (hvalid : validEvent maxx maxy playersInGame e = true) :
    validEvent maxx' maxy' playersInGame' e = true := by
  rw [HarmlessEvent] at h
  rw [validEvent] at hvalid ⊢
  split at h <;> simp_all

/-- It is written as it should be. -/
theorem HarmlessEvent.line {playerNames : SortedMap ℕ PlayerName} {e : ReceivedEvent}
    (h : HarmlessEvent playerNames e) {log : EventLog} (he : e ∈ log.events) :
    eventToMessageForGui e playerNames = eventToMessageForGui e log.names := by
  obtain ⟨no, data⟩ := e
  rcases data with _ | (newGame | pixel | eliminated | _)
  · rfl
  · obtain ⟨-, rfl⟩ := EventLog.eq_newGame he rfl
    simp only [eventToMessageForGui, h log.names log.parsed]
  · exact absurd h id
  · exact absurd h id
  · rfl

/-! ## The invariant -/

/-- The settings of the game are those of its log. -/
structure Installed (log : EventLog) (c : Client) : Prop where
  playersInGame : c.playersInGame = toUInt8 log.names.size
  maxx : c.maxx = log.newGame.maxx
  maxy : c.maxy = log.newGame.maxy
  playerNames : c.playerNames = log.names

/-- The client is in the game of `log`, and has written its first lines. -/
structure Shows (log : EventLog) (c : Client) (lines : List (List Byte)) : Prop where
  gameId : c.gameId = log.gameId
  /-- What is stored belongs to the log, and will be written as it should be. -/
  stored : ∀ no e, c.events.find? no = some e → log.events[no]? = some e ∧
    eventToMessageForGui e c.playerNames = eventToMessageForGui e log.names
  /-- The client has everything it does not want any more. -/
  before : ∀ no < c.nextWantedEventNo, no ∈ c.events
  sent : c.nextEventToSendNo = c.nextWantedEventNo
  lines : lines.map some = log.rendered.take c.nextWantedEventNo
  /-- The settings are those of the game, or there are none. -/
  settled : c.playersInGame = 0 ∨ Installed log c

/-- The client knows the names of players by their numbers. -/
def NamesNumbered (c : Client) : Prop := ∀ i, i ∈ c.playerNames ↔ i < c.playerNames.size

variable {log : EventLog} {c : Client} {lines : List (List Byte)} {msg : ReceivedMessage}

/-- A part of a list, given by its places. -/
theorem take_append_map_range' {α : Type} {l : List α} {f : ℕ → α} {m n : ℕ} (hle : m ≤ n)
    (h : ∀ i, m ≤ i → i < n → l[i]? = some (f i)) :
    l.take m ++ (List.range' m (n - m)).map f = l.take n := by
  induction n, hle using Nat.le_induction with
  | base => simp
  | succ n hle ih =>
    have ih := ih fun i hge hlt => h i hge (by omega)
    rw [Nat.succ_sub hle, List.range'_1_concat, List.map_append, ← List.append_assoc, ih,
      List.take_add_one, show m + (n - m) = n by omega, h n hle (by omega)]
    rfl

/-- Nothing is stored behind the end of the log. -/
theorem Shows.not_mem (h : Shows log c lines) : log.events.length ∉ c.events := by
  intro hin
  obtain ⟨e, he⟩ := SortedMap.mem_iff_find?.mp hin
  exact absurd (List.getElem?_eq_some_iff.mp (h.stored _ e he).1).1 (lt_irrefl _)

theorem Shows.nextWantedEventNo_le (h : Shows log c lines) :
    c.nextWantedEventNo ≤ log.events.length := by
  by_contra hlt
  exact h.not_mem (h.before _ (not_le.mp hlt))

/-- **Writing** goes on with the lines of the log. -/
theorem Shows.writePending (h : Shows log c lines) : ∃ out c',
    c.writePending = .ok (out, c') ∧ c'.gameId = c.gameId ∧ c'.playerNames = c.playerNames ∧
    Shows log c' (lines ++ out) := by
  have hwanted := h.nextWantedEventNo_le
  obtain ⟨hle, -, hskip⟩ := skipStored_spec log.length_events_lt h.not_mem c.events.size
    c.nextWantedEventNo hwanted
  generalize hn : skipStored c.events c.events.size c.nextWantedEventNo = n at hle hskip
  have hline : ∀ no, c.nextWantedEventNo ≤ no → no < n →
      log.rendered[no]? = some (c.lineOf no) ∧ (c.lineOf no).isSome = true := by
    intro no hge hlt
    obtain ⟨e, he⟩ := SortedMap.mem_iff_find?.mp (hskip no hge hlt)
    obtain ⟨hget, hrender⟩ := h.stored no e he
    have hlineOf : c.lineOf no = eventToMessageForGui e log.names := by
      rw [lineOf, he]
      exact hrender
    rw [hlineOf, EventLog.rendered, List.getElem?_map, hget]
    exact ⟨rfl, EventLog.isSome_rendered (List.mem_of_getElem? hget)⟩
  obtain ⟨out, hout, hmap⟩ := writePending_eq_ok hn fun no hge hlt =>
    (hline no (h.sent ▸ hge) hlt).2
  refine ⟨out, _, hout, rfl, rfl, ?_⟩
  refine
    { gameId := h.gameId
      stored := h.stored
      before := fun no hno => ?_
      sent := ?_
      lines := ?_
      settled := h.settled.imp id fun hi => ⟨hi.playersInGame, hi.maxx, hi.maxy, hi.playerNames⟩ }
  · rcases Nat.lt_or_ge no c.nextWantedEventNo with hlt | hge
    · exact h.before no hlt
    · exact hskip no hge hno
  · show max c.nextEventToSendNo n = n
    rw [h.sent]
    exact max_eq_right hle
  · rw [List.map_append, h.lines, hmap, h.sent]
    exact take_append_map_range' hle fun no hge hlt => (hline no hge hlt).1

/-- **A datagram of the current game** is read in. -/
theorem Shows.readIn (h : Shows log c lines) (hslice : IsSlice msg log)
    (hharmless : Harmless msg c) :
    ∃ c', readInEventsListOfCurrentGame msg.events c = .ok c' ∧ c'.gameId = c.gameId ∧
      c'.playerNames = c.playerNames ∧ Shows log c' lines := by
  have hid : (msg.gameId : ℤ) = c.gameId := by rw [h.gameId, hslice.1]
  have hevent : ∀ e ∈ msg.events, c.validateEvent e = true ∧
      eventToMessageForGui e c.playerNames = eventToMessageForGui e log.names := by
    intro e he
    have hmem := hslice.mem he
    rcases h.settled with hzero | hi
    · have hharm := hharmless hid hzero e he
      exact ⟨hharm.valid (log.valid e hmem), hharm.line hmem⟩
    · rw [validateEvent, hi.playersInGame, hi.maxx, hi.maxy, hi.playerNames]
      exact ⟨log.valid e hmem, rfl⟩
  refine ⟨_, readInEventsListOfCurrentGame_eq_ok fun e he => (hevent e he).1, rfl, rfl,
    { gameId := h.gameId
      stored := fun no e hfind => ?_
      before := fun no hno => mem_store.mpr (Or.inl (h.before no hno))
      sent := h.sent
      lines := h.lines
      settled := h.settled.imp id fun hi =>
        ⟨hi.playersInGame, hi.maxx, hi.maxy, hi.playerNames⟩ }⟩
  rcases find?_store hfind with hfind | ⟨he, rfl⟩
  · exact h.stored no e hfind
  · exact ⟨getElem?_of_mem_withNumbers (hslice.mem he), (hevent e he).2⟩

/-- A client with the settings of a game can take every datagram of it. -/
theorem Installed.harmless (h : Installed log c) (hslice : IsSlice msg log) : Harmless msg c := by
  intro _ hzero e he
  have hmem := hslice.mem he
  have hvalid := log.valid e hmem
  have hsize : toUInt8 log.names.size = 0 := h.playersInGame.symm.trans hzero
  obtain ⟨no, data⟩ := e
  rcases data with _ | (newGame | pixel | eliminated | _)
  · trivial
  · obtain ⟨-, rfl⟩ := EventLog.eq_newGame hmem rfl
    intro names hparsed
    rw [log.parsed] at hparsed
    cases hparsed
    rw [h.playerNames]
  · simp [validEvent, hsize] at hvalid
  · simp [validEvent, hsize] at hvalid
  · trivial

/-- The first `NEW_GAME` of a message is one of its events. -/
theorem firstNewGame_eq_some {es : List ReceivedEvent} {e : ReceivedEvent} {newGame : EventNewGame}
    (h : firstNewGame es = some (e, newGame)) : e ∈ es ∧ e.eventData = some (.newGame newGame) := by
  induction es with
  | nil => cases h
  | cons e' es ih =>
    rw [firstNewGame] at h
    split at h
    · cases h
      exact ⟨List.mem_cons_self, by assumption⟩
    · exact ⟨List.mem_cons_of_mem _ (ih h).1, (ih h).2⟩

/-- **A datagram of a new game**: the client enters it, with its settings if they are there. -/
theorem shows_enter (hslice : IsSlice msg log) (hnew : msg.gameId ∉ c.seenGameIds)
    (hnames : NamesNumbered c) : ∃ c', c.processMessageFromServerWithMismatchedGameId msg = .ok c' ∧
      NamesNumbered c' ∧ Shows log c' [] := by
  have hshows : ∀ c' : Client, c'.gameId = log.gameId → c'.events = ∅ → c'.nextWantedEventNo = 0 →
      c'.nextEventToSendNo = 0 → c'.playersInGame = 0 ∨ Installed log c' → Shows log c' [] := by
    intro c' hid hevents hwanted hsent hsettled
    refine ⟨hid, fun no e he => ?_, fun no hno => ?_, hsent.trans hwanted.symm, ?_, hsettled⟩
    · rw [hevents] at he
      cases he
    · rw [hwanted] at hno
      exact absurd hno (Nat.not_lt_zero no)
    · rw [hwanted, List.take_zero]
      rfl
  rw [processMessageFromServerWithMismatchedGameId, if_neg hnew]
  cases hfirst : firstNewGame msg.events with
  | none => exact ⟨_, rfl, hnames, hshows _ (by rw [← hslice.1]; rfl) rfl rfl rfl (Or.inl rfl)⟩
  | some p =>
    obtain ⟨e, newGame⟩ := p
    obtain ⟨he, hdata⟩ := firstNewGame_eq_some hfirst
    have hmem := hslice.mem he
    obtain ⟨-, rfl⟩ := EventLog.eq_newGame hmem hdata
    have hvalid : (c.enter msg.gameId).validateEvent e = true := by
      have hv := log.valid e hmem
      rw [validEvent, hdata] at hv
      rw [validateEvent, validEvent, hdata]
      exact hv
    simp only [hvalid, if_true, log.parsed]
    let c₁ : Client := { c.enter msg.gameId with
      maxx := log.newGame.maxx
      maxy := log.newGame.maxy
      playerNames := log.names
      playersInGame := toUInt8 log.names.size }
    have hc₁ : Shows log c₁ [] :=
      hshows c₁ (by rw [← hslice.1]; rfl) rfl rfl rfl (Or.inr ⟨rfl, rfl, rfl, rfl⟩)
    have hi : Installed log c₁ := ⟨rfl, rfl, rfl, rfl⟩
    obtain ⟨c', hread, -, hnames', hshows'⟩ := hc₁.readIn hslice (hi.harmless hslice)
    refine ⟨c', hread, ?_, hshows'⟩
    rw [NamesNumbered, hnames']
    exact mem_parsedPlayers log.parsed

/-! ## Runs -/

/-- The client is not in a game yet, or shows one of the games. -/
inductive Tracked (games : List EventLog) (r : ClientRun) : Prop
  | initial (hid : r.client.gameId = -1) (hseen : r.client.seenGameIds = ∅)
    (hnames : NamesNumbered r.client)
  | playing (log : EventLog) (hlog : log ∈ games) (hnames : NamesNumbered r.client)
    (hshows : Shows log r.client r.lines)

/-- The lines since the client entered its current game are the first lines of its log. -/
def Shown (games : List EventLog) (r : ClientRun) : Prop :=
  ∀ log ∈ games, r.client.gameId = log.gameId → r.lines.map some <+: log.rendered

variable {games : List EventLog} {r : ClientRun}

/-- Logs with one id are one log. -/
theorem eq_of_gameId (hids : (games.map EventLog.gameId).Nodup) {log log' : EventLog}
    (hlog : log ∈ games) (hlog' : log' ∈ games) (h : log.gameId = log'.gameId) : log = log' :=
  List.inj_on_of_nodup_map hids hlog hlog' h

theorem Tracked.shown (h : Tracked games r) (hids : (games.map EventLog.gameId).Nodup) :
    Shown games r := by
  intro log hlog hid
  rcases h with ⟨hnone, -, -⟩ | ⟨log', hlog', -, hshows⟩
  · omega
  · have heq : log = log' := eq_of_gameId hids hlog hlog' (by
      have hsame := hid.symm.trans hshows.gameId
      exact_mod_cast hsame)
    rw [heq, hshows.lines]
    exact List.take_prefix _ _

/-- Entering a game. -/
theorem step_enter (hlog : log ∈ games) (hslice : IsSlice msg log)
    (hid : (msg.gameId : ℤ) ≠ r.client.gameId) (hnew : msg.gameId ∉ r.client.seenGameIds)
    (hnames : NamesNumbered r.client) :
    ∃ t, clientMachine.step msg r = .ok t ∧ Tracked games t := by
  obtain ⟨c₁, hmis, hnames₁, hshows₁⟩ := shows_enter hslice hnew hnames
  obtain ⟨out, c', hpending, hid', hnames', hshows'⟩ := hshows₁.writePending
  have hgame : ¬c'.gameId = r.client.gameId := by
    rw [hid', hshows₁.gameId, ← hslice.1]
    exact hid
  refine ⟨⟨c', out⟩, ?_, .playing log hlog ?_ hshows'⟩
  · simp only [clientMachine, processMessageFromServer, if_pos hid, hmis, hpending, if_neg hgame]
  · rw [NamesNumbered, hnames']
    exact hnames₁

/-- **A step the client can take** keeps it going. -/
theorem Tracked.step (h : Tracked games r) (hids : (games.map EventLog.gameId).Nodup)
    (hslice : ∃ log ∈ games, IsSlice msg log) (hharmless : Harmless msg r.client) :
    ∃ t, clientMachine.step msg r = .ok t ∧ Tracked games t := by
  obtain ⟨log, hlog, hslice⟩ := hslice
  rcases h with ⟨hnone, hseen, hnames⟩ | ⟨log', hlog', hnames, hshows⟩
  · exact step_enter hlog hslice (by omega) (by rw [hseen]; exact Finset.notMem_empty _) hnames
  · -- the datagram goes on with the current game, or is a stray one
    have goes_on : ∀ c₁ : Client, Shows log' c₁ r.lines → c₁.gameId = r.client.gameId →
        c₁.playerNames = r.client.playerNames → ∃ out c', c₁.writePending = .ok (out, c') ∧
          c'.gameId = r.client.gameId ∧ Tracked games ⟨c', r.lines ++ out⟩ := by
      intro c₁ hshows₁ hid₁ hnames₁
      obtain ⟨out, c', hpending, hid', hnames', hshows'⟩ := hshows₁.writePending
      refine ⟨out, c', hpending, hid'.trans hid₁, .playing log' hlog' ?_ hshows'⟩
      rw [NamesNumbered, hnames', hnames₁]
      exact hnames
    by_cases hid : (msg.gameId : ℤ) = r.client.gameId
    · have heq : log = log' := eq_of_gameId hids hlog hlog' (by
        have hsame : (log.gameId : ℤ) = log'.gameId := by rw [← hslice.1, hid, hshows.gameId]
        exact_mod_cast hsame)
      subst heq
      obtain ⟨c₁, hread, hid₁, hnames₁, hshows₁⟩ := hshows.readIn hslice hharmless
      obtain ⟨out, c', hpending, hid', htracked⟩ := goes_on c₁ hshows₁ hid₁ hnames₁
      refine ⟨⟨c', r.lines ++ out⟩, ?_, htracked⟩
      simp only [clientMachine, processMessageFromServer, if_neg (not_not.mpr hid), hread, hpending,
        if_pos hid']
    · by_cases hseen : msg.gameId ∈ r.client.seenGameIds
      · obtain ⟨out, c', hpending, hid', htracked⟩ := goes_on r.client hshows rfl rfl
        refine ⟨⟨c', r.lines ++ out⟩, ?_, htracked⟩
        simp only [clientMachine, processMessageFromServer, if_pos hid,
          processMessageFromServerWithMismatchedGameId, if_pos hseen, hpending, if_pos hid']
      · exact step_enter hlog hslice hid hseen hnames

/-- `NEW_GAME` lines that are the same list the same names. -/
theorem listedNames_eq_of_line {no : ℕ} {newGame : EventNewGame}
    {names names' : SortedMap ℕ PlayerName}
    (h : eventToMessageForGui ⟨no, some (.newGame newGame)⟩ names =
      eventToMessageForGui ⟨no, some (.newGame newGame)⟩ names') :
    listedNames names = listedNames names' := by
  refine Option.map_injective (fun a b hab => ?_) h
  exact List.append_cancel_left (List.append_cancel_right hab)

/-- Without settings, a valid event that is not harmless is a `NEW_GAME` with other names. -/
theorem eq_newGame_of_not_harmless {e : ReceivedEvent} (he : e ∈ log.events)
    (hzero : c.playersInGame = 0) (hvalid : c.validateEvent e = true)
    (hnot : ¬HarmlessEvent c.playerNames e) : e = ⟨0, some (.newGame log.newGame)⟩ ∧
      listedNames c.playerNames ≠ listedNames log.names := by
  obtain ⟨no, data⟩ := e
  rw [validateEvent, hzero] at hvalid
  rcases data with _ | (newGame | pixel | eliminated | _)
  · exact absurd trivial hnot
  · obtain ⟨hno, rfl⟩ := EventLog.eq_newGame he rfl
    obtain rfl : no = 0 := hno
    refine ⟨rfl, fun hlisted => hnot fun names hparsed => ?_⟩
    rw [log.parsed] at hparsed
    cases hparsed
    exact hlisted
  · simp [validEvent] at hvalid
  · simp [validEvent] at hvalid
  · exact absurd trivial hnot

/-- **A late `NEW_GAME`** is written with the names the client knows already. -/
theorem Shows.late_newGame (h : Shows log c lines) (hnames : NamesNumbered c)
    (hslice : IsSlice msg log) (hzero : c.playersInGame = 0)
    (hvalid : ∀ e ∈ msg.events, c.validateEvent e = true)
    (hmem : ⟨0, some (.newGame log.newGame)⟩ ∈ msg.events)
    (hother : listedNames c.playerNames ≠ listedNames log.names) :
    ∃ c₁ out c', readInEventsListOfCurrentGame msg.events c = .ok c₁ ∧
      c₁.writePending = .ok (out, c') ∧ c'.gameId = c.gameId ∧
      ¬(lines ++ out).map some <+: log.rendered := by
  have hfirst : log.events[0]? = some ⟨0, some (.newGame log.newGame)⟩ :=
    getElem?_of_mem_withNumbers (hslice.mem hmem)
  have hline : eventToMessageForGui ⟨0, some (.newGame log.newGame)⟩ c.playerNames ≠
      eventToMessageForGui ⟨0, some (.newGame log.newGame)⟩ log.names :=
    fun heq => hother (listedNames_eq_of_line heq)
  -- the event has not come before, so nothing has been written
  have hnot : 0 ∉ c.events := by
    intro hin
    obtain ⟨e, he⟩ := SortedMap.mem_iff_find?.mp hin
    obtain ⟨hget, hrender⟩ := h.stored 0 e he
    rw [hfirst] at hget
    cases hget
    exact hline hrender
  have hwanted : c.nextWantedEventNo = 0 := by
    by_contra hne
    exact hnot (h.before 0 (Nat.pos_of_ne_zero hne))
  have hlines : lines = [] := by
    have hl := h.lines
    rw [hwanted, List.take_zero] at hl
    exact List.map_eq_nil_iff.mp hl
  let c₁ : Client := { c with events := store msg.events c.events }
  have hstored : ∀ no e, c₁.events.find? no = some e → log.events[no]? = some e ∧
      (eventToMessageForGui e c.playerNames).isSome = true := by
    intro no e hfind
    rcases find?_store hfind with hfind | ⟨he, rfl⟩
    · obtain ⟨hget, hrender⟩ := h.stored no e hfind
      rw [hrender]
      exact ⟨hget, EventLog.isSome_rendered (List.mem_of_getElem? hget)⟩
    · refine ⟨getElem?_of_mem_withNumbers (hslice.mem he), ?_⟩
      have hv := hvalid e he
      rw [validateEvent, hzero] at hv
      exact isSome_eventToMessageForGui hnames (validEvent_of_zero 0 0 hv)
  have hend : log.events.length ∉ c₁.events := by
    intro hin
    obtain ⟨e, he⟩ := SortedMap.mem_iff_find?.mp hin
    exact absurd (List.getElem?_eq_some_iff.mp (hstored _ e he).1).1 (lt_irrefl _)
  have hzeroin : 0 ∈ c₁.events := mem_store.mpr (Or.inr ⟨_, hmem, rfl⟩)
  obtain ⟨-, -, hskip⟩ := skipStored_spec log.length_events_lt hend c₁.events.size 0 (Nat.zero_le _)
  have hpos := lt_skipStored log.length_events_lt hend hzeroin (Nat.zero_le _)
  have hwanted₁ : c₁.nextWantedEventNo = 0 := hwanted
  have hsent₁ : c₁.nextEventToSendNo = 0 := h.sent.trans hwanted
  generalize hn : skipStored c₁.events c₁.events.size 0 = n at hskip hpos
  obtain ⟨out, hout, hmap⟩ := writePending_eq_ok (c := c₁) (hwanted₁.symm ▸ hn) fun no _ hlt => by
    obtain ⟨e, he⟩ := SortedMap.mem_iff_find?.mp (hskip no (Nat.zero_le _) hlt)
    rw [lineOf, he]
    exact (hstored no e he).2
  refine ⟨c₁, out, _, readInEventsListOfCurrentGame_eq_ok hvalid, hout, rfl, fun hprefix => ?_⟩
  -- the first line is that of the late event
  obtain ⟨e, he⟩ := SortedMap.mem_iff_find?.mp hzeroin
  have hget := (hstored 0 e he).1
  rw [hfirst] at hget
  cases hget
  have hhead : (out.map some)[0]? =
      some (eventToMessageForGui ⟨0, some (.newGame log.newGame)⟩ c.playerNames) := by
    rw [hmap, hsent₁, List.getElem?_map, List.getElem?_range' (by omega), Option.map_some, lineOf,
      show c₁.events.find? (0 + 1 * 0) = some _ from he]
    rfl
  rw [hlines, List.nil_append] at hprefix
  have hsame := List.prefix_iff_getElem?.mp hprefix 0 (List.getElem?_eq_some_iff.mp hhead).1
  rw [EventLog.rendered, List.getElem?_map, hfirst] at hsame
  rw [List.getElem?_eq_getElem (List.getElem?_eq_some_iff.mp hhead).1] at hhead
  exact hline (Option.some.inj (hhead.symm.trans hsame.symm))

/-- **A step the client cannot take** ends in an exit or in a wrong line. -/
theorem Tracked.step_of_not_harmless (h : Tracked games r)
    (hids : (games.map EventLog.gameId).Nodup) (hslice : ∃ log ∈ games, IsSlice msg log)
    (hnot : ¬Harmless msg r.client) : clientMachine.step msg r = .error .exit ∨
      ∃ t, clientMachine.step msg r = .ok t ∧ ¬Shown games t := by
  obtain ⟨log, hlog, hslice⟩ := hslice
  simp only [Harmless, not_forall] at hnot
  obtain ⟨hid, hzero, e, he, hharm⟩ := hnot
  rcases h with ⟨hnone, -, -⟩ | ⟨log', hlog', hnames, hshows⟩
  · omega
  have heq : log = log' := eq_of_gameId hids hlog hlog' (by
    have hsame : (log.gameId : ℤ) = log'.gameId := by rw [← hslice.1, hid, hshows.gameId]
    exact_mod_cast hsame)
  subst heq
  by_cases hvalid : ∀ e ∈ msg.events, r.client.validateEvent e = true
  · right
    obtain ⟨rfl, hother⟩ :=
      eq_newGame_of_not_harmless (hslice.mem he) hzero (hvalid e he) hharm
    obtain ⟨c₁, out, c', hread, hpending, hid', hlines⟩ :=
      hshows.late_newGame hnames hslice hzero hvalid he hother
    refine ⟨⟨c', r.lines ++ out⟩, ?_, fun hshown => ?_⟩
    · simp only [clientMachine, processMessageFromServer, if_neg (not_not.mpr hid), hread, hpending,
        if_pos hid']
    · exact hlines (hshown log hlog (hid'.trans hshows.gameId))
  · left
    simp only [not_forall, Bool.not_eq_true] at hvalid
    obtain ⟨e', he', hinvalid⟩ := hvalid
    simp only [clientMachine, processMessageFromServer, if_neg (not_not.mpr hid),
      readInEventsListOfCurrentGame_eq_exit ⟨e', he', hinvalid⟩]

/-- **What the client shows.** Whatever slices of the logs the client gets, it goes on and has shown
the first lines of its current game, exactly when it can take every datagram. -/
theorem clientMachine_shown_iff (hids : (games.map EventLog.gameId).Nodup)
    (hr : clientMachine.init r) {msgs : List ReceivedMessage}
    (hmsgs : ∀ msg ∈ msgs, ∃ log ∈ games, IsSlice msg log) :
    (∀ pre, pre <+: msgs → clientMachine.exec pre r ≠ .error .exit ∧
      ∀ t, clientMachine.exec pre r = .ok t → Shown games t) ↔
    ∀ pre msg, pre ++ [msg] <+: msgs → ∀ t, clientMachine.exec pre r = .ok t →
      Harmless msg t.client := by
  refine Machine.forall_prefix_iff (M := clientMachine) (I := Tracked games)
    (A := fun msg => ∃ log ∈ games, IsSlice msg log)
    (G := fun o => o ≠ .error .exit ∧ ∀ t, o = .ok t → Shown games t)
    (C := fun msg r => Harmless msg r.client) (fun t ht => ?_) (fun t msg hslice ht hharmless => ?_)
    (fun t msg hslice ht hnot hgood => ?_) hmsgs ?_
  · refine ⟨fun h => (by cases h), fun u hu => ?_⟩
    cases hu
    exact ht.shown hids
  · exact ht.step hids hslice hharmless
  · rcases ht.step_of_not_harmless hids hslice hnot with hexit | ⟨u, hu, hwrong⟩
    · exact hgood.1 hexit
    · exact hwrong (hgood.2 u hu)
  · obtain ⟨-, unsetWanted, unsetToSend, unsetPlayers, unsetMaxx, unsetMaxy, hclient⟩ := hr
    refine .initial (by rw [hclient]; rfl) (by rw [hclient]; rfl) fun i => ?_
    rw [hclient]
    simp [Client.new, SortedMap.size]

/-- The log of a game of `a` and `b`, up to their first pixels. -/
def twoPlayersLog (gameId : ℕ) : EventLog where
  gameId := gameId
  newGame := .ofNames 16 16 [[97], [98]]
  later := [.pixel ⟨0, 1, 2⟩, .pixel ⟨1, 3, 4⟩]
  names := numberNames [⟨[97], by decide⟩, ⟨[98], by decide⟩]
  parsed := by decide +kernel
  valid := by decide +kernel
  length_lt := by decide

/-- A client that has not got any datagram. -/
def freshClient : ClientRun := ⟨.new 0 0 0 0 0, []⟩

theorem init_freshClient : clientMachine.init freshClient := ⟨rfl, 0, 0, 0, 0, 0, rfl⟩

/-- The first event of the game, and then the last one. -/
def firstAndLast : List ReceivedMessage :=
  [⟨7, (twoPlayersLog 7).events.take 1⟩, ⟨7, (twoPlayersLog 7).events.drop 2⟩]

/-- The first datagram has the settings, so that the others may come in any order. -/
theorem clientMachine_shown_two : ∃ t, clientMachine.exec firstAndLast freshClient = .ok t ∧
    Shown [twoPlayersLog 7] t := by
  have hslices : ∀ msg ∈ firstAndLast, ∃ log ∈ [twoPlayersLog 7], IsSlice msg log := by
    intro msg hmsg
    refine ⟨_, List.mem_singleton.mpr rfl, ?_⟩
    rcases List.mem_cons.mp hmsg with rfl | hmsg
    · exact ⟨rfl, (List.take_prefix 1 _).isInfix⟩
    · rw [List.mem_singleton.mp hmsg]
      exact ⟨rfl, (List.drop_suffix 2 _).isInfix⟩
  have hgood := (clientMachine_shown_iff (by decide) init_freshClient hslices).mpr ?_
  · have hok : (clientMachine.exec firstAndLast freshClient).isOk = true := by decide +kernel
    obtain ⟨-, hshown⟩ := hgood firstAndLast (List.prefix_refl _)
    obtain ⟨t, hrun⟩ := Except.exists_of_isOk hok
    exact ⟨t, hrun, hshown t hrun⟩
  · intro pre msg hpre t ht hid hzero
    rcases pre with _ | ⟨m, pre⟩
    · obtain rfl : freshClient = t := Except.ok.inj ht
      change (msg.gameId : ℤ) = -1 at hid
      omega
    · -- after the first datagram the client has the settings
      obtain ⟨rfl, hrest⟩ := List.cons_prefix_cons.mp hpre
      have hlen : (pre ++ [msg]).length ≤ 1 := hrest.length_le
      rw [List.length_append, List.length_singleton] at hlen
      obtain rfl : pre = [] := List.eq_nil_of_length_eq_zero (by omega)
      have hplayers : (match clientMachine.exec [⟨7, (twoPlayersLog 7).events.take 1⟩] freshClient with
          | .ok t => decide (t.client.playersInGame ≠ 0)
          | .error _ => false) = true := by decide +kernel
      rw [ht] at hplayers
      exact absurd hzero (of_decide_eq_true hplayers)

/-- The first datagram of the game is lost. The second one, with two pixels, comes twice. -/
theorem exit_without_newGame : ∃ msgs : List ReceivedMessage,
    (∀ msg ∈ msgs, IsSlice msg (twoPlayersLog 7)) ∧ clientMachine.init freshClient ∧
    clientMachine.exec msgs freshClient = .error .exit := by
  refine ⟨[⟨7, (twoPlayersLog 7).events.drop 1⟩, ⟨7, (twoPlayersLog 7).events.drop 1⟩],
    fun msg hmsg => ?_, init_freshClient, by decide +kernel⟩
  obtain rfl : msg = ⟨7, (twoPlayersLog 7).events.drop 1⟩ := by simpa using hmsg
  exact ⟨rfl, (List.drop_suffix 1 _).isInfix⟩

end ScreenWorms
