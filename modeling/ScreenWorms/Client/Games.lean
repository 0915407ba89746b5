import Mathlib.Data.Finset.Dedup
import Mathlib.Data.Finset.Card
import Mathlib.Data.List.Flatten
import ScreenWorms.Client.Lines

/-!
# The client among several games

What holds of a client whatever it is sent, honest or not. It keeps the first event that comes with
a number, writes the events in the order of their numbers, and never comes back to a game it has
left. `Took` lists what a message can do to the client before it writes anything.

The only thing the client knows about the order of games is which ids it has seen. So a game whose
first datagram comes late is entered although a later game is under way, and a datagram without any
events enters a game as well.

## Main definitions

* `Client.Took`, `Client.Coherent`, `Client.Settled`
* `Recalls` — what the client knows of the messages it has got
* `FirstsInOrder`

## Main results

* `clientMachine_games` — each game once, each event once, and in order
* `Recalls.events_eq_nil` — what a message without events does
* `clientMachine_forward_iff` — when the client never goes back to an earlier game
-/

namespace ScreenWorms

open Machine

namespace Client

variable {c c₁ : Client} {msg : ReceivedMessage}

/-! ## What a message does -/

/-- The client once it has entered a game with the settings of its `NEW_GAME`. -/
def install (newGame : EventNewGame) (playerNames : SortedMap ℕ PlayerName) (c : Client) : Client :=
  { c with
    maxx := newGame.maxx
    maxy := newGame.maxy
    playerNames := playerNames
    playersInGame := toUInt8 playerNames.size }

/-- What `processMessageFromServer` has made of the client when it starts to write. -/
inductive Took (c : Client) (msg : ReceivedMessage) : Client → Prop
  /-- A message of a game the client has seen before. -/
  | stray (hid : (msg.gameId : ℤ) ≠ c.gameId) (hseen : msg.gameId ∈ c.seenGameIds) : Took c msg c
  /-- A message of the current game. -/
  | current (hid : (msg.gameId : ℤ) = c.gameId)
    (hvalid : ∀ e ∈ msg.events, c.validateEvent e = true) :
    Took c msg { c with events := store msg.events c.events }
  /-- A message of a new game, without its `NEW_GAME`. -/
  | enter (hid : (msg.gameId : ℤ) ≠ c.gameId) (hnew : msg.gameId ∉ c.seenGameIds)
    (hnone : firstNewGame msg.events = none) : Took c msg (c.enter msg.gameId)
  /-- A message of a new game, with its `NEW_GAME`. -/
  | install {e : ReceivedEvent} {newGame : EventNewGame} {playerNames : SortedMap ℕ PlayerName}
    (hid : (msg.gameId : ℤ) ≠ c.gameId) (hnew : msg.gameId ∉ c.seenGameIds)
    (hfirst : firstNewGame msg.events = some (e, newGame))
    (hparsed : newGame.parsedPlayers = .ok playerNames)
    (hvalid : ∀ e ∈ msg.events,
      ((c.enter msg.gameId).install newGame playerNames).validateEvent e = true) :
    Took c msg { (c.enter msg.gameId).install newGame playerNames with
      events := store msg.events ∅ }

/-- Reading in events goes well if all are valid. -/
theorem readInEventsListOfCurrentGame_cases (es : List ReceivedEvent) (c : Client) :
    (∀ e ∈ es, c.validateEvent e = true) ∧
      readInEventsListOfCurrentGame es c = .ok { c with events := store es c.events } ∨
    readInEventsListOfCurrentGame es c = .error .exit := by
  by_cases hvalid : ∀ e ∈ es, c.validateEvent e = true
  · exact Or.inl ⟨hvalid, readInEventsListOfCurrentGame_eq_ok hvalid⟩
  · simp only [not_forall, Bool.not_eq_true] at hvalid
    obtain ⟨e, he, hinvalid⟩ := hvalid
    exact Or.inr (readInEventsListOfCurrentGame_eq_exit ⟨e, he, hinvalid⟩)

/-- **A message** is taken in one of four ways, or the client exits. -/
theorem processMessageFromServer_cases (msg : ReceivedMessage) (c : Client) :
    (∃ c₁, c.Took msg c₁ ∧ c.processMessageFromServer msg = c₁.writePending) ∨
    c.processMessageFromServer msg = .error .exit ∨
    c.processMessageFromServer msg = .error .decoderError := by
  rw [processMessageFromServer]
  by_cases hid : (msg.gameId : ℤ) = c.gameId
  · rw [if_neg (not_not.mpr hid)]
    rcases readInEventsListOfCurrentGame_cases msg.events c with ⟨hvalid, heq⟩ | heq
    · rw [heq]
      exact Or.inl ⟨_, .current hid hvalid, rfl⟩
    · rw [heq]
      exact Or.inr (Or.inl rfl)
  · rw [if_pos hid, processMessageFromServerWithMismatchedGameId]
    by_cases hseen : msg.gameId ∈ c.seenGameIds
    · rw [if_pos hseen]
      exact Or.inl ⟨_, .stray hid hseen, rfl⟩
    · rw [if_neg hseen]
      rcases hfirst : firstNewGame msg.events with _ | ⟨e, newGame⟩
      · exact Or.inl ⟨_, .enter hid hseen hfirst, rfl⟩
      · by_cases hnewGame : (c.enter msg.gameId).validateEvent e = true
        · simp only [hnewGame, if_true]
          rcases hparsed : newGame.parsedPlayers with err | playerNames
          · exact Or.inr (Or.inr rfl)
          · have hread := readInEventsListOfCurrentGame_cases msg.events
              ((c.enter msg.gameId).install newGame playerNames)
            rw [install] at hread
            rcases hread with ⟨hvalid, heq⟩ | heq
            · simp only [heq]
              exact Or.inl ⟨_, .install hid hseen hfirst hparsed hvalid, rfl⟩
            · simp only [heq]
              exact Or.inr (Or.inl trivial)
        · simp only [if_neg hnewGame]
          exact Or.inr (Or.inl trivial)

/-- The events of a message that the client reads in. -/
def reads (c : Client) (msg : ReceivedMessage) : List ReceivedEvent :=
  if (msg.gameId : ℤ) = c.gameId ∨
    msg.gameId ∉ c.seenGameIds ∧ (firstNewGame msg.events).isSome = true then msg.events
  else []

/-- The client stays in its game, or enters one it has not seen. -/
theorem Took.gameId (h : c.Took msg c₁) : c₁.gameId = c.gameId ∨
    c₁.gameId = msg.gameId ∧ (msg.gameId : ℤ) ≠ c.gameId ∧ msg.gameId ∉ c.seenGameIds := by
  rcases h with - | - | ⟨hid, hnew, -⟩ | ⟨hid, hnew, -⟩
  · exact Or.inl rfl
  · exact Or.inl rfl
  · exact Or.inr ⟨rfl, hid, hnew⟩
  · exact Or.inr ⟨rfl, hid, hnew⟩

theorem Took.seenGameIds (h : c.Took msg c₁) (hcurrent : ∀ g : ℕ, (g : ℤ) = c.gameId →
    g ∈ c.seenGameIds) : c₁.seenGameIds = insert msg.gameId c.seenGameIds := by
  rcases h with ⟨-, hseen⟩ | ⟨hid, -⟩ | - | -
  · exact (Finset.insert_eq_of_mem hseen).symm
  · exact (Finset.insert_eq_of_mem (hcurrent _ hid)).symm
  · rfl
  · rfl

/-! ## Coherent clients -/

/-- The client can write what it has stored, and has written what it does not want any more. -/
structure Coherent (c : Client) : Prop where
  numbered : NamesNumbered c
  players : c.playersInGame ≤ toUInt8 c.playerNames.size
  valid : ∀ no e, c.events.find? no = some e → c.validateEvent e = true
  before : ∀ no < c.nextWantedEventNo, no ∈ c.events
  sent : c.nextEventToSendNo = c.nextWantedEventNo

/-- Some event number is missing, so the loop that looks for one ends. -/
def HasHole (c : Client) : Prop := ∃ hole < 2 ^ 32, hole ∉ c.events

/-- More players make more events valid. -/
theorem validEvent_mono {maxx maxy playersInGame playersInGame' : ℕ} {e : ReceivedEvent}
    (hle : playersInGame ≤ playersInGame') (h : validEvent maxx maxy playersInGame e = true) :
    validEvent maxx maxy playersInGame' e = true := by
  rw [validEvent] at h ⊢
  split <;> simp_all <;> omega

theorem Coherent.isSome_lineOf (h : c.Coherent) {no : ℕ} (hno : no ∈ c.events) :
    (c.lineOf no).isSome = true := by
  obtain ⟨e, he⟩ := SortedMap.mem_iff_find?.mp hno
  rw [lineOf, he]
  exact isSome_eventToMessageForGui h.numbered (validEvent_mono h.players (h.valid no e he))

theorem Coherent.le_hole (h : c.Coherent) {hole : ℕ} (hhole : hole ∉ c.events) :
    c.nextWantedEventNo ≤ hole := by
  by_contra hlt
  exact hhole (h.before _ (not_le.mp hlt))

/-- The same client, but for how far it has written. -/
def writtenTo (n : ℕ) (c : Client) : Client :=
  { c with nextWantedEventNo := n, nextEventToSendNo := n }

/-- **Writing** goes up to the first number that is missing. -/
theorem Coherent.writePending (h : c.Coherent) (hhole : c.HasHole) :
    ∃ n out, c.writePending = .ok (out, c.writtenTo n) ∧ (c.writtenTo n).Coherent ∧ n ∉ c.events ∧
      (List.range c.nextWantedEventNo).map c.lineOf ++ out.map some =
        (List.range n).map c.lineOf := by
  obtain ⟨hole, hlt, hmem⟩ := hhole
  have hle := h.le_hole hmem
  obtain ⟨hge, -, hall⟩ := skipStored_spec hlt hmem c.events.size c.nextWantedEventNo hle
  have hstop := skipStored_not_mem hlt hmem hle
  generalize hn : skipStored c.events c.events.size c.nextWantedEventNo = n at hge hall hstop
  obtain ⟨out, hout, hmap⟩ := writePending_eq_ok hn fun no hno hlt =>
    h.isSome_lineOf (hall no (h.sent ▸ hno) hlt)
  rw [h.sent, max_eq_right hge] at hout
  refine ⟨n, out, hout, ⟨h.numbered, h.players, h.valid, fun no hno => ?_, rfl⟩, hstop, ?_⟩
  · rcases Nat.lt_or_ge no c.nextWantedEventNo with hlt | hge
    · exact h.before no hlt
    · exact hall no hge hno
  · rw [hmap, h.sent, List.range_eq_range', List.range_eq_range', ← List.map_append]
    have happend := @List.range'_append 0 c.nextWantedEventNo (n - c.nextWantedEventNo) 1
    rw [Nat.one_mul, Nat.zero_add, Nat.add_sub_cancel' hge] at happend
    rw [happend]

/-- A client that has nothing to write. -/
theorem writePending_of_not_mem (hstop : c.nextWantedEventNo ∉ c.events)
    (hsent : c.nextEventToSendNo = c.nextWantedEventNo) : c.writePending = .ok ([], c) := by
  have hskip : skipStored c.events c.events.size c.nextWantedEventNo = c.nextWantedEventNo := by
    rcases c.events.size with _ | fuel
    · rfl
    · rw [skipStored, if_neg hstop]
  obtain ⟨out, hout, hmap⟩ := writePending_eq_ok hskip fun no hge hlt => by omega
  rw [hsent, Nat.sub_self] at hmap
  rw [List.map_eq_nil_iff.mp hmap, max_eq_left hsent.ge] at hout
  exact hout

/-- Whatever is taken, only the numbers of the two positions change when it is written. -/
theorem exists_of_writePending {out : List (List Byte)} {c' : Client}
    (h : c.writePending = .ok (out, c')) :
    ∃ n m, c' = { c with nextWantedEventNo := n, nextEventToSendNo := m } := by
  rw [writePending] at h
  simp only at h
  split at h
  · cases h
  · cases h
    exact ⟨_, _, rfl⟩

theorem Took.numbered (h : c.Took msg c₁) (hc : NamesNumbered c) : NamesNumbered c₁ := by
  rcases h with - | - | - | ⟨-, -, -, hparsed, -⟩
  · exact hc
  · exact hc
  · exact hc
  · exact mem_parsedPlayers hparsed

/-- Taking a message keeps a client coherent, and a client that enters a game becomes so. -/
theorem Took.coherent (h : c.Took msg c₁) (hnumbered : NamesNumbered c)
    (hc : (msg.gameId : ℤ) = c.gameId ∨ msg.gameId ∈ c.seenGameIds → c.Coherent) :
    c₁.Coherent := by
  have hnumbered₁ := h.numbered hnumbered
  rcases h with ⟨-, hseen⟩ | ⟨hid, hvalid⟩ | - | ⟨-, -, -, -, hvalid⟩
  · exact hc (Or.inr hseen)
  · have hc := hc (Or.inl hid)
    refine ⟨hnumbered, hc.players, fun no e hfind => ?_,
      fun no hno => mem_store.mpr (Or.inl (hc.before no hno)), hc.sent⟩
    rcases find?_store hfind with hfind | ⟨he, -⟩
    · exact hc.valid no e hfind
    · exact hvalid e he
  · exact ⟨hnumbered₁, Nat.zero_le _, fun no e hfind => (by cases hfind),
      fun no hno => absurd hno (Nat.not_lt_zero no), rfl⟩
  · refine ⟨hnumbered₁, le_rfl, fun no e hfind => ?_, fun no hno => absurd hno (Nat.not_lt_zero no),
      rfl⟩
    rcases find?_store hfind with hfind | ⟨he, -⟩
    · cases hfind
    · exact hvalid e he

/-- A client that stays in its game forgets no event. -/
theorem Took.find? (h : c.Took msg c₁) (hid : c₁.gameId = c.gameId) {no : ℕ} {e : ReceivedEvent}
    (he : c.events.find? no = some e) : c₁.events.find? no = some e := by
  rcases h with - | - | ⟨hne, -, -⟩ | ⟨hne, -, -, -, -⟩
  · exact he
  · show (store msg.events c.events).find? no = some e
    rw [find?_store_eq, he, Option.some_or]
  · exact absurd hid hne
  · exact absurd hid hne

theorem Took.hasHole (h : c.Took msg c₁) (hid : c₁.gameId = c.gameId) (hhole : c₁.HasHole) :
    c.HasHole := by
  obtain ⟨hole, hlt, hmem⟩ := hhole
  refine ⟨hole, hlt, fun hin => hmem ?_⟩
  obtain ⟨e, he⟩ := SortedMap.mem_iff_find?.mp hin
  exact SortedMap.mem_of_find? (h.find? hid he)

theorem Took.playerNames (h : c.Took msg c₁) (hid : c₁.gameId = c.gameId) :
    c₁.playerNames = c.playerNames ∧ c₁.nextWantedEventNo = c.nextWantedEventNo := by
  rcases h with - | - | ⟨hne, -, -⟩ | ⟨hne, -, -, -, -⟩
  · exact ⟨rfl, rfl⟩
  · exact ⟨rfl, rfl⟩
  · exact absurd hid hne
  · exact absurd hid hne

/-- A client that enters a game wants its first event. -/
theorem Took.nextWantedEventNo (h : c.Took msg c₁) (hne : (msg.gameId : ℤ) ≠ c.gameId)
    (hnew : msg.gameId ∉ c.seenGameIds) : c₁.nextWantedEventNo = 0 := by
  rcases h with ⟨-, hseen⟩ | ⟨hcurrent, -⟩ | - | -
  · exact absurd hseen hnew
  · exact absurd hcurrent hne
  · rfl
  · rfl

end Client

open Client

/-! ## Runs -/

variable {tr : List (ClientRun × ReceivedMessage)} {r u t : ClientRun} {msg : ReceivedMessage}
  {c₁ : Client}

/-- What one step is made of. -/
theorem clientMachine_step_cases (h : clientMachine.step msg u = .ok t) :
    ∃ c₁ out n m, u.client.Took msg c₁ ∧
      c₁.writePending = .ok (out, { c₁ with nextWantedEventNo := n, nextEventToSendNo := m }) ∧
      t = ⟨{ c₁ with nextWantedEventNo := n, nextEventToSendNo := m },
        if c₁.gameId = u.client.gameId then u.lines ++ out else out⟩ := by
  rcases processMessageFromServer_cases msg u.client with ⟨c₁, htook, heq⟩ | heq | heq
  · simp only [clientMachine, heq] at h
    rcases hpending : c₁.writePending with e | ⟨out, c'⟩
    · rw [hpending] at h
      cases h
    · rw [hpending] at h
      obtain ⟨n, m, rfl⟩ := exists_of_writePending hpending
      exact ⟨c₁, out, n, m, htook, hpending, (Except.ok.inj h).symm⟩
  · simp only [clientMachine, heq] at h
    cases h
  · simp only [clientMachine, heq] at h
    cases h

/-- The events that messages of game `g` have brought to the client. -/
def copies (g : ℤ) (tr : List (ClientRun × ReceivedMessage)) : List ReceivedEvent :=
  (tr.filter fun x => (x.2.gameId : ℤ) = g).flatMap fun x => x.1.client.reads x.2

/-- The ids of the games a run is in, without repetitions that follow each other. -/
def gamesPlayed (tr : List (ClientRun × ReceivedMessage)) (t : ClientRun) : List ℤ :=
  stages (fun u => u.client.gameId) tr t

/-- The client has stored what it can, and written it. -/
structure Settled (r : ClientRun) : Prop where
  coherent : r.client.Coherent
  missing : r.client.nextWantedEventNo ∉ r.client.events
  lines : r.lines.map some = (List.range r.client.nextWantedEventNo).map r.client.lineOf

/-- What the client knows of the messages it has got. -/
structure Recalls (tr : List (ClientRun × ReceivedMessage)) (t : ClientRun) : Prop where
  numbered : NamesNumbered t.client
  seen : ∀ g, g ∈ t.client.seenGameIds ↔ ∃ x ∈ tr, x.2.gameId = g
  /-- It has been in the games it has seen. -/
  games : ∀ g : ℤ, (∃ u ∈ visited tr t, u.client.gameId = g) ↔
    g = -1 ∨ ∃ g' ∈ t.client.seenGameIds, g = (g' : ℤ)
  once : (gamesPlayed tr t).Nodup
  stored : ∀ no, t.client.events.find? no =
    (copies t.client.gameId tr).find? fun e => e.eventNo = no
  settled : tr = [] ∧ t.client.gameId = -1 ∧ t.client.events = ∅ ∧ t.lines = [] ∨
    (∃ g ∈ t.client.seenGameIds, t.client.gameId = (g : ℤ)) ∧ (t.client.HasHole → Settled t)

theorem copies_concat (g : ℤ) (x : ClientRun × ReceivedMessage) :
    copies g (tr ++ [x]) =
      copies g tr ++ if (x.2.gameId : ℤ) = g then x.1.client.reads x.2 else [] := by
  rw [copies, copies, List.filter_append, List.flatMap_append]
  by_cases h : (x.2.gameId : ℤ) = g <;> simp [h]

/-- Of a game the client has not seen, nothing has come yet. -/
theorem Recalls.copies_enter (h : Recalls tr u) (hnew : msg.gameId ∉ u.client.seenGameIds) :
    copies msg.gameId (tr ++ [(u, msg)]) = u.client.reads msg := by
  have hnone : tr.filter (fun x => (x.2.gameId : ℤ) = msg.gameId) = [] := by
    refine List.filter_eq_nil_iff.mpr fun x hx => ?_
    have hne : x.2.gameId ≠ msg.gameId := fun heq => hnew ((h.seen _).mpr ⟨x, hx, heq⟩)
    rw [decide_eq_true_eq]
    omega
  rw [copies_concat, copies, hnone, if_pos rfl]
  rfl

/-- **Storing.** What is stored is the first copy of each number. -/
theorem Recalls.stored_took (h : Recalls tr u) (htook : u.client.Took msg c₁) (no : ℕ) :
    c₁.events.find? no = (copies c₁.gameId (tr ++ [(u, msg)])).find? fun e => e.eventNo = no := by
  rcases htook with ⟨hid, hseen⟩ | ⟨hid, -⟩ | ⟨hid, hnew, hnone⟩ | ⟨hid, hnew, hfirst, -, -⟩
  · rw [copies_concat, if_neg hid, List.append_nil]
    exact h.stored no
  · show (store msg.events u.client.events).find? no =
      (copies u.client.gameId (tr ++ [(u, msg)])).find? _
    rw [copies_concat, find?_store_eq, h.stored, if_pos hid, reads, if_pos (Or.inl hid),
      List.find?_append]
  · have hnot : ¬((msg.gameId : ℤ) = u.client.gameId ∨
        msg.gameId ∉ u.client.seenGameIds ∧ (firstNewGame msg.events).isSome = true) := by
      rw [hnone]
      exact not_or.mpr ⟨hid, fun hand => Bool.false_ne_true hand.2⟩
    show none = (copies msg.gameId (tr ++ [(u, msg)])).find? _
    rw [h.copies_enter hnew, reads, if_neg hnot, List.find?_nil]
  · show (store msg.events ∅).find? no = (copies msg.gameId (tr ++ [(u, msg)])).find? _
    rw [h.copies_enter hnew, reads, if_pos (Or.inr ⟨hnew, by rw [hfirst]; rfl⟩), find?_store_eq]
    rfl

/-- A client that stays in its game is in one. -/
theorem Recalls.entered (h : Recalls tr u) (htook : u.client.Took msg c₁)
    (hid : c₁.gameId = u.client.gameId) :
    (∃ g ∈ u.client.seenGameIds, u.client.gameId = (g : ℤ)) ∧ (u.client.HasHole → Settled u) := by
  rcases h.settled with ⟨rfl, hinit, -⟩ | hentered
  · rcases htook with ⟨-, hseen⟩ | ⟨hcurrent, -⟩ | ⟨hne, -, -⟩ | ⟨hne, -, -, -, -⟩
    · obtain ⟨x, hx, -⟩ := (h.seen _).mp hseen
      exact absurd hx List.not_mem_nil
    · omega
    · exact absurd hid hne
    · exact absurd hid hne
  · exact hentered

theorem Recalls.settled_same (h : Recalls tr u) (htook : u.client.Took msg c₁)
    (hid : c₁.gameId = u.client.gameId) (hhole : c₁.HasHole) : Settled u :=
  (h.entered htook hid).2 (htook.hasHole hid hhole)

/-- **Writing.** The client can write what it has taken, and has then settled again. -/
theorem Recalls.settled_took (h : Recalls tr u) (htook : u.client.Took msg c₁)
    (hhole : c₁.HasHole) : ∃ n out, c₁.writePending = .ok (out, c₁.writtenTo n) ∧
      Settled ⟨c₁.writtenTo n, if c₁.gameId = u.client.gameId then u.lines ++ out else out⟩ := by
  have hcoherent : c₁.Coherent := by
    refine htook.coherent h.numbered fun hold => ?_
    rcases htook.gameId with hid | ⟨-, hne, hnew⟩
    · exact (h.settled_same htook hid hhole).coherent
    · exact absurd hold (not_or.mpr ⟨hne, hnew⟩)
  obtain ⟨n, out, hout, hcoherent', hmissing, hlines⟩ := hcoherent.writePending hhole
  refine ⟨n, out, hout, hcoherent', hmissing, ?_⟩
  show List.map some (if c₁.gameId = u.client.gameId then u.lines ++ out else out) =
    (List.range n).map c₁.lineOf
  rw [← hlines]
  rcases htook.gameId with hid | ⟨hid, hne, hnew⟩
  · -- the game goes on: what has been written is still stored
    have hsettled := h.settled_same htook hid hhole
    obtain ⟨hnames, hwanted⟩ := htook.playerNames hid
    rw [if_pos hid, List.map_append, hsettled.lines, hwanted]
    refine congrArg (· ++ _) (List.map_congr_left fun no hno => ?_)
    obtain ⟨e, he⟩ := SortedMap.mem_iff_find?.mp
      (hsettled.coherent.before no (List.mem_range.mp hno))
    rw [lineOf, lineOf, he, htook.find? hid he, hnames]
  · rw [if_neg (by rw [hid]; exact hne), htook.nextWantedEventNo hne hnew]
    rfl

/-- **One message.** -/
theorem Recalls.step (h : Recalls tr u) (hstep : clientMachine.step msg u = .ok t) :
    Recalls (tr ++ [(u, msg)]) t := by
  obtain ⟨c₁, out, n, m, htook, hpending, rfl⟩ := clientMachine_step_cases hstep
  have hseen : c₁.seenGameIds = insert msg.gameId u.client.seenGameIds := by
    refine htook.seenGameIds fun g hg => ?_
    rcases h.settled with ⟨-, hinit, -⟩ | ⟨⟨g', hg', heq⟩, -⟩
    · omega
    · obtain rfl : g = g' := by omega
      exact hg'
  have hcurrent : ∃ g ∈ c₁.seenGameIds, c₁.gameId = (g : ℤ) := by
    rcases htook.gameId with hid | ⟨hid, -, -⟩
    · obtain ⟨g, hg, heq⟩ := (h.entered htook hid).1
      exact ⟨g, by rw [hseen]; exact Finset.mem_insert_of_mem hg, hid.trans heq⟩
    · exact ⟨_, by rw [hseen]; exact Finset.mem_insert_self _ _, hid⟩
  refine
    { numbered := htook.numbered h.numbered
      seen := fun g => ?_
      games := fun g => ?_
      once := ?_
      stored := fun no => h.stored_took htook no
      settled := Or.inr ⟨hcurrent, fun hhole => ?_⟩ }
  · show g ∈ c₁.seenGameIds ↔ _
    rw [hseen, Finset.mem_insert, h.seen]
    simp [or_comm, eq_comm]
  · have hmsg : msg.gameId ∈ u.client.seenGameIds ∨ c₁.gameId = msg.gameId := by
      rcases htook with ⟨-, hold⟩ | ⟨hid, -⟩ | - | -
      · exact Or.inl hold
      · exact Or.inr hid.symm
      · exact Or.inr rfl
      · exact Or.inr rfl
    have hsplit : ∀ v : ClientRun, (∃ w ∈ Machine.visited (tr ++ [(u, msg)]) v, w.client.gameId = g) ↔
        (g = -1 ∨ ∃ g' ∈ u.client.seenGameIds, g = (g' : ℤ)) ∨ v.client.gameId = g := by
      intro v
      rw [visited_concat, ← h.games]
      simp [or_and_right, exists_or]
    rw [hsplit]
    show _ ∨ c₁.gameId = g ↔ g = -1 ∨ ∃ g' ∈ c₁.seenGameIds, g = (g' : ℤ)
    constructor
    · rintro ((hinit | ⟨g', hg', heq⟩) | heq)
      · exact Or.inl hinit
      · exact Or.inr ⟨g', by rw [hseen]; exact Finset.mem_insert_of_mem hg', heq⟩
      · obtain ⟨g', hg', heq'⟩ := hcurrent
        exact Or.inr ⟨g', hg', heq ▸ heq'⟩
    · rw [hseen]
      rintro (hinit | ⟨g', hg', heq⟩)
      · exact Or.inl (Or.inl hinit)
      · rcases Finset.mem_insert.mp hg' with rfl | hg'
        · rcases hmsg with hin | heq'
          · exact Or.inl (Or.inr ⟨_, hin, heq⟩)
          · exact Or.inr (heq'.trans heq.symm)
        · exact Or.inl (Or.inr ⟨g', hg', heq⟩)
  · rw [gamesPlayed, stages_concat]
    rcases htook.gameId with hid | ⟨hid, hne, hnew⟩
    · rw [if_pos hid.symm, List.append_nil]
      exact h.once
    · rw [if_neg (show ¬u.client.gameId = c₁.gameId by rw [hid]; exact hne.symm)]
      rw [← List.concat_eq_append]
      refine List.Nodup.concat (fun hmem => ?_) h.once
      rcases (h.games _).mp (mem_stages.mp hmem) with hinit | ⟨g', hg', heq⟩
      · change c₁.gameId = -1 at hinit
        omega
      · change c₁.gameId = (g' : ℤ) at heq
        obtain rfl : msg.gameId = g' := by omega
        exact hnew hg'
  · obtain ⟨n', out', hout, hsettled⟩ := h.settled_took htook hhole
    rw [hpending, Except.ok.injEq, Prod.mk.injEq] at hout
    rw [hout.1, hout.2]
    exact hsettled

theorem recalls_run (hr : clientMachine.init r) (hrun : clientMachine.Run r tr t) :
    Recalls tr t := by
  induction hrun with
  | nil =>
    obtain ⟨hlines, unsetWanted, unsetToSend, unsetPlayers, unsetMaxx, unsetMaxy, hclient⟩ := hr
    obtain ⟨c, lines⟩ := r
    obtain rfl : lines = [] := hlines
    obtain rfl : c = .new unsetWanted unsetToSend unsetPlayers unsetMaxx unsetMaxy := hclient
    refine
      { numbered := fun i => by simp [Client.new, SortedMap.size]
        seen := fun g => by simp [Client.new]
        games := fun g => by simp [Machine.visited, Client.new, eq_comm]
        once := by simp [gamesPlayed, stages, Machine.visited]
        stored := fun no => rfl
        settled := Or.inl ⟨rfl, rfl, rfl, rfl⟩ }
  | snoc _ hstep ih => exact ih.step hstep

/-! ## Each game once, each event once -/

/-- The numbers of the events that come with game `g`. -/
def eventNos (g : ℕ) (msgs : List ReceivedMessage) : Finset ℕ :=
  ((msgs.filter fun msg => msg.gameId = g).flatMap fun msg =>
    msg.events.map ReceivedEvent.eventNo).toFinset

theorem mem_eventNos {g no : ℕ} {msgs : List ReceivedMessage} :
    no ∈ eventNos g msgs ↔ ∃ msg ∈ msgs, msg.gameId = g ∧ ∃ e ∈ msg.events, e.eventNo = no := by
  simp [eventNos, and_assoc]

/-- If some number has not come, it is not stored. -/
theorem hasHole_of_stored {c : Client} {g : ℕ} (hid : c.gameId = (g : ℤ))
    (hstored : ∀ no, c.events.find? no = (copies c.gameId tr).find? fun e => e.eventNo = no)
    (hnos : (eventNos g (tr.map Prod.snd)).card < 2 ^ 32) : c.HasHole := by
  obtain ⟨hole, hlt, hnot⟩ := Finset.exists_mem_notMem_of_card_lt_card
    (show (eventNos g (tr.map Prod.snd)).card < (Finset.range (2 ^ 32)).card by
      rwa [Finset.card_range])
  refine ⟨hole, Finset.mem_range.mp hlt, fun hin => hnot (mem_eventNos.mpr ?_)⟩
  obtain ⟨e, he⟩ := SortedMap.mem_iff_find?.mp hin
  rw [hstored, hid] at he
  obtain ⟨x, hx, hreads⟩ := List.mem_flatMap.mp (List.mem_of_find?_eq_some he)
  obtain ⟨hx, hgame⟩ := List.mem_filter.mp hx
  have hgame : x.2.gameId = g := by
    rw [decide_eq_true_eq] at hgame
    omega
  refine ⟨x.2, List.mem_map_of_mem hx, hgame, e, ?_, by simpa using List.find?_some he⟩
  rw [reads] at hreads
  split at hreads
  · exact hreads
  · exact absurd hreads List.not_mem_nil

/-- **Progress.** A client that does not exit goes on. -/
theorem exists_exec (hr : clientMachine.init r) {msgs : List ReceivedMessage}
    (hnos : ∀ g, (eventNos g msgs).card < 2 ^ 32)
    (hexit : clientMachine.exec msgs r ≠ .error .exit)
    (herror : clientMachine.exec msgs r ≠ .error .decoderError) :
    ∃ t, clientMachine.exec msgs r = .ok t := by
  induction msgs using List.reverseRecOn with
  | nil => exact ⟨r, rfl⟩
  | append_singleton msgs msg ih =>
    rw [exec_concat] at hexit herror ⊢
    have hnos' : ∀ g, (eventNos g msgs).card < 2 ^ 32 := fun g => by
      refine (Finset.card_le_card fun no hno => ?_).trans_lt (hnos g)
      obtain ⟨m, hm, h⟩ := mem_eventNos.mp hno
      exact mem_eventNos.mpr ⟨m, List.mem_append_left _ hm, h⟩
    obtain ⟨u, hu⟩ := ih hnos' (fun h => hexit (by rw [h]; rfl)) fun h => herror (by rw [h]; rfl)
    obtain ⟨tr, hrun, rfl⟩ := exists_run_of_exec hu
    rw [hu] at hexit herror ⊢
    have hrecalls := recalls_run hr hrun
    change clientMachine.step msg u ≠ _ at hexit
    change clientMachine.step msg u ≠ _ at herror
    show ∃ t, clientMachine.step msg u = .ok t
    rcases processMessageFromServer_cases msg u.client with ⟨c₁, htook, heq⟩ | heq | heq
    · have hid : ∃ g : ℕ, c₁.gameId = (g : ℤ) := by
        rcases htook.gameId with hid | ⟨hid, -, -⟩
        · obtain ⟨g, -, hg⟩ := (hrecalls.entered htook hid).1
          exact ⟨g, hid.trans hg⟩
        · exact ⟨_, hid⟩
      obtain ⟨g, hid⟩ := hid
      have hhole : c₁.HasHole := hasHole_of_stored hid (hrecalls.stored_took htook) (by
        rw [List.map_append, List.map_singleton]
        exact hnos g)
      obtain ⟨n, out, hout, -⟩ := hrecalls.settled_took htook hhole
      rw [hout] at heq
      simp only [clientMachine, heq]
      exact ⟨_, rfl⟩
    · simp only [clientMachine, heq] at hexit
      exact absurd rfl hexit
    · simp only [clientMachine, heq] at herror
      exact absurd rfl herror

/-- The first `m` events have been shown, once each: for every number, the first copy that came. -/
structure Delivered (tr : List (ClientRun × ReceivedMessage)) (t : ClientRun) (m : ℕ) : Prop where
  stored : ∀ no < m, no ∈ t.client.events
  missing : m ∉ t.client.events
  /-- One line for each number, in increasing order. -/
  lines : t.lines.map some = (List.range m).map t.client.lineOf
  first : ∀ no, t.client.events.find? no =
    (copies t.client.gameId tr).find? fun e => e.eventNo = no
  /-- `GAME_OVER` and unknown types have no text. -/
  silent : ∀ no e, t.client.events.find? no = some e →
    e.eventData = none ∨ e.eventData = some .gameOver → t.client.lineOf no = some []

/-- A message that has no effect on a client that has settled. -/
theorem Recalls.stray (h : Recalls tr t) (hhole : t.client.HasHole)
    (hseen : msg.gameId ∈ t.client.seenGameIds) (hne : (msg.gameId : ℤ) ≠ t.client.gameId) :
    t.client.processMessageFromServer msg = .ok ([], t.client) := by
  obtain ⟨-, hsettled⟩ := h.entered (.stray hne hseen) rfl
  rw [processMessageFromServer, if_pos hne, processMessageFromServerWithMismatchedGameId,
    if_pos hseen]
  exact writePending_of_not_mem (hsettled hhole).missing (hsettled hhole).coherent.sent

theorem Recalls.delivered (h : Recalls tr t) (hhole : t.client.gameId = -1 ∨ t.client.HasHole) :
    ∃ m, Delivered tr t m := by
  have hsilent : ∀ no e, t.client.events.find? no = some e →
      e.eventData = none ∨ e.eventData = some .gameOver → t.client.lineOf no = some [] := by
    rintro no e he (hdata | hdata)
    all_goals rw [lineOf, he, Option.bind_some, eventToMessageForGui, hdata]
  rcases h.settled with ⟨-, -, hevents, hlines⟩ | ⟨⟨g, -, hg⟩, hsettled⟩
  · refine ⟨0, fun no hno => absurd hno (Nat.not_lt_zero no), ?_, ?_, h.stored, hsilent⟩
    · rw [hevents]
      exact SortedMap.not_mem_empty 0
    · rw [hlines]
      rfl
  · have hs := hsettled (hhole.resolve_left (by omega))
    exact ⟨_, hs.coherent.before, hs.missing, hs.lines, h.stored, hsilent⟩

/-- **Each game once, each event once.** Whatever the client gets, as long as it does not exit: no
game comes back, what comes for a game that has been left changes nothing, and of the current game
the events up to the first missing one have been shown in order. -/
theorem clientMachine_games (hr : clientMachine.init r) {msgs : List ReceivedMessage}
    (hnos : ∀ g, (eventNos g msgs).card < 2 ^ 32)
    (hexit : clientMachine.exec msgs r ≠ .error .exit)
    (herror : clientMachine.exec msgs r ≠ .error .decoderError) :
    ∃ tr t, clientMachine.Run r tr t ∧ tr.map Prod.snd = msgs ∧ (gamesPlayed tr t).Nodup ∧
      (∀ msg : ReceivedMessage, (∃ u ∈ visited tr t, u.client.gameId = msg.gameId) →
        t.client.gameId ≠ msg.gameId →
        t.client.processMessageFromServer msg = .ok ([], t.client)) ∧
      ∃ m, Delivered tr t m := by
  obtain ⟨t, ht⟩ := exists_exec hr hnos hexit herror
  obtain ⟨tr, hrun, rfl⟩ := exists_run_of_exec ht
  have h := recalls_run hr hrun
  have hhole : t.client.gameId = -1 ∨ t.client.HasHole := by
    rcases h.settled with ⟨-, hinit, -⟩ | ⟨⟨g, -, hg⟩, -⟩
    · exact Or.inl hinit
    · exact Or.inr (hasHole_of_stored hg h.stored (hnos g))
  refine ⟨tr, t, hrun, rfl, h.once, fun msg hvisited hne => ?_, h.delivered hhole⟩
  rcases (h.games _).mp hvisited with hinit | ⟨g, hg, heq⟩
  · omega
  · obtain rfl : msg.gameId = g := by omega
    have hcurrent : t.client.HasHole := by
      refine hhole.resolve_left fun hinit => ?_
      rcases h.settled with ⟨rfl, -⟩ | ⟨⟨g, -, hg'⟩, -⟩
      · obtain ⟨x, hx, -⟩ := (h.seen _).mp hg
        exact absurd hx List.not_mem_nil
      · omega
    exact h.stray hcurrent hg hne.symm

theorem card_eventNos_le (g : ℕ) (msgs : List ReceivedMessage) :
    (eventNos g msgs).card ≤ (msgs.map fun msg => msg.events.length).sum := by
  refine (List.toFinset_card_le _).trans ?_
  refine (List.Sublist.flatMap List.filter_sublist _).length_le.trans ?_
  rw [List.length_flatMap]
  simp only [List.length_map, le_refl]

/-- Game 9 begins while the log of game 7 is still being repeated, and its second event is lost. -/
def gameAfterGame : List ReceivedMessage :=
  [⟨7, (twoPlayersLog 7).events⟩, ⟨9, (twoPlayersLog 9).events.take 1⟩,
    ⟨7, (twoPlayersLog 7).events.drop 1⟩, ⟨9, (twoPlayersLog 9).events.drop 2⟩]

/-- The client goes from game to game, and has shown the first event of game 9. -/
theorem clientMachine_games_two : ∃ tr t, clientMachine.Run freshClient tr t ∧
    tr.map Prod.snd = gameAfterGame ∧ gamesPlayed tr t = [-1, 7, 9] ∧
    t.client.events.keys = [0, 2] ∧
    t.client.processMessageFromServer ⟨7, (twoPlayersLog 7).events⟩ = .ok ([], t.client) ∧
    Delivered tr t 1 := by
  obtain ⟨tr, t, hrun, hops, -, hstray, m, hdelivered⟩ := clientMachine_games init_freshClient
    (fun g => (card_eventNos_le g gameAfterGame).trans_lt (by decide)) (by decide +kernel)
    (by decide +kernel)
  obtain ⟨hgames, hkeys, hid, hlines⟩ := hrun.of_any
    (P := fun tr t => gamesPlayed tr t = [-1, 7, 9] ∧ t.client.events.keys = [0, 2] ∧
      t.client.gameId = 9 ∧ t.lines.length = 1) hops (by decide +kernel)
  have hseven : ∃ u ∈ visited tr t, u.client.gameId = 7 := by
    refine mem_stages.mp (?_ : 7 ∈ gamesPlayed tr t)
    rw [hgames]
    decide
  obtain rfl : m = 1 := by
    have hlength := congrArg List.length hdelivered.lines
    simpa only [List.length_map, List.length_range, hlines] using hlength.symm
  exact ⟨tr, t, hrun, hops, hgames, hkeys, hstray _ hseven (by rw [hid]; decide), hdelivered⟩

/-! ## Messages without events -/

/-- **A message without events** has no effect if its game has been seen. If not, the client enters
the game. -/
theorem Recalls.events_eq_nil (h : Recalls tr t) (hhole : t.client.HasHole)
    (hnone : msg.events = []) : t.client.processMessageFromServer msg = .ok ([],
      if (msg.gameId : ℤ) = t.client.gameId ∨ msg.gameId ∈ t.client.seenGameIds then t.client
      else t.client.enter msg.gameId) := by
  by_cases hid : (msg.gameId : ℤ) = t.client.gameId
  · have htook := Took.current (c := t.client) hid (by rw [hnone]; simp)
    rw [hnone] at htook
    obtain ⟨-, hsettled⟩ := h.entered htook rfl
    rw [if_pos (Or.inl hid), processMessageFromServer, if_neg (not_not.mpr hid), hnone]
    exact writePending_of_not_mem (hsettled hhole).missing (hsettled hhole).coherent.sent
  · by_cases hseen : msg.gameId ∈ t.client.seenGameIds
    · rw [if_pos (Or.inr hseen)]
      exact h.stray hhole hseen hid
    · rw [if_neg (not_or.mpr ⟨hid, hseen⟩), processMessageFromServer, if_pos hid,
        processMessageFromServerWithMismatchedGameId, if_neg hseen, hnone]
      exact writePending_of_not_mem (SortedMap.not_mem_empty 0) rfl

/-! ## The order of games -/

/-- Game `g` was started before game `g'`. -/
def Before (games : List ℕ) (g g' : ℕ) : Prop := [g, g'].Sublist games

/-- The client never goes back to an earlier game. -/
def Forward (games : List ℕ) (tr : List (ClientRun × ReceivedMessage)) (t : ClientRun) : Prop :=
  (visited tr t).Pairwise fun u v =>
    ∀ g g', Before games g g' → u.client.gameId = (g' : ℤ) → v.client.gameId ≠ (g : ℤ)

/-- The first datagram of a game arrives before those of later games. -/
def FirstsInOrder (games ids : List ℕ) : Prop :=
  ∀ pre g post, ids = pre ++ g :: post → g ∉ pre → ∀ g' ∈ pre, ¬Before games g g'

variable {games : List ℕ}

theorem not_before_self (hgames : games.Nodup) (g : ℕ) : ¬Before games g g := by
  intro h
  exact absurd (hgames.sublist h) (by simp)

theorem firstsInOrder_concat {ids : List ℕ} {g : ℕ} : FirstsInOrder games (ids ++ [g]) ↔
    FirstsInOrder games ids ∧ (g ∉ ids → ∀ g' ∈ ids, ¬Before games g g') := by
  constructor
  · intro h
    refine ⟨fun pre k post heq => h pre k (post ++ [g]) ?_, h ids g [] rfl⟩
    rw [heq, List.append_assoc, List.cons_append]
  · rintro ⟨hids, hlast⟩ pre k post heq
    rcases List.eq_nil_or_concat post with rfl | ⟨post, k', rfl⟩
    · obtain ⟨rfl, hk⟩ := List.append_inj' heq rfl
      obtain rfl : g = k := List.singleton_inj.mp hk
      exact hlast
    · rw [List.concat_eq_append, ← List.cons_append, ← List.append_assoc] at heq
      obtain ⟨rfl, -⟩ := List.append_inj' heq rfl
      exact hids pre k post rfl

/-- **When the client goes forward**: exactly when, of any two games it hears of, it hears of the
earlier one first. -/
theorem clientMachine_forward_iff (hgames : games.Nodup) (hr : clientMachine.init r)
    (hrun : clientMachine.Run r tr t) :
    Forward games tr t ↔ FirstsInOrder games (tr.map fun x => x.2.gameId) := by
  induction hrun with
  | nil =>
    refine iff_of_true (List.pairwise_singleton _ _) fun pre g post heq => ?_
    exact absurd heq (by simp)
  | @snoc tr u t msg hrun hstep ih =>
    have h := recalls_run hr hrun
    obtain ⟨c₁, out, n, m, htook, hpending, rfl⟩ := clientMachine_step_cases hstep
    have hids : ∀ g, g ∈ tr.map (fun x => x.2.gameId) ↔ g ∈ u.client.seenGameIds := fun g => by
      rw [h.seen, List.mem_map]
    rw [List.map_append, List.map_singleton, firstsInOrder_concat, ← ih, Forward, visited_concat,
      List.pairwise_append]
    refine and_congr_right fun hforward => ?_
    simp only [List.pairwise_singleton, List.mem_singleton, forall_eq, true_and, hids]
    show (∀ v ∈ visited tr u, ∀ g g', Before games g g' → v.client.gameId = (g' : ℤ) →
      c₁.gameId ≠ (g : ℤ)) ↔ _
    rcases htook.gameId with hid | ⟨hid, -, hnew⟩
    · -- the client stays in its game
      refine iff_of_true (fun v hv g g' hbefore hv' => ?_) fun hnew => ?_
      · rw [hid]
        rcases List.mem_append.mp hv with hv | hv
        · exact (List.pairwise_append.mp hforward).2.2 v hv u (List.mem_singleton.mpr rfl) g g'
            hbefore hv'
        · obtain rfl : v = u := List.mem_singleton.mp hv
          intro hg
          obtain rfl : g = g' := by omega
          exact not_before_self hgames g hbefore
      · obtain ⟨⟨g, hg, heq⟩, -⟩ := h.entered htook hid
        rcases htook with ⟨-, hseen⟩ | ⟨hcurrent, -⟩ | ⟨hne, -, -⟩ | ⟨hne, -, -, -, -⟩
        · exact absurd hseen hnew
        · obtain rfl : msg.gameId = g := by omega
          exact absurd hg hnew
        · exact absurd hid hne
        · exact absurd hid hne
    · constructor
      · intro hall _ g' hg' hbefore
        obtain ⟨v, hv, hv'⟩ := (h.games g').mpr (Or.inr ⟨g', hg', rfl⟩)
        exact hall v hv msg.gameId g' hbefore hv' hid
      · intro hall v hv g g' hbefore hv' hg
        rcases (h.games g').mp ⟨v, hv, hv'⟩ with hinit | ⟨g'', hg'', heq⟩
        · omega
        · obtain rfl : g' = g'' := by omega
          obtain rfl : g = msg.gameId := by omega
          exact hall hnew g' hg'' hbefore

/-- Two games, in the order in which they were started. -/
theorem clientMachine_forward_two : ∃ tr t, clientMachine.Run freshClient tr t ∧
    tr.map Prod.snd = [⟨7, (twoPlayersLog 7).events⟩, ⟨9, (twoPlayersLog 9).events⟩] ∧
    Forward [7, 9] tr t := by
  have hok : (clientMachine.exec [⟨7, (twoPlayersLog 7).events⟩, ⟨9, (twoPlayersLog 9).events⟩]
    freshClient).isOk = true := by decide +kernel
  obtain ⟨t, ht⟩ := Except.exists_of_isOk hok
  obtain ⟨tr, hrun, hmsgs⟩ := exists_run_of_exec ht
  refine ⟨tr, t, hrun, hmsgs, (clientMachine_forward_iff (by decide) init_freshClient hrun).mpr ?_⟩
  rw [show tr.map (fun x => x.2.gameId) = (tr.map Prod.snd).map ReceivedMessage.gameId from
    (List.map_map ..).symm, hmsgs]
  show FirstsInOrder [7, 9] (([] ++ [7]) ++ [9])
  rw [firstsInOrder_concat, firstsInOrder_concat]
  refine ⟨⟨fun pre g post heq => absurd heq (by simp), fun _ g' hg' => absurd hg' (by simp)⟩, ?_⟩
  intro _ g' hg'
  obtain rfl : g' = 7 := by simpa using hg'
  rw [Before]
  decide

/-- Game 7 was started before game 9, but its datagram arrives later. -/
theorem not_forward : ∃ tr t, clientMachine.Run freshClient tr t ∧
    (∀ x ∈ tr, ∃ log ∈ [twoPlayersLog 7, twoPlayersLog 9], IsSlice x.2 log) ∧
    ¬Forward [7, 9] tr t := by
  have hrun : (match clientMachine.step ⟨9, (twoPlayersLog 9).events⟩ freshClient with
      | .ok u => match clientMachine.step ⟨7, (twoPlayersLog 7).events⟩ u with
        | .ok t => decide (u.client.gameId = 9 ∧ t.client.gameId = 7)
        | .error _ => false
      | .error _ => false) = true := by decide +kernel
  rcases hu : clientMachine.step ⟨9, (twoPlayersLog 9).events⟩ freshClient with e | u
  · rw [hu] at hrun
    exact absurd hrun Bool.false_ne_true
  rw [hu] at hrun
  rcases ht : clientMachine.step ⟨7, (twoPlayersLog 7).events⟩ u with e | t
  · simp only [ht] at hrun
    exact absurd hrun Bool.false_ne_true
  simp only [ht, decide_eq_true_eq] at hrun
  refine ⟨_, t, .snoc (.snoc .nil hu) ht, fun x hx => ?_, fun hforward => ?_⟩
  · rcases List.mem_pair.mp hx with rfl | rfl
    · exact ⟨twoPlayersLog 9, by simp, rfl, List.infix_rfl⟩
    · exact ⟨twoPlayersLog 7, by simp, rfl, List.infix_rfl⟩
  · have hlast := (List.pairwise_append.mp hforward).2.2 u (by simp) t (List.mem_singleton.mpr rfl)
    exact hlast 7 9 (by rw [Before]) hrun.1 hrun.2

end ScreenWorms
