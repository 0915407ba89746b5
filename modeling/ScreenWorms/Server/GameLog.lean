import ScreenWorms.Server.FixedPoint
import ScreenWorms.Server.GameInvariant

/-!
# The log of a game

The events a game saves, from one `startGame` to the next, for any order of operations and whatever
the platform makes of worms' positions. `Game` is a game as its log tells it, `Game.WellPlayed` says
which ones are played, and `Game.Tracks` ties a game under way to the members of the game manager.

`Tracks todo` is kept by every worm that is put on the board, with `todo` the worms still to come,
and by every worm that moves, with nothing to come. The game ends on the last elimination but one.
While worms are put on the board this can only happen at the last of them, since the first one is
never eliminated.

## Main definitions

* `Game`, `Game.log`, `Game.WellPlayed`
* `Game.Tracks` — the game that is under way
* `scheduled` — the events among calls on the queue

## Main results

* `Game.Tracks.push` — what one event does
* `gameMachine_logs` — the history of events is a sequence of logs of well-played games
* `reachable_gameTask` — whatever the server does, its game manager is in a state of `gameMachine`
-/

namespace ScreenWorms

variable {D : Type}

open GameTask

/-! ## Games -/

/-- The player an event between `NEW_GAME` and `GAME_OVER` is about. -/
def GameEventVariant.about : GameEventVariant → Option ℕ
  | .pixel e => some e.playerNumber
  | .playerEliminated e => some e.playerNumber
  | _ => none

def GameEventVariant.isElimination : GameEventVariant → Bool
  | .playerEliminated _ => true
  | _ => false

/-- A game as far as it has been played: its players and the events between `NEW_GAME` and
`GAME_OVER`. -/
structure Game where
  gameId : ℕ
  maxx : ℕ
  maxy : ℕ
  names : List PlayerName
  events : List GameEventVariant

namespace Game

/-- The number of `PLAYER_ELIMINATED` events. -/
def eliminations (x : Game) : ℕ := x.events.countP (·.isElimination)

/-- All players but one have been eliminated. -/
def IsOver (x : Game) : Prop := x.eliminations = x.names.length - 1

instance (x : Game) : Decidable x.IsOver := inferInstanceAs (Decidable (_ = _))

/-- The part of the log before `GAME_OVER`. -/
def played (x : Game) : List GameEventVariant :=
  .newGame (.ofNames x.maxx x.maxy (x.names.map Subtype.val)) :: x.events

/-- The events of the game; the last one is `GAME_OVER` exactly when the game is over. -/
def log (x : Game) : List GameEventVariant := x.played ++ if x.IsOver then [.gameOver] else []

/-- The log as it was scheduled. -/
def scheduledLog (x : Game) : List (ℕ × GameEventVariant) := x.log.map (Prod.mk x.gameId)

/-- **The grammar of logs.** -/
structure WellPlayed (x : Game) : Prop where
  /-- At least two players, in ascending order. -/
  two_le : 2 ≤ x.names.length
  ascending : x.names.Pairwise (· < ·)
  /-- First exactly one event about each player, in their order. -/
  opening : (x.events.take x.names.length).map GameEventVariant.about =
    (List.range x.names.length).map some
  /-- Every event is about one of the players. -/
  about : ∀ e ∈ x.events, ∃ no < x.names.length, e.about = some no
  /-- No event is about a player that has been eliminated. -/
  silent : x.events.Pairwise fun e e' => e.isElimination = true → e.about ≠ e'.about
  /-- At least one player is left. -/
  eliminations_le : x.eliminations ≤ x.names.length - 1

/-! ## The game under way -/

/-- The game `x` is under way in `g`, and the worms of `todo` are still to come. -/
structure Tracks (todo : List PlayerName) (x : Game) (g : GameState D) : Prop where
  gameId : x.gameId = g.gameId
  two_le : 2 ≤ x.names.length
  ascending : x.names.Pairwise (· < ·)
  todo_eq : x.names.drop x.events.length = todo
  opening : (x.events.take x.names.length).map GameEventVariant.about =
    (List.range (min x.names.length x.events.length)).map some
  about : ∀ e ∈ x.events, ∃ no < x.names.length, e.about = some no
  silent : x.events.Pairwise fun e e' => e.isElimination = true → e.about ≠ e'.about
  /-- Players have the numbers of their places. -/
  number : ∀ no name, x.names[no]? = some name → g.playerNumberInGame.find? name = some no
  /-- Whoever takes part is one of the players. -/
  member : ∀ name p, g.players.find? name = some p → p.takesPartInCurrentGame = true →
    name ∈ x.names
  /-- There is no elimination of a player that is still to come or still in the game. -/
  alive : ∀ name p no, g.players.find? name = some p → (name ∈ todo || p.isAlive) = true →
    x.names[no]? = some name → ∀ e ∈ x.events, e.isElimination = true → e.about ≠ some no
  alive_eq : g.alivePlayers + x.eliminations = x.names.length
  /-- The first event is not an elimination, since no pixel is eaten before it. -/
  fresh : x.events = [] → g.eatenPixels = ∅
  late : x.events ≠ [] → x.eliminations < x.events.length

/-- The game goes on with one more event. -/
def push (e : GameEventVariant) (x : Game) : Game := { x with events := x.events ++ [e] }

@[simp] theorem played_push (e : GameEventVariant) (x : Game) :
    (x.push e).played = x.played ++ [e] := rfl

theorem eliminations_push (e : GameEventVariant) (x : Game) :
    (x.push e).eliminations = x.eliminations + if e.isElimination then 1 else 0 := by
  simp only [eliminations, push, List.countP_append, List.countP_singleton]

variable {todo : List PlayerName} {x : Game} {g g' : GameState D}

theorem Tracks.mem_names (h : x.Tracks todo g) {name : PlayerName} {p : Player D}
    (hp : g.players.find? name = some p) (hwas : (name ∈ todo || p.isAlive) = true) :
    ∃ no : ℕ, x.names[no]? = some name := by
  rw [← List.mem_iff_getElem?]
  simp only [Player.isAlive, Bool.or_eq_true, decide_eq_true_eq, Bool.and_eq_true] at hwas
  rcases hwas with hin | ⟨htakes, -⟩
  · rw [← h.todo_eq] at hin
    exact List.mem_of_mem_drop hin
  · exact h.member name p hp htakes

theorem Tracks.nodup (h : x.Tracks todo g) : x.names.Nodup := h.ascending.imp fun hlt => hlt.ne

/-- A place determines a name, and a name a place. -/
theorem Tracks.place_eq (h : x.Tracks todo g) {no no' : ℕ} {name : PlayerName}
    (hno : x.names[no]? = some name) (hno' : x.names[no']? = some name) : no = no' := by
  have hnum := h.number no name hno
  rw [h.number no' name hno'] at hnum
  exact (Option.some.inj hnum).symm

section Push

variable {name : PlayerName} {p q : Player D} {no : ℕ} {e : GameEventVariant}

theorem Tracks.not_mem_tail (h : x.Tracks todo g) (hhead : ∀ n ∈ todo.head?, n = name) :
    name ∉ todo.tail := by
  cases htodo : todo with
  | nil => simp
  | cons n rest =>
    rw [htodo] at hhead
    obtain rfl := hhead n rfl
    have hnodup : (n :: rest).Nodup := by
      rw [← htodo, ← h.todo_eq]
      exact h.nodup.sublist (List.drop_sublist _ _)
    exact (List.nodup_cons.mp hnodup).1

/-- The first events are about the worms that are put on the board, in the order of the names. -/
theorem Tracks.opening_push (h : x.Tracks todo g) (hhead : ∀ n ∈ todo.head?, n = name)
    (hplace : x.names[no]? = some name) (he : e.about = some no) :
    ((x.events ++ [e]).take x.names.length).map GameEventVariant.about =
      (List.range (min x.names.length (x.events.length + 1))).map some := by
  by_cases hplacing : x.events.length < x.names.length
  · have htodo : todo.head? = some x.names[x.events.length] := by
      rw [← h.todo_eq, List.head?_drop, List.getElem?_eq_getElem hplacing]
    have hnext : x.names[x.events.length]? = some name := by
      rw [List.getElem?_eq_getElem hplacing, hhead _ htodo]
    have hopening := h.opening
    rw [List.take_of_length_le hplacing.le, min_eq_right hplacing.le] at hopening
    have hle : (x.events ++ [e]).length ≤ x.names.length := by
      rw [List.length_append, List.length_singleton]
      omega
    rw [List.take_of_length_le hle, min_eq_right hplacing, List.map_append, hopening,
      List.range_succ, List.map_append]
    simp [he, h.place_eq hplace hnext]
  · have hge := not_lt.mp hplacing
    rw [List.take_append_of_le_length hge, h.opening, min_eq_left hge, min_eq_left (by omega)]

/-- Only the worm that the event is about may have been eliminated by it. -/
theorem Tracks.alive_push (h : x.Tracks todo g) (hp : g.players.find? name = some p)
    (hwas : (name ∈ todo || p.isAlive) = true) (htail : name ∉ todo.tail)
    (hplace : x.names[no]? = some name) (he : e.about = some no)
    (helim : q.isEliminated = e.isElimination) {n : PlayerName} {r : Player D} {no' : ℕ}
    (hr : (g.players.adjust name fun _ => q).find? n = some r)
    (hstill : (n ∈ todo.tail || r.isAlive) = true) (hplace' : x.names[no']? = some n) :
    ∀ e' ∈ x.events ++ [e], e'.isElimination = true → e'.about ≠ some no' := by
  intro e' he' helim'
  rw [SortedMap.find?_adjust, Option.map_eq_some_iff] at hr
  obtain ⟨r', hr', hreq⟩ := hr
  by_cases hn : n = name
  · subst hn
    rw [hp] at hr'
    cases hr'
    rw [if_pos rfl] at hreq
    subst hreq
    rcases List.mem_append.mp he' with he' | he'
    · exact h.alive n p no' hp hwas hplace' e' he' helim'
    · -- an eliminated worm is no longer alive
      rw [List.mem_singleton.mp he'] at helim'
      simp [Player.isAlive, helim, helim', htail] at hstill
  · rw [if_neg hn] at hreq
    subst hreq
    rcases List.mem_append.mp he' with he' | he'
    · refine h.alive n r' no' hr' ?_ hplace' e' he' helim'
      simp only [Bool.or_eq_true, decide_eq_true_eq] at hstill ⊢
      exact hstill.imp_left List.mem_of_mem_tail
    · rw [List.mem_singleton.mp he', he]
      intro heq
      obtain rfl := Option.some.inj heq
      have hsame : some name = some n := hplace.symm.trans hplace'
      exact hn (Option.some.inj hsame).symm

theorem Tracks.late_push (h : x.Tracks todo g)
    (hlate : e.isElimination = true → x.events ≠ []) :
    (x.push e).eliminations < (x.push e).events.length := by
  rw [eliminations_push]
  simp only [Game.push, List.length_append, List.length_singleton]
  cases hev : x.events with
  | nil =>
    have hnot : e.isElimination = false := by
      by_contra hcon
      exact hlate (Bool.not_eq_false _ ▸ hcon) hev
    simp [eliminations, hev, hnot]
  | cons e' es =>
    have hlt := h.late (by rw [hev]; simp)
    rw [hev, List.length_cons] at hlt
    simp only [List.length_cons]
    split <;> omega

/-- **One event.** The worm `name` is put on the board or moves, and the event about it is saved. -/
theorem Tracks.push (h : x.Tracks todo g) (hp : g.players.find? name = some p)
    (hwas : (name ∈ todo || p.isAlive) = true) (hhead : ∀ n ∈ todo.head?, n = name)
    (hno : g.playerNumberInGame.find? name = some no) (he : e.about = some no)
    (hplayers : g'.players = g.players.adjust name fun _ => q)
    (helim : q.isEliminated = e.isElimination)
    (hnumbers : g'.playerNumberInGame = g.playerNumberInGame) (hid : g'.gameId = g.gameId)
    (halive : g'.alivePlayers + (if e.isElimination then 1 else 0) = g.alivePlayers)
    (hlate : e.isElimination = true → x.events ≠ []) : (x.push e).Tracks todo.tail g' := by
  obtain ⟨no', hplace⟩ := h.mem_names hp hwas
  have hnum := h.number no' name hplace
  rw [hno] at hnum
  cases hnum
  refine
    { gameId := h.gameId.trans hid.symm
      two_le := h.two_le
      ascending := h.ascending
      todo_eq := ?_
      opening := ?_
      about := ?_
      silent := ?_
      number := fun n m hm => hnumbers ▸ h.number n m hm
      member := ?_
      alive := ?_
      alive_eq := ?_
      fresh := fun hnil => absurd hnil (by simp [Game.push])
      late := fun _ => h.late_push hlate }
  · simp only [Game.push, List.length_append, List.length_singleton, ← h.todo_eq, List.tail_drop]
  · simp only [Game.push, List.length_append, List.length_singleton]
    exact h.opening_push hhead hplace he
  · intro e' he'
    rcases List.mem_append.mp he' with he' | he'
    · exact h.about e' he'
    · rw [List.mem_singleton.mp he']
      exact ⟨no, (List.getElem?_eq_some_iff.mp hplace).1, he⟩
  · refine List.pairwise_append.mpr
      ⟨h.silent, List.pairwise_singleton _ _, fun e' he' e'' he'' => ?_⟩
    rw [List.mem_singleton.mp he'', he]
    exact h.alive name p no hp hwas hplace e' he'
  · intro n r hr ht
    rw [hplayers, SortedMap.find?_adjust, Option.map_eq_some_iff] at hr
    obtain ⟨r', hr', hreq⟩ := hr
    by_cases hn : n = name
    · subst hn
      exact List.mem_of_getElem? hplace
    · rw [if_neg hn] at hreq
      subst hreq
      exact h.member n r' hr' ht
  · intro n r no' hr hstill hplace'
    rw [hplayers] at hr
    exact h.alive_push hp hwas (h.not_mem_tail hhead) hplace he helim hr hstill hplace'
  · have heq := h.alive_eq
    rw [eliminations_push]
    simp only [Game.push]
    omega

end Push

/-- Members that are not about worms may change, and players who take no part may come. -/
theorem Tracks.of_players (h : x.Tracks [] g)
    (hp : ∀ name q, g'.players.find? name = some q → q.takesPartInCurrentGame = true →
      ∃ p, g.players.find? name = some p ∧ p.takesPartInCurrentGame = true ∧
        p.isEliminated = q.isEliminated)
    (hid : g'.gameId = g.gameId) (hnumbers : g'.playerNumberInGame = g.playerNumberInGame)
    (halive : g'.alivePlayers = g.alivePlayers) : x.Tracks [] g' := by
  have hev : x.events ≠ [] := by
    intro hnil
    have := h.todo_eq
    rw [hnil, List.length_nil, List.drop_zero] at this
    have htwo := h.two_le
    simp [this] at htwo
  refine { h with
    gameId := h.gameId.trans hid.symm
    number := fun no name hno => hnumbers ▸ h.number no name hno
    member := fun name q hq ht => ?_
    alive := fun name q no hq hstill hplace => ?_
    alive_eq := halive ▸ h.alive_eq
    fresh := fun hnil => absurd hnil hev }
  · obtain ⟨p, hfind, htakes, -⟩ := hp name q hq ht
    exact h.member name p hfind htakes
  · simp only [List.not_mem_nil, decide_false, Bool.false_or, Player.isAlive, Bool.and_eq_true,
      Bool.not_eq_true'] at hstill
    obtain ⟨p, hfind, htakes, helim⟩ := hp name q hq hstill.1
    exact h.alive name p no hfind (by simp [Player.isAlive, htakes, helim, hstill.2]) hplace

/-- An elimination needs an earlier event: the pixel was eaten, or all worms are on the board. -/
theorem Tracks.events_ne_nil (h : x.Tracks todo g) (hlate : g.eatenPixels ≠ ∅ ∨ todo = []) :
    x.events ≠ [] := by
  intro hnil
  rcases hlate with hlate | hlate
  · exact hlate (h.fresh hnil)
  · have hdrop := h.todo_eq
    have htwo := h.two_le
    rw [hnil, hlate, List.length_nil, List.drop_zero] at hdrop
    simp [hdrop] at htwo

/-- A game of which all worms are on the board is well played. -/
theorem Tracks.wellPlayed (h : x.Tracks [] g) (hge : 1 ≤ g.alivePlayers) : x.WellPlayed where
  two_le := h.two_le
  ascending := h.ascending
  opening := by
    have hlen := List.drop_eq_nil_iff.mp h.todo_eq
    rw [h.opening, min_eq_left hlen]
  about := h.about
  silent := h.silent
  eliminations_le := by
    have := h.alive_eq
    omega

/-- A game of which at least two players are left has no `GAME_OVER` in its log. -/
theorem Tracks.scheduledLog_eq (h : x.Tracks todo g) (hge : 2 ≤ g.alivePlayers) :
    ¬x.IsOver ∧ x.scheduledLog = x.played.map (Prod.mk x.gameId) := by
  have hover : ¬x.IsOver := by
    have heq := h.alive_eq
    show ¬x.eliminations = x.names.length - 1
    omega
  rw [scheduledLog, log, if_neg hover, List.append_nil]
  exact ⟨hover, rfl⟩

/-- When one player is left, all worms are on the board: the first event was no elimination. -/
theorem Tracks.over (h : x.Tracks todo g) (hone : g.alivePlayers = 1) :
    x.WellPlayed ∧ x.IsOver := by
  have heq := h.alive_eq
  have htwo := h.two_le
  have hne : x.events ≠ [] := by
    intro hnil
    simp only [eliminations, hnil, List.countP_nil] at heq
    omega
  have hlate := h.late hne
  have htodo : todo = [] := by
    rw [← h.todo_eq, List.drop_eq_nil_iff]
    omega
  subst htodo
  refine ⟨h.wellPlayed hone.ge, ?_⟩
  show x.eliminations = x.names.length - 1
  omega

end Game

/-! ## The history of a game manager -/

/-- The event a call schedules, with the game it belongs to. -/
def MQCall.scheduled? : MQCall → Option (ℕ × GameEventVariant)
  | .schedule gameId event => some (gameId, event)
  | _ => none

/-- The events among calls on the queue. -/
def scheduled (calls : List MQCall) : List (ℕ × GameEventVariant) :=
  calls.filterMap MQCall.scheduled?

@[simp] theorem scheduled_append (calls calls' : List MQCall) :
    scheduled (calls ++ calls') = scheduled calls ++ scheduled calls' :=
  List.filterMap_append

@[simp] theorem scheduled_nil : scheduled [] = [] := rfl

@[simp] theorem scheduled_schedule (gameId : ℕ) (event : GameEventVariant) (calls : List MQCall) :
    scheduled (.schedule gameId event :: calls) = (gameId, event) :: scheduled calls := rfl

@[simp] theorem scheduled_dropQueue (f : Fingerprint) (calls : List MQCall) :
    scheduled (.dropQueue f :: calls) = scheduled calls := rfl

@[simp] theorem scheduled_addQueue (f : Fingerprint) (no : ℕ) (calls : List MQCall) :
    scheduled (.addQueue f no :: calls) = scheduled calls := rfl

@[simp] theorem scheduled_ack (f : Fingerprint) (no : ℕ) (calls : List MQCall) :
    scheduled (.ack f no :: calls) = scheduled calls := rfl

@[simp] theorem scheduled_droppedQueues (players : SortedMap PlayerName (Player D)) :
    scheduled (droppedQueues players) = [] := by
  simp [scheduled, droppedQueues, MQCall.scheduled?]

/-- A watcher's message changes the watchers, and schedules nothing. -/
theorem exists_handleMessageFromWatcher (f : Fingerprint) (msg : ClientToServerMessage)
    (g : GameTask D) : ∃ watchers calls, g.handleMessageFromWatcher f msg =
      { g with watchers := watchers, calls := calls } ∧ scheduled calls = scheduled g.calls := by
  rw [GameTask.handleMessageFromWatcher]
  cases g.watchers.find? f with
  | none =>
    simp only
    split
    · exact ⟨_, _, rfl, rfl⟩
    · exact ⟨_, _, rfl, by simp⟩
  | some watcher =>
    simp only
    split
    · exact ⟨_, _, rfl, by simp⟩
    · split
      · exact ⟨_, _, rfl, by simp [call]⟩
      · exact ⟨_, _, rfl, rfl⟩

/-- Disconnecting a socket changes the watchers and the players, and schedules nothing. -/
theorem exists_dropConnection (f : Fingerprint) (g : GameTask D) :
    ∃ watchers players calls, g.dropConnection f =
      { g with watchers := watchers, players := players, calls := calls } ∧
      scheduled calls = scheduled g.calls := by
  by_cases hw : f ∈ g.watchers
  · rw [dropConnection_of_watcher hw]
    exact ⟨_, _, _, rfl, by simp⟩
  · by_cases hs : g.gameStarted = true
    · rw [dropConnection_of_running hw hs]
      exact ⟨_, _, _, rfl, by simp⟩
    · rw [dropConnection_of_lobby hw (Bool.eq_false_iff.mpr hs)]
      exact ⟨_, _, _, rfl, by simp⟩

/-- The games before the current one: all of them are over. -/
def Finished (past : List Game) : Prop := ∀ y ∈ past, y.WellPlayed ∧ y.IsOver

/-- What has been scheduled, with what came `before` the current operation, are the logs of finished
games and of the game under way. -/
inductive Recorded (before : List (ℕ × GameEventVariant)) (todo : List PlayerName)
    (g : GameTask D) : Prop
  | lobby (past : List Game) (hpast : Finished past) (hs : g.gameStarted = false)
    (hlog : before ++ scheduled g.calls = past.flatMap Game.scheduledLog)
  | running (past : List Game) (hpast : Finished past) (hs : g.gameStarted = true) (x : Game)
    (hx : x.Tracks todo g.toGameState)
    (hlog : before ++ scheduled g.calls =
      past.flatMap Game.scheduledLog ++ x.played.map (Prod.mk x.gameId))

variable {before : List (ℕ × GameEventVariant)} {todo : List PlayerName} {g g' : GameTask D}

/-- Nothing is scheduled, and the worms stay as they are. -/
theorem Recorded.of_players (h : Recorded before [] g) (hs : g'.gameStarted = g.gameStarted)
    (hcalls : scheduled g'.calls = scheduled g.calls)
    (hp : g.gameStarted = true → ∀ name q, g'.players.find? name = some q →
      q.takesPartInCurrentGame = true → ∃ p, g.players.find? name = some p ∧
        p.takesPartInCurrentGame = true ∧ p.isEliminated = q.isEliminated)
    (hid : g'.gameId = g.gameId) (hnumbers : g'.playerNumberInGame = g.playerNumberInGame)
    (halive : g'.alivePlayers = g.alivePlayers) : Recorded before [] g' := by
  rcases h with ⟨past, hpast, hg, hlog⟩ | ⟨past, hpast, hg, x, hx, hlog⟩
  · exact .lobby past hpast (hs.trans hg) (by rw [hcalls, hlog])
  · exact .running past hpast (hs.trans hg) x (hx.of_players (hp hg) hid hnumbers halive)
      (by rw [hcalls, hlog])

/-- An event of the game under way is saved. -/
theorem log_push {past : List Game} {x : Game} (hlog : before ++ scheduled g.calls =
      past.flatMap Game.scheduledLog ++ x.played.map (Prod.mk x.gameId))
    (hx : x.Tracks todo g.toGameState) (e : GameEventVariant) :
    before ++ scheduled (g.calls ++ [.schedule g.gameId e]) =
      past.flatMap Game.scheduledLog ++ (x.push e).played.map (Prod.mk (x.push e).gameId) := by
  rw [scheduled_append, ← List.append_assoc, hlog, Game.played_push, List.map_append,
    List.append_assoc, ← hx.gameId]
  rfl

/-- **One worm.** It is put on the board or moves: an event is saved, and after the elimination of
the last but one the game is over. -/
theorem Recorded.worm (h : Recorded before todo g) (ho : g.toGameState.Orderly todo)
    (hs : g.gameStarted = true) {name : PlayerName} {p q : Player D} {no : ℕ}
    (hp : g.players.find? name = some p) (hwas : (name ∈ todo || p.isAlive) = true)
    (hhead : ∀ n ∈ todo.head?, n = name) (hno : g.playerNumberInGame.find? p.playerName = some no)
    (hq : q.isAlive = true) (rng : RNG) :
    Recorded before todo.tail (ate name q no { g with rng := rng }) ∧
    (g.eatenPixels ≠ ∅ ∨ todo = [] →
      Recorded before todo.tail (eliminated name q no { g with rng := rng }) ∧
      (toUInt8 (g.alivePlayers + 255) < 2 →
        Recorded before [] (eliminated name q no { g with rng := rng }).endGame)) := by
  rcases h with ⟨-, -, hs', -⟩ | ⟨past, hpast, -, x, hx, hlog⟩
  · exact absurd (hs.symm.trans hs') (by decide)
  have hrun := ho.running hs
  have hge := hrun.alive_ge
  have hless := hrun.toUInt8_alive ho.toRegistered
  rw [(ho.named name p hp).1] at hno
  have hleft : q.isEliminated = false := by
    simp only [Player.isAlive, Bool.and_eq_true, Bool.not_eq_true'] at hq
    exact hq.2
  refine ⟨?_, fun hlate => ?_⟩
  · refine .running past hpast hs (x.push (.pixel ⟨no, q.pixel.1, q.pixel.2⟩)) ?_ ?_
    · exact hx.push hp hwas hhead hno rfl rfl hleft rfl rfl rfl (fun he => by cases he)
    · exact log_push hlog hx _
  · have hne := hx.events_ne_nil hlate
    have hpush : (x.push (.playerEliminated ⟨no⟩)).Tracks todo.tail
        (eliminated name q no { g with rng := rng }).toGameState := by
      refine hx.push hp hwas hhead hno rfl rfl rfl rfl rfl ?_ fun _ => hne
      show toUInt8 (g.alivePlayers + 255) + 1 = g.alivePlayers
      omega
    have hlog' : before ++ scheduled (eliminated name q no { g with rng := rng }).calls =
        past.flatMap Game.scheduledLog ++
          (x.push (.playerEliminated ⟨no⟩)).played.map
            (Prod.mk (x.push (.playerEliminated ⟨no⟩)).gameId) :=
      log_push hlog hx _
    have hid : (x.push (.playerEliminated ⟨no⟩)).gameId = g.gameId := hx.gameId
    refine ⟨.running past hpast hs _ hpush hlog', fun hlt => ?_⟩
    -- the game is over: its log is complete
    obtain ⟨hwell, hover⟩ := hpush.over
      (show toUInt8 (g.alivePlayers + 255) = 1 by omega)
    refine .lobby (past ++ [x.push (.playerEliminated ⟨no⟩)]) ?_ (by rw [endGame_eq]) ?_
    · intro y hy
      rcases List.mem_append.mp hy with hy | hy
      · exact hpast y hy
      · rw [List.mem_singleton.mp hy]
        exact ⟨hwell, hover⟩
    · rw [endGame_eq]
      rw [scheduled_append, ← List.append_assoc, hlog', scheduled_schedule, scheduled_droppedQueues,
        List.flatMap_append, List.flatMap_singleton, List.append_assoc, Game.scheduledLog, Game.log,
        if_pos hover, List.map_append, hid]
      rfl

/-! ## Every operation -/

theorem Recorded.dropConnection (h : Recorded before [] g) (f : Fingerprint) :
    Recorded before [] (g.dropConnection f) := by
  by_cases hw : f ∈ g.watchers
  · rw [dropConnection_of_watcher hw]
    exact h.of_players rfl (by simp) (fun _ name q hq ht => ⟨q, hq, ht, rfl⟩) rfl rfl rfl
  · cases hs : g.gameStarted with
    | true =>
      rw [dropConnection_of_running hw hs]
      refine h.of_players rfl (by simp) (fun _ name q hq ht => ?_) rfl rfl rfl
      obtain ⟨p, hp, rfl⟩ := find?_markDisconnected_eq_some.mp hq
      refine ⟨p, hp, ?_, ?_⟩
      · split at ht <;> exact ht
      · split <;> rfl
    | false =>
      rw [dropConnection_of_lobby hw hs]
      exact h.of_players rfl (by simp) (fun hs' => absurd (hs.symm.trans hs') (by decide))
        rfl rfl rfl

theorem Recorded.handleMessageFromWatcher (h : Recorded before [] g) (f : Fingerprint)
    (msg : ClientToServerMessage) : Recorded before [] (g.handleMessageFromWatcher f msg) := by
  obtain ⟨watchers, calls, heq, hcalls⟩ := exists_handleMessageFromWatcher f msg g
  rw [heq]
  exact h.of_players rfl hcalls (fun _ name q hq ht => ⟨q, hq, ht, rfl⟩) rfl rfl rfl

theorem Recorded.answered (h : Recorded before [] g) {msg : ClientToServerMessage} {p : Player D}
    (hp : g.players.find? msg.playerName = some p) : Recorded before [] (g.answered msg p) := by
  refine h.of_players rfl (by simp [GameTask.answered, call, setPlayer]) (fun _ name q hq ht => ?_)
    rfl rfl rfl
  simp only [GameTask.answered, call, setPlayer, SortedMap.find?_adjust, Option.map_eq_some_iff]
    at hq
  obtain ⟨r, hr, rfl⟩ := hq
  by_cases hn : name = msg.playerName
  · subst hn
    rw [hp] at hr
    cases hr
    rw [if_pos rfl] at ht ⊢
    exact ⟨p, hp, ht, rfl⟩
  · rw [if_neg hn] at ht ⊢
    exact ⟨r, hr, ht, rfl⟩

theorem Recorded.joined (h : Recorded before [] g) (pf : Platform D) (f : Fingerprint)
    {msg : ClientToServerMessage} (hnew : msg.playerName ∉ g.players) :
    Recorded before [] (g.joined pf f msg) := by
  refine h.of_players rfl (by simp [GameTask.joined, call]) (fun _ name q hq ht => ?_) rfl rfl rfl
  simp only [GameTask.joined, call, SortedMap.find?_insert hnew] at hq
  split at hq
  · -- a new player takes no part in the game under way
    cases hq
    cases ht
  · exact ⟨q, hq, ht, rfl⟩

theorem Recorded.moveWorm {pf : Platform D} (h : Recorded before [] g) (hsound : g.toGameState.Sound)
    {name : PlayerName} {p : Player D} {flow : Flow} (hp : g.players.find? name = some p)
    (hbody : moveWorm pf name p g = .ok (flow, g')) : Recorded before [] g' := by
  rcases moveWorm_cases pf name fun hs ha => hsound.toOrderly.number hs hp (by simp [ha]) with
    ⟨-, heq⟩ | ⟨-, -, heq⟩ | ⟨hs, ha, moved, no, -, hmoved, hno, hcase⟩
  · rw [heq] at hbody
    cases hbody
    exact h
  · rw [heq] at hbody
    cases hbody
    exact h
  · obtain ⟨hate, helim⟩ := h.worm hsound.toOrderly hs hp (by simp [ha]) (by simp) hno hmoved g.rng
    obtain ⟨hgone, hended⟩ := helim (Or.inr rfl)
    rcases hcase with heq | heq | ⟨-, heq⟩ | ⟨hlt, heq⟩ <;> rw [heq] at hbody <;> cases hbody
    · -- the worm stays on its pixel
      refine h.of_players rfl rfl (fun _ n q hq ht => ?_) rfl rfl rfl
      simp only [setPlayer, SortedMap.find?_adjust, Option.map_eq_some_iff] at hq
      obtain ⟨r, hr, rfl⟩ := hq
      by_cases hn : n = name
      · subst hn
        rw [if_pos rfl]
        simp only [Player.isAlive, Bool.and_eq_true, Bool.not_eq_true'] at ha hmoved
        exact ⟨p, hp, ha.1, ha.2.trans hmoved.2.symm⟩
      · rw [if_neg hn] at ht ⊢
        exact ⟨r, hr, ht, rfl⟩
    · exact hate
    · exact hgone
    · exact hended hlt

/-- The map has the players, each with its place in the order of the names. -/
theorem find?_numberPlayers_eq {names : List PlayerName} (hnodup : names.Nodup) (n : PlayerName) :
    (numberPlayers names).find? n = if n ∈ names then some (toUInt8 (names.idxOf n)) else none := by
  have hfold : ∀ (names : List PlayerName) (numbers : SortedMap PlayerName ℕ), names.Nodup →
      (∀ n ∈ names, n ∉ numbers) → ∀ n, (names.foldl
        (fun numbers name => numbers.insert name (toUInt8 numbers.size)) numbers).find? n =
        if n ∈ names then some (toUInt8 (numbers.size + names.idxOf n)) else numbers.find? n := by
    intro names
    induction names with
    | nil => exact fun numbers _ _ n => (if_neg List.not_mem_nil).symm
    | cons n' names ih =>
      intro numbers hnodup hnew n
      obtain ⟨hnot, hrest⟩ := List.nodup_cons.mp hnodup
      have hn' : n' ∉ numbers := hnew n' List.mem_cons_self
      rw [List.foldl_cons, ih _ hrest fun m hm => by
        rw [SortedMap.mem_insert, not_or]
        exact ⟨fun he => hnot (he ▸ hm), hnew m (List.mem_cons_of_mem _ hm)⟩]
      rw [SortedMap.size_insert hn', SortedMap.find?_insert hn']
      by_cases hn : n = n'
      · subst hn
        rw [if_neg hnot, if_pos rfl, if_pos List.mem_cons_self, List.idxOf_cons_self, Nat.add_zero]
      · rw [if_neg hn, List.idxOf_cons_ne _ (Ne.symm hn)]
        simp only [List.mem_cons, hn, false_or]
        rw [Nat.add_right_comm, Nat.add_assoc]
  have hempty : (∅ : SortedMap PlayerName ℕ).find? n = none := rfl
  rw [numberPlayers, hfold names ∅ hnodup fun n _ => SortedMap.not_mem_empty n]
  simp [SortedMap.size, hempty]

/-- Players are numbered in the order of their names. -/
theorem find?_numberPlayers {names : List PlayerName} (hnodup : names.Nodup)
    (hlen : names.length ≤ maxPlayers) {no : ℕ} {name : PlayerName} (h : names[no]? = some name) :
    (numberPlayers names).find? name = some no := by
  obtain ⟨hlt, heq⟩ := List.getElem?_eq_some_iff.mp h
  have hidx : names.idxOf name = no := by
    rw [← heq]
    exact hnodup.idxOf_getElem no hlt
  rw [find?_numberPlayers_eq hnodup, if_pos (List.mem_of_getElem? h), hidx, toUInt8_of_lt]
  simp only [maxPlayers] at hlen
  omega

theorem Recorded.prepareGame (h : Recorded before [] g) (ho : g.toGameState.Orderly [])
    (hs : g.gameStarted = false) (hcan : canStartGame g.players = true) :
    Recorded before g.players.keys g.prepareGame := by
  rcases h with ⟨past, hpast, -, hlog⟩ | ⟨-, -, hs', -, -, -⟩
  · have hsize : g.players.size ≤ maxPlayers := ho.size_le
    have hlt : g.players.size < 2 ^ 8 := by
      simp only [maxPlayers] at hsize
      omega
    let x : Game :=
      ⟨g.prepareGame.gameId, g.maxx, g.maxy, g.players.keys, []⟩
    refine .running past hpast rfl x ?_ ?_
    · exact
        { gameId := rfl
          two_le := (GameState.two_le_size_of_canStartGame hcan).trans_eq g.players.length_keys.symm
          ascending := g.players.sorted
          todo_eq := rfl
          opening := by simp [x]
          about := fun e he => absurd he List.not_mem_nil
          silent := List.Pairwise.nil
          number := fun no name hno => find?_numberPlayers g.players.nodup_keys
            (g.players.length_keys.le.trans hsize) hno
          member := fun name p hp _ => SortedMap.mem_keys.mpr (SortedMap.mem_of_find? hp)
          alive := fun _ _ _ _ _ _ e he => absurd he List.not_mem_nil
          alive_eq := (toUInt8_of_lt hlt).trans g.players.length_keys.symm
          fresh := fun _ => rfl
          late := fun hne => absurd rfl hne }
    · show before ++ scheduled (g.calls ++ [_]) = _
      rw [scheduled_append, ← List.append_assoc, hlog]
      rfl
  · exact absurd (hs.symm.trans hs') (by decide)

/-- The worms that `startGame` puts on the board. -/
theorem Recorded.placePlayer {pf : Platform D} {name : PlayerName} {names : List PlayerName}
    (h : Recorded before (name :: names) g) (hpl : g.toGameState.Placing (name :: names))
    {p : Player D} (hp : g.players.find? name = some p) {flow : Flow}
    (hbody : placePlayer pf name p g = .ok (flow, g')) :
    (flow = .next → Recorded before names g') ∧ (flow = .exit → Recorded before [] g') := by
  obtain ⟨no, hno⟩ := hpl.toOrderly.number hpl.started hp (by simp)
  cases hplaced : p.placed pf g.maxx g.maxy g.rng with
  | mk placed rng =>
    have halive := Player.isAlive_placed pf g.maxx g.maxy g.rng p
    rw [hplaced] at halive
    obtain ⟨hate, helim⟩ := h.worm hpl.toOrderly hpl.started hp (by simp) (by simp) hno halive rng
    have hlate : placed.pixel ∈ g.eatenPixels → g.eatenPixels ≠ ∅ ∨ name :: names = [] :=
      fun hmem => Or.inl fun hempty => by simp [hempty] at hmem
    rcases placePlayer_cases name hpl.started hno hplaced with
      ⟨-, heq⟩ | ⟨heaten, -, heq⟩ | ⟨heaten, hlt, heq⟩ <;> rw [heq] at hbody <;> cases hbody
    · exact ⟨fun _ => hate, fun hexit => by cases hexit⟩
    · exact ⟨fun _ => (helim (hlate heaten)).1, fun hexit => by cases hexit⟩
    · exact ⟨fun hnext => (by cases hnext), fun _ => (helim (hlate heaten)).2 hlt⟩

theorem Recorded.startGame {pf : Platform D} (h : Recorded before [] g)
    (ho : g.toGameState.Orderly []) (hs : g.gameStarted = false)
    (hcan : canStartGame g.players = true) (hstart : g.startGame pf = .ok g') :
    Recorded before [] g' := by
  refine ho.startGame_induction (J := fun names g₁ => Recorded before names g₁) hs hcan
    (h.prepareGame ho hs hcan) ?_ ?_ (fun g₁ h₁ => h₁) hstart
  · exact fun name names g₁ p g₂ hpl h₁ hp hb => (h₁.placePlayer hpl hp hb).1 rfl
  · exact fun name names g₁ p g₂ hpl h₁ hp hb => (h₁.placePlayer hpl hp hb).2 rfl

/-- **Every operation** goes on with the logs. -/
theorem Recorded.run {pf : Platform D} {op : GameOp} (h : Recorded before [] g)
    (hsound : g.toGameState.Sound) (hop : op.run pf g = .ok g') : Recorded before [] g' :=
  hsound.run_induction (I := fun g => Recorded before [] g) (fun _ f _ h => h.dropConnection f)
    (fun _ f msg _ h => h.handleMessageFromWatcher f msg) (fun _ _ _ _ hp h => h.answered hp)
    (fun _ f _ _ hnew h => h.joined pf f hnew)
    (fun _ _ ho hs hcan h hstart => h.startGame ho hs hcan hstart)
    (fun _ _ _ _ _ hsound hp h hb => h.moveWorm hsound hp hb) h hop

theorem gameMachine_recorded (pf : Platform D) :
    (gameMachine pf).Invariant fun g => Recorded [] [] g where
  init g hg := by
    obtain ⟨hcalls, rngSeed, turningSpeed, maxx, maxy, unsetAlive, heq⟩ := hg
    exact .lobby [] (fun _ hy => absurd hy List.not_mem_nil) (by rw [heq]; rfl) (by rw [hcalls]; rfl)
  step g op g' hreach h hstep := by
    obtain ⟨g₁, hrun, rfl⟩ := gameMachine_step_eq_ok.mp hstep
    have hsound := (gameMachine_sound pf).reachable hreach
    -- the history so far is what came before the operation
    have hbefore : Recorded (scheduled g.calls) [] ({ g with calls := [] } : GameTask D) := by
      rcases h with ⟨past, hpast, hs, hlog⟩ | ⟨past, hpast, hs, x, hx, hlog⟩
      · exact .lobby past hpast hs (by simpa using hlog)
      · exact .running past hpast hs x hx (by simpa using hlog)
    rcases hbefore.run (g := { g with calls := [] }) hsound hrun with
      ⟨past, hpast, hs, hlog⟩ | ⟨past, hpast, hs, x, hx, hlog⟩
    · exact .lobby past hpast hs (by simpa using hlog)
    · exact .running past hpast hs x hx (by simpa using hlog)

/-- **The saved events.** Whatever is done with a game manager, the events it has saved are the
complete logs of games that are over, followed by the log of the game under way, if there is one.
In that game `alivePlayers` is the number of players that have not been eliminated, at least two. -/
theorem gameMachine_logs (pf : Platform D) {g : GameTask D} (h : (gameMachine pf).Reachable g) :
    ∃ past : List Game, (∀ y ∈ past, y.WellPlayed ∧ y.IsOver) ∧
      (g.gameStarted = false → scheduled g.calls = past.flatMap Game.scheduledLog) ∧
      (g.gameStarted = true → ∃ x : Game, x.WellPlayed ∧ ¬x.IsOver ∧ x.gameId = g.gameId ∧
        scheduled g.calls = past.flatMap Game.scheduledLog ++ x.scheduledLog ∧
        g.alivePlayers + x.eliminations = x.names.length ∧
        g.alivePlayers = g.players.entries.countP (fun e => e.2.isAlive) ∧
        2 ≤ g.alivePlayers) := by
  have hsound := (gameMachine_sound pf).reachable h
  rcases (gameMachine_recorded pf).reachable h with
    ⟨past, hpast, hs, hlog⟩ | ⟨past, hpast, hs, x, hx, hlog⟩
  · exact ⟨past, hpast, fun _ => hlog, fun hs' => absurd (hs.symm.trans hs') (by decide)⟩
  · have hrun := hsound.running hs
    have hge := hrun.alive_ge
    obtain ⟨hover, hplayed⟩ := hx.scheduledLog_eq hge
    exact ⟨past, hpast, fun hs' => absurd (hs.symm.trans hs') (by decide), fun _ =>
      ⟨x, hx.wellPlayed (by omega), hover, hx.gameId, hplayed ▸ hlog, hx.alive_eq,
        by simpa using hrun.alive_eq, hge⟩⟩

/-- The game manager of the server, with its queue left out. -/
theorem reachable_gameTask {pf : Platform D} {gm : GameManager D}
    (h : (managerMachine pf).Reachable gm) :
    ∃ g, (gameMachine pf).Reachable g ∧ g.toGameState = gm.toGameState := by
  induction h with
  | init hinit =>
    obtain ⟨rngSeed, turningSpeed, maxx, maxy, unsetId, unsetAlive, rfl⟩ := hinit
    exact ⟨⟨.new rngSeed turningSpeed maxx maxy unsetAlive, []⟩,
      .init ⟨rfl, rngSeed, turningSpeed, maxx, maxy, unsetAlive, rfl⟩, rfl⟩
  | @step gm gm' l _ hstep ih =>
    obtain ⟨g, hg, heq⟩ := ih
    cases l with
    | op op =>
      obtain ⟨g', hop, hg'⟩ := GameManager.perform_step pf op hstep g heq
      exact ⟨g', hg.step hop, hg'⟩
    | send delivered =>
      simp only [managerMachine] at hstep
      split at hstep
      · cases hstep
        exact ⟨g, hg, heq⟩
      · exact ⟨g, hg, heq.trans (GameManager.toGameState_send hstep).symm⟩

/-- The logs of a game that two players have just started. -/
theorem gameMachine_logs_two : ∃ g : GameTask ℤ, (gameMachine fixedPoint).Reachable g ∧
    ∃ past : List Game, ∃ x : Game, x.WellPlayed ∧ ¬x.IsOver ∧
      scheduled g.calls = past.flatMap Game.scheduledLog ++ x.scheduledLog := by
  obtain ⟨s, hs, hstarted⟩ := exists_reachable (P := fun s => s.gameManager.gameStarted = true)
    (smallBoard 5 (by decide)) [.said 0 1 5 .right 0 [97], .said 0 2 5 .right 0 [98]]
    (by decide +kernel)
  obtain ⟨g, hg, heq⟩ := reachable_gameTask (reachable_gameManager hs)
  obtain ⟨past, -, -, hrunning⟩ := gameMachine_logs fixedPoint hg
  obtain ⟨x, hwell, hover, -, hlog, -⟩ := hrunning (heq ▸ hstarted)
  exact ⟨g, hg, past, x, hwell, hover, hlog⟩

end ScreenWorms
