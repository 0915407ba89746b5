import ScreenWorms.Client.Games
import ScreenWorms.Common.NameFields
import ScreenWorms.Server.GameLog

/-!
# The pixels of a game

The set `eatenPixels`, the pixels that worms are on and the `PIXEL` events come from two places in
the source: `startGame`, which puts worms on the board, and `runTurn`. That they stay in step is
said with a `Board`, which is the board as the events of a game tell it. A board takes an event only
if a client would, and a pixel only if it has not been eaten. All events that a game manager saves
can be drawn on a board, and what is eaten on it is `eatenPixels` (`Drawn`).

The pixel of a new worm is within the board if `static_cast<uint16_t>(r + 0.5)` is `r`
(`Platform.Centred`). Nothing else is assumed of the arithmetic: a pixel that a worm moves to is
checked.

## Main definitions

* `Board`, `Board.draw` — the board as events tell it
* `Client.InGame` — a client that has entered a game with its `NEW_GAME`
* `Game.pixels`, `Game.OnBoard`
* `Drawn`

## Main results

* `Board.drawAll_eq_some` — what the events of a game do to a board
* `Drawn.run` — every operation keeps the board in step
* `server_pixels` — the pixels of all games of a server
-/

namespace ScreenWorms

open Client GameTask

variable {D : Type}

/-! ## The board -/

/-- A board of a fixed size, with the number of players a client takes from `NEW_GAME`, and the
eaten pixels. -/
structure Board where
  maxx : ℕ
  maxy : ℕ
  playersInGame : ℕ
  eaten : Finset (ℕ × ℕ)
deriving DecidableEq

/-- The pixel an event is about. -/
def GameEventVariant.pixel? : GameEventVariant → Option (ℕ × ℕ)
  | .pixel e => some (e.x, e.y)
  | _ => none

namespace Board

/-- Draw an event, if it is valid and eats no pixel that has been eaten. -/
def draw (b : Board) : GameEventVariant → Option Board
  | .newGame e =>
    match e.parsedPlayers with
    | .ok playerNames =>
      if e.maxx = b.maxx ∧ e.maxy = b.maxy ∧ 2 ≤ playerNames.size then
        some { b with playersInGame := toUInt8 playerNames.size, eaten := ∅ }
      else none
    | .error _ => none
  | .pixel e =>
    if e.playerNumber < b.playersInGame ∧ e.x < b.maxx ∧ e.y < b.maxy ∧ (e.x, e.y) ∉ b.eaten then
      some { b with eaten := insert (e.x, e.y) b.eaten }
    else none
  | .playerEliminated e => if e.playerNumber < b.playersInGame then some b else none
  | .gameOver => some b

/-- Draw one event after another. -/
def drawAll (b : Board) (events : List GameEventVariant) : Option Board := events.foldlM draw b

variable {b b' : Board} {e : GameEventVariant} {events events' : List GameEventVariant}

theorem drawAll_cons_eq_some : b.drawAll (e :: events) = some b' ↔
    ∃ b₁, b.draw e = some b₁ ∧ b₁.drawAll events = some b' := by
  rw [drawAll, List.foldlM_cons]
  exact Option.bind_eq_some_iff

theorem drawAll_append_eq_some : b.drawAll (events ++ events') = some b' ↔
    ∃ b₁, b.drawAll events = some b₁ ∧ b₁.drawAll events' = some b' := by
  rw [drawAll, List.foldlM_append]
  exact Option.bind_eq_some_iff

theorem draw_newGame_eq_some {newGame : EventNewGame} : b.draw (.newGame newGame) = some b' ↔
    ∃ playerNames, newGame.parsedPlayers = .ok playerNames ∧ newGame.maxx = b.maxx ∧
      newGame.maxy = b.maxy ∧ 2 ≤ playerNames.size ∧
      { b with playersInGame := toUInt8 playerNames.size, eaten := ∅ } = b' := by
  rw [draw]
  cases newGame.parsedPlayers with
  | error err => simp
  | ok playerNames =>
    simp only [Option.ite_none_right_eq_some, Option.some.injEq, Except.ok.injEq, exists_eq_left',
      and_assoc]

/-- A board keeps its size. -/
theorem draw_size (h : b.draw e = some b') : b'.maxx = b.maxx ∧ b'.maxy = b.maxy := by
  rcases e with e | e | e | _
  · obtain ⟨-, -, -, -, -, rfl⟩ := draw_newGame_eq_some.mp h
    exact ⟨rfl, rfl⟩
  · rw [draw, Option.ite_none_right_eq_some] at h
    obtain rfl := Option.some.inj h.2
    exact ⟨rfl, rfl⟩
  · rw [draw, Option.ite_none_right_eq_some] at h
    obtain rfl := Option.some.inj h.2
    exact ⟨rfl, rfl⟩
  · obtain rfl := Option.some.inj h
    exact ⟨rfl, rfl⟩

theorem drawAll_size : ∀ {events : List GameEventVariant} {b b' : Board},
    b.drawAll events = some b' → b'.maxx = b.maxx ∧ b'.maxy = b.maxy
  | [], b, b', h => by
    obtain rfl : b = b' := Option.some.inj h
    exact ⟨rfl, rfl⟩
  | e :: events, b, b', h => by
    obtain ⟨b₁, he, hrest⟩ := drawAll_cons_eq_some.mp h
    have hfirst := draw_size he
    have hlater := drawAll_size hrest
    exact ⟨hlater.1.trans hfirst.1, hlater.2.trans hfirst.2⟩

/-- What the events between `NEW_GAME` and `GAME_OVER` have done to a board. -/
structure Drew (b : Board) (events : List GameEventVariant) (b' : Board) : Prop where
  valid : ∀ e ∈ events, ∀ eventNo,
    validEvent b.maxx b.maxy b.playersInGame ⟨eventNo, some e⟩ = true
  distinct : (events.filterMap GameEventVariant.pixel?).Nodup
  inside : ∀ p ∈ events.filterMap GameEventVariant.pixel?,
    p.1 < b.maxx ∧ p.2 < b.maxy ∧ p ∉ b.eaten
  eaten : b'.eaten = b.eaten ∪ (events.filterMap GameEventVariant.pixel?).toFinset

/-- **The events of a game** are valid, and their pixels are distinct and make up what is eaten. The
induction is on the events, with the board as it is before the first of them. -/
theorem drawAll_eq_some : ∀ {events : List GameEventVariant} {b b' : Board},
    (∀ e ∈ events, ∃ no, e.about = some no) → b.drawAll events = some b' → b.Drew events b'
  | [], b, b', _, h => by
    obtain rfl : b = b' := Option.some.inj h
    exact ⟨by simp, by simp, by simp, by simp⟩
  | e :: events, b, b', habout, h => by
    obtain ⟨b₁, he, hrest⟩ := drawAll_cons_eq_some.mp h
    have ih := @drawAll_eq_some events b₁ b' (fun e' he' => habout e' (List.mem_cons_of_mem _ he'))
      hrest
    rcases e with e | e | e | _
    · obtain ⟨no, hno⟩ := habout _ List.mem_cons_self
      cases hno
    · rw [draw, Option.ite_none_right_eq_some] at he
      obtain ⟨⟨hno, hx, hy, hnew⟩, hb₁⟩ := he
      obtain rfl := Option.some.inj hb₁
      have hpixels : (GameEventVariant.pixel e :: events).filterMap GameEventVariant.pixel? =
          (e.x, e.y) :: events.filterMap GameEventVariant.pixel? := rfl
      refine ⟨List.forall_mem_cons.mpr ⟨fun eventNo => ?_, ih.valid⟩, ?_, ?_, ?_⟩
      · simp [validEvent, hno, hx, hy]
      · rw [hpixels, List.nodup_cons]
        exact ⟨fun hmem => (ih.inside _ hmem).2.2 (Finset.mem_insert_self _ _), ih.distinct⟩
      · rw [hpixels, List.forall_mem_cons]
        refine ⟨⟨hx, hy, hnew⟩, fun p hp => ?_⟩
        obtain ⟨hpx, hpy, hpnew⟩ := ih.inside p hp
        exact ⟨hpx, hpy, fun hmem => hpnew (Finset.mem_insert_of_mem hmem)⟩
      · rw [ih.eaten, hpixels, List.toFinset_cons, Finset.insert_union, Finset.union_insert]
    · rw [draw, Option.ite_none_right_eq_some] at he
      obtain ⟨hno, hb₁⟩ := he
      obtain rfl := Option.some.inj hb₁
      refine ⟨List.forall_mem_cons.mpr ⟨fun eventNo => ?_, ih.valid⟩, ih.distinct, ih.inside,
        ih.eaten⟩
      simpa [validEvent] using hno
    · obtain ⟨no, hno⟩ := habout _ List.mem_cons_self
      cases hno

end Board

/-! ## A client of the game -/

namespace Client

/-- A client that has entered a game with its `NEW_GAME`, and is still in it. -/
inductive InGame (newGame : EventNewGame) : Client → Prop
  | enter {c c' : Client} {msg : ReceivedMessage} {first : ReceivedEvent} {out : List (List Byte)}
    (hid : (msg.gameId : ℤ) ≠ c.gameId) (hnew : msg.gameId ∉ c.seenGameIds)
    (hfirst : firstNewGame msg.events = some (first, newGame))
    (hmsg : c.processMessageFromServer msg = .ok (out, c')) : InGame newGame c'
  | stay {c c' : Client} {msg : ReceivedMessage} {out : List (List Byte)} (h : InGame newGame c)
    (hmsg : c.processMessageFromServer msg = .ok (out, c')) (hid : c'.gameId = c.gameId) :
    InGame newGame c'

/-- Some client enters a game with a `NEW_GAME` of at least two players. -/
theorem exists_inGame {newGame : EventNewGame} {playerNames : SortedMap ℕ PlayerName}
    (hparsed : newGame.parsedPlayers = .ok playerNames) (htwo : 2 ≤ playerNames.size) :
    ∃ c, InGame newGame c := by
  let e : ReceivedEvent := ⟨0, some (.newGame newGame)⟩
  let c : Client := .new 0 0 0 0 0
  let c₁ : Client := { (c.enter 0).install newGame playerNames with events := store [e] ∅ }
  have hvalid : ∀ maxx maxy playersInGame, validEvent maxx maxy playersInGame e = true := by
    intro maxx maxy playersInGame
    simp only [validEvent, e, hparsed, ne_eq, not_true, decide_false, Bool.false_or,
      Bool.not_eq_true', decide_eq_false_iff_not, not_lt]
    exact htwo
  have hread : readInEventsListOfCurrentGame [e] ((c.enter 0).install newGame playerNames) =
      .ok c₁ :=
    readInEventsListOfCurrentGame_eq_ok fun e' he' => by
      rw [List.mem_singleton.mp he', validateEvent]
      exact hvalid _ _ _
  obtain ⟨out, hout, -⟩ := writePending_eq_ok (c := c₁) (n := 1) rfl fun no _ hno => by
    obtain rfl : no = 0 := Nat.lt_one_iff.mp hno
    have hline : c₁.lineOf 0 = eventToMessageForGui e playerNames := rfl
    rw [hline]
    exact isSome_eventToMessageForGui (mem_parsedPlayers hparsed) (hvalid 0 0 _)
  let msg : ReceivedMessage := ⟨0, [e]⟩
  have hid : (msg.gameId : ℤ) ≠ c.gameId := show ((0 : ℕ) : ℤ) ≠ -1 by decide
  have hnew : msg.gameId ∉ c.seenGameIds := Finset.notMem_empty 0
  have hfirst : firstNewGame msg.events = some (e, newGame) := rfl
  have hmsg : c.processMessageFromServer msg = c₁.writePending := by
    have hnewGame : (c.enter msg.gameId).validateEvent e = true := hvalid _ _ _
    rw [install] at hread
    rw [processMessageFromServer, if_pos hid, processMessageFromServerWithMismatchedGameId,
      if_neg hnew]
    simp only [hfirst, hnewGame, if_true, hparsed]
    rw [show readInEventsListOfCurrentGame msg.events _ = .ok c₁ from hread]
  exact ⟨_, .enter hid hnew hfirst (hmsg.trans hout)⟩

/-- Its settings are those of the `NEW_GAME`. -/
theorem InGame.settings {newGame : EventNewGame} {c : Client} (h : InGame newGame c) :
    ∃ playerNames, newGame.parsedPlayers = .ok playerNames ∧ c.maxx = newGame.maxx ∧
      c.maxy = newGame.maxy ∧ c.playersInGame = toUInt8 playerNames.size := by
  induction h with
  | @enter c c' msg first out hid hnew hfirst hmsg =>
    rcases processMessageFromServer_cases msg c with ⟨c₁, htook, heq⟩ | heq | heq
    · rw [heq] at hmsg
      obtain ⟨n, m, rfl⟩ := exists_of_writePending hmsg
      rcases htook with ⟨-, hseen⟩ | ⟨hid', -⟩ | ⟨-, -, hnone⟩ | ⟨-, -, hfirst', hparsed, -⟩
      · exact absurd hseen hnew
      · exact absurd hid' hid
      · rw [hfirst] at hnone
        cases hnone
      · rw [hfirst] at hfirst'
        cases hfirst'
        exact ⟨_, hparsed, rfl, rfl, rfl⟩
    · simp [heq] at hmsg
    · simp [heq] at hmsg
  | @stay c c' msg out _ hmsg hid ih =>
    rcases processMessageFromServer_cases msg c with ⟨c₁, htook, heq⟩ | heq | heq
    · rw [heq] at hmsg
      obtain ⟨n, m, rfl⟩ := exists_of_writePending hmsg
      rcases htook with - | - | ⟨hne, -, -⟩ | ⟨hne, -, -, -, -⟩
      · exact ih
      · exact ih
      · exact absurd hid hne
      · exact absurd hid hne
    · simp [heq] at hmsg
    · simp [heq] at hmsg

end Client

/-! ## The games of a history -/

namespace Game

/-- The coordinates of the `PIXEL` events so far. -/
def pixels (x : Game) : List (ℕ × ℕ) := x.events.filterMap GameEventVariant.pixel?

def newGame (x : Game) : EventNewGame := .ofNames x.maxx x.maxy (x.names.map Subtype.val)

/-- **The events of a game** fit its board. -/
structure OnBoard (maxx maxy : ℕ) (x : Game) : Prop where
  width : x.maxx = maxx
  height : x.maxy = maxy
  /-- No two `PIXEL` events have the same coordinates. -/
  distinct : x.pixels.Nodup
  /-- All are on the board. -/
  inside : ∀ p ∈ x.pixels, p.1 < maxx ∧ p.2 < maxy
  /-- Every event is about a player of the `NEW_GAME`. -/
  number : ∀ e ∈ x.events, ∃ no < x.names.length, e.about = some no
  /-- A client can enter the game. -/
  entered : ∃ c, Client.InGame x.newGame c
  /-- They are valid for every client in the game. -/
  valid : ∀ c, Client.InGame x.newGame c → ∀ e ∈ x.events, ∀ eventNo,
    c.validateEvent ⟨eventNo, some e⟩ = true

end Game

namespace Board

variable {b b' : Board}

/-- The log of one game. -/
theorem drawAll_log {x : Game} (hx : x.WellPlayed) (h : b.drawAll x.log = some b') :
    x.OnBoard b.maxx b.maxy ∧ b'.eaten = x.pixels.toFinset := by
  obtain ⟨b₂, hplayed, hend⟩ := drawAll_append_eq_some.mp h
  obtain ⟨b₁, hnewGame, hevents⟩ := drawAll_cons_eq_some.mp hplayed
  obtain ⟨playerNames, hparsed, hmaxx, hmaxy, htwo, rfl⟩ := draw_newGame_eq_some.mp hnewGame
  have hdrew := drawAll_eq_some (fun e he => ?_) hevents
  · have heaten : b'.eaten = b₂.eaten := by
      split at hend
      · obtain rfl := Option.some.inj hend
        rfl
      · obtain rfl := Option.some.inj hend
        rfl
    refine ⟨⟨hmaxx, hmaxy, hdrew.distinct, fun p hp => ?_, hx.about, exists_inGame hparsed htwo,
      fun c hc e he eventNo => ?_⟩, ?_⟩
    · obtain ⟨hpx, hpy, -⟩ := hdrew.inside p hp
      exact ⟨hpx, hpy⟩
    · obtain ⟨playerNames', hparsed', hcx, hcy, hplayers⟩ := hc.settings
      obtain rfl : playerNames = playerNames' := Except.ok.inj (hparsed.symm.trans hparsed')
      rw [validateEvent, hcx, hcy, hplayers]
      have hvalid := hdrew.valid e he eventNo
      rw [← hmaxx, ← hmaxy] at hvalid
      exact hvalid
    · rw [heaten, hdrew.eaten, Finset.empty_union]
      rfl
  · obtain ⟨no, -, hno⟩ := hx.about e he
    exact ⟨no, hno⟩

/-- What is eaten after some games are the pixels of the last one. -/
theorem drawAll_games : ∀ {games : List Game} {b b' : Board}, (∀ x ∈ games, x.WellPlayed) →
    b.drawAll (games.flatMap Game.log) = some b' →
    (∀ x ∈ games, x.OnBoard b.maxx b.maxy) ∧
      b'.eaten = games.getLast?.elim b.eaten fun x => x.pixels.toFinset
  | [], b, b', _, h => by
    obtain rfl : b = b' := Option.some.inj h
    exact ⟨fun x hx => absurd hx List.not_mem_nil, rfl⟩
  | x :: games, b, b', hgames, h => by
    rw [List.flatMap_cons] at h
    obtain ⟨b₁, hlog, hrest⟩ := drawAll_append_eq_some.mp h
    obtain ⟨hx, heaten⟩ := drawAll_log (hgames x List.mem_cons_self) hlog
    obtain ⟨hall, heaten'⟩ := drawAll_games (fun y hy => hgames y (List.mem_cons_of_mem _ hy)) hrest
    obtain ⟨hmaxx, hmaxy⟩ := drawAll_size hlog
    rw [hmaxx, hmaxy] at hall
    refine ⟨List.forall_mem_cons.mpr ⟨hx, hall⟩, ?_⟩
    rw [heaten', heaten, List.getLast?_cons]
    rcases games.getLast? with _ | y <;> rfl

end Board

/-! ## What the operations draw -/

/-- `static_cast<uint16_t>(r + 0.5)` is `r`. -/
def Platform.Centred (pf : Platform D) : Prop := ∀ r < 2 ^ 16, pf.toUInt16 (pf.centre r) = r

/-- A pixel drawn at random is within `max`. -/
def Platform.Fits (pf : Platform D) (max : ℕ) : Prop :=
  ∀ r, pf.toUInt16 (pf.centre (r % max)) < max

theorem Platform.Centred.fits {pf : Platform D} (h : pf.Centred) {max : ℕ} (hpos : 0 < max)
    (hle : max ≤ 2 ^ 16) : pf.Fits max := fun r => by
  have hlt : r % max < max := Nat.mod_lt r hpos
  rw [h _ (by omega)]
  exact hlt

/-- A worm that eats a pixel has found it free and on the board. -/
theorem Player.verdict_eats {pf : Platform D} {maxx maxy : ℕ} {eatenPixels : Finset (ℕ × ℕ)}
    {player : Player D} {pixel : ℕ × ℕ} (h : player.verdict pf maxx maxy eatenPixels = .eats pixel) :
    pixel.1 < maxx ∧ pixel.2 < maxy ∧ pixel ∉ eatenPixels := by
  rw [Player.verdict] at h
  split at h
  · cases h
  · simp only at h
    split at h
    · cases h
    · split at h
      · cases h
      · rename_i hfree
        simp only [ge_iff_le, not_or, not_le] at hfree
        obtain rfl := Verdict.eats.inj h
        exact hfree

/-- The board is the one of a game manager. -/
structure Board.Shows (b : Board) (g : GameState D) : Prop where
  maxx : b.maxx = g.maxx
  maxy : b.maxy = g.maxy
  eaten : b.eaten = g.eatenPixels
  number : ∀ name no, g.playerNumberInGame.find? name = some no → no < b.playersInGame

/-- Every event saved so far can be drawn, from an empty board on, and the board is up to date. -/
def Drawn (b₀ : Board) (before : List (ℕ × GameEventVariant)) (g : GameTask D) : Prop :=
  ∃ b, b₀.drawAll ((before ++ scheduled g.calls).map Prod.snd) = some b ∧ b.Shows g.toGameState

section Drawn

variable {pf : Platform D} {b₀ : Board} {before : List (ℕ × GameEventVariant)} {g g' : GameTask D}

theorem Drawn.size (h : Drawn b₀ before g) : g.maxx = b₀.maxx ∧ g.maxy = b₀.maxy := by
  obtain ⟨b, hb, hshows⟩ := h
  obtain ⟨hmaxx, hmaxy⟩ := Board.drawAll_size hb
  exact ⟨hshows.maxx.symm.trans hmaxx, hshows.maxy.symm.trans hmaxy⟩

/-- Nothing is scheduled, and the board stays as it is. -/
theorem Drawn.of_board (h : Drawn b₀ before g) (hcalls : scheduled g'.calls = scheduled g.calls)
    (hmaxx : g'.maxx = g.maxx) (hmaxy : g'.maxy = g.maxy) (heaten : g'.eatenPixels = g.eatenPixels)
    (hnumbers : g'.playerNumberInGame = g.playerNumberInGame) : Drawn b₀ before g' := by
  obtain ⟨b, hb, hshows⟩ := h
  refine ⟨b, by rw [hcalls, hb], hshows.maxx.trans hmaxx.symm, hshows.maxy.trans hmaxy.symm,
    hshows.eaten.trans heaten.symm, ?_⟩
  rw [hnumbers]
  exact hshows.number

/-- An event is saved. -/
theorem Drawn.save (h : Drawn b₀ before g) {gameId : ℕ} {e : GameEventVariant}
    (hcalls : g'.calls = g.calls ++ [.schedule gameId e])
    (hdraw : ∀ b : Board, b.Shows g.toGameState → ∃ b', b.draw e = some b' ∧
      b'.Shows g'.toGameState) : Drawn b₀ before g' := by
  obtain ⟨b, hb, hshows⟩ := h
  obtain ⟨b', hb', hshows'⟩ := hdraw b hshows
  refine ⟨b', ?_, hshows'⟩
  rw [hcalls, scheduled_append, ← List.append_assoc, List.map_append]
  exact Board.drawAll_append_eq_some.mpr ⟨b, hb, Board.drawAll_cons_eq_some.mpr ⟨b', hb', rfl⟩⟩

/-- A worm eats a pixel that is free and on the board. -/
theorem Drawn.ate (h : Drawn b₀ before g) {name n : PlayerName} {q : Player D} {no : ℕ} {rng : RNG}
    (hno : g.playerNumberInGame.find? n = some no) (hx : q.pixel.1 < g.maxx)
    (hy : q.pixel.2 < g.maxy) (hfree : q.pixel ∉ g.eatenPixels) :
    Drawn b₀ before (GameTask.ate name q no { g with rng := rng }) := by
  refine h.save rfl fun b hb => ⟨{ b with eaten := insert q.pixel b.eaten }, if_pos ?_,
    hb.maxx, hb.maxy, ?_, hb.number⟩
  · rw [hb.maxx, hb.maxy, hb.eaten]
    exact ⟨hb.number n no hno, hx, hy, hfree⟩
  · show insert q.pixel b.eaten = insert q.pixel g.eatenPixels
    rw [hb.eaten]

theorem Drawn.eliminated (h : Drawn b₀ before g) {name n : PlayerName} {q : Player D} {no : ℕ}
    {rng : RNG} (hno : g.playerNumberInGame.find? n = some no) :
    Drawn b₀ before (GameTask.eliminated name q no { g with rng := rng }) :=
  h.save rfl fun b hb => ⟨b, if_pos (hb.number n no hno), hb.maxx, hb.maxy, hb.eaten, hb.number⟩

theorem Drawn.endGame (h : Drawn b₀ before g) : Drawn b₀ before g.endGame := by
  have hover : Drawn b₀ before g.emitGameOver :=
    h.save rfl fun b hb => ⟨b, rfl, hb.maxx, hb.maxy, hb.eaten, hb.number⟩
  rw [endGame_eq]
  refine hover.of_board ?_ rfl rfl rfl rfl
  simp [emitGameOver, saveEvent, call]

/-! ### Operations -/

theorem Drawn.dropConnection (h : Drawn b₀ before g) (f : Fingerprint) :
    Drawn b₀ before (g.dropConnection f) := by
  obtain ⟨watchers, players, calls, heq, hcalls⟩ := exists_dropConnection f g
  rw [heq]
  exact h.of_board hcalls rfl rfl rfl rfl

theorem Drawn.handleMessageFromWatcher (h : Drawn b₀ before g) (f : Fingerprint)
    (msg : ClientToServerMessage) : Drawn b₀ before (g.handleMessageFromWatcher f msg) := by
  obtain ⟨watchers, calls, heq, hcalls⟩ := exists_handleMessageFromWatcher f msg g
  rw [heq]
  exact h.of_board hcalls rfl rfl rfl rfl

/-- A worm moves. -/
theorem Drawn.moveWorm (h : Drawn b₀ before g) (hsound : g.toGameState.Sound) {name : PlayerName}
    {p : Player D} {flow : Flow} (hp : g.players.find? name = some p)
    (hbody : GameTask.moveWorm pf name p g = .ok (flow, g')) : Drawn b₀ before g' := by
  refine hsound.moveWorm_induction (J := fun g => Drawn b₀ before g) hp h (fun _ _ => ?_)
    (fun no pixel _ hno hv => ?_) (fun no hno => h.eliminated hno) (fun _ hgone => hgone.endGame)
    hbody
  · exact h.of_board rfl rfl rfl rfl rfl
  · obtain ⟨hx, hy, hfree⟩ := Player.verdict_eats hv
    exact h.ate hno hx hy hfree

/-- The numbers of players are below their number. -/
theorem find?_numberPlayers_lt {names : List PlayerName} {name : PlayerName} {no : ℕ}
    (h : (numberPlayers names).find? name = some no) : no < names.length := by
  have hfold : ∀ (names : List PlayerName) (numbers : SortedMap PlayerName ℕ),
      (∀ n no, numbers.find? n = some no → no < numbers.size) → ∀ n no, (names.foldl
        (fun numbers name => numbers.insert name (toUInt8 numbers.size)) numbers).find? n =
          some no → no < numbers.size + names.length := by
    intro names
    induction names with
    | nil => exact fun numbers hlt n no hno => hlt n no hno
    | cons name names ih =>
      intro numbers hlt n no hno
      rw [List.foldl_cons] at hno
      rw [List.length_cons]
      by_cases hmem : name ∈ numbers
      · rw [SortedMap.insert_of_mem hmem] at hno
        have hle := ih numbers hlt n no hno
        omega
      · have hsize := SortedMap.size_insert hmem (v := toUInt8 numbers.size)
        have hle := ih _ (fun m k hk => ?_) n no hno
        · omega
        · rw [SortedMap.find?_insert hmem] at hk
          have hmod : toUInt8 numbers.size ≤ numbers.size := Nat.mod_le _ _
          split at hk
          · obtain rfl := Option.some.inj hk
            omega
          · have := hlt m k hk
            omega
  have hlt := hfold names ∅ (fun n no hno => by cases hno) name no h
  simpa [SortedMap.size] using hlt

theorem Drawn.prepareGame (h : Drawn b₀ before g) (ho : g.toGameState.Orderly [])
    (hcan : canStartGame g.players = true) :
    Drawn b₀ before g.prepareGame := by
  have hsize : g.players.keys.length < 2 ^ 8 :=
    lt_of_le_of_lt (g.players.length_keys.le.trans ho.size_le) (by decide)
  have hnames : ∀ n ∈ g.players.keys, n.val ≠ [] := fun n hn => by
    obtain ⟨p, hp⟩ := SortedMap.mem_iff_find?.mp (SortedMap.mem_keys.mp hn)
    exact (ho.named n p hp).2
  have hcount : (numberNames g.players.keys).size = g.players.keys.length :=
    size_numberNames hsize.le
  have hparsed := parsedPlayers_ofNames g.maxx g.maxy hnames g.players.sorted
  have htwo : 2 ≤ (numberNames g.players.keys).size := by
    rw [hcount, SortedMap.length_keys]
    exact GameState.two_le_size_of_canStartGame hcan
  refine h.save rfl fun b hb => ⟨_, Board.draw_newGame_eq_some.mpr ⟨_, hparsed, hb.maxx.symm,
    hb.maxy.symm, htwo, rfl⟩, hb.maxx, hb.maxy, rfl, fun name no hno => ?_⟩
  show no < toUInt8 (numberNames g.players.keys).size
  rw [hcount, toUInt8_of_lt hsize]
  exact find?_numberPlayers_lt hno

/-- Worms are put on the board. -/
theorem Drawn.placePlayer (hx : pf.Fits b₀.maxx) (hy : pf.Fits b₀.maxy) {name : PlayerName}
    {names : List PlayerName} (h : Drawn b₀ before g)
    (hpl : g.toGameState.Placing (name :: names)) {p : Player D}
    (hp : g.players.find? name = some p) {flow : Flow}
    (hbody : GameTask.placePlayer pf name p g = .ok (flow, g')) : Drawn b₀ before g' := by
  obtain ⟨no, hno⟩ := hpl.toOrderly.number hpl.started hp (by simp)
  obtain ⟨hmaxx, hmaxy⟩ := h.size
  cases hplaced : p.placed pf g.maxx g.maxy g.rng with
  | mk placed rng =>
    have hpixel : placed.pixel.1 < g.maxx ∧ placed.pixel.2 < g.maxy := by
      have hfst : (p.placed pf g.maxx g.maxy g.rng).1 = placed := congrArg Prod.fst hplaced
      rw [← hfst, hmaxx, hmaxy]
      exact ⟨hx _, hy _⟩
    rcases placePlayer_cases name hpl.started hno hplaced with
      ⟨hfree, heq⟩ | ⟨-, -, heq⟩ | ⟨-, -, heq⟩ <;> rw [heq] at hbody <;> cases hbody
    · exact h.ate hno hpixel.1 hpixel.2 hfree
    · exact h.eliminated hno
    · exact (h.eliminated hno).endGame

theorem Drawn.startGame (hx : pf.Fits b₀.maxx) (hy : pf.Fits b₀.maxy) (h : Drawn b₀ before g)
    (ho : g.toGameState.Orderly []) (hs : g.gameStarted = false)
    (hcan : canStartGame g.players = true) (hstart : g.startGame pf = .ok g') :
    Drawn b₀ before g' := by
  refine ho.startGame_induction (J := fun _ g₁ => Drawn b₀ before g₁) hs hcan
    (h.prepareGame ho hcan) ?_ ?_ (fun g₁ h₁ => h₁) hstart
  · exact fun name names g₁ p g₂ hpl h₁ hp hb => h₁.placePlayer hx hy hpl hp hb
  · exact fun name names g₁ p g₂ hpl h₁ hp hb => h₁.placePlayer hx hy hpl hp hb

/-- **Every operation** keeps the board in step. -/
theorem Drawn.run (hx : pf.Fits b₀.maxx) (hy : pf.Fits b₀.maxy) {op : GameOp}
    (h : Drawn b₀ before g) (hsound : g.toGameState.Sound) (hop : op.run pf g = .ok g') :
    Drawn b₀ before g' :=
  hsound.run_induction (I := fun g => Drawn b₀ before g) (fun _ f _ h => h.dropConnection f)
    (fun _ f msg _ h => h.handleMessageFromWatcher f msg)
    (fun _ _ _ _ _ h => h.of_board (by simp [answered, call, setPlayer]) rfl rfl rfl rfl)
    (fun _ _ _ _ _ h => h.of_board (by simp [joined, call]) rfl rfl rfl rfl)
    (fun _ _ ho hs hcan h hstart => h.startGame hx hy ho hs hcan hstart)
    (fun _ _ _ _ _ hsound hp h hb => h.moveWorm hsound hp hb) h hop

/-- So does every series of operations. -/
theorem Drawn.exec (hx : pf.Fits b₀.maxx) (hy : pf.Fits b₀.maxy) : ∀ {ops : List GameOp}
    {g g' : GameTask D}, Drawn b₀ [] g → g.toGameState.Sound →
    (gameMachine pf).exec ops g = .ok g' → Drawn b₀ [] g'
  | [], g, g', h, _, hexec => by
    obtain rfl : g = g' := Except.ok.inj hexec
    exact h
  | op :: ops, g, g', h, hsound, hexec => by
    obtain ⟨g₁, hop, hrest⟩ := Machine.exec_cons_eq_ok.mp hexec
    obtain ⟨g₂, hrun, rfl⟩ := gameMachine_step_eq_ok.mp hop
    -- the history so far is what came before the operation
    have hbefore : Drawn b₀ (scheduled g.calls) ({ g with calls := [] } : GameTask D) := by
      obtain ⟨b, hb, hshows⟩ := h
      exact ⟨b, by simpa using hb, hshows⟩
    have hsound₂ : g₂.toGameState.Sound :=
      GameState.Sound.run (g := { g with calls := [] }) hsound hrun
    obtain ⟨b, hb, hshows⟩ := hbefore.run (g := { g with calls := [] }) hx hy hsound hrun
    refine Drawn.exec (g := { g₂ with calls := g.calls ++ g₂.calls }) hx hy ?_ hsound₂ hrest
    exact ⟨b, by simpa using hb, hshows⟩

end Drawn

/-! ## The games of a server -/

/-- The history of a game manager is that of its games; one under way is the last of them. -/
theorem Recorded.games {g : GameTask D} (h : Recorded [] [] g) (hsound : g.toGameState.Sound) :
    ∃ games : List Game, scheduled g.calls = games.flatMap Game.scheduledLog ∧
      (∀ x ∈ games, x.WellPlayed) ∧
      (g.gameStarted = true → ∃ x, games.getLast? = some x ∧ x.gameId = g.gameId ∧ ¬x.IsOver) := by
  rcases h with ⟨past, hpast, hs, hlog⟩ | ⟨past, hpast, hs, x, hx, hlog⟩
  · exact ⟨past, hlog, fun y hy => (hpast y hy).1, fun hs' => absurd (hs.symm.trans hs') (by decide)⟩
  · have hge := (hsound.running hs).alive_ge
    obtain ⟨hover, hplayed⟩ := hx.scheduledLog_eq hge
    refine ⟨past ++ [x], ?_, fun y hy => ?_, fun _ =>
      ⟨x, List.getLast?_concat, hx.gameId, hover⟩⟩
    · rw [List.flatMap_append, List.flatMap_singleton, hplayed]
      exact hlog
    · rcases List.mem_append.mp hy with hy | hy
      · exact (hpast y hy).1
      · rw [List.mem_singleton.mp hy]
        exact hx.wellPlayed (by omega)

/-- **The pixels of all games of a server.** The events that a run of the server has saved are those
of games whose pixels are distinct and on the board, and whose events are valid for every client in
the game. `eatenPixels` is the set of the pixels of the last game. -/
theorem server_pixels {pf : Platform D} (hpf : pf.Centred) {s s' : Server D}
    {tr : List (Server D × Server.Op)} (hinit : (serverMachine pf).init s)
    (hrun : (serverMachine pf).Run s tr s') :
    ∃ g : GameTask D, (gameMachine pf).exec (tr.flatMap Server.gameOps)
        ⟨s.gameManager.toGameState, []⟩ = .ok g ∧
      g.toGameState = s'.gameManager.toGameState ∧
      ∃ games : List Game, scheduled g.calls = games.flatMap Game.scheduledLog ∧
        (g.gameStarted = true → ∃ x, games.getLast? = some x ∧ x.gameId = g.gameId ∧ ¬x.IsOver) ∧
        (∀ x ∈ games, x.OnBoard g.maxx g.maxy) ∧
        g.eatenPixels = games.getLast?.elim ∅ fun x => x.pixels.toFinset := by
  obtain ⟨config, unsetId, unsetAlive, rfl⟩ := hinit
  obtain ⟨g, hexec, hg⟩ := server_game pf hrun
    ⟨.new config.rngSeed config.turningSpeed config.boardWidth config.boardHeight unsetAlive, []⟩ rfl
  refine ⟨g, hexec, hg, ?_⟩
  have hstart : (gameMachine pf).init ⟨.new config.rngSeed config.turningSpeed config.boardWidth
      config.boardHeight unsetAlive, []⟩ := ⟨rfl, _, _, _, _, _, rfl⟩
  have hreach : (gameMachine pf).Reachable g := (Machine.Reachable.init hstart).exec hexec
  have hsound := (gameMachine_sound pf).reachable hreach
  obtain ⟨games, hlog, hwell, hlast⟩ := ((gameMachine_recorded pf).reachable hreach).games hsound
  -- the first board is empty
  have hx : pf.Fits config.boardWidth :=
    hpf.fits (by have := config.boardWidth_mem; omega) (by have := config.boardWidth_mem; omega)
  have hy : pf.Fits config.boardHeight :=
    hpf.fits (by have := config.boardHeight_mem; omega) (by have := config.boardHeight_mem; omega)
  have hdrawn : Drawn ⟨config.boardWidth, config.boardHeight, 0, ∅⟩ [] g :=
    Drawn.exec hx hy ⟨_, rfl, rfl, rfl, rfl, fun name no hno => by cases hno⟩
      (GameState.sound_new _ _ _ _ _) hexec
  obtain ⟨hmaxx, hmaxy⟩ := hdrawn.size
  obtain ⟨b, hb, hshows⟩ := hdrawn
  have hevents : (([] ++ scheduled g.calls).map Prod.snd) = games.flatMap Game.log := by
    rw [List.nil_append, hlog, List.map_flatMap]
    exact List.flatMap_congr fun x _ => by
      rw [Game.scheduledLog, List.map_map]
      exact List.map_id _
  rw [hevents] at hb
  obtain ⟨hall, heaten⟩ := Board.drawAll_games hwell hb
  refine ⟨games, hlog, hlast, ?_, hshows.eaten.symm.trans heaten⟩
  rw [hmaxx, hmaxy]
  exact hall

theorem fixedPoint_centred : fixedPoint.Centred := fun r hr => by
  show ((((r : ℤ) * 1000000 + 500000) / 1000000).toNat % 2 ^ 16) = r
  omega

/-- A game of two worms that have just been put on the board. -/
theorem server_pixels_two : ∃ (s s' : Server ℤ) (tr : List (Server ℤ × Server.Op)),
    (serverMachine fixedPoint).init s ∧ (serverMachine fixedPoint).Run s tr s' ∧
    ∃ games : List Game, (∀ x ∈ games, x.OnBoard 16 16) ∧
      ∃ x, games.getLast? = some x ∧ x.pixels.length = 2 := by
  obtain ⟨s', hs', hstarted, hmaxx, hmaxy, heaten⟩ := exists_reachable
    (P := fun s => s.gameManager.gameStarted = true ∧ s.gameManager.maxx = 16 ∧
      s.gameManager.maxy = 16 ∧ s.gameManager.eatenPixels.card = 2)
    (smallBoard 5 (by decide)) [.said 0 1 5 .right 0 [97], .said 0 2 5 .right 0 [98]]
    (by decide +kernel)
  obtain ⟨s, tr, hinit, hrun⟩ := hs'.exists_run
  obtain ⟨g, -, hg, games, -, hlast, hall, heq⟩ := server_pixels fixedPoint_centred hinit hrun
  rw [← hg] at hstarted hmaxx hmaxy heaten
  obtain ⟨x, hx, -⟩ := hlast hstarted
  rw [hmaxx, hmaxy] at hall
  refine ⟨s, s', tr, hinit, hrun, games, hall, x, hx, ?_⟩
  rw [heq, hx, Option.elim_some, List.card_toFinset,
    (hall x (List.mem_of_getLast? hx)).distinct.dedup] at heaten
  exact heaten

end ScreenWorms
