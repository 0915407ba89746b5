import ScreenWorms.Server.FixedPoint
import ScreenWorms.Server.PlayerLoops
import ScreenWorms.Server.Worms
import Mathlib.Data.Rat.Floor

/-!
# Turns by the rules

`runTurn` is compared with a turn by the rules (`Rules.turn`): the same events in the same order,
the same worms, the same headings, the same eaten pixels, and no cast that does not fit.

The loop is followed worm by worm to a state in which the game may be over but nobody has been
erased yet (`Moved`), since what `endGame` erases are players, not worms. The end of the game comes
last. A turn in which the loop steps on from an erased entry has no outcome at all; whether this
happens is `GameOp.LoopsSafely`.

## Main definitions

* `GameState.worms` — the worms of a game manager, as the rules see them
* `TurnAgrees` — a turn of the code is a turn by the rules

## Main results

* `forPlayers_moveWorm_moved` — the loop makes the moves of the rules
* `runTurn_agrees_iff` — a turn is one by the rules unless its loop steps on from an erased entry
-/

namespace ScreenWorms

open GameTask

/-! ## Worms and events -/

section Data

variable {D : Type}

/-- The worm of the player of this name, if it is in the game. -/
def GameState.worm? (g : GameState D) (name : PlayerName) : Option (Worm PlayerName D) :=
  match g.players.find? name with
  | some p => if p.isAlive then (g.playerNumberInGame.find? p.playerName).map p.asWorm else none
  | none => none

/-- The worms that are in the game, in the order of `players`. -/
def GameState.worms (g : GameState D) : List (Worm PlayerName D) :=
  g.players.keys.filterMap g.worm?

/-- The player of this name is there, and is not marked as disconnected. -/
def GameState.isConnected (g : GameState D) (name : PlayerName) : Bool :=
  (g.players.find? name).any fun p => !p.isDisconnected

/-- What an event of the code says about a turn. -/
def GameEventVariant.turnEvent? : GameEventVariant → Option TurnEvent
  | .newGame _ => none
  | .pixel e => some (.pixel e.playerNumber (wide (e.x, e.y)))
  | .playerEliminated e => some (.playerEliminated e.playerNumber)
  | .gameOver => some .gameOver

/-- The events among calls on the queue, with the game each of them belongs to. -/
def turnEvents (calls : List MQCall) : List (ℕ × Option TurnEvent) :=
  (scheduled calls).map fun e => (e.1, e.2.turnEvent?)

theorem turnEvents_append (calls calls' : List MQCall) :
    turnEvents (calls ++ calls') = turnEvents calls ++ turnEvents calls' := by
  rw [turnEvents, scheduled_append, List.map_append]
  rfl

theorem GameState.worm?_eq_some {g : GameState D} {name : PlayerName} {w : Worm PlayerName D} :
    g.worm? name = some w ↔ ∃ p no, g.players.find? name = some p ∧ p.isAlive = true ∧
      g.playerNumberInGame.find? p.playerName = some no ∧ p.asWorm no = w := by
  rw [GameState.worm?]
  cases hp : g.players.find? name with
  | none => simp
  | some p => cases halive : p.isAlive <;> simp [halive, Option.map_eq_some_iff]

theorem GameState.worm?_congr {g g' : GameState D} {name : PlayerName}
    (hp : g'.players.find? name = g.players.find? name)
    (hnumbers : g'.playerNumberInGame = g.playerNumberInGame) : g'.worm? name = g.worm? name := by
  rw [GameState.worm?, hp, hnumbers, GameState.worm?]

/-! ## The loop -/

/-- The entry of a player has been written, with these events. -/
structure Wrote (n : PlayerName) (p q : Player D) (events : List TurnEvent) (g g₁ : GameTask D) :
    Prop where
  players : g₁.players = g.players.adjust n fun _ => q
  client : p.SameClient q
  board : g.toGameState.SameBoard g₁.toGameState
  watchers : g₁.watchers = g.watchers
  numbers : g₁.playerNumberInGame = g.playerNumberInGame
  gameId : g₁.gameId = g.gameId
  started : g₁.gameStarted = g.gameStarted
  events : turnEvents g₁.calls = turnEvents g.calls ++ events.map fun e => (g.gameId, some e)

section Wrote

variable {n : PlayerName} {p q : Player D} {g : GameTask D}

theorem wrote_self (hp : g.players.find? n = some p) : Wrote n p p [] g g :=
  ⟨(SortedMap.adjust_of_find? hp rfl).symm, ⟨rfl, rfl, rfl, rfl⟩, ⟨rfl, rfl, rfl⟩, rfl, rfl, rfl,
    rfl, by simp⟩

theorem wrote_setPlayer (hpq : p.SameClient q) : Wrote n p q [] g (g.setPlayer n q) :=
  ⟨rfl, hpq, ⟨rfl, rfl, rfl⟩, rfl, rfl, rfl, rfl, by simp [setPlayer]⟩

theorem wrote_ate (hpq : p.SameClient q) (no : ℕ) :
    Wrote n p q [.pixel no (wide q.pixel)] g (ate n q no g) :=
  ⟨rfl, hpq, ⟨rfl, rfl, rfl⟩, rfl, rfl, rfl, rfl, turnEvents_append _ _⟩

theorem wrote_eliminated (hpq : p.SameClient q) (no : ℕ) :
    Wrote n p { q with isEliminated := true } [.playerEliminated no] g (eliminated n q no g) :=
  ⟨rfl, hpq.eliminated, ⟨rfl, rfl, rfl⟩, rfl, rfl, rfl, rfl, turnEvents_append _ _⟩

theorem Wrote.find?_of_ne {g₁ : GameTask D} {events : List TurnEvent}
    (hw : Wrote n p q events g g₁) {k : PlayerName} (hk : k ≠ n) :
    g₁.players.find? k = g.players.find? k := by
  rw [hw.players, SortedMap.find?_adjust_of_ne hk]

/-- The other worms are as they were. -/
theorem Wrote.filterMap_worm? {g₁ : GameTask D} {events : List TurnEvent}
    (hw : Wrote n p q events g g₁) {names : List PlayerName} (hn : n ∉ names) :
    names.filterMap g₁.worm? = names.filterMap g.worm? := by
  refine List.filterMap_congr fun k hk => ?_
  have hne : k ≠ n := fun heq => hn (heq ▸ hk)
  exact GameState.worm?_congr (hw.find?_of_ne hne) hw.numbers

section Worm

variable {g₁ : GameTask D} {events : List TurnEvent} (hw : Wrote n p q events g g₁)
  (hp : g.players.find? n = some p)
include hw hp

/-- The worm of the player that has been written. -/
theorem Wrote.worm?_of_alive {no : ℕ} (hno : g.playerNumberInGame.find? p.playerName = some no)
    (halive : q.isAlive = true) : g₁.worm? n = some (q.asWorm no) := by
  have hq : g₁.players.find? n = some q := by
    rw [hw.players, SortedMap.find?_adjust_self, hp, Option.map_some]
  rw [← hw.client.playerName, ← hw.numbers] at hno
  simp only [GameState.worm?, hq, halive, if_true, hno, Option.map_some]

theorem Wrote.worm?_of_gone (hgone : q.isAlive = false) : g₁.worm? n = none := by
  have hq : g₁.players.find? n = some q := by
    rw [hw.players, SortedMap.find?_adjust_self, hp, Option.map_some]
  simp only [GameState.worm?, hq, hgone, Bool.false_eq_true, if_false]

end Worm

end Wrote

/-- The worms of some players have moved from `g` to `h`, with this outcome, and the other players
are as they were. Nobody has been erased. -/
structure Moved (names : List PlayerName) (o : Outcome PlayerName D) (g h : GameTask D) : Prop where
  clients : g.toGameState.SameClients h.toGameState
  others : ∀ n ∉ names, h.players.find? n = g.players.find? n
  numbers : h.playerNumberInGame = g.playerNumberInGame
  gameId : h.gameId = g.gameId
  started : h.gameStarted = g.gameStarted
  worms : names.filterMap h.worm? = o.worms
  eaten : h.eatenPixels.image wide = o.eaten
  events : turnEvents h.calls = turnEvents g.calls ++ o.events.map fun e => (g.gameId, some e)
  left : h.alivePlayers = o.left

theorem Moved.refl {g : GameTask D} {names : List PlayerName} {o : Outcome PlayerName D}
    (hworms : names.filterMap g.worm? = o.worms) (heaten : g.eatenPixels.image wide = o.eaten)
    (hevents : o.events = []) (hleft : g.alivePlayers = o.left) : Moved names o g g :=
  ⟨.refl _, fun _ _ => rfl, rfl, rfl, rfl, hworms, heaten, by simp [hevents], hleft⟩

/-- A worm moves, then the others. -/
theorem Moved.cons {names : List PlayerName} {o : Outcome PlayerName D} {g g₁ h : GameTask D}
    (hm : Moved names o g₁ h) {n : PlayerName} (hn : n ∉ names) {p q : Player D}
    {events : List TurnEvent} (hw : Wrote n p q events g g₁) (hp : g.players.find? n = some p) :
    Moved (n :: names) (o.after events (g₁.worm? n).toList) g h where
  clients := (GameState.SameClients.adjust hp hw.client hw.players hw.watchers).trans hm.clients
  others k hk := by
    rw [List.mem_cons, not_or] at hk
    rw [hm.others k hk.2, hw.find?_of_ne hk.1]
  numbers := hm.numbers.trans hw.numbers
  gameId := hm.gameId.trans hw.gameId
  started := hm.started.trans hw.started
  worms := by
    have hsame : h.worm? n = g₁.worm? n := GameState.worm?_congr (hm.others n hn) hm.numbers
    show _ = (g₁.worm? n).toList ++ o.worms
    rw [List.filterMap_cons, hsame, ← hm.worms]
    cases g₁.worm? n <;> rfl
  eaten := hm.eaten
  events := by
    show _ = _ ++ (events ++ o.events).map _
    rw [hm.events, hw.events, hw.gameId, List.map_append, List.append_assoc]
  left := hm.left

/-- The last but one worm is gone, and the loop is left: the others are where they were. -/
theorem Moved.last {names : List PlayerName} {g g₁ : GameTask D} {n : PlayerName}
    {p q : Player D} {events : List TurnEvent} (hn : n ∉ names) (hw : Wrote n p q events g g₁)
    (hp : g.players.find? n = some p) (hgone : g₁.worm? n = none)
    (heaten : g₁.eatenPixels = g.eatenPixels) (hone : g₁.alivePlayers = 1) :
    Moved (n :: names) ((⟨[], g.eatenPixels.image wide, names.filterMap g.worm?, 1⟩ :
      Outcome PlayerName D).after events []) g g₁ := by
  have hstop : Moved names (⟨[], g.eatenPixels.image wide, names.filterMap g.worm?, 1⟩ :
      Outcome PlayerName D) g₁ g₁ :=
    .refl (hw.filterMap_worm? hn) (congrArg _ heaten) rfl hone
  have hm := hstop.cons hn hw hp
  rwa [hgone] at hm

end Data

variable {K : Type} [Field K] [LinearOrder K] [FloorRing K]

/-- **The loop makes the moves of the rules**, until the game is over. The induction is on the
entries still to be visited, `es`. -/
theorem forPlayers_moveWorm_moved [IsStrictOrderedRing K] {pf : Platform K} (hpf : pf.Exact) :
    ∀ {es : List (PlayerName × Player K)} {g g' : GameTask K}, g.toGameState.Sound →
    g.gameStarted = true → g.WithinLimits → g.toGameState.Positions →
    (∀ e ∈ es, g.players.find? e.1 = some e.2) → (es.map Prod.fst).Nodup →
    forPlayers (moveWorm pf) (es.map Prod.fst) g = .ok g' →
    ∃ h, Moved (es.map Prod.fst) ((g.rules pf).moves g.alivePlayers (g.eatenPixels.image wide)
      ((es.map Prod.fst).filterMap g.worm?)) g h ∧
      g' = if h.alivePlayers < 2 then h.endGame else h
  | [], g, g', hsound, hs, _, _, _, _, hloop => by
    obtain rfl : g = g' := Except.ok.inj hloop
    have hge := (hsound.running hs).alive_ge
    exact ⟨g, .refl rfl rfl rfl rfl, (if_neg (not_lt.mpr hge)).symm⟩
  | (n, p) :: es, g, g', hsound, hs, hlim, hpos, hes, hnodup, hloop => by
    obtain ⟨hnot, hnodup'⟩ := List.nodup_cons.mp hnodup
    have hp : g.players.find? n = some p := hes (n, p) List.mem_cons_self
    have hrun := hsound.running hs
    have hge := hrun.alive_ge
    rw [List.map_cons, forPlayers, hp] at hloop
    -- the loop goes on from `g₁`, in which the entry of this worm has been written
    have next : ∀ {g₁ : GameTask K} {q : Player K} {events : List TurnEvent},
        moveWorm pf n p g = .ok (.next, g₁) → Wrote n p q events g g₁ →
        ∃ h, Moved (n :: es.map Prod.fst) (((g.rules pf).moves g₁.alivePlayers
          (g₁.eatenPixels.image wide) ((es.map Prod.fst).filterMap g.worm?)).after events
            (g₁.worm? n).toList) g h ∧ g' = if h.alivePlayers < 2 then h.endGame else h := by
      intro g₁ q events hbody hw
      have hrest : ∀ e ∈ es, g₁.players.find? e.1 = some e.2 := fun e he => by
        have hne : e.1 ≠ n := fun heq => hnot (heq ▸ List.mem_map.mpr ⟨e, he, rfl⟩)
        rw [hw.find?_of_ne hne]
        exact hes e (List.mem_cons_of_mem _ he)
      have hmem : n ∈ g₁.players := by
        rw [hw.players, SortedMap.mem_adjust]
        exact SortedMap.mem_of_find? hp
      simp only [hbody, if_pos hmem] at hloop
      obtain ⟨h, hm, hg'⟩ := forPlayers_moveWorm_moved hpf (hsound.moveWorm hp hbody)
        (hw.started.trans hs) (hw.board.withinLimits.mpr hlim)
        (hpos.moveWorm hpf hsound hp hbody) hrest hnodup' hloop
      rw [hw.filterMap_worm? hnot, hw.board.rules_eq] at hm
      exact ⟨h, hm.cons hnot hw hp, hg'⟩
    cases halive : p.isAlive with
    | false =>
      have hw := wrote_self hp
      have hworm := hw.worm?_of_gone hp halive
      obtain ⟨h, hm, hg'⟩ := next (moveWorm_of_not_alive pf n hs halive) hw
      rw [hworm] at hm
      rw [List.map_cons, List.filterMap_cons, hworm]
      exact ⟨h, hm, hg'⟩
    | true =>
      obtain ⟨no, hno⟩ := hsound.toOrderly.number hs hp (by simp [halive])
      have hbody := moveWorm_of_alive pf n hs halive hno
      have hsame := Player.sameClient_advance pf g.turningSpeed p
      have hfollows := (hpos hlim n p hp halive).advance_verdict hpf hlim g.eatenPixels no
      have hmoved := Player.asWorm_advance hpf hlim p no
      rw [List.map_cons, List.filterMap_cons, (wrote_self hp).worm?_of_alive hp hno halive]
      cases hv : (p.advance pf g.turningSpeed).verdict pf g.maxx g.maxy g.eatenPixels with
      | stays =>
        simp only [hv] at hbody hfollows
        have hw : Wrote n p _ [] g _ := wrote_setPlayer hsame
        have hworm := hw.worm?_of_alive hp hno halive
        obtain ⟨h, hm, hg'⟩ := next hbody hw
        rw [hworm, hmoved] at hm
        rw [Rules.moves_stays _ hge hfollows]
        exact ⟨h, hm, hg'⟩
      | eats pixel =>
        simp only [hv] at hbody hfollows
        obtain ⟨hpixel, hother, hfree, hin⟩ := hfollows
        have hw : Wrote n p _ _ g _ := wrote_ate (hsame.onPixel pixel) no
        have hworm := (hw.worm?_of_alive hp hno halive).trans (congrArg some hmoved)
        obtain ⟨h, hm, hg'⟩ := next hbody hw
        rw [hworm, ate, Finset.image_insert] at hm
        rw [Rules.moves_eats _ hge hother hfree hin, hpixel]
        exact ⟨h, hm, hg'⟩
      | eliminated =>
        simp only [hv] at hbody hfollows
        obtain ⟨hother, hout⟩ := hfollows
        have hw : Wrote n p _ _ g _ := wrote_eliminated hsame no
        have hworm := hw.worm?_of_gone hp (by simp [Player.isAlive])
        have hcount := hrun.toUInt8_alive hsound.toRegistered
        rw [Rules.moves_eliminated _ hge hother hout]
        by_cases hlast : g.alivePlayers = 2
        · -- the game is over, and the loop is left
          have hover : (eliminated n (p.advance pf g.turningSpeed) no g).endGame.gameStarted =
              false := by rw [endGame_eq]
          have halive₁ : (eliminated n (p.advance pf g.turningSpeed) no g).alivePlayers = 1 := by
            rw [eliminated, hcount, hlast]
          rw [hcount, if_pos (by omega)] at hbody
          simp only [hbody, moveWorm_over pf hover] at hloop
          split at hloop
          · obtain rfl := Except.ok.inj hloop
            rw [hlast, Rules.moves_of_over (by decide)]
            exact ⟨_, Moved.last hnot hw hp hworm rfl halive₁, (if_pos (by omega)).symm⟩
          · cases hloop
        · rw [hcount, if_neg (by omega)] at hbody
          obtain ⟨h, hm, hg'⟩ := next hbody hw
          rw [hworm, eliminated, hcount] at hm
          exact ⟨h, hm, hg'⟩

/-! ## The end of a turn -/

section End

variable {D : Type} {g h : GameTask D}

/-- As many worms are in the game as `alivePlayers` says. -/
theorem GameState.Sound.length_worms (hsound : g.toGameState.Sound) (hs : g.gameStarted = true) :
    g.worms.length = g.alivePlayers := by
  rw [(hsound.running hs).alive_eq, GameState.worms, List.length_filterMap_eq_countP,
    SortedMap.keys, List.countP_map]
  refine List.countP_congr fun e he => ?_
  have hp : g.players.find? e.1 = some e.2 := SortedMap.find?_eq_some.mpr he
  cases halive : e.2.isAlive with
  | false => simp [GameState.worm?, hp, halive]
  | true =>
    obtain ⟨no, hno⟩ := hsound.toOrderly.number hs hp (by simp [halive])
    simp [GameState.worm?, hp, halive, hno]

/-- The keys of the players that stay. -/
theorem keys_staying_eq (g : GameState D) :
    (staying g.players).keys = g.players.keys.filter g.isConnected := by
  simp only [SortedMap.keys, staying, SortedMap.filter, SortedMap.mapValues, List.filter_map,
    List.map_map]
  refine congrArg (List.map Prod.fst) (List.filter_congr fun e he => ?_)
  have hp : g.players.find? e.1 = some e.2 := SortedMap.find?_eq_some.mpr he
  simp [GameState.isConnected, hp]

/-- Of the worms, those of connected players stay. -/
theorem worms_endGame (hnamed : ∀ n p, g.players.find? n = some p → p.playerName = n) :
    g.endGame.worms = g.worms.filter fun w => g.isConnected w.player := by
  have hkeys : g.endGame.players.keys = g.players.keys.filter g.isConnected := by
    rw [endGame_eq, keys_staying_eq]
  rw [GameState.worms, GameState.worms, hkeys, List.filterMap_filter, List.filter_filterMap]
  refine List.filterMap_congr fun n hn => ?_
  obtain ⟨p, hp⟩ := SortedMap.mem_iff_find?.mp (SortedMap.mem_keys.mp hn)
  have hfilter : ((g.worm? n).filter fun w => g.isConnected w.player) =
      if g.isConnected n then g.worm? n else none := by
    cases hw : g.worm? n with
    | none => simp
    | some w =>
      obtain ⟨q, no, hq, -, -, rfl⟩ := GameState.worm?_eq_some.mp hw
      simp only [Option.filter, Player.asWorm, hnamed n q hq]
  rw [hfilter]
  by_cases hc : g.isConnected n = true
  · have hd : p.isDisconnected = false := by simpa [GameState.isConnected, hp] using hc
    have hstays : g.endGame.players.find? n = some { p with isReadyToPlay := false } := by
      rw [endGame_eq]
      exact find?_staying.mpr ⟨p, hp, hd, rfl⟩
    have hnumbers : g.endGame.playerNumberInGame = g.playerNumberInGame := by rw [endGame_eq]
    rw [if_pos hc, if_pos hc]
    simp only [GameState.worm?, hp, hstays, hnumbers]
    rfl
  · rw [if_neg hc, if_neg hc]

theorem turnEvents_endGame (g : GameTask D) :
    turnEvents g.endGame.calls = turnEvents g.calls ++ [(g.gameId, some .gameOver)] := by
  rw [endGame_eq]
  simp [turnEvents, GameEventVariant.turnEvent?]

theorem GameState.SameClients.isConnected_eq (hclients : g.toGameState.SameClients h.toGameState)
    (n : PlayerName) : h.isConnected n = g.isConnected n := by
  rw [GameState.isConnected, GameState.isConnected]
  cases hp : g.players.find? n with
  | none =>
    have hnone : h.players.find? n = none := SortedMap.find?_eq_none.mpr fun hmem =>
      SortedMap.find?_eq_none.mp hp ((hclients.mem n).mp hmem)
    rw [hnone]
  | some p =>
    obtain ⟨q, hq, hsame⟩ := hclients.find? hp
    simp [hq, hsame.isDisconnected]

end End

/-! ## A turn of the code is a turn by the rules -/

/-- The turn by the rules from a state of the game manager. -/
def GameState.turnByRules (pf : Platform K) (g : GameState K) : Outcome PlayerName K :=
  (g.rules pf).turn (g.eatenPixels.image wide) g.worms

/-- The casts when a player's worm moves. With a negative coordinate there is none, and the worm is
eliminated. Otherwise both coordinates fit in 16 bits, and the casts are their floors. -/
def CastsFit (pf : Platform K) (g : GameState K) (p : Player K) : Prop :=
  let moved := p.advance pf g.turningSpeed
  if moved.coords.1 < 0 ∨ moved.coords.2 < 0 then
    ∀ eatenPixels, moved.verdict pf g.maxx g.maxy eatenPixels = .eliminated
  else moved.coords.1 < 2 ^ 16 ∧ moved.coords.2 < 2 ^ 16 ∧
    (pf.toUInt16 moved.coords.1 : ℤ) = ⌊moved.coords.1⌋ ∧
    (pf.toUInt16 moved.coords.2 : ℤ) = ⌊moved.coords.2⌋

/-- **A turn of the code agrees with the turn by the rules** if all of this is the same. The worms
in the game after the turn are the survivors; once the game is over, those of disconnected players
have gone with their players. -/
structure TurnAgrees (pf : Platform K) (g : GameState K) (g' : GameTask K) : Prop where
  events : turnEvents g'.calls = (g.turnByRules pf).events.map fun e => (g.gameId, some e)
  survivors : g'.worms =
    (g.turnByRules pf).worms.filter fun w => g'.gameStarted || g.isConnected w.player
  headings : ∀ w ∈ (g.turnByRules pf).worms, 0 ≤ w.heading ∧ w.heading < 360
  eaten : g'.eatenPixels.image wide = (g.turnByRules pf).eaten
  goesOn : g'.gameStarted = true ↔ 2 ≤ (g.turnByRules pf).worms.length
  casts : ∀ name p, g.players.find? name = some p → p.isAlive = true → CastsFit pf g p

section Turn

variable {pf : Platform K} {g : GameState K}

theorem GameState.Positions.heading (hpos : g.Positions) (hlim : g.WithinLimits) :
    ∀ w ∈ g.worms, 0 ≤ w.heading ∧ w.heading < 360 := by
  intro w hw
  obtain ⟨n, -, hn⟩ := List.mem_filterMap.mp hw
  obtain ⟨p, no, hp, halive, -, rfl⟩ := GameState.worm?_eq_some.mp hn
  exact ⟨Int.natCast_nonneg _, Int.ofNat_lt.mpr (hpos hlim n p hp halive).heading_lt⟩

variable [IsStrictOrderedRing K]

theorem Player.Positioned.castsFit (hpf : pf.Exact) (hlim : g.WithinLimits) {p : Player K}
    (hp : p.Positioned g.maxx g.maxy) : CastsFit pf g p := by
  rw [CastsFit]
  split
  · rename_i hneg
    intro eatenPixels
    refine if_pos ?_
    rwa [Bool.or_eq_true, hpf.isNegative, hpf.isNegative]
  · rename_i hpos
    rw [not_or, not_lt, not_lt] at hpos
    obtain ⟨hx, hy⟩ := hp.advance_lt hpf hlim
    exact ⟨hx, hy, hpf.toUInt16 _ hpos.1 hx, hpf.toUInt16 _ hpos.2 hy⟩

/-- **A turn that ends without a fault** is a turn by the rules. -/
theorem runTurn_agrees (hpf : pf.Exact) (hsound : g.Sound) (hs : g.gameStarted = true)
    (hlim : g.WithinLimits) (hpos : g.Positions) {g' : GameTask K}
    (hturn : GameTask.runTurn pf ⟨g, []⟩ = .ok g') : TurnAgrees pf g g' := by
  have hlen := GameState.Sound.length_worms (g := ⟨g, []⟩) hsound hs
  have hentries : ∀ e ∈ g.players.entries, g.players.find? e.1 = some e.2 :=
    fun e he => SortedMap.find?_eq_some.mpr he
  obtain ⟨h, hm, hg'⟩ := forPlayers_moveWorm_moved (g := ⟨g, []⟩) hpf hsound hs hlim hpos hentries
    g.players.nodup_keys hturn
  have hmoves : Moved g.players.keys
      ((g.rules pf).moves g.worms.length (g.eatenPixels.image wide) g.worms) ⟨g, []⟩ h := by
    rw [hlen]
    exact hm
  have hnamed : ∀ n p, h.players.find? n = some p → p.playerName = n := fun n p hp => by
    obtain ⟨q, hq, hsame⟩ := hmoves.clients.client n p hp
    rw [hsame.playerName]
    exact (hsound.named n q hq).1
  have hworms : h.worms =
      ((g.rules pf).moves g.worms.length (g.eatenPixels.image wide) g.worms).worms := by
    rw [← hmoves.worms, GameState.worms, SortedMap.keys_congr hmoves.clients.mem]
  have hevents : turnEvents h.calls = ((g.rules pf).moves g.worms.length
      (g.eatenPixels.image wide) g.worms).events.map fun e => (g.gameId, some e) :=
    hmoves.events
  have hcasts : ∀ name p, g.players.find? name = some p → p.isAlive = true → CastsFit pf g p :=
    fun name p hp halive => (hpos hlim name p hp halive).castsFit hpf hlim
  rw [hmoves.left] at hg'
  by_cases hover :
      ((g.rules pf).moves g.worms.length (g.eatenPixels.image wide) g.worms).left < 2
  · rw [if_pos hover] at hg'
    subst hg'
    have hturned : g.turnByRules pf = _ := Rules.turn_of_over hover
    have hdone : h.endGame.gameStarted = false := by rw [endGame_eq]
    refine ⟨?_, ?_, ?_, ?_, ?_, hcasts⟩ <;> rw [hturned]
    · rw [turnEvents_endGame, hevents, hmoves.gameId, List.map_append]
      rfl
    · rw [worms_endGame hnamed, hworms, hdone]
      simp only [hmoves.clients.isConnected_eq, Bool.false_or]
    · exact Rules.heading_moves (hpos.heading hlim)
    · rw [endGame_eq]
      exact hmoves.eaten
    · rw [hdone, ← Rules.left_moves]
      exact iff_of_false Bool.false_ne_true (not_le.mpr hover)
  · rw [if_neg hover] at hg'
    subst hg'
    have hturned : g.turnByRules pf = _ := Rules.turn_of_running hover
    have hrunning : g'.gameStarted = true := hmoves.started.trans hs
    refine ⟨?_, ?_, ?_, ?_, ?_, hcasts⟩ <;> rw [hturned]
    · exact hevents
    · rw [hworms, hrunning]
      simp
    · exact Rules.heading_moves (hpos.heading hlim)
    · exact hmoves.eaten
    · rw [hrunning, ← Rules.left_moves]
      exact iff_of_true rfl (not_lt.mp hover)

/-- **When a turn is one by the rules**: in every reachable state with a game under way, unless the
elimination that ends the game is that of a disconnected player. -/
theorem runTurn_agrees_iff (hpf : pf.Exact) {gm : GameManager K}
    (hgm : (managerMachine pf).Reachable gm) (hs : gm.gameStarted = true)
    (hlim : gm.toGameState.WithinLimits) :
    (∃ g', GameTask.runTurn pf ⟨gm.toGameState, []⟩ = .ok g' ∧ TurnAgrees pf gm.toGameState g') ↔
      GameOp.turn.LoopsSafely pf gm.toGameState := by
  obtain ⟨g, hg, hgm'⟩ := reachable_gameTask hgm
  have hsound := (gameMachine_sound pf).reachable hg
  have hpos := (gameMachine_positioned hpf).reachable hg
  rw [hgm'] at hsound hpos
  have hiff := @forPlayers_moveWorm_ok_iff _ pf gm.players.entries ⟨gm.toGameState, []⟩ hsound hs
    (fun e he => SortedMap.find?_eq_some.mpr he) gm.players.nodup_keys
  rw [GameOp.LoopsSafely, ← hiff]
  constructor
  · rintro ⟨g', hturn, -⟩ -
    exact ⟨g', hturn⟩
  · intro hsafe
    obtain ⟨g', hturn⟩ := hsafe hs
    exact ⟨g', hturn, runTurn_agrees hpf hsound hs hlim hpos hturn⟩

end Turn

/-! ### Runs in exact numbers -/

/-- Rational numbers, with displacements of six decimal places. -/
def rational : Platform ℚ where
  centre r := r + 1 / 2
  cos degrees := cosMillionths degrees / 1000000
  sin degrees := cosMillionths ((degrees + 270) % 360) / 1000000
  add := (· + ·)
  isNegative x := x < 0
  toUInt16 x := ⌊x⌋.toNat % 2 ^ 16
  unsetCoords := (0, 0)
  unsetPixel := (0, 0)
  unsetDirection := 0

theorem rational_exact : rational.Exact := by
  have hcos : ∀ d < 360, |((cosMillionths d : ℤ) : ℚ) / 1000000| ≤ 1 := by
    intro d hd
    have hle : ∀ d < 360, |cosMillionths d| ≤ 1000000 := by decide +kernel
    rw [abs_div, abs_of_pos (show (0 : ℚ) < 1000000 by norm_num), div_le_one (by norm_num)]
    exact_mod_cast hle d hd
  refine ⟨fun _ _ => rfl, fun _ _ => rfl, fun x => decide_eq_true_iff, fun x hx hlt => ?_, hcos,
    fun d _ => hcos _ (Nat.mod_lt _ (by decide))⟩
  have hfloor : ⌊x⌋ < 2 ^ 16 := Int.floor_lt.mpr (by exact_mod_cast hlt)
  have hpos : 0 ≤ ⌊x⌋ := Int.floor_nonneg.mpr hx
  show ((⌊x⌋.toNat % 2 ^ 16 : ℕ) : ℤ) = ⌊x⌋
  omega

/-- The first turn of a game of two players. -/
theorem runTurn_agrees_two : ∃ s : Server ℚ, (serverMachine rational).Reachable s ∧
    s.gameManager.gameStarted = true ∧ ∃ g',
      GameTask.runTurn rational ⟨s.gameManager.toGameState, []⟩ = .ok g' ∧
      TurnAgrees rational s.gameManager.toGameState g' := by
  have hinit : (serverMachine rational).init (.new (smallBoard 5 (by decide)) 0 0) :=
    ⟨_, 0, 0, rfl⟩
  obtain ⟨s, hs, hstarted, ⟨hmaxx, hmaxy, hspeed⟩, hdoomed⟩ :=
    (Machine.Reachable.init hinit).exists_of_exec (P := fun s =>
        s.gameManager.gameStarted = true ∧ (s.gameManager.maxx = 16 ∧ s.gameManager.maxy = 16 ∧
          s.gameManager.turningSpeed = 6) ∧
        doomed rational s.gameManager.turningSpeed s.gameManager.maxx s.gameManager.maxy
          s.gameManager.eatenPixels s.gameManager.players.entries = [])
      [.said 0 1 5 .right 0 [97], .said 0 2 5 .right 0 [98]] (by decide +kernel)
  have hlim : s.gameManager.toGameState.WithinLimits :=
    ⟨by rw [hmaxx]; decide, by rw [hmaxy]; decide, by rw [hspeed]; decide⟩
  refine ⟨s, hs, hstarted,
    (runTurn_agrees_iff rational_exact (reachable_gameManager hs) hstarted hlim).mpr ?_⟩
  intro _ name hname
  rw [hdoomed] at hname
  cases hname

/-- The player of the worm that is about to leave the board has been marked as disconnected. -/
theorem not_runTurn_agrees : ∃ s : Server ℚ, (serverMachine rational).Reachable s ∧
    s.gameManager.gameStarted = true ∧ s.gameManager.toGameState.WithinLimits ∧
    ¬∃ g', GameTask.runTurn rational ⟨s.gameManager.toGameState, []⟩ = .ok g' ∧
      TurnAgrees rational s.gameManager.toGameState g' := by
  have hinit : (serverMachine rational).init (.new (smallBoard 8 (by decide)) 0 0) :=
    ⟨_, 0, 0, rfl⟩
  obtain ⟨s, hs, hstarted, ⟨hmaxx, hmaxy, hspeed⟩, hfault⟩ :=
    (Machine.Reachable.init hinit).exists_of_exec (P := fun s =>
        s.gameManager.gameStarted = true ∧ (s.gameManager.maxx = 16 ∧ s.gameManager.maxy = 16 ∧
          s.gameManager.turningSpeed = 6) ∧
        GameTask.runTurn rational ⟨s.gameManager.toGameState, []⟩ = .error .erasedEntry)
      [.said 0 1 1 .right 0 [97], .said 0 2 1 .right 0 [98], .said 2500000 2 1 .straight 0 [98],
        .tick 3000000 []] (by decide +kernel)
  refine ⟨s, hs, hstarted, ⟨by rw [hmaxx]; decide, by rw [hmaxy]; decide, by rw [hspeed]; decide⟩,
    ?_⟩
  rintro ⟨g', hturn, -⟩
  rw [hfault] at hturn
  cases hturn

end ScreenWorms
