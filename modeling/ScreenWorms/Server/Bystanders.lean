import ScreenWorms.Server.GameLog
import ScreenWorms.Server.PlayerLoops

/-!
# What bystanders do during a game

The events of a game under way depend on its turns and on what its participants say. Whoever else
sends messages, joins or leaves meanwhile changes the map that a turn runs over, but not what it
does to the worms; and a participant that leaves is only marked.

`GameState.alone` is the game with nobody there but its participants, all of them connected. The
operation of a bystander leaves it as it is (`Unseen`), and an operation that concerns the game does
to it what it does to the whole (`Mirrors`).

The turn that ends a game may step on from an erased entry. What it has saved by then counts, so a
turn is followed to the point it reaches (`forPlayersUntil`).

## Main definitions

* `GameState.participants`, `GameOp.concerns` — whose messages a game depends on
* `GameState.alone`
* `eventsUntilOver` — the events up to and including `GAME_OVER`

## Main results

* `eventsUntilOver_alone` — the events of a game are those of its participants alone
* `eventsUntilOver_congr` — bystanders do not change the events of a game
-/

namespace ScreenWorms

variable {D : Type}

open GameTask

/-! ## Up to the end of the game -/

namespace GameTask

/-- The members that `forPlayers` has reached when it ends, or steps on from an erased entry. -/
def forPlayersUntil
    (body : PlayerName → Player D → GameTask D → Except Fault (Flow × GameTask D)) :
    List PlayerName → GameTask D → GameTask D
  | [], g => g
  | name :: names, g =>
    match g.players.find? name with
    | none => forPlayersUntil body names g
    | some player =>
      match body name player g with
      | .error _ => g
      | .ok (.exit, g') => g'
      | .ok (.next, g') => if name ∈ g'.players then forPlayersUntil body names g' else g'

variable {body : PlayerName → Player D → GameTask D → Except Fault (Flow × GameTask D)}

theorem forPlayersUntil_of_ok : ∀ {names : List PlayerName} {g g' : GameTask D},
    forPlayers body names g = .ok g' → forPlayersUntil body names g = g'
  | [], g, g', h => Except.ok.inj h
  | name :: names, g, g', h => by
    rw [forPlayers] at h
    rw [forPlayersUntil]
    cases hp : g.players.find? name with
    | none =>
      rw [hp] at h
      exact forPlayersUntil_of_ok h
    | some p =>
      rw [hp] at h
      rcases hbody : body name p g with _ | ⟨flow, g₁⟩
      · simp [hbody] at h
      · cases flow with
        | exit =>
          simp only [hbody, Except.ok.injEq] at h ⊢
          exact h
        | next =>
          simp only [hbody] at h ⊢
          split at h
          · rename_i hmem
            rw [if_pos hmem]
            exact forPlayersUntil_of_ok h
          · cases h

/-- What every iteration keeps holds where the loop stops. -/
theorem forPlayersUntil_induction {I : GameTask D → Prop}
    (hbody : ∀ name g player flow g', I g → g.players.find? name = some player →
      body name player g = .ok (flow, g') → I g') :
    ∀ {names : List PlayerName} {g : GameTask D}, I g → I (forPlayersUntil body names g)
  | [], _, h => h
  | name :: names, g, h => by
    rw [forPlayersUntil]
    cases hp : g.players.find? name with
    | none => exact forPlayersUntil_induction hbody h
    | some p =>
      rcases hb : body name p g with _ | ⟨flow, g₁⟩
      · simp only [hb]
        exact h
      · have h₁ := hbody name g p flow g₁ h hp hb
        cases flow with
        | exit =>
          simp only [hb]
          exact h₁
        | next =>
          simp only [hb]
          split
          · exact forPlayersUntil_induction hbody h₁
          · exact h₁

end GameTask

/-- The members that an operation has reached when it ends or goes wrong. A message does not go
wrong while a game is under way. -/
def GameOp.reached (pf : Platform D) : GameOp → GameTask D → GameTask D
  | .message f msg, g => (g.handleMessage pf f msg).toOption.getD g
  | .drop f, g => g.dropConnection f
  | .turn, g => forPlayersUntil (moveWorm pf) g.players.keys g

/-- The events saved up to and including `GAME_OVER`, each with its game. -/
def eventsUntilOver (pf : Platform D) : List GameOp → GameState D → List (ℕ × GameEventVariant)
  | [], _ => []
  | op :: ops, g =>
    if g.gameStarted then
      scheduled (op.reached pf ⟨g, []⟩).calls ++
        eventsUntilOver pf ops (op.reached pf ⟨g, []⟩).toGameState
    else []

/-- The sockets of the players that take part in the game, by name. -/
def GameState.participants (g : GameState D) : SortedMap PlayerName Fingerprint :=
  (g.players.filter fun _ p => p.takesPartInCurrentGame).mapValues fun _ p => p.fingerprint

/-- A turn, or a message from a participant's socket under the participant's own name. -/
def GameOp.concerns (g : GameState D) : GameOp → Bool
  | .message f msg => g.participants.find? msg.playerName = some f
  | .drop _ => false
  | .turn => true

theorem GameOp.concerns_congr {g g' : GameState D} (h : g'.participants = g.participants)
    (op : GameOp) : op.concerns g' = op.concerns g := by
  rcases op with ⟨f, msg⟩ | f | _
  · simp [concerns, h]
  · rfl
  · rfl

/-! ## The game without bystanders -/

/-- The players that take part, with no mark that they have gone. -/
def worms (players : SortedMap PlayerName (Player D)) : SortedMap PlayerName (Player D) :=
  (players.filter fun _ p => p.takesPartInCurrentGame).mapValues fun _ p =>
    { p with isDisconnected := false }

/-- The game with nobody there but its participants, all of them connected. -/
def GameState.alone (g : GameState D) : GameState D :=
  { g with watchers := ∅, players := worms g.players }

/-- A player as it counts for the game. -/
def Player.worm (p : Player D) : Option (Player D) :=
  if p.takesPartInCurrentGame then some { p with isDisconnected := false } else none

section worms

variable {players : SortedMap PlayerName (Player D)} {name : PlayerName} {p q : Player D}

theorem find?_worms (players : SortedMap PlayerName (Player D)) (name : PlayerName) :
    (worms players).find? name = (players.find? name).bind Player.worm := by
  rw [worms, SortedMap.find?_mapValues, SortedMap.find?_filter]
  rcases players.find? name with _ | p
  · rfl
  · cases h : p.takesPartInCurrentGame <;> simp [Player.worm, Option.filter, h]

theorem find?_worms_of_in (hp : players.find? name = some p) (ht : p.takesPartInCurrentGame = true) :
    (worms players).find? name = some { p with isDisconnected := false } := by
  rw [find?_worms, hp, Option.bind_some, Player.worm, if_pos ht]

theorem mem_worms (hp : players.find? name = some p) :
    name ∈ worms players ↔ p.takesPartInCurrentGame = true := by
  rw [SortedMap.mem_iff_find?, find?_worms, hp, Option.bind_some, Player.worm]
  split <;> simp [*]

theorem keys_worms (players : SortedMap PlayerName (Player D)) :
    (worms players).keys = players.keys.filter (· ∈ worms players) := by
  rw [SortedMap.keys, SortedMap.keys, List.filter_map]
  show (((players.entries.filter _).map _).map Prod.fst) = _
  rw [List.map_map]
  refine congrArg (List.map Prod.fst) (List.filter_congr fun e he => ?_)
  show e.2.takesPartInCurrentGame = decide (e.1 ∈ worms players)
  rw [Bool.eq_iff_iff, decide_eq_true_iff, mem_worms (SortedMap.find?_eq_some.mpr he)]

/-- A player that takes part is written. -/
theorem worms_adjust (hp : players.find? name = some p) (hpt : p.takesPartInCurrentGame = true)
    (hqt : q.takesPartInCurrentGame = true) : worms (players.adjust name fun _ => q) =
      (worms players).adjust name fun _ => { q with isDisconnected := false } := by
  refine SortedMap.ext_find? fun n => ?_
  rw [find?_worms, SortedMap.find?_adjust, SortedMap.find?_adjust, find?_worms]
  by_cases hn : n = name
  · subst hn
    simp [hp, Player.worm, hpt, hqt]
  · simp [hn]

/-- A player that takes no part is written. -/
theorem worms_adjust_of_out (hp : players.find? name = some p) (hpq : q.worm = p.worm) :
    worms (players.adjust name fun _ => q) = worms players := by
  refine SortedMap.ext_find? fun n => ?_
  rw [find?_worms, find?_worms, SortedMap.find?_adjust]
  by_cases hn : n = name
  · subst hn
    simp [hp, hpq]
  · simp [hn]

theorem worms_markDisconnected (f : Fingerprint) (players : SortedMap PlayerName (Player D)) :
    worms (markDisconnected f players) = worms players := by
  refine SortedMap.ext_find? fun n => ?_
  rw [find?_worms, find?_worms, find?_markDisconnected, Option.bind_map]
  refine Option.bind_congr fun p _ => ?_
  show (if _ then _ else p).worm = p.worm
  split <;> rfl

theorem worms_insert (hnew : name ∉ players) (hp : p.takesPartInCurrentGame = false) :
    worms (players.insert name p) = worms players := by
  refine SortedMap.ext_find? fun n => ?_
  rw [find?_worms, find?_worms, SortedMap.find?_insert hnew]
  by_cases hn : n = name
  · subst hn
    rw [if_pos rfl, SortedMap.find?_eq_none.mpr hnew]
    simp [Player.worm, hp]
  · rw [if_neg hn]

/-- Who takes part can be told from the worms. -/
theorem participants_eq (g : GameState D) :
    g.participants = (worms g.players).mapValues fun _ p => p.fingerprint := by
  refine SortedMap.ext_find? fun n => ?_
  rw [GameState.participants, worms, SortedMap.find?_mapValues, SortedMap.find?_mapValues,
    SortedMap.find?_mapValues, Option.map_map]
  rfl

theorem worms_worms (players : SortedMap PlayerName (Player D)) :
    worms (worms players) = worms players := by
  refine SortedMap.ext_find? fun n => ?_
  rw [find?_worms, find?_worms, Option.bind_assoc]
  refine Option.bind_congr fun p _ => ?_
  by_cases h : p.takesPartInCurrentGame = true <;> simp [Player.worm, h]

end worms

theorem GameState.participants_alone (g : GameState D) : g.alone.participants = g.participants := by
  rw [participants_eq, participants_eq, GameState.alone, worms_worms]

/-! ## What bystanders do -/

namespace GameTask

/-- Nothing has happened that the game depends on. -/
structure Unseen (g g' : GameTask D) : Prop where
  alone : g'.toGameState.alone = g.toGameState.alone
  events : scheduled g'.calls = scheduled g.calls

variable {g g' g₁ : GameTask D}

theorem Unseen.refl (g : GameTask D) : Unseen g g := ⟨rfl, rfl⟩

theorem Unseen.trans (h : Unseen g g₁) (h' : Unseen g₁ g') : Unseen g g' :=
  ⟨h'.alone.trans h.alone, h'.events.trans h.events⟩

theorem Unseen.started (h : Unseen g g') : g'.gameStarted = g.gameStarted := by
  show g'.toGameState.alone.gameStarted = g.toGameState.alone.gameStarted
  rw [h.alone]

/-- Watchers and calls that schedule nothing are not seen, nor are players if the worms are the
same. -/
theorem unseen_of_worms {watchers : SortedMap Fingerprint Watcher}
    {players : SortedMap PlayerName (Player D)} {calls : List MQCall}
    (hplayers : worms players = worms g.players) (hcalls : scheduled calls = scheduled g.calls) :
    Unseen g { g with watchers := watchers, players := players, calls := calls } where
  alone := by simp only [GameState.alone, hplayers]
  events := hcalls

theorem unseen_dropConnection (hs : g.gameStarted = true) (f : Fingerprint) :
    Unseen g (g.dropConnection f) := by
  by_cases hw : f ∈ g.watchers
  · rw [dropConnection_of_watcher hw]
    exact unseen_of_worms rfl (by simp)
  · rw [dropConnection_of_running hw hs]
    exact unseen_of_worms (worms_markDisconnected f g.players) (by simp)

theorem unseen_handleMessageFromWatcher (f : Fingerprint) (msg : ClientToServerMessage)
    (g : GameTask D) : Unseen g (g.handleMessageFromWatcher f msg) := by
  obtain ⟨watchers, calls, heq, hcalls⟩ := exists_handleMessageFromWatcher f msg g
  rw [heq]
  exact unseen_of_worms rfl hcalls

theorem unseen_answered {msg : ClientToServerMessage} {p : Player D}
    (hp : g.players.find? msg.playerName = some p) (ht : p.takesPartInCurrentGame = false) :
    Unseen g (g.answered msg p) :=
  unseen_of_worms (worms_adjust_of_out hp (by simp [Player.worm, Player.updated, ht]))
    (by simp [setPlayer])

theorem unseen_joined (pf : Platform D) (f : Fingerprint) {msg : ClientToServerMessage}
    (hnew : msg.playerName ∉ g.players) : Unseen g (g.joined pf f msg) :=
  unseen_of_worms (worms_insert hnew rfl) (by simp)

/-- The loop that drops the older players of a new one's socket goes well, and is not seen. -/
theorem unseen_dropIfOlder (f : Fingerprint) (msg : ClientToServerMessage)
    (hs : g.gameStarted = true) : ∃ g', forPlayers (dropIfOlder f msg) g.players.keys g = .ok g' ∧
      g'.players.keys = g.players.keys ∧ Unseen g g' := by
  have hreplicate : ∀ k, scheduled (List.replicate k (.dropQueue f)) = [] := fun k => by
    rw [scheduled, List.filterMap_replicate_of_none rfl]
  by_cases hw : f ∈ g.watchers
  · refine ⟨_, dropIfOlder_of_watcher msg hw hs fun n hn => hn, ?_, unseen_of_worms ?_ ?_⟩
    · simp only [apply_ite SortedMap.keys, keys_markDisconnected, ite_self]
    · simp only [apply_ite worms, worms_markDisconnected, ite_self]
    · simp [hreplicate]
  · refine ⟨_, dropIfOlder_of_running msg hw hs fun n hn => hn, ?_, unseen_of_worms ?_ ?_⟩
    · simp only [apply_ite SortedMap.keys, keys_markDisconnected, ite_self]
    · simp only [apply_ite worms, worms_markDisconnected, ite_self]
    · simp [hreplicate]

/-- **A bystander's operation is not seen.** -/
theorem unseen_reached (pf : Platform D) (hs : g.gameStarted = true) {op : GameOp}
    (hop : op.concerns g.toGameState = false) : Unseen g (op.reached pf g) := by
  rcases op with ⟨f, msg⟩ | f | _
  · rw [GameOp.reached, handleMessage]
    split
    · exact unseen_handleMessageFromWatcher f msg g
    · cases hp : g.players.find? msg.playerName with
      | some p =>
        by_cases hf : p.fingerprint = f
        · rw [handleMessageFromPlayer_of_known hp hf, startGameIfReady_of_running pf
            (g := g.answered msg p) hs]
          refine unseen_answered hp ?_
          simpa [GameOp.concerns, participants_eq, find?_worms, hp, Player.worm, hf] using hop
        · rw [handleMessageFromPlayer_of_other hp hf]
          exact .refl g
      | none =>
        obtain ⟨g₁, hloop, hkeys, hunseen⟩ := unseen_dropIfOlder f msg hs
        have hs₁ : g₁.gameStarted = true := hunseen.started.trans hs
        have hnew : msg.playerName ∉ g₁.players := by
          rw [← SortedMap.mem_keys, hkeys, SortedMap.mem_keys]
          exact SortedMap.find?_eq_none.mp hp
        rw [handleMessageFromPlayer_of_new hp, hloop]
        simp only
        split
        · exact hunseen
        · rw [startGameIfReady_of_running pf (g := g₁.joined pf f msg) hs₁]
          exact hunseen.trans (unseen_joined pf f hnew)
  · exact unseen_dropConnection hs f
  · cases hop

/-! ## What concerns the game -/

/-- `a` is `g` without its bystanders, as long as the game is under way. -/
structure Mirrors (sockets : SortedMap PlayerName Fingerprint) (g a : GameTask D) : Prop where
  events : scheduled a.calls = scheduled g.calls
  started : a.gameStarted = g.gameStarted
  alone : g.gameStarted = true → a.toGameState = g.toGameState.alone
  participants : g.gameStarted = true → g.participants = sockets

variable {a : GameTask D} {sockets : SortedMap PlayerName Fingerprint}

/-- The socket of a worm that moves is still that of a participant. -/
theorem participants_adjust {name : PlayerName} {p q : Player D}
    (hp : g.players.find? name = some p) (hpt : p.takesPartInCurrentGame = true)
    (hqt : q.takesPartInCurrentGame = true) (hf : q.fingerprint = p.fingerprint)
    (hplayers : g'.players = g.players.adjust name fun _ => q) :
    g'.participants = g.participants := by
  rw [participants_eq, participants_eq, hplayers, worms_adjust hp hpt hqt]
  refine SortedMap.ext_find? fun n => ?_
  rw [SortedMap.find?_mapValues, SortedMap.find?_mapValues, SortedMap.find?_adjust]
  by_cases hn : n = name
  · subst hn
    simp [find?_worms_of_in hp hpt, hf]
  · simp [hn]

/-- The loop of a turn stays where it is once the game is over. -/
theorem forPlayersUntil_over (pf : Platform D) (hs : g.gameStarted = false) :
    ∀ names, forPlayersUntil (moveWorm pf) names g = g
  | [] => rfl
  | n :: names => by
    rw [forPlayersUntil]
    cases g.players.find? n with
    | none => exact forPlayersUntil_over pf hs names
    | some p => simp only [moveWorm_of_over pf n p hs]

theorem Mirrors.mem_sockets (h : Mirrors sockets g a) (hs : g.gameStarted = true)
    {name : PlayerName} : name ∈ sockets ↔ name ∈ worms g.players := by
  rw [← h.participants hs, participants_eq, SortedMap.mem_mapValues]

/-- The entry of a worm is written; what the move does to pixels and counters happens to both. -/
theorem Mirrors.write (h : Mirrors sockets g a) (hs : g.gameStarted = true) {g' a' : GameTask D}
    {name : PlayerName} {p q : Player D} (hp : g.players.find? name = some p)
    (hpt : p.takesPartInCurrentGame = true) (hqt : q.takesPartInCurrentGame = true)
    (hf : q.fingerprint = p.fingerprint) (eatenPixels : Finset (ℕ × ℕ)) (alivePlayers : ℕ)
    (hg' : g'.toGameState = { g.toGameState with
      players := g.players.adjust name fun _ => q
      eatenPixels := eatenPixels
      alivePlayers := alivePlayers })
    (ha' : a'.toGameState = { g.toGameState.alone with
      players := (worms g.players).adjust name fun _ => { q with isDisconnected := false }
      eatenPixels := eatenPixels
      alivePlayers := alivePlayers })
    (hcalls : scheduled a'.calls = scheduled g'.calls) : Mirrors sockets g' a' where
  events := hcalls
  started := by rw [ha', hg']; rfl
  alone _ := by rw [ha', hg', GameState.alone, GameState.alone, worms_adjust hp hpt hqt]
  participants _ := by
    have hplayers : g'.players = g.players.adjust name fun _ => q := by rw [hg']
    rw [participants_adjust hp hpt hqt hf hplayers, h.participants hs]

/-- The end of the game is the same with and without bystanders. -/
theorem Mirrors.endGame {g a : GameTask D} (hid : a.gameId = g.gameId)
    (hcalls : scheduled a.calls = scheduled g.calls) : Mirrors sockets g.endGame a.endGame := by
  rw [endGame_eq, endGame_eq]
  exact ⟨by simp [hcalls, hid], rfl, fun hs => (by cases hs), fun hs => (by cases hs)⟩

/-- **One worm** moves with and without bystanders. -/
theorem Mirrors.moveWorm (pf : Platform D) {g a : GameTask D} (h : Mirrors sockets g a)
    (hsound : g.toGameState.Sound) (hs : g.gameStarted = true) {name : PlayerName} {p : Player D}
    (hp : g.players.find? name = some p) (hpt : p.takesPartInCurrentGame = true) :
    ∃ g' a', GameTask.moveWorm pf name p g = .ok (.next, g') ∧
      GameTask.moveWorm pf name { p with isDisconnected := false } a = .ok (.next, a') ∧
      Mirrors sockets g' a' ∧
      (g'.gameStarted = true → name ∈ g'.players ∧ name ∈ a'.players) := by
  obtain ⟨a, calls⟩ := a
  obtain rfl : a = g.toGameState.alone := h.alone hs
  have hmem : name ∈ g.players := SortedMap.mem_of_find? hp
  have hmem' : name ∈ worms g.players := (mem_worms hp).mpr hpt
  cases halive : p.isAlive with
  | false =>
    exact ⟨_, _, moveWorm_of_not_alive pf name hs halive,
      moveWorm_of_not_alive pf (g := ⟨g.toGameState.alone, calls⟩) name hs halive, h,
      fun _ => ⟨hmem, hmem'⟩⟩
  | true =>
    obtain ⟨no, hno⟩ := hsound.toOrderly.number hs hp (by simp [halive])
    refine ⟨_, _, moveWorm_of_alive pf name hs halive hno,
      moveWorm_of_alive pf (g := ⟨g.toGameState.alone, calls⟩) name hs halive hno, ?_⟩
    -- the mark that a player has gone has no part in the move
    have hverdict : (({ p with isDisconnected := false } : Player D).advance pf
        g.alone.turningSpeed).verdict pf g.alone.maxx g.alone.maxy g.alone.eatenPixels =
      (p.advance pf g.turningSpeed).verdict pf g.maxx g.maxy g.eatenPixels := rfl
    rw [hverdict]
    have hevents : scheduled calls = scheduled g.calls := h.events
    cases (p.advance pf g.turningSpeed).verdict pf g.maxx g.maxy g.eatenPixels with
    | stays =>
      exact ⟨h.write hs hp hpt (q := p.advance pf g.turningSpeed) hpt rfl g.eatenPixels
        g.alivePlayers rfl rfl hevents,
        fun _ => ⟨SortedMap.mem_adjust.mpr hmem, SortedMap.mem_adjust.mpr hmem'⟩⟩
    | eats pixel =>
      refine ⟨h.write hs hp hpt (q := { p.advance pf g.turningSpeed with pixel := pixel }) hpt rfl
        (insert pixel g.eatenPixels) g.alivePlayers rfl rfl ?_,
        fun _ => ⟨SortedMap.mem_adjust.mpr hmem, SortedMap.mem_adjust.mpr hmem'⟩⟩
      simp [ate, hevents, GameState.alone]
    | eliminated =>
      have hgone : Mirrors sockets (eliminated name (p.advance pf g.turningSpeed) no g)
          (eliminated name (({ p with isDisconnected := false } : Player D).advance pf
            g.turningSpeed) no ⟨g.toGameState.alone, calls⟩) := by
        refine h.write hs hp hpt (q := { p.advance pf g.turningSpeed with isEliminated := true })
          hpt rfl g.eatenPixels (toUInt8 (g.alivePlayers + 255)) rfl rfl ?_
        simp [eliminated, hevents, GameState.alone]
      by_cases hlast : toUInt8 (g.alivePlayers + 255) < 2
      · have hlast' : toUInt8 (g.alone.alivePlayers + 255) < 2 := hlast
        simp only [if_pos hlast, if_pos hlast']
        exact ⟨.endGame rfl hgone.events, fun hs' => by rw [endGame_eq] at hs'; cases hs'⟩
      · have hlast' : ¬toUInt8 (g.alone.alivePlayers + 255) < 2 := hlast
        simp only [if_neg hlast, if_neg hlast']
        exact ⟨hgone, fun _ => ⟨SortedMap.mem_adjust.mpr hmem, SortedMap.mem_adjust.mpr hmem'⟩⟩

/-- **A turn** does to the game without bystanders what it does to the whole. -/
theorem Mirrors.turn (pf : Platform D) : ∀ (names : List PlayerName) {g a : GameTask D},
    Mirrors sockets g a → g.toGameState.Sound → g.gameStarted = true →
    Mirrors sockets (forPlayersUntil (GameTask.moveWorm pf) names g)
      (forPlayersUntil (GameTask.moveWorm pf) (names.filter (· ∈ sockets)) a)
  | [], g, a, h, _, _ => h
  | n :: names, g, a, h, hsound, hs => by
    rw [forPlayersUntil]
    cases hp : g.players.find? n with
    | none =>
      have hn : n ∉ sockets := by
        rw [h.mem_sockets hs, ← SortedMap.find?_eq_none, find?_worms, hp]
        rfl
      rw [List.filter_cons_of_neg (by simpa using hn)]
      exact Mirrors.turn pf names h hsound hs
    | some p =>
      have hsockets : n ∈ sockets ↔ p.takesPartInCurrentGame = true :=
        (h.mem_sockets hs).trans (mem_worms hp)
      by_cases ht : p.takesPartInCurrentGame = true
      · have hp' : a.players.find? n = some { p with isDisconnected := false } := by
          rw [h.alone hs]
          exact find?_worms_of_in hp ht
        obtain ⟨g', a', hbody, hbody', h', hmem⟩ := h.moveWorm pf hsound hs hp ht
        rw [List.filter_cons_of_pos (by simpa using hsockets.mpr ht), forPlayersUntil, hp']
        simp only [hbody, hbody']
        cases hs' : g'.gameStarted with
        | false =>
          simp only [forPlayersUntil_over pf hs', forPlayersUntil_over pf (h'.started.trans hs'),
            ite_self]
          exact h'
        | true =>
          rw [if_pos (hmem hs').1, if_pos (hmem hs').2]
          exact Mirrors.turn pf names h' (hsound.moveWorm hp hbody) hs'
      · -- the turn passes by whoever takes no part
        have hn : n ∉ sockets := fun hn => ht (hsockets.mp hn)
        have halive : p.isAlive = false := by simp [Player.isAlive, ht]
        simp only [moveWorm_of_not_alive pf n hs halive, if_pos (SortedMap.mem_of_find? hp)]
        rw [List.filter_cons_of_neg (by simpa using hn)]
        exact Mirrors.turn pf names h hsound hs

/-- A participant's message does to the game without bystanders what it does to the whole. -/
theorem Mirrors.answered {msg : ClientToServerMessage} {g a : GameTask D} (h : Mirrors sockets g a)
    (hs : g.gameStarted = true) {p : Player D} (hp : g.players.find? msg.playerName = some p)
    (hpt : p.takesPartInCurrentGame = true) : Mirrors sockets (g.answered msg p)
      (a.answered msg { p with isDisconnected := false }) := by
  obtain ⟨a, calls⟩ := a
  obtain rfl : a = g.toGameState.alone := h.alone hs
  have hevents : scheduled calls = scheduled g.calls := h.events
  refine h.write hs hp hpt (q := p.updated g.gameStarted msg) hpt rfl g.eatenPixels g.alivePlayers
    rfl rfl ?_
  simp [GameTask.answered, call, setPlayer, hevents]

/-- **What concerns the game** does to the game without bystanders what it does to the whole. -/
theorem mirrors_reached (pf : Platform D) {g : GameState D} (h : g.Sound)
    (hs : g.gameStarted = true) {op : GameOp} (hop : op.concerns g = true) :
    Mirrors g.participants (op.reached pf ⟨g, []⟩) (op.reached pf ⟨g.alone, []⟩) := by
  have hsame : Mirrors g.participants (⟨g, []⟩ : GameTask D) ⟨g.alone, []⟩ :=
    ⟨rfl, rfl, fun _ => rfl, fun _ => rfl⟩
  rcases op with ⟨f, msg⟩ | f | _
  · rw [GameOp.concerns, decide_eq_true_iff, participants_eq, SortedMap.find?_mapValues,
      Option.map_eq_some_iff] at hop
    obtain ⟨w, hw, hf⟩ := hop
    rw [find?_worms] at hw
    obtain ⟨p, hp, hworm⟩ := Option.bind_eq_some_iff.mp hw
    rw [Player.worm, Option.ite_none_right_eq_some] at hworm
    obtain ⟨hpt, hworm⟩ := hworm
    obtain rfl := Option.some.inj hworm
    have hname : msg.playerNameSize ≠ 0 := fun hnil =>
      (h.named _ _ hp).2 (List.length_eq_zero_iff.mp hnil)
    have hmirrors := hsame.answered hs hp hpt
    rw [GameOp.reached, GameOp.reached, handleMessage, handleMessage, if_neg hname, if_neg hname,
      handleMessageFromPlayer_of_known (g := ⟨g, []⟩) hp hf,
      handleMessageFromPlayer_of_known (g := ⟨g.alone, []⟩) (find?_worms_of_in hp hpt) hf,
      startGameIfReady_of_running pf (g := GameTask.answered msg p ⟨g, []⟩) hs,
      startGameIfReady_of_running pf (g := GameTask.answered msg _ ⟨g.alone, []⟩) hs]
    exact hmirrors
  · cases hop
  · have hkeys : g.alone.players.keys = g.players.keys.filter (· ∈ g.participants) := by
      rw [GameState.alone, keys_worms, participants_eq]
      exact List.filter_congr fun n _ => decide_eq_decide.mpr SortedMap.mem_mapValues.symm
    have hturn := hsame.turn pf g.players.keys h hs
    rw [← hkeys] at hturn
    exact hturn

end GameTask

/-! ## Whole games -/

theorem GameState.Sound.reached {pf : Platform D} {g : GameTask D} (h : g.toGameState.Sound)
    (op : GameOp) : (op.reached pf g).toGameState.Sound := by
  rcases op with ⟨f, msg⟩ | f | _
  · rw [GameOp.reached]
    cases hmsg : g.handleMessage pf f msg with
    | error e => exact h
    | ok g' =>
      have hrun : (GameOp.message f msg).run pf g = .ok g' := hmsg
      exact h.run hrun
  · exact h.dropConnection f
  · exact forPlayersUntil_induction (I := fun g => g.toGameState.Sound)
      (fun _ _ _ _ _ h hp hb => h.moveWorm hp hb) h

/-- An operation that goes well reaches its end. -/
theorem GameOp.reached_of_run {pf : Platform D} {op : GameOp} {g g' : GameTask D}
    (h : op.run pf g = .ok g') : op.reached pf g = g' := by
  rcases op with ⟨f, msg⟩ | f | _
  · rw [reached, show g.handleMessage pf f msg = .ok g' from h]
    rfl
  · exact Except.ok.inj h
  · exact forPlayersUntil_of_ok h

theorem eventsUntilOver_over (pf : Platform D) {g : GameState D} (hs : g.gameStarted = false) :
    ∀ ops, eventsUntilOver pf ops g = []
  | [] => rfl
  | _ :: _ => if_neg (by simp [hs])

theorem eventsUntilOver_cons (pf : Platform D) {g : GameState D} (hs : g.gameStarted = true)
    (op : GameOp) (ops : List GameOp) : eventsUntilOver pf (op :: ops) g =
      scheduled (op.reached pf ⟨g, []⟩).calls ++
        eventsUntilOver pf ops (op.reached pf ⟨g, []⟩).toGameState :=
  if_pos hs

/-- A run that goes well saves these events before any others. -/
theorem eventsUntilOver_isPrefix (pf : Platform D) : ∀ {ops : List GameOp} {g g' : GameTask D},
    (gameMachine pf).exec ops g = .ok g' →
    scheduled g.calls ++ eventsUntilOver pf ops g.toGameState <+: scheduled g'.calls
  | [], g, g', h => by
    obtain rfl : g = g' := Except.ok.inj h
    simp [eventsUntilOver]
  | op :: ops, g, g', h => by
    obtain ⟨g₁, hop, hexec⟩ := Machine.exec_cons_eq_ok.mp h
    have ih := eventsUntilOver_isPrefix pf hexec
    obtain ⟨g₂, hrun, rfl⟩ := gameMachine_step_eq_ok.mp hop
    rw [scheduled_append, List.append_assoc] at ih
    cases hs : g.gameStarted with
    | false =>
      rw [eventsUntilOver_over pf hs, List.append_nil]
      exact (List.prefix_append _ _).trans ih
    | true =>
      rw [eventsUntilOver_cons pf hs, GameOp.reached_of_run (g := ⟨g.toGameState, []⟩) hrun]
      exact ih

/-- **The events of a game are those of its participants alone.** Bystanders can be left out, and so
can what they do. The induction is on the operations, with the game at its present state. -/
theorem eventsUntilOver_alone (pf : Platform D) : ∀ (ops : List GameOp) {g : GameState D}, g.Sound →
    eventsUntilOver pf ops g = eventsUntilOver pf (ops.filter (·.concerns g)) g.alone
  | [], _, _ => rfl
  | op :: ops, g, h => by
    cases hs : g.gameStarted with
    | false =>
      have hs' : g.alone.gameStarted = false := hs
      rw [eventsUntilOver_over pf hs, eventsUntilOver_over pf hs']
    | true =>
      have hs' : g.alone.gameStarted = true := hs
      have hsound : (op.reached pf ⟨g, []⟩).toGameState.Sound := h.reached (g := ⟨g, []⟩) op
      have ih := eventsUntilOver_alone pf ops hsound
      rw [eventsUntilOver_cons pf hs]
      cases hop : op.concerns g with
      | false =>
        have hunseen := unseen_reached pf (g := ⟨g, []⟩) hs hop
        have hparticipants : (op.reached pf ⟨g, []⟩).participants = g.participants := by
          rw [← GameState.participants_alone, hunseen.alone, GameState.participants_alone]
        rw [List.filter_cons_of_neg (by simp [hop]), ih, hunseen.alone, hunseen.events]
        simp only [GameOp.concerns_congr hparticipants]
        rfl
      | true =>
        have hmirrors := mirrors_reached pf h hs hop
        rw [List.filter_cons_of_pos hop, eventsUntilOver_cons pf hs', hmirrors.events]
        cases hgoes : (op.reached pf ⟨g, []⟩).gameStarted with
        | false =>
          rw [eventsUntilOver_over pf hgoes,
            eventsUntilOver_over pf (hmirrors.started.trans hgoes)]
        | true =>
          rw [ih, hmirrors.alone hgoes]
          simp only [GameOp.concerns_congr (hmirrors.participants hgoes)]

/-- **Bystanders do not change the events of a game.** Two continuations with the same turns and the
same messages of the participants lead to the same events, whatever others send and whoever leaves
meanwhile. -/
theorem eventsUntilOver_congr (pf : Platform D) {g : GameTask D} (h : (gameMachine pf).Reachable g)
    {ops ops' : List GameOp}
    (hops : ops.filter (·.concerns g.toGameState) = ops'.filter (·.concerns g.toGameState)) :
    eventsUntilOver pf ops g.toGameState = eventsUntilOver pf ops' g.toGameState := by
  have hsound := (gameMachine_sound pf).reachable h
  rw [eventsUntilOver_alone pf ops hsound, eventsUntilOver_alone pf ops' hsound, hops]

/-- A game of two players. In one continuation the first one goes and somebody joins before the
turn. -/
theorem eventsUntilOver_congr_two : ∃ g : GameTask ℤ, (gameMachine fixedPoint).Reachable g ∧
    g.gameStarted = true ∧ g.participants.entries.length = 2 ∧
    eventsUntilOver fixedPoint [.turn] g.toGameState =
      eventsUntilOver fixedPoint [.drop [1], .message [3] (letter 5 .right 99), .turn]
        g.toGameState := by
  obtain ⟨s, hs, hstarted, htwo, hnew⟩ := exists_reachable
    (P := fun s => s.gameManager.gameStarted = true ∧
      s.gameManager.participants.entries.length = 2 ∧
      s.gameManager.participants.find? (letter 5 .right 99).playerName = none)
    (smallBoard 5 (by decide)) [.said 0 1 5 .right 0 [97], .said 0 2 5 .right 0 [98]]
    (by decide +kernel)
  obtain ⟨g, hg, heq⟩ := reachable_gameTask (reachable_gameManager hs)
  rw [← heq] at hstarted htwo hnew
  refine ⟨g, hg, hstarted, htwo, eventsUntilOver_congr fixedPoint hg ?_⟩
  simp [GameOp.concerns, hnew]

end ScreenWorms
