import ScreenWorms.ForStd.Lehmer
import ScreenWorms.Server.Pixels

/-!
# The generator and the games

Which draws of the generator make which game. A game takes one draw for its id and three for each
player, in the order of the names, and nothing else draws. While the worms are put on the board, a
collision can only end the game at the last one, since the first worm is never eliminated; so no
game takes fewer draws.

The ids of two games that follow each other are as many draws apart as the first of them takes. They
are equal only if the generator has come to draw zeros.

## Main definitions

* `draw` — the values of the generator
* `GameState.Draws` — a game that has taken its draws from a given one on
* `gamesStarted` — the games that a run of the server starts

## Main results

* `Orderly.startGame_draws` — what the start of a game draws
* `server_draws` — the draws of all games of a server
* `consecutive_gameIds_ne_iff` — when two games that follow each other have different ids
-/

namespace ScreenWorms

variable {D : Type}

open GameTask

/-! ## The generator -/

/-- The `i`-th value that a generator with the given seed returns. -/
def draw (seed i : ℕ) : ℕ := lehmer 279410273 4294967291 seed i

theorem draw_lt {seed : ℕ} (hseed : seed < 2 ^ 32) (i : ℕ) : draw seed i < 2 ^ 32 :=
  lehmer_lt_of_le (by decide) (by decide) hseed i

/-- One draw. The generator never reaches the bounds of its types. -/
theorem RNG.generateNext_draw (seed i : ℕ) :
    (⟨draw seed i⟩ : RNG).generateNext = (draw seed i, ⟨draw seed (i + 1)⟩) := by
  have hlt : draw seed (i + 1) < 2 ^ 32 :=
    (lehmer_lt (by decide) (Nat.succ_ne_zero i)).trans (by decide)
  have hnext : draw seed (i + 1) = draw seed i * 279410273 % 4294967291 := lehmer_succ _ _ _ _
  rw [RNG.generateNext, ← hnext, toUInt32_of_lt hlt]

/-- The draws of one worm. -/
theorem Player.placed_draw (pf : Platform D) (maxx maxy seed i : ℕ) (p : Player D) :
    ∃ placed rng, p.placed pf maxx maxy ⟨draw seed i⟩ = (placed, rng) ∧
      rng = ⟨draw seed (i + 3)⟩ ∧
      placed.pixel = (pf.toUInt16 (pf.centre (draw seed i % maxx)),
        pf.toUInt16 (pf.centre (draw seed (i + 1) % maxy))) ∧
      placed.movementDirection = draw seed (i + 2) % 360 := by
  simp only [Player.placed, RNG.generateNext_draw]
  exact ⟨_, _, rfl, rfl, rfl, rfl⟩

/-! ## The start of a game -/

def GameEventVariant.isNewGame : GameEventVariant → Bool
  | .newGame _ => true
  | _ => false

/-- There is a `NEW_GAME` among calls on the queue. -/
def startsGame (calls : List MQCall) : Bool := (scheduled calls).any fun e => e.2.isNewGame

/-- The worm of the `i`-th player is where its three draws put it, in a game that begins with draw
`off`. -/
def WormDrawn (pf : Platform D) (seed maxx maxy off i : ℕ) (p : Player D) : Prop :=
  p.pixel = (pf.toUInt16 (pf.centre (draw seed (off + 1 + 3 * i) % maxx)),
    pf.toUInt16 (pf.centre (draw seed (off + 2 + 3 * i) % maxy))) ∧
  p.movementDirection = draw seed (off + 3 + 3 * i) % 360

/-- A game on a board of the given size has just started. Its draws begin with draw `off`. -/
structure GameState.Draws (pf : Platform D) (seed maxx maxy off : ℕ) (g : GameState D) : Prop where
  board : g.maxx = maxx ∧ g.maxy = maxy
  gameId : g.gameId = draw seed off
  placed : ∀ i name, g.players.keys[i]? = some name →
    ∃ p, g.players.find? name = some p ∧ WormDrawn pf seed maxx maxy off i p
  next : g.rng = ⟨draw seed (off + (1 + 3 * g.players.size))⟩
  size_mem : 2 ≤ g.players.size ∧ g.players.size ≤ maxPlayers

/-- A game is starting. The worms of `done` are on the board, those of `todo` are still to come. -/
structure Drawing (pf : Platform D) (seed maxx maxy off : ℕ) (done todo : List PlayerName)
    (g : GameTask D) : Prop where
  keys : g.players.keys = done ++ todo
  board : g.maxx = maxx ∧ g.maxy = maxy
  gameId : g.gameId = draw seed off
  rng : g.rng = ⟨draw seed (off + (1 + 3 * done.length))⟩
  placed : ∀ i name, done[i]? = some name →
    ∃ p, g.players.find? name = some p ∧ WormDrawn pf seed maxx maxy off i p
  newGame : startsGame g.calls = true
  size_mem : 2 ≤ g.players.size ∧ g.players.size ≤ maxPlayers
  /-- The worms to come are alive, and so is the first one as soon as it is there. -/
  alive : todo.length ≤ g.alivePlayers
  alive_of_eaten : g.eatenPixels ≠ ∅ → todo.length < g.alivePlayers

theorem startsGame_append (calls calls' : List MQCall) :
    startsGame (calls ++ calls') = (startsGame calls || startsGame calls') := by
  rw [startsGame, scheduled_append, List.any_append]
  rfl

theorem startsGame_congr {calls calls' : List MQCall} (h : scheduled calls' = scheduled calls) :
    startsGame calls' = startsGame calls := by
  rw [startsGame, h, startsGame]

/-- If nobody is disconnected, everybody stays. -/
theorem keys_staying {players : SortedMap PlayerName (Player D)}
    (h : ∀ name p, players.find? name = some p → p.isDisconnected = false) :
    (staying players).keys = players.keys :=
  SortedMap.keys_congr fun name => by
    rw [mem_staying, SortedMap.mem_iff_find?]
    exact exists_congr fun p => ⟨And.left, fun hp => ⟨hp, h name p hp⟩⟩

section Start

variable {pf : Platform D} {seed maxx maxy off : ℕ} {done todo : List PlayerName}
  {g g' : GameTask D} {name : PlayerName}

/-- The game is over as soon as it has started. -/
theorem GameState.Draws.endGame (h : g.toGameState.Draws pf seed maxx maxy off)
    (hconnected : ∀ name p, g.players.find? name = some p → p.isDisconnected = false) :
    g.endGame.toGameState.Draws pf seed maxx maxy off := by
  have hkeys := keys_staying hconnected
  have hsize : (staying g.players).size = g.players.size := by
    rw [← SortedMap.length_keys, hkeys, SortedMap.length_keys]
  rw [endGame_eq]
  refine ⟨h.board, h.gameId, fun i name hname => ?_, by rw [hsize]; exact h.next, by
    rw [hsize]; exact h.size_mem⟩
  change (staying g.players).keys[i]? = some name at hname
  rw [hkeys] at hname
  obtain ⟨p, hp, hdrawn⟩ := h.placed i name hname
  exact ⟨_, find?_staying.mpr ⟨p, hp, hconnected name p hp, rfl⟩, hdrawn⟩

/-- All worms are on the board. -/
theorem Drawing.draws (h : Drawing pf seed maxx maxy off done [] g) :
    g.toGameState.Draws pf seed maxx maxy off := by
  have hkeys : g.players.keys = done := h.keys.trans (List.append_nil done)
  have hsize : g.players.size = done.length := by rw [← SortedMap.length_keys, hkeys]
  exact ⟨h.board, h.gameId, fun i name hname => h.placed i name (hkeys ▸ hname), hsize ▸ h.rng,
    h.size_mem⟩

/-- One more worm is put on the board. -/
theorem Drawing.worm (h : Drawing pf seed maxx maxy off done (name :: todo) g) {q : Player D}
    (hplayers : g'.players = g.players.adjust name fun _ => q)
    (hq : WormDrawn pf seed maxx maxy off done.length q)
    (hrng : g'.rng = ⟨draw seed (off + (1 + 3 * done.length) + 3)⟩)
    (hboard : g'.maxx = g.maxx ∧ g'.maxy = g.maxy) (hid : g'.gameId = g.gameId)
    (hcalls : startsGame g'.calls = true) (halive : todo.length < g'.alivePlayers) :
    Drawing pf seed maxx maxy off (done ++ [name]) todo g' where
  keys := by rw [hplayers, SortedMap.keys_adjust, h.keys, List.append_assoc, List.singleton_append]
  board := ⟨hboard.1.trans h.board.1, hboard.2.trans h.board.2⟩
  gameId := hid.trans h.gameId
  rng := by
    have hno : off + (1 + 3 * done.length) + 3 = off + (1 + 3 * (done.length + 1)) := by omega
    rw [hrng, List.length_append, List.length_singleton, hno]
  placed i n hn := by
    have hnodup : (done ++ name :: todo).Nodup := h.keys ▸ g.players.nodup_keys
    have hnot : name ∉ done := fun hmem =>
      (List.nodup_append.mp hnodup).2.2 name hmem name List.mem_cons_self rfl
    rw [hplayers]
    rcases Nat.lt_or_ge i done.length with hlt | hge
    · rw [List.getElem?_append_left hlt] at hn
      obtain ⟨p, hp, hdrawn⟩ := h.placed i n hn
      have hne : n ≠ name := fun heq => hnot (heq ▸ List.mem_of_getElem? hn)
      exact ⟨p, by rw [SortedMap.find?_adjust_of_ne hne, hp], hdrawn⟩
    · rw [List.getElem?_append_right hge, List.getElem?_singleton] at hn
      split at hn
      · rename_i hzero
        obtain rfl := Option.some.inj hn
        obtain rfl : i = done.length := by omega
        have hmem : name ∈ g.players := by
          rw [← SortedMap.mem_keys, h.keys]
          simp
        obtain ⟨p, hp⟩ := SortedMap.mem_iff_find?.mp hmem
        exact ⟨q, by rw [SortedMap.find?_adjust_self, hp]; rfl, hq⟩
      · exact absurd hn (by simp)
  newGame := hcalls
  size_mem := by
    rw [hplayers, SortedMap.size_adjust]
    exact h.size_mem
  alive := halive.le
  alive_of_eaten _ := halive

/-- **One worm.** Its three draws are the next ones. If the game is over then, it was the last. -/
theorem Drawing.placePlayer (h : Drawing pf seed maxx maxy off done (name :: todo) g)
    (hpl : g.toGameState.Placing (name :: todo)) {p : Player D}
    (hp : g.players.find? name = some p) {flow : Flow}
    (hbody : placePlayer pf name p g = .ok (flow, g')) :
    (flow = .next → Drawing pf seed maxx maxy off (done ++ [name]) todo g') ∧
    (flow = .exit → g'.toGameState.Draws pf seed maxx maxy off ∧ startsGame g'.calls = true) := by
  obtain ⟨no, hno⟩ := hpl.toOrderly.number hpl.started hp (by simp)
  have hrun := hpl.running hpl.started
  have hless := hrun.toUInt8_alive hpl.toRegistered
  have htwo := hrun.alive_ge
  have halive : todo.length + 1 ≤ g.alivePlayers := h.alive
  have halive' : g.eatenPixels ≠ ∅ → todo.length + 1 < g.alivePlayers := h.alive_of_eaten
  obtain ⟨placed, rng, hplaced, hnext, hpixel, hdirection⟩ :=
    Player.placed_draw pf g.maxx g.maxy seed (off + (1 + 3 * done.length)) p
  rw [← h.rng] at hplaced
  have hq : WormDrawn pf seed maxx maxy off done.length placed := by
    have hno₁ : off + (1 + 3 * done.length) = off + 1 + 3 * done.length := by omega
    have hno₂ : off + 1 + 3 * done.length + 1 = off + 2 + 3 * done.length := by omega
    have hno₃ : off + 1 + 3 * done.length + 2 = off + 3 + 3 * done.length := by omega
    rw [WormDrawn, hpixel, hdirection, h.board.1, h.board.2, hno₁, hno₂, hno₃]
    exact ⟨rfl, rfl⟩
  have hsaved : ∀ calls, startsGame (g.calls ++ calls) = true := fun calls => by
    rw [startsGame_append, h.newGame, Bool.true_or]
  have hgone : placed.pixel ∈ g.eatenPixels → Drawing pf seed maxx maxy off (done ++ [name]) todo
      (eliminated name placed no { g with rng := rng }) := by
    intro hmem
    have hgt := halive' (Finset.ne_empty_of_mem hmem)
    have hq' : WormDrawn pf seed maxx maxy off done.length { placed with isEliminated := true } :=
      hq
    refine h.worm rfl hq' hnext ⟨rfl, rfl⟩ rfl (hsaved _) ?_
    show todo.length < toUInt8 (g.alivePlayers + 255)
    omega
  rcases placePlayer_cases name hpl.started hno hplaced with
    ⟨-, heq⟩ | ⟨heaten, -, heq⟩ | ⟨heaten, hlt, heq⟩ <;> rw [heq] at hbody <;> cases hbody
  · exact ⟨fun _ => h.worm rfl hq hnext ⟨rfl, rfl⟩ rfl (hsaved _) halive,
      fun hexit => by cases hexit⟩
  · exact ⟨fun _ => hgone heaten, fun hexit => by cases hexit⟩
  · refine ⟨fun hnext => (by cases hnext), fun _ => ?_⟩
    have hdrawing := hgone heaten
    -- at most one worm is left, so that this was the last one
    obtain rfl : todo = [] := by
      have hlength : todo.length < toUInt8 (g.alivePlayers + 255) :=
        hdrawing.alive_of_eaten (Finset.ne_empty_of_mem heaten)
      exact List.eq_nil_of_length_eq_zero (by omega)
    refine ⟨hdrawing.draws.endGame fun n r hr => ?_, ?_⟩
    · have hsame : p.SameClient { placed with isEliminated := true } := by
        have hclient := Player.sameClient_placed pf g.maxx g.maxy g.rng p
        rw [hplaced] at hclient
        exact hclient.eliminated
      obtain ⟨r', hr', hsame'⟩ := GameState.find?_adjust_sameClient hp hsame hr
      rw [hsame'.isDisconnected]
      exact hpl.connected n r' hr'
    · rw [endGame_eq]
      simp only [startsGame_append, hdrawing.newGame, Bool.true_or]

theorem GameState.Orderly.drawing (ho : g.toGameState.Orderly []) (hboard : g.maxx = maxx ∧
    g.maxy = maxy) (hcan : canStartGame g.players = true) (hrng : g.rng = ⟨draw seed off⟩) :
    Drawing pf seed maxx maxy off [] g.players.keys g.prepareGame := by
  have hsize := ho.size_le
  have halive : g.prepareGame.alivePlayers = g.players.size := by
    refine toUInt8_of_lt ?_
    simp only [maxPlayers] at hsize
    omega
  have hdraw : g.rng.generateNext = (draw seed off, ⟨draw seed (off + 1)⟩) := by
    rw [hrng, RNG.generateNext_draw]
  exact
    { keys := rfl
      board := hboard
      gameId := congrArg Prod.fst hdraw
      rng := congrArg Prod.snd hdraw
      placed := fun i name hname => absurd hname (by simp)
      newGame := by
        show startsGame (g.calls ++ [.schedule _ (.newGame _)]) = true
        rw [startsGame_append]
        exact Bool.or_true _
      size_mem := ⟨GameState.two_le_size_of_canStartGame hcan, hsize⟩
      alive := by rw [SortedMap.length_keys, halive]
      alive_of_eaten := fun hne => absurd rfl hne }

/-- **The start of a game** draws the id, and then each worm. -/
theorem GameState.Orderly.startGame_draws (ho : g.toGameState.Orderly [])
    (hs : g.gameStarted = false) (hcan : canStartGame g.players = true)
    (hboard : g.maxx = maxx ∧ g.maxy = maxy) (hrng : g.rng = ⟨draw seed off⟩)
    (hstart : g.startGame pf = .ok g') :
    g'.toGameState.Draws pf seed maxx maxy off ∧ startsGame g'.calls = true := by
  refine ho.startGame_induction
    (J := fun todo g₁ => ∃ done, Drawing pf seed maxx maxy off done todo g₁)
    (Q := fun g₁ => g₁.toGameState.Draws pf seed maxx maxy off ∧ startsGame g₁.calls = true)
    hs hcan ⟨[], ho.drawing hboard hcan hrng⟩ ?_ ?_ ?_ hstart
  · rintro name names g₁ p g₂ hpl ⟨done, hdrawing⟩ hp hb
    exact ⟨_, (hdrawing.placePlayer hpl hp hb).1 rfl⟩
  · rintro name names g₁ p g₂ hpl ⟨done, hdrawing⟩ hp hb
    exact (hdrawing.placePlayer hpl hp hb).2 rfl
  · rintro g₁ ⟨done, hdrawing⟩
    exact ⟨hdrawing.draws, hdrawing.newGame⟩

end Start

/-! ## Operations -/

/-- No game has started and nothing has been drawn. -/
structure Undrawn (rng : RNG) (maxx maxy : ℕ) (g : GameTask D) : Prop where
  rng_eq : g.rng = rng
  board : g.maxx = maxx ∧ g.maxy = maxy
  calls : startsGame g.calls = false

section Operations

variable {pf : Platform D} {rng : RNG} {maxx maxy : ℕ} {g g' : GameTask D}

theorem Undrawn.of_scheduled (h : Undrawn rng maxx maxy g) (hrng : g'.rng = g.rng)
    (hboard : g'.maxx = g.maxx ∧ g'.maxy = g.maxy)
    (hcalls : scheduled g'.calls = scheduled g.calls) : Undrawn rng maxx maxy g' :=
  ⟨hrng.trans h.rng_eq, ⟨hboard.1.trans h.board.1, hboard.2.trans h.board.2⟩,
    (startsGame_congr hcalls).trans h.calls⟩

theorem Undrawn.dropConnection (h : Undrawn rng maxx maxy g) (f : Fingerprint) :
    Undrawn rng maxx maxy (g.dropConnection f) := by
  obtain ⟨watchers, players, calls, heq, hcalls⟩ := exists_dropConnection f g
  rw [heq]
  exact h.of_scheduled rfl ⟨rfl, rfl⟩ hcalls

theorem Undrawn.handleMessageFromWatcher (h : Undrawn rng maxx maxy g) (f : Fingerprint)
    (msg : ClientToServerMessage) : Undrawn rng maxx maxy (g.handleMessageFromWatcher f msg) := by
  obtain ⟨watchers, calls, heq, hcalls⟩ := exists_handleMessageFromWatcher f msg g
  rw [heq]
  exact h.of_scheduled rfl ⟨rfl, rfl⟩ hcalls

/-- A worm that moves saves no `NEW_GAME`. -/
theorem Undrawn.moveWorm (h : Undrawn rng maxx maxy g) (hsound : g.toGameState.Sound)
    {name : PlayerName} {p : Player D} {flow : Flow} (hp : g.players.find? name = some p)
    (hbody : GameTask.moveWorm pf name p g = .ok (flow, g')) : Undrawn rng maxx maxy g' := by
  have hsaved : ∀ {g₁ : GameTask D} {gameId : ℕ} {e : GameEventVariant},
      e.isNewGame = false → startsGame g₁.calls = false →
      startsGame (g₁.calls ++ [.schedule gameId e]) = false := fun he hcalls => by
    rw [startsGame_append, hcalls, Bool.false_or, startsGame, scheduled_schedule, scheduled_nil,
      List.any_cons, he, List.any_nil, Bool.or_false]
  refine hsound.moveWorm_induction (J := Undrawn rng maxx maxy) hp h (fun _ _ => ?_)
    (fun no pixel _ _ _ => ?_) (fun no _ => ?_) (fun g₁ hgone => ?_) hbody
  · exact h.of_scheduled rfl ⟨rfl, rfl⟩ rfl
  · exact ⟨h.rng_eq, h.board, hsaved rfl h.calls⟩
  · exact ⟨h.rng_eq, h.board, hsaved rfl h.calls⟩
  · rw [endGame_eq]
    have hover : Undrawn rng maxx maxy g₁.emitGameOver :=
      ⟨hgone.rng_eq, hgone.board, hsaved rfl hgone.calls⟩
    exact hover.of_scheduled rfl ⟨rfl, rfl⟩ (by simp [emitGameOver, saveEvent, call])

/-- **An operation** starts a game with the next draws, or draws nothing. -/
theorem GameOp.run_draws {seed off : ℕ} {op : GameOp} (hsound : g.toGameState.Sound)
    (h : Undrawn ⟨draw seed off⟩ maxx maxy g) (hop : op.run pf g = .ok g') :
    Undrawn ⟨draw seed off⟩ maxx maxy g' ∨
    g'.toGameState.Draws pf seed maxx maxy off ∧ startsGame g'.calls = true := by
  rcases hsound.run_cases (I := Undrawn ⟨draw seed off⟩ maxx maxy)
    (fun _ f _ h => h.dropConnection f) (fun _ f msg _ h => h.handleMessageFromWatcher f msg)
    (fun _ _ _ _ _ h => h.of_scheduled rfl ⟨rfl, rfl⟩ (by simp [answered, call, setPlayer]))
    (fun _ _ _ _ _ h => h.of_scheduled rfl ⟨rfl, rfl⟩ (by simp [joined, call]))
    (fun _ _ _ _ _ hsound hp h hb => h.moveWorm hsound hp hb) h hop with
    hnone | ⟨g₁, ho, hs, hcan, hI, hstart⟩
  · exact Or.inl hnone
  · exact Or.inr (ho.startGame_draws hs hcan hI.board hI.rng_eq hstart)

end Operations

/-! ## Runs -/

/-- The game that an operation starts: the members when the operation has ended. -/
def GameOp.started (pf : Platform D) (x : GameTask D × GameOp) : Option (GameState D) :=
  match x.2.run pf { x.1 with calls := [] } with
  | .ok g => if startsGame g.calls then some g.toGameState else none
  | .error _ => none

/-- The games that are started in an execution of operations. -/
def startedBy (pf : Platform D) (ops : List GameOp) (g : GameTask D) : List (GameState D) :=
  ((gameMachine pf).trace ops g).filterMap (GameOp.started pf)

/-- The games that are started in a run of the server from `s`. -/
def gamesStarted (pf : Platform D) (s : Server D) (tr : List (Server D × Server.Op)) :
    List (GameState D) :=
  startedBy pf (tr.flatMap Server.gameOps) ⟨s.gameManager.toGameState, []⟩

/-- The number of draws of the first `j` games. A game of `n` players takes `1 + 3 * n`. -/
def drawsBefore (games : List (GameState D)) (j : ℕ) : ℕ :=
  ((games.take j).map fun g => 1 + 3 * g.players.size).sum

theorem drawsBefore_cons_succ (g : GameState D) (games : List (GameState D)) (j : ℕ) :
    drawsBefore (g :: games) (j + 1) = 1 + 3 * g.players.size + drawsBefore games j := by
  rw [drawsBefore, List.take_succ_cons, List.map_cons, List.sum_cons, drawsBefore]

theorem drawsBefore_succ {games : List (GameState D)} {j : ℕ} {g : GameState D}
    (h : games[j]? = some g) :
    drawsBefore games (j + 1) = drawsBefore games j + (1 + 3 * g.players.size) := by
  rw [drawsBefore, List.take_add_one, h, List.map_append, List.sum_append, drawsBefore]
  simp

/-- **All games of an execution**, with the draws that lie before it. -/
theorem startedBy_draws {pf : Platform D} {seed maxx maxy : ℕ} :
    ∀ {ops : List GameOp} {g g' : GameTask D} {off : ℕ}, g.toGameState.Sound →
      g.rng = ⟨draw seed off⟩ → g.maxx = maxx ∧ g.maxy = maxy →
      (gameMachine pf).exec ops g = .ok g' →
      (∀ j (x : GameState D), (startedBy pf ops g)[j]? = some x →
        x.Draws pf seed maxx maxy (off + drawsBefore (startedBy pf ops g) j)) ∧
      g'.rng = ⟨draw seed (off + drawsBefore (startedBy pf ops g) (startedBy pf ops g).length)⟩
  | [], g, g', off, _, hrng, _, hexec => by
    obtain rfl : g = g' := Except.ok.inj hexec
    exact ⟨fun j x hx => absurd hx (by simp [startedBy, Machine.trace]), hrng⟩
  | op :: ops, g, g', off, hsound, hrng, hboard, hexec => by
    obtain ⟨g₁, hop, hrest⟩ := Machine.exec_cons_eq_ok.mp hexec
    obtain ⟨g₂, hrun, heq⟩ := gameMachine_step_eq_ok.mp hop
    have hsound₂ : g₂.toGameState.Sound :=
      GameState.Sound.run (g := { g with calls := [] }) hsound hrun
    have hsound₁ : g₁.toGameState.Sound := by
      rw [heq]
      exact hsound₂
    have hstarted : GameOp.started pf (g, op) =
        if startsGame g₂.calls then some g₂.toGameState else none := by
      simp only [GameOp.started, hrun]
    have htrace : startedBy pf (op :: ops) g =
        ((g, op) :: (gameMachine pf).trace ops g₁).filterMap (GameOp.started pf) := by
      rw [startedBy, Machine.trace, hop]
    have hundrawn : Undrawn ⟨draw seed off⟩ maxx maxy ({ g with calls := [] } : GameTask D) :=
      ⟨hrng, hboard, rfl⟩
    rcases GameOp.run_draws (g := { g with calls := [] }) hsound hundrawn hrun with
      hnone | ⟨hdraws, hstarts⟩
    · have hskip : startedBy pf (op :: ops) g = startedBy pf ops g₁ := by
        rw [hnone.calls, if_neg Bool.false_ne_true] at hstarted
        rw [htrace, List.filterMap_cons_none hstarted, startedBy]
      rw [hskip]
      refine startedBy_draws hsound₁ ?_ ?_ hrest
      · rw [heq]
        exact hnone.rng_eq
      · rw [heq]
        exact hnone.board
    · have hfirst : startedBy pf (op :: ops) g = g₂.toGameState :: startedBy pf ops g₁ := by
        rw [if_pos hstarts] at hstarted
        rw [htrace, List.filterMap_cons_some hstarted, startedBy]
      have hnext : g₁.rng = ⟨draw seed (off + (1 + 3 * g₂.players.size))⟩ := by
        rw [heq]
        exact hdraws.next
      have hboard₁ : g₁.maxx = maxx ∧ g₁.maxy = maxy := by
        rw [heq]
        exact hdraws.board
      obtain ⟨hall, hlast⟩ := startedBy_draws hsound₁ hnext hboard₁ hrest
      rw [hfirst]
      constructor
      · intro j x hj
        rcases j with - | j
        · obtain rfl := Option.some.inj hj
          exact hdraws
        · rw [drawsBefore_cons_succ, ← Nat.add_assoc]
          exact hall j x hj
      · rw [List.length_cons, drawsBefore_cons_succ, ← Nat.add_assoc]
        exact hlast

/-! ## The games of a server -/

section Server

variable {pf : Platform D} {config : ServerConfig} {unsetId unsetAlive : ℕ} {s' : Server D}
  {tr : List (Server D × Server.Op)}

/-- All games of a run of the server. -/
theorem gamesStarted_draws (hrun : (serverMachine pf).Run (.new config unsetId unsetAlive) tr s') :
    (∀ j (g : GameState D), (gamesStarted pf (.new config unsetId unsetAlive) tr)[j]? = some g →
      g.Draws pf config.rngSeed config.boardWidth config.boardHeight
        (drawsBefore (gamesStarted pf (.new config unsetId unsetAlive) tr) j)) ∧
    s'.gameManager.rng = ⟨draw config.rngSeed
      (drawsBefore (gamesStarted pf (.new config unsetId unsetAlive) tr)
        (gamesStarted pf (.new config unsetId unsetAlive) tr).length)⟩ := by
  obtain ⟨g, hexec, hg⟩ := server_game pf hrun
    ⟨(Server.new config unsetId unsetAlive).gameManager.toGameState, []⟩ rfl
  have hsound : (Server.new config unsetId unsetAlive : Server D).gameManager.toGameState.Sound :=
    GameState.sound_new _ _ _ _ _
  have hrng : (Server.new config unsetId unsetAlive : Server D).gameManager.rng =
      ⟨draw config.rngSeed 0⟩ := rfl
  have hall := startedBy_draws hsound hrng ⟨rfl, rfl⟩ hexec
  simp only [Nat.zero_add] at hall
  rw [← hg]
  exact hall

/-- **The draws of a server.** With `off` draws before it, a game has the id `r_off`, and its `i`-th
worm is put where the draws `off + 1 + 3 * i`, `off + 2 + 3 * i` and `off + 3 + 3 * i` say. The next
game goes on after that. -/
theorem server_draws (hpf : pf.Centred)
    (hrun : (serverMachine pf).Run (.new config unsetId unsetAlive) tr s') :
    let games := gamesStarted pf (.new config unsetId unsetAlive) tr
    (∀ j g off, games[j]? = some g → off = drawsBefore games j →
      g.gameId = draw config.rngSeed off ∧
      (∀ i name, g.players.keys[i]? = some name → ∃ p, g.players.find? name = some p ∧
        p.pixel = (draw config.rngSeed (off + 1 + 3 * i) % config.boardWidth,
          draw config.rngSeed (off + 2 + 3 * i) % config.boardHeight) ∧
        p.movementDirection = draw config.rngSeed (off + 3 + 3 * i) % 360) ∧
      g.rng = ⟨draw config.rngSeed (off + (1 + 3 * g.players.size))⟩) ∧
    s'.gameManager.rng = ⟨draw config.rngSeed (drawsBefore games games.length)⟩ ∧
    ∀ i, draw config.rngSeed i < 2 ^ 32 ∧ draw config.rngSeed i * 279410273 < 2 ^ 64 := by
  have hcentre : ∀ max, 16 ≤ max ∧ max ≤ 4096 → ∀ r,
      pf.toUInt16 (pf.centre (r % max)) = r % max := fun max hmax r => by
    have hlt : r % max < max := Nat.mod_lt r (by omega)
    exact hpf _ (by omega)
  obtain ⟨hall, hlast⟩ := gamesStarted_draws hrun
  refine ⟨fun j g off hj hoff => ?_, hlast, fun i => ?_⟩
  · subst hoff
    have hdraws := hall j g hj
    refine ⟨hdraws.gameId, fun i name hname => ?_, hdraws.next⟩
    obtain ⟨p, hp, hpixel, hdirection⟩ := hdraws.placed i name hname
    refine ⟨p, hp, ?_, hdirection⟩
    rw [hpixel, hcentre _ config.boardWidth_mem, hcentre _ config.boardHeight_mem]
  · have hlt := draw_lt config.rngSeed_lt i
    exact ⟨hlt, by omega⟩

/-- Two players ask for a game, as many times as is said. -/
def askFor (games : ℕ) : List Server.Op :=
  (List.replicate games [.said 0 1 5 .right 0 [97], .said 0 2 5 .right 0 [98]]).flatten

/-- The worms of the first game are put on one pixel, so that the next game starts at once. -/
theorem server_draws_two : ∃ tr s' games,
    (serverMachine fixedPoint).Run (.new (smallBoard 135 (by decide)) 0 0) tr s' ∧
    games = gamesStarted fixedPoint (.new (smallBoard 135 (by decide)) 0 0) tr ∧
    (games.map GameState.gameStarted).head? = some false ∧
    ∃ g, games[1]? = some g ∧ g.gameId = draw 135 7 := by
  let s : Server ℤ := .new (smallBoard 135 (by decide)) 0 0
  have hok : ((serverMachine fixedPoint).exec (askFor 2) s).isOk = true := by decide +kernel
  have hgames : (gamesStarted fixedPoint s ((serverMachine fixedPoint).trace (askFor 2) s)).map
      (fun g => (g.gameStarted, g.players.size)) = [(false, 2), (true, 2)] := by decide +kernel
  obtain ⟨s', hexec⟩ := Except.exists_of_isOk hok
  have hrun := Machine.run_trace hexec
  obtain ⟨hall, -⟩ := server_draws fixedPoint_centred hrun
  generalize heq : gamesStarted fixedPoint s ((serverMachine fixedPoint).trace (askFor 2) s) =
    games at hgames hall
  obtain ⟨g₀, rest, rfl, h₀, hrest⟩ := List.map_eq_cons_iff.mp hgames
  obtain ⟨g₁, rest, rfl, -, -⟩ := List.map_eq_cons_iff.mp hrest
  obtain ⟨hover, hsize⟩ := Prod.mk.inj h₀
  refine ⟨_, s', _, hrun, heq.symm, by rw [List.map_cons, List.head?_cons, hover], g₁, rfl,
    (hall 1 g₁ 7 rfl ?_).1⟩
  rw [drawsBefore, List.take_succ_cons, List.map_cons, hsize]
  rfl

/-- The multiplier's powers that lead from one game to the next are far from 1. -/
theorem coprime_multiplier : ∀ n ∈ List.range (maxPlayers + 1), 2 ≤ n →
    Nat.Coprime 4294967291 (279410273 ^ (1 + 3 * n) - 1) := by
  decide +kernel

/-- The id of the next game is the same only if the generator draws zeros. -/
theorem draw_add_eq_iff {seed n : ℕ} (hseed : 1 ≤ seed) (hlt : seed < 2 ^ 32)
    (hn : 2 ≤ n ∧ n ≤ maxPlayers) (i : ℕ) :
    draw seed (i + (1 + 3 * n)) = draw seed i ↔ i ≠ 0 ∧ seed = 4294967291 := by
  have hcoprime := coprime_multiplier n (List.mem_range.mpr (Nat.lt_succ_of_le hn.2)) hn.1
  rw [draw, draw, lehmer_add_eq_self_iff (by decide) (by decide) (by decide) hcoprime (by omega)]
  split <;> omega

/-- **Games that follow each other** have different ids, in a run with an accepted seed, if and only
if the seed is not the modulus of the generator or at most two games are started. -/
theorem consecutive_gameIds_ne_iff (hseed : 1 ≤ config.rngSeed)
    (hrun : (serverMachine pf).Run (.new config unsetId unsetAlive) tr s') :
    let games := gamesStarted pf (.new config unsetId unsetAlive) tr
    (∀ j g g', games[j]? = some g → games[j + 1]? = some g' → g.gameId ≠ g'.gameId) ↔
      config.rngSeed ≠ 4294967291 ∨ games.length ≤ 2 := by
  intro games
  obtain ⟨hall, -⟩ := gamesStarted_draws hrun
  have hids : ∀ j g g', games[j]? = some g → games[j + 1]? = some g' →
      (g.gameId = g'.gameId ↔ drawsBefore games j ≠ 0 ∧ config.rngSeed = 4294967291) := by
    intro j g g' hg hg'
    have hdraws := hall j g hg
    have hoff := drawsBefore_succ hg
    rw [hdraws.gameId, (hall (j + 1) g' hg').gameId, hoff,
      ← draw_add_eq_iff hseed config.rngSeed_lt hdraws.size_mem]
    exact eq_comm
  have hpos : ∀ j, j < games.length → (drawsBefore games j ≠ 0 ↔ j ≠ 0) := by
    intro j hj
    rcases j with - | j
    · exact iff_of_false (not_not.mpr rfl) (not_not.mpr rfl)
    · rw [drawsBefore_succ (List.getElem?_eq_getElem (Nat.lt_of_succ_lt hj))]
      exact iff_of_true (by omega) (Nat.succ_ne_zero j)
  constructor
  · intro hne
    by_contra hnot
    rw [not_or, not_not, not_le] at hnot
    have h₁ := List.getElem?_eq_getElem (show 1 < games.length by omega)
    have h₂ := List.getElem?_eq_getElem (show 1 + 1 < games.length by omega)
    refine hne 1 _ _ h₁ h₂ ((hids 1 _ _ h₁ h₂).mpr ⟨?_, hnot.1⟩)
    exact (hpos 1 (by omega)).mpr Nat.one_ne_zero
  · intro hcond j g g' hg hg' heq
    obtain ⟨hne, hmodulus⟩ := (hids j g g' hg hg').mp heq
    have hj : j + 1 < games.length := (List.getElem?_eq_some_iff.mp hg').1
    have hj₀ := (hpos j (by omega)).mp hne
    rcases hcond with hcond | hcond
    · exact hcond hmodulus
    · omega

end Server

theorem consecutive_gameIds_ne_two : ∃ tr s' games,
    (serverMachine fixedPoint).Run (.new (smallBoard 135 (by decide)) 0 0) tr s' ∧
    games = gamesStarted fixedPoint (.new (smallBoard 135 (by decide)) 0 0) tr ∧
    games.length = 2 ∧
    ∀ j g g', games[j]? = some g → games[j + 1]? = some g' → g.gameId ≠ g'.gameId := by
  let s : Server ℤ := .new (smallBoard 135 (by decide)) 0 0
  have hok : ((serverMachine fixedPoint).exec (askFor 2) s).isOk = true := by decide +kernel
  have htwo : (gamesStarted fixedPoint s ((serverMachine fixedPoint).trace (askFor 2) s)).length =
      2 := by decide +kernel
  obtain ⟨s', hexec⟩ := Except.exists_of_isOk hok
  have hrun := Machine.run_trace hexec
  exact ⟨_, s', _, hrun, rfl, htwo,
    (consecutive_gameIds_ne_iff (by decide) hrun).mpr (Or.inl (by decide))⟩

/-- The seed is the modulus. All games end at once, and all but the first have the id 0. -/
theorem not_consecutive_gameIds_ne : ¬∀ (config : ServerConfig) tr s', 1 ≤ config.rngSeed →
    (serverMachine fixedPoint).Run (.new config 0 0) tr s' →
    ∀ j g g', (gamesStarted fixedPoint (.new config 0 0) tr)[j]? = some g →
      (gamesStarted fixedPoint (.new config 0 0) tr)[j + 1]? = some g' → g.gameId ≠ g'.gameId := by
  intro hall
  let s : Server ℤ := .new (smallBoard 4294967291 (by decide)) 0 0
  have hok : ((serverMachine fixedPoint).exec (askFor 3) s).isOk = true := by decide +kernel
  have hids : (gamesStarted fixedPoint s ((serverMachine fixedPoint).trace (askFor 3) s)).map
      GameState.gameId = [4294967291, 0, 0] := by decide +kernel
  obtain ⟨s', hexec⟩ := Except.exists_of_isOk hok
  have hne := hall _ _ s' (by decide) (Machine.run_trace hexec) 1
  have hzero : ∀ j : ℕ, [4294967291, 0, 0][j]? = some 0 → ∃ g : GameState ℤ,
      (gamesStarted fixedPoint s ((serverMachine fixedPoint).trace (askFor 3) s))[j]? = some g ∧
        g.gameId = 0 := by
    intro j hj
    rw [← hids, List.getElem?_map, Option.map_eq_some_iff] at hj
    exact hj
  obtain ⟨g, hg, hid⟩ := hzero 1 rfl
  obtain ⟨g', hg', hid'⟩ := hzero 2 rfl
  exact hne g g' hg hg' (hid.trans hid'.symm)

end ScreenWorms
