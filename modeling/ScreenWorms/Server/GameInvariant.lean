import ScreenWorms.Server.GameSteps

/-!
# What holds of the game manager at any time

`GameState.Sound` is the invariant of the game manager. Its parts are about players and watchers
(`Registered`: names are keys, at most 25 players, a watcher's socket has no disconnected player)
and about a game under way (`Running`: `alivePlayers` counts the worms that are left, at least two).

While `startGame` puts the worms on the board, some players still carry the flags of an earlier
game. `Running todo` and `Orderly todo` say what holds then; `todo` are the names whose worms are
still to come, none of them once the game runs.

## Main results

* `GameState.Sound.run` — every public operation keeps `Sound`
* `startGame_total` — a game that may start does start, without a fault
* `Sound.run_induction`, `Sound.moveWorm_induction`, `Orderly.startGame_induction` — rules for what
  the operations keep
* `gameMachine_sound` — `Sound` holds in every state the operations can reach
-/

namespace ScreenWorms

variable {D : Type}

open GameTask

namespace GameState

/-! ## The invariant -/

/-- What holds of the players and the watchers at any time. -/
structure Registered (g : GameState D) : Prop where
  /-- Players are stored under their names, and none has the empty one. -/
  named : ∀ name p, g.players.find? name = some p → p.playerName = name ∧ name.val ≠ []
  /-- There are at most 25 of them. -/
  size_le : g.players.size ≤ maxPlayers
  /-- A watcher's socket has no disconnected player. -/
  watcher_connected : ∀ f ∈ g.watchers, ∀ name p, g.players.find? name = some p →
    p.fingerprint = f → p.isDisconnected = false

/-- What holds while a game is under way and the worms of `todo` are still to come. -/
structure Running (todo : List PlayerName) (g : GameState D) : Prop where
  /-- `alivePlayers` counts the participants that are not eliminated. -/
  alive_eq : g.alivePlayers = g.players.entries.countP fun e => e.1 ∈ todo || e.2.isAlive
  /-- At least two of them are left. -/
  alive_ge : 2 ≤ g.alivePlayers
  /-- Every participant has a number. -/
  numbered : ∀ name p, g.players.find? name = some p →
    (name ∈ todo || p.takesPartInCurrentGame) = true →
    ∃ no, g.playerNumberInGame.find? name = some no

/-- What holds of the players and the game, except about being ready. -/
structure Orderly (todo : List PlayerName) (g : GameState D) : Prop extends g.Registered where
  /-- Between games nobody is marked as disconnected. -/
  lobby_connected : g.gameStarted = false →
    ∀ name p, g.players.find? name = some p → p.isDisconnected = false
  /-- A game under way is in order. -/
  running : g.gameStarted = true → g.Running todo

/-- **The invariant of the game manager.** -/
structure Sound (g : GameState D) : Prop extends g.Orderly [] where
  /-- Between games there is always somebody who is not ready. -/
  lobby_waits : g.gameStarted = false → canStartGame g.players = false

theorem sound_new (rngSeed turningSpeed maxx maxy unsetAlive : ℕ) :
    (GameState.new rngSeed turningSpeed maxx maxy unsetAlive : GameState D).Sound where
  named := fun _ _ h => by cases h
  size_le := Nat.zero_le _
  watcher_connected := fun _ h => absurd h (SortedMap.not_mem_empty _)
  lobby_connected := fun _ _ _ h => by cases h
  running := fun h => by cases h
  lobby_waits := fun _ => rfl

theorem Running.alive_le {todo : List PlayerName} {g : GameState D} (h : g.Running todo)
    (hg : g.Registered) : g.alivePlayers ≤ maxPlayers := by
  rw [h.alive_eq]
  exact List.countP_le_length.trans hg.size_le

/-- The 8-bit counter goes down by one. -/
theorem Running.toUInt8_alive {todo : List PlayerName} {g : GameState D} (h : g.Running todo)
    (hg : g.Registered) : toUInt8 (g.alivePlayers + 255) = g.alivePlayers - 1 := by
  have hle := h.alive_le hg
  have hge := h.alive_ge
  simp only [toUInt8, maxPlayers] at hle ⊢
  omega

/-! ## Changing players -/

/-- Players that are left keep their names, and only a socket without a watcher may lose one. -/
theorem Registered.of_players {g g' : GameState D} (h : g.Registered)
    (hsize : g'.players.size ≤ g.players.size) (hw : ∀ f ∈ g'.watchers, f ∈ g.watchers)
    (hp : ∀ name q, g'.players.find? name = some q → ∃ p, g.players.find? name = some p ∧
      q.playerName = p.playerName ∧ q.fingerprint = p.fingerprint ∧
      (q.isDisconnected = true → p.isDisconnected = true ∨ q.fingerprint ∉ g'.watchers)) :
    g'.Registered where
  named name q hq := by
    obtain ⟨p, hfind, hname, -⟩ := hp name q hq
    rw [hname]
    exact h.named name p hfind
  size_le := hsize.trans h.size_le
  watcher_connected f hf name q hq hqf := by
    obtain ⟨p, hfind, -, hpf, hd⟩ := hp name q hq
    have hpd := h.watcher_connected f (hw f hf) name p hfind (hpf.symm.trans hqf)
    cases hqd : q.isDisconnected with
    | false => rfl
    | true =>
      rcases hd hqd with hd | hd
      · rw [hd] at hpd
        cases hpd
      · exact absurd (hqf ▸ hf) hd

/-- Writing through a reference to a player. -/
theorem find?_adjust_sameClient {players : SortedMap PlayerName (Player D)} {name : PlayerName}
    {p q : Player D} (hp : players.find? name = some p) (hpq : p.SameClient q) {n : PlayerName}
    {r : Player D} (hr : (players.adjust name fun _ => q).find? n = some r) :
    ∃ r', players.find? n = some r' ∧ r'.SameClient r := by
  rw [SortedMap.find?_adjust, Option.map_eq_some_iff] at hr
  obtain ⟨r', hr', rfl⟩ := hr
  refine ⟨r', hr', ?_⟩
  split
  · rename_i hn
    rw [hn, hp] at hr'
    cases hr'
    exact hpq
  · exact ⟨rfl, rfl, rfl, rfl⟩

theorem Registered.adjust {g g' : GameState D} (h : g.Registered) {name : PlayerName}
    {p q : Player D} (hp : g.players.find? name = some p) (hpq : p.SameClient q)
    (hplayers : g'.players = g.players.adjust name fun _ => q) (hw : g'.watchers = g.watchers) :
    g'.Registered := by
  refine h.of_players (by simp [hplayers]) (fun f hf => hw ▸ hf) fun n r hr => ?_
  obtain ⟨r', hr', hsame⟩ := find?_adjust_sameClient hp hpq (hplayers ▸ hr)
  exact ⟨r', hr', hsame.playerName, hsame.fingerprint, fun hd => Or.inl (hsame.isDisconnected ▸ hd)⟩

/-- A worm has moved, or has been put on the board: `todo'` is `todo` without it. -/
theorem Running.worm {todo todo' : List PlayerName} {g g' : GameState D} (h : g.Running todo)
    {name : PlayerName} {p q : Player D} (hp : g.players.find? name = some p)
    (hwas : (name ∈ todo || p.isAlive) = true) (htakes : q.takesPartInCurrentGame = true)
    (hin : ∀ n, n ∈ todo' ↔ n ∈ todo ∧ n ≠ name)
    (hplayers : g'.players = g.players.adjust name fun _ => q)
    (hnumbers : g'.playerNumberInGame = g.playerNumberInGame)
    (halive : g'.alivePlayers = if q.isEliminated then g.alivePlayers - 1 else g.alivePlayers)
    (hge : 2 ≤ g'.alivePlayers) : g'.Running todo' where
  alive_eq := by
    have hcount := SortedMap.countP_adjust (w := q) hp
      (p := fun e : PlayerName × Player D => e.1 ∈ todo || e.2.isAlive)
      (q := fun e : PlayerName × Player D => e.1 ∈ todo' || e.2.isAlive)
      (fun e he => by simp [hin, he])
    have hnot : name ∉ todo' := fun hn => ((hin name).mp hn).2 rfl
    rw [if_pos hwas] at hcount
    rw [halive, hplayers, h.alive_eq]
    cases he : q.isEliminated <;> simp [Player.isAlive, htakes, he, hnot] at hcount ⊢ <;> omega
  alive_ge := hge
  numbered n r hr htodo := by
    rw [hplayers, SortedMap.find?_adjust, Option.map_eq_some_iff] at hr
    obtain ⟨r', hr', hreq⟩ := hr
    rw [hnumbers]
    by_cases hn : n = name
    · subst hn
      rw [hp] at hr'
      cases hr'
      refine h.numbered n p hp ?_
      simp only [Player.isAlive, Bool.or_eq_true, Bool.and_eq_true] at hwas ⊢
      exact hwas.imp_right And.left
    · rw [if_neg hn] at hreq
      subst hreq
      refine h.numbered n r' hr' ?_
      simp only [Bool.or_eq_true, decide_eq_true_eq, hin] at htodo ⊢
      exact htodo.imp_left And.left

/-- Players who are not alive may change and go, and new ones may come. -/
theorem Running.of_players {g g' : GameState D} (h : g.Running [])
    (hcount : g'.players.entries.countP (fun e => e.2.isAlive) =
      g.players.entries.countP fun e => e.2.isAlive)
    (hp : ∀ name q, g'.players.find? name = some q → q.takesPartInCurrentGame = true →
      ∃ p, g.players.find? name = some p ∧ p.takesPartInCurrentGame = true)
    (hnumbers : g'.playerNumberInGame = g.playerNumberInGame)
    (halive : g'.alivePlayers = g.alivePlayers) : g'.Running [] where
  alive_eq := by
    have heq := h.alive_eq
    simp only [List.not_mem_nil, decide_false, Bool.false_or] at heq ⊢
    rw [halive, heq, hcount]
  alive_ge := halive ▸ h.alive_ge
  numbered name q hq htakes := by
    simp only [List.not_mem_nil, decide_false, Bool.false_or] at htakes
    obtain ⟨p, hfind, hpt⟩ := hp name q hq htakes
    rw [hnumbers]
    exact h.numbered name p hfind (by simpa using hpt)

/-! ## The end of a game -/

/-- After a game nobody is disconnected and nobody is ready. -/
theorem Registered.endGame {g : GameTask D} (h : g.toGameState.Registered) :
    g.endGame.toGameState.Sound := by
  rw [endGame_eq]
  refine ⟨⟨h.of_players (size_staying_le _) (fun _ hf => hf) fun name q hq => ?_,
    fun _ name q hq => ?_, fun hs => by cases hs⟩, fun _ => canStartGame_staying _⟩
  · obtain ⟨p, hp, -, rfl⟩ := find?_staying.mp hq
    exact ⟨p, hp, rfl, rfl, Or.inl⟩
  · obtain ⟨p, -, hd, rfl⟩ := find?_staying.mp hq
    exact hd

/-! ## Disconnecting -/

theorem markDisconnected_count (players : SortedMap PlayerName (Player D)) (f : Fingerprint) :
    (markDisconnected f players).entries.countP (fun e => e.2.isAlive) =
      players.entries.countP fun e => e.2.isAlive := by
  rw [markDisconnected]
  split
  · rfl
  · refine SortedMap.countP_mapValues fun k p => ?_
    split <;> rfl

theorem Registered.markDisconnected {g : GameState D} (h : g.Registered) {f : Fingerprint}
    (hw : f ∉ g.watchers) :
    ({ g with players := GameTask.markDisconnected f g.players } : GameState D).Registered := by
  refine h.of_players (size_markDisconnected _ _).le (fun _ hf => hf) fun name q hq => ?_
  obtain ⟨p, hp, rfl⟩ := find?_markDisconnected_eq_some.mp hq
  refine ⟨p, hp, by split <;> rfl, by split <;> rfl, fun hd => ?_⟩
  split at hd
  · rename_i hfirst
    obtain ⟨⟨name', q⟩, hq', rfl⟩ := Option.map_eq_some_iff.mp hfirst
    obtain ⟨hfind, hfp⟩ := firstPlayerOf_eq_some hq'
    rw [hp] at hfind
    cases hfind
    rw [if_pos hfirst]
    exact Or.inr (fun hmem => hw (hfp ▸ hmem))
  · exact Or.inl hd

/-- **Disconnecting a socket keeps the invariant.** -/
theorem Sound.dropConnection {g : GameTask D} (h : g.toGameState.Sound) (f : Fingerprint) :
    (g.dropConnection f).toGameState.Sound := by
  by_cases hw : f ∈ g.watchers
  · rw [dropConnection_of_watcher hw]
    exact ⟨⟨h.toRegistered.of_players le_rfl (fun _ hf => (SortedMap.mem_erase.mp hf).2)
      fun name p hp => ⟨p, hp, rfl, rfl, Or.inl⟩, h.lobby_connected,
      fun hs => (h.running hs).of_players rfl (fun n p hp ht => ⟨p, hp, ht⟩) rfl rfl⟩,
      h.lobby_waits⟩
  · have hreg := h.toRegistered.markDisconnected hw
    cases hs : g.gameStarted with
    | true =>
      rw [dropConnection_of_running hw hs]
      refine ⟨⟨hreg, fun hs' => ?_, fun _ => (h.running hs).of_players
        (markDisconnected_count _ _) (fun name q hq ht => ?_) rfl rfl⟩, fun hs' => ?_⟩
      · exact absurd (hs.symm.trans hs') (by decide)
      · obtain ⟨p, hp, rfl⟩ := find?_markDisconnected_eq_some.mp hq
        exact ⟨p, hp, by split at ht <;> exact ht⟩
      · exact absurd (hs.symm.trans hs') (by decide)
    | false =>
      rw [dropConnection_of_lobby hw hs]
      refine ⟨⟨hreg.of_players (size_staying_le _) (fun _ hf => hf) fun name q hq => ?_,
        fun _ name q hq => ?_, fun hs' => ?_⟩, fun _ => canStartGame_staying _⟩
      · obtain ⟨p, hp, -, rfl⟩ := find?_staying.mp hq
        exact ⟨p, hp, rfl, rfl, Or.inl⟩
      · obtain ⟨p, -, hd, rfl⟩ := find?_staying.mp hq
        exact hd
      · exact absurd (hs.symm.trans hs') (by decide)

/-! ## Worms -/

/-- Eating a pixel, and being eliminated while at least two others are left. -/
theorem Orderly.worm {todo todo' : List PlayerName} {g g' : GameState D} (h : g.Orderly todo)
    (hs : g.gameStarted = true) {name : PlayerName} {p q : Player D}
    (hp : g.players.find? name = some p) (hpq : p.SameClient q)
    (hwas : (name ∈ todo || p.isAlive) = true) (htakes : q.takesPartInCurrentGame = true)
    (hin : ∀ n, n ∈ todo' ↔ n ∈ todo ∧ n ≠ name)
    (hplayers : g'.players = g.players.adjust name fun _ => q)
    (hnumbers : g'.playerNumberInGame = g.playerNumberInGame)
    (hwatchers : g'.watchers = g.watchers) (hs' : g'.gameStarted = true)
    (halive : g'.alivePlayers = if q.isEliminated then toUInt8 (g.alivePlayers + 255)
      else g.alivePlayers) (hge : 2 ≤ g'.alivePlayers) : g'.Orderly todo' where
  toRegistered := h.toRegistered.adjust hp hpq hplayers hwatchers
  lobby_connected hs'' := absurd (hs'.symm.trans hs'') (by decide)
  running _ := by
    have hrun := h.running hs
    refine hrun.worm hp hwas htakes hin hplayers hnumbers ?_ hge
    rw [halive, hrun.toUInt8_alive h.toRegistered]

theorem Orderly.number {todo : List PlayerName} {g : GameState D} (h : g.Orderly todo)
    (hs : g.gameStarted = true) {name : PlayerName} {p : Player D}
    (hp : g.players.find? name = some p) (hwas : (name ∈ todo || p.isAlive) = true) :
    ∃ no, g.playerNumberInGame.find? p.playerName = some no := by
  rw [(h.named name p hp).1]
  refine (h.running hs).numbered name p hp ?_
  simp only [Player.isAlive, Bool.or_eq_true, Bool.and_eq_true] at hwas ⊢
  exact hwas.imp_right And.left

/-- The game is over when the last but one worm goes, and what follows is in order. -/
theorem Registered.endGame_eliminated {g : GameTask D} (h : g.toGameState.Registered)
    {name : PlayerName} {p q : Player D} {no : ℕ} (hp : g.players.find? name = some p)
    (hpq : p.SameClient q) : (eliminated name q no g).endGame.toGameState.Sound := by
  exact Registered.endGame (h.adjust hp hpq.eliminated rfl rfl)

/-- **Moving a worm keeps the invariant.** -/
theorem Sound.moveWorm {pf : Platform D} {g g' : GameTask D} (h : g.toGameState.Sound)
    {name : PlayerName} {p : Player D} {flow : Flow} (hp : g.players.find? name = some p)
    (hbody : moveWorm pf name p g = .ok (flow, g')) : g'.toGameState.Sound := by
  have hnot : ∀ q : Player D, q.isAlive = true → q.takesPartInCurrentGame = true ∧
      q.isEliminated = false := fun q hq => by simpa [Player.isAlive] using hq
  have sound : ∀ {g'' : GameTask D}, g''.toGameState.Orderly [] → g''.gameStarted = true →
      g''.toGameState.Sound := fun ho hs => ⟨ho, fun hs' => absurd (hs.symm.trans hs') (by decide)⟩
  rcases moveWorm_cases pf name fun hs ha =>
      h.toOrderly.number hs hp (by simp [ha]) with
    ⟨-, heq⟩ | ⟨-, -, heq⟩ | ⟨hs, ha, moved, no, hsame, hmoved, -, hcase⟩
  · rw [heq] at hbody
    cases hbody
    exact h
  · rw [heq] at hbody
    cases hbody
    exact h
  · have hrun := h.running hs
    obtain ⟨htakes, hleft⟩ := hnot moved hmoved
    rcases hcase with heq | heq | ⟨hge, heq⟩ | ⟨-, heq⟩ <;> rw [heq] at hbody <;> cases hbody
    · exact sound (h.toOrderly.worm hs hp hsame (by simp [ha]) htakes (by simp) rfl rfl rfl hs
        (by simp [hleft, setPlayer]) hrun.alive_ge) hs
    · exact sound (h.toOrderly.worm hs hp hsame (by simp [ha]) htakes (by simp) rfl rfl rfl hs
        (by simp [hleft, ate]) hrun.alive_ge) hs
    · exact sound (h.toOrderly.worm hs hp hsame.eliminated (by simp [ha]) htakes (by simp)
        rfl rfl rfl hs rfl hge) hs
    · exact h.toRegistered.endGame_eliminated hp hsame

/-- **What a worm's move can do**, with the checks that lead to it. -/
theorem Sound.moveWorm_induction {pf : Platform D} {J : GameTask D → Prop} {g g' : GameTask D}
    (h : g.toGameState.Sound) {name : PlayerName} {p : Player D} {flow : Flow}
    (hp : g.players.find? name = some p) (hself : J g)
    (hstays : p.isAlive = true →
      (p.advance pf g.turningSpeed).verdict pf g.maxx g.maxy g.eatenPixels = .stays →
      J (g.setPlayer name (p.advance pf g.turningSpeed)))
    (heats : ∀ no pixel, p.isAlive = true →
      g.playerNumberInGame.find? p.playerName = some no →
      (p.advance pf g.turningSpeed).verdict pf g.maxx g.maxy g.eatenPixels = .eats pixel →
      J (ate name { p.advance pf g.turningSpeed with pixel := pixel } no g))
    (heliminated : ∀ no, g.playerNumberInGame.find? p.playerName = some no →
      J (eliminated name (p.advance pf g.turningSpeed) no g))
    (hover : ∀ g₁, J g₁ → J g₁.endGame)
    (hbody : GameTask.moveWorm pf name p g = .ok (flow, g')) : J g' := by
  cases hs : g.gameStarted with
  | false =>
    rw [moveWorm_of_over pf name p hs] at hbody
    cases hbody
    exact hself
  | true =>
    cases halive : p.isAlive with
    | false =>
      rw [moveWorm_of_not_alive pf name hs halive] at hbody
      cases hbody
      exact hself
    | true =>
      obtain ⟨no, hno⟩ := h.toOrderly.number hs hp (by simp [halive])
      rw [moveWorm_of_alive pf name hs halive hno] at hbody
      cases hv : (p.advance pf g.turningSpeed).verdict pf g.maxx g.maxy g.eatenPixels with
      | stays =>
        simp only [hv] at hbody
        cases hbody
        exact hstays halive hv
      | eats pixel =>
        simp only [hv] at hbody
        cases hbody
        exact heats no pixel halive hno hv
      | eliminated =>
        simp only [hv] at hbody
        split at hbody <;> cases hbody
        · exact hover _ (heliminated no hno)
        · exact heliminated no hno

/-- **A turn keeps the invariant.** -/
theorem Sound.runTurn {pf : Platform D} {g g' : GameTask D} (h : g.toGameState.Sound)
    (hturn : g.runTurn pf = .ok g') : g'.toGameState.Sound :=
  forPlayers_invariant (I := fun g => g.toGameState.Sound)
    (fun _ _ _ _ _ h hp hbody => h.moveWorm hp hbody) h hturn

/-! ## The start of a game -/

/-- What holds while `startGame` puts worms on the board. -/
structure Placing (names : List PlayerName) (g : GameState D) : Prop extends g.Orderly names where
  /-- The game is under way. -/
  started : g.gameStarted = true
  /-- Nobody is disconnected, since the game starts from the lobby. -/
  connected : ∀ name p, g.players.find? name = some p → p.isDisconnected = false
  /-- The names still to come are players, each once. -/
  nodup : names.Nodup
  present : ∀ name ∈ names, name ∈ g.players

theorem mem_numberPlayers {names : List PlayerName} {name : PlayerName} (h : name ∈ names) :
    name ∈ numberPlayers names := by
  have hfold : ∀ (names : List PlayerName) (numbers : SortedMap PlayerName ℕ),
      name ∈ names ∨ name ∈ numbers → name ∈ names.foldl
        (fun numbers name => numbers.insert name (toUInt8 numbers.size)) numbers := by
    intro names
    induction names with
    | nil => exact fun numbers h => h.resolve_left List.not_mem_nil
    | cons n names ih =>
      intro numbers h
      refine ih _ ?_
      rw [SortedMap.mem_insert]
      rcases h with h | h
      · rcases List.mem_cons.mp h with rfl | h
        · exact Or.inr (Or.inl rfl)
        · exact Or.inl h
      · exact Or.inr (Or.inr h)
  exact hfold names ∅ (Or.inl h)

theorem two_le_size_of_canStartGame {players : SortedMap PlayerName (Player D)}
    (h : canStartGame players = true) : 2 ≤ players.size := by
  simp only [canStartGame, Bool.and_eq_true, decide_eq_true_eq, beq_iff_eq] at h
  omega

theorem Orderly.prepareGame {g : GameTask D} (h : g.toGameState.Orderly [])
    (hs : g.gameStarted = false) (hcan : canStartGame g.players = true) :
    g.prepareGame.toGameState.Placing g.players.keys where
  toRegistered := ⟨h.named, h.size_le, h.watcher_connected⟩
  lobby_connected hs' := by cases hs'
  running _ := by
    have hsize := h.size_le
    have hge := two_le_size_of_canStartGame hcan
    have hlt : g.players.size < 2 ^ 8 := by simp only [maxPlayers] at hsize; omega
    have halive : g.prepareGame.alivePlayers = g.players.size := toUInt8_of_lt hlt
    refine ⟨?_, halive ▸ hge, fun name p hp _ => ?_⟩
    · have hall : g.players.entries.countP (fun e => e.1 ∈ g.players.keys || e.2.isAlive) =
          g.players.size := by
        rw [SortedMap.size, List.countP_eq_length]
        intro e he
        simp [SortedMap.mem_keys, SortedMap.mem_iff.mpr ⟨e.2, he⟩]
      exact halive.trans hall.symm
    · exact SortedMap.mem_iff_find?.mp
        (mem_numberPlayers (SortedMap.mem_keys.mpr (SortedMap.mem_of_find? hp)))
  started := rfl
  connected := h.lobby_connected hs
  nodup := g.players.nodup_keys
  present _ hn := hn

/-- **Putting a worm on the board** never goes wrong, and leaves the invariant for the next one. -/
theorem Placing.placePlayer (pf : Platform D) {name : PlayerName} {names : List PlayerName}
    {g : GameTask D} (h : g.toGameState.Placing (name :: names)) {p : Player D}
    (hp : g.players.find? name = some p) :
    (∃ g', placePlayer pf name p g = .ok (.next, g') ∧ name ∈ g'.players ∧
      g'.toGameState.Placing names) ∨
    ∃ g', placePlayer pf name p g = .ok (.exit, g') ∧ g'.toGameState.Sound := by
  have hrun := h.running h.started
  obtain ⟨no, hno⟩ := h.toOrderly.number h.started hp (by simp)
  obtain ⟨hnot, hnodup⟩ := List.nodup_cons.mp h.nodup
  have hin : ∀ n, n ∈ names ↔ n ∈ name :: names ∧ n ≠ name := fun n => by
    rw [List.mem_cons]
    exact ⟨fun hn => ⟨Or.inr hn, fun he => hnot (he ▸ hn)⟩, fun hn => hn.1.resolve_left hn.2⟩
  have hmem : name ∈ g.players := SortedMap.mem_of_find? hp
  cases hpl : p.placed pf g.maxx g.maxy g.rng with
  | mk placed rng =>
    have hsame := Player.sameClient_placed pf g.maxx g.maxy g.rng p
    have halive := Player.isAlive_placed pf g.maxx g.maxy g.rng p
    rw [hpl] at hsame halive
    obtain ⟨htakes, hleft⟩ : placed.takesPartInCurrentGame = true ∧ placed.isEliminated = false := by
      simpa [Player.isAlive] using halive
    -- what does not depend on whether the worm was eliminated at once
    have next : ∀ {g' : GameTask D} {q : Player D}, p.SameClient q →
        g'.players = g.players.adjust name (fun _ => q) → g'.toGameState.Orderly names →
        g'.gameStarted = true → g'.toGameState.Placing names := by
      intro g' q hsame hplayers ho hs
      refine ⟨ho, hs, fun n r hr => ?_, hnodup, fun n hn => ?_⟩
      · rw [hplayers] at hr
        obtain ⟨r', hr', hsame'⟩ := find?_adjust_sameClient hp hsame hr
        rw [hsame'.isDisconnected]
        exact h.connected n r' hr'
      · rw [hplayers, SortedMap.mem_adjust]
        exact h.present n (List.mem_cons_of_mem _ hn)
    rcases placePlayer_cases name h.started hno hpl with
      ⟨-, heq⟩ | ⟨-, hge, heq⟩ | ⟨-, -, heq⟩
    · refine Or.inl ⟨_, heq, by simpa [ate] using hmem, next hsame rfl ?_ h.started⟩
      exact h.toOrderly.worm h.started hp hsame (by simp) htakes hin rfl rfl rfl h.started
        (by simp [hleft, ate]) hrun.alive_ge
    · have hsame' : p.SameClient { placed with isEliminated := true } := hsame.eliminated
      refine Or.inl ⟨_, heq, by simpa [eliminated] using hmem, next hsame' rfl ?_ h.started⟩
      exact h.toOrderly.worm h.started hp hsame' (by simp) htakes hin rfl rfl rfl h.started rfl hge
    · refine Or.inr ⟨_, heq, Registered.endGame_eliminated (g := { g with rng := rng }) ?_ hp hsame⟩
      exact ⟨h.named, h.size_le, h.watcher_connected⟩

/-- **A game that may start does start.** -/
theorem Orderly.startGame_total {pf : Platform D} {g : GameTask D} (h : g.toGameState.Orderly [])
    (hs : g.gameStarted = false) (hcan : canStartGame g.players = true) :
    ∃ g', g.startGame pf = .ok g' ∧ g'.toGameState.Sound := by
  refine forPlayers_total (I := fun names g => g.toGameState.Placing names)
    (Q := fun g => g.toGameState.Sound) (fun name names g h hnone => ?_)
    (fun _ _ _ _ h hp => h.placePlayer pf hp) (fun g h => ?_) (h.prepareGame hs hcan)
  · exact absurd (h.present name List.mem_cons_self) (SortedMap.find?_eq_none.mp hnone)
  · exact ⟨h.toOrderly, fun hs' => absurd (h.started.symm.trans hs') (by decide)⟩

/-- **Induction over the start of a game.** `J` holds after each worm, with the names of those still
to come. -/
theorem Orderly.startGame_induction {pf : Platform D} {J : List PlayerName → GameTask D → Prop}
    {Q : GameTask D → Prop} {g g' : GameTask D} (h : g.toGameState.Orderly [])
    (hs : g.gameStarted = false) (hcan : canStartGame g.players = true)
    (hprepared : J g.players.keys g.prepareGame)
    (hnext : ∀ name names g₁ p g₂, g₁.toGameState.Placing (name :: names) → J (name :: names) g₁ →
      g₁.players.find? name = some p →
      GameTask.placePlayer pf name p g₁ = .ok (.next, g₂) → J names g₂)
    (hexit : ∀ name names g₁ p g₂, g₁.toGameState.Placing (name :: names) → J (name :: names) g₁ →
      g₁.players.find? name = some p → GameTask.placePlayer pf name p g₁ = .ok (.exit, g₂) → Q g₂)
    (hnil : ∀ g₁, J [] g₁ → Q g₁) (hstart : g.startGame pf = .ok g') : Q g' := by
  refine forPlayers_induction (I := fun names g₁ => g₁.toGameState.Placing names ∧ J names g₁)
    (Q := Q) (fun name names g₁ hI hnone => ?_) (fun name names g₁ p g₂ hI hp hb _ => ?_)
    (fun name names g₁ p g₂ hI hp hb => hexit name names g₁ p g₂ hI.1 hI.2 hp hb)
    (fun g₁ hI => hnil g₁ hI.2) ⟨h.prepareGame hs hcan, hprepared⟩ hstart
  · exact absurd (hI.1.present name List.mem_cons_self) (SortedMap.find?_eq_none.mp hnone)
  · refine ⟨?_, hnext name names g₁ p g₂ hI.1 hI.2 hp hb⟩
    rcases hI.1.placePlayer pf hp with ⟨g₃, heq, -, hpl⟩ | ⟨g₃, heq, -⟩ <;> rw [heq] at hb <;>
      cases hb
    exact hpl

theorem Orderly.startGameIfReady (pf : Platform D) {g : GameTask D} (h : g.toGameState.Orderly []) :
    ∃ g', startGameIfReady pf g = .ok g' ∧ g'.toGameState.Sound := by
  rw [GameTask.startGameIfReady]
  split
  · rename_i hc
    simp only [Bool.and_eq_true, Bool.not_eq_true'] at hc
    exact h.startGame_total hc.1 hc.2
  · rename_i hc
    refine ⟨g, rfl, h, fun hs => ?_⟩
    simpa [hs] using hc

/-! ## Messages -/

theorem Sound.handleMessageFromWatcher {g : GameTask D} (h : g.toGameState.Sound) (f : Fingerprint)
    (msg : ClientToServerMessage) : (g.handleMessageFromWatcher f msg).toGameState.Sound := by
  have same : ∀ (watchers : SortedMap Fingerprint Watcher) (calls : List MQCall),
      (∀ f ∈ watchers, ∀ name p, g.players.find? name = some p → p.fingerprint = f →
        p.isDisconnected = false) →
      ({ g with watchers := watchers, calls := calls } : GameTask D).toGameState.Sound :=
    fun watchers calls hw => ⟨⟨⟨h.named, h.size_le, hw⟩, h.lobby_connected,
      fun hs => (h.running hs).of_players rfl (fun n p hp ht => ⟨p, hp, ht⟩) rfl rfl⟩, h.lobby_waits⟩
  rw [GameTask.handleMessageFromWatcher]
  cases hf : g.watchers.find? f with
  | none =>
    simp only
    split
    · exact h
    · rename_i hany
      refine same _ _ fun f' hf' name p hp hpf => ?_
      rcases SortedMap.mem_insert.mp hf' with rfl | hf'
      · refine absurd (List.any_eq_true.mpr ⟨(name, p), SortedMap.find?_eq_some.mp hp, ?_⟩) hany
        simpa using hpf
      · exact h.watcher_connected f' hf' name p hp hpf
  | some watcher =>
    simp only
    split
    · exact h
    · split
      · exact same _ _ fun f' hf' => h.watcher_connected f' (SortedMap.mem_adjust.mp hf')
      · exact h

/-- A message from a known player. -/
theorem Sound.answered {g : GameTask D} (h : g.toGameState.Sound) {msg : ClientToServerMessage}
    {p : Player D} (hp : g.players.find? msg.playerName = some p) :
    (g.answered msg p).toGameState.Orderly [] := by
  have hsame : p.SameClient (p.updated g.gameStarted msg) := ⟨rfl, rfl, rfl, rfl⟩
  have hfind : ∀ n r, (g.answered msg p).players.find? n = some r →
      ∃ r', g.players.find? n = some r' ∧ r'.SameClient r ∧
        r.takesPartInCurrentGame = r'.takesPartInCurrentGame := by
    intro n r hr
    obtain ⟨r', hr', hsame'⟩ := find?_adjust_sameClient hp hsame hr
    refine ⟨r', hr', hsame', ?_⟩
    simp only [GameTask.answered, call, setPlayer, SortedMap.find?_adjust, hr', Option.map_some,
      Option.some.injEq] at hr
    split at hr
    · rename_i hn
      rw [hn, hp] at hr'
      cases hr'
      rw [← hr]
      rfl
    · rw [hr]
  refine ⟨h.toRegistered.adjust hp hsame rfl rfl, fun hs n r hr => ?_, fun hs => ?_⟩
  · obtain ⟨r', hr', hsame', -⟩ := hfind n r hr
    rw [hsame'.isDisconnected]
    exact h.lobby_connected hs n r' hr'
  · refine (h.running hs).of_players ?_ (fun n r hr ht => ?_) rfl rfl
    · have hcount := SortedMap.countP_adjust (w := p.updated g.gameStarted msg) hp
        (p := fun e => e.2.isAlive) (q := fun e => e.2.isAlive) fun _ _ => rfl
      exact Nat.add_right_cancel hcount
    · obtain ⟨r', hr', -, htakes⟩ := hfind n r hr
      exact ⟨r', hr', htakes ▸ ht⟩

/-- A new player. -/
theorem Sound.joined (pf : Platform D) {g : GameTask D} (h : g.toGameState.Sound) (f : Fingerprint)
    {msg : ClientToServerMessage} (hname : msg.playerNameSize ≠ 0)
    (hnew : msg.playerName ∉ g.players) (hsize : g.players.size ≠ maxPlayers) :
    (g.joined pf f msg).toGameState.Orderly [] := by
  have hfind : ∀ n r, (g.joined pf f msg).players.find? n = some r →
      (n = msg.playerName ∧ r = .joining pf g.gameStarted f msg) ∨ g.players.find? n = some r := by
    intro n r hr
    simp only [GameTask.joined, call, SortedMap.find?_insert hnew] at hr
    split at hr
    · exact Or.inl ⟨by assumption, (Option.some.inj hr).symm⟩
    · exact Or.inr hr
  refine ⟨⟨fun n r hr => ?_, ?_, fun f' hf' n r hr hrf => ?_⟩, fun hs n r hr => ?_, fun hs => ?_⟩
  · rcases hfind n r hr with ⟨rfl, rfl⟩ | hr
    · exact ⟨rfl, fun hnil => hname (List.length_eq_zero_iff.mpr hnil)⟩
    · exact h.named n r hr
  · simp only [GameTask.joined, call, SortedMap.size_insert hnew]
    exact Nat.lt_of_le_of_ne h.size_le hsize
  · rcases hfind n r hr with ⟨-, rfl⟩ | hr
    · rfl
    · exact h.watcher_connected f' hf' n r hr hrf
  · rcases hfind n r hr with ⟨-, rfl⟩ | hr
    · rfl
    · exact h.lobby_connected hs n r hr
  · refine (h.running hs).of_players ?_ (fun n r hr ht => ?_) rfl rfl
    · simp only [GameTask.joined, call, SortedMap.countP_insert hnew]
      rfl
    · rcases hfind n r hr with ⟨-, rfl⟩ | hr
      · cases ht
      · exact ⟨r, hr, ht⟩

/-- The loop of `handleMessageFromPlayer` keeps the invariant and adds no player. -/
theorem Sound.dropIfOlder {g g' : GameTask D} (h : g.toGameState.Sound) {f : Fingerprint}
    {msg : ClientToServerMessage} {names : List PlayerName}
    (hloop : forPlayers (dropIfOlder f msg) names g = .ok g') :
    g'.toGameState.Sound ∧ ∀ n, n ∈ g'.players → n ∈ g.players := by
  have hdrop : ∀ (g₁ : GameTask D) n, n ∈ (g₁.dropConnection f).players → n ∈ g₁.players := by
    intro g₁ n hn
    by_cases hw : f ∈ g₁.watchers
    · rwa [dropConnection_of_watcher hw] at hn
    · cases hs : g₁.gameStarted with
      | true =>
        rw [dropConnection_of_running hw hs] at hn
        exact mem_markDisconnected.mp hn
      | false =>
        rw [dropConnection_of_lobby hw hs] at hn
        obtain ⟨q, hq, -⟩ := mem_staying.mp hn
        exact mem_markDisconnected.mp (SortedMap.mem_of_find? hq)
  exact forPlayers_dropIfOlder_invariant
    (I := fun g₁ => g₁.toGameState.Sound ∧ ∀ n, n ∈ g₁.players → n ∈ g.players)
    (fun g₁ hI => ⟨hI.1.dropConnection f, fun n hn => hI.2 n (hdrop g₁ n hn)⟩)
    ⟨h, fun _ hn => hn⟩ hloop

/-- **What an operation is made of.** It ends with the start of a game, or there is none in it. -/
theorem Sound.run_cases {pf : Platform D} {I : GameTask D → Prop}
    (hdrop : ∀ g f, g.toGameState.Sound → I g → I (g.dropConnection f))
    (hwatcher : ∀ g f msg, g.toGameState.Sound → I g → I (g.handleMessageFromWatcher f msg))
    (hanswered : ∀ g msg p, g.toGameState.Sound → g.players.find? msg.playerName = some p → I g →
      I (g.answered msg p))
    (hjoined : ∀ g f msg, g.toGameState.Sound → msg.playerName ∉ g.players → I g →
      I (g.joined pf f msg))
    (hworm : ∀ g g' name p flow, g.toGameState.Sound → g.players.find? name = some p → I g →
      GameTask.moveWorm pf name p g = .ok (flow, g') → I g')
    {op : GameOp} {g g' : GameTask D} (h : g.toGameState.Sound) (hI : I g)
    (hop : op.run pf g = .ok g') :
    I g' ∨ ∃ g₁ : GameTask D, g₁.toGameState.Orderly [] ∧ g₁.gameStarted = false ∧
      canStartGame g₁.players = true ∧ I g₁ ∧ g₁.startGame pf = .ok g' := by
  have ready : ∀ {g₁ : GameTask D}, g₁.toGameState.Orderly [] → I g₁ →
      GameTask.startGameIfReady pf g₁ = .ok g' →
      I g' ∨ ∃ g₁ : GameTask D, g₁.toGameState.Orderly [] ∧ g₁.gameStarted = false ∧
        canStartGame g₁.players = true ∧ I g₁ ∧ g₁.startGame pf = .ok g' := by
    intro g₁ ho hI₁ hready
    rcases startGameIfReady_cases hready with rfl | ⟨hs, hcan, hstart⟩
    · exact Or.inl hI₁
    · exact Or.inr ⟨g₁, ho, hs, hcan, hI₁, hstart⟩
  cases op with
  | drop f =>
    cases hop
    exact Or.inl (hdrop g f h hI)
  | turn =>
    exact Or.inl (forPlayers_invariant (I := fun g₁ => g₁.toGameState.Sound ∧ I g₁)
      (fun _ _ _ _ _ hI hp hb => ⟨hI.1.moveWorm hp hb, hworm _ _ _ _ _ hI.1 hp hI.2 hb⟩)
      ⟨h, hI⟩ hop).2
  | message f msg =>
    simp only [GameOp.run, GameTask.handleMessage] at hop
    split at hop
    · cases hop
      exact Or.inl (hwatcher g f msg h hI)
    · rename_i hname
      rcases handleMessageFromPlayer_cases hop with
        ⟨p, hp, -, hready⟩ | ⟨p, -, -, rfl⟩ | ⟨hnew, g₁, hloop, hend⟩
      · exact ready (h.answered hp) (hanswered g msg p h hp hI) hready
      · exact Or.inl hI
      · have hI₁ : g₁.toGameState.Sound ∧ I g₁ :=
          forPlayers_dropIfOlder_invariant (I := fun g₁ => g₁.toGameState.Sound ∧ I g₁)
            (fun g₂ hI => ⟨hI.1.dropConnection f, hdrop g₂ f hI.1 hI.2⟩) ⟨h, hI⟩ hloop
        rcases hend with ⟨-, rfl⟩ | ⟨hsize, hready⟩
        · exact Or.inl hI₁.2
        · have hnew₁ : msg.playerName ∉ g₁.players :=
            fun hmem => hnew ((h.dropIfOlder hloop).2 _ hmem)
          exact ready (hI₁.1.joined pf f hname hnew₁ hsize)
            (hjoined g₁ f msg hI₁.1 hnew₁ hI₁.2) hready

/-- **Induction over an operation.** What every step of an operation keeps, the operation keeps. -/
theorem Sound.run_induction {pf : Platform D} {I : GameTask D → Prop}
    (hdrop : ∀ g f, g.toGameState.Sound → I g → I (g.dropConnection f))
    (hwatcher : ∀ g f msg, g.toGameState.Sound → I g → I (g.handleMessageFromWatcher f msg))
    (hanswered : ∀ g msg p, g.toGameState.Sound → g.players.find? msg.playerName = some p → I g →
      I (g.answered msg p))
    (hjoined : ∀ g f msg, g.toGameState.Sound → msg.playerName ∉ g.players → I g →
      I (g.joined pf f msg))
    (hstart : ∀ g g', g.toGameState.Orderly [] → g.gameStarted = false →
      canStartGame g.players = true → I g → g.startGame pf = .ok g' → I g')
    (hworm : ∀ g g' name p flow, g.toGameState.Sound → g.players.find? name = some p → I g →
      GameTask.moveWorm pf name p g = .ok (flow, g') → I g')
    {op : GameOp} {g g' : GameTask D} (h : g.toGameState.Sound) (hI : I g)
    (hop : op.run pf g = .ok g') : I g' := by
  rcases h.run_cases hdrop hwatcher hanswered hjoined hworm hI hop with
    hI' | ⟨g₁, ho, hs, hcan, hI₁, hstarted⟩
  · exact hI'
  · exact hstart g₁ g' ho hs hcan hI₁ hstarted

theorem Sound.handleMessageFromPlayer {pf : Platform D} {g g' : GameTask D}
    (h : g.toGameState.Sound) {f : Fingerprint} {msg : ClientToServerMessage}
    (hname : msg.playerNameSize ≠ 0) (hmsg : g.handleMessageFromPlayer pf f msg = .ok g') :
    g'.toGameState.Sound := by
  have ready : ∀ {g₁ : GameTask D}, g₁.toGameState.Orderly [] →
      GameTask.startGameIfReady pf g₁ = .ok g' → g'.toGameState.Sound := by
    intro g₁ ho hok
    obtain ⟨g₂, heq, hsound⟩ := ho.startGameIfReady pf
    rw [heq] at hok
    cases hok
    exact hsound
  rcases handleMessageFromPlayer_cases hmsg with
    ⟨p, hp, -, hready⟩ | ⟨p, -, -, rfl⟩ | ⟨hnew, g₁, hloop, hend⟩
  · exact ready (h.answered hp) hready
  · exact h
  · obtain ⟨hsound, hsub⟩ := h.dropIfOlder hloop
    rcases hend with ⟨-, rfl⟩ | ⟨hsize, hready⟩
    · exact hsound
    · exact ready (hsound.joined pf f hname (fun hmem => hnew (hsub _ hmem)) hsize) hready

/-- **Every operation keeps the invariant.** -/
theorem Sound.run {pf : Platform D} {op : GameOp} {g g' : GameTask D} (h : g.toGameState.Sound)
    (hop : op.run pf g = .ok g') : g'.toGameState.Sound := by
  cases op with
  | message f msg =>
    simp only [GameOp.run, GameTask.handleMessage] at hop
    split at hop
    · cases hop
      exact h.handleMessageFromWatcher f msg
    · rename_i hname
      exact h.handleMessageFromPlayer hname hop
  | drop f =>
    cases hop
    exact h.dropConnection f
  | turn => exact h.runTurn hop

end GameState

/-- **The invariant holds whatever is done with a game manager.** -/
theorem gameMachine_sound (pf : Platform D) :
    (gameMachine pf).Invariant fun g => g.toGameState.Sound where
  init g hg := by
    obtain ⟨-, rngSeed, turningSpeed, maxx, maxy, unsetAlive, heq⟩ := hg
    rw [heq]
    exact GameState.sound_new rngSeed turningSpeed maxx maxy unsetAlive
  step g op g' _ h hstep := by
    obtain ⟨g₁, hrun, rfl⟩ := gameMachine_step_eq_ok.mp hstep
    have hsound : g₁.toGameState.Sound := GameState.Sound.run (g := { g with calls := [] }) h hrun
    exact hsound

end ScreenWorms
