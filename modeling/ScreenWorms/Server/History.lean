import ScreenWorms.Server.Datagrams
import ScreenWorms.Server.Draws
import ScreenWorms.Server.EventLogs
import ScreenWorms.Server.Isolation

/-!
# The history of a server

What a server has saved is a list of events, each with the id of its game. Here the list is cut into
the logs of its games, and tied to what the server sends: a message is a part of the log of one
game. All this holds for any order of operations. Only that two games have different ids is left to
the random numbers.

The queue knows nothing of games but their ids, and learns of events by calls. So a run of the
server is followed on both sides, in the game with all the calls it has made and in the queue
(`Served`), and what has been scheduled is what links them.

## Main definitions

* `startedIds`, `logOf` — the games of a history, and what was saved for each
* `History` — the games as logs
* `Served` — what a run of a server has done to its game and to its queue
* `IsPart`, `SendsPart` — a message with a part of the log of a game

## Main results

* `exists_history` — a game manager's calls are the logs of its games
* `served_run` — a run of the server is one of its queue, and one of its game
* `server_sends_parts` — what a server sends are parts of the logs of its games
* `length_currentGameEvents` — the queue has the whole log of its game
-/

namespace ScreenWorms

open Machine Client GameTask

variable {D : Type}

/-! ## Histories -/

/-- The ids of the games of a history, one after another. -/
def startedIds (saved : List (ℕ × GameEventVariant)) : List ℕ :=
  (saved.filter fun x => x.2.isNewGame).map Prod.fst

/-- What was saved for a game. -/
def logOf (gameId : ℕ) (saved : List (ℕ × GameEventVariant)) : List GameEventVariant :=
  (saved.filter fun x => x.1 = gameId).map Prod.snd

/-- The games have different ids. What the memory of the queue's id held before is not the id of a
later one. -/
structure DistinctIds (unsetId : ℕ) (ids : List ℕ) : Prop where
  nodup : ids.Nodup
  unset : unsetId ∉ ids.tail

/-- The games of a history, as logs that clients can take. -/
structure History (saved : List (ℕ × GameEventVariant)) (games : List EventLog) : Prop where
  ids : games.map EventLog.gameId = startedIds saved
  events : ∀ log ∈ games, log.events = withNumbers (logOf log.gameId saved)
  /-- Every event is of one of the games. -/
  covered : ∀ x ∈ saved, ∃ log ∈ games, log.gameId = x.1

/-- A history that can be encoded. -/
def Encodable (saved : List (ℕ × GameEventVariant)) : Prop :=
  ∀ x ∈ saved, x.1 < 2 ^ 32 ∧ x.2.Built

variable {games : List Game} {unsetId : ℕ}

theorem DistinctIds.destutter {ids : List ℕ} (h : DistinctIds unsetId ids) :
    ((unsetId :: ids).destutter (· ≠ ·)).Nodup := by
  rcases ids with _ | ⟨id, ids⟩
  · exact List.nodup_singleton unsetId
  · rw [List.destutter_cons_cons]
    split
    · rename_i hne
      have hunset : unsetId ∉ id :: ids := List.not_mem_cons_of_ne_of_not_mem hne h.unset
      have hsub : (unsetId :: ids.destutter' (· ≠ ·) id).Sublist (unsetId :: id :: ids) :=
        (ids.destutter'_sublist _ id).cons_cons unsetId
      exact hsub.nodup (List.nodup_cons.mpr ⟨hunset, h.nodup⟩)
    · rename_i heq
      obtain rfl := not_not.mp heq
      exact (ids.destutter'_sublist _ unsetId).nodup h.nodup

theorem map_fst_scheduledLog (x : Game) :
    x.scheduledLog.map Prod.fst = List.replicate x.log.length x.gameId := by
  rw [Game.scheduledLog, List.map_map]
  exact List.map_const'

theorem startedIds_append (saved saved' : List (ℕ × GameEventVariant)) :
    startedIds (saved ++ saved') = startedIds saved ++ startedIds saved' := by
  rw [startedIds, List.filter_append, List.map_append]
  rfl

theorem logOf_append (gameId : ℕ) (saved saved' : List (ℕ × GameEventVariant)) :
    logOf gameId (saved ++ saved') = logOf gameId saved ++ logOf gameId saved' := by
  rw [logOf, List.filter_append, List.map_append]
  rfl

/-- A game has one `NEW_GAME`. -/
theorem startedIds_scheduledLog {x : Game} (hx : x.WellPlayed) :
    startedIds x.scheduledLog = [x.gameId] := by
  have hlog : x.scheduledLog = (x.gameId, .newGame x.newGame) ::
      (x.events ++ if x.IsOver then [GameEventVariant.gameOver] else []).map
        (Prod.mk x.gameId) := rfl
  rw [hlog, startedIds, List.filter_cons_of_pos (by rfl), List.filter_eq_nil_iff.mpr fun y hy => ?_]
  · rfl
  · obtain ⟨e, he, rfl⟩ := List.mem_map.mp hy
    have hlater : e.isNewGame = false := by
      rcases List.mem_append.mp he with he | he
      · obtain ⟨no, -, hno⟩ := hx.about e he
        cases e <;> first | rfl | cases hno
      · split at he
        · rw [List.mem_singleton.mp he]
          rfl
        · exact absurd he List.not_mem_nil
    rw [hlater]
    exact Bool.false_ne_true

theorem logOf_scheduledLog (gameId : ℕ) (x : Game) :
    logOf gameId x.scheduledLog = if x.gameId = gameId then x.log else [] := by
  rw [logOf, Game.scheduledLog, List.filter_map, List.map_map]
  by_cases hid : x.gameId = gameId
  · rw [if_pos hid, List.filter_eq_self.mpr fun e _ => by simpa using hid]
    exact List.map_id _
  · rw [if_neg hid, List.filter_eq_nil_iff.mpr fun e _ => by simpa using hid, List.map_nil]

theorem startedIds_games : ∀ {games : List Game}, (∀ x ∈ games, x.WellPlayed) →
    startedIds (games.flatMap Game.scheduledLog) = games.map Game.gameId
  | [], _ => rfl
  | x :: games, h => by
    rw [List.flatMap_cons, startedIds_append, startedIds_scheduledLog (h x List.mem_cons_self),
      startedIds_games fun y hy => h y (List.mem_cons_of_mem _ hy)]
    rfl

/-- Nothing is saved for a game that is not among these. -/
theorem logOf_games_eq_nil {gameId : ℕ} : ∀ {games : List Game}, gameId ∉ games.map Game.gameId →
    logOf gameId (games.flatMap Game.scheduledLog) = []
  | [], _ => rfl
  | x :: games, h => by
    rw [List.map_cons, List.mem_cons, not_or] at h
    rw [List.flatMap_cons, logOf_append, logOf_scheduledLog, if_neg (Ne.symm h.1),
      logOf_games_eq_nil h.2, List.append_nil]

theorem logOf_games {x : Game} : ∀ {games : List Game}, (games.map Game.gameId).Nodup → x ∈ games →
    logOf x.gameId (games.flatMap Game.scheduledLog) = x.log
  | [], _, hx => absurd hx List.not_mem_nil
  | y :: games, hids, hx => by
    obtain ⟨hy, hids⟩ := List.nodup_cons.mp hids
    rw [List.flatMap_cons, logOf_append, logOf_scheduledLog]
    rcases List.mem_cons.mp hx with rfl | hx
    · rw [if_pos rfl, logOf_games_eq_nil hy, List.append_nil]
    · have hne : y.gameId ≠ x.gameId := fun heq =>
        hy (heq ▸ List.mem_map.mpr ⟨x, hx, rfl⟩)
      rw [if_neg hne, logOf_games hids hx, List.nil_append]

section Saved

variable {pf : Platform D} {config : ServerConfig} {unsetAlive : ℕ} {ops : List GameOp}
  {g : GameTask D} (hpf : pf.Centred) (hexec : (gameMachine pf).exec ops ⟨.new config.rngSeed
    config.turningSpeed config.boardWidth config.boardHeight unsetAlive, []⟩ = .ok g)

include hpf hexec

/-- What a game manager saves is the logs of games on its board. -/
theorem exists_games : ∃ games : List Game, scheduled g.calls = games.flatMap Game.scheduledLog ∧
    (∀ x ∈ games, x.WellPlayed) ∧ ∀ x ∈ games, x.OnBoard config.boardWidth config.boardHeight := by
  have hstart : (gameMachine pf).init ⟨.new config.rngSeed config.turningSpeed config.boardWidth
      config.boardHeight unsetAlive, []⟩ := ⟨rfl, _, _, _, _, _, rfl⟩
  have hreach := (Machine.Reachable.init hstart).exec hexec
  have hsound := (gameMachine_sound pf).reachable hreach
  obtain ⟨games, hlog, hwell, -⟩ := ((gameMachine_recorded pf).reachable hreach).games hsound
  have hx : pf.Fits config.boardWidth :=
    hpf.fits (by have := config.boardWidth_mem; omega) (by have := config.boardWidth_mem; omega)
  have hy : pf.Fits config.boardHeight :=
    hpf.fits (by have := config.boardHeight_mem; omega) (by have := config.boardHeight_mem; omega)
  have hdrawn : Drawn ⟨config.boardWidth, config.boardHeight, 0, ∅⟩ [] g :=
    Drawn.exec hx hy ⟨_, rfl, rfl, rfl, rfl, fun name no hno => by cases hno⟩
      (GameState.sound_new _ _ _ _ _) hexec
  obtain ⟨b, hb, -⟩ := hdrawn
  have hevents : (([] ++ scheduled g.calls).map Prod.snd) = games.flatMap Game.log := by
    rw [List.nil_append, hlog, List.map_flatMap]
    exact List.flatMap_congr fun x _ => by
      rw [Game.scheduledLog, List.map_map]
      exact List.map_id _
  rw [hevents] at hb
  exact ⟨games, hlog, hwell, (Board.drawAll_games hwell hb).1⟩

/-- **What a game manager saves** can be encoded. -/
theorem encodable_scheduled : Encodable (scheduled g.calls) := by
  obtain ⟨games, hlog, -, hboard⟩ := exists_games hpf hexec
  have hissued : Issued g := Issued.exec
    ⟨config.rngSeed_lt, Nat.two_pow_pos 32, fun x hx => absurd hx List.not_mem_nil⟩
    (GameState.sound_new _ _ _ _ _) hexec
  intro y hy
  refine ⟨(hissued.calls y hy).1, ?_⟩
  rw [hlog] at hy
  obtain ⟨x, hx, hy⟩ := List.mem_flatMap.mp hy
  obtain ⟨e, he, rfl⟩ := List.mem_map.mp hy
  refine (hboard x hx).built config.boardWidth_mem.2 config.boardHeight_mem.2 ?_ e he
  have hnewGame : (x.gameId, .newGame x.newGame) ∈ scheduled g.calls := by
    rw [hlog]
    exact List.mem_flatMap.mpr ⟨x, hx, List.mem_cons_self⟩
  exact (hissued.calls _ hnewGame).2

/-- **What a game manager saves** is the logs of its games. -/
theorem exists_history (hids : (startedIds (scheduled g.calls)).Nodup) :
    ∃ games, History (scheduled g.calls) games := by
  obtain ⟨games, hlog, hwell, hboard⟩ := exists_games hpf hexec
  rw [hlog, startedIds_games hwell] at hids
  have hall : ∀ x : {x // x ∈ games}, ∃ log : EventLog, log.gameId = x.val.gameId ∧
      log.events = withNumbers x.val.log := fun x =>
    (hboard x x.property).exists_eventLog (hwell x x.property) config.boardWidth_mem.2
      config.boardHeight_mem.2
  choose logs hlogs using hall
  refine ⟨games.attach.map logs, ?_, fun log hlog' => ?_, fun y hy => ?_⟩
  · rw [hlog, startedIds_games hwell, List.map_map,
      ← @List.attach_map_val _ _ games Game.gameId]
    exact List.map_congr_left fun x _ => (hlogs x).1
  · obtain ⟨x, -, rfl⟩ := List.mem_map.mp hlog'
    rw [(hlogs x).2, (hlogs x).1, hlog, logOf_games hids x.property]
  · rw [hlog] at hy
    obtain ⟨x, hx, hy⟩ := List.mem_flatMap.mp hy
    obtain ⟨e, -, rfl⟩ := List.mem_map.mp hy
    exact ⟨logs ⟨x, hx⟩, List.mem_map.mpr ⟨⟨x, hx⟩, List.mem_attach _ _, rfl⟩, (hlogs _).1⟩

end Saved

/-! ## What a run of the queue announces -/

section Queue

variable {mq mq' : MQManager} {m : MessageAndRecipient} {q : ℕ}

theorem Announces.append : ∀ {qtr : List (MQManager × MQOp)} (later : List (MQManager × MQOp)),
    Announces qtr mq m mq' q → Announces (qtr ++ later) mq m mq' q
  | qtr, [], h => by
    rw [List.append_nil]
    exact h
  | qtr, x :: later, h => by
    rw [List.append_cons]
    exact (h.concat x).append later

theorem gameIds_isPrefix_append : ∀ qtr later : List (MQManager × MQOp),
    gameIds unsetId qtr <+: gameIds unsetId (qtr ++ later)
  | qtr, [] => by rw [List.append_nil]
  | qtr, x :: later => by
    rw [List.append_cons]
    exact (gameIds_isPrefix x).trans (gameIds_isPrefix_append _ later)

theorem eventsOf_isPrefix_append (id : ℕ) : ∀ qtr later : List (MQManager × MQOp),
    eventsOf id qtr <+: eventsOf id (qtr ++ later)
  | qtr, [] => by rw [List.append_nil]
  | qtr, x :: later => by
    rw [List.append_cons]
    exact (eventsOf_isPrefix id x).trans (eventsOf_isPrefix_append id _ later)

variable {qtr : List (MQManager × MQOp)}

/-- **A message of a run** has events that the run has scheduled at some time. -/
theorem announces_of_run (hrun : queueMachine.Run (.new unsetId) qtr mq')
    (hids : (gameIds unsetId qtr).Nodup) (hlength : ∀ id, (eventsOf id qtr).length < 2 ^ 32)
    (hmem : (mq, .getNextMessage) ∈ qtr) {mq₁ : MQManager}
    (hnext : mq.getNextMessage = .ok (m, mq₁)) : ∃ q, Announces qtr mq m mq₁ q := by
  obtain ⟨before, later, rfl⟩ := List.append_of_mem hmem
  obtain ⟨past, waiting, h⟩ := broadcasts_run (hrun.before rfl)
    ((gameIds_isPrefix_append _ _).sublist.nodup hids)
  obtain ⟨q, hq⟩ := h.announces ((gameIds_isPrefix_append _ _).sublist.nodup hids)
    (fun id => (eventsOf_isPrefix_append id _ _).length_le.trans_lt (hlength id)) hnext
  refine ⟨q, ?_⟩
  rw [List.append_cons]
  exact hq.append later

end Queue

/-! ## What a run of a server does -/

namespace GameManager

/-- A series of operations on the game and on the queue. -/
theorem exec_ops (pf : Platform D) : ∀ {ops : List GameOp} {gm gm' : GameManager D},
    (managerMachine pf).exec (ops.map .op) gm = .ok gm' → ∀ g : GameTask D,
    g.toGameState = gm.toGameState → ∃ g' calls, (gameMachine pf).exec ops g = .ok g' ∧
      g'.toGameState = gm'.toGameState ∧ g'.calls = g.calls ++ calls ∧
      gm.mqManager.execAll calls = .ok gm'.mqManager
  | [], gm, gm', h, g, hg => by
    obtain rfl : gm = gm' := Except.ok.inj h
    exact ⟨g, [], rfl, hg, (List.append_nil _).symm, rfl⟩
  | op :: ops, gm, gm', h, g, hg => by
    obtain ⟨gm₁, hop, hrest⟩ := exec_cons_eq_ok.mp h
    obtain ⟨g₁, hrun, hmq, hgame⟩ := perform_eq_ok.mp hop
    obtain ⟨g', calls, hexec, hg', hcalls, hmq'⟩ :=
      exec_ops pf hrest { g₁ with calls := g.calls ++ g₁.calls } hgame.symm
    refine ⟨g', g₁.calls ++ calls, exec_cons_eq_ok.mpr ⟨_, gameMachine_step_eq_ok.mpr
      ⟨g₁, by rw [hg, hrun], rfl⟩, hexec⟩, hg', by rw [hcalls, List.append_assoc], ?_⟩
    exact MQManager.execAll_append_eq_ok.mpr ⟨_, hmq, hmq'⟩

end GameManager

namespace Server

variable {pf : Platform D} {s s' : Server D}

theorem dropSilent_manager (pf : Platform D) {currentTime : ℤ} :
    ∀ {fingerprints : List Fingerprint} {s s' : Server D},
    s.dropSilent currentTime fingerprints = .ok s' →
    (managerMachine pf).exec (((fingerprints.filter fun f =>
        (s.lastCommunicationTs.find? f).any fun lastConnTime =>
          currentTime - lastConnTime > connectionExpirationTime).map GameOp.drop).map .op)
      s.gameManager = .ok s'.gameManager
  | [], s, s', h => by
    obtain rfl : s = s' := Except.ok.inj h
    rfl
  | f :: rest, s, s', h => by
    rcases dropSilent_cons_eq_ok h with ⟨hheard, h⟩ | ⟨⟨t, ht, hold⟩, gm, hdrop, h⟩
    · rw [List.filter_cons_of_neg fun hany => ?_]
      · exact dropSilent_manager pf h
      · obtain ⟨t, ht, hold⟩ := (Option.any_eq_true _ _).mp hany
        exact hheard ⟨t, ht, of_decide_eq_true hold⟩
    · rw [List.filter_cons_of_pos (by simp [ht, hold])]
      exact exec_cons_eq_ok.mpr ⟨gm, hdrop, dropSilent_manager pf h⟩

/-- **A step that sends nothing** is a series of operations. -/
theorem step_manager {op : Server.Op} (hop : ∀ delivered, op ≠ .send delivered)
    (h : (serverMachine pf).step op s = .ok s') :
    (managerMachine pf).exec ((gameOps (s, op)).map .op) s.gameManager = .ok s'.gameManager := by
  cases op with
  | tick now order =>
    obtain ⟨s₁, gm, hclean, hturn, rfl⟩ := tick_eq_ok h
    obtain ⟨s₂, hdrop, rfl⟩ := cleanupObsoleteConnections_eq_ok hclean
    have hlast : (managerMachine pf).step (.op .turn) s₂.gameManager = .ok gm := hturn
    rw [gameOps, List.map_append]
    exact exec_append (dropSilent_manager pf hdrop) hlast
  | read now f addr datagram =>
    rw [gameOps]
    rcases readMessageFromClient_eq_ok h with ⟨hnone, rfl⟩ | ⟨m, gm, hsome, hmsg, rfl⟩
    · rw [hnone]
      rfl
    · have hstep : (managerMachine pf).step (.op (.message f m)) s.gameManager = .ok gm := hmsg
      rw [hsome]
      exact exec_singleton hstep
  | send delivered => exact absurd rfl (hop delivered)

/-- What a send does, if there is something to send. -/
theorem step_send_eq_ok {delivered : Bool} (h : (serverMachine pf).step (.send delivered) s = .ok s') :
    s.gameManager.mqManager.isEmpty = true ∧ s' = s ∨
    s.gameManager.mqManager.isEmpty = false ∧ ∃ gm, s.gameManager.send delivered = .ok gm ∧
      s' = { s with gameManager := gm } := by
  simp only [serverMachine, Server.step] at h
  split at h
  · rename_i hempty
    exact Or.inl ⟨hempty, (Except.ok.inj h).symm⟩
  · rename_i hne
    exact Or.inr ⟨Bool.eq_false_iff.mpr hne, sendMessageToClient_eq_ok h⟩

/-- What a run has saved. -/
def saved (pf : Platform D) (s : Server D) (tr : List (Server D × Server.Op)) :
    List (ℕ × GameEventVariant) :=
  match (gameMachine pf).exec (tr.flatMap gameOps) ⟨s.gameManager.toGameState, []⟩ with
  | .ok g => scheduled g.calls
  | .error _ => []

end Server

/-- A run `tr` of a server has led to `s`. It is a run `qtr` of the queue, and `g` is its game with
all the calls it has made. -/
structure Served (unsetId : ℕ) (tr : List (Server D × Server.Op)) (s : Server D)
    (qtr : List (MQManager × MQOp)) (g : GameTask D) : Prop where
  queue : queueMachine.Run (.new unsetId) qtr s.gameManager.mqManager
  game : g.toGameState = s.gameManager.toGameState
  schedules : announced qtr = scheduled g.calls
  /-- The queue is asked for every message that is sent. -/
  sends : ∀ x ∈ tr, ∀ delivered, x.2 = .send delivered →
    x.1.gameManager.mqManager.isEmpty = false →
    (x.1.gameManager.mqManager, .getNextMessage) ∈ qtr

section Served

variable {pf : Platform D} {s s' : Server D} {tr : List (Server D × Server.Op)}
  {qtr : List (MQManager × MQOp)} {g : GameTask D} {op : Server.Op}

theorem scheduled_of_calls (calls : List MQCall) :
    (calls.map MQOp.call).filterMap MQOp.scheduled = scheduled calls := by
  rw [List.filterMap_map]
  refine List.filterMap_congr fun c _ => ?_
  cases c <;> rfl

/-- Operations go to the queue as calls. -/
theorem Served.step_ops (h : Served unsetId tr s qtr g) (hop : ∀ delivered, op ≠ .send delivered)
    (hstep : (serverMachine pf).step op s = .ok s') : ∃ qtr' g',
      (gameMachine pf).exec (Server.gameOps (s, op)) g = .ok g' ∧
      Served unsetId (tr ++ [(s, op)]) s' qtr' g' := by
  obtain ⟨g', calls, hexec, hg', hcalls, hmq⟩ :=
    GameManager.exec_ops pf (Server.step_manager hop hstep) g h.game
  have hqueue := exec_map_call hmq
  refine ⟨qtr ++ queueMachine.trace (calls.map .call) s.gameManager.mqManager, g', hexec,
    h.queue.trans (run_trace hqueue), hg', ?_, fun x hx delivered hsend hne => ?_⟩
  · rw [announced_eq_filterMap, List.map_append, List.filterMap_append, map_snd_trace hqueue,
      ← announced_eq_filterMap, h.schedules, scheduled_of_calls, hcalls, scheduled_append]
  · rcases List.mem_append.mp hx with hx | hx
    · exact List.mem_append_left _ (h.sends x hx delivered hsend hne)
    · obtain rfl := List.mem_singleton.mp hx
      exact absurd hsend (hop delivered)

/-- A send schedules nothing. -/
theorem Served.step_send (h : Served unsetId tr s qtr g) {delivered : Bool}
    (hstep : (serverMachine pf).step (.send delivered) s = .ok s') : ∃ qtr',
      Served unsetId (tr ++ [(s, .send delivered)]) s' qtr' g := by
  rcases Server.step_send_eq_ok hstep with ⟨hempty, rfl⟩ | ⟨hne, gm, hsend, rfl⟩
  · refine ⟨qtr, h.queue, h.game, h.schedules, fun x hx d hd hne => ?_⟩
    rcases List.mem_append.mp hx with hx | hx
    · exact h.sends x hx d hd hne
    · rw [List.mem_singleton.mp hx] at hne
      exact absurd (hempty.symm.trans hne) (by decide)
  · obtain ⟨m, mq, hnext, hgame, hmq⟩ := GameManager.send_eq_ok hsend
    have hserve : queueMachine.step .getNextMessage s.gameManager.mqManager = .ok mq :=
      step_getNextMessage_eq_ok.mpr ⟨m, hnext⟩
    have sent : ∀ {qtr' mq'}, queueMachine.Run (.new unsetId) qtr' mq' → gm.mqManager = mq' →
        announced qtr' = announced qtr →
        (∀ x ∈ qtr ++ [(s.gameManager.mqManager, .getNextMessage)], x ∈ qtr') →
        Served unsetId (tr ++ [(s, .send delivered)]) { s with gameManager := gm } qtr' g := by
      rintro qtr' mq' hqueue rfl hannounced hmem
      refine ⟨hqueue, h.game.trans hgame.symm, hannounced.trans h.schedules,
        fun x hx d hd hne => hmem _ ?_⟩
      rcases List.mem_append.mp hx with hx | hx
      · exact List.mem_append_left _ (h.sends x hx d hd hne)
      · rw [List.mem_singleton.mp hx]
        exact List.mem_append_right _ (List.mem_singleton_self _)
    rcases hmq with hmq | hack
    · exact ⟨_, sent (h.queue.snoc hserve) hmq (announced_concat_none rfl) fun x hx => hx⟩
    · have hstep : queueMachine.step (.call (.ack m.fingerprint m.ackNumber)) mq =
          .ok gm.mqManager := hack
      refine ⟨_, sent ((h.queue.snoc hserve).snoc hstep) rfl ?_ fun x hx =>
        List.mem_append_left _ hx⟩
      rw [announced_concat_none rfl, announced_concat_none rfl]

/-- **A step** of the server. -/
theorem Served.step (h : Served unsetId tr s qtr g)
    (hstep : (serverMachine pf).step op s = .ok s') : ∃ qtr' g',
      (gameMachine pf).exec (Server.gameOps (s, op)) g = .ok g' ∧
      Served unsetId (tr ++ [(s, op)]) s' qtr' g' := by
  by_cases hop : ∀ delivered, op ≠ .send delivered
  · exact h.step_ops hop hstep
  · simp only [not_forall, not_not] at hop
    obtain ⟨delivered, rfl⟩ := hop
    obtain ⟨qtr', h'⟩ := h.step_send hstep
    exact ⟨qtr', g, rfl, h'⟩

/-- **A run of the server** is one of its queue, and one of its game. -/
theorem served_run {config : ServerConfig} {unsetAlive : ℕ}
    (hrun : (serverMachine pf).Run (.new config unsetId unsetAlive) tr s) : ∃ qtr g,
      (gameMachine pf).exec (tr.flatMap Server.gameOps) ⟨.new config.rngSeed config.turningSpeed
        config.boardWidth config.boardHeight unsetAlive, []⟩ = .ok g ∧
      Served unsetId tr s qtr g := by
  induction hrun with
  | nil => exact ⟨[], _, rfl, .nil, rfl, rfl, fun x hx => absurd hx List.not_mem_nil⟩
  | snoc _ hstep ih =>
    obtain ⟨qtr, g, hexec, h⟩ := ih
    obtain ⟨qtr', g', hops, h'⟩ := h.step hstep
    refine ⟨qtr', g', ?_, h'⟩
    rw [List.flatMap_append, List.flatMap_singleton]
    exact exec_trans hops hexec

end Served

/-! ## What a server sends -/

/-- A message has the events of one of the games from number `q` on, and can be encoded. -/
structure IsPart (games : List EventLog) (msg : ServerToClientMessage) (q : ℕ) : Prop where
  log : ∃ log ∈ games, msg.gameId = log.gameId ∧
    msg.events.map Event.received <+: log.events.drop q
  events_ne_nil : msg.events ≠ []
  gameId_lt : msg.gameId < 2 ^ 32
  built : ∀ e ∈ msg.events, e.Built
  encode_le : msg.encode.2 ≤ maxUdpDataFieldSize

/-- If a step of the server sends a message, it has a part of a log, from the position of its
recipient on. -/
def SendsPart (logs : List EventLog) (x : Server D × Server.Op) : Prop :=
  ∀ delivered, x.2 = .send delivered → x.1.gameManager.mqManager.isEmpty = false →
    ∀ m mq, x.1.gameManager.mqManager.getNextMessage = .ok (m, mq) →
      ∃ q, x.1.gameManager.mqManager.switchGame.queues.find? m.fingerprint = some q ∧
        IsPart logs m.msg q

/-- What the queue has scheduled is what has been saved. -/
theorem eventsOf_eq_logOf {qtr : List (MQManager × MQOp)} {saved : List (ℕ × GameEventVariant)}
    (h : announced qtr = saved) (gameId : ℕ) : eventsOf gameId qtr = logOf gameId saved := by
  rw [← h]
  rfl

/-- The ids that the queue goes through are those of the games. -/
theorem gameIds_games {qtr : List (MQManager × MQOp)}
    (h : announced qtr = games.flatMap Game.scheduledLog) :
    gameIds unsetId qtr = (unsetId :: games.map Game.gameId).destutter (· ≠ ·) := by
  rw [gameIds, h, List.map_flatMap, List.flatMap_congr fun x _ => map_fst_scheduledLog x]
  refine List.destutter_ne_cons_flatMap Game.gameId (fun x => x.log.length) games unsetId
    fun x _ => ?_
  rw [Game.log, Game.played, List.cons_append]
  exact Nat.succ_pos _

/-- A message of the queue is a part of the log of its game. -/
theorem Announces.isPart {qtr : List (MQManager × MQOp)} {mq mq' : MQManager}
    {m : MessageAndRecipient} {q : ℕ} {saved : List (ℕ × GameEventVariant)} {logs : List EventLog}
    (h : Announces qtr mq m mq' q) (hsaved : announced qtr = saved) (hlogs : History saved logs)
    (hencodable : Encodable saved) (hdatagram : mq.Datagram m) : IsPart logs m.msg q := by
  have hof : ∀ j (hj : j < m.msg.events.length), ∃ event,
      (logOf m.msg.gameId saved)[q + j]? = some event ∧ m.msg.events[j] = ⟨q + j, event⟩ :=
    fun j hj => by
      obtain ⟨event, hevent, hmsg⟩ := h.events j hj
      rw [eventsOf_eq_logOf hsaved] at hevent
      rw [List.getElem?_eq_getElem hj] at hmsg
      exact ⟨event, hevent, Option.some.inj hmsg⟩
  have hmem : ∀ event no, (logOf m.msg.gameId saved)[no]? = some event →
      (m.msg.gameId, event) ∈ saved := fun event no hevent => by
    obtain ⟨x, hx, rfl⟩ := List.mem_map.mp (List.mem_of_getElem? hevent)
    obtain ⟨hx, hid⟩ := List.mem_filter.mp hx
    rw [← of_decide_eq_true hid]
    exact hx
  obtain ⟨first, hfirst, -⟩ := hof 0 (List.length_pos_iff.mpr hdatagram.events_ne_nil)
  obtain ⟨log, hlog, hid⟩ := hlogs.covered _ (hmem first _ hfirst)
  have hevents := hlogs.events log hlog
  rw [hid] at hevents
  refine ⟨⟨log, hlog, hid.symm, ?_⟩, hdatagram.events_ne_nil, (hencodable _ (hmem _ _ hfirst)).1,
    fun e he => ?_, hdatagram.encode_le⟩
  · rw [List.prefix_iff_getElem?]
    intro j hj
    rw [List.length_map] at hj
    obtain ⟨event, hevent, hmsg⟩ := hof j hj
    rw [hevents, List.getElem?_drop, getElem?_withNumbers, hevent, List.getElem_map, hmsg]
    rfl
  · obtain ⟨j, hj, rfl⟩ := List.mem_iff_getElem.mp he
    obtain ⟨event, hevent, hmsg⟩ := hof j hj
    have hlt : q + j < log.events.length := by
      rw [hevents]
      have hsome := getElem?_withNumbers (logOf m.msg.gameId saved) (q + j)
      rw [hevent] at hsome
      exact (List.getElem?_eq_some_iff.mp hsome).1
    rw [hmsg]
    exact ⟨hlt.trans log.length_events_lt, (hencodable _ (hmem _ _ hevent)).2⟩

section Sends

variable {pf : Platform D} {config : ServerConfig} {unsetAlive : ℕ} {s : Server D}
  {tr : List (Server D × Server.Op)}

/-- What a run has saved is what its game has scheduled. -/
theorem Server.saved_eq {g : GameTask D} (hexec : (gameMachine pf).exec (tr.flatMap gameOps)
    ⟨.new config.rngSeed config.turningSpeed config.boardWidth config.boardHeight unsetAlive, []⟩ =
      .ok g) : Server.saved pf (.new config unsetId unsetAlive) tr = scheduled g.calls := by
  have hstart : (gameMachine pf).exec (tr.flatMap gameOps)
      ⟨(Server.new config unsetId unsetAlive : Server D).gameManager.toGameState, []⟩ = .ok g :=
    hexec
  rw [Server.saved, hstart]

/-- What a run has saved can be encoded. -/
theorem Server.encodable_saved (hpf : pf.Centred)
    (hrun : (serverMachine pf).Run (.new config unsetId unsetAlive) tr s) :
    Encodable (Server.saved pf (.new config unsetId unsetAlive) tr) := by
  obtain ⟨_, g, hexec, -⟩ := served_run hrun
  rw [Server.saved_eq hexec]
  exact encodable_scheduled hpf hexec

/-- The queue goes through different games. -/
theorem Served.gameIds_nodup {g : GameTask D} {qtr : List (MQManager × MQOp)} (hpf : pf.Centred)
    (hexec : (gameMachine pf).exec (tr.flatMap Server.gameOps) ⟨.new config.rngSeed
      config.turningSpeed config.boardWidth config.boardHeight unsetAlive, []⟩ = .ok g)
    (h : Served unsetId tr s qtr g) (hids : DistinctIds unsetId (startedIds (scheduled g.calls))) :
    (gameIds unsetId qtr).Nodup := by
  obtain ⟨games, hlog, hwell, -⟩ := exists_games hpf hexec
  rw [gameIds_games (h.schedules.trans hlog), ← startedIds_games hwell, ← hlog]
  exact hids.destutter

/-- **What a server sends** are parts of the logs of its games. -/
theorem server_sends_parts (hpf : pf.Centred)
    (hrun : (serverMachine pf).Run (.new config unsetId unsetAlive) tr s)
    (hids : DistinctIds unsetId
      (startedIds (Server.saved pf (.new config unsetId unsetAlive) tr))) :
    ∃ logs, History (Server.saved pf (.new config unsetId unsetAlive) tr) logs ∧
      ∀ x ∈ tr, SendsPart logs x := by
  obtain ⟨qtr, g, hexec, h⟩ := served_run hrun
  rw [Server.saved_eq hexec] at hids ⊢
  obtain ⟨logs, hlogs⟩ := exists_history hpf hexec hids.nodup
  refine ⟨logs, hlogs, fun x hx delivered hsend hne m mq hnext => ?_⟩
  have hlength : ∀ id, (eventsOf id qtr).length < 2 ^ 32 := fun id => by
    rw [eventsOf_eq_logOf h.schedules]
    rcases List.eq_nil_or_concat (logOf id (scheduled g.calls)) with hnil | ⟨front, last, hlast⟩
    · rw [hnil]
      exact Nat.two_pow_pos 32
    · have hmem : last ∈ logOf id (scheduled g.calls) := by simp [hlast]
      obtain ⟨y, hy, -⟩ := List.mem_map.mp hmem
      obtain ⟨hy, hid⟩ := List.mem_filter.mp hy
      obtain ⟨log, hlog, hlogid⟩ := hlogs.covered y hy
      have hlt := log.length_events_lt
      rw [hlogs.events log hlog, hlogid, of_decide_eq_true hid] at hlt
      simpa [withNumbers] using hlt
  obtain ⟨q, hq⟩ := announces_of_run h.queue (h.gameIds_nodup hpf hexec hids) hlength
    (h.sends x hx delivered hsend hne) hnext
  obtain ⟨before, later, rfl⟩ := List.append_of_mem hx
  have hinit : (serverMachine pf).init (.new config unsetId unsetAlive) := ⟨_, _, _, rfl⟩
  have hreach := (Machine.Reachable.init hinit).run (hrun.before rfl)
  exact ⟨q, hq.position, hq.isPart h.schedules hlogs (encodable_scheduled hpf hexec)
    ((serverMachine_consistent hreach).fits.datagram hnext)⟩

/-- The queue has the whole log of the game that it broadcasts. -/
theorem length_currentGameEvents (hpf : pf.Centred)
    (hrun : (serverMachine pf).Run (.new config unsetId unsetAlive) tr s)
    (hids : DistinctIds unsetId
      (startedIds (Server.saved pf (.new config unsetId unsetAlive) tr)))
    {logs : List EventLog} (hlogs : History (Server.saved pf (.new config unsetId unsetAlive) tr) logs)
    {log : EventLog} (hlog : log ∈ logs)
    (hid : s.gameManager.mqManager.currentlyBroadcastedGameId = log.gameId) :
    s.gameManager.mqManager.currentGameEvents.length = log.events.length := by
  obtain ⟨qtr, g, hexec, h⟩ := served_run hrun
  rw [Server.saved_eq hexec] at hids hlogs
  obtain ⟨_, _, hqueue⟩ := broadcasts_run h.queue (h.gameIds_nodup hpf hexec hids)
  rw [hqueue.current, length_numbered, hid, eventsOf_eq_logOf h.schedules, hlogs.events log hlog]
  simp [withNumbers]

end Sends

end ScreenWorms
