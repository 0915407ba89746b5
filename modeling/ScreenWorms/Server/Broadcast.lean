import ScreenWorms.Server.MQInvariant

/-!
# What the queue broadcasts

The log of a game grows in two places. Events of the current game are appended to
`currentGameEvents`; events of a later one wait in `nextGames`, and are numbered when the game
becomes the current one. Meanwhile positions are reset, clamped and acknowledged in any order.

`Broadcasts` describes the queue by what has been scheduled alone: the games that have been the
current one, the current one, and those that wait are the games scheduled so far, in order, and the
logs hold what was scheduled for them.

## Main definitions

* `MQOp`, `queueMachine` — every run of the queue's operations
* `gameIds`, `eventsOf` — what has been scheduled
* `Broadcasts`, `Announces`

## Main results

* `Broadcasts.step` — what one operation does to the games
* `queueMachine_broadcasts` — games in order, and messages with the right events
-/

namespace ScreenWorms

open Machine MQManager

/-! ## Runs of the queue -/

/-- An operation of the queue. -/
inductive MQOp
  | call (c : MQCall)
  | getNextMessage
deriving DecidableEq

/-- A queue on which operations are called in any order. -/
def queueMachine : Machine MQManager MQOp Fault where
  init mq := ∃ unsetId, mq = .new unsetId
  step op mq :=
    match op with
    | .call c => mq.exec c
    | .getNextMessage => mq.getNextMessage.map Prod.snd

/-- A step that serves a client. -/
theorem step_getNextMessage_eq_ok {mq mq' : MQManager} :
    queueMachine.step .getNextMessage mq = .ok mq' ↔ ∃ m, mq.getNextMessage = .ok (m, mq') := by
  change mq.getNextMessage.map Prod.snd = .ok mq' ↔ _
  rcases mq.getNextMessage with e | ⟨m, mq₁⟩
  · exact iff_of_false (by simp [Except.map]) (by simp)
  · refine ⟨fun h => ⟨m, ?_⟩, fun ⟨_, h⟩ => ?_⟩
    · rw [← show mq₁ = mq' from Except.ok.inj h]
    · rw [← (Prod.mk.inj (Except.ok.inj h)).2]
      rfl

/-- The game and the event that an operation schedules. -/
def MQOp.scheduled : MQOp → Option (ℕ × GameEventVariant)
  | .call (.schedule gameId event) => some (gameId, event)
  | _ => none

/-- What a run schedules. -/
def announced (tr : List (MQManager × MQOp)) : List (ℕ × GameEventVariant) :=
  tr.filterMap fun x => x.2.scheduled

/-- The initial id, and the ids of the games that a run schedules one after another. -/
def gameIds (unsetId : ℕ) (tr : List (MQManager × MQOp)) : List ℕ :=
  (unsetId :: (announced tr).map Prod.fst).destutter (· ≠ ·)

/-- The events that a run schedules for a game. -/
def eventsOf (gameId : ℕ) (tr : List (MQManager × MQOp)) : List GameEventVariant :=
  ((announced tr).filter fun x => x.1 = gameId).map Prod.snd

/-- The queue after a run, in terms of what the run has scheduled. `past` are the ids before the
current one, and `waiting` those behind it. -/
structure Broadcasts (unsetId : ℕ) (tr : List (MQManager × MQOp)) (mq : MQManager)
    (past waiting : List ℕ) : Prop where
  ids : gameIds unsetId tr = past ++ mq.currentlyBroadcastedGameId :: waiting
  current : mq.currentGameEvents = numbered (eventsOf mq.currentlyBroadcastedGameId tr)
  nextGames : mq.nextGames = waiting.map fun id => (id, eventsOf id tr)
  stages : stages currentlyBroadcastedGameId tr mq = past ++ [mq.currentlyBroadcastedGameId]

variable {unsetId : ℕ} {tr : List (MQManager × MQOp)} {mq mq' : MQManager} {past waiting : List ℕ}
  {op : MQOp}

/-! ## What has been scheduled -/

/-- What is scheduled depends on the operations alone. -/
theorem announced_eq_filterMap (tr : List (MQManager × MQOp)) :
    announced tr = (tr.map Prod.snd).filterMap MQOp.scheduled := by
  rw [List.filterMap_map]
  rfl

theorem announced_concat (x : MQManager × MQOp) :
    announced (tr ++ [x]) = announced tr ++ x.2.scheduled.toList := by
  rw [announced, List.filterMap_append, announced]
  rcases h : x.2.scheduled with _ | y <;> simp [h]

theorem eventsOf_concat_schedule (gameId id : ℕ) (event : GameEventVariant) :
    eventsOf gameId (tr ++ [(mq, .call (.schedule id event))]) =
      if gameId = id then eventsOf gameId tr ++ [event] else eventsOf gameId tr := by
  rw [eventsOf, announced_concat, List.filter_append, List.map_append]
  by_cases h : gameId = id
  · rw [if_pos h, h]
    simp [MQOp.scheduled, eventsOf]
  · rw [if_neg h]
    simp [MQOp.scheduled, eventsOf, Ne.symm h]

theorem gameIds_concat_schedule (id : ℕ) (event : GameEventVariant) :
    gameIds unsetId (tr ++ [(mq, .call (.schedule id event))]) =
      gameIds unsetId tr ++ if (gameIds unsetId tr).getLast? = some id then [] else [id] := by
  have hids : unsetId :: (announced (tr ++ [(mq, .call (.schedule id event))])).map Prod.fst =
      (unsetId :: (announced tr).map Prod.fst) ++ [id] := by
    rw [announced_concat, List.map_append]
    rfl
  rw [gameIds, hids, List.destutter_ne_concat (List.cons_ne_nil _ _), gameIds,
    List.getLast?_destutter_ne]

/-- An operation that schedules nothing. -/
theorem announced_concat_none (h : op.scheduled = none) :
    announced (tr ++ [(mq, op)]) = announced tr := by
  rw [announced_concat, h, Option.toList_none, List.append_nil]

theorem gameIds_concat_none (h : op.scheduled = none) :
    gameIds unsetId (tr ++ [(mq, op)]) = gameIds unsetId tr := by
  rw [gameIds, gameIds, announced_concat_none h]

theorem eventsOf_concat_none (h : op.scheduled = none) (id : ℕ) :
    eventsOf id (tr ++ [(mq, op)]) = eventsOf id tr := by
  rw [eventsOf, eventsOf, announced_concat_none h]

theorem eventsOf_eq_nil {id : ℕ} (h : id ∉ gameIds unsetId tr) : eventsOf id tr = [] := by
  rw [eventsOf, List.filter_eq_nil_iff.mpr fun x hx => ?_, List.map_nil]
  intro heq
  refine h (List.mem_destutter_ne.mpr (List.mem_cons_of_mem _ (List.mem_map.mpr ⟨x, hx, ?_⟩)))
  simpa using heq

theorem gameIds_isPrefix (x : MQManager × MQOp) :
    gameIds unsetId tr <+: gameIds unsetId (tr ++ [x]) := by
  obtain ⟨mq, op⟩ := x
  rcases op with ⟨⟨id, event⟩ | ⟨f, n⟩ | f | ⟨f, n⟩⟩ | _
  · rw [gameIds_concat_schedule]
    exact List.prefix_append _ _
  all_goals exact ⟨[], by rw [List.append_nil, gameIds_concat_none rfl]⟩

theorem eventsOf_isPrefix (id : ℕ) (x : MQManager × MQOp) :
    eventsOf id tr <+: eventsOf id (tr ++ [x]) := by
  rw [eventsOf, eventsOf, announced_concat, List.filter_append, List.map_append]
  exact List.prefix_append _ _

/-! ## Logs -/

/-- Scheduling an event of a waiting game, or of a new one. -/
theorem addToNextGames_map {id : ℕ} {event : GameEventVariant} {f : ℕ → List GameEventVariant} :
    ∀ {waiting : List ℕ}, waiting.Nodup → (id ∉ waiting → f id = []) →
      addToNextGames id event (waiting.map fun i => (i, f i)) =
        (if id ∈ waiting then waiting else waiting ++ [id]).map fun i =>
          (i, if i = id then f i ++ [event] else f i)
  | [], _, hnew => by
    rw [if_neg List.not_mem_nil, List.nil_append, List.map_singleton, if_pos rfl,
      hnew List.not_mem_nil]
    rfl
  | i :: waiting, hnodup, hnew => by
    obtain ⟨hi, hnodup⟩ := List.nodup_cons.mp hnodup
    rw [List.map_cons, addToNextGames]
    by_cases hid : i = id
    · subst hid
      have hrest : waiting.map (fun j => (j, if j = i then f j ++ [event] else f j)) =
          waiting.map fun j => (j, f j) :=
        List.map_congr_left fun j hj => by rw [if_neg (ne_of_mem_of_not_mem hj hi)]
      rw [if_pos rfl, if_pos List.mem_cons_self, List.map_cons, if_pos rfl, hrest]
    · have ih := @addToNextGames_map id event f waiting hnodup fun hnot => hnew
        (List.not_mem_cons_of_ne_of_not_mem (Ne.symm hid) hnot)
      rw [if_neg hid, ih]
      by_cases hmem : id ∈ waiting
      · rw [if_pos hmem, if_pos (List.mem_cons_of_mem _ hmem), List.map_cons, if_neg hid]
      · rw [if_neg hmem, if_neg (List.not_mem_cons_of_ne_of_not_mem (Ne.symm hid) hmem),
          List.cons_append, List.map_cons, if_neg hid]

/-! ## One operation -/

/-- What `Broadcasts` looks at. -/
theorem Broadcasts.congr_queue (h : Broadcasts unsetId tr mq past waiting)
    (hid : mq'.currentlyBroadcastedGameId = mq.currentlyBroadcastedGameId)
    (hevents : mq'.currentGameEvents = mq.currentGameEvents)
    (hgames : mq'.nextGames = mq.nextGames) : Broadcasts unsetId tr mq' past waiting := by
  refine ⟨hid ▸ h.ids, ?_, hgames.trans h.nextGames, ?_⟩
  · rw [hevents, hid]
    exact h.current
  · rw [stages_congr hid, hid]
    exact h.stages

/-- Operations that neither schedule anything nor touch the games. -/
theorem Broadcasts.congr (h : Broadcasts unsetId tr mq past waiting) (hop : op.scheduled = none)
    (hid : mq'.currentlyBroadcastedGameId = mq.currentlyBroadcastedGameId)
    (hevents : mq'.currentGameEvents = mq.currentGameEvents)
    (hgames : mq'.nextGames = mq.nextGames) :
    Broadcasts unsetId (tr ++ [(mq, op)]) mq' past waiting := by
  have hevents' : ∀ id, eventsOf id (tr ++ [(mq, op)]) = eventsOf id tr := eventsOf_concat_none hop
  refine ⟨?_, ?_, ?_, ?_⟩
  · rw [gameIds_concat_none hop, hid]
    exact h.ids
  · rw [hevents, hid, hevents']
    exact h.current
  · simp only [hgames, hevents']
    exact h.nextGames
  · rw [stages_concat, if_pos hid.symm, List.append_nil, hid]
    exact h.stages

/-- An event is of the last game, or the first one of a new game. -/
theorem Broadcasts.schedule_cases (h : Broadcasts unsetId tr mq past waiting) {id : ℕ}
    {event : GameEventVariant}
    (hids : (gameIds unsetId (tr ++ [(mq, .call (.schedule id event))])).Nodup) :
    gameIds unsetId (tr ++ [(mq, .call (.schedule id event))]) = gameIds unsetId tr ∧
        (id = mq.currentlyBroadcastedGameId ∧ waiting = [] ∨
          id ≠ mq.currentlyBroadcastedGameId ∧ id ∈ waiting) ∨
      gameIds unsetId (tr ++ [(mq, .call (.schedule id event))]) = gameIds unsetId tr ++ [id] ∧
        id ∉ gameIds unsetId tr := by
  rw [gameIds_concat_schedule] at hids ⊢
  by_cases hlast : (gameIds unsetId tr).getLast? = some id
  · left
    rw [if_pos hlast, List.append_nil] at hids ⊢
    refine ⟨rfl, ?_⟩
    rw [h.ids] at hlast hids
    obtain ⟨hcurrent, -⟩ := List.nodup_cons.mp (List.nodup_append.mp hids).2.1
    rcases List.eq_nil_or_concat waiting with rfl | ⟨waiting, last, rfl⟩
    · rw [List.getLast?_concat, Option.some.injEq] at hlast
      exact Or.inl ⟨hlast.symm, rfl⟩
    · right
      rw [List.concat_eq_append, ← List.cons_append, ← List.append_assoc, List.getLast?_concat,
        Option.some.injEq] at hlast
      obtain rfl : last = id := hlast
      have hmem : last ∈ waiting.concat last := by simp
      exact ⟨ne_of_mem_of_not_mem hmem hcurrent, hmem⟩
  · right
    rw [if_neg hlast] at hids ⊢
    refine ⟨rfl, fun hmem => ?_⟩
    exact (List.nodup_append.mp hids).2.2 id hmem id (List.mem_singleton.mpr rfl) rfl

/-- **Scheduling** an event appends it to the log of its game, the last one of all. -/
theorem Broadcasts.schedule (h : Broadcasts unsetId tr mq past waiting) {id : ℕ}
    {event : GameEventVariant}
    (hids : (gameIds unsetId (tr ++ [(mq, .call (.schedule id event))])).Nodup) :
    ∃ waiting', Broadcasts unsetId (tr ++ [(mq, .call (.schedule id event))])
      (mq.schedule id event) past waiting' := by
  have hstages : ∀ mq' : MQManager,
      mq'.currentlyBroadcastedGameId = mq.currentlyBroadcastedGameId →
      Machine.stages currentlyBroadcastedGameId (tr ++ [(mq, .call (.schedule id event))]) mq' =
        past ++ [mq.currentlyBroadcastedGameId] := fun mq' hid => by
    rw [stages_concat, if_pos hid.symm, List.append_nil]
    exact h.stages
  have hwaiting : waiting.Nodup := by
    have hnodup := (gameIds_isPrefix (mq, .call (.schedule id event))).sublist.nodup hids
    rw [h.ids] at hnodup
    exact (List.nodup_cons.mp (List.nodup_append.mp hnodup).2.1).2
  rw [MQManager.schedule]
  rcases h.schedule_cases hids with ⟨heq, ⟨hid, rfl⟩ | ⟨hid, hmem⟩⟩ | ⟨heq, hnew⟩
  · -- the current game
    rw [if_pos hid]
    refine ⟨[], heq.trans h.ids, ?_, h.nextGames, hstages _ rfl⟩
    show appendNumbered mq.currentGameEvents event = _
    rw [eventsOf_concat_schedule, if_pos hid.symm, numbered_concat, h.current]
  · -- the last of the waiting games
    rw [if_neg hid]
    refine ⟨waiting, heq.trans h.ids, ?_, ?_, hstages _ rfl⟩
    · show mq.currentGameEvents = _
      rw [eventsOf_concat_schedule, if_neg (Ne.symm hid), h.current]
    · show addToNextGames id event mq.nextGames = _
      rw [h.nextGames, addToNextGames_map hwaiting fun hnot => absurd hmem hnot, if_pos hmem]
      simp only [eventsOf_concat_schedule]
  · -- a new game
    have hnot := hnew
    rw [h.ids, List.mem_append, List.mem_cons, not_or, not_or] at hnot
    obtain ⟨-, hid, hmem⟩ := hnot
    rw [if_neg hid]
    refine ⟨waiting ++ [id], ?_, ?_, ?_, hstages _ rfl⟩
    · rw [heq, h.ids, List.append_assoc]
      rfl
    · show mq.currentGameEvents = _
      rw [eventsOf_concat_schedule, if_neg (Ne.symm hid), h.current]
    · show addToNextGames id event mq.nextGames = _
      rw [h.nextGames, addToNextGames_map hwaiting fun _ => eventsOf_eq_nil hnew, if_neg hmem]
      simp only [eventsOf_concat_schedule]

/-- **Going on to the next game.** -/
theorem Broadcasts.switchGame (h : Broadcasts unsetId tr mq past waiting)
    (hids : (gameIds unsetId tr).Nodup) : ∃ past' waiting',
      Broadcasts unsetId (tr ++ [(mq, .getNextMessage)]) mq.switchGame past' waiting' := by
  rcases hsw : mq.switches with _ | _
  · rw [switchGame_of_not_switches hsw]
    exact ⟨past, waiting, h.congr rfl rfl rfl rfl⟩
  · obtain ⟨game, rest, hn, heq⟩ := switchGame_of_switches hsw
    have hgames := hn.symm.trans h.nextGames
    rcases waiting with _ | ⟨id, waiting⟩
    · cases hgames
    · obtain ⟨rfl, rfl⟩ := List.cons.inj hgames
      rw [h.ids] at hids
      have hne : mq.currentlyBroadcastedGameId ≠ id := fun hid =>
        (List.nodup_cons.mp (List.nodup_append.mp hids).2.1).1 (hid ▸ List.mem_cons_self)
      have hevents : ∀ i, eventsOf i (tr ++ [(mq, .getNextMessage)]) = eventsOf i tr :=
        eventsOf_concat_none rfl
      rw [heq]
      refine ⟨past ++ [mq.currentlyBroadcastedGameId], waiting, ?_, ?_, ?_, ?_⟩
      · rw [gameIds_concat_none rfl, List.append_assoc]
        exact h.ids
      · show numbered (eventsOf id tr) = numbered (eventsOf id _)
        rw [hevents]
      · simp only [hevents]
      · rw [stages_concat]
        show Machine.stages currentlyBroadcastedGameId tr mq ++
          (if mq.currentlyBroadcastedGameId = id then [] else [id]) = _
        rw [if_neg hne, h.stages]

/-- **One operation.** -/
theorem Broadcasts.step (h : Broadcasts unsetId tr mq past waiting)
    (hids : (gameIds unsetId (tr ++ [(mq, op)])).Nodup)
    (hstep : queueMachine.step op mq = .ok mq') :
    ∃ past' waiting', Broadcasts unsetId (tr ++ [(mq, op)]) mq' past' waiting' := by
  rcases op with c | _
  · change mq.exec c = .ok mq' at hstep
    by_cases hc : ∀ id event, c ≠ .schedule id event
    · obtain ⟨hevents, hgames, hid⟩ := logs_exec hstep hc
      refine ⟨past, waiting, h.congr ?_ hid hevents hgames⟩
      rcases c with ⟨id, event⟩ | _ | _ | _
      · exact absurd rfl (hc id event)
      all_goals rfl
    · simp only [not_forall, not_not] at hc
      obtain ⟨id, event, rfl⟩ := hc
      obtain rfl : mq.schedule id event = mq' := Except.ok.inj hstep
      exact ⟨past, h.schedule hids⟩
  · obtain ⟨past', waiting', h'⟩ := h.switchGame
      ((gameIds_isPrefix (mq, .getNextMessage)).sublist.nodup hids)
    obtain ⟨m, hnext⟩ := step_getNextMessage_eq_ok.mp hstep
    obtain ⟨-, -, -, -, -, -, -, -, rfl⟩ := serve_eq_ok hnext
    exact ⟨past', waiting', h'.congr_queue rfl rfl rfl⟩

/-! ## Messages -/

/-- The message `m` of `getNextMessage` goes on at `q`, the client's position. The queue is `mq`
before and `mq'` after. -/
structure Announces (tr : List (MQManager × MQOp)) (mq : MQManager) (m : MessageAndRecipient)
    (mq' : MQManager) (q : ℕ) : Prop where
  position : mq.switchGame.queues.find? m.fingerprint = some q
  gameId : m.msg.gameId = mq'.currentlyBroadcastedGameId
  /-- The events are those scheduled for the game, from `q` on. -/
  events : ∀ j < m.msg.events.length, ∃ event, (eventsOf m.msg.gameId tr)[q + j]? = some event ∧
    m.msg.events[j]? = some ⟨q + j, event⟩
  ackNumber : m.ackNumber = q + m.msg.events.length
  /-- Positions stay where they are after the switch, which does not advance any. -/
  queues : mq'.queues = mq.switchGame.queues
  not_advanced : ∀ f pos, mq'.queues.find? f = some pos →
    ∃ pos₀, mq.queues.find? f = some pos₀ ∧ pos ≤ pos₀

variable {m : MessageAndRecipient} {q : ℕ}

theorem Announces.concat (h : Announces tr mq m mq' q) (x : MQManager × MQOp) :
    Announces (tr ++ [x]) mq m mq' q := by
  refine { h with events := fun j hj => ?_ }
  obtain ⟨event, hevent, hmsg⟩ := h.events j hj
  refine ⟨event, ?_, hmsg⟩
  have hprefix : eventsOf m.msg.gameId tr <+: eventsOf m.msg.gameId (tr ++ [x]) :=
    eventsOf_isPrefix _ x
  obtain ⟨later, hlater⟩ := hprefix
  rw [← hlater, List.getElem?_append_left (List.getElem?_eq_some_iff.mp hevent).1, hevent]

/-- The switch only moves clients back. -/
theorem find?_queues_switchGame {f : Fingerprint} {pos : ℕ}
    (h : mq.switchGame.queues.find? f = some pos) :
    ∃ pos₀, mq.queues.find? f = some pos₀ ∧ pos ≤ pos₀ := by
  rcases hsw : mq.switches with _ | _
  · rw [switchGame_of_not_switches hsw] at h
    exact ⟨pos, h, le_rfl⟩
  · obtain ⟨game, rest, -, heq⟩ := switchGame_of_switches hsw
    rw [heq] at h
    simp only [SortedMap.find?_mapValues, Option.map_eq_some_iff] at h
    obtain ⟨pos₀, hpos₀, rfl⟩ := h
    exact ⟨pos₀, hpos₀, Nat.zero_le _⟩

/-- **One message.** -/
theorem Broadcasts.announces (h : Broadcasts unsetId tr mq past waiting)
    (hids : (gameIds unsetId tr).Nodup) (hlength : ∀ id, (eventsOf id tr).length < 2 ^ 32)
    (hnext : mq.getNextMessage = .ok (m, mq')) :
    ∃ q, Announces (tr ++ [(mq, .getNextMessage)]) mq m mq' q := by
  obtain ⟨past', waiting', h'⟩ := h.switchGame hids
  obtain ⟨skipped, rest, q, -, hfind, hlt, hmsg, hack, rfl⟩ := serve_eq_ok hnext
  have hgame : m.msg.gameId = mq.switchGame.currentlyBroadcastedGameId := by rw [hmsg]
  have hsame : ∀ id, eventsOf id (tr ++ [(mq, .getNextMessage)]) = eventsOf id tr :=
    eventsOf_concat_none rfl
  have hevents := h'.current
  rw [hsame, ← hgame] at hevents
  have hpicked : m.msg.events =
      (mq.switchGame.currentGameEvents.drop q).take m.msg.events.length := by
    rw [hmsg]
    exact pickEvents_eq_take _ _
  have hle : q + m.msg.events.length ≤ (eventsOf m.msg.gameId tr).length := by
    have hlen := congrArg List.length hpicked
    rw [List.length_take, List.length_drop, hevents, length_numbered] at hlen
    rw [hevents, length_numbered] at hlt
    omega
  have hbound := hlength m.msg.gameId
  refine ⟨q, hfind, hgame, fun j hj => ?_, ?_, rfl, fun f pos hpos => find?_queues_switchGame hpos⟩
  · rw [hsame, List.getElem?_eq_getElem (show q + j < (eventsOf m.msg.gameId tr).length by omega)]
    refine ⟨_, rfl, ?_⟩
    rw [hpicked, List.getElem?_take_of_lt hj, List.getElem?_drop, hevents, getElem?_numbered,
      List.getElem?_eq_getElem (show q + j < (eventsOf m.msg.gameId tr).length by omega),
      Option.map_some, toUInt32_of_lt (by omega)]
  · rw [hack, toUInt32_of_lt (by omega)]

theorem broadcasts_run (hrun : queueMachine.Run (.new unsetId) tr mq)
    (hids : (gameIds unsetId tr).Nodup) : ∃ past waiting, Broadcasts unsetId tr mq past waiting := by
  induction hrun with
  | nil => exact ⟨[], [], rfl, rfl, rfl, rfl⟩
  | snoc _ hstep ih =>
    obtain ⟨past, waiting, h⟩ := ih ((gameIds_isPrefix _).sublist.nodup hids)
    exact h.step hids hstep

/-- **Games in order, and messages with the right events.** When games are scheduled one after
another under different ids, they become current in this order, and each message has the events of
the current game from the client's position on. -/
theorem queueMachine_broadcasts (hrun : queueMachine.Run (.new unsetId) tr mq)
    (hids : (gameIds unsetId tr).Nodup) (hlength : ∀ id, (eventsOf id tr).length < 2 ^ 32) :
    stages currentlyBroadcastedGameId tr mq <+: gameIds unsetId tr ∧
    ∀ x ∈ tr, x.2 = .getNextMessage → ∀ m mq', x.1.getNextMessage = .ok (m, mq') →
      ∃ q, Announces tr x.1 m mq' q := by
  constructor
  · obtain ⟨past, waiting, h⟩ := broadcasts_run hrun hids
    rw [h.stages, h.ids]
    exact ⟨waiting, by rw [List.append_assoc]; rfl⟩
  · induction hrun with
    | nil => exact fun x hx => absurd hx List.not_mem_nil
    | @snoc tr u v op hrun hstep ih =>
      have hids' := (gameIds_isPrefix (u, op)).sublist.nodup hids
      have hlength' : ∀ id, (eventsOf id tr).length < 2 ^ 32 := fun id =>
        (eventsOf_isPrefix id (u, op)).length_le.trans_lt (hlength id)
      intro x hx hop m mq' hnext
      rcases List.mem_append.mp hx with hx | hx
      · obtain ⟨q, hq⟩ := ih hids' hlength' x hx hop m mq' hnext
        exact ⟨q, hq.concat (u, op)⟩
      · obtain rfl := List.mem_singleton.mp hx
        obtain rfl : op = .getNextMessage := hop
        obtain ⟨past, waiting, h⟩ := broadcasts_run hrun hids'
        exact h.announces hids' hlength' hnext

/-- Two games are scheduled before the first message is sent. -/
def twoGames : List MQOp :=
  [.call (.schedule 1 .gameOver), .call (.addQueue [7] 0), .call (.schedule 2 .gameOver),
    .getNextMessage, .call (.ack [7] 1), .getNextMessage]

theorem queueMachine_broadcasts_two : ∃ tr mq, queueMachine.Run (.new 0) tr mq ∧
    tr.map Prod.snd = twoGames ∧
    stages currentlyBroadcastedGameId tr mq <+: gameIds 0 tr ∧
    ∀ x ∈ tr, x.2 = .getNextMessage → ∀ m mq', x.1.getNextMessage = .ok (m, mq') →
      ∃ q, Announces tr x.1 m mq' q := by
  have hok : (queueMachine.exec twoGames (.new 0)).isOk = true := by decide +kernel
  obtain ⟨mq, hexec⟩ := Except.exists_of_isOk hok
  obtain ⟨tr, hrun, hops⟩ := exists_run_of_exec hexec
  have hscheduled : announced tr = [(1, .gameOver), (2, .gameOver)] := by
    rw [announced_eq_filterMap, hops]
    rfl
  refine ⟨tr, mq, hrun, hops, queueMachine_broadcasts hrun ?_ fun id => ?_⟩
  · rw [gameIds, hscheduled]
    decide
  · rw [eventsOf, hscheduled, List.length_map]
    exact (List.length_filter_le _ _).trans_lt (by decide)

end ScreenWorms
