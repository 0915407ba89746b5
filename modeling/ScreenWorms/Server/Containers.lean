import ScreenWorms.Server.Broadcast

/-!
# The containers of the queue

The operations of the queue change four containers. Two of them are about clients: the schedule and
the positions, which are kept apart and are of the same clients. A position is cut off at the end of
the log when it is set; the log grows, or is replaced when all positions go back to its start. The
other two are about games: a game waits while its id is not the current one, and only once.

An id may come back when its game has been replaced, so a log need not hold all that has been
scheduled under its id. It holds no more than that, which is what bounds the numbers of its events.

## Main definitions

* `MQManager.DistinctIds`, `MQManager.PositionsInLog`
* `LogsScheduled` — what is in the logs has been scheduled
* `MQManager.Intact` — what holds of the containers together

## Main results

* `queueMachine_invariant` — what holds whatever is scheduled
* `queueMachine_intact` — the containers of a queue belong together
-/

namespace ScreenWorms

open Machine MQManager

/-! ## Ids -/

/-- The ids of the current game and of those that wait are different. -/
def MQManager.DistinctIds (mq : MQManager) : Prop :=
  (mq.currentlyBroadcastedGameId :: mq.nextGames.map Prod.fst).Nodup

theorem MQManager.DistinctIds.switchGame {mq : MQManager} (h : mq.DistinctIds) :
    mq.switchGame.DistinctIds := by
  cases hsw : mq.switches with
  | false =>
    rw [switchGame_of_not_switches hsw]
    exact h
  | true =>
    obtain ⟨game, rest, hn, heq⟩ := switchGame_of_switches hsw
    rw [DistinctIds, hn] at h
    rw [heq]
    exact (List.nodup_cons.mp h).2

theorem MQManager.DistinctIds.schedule {mq : MQManager} (h : mq.DistinctIds) (gameId : ℕ)
    (event : GameEventVariant) : (mq.schedule gameId event).DistinctIds := by
  rw [MQManager.schedule]
  split
  · exact h
  · rename_i hid
    rw [DistinctIds, map_fst_addToNextGames]
    split
    · rw [List.append_nil]
      exact h
    · rename_i hnot
      rw [← List.cons_append]
      refine List.nodup_append'.mpr ⟨h, List.nodup_singleton gameId, ?_⟩
      rw [List.disjoint_singleton, List.mem_cons, not_or]
      exact ⟨hid, hnot⟩

theorem MQManager.DistinctIds.exec {mq mq' : MQManager} (h : mq.DistinctIds) {c : MQCall}
    (hc : mq.exec c = .ok mq') : mq'.DistinctIds := by
  by_cases hsched : ∀ gameId event, c ≠ .schedule gameId event
  · obtain ⟨-, hgames, hid⟩ := logs_exec hc hsched
    rw [DistinctIds, hgames, hid]
    exact h
  · simp only [not_forall, not_not] at hsched
    obtain ⟨gameId, event, rfl⟩ := hsched
    obtain rfl : mq.schedule gameId event = mq' := Except.ok.inj hc
    exact h.schedule gameId event

/-! ## Positions -/

/-- Nobody is beyond the end of the log. -/
def MQManager.PositionsInLog (mq : MQManager) : Prop :=
  ∀ fprint pos, mq.queues.find? fprint = some pos → pos ≤ mq.currentGameEvents.length

variable {mq mq' : MQManager}

/-- A position that is set is cut off at the end of the log. -/
theorem min_toUInt32_le (length n : ℕ) : min (toUInt32 length) n ≤ length :=
  (min_le_left _ _).trans (Nat.mod_le _ _)

theorem MQManager.PositionsInLog.schedule (h : mq.PositionsInLog) (gameId : ℕ)
    (event : GameEventVariant) : (mq.schedule gameId event).PositionsInLog := by
  rw [MQManager.schedule]
  split
  · intro fprint pos hpos
    show pos ≤ (appendNumbered mq.currentGameEvents event).length
    rw [length_appendNumbered]
    exact (h fprint pos hpos).trans (Nat.le_succ _)
  · exact h

theorem MQManager.PositionsInLog.ack (h : mq.PositionsInLog) {fprint : Fingerprint} {n : ℕ}
    (hack : mq.ack fprint n = .ok mq') : mq'.PositionsInLog := by
  rw [MQManager.ack] at hack
  split at hack
  · split at hack
    · obtain rfl := Except.ok.inj hack
      intro f pos hpos
      rw [SortedMap.find?_set] at hpos
      split at hpos
      · obtain rfl := Option.some.inj hpos
        exact min_toUInt32_le _ n
      · exact h f pos hpos
    · exact absurd hack (by simp)
  · obtain rfl := Except.ok.inj hack
    exact h

theorem MQManager.PositionsInLog.dropQueue (h : mq.PositionsInLog) (fprint : Fingerprint) :
    (mq.dropQueue fprint).PositionsInLog := by
  intro f pos hpos
  change (mq.queues.erase fprint).find? f = some pos at hpos
  rw [SortedMap.find?_erase] at hpos
  split at hpos
  · exact absurd hpos (by simp)
  · exact h f pos hpos

theorem MQManager.PositionsInLog.addQueue (h : mq.PositionsInLog) (fprint : Fingerprint) (n : ℕ) :
    (mq.addQueue fprint n).PositionsInLog := by
  rw [MQManager.addQueue]
  split
  · exact h
  · rename_i hnew
    intro f pos hpos
    rw [SortedMap.find?_insert hnew] at hpos
    split at hpos
    · obtain rfl := Option.some.inj hpos
      exact min_toUInt32_le _ n
    · exact h f pos hpos

theorem MQManager.PositionsInLog.exec (h : mq.PositionsInLog) {c : MQCall}
    (hc : mq.exec c = .ok mq') : mq'.PositionsInLog := by
  cases c with
  | schedule gameId event =>
    obtain rfl := Except.ok.inj hc
    exact h.schedule gameId event
  | ack fprint n => exact h.ack hc
  | dropQueue fprint =>
    obtain rfl := Except.ok.inj hc
    exact h.dropQueue fprint
  | addQueue fprint n =>
    obtain rfl := Except.ok.inj hc
    exact h.addQueue fprint n

/-- The next game starts with everybody at its start. -/
theorem MQManager.PositionsInLog.switchGame (h : mq.PositionsInLog) :
    mq.switchGame.PositionsInLog := by
  cases hsw : mq.switches with
  | false =>
    rw [switchGame_of_not_switches hsw]
    exact h
  | true =>
    obtain ⟨game, rest, -, heq⟩ := switchGame_of_switches hsw
    rw [heq]
    intro f pos hpos
    simp only [SortedMap.find?_mapValues, Option.map_eq_some_iff] at hpos
    obtain ⟨_, -, rfl⟩ := hpos
    exact Nat.zero_le _

/-- What holds of a queue whatever is scheduled, and however much. -/
theorem queueMachine_invariant :
    queueMachine.Invariant fun mq => mq.WellFormed ∧ mq.DistinctIds ∧ mq.PositionsInLog where
  init mq hmq := by
    obtain ⟨unsetId, rfl⟩ := hmq
    refine ⟨wellFormed_new unsetId, List.nodup_singleton unsetId, ?_⟩
    intro fprint pos hpos
    cases hpos
  step mq op mq' _ h hstep := by
    obtain ⟨hwf, hids, hpositions⟩ := h
    cases op with
    | call c => exact ⟨hwf.exec hstep, hids.exec hstep, hpositions.exec hstep⟩
    | getNextMessage =>
      obtain ⟨m, hnext⟩ := step_getNextMessage_eq_ok.mp hstep
      have hwf' := hwf.getNextMessage hnext
      obtain ⟨_, _, _, -, -, -, -, -, rfl⟩ := serve_eq_ok hnext
      exact ⟨hwf', hids.switchGame, hpositions.switchGame⟩

/-! ## Logs -/

/-- What is in the logs has been scheduled under their ids, in this order. -/
structure LogsScheduled (tr : List (MQManager × MQOp)) (mq : MQManager) : Prop where
  current : ∃ events, mq.currentGameEvents = numbered events ∧
    events.Sublist (eventsOf mq.currentlyBroadcastedGameId tr)
  nextGames : ∀ game ∈ mq.nextGames, game.2.Sublist (eventsOf game.1 tr)

variable {tr : List (MQManager × MQOp)} {op : MQOp}

theorem LogsScheduled.congr (h : LogsScheduled tr mq)
    (hevents : mq'.currentGameEvents = mq.currentGameEvents) (hgames : mq'.nextGames = mq.nextGames)
    (hid : mq'.currentlyBroadcastedGameId = mq.currentlyBroadcastedGameId) :
    LogsScheduled tr mq' where
  current := by
    rw [hevents, hid]
    exact h.current
  nextGames := by
    rw [hgames]
    exact h.nextGames

/-- What has been scheduled stays so. -/
theorem LogsScheduled.concat (h : LogsScheduled tr mq) (x : MQManager × MQOp) :
    LogsScheduled (tr ++ [x]) mq where
  current := by
    obtain ⟨events, hlog, hsub⟩ := h.current
    exact ⟨events, hlog, hsub.trans (eventsOf_isPrefix _ x).sublist⟩
  nextGames game hgame := (h.nextGames game hgame).trans (eventsOf_isPrefix _ x).sublist

/-- **Scheduling** an event adds it to one log at most. -/
theorem LogsScheduled.schedule (h : LogsScheduled tr mq) (gameId : ℕ) (event : GameEventVariant) :
    LogsScheduled (tr ++ [(mq, .call (.schedule gameId event))]) (mq.schedule gameId event) := by
  have hold := h.concat (mq, .call (.schedule gameId event))
  have hnew : eventsOf gameId (tr ++ [(mq, .call (.schedule gameId event))]) =
      eventsOf gameId tr ++ [event] := by rw [eventsOf_concat_schedule, if_pos rfl]
  rw [MQManager.schedule]
  split
  · rename_i hid
    refine ⟨?_, hold.nextGames⟩
    obtain ⟨events, hlog, hsub⟩ := h.current
    refine ⟨events ++ [event], ?_, ?_⟩
    · rw [numbered_concat, ← hlog]
    · rw [← hid] at hsub ⊢
      rw [hnew]
      exact hsub.append_right [event]
  · refine ⟨hold.current, ?_⟩
    intro game hgame
    rcases mem_addToNextGames hgame with hgame | ⟨old, rfl, hwaiting⟩
    · exact hold.nextGames game hgame
    · rw [hnew]
      refine List.Sublist.append_right ?_ [event]
      rcases hwaiting with rfl | hwaiting
      · exact List.nil_sublist _
      · exact h.nextGames (gameId, old) hwaiting

/-- **Going on to the next game** makes its log the current one. -/
theorem LogsScheduled.switchGame (h : LogsScheduled tr mq) : LogsScheduled tr mq.switchGame := by
  cases hsw : mq.switches with
  | false =>
    rw [switchGame_of_not_switches hsw]
    exact h
  | true =>
    obtain ⟨game, rest, hn, heq⟩ := switchGame_of_switches hsw
    have hwaiting : ∀ g ∈ game :: rest, g.2.Sublist (eventsOf g.1 tr) := hn ▸ h.nextGames
    rw [heq]
    refine ⟨⟨game.2, rfl, hwaiting game List.mem_cons_self⟩, ?_⟩
    intro g hg
    exact hwaiting g (List.mem_cons_of_mem _ hg)

/-- **One operation.** -/
theorem LogsScheduled.step (h : LogsScheduled tr mq) (hstep : queueMachine.step op mq = .ok mq') :
    LogsScheduled (tr ++ [(mq, op)]) mq' := by
  cases op with
  | call c =>
    change mq.exec c = .ok mq' at hstep
    by_cases hc : ∀ gameId event, c ≠ .schedule gameId event
    · obtain ⟨hevents, hgames, hid⟩ := logs_exec hstep hc
      exact (h.concat _).congr hevents hgames hid
    · simp only [not_forall, not_not] at hc
      obtain ⟨gameId, event, rfl⟩ := hc
      obtain rfl : mq.schedule gameId event = mq' := Except.ok.inj hstep
      exact h.schedule gameId event
  | getNextMessage =>
    obtain ⟨m, hnext⟩ := step_getNextMessage_eq_ok.mp hstep
    obtain ⟨-, -, -, -, -, -, -, -, rfl⟩ := serve_eq_ok hnext
    exact (h.switchGame.concat _).congr rfl rfl rfl

theorem logsScheduled_run {unsetId : ℕ} (hrun : queueMachine.Run (.new unsetId) tr mq) :
    LogsScheduled tr mq := by
  induction hrun with
  | nil => exact ⟨⟨[], rfl, List.nil_sublist _⟩, fun game hgame => absurd hgame List.not_mem_nil⟩
  | snoc _ hstep ih => exact ih.step hstep

/-- Events have the numbers of their places, as long as these are 32-bit numbers. -/
theorem LogsScheduled.eventNo_eq (h : LogsScheduled tr mq)
    (hlength : ∀ gameId, (eventsOf gameId tr).length < 2 ^ 32) {i : ℕ} {e : Event}
    (he : mq.currentGameEvents[i]? = some e) : e.eventNo = i := by
  obtain ⟨events, hlog, hsub⟩ := h.current
  rw [hlog, getElem?_numbered, Option.map_eq_some_iff] at he
  obtain ⟨event, hevent, rfl⟩ := he
  have hi : i < events.length := (List.getElem?_eq_some_iff.mp hevent).1
  have hbound : events.length < 2 ^ 32 := hsub.length_le.trans_lt (hlength _)
  exact toUInt32_of_lt (hi.trans hbound)

/-! ## All of them -/

/-- What holds of the containers together. -/
structure MQManager.Intact (mq : MQManager) : Prop where
  /-- The schedule lists the clients that have a queue. -/
  schedule_perm : mq.clientsToServeSchedule.Perm mq.queues.keys
  /-- It lists nobody twice. -/
  schedule_nodup : mq.clientsToServeSchedule.Nodup
  position_le : ∀ fprint pos, mq.queues.find? fprint = some pos →
    pos ≤ mq.currentGameEvents.length
  eventNo_eq : ∀ i (e : Event), mq.currentGameEvents[i]? = some e → e.eventNo = i
  nextGames_ne_nil : ∀ game ∈ mq.nextGames, game.2 ≠ []
  /-- No game waits twice. -/
  ids_nodup : (mq.nextGames.map Prod.fst).Nodup
  /-- The current game does not wait. -/
  current_not_waiting : ∀ game ∈ mq.nextGames, game.1 ≠ mq.currentlyBroadcastedGameId

/-- **The containers of a queue belong together**, in every run in which fewer than `2 ^ 32` events
are scheduled for each game. A run ends with the first lookup that fails. -/
theorem queueMachine_intact {unsetId : ℕ} (hrun : queueMachine.Run (.new unsetId) tr mq)
    (hlength : ∀ gameId, (eventsOf gameId tr).length < 2 ^ 32) : mq.Intact := by
  have hinit : queueMachine.init (.new unsetId) := ⟨unsetId, rfl⟩
  have hreach := (Reachable.init hinit).run hrun
  obtain ⟨hwf, hids, hpositions⟩ := queueMachine_invariant.reachable hreach
  obtain ⟨hcurrent, hwaiting⟩ := List.nodup_cons.mp hids
  have hlogs := logsScheduled_run hrun
  refine ⟨hwf.schedule_perm, ?_, hpositions, ?_, hwf.nextGames_ne_nil, hwaiting, ?_⟩
  · exact hwf.schedule_perm.nodup_iff.mpr mq.queues.nodup_keys
  · intro i e he
    exact hlogs.eventNo_eq hlength he
  · intro game hgame hid
    exact hcurrent (hid ▸ List.mem_map_of_mem hgame)

/-- A game comes back after another one has been the current one. -/
def comesBack : List MQOp :=
  [.call (.addQueue [7] 3), .call (.schedule 1 .gameOver), .getNextMessage, .call (.ack [7] 9),
    .call (.schedule 2 .gameOver), .getNextMessage, .call (.schedule 1 .gameOver),
    .call (.schedule 1 .gameOver), .call (.addQueue [8] 1)]

theorem queueMachine_intact_comesBack : ∃ tr mq, queueMachine.Run (.new 0) tr mq ∧
    tr.map Prod.snd = comesBack ∧ mq.nextGames = [(1, [.gameOver, .gameOver])] ∧
    mq.currentlyBroadcastedGameId = 2 ∧ mq.Intact := by
  have hends : ∃ mq, queueMachine.exec comesBack (.new 0) = .ok mq ∧
      mq.nextGames = [(1, [.gameOver, .gameOver])] ∧ mq.currentlyBroadcastedGameId = 2 :=
    exists_exec_of_any (by decide +kernel)
  obtain ⟨mq, hexec, hgames, hid⟩ := hends
  obtain ⟨tr, hrun, hops⟩ := exists_run_of_exec hexec
  have hscheduled : announced tr =
      [(1, .gameOver), (2, .gameOver), (1, .gameOver), (1, .gameOver)] := by
    rw [announced_eq_filterMap, hops]
    rfl
  refine ⟨tr, mq, hrun, hops, hgames, hid, queueMachine_intact hrun fun gameId => ?_⟩
  rw [eventsOf, hscheduled, List.length_map]
  exact (List.length_filter_le _ _).trans_lt (by decide)

end ScreenWorms
