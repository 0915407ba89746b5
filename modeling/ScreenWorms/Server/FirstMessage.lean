import ScreenWorms.Server.FixedPoint
import ScreenWorms.Server.ServerInvariant

/-!
# The first message of a game

When `getNextMessage` goes on to the next game it moves every client back to event 0, and the first
message of the new game should bring everybody its `NEW_GAME` event. Two things stand in the way.

An acknowledgement carries no game id. While a game waits, `ack` ignores it, but as soon as the last
waiting game has become the current one, a number that was meant for the game before is taken for
the new one. `lastTaken` is the number that counts.

And `schedule` finds the log an event belongs to by the id of its game. A game that starts under an
id that is in use does not get a log of its own, and what is left of it may later become one without
a `NEW_GAME` event. `StartsFresh` says that a step starts no such game.

## Main definitions

* `MQManager.callsOn`, `lastTaken` — the acknowledgement of a client that counts
* `FirstMessage` — the first message of a new game for a client that keeps its queue
* `StartsFresh`, `NewGamesFirst`

## Main results

* `NewGamesFirst.run` — waiting games start with their `NEW_GAME` event
* `firstMessage_of_lastTaken_zero` — how the first message of a game begins
-/

namespace ScreenWorms

variable {D : Type}

open GameTask MQManager

/-! ## The acknowledgement that counts -/

namespace MQManager

/-- Calls, each with the queue it is made on. -/
def callsOn (mq : MQManager) : List MQCall → List (MQManager × MQCall)
  | [] => []
  | call :: calls =>
    (mq, call) :: match mq.exec call with
      | .error _ => []
      | .ok mq' => mq'.callsOn calls

theorem callsOn_cons {mq mq' : MQManager} {call : MQCall} (h : mq.exec call = .ok mq')
    (calls : List MQCall) : mq.callsOn (call :: calls) = (mq, call) :: mq'.callsOn calls := by
  rw [callsOn, h]

theorem callsOn_append {calls : List MQCall} (calls' : List MQCall) {mq mq' : MQManager}
    (h : mq.execAll calls = .ok mq') :
    mq.callsOn (calls ++ calls') = mq.callsOn calls ++ mq'.callsOn calls' := by
  induction calls generalizing mq with
  | nil =>
    obtain rfl : mq = mq' := Except.ok.inj h
    rfl
  | cons call calls ih =>
    rw [execAll] at h
    rcases hcall : mq.exec call with e | mq₁
    · rw [hcall] at h
      exact absurd h (by simp)
    · rw [hcall] at h
      rw [List.cons_append, callsOn_cons hcall, callsOn_cons hcall, ih h, List.cons_append]

end MQManager

/-- The number of an acknowledgement of client `c` that is taken: no game waits. -/
def takenNumber (c : Fingerprint) : MQManager × MQCall → Option ℕ
  | (mq, .ack fingerprint nextExpectedEventNo) =>
    if fingerprint = c ∧ mq.nextGames = [] then some nextExpectedEventNo else none
  | _ => none

/-- The number the client has acknowledged last, if it had acknowledged `last` before. -/
def lastTakenFrom (c : Fingerprint) (last : ℕ) (calls : List (MQManager × MQCall)) : ℕ :=
  calls.foldl (fun last call => (takenNumber c call).getD last) last

/-- The number the client has acknowledged last, since it was moved back to event 0. -/
def lastTaken (c : Fingerprint) (calls : List (MQManager × MQCall)) : ℕ := lastTakenFrom c 0 calls

theorem lastTakenFrom_append (c : Fingerprint) (last : ℕ)
    (calls calls' : List (MQManager × MQCall)) :
    lastTakenFrom c last (calls ++ calls') = lastTakenFrom c (lastTakenFrom c last calls) calls' :=
  List.foldl_append

/-- The game `gameId`, which starts with `event`, is the current one, and client `c` gets it from
the start unless `last`, the number it has acknowledged last, is not zero. -/
structure AtStart (c : Fingerprint) (gameId : ℕ) (event : GameEventVariant) (last : ℕ)
    (mq : MQManager) : Prop where
  current : mq.currentlyBroadcastedGameId = gameId
  first : mq.currentGameEvents.head? = some ⟨0, event⟩
  position : last = 0 → mq.queues.find? c = some 0

variable {c : Fingerprint} {gameId last : ℕ} {event : GameEventVariant}

/-- What `AtStart` looks at. -/
theorem AtStart.congr {mq mq' : MQManager} (h : AtStart c gameId event last mq)
    (hcurrent : mq'.currentlyBroadcastedGameId = mq.currentlyBroadcastedGameId)
    (hevents : mq'.currentGameEvents = mq.currentGameEvents)
    (hqueue : mq'.queues.find? c = mq.queues.find? c) : AtStart c gameId event last mq' :=
  ⟨hcurrent.trans h.current, hevents ▸ h.first, fun hlast => hqueue.trans (h.position hlast)⟩

/-- **One call** leaves the client at the start, or takes its acknowledgement. -/
theorem AtStart.exec {mq mq' : MQManager} {call : MQCall} (h : AtStart c gameId event last mq)
    (hcall : mq.exec call = .ok mq') (hdrop : call ≠ .dropQueue c) :
    AtStart c gameId event ((takenNumber c (mq, call)).getD last) mq' := by
  rcases call with ⟨id, e⟩ | ⟨f, n⟩ | f | ⟨f, n⟩
  · obtain rfl : mq.schedule id e = mq' := Except.ok.inj hcall
    rw [schedule]
    split
    · refine ⟨h.current, ?_, h.position⟩
      rw [appendNumbered, List.head?_append, h.first]
      rfl
    · exact h.congr rfl rfl rfl
  · change mq.ack f n = .ok mq' at hcall
    rw [MQManager.ack] at hcall
    by_cases hwaits : mq.nextGames = []
    · rw [hwaits, List.isEmpty_nil, if_pos rfl] at hcall
      split at hcall
      · obtain rfl := Except.ok.inj hcall
        refine ⟨h.current, h.first, fun hlast => ?_⟩
        by_cases hf : f = c
        · subst hf
          obtain rfl : n = 0 := by simpa [takenNumber, hwaits] using hlast
          simp
        · have hother : (takenNumber c (mq, .ack f n)).getD last = last := by simp [takenNumber, hf]
          rw [hother] at hlast
          rw [SortedMap.find?_set, if_neg (Ne.symm hf)]
          exact h.position hlast
      · exact absurd hcall (by simp)
    · have hnone : takenNumber c (mq, .ack f n) = none := by simp [takenNumber, hwaits]
      rw [if_neg (by simpa using hwaits)] at hcall
      obtain rfl := Except.ok.inj hcall
      rw [hnone]
      exact h
  · obtain rfl : mq.dropQueue f = mq' := Except.ok.inj hcall
    have hne : c ≠ f := fun hc => hdrop (hc ▸ rfl)
    exact h.congr rfl rfl (by simp [dropQueue, SortedMap.find?_erase, hne])
  · obtain rfl : mq.addQueue f n = mq' := Except.ok.inj hcall
    rw [addQueue]
    split
    · exact h
    · rename_i hnot
      refine ⟨h.current, h.first, fun hlast => ?_⟩
      have hpos := h.position hlast
      have hne : c ≠ f := fun hc => hnot (hc ▸ SortedMap.mem_of_find? hpos)
      rw [SortedMap.find?_insert hnot, if_neg hne, hpos]

/-- **A list of calls** leaves the client at the start, or takes its acknowledgements. -/
theorem AtStart.execAll : ∀ {calls : List MQCall} {last : ℕ} {mq mq' : MQManager},
    AtStart c gameId event last mq → mq.execAll calls = .ok mq' →
    (∀ x ∈ mq.callsOn calls, x.2 ≠ .dropQueue c) →
    AtStart c gameId event (lastTakenFrom c last (mq.callsOn calls)) mq'
  | [], last, mq, mq', h, hcalls, _ => by
    obtain rfl : mq = mq' := Except.ok.inj hcalls
    exact h
  | call :: calls, last, mq, mq', h, hcalls, hdrop => by
    rw [MQManager.execAll] at hcalls
    rcases hcall : mq.exec call with e | mq₁
    · rw [hcall] at hcalls
      exact absurd hcalls (by simp)
    · rw [hcall] at hcalls
      rw [callsOn_cons hcall] at hdrop ⊢
      exact AtStart.execAll (h.exec hcall (hdrop _ List.mem_cons_self)) hcalls
        fun x hx => hdrop x (List.mem_cons_of_mem _ hx)

/-! ## Going on to the next game -/

/-- A log starts with event 0. -/
theorem head?_numbered (scheduled : List GameEventVariant) :
    (numbered scheduled).head? = scheduled.head?.map fun event => ⟨0, event⟩ := by
  rw [List.head?_eq_getElem?, getElem?_numbered, ← List.head?_eq_getElem?]
  rfl

/-- The new game finds every client at its start. -/
theorem atStart_switchGame {mq : MQManager} (hswitch : mq.switches = true) (hc : c ∈ mq.queues)
    {game : ℕ × List GameEventVariant} {rest : List (ℕ × List GameEventVariant)}
    (hgame : mq.nextGames = game :: rest) (hevent : game.2.head? = some event) :
    AtStart c game.1 event 0 mq.switchGame := by
  obtain ⟨game', rest', hgame', heq⟩ := switchGame_of_switches hswitch
  obtain ⟨rfl, rfl⟩ := List.cons.inj (hgame.symm.trans hgame')
  obtain ⟨pos, hpos⟩ := SortedMap.mem_iff_find?.mp hc
  rw [heq]
  refine ⟨rfl, ?_, fun _ => ?_⟩
  · rw [head?_numbered, hevent]
    rfl
  · simp [hpos]

/-- Serving another client leaves this one at the start. -/
theorem AtStart.getNextMessage {mq mq' : MQManager} {m : MessageAndRecipient}
    (h : AtStart c gameId event last mq.switchGame) (hnext : mq.getNextMessage = .ok (m, mq')) :
    AtStart c gameId event last mq' := by
  obtain ⟨-, -, -, -, -, -, -, -, rfl⟩ := serve_eq_ok hnext
  exact h.congr rfl rfl rfl

theorem AtStart.ack_of_ne {mq mq' : MQManager} {f : Fingerprint} {n : ℕ}
    (h : AtStart c gameId event last mq) (hf : f ≠ c) (hack : mq.ack f n = .ok mq') :
    AtStart c gameId event last mq' := by
  have hnone : takenNumber c (mq, .ack f n) = none := by simp [takenNumber, hf]
  have hcall : mq.exec (.ack f n) = .ok mq' := hack
  have hexec := h.exec hcall (by simp)
  rwa [hnone] at hexec

/-- A send to another client leaves this one at the start. -/
theorem AtStart.send {delivered : Bool} {gm gm' : GameManager D}
    (h : AtStart c gameId event last gm.mqManager.switchGame)
    (hother : ∀ m mq, gm.mqManager.getNextMessage = .ok (m, mq) → m.fingerprint ≠ c)
    (hsend : gm.send delivered = .ok gm') : AtStart c gameId event last gm'.mqManager := by
  obtain ⟨m, mq, hnext, -, hmq⟩ := GameManager.send_eq_ok hsend
  have hserved := h.getNextMessage hnext
  rcases hmq with hmq | hack
  · rw [hmq]
    exact hserved
  · exact hserved.ack_of_ne (hother m mq hnext) hack

/-- **The message a client at the start gets.** -/
theorem AtStart.message {mq mq' : MQManager} {m : MessageAndRecipient}
    (h : AtStart m.fingerprint gameId event 0 mq.switchGame) (hfits : mq.switchGame.Fits)
    (hnext : mq.getNextMessage = .ok (m, mq')) :
    m.msg.gameId = gameId ∧ ∃ es, m.msg.events = ⟨0, event⟩ :: es := by
  obtain ⟨-, -, pos, -, hfind, hlt, hmsg, -, -⟩ := serve_eq_ok hnext
  obtain rfl : 0 = pos := Option.some.inj ((h.position rfl).symm.trans hfind)
  have hne := hfits.pickEvents_ne_nil hlt
  rw [hmsg]
  refine ⟨h.current, ?_⟩
  show ∃ es, pickEvents 4 (mq.switchGame.currentGameEvents.drop 0) = ⟨0, event⟩ :: es
  rcases hpick : pickEvents 4 (mq.switchGame.currentGameEvents.drop 0) with _ | ⟨e, es⟩
  · exact absurd hpick hne
  · have hprefix := pickEvents_isPrefix 4 (mq.switchGame.currentGameEvents.drop 0)
    rw [hpick, List.drop_zero] at hprefix
    obtain ⟨rest, hrest⟩ := hprefix
    have hfirst := h.first
    rw [← hrest, List.cons_append, List.head?_cons] at hfirst
    exact ⟨es, by rw [Option.some.inj hfirst]⟩

/-! ## Until the first message -/

/-- The calls of an operation in a run of the game manager, each with the queue it is made on. The
acknowledgement of a send is left out: it is about the recipient of the message only. -/
def callsOfStep (pf : Platform D) : GameManager D × ManagerOp → List (MQManager × MQCall)
  | (gm, .op op) =>
    match op.run pf ⟨gm.toGameState, []⟩ with
    | .error _ => []
    | .ok g => gm.mqManager.callsOn g.calls
  | (_, .send _) => []

/-- A step that leaves client `c` waiting: it keeps its queue, no other game becomes the current
one, and no message is returned for it. -/
def Waits (pf : Platform D) (c : Fingerprint) : GameManager D × ManagerOp → Prop
  | (gm, .op op) => ∀ x ∈ callsOfStep pf (gm, .op op), x.2 ≠ .dropQueue c
  | (gm, .send _) => gm.mqManager.switches = false ∧
    ∀ m mq, gm.mqManager.getNextMessage = .ok (m, mq) → m.fingerprint ≠ c

/-- In `s` the next game becomes the current one, and `m` is the first message of this game that
`getNextMessage` returns for client `c`, which keeps its queue: the message of that very call, or,
when that one goes to another client, one returned after the further steps `after`. -/
inductive FirstMessage (pf : Platform D) (c : Fingerprint) (s : GameManager D) :
    List (GameManager D × ManagerOp) → MessageAndRecipient → Prop
  | atOnce {m mq} : s.mqManager.getNextMessage = .ok (m, mq) → m.fingerprint = c →
    FirstMessage pf c s [] m
  | later {delivered s' after t m m' mq mq'} :
    s.mqManager.getNextMessage = .ok (m', mq') → m'.fingerprint ≠ c →
    (managerMachine pf).step (.send delivered) s = .ok s' →
    (managerMachine pf).Run s' after t → (∀ x ∈ after, Waits pf c x) →
    t.mqManager.switches = false → t.mqManager.getNextMessage = .ok (m, mq) →
    m.fingerprint = c → FirstMessage pf c s after m

/-- One step of waiting. -/
theorem AtStart.step {pf : Platform D} {gm gm' : GameManager D} {op : ManagerOp}
    (h : AtStart c gameId event last gm.mqManager) (hwaits : Waits pf c (gm, op))
    (hstep : (managerMachine pf).step op gm = .ok gm') :
    AtStart c gameId event (lastTakenFrom c last (callsOfStep pf (gm, op))) gm'.mqManager := by
  rcases op with op | delivered
  · obtain ⟨g, hg, hcalls, -⟩ := GameManager.perform_eq_ok.mp hstep
    have heq : callsOfStep pf (gm, .op op) = gm.mqManager.callsOn g.calls := by
      rw [callsOfStep, hg]
    rw [Waits, heq] at hwaits
    rw [heq]
    exact h.execAll hcalls hwaits
  · obtain ⟨hno, hother⟩ := hwaits
    simp only [managerMachine] at hstep
    split at hstep
    · obtain rfl := Except.ok.inj hstep
      exact h
    · rw [← switchGame_of_not_switches hno] at h
      exact h.send hother hstep

/-- **Any number of steps of waiting.** -/
theorem AtStart.run {pf : Platform D} {s t : GameManager D} {tr : List (GameManager D × ManagerOp)}
    (h : AtStart c gameId event 0 s.mqManager) (hrun : (managerMachine pf).Run s tr t)
    (hwaits : ∀ x ∈ tr, Waits pf c x) :
    AtStart c gameId event (lastTaken c (tr.flatMap (callsOfStep pf))) t.mqManager := by
  induction hrun with
  | nil => exact h
  | @snoc tr u v op _ hstep ih =>
    have hu := ih fun x hx => hwaits x (List.mem_append_left _ hx)
    rw [List.flatMap_append, List.flatMap_singleton, lastTaken, lastTakenFrom_append]
    exact hu.step (hwaits _ (by simp)) hstep

/-! ## Waiting games start with `NEW_GAME` -/

/-- A call starts no game under an id that is in use while a game waits. -/
def FreshCall : MQManager × MQCall → Prop
  | (mq, .schedule gameId (.newGame _)) => mq.nextGames ≠ [] →
    gameId ≠ mq.currentlyBroadcastedGameId ∧ gameId ∉ mq.nextGames.map Prod.fst
  | _ => True

/-- The step starts no game under the id of the current or a waiting game while a game waits. -/
def StartsFresh (pf : Platform D) (x : GameManager D × ManagerOp) : Prop :=
  ∀ call ∈ callsOfStep pf x, FreshCall call

/-- Every waiting game starts with its `NEW_GAME` event, and the game under way is the last one: it
waits behind all others, or is the current one and nobody waits. -/
structure NewGamesFirst (g : GameState D) (mq : MQManager) : Prop where
  first : ∀ game ∈ mq.nextGames, ∃ newGame, game.2.head? = some (.newGame newGame)
  under_way : g.gameStarted = true →
    (g.gameId = mq.currentlyBroadcastedGameId ∧ mq.nextGames = []) ∨
      mq.nextGames.getLast?.map Prod.fst = some g.gameId

theorem addToNextGames_of_not_mem {id : ℕ} {e : GameEventVariant} :
    ∀ {games : List (ℕ × List GameEventVariant)}, id ∉ games.map Prod.fst →
      addToNextGames id e games = games ++ [(id, [e])]
  | [], _ => rfl
  | game :: games, h => by
    rw [List.map_cons, List.mem_cons, not_or] at h
    rw [addToNextGames, if_neg (Ne.symm h.1), addToNextGames_of_not_mem h.2, List.cons_append]

/-- When the game has a log, no log is new. -/
theorem mem_addToNextGames_of_mem {id : ℕ} {e : GameEventVariant}
    {game : ℕ × List GameEventVariant} : ∀ {games : List (ℕ × List GameEventVariant)},
      id ∈ games.map Prod.fst → game ∈ addToNextGames id e games →
      ∃ old ∈ games, game.2 = old.2 ∨ game.2 = old.2 ++ [e]
  | [], h, _ => absurd h List.not_mem_nil
  | upcoming :: games, h, hgame => by
    rw [addToNextGames] at hgame
    split at hgame
    · rcases List.mem_cons.mp hgame with rfl | hgame
      · exact ⟨upcoming, List.mem_cons_self, Or.inr rfl⟩
      · exact ⟨game, List.mem_cons_of_mem _ hgame, Or.inl rfl⟩
    · rename_i hne
      rw [List.map_cons, List.mem_cons] at h
      rcases List.mem_cons.mp hgame with rfl | hgame
      · exact ⟨game, List.mem_cons_self, Or.inl rfl⟩
      · obtain ⟨old, hold, heq⟩ :=
          mem_addToNextGames_of_mem (h.resolve_left (Ne.symm hne)) hgame
        exact ⟨old, List.mem_cons_of_mem _ hold, heq⟩

variable {g : GameState D}

/-- A queue with the same waiting games behind the same current game. -/
theorem NewGamesFirst.congr {mq mq' : MQManager} (h : NewGamesFirst g mq)
    (hn : mq'.nextGames = mq.nextGames)
    (hid : mq'.currentlyBroadcastedGameId = mq.currentlyBroadcastedGameId) :
    NewGamesFirst g mq' :=
  ⟨hn ▸ h.first, hn ▸ hid ▸ h.under_way⟩

/-- An event of the game under way finds the log of its game. -/
theorem NewGamesFirst.schedule_event {mq : MQManager} (h : NewGamesFirst g mq)
    (hs : g.gameStarted = true) (e : GameEventVariant) :
    NewGamesFirst g (mq.schedule g.gameId e) := by
  rw [schedule]
  split
  · exact h.congr rfl rfl
  · rename_i hne
    have hlast := (h.under_way hs).resolve_left fun hcur => hne hcur.1
    have hmem : g.gameId ∈ mq.nextGames.map Prod.fst := by
      obtain ⟨game, hgame, hid⟩ := Option.map_eq_some_iff.mp hlast
      exact List.mem_map.mpr ⟨game, List.mem_of_getLast? hgame, hid⟩
    refine ⟨fun game hgame => ?_, fun _ => Or.inr ?_⟩
    · obtain ⟨old, hold, heq⟩ := mem_addToNextGames_of_mem hmem hgame
      obtain ⟨newGame, hnew⟩ := h.first old hold
      refine ⟨newGame, ?_⟩
      rcases heq with heq | heq
      · rw [heq, hnew]
      · rw [heq, List.head?_append, hnew]
        rfl
    · rw [← List.getLast?_map, map_fst_addToNextGames, if_pos hmem, List.append_nil,
        List.getLast?_map]
      exact hlast

/-- What a change that starts no game schedules: events of the game under way. -/
def SchedulesFor (g : GameState D) (call : MQCall) : Prop :=
  ∀ id e, call = .schedule id e → g.gameStarted = true ∧ id = g.gameId

theorem NewGamesFirst.execAll {calls : List MQCall} {mq mq' : MQManager} (h : NewGamesFirst g mq)
    (hcalls : ∀ call ∈ calls, SchedulesFor g call) (hexec : mq.execAll calls = .ok mq') :
    NewGamesFirst g mq' := by
  refine execAll_induction (P := NewGamesFirst g) (C := SchedulesFor g)
    (fun mq call mq' hmq hcall hexec => ?_) h hcalls hexec
  by_cases hsched : ∃ id e, call = .schedule id e
  · obtain ⟨id, e, rfl⟩ := hsched
    obtain ⟨hs, rfl⟩ := hcall _ _ rfl
    obtain rfl : mq.schedule g.gameId e = mq' := Except.ok.inj hexec
    exact hmq.schedule_event hs e
  · obtain ⟨-, hn, hid⟩ := logs_exec hexec fun id e he => hsched ⟨id, e, he⟩
    exact hmq.congr hn hid

/-- A game that starts under a fresh id gets a log, behind all others. -/
theorem NewGamesFirst.schedule_newGame {g' : GameState D} {mq : MQManager} (h : NewGamesFirst g mq)
    {newGame : EventNewGame} (hfresh : FreshCall (mq, .schedule g'.gameId (.newGame newGame))) :
    NewGamesFirst g' (mq.schedule g'.gameId (.newGame newGame)) := by
  have hnot : g'.gameId ≠ mq.currentlyBroadcastedGameId →
      g'.gameId ∉ mq.nextGames.map Prod.fst := by
    intro _ hmem
    rcases hn : mq.nextGames with _ | ⟨game, rest⟩
    · rw [hn] at hmem
      exact absurd hmem List.not_mem_nil
    · exact (hfresh (by simp [hn])).2 hmem
  rw [schedule]
  split
  · rename_i hid
    refine ⟨h.first, fun _ => Or.inl ⟨hid, ?_⟩⟩
    by_contra hn
    exact (hfresh hn).1 hid
  · rename_i hid
    rw [addToNextGames_of_not_mem (hnot hid)]
    refine ⟨fun game hgame => ?_, fun _ => Or.inr ?_⟩
    · rcases List.mem_append.mp hgame with hgame | hgame
      · exact h.first game hgame
      · rw [List.mem_singleton.mp hgame]
        exact ⟨newGame, rfl⟩
    · simp

theorem NewGamesFirst.switchGame {mq : MQManager} (h : NewGamesFirst g mq) :
    NewGamesFirst g mq.switchGame := by
  rcases hswitch : mq.switches with _ | _
  · rw [switchGame_of_not_switches hswitch]
    exact h
  · obtain ⟨game, rest, hn, heq⟩ := switchGame_of_switches hswitch
    rw [heq]
    refine ⟨fun game' hgame' => h.first game' (hn ▸ List.mem_cons_of_mem _ hgame'), fun hs => ?_⟩
    rcases h.under_way hs with ⟨-, hnil⟩ | hlast
    · exact absurd (hn.symm.trans hnil) (by simp)
    · rw [hn] at hlast
      rcases rest with _ | ⟨next, rest⟩
      · exact Or.inl ⟨(Option.some.inj hlast).symm, rfl⟩
      · rw [List.getLast?_cons_cons] at hlast
        exact Or.inr hlast

theorem NewGamesFirst.send {delivered : Bool} {gm gm' : GameManager D}
    (h : NewGamesFirst gm.toGameState gm.mqManager) (hsend : gm.send delivered = .ok gm') :
    NewGamesFirst gm'.toGameState gm'.mqManager := by
  obtain ⟨m, mq, hnext, hgame, hmq⟩ := GameManager.send_eq_ok hsend
  have hserved : NewGamesFirst gm.toGameState mq := by
    obtain ⟨-, -, -, -, -, -, -, -, rfl⟩ := serve_eq_ok hnext
    exact h.switchGame.congr rfl rfl
  rw [hgame]
  rcases hmq with hmq | hack
  · rw [hmq]
    exact hserved
  · have hcall : mq.exec (.ack m.fingerprint m.ackNumber) = .ok gm'.mqManager := hack
    obtain ⟨-, hn, hid⟩ := logs_exec hcall (by simp)
    exact hserved.congr hn hid

/-- **What a change schedules.** Either it only schedules events of the game under way, or it
schedules the `NEW_GAME` event of the game it starts. -/
theorem GameTask.Change.schedules {op : GameOp} {g g' : GameTask D} (h : Change op g g') :
    ∃ cs, g'.calls = g.calls ++ cs ∧
      ((g'.gameId = g.gameId ∧ (g'.gameStarted = true → g.gameStarted = true) ∧
          ∀ call ∈ cs, SchedulesFor g.toGameState call) ∨
        ∃ newGame, cs = [.schedule g'.gameId (.newGame newGame)]) := by
  have dropped : ∀ players : SortedMap PlayerName (Player D), ∀ call ∈ droppedQueues players,
      SchedulesFor g.toGameState call := fun players call hcall id e he => by
    obtain ⟨_, _, -, -, hdrop⟩ := mem_droppedQueues.mp hcall
    exact absurd (hdrop.symm.trans he) (by simp)
  cases h with
  | @drop f hsender =>
    by_cases hw : f ∈ g.watchers
    · rw [dropConnection_of_watcher hw]
      exact ⟨_, rfl, Or.inl ⟨rfl, id, by simp [SchedulesFor]⟩⟩
    · rcases hs : g.gameStarted with _ | _
      · rw [dropConnection_of_lobby hw hs]
        refine ⟨_, rfl, Or.inl ⟨rfl, fun hs' => absurd (hs.symm.trans hs') (by simp), ?_⟩⟩
        intro call hcall
        rcases List.mem_cons.mp hcall with rfl | hcall
        · simp [SchedulesFor]
        · exact dropped _ call hcall
      · rw [dropConnection_of_running hw hs]
        exact ⟨_, rfl, Or.inl ⟨rfl, fun _ => rfl, by simp [SchedulesFor]⟩⟩
  | @watcher f msg hop =>
    have none : ∃ cs, g.calls = g.calls ++ cs ∧
        ((g.gameId = g.gameId ∧ (g.gameStarted = true → g.gameStarted = true) ∧
            ∀ call ∈ cs, SchedulesFor g.toGameState call) ∨
          ∃ newGame, cs = [.schedule g.gameId (.newGame newGame)]) :=
      ⟨[], by simp, Or.inl ⟨rfl, id, by simp⟩⟩
    rw [handleMessageFromWatcher]
    split
    · split
      · exact none
      · exact ⟨_, rfl, Or.inl ⟨rfl, id, by simp [SchedulesFor]⟩⟩
    · split
      · exact ⟨_, rfl, Or.inl ⟨rfl, id, by simp [SchedulesFor]⟩⟩
      · split
        · exact ⟨_, List.append_assoc _ _ _, Or.inl ⟨rfl, id, by simp [SchedulesFor]⟩⟩
        · exact none
  | answered hop _ _ => exact ⟨_, rfl, Or.inl ⟨rfl, id, by simp [SchedulesFor]⟩⟩
  | joined pf hop _ => exact ⟨_, rfl, Or.inl ⟨rfl, id, by simp [SchedulesFor]⟩⟩
  | prepared hs hcan => exact ⟨_, rfl, Or.inr ⟨_, rfl⟩⟩
  | moved _ _ => exact ⟨[], by simp [setPlayer], Or.inl ⟨rfl, id, by simp⟩⟩
  | ate rng hs _ _ => exact ⟨_, rfl, Or.inl ⟨rfl, id, by simp [SchedulesFor, hs]⟩⟩
  | eliminated rng hs _ _ => exact ⟨_, rfl, Or.inl ⟨rfl, id, by simp [SchedulesFor, hs]⟩⟩
  | ended rng hs _ _ =>
    rw [endGame_eq]
    refine ⟨_, List.append_assoc _ _ _, Or.inl ⟨rfl, fun hs' => absurd hs' (by simp), ?_⟩⟩
    intro call hcall
    simp only [List.cons_append, List.nil_append, List.mem_cons] at hcall
    rcases hcall with rfl | rfl | hcall
    · simp [SchedulesFor, hs]
    · simp [SchedulesFor, hs, GameTask.eliminated]
    · exact dropped _ call hcall

/-- **An operation** that starts no game under an id in use. -/
theorem NewGamesFirst.perform {pf : Platform D} {op : GameOp} {gm gm' : GameManager D}
    (h : NewGamesFirst gm.toGameState gm.mqManager) (hgm : gm.Consistent)
    (hfresh : StartsFresh pf (gm, .op op)) (hop : gm.perform (op.run pf) = .ok gm') :
    NewGamesFirst gm'.toGameState gm'.mqManager := by
  obtain ⟨g, hg, hcalls, heq⟩ := GameManager.perform_eq_ok.mp hop
  have hfresh' : ∀ x ∈ gm.mqManager.callsOn g.calls, FreshCall x := by
    intro x hx
    refine hfresh x ?_
    rw [callsOfStep, hg]
    exact hx
  have hchanges : Changes op ⟨gm.toGameState, []⟩ g :=
    GameState.Sound.run_changes (g := ⟨gm.toGameState, []⟩) hgm.sound hg
  -- what is known of the calls made so far is known of the queue they lead to
  have hkept := hchanges.induction (I := fun g => (∀ x ∈ gm.mqManager.callsOn g.calls, FreshCall x) →
    ∀ mq, gm.mqManager.execAll g.calls = .ok mq → NewGamesFirst g.toGameState mq) ?_ ?_
  · rw [heq]
    exact hkept hfresh' _ hcalls
  · intro g₁ g₂ _ hchange hI hfresh₂ mq₂ hmq₂
    obtain ⟨cs, hcs, hcases⟩ := hchange.schedules
    rw [hcs] at hfresh₂ hmq₂
    obtain ⟨mq₁, hmq₁, hexec⟩ := execAll_append_eq_ok.mp hmq₂
    rw [callsOn_append cs hmq₁] at hfresh₂
    have hmq := hI (fun x hx => hfresh₂ x (List.mem_append_left _ hx)) mq₁ hmq₁
    rcases hcases with ⟨hid, hstarted, hsched⟩ | ⟨newGame, rfl⟩
    · have hmq' := hmq.execAll hsched hexec
      exact ⟨hmq'.first, fun hs => hid ▸ hmq'.under_way (hstarted hs)⟩
    · have hlast := hfresh₂ (mq₁, .schedule g₂.gameId (.newGame newGame))
        (List.mem_append_right _ (by simp [callsOn]))
      obtain rfl : mq₁.schedule g₂.gameId (.newGame newGame) = mq₂ := by
        simpa [MQManager.execAll, MQManager.exec] using hexec
      exact hmq.schedule_newGame hlast
  · intro _ mq hmq
    obtain rfl : gm.mqManager = mq := Except.ok.inj hmq
    exact h

/-- **Runs that start no game under an id in use.** Every waiting game starts with its `NEW_GAME`
event. -/
theorem NewGamesFirst.run {pf : Platform D} {s t : GameManager D}
    {tr : List (GameManager D × ManagerOp)} (hs : (managerMachine pf).init s)
    (hrun : (managerMachine pf).Run s tr t) (hfresh : ∀ x ∈ tr, StartsFresh pf x) :
    NewGamesFirst t.toGameState t.mqManager := by
  induction hrun with
  | nil =>
    obtain ⟨rngSeed, turningSpeed, maxx, maxy, unsetId, unsetAlive, rfl⟩ := hs
    exact ⟨fun game hgame => absurd hgame List.not_mem_nil,
      fun hs => absurd hs (by simp [GameState.new])⟩
  | @snoc tr u v op hrun hstep ih =>
    have hu := ih fun x hx => hfresh x (List.mem_append_left _ hx)
    have hgm := (managerMachine_consistent pf).reachable ((Machine.Reachable.init hs).run hrun)
    rcases op with op | delivered
    · exact hu.perform hgm (hfresh _ (by simp)) hstep
    · simp only [managerMachine] at hstep
      split at hstep
      · obtain rfl := Except.ok.inj hstep
        exact hu
      · exact hu.send hstep

/-! ## The first message -/

/-- **How the first message of a game begins.** In any run, a client that has a queue when a game
becomes the current one, and keeps it, gets the game's event 0 first, provided that the
acknowledgement taken from it last since then, if any, carries the number 0. This event is the
game's `NEW_GAME` event, unless a game was started before under an id in use. -/
theorem firstMessage_of_lastTaken_zero {pf : Platform D} {c : Fingerprint} {s₀ s : GameManager D}
    {before after : List (GameManager D × ManagerOp)} {m : MessageAndRecipient}
    (hs₀ : (managerMachine pf).init s₀) (hrun : (managerMachine pf).Run s₀ before s)
    (hswitch : s.mqManager.switches = true) (hc : c ∈ s.mqManager.queues)
    (hfirst : FirstMessage pf c s after m)
    (hlast : lastTaken c (after.flatMap (callsOfStep pf)) = 0) :
    ∃ game rest e es, s.mqManager.nextGames = game :: rest ∧ m.msg.gameId = game.1 ∧
      m.msg.events = e :: es ∧ e.eventNo = 0 ∧ game.2.head? = some e.eventData ∧
      ((∀ x ∈ before, StartsFresh pf x) → ∃ newGame, e.eventData = .newGame newGame) := by
  have hreach : (managerMachine pf).Reachable s := (Machine.Reachable.init hs₀).run hrun
  have hgm := (managerMachine_consistent pf).reachable hreach
  obtain ⟨game, rest, hgame, -⟩ := switchGame_of_switches hswitch
  have hmem : game ∈ s.mqManager.nextGames := hgame ▸ List.mem_cons_self
  obtain ⟨event, hevent⟩ : ∃ event, game.2.head? = some event :=
    Option.ne_none_iff_exists'.mp fun h =>
      hgm.wellFormed.nextGames_ne_nil game hmem (List.head?_eq_none_iff.mp h)
  have hnew : (∀ x ∈ before, StartsFresh pf x) → ∃ newGame, event = .newGame newGame := by
    intro hfresh
    obtain ⟨newGame, hnewGame⟩ := (NewGamesFirst.run hs₀ hrun hfresh).first game hmem
    exact ⟨newGame, Option.some.inj (hevent.symm.trans hnewGame)⟩
  have hstart := atStart_switchGame hswitch hc hgame hevent
  have hmessage : m.msg.gameId = game.1 ∧ ∃ es, m.msg.events = ⟨0, event⟩ :: es := by
    rcases hfirst with ⟨hnext, rfl⟩ | ⟨hnext', hother, hstep, hrun', hwaits, hno, hnext, rfl⟩
    · exact hstart.message hgm.fits.switchGame hnext
    · rename_i delivered s' t m' mq mq'
      have hstart' : AtStart m.fingerprint game.1 event 0 s'.mqManager := by
        simp only [managerMachine] at hstep
        split at hstep
        · rename_i hempty
          simp only [isEmpty, Bool.and_eq_true, List.isEmpty_iff] at hempty
          exact absurd (hgame.symm.trans hempty.2) (by simp)
        · refine hstart.send (fun m₁ mq₁ hnext₁ => ?_) hstep
          obtain ⟨rfl, -⟩ := Prod.mk.inj (Except.ok.inj (hnext'.symm.trans hnext₁))
          exact hother
      have hwaited := hstart'.run hrun' hwaits
      rw [hlast, ← switchGame_of_not_switches hno] at hwaited
      have ht := (managerMachine_consistent pf).reachable ((hreach.step hstep).run hrun')
      exact hwaited.message ht.fits.switchGame hnext
  obtain ⟨hid, es, hes⟩ := hmessage
  exact ⟨game, rest, _, es, hgame, hid, hes, rfl, hevent, hnew⟩

/-! ## A late acknowledgement -/

theorem mem_toOption {ε α : Type} {x : Except ε α} {a : α} : a ∈ x.toOption ↔ x = .ok a := by
  rcases x with e | b <;> simp [Except.toOption]

/-- The game manager of a server on a small board. -/
def freshManager : GameManager ℤ := (Server.new (smallBoard 5 (by decide)) 0 0).gameManager

/-- The message `b` of socket 2, acknowledging the events before number `n`. -/
def acknowledges (b : ClientToServerMessage) (n : ℕ) : ManagerOp :=
  .op (.message [2] { b with nextExpectedEventNo := n })

/-- In `s` the next game becomes the current one and its first message goes to somebody else. Then
socket 2 acknowledges the events before number `n`, and the next message is for it and begins with
that event. -/
def AcknowledgesBetween (b : ClientToServerMessage) (n : ℕ) (s : GameManager ℤ) : Prop :=
  (∃ r' ∈ s.mqManager.getNextMessage.toOption, r'.1.fingerprint ≠ [2]) ∧
  ∃ s' ∈ ((managerMachine fixedPoint).step (.send true) s).toOption,
    (∀ x ∈ callsOfStep fixedPoint (s', acknowledges b n), x.2 ≠ .dropQueue [2]) ∧
    lastTaken [2] (callsOfStep fixedPoint (s', acknowledges b n)) = n ∧
    ∃ t ∈ ((managerMachine fixedPoint).step (acknowledges b n) s').toOption,
      t.mqManager.switches = false ∧
      ∃ r ∈ t.mqManager.getNextMessage.toOption, r.1.fingerprint = [2] ∧
        r.1.msg.events.head?.map Event.eventNo = some n

instance (b : ClientToServerMessage) (n : ℕ) (s : GameManager ℤ) :
    Decidable (AcknowledgesBetween b n s) := by
  unfold AcknowledgesBetween
  infer_instance

/-- A new server gets the messages `a` of socket 1 and `b` of socket 2. -/
def startedGame (a b : ClientToServerMessage) : Except Fault (GameManager ℤ) :=
  (managerMachine fixedPoint).exec [.op (.message [1] a), .op (.message [2] b)] freshManager

/-- The first message for socket 2 in such a run. -/
theorem exists_firstMessage {a b : ClientToServerMessage} {n : ℕ}
    (h : ∃ s ∈ (startedGame a b).toOption,
      (s.mqManager.switches = true ∧ [2] ∈ s.mqManager.queues) ∧ AcknowledgesBetween b n s) :
    ∃ (s₀ s : GameManager ℤ) (before after : List (GameManager ℤ × ManagerOp))
      (m : MessageAndRecipient), (managerMachine fixedPoint).init s₀ ∧
      (managerMachine fixedPoint).Run s₀ before s ∧ s.mqManager.switches = true ∧
      [2] ∈ s.mqManager.queues ∧ FirstMessage fixedPoint [2] s after m ∧
      lastTaken [2] (after.flatMap (callsOfStep fixedPoint)) = n ∧
      m.msg.events.head?.map Event.eventNo = some n := by
  obtain ⟨s, hs, ⟨hswitch, hc⟩, ⟨r', hr', hother⟩, s', hs', hdrop, hlast, t, ht, hno, r, hr, hto,
    hev⟩ := h
  obtain ⟨before, hbefore, -⟩ := Machine.exists_run_of_exec (mem_toOption.mp hs)
  refine ⟨freshManager, s, before, [(s', acknowledges b n)], r.1, ⟨5, 6, 16, 16, 0, 0, rfl⟩, hbefore,
    hswitch, hc, ?_, ?_, hev⟩
  · refine .later (mem_toOption.mp hr') hother (mem_toOption.mp hs')
      (.snoc .nil (mem_toOption.mp ht)) (fun x hx => ?_) hno (mem_toOption.mp hr) hto
    rw [List.mem_singleton.mp hx]
    exact hdrop
  · rw [List.flatMap_singleton]
    exact hlast

/-- Player `b` acknowledges nothing and gets the game from the start. -/
theorem firstMessage_of_acknowledges_zero : ∃ (s : GameManager ℤ)
    (after : List (GameManager ℤ × ManagerOp)) (m : MessageAndRecipient),
    FirstMessage fixedPoint [2] s after m ∧ ∃ e es, m.msg.events = e :: es ∧ e.eventNo = 0 := by
  obtain ⟨s₀, s, before, after, m, hs₀, hrun, hswitch, hc, hfirst, hlast, -⟩ :=
    exists_firstMessage (a := letter 1 .right 97) (b := letter 1 .right 98) (n := 0)
      (by decide +kernel)
  obtain ⟨-, -, e, es, -, -, hes, hno, -⟩ :=
    firstMessage_of_lastTaken_zero hs₀ hrun hswitch hc hfirst hlast
  exact ⟨s, after, m, hfirst, e, es, hes, hno⟩

/-- Player `b` acknowledges two events, which it has got in an earlier game, after the new game has
become the current one. Its first message of the new game begins with event 2. -/
theorem firstMessage_without_newGame : ∃ (s₀ s : GameManager ℤ)
    (before after : List (GameManager ℤ × ManagerOp)) (m : MessageAndRecipient),
    (managerMachine fixedPoint).init s₀ ∧ (managerMachine fixedPoint).Run s₀ before s ∧
    s.mqManager.switches = true ∧ [2] ∈ s.mqManager.queues ∧
    FirstMessage fixedPoint [2] s after m ∧ m.msg.events.head?.map Event.eventNo = some 2 := by
  obtain ⟨s₀, s, before, after, m, hs₀, hrun, hswitch, hc, hfirst, -, hev⟩ :=
    exists_firstMessage (a := letter 1 .right 97) (b := letter 1 .right 98) (n := 2)
      (by decide +kernel)
  exact ⟨s₀, s, before, after, m, hs₀, hrun, hswitch, hc, hfirst, hev⟩

end ScreenWorms
