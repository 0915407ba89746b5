import ScreenWorms.Server.PlayerLoops

/-!
# Clients and their sockets

Two laws about who a socket is. A message from the socket of a known player is answered on that
player's queue; this fails for a player that was dropped during a game, which stays known without a
queue. And a socket is one client at a time; this fails when a socket that is a client already sends
a message with a new name, which is only checked against the sessions of players.

## Main definitions

* `MQManager.AcksKnown` — acknowledgements are about clients with a queue
* `GameManager.AnswersOnQueue`
* `GameState.OneClient` — no socket is two clients

## Main results

* `answersOnQueue_iff` — when a message is answered on the queue of its player
* `oneClient_iff` — the runs in which no socket is ever two clients
-/

namespace ScreenWorms

open GameTask MQManager

variable {D : Type}

/-! ## Answering on the queue of a player -/

/-- Each acknowledgement in a list of calls is about a client that has a queue at that point. -/
def MQManager.AcksKnown : MQManager → List MQCall → Prop
  | _, [] => True
  | mq, c :: cs => (∀ f n, c = .ack f n → f ∈ mq.queues) ∧
    ∀ mq', mq.exec c = .ok mq' → AcksKnown mq' cs

theorem acksKnown_of_no_ack : ∀ {cs : List MQCall} {mq : MQManager}, (∀ f n, .ack f n ∉ cs) →
    mq.AcksKnown cs
  | [], _, _ => trivial
  | _ :: _, _, h => ⟨fun f n hc => absurd (hc ▸ List.mem_cons_self) (h f n), fun _ _ =>
      acksKnown_of_no_ack fun f n hmem => h f n (List.mem_cons_of_mem _ hmem)⟩

/-- Calls whose acknowledgements are about clients with a queue go well. -/
theorem MQManager.AcksKnown.execAll_ok : ∀ {cs : List MQCall} {mq : MQManager}, mq.AcksKnown cs →
    ∃ mq', mq.execAll cs = .ok mq'
  | [], mq, _ => ⟨mq, rfl⟩
  | c :: cs, mq, h => by
    have hc : ∃ mq', mq.exec c = .ok mq' := by
      cases c with
      | schedule gameId event => exact ⟨_, rfl⟩
      | ack f n => exact ⟨_, ack_of_mem (h.1 f n rfl) n⟩
      | dropQueue f => exact ⟨_, rfl⟩
      | addQueue f n => exact ⟨_, rfl⟩
    obtain ⟨mq', hc⟩ := hc
    obtain ⟨mq'', hcs⟩ := AcksKnown.execAll_ok (h.2 mq' hc)
    exact ⟨mq'', by simp only [execAll, hc, hcs]⟩

/-- Every acknowledgement a message leads to is about a client with a queue, and a message from the
socket of a known player leaves that player connected, with a queue. -/
structure GameManager.AnswersOnQueue (pf : Platform D) (f : Fingerprint)
    (msg : ClientToServerMessage) (gm : GameManager D) : Prop where
  acks : ∀ g, GameTask.handleMessage pf f msg ⟨gm.toGameState, []⟩ = .ok g →
    gm.mqManager.AcksKnown g.calls
  keeps : ∀ p, gm.players.find? msg.playerName = some p → p.fingerprint = f →
    ∃ gm', gm.handleMessage pf f msg = .ok gm' ∧
      (∃ p', gm'.players.find? msg.playerName = some p' ∧ p'.isDisconnected = false) ∧
      f ∈ gm'.mqManager.queues

/-- The calls of a message from a known player: its acknowledgement, and what starting a game
schedules. -/
theorem calls_answered (pf : Platform D) {g : GameState D} (h : g.Sound)
    {msg : ClientToServerMessage} {p : Player D} (hp : g.players.find? msg.playerName = some p) :
    ∃ g' cs, GameTask.handleMessageFromPlayer pf p.fingerprint msg ⟨g, []⟩ = .ok g' ∧
      (answered msg p ⟨g, []⟩).toGameState.SameClients g'.toGameState ∧
      g'.calls = .ack p.fingerprint msg.nextExpectedEventNo :: cs ∧
      ∀ c ∈ cs, GameState.IsSchedule c := by
  have horderly := GameState.Sound.answered (g := ⟨g, []⟩) h hp
  obtain ⟨g', hg', -⟩ := horderly.startGameIfReady pf
  obtain ⟨hsame, cs, hcs, hall⟩ := horderly.startGameIfReady_clients hg'
  exact ⟨g', cs, by rw [handleMessageFromPlayer_of_known (g := ⟨g, []⟩) hp rfl, hg'], hsame, hcs,
    hall⟩

/-- A message from anybody but a known player's socket only acknowledges for watchers. -/
theorem acks_of_unknown {pf : Platform D} {gm : GameManager D} (h : gm.Consistent)
    {f : Fingerprint} {msg : ClientToServerMessage} {g : GameTask D}
    (hp : ∀ p, gm.players.find? msg.playerName = some p → p.fingerprint ≠ f)
    (hg : GameTask.handleMessage pf f msg ⟨gm.toGameState, []⟩ = .ok g) :
    gm.mqManager.AcksKnown g.calls := by
  rw [GameTask.handleMessage] at hg
  split at hg
  · cases hg
    rw [GameTask.handleMessageFromWatcher]
    cases hf : gm.watchers.find? f with
    | none =>
      simp only
      split <;> exact acksKnown_of_no_ack (by simp [call])
    | some watcher =>
      have hq := h.watcher_queue f (SortedMap.mem_of_find? hf)
      simp only
      split
      · exact ⟨fun f' n heq => by cases heq; exact hq, fun _ _ => trivial⟩
      · split <;> exact acksKnown_of_no_ack (by simp [call])
  · rename_i hname
    rcases handleMessageFromPlayer_cases hg with
      ⟨p, hfind, hf, -⟩ | ⟨p, -, -, rfl⟩ | ⟨hnew, g₁, hloop, hend⟩
    · exact absurd hf (hp p hfind)
    · exact acksKnown_of_no_ack (by simp)
    · obtain ⟨hsound, hsub⟩ :=
        GameState.Sound.dropIfOlder (g := ⟨gm.toGameState, []⟩) h.sound hloop
      -- the loop makes no call that dropping a connection would not make
      have hchanges : Changes (.drop f) ⟨gm.toGameState, []⟩ g₁ :=
        GameState.Sound.dropIfOlder_changes (g := ⟨gm.toGameState, []⟩) h.sound rfl hloop
      obtain ⟨cs, hcs, hissues⟩ := hchanges.issues
      have hdrop : ∀ f' n, .ack f' n ∉ g₁.calls := fun f' n hmem => by
        rw [hcs, List.nil_append] at hmem
        obtain ⟨msg', heq, -⟩ := hissues _ hmem
        cases heq
      rcases hend with ⟨-, rfl⟩ | ⟨hsize, hready⟩
      · exact acksKnown_of_no_ack hdrop
      · have horderly := hsound.joined pf f hname (fun hm => hnew (hsub _ hm)) hsize
        obtain ⟨-, cs', hcs', hall⟩ := horderly.startGameIfReady_clients hready
        refine acksKnown_of_no_ack fun f' n hmem => ?_
        rw [hcs', List.mem_append] at hmem
        rcases hmem with hmem | hmem
        · rcases List.mem_append.mp hmem with hmem | hmem
          · exact hdrop f' n hmem
          · cases List.mem_singleton.mp hmem
        · obtain ⟨_, _, heq⟩ := hall _ hmem
          cases heq

/-- **When a message is answered on the queue of its player**: unless it comes from the socket of a
known player that is disconnected or has no queue. -/
theorem answersOnQueue_iff {pf : Platform D} {gm : GameManager D}
    (hgm : (managerMachine pf).Reachable gm) (f : Fingerprint) (msg : ClientToServerMessage) :
    gm.AnswersOnQueue pf f msg ↔ ∀ p, gm.players.find? msg.playerName = some p →
      p.fingerprint = f → p.isDisconnected = false ∧ f ∈ gm.mqManager.queues := by
  have h := (managerMachine_consistent pf).reachable hgm
  constructor
  · rintro hans p hp rfl
    obtain ⟨gm', hok, ⟨p', hp', hd⟩, -⟩ := hans.keeps p hp rfl
    have hname : msg.playerNameSize ≠ 0 := fun hzero =>
      (h.sound.named _ p hp).2 (List.length_eq_zero_iff.mp hzero)
    obtain ⟨g', cs, hg', hsame, hcs, -⟩ := calls_answered pf h.sound hp
    have hmsg : GameTask.handleMessage pf p.fingerprint msg ⟨gm.toGameState, []⟩ = .ok g' := by
      rw [GameTask.handleMessage, if_neg hname, hg']
    have hacks := hans.acks g' hmsg
    rw [hcs] at hacks
    refine ⟨?_, hacks.1 _ _ rfl⟩
    obtain ⟨g, hg, -, heq⟩ := GameManager.perform_eq_ok.mp hok
    rw [hmsg] at hg
    cases hg
    rw [heq] at hp'
    obtain ⟨q, hq, hclient⟩ := hsame.client _ p' hp'
    have hq' : (gm.players.adjust msg.playerName fun _ => p.updated gm.gameStarted msg).find?
        msg.playerName = some q := hq
    rw [SortedMap.find?_adjust_self, hp] at hq'
    cases hq'
    exact hclient.isDisconnected.symm.trans hd
  · intro hknown
    by_cases hother : ∀ p, gm.players.find? msg.playerName = some p → p.fingerprint ≠ f
    · exact ⟨fun g hg => acks_of_unknown h hother hg, fun p hp hf => absurd hf (hother p hp)⟩
    · simp only [not_forall, not_not] at hother
      obtain ⟨p, hp, rfl⟩ := hother
      obtain ⟨hd, hq⟩ := hknown p hp rfl
      have hname : msg.playerNameSize ≠ 0 := fun hzero =>
        (h.sound.named _ p hp).2 (List.length_eq_zero_iff.mp hzero)
      obtain ⟨g', cs, hg', hsame, hcs, hall⟩ := calls_answered pf h.sound hp
      have hmsg : GameTask.handleMessage pf p.fingerprint msg ⟨gm.toGameState, []⟩ = .ok g' := by
        rw [GameTask.handleMessage, if_neg hname, hg']
      have hnoack : ∀ f n, .ack f n ∉ cs := fun f n hmem => by
        obtain ⟨_, _, heq⟩ := hall _ hmem
        cases heq
      have hacks : gm.mqManager.AcksKnown g'.calls := by
        rw [hcs]
        exact ⟨fun f n heq => by cases heq; exact hq, fun _ _ => acksKnown_of_no_ack hnoack⟩
      refine ⟨fun g hg => ?_, fun p' hp' _ => ?_⟩
      · rw [hmsg] at hg
        cases hg
        exact hacks
      · rw [hp] at hp'
        cases hp'
        obtain ⟨mq, hmq⟩ := hacks.execAll_ok
        refine ⟨⟨g'.toGameState, mq⟩, GameManager.perform_eq_ok.mpr ⟨g', hmsg, hmq, rfl⟩, ?_, ?_⟩
        · have hmem : (answered msg p ⟨gm.toGameState, []⟩).players.find? msg.playerName =
              some (p.updated gm.gameStarted msg) := by
            simp only [answered, call, setPlayer, SortedMap.find?_adjust_self, hp, Option.map_some]
          obtain ⟨p', hp', hclient⟩ := hsame.find? hmem
          exact ⟨p', hp', hclient.isDisconnected.trans hd⟩
        · refine (mem_queues_execAll hmq).mpr ?_
          rw [decide_eq_true hq, hcs, queued_cons]
          refine queued_of_not_dropped fun hmem => ?_
          obtain ⟨_, _, heq⟩ := hall _ hmem
          cases heq

/-- A player who has just joined is answered. -/
theorem answersOnQueue_joined : ∃ s : Server ℤ, (serverMachine fixedPoint).Reachable s ∧
    s.gameManager.AnswersOnQueue fixedPoint [1] (letter 1 .right 97) := by
  obtain ⟨s, hs, hd, hq⟩ := exists_reachable
    (P := fun s => (s.gameManager.players.find? (letter 1 .right 97).playerName).all
      (fun p => !p.isDisconnected) = true ∧ [1] ∈ s.gameManager.mqManager.queues)
    (smallBoard 5 (by decide)) [.said 0 1 1 .right 0 [97]] (by decide +kernel)
  refine ⟨s, hs, (answersOnQueue_iff (reachable_gameManager hs) _ _).mpr fun p hp _ => ⟨?_, hq⟩⟩
  simpa [hp] using hd

/-- Player `a` is silent for three seconds during a game and then sends again: its queue is looked
up, but there is none. -/
theorem not_answersOnQueue : ∃ s : Server ℤ, (serverMachine fixedPoint).Reachable s ∧
    ¬ s.gameManager.AnswersOnQueue fixedPoint [1] (letter 1 .right 97) := by
  obtain ⟨s, hs, hknown, hfault⟩ := exists_reachable
    (P := fun s => (s.gameManager.players.find? (letter 1 .right 97).playerName).any
        (fun p => p.fingerprint = [1]) = true ∧
      s.gameManager.handleMessage fixedPoint [1] (letter 1 .right 97) = .error .missingQueue)
    (smallBoard 5 (by decide))
    [.said 0 1 1 .right 0 [97], .said 0 2 1 .right 0 [98], .send true,
      .said 2500000 2 1 .right 0 [98], .tick 3000000 []]
    (by decide +kernel)
  obtain ⟨p, hp, hf⟩ := (Option.any_eq_true _ _).mp hknown
  refine ⟨s, hs, fun h => ?_⟩
  obtain ⟨gm', hok, -⟩ := h.keeps p hp (by simpa using hf)
  rw [hfault] at hok
  cases hok

/-! ## One client per socket -/

namespace GameState

/-- No socket is two clients: one that watches has no connected player, and no socket has two. -/
structure OneClient (g : GameState D) : Prop where
  watcher : ∀ f ∈ g.watchers, ∀ n p, g.players.find? n = some p → p.fingerprint = f →
    p.isDisconnected = true
  player : ∀ n n' p p', g.players.find? n = some p → g.players.find? n' = some p' →
    p.fingerprint = p'.fingerprint → p.isDisconnected = false → p'.isDisconnected = false → n = n'

/-- Clients may go. -/
theorem OneClient.of_clients {g g' : GameState D} (h : g.OneClient)
    (hw : ∀ f ∈ g'.watchers, f ∈ g.watchers)
    (hp : ∀ n p', g'.players.find? n = some p' → p'.isDisconnected = false →
      ∃ p, g.players.find? n = some p ∧ p.fingerprint = p'.fingerprint ∧
        p.isDisconnected = false) : g'.OneClient where
  watcher f hf n p' hp' hpf := by
    by_contra hd
    obtain ⟨p, hfind, hfp, hpd⟩ := hp n p' hp' (Bool.not_eq_true _ ▸ hd)
    rw [h.watcher f (hw f hf) n p hfind (hfp.trans hpf)] at hpd
    cases hpd
  player n n' p₁ p₂ hp₁ hp₂ hf hd₁ hd₂ := by
    obtain ⟨q₁, hq₁, hf₁, hd₁⟩ := hp n p₁ hp₁ hd₁
    obtain ⟨q₂, hq₂, hf₂, hd₂⟩ := hp n' p₂ hp₂ hd₂
    exact h.player n n' q₁ q₂ hq₁ hq₂ (hf₁.trans (hf.trans hf₂.symm)) hd₁ hd₂

theorem SameClients.oneClient_congr {g g' : GameState D} (h : g.SameClients g') :
    g'.OneClient ↔ g.OneClient := by
  constructor
  · refine fun hone => hone.of_clients (fun f hf => h.watchers ▸ hf) fun n p hp hd => ?_
    obtain ⟨p', hp', hsame⟩ := h.find? hp
    exact ⟨p', hp', hsame.fingerprint, hsame.isDisconnected.trans hd⟩
  · refine fun hone => hone.of_clients (fun f hf => h.watchers ▸ hf) fun n p hp hd => ?_
    obtain ⟨p', hp', hsame⟩ := h.client n p hp
    exact ⟨p', hp', hsame.fingerprint.symm, hsame.isDisconnected.symm.trans hd⟩

theorem OneClient.adjust {g g' : GameState D} (h : g.OneClient) {name : PlayerName} {p q : Player D}
    (hp : g.players.find? name = some p) (hpq : p.SameClient q)
    (hplayers : g'.players = g.players.adjust name fun _ => q) (hw : g'.watchers = g.watchers) :
    g'.OneClient :=
  (SameClients.adjust hp hpq hplayers hw).oneClient_congr.mpr h

theorem OneClient.endGame {g : GameTask D} (h : g.toGameState.OneClient) :
    g.endGame.toGameState.OneClient := by
  rw [endGame_eq]
  refine h.of_clients (fun _ hf => hf) fun n p hp _ => ?_
  obtain ⟨q, hq, hd, rfl⟩ := find?_staying.mp hp
  exact ⟨q, hq, rfl, hd⟩

theorem OneClient.dropConnection {g : GameTask D} (h : g.toGameState.OneClient) (f : Fingerprint) :
    (g.dropConnection f).toGameState.OneClient := by
  have hmark : ∀ n p, (markDisconnected f g.players).find? n = some p → p.isDisconnected = false →
      ∃ q, g.players.find? n = some q ∧ q.fingerprint = p.fingerprint ∧
        q.isDisconnected = false := by
    intro n p hp hd
    obtain ⟨q, hq, rfl⟩ := find?_markDisconnected_eq_some.mp hp
    split at hd
    · cases hd
    · rename_i hne
      exact ⟨q, hq, by rw [if_neg hne], hd⟩
  by_cases hw : f ∈ g.watchers
  · rw [dropConnection_of_watcher hw]
    exact h.of_clients (fun _ hf => (SortedMap.mem_erase.mp hf).2) fun n p hp hd => ⟨p, hp, rfl, hd⟩
  · cases hs : g.gameStarted with
    | true =>
      rw [dropConnection_of_running hw hs]
      exact h.of_clients (fun _ hf => hf) hmark
    | false =>
      rw [dropConnection_of_lobby hw hs]
      refine h.of_clients (fun _ hf => hf) fun n p hp _ => ?_
      obtain ⟨q, hq, hd, rfl⟩ := find?_staying.mp hp
      exact hmark n q hq hd

/-- Timeouts and turns make no new clients. -/
theorem OneClient.change {op : GameOp} (hop : ∀ f msg, op ≠ .message f msg) {g g' : GameTask D}
    (hchange : Change op g g') (h : g.toGameState.OneClient) : g'.toGameState.OneClient := by
  cases hchange with
  | drop _ => exact h.dropConnection _
  | watcher heq => exact absurd heq (hop _ _)
  | answered heq _ _ => exact absurd heq (hop _ _)
  | joined pf heq _ => exact absurd heq (hop _ _)
  | prepared _ _ => exact h.of_clients (fun _ hf => hf) fun n p hp hd => ⟨p, hp, rfl, hd⟩
  | moved hp hsame => exact h.adjust hp hsame rfl rfl
  | ate rng _ hp hsame => exact h.adjust hp hsame rfl rfl
  | @eliminated name p q no rng _ hp hsame =>
    exact h.adjust hp hsame.eliminated rfl rfl
  | @ended name p q no rng _ hp hsame =>
    exact OneClient.endGame (h.adjust hp hsame.eliminated rfl rfl)

theorem OneClient.run {pf : Platform D} {op : GameOp} (hop : ∀ f msg, op ≠ .message f msg)
    {g g' : GameTask D} (hsound : g.toGameState.Sound) (hrun : op.run pf g = .ok g')
    (h : g.toGameState.OneClient) : g'.toGameState.OneClient :=
  (hsound.run_changes hrun).induction (I := fun g => g.toGameState.OneClient)
    (fun _ _ _ hchange h => h.change hop hchange) h

/-- A new player is the only client of its socket exactly when there was none. -/
theorem oneClient_joined_iff {pf : Platform D} {g : GameTask D} (h : g.toGameState.OneClient)
    {f : Fingerprint} {msg : ClientToServerMessage} (hnew : msg.playerName ∉ g.players) :
    (g.joined pf f msg).toGameState.OneClient ↔ f ∉ g.watchers ∧
      ∀ n p, g.players.find? n = some p → p.fingerprint = f → p.isDisconnected = true := by
  have hself : (g.joined pf f msg).players.find? msg.playerName =
      some (.joining pf g.gameStarted f msg) := by
    simp only [joined, call, SortedMap.find?_insert hnew, if_true]
  have hold : ∀ n p, g.players.find? n = some p → n ≠ msg.playerName ∧
      (g.joined pf f msg).players.find? n = some p := by
    intro n p hp
    have hne : n ≠ msg.playerName := fun heq => hnew (heq ▸ SortedMap.mem_of_find? hp)
    exact ⟨hne, by simp only [joined, call, SortedMap.find?_insert hnew, if_neg hne, hp]⟩
  have hcases : ∀ n p, (g.joined pf f msg).players.find? n = some p →
      (n = msg.playerName ∧ p = .joining pf g.gameStarted f msg) ∨ g.players.find? n = some p := by
    intro n p hp
    simp only [joined, call, SortedMap.find?_insert hnew] at hp
    split at hp
    · exact Or.inl ⟨by assumption, (Option.some.inj hp).symm⟩
    · exact Or.inr hp
  constructor
  · intro hone
    refine ⟨fun hw => ?_, fun n p hp hf => ?_⟩
    · have hd := hone.watcher f hw _ _ hself rfl
      cases hd
    · by_contra hd
      obtain ⟨hne, hp'⟩ := hold n p hp
      exact hne (hone.player n _ p _ hp' hself hf (Bool.not_eq_true _ ▸ hd) rfl)
  · rintro ⟨hw, hnone⟩
    refine ⟨fun f' hf' n p hp hpf => ?_, fun n n' p p' hp hp' hf hd hd' => ?_⟩
    · rcases hcases n p hp with ⟨rfl, rfl⟩ | hp
      · exact absurd ((show f = f' from hpf) ▸ hf') hw
      · exact h.watcher f' hf' n p hp hpf
    · rcases hcases n p hp with ⟨rfl, rfl⟩ | hp <;> rcases hcases n' p' hp' with ⟨rfl, rfl⟩ | hp'
      · rfl
      · rw [hnone n' p' hp' hf.symm] at hd'
        cases hd'
      · rw [hnone n p hp hf] at hd
        cases hd
      · exact h.player n n' p p' hp hp' hf hd hd'

/-- The sender of a message from an unknown player may join: there is no room left, or its only
other client is its first player, and it is dropped since a game is under way and one of its
players is older. -/
def JoinsAlone (f : Fingerprint) (msg : ClientToServerMessage) (g : GameState D) : Prop :=
  msg.playerNameSize ≠ 0 → msg.playerName ∉ g.players → g.players.size = maxPlayers ∨
    f ∉ g.watchers ∧ ∀ n p, g.players.find? n = some p → p.fingerprint = f →
      p.isDisconnected = false → g.gameStarted = true ∧
        (firstPlayerOf f g.players).map Prod.fst = some n ∧
        ∃ n' p', g.players.find? n' = some p' ∧ p'.isOlder f msg = true

instance (f : Fingerprint) (msg : ClientToServerMessage) (g : GameState D) :
    Decidable (g.JoinsAlone f msg) :=
  decidable_of_iff (msg.playerNameSize ≠ 0 → msg.playerName ∉ g.players →
      g.players.size = maxPlayers ∨ f ∉ g.watchers ∧ ∀ x ∈ g.players.entries,
        x.2.fingerprint = f → x.2.isDisconnected = false → g.gameStarted = true ∧
          (firstPlayerOf f g.players).map Prod.fst = some x.1 ∧
          ∃ y ∈ g.players.entries, y.2.isOlder f msg = true)
    (by simp only [JoinsAlone, SortedMap.find?_eq_some, Prod.forall, Prod.exists])

/-- What the loop leaves of the clients of the sender, when no socket is two clients. -/
theorem OneClient.dropIfOlder {g g₁ : GameTask D} (h : g.toGameState.OneClient)
    (hsound : g.toGameState.Sound) {f : Fingerprint} {msg : ClientToServerMessage}
    (hloop : forPlayers (GameTask.dropIfOlder f msg) g.players.keys g = .ok g₁) :
    g₁.players.size = g.players.size ∧
    ((f ∉ g₁.watchers ∧ ∀ n p, g₁.players.find? n = some p → p.fingerprint = f →
        p.isDisconnected = true) ↔
      f ∉ g.watchers ∧ ∀ n p, g.players.find? n = some p → p.fingerprint = f →
        p.isDisconnected = false → g.gameStarted = true ∧
          (firstPlayerOf f g.players).map Prod.fst = some n ∧
          ∃ n' p', g.players.find? n' = some p' ∧ p'.isOlder f msg = true) := by
  have same : older f msg g.players g.players.keys = 0 → g₁ = g := fun hzero => by
    rw [dropIfOlder_of_none hzero] at hloop
    exact (Except.ok.inj hloop).symm
  by_cases hw : f ∈ g.watchers
  · -- a socket that watches has no players, so the loop does nothing
    have hzero : older f msg g.players g.players.keys = 0 := by
      by_contra hpos
      obtain ⟨n, p, hp, hold⟩ := older_pos.mp (Nat.pos_of_ne_zero hpos)
      have hf := isOlder_fingerprint hold
      have hd := hsound.watcher_connected f hw n p hp hf
      rw [h.watcher f hw n p hp hf] at hd
      cases hd
    rw [same hzero]
    exact ⟨rfl, fun hnot => absurd hw hnot.1, fun hnot => absurd hw hnot.1⟩
  · cases hs : g.gameStarted with
    | true =>
      rw [dropIfOlder_of_running msg hw hs fun n hn => SortedMap.mem_keys.mp hn] at hloop
      cases hloop
      by_cases hzero : older f msg g.players g.players.keys = 0
      · have hnone : ¬ ∃ n' p', g.players.find? n' = some p' ∧ p'.isOlder f msg = true :=
          fun hex => absurd (older_pos.mpr hex) (by omega)
        simp only [hzero, if_true, hw, not_false_eq_true, true_and, hnone, and_false, imp_false,
          Bool.not_eq_false]
      · have hex := older_pos.mp (Nat.pos_of_ne_zero hzero)
        simp only [hzero, if_false, size_markDisconnected, hw, not_false_eq_true, true_and, hex,
          and_true, find?_markDisconnected_eq_some]
        constructor
        · intro hall n p hp hf hd
          by_contra hne
          have hd' := hall n p ⟨p, hp, (if_neg hne).symm⟩ hf
          rw [hd] at hd'
          cases hd'
        · rintro hall n p ⟨q, hq, rfl⟩ hf
          split at hf
          · rename_i hfirst
            rw [if_pos hfirst]
          · rename_i hne
            rw [if_neg hne]
            by_contra hd
            exact hne (hall n q hq hf (Bool.not_eq_true _ ▸ hd))
    | false =>
      -- in the lobby the only player of the sender is its first one, which is not older
      have hfirst := ((forPlayers_dropIfOlder_ok_iff f msg hsound.lobby_connected).mp
        ⟨g₁, hloop⟩).resolve_left hw |>.resolve_left (by simp [hs])
      have hzero : older f msg g.players g.players.keys = 0 := by
        by_contra hpos
        obtain ⟨n, p, hp, hold⟩ := older_pos.mp (Nat.pos_of_ne_zero hpos)
        have hf := isOlder_fingerprint hold
        obtain ⟨n₀, p₀, hp₀⟩ := exists_firstPlayerOf hp hf
        obtain ⟨hfind, hf₀⟩ := firstPlayerOf_eq_some hp₀
        have heq := h.player n n₀ p p₀ hp hfind (hf.trans hf₀.symm)
          (hsound.lobby_connected hs n p hp) (hsound.lobby_connected hs n₀ p₀ hfind)
        subst heq
        rw [hp] at hfind
        cases hfind
        rw [hfirst n p hp₀] at hold
        cases hold
      rw [same hzero]
      simp only [hw, not_false_eq_true, true_and, Bool.false_eq_true, false_and, imp_false,
        Bool.not_eq_false]

/-- **One message.** If no socket is two clients, that remains so exactly when the sender joins
alone. -/
theorem OneClient.message_iff {pf : Platform D} {g g' : GameTask D} (h : g.toGameState.OneClient)
    (hsound : g.toGameState.Sound) {f : Fingerprint} {msg : ClientToServerMessage}
    (hmsg : g.handleMessage pf f msg = .ok g') :
    g'.toGameState.OneClient ↔ g.toGameState.JoinsAlone f msg := by
  rw [GameTask.handleMessage] at hmsg
  split at hmsg
  · rename_i hzero
    cases hmsg
    refine iff_of_true ?_ fun hname => absurd hzero hname
    rw [GameTask.handleMessageFromWatcher]
    cases hf : g.watchers.find? f with
    | none =>
      simp only
      split
      · exact h
      · rename_i hany
        refine ⟨fun f' hf' n p hp hpf => ?_, h.player⟩
        rcases SortedMap.mem_insert.mp hf' with rfl | hf'
        · refine absurd (List.any_eq_true.mpr ⟨(n, p), SortedMap.find?_eq_some.mp hp, ?_⟩) hany
          simpa using hpf
        · exact h.watcher f' hf' n p hp hpf
    | some watcher =>
      simp only
      split
      · exact h
      · split
        · exact h.of_clients (fun f' hf' => SortedMap.mem_adjust.mp hf')
            fun n p hp hd => ⟨p, hp, rfl, hd⟩
        · exact h
  · rename_i hname
    rcases handleMessageFromPlayer_cases hmsg with
      ⟨p, hp, -, hready⟩ | ⟨p, hp, -, rfl⟩ | ⟨hnew, g₁, hloop, hend⟩
    · refine iff_of_true ?_ fun _ hnew => absurd (SortedMap.mem_of_find? hp) hnew
      rw [((hsound.answered hp).startGameIfReady_clients hready).1.oneClient_congr]
      exact h.adjust hp (q := p.updated g.gameStarted msg) ⟨rfl, rfl, rfl, rfl⟩ rfl rfl
    · exact iff_of_true h fun _ hnew => absurd (SortedMap.mem_of_find? hp) hnew
    · obtain ⟨hsound₁, hsub⟩ := hsound.dropIfOlder hloop
      obtain ⟨hsize, hiff⟩ := h.dropIfOlder hsound hloop
      have hchanges : Changes (.drop f) g g₁ := hsound.dropIfOlder_changes rfl hloop
      have hone₁ : g₁.toGameState.OneClient :=
        hchanges.induction (I := fun g => g.toGameState.OneClient)
          (fun _ _ _ hchange h => h.change (by simp) hchange) h
      rcases hend with ⟨hfull, rfl⟩ | ⟨hroom, hready⟩
      · exact iff_of_true hone₁ fun _ _ => Or.inl (hsize ▸ hfull)
      · have hnew₁ : msg.playerName ∉ g₁.players := fun hmem => hnew (hsub _ hmem)
        rw [((hsound₁.joined pf f hname hnew₁
            hroom).startGameIfReady_clients hready).1.oneClient_congr,
          oneClient_joined_iff hone₁ hnew₁, hiff]
        rw [hsize] at hroom
        exact ⟨fun halone _ _ => Or.inr halone,
          fun hjoins => (hjoins hname hnew).resolve_left hroom⟩

end GameState

namespace Server

theorem oneClient_dropSilent (pf : Platform D) {currentTime : ℤ} {fingerprints : List Fingerprint}
    {s s' : Server D} (hc : s.gameManager.Consistent) (h : s.gameManager.toGameState.OneClient)
    (hdrop : s.dropSilent currentTime fingerprints = .ok s') :
    s'.gameManager.Consistent ∧ s'.gameManager.toGameState.OneClient := by
  refine dropSilent_induction (P := fun t => t.gameManager.Consistent ∧
    t.gameManager.toGameState.OneClient) ?_ ⟨hc, h⟩ hdrop
  rintro t f gm ⟨hc, h⟩ hgm
  have hrun : t.gameManager.perform ((GameOp.drop f).run pf) = .ok gm := hgm
  obtain ⟨g, hg, -, heq⟩ := GameManager.perform_eq_ok.mp hgm
  obtain rfl := Except.ok.inj hg
  exact ⟨hc.run hrun, heq ▸ GameState.OneClient.dropConnection (g := ⟨_, []⟩) h f⟩

/-- The step of the server lets nobody become a second client of a socket: a message that is read
is from a sender that joins alone. -/
def Op.JoinsAlone (s : Server D) : Op → Prop
  | .read _ f _ datagram => ∀ msg,
    ClientToServerMessage.decode (datagram.take incomingMsgSize) = some msg →
      s.gameManager.toGameState.JoinsAlone f msg
  | _ => True

instance (s : Server D) : ∀ op : Op, Decidable (op.JoinsAlone s)
  | .read _ f _ datagram => inferInstanceAs (Decidable (∀ msg ∈
      ClientToServerMessage.decode (datagram.take incomingMsgSize),
        s.gameManager.toGameState.JoinsAlone f msg))
  | .tick _ _ => inferInstanceAs (Decidable True)
  | .send _ => inferInstanceAs (Decidable True)

/-- **One step of the server.** -/
theorem oneClient_step {pf : Platform D} {op : Op} {s s' : Server D}
    (hs : (serverMachine pf).Reachable s) (h : s.gameManager.toGameState.OneClient)
    (hstep : (serverMachine pf).step op s = .ok s') :
    s'.gameManager.toGameState.OneClient ↔ op.JoinsAlone s := by
  have hc := serverMachine_consistent hs
  cases op with
  | tick now order =>
    refine iff_of_true ?_ trivial
    obtain ⟨s₁, gm, hclean, hturn, rfl⟩ := tick_eq_ok hstep
    obtain ⟨s₂, hdrop, rfl⟩ := cleanupObsoleteConnections_eq_ok hclean
    obtain ⟨hc₂, h₂⟩ := oneClient_dropSilent pf hc h hdrop
    obtain ⟨g, hg, -, heq⟩ := GameManager.perform_eq_ok.mp hturn
    exact heq ▸ @GameState.OneClient.run _ pf .turn (by simp) ⟨_, []⟩ g hc₂.sound hg h₂
  | read now f addr datagram =>
    simp only [Op.JoinsAlone]
    rcases readMessageFromClient_eq_ok hstep with ⟨hnone, rfl⟩ | ⟨m, gm, hm, hmsg, rfl⟩
    · exact iff_of_true h fun msg hmsg => absurd (hnone.symm.trans hmsg) (by simp)
    · obtain ⟨g, hg, -, heq⟩ := GameManager.perform_eq_ok.mp hmsg
      have hiff := GameState.OneClient.message_iff (g := ⟨_, []⟩) h hc.sound hg
      rw [heq, hiff, hm]
      simp
  | send delivered =>
    refine iff_of_true ?_ trivial
    simp only [serverMachine, Server.step] at hstep
    split at hstep
    · obtain rfl : s = s' := Except.ok.inj hstep
      exact h
    · obtain ⟨gm, hsend, rfl⟩ := sendMessageToClient_eq_ok hstep
      rw [GameManager.toGameState_send hsend]
      exact h

end Server

/-- **The runs in which no socket is ever two clients**: those in which whoever joins joins
alone. -/
theorem oneClient_iff {pf : Platform D} {s t : Server D} {tr : List (Server D × Server.Op)}
    (hs : (serverMachine pf).init s) (hrun : (serverMachine pf).Run s tr t) :
    (∀ u ∈ Machine.visited tr t, u.gameManager.toGameState.OneClient) ↔
      ∀ x ∈ tr, x.2.JoinsAlone x.1 := by
  refine Machine.forall_visited_iff (P := fun u => u.gameManager.toGameState.OneClient)
    (C := fun op u => op.JoinsAlone u) (fun _ _ _ hu h hstep => Server.oneClient_step hu h hstep)
    (.init hs) ?_ hrun
  obtain ⟨config, unsetId, unsetAlive, rfl⟩ := hs
  exact ⟨fun f hf => absurd hf (SortedMap.not_mem_empty f), fun n n' p p' hp => by cases hp⟩

/-- Two players start a game, which a third socket watches. The fourth socket then joins, and the
second one leaves its player for a new one. -/
def joinedGame : List Server.Op :=
  [.said 0 1 1 .right 0 [97], .said 0 2 2 .right 0 [98], .said 10 3 3 .straight 0 [], .tick 20 [],
    .send true, .said 30 4 4 .left 0 [99], .said 40 2 7 .left 0 [100]]

/-- All of them join alone. -/
theorem oneClient_joined : ∃ tr t, (serverMachine fixedPoint).Run
      (.new (smallBoard 5 (by decide)) 0 0) tr t ∧ tr.map Prod.snd = joinedGame ∧
    t.gameManager.gameStarted = true ∧ t.gameManager.watchers.keys = [[3]] ∧
    (t.gameManager.players.entries.map fun x => (x.2.fingerprint, x.2.isDisconnected)) =
      [([1], false), ([2], true), ([4], false), ([2], false)] ∧
    ∀ u ∈ Machine.visited tr t, u.gameManager.toGameState.OneClient := by
  obtain ⟨tr, t, hrun, hops, hstarted, hwatchers, hplayers, halone⟩ := Machine.exists_run_of_any
    (M := serverMachine fixedPoint) (s := .new (smallBoard 5 (by decide)) 0 0)
    (P := fun tr t => t.gameManager.gameStarted = true ∧ t.gameManager.watchers.keys = [[3]] ∧
      (t.gameManager.players.entries.map fun x => (x.2.fingerprint, x.2.isDisconnected)) =
        [([1], false), ([2], true), ([4], false), ([2], false)] ∧ ∀ x ∈ tr, x.2.JoinsAlone x.1)
    joinedGame (by decide +kernel)
  exact ⟨tr, t, hrun, hops, hstarted, hwatchers, hplayers,
    (oneClient_iff ⟨_, 0, 0, rfl⟩ hrun).mpr halone⟩

/-- A socket that watches sends a message with a name and becomes a player as well. -/
theorem not_oneClient : ∃ s : Server ℤ, (serverMachine fixedPoint).Reachable s ∧
    ¬ s.gameManager.toGameState.OneClient := by
  obtain ⟨s, hs, hw, hp⟩ := exists_reachable
    (P := fun s => [1] ∈ s.gameManager.watchers ∧
      (s.gameManager.players.find? (letter 1 .straight 97).playerName).any
        (fun p => p.fingerprint = [1] ∧ p.isDisconnected = false) = true)
    (smallBoard 5 (by decide)) [.said 0 1 1 .straight 0 [], .said 0 1 1 .straight 0 [97]]
    (by decide +kernel)
  obtain ⟨p, hp, hboth⟩ := (Option.any_eq_true _ _).mp hp
  simp only [decide_eq_true_eq] at hboth
  refine ⟨s, hs, fun h => ?_⟩
  rw [h.watcher [1] hw _ p hp hboth.1] at hboth
  exact absurd hboth.2 (by decide)

end ScreenWorms
