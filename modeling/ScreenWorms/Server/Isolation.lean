import ScreenWorms.Server.Containers
import ScreenWorms.Server.Fairness
import ScreenWorms.Server.FixedPoint
import ScreenWorms.Server.ServerInvariant

/-!
# Clients that delay others

A client that has been sent the whole current game has to wait for the next one until every client
has been sent the current one. `getNextMessage` asks all positions at once whether that is so, and
while a game waits `ack` moves nobody: a client with something left to get keeps it, whether sends
to it succeed or not, and nobody gets to the next game. When nobody has anything left to get, the
next send makes the first waiting game the current one, and everybody is served from its start
within one round of the schedule. The games behind it do not come.

## Main definitions

* `MQManager.sendTo`, `SendsTo` — sends that succeed for reachable clients only
* `MQManager.ServedWithin` — a client gets the first events of a game

## Main results

* `SendsTo.gameId_eq` — as long as a game waits, all messages are of one game
* `servedWithin_schedule` — the next game comes within one round
* `servedWithin_iff` — when a waiting game gets to a client
-/

namespace ScreenWorms

open Machine MQManager

variable {D : Type}

/-! ## The queue on its own and in the server -/

theorem exec_map_call {mq' : MQManager} : ∀ {calls : List MQCall} {mq : MQManager},
    mq.execAll calls = .ok mq' → queueMachine.exec (calls.map .call) mq = .ok mq'
  | [], _, h => h
  | c :: calls, mq, h => by
    rw [execAll] at h
    rcases hc : mq.exec c with e | mq₁
    · rw [hc] at h
      exact absurd h (by simp)
    · rw [hc] at h
      exact exec_cons_eq_ok.mpr ⟨mq₁, hc, exec_map_call h⟩

/-- **What is done with a game manager is, on its queue, a series of the queue's operations.** -/
theorem manager_queue_simulation (pf : Platform D) :
    Simulation (managerMachine pf) queueMachine GameManager.mqManager where
  init gm hgm := by
    obtain ⟨_, _, _, _, unsetId, _, rfl⟩ := hgm
    exact ⟨unsetId, rfl⟩
  step gm op gm' hstep := by
    cases op with
    | op op =>
      obtain ⟨g, -, hcalls, -⟩ := GameManager.perform_eq_ok.mp hstep
      exact ⟨_, exec_map_call hcalls⟩
    | send delivered =>
      simp only [managerMachine] at hstep
      split at hstep
      · obtain rfl := Except.ok.inj hstep
        exact ⟨[], rfl⟩
      · obtain ⟨m, mq, hnext, -, hmq⟩ := GameManager.send_eq_ok hstep
        have hserve : queueMachine.exec [.getNextMessage] gm.mqManager = .ok mq :=
          exec_singleton (step_getNextMessage_eq_ok.mpr ⟨m, hnext⟩)
        rcases hmq with rfl | hack
        · exact ⟨_, hserve⟩
        · have hstep : queueMachine.step (.call (.ack m.fingerprint m.ackNumber)) mq =
              .ok gm'.mqManager := hack
          exact ⟨_, exec_append hserve hstep⟩

/-- The queue of a server is a queue on which operations are called in some order. -/
theorem reachable_mqManager {pf : Platform D} {s : Server D} (hs : (serverMachine pf).Reachable s) :
    queueMachine.Reachable s.gameManager.mqManager :=
  (manager_queue_simulation pf).reachable (reachable_gameManager hs)

/-! ## Sends to clients of which some are out of reach -/

namespace MQManager

variable {mq mq' : MQManager} {m : MessageAndRecipient} {client : Fingerprint}
  {reachable : Fingerprint → Bool}

/-- A send, which succeeds if its recipient can be reached. -/
def sendTo (reachable : Fingerprint → Bool) (mq : MQManager) :
    Except Fault (MessageAndRecipient × MQManager) :=
  match mq.getNextMessage with
  | .error e => .error e
  | .ok (m, mq') =>
    if reachable m.fingerprint then
      match mq'.ack m.fingerprint m.ackNumber with
      | .error e => .error e
      | .ok mq'' => .ok (m, mq'')
    else .ok (m, mq')

/-- What a send leaves: it takes the position of its recipient on, if no game waits and the
recipient can be reached. -/
structure Sent (mq : MQManager) (m : MessageAndRecipient) (mq' : MQManager) : Prop where
  getNextMessage : ∃ mq₁, mq.getNextMessage = .ok (m, mq₁) ∧
    mq'.clientsToServeSchedule = mq₁.clientsToServeSchedule
  currentGameEvents : mq'.currentGameEvents = mq.switchGame.currentGameEvents
  currentlyBroadcastedGameId :
    mq'.currentlyBroadcastedGameId = mq.switchGame.currentlyBroadcastedGameId
  nextGames : mq'.nextGames = mq.switchGame.nextGames
  keys : mq'.queues.keys = mq.queues.keys
  others : ∀ f ≠ m.fingerprint, mq'.queues.find? f = mq.switchGame.queues.find? f
  waiting : mq.switchGame.nextGames ≠ [] → mq'.queues = mq.switchGame.queues

theorem sent_of_sendTo (h : mq.sendTo reachable = .ok (m, mq')) : mq.Sent m mq' := by
  rw [sendTo] at h
  rcases hnext : mq.getNextMessage with e | ⟨m₁, mq₁⟩
  · rw [hnext] at h
    exact absurd h (by simp)
  · have hserve := hnext
    obtain ⟨_, _, _, -, hfind, -, -, -, rfl⟩ := serve_eq_ok hserve
    have hmem : m₁.fingerprint ∈ mq.switchGame.queues := SortedMap.mem_of_find? hfind
    rw [hnext] at h
    simp only at h
    split at h
    · rw [ack_of_mem (by exact hmem)] at h
      obtain ⟨rfl, rfl⟩ := Prod.mk.inj (Except.ok.inj h)
      refine ⟨⟨_, hnext, rfl⟩, rfl, rfl, rfl, ?_, fun f hf => ?_, fun hn => if_neg hn⟩
      · simp only
        split
        · rw [SortedMap.keys_set_of_mem hmem, keys_queues_switchGame]
        · exact keys_queues_switchGame mq
      · simp only
        split
        · rw [SortedMap.find?_set, if_neg hf]
        · rfl
    · obtain ⟨rfl, rfl⟩ := Prod.mk.inj (Except.ok.inj h)
      exact ⟨⟨_, hnext, rfl⟩, rfl, rfl, rfl, keys_queues_switchGame mq, fun _ _ => rfl, fun _ => rfl⟩

theorem exists_sendTo (reachable : Fingerprint → Bool)
    (hperm : mq.clientsToServeSchedule.Perm mq.queues.keys)
    (hunsent : mq.switchGame.HasUnsent client) : ∃ m mq', mq.sendTo reachable = .ok (m, mq') := by
  obtain ⟨m, mq₁, hnext⟩ := exists_getNextMessage hperm hunsent
  have hserve := hnext
  obtain ⟨_, _, _, -, hfind, -, -, -, rfl⟩ := serve_eq_ok hserve
  have hmem : m.fingerprint ∈ mq.switchGame.queues := SortedMap.mem_of_find? hfind
  simp only [sendTo, hnext]
  split
  · rw [ack_of_mem (by exact hmem)]
    exact ⟨_, _, rfl⟩
  · exact ⟨_, _, rfl⟩

/-- Nothing is switched while somebody has something to get. -/
theorem HasUnsent.switchGame_eq (h : mq.HasUnsent client) : mq.switchGame = mq := by
  obtain ⟨pos, hfind, hlt⟩ := h
  rw [switchGame, if_pos (hasPending_iff.mpr ⟨client, pos, hfind, hlt⟩)]

theorem HasUnsent.isEmpty_eq_false (h : mq.switchGame.HasUnsent client) : mq.isEmpty = false := by
  cases hp : mq.hasPendingMessagesForCurrentGame with
  | true => simp [isEmpty, hp]
  | false =>
    cases hn : mq.nextGames with
    | cons game rest => simp [isEmpty, hn]
    | nil =>
      obtain ⟨pos, hfind, hlt⟩ := h
      rw [switchGame_of_not_switches (by simp [switches, hn])] at hfind hlt
      rw [hasPending_iff.mpr ⟨client, pos, hfind, hlt⟩] at hp
      exact absurd hp (by simp)

end MQManager

/-- Sends, one after the other, as long as the queue is not empty. -/
inductive SendsTo (reachable : Fingerprint → Bool) :
    MQManager → List MessageAndRecipient → MQManager → Prop
  | nil (mq : MQManager) : SendsTo reachable mq [] mq
  | cons {mq mq₁ mq₂ : MQManager} {m : MessageAndRecipient} {ms : List MessageAndRecipient} :
    mq.isEmpty = false → mq.sendTo reachable = .ok (m, mq₁) → SendsTo reachable mq₁ ms mq₂ →
    SendsTo reachable mq (m :: ms) mq₂

/-- One of the first `bound` sends has the client as its recipient, and the first events of the
game. -/
def MQManager.ServedWithin (reachable : Fingerprint → Bool) (client : Fingerprint)
    (game : ℕ × List GameEventVariant) (bound : ℕ) (mq : MQManager) : Prop :=
  ∃ ms m mq', SendsTo reachable mq (ms ++ [m]) mq' ∧ ms.length < bound ∧ m.fingerprint = client ∧
    m.msg = ⟨game.1, pickEvents 4 (numbered game.2)⟩

variable {mq mq' : MQManager} {client : Fingerprint} {reachable : Fingerprint → Bool}
  {game : ℕ × List GameEventVariant}

/-- **As long as a game waits, all messages are of one game.** -/
theorem SendsTo.gameId_eq {ms : List MessageAndRecipient} (h : SendsTo reachable mq ms mq')
    (hn : mq.switchGame.nextGames ≠ [])
    (hp : mq.switchGame.hasPendingMessagesForCurrentGame = true) :
    ∀ m ∈ ms, m.msg.gameId = mq.switchGame.currentlyBroadcastedGameId := by
  induction h with
  | nil => exact fun m hm => absurd hm List.not_mem_nil
  | @cons mq mq₁ mq₂ m ms _ hsend _ ih =>
    have hsent := sent_of_sendTo hsend
    have hp₁ : mq₁.hasPendingMessagesForCurrentGame = true := by
      rw [hasPendingMessagesForCurrentGame, hsent.waiting hn, hsent.currentGameEvents]
      exact hp
    have hswitch : mq₁.switchGame = mq₁ := by rw [switchGame, if_pos hp₁]
    rw [hswitch, hsent.nextGames, hsent.currentlyBroadcastedGameId] at ih
    obtain ⟨_, hnext, -⟩ := hsent.getNextMessage
    obtain ⟨_, _, _, -, -, -, hmsg, -⟩ := serve_eq_ok hnext
    intro m' hm'
    rcases List.mem_cons.mp hm' with rfl | hm'
    · rw [hmsg]
    · exact ih hn hp₁ m' hm'

/-- **The sends come to every client** that has a whole game to get, within its place in the
schedule, whoever else can be reached. -/
theorem exists_sendsTo (reachable : Fingerprint → Bool) : ∀ {n : ℕ} {mq : MQManager},
    mq.clientsToServeSchedule.idxOf client = n →
    mq.clientsToServeSchedule.Perm mq.queues.keys →
    mq.switchGame.queues.find? client = some 0 → mq.switchGame.currentGameEvents ≠ [] →
    ∃ ms m mq', SendsTo reachable mq (ms ++ [m]) mq' ∧ ms.length ≤ n ∧ m.fingerprint = client ∧
      m.msg = ⟨mq.switchGame.currentlyBroadcastedGameId,
        pickEvents 4 mq.switchGame.currentGameEvents⟩ := by
  intro n
  induction n using Nat.strong_induction_on with
  | _ n ih =>
    intro mq hplace hperm hfind hne
    have hunsent : mq.switchGame.HasUnsent client := ⟨0, hfind, List.length_pos_iff.mpr hne⟩
    have hmem : client ∈ mq.clientsToServeSchedule :=
      hperm.mem_iff.mpr (mem_queues_switchGame.mp (SortedMap.mem_of_find? hfind))
    obtain ⟨m, mq₁, hsend⟩ := exists_sendTo reachable hperm hunsent
    have hsent := sent_of_sendTo hsend
    obtain ⟨mq₂, hnext, hsched⟩ := hsent.getNextMessage
    by_cases hclient : m.fingerprint = client
    · obtain ⟨_, _, pos, -, hfind', -, hmsg, -, -⟩ := serve_eq_ok hnext
      rw [hclient, hfind] at hfind'
      obtain rfl : 0 = pos := Option.some.inj hfind'
      exact ⟨[], m, mq₁, .cons hunsent.isEmpty_eq_false hsend (.nil mq₁), Nat.zero_le n, hclient,
        hmsg⟩
    · have hlt := getNextMessage_lowers hmem hunsent hnext hclient
      have hfind₁ : mq₁.queues.find? client = some 0 :=
        (hsent.others client (Ne.symm hclient)).trans hfind
      have hne₁ : mq₁.currentGameEvents ≠ [] := hsent.currentGameEvents ▸ hne
      have hswitch : mq₁.switchGame = mq₁ :=
        HasUnsent.switchGame_eq ⟨0, hfind₁, List.length_pos_iff.mpr hne₁⟩
      have hperm₁ : mq₁.clientsToServeSchedule.Perm mq₁.queues.keys := by
        have hrotated := schedule_perm_serve hnext
        rw [clientsToServeSchedule_switchGame] at hrotated
        rw [hsched, hsent.keys]
        exact hrotated.trans hperm
      obtain ⟨ms, m', mq', hsends, hlength, hrecipient, hmsg⟩ := ih _ (by rw [hsched]; omega) rfl
        hperm₁ (by rw [hswitch]; exact hfind₁) (by rw [hswitch]; exact hne₁)
      rw [hswitch, hsent.currentlyBroadcastedGameId, hsent.currentGameEvents] at hmsg
      refine ⟨m :: ms, m', mq', .cons hunsent.isEmpty_eq_false hsend hsends, ?_, hrecipient, hmsg⟩
      rw [hsched] at hlength
      rw [List.length_cons]
      omega

/-- **The next game comes within one round** of the schedule, once nobody has anything left to get
of the current one. -/
theorem servedWithin_schedule (reachable : Fingerprint → Bool) (hwf : mq.WellFormed)
    (hq : client ∈ mq.queues) (hp : mq.hasPendingMessagesForCurrentGame = false)
    (hgame : mq.nextGames.head? = some game) :
    mq.ServedWithin reachable client game mq.clientsToServeSchedule.length := by
  obtain ⟨rest, hn⟩ := List.head?_eq_some_iff.mp hgame
  have hswitches : mq.switches = true := by simp [switches, hp, hn]
  obtain ⟨game', rest', hn', hswitch⟩ := switchGame_of_switches hswitches
  obtain ⟨rfl, rfl⟩ := List.cons.inj (hn.symm.trans hn')
  obtain ⟨pos, hpos⟩ := SortedMap.mem_iff_find?.mp hq
  have hfind : mq.switchGame.queues.find? client = some 0 := by
    rw [hswitch]
    simp [hpos]
  have hne : mq.switchGame.currentGameEvents ≠ [] := by
    rw [hswitch, ← List.length_pos_iff]
    simpa using List.length_pos_iff.mpr (hwf.nextGames_ne_nil game (hn ▸ List.mem_cons_self))
  obtain ⟨ms, m, mq', hsends, hlength, hrecipient, hmsg⟩ :=
    exists_sendsTo reachable rfl hwf.schedule_perm hfind hne
  refine ⟨ms, m, mq', hsends, hlength.trans_lt ?_, hrecipient, ?_⟩
  · exact List.idxOf_lt_length_of_mem (hwf.mem_schedule.mpr hq)
  · rw [hmsg, hswitch]

/-- **When a waiting game gets to a client**: if it is the first that waits, and nobody has anything
left to get of the current game. -/
theorem servedWithin_iff (hmq : queueMachine.Reachable mq) (hq : client ∈ mq.queues)
    (hgame : game ∈ mq.nextGames) (reachable : Fingerprint → Bool) :
    (∃ bound, mq.ServedWithin reachable client game bound) ↔
      mq.hasPendingMessagesForCurrentGame = false ∧ mq.nextGames.head? = some game := by
  obtain ⟨hwf, hids, -⟩ := queueMachine_invariant.reachable hmq
  constructor
  · rintro ⟨bound, ms, m, mq', hsends, -, -, hmsg⟩
    by_contra hnot
    -- in either case the game still waits after the switch, and the current one does not go
    have hstill : game ∈ mq.switchGame.nextGames ∧
        mq.switchGame.hasPendingMessagesForCurrentGame = true := by
      cases hp : mq.hasPendingMessagesForCurrentGame with
      | true =>
        rw [switchGame, if_pos hp]
        exact ⟨hgame, hp⟩
      | false =>
        have hne : mq.isEmpty = false := by simp [isEmpty, List.ne_nil_of_mem hgame]
        refine ⟨?_, hwf.hasPending_switchGame hne hq⟩
        have hswitches : mq.switches = true := by simp [switches, hp, List.ne_nil_of_mem hgame]
        obtain ⟨first, rest, hn, hswitch⟩ := switchGame_of_switches hswitches
        rw [hswitch]
        refine (List.mem_cons.mp (hn ▸ hgame)).resolve_left fun he => hnot ⟨hp, ?_⟩
        rw [hn, he]
        rfl
    obtain ⟨hwaits, hp⟩ := hstill
    have hid := hsends.gameId_eq (List.ne_nil_of_mem hwaits) hp m (by simp)
    rw [hmsg] at hid
    have hids' := (List.nodup_cons.mp hids.switchGame).1
    exact hids' (hid ▸ List.mem_map.mpr ⟨game, hwaits, rfl⟩)
  · rintro ⟨hp, hhead⟩
    exact ⟨_, servedWithin_schedule reachable hwf hq hp hhead⟩

/-- Two players start a game. The one that can be reached gets its first events. -/
theorem servedWithin_two : ∃ s : Server ℤ, (serverMachine fixedPoint).Reachable s ∧
    ∃ game ∈ s.gameManager.mqManager.nextGames, ∃ bound,
      s.gameManager.mqManager.ServedWithin (fun f => f ≠ [2]) [1] game bound := by
  obtain ⟨s, hs, hq, hp, hn⟩ := exists_reachable
    (P := fun s => [1] ∈ s.gameManager.mqManager.queues ∧
      s.gameManager.mqManager.hasPendingMessagesForCurrentGame = false ∧
      s.gameManager.mqManager.nextGames ≠ [])
    (smallBoard 5 (by decide)) [.said 0 1 1 .right 0 [97], .said 0 2 1 .right 0 [98]]
    (by decide +kernel)
  obtain ⟨game, rest, hgames⟩ := List.exists_cons_of_ne_nil hn
  have hgame : game ∈ s.gameManager.mqManager.nextGames := by
    rw [hgames]
    exact List.mem_cons_self
  refine ⟨s, hs, game, hgame, ?_⟩
  refine (servedWithin_iff (reachable_mqManager hs) hq hgame _).mpr ⟨hp, ?_⟩
  rw [hgames]
  rfl

/-- Both worms of the first game start on one pixel, so it is over at once. The first player gets
all of it, while nothing gets to the second one. Both ask for another game, and it never comes to
the first player. -/
theorem not_servedWithin : ∃ s : Server ℤ, (serverMachine fixedPoint).Reachable s ∧
    ∃ pos, s.gameManager.mqManager.queues.find? [1] = some pos ∧
      s.gameManager.mqManager.currentGameEvents.length ≤ pos ∧
      ∃ game ∈ s.gameManager.mqManager.nextGames,
        ¬∃ bound, s.gameManager.mqManager.ServedWithin (fun f => f ≠ [2]) [1] game bound := by
  obtain ⟨s, hs, hq, hlog, hp, hn⟩ := exists_reachable
    (P := fun s => s.gameManager.mqManager.queues.find? [1] = some 4 ∧
      s.gameManager.mqManager.currentGameEvents.length = 4 ∧
      s.gameManager.mqManager.hasPendingMessagesForCurrentGame = true ∧
      s.gameManager.mqManager.nextGames ≠ [])
    (smallBoard 135 (by decide))
    [.said 0 1 1 .right 0 [97], .said 0 2 1 .right 0 [98], .send true, .send false,
      .said 0 1 1 .right 4 [97], .said 0 2 1 .right 0 [98]]
    (by decide +kernel)
  obtain ⟨game, rest, hgames⟩ := List.exists_cons_of_ne_nil hn
  have hgame : game ∈ s.gameManager.mqManager.nextGames := by
    rw [hgames]
    exact List.mem_cons_self
  refine ⟨s, hs, 4, hq, hlog.le, game, hgame, fun hserved => ?_⟩
  have hclaim := (servedWithin_iff (reachable_mqManager hs) (SortedMap.mem_of_find? hq) hgame _).mp
    hserved
  rw [hp] at hclaim
  exact absurd hclaim.1 (by simp)

end ScreenWorms
