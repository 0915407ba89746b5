import ScreenWorms.Server.FixedPoint
import ScreenWorms.Server.ServerInvariant

/-!
# Clients that leave

`dropConnection` removes one client of a socket: its watcher, or else the first of its players. In
the lobby that player is erased and nobody is ready any more, which is more than the leaving of one
client should do to the others; `dropConnection_leavesOthers_iff` says when it does no harm.

`cleanupObsoleteConnections` drops every socket that was silent for too long, once, and then forgets
when it was heard of. A socket that is two clients keeps one of them; `cleanup_noSilentClient_iff`
says when nobody stays that has been silent.

## Main definitions

* `GameManager.LeavesOthers` — what a client that leaves should not touch
* `Server.HeardWithin`, `Server.NoSilentClient`
* `Server.Drops` — the client that dropping a socket would remove

## Main results

* `GameManager.dropConnection_of_watcher`, `GameManager.dropConnection_of_running`,
  `GameManager.dropConnection_of_lobby` — what dropping a socket does
* `dropConnection_leavesOthers_iff`
* `cleanup_noSilentClient_iff`
-/

namespace ScreenWorms

variable {D : Type}

open GameTask MQManager

/-! ## Queues -/

theorem MQManager.WellFormed.dropQueue_of_not_mem {mq : MQManager} (h : mq.WellFormed)
    {f : Fingerprint} (hq : f ∉ mq.queues) : mq.dropQueue f = mq := by
  have hsched : f ∉ mq.clientsToServeSchedule := fun hmem => hq (h.mem_schedule.mp hmem)
  rw [MQManager.dropQueue, SortedMap.erase_of_not_mem hq, List.erase_of_not_mem hsched]

/-- Dropping a queue twice is dropping it once. -/
theorem MQManager.WellFormed.dropQueue_dropQueue {mq : MQManager} (h : mq.WellFormed)
    (f : Fingerprint) : (mq.dropQueue f).dropQueue f = mq.dropQueue f :=
  (h.dropQueue f).dropQueue_of_not_mem fun hq => (SortedMap.mem_erase.mp hq).1 rfl

theorem MQManager.WellFormed.execAll_replicate_dropQueue {f : Fingerprint} :
    ∀ {k : ℕ} {mq : MQManager}, mq.WellFormed →
      mq.execAll (List.replicate k (.dropQueue f)) = .ok (if k = 0 then mq else mq.dropQueue f)
  | 0, _, _ => rfl
  | k + 1, mq, h => by
    rw [List.replicate_succ, MQManager.execAll, MQManager.exec, if_neg (Nat.succ_ne_zero k)]
    show (mq.dropQueue f).execAll (List.replicate k (.dropQueue f)) = _
    rw [(h.dropQueue f).execAll_replicate_dropQueue, h.dropQueue_dropQueue, ite_self]

/-! ## The players that stay -/

namespace GameTask

variable {f : Fingerprint} {players : SortedMap PlayerName (Player D)}

/-- Marking the first player of a socket costs no queue but that of the socket. -/
theorem droppedQueues_markDisconnected
    (hall : ∀ n p, players.find? n = some p → p.isDisconnected = false) :
    ∃ k, droppedQueues (markDisconnected f players) = List.replicate k (.dropQueue f) := by
  refine ⟨_, List.eq_replicate_iff.mpr ⟨rfl, fun c hc => ?_⟩⟩
  obtain ⟨n, p, hp, hd, rfl⟩ := mem_droppedQueues.mp hc
  obtain ⟨q, hq, rfl⟩ := find?_markDisconnected_eq_some.mp hp
  split at hd
  · rename_i hfirst
    obtain ⟨⟨n', q'⟩, hq', rfl⟩ := Option.map_eq_some_iff.mp hfirst
    obtain ⟨hfind, hf⟩ := firstPlayerOf_eq_some hq'
    obtain rfl := Option.some.inj (hq.symm.trans hfind)
    rw [if_pos hfirst]
    exact congrArg MQCall.dropQueue hf
  · exact absurd (hall n q hq) (by simp [hd])

/-- In the lobby, dropping a socket erases its first player and makes the others wait again. -/
theorem find?_staying_markDisconnected
    (hall : ∀ n p, players.find? n = some p → p.isDisconnected = false) {n : PlayerName}
    (hn : (firstPlayerOf f players).map Prod.fst ≠ some n) :
    (staying (markDisconnected f players)).find? n =
      (players.find? n).map fun p => { p with isReadyToPlay := false } := by
  ext r
  rw [find?_staying, Option.map_eq_some_iff]
  constructor
  · rintro ⟨q, hq, -, rfl⟩
    obtain ⟨p, hp, rfl⟩ := find?_markDisconnected_eq_some.mp hq
    rw [if_neg hn]
    exact ⟨p, hp, rfl⟩
  · rintro ⟨p, hp, rfl⟩
    refine ⟨p, find?_markDisconnected_eq_some.mpr ⟨p, hp, ?_⟩, hall n p hp, rfl⟩
    rw [if_neg hn]

theorem firstPlayerOf_ne {n : PlayerName} {p : Player D} (hp : players.find? n = some p)
    (hf : p.fingerprint ≠ f) : (firstPlayerOf f players).map Prod.fst ≠ some n := by
  intro h
  obtain ⟨⟨n', q⟩, hq, rfl⟩ := Option.map_eq_some_iff.mp h
  obtain ⟨hfind, hqf⟩ := firstPlayerOf_eq_some hq
  obtain rfl := Option.some.inj (hp.symm.trans hfind)
  exact hf hqf

end GameTask

/-! ## Dropping one socket -/

namespace GameManager

variable {f : Fingerprint} {gm gm' : GameManager D}

theorem dropConnection_of_task {g : GameTask D} {mq : MQManager}
    (hg : GameTask.dropConnection f ⟨gm.toGameState, []⟩ = g)
    (hcalls : gm.mqManager.execAll g.calls = .ok mq) :
    gm.dropConnection f = .ok ⟨g.toGameState, mq⟩ :=
  perform_eq_ok.mpr ⟨g, congrArg Except.ok hg, hcalls, rfl⟩

theorem dropConnection_of_watcher (hw : f ∈ gm.watchers) : gm.dropConnection f =
    .ok { gm with
      watchers := gm.watchers.erase f
      mqManager := gm.mqManager.dropQueue f } :=
  dropConnection_of_task
    (GameTask.dropConnection_of_watcher (g := ⟨gm.toGameState, []⟩) hw) rfl

theorem dropConnection_of_running (hw : f ∉ gm.watchers) (hs : gm.gameStarted = true) :
    gm.dropConnection f = .ok { gm with
      players := markDisconnected f gm.players
      mqManager := gm.mqManager.dropQueue f } :=
  dropConnection_of_task
    (GameTask.dropConnection_of_running (g := ⟨gm.toGameState, []⟩) hw hs) rfl

theorem dropConnection_of_lobby (hgm : gm.Consistent) (hw : f ∉ gm.watchers)
    (hs : gm.gameStarted = false) : gm.dropConnection f = .ok { gm with
      players := staying (markDisconnected f gm.players)
      mqManager := gm.mqManager.dropQueue f } := by
  refine dropConnection_of_task
    (GameTask.dropConnection_of_lobby (g := ⟨gm.toGameState, []⟩) hw hs) ?_
  obtain ⟨k, hk⟩ := droppedQueues_markDisconnected (f := f) (hgm.sound.lobby_connected hs)
  have hcalls := hgm.wellFormed.execAll_replicate_dropQueue (f := f) (k := k + 1)
  rw [if_neg (Nat.succ_ne_zero k), List.replicate_succ, ← hk] at hcalls
  exact hcalls

/-- The client that dropping a socket would remove is this player: the socket does not watch, and
this is its first player. -/
def Drops (f : Fingerprint) (n : PlayerName) (gm : GameManager D) : Prop :=
  f ∉ gm.watchers ∧ (firstPlayerOf f gm.players).map Prod.fst = some n

/-- What dropping a socket leaves of a player. -/
theorem find?_of_drop (hgm : gm.Consistent) (h : gm.dropConnection f = .ok gm') {n : PlayerName}
    {q : Player D} (hq : gm'.players.find? n = some q) : ∃ p, gm.players.find? n = some p ∧
      q.fingerprint = p.fingerprint ∧ q.sessionId = p.sessionId ∧
      (q.isDisconnected = false ↔ p.isDisconnected = false ∧ ¬gm.Drops f n) := by
  by_cases hw : f ∈ gm.watchers
  · rw [dropConnection_of_watcher hw] at h
    obtain rfl := Except.ok.inj h
    exact ⟨q, hq, rfl, rfl, (and_iff_left fun hdrops => hdrops.1 hw).symm⟩
  · have hmarked : ∀ r, (markDisconnected f gm.players).find? n = some r →
        ∃ p, gm.players.find? n = some p ∧ r.fingerprint = p.fingerprint ∧
          r.sessionId = p.sessionId ∧
          (r.isDisconnected = false ↔ p.isDisconnected = false ∧ ¬gm.Drops f n) := by
      intro r hr
      obtain ⟨p, hp, rfl⟩ := find?_markDisconnected_eq_some.mp hr
      refine ⟨p, hp, ?_⟩
      split
      · rename_i hfirst
        exact ⟨rfl, rfl, iff_of_false (by simp) fun h => h.2 ⟨hw, hfirst⟩⟩
      · rename_i hfirst
        exact ⟨rfl, rfl, (and_iff_left fun hdrops => hfirst hdrops.2).symm⟩
    rcases hs : gm.gameStarted with _ | _
    · rw [dropConnection_of_lobby hgm hw hs] at h
      obtain rfl := Except.ok.inj h
      obtain ⟨r, hr, -, rfl⟩ := find?_staying.mp hq
      exact hmarked r hr
    · rw [dropConnection_of_running hw hs] at h
      obtain rfl := Except.ok.inj h
      exact hmarked q hq

/-- Only the player that is dropped may lose its entry. -/
theorem mem_players_of_drop (hgm : gm.Consistent) (h : gm.dropConnection f = .ok gm')
    {n : PlayerName} (hn : n ∈ gm.players) (hnot : ¬gm.Drops f n) : n ∈ gm'.players := by
  by_cases hw : f ∈ gm.watchers
  · rw [dropConnection_of_watcher hw] at h
    obtain rfl := Except.ok.inj h
    exact hn
  · rcases hs : gm.gameStarted with _ | _
    · rw [dropConnection_of_lobby hgm hw hs] at h
      obtain rfl := Except.ok.inj h
      obtain ⟨p, hp⟩ := SortedMap.mem_iff_find?.mp hn
      refine SortedMap.mem_iff_find?.mpr ⟨{ p with isReadyToPlay := false }, ?_⟩
      show (staying (markDisconnected f gm.players)).find? n = _
      rw [find?_staying_markDisconnected (hgm.sound.lobby_connected hs)
        fun hfirst => hnot ⟨hw, hfirst⟩, hp]
      rfl
    · rw [dropConnection_of_running hw hs] at h
      obtain rfl := Except.ok.inj h
      exact mem_markDisconnected.mpr hn

theorem mem_watchers_of_drop (hgm : gm.Consistent) (h : gm.dropConnection f = .ok gm')
    {f' : Fingerprint} : f' ∈ gm'.watchers ↔ f' ≠ f ∧ f' ∈ gm.watchers := by
  by_cases hw : f ∈ gm.watchers
  · rw [dropConnection_of_watcher hw] at h
    obtain rfl := Except.ok.inj h
    exact SortedMap.mem_erase
  · have hsame : gm'.watchers = gm.watchers := by
      rcases hs : gm.gameStarted with _ | _
      · rw [dropConnection_of_lobby hgm hw hs] at h
        obtain rfl := Except.ok.inj h
        rfl
      · rw [dropConnection_of_running hw hs] at h
        obtain rfl := Except.ok.inj h
        rfl
    rw [hsame]
    exact (and_iff_right_of_imp fun hmem => ne_of_mem_of_not_mem hmem hw).symm

/-- A dropped socket does not watch. -/
theorem not_mem_watchers_of_drop (hgm : gm.Consistent) (h : gm.dropConnection f = .ok gm') :
    f ∉ gm'.watchers := fun hmem => ((mem_watchers_of_drop hgm h).mp hmem).1 rfl

/-- What the leaving of a client should not touch: the players, the watchers and the queues of the
other sockets, and the order in which they are served. -/
structure LeavesOthers (f : Fingerprint) (gm gm' : GameManager D) : Prop where
  players : ∀ n p, gm.players.find? n = some p → p.fingerprint ≠ f → gm'.players.find? n = some p
  watchers : ∀ f', f' ≠ f → gm'.watchers.find? f' = gm.watchers.find? f'
  queues : ∀ f', f' ≠ f → gm'.mqManager.queues.find? f' = gm.mqManager.queues.find? f'
  schedule : gm'.mqManager.clientsToServeSchedule = gm.mqManager.clientsToServeSchedule.erase f

end GameManager

/-- **When a client leaves the lobby without a trace**: it watches, or nobody else is ready. -/
theorem dropConnection_leavesOthers_iff {pf : Platform D} {gm : GameManager D}
    (hgm : (managerMachine pf).Reachable gm) (hs : gm.gameStarted = false) (f : Fingerprint) :
    (∃ gm', gm.dropConnection f = .ok gm' ∧ gm.LeavesOthers f gm') ↔
      f ∈ gm.watchers ∨ ∀ n p, gm.players.find? n = some p → p.fingerprint ≠ f →
        p.isReadyToPlay = false := by
  have hconsistent := (managerMachine_consistent pf).reachable hgm
  have hqueues : ∀ f', f' ≠ f → (gm.mqManager.queues.erase f).find? f' =
      gm.mqManager.queues.find? f' := fun f' hne => by rw [SortedMap.find?_erase, if_neg hne]
  by_cases hw : f ∈ gm.watchers
  · refine iff_of_true ⟨_, GameManager.dropConnection_of_watcher hw, ?_⟩ (Or.inl hw)
    exact ⟨fun n p hp _ => hp, fun f' hne => by simp only [SortedMap.find?_erase, if_neg hne],
      hqueues, rfl⟩
  · rw [or_iff_right hw, GameManager.dropConnection_of_lobby hconsistent hw hs]
    simp only [Except.ok.injEq, exists_eq_left']
    constructor
    · intro h n p hp hf
      obtain ⟨q, -, -, rfl⟩ := find?_staying.mp (h.players n p hp hf)
      rfl
    · intro hready
      refine ⟨fun n p hp hf => ?_, fun _ _ => rfl, hqueues, rfl⟩
      show (staying (markDisconnected f gm.players)).find? n = some p
      rw [find?_staying_markDisconnected (hconsistent.sound.lobby_connected hs)
        (firstPlayerOf_ne hp hf), hp, Option.map_some, ← hready n p hp hf]

/-- Player `a` is ready, `b` is not. When socket 3, which nobody has heard of, is dropped, `a` is
not ready any more. -/
theorem not_dropConnection_leavesOthers : ∃ s : Server ℤ, (serverMachine fixedPoint).Reachable s ∧
    s.gameManager.gameStarted = false ∧
    ¬∃ gm, s.gameManager.dropConnection [3] = .ok gm ∧ s.gameManager.LeavesOthers [3] gm := by
  obtain ⟨s, hs, hlobby, hp, hdropped⟩ := exists_reachable
    (P := fun s => s.gameManager.gameStarted = false ∧
      (s.gameManager.players.find? (letter 1 .right 97).playerName).any
        (fun p => p.fingerprint = [1] ∧ p.isReadyToPlay = true) = true ∧
      (s.gameManager.dropConnection [3]).toOption.all (fun gm =>
        (gm.players.find? (letter 1 .right 97).playerName).map Player.isReadyToPlay =
          some false) = true)
    (smallBoard 5 (by decide)) [.said 0 1 1 .right 0 [97], .said 0 2 1 .straight 0 [98]]
    (by decide +kernel)
  obtain ⟨p, hp, hall⟩ := (Option.any_eq_true _ _).mp hp
  obtain ⟨hf, hready⟩ := of_decide_eq_true hall
  refine ⟨s, hs, hlobby, ?_⟩
  rintro ⟨gm, hgm, hleaves⟩
  rw [hgm] at hdropped
  have hwaits := of_decide_eq_true (show decide _ = true from hdropped)
  rw [hleaves.players _ p hp (by rw [hf]; decide), Option.map_some, hready] at hwaits
  cases hwaits

/-- A watcher leaves. -/
theorem dropConnection_leavesOthers_watcher : ∃ s : Server ℤ,
    (serverMachine fixedPoint).Reachable s ∧
    ∃ gm, s.gameManager.dropConnection [3] = .ok gm ∧ s.gameManager.LeavesOthers [3] gm := by
  obtain ⟨s, hs, hlobby, hw⟩ := exists_reachable
    (P := fun s => s.gameManager.gameStarted = false ∧ [3] ∈ s.gameManager.watchers)
    (smallBoard 5 (by decide)) [.said 0 1 1 .right 0 [97], .said 0 3 1 .straight 0 []]
    (by decide +kernel)
  exact ⟨s, hs, (dropConnection_leavesOthers_iff (reachable_gameManager hs) hlobby [3]).mpr
    (Or.inl hw)⟩

/-! ## Dropping every silent socket -/

theorem GameManager.Consistent.exists_drop {gm : GameManager D} (hgm : gm.Consistent)
    (f : Fingerprint) : ∃ gm', gm.dropConnection f = .ok gm' := by
  by_cases hw : f ∈ gm.watchers
  · exact ⟨_, GameManager.dropConnection_of_watcher hw⟩
  · rcases hs : gm.gameStarted with _ | _
    · exact ⟨_, GameManager.dropConnection_of_lobby hgm hw hs⟩
    · exact ⟨_, GameManager.dropConnection_of_running hw hs⟩

theorem GameManager.Consistent.drop (pf : Platform D) {f : Fingerprint} {gm gm' : GameManager D}
    (hgm : gm.Consistent) (h : gm.dropConnection f = .ok gm') : gm'.Consistent :=
  hgm.run (show gm.perform ((GameOp.drop f).run pf) = .ok gm' from h)

namespace GameTask

/-- The first player of a socket depends on the entries of its players only. -/
theorem firstPlayerOf_congr {players players' : SortedMap PlayerName (Player D)} {f : Fingerprint}
    (h : ∀ n, (∃ p, players.find? n = some p ∧ p.fingerprint = f) ↔
      ∃ p, players'.find? n = some p ∧ p.fingerprint = f) :
    (firstPlayerOf f players).map Prod.fst = (firstPlayerOf f players').map Prod.fst := by
  rcases hfirst : firstPlayerOf f players with _ | ⟨n, p⟩
  · have hnone := firstPlayerOf_eq_none.mp hfirst
    have hnone' : firstPlayerOf f players' = none := firstPlayerOf_eq_none.mpr fun n p hp hf => by
      obtain ⟨q, hq, hqf⟩ := (h n).mpr ⟨p, hp, hf⟩
      exact hnone n q hq hqf
    rw [hnone']
  · obtain ⟨q, hq, hqf⟩ := (h n).mp ⟨p, firstPlayerOf_eq_some hfirst⟩
    obtain ⟨n', p', hfirst'⟩ := exists_firstPlayerOf hq hqf
    obtain ⟨q', hq', hqf'⟩ := (h n').mpr ⟨p', firstPlayerOf_eq_some hfirst'⟩
    have hle := firstPlayerOf_le hfirst hq' hqf'
    have hge := firstPlayerOf_le hfirst' hq hqf
    rw [hfirst', Option.map_some, Option.map_some, le_antisymm hle hge]

end GameTask

namespace GameManager

variable {f f' : Fingerprint} {n : PlayerName} {gm gm' : GameManager D}

/-- A player of a socket that is not marked as disconnected. -/
def Connected (n : PlayerName) (f : Fingerprint) (gm : GameManager D) : Prop :=
  ∃ p, gm.players.find? n = some p ∧ p.fingerprint = f ∧ p.isDisconnected = false

theorem Drops.fingerprint (h : gm.Drops f n) {p : Player D} (hp : gm.players.find? n = some p) :
    p.fingerprint = f := by
  by_contra hf
  exact firstPlayerOf_ne hp hf h.2

theorem connected_of_drop (hgm : gm.Consistent) (h : gm.dropConnection f = .ok gm') :
    gm'.Connected n f' ↔ gm.Connected n f' ∧ ¬gm.Drops f n := by
  constructor
  · rintro ⟨q, hq, hf, hd⟩
    obtain ⟨p, hp, hpf, -, hiff⟩ := find?_of_drop hgm h hq
    obtain ⟨hpd, hnot⟩ := hiff.mp hd
    exact ⟨⟨p, hp, hpf.symm.trans hf, hpd⟩, hnot⟩
  · rintro ⟨⟨p, hp, hf, hd⟩, hnot⟩
    obtain ⟨q, hq⟩ := SortedMap.mem_iff_find?.mp
      (mem_players_of_drop hgm h (SortedMap.mem_of_find? hp) hnot)
    obtain ⟨p', hp', hpf, -, hiff⟩ := find?_of_drop hgm h hq
    obtain rfl := Option.some.inj (hp.symm.trans hp')
    exact ⟨q, hq, hpf.trans hf, hiff.mpr ⟨hd, hnot⟩⟩

/-- Dropping a socket does not change whom dropping another one would remove. -/
theorem drops_of_drop (hgm : gm.Consistent) (h : gm.dropConnection f = .ok gm') (hne : f' ≠ f) :
    gm'.Drops f' n ↔ gm.Drops f' n := by
  have hfirst : (firstPlayerOf f' gm'.players).map Prod.fst =
      (firstPlayerOf f' gm.players).map Prod.fst := by
    refine firstPlayerOf_congr fun m => ⟨?_, ?_⟩
    · rintro ⟨q, hq, hf⟩
      obtain ⟨p, hp, hpf, -⟩ := find?_of_drop hgm h hq
      exact ⟨p, hp, hpf.symm.trans hf⟩
    · rintro ⟨p, hp, hf⟩
      have hnot : ¬gm.Drops f m := fun hdrops => hne (hf.symm.trans (hdrops.fingerprint hp))
      obtain ⟨q, hq⟩ := SortedMap.mem_iff_find?.mp
        (mem_players_of_drop hgm h (SortedMap.mem_of_find? hp) hnot)
      obtain ⟨p', hp', hpf, -⟩ := find?_of_drop hgm h hq
      obtain rfl := Option.some.inj (hp.symm.trans hp')
      exact ⟨q, hq, hpf.trans hf⟩
  rw [Drops, Drops, hfirst, mem_watchers_of_drop hgm h, and_iff_right hne]

end GameManager

theorem nodup_iterationOrder (order : List Fingerprint) {keys : List Fingerprint}
    (h : keys.Nodup) : (Server.iterationOrder order keys).Nodup := by
  refine List.nodup_append'.mpr ⟨(List.nodup_dedup order).filter _, h.filter _, ?_⟩
  intro f hf hf'
  simp only [List.mem_filter, List.mem_dedup, decide_eq_true_eq] at hf hf'
  exact hf'.2 hf.1

theorem mem_iterationOrder {order keys : List Fingerprint} {f : Fingerprint} :
    f ∈ Server.iterationOrder order keys ↔ f ∈ keys := by
  simp only [Server.iterationOrder, List.mem_append, List.mem_filter, List.mem_dedup,
    decide_eq_true_eq]
  tauto

namespace Server

variable {s s' : Server D} {now : ℤ}

/-- A socket was heard of, and not too long ago. -/
def HeardWithin (now : ℤ) (f : Fingerprint) (s : Server D) : Prop :=
  ∃ lastConnTime, s.lastCommunicationTs.find? f = some lastConnTime ∧
    now - lastConnTime ≤ connectionExpirationTime

/-- Every watcher and every connected player has been heard of, and not too long ago. -/
structure NoSilentClient (now : ℤ) (s : Server D) : Prop where
  watchers : ∀ f ∈ s.gameManager.watchers, s.HeardWithin now f
  players : ∀ n f, s.gameManager.Connected n f → s.HeardWithin now f

/-- Every watcher has been heard of at some time. Every connected player has been heard of not too
long ago, or long ago and is the client that dropping its socket would remove. -/
structure SilentLeave (now : ℤ) (s : Server D) : Prop where
  watchers : ∀ f ∈ s.gameManager.watchers, f ∈ s.lastCommunicationTs
  players : ∀ n f, s.gameManager.Connected n f →
    s.HeardWithin now f ∨ s.Silent now f ∧ s.gameManager.Drops f n

instance (f : Fingerprint) : Decidable (s.HeardWithin now f) :=
  inferInstanceAs (Decidable (∃ lastConnTime ∈ s.lastCommunicationTs.find? f,
    now - lastConnTime ≤ connectionExpirationTime))

instance (f : Fingerprint) : Decidable (s.Silent now f) :=
  inferInstanceAs (Decidable (∃ lastConnTime ∈ s.lastCommunicationTs.find? f,
    now - lastConnTime > connectionExpirationTime))

instance (f : Fingerprint) (n : PlayerName) (gm : GameManager D) : Decidable (gm.Drops f n) :=
  inferInstanceAs (Decidable (_ ∧ _))

theorem silentLeave_iff : s.SilentLeave now ↔
    (∀ f ∈ s.gameManager.watchers.keys, f ∈ s.lastCommunicationTs) ∧
      ∀ x ∈ s.gameManager.players.entries, x.2.isDisconnected = false →
        s.HeardWithin now x.2.fingerprint ∨
          s.Silent now x.2.fingerprint ∧ s.gameManager.Drops x.2.fingerprint x.1 := by
  constructor
  · rintro ⟨hwatchers, hplayers⟩
    exact ⟨hwatchers, fun x hx hd => hplayers x.1 _ ⟨x.2, SortedMap.find?_eq_some.mpr hx, rfl, hd⟩⟩
  · rintro ⟨hwatchers, hplayers⟩
    refine ⟨hwatchers, ?_⟩
    rintro n f ⟨p, hp, rfl, hd⟩
    exact hplayers (n, p) (SortedMap.find?_eq_some.mp hp) hd

instance : Decidable (s.SilentLeave now) := decidable_of_iff _ silentLeave_iff.symm

theorem heardWithin_or_silent {f : Fingerprint} (h : f ∈ s.lastCommunicationTs) :
    s.HeardWithin now f ∨ s.Silent now f := by
  obtain ⟨t, ht⟩ := SortedMap.mem_iff_find?.mp h
  rcases le_or_gt (now - t) connectionExpirationTime with hle | hgt
  · exact Or.inl ⟨t, ht, hle⟩
  · exact Or.inr ⟨t, ht, hgt⟩

/-- The loop of `cleanupObsoleteConnections` goes well. -/
theorem exists_dropSilent (pf : Platform D) : ∀ {fingerprints : List Fingerprint} {s : Server D},
    s.gameManager.Consistent → ∃ s', s.dropSilent now fingerprints = .ok s'
  | [], s, _ => ⟨s, rfl⟩
  | f :: rest, s, hgm => by
    have hone : ∃ s₁, s.dropIfSilent now f = .ok s₁ ∧ s₁.gameManager.Consistent := by
      obtain ⟨gm, hdrop⟩ := hgm.exists_drop f
      rw [dropIfSilent]
      split
      · exact ⟨s, rfl, hgm⟩
      · split
        · rw [hdrop]
          exact ⟨_, rfl, hgm.drop pf hdrop⟩
        · exact ⟨s, rfl, hgm⟩
    obtain ⟨s₁, hs₁, hgm₁⟩ := hone
    obtain ⟨s', hs'⟩ := exists_dropSilent pf hgm₁
    exact ⟨s', by rw [dropSilent, hs₁]; exact hs'⟩

/-- **What the loop of `cleanupObsoleteConnections` leaves**: of every silent socket it comes to, it
removes one client. -/
theorem clients_dropSilent (pf : Platform D) : ∀ {fingerprints : List Fingerprint} {s : Server D},
    s.gameManager.Consistent → fingerprints.Nodup → s.dropSilent now fingerprints = .ok s' →
    s'.lastCommunicationTs = s.lastCommunicationTs ∧
    (∀ f, f ∈ s'.gameManager.watchers ↔
      f ∈ s.gameManager.watchers ∧ ¬(f ∈ fingerprints ∧ s.Silent now f)) ∧
    ∀ n f, s'.gameManager.Connected n f ↔ s.gameManager.Connected n f ∧
      ¬(f ∈ fingerprints ∧ s.Silent now f ∧ s.gameManager.Drops f n)
  | [], s, _, _, h => by
    obtain rfl : s = s' := Except.ok.inj h
    simp
  | f₀ :: rest, s, hgm, hnodup, h => by
    obtain ⟨hnot, hnodup⟩ := List.nodup_cons.mp hnodup
    rcases dropSilent_cons_eq_ok h with ⟨hheard, h⟩ | ⟨hsilent, gm, hdrop, h⟩
    · obtain ⟨hts, hw, hp⟩ := clients_dropSilent pf hgm hnodup h
      have hmem : ∀ f, (f ∈ f₀ :: rest ∧ s.Silent now f) ↔ f ∈ rest ∧ s.Silent now f := by
        intro f
        rw [List.mem_cons]
        exact and_congr_left fun hs => or_iff_right fun he => hheard (he ▸ hs)
      refine ⟨hts, fun f => by rw [hw, hmem], fun n f => ?_⟩
      rw [hp, ← and_assoc, ← and_assoc, hmem]
    · obtain ⟨hts, hw, hp⟩ := clients_dropSilent pf (hgm.drop pf hdrop) hnodup h
      refine ⟨hts, fun f => ?_, fun n f => ?_⟩
      · rw [hw, GameManager.mem_watchers_of_drop hgm hdrop, List.mem_cons]
        by_cases he : f = f₀
        · subst he
          exact iff_of_false (fun h => h.1.1 rfl) fun h => h.2 ⟨Or.inl rfl, hsilent⟩
        · rw [and_iff_right he, or_iff_right he]
          rfl
      · rw [hp, GameManager.connected_of_drop hgm hdrop, List.mem_cons]
        by_cases he : f = f₀
        · subst he
          refine ⟨fun h => ⟨h.1.1, fun hd => h.1.2 hd.2.2⟩, fun h => ⟨⟨h.1, fun hd => ?_⟩, ?_⟩⟩
          · exact h.2 ⟨Or.inl rfl, hsilent, hd⟩
          · exact fun hd => hnot hd.1
        · rw [GameManager.drops_of_drop hgm hdrop he, or_iff_right he, and_assoc]
          refine and_congr_right fun hc => and_iff_right fun hd => he ?_
          obtain ⟨p, hfind, hfp, -⟩ := hc
          exact hfp.symm.trans (hd.fingerprint hfind)

end Server

/-- **When nobody stays that has been silent**, once the silent sockets have been dropped. -/
theorem cleanup_noSilentClient_iff {pf : Platform D} {s : Server D}
    (hs : (serverMachine pf).Reachable s) (now : ℤ) (order : List Fingerprint) :
    (∃ s', s.cleanupObsoleteConnections now order = .ok s' ∧ s'.NoSilentClient now) ↔
      s.SilentLeave now := by
  have hgm := serverMachine_consistent hs
  have hok : ∃ s₁, s.dropSilent now (Server.iterationOrder order s.lastCommunicationTs.keys) =
    .ok s₁ := Server.exists_dropSilent pf hgm
  obtain ⟨s₁, hdrop⟩ := hok
  obtain ⟨hts, hw, hp⟩ := Server.clients_dropSilent pf hgm
    (nodup_iterationOrder order s.lastCommunicationTs.nodup_keys) hdrop
  simp only [mem_iterationOrder, SortedMap.mem_keys] at hw hp
  rw [Server.cleanupObsoleteConnections, hdrop]
  simp only [Except.ok.injEq, exists_eq_left']
  have hheard : ∀ f, Server.HeardWithin now f { s₁ with
      lastCommunicationTs := s₁.lastCommunicationTs.filter fun _ lastConnTime =>
        decide (now - lastConnTime ≤ Server.connectionExpirationTime) } ↔ s.HeardWithin now f := by
    intro f
    simp only [Server.HeardWithin, SortedMap.find?_filter_eq_some, hts, decide_eq_true_eq]
    exact exists_congr fun t => and_iff_left_of_imp And.right
  constructor
  · intro h
    refine ⟨fun f hf => ?_, fun n f hc => ?_⟩
    · by_cases hsilent : s.Silent now f
      · obtain ⟨t, ht, -⟩ := hsilent
        exact SortedMap.mem_of_find? ht
      · obtain ⟨t, ht, -⟩ := (hheard f).mp
          (h.watchers f ((hw f).mpr ⟨hf, fun hd => hsilent hd.2⟩))
        exact SortedMap.mem_of_find? ht
    · by_cases hd : f ∈ s.lastCommunicationTs ∧ s.Silent now f ∧ s.gameManager.Drops f n
      · exact Or.inr hd.2
      · exact Or.inl ((hheard f).mp (h.players n f ((hp n f).mpr ⟨hc, hd⟩)))
  · intro h
    refine ⟨fun f hf => (hheard f).mpr ?_, fun n f hc => (hheard f).mpr ?_⟩
    · obtain ⟨hf, hnot⟩ := (hw f).mp hf
      have hmem := h.watchers f hf
      exact (Server.heardWithin_or_silent hmem).resolve_right fun hsilent => hnot ⟨hmem, hsilent⟩
    · obtain ⟨hc, hnot⟩ := (hp n f).mp hc
      refine (h.players n f hc).resolve_right fun hd => hnot ⟨?_, hd⟩
      obtain ⟨t, ht, -⟩ := hd.1
      exact SortedMap.mem_of_find? ht

/-- The socket 1 and the watcher 3 have fallen silent, and the socket 2 has not. -/
theorem cleanup_noSilentClient_silent : ∃ s : Server ℤ, (serverMachine fixedPoint).Reachable s ∧
    s.Silent 3000000 [1] ∧ s.Silent 3000000 [3] ∧ s.HeardWithin 3000000 [2] ∧
    (s.gameManager.players.entries.map fun x => x.2.fingerprint) = [[1], [2]] ∧
    s.gameManager.watchers.keys = [[3]] ∧
    ∃ s', s.cleanupObsoleteConnections 3000000 [] = .ok s' ∧ s'.NoSilentClient 3000000 := by
  obtain ⟨s, hs, hone, hthree, htwo, hplayers, hwatchers, hleave⟩ := exists_reachable
    (P := fun s => s.Silent 3000000 [1] ∧ s.Silent 3000000 [3] ∧ s.HeardWithin 3000000 [2] ∧
      (s.gameManager.players.entries.map fun x => x.2.fingerprint) = [[1], [2]] ∧
      s.gameManager.watchers.keys = [[3]] ∧ s.SilentLeave 3000000)
    (smallBoard 5 (by decide))
    [.said 0 1 5 .straight 0 [97], .said 0 3 7 .straight 0 [], .said 2500000 2 6 .straight 0 [98]]
    (by decide +kernel)
  exact ⟨s, hs, hone, hthree, htwo, hplayers, hwatchers,
    (cleanup_noSilentClient_iff hs 3000000 []).mpr hleave⟩

/-- A socket that watches and plays falls silent. Its watcher is dropped, its player stays, and
nothing is known any more of when it was heard of. -/
theorem not_cleanup_noSilentClient : ∃ s : Server ℤ, (serverMachine fixedPoint).Reachable s ∧
    ¬∃ s', s.cleanupObsoleteConnections 3000000 [] = .ok s' ∧ s'.NoSilentClient 3000000 := by
  obtain ⟨s, hs, hp⟩ := exists_reachable
    (P := fun s => (s.cleanupObsoleteConnections 3000000 []).toOption.all (fun s' =>
      (s'.gameManager.players.find? (letter 5 .straight 97).playerName).any
        (fun p => p.fingerprint = [1] ∧ p.isDisconnected = false) &&
      decide (s'.lastCommunicationTs.find? [1] = none)) = true)
    (smallBoard 5 (by decide)) [.said 0 1 5 .straight 0 [], .said 0 1 5 .straight 0 [97]]
    (by decide +kernel)
  refine ⟨s, hs, ?_⟩
  rintro ⟨s', hclean, hnone⟩
  rw [hclean] at hp
  obtain ⟨hplayer, hts⟩ := (Bool.and_eq_true _ _).mp (show (_ && _) = true from hp)
  obtain ⟨p, hp, hboth⟩ := (Option.any_eq_true _ _).mp hplayer
  obtain ⟨hf, hd⟩ := of_decide_eq_true hboth
  obtain ⟨t, ht, -⟩ := hnone.players _ _ ⟨p, hp, hf, hd⟩
  rw [of_decide_eq_true hts] at ht
  cases ht

end ScreenWorms
