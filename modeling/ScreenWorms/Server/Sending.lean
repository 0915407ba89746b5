import ScreenWorms.Server.FixedPoint
import ScreenWorms.Server.ServerInvariant

/-!
# What the sending loop of the server can rely on

The loop calls `getNextMessage` whenever the queue is not empty. That is right as long as somebody
has a queue. When every client has been dropped and a game still waits, the queue is not empty and
there is nobody to serve.

A game that waits also keeps `ack` from moving anybody, so that the loop delivers everything only
from some states.

## Main results

* `getNextMessage_within_schedule_iff` — when a message is found within one round of the schedule
* `delivers_everything_iff` — when successful sends empty the queue
-/

namespace ScreenWorms

open MQManager

variable {D : Type} {pf : Platform D} {s : Server D}

/-! ## The next message -/

/-- **When `getNextMessage` finds a message** within as many rotations as the schedule is long:
exactly when somebody has a queue. -/
theorem getNextMessage_within_schedule_iff (hs : (serverMachine pf).Reachable s)
    (hne : s.gameManager.mqManager.isEmpty = false) :
    (∃ rotations ≤ s.gameManager.mqManager.clientsToServeSchedule.length, ∃ r,
      s.gameManager.mqManager.switchGame.serve rotations = .ok r) ↔
    ∃ client, client ∈ s.gameManager.mqManager.queues := by
  have hwf := (serverMachine_consistent hs).wellFormed
  constructor
  · rintro ⟨rotations, -, ⟨m, mq⟩, hserve⟩
    obtain ⟨_, _, _, -, hfind, -⟩ := serve_eq_ok hserve
    exact ⟨m.fingerprint, mem_queues_switchGame.mp (SortedMap.mem_of_find? hfind)⟩
  · rintro ⟨client, hq⟩
    exact hwf.serve_switchGame hne hq

/-- Two players start a game and have a message to get. -/
theorem getNextMessage_within_schedule_two : ∃ s : Server ℤ,
    (serverMachine fixedPoint).Reachable s ∧ s.gameManager.mqManager.isEmpty = false ∧
    ∃ rotations ≤ s.gameManager.mqManager.clientsToServeSchedule.length, ∃ r,
      s.gameManager.mqManager.switchGame.serve rotations = .ok r := by
  obtain ⟨s, hs, hne, hq⟩ := exists_reachable
    (P := fun s => s.gameManager.mqManager.isEmpty = false ∧ [1] ∈ s.gameManager.mqManager.queues)
    (smallBoard 5 (by decide)) [.said 0 1 1 .right 0 [97], .said 0 2 1 .right 0 [98]]
    (by decide +kernel)
  exact ⟨s, hs, hne, (getNextMessage_within_schedule_iff hs hne).mpr ⟨[1], hq⟩⟩

/-- Two players start a game, nothing is sent, and both fall silent for three seconds. The queue is
not empty, and `getNextMessage` takes the front of an empty schedule. -/
theorem getNextMessage_emptySchedule : ∃ s : Server ℤ, (serverMachine fixedPoint).Reachable s ∧
    s.gameManager.mqManager.isEmpty = false ∧
    s.gameManager.mqManager.getNextMessage = .error .emptySchedule :=
  exists_reachable (smallBoard 5 (by decide))
    [.said 0 1 1 .right 0 [97], .said 0 2 1 .right 0 [98], .tick 3000000 []] (by decide +kernel)

/-! ## Delivering everything -/

/-- **When successful sends empty the queue**, each of them moving its recipient: either no game
waits, or one does and nobody has anything left to get of the current one. -/
theorem delivers_everything_iff (hs : (serverMachine pf).Reachable s) {client : Fingerprint}
    (hq : client ∈ s.gameManager.mqManager.queues) :
    s.gameManager.mqManager.DeliversEverything ↔
      (s.gameManager.mqManager.nextGames = [] ∧
        s.gameManager.mqManager.currentGameEvents.length < 2 ^ 32) ∨
      ∃ game, s.gameManager.mqManager.nextGames = [game] ∧
        s.gameManager.mqManager.hasPendingMessagesForCurrentGame = false ∧
        game.2.length < 2 ^ 32 :=
  have h := serverMachine_consistent hs
  deliversEverything_iff h.wellFormed h.fits hq

/-- The first game is delivered to its two players. -/
theorem delivers_everything_two : ∃ s : Server ℤ, (serverMachine fixedPoint).Reachable s ∧
    [1] ∈ s.gameManager.mqManager.queues ∧ s.gameManager.mqManager.DeliversEverything := by
  obtain ⟨s, hs, hq, hlen, hp, hall⟩ := exists_reachable
    (P := fun s => [1] ∈ s.gameManager.mqManager.queues ∧
      s.gameManager.mqManager.nextGames.length = 1 ∧
      s.gameManager.mqManager.hasPendingMessagesForCurrentGame = false ∧
      ∀ game ∈ s.gameManager.mqManager.nextGames, game.2.length < 2 ^ 32)
    (smallBoard 5 (by decide)) [.said 0 1 1 .right 0 [97], .said 0 2 1 .right 0 [98]]
    (by decide +kernel)
  obtain ⟨game, hgame⟩ := List.length_eq_one_iff.mp hlen
  exact ⟨s, hs, hq, (delivers_everything_iff hs hq).mpr
    (Or.inr ⟨game, hgame, hp, hall game (by rw [hgame]; exact List.mem_singleton_self game)⟩)⟩

/-- Both worms of the first game start on one pixel, so it is over at once. The first player gets
all of it, both ask for another game, and the second player still has the first one to get: no send
can move it any more. -/
theorem not_delivers_everything : ∃ s : Server ℤ, (serverMachine fixedPoint).Reachable s ∧
    [1] ∈ s.gameManager.mqManager.queues ∧ ¬ s.gameManager.mqManager.DeliversEverything := by
  obtain ⟨s, hs, hq, hn, hp⟩ := exists_reachable
    (P := fun s => [1] ∈ s.gameManager.mqManager.queues ∧
      s.gameManager.mqManager.nextGames ≠ [] ∧
      s.gameManager.mqManager.hasPendingMessagesForCurrentGame = true)
    (smallBoard 135 (by decide))
    [.said 0 1 1 .right 0 [97], .said 0 2 1 .right 0 [98], .send true,
      .said 0 1 1 .right 4 [97], .said 0 2 1 .right 0 [98]]
    (by decide +kernel)
  have h := serverMachine_consistent hs
  refine ⟨s, hs, hq, fun hall => ?_⟩
  rcases (deliversEverything_iff h.wellFormed h.fits hq).mp hall with ⟨hnil, -⟩ | ⟨_, -, hnot, -⟩
  · exact hn hnil
  · rw [hp] at hnot
    cases hnot

end ScreenWorms
