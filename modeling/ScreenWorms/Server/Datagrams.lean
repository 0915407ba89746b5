import ScreenWorms.Common.Batches
import ScreenWorms.Server.FixedPoint
import ScreenWorms.Server.ServerInvariant

/-!
# Messages fit datagrams

The largest event is the `NEW_GAME` of 25 players with names of 20 characters. Its record and the
game id in front of it take 550 bytes, which is what a datagram may hold. So every event the game
schedules fits a datagram alone, and `fromEvents` always takes one, as long as no more than 25
players take part and no name is longer than the decoder of client messages accepts.

## Main results

* `players_le_of_fitsDatagram` — a `NEW_GAME` event fits a datagram if its names fit their field
* `serverMachine_datagrams` — the messages of a server have events and fit the buffer
-/

namespace ScreenWorms

open MQManager

variable {D : Type}

/-- The field of the names is what is left of a datagram. -/
theorem players_le_of_fitsDatagram {e : EventNewGame} :
    FitsDatagram (.newGame e) ↔ e.players.length ≤ EventNewGame.maxPlayersFieldSize := by
  simp only [FitsDatagram, GameEventVariant.getSize, maxUdpDataFieldSize,
    EventNewGame.maxPlayersFieldSize, maxPlayers, maxPlayerNameLength]
  omega

/-- What a message is like: it has events, it encodes to a datagram, and it takes its recipient to
another position. -/
structure MQManager.Datagram (mq : MQManager) (m : MessageAndRecipient) : Prop where
  events_ne_nil : m.msg.events ≠ []
  length_encode : m.msg.encode.1.length = m.msg.encode.2
  encode_le : m.msg.encode.2 ≤ maxUdpDataFieldSize
  ackNumber_ne : ∀ pos, mq.switchGame.queues.find? m.fingerprint = some pos → m.ackNumber ≠ pos

theorem MQManager.Fits.datagram {mq mq' : MQManager} (h : mq.Fits) {m : MessageAndRecipient}
    (hnext : mq.getNextMessage = .ok (m, mq')) : mq.Datagram m := by
  obtain ⟨_, _, pos, -, hfind, hlt, hmsg, hack, -⟩ := serve_eq_ok hnext
  have hne := h.switchGame.pickEvents_ne_nil hlt
  have hsize := @encodedSize_pickEvents 4 (mq.switchGame.currentGameEvents.drop pos) (by decide)
  refine ⟨?_, m.msg.length_encode, ?_, fun pos' hpos' => ?_⟩
  · rw [hmsg]
    exact hne
  · rw [ServerToClientMessage.encode_eq, hmsg]
    exact hsize
  · obtain rfl : pos = pos' := Option.some.inj (hfind.symm.trans hpos')
    -- a batch is not empty, and shorter than the range of the number
    have hpositive := List.length_pos_iff.mpr hne
    have hcount := length_le_encodedSize (pickEvents 4 (mq.switchGame.currentGameEvents.drop pos))
    rw [hack, hmsg]
    simp only [maxUdpDataFieldSize, toUInt32] at hsize ⊢
    omega

/-- **The messages of a server have events and fit the buffer.** While the queue is not empty and
somebody has a queue, `getNextMessage` returns such a message; and the names of a `NEW_GAME` event
fit their field, whatever operation schedules it. -/
theorem serverMachine_datagrams {pf : Platform D} {s : Server D}
    (hs : (serverMachine pf).Reachable s) :
    (s.gameManager.mqManager.isEmpty = false → ∀ client ∈ s.gameManager.mqManager.queues,
      ∃ m mq', s.gameManager.mqManager.getNextMessage = .ok (m, mq') ∧
        s.gameManager.mqManager.Datagram m) ∧
    ∀ gm, (managerMachine pf).Reachable gm → ∀ (op : GameOp) g',
      op.run pf ⟨gm.toGameState, []⟩ = .ok g' →
      ∀ gameId e, .schedule gameId (.newGame e) ∈ g'.calls → e.players.length ≤ 525 := by
  constructor
  · intro hne client hq
    have h := serverMachine_consistent hs
    obtain ⟨m, mq', hnext⟩ := h.wellFormed.getNextMessage_ok hne hq
    exact ⟨m, mq', hnext, h.fits.datagram hnext⟩
  · intro gm hgm op g' hop gameId e hcall
    have h := (managerMachine_consistent pf).reachable hgm
    exact players_le_of_fitsDatagram.mp (h.sound.issues hop _ hcall)

/-- Two players start a game, and the first message has all of it. -/
theorem serverMachine_datagrams_two : ∃ s : Server ℤ, (serverMachine fixedPoint).Reachable s ∧
    ∃ m mq', s.gameManager.mqManager.getNextMessage = .ok (m, mq') ∧
      s.gameManager.mqManager.Datagram m := by
  obtain ⟨s, hs, hne, hq⟩ := exists_reachable
    (P := fun s => s.gameManager.mqManager.isEmpty = false ∧ [1] ∈ s.gameManager.mqManager.queues)
    (smallBoard 5 (by decide)) [.said 0 1 1 .right 0 [97], .said 0 2 1 .right 0 [98]]
    (by decide +kernel)
  exact ⟨s, hs, (serverMachine_datagrams hs).1 hne [1] hq⟩

end ScreenWorms
