import ScreenWorms.Server.History

/-!
# Where the server is in the log

For each client the queue keeps the number of the first event that it has not been sent, as far as
the server knows. A client may ask for any event, and then the server is there, but not beyond the
end of the log. Otherwise a position moves on only past events that have just been sent, and back
only when the next game begins.

## Main results

* `Server.find?_queues_step` — a step that sends nothing
* `GameManager.find?_queues_send` — a send
-/

namespace ScreenWorms

open Machine MQManager

variable {D : Type} {pf : Platform D} {f : Fingerprint} {pos : ℕ}

/-! ## Calls -/

namespace MQManager

variable {mq mq' : MQManager}

/-- Only `ack` and `addQueue` set a position. -/
theorem find?_queues_exec {c : MQCall} (h : mq.exec c = .ok mq')
    (hpos : mq'.queues.find? f = some pos) : mq.queues.find? f = some pos ∨
      ∃ n, (c = .ack f n ∨ c = .addQueue f n) ∧ pos ≤ n := by
  cases c with
  | schedule gameId event =>
    obtain rfl : mq.schedule gameId event = mq' := Except.ok.inj h
    left
    rw [schedule] at hpos
    split at hpos <;> exact hpos
  | ack f' n =>
    change mq.ack f' n = .ok mq' at h
    rw [ack] at h
    split at h
    · split at h
      · obtain rfl := Except.ok.inj h
        rw [SortedMap.find?_set] at hpos
        split at hpos
        · rename_i hf
          rw [← Option.some.inj hpos]
          exact Or.inr ⟨n, Or.inl (by rw [hf]), min_le_right _ _⟩
        · exact Or.inl hpos
      · cases h
    · obtain rfl := Except.ok.inj h
      exact Or.inl hpos
  | dropQueue f' =>
    obtain rfl : mq.dropQueue f' = mq' := Except.ok.inj h
    left
    rw [dropQueue, SortedMap.find?_erase] at hpos
    split at hpos
    · cases hpos
    · exact hpos
  | addQueue f' n =>
    obtain rfl : mq.addQueue f' n = mq' := Except.ok.inj h
    rw [addQueue] at hpos
    split at hpos
    · exact Or.inl hpos
    · rename_i hnot
      rw [SortedMap.find?_insert hnot] at hpos
      split at hpos
      · rename_i hf
        rw [← Option.some.inj hpos]
        exact Or.inr ⟨n, Or.inr (by rw [hf]), min_le_right _ _⟩
      · exact Or.inl hpos

/-- Going on to the next game puts everybody at its beginning. -/
theorem find?_queues_switchGame_cases (h : mq.switchGame.queues.find? f = some pos) :
    mq.queues.find? f = some pos ∨ pos = 0 := by
  rcases hsw : mq.switches with _ | _
  · rw [switchGame_of_not_switches hsw] at h
    exact Or.inl h
  · obtain ⟨game, rest, -, heq⟩ := switchGame_of_switches hsw
    rw [heq] at h
    simp only [SortedMap.find?_mapValues, Option.map_eq_some_iff] at h
    obtain ⟨-, -, rfl⟩ := h
    exact Or.inr rfl

end MQManager

/-! ## Operations -/

/-- A message of the client asks for this event, or for a later one. -/
def GameOp.Asks (f : Fingerprint) (pos : ℕ) (op : GameOp) : Prop :=
  ∃ msg, op = .message f msg ∧ pos ≤ msg.nextExpectedEventNo

namespace GameManager

variable {gm gm' : GameManager D}

theorem find?_queues_perform (hgm : gm.Consistent) {op : GameOp}
    (h : gm.perform (op.run pf) = .ok gm') (hpos : gm'.mqManager.queues.find? f = some pos) :
    gm.mqManager.queues.find? f = some pos ∨ op.Asks f pos := by
  obtain ⟨g, hop, hcalls, -⟩ := perform_eq_ok.mp h
  refine execAll_induction
    (P := fun mq => ∀ pos, mq.queues.find? f = some pos →
      gm.mqManager.queues.find? f = some pos ∨ op.Asks f pos) (C := op.Issues)
    (fun mq c mq' hmq hc hexec pos hpos => ?_) (fun pos hpos => Or.inl hpos)
    (hgm.sound.issues hop) hcalls pos hpos
  rcases find?_queues_exec hexec hpos with hold | ⟨n, rfl | rfl, hle⟩
  · exact hmq pos hold
  all_goals
    obtain ⟨msg, hmsg, rfl⟩ := hc
    exact Or.inr ⟨msg, hmsg, hle⟩

theorem find?_queues_exec_ops : ∀ {ops : List GameOp} {gm gm' : GameManager D},
    (managerMachine pf).Reachable gm → (managerMachine pf).exec (ops.map .op) gm = .ok gm' →
    gm'.mqManager.queues.find? f = some pos →
    gm.mqManager.queues.find? f = some pos ∨ ∃ op ∈ ops, op.Asks f pos
  | [], gm, gm', _, h, hpos => by
    obtain rfl : gm = gm' := Except.ok.inj h
    exact Or.inl hpos
  | op :: ops, gm, gm', hgm, h, hpos => by
    obtain ⟨gm₁, hop, hrest⟩ := exec_cons_eq_ok.mp h
    rcases find?_queues_exec_ops (hgm.step hop) hrest hpos with hold | ⟨op', hmem, hasks⟩
    · refine (find?_queues_perform ((managerMachine_consistent pf).reachable hgm) hop hold).imp_right
        fun hasks => ⟨op, List.mem_cons_self, hasks⟩
    · exact Or.inr ⟨op', List.mem_cons_of_mem _ hmem, hasks⟩

/-- **A send** leaves a position alone, puts it at the beginning of a game, or moves it on past the
events that are sent. -/
theorem find?_queues_send {delivered : Bool} {gm gm' : GameManager D}
    (h : gm.send delivered = .ok gm') (hpos : gm'.mqManager.queues.find? f = some pos) :
    ∃ m mq, gm.mqManager.getNextMessage = .ok (m, mq) ∧
      m.msg.gameId = gm'.mqManager.currentlyBroadcastedGameId ∧
      (gm.mqManager.switchGame.queues.find? f = some pos ∨ delivered = true ∧ m.fingerprint = f ∧
        ∃ q, gm.mqManager.switchGame.queues.find? f = some q ∧ pos ≤ q + m.msg.events.length) := by
  rw [GameManager.send] at h
  rcases hnext : gm.mqManager.getNextMessage with e | ⟨m, mq⟩
  · rw [hnext] at h
    cases h
  · obtain ⟨_, rest, q, -, hq, -, hmsg, hack, hmq⟩ := serve_eq_ok hnext
    have hqueues : mq.queues = gm.mqManager.switchGame.queues := by rw [hmq]
    have hid : m.msg.gameId = mq.currentlyBroadcastedGameId := by rw [hmsg, hmq]
    refine ⟨m, mq, rfl, ?_⟩
    simp only [hnext] at h
    split at h
    · rename_i hdelivered
      rcases hexec : mq.ack m.fingerprint m.ackNumber with e | mq'
      · rw [hexec] at h
        cases h
      · rw [hexec] at h
        obtain rfl := Except.ok.inj h
        have hcall : mq.exec (.ack m.fingerprint m.ackNumber) = .ok mq' := hexec
        obtain ⟨-, -, hsame⟩ := logs_exec hcall fun _ _ => by simp
        refine ⟨hid.trans hsame.symm, ?_⟩
        rcases find?_queues_exec hcall hpos with hold | ⟨n, heq | heq, hle⟩
        · exact Or.inl (hqueues ▸ hold)
        · cases heq
          refine Or.inr ⟨hdelivered, rfl, q, hq, hle.trans ?_⟩
          rw [hack]
          exact Nat.mod_le _ _
        · cases heq
    · obtain rfl := Except.ok.inj h
      exact ⟨hid, Or.inl (hqueues ▸ hpos)⟩

end GameManager

/-! ## Steps of the server -/

namespace Server

variable {s s' : Server D}

/-- **A step that sends nothing** leaves a position alone, unless the client has asked for an event
there or behind it. -/
theorem find?_queues_step (hs : (serverMachine pf).Reachable s) {op : Server.Op}
    (hop : ∀ delivered, op ≠ .send delivered) (h : (serverMachine pf).step op s = .ok s')
    (hpos : s'.gameManager.mqManager.queues.find? f = some pos) :
    s.gameManager.mqManager.queues.find? f = some pos ∨
      ∃ now addr datagram m, op = .read now f addr datagram ∧
        ClientToServerMessage.decode (datagram.take incomingMsgSize) = some m ∧
        pos ≤ m.nextExpectedEventNo := by
  rcases GameManager.find?_queues_exec_ops (reachable_gameManager hs) (step_manager hop h) hpos with
    hold | ⟨gameOp, hmem, msg, rfl, hle⟩
  · exact Or.inl hold
  · right
    rcases op with ⟨now, order⟩ | ⟨now, f', addr, datagram⟩ | delivered
    · -- drops and turns are not messages
      rcases List.mem_append.mp hmem with hmem | hmem
      · obtain ⟨_, -, heq⟩ := List.mem_map.mp hmem
        cases heq
      · cases List.mem_singleton.mp hmem
    · obtain ⟨m, hm, heq⟩ := Option.map_eq_some_iff.mp (Option.mem_toList.mp hmem)
      cases heq
      exact ⟨now, addr, datagram, msg, rfl, hm, hle⟩
    · exact absurd rfl (hop delivered)

end Server

end ScreenWorms
