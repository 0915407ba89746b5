import ScreenWorms.Server.Leaving

/-!
# Addresses of clients

Three maps of the server are keyed by sockets: the queues of the message queue, the addresses, and
the times the sockets were last heard of. They are updated by different operations. A queue is made
for the sender of a message, whose address has been stored before, and an address goes only with the
queue of its socket. An address and a time stamp come together. They go at different moments of
`cleanupObsoleteConnections`, and both are gone when it returns.

## Main definitions

* `Server.Located` — how the keys of the three maps are related

## Main results

* `Server.mem_clientAddrs_dropSilent` — the addresses the loop of `cleanupObsoleteConnections` keeps
* `Server.Located.cleanupObsoleteConnections`, `Server.Located.tick`,
  `Server.Located.readMessageFromClient`, `Server.Located.sendMessageToClient` — every step keeps it
* `serverMachine_located` — the address of a recipient is always found
-/

namespace ScreenWorms

variable {D : Type}

open MQManager

namespace MQManager

/-- The loop of `getNextMessage` looks up queues only. -/
theorem serve_ne_missingAddr : ∀ (n : ℕ) (mq : MQManager), mq.serve n ≠ .error .missingAddr
  | 0, mq => by simp [serve]
  | n + 1, mq => by
    rw [serve]
    split
    · simp
    · rename_i fprint rest _
      split
      · simp
      · split
        · simp
        · exact serve_ne_missingAddr n _

theorem ack_ne_missingAddr (mq : MQManager) (f : Fingerprint) (n : ℕ) :
    mq.ack f n ≠ .error .missingAddr := by
  rw [ack]
  split
  · split
    · simp
    · simp
  · simp

end MQManager

namespace Server

/-- Every client with a queue has an address, and the sockets that have one are those that have been
heard of. -/
structure Located (s : Server D) : Prop where
  addressed : s.Addressed
  mem_clientAddrs : ∀ f, f ∈ s.clientAddrs ↔ f ∈ s.lastCommunicationTs

variable {pf : Platform D} {s s' : Server D} {now : ℤ}

/-! ## Dropping silent sockets -/

/-- **The loop of `cleanupObsoleteConnections` forgets the addresses of the silent sockets** it
comes to, and no time stamp. -/
theorem mem_clientAddrs_dropSilent : ∀ {fingerprints : List Fingerprint} {s : Server D},
    s.dropSilent now fingerprints = .ok s' →
    s'.lastCommunicationTs = s.lastCommunicationTs ∧
    ∀ f, f ∈ s'.clientAddrs ↔ f ∈ s.clientAddrs ∧ ¬(f ∈ fingerprints ∧ s.Silent now f)
  | [], s, h => by
    obtain rfl : s = s' := Except.ok.inj h
    simp
  | f₀ :: rest, s, h => by
    rcases dropSilent_cons_eq_ok h with ⟨hheard, h⟩ | ⟨hsilent, gm, -, h⟩
    · obtain ⟨hts, hmem⟩ := mem_clientAddrs_dropSilent h
      refine ⟨hts, fun f => ?_⟩
      have hiff : (f ∈ f₀ :: rest ∧ s.Silent now f) ↔ f ∈ rest ∧ s.Silent now f := by
        rw [List.mem_cons]
        exact and_congr_left fun hs => or_iff_right fun he => hheard (he ▸ hs)
      rw [hmem, hiff]
    · obtain ⟨hts, hmem⟩ := mem_clientAddrs_dropSilent h
      refine ⟨hts, fun f => ?_⟩
      rw [hmem, SortedMap.mem_erase, List.mem_cons]
      by_cases he : f = f₀
      · subst he
        exact iff_of_false (fun h => h.1.1 rfl) fun h => h.2 ⟨Or.inl rfl, hsilent⟩
      · rw [and_iff_right he, or_iff_right he]
        rfl

/-- A time stamp is kept exactly if its socket is not silent. -/
theorem mem_lastCommunicationTs_filter {f : Fingerprint} :
    f ∈ s.lastCommunicationTs.filter (fun _ lastConnTime =>
      decide (now - lastConnTime ≤ connectionExpirationTime)) ↔
    f ∈ s.lastCommunicationTs ∧ ¬s.Silent now f := by
  simp only [SortedMap.mem_iff_find?, SortedMap.find?_filter_eq_some, decide_eq_true_eq]
  constructor
  · rintro ⟨t, ht, hle⟩
    refine ⟨⟨t, ht⟩, ?_⟩
    rintro ⟨t', ht', hgt⟩
    obtain rfl := Option.some.inj (ht.symm.trans ht')
    exact absurd hle (not_le.mpr hgt)
  · rintro ⟨⟨t, ht⟩, hheard⟩
    exact ⟨t, ht, le_of_not_gt fun hgt => hheard ⟨t, ht, hgt⟩⟩

/-! ## The steps of the server -/

theorem located_new (config : ServerConfig) (unsetId unsetAlive : ℕ) :
    (new config unsetId unsetAlive : Server D).Located where
  addressed := fun f hf => absurd hf (SortedMap.not_mem_empty f)
  mem_clientAddrs := fun f => iff_of_false (SortedMap.not_mem_empty f) (SortedMap.not_mem_empty f)

theorem Located.cleanupObsoleteConnections (pf : Platform D) {order : List Fingerprint}
    (hgm : s.gameManager.Consistent) (h : s.Located)
    (hclean : s.cleanupObsoleteConnections now order = .ok s') : s'.Located := by
  obtain ⟨s₁, hdrop, rfl⟩ := cleanupObsoleteConnections_eq_ok hclean
  obtain ⟨hts, hmem⟩ := mem_clientAddrs_dropSilent hdrop
  refine ⟨(h.addressed.dropSilent pf hgm hdrop).2, fun f => ?_⟩
  rw [hts, mem_lastCommunicationTs_filter, hmem, h.mem_clientAddrs, mem_iterationOrder,
    SortedMap.mem_keys]
  exact and_congr_right fun hf => not_congr (and_iff_right hf)

theorem Located.tick {order : List Fingerprint} (hgm : s.gameManager.Consistent) (h : s.Located)
    (htick : s.tick pf now order = .ok s') : s'.Located := by
  refine ⟨h.addressed.tick hgm htick, ?_⟩
  obtain ⟨s₁, gm, hclean, -, rfl⟩ := tick_eq_ok htick
  exact (h.cleanupObsoleteConnections pf hgm hclean).mem_clientAddrs

theorem mem_clientAddrs_heard (h : s.Located) (f : Fingerprint) (addr : SockAddr)
    (f' : Fingerprint) :
    f' ∈ (s.heard now f addr).clientAddrs ↔ f' ∈ (s.heard now f addr).lastCommunicationTs := by
  rw [heard, SortedMap.mem_insert, SortedMap.mem_set, h.mem_clientAddrs]

theorem Located.readMessageFromClient {f : Fingerprint} {addr : SockAddr} {datagram : List Byte}
    (hgm : s.gameManager.Consistent) (h : s.Located)
    (hread : s.readMessageFromClient pf now f addr datagram = .ok s') : s'.Located := by
  refine ⟨h.addressed.read hgm hread, ?_⟩
  rcases readMessageFromClient_eq_ok hread with ⟨-, rfl⟩ | ⟨m, gm, -, -, rfl⟩
  · exact mem_clientAddrs_heard h f addr
  · exact mem_clientAddrs_heard h f addr

theorem Located.sendMessageToClient {delivered : Bool} (h : s.Located)
    (hsend : s.sendMessageToClient delivered = .ok s') : s'.Located := by
  refine ⟨h.addressed.send hsend, ?_⟩
  obtain ⟨gm, -, rfl⟩ := sendMessageToClient_eq_ok hsend
  exact h.mem_clientAddrs

/-- The recipient of a message has a queue, so it has an address. -/
theorem Addressed.sendMessageToClient_ne (h : s.Addressed) (delivered : Bool) :
    s.sendMessageToClient delivered ≠ .error .missingAddr := by
  intro hsend
  rw [Server.sendMessageToClient] at hsend
  rcases hnext : s.gameManager.mqManager.getNextMessage with e | ⟨m, mq⟩
  · rw [hnext] at hsend
    obtain rfl := Except.error.inj hsend
    exact absurd hnext (serve_ne_missingAddr _ _)
  · obtain ⟨_, _, _, -, hfind, -⟩ := serve_eq_ok hnext
    have hmem : m.fingerprint ∈ s.clientAddrs :=
      h _ (mem_queues_switchGame.mp (SortedMap.mem_of_find? hfind))
    rw [hnext] at hsend
    simp only [if_pos hmem] at hsend
    split at hsend
    · rcases hack : mq.ack m.fingerprint m.ackNumber with e | mq'
      · rw [hack] at hsend
        obtain rfl := Except.error.inj hsend
        exact absurd hack (ack_ne_missingAddr _ _ _)
      · rw [hack] at hsend
        exact absurd hsend (by simp)
    · exact absurd hsend (by simp)

end Server

theorem serverMachine_locatedInvariant (pf : Platform D) :
    (serverMachine pf).Invariant Server.Located where
  init s hs := by
    obtain ⟨config, unsetId, unsetAlive, rfl⟩ := hs
    exact Server.located_new config unsetId unsetAlive
  step s op s' hs h hstep := by
    have hgm := serverMachine_consistent hs
    cases op with
    | tick now order => exact h.tick hgm hstep
    | read now f addr datagram => exact h.readMessageFromClient hgm hstep
    | send delivered =>
      simp only [serverMachine, Server.step] at hstep
      split at hstep
      · exact Except.ok.inj hstep ▸ h
      · exact h.sendMessageToClient hstep

/-- **The address of a recipient is always found**: between any two steps of the server, and between
the two parts of a tick, clients with a queue have an address and the sockets with an address are
those with a time stamp. -/
theorem serverMachine_located {pf : Platform D} {s : Server D}
    (hs : (serverMachine pf).Reachable s) :
    s.Located ∧
    (∀ now order s', s.cleanupObsoleteConnections now order = .ok s' → s'.Located) ∧
    ∀ delivered, s.sendMessageToClient delivered ≠ .error .missingAddr := by
  have hgm := serverMachine_consistent hs
  have hlocated := (serverMachine_locatedInvariant pf).reachable hs
  exact ⟨hlocated, fun now order s' hclean => hlocated.cleanupObsoleteConnections pf hgm hclean,
    fun delivered => hlocated.addressed.sendMessageToClient_ne delivered⟩

/-- Two players start a game, one of them falls silent and is forgotten, and the other is served. -/
theorem serverMachine_located_two : ∃ s : Server ℤ, (serverMachine fixedPoint).Reachable s ∧
    s.gameManager.mqManager.queues.keys = [[2]] ∧ s.lastCommunicationTs.keys = [[2]] ∧
    s.gameManager.mqManager.isEmpty = false ∧ s.Located ∧
    ∀ delivered, s.sendMessageToClient delivered ≠ .error .missingAddr := by
  obtain ⟨s, hs, hq, hts, hne⟩ := exists_reachable
    (P := fun s => s.gameManager.mqManager.queues.keys = [[2]] ∧
      s.lastCommunicationTs.keys = [[2]] ∧ s.gameManager.mqManager.isEmpty = false)
    (smallBoard 5 (by decide))
    [.said 0 1 1 .right 0 [97], .said 0 2 1 .right 0 [98], .said 2500000 2 1 .right 0 [98],
      .tick 3000000 []] (by decide +kernel)
  obtain ⟨hlocated, -, hne'⟩ := serverMachine_located hs
  exact ⟨s, hs, hq, hts, hne, hlocated, hne'⟩

end ScreenWorms
