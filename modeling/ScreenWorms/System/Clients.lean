import ScreenWorms.Client.Node
import ScreenWorms.Server.History

/-!
# Clients of a server

What a client makes of the datagrams of a server. Each of them is decoded to a part of the log of
one game, whatever the receive buffer held before (`decoded_of_isWire`). So a client goes on and
shows the first lines of each game it has been in, as long as it can take the datagrams it gets
(`Watches`).

## Main definitions

* `IsWire` — a datagram that the server has sent
* `Takes` — a client can take a datagram
* `Watches` — a client shows the first lines of each of its games, one game after another
* `ClientNode.Displays` — what reaches the graphical interface

## Main results

* `Watches.receive`, `Watches.receive_of_not_takes` — what one datagram does
* `Watches.displays` — the bytes for the graphical interface
-/

namespace ScreenWorms

open Machine Client

variable {logs : List EventLog} {datagram : List Byte} {n n' : ClientNode} {msg : ReceivedMessage}

/-! ## Datagrams -/

/-- The bytes of a message with a part of a log. -/
def IsWire (logs : List EventLog) (datagram : List Byte) : Prop :=
  ∃ m q, IsPart logs m q ∧ m.encode.1 = datagram

/-- Whatever a client has received before, the message is decoded to the events it was made of. -/
theorem decoded_encode {m : ServerToClientMessage} {q : ℕ} (h : IsPart logs m q)
    (p : ClientProcess) : p.decoded m.encode.1 = some ⟨m.gameId, m.events.map Event.received⟩ := by
  have hlength := m.length_encode
  have hle := h.encode_le
  have htake : m.encode.1.take inboundServerMessageBufferSize = m.encode.1 :=
    List.take_of_length_le (by rw [inboundServerMessageBufferSize]; omega)
  have hholds : Holds (writeBytes p.buf 0 m.encode.1) 0 m.encode.1 :=
    ⟨[], p.buf.drop (0 + m.encode.1.length), rfl, rfl⟩
  have hdone : ∀ fuel, decodeEvents (writeBytes p.buf 0 m.encode.1) m.encode.2 fuel m.encode.2 =
      .ok [] := by
    intro fuel
    rcases fuel with _ | fuel
    · rfl
    · rw [decodeEvents, if_neg (lt_irrefl _)]
  simp only [ClientProcess.decoded, htake, hlength, if_neg (not_lt.mpr hle),
    ReceivedMessage.decode_append h.gameId_lt h.built hholds le_rfl hle, hdone]
  show some (ReceivedMessage.mk m.gameId (m.events.map Event.received ++ [])) = _
  rw [List.append_nil]

/-- **A datagram of the server** is decoded to a part of a log. -/
theorem decoded_of_isWire (h : IsWire logs datagram) :
    ∃ msg, (∀ p : ClientProcess, p.decoded datagram = some msg) ∧ ∃ log ∈ logs, IsSlice msg log := by
  obtain ⟨m, q, hpart, rfl⟩ := h
  obtain ⟨log, hlog, hid, hprefix⟩ := hpart.log
  exact ⟨_, decoded_encode hpart, log, hlog, hid, hprefix.isInfix.trans (List.drop_suffix q _).isInfix⟩

/-! ## One client -/

/-- The message of a datagram is processed, and the client looks for the next number it misses. -/
theorem readMessageFromServer_of_decoded {p : ClientProcess} {out : List (List Byte)} {c : Client}
    (hmsg : p.decoded datagram = some msg) (hprocess : p.client.processMessageFromServer msg =
      .ok (out, c)) (hmissing : c.nextWantedEventNo ∉ c.events) :
    ∃ p', p.readMessageFromServer datagram = .ok p' := by
  simp only [ClientProcess.decoded] at hmsg
  split at hmsg
  · cases hmsg
  · rename_i hshort
    rcases hdecode : ReceivedMessage.decode
      (writeBytes p.buf 0 (datagram.take inboundServerMessageBufferSize))
      (datagram.take inboundServerMessageBufferSize).length with e | msg'
    · rw [hdecode] at hmsg
      cases hmsg
    · rw [hdecode] at hmsg
      obtain rfl : msg' = msg := Option.some.inj hmsg
      simp only [ClientProcess.readMessageFromServer, if_neg hshort, hdecode, hprocess,
        if_neg hmissing]
      exact ⟨_, rfl⟩

/-- The client can take the message of a datagram. -/
def Takes (datagram : List Byte) (n : ClientNode) : Prop :=
  ∀ msg, n.process.decoded datagram = some msg → Harmless msg n.process.client

/-- All that a client has shown are first lines of games. -/
def ClientNode.Faithful (logs : List EventLog) (n : ClientNode) : Prop :=
  ∀ log ∈ logs, (n.linesOf log.gameId).map some <+: log.rendered

/-- What has been shown of a game, as it was shown. -/
def ClientNode.block (n : ClientNode) (gameId : ℤ) : List (ℤ × List Byte) :=
  (n.linesOf gameId).map (Prod.mk gameId)

/-- The games have been shown one after another. `past` are those before the current one. -/
structure ClientNode.Grouped (logs past : List EventLog) (n : ClientNode) : Prop where
  mem : ∀ log ∈ past, log ∈ logs
  once : (past.map EventLog.gameId).Nodup
  left : ∀ log ∈ past, log.gameId ∈ n.process.client.seenGameIds ∧
    (log.gameId : ℤ) ≠ n.process.client.gameId
  shown : n.shown = past.flatMap (fun log => n.block log.gameId) ++
    n.block n.process.client.gameId

/-- **What holds of a client** that has taken all datagrams. -/
structure Watches (logs : List EventLog) (n : ClientNode) : Prop where
  tagged : n.Tagged
  tracked : Tracked logs n.current
  faithful : n.Faithful logs
  grouped : ∃ past, n.Grouped logs past

theorem watches_init (hn : nodeMachine.init n) : Watches logs n := by
  obtain ⟨p, ⟨unsetWanted, unsetToSend, unsetPlayers, unsetMaxx, unsetMaxy, sessionId, playerName,
    rfl⟩, rfl⟩ := hn
  have hno : ∀ log : EventLog, log ∉ [] := fun _ => List.not_mem_nil
  refine ⟨⟨Or.inl ⟨rfl, rfl⟩, fun x hx => absurd hx List.not_mem_nil⟩, .initial rfl rfl fun i => ?_,
    fun log _ => List.nil_prefix, [], fun log hlog => absurd hlog (hno log), List.nodup_nil,
    fun log hlog => absurd hlog (hno log), rfl⟩
  simp [ClientNode.current, ClientNode.new, ClientProcess.new, Client.new, SortedMap.size]

/-- Whatever else happens to a client, it does not change what it has shown. -/
theorem Watches.frame {op : NodeOp} (h : Watches logs n) (hop : ∀ datagram, op ≠ .receive datagram)
    (hstep : nodeMachine.step op n = .ok n') : Watches logs n' := by
  obtain ⟨hclient, -, -, -, hshown⟩ := step_frame hop hstep
  have hlines : ∀ g, n'.linesOf g = n.linesOf g := fun g => by
    rw [ClientNode.linesOf, ClientNode.linesOf, hshown]
  have hcurrent : n'.current = n.current := by
    rw [ClientNode.current, ClientNode.current, hclient, hlines]
  have hblock : ∀ g, n'.block g = n.block g := fun g => by
    rw [ClientNode.block, ClientNode.block, hlines]
  obtain ⟨past, hpast⟩ := h.grouped
  refine ⟨⟨hclient ▸ h.tagged.entered, fun x hx => hclient ▸ h.tagged.seen x (hshown ▸ hx)⟩,
    hcurrent ▸ h.tracked, fun log hlog => ?_, past, hpast.mem, hpast.once,
    fun log hlog => hclient ▸ hpast.left log hlog, ?_⟩
  · rw [hlines]
    exact h.faithful log hlog
  · simp only [hblock, hclient, hshown]
    exact hpast.shown

/-- The lines of other games stay as they are. -/
theorem linesOf_receive {g : ℤ} (hstep : nodeMachine.step (.receive datagram) n = .ok n')
    (hg : g ≠ n'.process.client.gameId) : n'.linesOf g = n.linesOf g := by
  obtain ⟨p, -, rfl⟩ := step_receive_eq_ok.mp hstep
  have hnone : ((n.process.output datagram).map (Prod.mk p.client.gameId)).filter
      (fun x => x.1 = g) = [] := List.filter_eq_nil_iff.mpr fun x hx => by
    obtain ⟨line, -, rfl⟩ := List.mem_map.mp hx
    simpa using hg.symm
  rw [ClientNode.linesOf, List.filter_append, hnone, List.append_nil, ClientNode.linesOf]

/-- Lines are added to what has been shown of the game that the client is in then. -/
theorem block_receive (hstep : nodeMachine.step (.receive datagram) n = .ok n') :
    ∃ out, n'.shown = n.shown ++ out ∧
      n'.block n'.process.client.gameId = n.block n'.process.client.gameId ++ out := by
  obtain ⟨p, -, rfl⟩ := step_receive_eq_ok.mp hstep
  refine ⟨_, rfl, ?_⟩
  have hall : ((n.process.output datagram).map (Prod.mk p.client.gameId)).filter
      (fun x => x.1 = p.client.gameId) = (n.process.output datagram).map
        (Prod.mk p.client.gameId) := List.filter_eq_self.mpr fun x hx => by
    obtain ⟨line, -, rfl⟩ := List.mem_map.mp hx
    exact decide_eq_true rfl
  simp only [ClientNode.block, ClientNode.linesOf, List.filter_append, hall, List.map_append,
    List.map_map]
  rfl

/-- **One game after another.** A game that the client leaves has been shown before. -/
theorem ClientNode.Grouped.receive {past : List EventLog} (h : n.Grouped logs past)
    (htagged : n.Tagged) (htracked : Tracked logs n.current)
    (hstep : nodeMachine.step (.receive datagram) n = .ok n')
    (hmsg : n.process.decoded datagram = some msg) : ∃ past', n'.Grouped logs past' := by
  obtain ⟨out, hshown, hblock⟩ := block_receive hstep
  have hother : ∀ g, g ≠ n'.process.client.gameId → n'.block g = n.block g := fun g hg => by
    rw [ClientNode.block, linesOf_receive hstep hg, ClientNode.block]
  obtain ⟨c₁, _, no, k, htook, -, ht⟩ :=
    clientMachine_step_cases (htagged.current_receive hstep hmsg)
  have hclient : n'.process.client = { c₁ with nextWantedEventNo := no, nextEventToSendNo := k } :=
    congrArg ClientRun.client ht
  have hid : n'.process.client.gameId = c₁.gameId := by rw [hclient]
  have hseen : n.process.client.seenGameIds ⊆ n'.process.client.seenGameIds := by
    rw [hclient]
    exact htook.seen_mono
  rcases htook.gameId with hsame | ⟨hgame, hne, hnew⟩
  · -- the client stays in its game
    have hstays : n'.process.client.gameId = n.process.client.gameId := hid.trans hsame
    refine ⟨past, h.mem, h.once, fun log hlog => ⟨hseen (h.left log hlog).1, ?_⟩, ?_⟩
    · rw [hstays]
      exact (h.left log hlog).2
    · rw [hblock, hshown, hstays, ← List.append_assoc, h.shown]
      congr 2
      refine List.flatMap_congr fun log hlog => (hother _ ?_).symm
      rw [hstays]
      exact (h.left log hlog).2
  · -- it enters a new one, of which nothing has been shown
    have hgame : n'.process.client.gameId = (msg.gameId : ℤ) := hid.trans hgame
    have hnone : n.block n'.process.client.gameId = [] := by
      rw [ClientNode.block, ClientNode.linesOf, List.filter_eq_nil_iff.mpr, List.map_nil,
        List.map_nil]
      intro x hx
      obtain ⟨g, hg, hx⟩ := htagged.seen x hx
      rw [decide_eq_true_eq, hx, hgame]
      intro heq
      exact hnew (Int.ofNat_inj.mp heq ▸ hg)
    have hleft : ∀ log ∈ past, (log.gameId : ℤ) ≠ n'.process.client.gameId := fun log hlog heq => by
      rw [hgame] at heq
      exact hnew (Int.ofNat_inj.mp heq ▸ (h.left log hlog).1)
    have hpast : past.flatMap (fun log => n'.block log.gameId) =
        past.flatMap fun log => n.block log.gameId :=
      List.flatMap_congr fun log hlog => hother _ (hleft log hlog)
    rw [hnone, List.nil_append] at hblock
    rcases htracked with ⟨hnone, hseen₀, -⟩ | ⟨log, hlog, -, hshows⟩
    · refine ⟨past, h.mem, h.once, fun log hlog => ⟨hseen (h.left log hlog).1, hleft log hlog⟩, ?_⟩
      have hinitial : n.block n.process.client.gameId = [] := by
        rw [ClientNode.block, ClientNode.linesOf, List.filter_eq_nil_iff.mpr, List.map_nil,
          List.map_nil]
        intro x hx
        obtain ⟨g, hg, -⟩ := htagged.seen x hx
        exact absurd (hseen₀ ▸ hg) (Finset.notMem_empty g)
      rw [hblock, hshown, hpast, h.shown, hinitial, List.append_nil]
    · have hcurrent : n.process.client.gameId = log.gameId := hshows.gameId
      have hin : log.gameId ∈ n.process.client.seenGameIds := by
        rcases htagged.entered with ⟨hnot, -⟩ | ⟨g, hg, heq⟩
        · omega
        · exact Int.ofNat_inj.mp (hcurrent.symm.trans heq) ▸ hg
      have hne : (log.gameId : ℤ) ≠ n'.process.client.gameId := by
        rw [← hcurrent, hgame]
        exact hne.symm
      refine ⟨past ++ [log], fun log' hlog' => ?_, ?_, fun log' hlog' => ?_, ?_⟩
      · rcases List.mem_append.mp hlog' with hlog' | hlog'
        · exact h.mem log' hlog'
        · exact List.mem_singleton.mp hlog' ▸ hlog
      · rw [List.map_append, List.map_singleton, List.nodup_append]
        refine ⟨h.once, List.nodup_singleton _, fun g hg g' hg' heq => ?_⟩
        obtain ⟨log', hlog', rfl⟩ := List.mem_map.mp hg
        refine (h.left log' hlog').2 ?_
        rw [hcurrent, heq, List.mem_singleton.mp hg']
      · rcases List.mem_append.mp hlog' with hlog' | hlog'
        · exact ⟨hseen (h.left log' hlog').1, hleft log' hlog'⟩
        · obtain rfl := List.mem_singleton.mp hlog'
          exact ⟨hseen hin, hne⟩
      · rw [hblock, hshown, List.flatMap_append, List.flatMap_singleton, hpast, hother _ hne, h.shown,
          hcurrent]

/-- A client in a game of the logs misses an event. -/
theorem Tracked.missing {r t : ClientRun} (h : Tracked logs r) (h' : Tracked logs t)
    (hids : (logs.map EventLog.gameId).Nodup) (hstep : clientMachine.step msg r = .ok t)
    (hgame : t.client.gameId ≠ -1) : t.client.nextWantedEventNo ∉ t.client.events := by
  obtain ⟨c₁, out, no, m, htook, hpending, rfl⟩ := clientMachine_step_cases hstep
  rcases h' with ⟨hnone, -, -⟩ | ⟨log, hlog, -, hshows⟩
  · exact absurd hnone hgame
  · have hwanted : c₁.nextWantedEventNo ≤ log.events.length := by
      rcases htook.gameId with hid | ⟨-, hne, hnew⟩
      · rcases h with ⟨hnone, -, -⟩ | ⟨log', hlog', -, hshows'⟩
        · exact absurd (hid.trans hnone) hgame
        · have hsame : log = log' := eq_of_gameId hids hlog hlog' (by
            have heq : (log.gameId : ℤ) = log'.gameId :=
              hshows.gameId.symm.trans (hid.trans hshows'.gameId)
            exact_mod_cast heq)
          subst hsame
          rw [(htook.playerNames hid).2]
          exact hshows'.nextWantedEventNo_le
      · rw [htook.nextWantedEventNo hne hnew]
        exact Nat.zero_le _
    show no ∉ c₁.events
    have hno : no = skipStored c₁.events c₁.events.size c₁.nextWantedEventNo :=
      nextWantedEventNo_of_writePending hpending
    rw [hno]
    exact skipStored_not_mem log.length_events_lt hshows.not_mem hwanted

/-- A message makes the client enter a game. -/
theorem gameId_step {r t : ClientRun} (hentered : r.client.Entered)
    (hstep : clientMachine.step msg r = .ok t) : t.client.gameId ≠ -1 := by
  obtain ⟨c₁, out, no, m, htook, -, rfl⟩ := clientMachine_step_cases hstep
  obtain ⟨g, -, hg⟩ := htook.entered hentered
  show c₁.gameId ≠ -1
  omega

section Receive

variable (h : Watches logs n) (hids : (logs.map EventLog.gameId).Nodup)
  (hwire : IsWire logs datagram)

include h hids hwire

/-- **A datagram that the client can take** is taken, and more lines are shown. -/
theorem Watches.receive (htakes : Takes datagram n) :
    ∃ n', nodeMachine.step (.receive datagram) n = .ok n' ∧ Watches logs n' := by
  obtain ⟨msg, hdecoded, hslice⟩ := decoded_of_isWire hwire
  obtain ⟨t, hstep, htracked⟩ := h.tracked.step hids hslice (htakes msg (hdecoded _))
  have hmissing := h.tracked.missing htracked hids hstep (gameId_step h.tagged.entered hstep)
  obtain ⟨n', hn'⟩ : ∃ n', nodeMachine.step (.receive datagram) n = .ok n' := by
    rcases hprocess : n.process.client.processMessageFromServer msg with e | ⟨out, c⟩
    · simp [clientMachine, ClientNode.current, hprocess] at hstep
    · simp only [clientMachine, ClientNode.current, hprocess] at hstep
      obtain rfl := Except.ok.inj hstep
      obtain ⟨p', hp'⟩ := readMessageFromServer_of_decoded (hdecoded _) hprocess hmissing
      exact ⟨_, step_receive_eq_ok.mpr ⟨p', hp', rfl⟩⟩
  have hcurrent : t = n'.current :=
    Except.ok.inj (hstep.symm.trans (h.tagged.current_receive hn' (hdecoded _)))
  rw [hcurrent] at htracked
  obtain ⟨past, hpast⟩ := h.grouped
  refine ⟨n', hn', h.tagged.receive hn', htracked, fun log hlog => ?_,
    hpast.receive h.tagged h.tracked hn' (hdecoded _)⟩
  by_cases hid : (log.gameId : ℤ) = n'.process.client.gameId
  · have hshown := htracked.shown hids log hlog hid.symm
    rw [hid]
    exact hshown
  · rw [linesOf_receive hn' hid]
    exact h.faithful log hlog

end Receive

/-! ## What reaches the graphical interface -/

/-- The bytes for the graphical interface are the first lines of some games, one game after
another. -/
def ClientNode.Displays (logs : List EventLog) (n : ClientNode) : Prop :=
  ∃ parts : List (EventLog × List (List Byte)),
    (∀ x ∈ parts, x.1 ∈ logs ∧ x.2.map some <+: x.1.rendered) ∧
    (parts.map fun x => x.1.gameId).Nodup ∧
    n.gui.written ++ n.gui.guiSock.outBuffer = (parts.flatMap Prod.snd).flatten

theorem map_snd_block (g : ℤ) : (n.block g).map Prod.snd = n.linesOf g := by
  rw [ClientNode.block, List.map_map]
  exact List.map_id _

theorem Watches.displays (h : Watches logs n) (hn : nodeMachine.Reachable n) : n.Displays logs := by
  obtain ⟨past, hpast⟩ := h.grouped
  let part : EventLog → EventLog × List (List Byte) := fun log => (log, n.linesOf log.gameId)
  have hpart : ∀ log ∈ logs, (part log).1 ∈ logs ∧ (part log).2.map some <+: (part log).1.rendered :=
    fun log hlog => ⟨hlog, h.faithful log hlog⟩
  have hlines : n.shown.map Prod.snd = (past.map part).flatMap Prod.snd ++
      n.linesOf n.process.client.gameId := by
    rw [hpast.shown, List.map_append, List.map_flatMap, map_snd_block, List.flatMap_map]
    simp only [map_snd_block, part]
  have hmap : ∀ l : List EventLog, (l.map part).map (fun x => x.1.gameId) =
      l.map EventLog.gameId := fun l => by
    rw [List.map_map]
    rfl
  rw [ClientNode.Displays, nodeMachine_output hn, hlines]
  rcases h.tracked with ⟨hnone, hseen, -⟩ | ⟨log, hlog, -, hshows⟩
  · have hnil : n.linesOf n.process.client.gameId = [] := by
      rw [ClientNode.linesOf, List.filter_eq_nil_iff.mpr, List.map_nil]
      intro x hx
      obtain ⟨g, hg, -⟩ := h.tagged.seen x hx
      exact absurd (hseen ▸ hg) (Finset.notMem_empty g)
    refine ⟨past.map part, fun x hx => ?_, hmap past ▸ hpast.once, by rw [hnil, List.append_nil]⟩
    obtain ⟨log, hlog, rfl⟩ := List.mem_map.mp hx
    exact hpart log (hpast.mem log hlog)
  · have hcurrent : n.process.client.gameId = log.gameId := hshows.gameId
    refine ⟨(past ++ [log]).map part, fun x hx => ?_, ?_, ?_⟩
    · obtain ⟨log', hlog', rfl⟩ := List.mem_map.mp hx
      rcases List.mem_append.mp hlog' with hlog' | hlog'
      · exact hpart log' (hpast.mem log' hlog')
      · exact hpart log' (List.mem_singleton.mp hlog' ▸ hlog)
    · rw [hmap, List.map_append, List.map_singleton, List.nodup_append]
      refine ⟨hpast.once, List.nodup_singleton _, fun g hg g' hg' heq => ?_⟩
      obtain ⟨log', hlog', rfl⟩ := List.mem_map.mp hg
      refine (hpast.left log' hlog').2 ?_
      rw [hcurrent, heq, List.mem_singleton.mp hg']
    · rw [List.map_append, List.flatMap_append, hcurrent]
      simp [part]

end ScreenWorms
