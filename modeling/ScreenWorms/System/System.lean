import ScreenWorms.Common.ClientMessages
import ScreenWorms.ForStd.Network
import ScreenWorms.Server.FixedPoint
import ScreenWorms.System.Clients

/-!
# The whole system

The server, its clients and the network between them. Datagrams may be lost, repeated, delayed and
reordered. Clients come and go, and where there is no client of ours anybody may send anything to
the server. A client is known by its socket, so `Fingerprint` says where it is.

Whatever happens, the server gives only parts of the logs of its games. So a client shows what
happened as long as it can take the datagrams it gets.

## Main definitions

* `serverParty`, `nodeParty`, `system`
* `deliveries` — the datagrams that clients get in a run
* `ClientNode.Displays` — what reaches a graphical interface

## Main results

* `system_decoded` — all that is on its way to a client can be decoded
* `system_faithful_iff` — when all clients go on and show what happened
* `system_displays` — what reaches the graphical interfaces
-/

namespace ScreenWorms

open Machine Client

variable {D : Type}

/-! ## Parties -/

/-- The datagram that `sendMessageToClient` sends, with its recipient. -/
def Server.sent (s : Server D) : Option (Fingerprint × List Byte) :=
  if s.gameManager.mqManager.isEmpty then none
  else
    match s.gameManager.mqManager.getNextMessage with
    | .error _ => none
    | .ok (m, _) => some (m.fingerprint, m.msg.encode.1)

/-- The server on its network. -/
def serverParty (pf : Platform D) : Party (Server D) Server.Op Fault (Fingerprint × List Byte)
    (Fingerprint × List Byte) where
  toMachine := serverMachine pf
  takes
    | .tick _ _ => none
    | .read _ fingerprint _ datagram => some (fingerprint, datagram)
    | .send _ => none
  gives
    | (s, .send true) => s.sent
    | (_, .send false) => none
    | (_, .tick _ _) => none
    | (_, .read _ _ _ _) => none

/-- A client on its network. -/
def nodeParty : Party ClientNode NodeOp NodeFault (List Byte) (List Byte) where
  toMachine := nodeMachine
  takes
    | .receive datagram => some datagram
    | .timer => none
    | .readUpdateFromGui _ => none
    | .flushOutgoing _ => none
    | .send _ => none
  gives
    | (n, .send taken) => (sent (n.process, .send taken)).map ClientToServerMessage.encode
    | (_, .timer) => none
    | (_, .readUpdateFromGui _) => none
    | (_, .flushOutgoing _) => none
    | (_, .receive _) => none

/-- The server and its clients. -/
abbrev System (D : Type) := Net Fingerprint (Server D) ClientNode (List Byte) (List Byte)

/-- Something that happens in the system. -/
abbrev SystemOp := NetOp Fingerprint Server.Op nodeMachine

/-- The system, in whatever order things happen. -/
def system (pf : Platform D) : Machine (System D) SystemOp (NetFault Fault) :=
  netMachine (serverParty pf) nodeParty

/-- A datagram that a client gets, with the client that gets it. -/
def delivery : System D × SystemOp → Option (ClientNode × List Byte)
  | (w, .node i (.receive datagram)) => (w.nodes i).map fun n => (n, datagram)
  | _ => none

/-- The datagrams that clients get in a run. -/
def deliveries (tr : List (System D × SystemOp)) : List (ClientNode × List Byte) :=
  tr.filterMap delivery

/-- What a run has saved. -/
def savedBy (pf : Platform D) (w : System D) (tr : List (System D × SystemOp)) :
    List (ℕ × GameEventVariant) :=
  Server.saved pf w.hub (hubTrace tr)

/-- What the memory of the queue's id held, before there was a game. -/
def unsetIdOf (w : System D) : ℕ := w.hub.gameManager.mqManager.currentlyBroadcastedGameId

variable {pf : Platform D} {w₀ w w' : System D} {tr : List (System D × SystemOp)}
  {logs : List EventLog} {op : SystemOp}

/-! ## The network -/

theorem deliveries_concat (x : System D × SystemOp) :
    deliveries (tr ++ [x]) = deliveries tr ++ (delivery x).toList := by
  rw [deliveries, List.filterMap_append, deliveries]
  cases hx : delivery x <;> simp [hx]

/-- Only sends give something, and what they give is a message of the queue. -/
theorem serverParty_gives {s : Server D} {op : Server.Op} {y : Fingerprint × List Byte}
    (h : (serverParty pf).gives (s, op) = some y) : ∃ m mq, op = .send true ∧
      s.gameManager.mqManager.isEmpty = false ∧
      s.gameManager.mqManager.getNextMessage = .ok (m, mq) ∧ y = (m.fingerprint, m.msg.encode.1) := by
  rcases op with _ | _ | (_ | _)
  · cases h
  · cases h
  · cases h
  · change s.sent = some y at h
    rw [Server.sent] at h
    split at h
    · cases h
    · rename_i hne
      rcases hnext : s.gameManager.mqManager.getNextMessage with e | ⟨m, mq⟩
      · rw [hnext] at h
        cases h
      · rw [hnext] at h
        exact ⟨m, mq, rfl, Bool.eq_false_iff.mpr hne, rfl, (Option.some.inj h).symm⟩

/-- What a client gives is the message that it makes. -/
theorem nodeParty_gives {n : ClientNode} {k : NodeOp} {y : List Byte}
    (h : nodeParty.gives (n, k) = some y) : k = .send true ∧ y = n.process.message.encode := by
  rcases k with _ | _ | _ | _ | taken
  · cases h
  · cases h
  · cases h
  · cases h
  · obtain ⟨msg, hmsg, rfl⟩ := Option.map_eq_some_iff.mp h
    rcases taken with _ | _
    · cases hmsg
    · rw [sent] at hmsg
      split at hmsg
      · rw [Option.some.inj hmsg]
        exact ⟨rfl, rfl⟩
      · cases hmsg

/-- The server reads all bytes of a client's message. -/
theorem encode_eq_of_decode {msg m : ClientToServerMessage}
    (h : ClientToServerMessage.decode (msg.encode.take Server.incomingMsgSize) = some m) :
    m.encode = msg.encode := by
  have hname : msg.playerName.val.length ≤ 20 := msg.playerName.length_le
  have hlength := ClientToServerMessage.length_encode msg
  rw [ClientToServerMessage.playerNameSize, ClientToServerMessage.minStructSize] at hlength
  rw [List.take_of_length_le (by rw [Server.incomingMsgSize]; omega)] at h
  exact ClientToServerMessage.encode_of_decode h

/-- If the server sends only parts of logs, that is what is on its way to the clients. -/
theorem isWire_of_parts (hinit : (system pf).init w₀) (hrun : (system pf).Run w₀ tr w)
    (hparts : ∀ x ∈ hubTrace tr, SendsPart logs x) : ∀ x ∈ w.toNodes, IsWire logs x.2 := by
  obtain ⟨-, -, hnone, -⟩ := hinit
  intro y hy
  rw [toNodes_of_run hrun, hnone, List.nil_append] at hy
  obtain ⟨⟨s, op⟩, hx, hgives⟩ := List.mem_filterMap.mp hy
  obtain ⟨m, mq, rfl, hne, hnext, rfl⟩ := serverParty_gives hgives
  obtain ⟨q, -, hpart⟩ := hparts _ hx true rfl hne m mq hnext
  exact ⟨m.msg, q, hpart, rfl⟩

/-- The server sends only parts of the logs of its games. -/
theorem sendsPart_of_run (hpf : pf.Centred) (hinit : (system pf).init w₀)
    (hrun : (system pf).Run w₀ tr w)
    (hids : DistinctIds (unsetIdOf w₀) (startedIds (savedBy pf w₀ tr))) :
    ∃ logs, History (savedBy pf w₀ tr) logs ∧ ∀ x ∈ hubTrace tr, SendsPart logs x := by
  obtain ⟨⟨config, unsetId, unsetAlive, hhub⟩, -⟩ := hinit
  have hserver : (serverMachine pf).Run w₀.hub (hubTrace tr) w.hub := Run.hub hrun
  rw [savedBy, unsetIdOf, hhub] at hids
  rw [hhub] at hserver
  obtain ⟨logs, hlogs, hparts⟩ := server_sends_parts hpf hserver hids
  exact ⟨logs, by rw [savedBy, hhub]; exact hlogs, hparts⟩

/-- **All that is on its way to a client** are parts of the logs of the server's games. -/
theorem isWire_of_run (hpf : pf.Centred) (hinit : (system pf).init w₀)
    (hrun : (system pf).Run w₀ tr w)
    (hids : DistinctIds (unsetIdOf w₀) (startedIds (savedBy pf w₀ tr))) :
    ∃ logs, History (savedBy pf w₀ tr) logs ∧ ∀ x ∈ w.toNodes, IsWire logs x.2 := by
  obtain ⟨logs, hlogs, hparts⟩ := sendsPart_of_run hpf hinit hrun hids
  exact ⟨logs, hlogs, isWire_of_parts hinit hrun hparts⟩

/-! ## The clients -/

/-- Every client shows the first lines of each of its games. -/
def AllWatch (logs : List EventLog) (w : System D) : Prop :=
  ∀ i n, w.nodes i = some n → Watches logs n

theorem allWatch_init (hinit : (system pf).init w₀) : AllWatch logs w₀ := by
  intro i n hn
  rw [hinit.2.1] at hn
  cases hn

/-- A client changes, and the others do not. -/
theorem AllWatch.update (h : AllWatch logs w) {i : Fingerprint} {n : Option ClientNode}
    (hnodes : w'.nodes = Function.update w.nodes i n) (hn : ∀ m ∈ n, Watches logs m) :
    AllWatch logs w' := by
  intro j m hm
  rw [hnodes] at hm
  by_cases hij : j = i
  · subst hij
    rw [Function.update_self] at hm
    exact hn m hm
  · rw [Function.update_of_ne hij] at hm
    exact h j m hm

/-- A step that is not the delivery of a datagram. -/
theorem AllWatch.step_frame (h : AllWatch logs w) (hstep : (system pf).step op w = .ok w')
    (hnone : delivery (w, op) = none) : AllWatch logs w' := by
  cases op with
  | hub l =>
    obtain ⟨-, _, -, rfl⟩ := step_hub_eq_ok.mp hstep
    exact h
  | node i k =>
    obtain ⟨n, hn, -, ⟨_, -, rfl⟩ | ⟨n', hk, rfl⟩⟩ := step_node_cases hstep
    · exact h.update rfl fun m hm => absurd hm (by simp)
    · refine h.update rfl fun m hm => ?_
      obtain rfl := Option.mem_some.mp hm
      refine (h i n hn).frame (fun datagram heq => ?_) hk
      subst heq
      simp [delivery, hn] at hnone
  | join i n =>
    obtain ⟨-, rfl⟩ := step_join_eq_ok.mp hstep
    exact h.update rfl fun m hm => Option.mem_some.mp hm ▸ watches_init n.property
  | stop i =>
    obtain rfl := Except.ok.inj hstep
    exact h.update rfl fun m hm => absurd hm (by simp)

/-- The delivery of a datagram: what the client does with it. -/
theorem step_delivery (hstep : (system pf).step op w = .ok w') {n : ClientNode}
    {datagram : List Byte} (hsome : delivery (w, op) = some (n, datagram)) :
    ∃ i, w.nodes i = some n ∧ (i, datagram) ∈ w.toNodes ∧
      ((∃ e, nodeMachine.step (.receive datagram) n = .error e ∧
        w'.nodes = Function.update w.nodes i none) ∨
      ∃ n', nodeMachine.step (.receive datagram) n = .ok n' ∧
        w'.nodes = Function.update w.nodes i (some n')) := by
  rcases op with l | ⟨i, k⟩ | ⟨i, n₀⟩ | i
  · cases hsome
  · rcases k with _ | _ | _ | datagram' | _
    · cases hsome
    · cases hsome
    · cases hsome
    · obtain ⟨m, hm, hgiven, hcases⟩ := step_node_cases hstep
      simp only [delivery, hm, Option.map_some, Option.some.injEq, Prod.mk.injEq] at hsome
      obtain ⟨rfl, rfl⟩ := hsome
      refine ⟨i, hm, hgiven datagram' rfl, ?_⟩
      rcases hcases with ⟨e, he, rfl⟩ | ⟨n', hn', rfl⟩
      · exact Or.inl ⟨e, he, rfl⟩
      · exact Or.inr ⟨n', hn', rfl⟩
    · cases hsome
  · cases hsome
  · cases hsome

section Run

variable (hids : (logs.map EventLog.gameId).Nodup)

include hids

/-- **As long as clients can take what they get**, they go on and show what happened. -/
theorem allWatch_run (hinit : (system pf).init w₀) (hrun : (system pf).Run w₀ tr w)
    (hwire : ∀ x ∈ w.toNodes, IsWire logs x.2) (htakes : ∀ x ∈ deliveries tr, Takes x.2 x.1) :
    AllWatch logs w ∧ ∀ x ∈ deliveries tr, ∃ n', nodeMachine.step (.receive x.2) x.1 = .ok n' ∧
      n'.Faithful logs := by
  induction hrun with
  | nil => exact ⟨allWatch_init hinit, fun x hx => absurd hx List.not_mem_nil⟩
  | @snoc tr u v op hrun hstep ih =>
    have hsub : ∀ x ∈ u.toNodes, IsWire logs x.2 := fun x hx =>
      hwire x ((step_mono hstep).1.subset hx)
    rw [deliveries_concat] at htakes ⊢
    obtain ⟨hall, hgood⟩ := ih hsub fun x hx => htakes x (List.mem_append_left _ hx)
    rcases hdelivery : delivery (u, op) with _ | ⟨n, datagram⟩
    · refine ⟨hall.step_frame hstep hdelivery, ?_⟩
      rw [Option.toList_none, List.append_nil]
      exact hgood
    · rw [hdelivery] at htakes
      obtain ⟨i, hn, hgiven, hcases⟩ := step_delivery hstep hdelivery
      obtain ⟨n', hn', hwatches⟩ := (hall i n hn).receive hids (hsub _ hgiven)
        (htakes (n, datagram) (List.mem_append_right _ (List.mem_singleton_self _)))
      refine ⟨?_, fun x hx => ?_⟩
      · rcases hcases with ⟨e, he, -⟩ | ⟨n₁, hn₁, hnodes⟩
        · cases he.symm.trans hn'
        · obtain rfl := Except.ok.inj (hn'.symm.trans hn₁)
          exact hall.update hnodes fun m hm => Option.mem_some.mp hm ▸ hwatches
      · rcases List.mem_append.mp hx with hx | hx
        · exact hgood x hx
        · rw [List.mem_singleton.mp hx]
          exact ⟨n', hn', hwatches.faithful⟩

end Run

/-! ## A run with two clients -/

theorem five_lt_seeds : 5 < 2 ^ 32 := by decide

/-- A client presses a key, and its next message reaches the server. -/
def pressesKey (i : Fingerprint) (sessionId : ℕ) (c : Byte)
    (h : isValidPlayerName [c] = true) : List SystemOp :=
  [.node i (.readUpdateFromGui (.yields (ascii "LEFT_KEY_DOWN\n") length_leftKeyDown)),
    .node i (.readUpdateFromGui .failed), .node i .timer, .node i (.send true),
    .hub (.read 0 i [] (letter sessionId .left c h).encode)]

/-- The first events of a game of `a` and `b`. -/
def firstEvents : ServerToClientMessage :=
  ⟨5, [⟨0, .newGame (.ofNames 16 16 [[97], [98]])⟩, ⟨1, .pixel ⟨0, 5, 8⟩⟩, ⟨2, .pixel ⟨1, 5, 14⟩⟩]⟩

/-- Two clients join and start a game, and both get its first events. -/
def twoClients : List SystemOp :=
  .join [1] (newcomer 1 97 isValidPlayerName_a) :: .join [2] (newcomer 2 98 isValidPlayerName_b) ::
    (pressesKey [1] 1 97 isValidPlayerName_a ++ pressesKey [2] 2 98 isValidPlayerName_b ++
      [.hub (.send true), .hub (.send true), .node [2] (.receive firstEvents.encode.1),
        .node [1] (.receive firstEvents.encode.1), .node [1] (.flushOutgoing (.takes 100))])

/-- The system before anything has happened. -/
def emptySystem : System ℤ where
  hub := .new (smallBoard 5 five_lt_seeds) 0 0
  nodes := fun _ => none
  toNodes := []
  toHub := []

/-- What holds of the run of two clients. -/
theorem exists_run_twoClients : ∃ tr w, (system fixedPoint).init emptySystem ∧
    (system fixedPoint).Run emptySystem tr w ∧ tr.map Prod.snd = twoClients ∧
    DistinctIds (unsetIdOf emptySystem) (startedIds (savedBy fixedPoint emptySystem tr)) ∧
    (∀ x ∈ deliveries tr, x.1.process.client.gameId = -1) ∧
    ∀ n ∈ w.nodes [1], n.gui.written = ascii "NEW_GAME 16 16 a b\nPIXEL 5 8 a\nPIXEL 5 14 b\n" := by
  have hok : ((system fixedPoint).exec twoClients emptySystem).isOk = true := by decide +kernel
  obtain ⟨w, hexec⟩ := Except.exists_of_isOk hok
  have hstarted : startedIds (savedBy fixedPoint emptySystem
      ((system fixedPoint).trace twoClients emptySystem)) = [5] := by decide +kernel
  have hwritten : (match (system fixedPoint).exec twoClients emptySystem with
      | .ok w => decide (∀ n ∈ w.nodes [1], n.gui.written =
        ascii "NEW_GAME 16 16 a b\nPIXEL 5 8 a\nPIXEL 5 14 b\n")
      | .error _ => false) = true := by decide +kernel
  rw [hexec] at hwritten
  exact ⟨_, w, ⟨⟨_, 0, 0, rfl⟩, rfl, rfl, rfl⟩, run_trace hexec, map_snd_trace hexec,
    hstarted ▸ ⟨List.nodup_singleton 5, List.not_mem_nil⟩, by decide +kernel,
    of_decide_eq_true hwritten⟩

/-- A client that is not in a game yet can take every datagram. -/
theorem takes_of_initial {datagram : List Byte} {n : ClientNode}
    (h : n.process.client.gameId = -1) : Takes datagram n := by
  intro msg _ hid
  omega

/-! ## What the clients show -/

/-- **All that is on its way to a client can be decoded.** Whatever has happened so far, a datagram
fits, and whatever the client has received before, it is decoded to events of one game that follow
each other, and to at least one. -/
theorem system_decoded (hpf : pf.Centred) (hinit : (system pf).init w₀)
    (hrun : (system pf).Run w₀ tr w)
    (hids : DistinctIds (unsetIdOf w₀) (startedIds (savedBy pf w₀ tr))) :
    ∃ logs, History (savedBy pf w₀ tr) logs ∧ ∀ x ∈ w.toNodes,
      x.2.length ≤ maxUdpDataFieldSize ∧ ∃ msg, (∀ p : ClientProcess, p.decoded x.2 = some msg) ∧
        msg.events ≠ [] ∧ ∃ log ∈ logs, IsSlice msg log := by
  obtain ⟨logs, hlogs, hwire⟩ := isWire_of_run hpf hinit hrun hids
  refine ⟨logs, hlogs, fun x hx => ?_⟩
  obtain ⟨m, q, hpart, hbytes⟩ := hwire x hx
  obtain ⟨log, hlog, hid, hprefix⟩ := hpart.log
  rw [← hbytes, m.length_encode]
  refine ⟨hpart.encode_le, _, decoded_encode hpart, ?_, log, hlog, hid, ?_⟩
  · exact fun hnil => hpart.events_ne_nil (List.map_eq_nil_iff.mp hnil)
  · exact hprefix.isInfix.trans (List.drop_suffix q _).isInfix

/-- The datagrams for the two clients. -/
theorem system_decoded_two : ∃ tr w, (system fixedPoint).Run emptySystem tr w ∧
    tr.map Prod.snd = twoClients ∧ ∃ logs, History (savedBy fixedPoint emptySystem tr) logs ∧
    ∀ x ∈ w.toNodes,
      x.2.length ≤ maxUdpDataFieldSize ∧ ∃ msg, (∀ p : ClientProcess, p.decoded x.2 = some msg) ∧
        msg.events ≠ [] ∧ ∃ log ∈ logs, IsSlice msg log := by
  obtain ⟨tr, w, hinit, hrun, hops, hids, -⟩ := exists_run_twoClients
  obtain ⟨logs, hlogs, hall⟩ := system_decoded fixedPoint_centred hinit hrun hids
  exact ⟨tr, w, hrun, hops, logs, hlogs, hall⟩

/-- As long as the datagrams are harmless, every client that is there shows what happened. -/
theorem watches_of_run (hpf : pf.Centred) (hinit : (system pf).init w₀)
    (hrun : (system pf).Run w₀ tr w)
    (hids : DistinctIds (unsetIdOf w₀) (startedIds (savedBy pf w₀ tr)))
    (htakes : ∀ x ∈ deliveries tr, Takes x.2 x.1) :
    ∃ logs, History (savedBy pf w₀ tr) logs ∧
      ∀ i n, w.nodes i = some n → Watches logs n ∧ nodeMachine.Reachable n := by
  obtain ⟨logs, hlogs, hwire⟩ := isWire_of_run hpf hinit hrun hids
  have hnodup : (logs.map EventLog.gameId).Nodup := hlogs.ids ▸ hids.nodup
  obtain ⟨hall, -⟩ := allWatch_run hnodup hinit hrun hwire htakes
  refine ⟨logs, hlogs, fun i n hn => ⟨hall i n hn, ?_⟩⟩
  obtain ⟨n₀, ntr, hn₀, hnode, -⟩ := Run.node hinit hrun hn
  exact (Machine.Reachable.init hn₀).run hnode

/-- **What reaches the graphical interfaces.** As long as the datagrams are harmless, each client
has passed on first lines of the server's games, one game after another, and nothing else. -/
theorem system_displays (hpf : pf.Centred) (hinit : (system pf).init w₀)
    (hrun : (system pf).Run w₀ tr w)
    (hids : DistinctIds (unsetIdOf w₀) (startedIds (savedBy pf w₀ tr)))
    (htakes : ∀ x ∈ deliveries tr, Takes x.2 x.1) :
    ∃ logs, History (savedBy pf w₀ tr) logs ∧
      ∀ i n, w.nodes i = some n → n.Displays logs := by
  obtain ⟨logs, hlogs, hall⟩ := watches_of_run hpf hinit hrun hids htakes
  refine ⟨logs, hlogs, fun i n hn => ?_⟩
  obtain ⟨hwatches, hreach⟩ := hall i n hn
  exact hwatches.displays hreach

/-- The first client has passed on the first lines of the game. -/
theorem system_displays_two : ∃ tr w, (system fixedPoint).Run emptySystem tr w ∧
    tr.map Prod.snd = twoClients ∧ ∃ logs, History (savedBy fixedPoint emptySystem tr) logs ∧
    ∀ n ∈ w.nodes [1], n.Displays logs ∧
      n.gui.written = ascii "NEW_GAME 16 16 a b\nPIXEL 5 8 a\nPIXEL 5 14 b\n" := by
  obtain ⟨tr, w, hinit, hrun, hops, hids, hnew, hwritten⟩ := exists_run_twoClients
  obtain ⟨logs, hlogs, hall⟩ := system_displays fixedPoint_centred hinit hrun hids
    fun x hx => takes_of_initial (hnew x hx)
  exact ⟨tr, w, hrun, hops, logs, hlogs, fun n hn => ⟨hall [1] n hn, hwritten n hn⟩⟩

end ScreenWorms
