import ScreenWorms.Server.Positions
import ScreenWorms.System.System

/-!
# Catching up

The server takes an event for received as soon as it has sent it, and learns only from requests that
it has not. So a client that has asked for what it misses gets the rest of the log, if the network
loses nothing from then on. Datagrams may still be repeated and come in any order, and requests may
be lost or late, since a request of this game only puts the server back.

## Main definitions

* `Carries` — a datagram with an event of a game
* `InStep` — the server is not ahead of a client
* `Catching` — what holds while a client gets all that the server gives for it

## Main results

* `Catching.step`, `catching_run`
* `system_catches_up` — the server stays in step, and at the end of a log all has been shown
-/

namespace ScreenWorms

open Machine Client MQManager

variable {D : Type}

/-! ## Requests -/

/-- The server reads the number that the client has asked for. -/
theorem nextExpectedEventNo_of_decode {msg m : ClientToServerMessage}
    (hno : msg.nextExpectedEventNo < 2 ^ 32)
    (h : ClientToServerMessage.decode (msg.encode.take Server.incomingMsgSize) = some m) :
    m.nextExpectedEventNo = msg.nextExpectedEventNo := by
  have hbytes := encode_eq_of_decode h
  rw [ClientToServerMessage.encode, ClientToServerMessage.encode] at hbytes
  obtain ⟨-, hrest⟩ := List.append_inj hbytes (by simp only [length_toBigEndian])
  obtain ⟨hnumber, -⟩ := List.append_inj (List.cons.inj hrest).2 (by simp only [length_toBigEndian])
  have hm : m.nextExpectedEventNo < 256 ^ 4 := by
    obtain ⟨-, -, -, -, -, hread⟩ := ClientToServerMessage.decode_eq_some.mp h
    rw [← hread]
    exact (bigEndian_lt _).trans_le (Nat.pow_le_pow_right (by decide) (List.length_take_le _ _))
  have hsame := congrArg bigEndian hnumber
  rwa [bigEndian_toBigEndian 4 hm, bigEndian_toBigEndian 4 (hno.trans_le (by decide))] at hsame

/-! ## What a client has -/

section Node

variable {logs : List EventLog} {n n' : ClientNode} {op : NodeOp} {datagram : List Byte} {g no : ℕ}

/-- A datagram with an event of a game. -/
def Carries (gameId no : ℕ) (datagram : List Byte) : Prop :=
  ∃ msg, (∀ p : ClientProcess, p.decoded datagram = some msg) ∧ msg.gameId = gameId ∧
    ∃ e ∈ msg.events, e.eventNo = no

/-- A client in a game wants an event that it has not got. -/
theorem nodeMachine_missing : nodeMachine.Invariant fun n =>
    n.process.client.gameId = -1 ∨ n.process.client.nextWantedEventNo ∉ n.process.client.events where
  init n hn := by
    obtain ⟨p, ⟨_, _, _, _, _, _, _, rfl⟩, rfl⟩ := hn
    exact Or.inl rfl
  step n op n' _ h hstep := by
    by_cases hop : ∀ datagram, op ≠ .receive datagram
    · obtain ⟨hclient, -⟩ := step_frame hop hstep
      rw [hclient]
      exact h
    · simp only [not_forall, not_not] at hop
      obtain ⟨datagram, rfl⟩ := hop
      obtain ⟨p, hread, rfl⟩ := step_receive_eq_ok.mp hstep
      rw [ClientProcess.readMessageFromServer] at hread
      simp only at hread
      split at hread
      · obtain rfl := Except.ok.inj hread
        exact h
      · split at hread
        · cases hread
        · split at hread
          · cases hread
          · split at hread
            · cases hread
            · rename_i hmissing
              obtain rfl := Except.ok.inj hread
              exact Or.inr hmissing

/-- A client in a game shows it. -/
theorem Watches.exists_shows (h : Watches logs n) (hid : n.process.client.gameId = g) :
    ∃ log ∈ logs, log.gameId = g ∧ Shows log n.process.client (n.linesOf g) := by
  rcases h.tracked with ⟨hnone, -, -⟩ | ⟨log, hlog, -, hshows⟩
  · have hnone : n.process.client.gameId = -1 := hnone
    omega
  · have hgame : n.process.client.gameId = log.gameId := hshows.gameId
    refine ⟨log, hlog, by omega, ?_⟩
    rw [← hid]
    exact hshows

/-- A client that stays in its game keeps all events. -/
theorem events_receive (hstep : nodeMachine.step (.receive datagram) n = .ok n')
    (hid : n'.process.client.gameId = n.process.client.gameId) :
    ∀ no ∈ n.process.client.events, no ∈ n'.process.client.events := by
  intro no hno
  obtain ⟨p, hread, rfl⟩ := step_receive_eq_ok.mp hstep
  rcases readMessageFromServer_eq_ok hread with ⟨-, -, hclient⟩ | ⟨msg, -, hprocess⟩
  · show no ∈ p.client.events
    rw [hclient]
    exact hno
  · obtain ⟨c₁, wanted, toSend, htook, hc⟩ := processMessageFromServer_eq_ok hprocess
    change p.client.gameId = _ at hid
    show no ∈ p.client.events
    rw [hc] at hid ⊢
    obtain ⟨e, he⟩ := SortedMap.mem_iff_find?.mp hno
    exact SortedMap.mem_of_find? (htook.find? hid he)

/-- It stores what a datagram of its game has. -/
theorem mem_events_receive (hstep : nodeMachine.step (.receive datagram) n = .ok n')
    (hid : n.process.client.gameId = g) (hcarries : Carries g no datagram) :
    no ∈ n'.process.client.events := by
  obtain ⟨msg, hdecoded, hgame, e, he, rfl⟩ := hcarries
  obtain ⟨p, hread, rfl⟩ := step_receive_eq_ok.mp hstep
  rcases readMessageFromServer_eq_ok hread with ⟨hnone, -, -⟩ | ⟨msg', hsome, hprocess⟩
  · cases hnone.symm.trans (hdecoded _)
  · obtain rfl : msg = msg' := Option.some.inj ((hdecoded _).symm.trans hsome)
    obtain ⟨c₁, wanted, toSend, htook, hc⟩ := processMessageFromServer_eq_ok hprocess
    have hsame : (msg.gameId : ℤ) = n.process.client.gameId := by omega
    show e.eventNo ∈ p.client.events
    rw [hc]
    rcases htook with ⟨hne, -⟩ | - | ⟨hne, -, -⟩ | ⟨hne, -, -, -, -⟩
    · exact absurd hsame hne
    · exact mem_store.mpr (Or.inr ⟨e, he, rfl⟩)
    · exact absurd hsame hne
    · exact absurd hsame hne

/-- A client that stays in its game wants the event that it wanted, or a later one. -/
theorem Watches.keeps (h : Watches logs n) (hreach : nodeMachine.Reachable n)
    (hstep : nodeMachine.step op n = .ok n') (hid : n.process.client.gameId = g)
    (hid' : n'.process.client.gameId = g) :
    (∀ no ∈ n.process.client.events, no ∈ n'.process.client.events) ∧
      n.process.client.nextWantedEventNo ≤ n'.process.client.nextWantedEventNo := by
  by_cases hop : ∀ datagram, op ≠ .receive datagram
  · obtain ⟨hclient, -⟩ := step_frame hop hstep
    rw [hclient]
    exact ⟨fun _ hno => hno, le_rfl⟩
  · simp only [not_forall, not_not] at hop
    obtain ⟨datagram, rfl⟩ := hop
    have hevents := events_receive hstep (hid'.trans hid.symm)
    refine ⟨hevents, not_lt.mp fun hlt => ?_⟩
    obtain ⟨log, -, -, hshows⟩ := h.exists_shows hid
    rcases nodeMachine_missing.reachable (hreach.step hstep) with hnone | hmissing
    · omega
    · exact hmissing (hevents _ (hshows.before _ hlt))

end Node

/-! ## The server and one client -/

/-- The server broadcasts the game that the client at `i` is in. -/
def Together (i : Fingerprint) (gameId : ℕ) (w : System D) : Prop :=
  w.hub.gameManager.mqManager.currentlyBroadcastedGameId = gameId ∧
    ∃ n, w.nodes i = some n ∧ n.process.client.gameId = gameId

/-- The client at `i` has asked for no event that it does not want yet. -/
def NoneAhead (i : Fingerprint) (w : System D) : Prop :=
  ∀ n ∈ w.nodes i, ∀ datagram, (i, datagram) ∈ w.toHub → ∀ m,
    ClientToServerMessage.decode (datagram.take Server.incomingMsgSize) = some m →
      m.nextExpectedEventNo ≤ n.process.client.nextWantedEventNo

/-- The server is not ahead of the client at `i`, and no request of it makes it so. -/
structure InStep (i : Fingerprint) (w : System D) : Prop where
  position : ∀ n ∈ w.nodes i, ∀ pos ∈ w.hub.gameManager.mqManager.queues.find? i,
    pos ≤ n.process.client.nextWantedEventNo
  requests : NoneAhead i w

/-- **Catching up.** A run `tr` has led from `w₁` to `w`. The client at `i` has each event that the
server takes for received, or it has been given for it since. -/
structure Catching (w₁ : System D) (i : Fingerprint) (gameId : ℕ) (tr : List (System D × SystemOp))
    (w : System D) : Prop where
  since : w₁.toNodes <+: w.toNodes
  requests : NoneAhead i w
  covered : ∀ n ∈ w.nodes i, ∀ pos ∈ w.hub.gameManager.mqManager.queues.find? i, ∀ no < pos,
    no ∈ n.process.client.events ∨
      ∃ datagram, (i, datagram) ∈ w.toNodes.drop w₁.toNodes.length ∧ Carries gameId no datagram
  received : ∀ n ∈ w.nodes i, ∀ u datagram, (u, .node i (.receive datagram)) ∈ tr →
    ∀ no, Carries gameId no datagram → no ∈ n.process.client.events

section Steps

variable {pf : Platform D} {w₁ w w' : System D} {tr : List (System D × SystemOp)}
  {i : Fingerprint} {g : ℕ} {logs : List EventLog}

/-- A message with a part of a log carries its events. -/
theorem IsPart.carries {m : ServerToClientMessage} {q no : ℕ} (h : IsPart logs m q) (hge : q ≤ no)
    (hlt : no < q + m.events.length) : Carries m.gameId no m.encode.1 := by
  obtain ⟨log, -, -, hprefix⟩ := h.log
  have hj : no - q < (m.events.map Event.received).length := by
    rw [List.length_map]
    omega
  have hget := List.prefix_iff_getElem?.mp hprefix (no - q) hj
  rw [List.getElem?_drop, EventLog.events, getElem?_withNumbers,
    show q + (no - q) = no by omega] at hget
  obtain ⟨event, -, hevent⟩ := Option.map_eq_some_iff.mp hget
  refine ⟨_, decoded_encode h, rfl, _, List.getElem_mem hj, ?_⟩
  rw [← hevent]

theorem Catching.init (h : InStep i w) (hwatch : AllWatch logs w) (hu : Together i g w) :
    Catching w i g [] w := by
  refine ⟨List.prefix_rfl, h.requests, fun n hn pos hpos no hno => ?_,
    fun n hn u datagram hmem => absurd hmem List.not_mem_nil⟩
  obtain ⟨-, n₀, hn₀, hid⟩ := hu
  obtain rfl : n₀ = n := Option.some.inj (hn₀.symm.trans hn)
  obtain ⟨log, -, -, hshows⟩ := (hwatch i _ hn₀).exists_shows hid
  exact Or.inl (hshows.before no (hno.trans_le (h.position _ hn pos hpos)))

/-- **A step of the client** keeps what it has. -/
theorem Catching.step_node {k : NodeOp} (h : Catching w₁ i g tr w) (hwatch : AllWatch logs w)
    (hreach : ∀ n ∈ w.nodes i, nodeMachine.Reachable n) (hu : Together i g w)
    (hu' : Together i g w') (hstep : (system pf).step (.node i k) w = .ok w') :
    Catching w₁ i g (tr ++ [(w, .node i k)]) w' := by
  obtain ⟨-, n₀, hn₀, hid⟩ := hu
  obtain ⟨-, n₁, hn₁, hid'⟩ := hu'
  obtain ⟨n, hn, -, ⟨e, -, rfl⟩ | ⟨n', hk, rfl⟩⟩ := step_node_cases hstep
  · simp at hn₁
  · obtain rfl : n₀ = n := Option.some.inj (hn₀.symm.trans hn)
    obtain rfl : n' = n₁ := by simpa using hn₁
    have hsame : ∀ m ∈ (Function.update w.nodes i (some n')) i, n' = m := fun m hm => by
      simpa using hm
    obtain ⟨hevents, hwanted⟩ := (hwatch i n₀ hn₀).keeps (hreach n₀ hn₀) hk hid hid'
    refine ⟨h.since, fun m hm datagram hmem msg hmsg => ?_, fun m hm pos hpos no hno => ?_,
      fun m hm u datagram hmem no hcarries => ?_⟩
    · obtain rfl := hsame m hm
      rcases List.mem_append.mp hmem with hmem | hmem
      · exact (h.requests n₀ hn₀ datagram hmem msg hmsg).trans hwanted
      · -- the request that is sent now
        obtain ⟨y, hy, heq⟩ := Option.map_eq_some_iff.mp (Option.mem_toList.mp hmem)
        obtain rfl := (Prod.mk.inj heq).2
        obtain ⟨-, rfl⟩ := nodeParty_gives hy
        obtain ⟨log, -, -, hshows⟩ := (hwatch i n₀ hn₀).exists_shows hid
        have hlt := hshows.nextWantedEventNo_le.trans_lt log.length_events_lt
        rw [nextExpectedEventNo_of_decode hlt hmsg]
        exact hwanted
    · obtain rfl := hsame m hm
      exact (h.covered n₀ hn₀ pos hpos no hno).imp_left (hevents no)
    · obtain rfl := hsame m hm
      rcases List.mem_append.mp hmem with hmem | hmem
      · exact hevents no (h.received n₀ hn₀ u datagram hmem no hcarries)
      · cases List.mem_singleton.mp hmem
        exact mem_events_receive hk hid hcarries

/-- Steps of other clients. -/
theorem Catching.step_other {op : SystemOp} (h : Catching w₁ i g tr w)
    (hhub : w'.hub = w.hub) (hnodes : w'.nodes i = w.nodes i) (hto : w'.toNodes = w.toNodes)
    (hrequests : ∀ datagram, (i, datagram) ∈ w'.toHub → (i, datagram) ∈ w.toHub)
    (hop : ∀ datagram, op ≠ .node i (.receive datagram)) :
    Catching w₁ i g (tr ++ [(w, op)]) w' := by
  refine ⟨hto ▸ h.since, fun n hn datagram hmem => ?_, fun n hn pos hpos => ?_,
    fun n hn u datagram hmem => ?_⟩
  · exact h.requests n (hnodes ▸ hn) datagram (hrequests datagram hmem)
  · rw [hto]
    exact h.covered n (hnodes ▸ hn) pos (hhub ▸ hpos)
  · rcases List.mem_append.mp hmem with hmem | hmem
    · exact h.received n (hnodes ▸ hn) u datagram hmem
    · cases List.mem_singleton.mp hmem
      exact absurd rfl (hop datagram)

/-- **A step of the server** moves it on past events that it gives, or to an event that the client
has asked for. -/
theorem Catching.step_hub {l : Server.Op} (h : Catching w₁ i g tr w) (hwatch : AllWatch logs w)
    (hreach : (serverMachine pf).Reachable w.hub) (hu : Together i g w) (hu' : Together i g w')
    (hparts : SendsPart logs (w.hub, l))
    (hstep : (system pf).step (.hub l) w = .ok w') :
    Catching w₁ i g (tr ++ [(w, .hub l)]) w' := by
  obtain ⟨hgiven, hub, hl, rfl⟩ := step_hub_eq_ok.mp hstep
  obtain ⟨-, n₀, hn₀, hid⟩ := hu
  have hprefix : w.toNodes <+: w.toNodes ++ ((serverParty pf).gives (w.hub, l)).toList :=
    List.prefix_append _ _
  have hold : ∀ n ∈ w.nodes i, ∀ pos, (w.hub.gameManager.mqManager.queues.find? i = some pos ∨
      pos = 0) → ∀ no < pos, no ∈ n.process.client.events ∨ ∃ datagram,
        (i, datagram) ∈ (w.toNodes ++ ((serverParty pf).gives (w.hub, l)).toList).drop
          w₁.toNodes.length ∧ Carries g no datagram := by
    rintro n hn pos (hpos | rfl) no hno
    · refine (h.covered n hn pos hpos no hno).imp_right ?_
      rintro ⟨datagram, hmem, hcarries⟩
      exact ⟨datagram, List.IsPrefix.subset (List.IsPrefix.drop hprefix _) hmem, hcarries⟩
    · exact absurd hno (Nat.not_lt_zero no)
  refine ⟨h.since.trans hprefix, h.requests, fun n hn pos hpos no hno => ?_,
    fun n hn u datagram hmem => ?_⟩
  · by_cases hop : ∀ delivered, l ≠ .send delivered
    · rcases Server.find?_queues_step hreach hop hl hpos with hsame | ⟨now, addr, datagram, m, rfl,
        hm, hle⟩
      · exact hold n hn pos (Or.inl hsame) no hno
      · -- a request of the client
        have hsent : (i, datagram) ∈ w.toHub := hgiven _ rfl (by rw [hn₀]; rfl)
        obtain rfl : n₀ = n := Option.some.inj (hn₀.symm.trans hn)
        obtain ⟨log, -, -, hshows⟩ := (hwatch i n₀ hn₀).exists_shows hid
        have hbehind := h.requests n₀ hn₀ datagram hsent m hm
        exact Or.inl (hshows.before no (by omega))
    · simp only [not_forall, not_not] at hop
      obtain ⟨delivered, rfl⟩ := hop
      rcases Server.step_send_eq_ok hl with ⟨-, rfl⟩ | ⟨hne, gm, hsend, rfl⟩
      · exact hold n hn pos (Or.inl hpos) no hno
      · obtain ⟨m, mq, hnext, hgame, hcases⟩ := GameManager.find?_queues_send hsend hpos
        rcases hcases with hsame | ⟨rfl, hf, q, hq, hle⟩
        · exact hold n hn pos (find?_queues_switchGame_cases hsame) no hno
        · by_cases hlt : no < q
          · exact hold n hn q (find?_queues_switchGame_cases hq) no hlt
          · -- an event of the message
            obtain ⟨q', hq', hpart⟩ := hparts true rfl hne m mq hnext
            obtain rfl : q = q' := Option.some.inj (hq.symm.trans (hf ▸ hq'))
            have hgives : (serverParty pf).gives (w.hub, .send true) =
                some (m.fingerprint, m.msg.encode.1) := by
              show w.hub.sent = _
              rw [Server.sent, hne, hnext]
              rfl
            have hgameId : m.msg.gameId = g := hgame.trans hu'.1
            refine Or.inr ⟨m.msg.encode.1, ?_, hgameId ▸ hpart.carries (not_lt.mp hlt) (by omega)⟩
            rw [hgives, List.drop_append_of_le_length h.since.length_le]
            exact List.mem_append_right _ (by simp [hf])
  · rcases List.mem_append.mp hmem with hmem | hmem
    · exact h.received n hn u datagram hmem
    · cases List.mem_singleton.mp hmem

/-- **One step.** -/
theorem Catching.step {op : SystemOp} (h : Catching w₁ i g tr w) (hwatch : AllWatch logs w)
    (hnodes : ∀ n ∈ w.nodes i, nodeMachine.Reachable n)
    (hreach : (serverMachine pf).Reachable w.hub) (hu : Together i g w) (hu' : Together i g w')
    (hparts : ∀ x ∈ hubStep (w, op), SendsPart logs x)
    (hstep : (system pf).step op w = .ok w') : Catching w₁ i g (tr ++ [(w, op)]) w' := by
  obtain ⟨n₀, hn₀, -⟩ := hu.2
  obtain ⟨n₁, hn₁, -⟩ := hu'.2
  cases op with
  | hub l => exact h.step_hub hwatch hreach hu hu' (hparts _ rfl) hstep
  | node j k =>
    by_cases hij : i = j
    · subst hij
      exact h.step_node hwatch hnodes hu hu' hstep
    · have hop : ∀ datagram, (NetOp.node j k : SystemOp) ≠ .node i (.receive datagram) :=
        fun datagram heq => by
          cases heq
          exact hij rfl
      obtain ⟨n, -, -, ⟨e, -, rfl⟩ | ⟨n', -, rfl⟩⟩ := step_node_cases hstep
      · exact h.step_other rfl (Function.update_of_ne hij _ _) rfl (fun _ hmem => hmem) hop
      · refine h.step_other rfl (Function.update_of_ne hij _ _) rfl (fun datagram hmem => ?_) hop
        rcases List.mem_append.mp hmem with hmem | hmem
        · exact hmem
        · obtain ⟨y, -, heq⟩ := Option.map_eq_some_iff.mp (Option.mem_toList.mp hmem)
          exact absurd (Prod.mk.inj heq).1.symm hij
  | join j n =>
    obtain ⟨hnone, rfl⟩ := step_join_eq_ok.mp hstep
    have hij : i ≠ j := fun heq => by
      rw [← heq, hn₀] at hnone
      cases hnone
    exact h.step_other rfl (Function.update_of_ne hij _ _) rfl (fun _ hmem => hmem) (by simp)
  | stop j =>
    obtain rfl := Except.ok.inj hstep
    have hij : i ≠ j := fun heq => by
      subst heq
      simp at hn₁
    exact h.step_other rfl (Function.update_of_ne hij _ _) rfl (fun _ hmem => hmem) (by simp)

end Steps

/-! ## Runs -/

section Runs

variable {pf : Platform D} {w₀ w₁ w : System D} {tr tr' : List (System D × SystemOp)}
  {i : Fingerprint} {g : ℕ} {logs : List EventLog} (hids : (logs.map EventLog.gameId).Nodup)
  (hinit : (system pf).init w₀) (hbefore : (system pf).Run w₀ tr w₁)

include hids hinit hbefore

theorem catching_run (hrun : (system pf).Run w₁ tr' w) (hwire : ∀ x ∈ w.toNodes, IsWire logs x.2)
    (hparts : ∀ x ∈ hubTrace tr', SendsPart logs x)
    (htakes : ∀ x ∈ deliveries (tr ++ tr'), Takes x.2 x.1)
    (htogether : ∀ u ∈ visited tr' w, Together i g u) (hin : InStep i w₁) :
    Catching w₁ i g tr' w := by
  induction hrun with
  | nil =>
    rw [List.append_nil] at htakes
    obtain ⟨hwatch, -⟩ := allWatch_run hids hinit hbefore hwire htakes
    exact .init hin hwatch (htogether _ (List.mem_singleton_self _))
  | @snoc tr' u v op hrun hstep ih =>
    have hwire' : ∀ x ∈ u.toNodes, IsWire logs x.2 := fun x hx =>
      hwire x ((step_mono hstep).1.subset hx)
    have htakes' : ∀ x ∈ deliveries (tr ++ tr'), Takes x.2 x.1 := fun x hx => htakes x (by
      rw [← List.append_assoc, deliveries_concat]
      exact List.mem_append_left _ hx)
    rw [hubTrace_concat] at hparts
    rw [visited_concat] at htogether
    have hall := hbefore.trans hrun
    obtain ⟨hwatch, -⟩ := allWatch_run hids hinit hall hwire' htakes'
    have hu : Together i g u :=
      htogether u (List.mem_append_left _ (by simp [visited]))
    refine (ih hwire' (fun x hx => hparts x (List.mem_append_left _ hx)) htakes' fun v hv =>
      htogether v (List.mem_append_left _ hv)).step hwatch (fun n hn => ?_)
      ((Machine.Reachable.init hinit.1).run (Run.hub hall)) hu
      (htogether v (List.mem_append_right _ (List.mem_singleton_self _)))
      (fun x hx => hparts x (List.mem_append_right _ (Option.mem_toList.mpr hx))) hstep
    obtain ⟨n₀, ntr, hn₀, hnode, -⟩ := Run.node hinit hall hn
    exact (Machine.Reachable.init hn₀).run hnode

end Runs

/-! ## A turn of two clients -/

/-- A client with the settings of its game can take every datagram. -/
theorem takes_of_players {datagram : List Byte} {n : ClientNode}
    (h : n.process.client.playersInGame ≠ 0) : Takes datagram n := by
  intro msg _ _ hzero
  exact absurd hzero h

/-- What the worms of `firstEvents` do in the next turn. -/
def nextEvents : ServerToClientMessage := ⟨5, [⟨3, .pixel ⟨0, 6, 8⟩⟩, ⟨4, .pixel ⟨1, 4, 14⟩⟩]⟩

/-- A turn, of which both clients get all. -/
def aTurn : List SystemOp :=
  [.hub (.tick 10 []), .hub (.send true), .hub (.send true),
    .node [2] (.receive nextEvents.encode.1), .node [1] (.receive nextEvents.encode.1)]

/-- A request for an event that none of the nodes at `i` wants yet. -/
def asksAhead (i : Fingerprint) (w : System D) (x : Fingerprint × List Byte) : Bool :=
  x.1 = i && (ClientToServerMessage.decode (x.2.take Server.incomingMsgSize)).any fun m =>
    (w.nodes i).any fun n => n.process.client.nextWantedEventNo < m.nextExpectedEventNo

/-- What the first client has shown after the turn. -/
def shownAfterTurn : List (List Byte) :=
  [ascii "NEW_GAME 16 16 a b\n", ascii "PIXEL 5 8 a\n", ascii "PIXEL 5 14 b\n",
    ascii "PIXEL 6 8 a\n", ascii "PIXEL 4 14 b\n"]

/-- What is computed of the turn: `tr` are the steps before it, and `tr'` its own. -/
def turnChecks (tr : List (System ℤ × SystemOp)) (w₁ : System ℤ)
    (tr' : List (System ℤ × SystemOp)) (w : System ℤ) : Bool :=
  startedIds (savedBy fixedPoint emptySystem (tr ++ tr')) = [5] &&
  ((deliveries (tr ++ tr')).all fun x =>
    x.1.process.client.gameId = -1 || x.1.process.client.playersInGame ≠ 0) &&
  ((visited tr' w).all fun u => u.hub.gameManager.mqManager.currentlyBroadcastedGameId = 5 &&
    (u.nodes [1]).any fun n => n.process.client.gameId = 5) &&
  w₁.hub.gameManager.mqManager.queues.find? [1] = some 3 &&
  ((w₁.nodes [1]).all fun n => n.process.client.nextWantedEventNo = 3) &&
  (w₁.toHub.all fun x => !asksAhead [1] w₁ x) &&
  w.toNodes.drop w₁.toNodes.length = [([1], nextEvents.encode.1), ([2], nextEvents.encode.1)] &&
  w.hub.gameManager.mqManager.queues.find? [1] =
    some w.hub.gameManager.mqManager.currentGameEvents.length &&
  (w.nodes [1]).any fun n => n.linesOf 5 = shownAfterTurn

/-- What holds of the turn. -/
theorem exists_run_aTurn : ∃ tr w₁ tr' w, (system fixedPoint).init emptySystem ∧
    (system fixedPoint).Run emptySystem tr w₁ ∧ (system fixedPoint).Run w₁ tr' w ∧
    tr'.map Prod.snd = aTurn ∧ turnChecks tr w₁ tr' w = true := by
  obtain ⟨tr, w₁, hrun, -, hturn⟩ := exists_run_of_any (M := system fixedPoint) (s := emptySystem)
    (P := fun tr w₁ => (((system fixedPoint).exec aTurn w₁).toOption.any fun w =>
      decide (turnChecks tr w₁ ((system fixedPoint).trace aTurn w₁) w = true)) = true)
    twoClients (by decide +kernel)
  obtain ⟨tr', w, hrun', hops, hchecks⟩ := exists_run_of_any (M := system fixedPoint) (s := w₁)
    (P := fun tr' w => turnChecks tr w₁ tr' w = true) aTurn hturn
  exact ⟨tr, w₁, tr', w, ⟨⟨_, 0, 0, rfl⟩, rfl, rfl, rfl⟩, hrun, hrun', hops, hchecks⟩

/-! ## Catching up -/

section CatchUp

variable {pf : Platform D} {w₀ w₁ w : System D} {tr tr' : List (System D × SystemOp)}
  {i : Fingerprint} {g : ℕ}

/-- **Catching up.** While the server broadcasts the game that a client is in, and the client gets
all that the server gives for it, in any order, the server stays in step with the client, however
requests and turns come in between. When the server has no more of the log for it, the client has
shown the whole log. -/
theorem system_catches_up (hpf : pf.Centred) (hinit : (system pf).init w₀)
    (hbefore : (system pf).Run w₀ tr w₁) (hrun : (system pf).Run w₁ tr' w)
    (hids : DistinctIds (unsetIdOf w₀) (startedIds (savedBy pf w₀ (tr ++ tr'))))
    (htakes : ∀ x ∈ deliveries (tr ++ tr'), Takes x.2 x.1)
    (htogether : ∀ u ∈ visited tr' w, Together i g u) (hin : InStep i w₁)
    (hgets : ∀ datagram, (i, datagram) ∈ w.toNodes.drop w₁.toNodes.length →
      ∃ u, (u, .node i (.receive datagram)) ∈ tr') :
    ∃ logs, History (savedBy pf w₀ (tr ++ tr')) logs ∧ InStep i w ∧
      ∀ n ∈ w.nodes i, w.hub.gameManager.mqManager.queues.find? i =
          some w.hub.gameManager.mqManager.currentGameEvents.length →
        ∃ log ∈ logs, log.gameId = g ∧ (n.linesOf g).map some = log.rendered := by
  have hall := hbefore.trans hrun
  obtain ⟨logs, hlogs, hparts⟩ := sendsPart_of_run hpf hinit hall hids
  have hnodup : (logs.map EventLog.gameId).Nodup := hlogs.ids ▸ hids.nodup
  have hwire : ∀ x ∈ w.toNodes, IsWire logs x.2 := isWire_of_parts hinit hall hparts
  have hcatching := catching_run hnodup hinit hbefore hrun hwire
    (fun x hx => hparts x (by
      rw [hubTrace, List.filterMap_append]
      exact List.mem_append_right _ hx)) htakes htogether hin
  obtain ⟨hwatch, -⟩ := allWatch_run hnodup hinit hall hwire htakes
  obtain ⟨hbroadcast, n, hn, hid⟩ :=
    htogether w (List.mem_append_right _ (List.mem_singleton_self w))
  have hposition : ∀ pos ∈ w.hub.gameManager.mqManager.queues.find? i,
      pos ≤ n.process.client.nextWantedEventNo := fun pos hpos => by
    obtain ⟨n₀, ntr, hn₀, hnode, -⟩ := Run.node hinit hall hn
    rcases nodeMachine_missing.reachable ((Machine.Reachable.init hn₀).run hnode) with
      hnone | hmissing
    · omega
    · refine not_lt.mp fun hlt => hmissing ?_
      rcases hcatching.covered n hn pos hpos _ hlt with hmem | ⟨datagram, hgiven, hcarries⟩
      · exact hmem
      · obtain ⟨u, hu⟩ := hgets datagram hgiven
        exact hcatching.received n hn u datagram hu _ hcarries
  refine ⟨logs, hlogs, ⟨fun n' hn' => ?_, hcatching.requests⟩, fun n' hn' hend => ?_⟩
  · obtain rfl : n = n' := Option.some.inj (hn.symm.trans hn')
    exact hposition
  · obtain rfl : n = n' := Option.some.inj (hn.symm.trans hn')
    obtain ⟨log, hlog, hgame, hshows⟩ := (hwatch i n hn).exists_shows hid
    refine ⟨log, hlog, hgame, ?_⟩
    have hlength : w.hub.gameManager.mqManager.currentGameEvents.length = log.events.length := by
      obtain ⟨⟨config, unsetId, unsetAlive, hhub⟩, -⟩ := hinit
      have hserver : (serverMachine pf).Run w₀.hub (hubTrace (tr ++ tr')) w.hub := Run.hub hall
      rw [hhub] at hserver
      rw [savedBy, hhub] at hlogs hids
      rw [unsetIdOf, hhub] at hids
      exact length_currentGameEvents hpf hserver hids hlogs hlog (hbroadcast.trans hgame.symm)
    have hwanted := hposition _ hend
    rw [hshows.lines, List.take_of_length_le]
    rw [EventLog.rendered, List.length_map]
    omega

end CatchUp

/-- The first client has shown the whole log after the turn. -/
theorem system_catches_up_turn : ∃ tr w₁ tr' w, (system fixedPoint).Run emptySystem tr w₁ ∧
    (system fixedPoint).Run w₁ tr' w ∧ tr'.map Prod.snd = aTurn ∧
    ∃ logs, History (savedBy fixedPoint emptySystem (tr ++ tr')) logs ∧ InStep [1] w ∧
      ∃ n ∈ w.nodes [1], n.linesOf 5 = shownAfterTurn ∧
        ∃ log ∈ logs, log.gameId = 5 ∧ (n.linesOf 5).map some = log.rendered := by
  obtain ⟨tr, w₁, tr', w, hinit, hrun, hrun', hops, hchecks⟩ := exists_run_aTurn
  simp only [turnChecks, Bool.and_eq_true, decide_eq_true_eq, List.all_eq_true, Option.any_eq_true,
    Option.all_eq_true, Bool.or_eq_true, Bool.not_eq_true'] at hchecks
  obtain ⟨⟨⟨⟨⟨⟨⟨⟨hstarted, htakes⟩, htogether⟩, hposition⟩, hwanted⟩, hrequests⟩, hgiven⟩, hend⟩,
    n, hn, hshown⟩ := hchecks
  have hin : InStep [1] w₁ := by
    refine ⟨fun n hn pos hpos => ?_, fun n hn datagram hmem m hm => ?_⟩
    · obtain rfl : 3 = pos := Option.some.inj (hposition.symm.trans hpos)
      exact (hwanted n hn).ge
    · refine not_lt.mp fun hlt => absurd (hrequests _ hmem) ?_
      rw [asksAhead, hm, Option.any_some, Option.mem_def.mp hn, Option.any_some]
      simp [hlt]
  have hgets : ∀ datagram, ([1], datagram) ∈ w.toNodes.drop w₁.toNodes.length →
      ∃ u, (u, .node [1] (.receive datagram)) ∈ tr' := fun datagram hdatagram => by
    rw [hgiven] at hdatagram
    obtain rfl : datagram = nextEvents.encode.1 := by simpa using hdatagram
    have hmem : (.node [1] (.receive nextEvents.encode.1) : SystemOp) ∈ tr'.map Prod.snd := by
      rw [hops]
      simp [aTurn]
    obtain ⟨⟨u, op⟩, hu, rfl⟩ := List.mem_map.mp hmem
    exact ⟨u, hu⟩
  obtain ⟨logs, hlogs, hin', hlog⟩ := system_catches_up (i := [1]) (g := 5) fixedPoint_centred hinit
    hrun hrun' (hstarted ▸ ⟨List.nodup_singleton 5, List.not_mem_nil⟩)
    (fun x hx => (htakes x hx).elim takes_of_initial takes_of_players)
    (fun u hu => htogether u hu) hin hgets
  exact ⟨tr, w₁, tr', w, hrun, hrun', hops, logs, hlogs, hin', n, hn, hshown, hlog n hn hend⟩

end ScreenWorms
