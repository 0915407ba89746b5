import ScreenWorms.Client.Loop
import ScreenWorms.ForStd.LoopNetwork
import ScreenWorms.Server.Loop
import ScreenWorms.System.System

/-!
# The system of the programs

The programs are the two loops. A network of them does a whole round at a time, and in a round only
one program acts. The system has the steps of the programs in any order, so it does whatever the
network of the loops does: what holds of all its runs holds of the programs.

## Main definitions

* `serverRounds`, `nodeRounds`
* `loopSystem` — the programs on their network

## Main results

* `loopSystem_refines` — a run of the programs is a run of the system
-/

namespace ScreenWorms

open Machine

variable {D : Type}

/-- The program of the server, on its network. -/
def serverRounds (pf : Platform D) :
    LoopParty (Server D) Server.Op Fault Bool ServerRevents ServerInput (Fingerprint × List Byte)
      (Fingerprint × List Byte) where
  toEventLoop := serverLoop pf
  takes := (serverParty pf).takes
  gives := (serverParty pf).gives
  offered i := i.datagram.map fun (_, fingerprint, _, datagram) => (fingerprint, datagram)

/-- The program of a client, on its network. -/
def nodeRounds :
    LoopParty ClientNode NodeOp NodeFault ClientEvents ClientRevents ClientInput (List Byte)
      (List Byte) where
  toEventLoop := clientLoop
  takes := nodeParty.takes
  gives := nodeParty.gives
  offered := ClientInput.datagram

/-- The state of the programs and their network. -/
abbrev LoopSystem (D : Type) :=
  Net Fingerprint (Waiting (Server D) Bool ServerRevents)
    (Waiting ClientNode ClientEvents ClientRevents) (List Byte) (List Byte)

/-- Something that happens to them: a round, or a program that is started or stopped. -/
abbrev LoopSystemOp :=
  NetOp Fingerprint (Poll ServerRevents ServerInput) nodeRounds.rounds.toMachine

/-- The programs on their network. -/
def loopSystem (pf : Platform D) : Machine (LoopSystem D) LoopSystemOp (NetFault Fault) :=
  netMachine (serverRounds pf).rounds nodeRounds.rounds

variable {pf : Platform D}

theorem serverRounds_lawful : (serverRounds pf).Lawful where
  takes call hcall r i s op hop x hx := by
    simp only [serverRounds, serverLoop, List.mem_cons, List.not_mem_nil, or_false] at hcall
    rcases hcall with rfl | rfl | rfl
    · obtain ⟨-, heq⟩ := Option.ite_none_right_eq_some.mp hop
      obtain rfl := Option.some.inj heq
      cases hx
    · obtain ⟨-, heq⟩ := Option.ite_none_right_eq_some.mp hop
      obtain ⟨y, hy, rfl⟩ := Option.map_eq_some_iff.mp heq
      obtain rfl := Option.some.inj hx
      exact Option.map_eq_some_iff.mpr ⟨y, hy, rfl⟩
    · obtain ⟨-, heq⟩ := Option.ite_none_right_eq_some.mp hop
      obtain rfl := Option.some.inj heq
      cases hx
  gives call hcall r i s op hop := by
    simp only [serverRounds, serverLoop, List.dropLast_cons_cons, List.dropLast_singleton, List.mem_cons,
      List.not_mem_nil, or_false] at hcall
    rcases hcall with rfl | rfl
    · obtain ⟨-, heq⟩ := Option.ite_none_right_eq_some.mp hop
      obtain rfl := Option.some.inj heq
      rfl
    · obtain ⟨-, heq⟩ := Option.ite_none_right_eq_some.mp hop
      obtain ⟨y, -, rfl⟩ := Option.map_eq_some_iff.mp heq
      rfl

theorem nodeRounds_lawful : nodeRounds.Lawful where
  takes call hcall r i n op hop x hx := by
    simp only [nodeRounds, clientLoop, List.mem_cons, List.not_mem_nil, or_false] at hcall
    rcases hcall with rfl | rfl | rfl | rfl | rfl <;>
      obtain ⟨-, heq⟩ := Option.ite_none_right_eq_some.mp hop
    · obtain rfl := Option.some.inj heq
      cases hx
    · obtain rfl := Option.some.inj heq
      cases hx
    · obtain rfl := Option.some.inj heq
      cases hx
    · obtain ⟨y, hy, rfl⟩ := Option.map_eq_some_iff.mp heq
      obtain rfl := Option.some.inj hx
      exact hy
    · obtain rfl := Option.some.inj heq
      cases hx
  gives call hcall r i n op hop := by
    simp only [nodeRounds, clientLoop, List.dropLast_cons_cons, List.dropLast_singleton, List.mem_cons,
      List.not_mem_nil, or_false] at hcall
    rcases hcall with rfl | rfl | rfl | rfl <;>
      obtain ⟨-, heq⟩ := Option.ite_none_right_eq_some.mp hop
    · obtain rfl := Option.some.inj heq
      rfl
    · obtain rfl := Option.some.inj heq
      rfl
    · obtain rfl := Option.some.inj heq
      rfl
    · obtain ⟨y, -, rfl⟩ := Option.map_eq_some_iff.mp heq
      rfl

/-! ## Runs of the programs -/

/-- What happens in the system in a run of the programs. -/
def asSteps (pf : Platform D) (tr : List (LoopSystem D × LoopSystemOp)) : List SystemOp :=
  tr.flatMap (netSteps (serverRounds pf) nodeRounds)

variable {w₀ w : LoopSystem D} {tr : List (LoopSystem D × LoopSystemOp)}

theorem loopSystem_init (hinit : (loopSystem pf).init w₀) : (system pf).init w₀.states := by
  obtain ⟨⟨hhub, -⟩, hnodes, htoNodes, htoHub⟩ := hinit
  refine ⟨hhub, ?_, htoNodes, htoHub⟩
  funext i
  simp only [Net.states, hnodes, Option.map_none]

theorem loopSystem_exec (hrun : (loopSystem pf).Run w₀ tr w) :
    (system pf).exec (asSteps pf tr) w₀.states = .ok w.states :=
  run_netSteps serverRounds_lawful nodeRounds_lawful hrun

/-- **A run of the programs is a run of the system**, round by round. Whenever a program calls
`poll`, it asks whether its sockets are writable exactly when it has something to write. -/
theorem loopSystem_refines (hinit : (loopSystem pf).init w₀) (hrun : (loopSystem pf).Run w₀ tr w) :
    (system pf).init w₀.states ∧
    (∃ tr', (system pf).Run w₀.states tr' w.states ∧ tr'.map Prod.snd = asSteps pf tr) ∧
    w.hub.events = !w.hub.state.gameManager.mqManager.isEmpty ∧
    ∀ i n, w.nodes i = some n → n.events =
      ⟨n.state.process.messageToServer.ready, n.state.gui.guiSock.hasPendingOutgoingData⟩ := by
  refine ⟨loopSystem_init hinit, exists_run_of_exec (loopSystem_exec hrun), ?_, fun i n hn => ?_⟩
  · have hhub := (Machine.Reachable.init hinit.1).run (Run.hub hrun)
    exact (EventLoop.loop_events serverLoop_start).reachable hhub
  · obtain ⟨n₀, ntr, hn₀, hnode, -⟩ := Run.node hinit hrun hn
    exact (EventLoop.loop_events clientLoop_start).reachable ((Machine.Reachable.init hn₀).run hnode)

/-- The programs before anything has happened. -/
def idle : LoopSystem ℤ where
  hub := ⟨emptySystem.hub, false, default⟩
  nodes := fun _ => none
  toNodes := []
  toHub := []

/-- A client joins and presses a key. Its message and one from elsewhere start a game, and the client
shows how it begins. -/
def untilShown : List LoopSystemOp :=
  [.join [1] ⟨⟨(newcomer 1 97 isValidPlayerName_a).val, ⟨false, false⟩, default⟩,
      (newcomer 1 97 isValidPlayerName_a).property, rfl⟩] ++
    pressAndSend.map (.node [1]) ++
    [.hub (.ready ⟨false, true, false⟩
        ⟨0, [], some (0, [1], [], (letter 1 .left 97 isValidPlayerName_a).encode), true⟩),
      .hub (.ready ⟨false, true, false⟩
        ⟨0, [], some (0, [2], [], (letter 2 .left 98 isValidPlayerName_b).encode), true⟩),
      .hub (.ready ⟨false, false, true⟩ ⟨0, [], none, true⟩),
      .hub (.ready ⟨false, false, true⟩ ⟨0, [], none, true⟩),
      .node [1] (.ready ⟨false, true, false, false, true⟩
        ⟨.failed, .takes 100, some firstEvents.encode.1, true⟩),
      .node [1] (.ready ⟨false, false, false, false, true⟩ ⟨.failed, .takes 100, none, true⟩)]

/-- What the client shows takes a second round to be written. -/
theorem loopSystem_refines_shown : ∃ tr w, (loopSystem fixedPoint).Run idle tr w ∧
    tr.map Prod.snd = untilShown ∧
    (w.nodes [1]).map (fun n => n.state.gui.written) =
      some (ascii "NEW_GAME 16 16 a b\nPIXEL 5 8 a\nPIXEL 5 14 b\n") ∧
    (system fixedPoint).init idle.states ∧
    (∃ tr', (system fixedPoint).Run idle.states tr' w.states ∧
      tr'.map Prod.snd = asSteps fixedPoint tr) ∧
    w.hub.events = !w.hub.state.gameManager.mqManager.isEmpty ∧
    ∀ i n, w.nodes i = some n → n.events =
      ⟨n.state.process.messageToServer.ready, n.state.gui.guiSock.hasPendingOutgoingData⟩ := by
  obtain ⟨tr, w, hrun, hops, hshown⟩ := exists_run_of_any (M := loopSystem fixedPoint) (s := idle)
    (P := fun _ w => (w.nodes [1]).map (fun n => n.state.gui.written) =
      some (ascii "NEW_GAME 16 16 a b\nPIXEL 5 8 a\nPIXEL 5 14 b\n")) untilShown (by decide +kernel)
  have hinit : (loopSystem fixedPoint).init idle :=
    ⟨⟨⟨smallBoard 5 five_lt_seeds, 0, 0, rfl⟩, rfl⟩, rfl, rfl, rfl⟩
  exact ⟨tr, w, hrun, hops, hshown, loopSystem_refines hinit hrun⟩

end ScreenWorms
