import ScreenWorms.Server.Steering
import ScreenWorms.System.System

/-!
# From the keyboard to the worm

A player presses keys. The graphical interface passes them on to the client, the client keeps a
direction and sends it with every message, the network delivers some of the messages in some order,
and the server turns the player's worm. So a worm turns as the keys say that its player had pressed
when the client sent the last message to arrive.

## Main definitions

* `Pressed` — a datagram is sent from a place, and the keys there have led to a direction
* `LastSaid` — the last message from a place under a name, and where it comes from

## Main results

* `system_steers` — the direction of a player
-/

namespace ScreenWorms

open Machine

variable {D : Type}

/-! ## Messages -/

/-- The server reads the direction and the name that the client has sent. -/
theorem turnDirection_of_decode {msg m : ClientToServerMessage}
    (h : ClientToServerMessage.decode (msg.encode.take Server.incomingMsgSize) = some m) :
    m.turnDirection = msg.turnDirection ∧ m.playerName = msg.playerName := by
  have hbytes := encode_eq_of_decode h
  rw [ClientToServerMessage.encode, ClientToServerMessage.encode] at hbytes
  obtain ⟨-, hrest⟩ := List.append_inj hbytes (by simp only [length_toBigEndian])
  obtain ⟨hdir, hrest⟩ := List.cons.inj hrest
  obtain ⟨-, hname⟩ := List.append_inj hrest (by simp only [length_toBigEndian])
  have hturn := TurnDirection.ofByte_toByte m.turnDirection
  rw [hdir, TurnDirection.ofByte_toByte] at hturn
  exact ⟨(Option.some.inj hturn).symm, Subtype.ext hname⟩

/-! ## Runs of the system -/

/-- A client at this place has sent this datagram, under this name, when the keys pressed there had
led to this direction. -/
def Pressed (tr : List (System D × SystemOp)) (i : Fingerprint) (datagram : List Byte)
    (name : PlayerName) (d : TurnDirection) : Prop :=
  ∃ u n, (u, .node i (.send true)) ∈ tr ∧ u.nodes i = some n ∧
    nodeParty.gives (n, .send true) = some datagram ∧ n.process.playerName = name ∧
    n.gui.lines.foldl ClientProcess.turn .straight = d

/-- The last message that the server got from this place under this name came in this datagram and
said this direction, and if there was a client, this datagram had been sent there. -/
def LastSaid (tr : List (System D × SystemOp)) (i : Fingerprint) (name : PlayerName)
    (d : TurnDirection) : Prop :=
  ∃ before u now addr datagram after m,
    tr = before ++ (u, .hub (.read now i addr datagram)) :: after ∧
    ClientToServerMessage.decode (datagram.take Server.incomingMsgSize) = some m ∧
    m.playerName = name ∧ m.turnDirection = d ∧
    (∀ x ∈ hubTrace after, saidBy i name x = none) ∧
    (u.nodes i = none ∨ Pressed before i datagram name d)

variable {pf : Platform D} {w₀ w w' : System D} {tr : List (System D × SystemOp)} {op : SystemOp}
  {i : Fingerprint} {name : PlayerName} {d : TurnDirection}

theorem LastSaid.concat (h : LastSaid tr i name d)
    (hnone : ∀ x ∈ hubStep (w, op), saidBy i name x = none) :
    LastSaid (tr ++ [(w, op)]) i name d := by
  obtain ⟨before, u, now, addr, datagram, after, m, rfl, hm, hname, hturn, hafter, hfrom⟩ := h
  refine ⟨before, u, now, addr, datagram, after ++ [(w, op)], m, by simp, hm, hname, hturn,
    fun x hx => ?_, hfrom⟩
  rw [hubTrace_concat] at hx
  rcases List.mem_append.mp hx with hx | hx
  · exact hafter x hx
  · exact hnone x (Option.mem_toList.mp hx)

/-- What the server reads from a place with a client has been sent there. -/
theorem pressed_of_read (hinit : (system pf).init w₀) (hrun : (system pf).Run w₀ tr w) {now : ℤ}
    {addr : SockAddr} {datagram : List Byte}
    (hstep : (system pf).step (.hub (.read now i addr datagram)) w = .ok w')
    {m : ClientToServerMessage}
    (hm : ClientToServerMessage.decode (datagram.take Server.incomingMsgSize) = some m) :
    w.nodes i = none ∨ Pressed tr i datagram m.playerName m.turnDirection := by
  obtain ⟨htakes, -⟩ := step_hub_eq_ok.mp hstep
  rcases hnode : w.nodes i with _ | n₁
  · exact Or.inl rfl
  · right
    have hgiven : (i, datagram) ∈ w.toHub :=
      htakes (i, datagram) rfl (by rw [hnode, Option.isSome_some])
    obtain ⟨u, k, n, hu, hn, hgives⟩ := given_of_run hinit hrun hgiven
    obtain ⟨rfl, hbytes⟩ := nodeParty_gives hgives
    have hbytes : datagram = n.process.message.encode := hbytes
    rw [hbytes] at hm
    obtain ⟨hturn, hplayer⟩ := turnDirection_of_decode hm
    obtain ⟨before, after, rfl⟩ := List.append_of_mem hu
    obtain ⟨n₀, ntr, hn₀, hrunNode, -⟩ := Run.node hinit (hrun.before rfl) hn
    refine ⟨u, n, hu, hn, hgives, hplayer.symm, ?_⟩
    rw [hturn, ← nodeMachine_turned ((Machine.Reachable.init hn₀).run hrunNode)]
    rfl

/-- A message that the server gets in a step is the last one then. -/
theorem lastSaid_of_said (hinit : (system pf).init w₀) (hrun : (system pf).Run w₀ tr w)
    {l : Server.Op} (hstep : (system pf).step (.hub l) w = .ok w') {m : ClientToServerMessage}
    (hm : saidBy i name (w.hub, l) = some m) :
    LastSaid (tr ++ [(w, .hub l)]) i name m.turnDirection := by
  obtain ⟨hsaid, hname⟩ := saidBy_eq_some.mp hm
  cases l with
  | tick now order => cases hsaid
  | send delivered => cases hsaid
  | read now f addr datagram =>
    obtain ⟨m', hdecode, heq⟩ := Option.map_eq_some_iff.mp hsaid
    obtain ⟨rfl, rfl⟩ := Prod.mk.inj heq
    have hfrom := pressed_of_read hinit hrun hstep hdecode
    rw [hname] at hfrom
    exact ⟨tr, w, now, addr, datagram, [], m', rfl, hdecode, hname, rfl,
      fun x hx => absurd hx List.not_mem_nil, hfrom⟩

/-- **From the keyboard to the worm.** At any time the direction of a player is that of the last
message which the server got from the player's place under the player's name. If there was a client
at that place, the datagram had been sent there, when the keys had led to that direction. -/
theorem system_steers (hinit : (system pf).init w₀) (hrun : (system pf).Run w₀ tr w)
    {q : Player D} (hq : w.hub.gameManager.players.find? name = some q) :
    LastSaid tr q.fingerprint name q.turnDirection := by
  induction hrun generalizing q with
  | nil =>
    obtain ⟨⟨config, unsetId, unsetAlive, hhub⟩, -⟩ := hinit
    rw [hhub] at hq
    cases hq
  | @snoc tr u v op hrun hstep ih =>
    rcases step_hub_cases hstep with ⟨l, rfl, hl, -⟩ | ⟨hnone, hhub, -⟩
    · have hreach := (Machine.Reachable.init hinit.1).run (Run.hub hrun)
      rcases steers_step hreach hl hq with ⟨m, hm, hturn⟩ | ⟨hnone, p, hp, hf, hturn⟩
      · rw [← hturn]
        exact lastSaid_of_said hinit hrun hstep hm
      · rw [← hf, ← hturn]
        refine (ih hp).concat fun x hx => ?_
        obtain rfl := Option.some.inj hx
        rw [hf]
        exact hnone
    · rw [hhub] at hq
      exact (ih hq).concat fun x hx => absurd (hnone.symm.trans hx) (by simp)

/-- The two players have pressed the left key. -/
theorem system_steers_two : ∃ tr w q, (system fixedPoint).init emptySystem ∧
    (system fixedPoint).Run emptySystem tr w ∧
    w.hub.gameManager.players.find? ⟨[97], by decide⟩ = some q ∧
    q.fingerprint = [1] ∧ q.turnDirection = .left ∧
    LastSaid tr q.fingerprint ⟨[97], by decide⟩ q.turnDirection := by
  obtain ⟨tr, w, hrun, -, hplayer⟩ := exists_run_of_any (M := system fixedPoint) (s := emptySystem)
    (P := fun _ w => ((w.hub.gameManager.players.find? ⟨[97], by decide⟩).any fun q =>
      q.fingerprint = [1] && q.turnDirection = .left) = true) twoClients (by decide +kernel)
  obtain ⟨q, hq, hplayer⟩ := (Option.any_eq_true _ _).mp hplayer
  simp only [Bool.and_eq_true, decide_eq_true_eq] at hplayer
  have hinit : (system fixedPoint).init emptySystem := ⟨⟨_, 0, 0, rfl⟩, rfl, rfl, rfl⟩
  exact ⟨tr, w, q, hinit, hrun, hq, hplayer.1, hplayer.2, system_steers hinit hrun hq⟩

end ScreenWorms
