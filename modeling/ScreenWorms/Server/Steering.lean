import ScreenWorms.Server.History

/-!
# Who steers a worm

A player has the direction that the last message said which came from its socket under its name.
Nothing else changes it: not a message of another socket, not a turn, and not the start or the end
of a game.

## Main definitions

* `Commanded` — what is known of the sockets and the directions of all players
* `Server.Op.said?`, `saidBy` — the message that the server gets in a step

## Main results

* `commanded_run` — one operation
* `steers_step` — one step of the server
-/

namespace ScreenWorms

open GameTask Machine

variable {D : Type} {pf : Platform D}

/-! ## Operations -/

/-- `C` holds of the name, the socket and the direction of every player. -/
def Commanded (C : PlayerName → Fingerprint → TurnDirection → Prop)
    (players : SortedMap PlayerName (Player D)) : Prop :=
  ∀ n p, players.find? n = some p → C n p.fingerprint p.turnDirection

section Commanded

variable {C : PlayerName → Fingerprint → TurnDirection → Prop}
  {players players' : SortedMap PlayerName (Player D)}

theorem Commanded.of_find? (h : Commanded C players)
    (hsub : ∀ n q, players'.find? n = some q → ∃ p, players.find? n = some p ∧
      q.fingerprint = p.fingerprint ∧ q.turnDirection = p.turnDirection) :
    Commanded C players' := by
  intro n q hq
  obtain ⟨p, hp, hf, hturn⟩ := hsub n q hq
  rw [hf, hturn]
  exact h n p hp

theorem Commanded.adjust (h : Commanded C players) {name : PlayerName} {q : Player D}
    (hq : C name q.fingerprint q.turnDirection) :
    Commanded C (players.adjust name fun _ => q) := by
  intro n r hr
  rw [SortedMap.find?_adjust, Option.map_eq_some_iff] at hr
  obtain ⟨r', hr', rfl⟩ := hr
  split
  · rename_i hn
    rw [hn]
    exact hq
  · exact h n r' hr'

theorem Commanded.staying (h : Commanded C players) : Commanded C (staying players) :=
  h.of_find? fun n q hq => by
    obtain ⟨p, hp, -, rfl⟩ := find?_staying.mp hq
    exact ⟨p, hp, rfl, rfl⟩

theorem Commanded.markDisconnected (h : Commanded C players) (f : Fingerprint) :
    Commanded C (markDisconnected f players) :=
  h.of_find? fun n q hq => by
    obtain ⟨p, hp, rfl⟩ := find?_markDisconnected_eq_some.mp hq
    refine ⟨p, hp, ?_⟩
    split <;> exact ⟨rfl, rfl⟩

variable {g g' : GameTask D}

theorem Commanded.dropConnection (h : Commanded C g.players) (f : Fingerprint) :
    Commanded C (g.dropConnection f).players := by
  by_cases hw : f ∈ g.watchers
  · rw [dropConnection_of_watcher hw]
    exact h
  · cases hs : g.gameStarted with
    | true =>
      rw [dropConnection_of_running hw hs]
      exact h.markDisconnected f
    | false =>
      rw [dropConnection_of_lobby hw hs]
      exact (h.markDisconnected f).staying

theorem Commanded.endGame (h : Commanded C g.players) : Commanded C g.endGame.players := by
  rw [endGame_eq]
  exact h.staying

/-- A worm moves as its player said, and says nothing itself. -/
theorem Commanded.moveWorm (h : Commanded C g.players) (hsound : g.toGameState.Sound)
    {name : PlayerName} {p : Player D} {flow : Flow} (hp : g.players.find? name = some p)
    (hbody : GameTask.moveWorm pf name p g = .ok (flow, g')) : Commanded C g'.players :=
  hsound.moveWorm_induction (J := fun g => Commanded C g.players) hp h
    (fun _ _ => h.adjust (h name p hp)) (fun _ _ _ _ _ => h.adjust (h name p hp))
    (fun _ _ => h.adjust (h name p hp)) (fun _ hgone => hgone.endGame) hbody

theorem Commanded.placePlayer (h : Commanded C g.players) {name : PlayerName}
    {names : List PlayerName} (hpl : g.toGameState.Placing (name :: names)) {p : Player D}
    {flow : Flow} (hp : g.players.find? name = some p)
    (hbody : GameTask.placePlayer pf name p g = .ok (flow, g')) : Commanded C g'.players := by
  obtain ⟨no, hno⟩ := hpl.toOrderly.number hpl.started hp (by simp)
  cases hplaced : p.placed pf g.maxx g.maxy g.rng with
  | mk placed rng =>
    have hsame : placed.fingerprint = p.fingerprint ∧ placed.turnDirection = p.turnDirection := by
      obtain rfl := congrArg Prod.fst hplaced
      exact ⟨rfl, rfl⟩
    have hcommand : C name placed.fingerprint placed.turnDirection := by
      rw [hsame.1, hsame.2]
      exact h name p hp
    have hgone : Commanded C (eliminated name placed no { g with rng := rng }).players :=
      h.adjust hcommand
    rcases placePlayer_cases name hpl.started hno hplaced with
      ⟨-, heq⟩ | ⟨-, -, heq⟩ | ⟨-, -, heq⟩ <;> rw [heq] at hbody <;> cases hbody
    · exact h.adjust hcommand
    · exact hgone
    · exact hgone.endGame

theorem Commanded.startGameIfReady (h : Commanded C g.players) (ho : g.toGameState.Orderly [])
    (hready : startGameIfReady pf g = .ok g') : Commanded C g'.players := by
  rcases startGameIfReady_cases hready with rfl | ⟨hs, hcan, hstart⟩
  · exact h
  · refine ho.startGame_induction (J := fun _ g₁ => Commanded C g₁.players) hs hcan h ?_ ?_
      (fun g₁ h₁ => h₁) hstart
    · exact fun name names g₁ p g₂ hpl h₁ hp hb => h₁.placePlayer hpl hp hb
    · exact fun name names g₁ p g₂ hpl h₁ hp hb => h₁.placePlayer hpl hp hb

end Commanded

/-- The direction of a player after an operation: what the player's message says, or what it was. -/
def GameOp.Commands (op : GameOp) (players : SortedMap PlayerName (Player D)) (n : PlayerName)
    (f : Fingerprint) (d : TurnDirection) : Prop :=
  (∃ m, op = .message f m ∧ m.playerName = n ∧ m.turnDirection = d) ∨
  (∀ m, op = .message f m → m.playerName ≠ n) ∧
    ∃ p, players.find? n = some p ∧ p.fingerprint = f ∧ p.turnDirection = d

/-- **One operation.** -/
theorem commanded_run {op : GameOp} {g g' : GameTask D} (h : g.toGameState.Sound)
    (hrun : op.run pf g = .ok g') : Commanded (op.Commands g.players) g'.players := by
  have hsame : (∀ f m, op ≠ .message f m) → Commanded (op.Commands g.players) g.players :=
    fun hop n p hp => Or.inr ⟨fun m heq => absurd heq (hop _ m), p, hp, rfl, rfl⟩
  cases op with
  | drop f =>
    obtain rfl := Except.ok.inj hrun
    exact (hsame fun _ _ => GameOp.noConfusion).dropConnection f
  | turn =>
    exact (forPlayers_invariant (I := fun g₁ => g₁.toGameState.Sound ∧
        Commanded (GameOp.turn.Commands g.players) g₁.players)
      (fun _ _ _ _ _ hI hp hb => ⟨hI.1.moveWorm hp hb, hI.2.moveWorm hI.1 hp hb⟩)
      ⟨h, hsame fun _ _ => GameOp.noConfusion⟩ hrun).2
  | message f msg =>
    -- players of other names or on other sockets
    have hother : ∀ n p, g.players.find? n = some p → (n = msg.playerName → p.fingerprint ≠ f) →
        (GameOp.message f msg).Commands g.players n p.fingerprint p.turnDirection := by
      refine fun n p hp hne => Or.inr ⟨fun m heq hn => ?_, p, hp, rfl, rfl⟩
      obtain ⟨hf, rfl⟩ := GameOp.message.inj heq
      exact hne hn.symm hf.symm
    rw [GameOp.run, handleMessage] at hrun
    split at hrun
    · rename_i hname
      obtain ⟨watchers, calls, heq, -⟩ := exists_handleMessageFromWatcher f msg g
      rw [← Except.ok.inj hrun, heq]
      refine fun n p hp => hother n p hp fun hn => ?_
      exact absurd (List.length_eq_zero_iff.mp hname) (hn ▸ (h.named n p hp).2)
    · rename_i hname
      rcases handleMessageFromPlayer_cases hrun with
        ⟨p, hp, hf, hready⟩ | ⟨p, hp, hf, rfl⟩ | ⟨hnew, g₁, hloop, hend⟩
      · refine Commanded.startGameIfReady (fun n q hq => ?_) (h.answered hp) hready
        have hfind : (g.players.adjust msg.playerName fun _ => p.updated g.gameStarted msg).find? n =
            some q := hq
        rw [SortedMap.find?_adjust, Option.map_eq_some_iff] at hfind
        obtain ⟨r, hr, rfl⟩ := hfind
        split
        · rename_i hn
          exact Or.inl ⟨msg, by rw [← hf]; rfl, hn.symm, rfl⟩
        · rename_i hn
          exact hother n r hr fun heq => absurd heq hn
      · refine fun n q hq => hother n q hq fun hn => ?_
        obtain rfl := Option.some.inj (hp.symm.trans (hn ▸ hq))
        exact hf
      · have hold : Commanded ((GameOp.message f msg).Commands g.players) g.players :=
          fun n p hp => hother n p hp fun hn =>
            absurd (SortedMap.mem_of_find? (hn ▸ hp)) hnew
        have hdrops : Commanded ((GameOp.message f msg).Commands g.players) g₁.players :=
          forPlayers_dropIfOlder_invariant
            (I := fun g₁ => Commanded ((GameOp.message f msg).Commands g.players) g₁.players)
            (fun _ h => h.dropConnection f) hold hloop
        rcases hend with ⟨-, rfl⟩ | ⟨hsize, hready⟩
        · exact hdrops
        · obtain ⟨hsound, hsub⟩ := h.dropIfOlder hloop
          have hnew₁ : msg.playerName ∉ g₁.players := fun hmem => hnew (hsub _ hmem)
          refine Commanded.startGameIfReady (fun n q hq => ?_)
            (hsound.joined pf f hname hnew₁ hsize) hready
          have hfind : (g₁.players.insert msg.playerName
              (.joining pf g₁.gameStarted f msg)).find? n = some q := hq
          rw [SortedMap.find?_insert hnew₁] at hfind
          split at hfind
          · rename_i hn
            obtain rfl := Option.some.inj hfind
            exact Or.inl ⟨msg, rfl, hn.symm, rfl⟩
          · exact hdrops n q hfind

/-! ## Runs of the server -/

/-- The message that the server gets in a step, with its socket. -/
def Server.Op.said? : Server.Op → Option (Fingerprint × ClientToServerMessage)
  | .read _ f _ datagram =>
    (ClientToServerMessage.decode (datagram.take Server.incomingMsgSize)).map (Prod.mk f)
  | .tick _ _ => none
  | .send _ => none

/-- The message of a step, if it comes from this socket under this name. -/
def saidBy (f : Fingerprint) (n : PlayerName) (x : Server D × Server.Op) :
    Option ClientToServerMessage :=
  x.2.said?.bind fun y => if y.1 = f ∧ y.2.playerName = n then some y.2 else none

theorem saidBy_eq_some {f : Fingerprint} {n : PlayerName} {m : ClientToServerMessage}
    {x : Server D × Server.Op} :
    saidBy f n x = some m ↔ x.2.said? = some (f, m) ∧ m.playerName = n := by
  rw [saidBy, Option.bind_eq_some_iff]
  constructor
  · rintro ⟨⟨f', m'⟩, hsaid, hm⟩
    obtain ⟨⟨rfl, hn⟩, heq⟩ := Option.ite_none_right_eq_some.mp hm
    obtain rfl := Option.some.inj heq
    exact ⟨hsaid, hn⟩
  · rintro ⟨hsaid, hn⟩
    exact ⟨_, hsaid, if_pos ⟨rfl, hn⟩⟩

/-- What is not a message leaves the directions alone. -/
theorem commanded_exec {C : PlayerName → Fingerprint → TurnDirection → Prop} :
    ∀ {ops : List GameOp} {g g' : GameTask D}, (∀ op ∈ ops, ∀ f m, op ≠ .message f m) →
    (gameMachine pf).Reachable g → Commanded C g.players → (gameMachine pf).exec ops g = .ok g' →
    Commanded C g'.players
  | [], g, g', _, _, hg, h => by
    obtain rfl : g = g' := Except.ok.inj h
    exact hg
  | op :: ops, g, g', hops, hreach, hg, h => by
    obtain ⟨hop, hrest⟩ := List.forall_mem_cons.mp hops
    obtain ⟨g₁, hstep, hexec⟩ := exec_cons_eq_ok.mp h
    obtain ⟨g₂, hrun, rfl⟩ := gameMachine_step_eq_ok.mp hstep
    have hsound := (gameMachine_sound pf).reachable hreach
    have hfirst := commanded_run (g := { g with calls := [] }) hsound hrun
    refine commanded_exec (g := { g₂ with calls := g.calls ++ g₂.calls }) hrest
      (hreach.step hstep) (fun n q hq => ?_) hexec
    rcases hfirst n q hq with ⟨m, heq, -⟩ | ⟨-, p, hp, hf, hturn⟩
    · exact absurd heq (hop _ m)
    · rw [← hf, ← hturn]
      exact hg n p hp

/-- **One step of the server.** -/
theorem steers_step {s s' : Server D} {op : Server.Op} (hs : (serverMachine pf).Reachable s)
    (hstep : (serverMachine pf).step op s = .ok s') {n : PlayerName} {q : Player D}
    (hq : s'.gameManager.players.find? n = some q) :
    (∃ m, saidBy q.fingerprint n (s, op) = some m ∧ m.turnDirection = q.turnDirection) ∨
    saidBy q.fingerprint n (s, op) = none ∧ ∃ p, s.gameManager.players.find? n = some p ∧
      p.fingerprint = q.fingerprint ∧ p.turnDirection = q.turnDirection := by
  obtain ⟨g, hg, hgm⟩ := reachable_gameTask (reachable_gameManager hs)
  obtain ⟨g', hexec, hgm'⟩ := server_game pf (Run.nil.snoc hstep) g hgm
  rw [← hgm'] at hq
  rw [← hgm]
  rw [List.nil_append, List.flatMap_singleton] at hexec
  have hself : Commanded (fun n f d => ∃ p, g.players.find? n = some p ∧ p.fingerprint = f ∧
      p.turnDirection = d) g.players := fun n p hp => ⟨p, hp, rfl, rfl⟩
  cases op with
  | tick now order =>
    refine Or.inr ⟨rfl, commanded_exec (fun o ho f m => ?_) hg hself hexec n q hq⟩
    rcases List.mem_append.mp ho with ho | ho
    · obtain ⟨f', -, rfl⟩ := List.mem_map.mp ho
      exact GameOp.noConfusion
    · rw [List.mem_singleton.mp ho]
      exact GameOp.noConfusion
  | send delivered =>
    exact Or.inr ⟨rfl, commanded_exec (fun o ho => absurd ho List.not_mem_nil) hg hself hexec n q hq⟩
  | read now f addr datagram =>
    rw [Server.gameOps] at hexec
    rcases hdecode : ClientToServerMessage.decode (datagram.take Server.incomingMsgSize) with _ | m
    · rw [hdecode] at hexec
      obtain rfl : g = g' := Except.ok.inj hexec
      refine Or.inr ⟨?_, q, hq, rfl, rfl⟩
      simp [saidBy, Server.Op.said?, hdecode]
    · rw [hdecode] at hexec
      have hsaid : (Server.Op.read now f addr datagram).said? = some (f, m) := by
        simp [Server.Op.said?, hdecode]
      obtain ⟨g₁, hone, hnil⟩ := exec_cons_eq_ok.mp hexec
      obtain rfl : g₁ = g' := Except.ok.inj hnil
      obtain ⟨g₂, hrun, rfl⟩ := gameMachine_step_eq_ok.mp hone
      have hsound := (gameMachine_sound pf).reachable hg
      rcases commanded_run (g := { g with calls := [] }) hsound hrun n q hq with ⟨m', heq, hn, hturn⟩ | ⟨hnot, hold⟩
      · obtain ⟨hf, rfl⟩ := GameOp.message.inj heq
        exact Or.inl ⟨m, saidBy_eq_some.mpr ⟨hf ▸ hsaid, hn⟩, hturn⟩
      · refine Or.inr ⟨Option.eq_none_iff_forall_ne_some.mpr fun m' hm' => ?_, hold⟩
        obtain ⟨heq, hn⟩ := saidBy_eq_some.mp hm'
        obtain ⟨hf, rfl⟩ := Prod.mk.inj (Option.some.inj (hsaid.symm.trans heq))
        exact hnot m (by rw [hf]) hn

end ScreenWorms
