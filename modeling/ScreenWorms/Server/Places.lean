import ScreenWorms.Server.Leaving
import ScreenWorms.Server.ServerInvariant

/-!
# Who keeps a place

A client that keeps in touch is not thrown out. Whatever other sockets send, however games start and
end, and whoever else leaves: as long as something comes from a socket every two seconds, and its
messages name a player that is already there or nobody, all its players and its watcher stay, with
their sessions, and so does its queue.

This holds only of a socket with no player marked as disconnected. The end of a game erases such a
player, and with it the queue of the socket.

## Main definitions

* `placeOf` — what a socket has under a name
* `GameManager.Keeps` — a socket keeps its places, its watcher and its queue

## Main results

* `GameTask.Change.keeps` — one change
* `server_keeps` — any run of the server
-/

namespace ScreenWorms

open GameTask MQManager GameManager Machine

variable {D : Type} {f f' : Fingerprint}

/-! ## Places -/

section Places

variable {players : SortedMap PlayerName (Player D)} {name n : PlayerName} {p q : Player D}

/-- The session that a socket has under a name, and whether it is marked as disconnected. -/
def placeOf (f : Fingerprint) (players : SortedMap PlayerName (Player D)) (name : PlayerName) :
    Option (ℕ × Bool) :=
  (players.find? name).bind fun p =>
    if p.fingerprint = f then some (p.sessionId, p.isDisconnected) else none

/-- Nobody on the socket is marked as disconnected. -/
def Unmarked (f : Fingerprint) (players : SortedMap PlayerName (Player D)) : Prop :=
  ∀ n x, placeOf f players n = some x → x.2 = false

theorem placeOf_of_find? (hp : players.find? n = some p) (hf : p.fingerprint = f) :
    placeOf f players n = some (p.sessionId, p.isDisconnected) := by
  rw [placeOf, hp, Option.bind_some, if_pos hf]

theorem Unmarked.isDisconnected (h : Unmarked f players) (hp : players.find? n = some p)
    (hf : p.fingerprint = f) : p.isDisconnected = false :=
  h n _ (placeOf_of_find? hp hf)

theorem placeOf_adjust (hp : players.find? name = some p) (hsame : p.SameClient q) :
    placeOf f (players.adjust name fun _ => q) n = placeOf f players n := by
  rw [placeOf, placeOf, SortedMap.find?_adjust]
  by_cases hn : n = name
  · subst hn
    rw [hp, Option.map_some, if_pos rfl, Option.bind_some, Option.bind_some, hsame.fingerprint,
      hsame.sessionId, hsame.isDisconnected]
  · simp only [if_neg hn, Option.map_id']

/-- The place of another socket. -/
theorem placeOf_insert (hnew : name ∉ players) (hq : q.fingerprint ≠ f) :
    placeOf f (players.insert name q) n = placeOf f players n := by
  rw [placeOf, placeOf, SortedMap.find?_insert hnew]
  split
  · rename_i hn
    rw [hn, SortedMap.find?_eq_none.mpr hnew, Option.bind_some, if_neg hq, Option.bind_none]
  · rfl

theorem placeOf_markDisconnected (hne : f' ≠ f) :
    placeOf f (markDisconnected f' players) n = placeOf f players n := by
  rw [placeOf, placeOf, find?_markDisconnected]
  rcases hp : players.find? n with _ | p
  · rfl
  · rw [Option.map_some, Option.bind_some, Option.bind_some]
    by_cases hf : p.fingerprint = f
    · rw [if_neg (firstPlayerOf_ne hp (hf ▸ hne.symm))]
    · rw [if_neg hf]
      split <;> simp

theorem placeOf_staying (h : Unmarked f players) :
    placeOf f (staying players) n = placeOf f players n := by
  rw [placeOf, placeOf, staying, SortedMap.find?_filter, SortedMap.find?_mapValues]
  rcases hp : players.find? n with _ | p
  · rfl
  · rw [Option.map_some, Option.bind_some]
    by_cases hf : p.fingerprint = f
    · have hd := h.isDisconnected hp hf
      simp [Option.filter, hd]
    · rw [if_neg hf]
      cases p.isDisconnected <;> simp [Option.filter, hf]

/-- A connected socket's queue is not dropped with the players that are erased. -/
theorem Unmarked.not_mem_droppedQueues (h : Unmarked f players) :
    .dropQueue f ∉ droppedQueues players := by
  intro hmem
  obtain ⟨n, p, hp, hd, heq⟩ := mem_droppedQueues.mp hmem
  cases heq
  rw [h.isDisconnected hp rfl] at hd
  cases hd

theorem Unmarked.congr {players' : SortedMap PlayerName (Player D)} (h : Unmarked f players)
    (hsame : ∀ n, placeOf f players' n = placeOf f players n) : Unmarked f players' := by
  intro n x hx
  rw [hsame] at hx
  exact h n x hx

end Places

/-! ## Changes -/

namespace GameTask

/-- A socket has kept what it had in `g₀`; `had` says whether it had a queue. -/
structure Keeps (f : Fingerprint) (g₀ : GameState D) (had : Bool) (g : GameTask D) : Prop where
  places : ∀ n, placeOf f g.players n = placeOf f g₀.players n
  watcher : f ∈ g₀.watchers → f ∈ g.watchers
  queue : had = true → queued f had g.calls = true

variable {g₀ : GameState D} {had : Bool} {g g' : GameTask D} {op : GameOp}

/-- Calls on the queues of others. -/
theorem Keeps.add (h : Keeps f g₀ had g) {cs : List MQCall} (hcs : .dropQueue f ∉ cs) :
    had = true → queued f had (g.calls ++ cs) = true := by
  intro hhad
  rw [queued_append, h.queue hhad]
  exact queued_of_not_dropped hcs

theorem Keeps.handleMessageFromWatcher (h : Keeps f g₀ had g) (f' : Fingerprint)
    (msg : ClientToServerMessage) : Keeps f g₀ had (g.handleMessageFromWatcher f' msg) := by
  rw [GameTask.handleMessageFromWatcher]
  split
  · split
    · exact h
    · exact ⟨h.places, fun hf => SortedMap.mem_insert.mpr (Or.inr (h.watcher hf)),
        h.add (by simp)⟩
  · split
    · exact ⟨h.places, h.watcher, h.add (by simp)⟩
    · split
      · refine ⟨h.places, fun hf => SortedMap.mem_adjust.mpr (h.watcher hf), fun hhad => ?_⟩
        -- the queue is dropped and added again
        by_cases he : f' = f
        · simp [call, he, queuedAfter]
        · simp only [call, List.append_assoc, List.cons_append, List.nil_append]
          exact h.add (by simp [Ne.symm he]) hhad
      · exact h

theorem Keeps.answered (h : Keeps f g₀ had g) {msg : ClientToServerMessage} {p : Player D}
    (hp : g.players.find? msg.playerName = some p) : Keeps f g₀ had (g.answered msg p) :=
  ⟨fun n => (placeOf_adjust (q := p.updated g.gameStarted msg) hp ⟨rfl, rfl, rfl, rfl⟩).trans
    (h.places n), h.watcher, h.add (by simp)⟩

theorem Keeps.setPlayer (h : Keeps f g₀ had g) {name : PlayerName} {p q : Player D}
    (hp : g.players.find? name = some p) (hsame : p.SameClient q) :
    Keeps f g₀ had (g.setPlayer name q) :=
  ⟨fun n => (placeOf_adjust hp hsame).trans (h.places n), h.watcher, h.queue⟩

theorem Keeps.endGame (h : Keeps f g₀ had g) (hunmarked : Unmarked f g₀.players) :
    Keeps f g₀ had g.endGame := by
  have hunmarked' := hunmarked.congr h.places
  rw [endGame_eq]
  refine ⟨fun n => (placeOf_staying hunmarked').trans (h.places n), h.watcher, h.add ?_⟩
  simpa using hunmarked'.not_mem_droppedQueues

theorem Keeps.dropConnection (h : Keeps f g₀ had g) (hunmarked : Unmarked f g₀.players)
    (hne : f' ≠ f) : Keeps f g₀ had (g.dropConnection f') := by
  by_cases hw : f' ∈ g.watchers
  · rw [dropConnection_of_watcher hw]
    exact ⟨h.places, fun hf => SortedMap.mem_erase.mpr ⟨hne.symm, h.watcher hf⟩,
      h.add (by simp [hne.symm])⟩
  · have hmarked : ∀ n, placeOf f (markDisconnected f' g.players) n = placeOf f g₀.players n :=
      fun n => (placeOf_markDisconnected hne).trans (h.places n)
    have hunmarked' := hunmarked.congr hmarked
    cases hs : g.gameStarted with
    | true =>
      rw [dropConnection_of_running hw hs]
      exact ⟨hmarked, h.watcher, h.add (by simp [hne.symm])⟩
    | false =>
      rw [dropConnection_of_lobby hw hs]
      refine ⟨fun n => (placeOf_staying hunmarked').trans (hmarked n), h.watcher, h.add ?_⟩
      simpa [hne.symm] using hunmarked'.not_mem_droppedQueues

/-- **A change that others bring about** leaves a connected socket what it has. -/
theorem Change.keeps (hchange : Change op g g') (hunmarked : Unmarked f g₀.players)
    (hsender : op.sender ≠ some f) (h : Keeps f g₀ had g) : Keeps f g₀ had g' := by
  cases hchange with
  | drop hop => exact h.dropConnection hunmarked fun he => hsender (he ▸ hop)
  | watcher hop => exact h.handleMessageFromWatcher _ _
  | answered hop hp hf => exact h.answered hp
  | @joined f' msg pf hop hnew =>
    have hne : f' ≠ f := fun he => hsender (by rw [hop, GameOp.sender, he])
    exact ⟨fun n => (placeOf_insert (q := .joining pf g.gameStarted f' msg) hnew hne).trans
      (h.places n), h.watcher, h.add (by simp)⟩
  | prepared hs hcan =>
    obtain ⟨gameId, hcalls⟩ := prepareGame_calls g
    exact ⟨h.places, h.watcher, hcalls ▸ h.add (by simp)⟩
  | moved hp hsame => exact h.setPlayer hp hsame
  | ate rng hs hp hsame =>
    exact ⟨(h.setPlayer hp hsame).places, h.watcher, h.add (by simp)⟩
  | eliminated rng hs hp hsame =>
    exact ⟨(h.setPlayer hp hsame.eliminated).places, h.watcher, h.add (by simp)⟩
  | @ended name p q no rng hs hp hsame =>
    have hgone : Keeps f g₀ had (GameTask.eliminated name q no { g with rng := rng }) :=
      ⟨(h.setPlayer hp hsame.eliminated).places, h.watcher, h.add (by simp)⟩
    exact hgone.endGame hunmarked

theorem Changes.keeps (hchanges : Changes op g g') (hunmarked : Unmarked f g₀.players)
    (hsender : op.sender ≠ some f) (h : Keeps f g₀ had g) : Keeps f g₀ had g' :=
  hchanges.induction (fun _ _ _ hchange h => hchange.keeps hunmarked hsender h) h

end GameTask

/-! ## Operations -/

/-- The socket is not dropped, and its messages name nobody, or somebody who is there. -/
def GameOp.Attends (f : Fingerprint) (g : GameState D) : GameOp → Prop
  | .drop f' => f' ≠ f
  | .message f' msg => f' = f → msg.playerNameSize = 0 ∨ msg.playerName ∈ g.players
  | .turn => True

/-- **An operation that the socket attends.** -/
theorem GameTask.Keeps.run {pf : Platform D} {op : GameOp} {g₀ : GameState D} {had : Bool}
    {g g' : GameTask D} (h : Keeps f g₀ had g) (hunmarked : Unmarked f g₀.players)
    (hsound : g.toGameState.Sound) (hop : op.Attends f g.toGameState)
    (hrun : op.run pf g = .ok g') : Keeps f g₀ had g' := by
  by_cases hsender : op.sender = some f
  · rcases op with ⟨f', msg⟩ | f' | _
    · obtain rfl : f' = f := Option.some.inj hsender
      rw [GameOp.run, handleMessage] at hrun
      split at hrun
      · obtain rfl := Except.ok.inj hrun
        exact h.handleMessageFromWatcher f' msg
      · rename_i hname
        rcases handleMessageFromPlayer_cases hrun with
          ⟨p, hp, -, hready⟩ | ⟨p, -, -, rfl⟩ | ⟨hnew, -⟩
        · -- what starts a game is not about the sender
          have hchanges : Changes .turn (g.answered msg p) g' :=
            (hsound.answered hp).startGameIfReady_changes hready
          exact hchanges.keeps hunmarked (by simp [GameOp.sender]) (h.answered hp)
        · exact h
        · exact absurd ((hop rfl).resolve_left hname) hnew
    · exact absurd (Option.some.inj hsender) hop
    · cases hsender
  · exact (hsound.run_changes hrun).keeps hunmarked hsender h

namespace GameManager

/-- **A socket keeps its players, its watcher and its queue.** -/
structure Keeps (f : Fingerprint) (gm gm' : GameManager D) : Prop where
  places : ∀ n, placeOf f gm'.players n = placeOf f gm.players n
  watcher : f ∈ gm.watchers → f ∈ gm'.watchers
  queue : f ∈ gm.mqManager.queues → f ∈ gm'.mqManager.queues

theorem Keeps.refl (f : Fingerprint) (gm : GameManager D) : gm.Keeps f gm :=
  ⟨fun _ => rfl, id, id⟩

theorem Keeps.trans {gm gm' gm'' : GameManager D} (h : gm.Keeps f gm') (h' : gm'.Keeps f gm'') :
    gm.Keeps f gm'' :=
  ⟨fun n => (h'.places n).trans (h.places n), h'.watcher ∘ h.watcher, h'.queue ∘ h.queue⟩

theorem keeps_perform {pf : Platform D} {op : GameOp} {gm gm' : GameManager D}
    (hgm : gm.Consistent) (hunmarked : Unmarked f gm.players)
    (hop : op.Attends f gm.toGameState) (h : gm.perform (op.run pf) = .ok gm') :
    gm.Keeps f gm' := by
  obtain ⟨g, hrun, hcalls, heq⟩ := perform_eq_ok.mp h
  have hkeeps : GameTask.Keeps f gm.toGameState (decide (f ∈ gm.mqManager.queues)) g :=
    GameTask.Keeps.run (g := ⟨gm.toGameState, []⟩) ⟨fun _ => rfl, id, id⟩ hunmarked hgm.sound hop
      hrun
  refine ⟨fun n => ?_, fun hf => ?_, fun hf => ?_⟩
  · rw [heq]
    exact hkeeps.places n
  · rw [heq]
    exact hkeeps.watcher hf
  · exact (mem_queues_execAll hcalls).mpr (hkeeps.queue (decide_eq_true hf))

theorem keeps_send {delivered : Bool} {gm gm' : GameManager D} (h : gm.send delivered = .ok gm')
    (f : Fingerprint) : gm.Keeps f gm' := by
  obtain ⟨m, mq, hnext, hgame, hmq⟩ := send_eq_ok h
  have hmem : f ∈ gm.mqManager.queues → f ∈ mq.queues := by
    obtain ⟨-, -, -, -, -, -, -, -, rfl⟩ := serve_eq_ok hnext
    exact mem_queues_switchGame.mpr
  refine ⟨fun n => by rw [hgame], fun hf => by rwa [hgame], fun hf => ?_⟩
  rcases hmq with hmq | hack
  · exact hmq ▸ hmem hf
  · have hexec : mq.exec (.ack m.fingerprint m.ackNumber) = .ok gm'.mqManager := hack
    have hq := mem_queues_exec hexec f
    rw [queuedAfter, decide_eq_decide] at hq
    exact hq.mpr (hmem hf)

end GameManager

/-! ## Runs of the server -/

namespace Server

variable {pf : Platform D} {s s' : Server D}

/-- The socket has been heard of in time whenever the server looks, and its messages name nobody, or
somebody who is there. -/
def Attends (f : Fingerprint) : Server D × Server.Op → Prop
  | (s, .tick now _) => ¬s.Silent now f
  | (s, .read _ f' _ datagram) =>
    ∀ m ∈ ClientToServerMessage.decode (datagram.take incomingMsgSize),
      GameOp.Attends f s.gameManager.toGameState (.message f' m)
  | (_, .send _) => True

/-- Silent clients are dropped. -/
theorem keeps_dropSilent (pf : Platform D) {now : ℤ} : ∀ {fs : List Fingerprint} {s s' : Server D},
    s.gameManager.Consistent → Unmarked f s.gameManager.players → ¬s.Silent now f →
    s.dropSilent now fs = .ok s' → s.gameManager.Keeps f s'.gameManager ∧
      s'.gameManager.Consistent
  | [], s, s', hgm, _, _, h => by
    obtain rfl : s = s' := Except.ok.inj h
    exact ⟨.refl f _, hgm⟩
  | f' :: fs, s, s', hgm, hunmarked, hheard, h => by
    rcases dropSilent_cons_eq_ok h with ⟨-, h⟩ | ⟨hsilent, gm, hdrop, h⟩
    · exact keeps_dropSilent pf hgm hunmarked hheard h
    · have hne : f' ≠ f := fun he => hheard (he ▸ hsilent)
      have hop : s.gameManager.perform ((GameOp.drop f').run pf) = .ok gm := hdrop
      have hother : (GameOp.drop f').Attends f s.gameManager.toGameState := hne
      have hkeeps : s.gameManager.Keeps f gm := keeps_perform hgm hunmarked hother hop
      obtain ⟨hrest, hgm'⟩ := keeps_dropSilent pf
        (s := { s with gameManager := gm, clientAddrs := s.clientAddrs.erase f' })
        (hgm.run hop) (hunmarked.congr hkeeps.places) hheard h
      exact ⟨hkeeps.trans hrest, hgm'⟩

/-- **One step.** -/
theorem keeps_step (hs : (serverMachine pf).Reachable s)
    (hunmarked : Unmarked f s.gameManager.players) {op : Server.Op} (hop : Attends f (s, op))
    (h : (serverMachine pf).step op s = .ok s') : s.gameManager.Keeps f s'.gameManager := by
  have hgm := serverMachine_consistent hs
  cases op with
  | tick now order =>
    obtain ⟨s₁, gm, hclean, hturn, rfl⟩ := tick_eq_ok h
    obtain ⟨s₂, hdrop, rfl⟩ := cleanupObsoleteConnections_eq_ok hclean
    obtain ⟨hdrops, hgm₂⟩ := keeps_dropSilent pf hgm hunmarked hop hdrop
    have hop' : s₂.gameManager.perform (GameOp.turn.run pf) = .ok gm := hturn
    have hany : GameOp.turn.Attends f s₂.gameManager.toGameState := trivial
    exact hdrops.trans (keeps_perform hgm₂ (hunmarked.congr hdrops.places) hany hop')
  | read now f' addr datagram =>
    rcases readMessageFromClient_eq_ok h with ⟨-, rfl⟩ | ⟨m, gm, hdecode, hmsg, rfl⟩
    · exact .refl f _
    · have hop' : s.gameManager.perform ((GameOp.message f' m).run pf) = .ok gm := hmsg
      exact keeps_perform hgm hunmarked (hop m hdecode) hop'
  | send delivered =>
    simp only [serverMachine, Server.step] at h
    split at h
    · obtain rfl := Except.ok.inj h
      exact .refl f _
    · obtain ⟨gm, hsend, rfl⟩ := sendMessageToClient_eq_ok h
      exact keeps_send hsend f

end Server

/-- **A client that keeps in touch keeps its place**, whatever others send, whoever else is silent,
and however games start and end. -/
theorem server_keeps {pf : Platform D} {s t : Server D} {tr : List (Server D × Server.Op)}
    (hs : (serverMachine pf).Reachable s) (h : (serverMachine pf).Run s tr t)
    (hunmarked : Unmarked f s.gameManager.players) (hattends : ∀ x ∈ tr, Server.Attends f x) :
    s.gameManager.Keeps f t.gameManager := by
  induction h with
  | nil => exact .refl f _
  | @snoc tr u v op hrun hstep ih =>
    have hbefore := ih fun x hx => hattends x (List.mem_append_left _ hx)
    have hlast := Server.keeps_step (hs.run hrun) (hunmarked.congr hbefore.places)
      (hattends (u, op) (List.mem_append_right _ (List.mem_singleton_self _))) hstep
    exact hbefore.trans hlast

instance (now : ℤ) (f : Fingerprint) (s : Server D) : Decidable (s.Silent now f) :=
  decidable_of_iff (∃ t ∈ s.lastCommunicationTs.find? f, now - t > Server.connectionExpirationTime)
    Iff.rfl

instance (f : Fingerprint) (g : GameState D) (op : GameOp) : Decidable (op.Attends f g) :=
  match op with
  | .drop f' => inferInstanceAs (Decidable (f' ≠ f))
  | .message f' msg =>
    inferInstanceAs (Decidable (f' = f → msg.playerNameSize = 0 ∨ msg.playerName ∈ g.players))
  | .turn => inferInstanceAs (Decidable True)

instance (f : Fingerprint) : ∀ x : Server D × Server.Op, Decidable (Server.Attends f x)
  | (s, .tick now _) => inferInstanceAs (Decidable (¬s.Silent now f))
  | (s, .read _ f' _ datagram) => inferInstanceAs (Decidable
      (∀ m ∈ ClientToServerMessage.decode (datagram.take Server.incomingMsgSize),
        GameOp.Attends f s.gameManager.toGameState (.message f' m)))
  | (_, .send _) => inferInstanceAs (Decidable True)

/-- The player `b` falls silent during a game, and `c` joins. `a` keeps in touch. -/
theorem server_keeps_one : ∃ (s t : Server ℤ) (tr : List (Server ℤ × Server.Op)),
    (serverMachine fixedPoint).Reachable s ∧ (serverMachine fixedPoint).Run s tr t ∧
    ([2] ∈ s.gameManager.mqManager.queues ∧ [2] ∉ t.gameManager.mqManager.queues) ∧
    s.gameManager.Keeps [1] t.gameManager := by
  let ops : List Server.Op := [.tick 3 [], .said 4 3 9 .left 0 [99], .said 1500000 1 5 .left 0 [97],
    .tick 2500000 [[2], [1]]]
  obtain ⟨s, hs, hunmarked, hruns⟩ := exists_reachable
    (P := fun s => (∀ p ∈ s.gameManager.players.entries, p.2.isDisconnected = false) ∧
      (((serverMachine fixedPoint).exec ops s).toOption.any fun t => decide
        (([2] ∈ s.gameManager.mqManager.queues ∧ [2] ∉ t.gameManager.mqManager.queues) ∧
          ∀ x ∈ (serverMachine fixedPoint).trace ops s, Server.Attends [1] x)) = true)
    (smallBoard 5 (by decide))
    [.said 0 1 5 .right 0 [97], .said 0 2 5 .right 0 [98]] (by decide +kernel)
  obtain ⟨tr, t, hrun, -, htwo, hattends⟩ := exists_run_of_any
    (P := fun tr t => ([2] ∈ s.gameManager.mqManager.queues ∧
      [2] ∉ t.gameManager.mqManager.queues) ∧ ∀ x ∈ tr, Server.Attends [1] x) ops hruns
  refine ⟨s, t, tr, hs, hrun, htwo, server_keeps hs hrun (fun n x hx => ?_) hattends⟩
  rw [placeOf, Option.bind_eq_some_iff] at hx
  obtain ⟨p, hp, hx⟩ := hx
  split at hx
  · rw [← Option.some.inj hx]
    exact hunmarked (n, p) (SortedMap.find?_eq_some.mp hp)
  · cases hx

end ScreenWorms
