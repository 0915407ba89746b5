import ScreenWorms.Server.Changes
import ScreenWorms.Server.Delivery
import ScreenWorms.Server.Server

/-!
# What holds of the server at any time

`GameManager.Consistent` puts the invariants of the game and of its queue together, with what links
them: a watcher has a queue. The calls of an operation are known one change at a time, and `queued`
follows through a list of calls who has a queue.

## Main definitions

* `GameOp.Issues` — the calls an operation may make
* `queued` — whether a client has a queue after a list of calls
* `GameManager.Consistent`

## Main results

* `GameState.Sound.issues` — an operation makes no other calls
* `managerMachine_consistent` — `Consistent` holds in every state the game manager can be in
* `serverMachine_addressed` — a client with a queue has an address
* `Server.exec_sends` — a series of sends on the queue is one of the server
-/

namespace ScreenWorms

variable {D : Type}

open GameTask MQManager

/-! ## The calls of an operation -/

/-- The calls an operation may make: it schedules events that fit a datagram, and acknowledgements
and new queues come from messages only. -/
def GameOp.Issues (op : GameOp) : MQCall → Prop
  | .schedule _ event => FitsDatagram event
  | .ack f n => ∃ msg, op = .message f msg ∧ n = msg.nextExpectedEventNo
  | .addQueue f n => ∃ msg, op = .message f msg ∧ n = msg.nextExpectedEventNo
  | .dropQueue _ => True

/-- The players of a game always fit the field. -/
theorem length_players_ofNames (maxx maxy : ℕ) : ∀ names : List (List Byte),
    (∀ name ∈ names, name.length ≤ maxPlayerNameLength) →
    (EventNewGame.ofNames maxx maxy names).players.length ≤
      names.length * (maxPlayerNameLength + 1) := by
  intro names
  simp only [EventNewGame.ofNames, List.length_map]
  induction names with
  | nil => simp
  | cons name names ih =>
    intro h
    have hname := h name List.mem_cons_self
    have hrest := ih fun n hn => h n (List.mem_cons_of_mem _ hn)
    simp only [List.flatMap_cons, List.length_append, List.length_cons, List.length_nil] at hrest ⊢
    rw [Nat.add_mul]
    omega

theorem fitsDatagram_of_le {event : GameEventVariant} (h : event.getSize ≤ 533) :
    FitsDatagram event := by
  simp only [FitsDatagram, maxUdpDataFieldSize]
  omega

theorem fitsDatagram_newGame {g : GameState D} (h : g.Registered) (maxx maxy : ℕ) :
    FitsDatagram (.newGame (.ofNames maxx maxy (g.players.keys.map Subtype.val))) := by
  have hlen := length_players_ofNames maxx maxy
    (g.players.keys.map Subtype.val) fun name hname => by
      obtain ⟨n, -, rfl⟩ := List.mem_map.mp hname
      exact PlayerName.length_le n
  rw [List.length_map, SortedMap.length_keys] at hlen
  have hsize := h.size_le
  refine fitsDatagram_of_le ?_
  simp only [GameEventVariant.getSize, maxPlayers, maxPlayerNameLength] at hlen hsize ⊢
  omega

theorem issues_droppedQueues (op : GameOp) (players : SortedMap PlayerName (Player D)) :
    ∀ c ∈ droppedQueues players, op.Issues c := by
  intro c hc
  obtain ⟨_, _, -, -, rfl⟩ := mem_droppedQueues.mp hc
  trivial

theorem prepareGame_calls (g : GameTask D) : ∃ gameId, g.prepareGame.calls = g.calls ++
    [.schedule gameId (.newGame (.ofNames g.maxx g.maxy (g.players.keys.map Subtype.val)))] :=
  ⟨_, rfl⟩

/-- **One change only adds calls**, and none that the operation may not make. -/
theorem GameTask.Change.issues {op : GameOp} {g g' : GameTask D} (h : Change op g g')
    (hreg : g.toGameState.Registered) :
    ∃ cs, g'.calls = g.calls ++ cs ∧ ∀ c ∈ cs, op.Issues c := by
  have one : ∀ {c : MQCall}, op.Issues c → ∀ c' ∈ [c], op.Issues c' :=
    fun hc c' hc' => List.mem_singleton.mp hc' ▸ hc
  have none : ∃ cs, g.calls = g.calls ++ cs ∧ ∀ c ∈ cs, op.Issues c :=
    ⟨[], (List.append_nil _).symm, fun _ hc => absurd hc List.not_mem_nil⟩
  cases h with
  | @drop f hsender =>
    by_cases hw : f ∈ g.watchers
    · rw [dropConnection_of_watcher hw]
      exact ⟨_, rfl, one trivial⟩
    · cases hs : g.gameStarted with
      | true =>
        rw [dropConnection_of_running hw hs]
        exact ⟨_, rfl, one trivial⟩
      | false =>
        rw [dropConnection_of_lobby hw hs]
        refine ⟨_, rfl, fun c hc => ?_⟩
        rcases List.mem_cons.mp hc with rfl | hc
        · trivial
        · exact issues_droppedQueues op _ c hc
  | @watcher f msg hop =>
    rw [handleMessageFromWatcher]
    split
    · split
      · exact none
      · exact ⟨_, rfl, one ⟨msg, hop, rfl⟩⟩
    · split
      · exact ⟨_, rfl, one ⟨msg, hop, rfl⟩⟩
      · split
        · refine ⟨_, List.append_assoc _ _ _, fun c hc => ?_⟩
          simp only [List.cons_append, List.nil_append, List.mem_cons, List.not_mem_nil,
            or_false] at hc
          rcases hc with rfl | rfl
          · trivial
          · exact ⟨msg, hop, rfl⟩
        · exact none
  | @answered f msg p hop _ hf => exact ⟨_, rfl, one ⟨msg, by rw [hop, hf], rfl⟩⟩
  | @joined f msg pf hop hnew => exact ⟨_, rfl, one ⟨msg, hop, rfl⟩⟩
  | prepared hs hcan =>
    obtain ⟨gameId, hcalls⟩ := prepareGame_calls g
    exact ⟨_, hcalls, one (fitsDatagram_newGame hreg _ _)⟩
  | moved _ _ => exact none
  | ate rng _ _ _ => exact ⟨_, rfl, one (fitsDatagram_of_le (by simp [GameEventVariant.getSize]))⟩
  | eliminated rng _ _ _ =>
    exact ⟨_, rfl, one (fitsDatagram_of_le (by simp [GameEventVariant.getSize]))⟩
  | ended rng _ _ _ =>
    rw [endGame_eq]
    refine ⟨_, List.append_assoc _ _ _, fun c hc => ?_⟩
    simp only [List.cons_append, List.nil_append, List.mem_cons] at hc
    rcases hc with rfl | rfl | hc
    · exact fitsDatagram_of_le (by simp [GameEventVariant.getSize])
    · exact fitsDatagram_of_le (by simp [GameEventVariant.getSize])
    · exact issues_droppedQueues op _ c hc

theorem GameTask.Changes.issues {op : GameOp} {g g' : GameTask D} (h : Changes op g g') :
    ∃ cs, g'.calls = g.calls ++ cs ∧ ∀ c ∈ cs, op.Issues c := by
  refine h.induction (I := fun g' => ∃ cs, g'.calls = g.calls ++ cs ∧ ∀ c ∈ cs, op.Issues c)
    (fun g₁ g₂ hreg hchange hI => ?_) ⟨[], by simp, by simp⟩
  obtain ⟨cs, hcs, hall⟩ := hI
  obtain ⟨cs', hcs', hall'⟩ := hchange.issues hreg
  exact ⟨cs ++ cs', by rw [hcs', hcs, List.append_assoc], fun c hc =>
    (List.mem_append.mp hc).elim (hall c) (hall' c)⟩

/-- **An operation only makes calls it may make.** -/
theorem GameState.Sound.issues {pf : Platform D} {op : GameOp} {g : GameState D} {g' : GameTask D}
    (h : g.Sound) (hop : op.run pf ⟨g, []⟩ = .ok g') : ∀ c ∈ g'.calls, op.Issues c := by
  obtain ⟨cs, hcs, hall⟩ := (Sound.run_changes (g := ⟨g, []⟩) h hop).issues
  rw [List.nil_append] at hcs
  exact hcs ▸ hall

/-! ## Who has a queue -/

/-- Whether a client has a queue after a call. -/
def queuedAfter (f : Fingerprint) (had : Bool) : MQCall → Bool
  | .dropQueue f' => had && f' ≠ f
  | .addQueue f' _ => had || f' = f
  | .schedule _ _ => had
  | .ack _ _ => had

/-- Whether a client has a queue after a list of calls. -/
def queued (f : Fingerprint) (had : Bool) (calls : List MQCall) : Bool :=
  calls.foldl (queuedAfter f) had

@[simp] theorem queued_nil (f : Fingerprint) (had : Bool) : queued f had [] = had := rfl

@[simp] theorem queued_append (f : Fingerprint) (had : Bool) (cs cs' : List MQCall) :
    queued f had (cs ++ cs') = queued f (queued f had cs) cs' :=
  List.foldl_append

@[simp] theorem queued_cons (f : Fingerprint) (had : Bool) (c : MQCall) (cs : List MQCall) :
    queued f had (c :: cs) = queued f (queuedAfter f had c) cs := rfl

/-- Only `dropQueue` takes a queue away. -/
theorem queued_of_not_dropped {f : Fingerprint} : ∀ {cs : List MQCall}, .dropQueue f ∉ cs →
    queued f true cs = true
  | [], _ => rfl
  | c :: cs, h => by
    rw [List.mem_cons, not_or] at h
    have hc : queuedAfter f true c = true := by
      cases c <;> simp only [queuedAfter, Bool.true_and, Bool.true_or, decide_eq_true_eq]
      exact fun hf => h.1 (hf ▸ rfl)
    rw [queued_cons, hc]
    exact queued_of_not_dropped h.2

/-- Without `addQueue` nobody gets one. -/
theorem queued_of_not_added {f : Fingerprint} : ∀ {cs : List MQCall},
    (∀ n, .addQueue f n ∉ cs) → queued f false cs = false
  | [], _ => rfl
  | c :: cs, h => by
    have hc : queuedAfter f false c = false := by
      cases c with
      | addQueue f' n =>
        simp only [queuedAfter, Bool.false_or, decide_eq_false_iff_not]
        exact fun hf => h n (hf ▸ List.mem_cons_self)
      | _ => simp only [queuedAfter, Bool.false_and]
    rw [queued_cons, hc]
    exact queued_of_not_added fun n hn => h n (List.mem_cons_of_mem _ hn)

namespace MQManager

theorem mem_queues_exec {mq mq' : MQManager} {c : MQCall} (h : mq.exec c = .ok mq')
    (f : Fingerprint) : decide (f ∈ mq'.queues) = queuedAfter f (decide (f ∈ mq.queues)) c := by
  cases c with
  | schedule gameId event =>
    cases h
    rw [schedule]
    split <;> rfl
  | ack f' n =>
    change mq.ack f' n = .ok mq' at h
    rw [ack] at h
    split at h
    · split at h
      · rename_i hmem
        cases h
        refine decide_eq_decide.mpr ?_
        rw [SortedMap.mem_set]
        exact ⟨fun hf => hf.elim (fun he => he ▸ hmem) id, Or.inr⟩
      · cases h
    · cases h
      rfl
  | dropQueue f' =>
    cases h
    rw [queuedAfter, ← Bool.decide_and]
    refine decide_eq_decide.mpr ?_
    rw [dropQueue, SortedMap.mem_erase]
    exact ⟨fun hf => ⟨hf.2, Ne.symm hf.1⟩, fun hf => ⟨Ne.symm hf.2, hf.1⟩⟩
  | addQueue f' n =>
    cases h
    rw [queuedAfter, ← Bool.decide_or]
    refine decide_eq_decide.mpr ?_
    rw [addQueue]
    split
    · rename_i hmem
      exact ⟨Or.inl, fun hf => hf.elim id fun he => he ▸ hmem⟩
    · rw [SortedMap.mem_insert]
      exact ⟨fun hf => hf.symm.imp_right Eq.symm, fun hf => (hf.imp_right Eq.symm).symm⟩

/-- **Who has a queue after a list of calls.** -/
theorem mem_queues_execAll {f : Fingerprint} : ∀ {calls : List MQCall} {mq mq' : MQManager},
    mq.execAll calls = .ok mq' →
    (f ∈ mq'.queues ↔ queued f (decide (f ∈ mq.queues)) calls = true)
  | [], mq, mq', h => by
    cases h
    simp
  | c :: calls, mq, mq', h => by
    rw [execAll] at h
    cases hc : mq.exec c with
    | error e =>
      rw [hc] at h
      cases h
    | ok mq₁ =>
      rw [hc] at h
      rw [mem_queues_execAll h, queued_cons, mem_queues_exec hc]

end MQManager

/-! ## Watchers have queues -/

/-- `had` says who had a queue before the calls were made. -/
def GameTask.WatchersQueued (had : Fingerprint → Bool) (g : GameTask D) : Prop :=
  ∀ f ∈ g.watchers, queued f (had f) g.calls = true

theorem not_mem_droppedQueues {g : GameState D} (h : g.Registered) {f : Fingerprint}
    (hf : f ∈ g.watchers) : .dropQueue f ∉ droppedQueues g.players := by
  intro hmem
  obtain ⟨name, p, hp, hd, heq⟩ := mem_droppedQueues.mp hmem
  cases heq
  rw [h.watcher_connected _ hf name p hp rfl] at hd
  cases hd

/-- **One change leaves every watcher with a queue.** -/
theorem GameTask.Change.watchersQueued {op : GameOp} {had : Fingerprint → Bool} {g g' : GameTask D}
    (h : Change op g g') (hreg : g.toGameState.Registered) (hg : g.WatchersQueued had) :
    g'.WatchersQueued had := by
  have add : ∀ {f : Fingerprint} (cs : List MQCall), f ∈ g.watchers → .dropQueue f ∉ cs →
      queued f (had f) (g.calls ++ cs) = true := fun cs hf hcs => by
    rw [queued_append, hg _ hf]
    exact queued_of_not_dropped hcs
  cases h with
  | @drop f hsender =>
    by_cases hw : f ∈ g.watchers
    · rw [dropConnection_of_watcher hw]
      intro f' hf'
      obtain ⟨hne, hf'⟩ := SortedMap.mem_erase.mp hf'
      exact add _ hf' (by simp [hne])
    · have hne : ∀ f' ∈ g.watchers, f' ≠ f := fun f' hf' he => hw (he ▸ hf')
      cases hs : g.gameStarted with
      | true =>
        rw [dropConnection_of_running hw hs]
        exact fun f' hf' => add _ hf' (by simp [hne f' hf'])
      | false =>
        rw [dropConnection_of_lobby hw hs]
        intro f' hf'
        refine add _ hf' ?_
        rw [List.mem_cons, not_or]
        exact ⟨by simp [hne f' hf'], not_mem_droppedQueues (hreg.markDisconnected hw) hf'⟩
  | @watcher f msg hop =>
    rw [handleMessageFromWatcher]
    split
    · split
      · exact hg
      · intro f' hf'
        simp only [call]
        rcases SortedMap.mem_insert.mp hf' with rfl | hf'
        · simp [queuedAfter]
        · exact add _ hf' (by simp)
    · split
      · exact fun f' hf' => add _ hf' (by simp)
      · split
        · intro f' hf'
          have hmem := SortedMap.mem_adjust.mp hf'
          simp only [call, List.append_assoc, List.cons_append, List.nil_append]
          by_cases he : f' = f
          · rw [he]
            simp [queuedAfter]
          · exact add _ hmem (by simp [he])
        · exact hg
  | answered hop _ _ => exact fun f' hf' => add _ hf' (by simp)
  | joined pf hop _ => exact fun f' hf' => add _ hf' (by simp)
  | prepared hs hcan =>
    obtain ⟨gameId, hcalls⟩ := prepareGame_calls g
    intro f' hf'
    rw [hcalls]
    exact add _ hf' (by simp)
  | moved _ _ => exact hg
  | ate rng _ _ _ => exact fun f' hf' => add _ hf' (by simp)
  | eliminated rng _ _ _ => exact fun f' hf' => add _ hf' (by simp)
  | @ended name p q no rng _ hp hsame =>
    rw [endGame_eq]
    intro f' hf'
    simp only [GameTask.eliminated, List.append_assoc, List.cons_append, List.nil_append]
    refine add _ hf' ?_
    have hreg' : ({ g.toGameState with
        players := g.players.adjust name fun _ => { q with isEliminated := true } }
        : GameState D).Registered :=
      hreg.adjust hp hsame.eliminated rfl rfl
    simp only [List.mem_cons, reduceCtorEq, false_or]
    exact not_mem_droppedQueues hreg' hf'

/-! ## The game manager and its queue -/

namespace GameManager

/-- **The invariant of the game manager with its queue.** -/
structure Consistent (gm : GameManager D) : Prop where
  sound : gm.toGameState.Sound
  wellFormed : gm.mqManager.WellFormed
  fits : gm.mqManager.Fits
  /-- A watcher has a queue. -/
  watcher_queue : ∀ f ∈ gm.watchers, f ∈ gm.mqManager.queues

theorem Consistent.run {pf : Platform D} {op : GameOp} {gm gm' : GameManager D}
    (h : gm.Consistent) (hop : gm.perform (op.run pf) = .ok gm') : gm'.Consistent := by
  obtain ⟨g, hg, hcalls, heq⟩ := perform_eq_ok.mp hop
  have hsound : g.toGameState.Sound := GameState.Sound.run (g := ⟨gm.toGameState, []⟩) h.sound hg
  have hissues := h.sound.issues hg
  have hqueued : g.WatchersQueued fun f => decide (f ∈ gm.mqManager.queues) :=
    (GameState.Sound.run_changes (g := ⟨gm.toGameState, []⟩) h.sound hg).induction
      (I := WatchersQueued fun f => decide (f ∈ gm.mqManager.queues))
      (fun _ _ hreg hchange hI => hchange.watchersQueued hreg hI)
      fun f hf => by simpa using h.watcher_queue f hf
  refine ⟨heq ▸ hsound, h.wellFormed.execAll hcalls, ?_, fun f hf => ?_⟩
  · refine execAll_induction (P := Fits) (C := op.Issues) (fun mq c mq' hmq hc hexec => ?_) h.fits
      hissues hcalls
    exact hmq.exec (fun gameId event he => by subst he; exact hc) hexec
  · rw [heq] at hf
    exact (mem_queues_execAll hcalls).mpr (hqueued f hf)

theorem Consistent.send {delivered : Bool} {gm gm' : GameManager D} (h : gm.Consistent)
    (hsend : gm.send delivered = .ok gm') : gm'.Consistent := by
  obtain ⟨m, mq, hnext, hgame, hmq⟩ := send_eq_ok hsend
  have hmem : ∀ f, f ∈ mq.queues ↔ f ∈ gm.mqManager.queues := by
    obtain ⟨-, -, -, -, -, -, -, -, rfl⟩ := serve_eq_ok hnext
    exact fun f => mem_queues_switchGame
  have hwf := h.wellFormed.getNextMessage hnext
  have hfits := h.fits.getNextMessage hnext
  have hsound : gm'.toGameState.Sound := hgame ▸ h.sound
  have hwatchers : gm'.watchers = gm.watchers := congrArg GameState.watchers hgame
  rcases hmq with hmq | hack
  · refine ⟨hsound, hmq ▸ hwf, hmq ▸ hfits, fun f hf => ?_⟩
    rw [hmq, hmem]
    exact h.watcher_queue f (hwatchers ▸ hf)
  · have hexec : mq.exec (.ack m.fingerprint m.ackNumber) = .ok gm'.mqManager := hack
    refine ⟨hsound, hwf.ack hack, hfits.exec (fun _ _ he => by cases he) hexec, fun f hf => ?_⟩
    have hq := mem_queues_exec hexec f
    rw [queuedAfter, decide_eq_decide] at hq
    exact hq.mpr ((hmem f).mpr (h.watcher_queue f (hwatchers ▸ hf)))

end GameManager

/-- **The invariant holds whatever is done with a game manager and its queue.** -/
theorem managerMachine_consistent (pf : Platform D) :
    (managerMachine pf).Invariant GameManager.Consistent where
  init gm hgm := by
    obtain ⟨rngSeed, turningSpeed, maxx, maxy, unsetId, unsetAlive, rfl⟩ := hgm
    exact ⟨GameState.sound_new _ _ _ _ _, wellFormed_new _, fits_new _,
      fun f hf => absurd hf (SortedMap.not_mem_empty f)⟩
  step gm op gm' _ h hstep := by
    cases op with
    | op op => exact h.run hstep
    | send delivered =>
      simp only [managerMachine] at hstep
      split at hstep
      · cases hstep
        exact h
      · exact h.send hstep

/-- **The invariant holds in every reachable state of the server.** -/
theorem serverMachine_consistent {pf : Platform D} {s : Server D}
    (hs : (serverMachine pf).Reachable s) : s.gameManager.Consistent :=
  (managerMachine_consistent pf).reachable (reachable_gameManager hs)

/-! ## Addresses -/

/-- Only the sender of a message can get a queue. -/
theorem GameManager.Consistent.mem_queues_run {pf : Platform D} {op : GameOp}
    {gm gm' : GameManager D} (h : gm.Consistent) (hop : gm.perform (op.run pf) = .ok gm')
    {f : Fingerprint} (hf : f ∈ gm'.mqManager.queues) :
    f ∈ gm.mqManager.queues ∨ op.sender = some f := by
  obtain ⟨g, hg, hcalls, -⟩ := GameManager.perform_eq_ok.mp hop
  have hqueued := (mem_queues_execAll hcalls).mp hf
  by_contra hnot
  rw [not_or] at hnot
  rw [decide_eq_false hnot.1, queued_of_not_added] at hqueued
  · cases hqueued
  · intro n hn
    obtain ⟨msg, rfl, -⟩ := h.sound.issues hg _ hn
    exact hnot.2 rfl

theorem queued_of_dropped {f : Fingerprint} {cs : List MQCall} (h : .dropQueue f ∈ cs)
    (hadd : ∀ n, .addQueue f n ∉ cs) (had : Bool) : queued f had cs = false := by
  obtain ⟨before, after, rfl⟩ := List.append_of_mem h
  have hafter : queuedAfter f (queued f had before) (.dropQueue f) = false := by
    simp [queuedAfter]
  rw [queued_append, queued_cons, hafter]
  exact queued_of_not_added fun n hn =>
    hadd n (List.mem_append_right _ (List.mem_cons_of_mem _ hn))

theorem dropQueue_mem_dropConnection (f : Fingerprint) (g : GameTask D) :
    .dropQueue f ∈ (g.dropConnection f).calls := by
  by_cases hw : f ∈ g.watchers
  · simp [dropConnection_of_watcher hw]
  · cases hs : g.gameStarted with
    | true => simp [dropConnection_of_running hw hs]
    | false => simp [dropConnection_of_lobby hw hs]

/-- A dropped socket has no queue. -/
theorem GameManager.Consistent.not_mem_queues_drop {gm gm' : GameManager D} (h : gm.Consistent)
    {f : Fingerprint} (hdrop : gm.dropConnection f = .ok gm') : f ∉ gm'.mqManager.queues := by
  obtain ⟨g, hg, hcalls, -⟩ := GameManager.perform_eq_ok.mp hdrop
  intro hf
  have hqueued := (mem_queues_execAll hcalls).mp hf
  cases hg
  rw [queued_of_dropped (dropQueue_mem_dropConnection f _)] at hqueued
  · cases hqueued
  · intro n hn
    have hchanges : Changes (.drop f) ⟨gm.toGameState, []⟩ (GameTask.dropConnection f _) :=
      .single ⟨h.sound.toRegistered, .drop rfl⟩
    obtain ⟨cs, hcs, hissues⟩ := hchanges.issues
    rw [List.nil_append] at hcs
    obtain ⟨msg, heq, -⟩ := hissues _ (hcs ▸ hn)
    cases heq

namespace Server

/-- Every client with a queue has an address. -/
def Addressed (s : Server D) : Prop :=
  ∀ f ∈ s.gameManager.mqManager.queues, f ∈ s.clientAddrs

theorem Addressed.dropSilent (pf : Platform D) {currentTime : ℤ} {fingerprints : List Fingerprint}
    {s s' : Server D} (hc : s.gameManager.Consistent) (h : s.Addressed)
    (hdrop : s.dropSilent currentTime fingerprints = .ok s') :
    s'.gameManager.Consistent ∧ s'.Addressed := by
  refine dropSilent_induction (P := fun t => t.gameManager.Consistent ∧ t.Addressed) ?_ ⟨hc, h⟩
    hdrop
  rintro t f gm ⟨hc, h⟩ hgm
  have hrun : t.gameManager.perform ((GameOp.drop f).run pf) = .ok gm := hgm
  refine ⟨hc.run hrun, fun f' hf' => ?_⟩
  have hne : f' ≠ f := fun he => hc.not_mem_queues_drop hgm (he ▸ hf')
  rcases hc.mem_queues_run hrun hf' with hf' | hf'
  · exact SortedMap.mem_erase.mpr ⟨hne, h f' hf'⟩
  · exact absurd (Option.some.inj hf').symm hne

theorem Addressed.tick {pf : Platform D} {now : ℤ} {order : List Fingerprint} {s s' : Server D}
    (hc : s.gameManager.Consistent) (h : s.Addressed) (htick : s.tick pf now order = .ok s') :
    s'.Addressed := by
  obtain ⟨s₁, gm, hclean, hturn, rfl⟩ := tick_eq_ok htick
  obtain ⟨s₂, hdrop, rfl⟩ := cleanupObsoleteConnections_eq_ok hclean
  obtain ⟨hc₂, h₂⟩ := Addressed.dropSilent pf hc h hdrop
  intro f hf
  have hrun : s₂.gameManager.perform (GameOp.turn.run pf) = .ok gm := hturn
  rcases hc₂.mem_queues_run hrun hf with hf | hf
  · exact h₂ f hf
  · cases hf

theorem Addressed.read {pf : Platform D} {now : ℤ} {f : Fingerprint} {addr : SockAddr}
    {datagram : List Byte} {s s' : Server D} (hc : s.gameManager.Consistent) (h : s.Addressed)
    (hread : s.readMessageFromClient pf now f addr datagram = .ok s') : s'.Addressed := by
  rcases readMessageFromClient_eq_ok hread with ⟨-, rfl⟩ | ⟨m, gm, -, hmsg, rfl⟩
  · exact fun f' hf' => SortedMap.mem_insert.mpr (Or.inr (h f' hf'))
  · intro f' hf'
    have hrun : s.gameManager.perform ((GameOp.message f m).run pf) = .ok gm := hmsg
    refine SortedMap.mem_insert.mpr ?_
    rcases hc.mem_queues_run hrun hf' with hf' | hf'
    · exact Or.inr (h f' hf')
    · cases hf'
      exact Or.inl rfl

theorem mem_queues_getNextMessage {mq mq' : MQManager} {m : MessageAndRecipient}
    (h : mq.getNextMessage = .ok (m, mq')) {f : Fingerprint} : f ∈ mq'.queues ↔ f ∈ mq.queues := by
  obtain ⟨-, -, -, -, -, -, -, -, rfl⟩ := serve_eq_ok h
  exact mem_queues_switchGame

theorem Addressed.send {delivered : Bool} {s s' : Server D} (h : s.Addressed)
    (hsend : s.sendMessageToClient delivered = .ok s') : s'.Addressed := by
  obtain ⟨gm, hgm, rfl⟩ := sendMessageToClient_eq_ok hsend
  obtain ⟨m, mq, hnext, -, hmq⟩ := GameManager.send_eq_ok hgm
  intro f hf
  refine h f ((mem_queues_getNextMessage hnext).mp ?_)
  rcases hmq with hmq | hack
  · exact hmq ▸ hf
  · have hq := mem_queues_exec (c := .ack m.fingerprint m.ackNumber) hack f
    rw [queuedAfter, decide_eq_decide] at hq
    exact hq.mp hf

end Server

/-- **A client with a queue has an address**, in every reachable state of the server. -/
theorem serverMachine_addressed (pf : Platform D) :
    (serverMachine pf).Invariant Server.Addressed where
  init s hs := by
    obtain ⟨config, unsetId, unsetAlive, rfl⟩ := hs
    exact fun f hf => absurd hf (SortedMap.not_mem_empty f)
  step s op s' hs h hstep := by
    have hc := serverMachine_consistent hs
    cases op with
    | tick now order => exact h.tick hc hstep
    | read now f addr datagram => exact h.read hc hstep
    | send delivered =>
      simp only [serverMachine, Server.step] at hstep
      split at hstep
      · cases hstep
        exact h
      · exact h.send hstep

/-- A send that succeeds does to the queue what `MQManager.sendMessage` does. -/
theorem Server.Addressed.sendMessageToClient {s : Server D} (h : s.Addressed)
    {m : MessageAndRecipient} {mq : MQManager}
    (hsend : s.gameManager.mqManager.sendMessage = .ok (m, mq)) :
    s.sendMessageToClient true =
      .ok { s with gameManager := { s.gameManager with mqManager := mq } } := by
  obtain ⟨mq₁, hnext, hack⟩ := sendMessage_iff.mp hsend
  obtain ⟨_, _, _, -, hfind, -⟩ := serve_eq_ok hnext
  have hmem : m.fingerprint ∈ s.clientAddrs :=
    h _ (mem_queues_switchGame.mp (SortedMap.mem_of_find? hfind))
  simp only [Server.sendMessageToClient, hnext, if_pos hmem, if_true, hack]

/-- **A series of sends on the queue is one of the server.** -/
theorem Server.exec_sends {pf : Platform D} {mq mq' : MQManager} {ms : List MessageAndRecipient}
    (hsends : Sends mq ms mq') : ∀ {s : Server D}, (serverMachine pf).Reachable s →
      s.gameManager.mqManager = mq →
      (serverMachine pf).exec (ms.map fun _ => .send true) s =
        .ok { s with gameManager := { s.gameManager with mqManager := mq' } } := by
  induction hsends with
  | nil mq =>
    rintro s - rfl
    rfl
  | @cons mq mq₁ mq₂ m ms hne hsend _ ih =>
    rintro s hs rfl
    have hstep : (serverMachine pf).step (.send true) s =
        .ok { s with gameManager := { s.gameManager with mqManager := mq₁ } } := by
      simp only [serverMachine, Server.step, hne, Bool.false_eq_true, if_false]
      exact ((serverMachine_addressed pf).reachable hs).sendMessageToClient hsend
    rw [List.map_cons, Machine.exec, hstep]
    exact ih (hs.step hstep) rfl

end ScreenWorms
