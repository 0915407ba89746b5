import ScreenWorms.Server.FirstMessage

/-!
# The id of the game that is broadcast, before there is one

The constructor of `MQManager` leaves `currentlyBroadcastedGameId` unset. As long as no message has
been sent, the memory it lies in decides what happens to a game that starts: it waits, like every
other game, unless its id is the one the memory holds. Then its events go to the current log, where
acknowledgements already count.

`Unsent` is the queue before the first message as it is meant: all games wait, and nobody has a
position. A queue `Represents` it whatever the memory of the id held, as long as its calls are
`Harmless`, and two queues that do are alike from the first message on.

## Main definitions

* `Unsent` — the queue before the first message, without an id
* `Server.sentMessages` — what a server sends in the course of some steps
* `HarmlessCall`, `Server.Harmless` — steps the unset id has no influence on

## Main results

* `Represents.exec`, `Represents.switchGame_eq` — the queue refines `Unsent`
* `sentMessages_eq_of_harmless` — two servers send the same
-/

namespace ScreenWorms

variable {D : Type}

open GameTask MQManager

/-! ## The queue before the first message -/

/-- The queue before the first message. All games wait. -/
structure Unsent where
  games : List (ℕ × List GameEventVariant)
  queues : SortedMap Fingerprint ℕ
  clientsToServeSchedule : List Fingerprint

namespace Unsent

/-- A call. There is nothing that could be acknowledged yet. -/
def exec (w : Unsent) : MQCall → Except Fault Unsent
  | .schedule gameId event => .ok { w with games := addToNextGames gameId event w.games }
  | .ack fingerprint _ =>
    if w.games = [] ∧ fingerprint ∉ w.queues then .error .missingQueue else .ok w
  | .dropQueue fingerprint => .ok { w with
      queues := w.queues.erase fingerprint
      clientsToServeSchedule := w.clientsToServeSchedule.erase fingerprint }
  | .addQueue fingerprint _ =>
    if fingerprint ∈ w.queues then .ok w
    else .ok { w with
      queues := w.queues.insert fingerprint 0
      clientsToServeSchedule := w.clientsToServeSchedule ++ [fingerprint] }

end Unsent

/-- `mq` is the queue `w`: its games all wait, or the first of them has become the current one
unnoticed. -/
structure Represents (mq : MQManager) (w : Unsent) : Prop where
  queues : mq.queues = w.queues
  schedule : mq.clientsToServeSchedule = w.clientsToServeSchedule
  schedule_perm : mq.clientsToServeSchedule.Perm mq.queues.keys
  position : ∀ f pos, mq.queues.find? f = some pos → pos = 0
  games : mq.currentGameEvents = [] ∧ mq.nextGames = w.games ∨
    ∃ events ≠ [], mq.currentGameEvents = numbered events ∧
      w.games = (mq.currentlyBroadcastedGameId, events) :: mq.nextGames

/-- A call the unset id has no influence on: it adds no event to the log of that id while another
game waits, and once there is such a log, it moves nobody from its start. -/
def HarmlessCall : MQManager × MQCall → Prop
  | (mq, .schedule gameId _) =>
    gameId = mq.currentlyBroadcastedGameId → mq.currentGameEvents = [] → mq.nextGames = []
  | (mq, .ack fingerprint nextExpectedEventNo) => mq.currentGameEvents ≠ [] → mq.nextGames = [] →
    fingerprint ∈ mq.queues ∧ nextExpectedEventNo = 0
  | (_, .dropQueue _) => True
  | (mq, .addQueue fingerprint nextExpectedEventNo) => mq.currentGameEvents ≠ [] →
    fingerprint ∉ mq.queues → nextExpectedEventNo = 0

namespace Represents

variable {mq mq' : MQManager} {w : Unsent}

theorem new (unsetId : ℕ) : Represents (.new unsetId) ⟨[], ∅, []⟩ where
  queues := rfl
  schedule := rfl
  schedule_perm := .refl _
  position _ _ h := by cases h
  games := Or.inl ⟨rfl, rfl⟩

/-- Setting a position to 0 changes nothing. -/
theorem set_zero (h : Represents mq w) {f : Fingerprint} (hf : f ∈ mq.queues) :
    mq.queues.set f 0 = mq.queues := by
  obtain ⟨pos, hpos⟩ := SortedMap.mem_iff_find?.mp hf
  obtain rfl := h.position f pos hpos
  exact SortedMap.set_of_find? hpos

theorem schedule_exec (h : Represents mq w) {gameId : ℕ} {event : GameEventVariant}
    (hcall : HarmlessCall (mq, .schedule gameId event)) :
    Represents (mq.schedule gameId event)
      { w with games := addToNextGames gameId event w.games } := by
  rw [MQManager.schedule]
  by_cases hid : gameId = mq.currentlyBroadcastedGameId
  · rw [if_pos hid]
    refine ⟨h.queues, h.schedule, h.schedule_perm, h.position, Or.inr ?_⟩
    rcases h.games with ⟨hevents, hgames⟩ | ⟨events, -, hevents, hgames⟩
    · have hnext := hcall hid hevents
      refine ⟨[event], List.cons_ne_nil _ _, ?_, ?_⟩
      · rw [hevents]
        rfl
      · rw [← hgames, hnext, addToNextGames, hid]
    · refine ⟨events ++ [event], List.append_ne_nil_of_right_ne_nil _ (List.cons_ne_nil _ _), ?_, ?_⟩
      · rw [hevents, numbered_concat]
      · rw [hgames, addToNextGames, if_pos hid.symm]
  · rw [if_neg hid]
    refine ⟨h.queues, h.schedule, h.schedule_perm, h.position, ?_⟩
    rcases h.games with ⟨hevents, hgames⟩ | ⟨events, hne, hevents, hgames⟩
    · exact Or.inl ⟨hevents, by rw [hgames]⟩
    · refine Or.inr ⟨events, hne, hevents, ?_⟩
      rw [hgames, addToNextGames, if_neg (Ne.symm hid)]

/-- An acknowledgement of event 0, or of an empty log. -/
theorem ack_eq_self (h : Represents mq w) {f : Fingerprint} {n : ℕ} (hf : f ∈ mq.queues)
    (hzero : min (toUInt32 mq.currentGameEvents.length) n = 0) : mq.ack f n = .ok mq := by
  rw [MQManager.ack]
  split
  · rw [hzero, h.set_zero hf]
  · rfl

theorem ack_exec (h : Represents mq w) {f : Fingerprint} {n : ℕ}
    (hcall : HarmlessCall (mq, .ack f n)) :
    (mq.ack f n = .error .missingQueue ∧ w.exec (.ack f n) = .error .missingQueue) ∨
      mq.ack f n = .ok mq ∧ w.exec (.ack f n) = .ok w := by
  have hwaits : mq.nextGames ≠ [] → mq.ack f n = .ok mq := by
    intro hnext
    rw [MQManager.ack, if_neg (by simpa using hnext)]
  rw [Unsent.exec, ← h.queues]
  rcases h.games with ⟨hevents, hgames⟩ | ⟨events, hne, hevents, hgames⟩
  · rw [← hgames]
    by_cases hf : f ∈ mq.queues
    · rw [if_neg fun h => h.2 hf]
      exact Or.inr ⟨h.ack_eq_self hf (by rw [hevents]; exact Nat.zero_min n), rfl⟩
    · by_cases hnext : mq.nextGames = []
      · rw [if_pos ⟨hnext, hf⟩, MQManager.ack, hnext, if_pos List.isEmpty_nil, if_neg hf]
        exact Or.inl ⟨rfl, rfl⟩
      · rw [if_neg fun h => hnext h.1]
        exact Or.inr ⟨hwaits hnext, rfl⟩
  · rw [if_neg fun h => absurd (hgames.symm.trans h.1) (List.cons_ne_nil _ _)]
    refine Or.inr ⟨?_, rfl⟩
    by_cases hnext : mq.nextGames = []
    · have hlog : mq.currentGameEvents ≠ [] := by
        rw [hevents, ← List.length_pos_iff, length_numbered]
        exact List.length_pos_iff.mpr hne
      obtain ⟨hf, hn⟩ := hcall hlog hnext
      exact h.ack_eq_self hf (by rw [hn]; exact Nat.min_zero _)
    · exact hwaits hnext

theorem dropQueue_exec (h : Represents mq w) (f : Fingerprint) :
    Represents (mq.dropQueue f) { w with
      queues := w.queues.erase f
      clientsToServeSchedule := w.clientsToServeSchedule.erase f } := by
  refine ⟨by rw [← h.queues]; rfl, by rw [← h.schedule]; rfl,
    @schedule_perm_exec mq _ (.dropQueue f) h.schedule_perm rfl, fun c pos hpos => ?_, h.games⟩
  rw [dropQueue, SortedMap.find?_erase] at hpos
  split at hpos
  · exact absurd hpos (by simp)
  · exact h.position c pos hpos

theorem addQueue_exec (h : Represents mq w) {f : Fingerprint} {n : ℕ}
    (hcall : HarmlessCall (mq, .addQueue f n)) :
    ∃ w', w.exec (.addQueue f n) = .ok w' ∧ Represents (mq.addQueue f n) w' := by
  rw [Unsent.exec, ← h.queues]
  by_cases hf : f ∈ mq.queues
  · rw [if_pos hf, MQManager.addQueue, if_pos hf]
    exact ⟨w, rfl, h⟩
  · have hzero : min (toUInt32 mq.currentGameEvents.length) n = 0 := by
      rcases eq_or_ne mq.currentGameEvents [] with hevents | hevents
      · rw [hevents]
        exact Nat.zero_min n
      · rw [hcall hevents hf]
        exact Nat.min_zero _
    have hperm := @schedule_perm_exec mq _ (.addQueue f n) h.schedule_perm rfl
    rw [if_neg hf]
    rw [MQManager.addQueue, if_neg hf, hzero] at hperm ⊢
    refine ⟨_, rfl, rfl, by rw [← h.schedule], hperm, fun c pos hpos => ?_, h.games⟩
    rw [SortedMap.find?_insert hf] at hpos
    split at hpos
    · exact (Option.some.inj hpos).symm
    · exact h.position c pos hpos

/-- **One call.** A harmless one has the outcome it has without an id. -/
theorem exec (h : Represents mq w) {call : MQCall} (hcall : HarmlessCall (mq, call)) :
    (∃ e, mq.exec call = .error e ∧ w.exec call = .error e) ∨
      ∃ mq' w', mq.exec call = .ok mq' ∧ w.exec call = .ok w' ∧ Represents mq' w' := by
  rcases call with ⟨id, event⟩ | ⟨f, n⟩ | f | ⟨f, n⟩
  · exact Or.inr ⟨_, _, rfl, rfl, h.schedule_exec hcall⟩
  · rcases h.ack_exec hcall with ⟨herror, hw⟩ | ⟨hok, hw⟩
    · exact Or.inl ⟨_, herror, hw⟩
    · exact Or.inr ⟨mq, w, hok, hw, h⟩
  · exact Or.inr ⟨_, _, rfl, rfl, h.dropQueue_exec f⟩
  · obtain ⟨w', hw, hw'⟩ := h.addQueue_exec hcall
    exact Or.inr ⟨_, w', rfl, hw, hw'⟩

/-! ### The first message -/

/-- The clients start at event 0. -/
theorem mapValues_zero (h : Represents mq w) : (mq.queues.mapValues fun _ _ => 0) = mq.queues := by
  refine SortedMap.ext_find? fun f => ?_
  rw [SortedMap.find?_mapValues]
  rcases hpos : mq.queues.find? f with _ | pos
  · rfl
  · rw [h.position f pos hpos]
    rfl

/-- As long as somebody has a queue, a queue with a log has something to send. -/
theorem hasPending_iff (h : Represents mq w) {f : Fingerprint} (hf : f ∈ mq.queues) :
    mq.hasPendingMessagesForCurrentGame = true ↔ mq.currentGameEvents ≠ [] := by
  rw [MQManager.hasPending_iff]
  constructor
  · rintro ⟨c, pos, -, hlt⟩
    exact List.length_pos_iff.mp (Nat.zero_lt_of_lt hlt)
  · intro hevents
    obtain ⟨pos, hpos⟩ := SortedMap.mem_iff_find?.mp hf
    obtain rfl := h.position f pos hpos
    exact ⟨f, 0, hpos, List.length_pos_iff.mpr hevents⟩

/-- **The switch forgets the id.** The first game becomes the current one, if it is not already. -/
theorem switchGame_eq (h : Represents mq w) {f : Fingerprint} (hf : f ∈ mq.queues)
    {game : ℕ × List GameEventVariant} {rest : List (ℕ × List GameEventVariant)}
    (hgames : w.games = game :: rest) : mq.switchGame = {
      nextGames := rest
      queues := w.queues
      clientsToServeSchedule := w.clientsToServeSchedule
      currentGameEvents := numbered game.2
      currentlyBroadcastedGameId := game.1 } := by
  have hpending := h.hasPending_iff hf
  rcases h.games with ⟨hevents, hnext⟩ | ⟨events, hne, hevents, hnext⟩
  · have hnot : mq.hasPendingMessagesForCurrentGame = false := by
      rw [Bool.eq_false_iff, ne_eq, hpending, not_not]
      exact hevents
    rw [switchGame, hnot, hnext, hgames]
    simp only [Bool.false_eq_true, if_false]
    rw [h.mapValues_zero, h.queues, h.schedule]
  · have hlog : mq.currentGameEvents ≠ [] := by
      rw [hevents, ← List.length_pos_iff, length_numbered]
      exact List.length_pos_iff.mpr hne
    obtain ⟨rfl, rfl⟩ := List.cons.inj (hgames.symm.trans hnext)
    rw [switchGame, if_pos (hpending.mpr hlog)]
    ext1
    · rfl
    · exact h.queues
    · exact h.schedule
    · exact hevents
    · rfl

theorem isEmpty_iff (h : Represents mq w) (hclient : mq.currentGameEvents ≠ [] →
    mq.nextGames = [] → ∃ f, f ∈ mq.queues) : mq.isEmpty = true ↔ w.games = [] := by
  rw [MQManager.isEmpty, Bool.and_eq_true, Bool.not_eq_true', List.isEmpty_iff]
  rcases h.games with ⟨hevents, hnext⟩ | ⟨events, hne, hevents, hnext⟩
  · rw [hnext]
    refine ⟨And.right, fun hgames => ⟨?_, hgames⟩⟩
    rw [Bool.eq_false_iff, ne_eq, MQManager.hasPending_iff, hevents]
    rintro ⟨_, _, -, hlt⟩
    exact absurd hlt (Nat.not_lt_zero _)
  · have hlog : mq.currentGameEvents ≠ [] := by
      rw [hevents, ← List.length_pos_iff, length_numbered]
      exact List.length_pos_iff.mpr hne
    rw [hnext]
    refine iff_of_false (fun hand => ?_) (List.cons_ne_nil _ _)
    obtain ⟨f, hf⟩ := hclient hlog hand.2
    exact absurd ((h.hasPending_iff hf).mpr hlog) (by simp [hand.1])

/-- **The first message** is the same for all queues that represent `w`, and so is what it
leaves. -/
theorem getNextMessage_eq (h : Represents mq w) (h' : Represents mq' w) (hgames : w.games ≠ []) :
    mq.getNextMessage = mq'.getNextMessage := by
  obtain ⟨game, rest, hcons⟩ := List.exists_cons_of_ne_nil hgames
  rw [getNextMessage, getNextMessage, h.schedule, h'.schedule]
  by_cases hclient : ∃ f, f ∈ w.queues
  · obtain ⟨f, hf⟩ := hclient
    rw [h.switchGame_eq (by rw [h.queues]; exact hf) hcons,
      h'.switchGame_eq (by rw [h'.queues]; exact hf) hcons]
  · -- nobody has a queue, so that the schedule is empty
    have hkeys : w.queues.keys = [] :=
      List.eq_nil_iff_forall_not_mem.mpr fun f hf => hclient ⟨f, hf⟩
    have hnone : w.clientsToServeSchedule = [] := by
      have hperm := h.schedule_perm
      rw [h.schedule, h.queues, hkeys] at hperm
      exact hperm.eq_nil
    rw [hnone, List.length_nil, MQManager.serve, MQManager.serve,
      clientsToServeSchedule_switchGame, clientsToServeSchedule_switchGame, h.schedule,
      h'.schedule, hnone]

end Represents

/-! ## Two queues -/

/-- Two outcomes are alike: the same fault, or states that are related. -/
inductive Alike {α β : Type} (R : α → β → Prop) : Except Fault α → Except Fault β → Prop
  | error (e : Fault) : Alike R (.error e) (.error e)
  | ok {a : α} {b : β} (h : R a b) : Alike R (.ok a) (.ok b)

/-- Two queues before the first message that differ in the unset id and what follows from it. -/
def Twins (mq mq' : MQManager) : Prop := ∃ w, Represents mq w ∧ Represents mq' w

theorem Twins.exec {mq mq' : MQManager} {call : MQCall} (h : Twins mq mq')
    (hcall : HarmlessCall (mq, call)) (hcall' : HarmlessCall (mq', call)) :
    Alike Twins (mq.exec call) (mq'.exec call) := by
  obtain ⟨w, hw, hw'⟩ := h
  rcases hw.exec hcall with ⟨e, he, hwe⟩ | ⟨mq₁, w₁, hmq, hww, hrep⟩
  · rcases hw'.exec hcall' with ⟨e', he', hwe'⟩ | ⟨_, _, -, hww, -⟩
    · obtain rfl := Except.error.inj (hwe.symm.trans hwe')
      rw [he, he']
      exact .error e
    · exact absurd (hwe.symm.trans hww) (by simp)
  · rcases hw'.exec hcall' with ⟨e', -, hwe'⟩ | ⟨mq₂, w₂, hmq', hww', hrep'⟩
    · exact absurd (hwe'.symm.trans hww) (by simp)
    · obtain rfl := Except.ok.inj (hww.symm.trans hww')
      rw [hmq, hmq']
      exact .ok ⟨w₁, hrep, hrep'⟩

/-- **Any number of calls.** -/
theorem Twins.execAll {calls : List MQCall} : ∀ {mq mq' : MQManager}, Twins mq mq' →
    (∀ x ∈ mq.callsOn calls, HarmlessCall x) → (∀ x ∈ mq'.callsOn calls, HarmlessCall x) →
    Alike Twins (mq.execAll calls) (mq'.execAll calls) := by
  induction calls with
  | nil => exact fun h _ _ => .ok h
  | cons call calls ih =>
    intro mq mq' h hcalls hcalls'
    have hone := h.exec (hcalls _ List.mem_cons_self) (hcalls' _ List.mem_cons_self)
    rw [callsOn] at hcalls hcalls'
    rw [MQManager.execAll, MQManager.execAll]
    generalize mq.exec call = r at hone hcalls
    generalize mq'.exec call = r' at hone hcalls'
    obtain e | hnext := hone
    · exact .error e
    · exact ih hnext (fun x hx => hcalls x (List.mem_cons_of_mem _ hx))
        fun x hx => hcalls' x (List.mem_cons_of_mem _ hx)

/-- Game managers with the same members, except for their queues. -/
def TwinManagers (gm gm' : GameManager D) : Prop :=
  gm'.toGameState = gm.toGameState ∧ Twins gm.mqManager gm'.mqManager

/-- **One operation of the game.** -/
theorem TwinManagers.perform {op : GameTask D → Except Fault (GameTask D)}
    {gm gm' : GameManager D} (h : TwinManagers gm gm')
    (hcalls : ∀ g, op ⟨gm.toGameState, []⟩ = .ok g →
      (∀ x ∈ gm.mqManager.callsOn g.calls, HarmlessCall x) ∧
        ∀ x ∈ gm'.mqManager.callsOn g.calls, HarmlessCall x) :
    Alike TwinManagers (gm.perform op) (gm'.perform op) := by
  rw [GameManager.perform, GameManager.perform, h.1]
  rcases hop : op ⟨gm.toGameState, []⟩ with e | g
  · exact .error e
  · obtain ⟨hgm, hgm'⟩ := hcalls g hop
    have hqueues := h.2.execAll hgm hgm'
    simp only
    generalize gm.mqManager.execAll g.calls = r at hqueues
    generalize gm'.mqManager.execAll g.calls = r' at hqueues
    obtain e | hqueues := hqueues
    · exact .error e
    · exact .ok ⟨rfl, hqueues⟩

theorem TwinManagers.operation {pf : Platform D} {gm gm' : GameManager D}
    (h : TwinManagers gm gm') (op : GameOp)
    (hcalls : ∀ x ∈ callsOfStep pf (gm, .op op), HarmlessCall x)
    (hcalls' : ∀ x ∈ callsOfStep pf (gm', .op op), HarmlessCall x) :
    Alike TwinManagers (gm.perform (op.run pf)) (gm'.perform (op.run pf)) := by
  refine h.perform fun g hg => ?_
  rw [callsOfStep, h.1, hg] at hcalls'
  rw [callsOfStep, hg] at hcalls
  exact ⟨hcalls, hcalls'⟩

/-- Calls that only drop queues are harmless. -/
theorem harmless_of_drops {calls : List MQCall} (h : ∀ c ∈ calls, ∃ f, c = .dropQueue f) :
    ∀ {mq : MQManager}, ∀ x ∈ mq.callsOn calls, HarmlessCall x := by
  induction calls with
  | nil => exact fun x hx => absurd hx List.not_mem_nil
  | cons c calls ih =>
    intro mq x hx
    obtain ⟨f, rfl⟩ := h c List.mem_cons_self
    rcases List.mem_cons.mp hx with rfl | hx
    · exact trivial
    · exact ih (fun c hc => h c (List.mem_cons_of_mem _ hc)) x hx

theorem TwinManagers.dropConnection {gm gm' : GameManager D} (h : TwinManagers gm gm')
    (f : Fingerprint) : Alike TwinManagers (gm.dropConnection f) (gm'.dropConnection f) := by
  refine h.perform fun g hg => ?_
  obtain rfl := Except.ok.inj hg
  have hdrops : ∀ c ∈ (GameTask.dropConnection f ⟨gm.toGameState, []⟩).calls,
      ∃ f', c = .dropQueue f' := by
    intro c hc
    by_cases hw : f ∈ gm.watchers
    · rw [dropConnection_of_watcher hw] at hc
      exact ⟨f, List.mem_singleton.mp hc⟩
    · rcases hs : gm.gameStarted with _ | _
      · rw [dropConnection_of_lobby hw hs] at hc
        rcases List.mem_cons.mp hc with hc | hc
        · exact ⟨f, hc⟩
        · obtain ⟨_, p, -, -, hp⟩ := mem_droppedQueues.mp hc
          exact ⟨_, hp⟩
      · rw [dropConnection_of_running hw hs] at hc
        exact ⟨f, List.mem_singleton.mp hc⟩
  exact ⟨harmless_of_drops hdrops, harmless_of_drops hdrops⟩

/-! ## Two servers -/

namespace Server

/-- The calls of a step, each with the queue it is made on. Those of the connections that are
cleaned up only drop queues; they are left out. -/
def callsOfOp (pf : Platform D) : Server D × Op → List (MQManager × MQCall)
  | (s, .tick now order) =>
    match s.cleanupObsoleteConnections now order with
    | .error _ => []
    | .ok s' => callsOfStep pf (s'.gameManager, .op .turn)
  | (s, .read _ fingerprint _ datagram) =>
    match ClientToServerMessage.decode (datagram.take incomingMsgSize) with
    | none => []
    | some m => callsOfStep pf (s.gameManager, .op (.message fingerprint m))
  | (_, .send _) => []

/-- It is time to send. -/
def Op.isSend : Op → Bool
  | .send _ => true
  | _ => false

/-- The step calls `getNextMessage`. -/
def takesMessage (s : Server D) (op : Op) : Bool :=
  op.isSend && !s.gameManager.mqManager.isEmpty

theorem takesMessage_send (s : Server D) (delivered : Bool) :
    s.takesMessage (.send delivered) = !s.gameManager.mqManager.isEmpty := Bool.true_and _

/-- The message of a step: its recipient, the address, and the message itself. -/
def message (s : Server D) (op : Op) : Option (Fingerprint × SockAddr × ServerToClientMessage) :=
  if s.takesMessage op then
    match s.gameManager.mqManager.getNextMessage with
    | .error _ => none
    | .ok (m, _) => (s.clientAddrs.find? m.fingerprint).map fun addr => (m.fingerprint, addr, m.msg)
  else none

/-- The messages of some steps, up to the first fault. -/
def sentMessages (pf : Platform D) :
    List Op → Server D → List (Fingerprint × SockAddr × ServerToClientMessage)
  | [], _ => []
  | op :: ops, s => (s.message op).toList ++
    match s.step pf op with
    | .error _ => []
    | .ok s' => sentMessages pf ops s'

/-- A step the unset id has no influence on: its calls are harmless, and when it is time to send and
there is a log for that id, there is a client to send it to, or another game that waits. -/
def HarmlessStep (pf : Platform D) (s : Server D) (op : Op) : Prop :=
  (∀ x ∈ callsOfOp pf (s, op), HarmlessCall x) ∧
    (op.isSend = true → s.gameManager.mqManager.currentGameEvents ≠ [] →
      s.gameManager.mqManager.nextGames = [] → ∃ f, f ∈ s.gameManager.mqManager.queues)

/-- All steps up to the first message are harmless. -/
def Harmless (pf : Platform D) : List Op → Server D → Prop
  | [], _ => True
  | op :: ops, s => HarmlessStep pf s op ∧ (s.takesMessage op = false →
    match s.step pf op with
    | .error _ => True
    | .ok s' => Harmless pf ops s')

/-- Servers with the same members, except for their queues. -/
structure TwinServers (s t : Server D) : Prop where
  gameManager : TwinManagers s.gameManager t.gameManager
  clientAddrs : t.clientAddrs = s.clientAddrs
  lastCommunicationTs : t.lastCommunicationTs = s.lastCommunicationTs

namespace TwinServers

variable {pf : Platform D} {s t : Server D}

theorem dropSilent {currentTime : ℤ} : ∀ {fingerprints : List Fingerprint} {s t : Server D},
    TwinServers s t →
    Alike TwinServers (s.dropSilent currentTime fingerprints) (t.dropSilent currentTime fingerprints)
  | [], _, _, h => .ok h
  | f :: rest, s, t, h => by
    have hone : Alike TwinServers (s.dropIfSilent currentTime f) (t.dropIfSilent currentTime f) := by
      rw [dropIfSilent, dropIfSilent, h.lastCommunicationTs, h.clientAddrs]
      split
      · exact .ok h
      · split
        · have hdrop := h.gameManager.dropConnection f
          generalize s.gameManager.dropConnection f = r at hdrop
          generalize t.gameManager.dropConnection f = r' at hdrop
          obtain e | hdrop := hdrop
          · exact .error e
          · exact .ok ⟨hdrop, rfl, rfl⟩
        · exact .ok h
    rw [Server.dropSilent, Server.dropSilent]
    generalize s.dropIfSilent currentTime f = r at hone
    generalize t.dropIfSilent currentTime f = r' at hone
    obtain e | hone := hone
    · exact .error e
    · exact dropSilent hone

theorem cleanup (h : TwinServers s t) (now : ℤ) (order : List Fingerprint) : Alike TwinServers
    (s.cleanupObsoleteConnections now order) (t.cleanupObsoleteConnections now order) := by
  rw [cleanupObsoleteConnections, cleanupObsoleteConnections, h.lastCommunicationTs]
  have hdrop : Alike TwinServers
      (s.dropSilent now (iterationOrder order s.lastCommunicationTs.keys))
      (t.dropSilent now (iterationOrder order s.lastCommunicationTs.keys)) := h.dropSilent
  generalize s.dropSilent now (iterationOrder order s.lastCommunicationTs.keys) = r at hdrop
  generalize t.dropSilent now (iterationOrder order s.lastCommunicationTs.keys) = r' at hdrop
  obtain e | hdrop := hdrop
  · exact .error e
  · exact .ok ⟨hdrop.gameManager, hdrop.clientAddrs, by simp only [hdrop.lastCommunicationTs]⟩

theorem tick {now : ℤ} {order : List Fingerprint} (h : TwinServers s t)
    (hs : HarmlessStep pf s (.tick now order)) (ht : HarmlessStep pf t (.tick now order)) :
    Alike TwinServers (s.tick pf now order) (t.tick pf now order) := by
  have hclean := h.cleanup now order
  have hscalls := hs.1
  have htcalls := ht.1
  rw [callsOfOp] at hscalls htcalls
  rw [Server.tick, Server.tick]
  generalize s.cleanupObsoleteConnections now order = r at hclean hscalls
  generalize t.cleanupObsoleteConnections now order = r' at hclean htcalls
  obtain e | @⟨s₁, t₁, hclean⟩ := hclean
  · exact .error e
  · have hturn : Alike TwinManagers (s₁.gameManager.runTurn pf) (t₁.gameManager.runTurn pf) :=
      hclean.gameManager.operation .turn hscalls htcalls
    simp only
    generalize s₁.gameManager.runTurn pf = r at hturn
    generalize t₁.gameManager.runTurn pf = r' at hturn
    obtain e | hturn := hturn
    · exact .error e
    · exact .ok ⟨hturn, hclean.clientAddrs, hclean.lastCommunicationTs⟩

theorem read {now : ℤ} {f : Fingerprint} {addr : SockAddr} {datagram : List Byte}
    (h : TwinServers s t) (hs : HarmlessStep pf s (.read now f addr datagram))
    (ht : HarmlessStep pf t (.read now f addr datagram)) :
    Alike TwinServers (s.readMessageFromClient pf now f addr datagram)
      (t.readMessageFromClient pf now f addr datagram) := by
  have hscalls := hs.1
  have htcalls := ht.1
  rw [callsOfOp] at hscalls htcalls
  rw [readMessageFromClient, readMessageFromClient]
  generalize ClientToServerMessage.decode (datagram.take incomingMsgSize) = d at hscalls htcalls
  rcases d with _ | m
  · exact .ok ⟨h.gameManager, by simp only [h.clientAddrs], by simp only [h.lastCommunicationTs]⟩
  · have hmsg : Alike TwinManagers (s.gameManager.handleMessage pf f m)
        (t.gameManager.handleMessage pf f m) :=
      h.gameManager.operation (.message f m) hscalls htcalls
    simp only
    generalize s.gameManager.handleMessage pf f m = r at hmsg
    generalize t.gameManager.handleMessage pf f m = r' at hmsg
    obtain e | hmsg := hmsg
    · exact .error e
    · exact .ok ⟨hmsg, by simp only [h.clientAddrs], by simp only [h.lastCommunicationTs]⟩

/-- Both servers have a message to send, the same one, or neither has. -/
theorem takesMessage_eq (h : TwinServers s t) {op : Op} (hs : HarmlessStep pf s op)
    (ht : HarmlessStep pf t op) : s.takesMessage op = t.takesMessage op ∧
      (s.takesMessage op = true →
        s.gameManager.mqManager.getNextMessage = t.gameManager.mqManager.getNextMessage) := by
  rcases op with _ | _ | delivered
  · exact ⟨rfl, fun h => (by cases h)⟩
  · exact ⟨rfl, fun h => (by cases h)⟩
  · obtain ⟨w, hsw, htw⟩ := h.gameManager.2
    have hsempty := hsw.isEmpty_iff (hs.2 rfl)
    have htempty := htw.isEmpty_iff (ht.2 rfl)
    have hempty : s.gameManager.mqManager.isEmpty = t.gameManager.mqManager.isEmpty := by
      rw [Bool.eq_iff_iff, hsempty, htempty]
    refine ⟨congrArg not hempty, fun htakes => hsw.getNextMessage_eq htw fun hgames => ?_⟩
    rw [takesMessage_send, hsempty.mpr hgames] at htakes
    cases htakes

theorem message_eq (h : TwinServers s t) {op : Op} (hs : HarmlessStep pf s op)
    (ht : HarmlessStep pf t op) : s.message op = t.message op := by
  obtain ⟨htakes, hnext⟩ := h.takesMessage_eq hs ht
  rw [message, message, ← htakes, h.clientAddrs]
  split
  · rename_i hmessage
    rw [hnext hmessage]
  · rfl

/-- **The first message leaves the same server behind.** -/
theorem step_eq (h : TwinServers s t) {op : Op} (hs : HarmlessStep pf s op)
    (ht : HarmlessStep pf t op) (htakes : s.takesMessage op = true) :
    s.step pf op = t.step pf op := by
  obtain ⟨htakes', hnext⟩ := h.takesMessage_eq hs ht
  rcases op with _ | _ | delivered
  · cases htakes
  · cases htakes
  · rw [htakes] at htakes'
    rw [takesMessage_send, Bool.not_eq_true'] at htakes
    rw [eq_comm, takesMessage_send, Bool.not_eq_true'] at htakes'
    have hnext := hnext (by rw [takesMessage_send, htakes]; rfl)
    rw [Server.step, Server.step, htakes, htakes', sendMessageToClient, sendMessageToClient, hnext,
      h.clientAddrs, h.lastCommunicationTs]
    simp only [Bool.false_eq_true, if_false, h.gameManager.1]

/-- **Until then they stay alike.** -/
theorem step (h : TwinServers s t) {op : Op} (hs : HarmlessStep pf s op)
    (ht : HarmlessStep pf t op) (htakes : s.takesMessage op = false) :
    Alike TwinServers (s.step pf op) (t.step pf op) := by
  obtain ⟨htakes', -⟩ := h.takesMessage_eq hs ht
  rcases op with ⟨now, order⟩ | ⟨now, f, addr, datagram⟩ | delivered
  · exact h.tick hs ht
  · exact h.read hs ht
  · rw [htakes] at htakes'
    rw [takesMessage_send, Bool.not_eq_false'] at htakes
    rw [eq_comm, takesMessage_send, Bool.not_eq_false'] at htakes'
    rw [Server.step, Server.step, if_pos htakes, if_pos htakes']
    exact .ok h

/-- **Any steps.** -/
theorem sentMessages_eq : ∀ {ops : List Op} {s t : Server D}, TwinServers s t →
    Harmless pf ops s → Harmless pf ops t → sentMessages pf ops s = sentMessages pf ops t
  | [], _, _, _, _, _ => rfl
  | op :: ops, s, t, h, hs, ht => by
    rw [sentMessages, sentMessages, h.message_eq hs.1 ht.1]
    rcases htakes : s.takesMessage op with _ | _
    · have htakes' := (h.takesMessage_eq hs.1 ht.1).1.symm.trans htakes
      have hone := h.step hs.1 ht.1 htakes
      have hsnext := hs.2 htakes
      have htnext := ht.2 htakes'
      generalize s.step pf op = r at hone hsnext
      generalize t.step pf op = r' at hone htnext
      obtain e | hone := hone
      · rfl
      · exact congrArg _ (sentMessages_eq hone hsnext htnext)
    · rw [h.step_eq hs.1 ht.1 htakes]

end TwinServers

end Server

/-! ## What a server sends -/

/-- **Two servers send the same**, whatever the memory of the id held, if all steps of theirs up to
the first message are harmless. -/
theorem sentMessages_eq_of_harmless {pf : Platform D} (config : ServerConfig) (unsetAlive : ℕ)
    {unsetId unsetId' : ℕ} {ops : List Server.Op}
    (h : Server.Harmless pf ops (.new config unsetId unsetAlive))
    (h' : Server.Harmless pf ops (.new config unsetId' unsetAlive)) :
    Server.sentMessages pf ops (.new config unsetId unsetAlive) =
      Server.sentMessages pf ops (.new config unsetId' unsetAlive) :=
  Server.TwinServers.sentMessages_eq
    ⟨⟨rfl, _, Represents.new unsetId, Represents.new unsetId'⟩, rfl, rfl⟩ h h'

instance decidableHarmlessCall : ∀ x : MQManager × MQCall, Decidable (HarmlessCall x)
  | (_, .schedule _ _) => inferInstanceAs (Decidable (_ → _ → _))
  | (_, .ack _ _) => inferInstanceAs (Decidable (_ → _ → _))
  | (_, .dropQueue _) => inferInstanceAs (Decidable True)
  | (_, .addQueue _ _) => inferInstanceAs (Decidable (_ → _ → _))

instance decidableSomebody (m : SortedMap Fingerprint ℕ) : Decidable (∃ f, f ∈ m) :=
  decidable_of_iff (0 < m.keys.length) List.length_pos_iff_exists_mem

instance Server.decidableHarmlessStep (pf : Platform D) (s : Server D) (op : Op) :
    Decidable (HarmlessStep pf s op) := inferInstanceAs (Decidable (_ ∧ _))

instance Server.decidableHarmless (pf : Platform D) :
    ∀ (ops : List Op) (s : Server D), Decidable (Harmless pf ops s)
  | [], _ => inferInstanceAs (Decidable True)
  | op :: ops, s =>
    have : Decidable (match s.step pf op with
        | .error _ => True
        | .ok s' => Harmless pf ops s') :=
      match s.step pf op with
      | .error _ => inferInstanceAs (Decidable True)
      | .ok s' => decidableHarmless pf ops s'
    inferInstanceAs (Decidable (_ ∧ (_ → _)))

/-- Two players start a game, whose id the memory of one of the servers holds, and a message is
sent. -/
theorem sentMessages_eq_start :
    let ops := [.said 0 1 1 .right 0 [97], .said 0 2 1 .right 0 [98], .send true]
    Server.sentMessages fixedPoint ops (.new (smallBoard 5 (by decide)) 5 0) =
      Server.sentMessages fixedPoint ops (.new (smallBoard 5 (by decide)) 0 0) :=
  sentMessages_eq_of_harmless _ 0 (by decide +kernel) (by decide +kernel)

/-- Before the message is sent, the first player acknowledges an event. Where the memory of the id
holds that of the game, it never gets the `NEW_GAME` event. -/
theorem not_sentMessages_eq :
    let ops := [.said 0 1 1 .right 0 [97], .said 0 2 1 .right 0 [98], .said 0 1 1 .right 1 [97],
      .send true]
    Server.sentMessages fixedPoint ops (.new (smallBoard 5 (by decide)) 5 0) ≠
      Server.sentMessages fixedPoint ops (.new (smallBoard 5 (by decide)) 0 0) := by
  decide +kernel

end ScreenWorms
