import Mathlib.Algebra.BigOperators.Group.List.Basic
import ScreenWorms.Server.MQInvariant

/-!
# Sending until the queue is empty

What the queue does when nothing happens but successful sends. `Sends mq ms mq'` lists the messages
of a series of sends, each from a non-empty queue.

As long as no game waits, every send moves its recipient forward, and the series ends with everybody
up to date (`exists_sends`). While a game waits, `ack` ignores the number it is given, so a send
leaves the recipient where it was (`sendMessage_stuck`) and the queue repeats itself for ever.
`deliversEverything_iff` puts the two together.

## Main definitions

* `MQManager.Sends`, `MQManager.eventsSentTo`
* `MQManager.DeliversEverything` — every send counts, and after finitely many all is sent

## Main results

* `MQManager.deliversEverything_iff` — exactly when a queue delivers everything
-/

namespace ScreenWorms

namespace MQManager

/-! ## Events that fit a datagram -/

/-- An event with this payload fits a datagram alone. -/
def FitsDatagram (event : GameEventVariant) : Prop :=
  4 + (event.getSize + 4 + 4 + 1 + 4) ≤ maxUdpDataFieldSize

/-- Every event in the queue fits a datagram. -/
structure Fits (mq : MQManager) : Prop where
  /-- The current game's do. -/
  current : ∀ e ∈ mq.currentGameEvents, FitsDatagram e.eventData
  /-- The waiting games' do. -/
  waiting : ∀ game ∈ mq.nextGames, ∀ event ∈ game.2, FitsDatagram event

theorem fits_new (unsetId : ℕ) : (MQManager.new unsetId).Fits where
  current := fun _ h => absurd h List.not_mem_nil
  waiting := fun _ h => absurd h List.not_mem_nil

theorem fits_current_iff {events : List Event} : (∀ e ∈ events, FitsDatagram e.eventData) ↔
    ∀ event ∈ events.map Event.eventData, FitsDatagram event := by
  simp

/-- Calls that schedule only events that fit keep `Fits`. -/
theorem Fits.exec {mq mq' : MQManager} (h : mq.Fits) {call : MQCall}
    (hev : ∀ gameId event, call = .schedule gameId event → FitsDatagram event)
    (hcall : mq.exec call = .ok mq') : mq'.Fits := by
  cases call with
  | schedule gameId event =>
    cases hcall
    rw [MQManager.schedule]
    split
    · refine ⟨fits_current_iff.mpr fun e he => ?_, h.waiting⟩
      rw [map_eventData_appendNumbered, List.mem_append, List.mem_singleton] at he
      rcases he with he | rfl
      · exact fits_current_iff.mp h.current e he
      · exact hev gameId e rfl
    · refine ⟨h.current, fun game hgame e he => ?_⟩
      rcases mem_addToNextGames hgame with hgame | ⟨old, rfl, hold⟩
      · exact h.waiting game hgame e he
      · rcases List.mem_append.mp he with he | he
        · rcases hold with rfl | hold
          · exact absurd he List.not_mem_nil
          · exact h.waiting _ hold e he
        · rw [List.mem_singleton.mp he]
          exact hev gameId event rfl
  | ack fprint n =>
    change mq.ack fprint n = .ok mq' at hcall
    rw [MQManager.ack] at hcall
    split at hcall
    · split at hcall
      · cases hcall
        exact ⟨h.current, h.waiting⟩
      · cases hcall
    · cases hcall
      exact h
  | dropQueue fprint =>
    cases hcall
    exact ⟨h.current, h.waiting⟩
  | addQueue fprint n =>
    cases hcall
    rw [MQManager.addQueue]
    split
    · exact h
    · exact ⟨h.current, h.waiting⟩

theorem Fits.switchGame {mq : MQManager} (h : mq.Fits) : mq.switchGame.Fits := by
  cases hsw : mq.switches with
  | false =>
    rw [switchGame_of_not_switches hsw]
    exact h
  | true =>
    obtain ⟨game, rest, hn, heq⟩ := switchGame_of_switches hsw
    rw [heq]
    refine ⟨fits_current_iff.mpr ?_, fun g hg => h.waiting g (hn ▸ List.mem_cons_of_mem _ hg)⟩
    rw [map_eventData_numbered]
    exact h.waiting game (hn ▸ List.mem_cons_self)

theorem Fits.getNextMessage {mq mq' : MQManager} (h : mq.Fits) {m : MessageAndRecipient}
    (hnext : mq.getNextMessage = .ok (m, mq')) : mq'.Fits := by
  obtain ⟨-, -, -, -, -, -, -, -, rfl⟩ := serve_eq_ok hnext
  exact ⟨h.switchGame.current, h.switchGame.waiting⟩

/-- A batch from a log of events that fit takes at least one event. -/
theorem Fits.pickEvents_ne_nil {mq : MQManager} (h : mq.Fits) {pos : ℕ}
    (hpos : pos < mq.currentGameEvents.length) :
    pickEvents 4 (mq.currentGameEvents.drop pos) ≠ [] := by
  refine ScreenWorms.pickEvents_ne_nil ?_ fun e he => h.current e (List.mem_of_mem_drop he)
  exact fun hnil => absurd (List.drop_eq_nil_iff.mp hnil) (not_le.mpr hpos)

/-! ## One successful send -/

theorem sendMessage_iff {mq mq' : MQManager} {m : MessageAndRecipient} :
    mq.sendMessage = .ok (m, mq') ↔ ∃ mq₁, mq.getNextMessage = .ok (m, mq₁) ∧
      mq₁.ack m.fingerprint m.ackNumber = .ok mq' := by
  rw [sendMessage]
  cases hnext : mq.getNextMessage with
  | error e => simp
  | ok r =>
    obtain ⟨m₁, mq₁⟩ := r
    cases hack : mq₁.ack m₁.fingerprint m₁.ackNumber with
    | error e =>
      simp only [hack, reduceCtorEq, Except.ok.injEq, Prod.mk.injEq, false_iff, not_exists, not_and]
      rintro _ ⟨rfl, rfl⟩ h
      rw [hack] at h
      cases h
    | ok mq₂ =>
      simp only [hack, Except.ok.injEq, Prod.mk.injEq]
      constructor
      · rintro ⟨rfl, rfl⟩
        exact ⟨mq₁, ⟨rfl, rfl⟩, hack⟩
      · rintro ⟨_, ⟨rfl, rfl⟩, h⟩
        rw [hack] at h
        cases h
        exact ⟨rfl, rfl⟩

/-- What `ack` does for a client that has a queue. -/
theorem ack_of_mem {mq : MQManager} {fprint : Fingerprint} (h : fprint ∈ mq.queues) (n : ℕ) :
    mq.ack fprint n = .ok { mq with
      queues := if mq.nextGames = [] then
        mq.queues.set fprint (min (toUInt32 mq.currentGameEvents.length) n) else mq.queues } := by
  rw [ack, if_pos h]
  by_cases hn : mq.nextGames = []
  · simp [hn]
  · simp [hn]

/-- What a send does: the client it serves gets a batch from its position on, and its position
becomes what `ack` makes of the batch's end. -/
theorem sendMessage_eq_ok {mq mq' : MQManager} {m : MessageAndRecipient}
    (h : mq.sendMessage = .ok (m, mq')) : ∃ pos,
      mq.switchGame.queues.find? m.fingerprint = some pos ∧
      pos < mq.switchGame.currentGameEvents.length ∧
      m.msg = ⟨mq.switchGame.currentlyBroadcastedGameId,
        pickEvents 4 (mq.switchGame.currentGameEvents.drop pos)⟩ ∧
      m.ackNumber = toUInt32 (pos + m.msg.events.length) ∧
      mq'.currentGameEvents = mq.switchGame.currentGameEvents ∧
      mq'.currentlyBroadcastedGameId = mq.switchGame.currentlyBroadcastedGameId ∧
      mq'.nextGames = mq.switchGame.nextGames ∧
      mq'.queues = if mq.switchGame.nextGames = [] then
        mq.switchGame.queues.set m.fingerprint
          (min (toUInt32 mq.switchGame.currentGameEvents.length) m.ackNumber)
        else mq.switchGame.queues := by
  obtain ⟨mq₁, hnext, hack⟩ := sendMessage_iff.mp h
  obtain ⟨skipped, rest, pos, -, hfind, hlt, hmsg, hnum, rfl⟩ := serve_eq_ok hnext
  have hmem : m.fingerprint ∈ mq.switchGame.queues := SortedMap.mem_of_find? hfind
  rw [ack_of_mem (by exact hmem)] at hack
  cases hack
  exact ⟨pos, hfind, hlt, hmsg, hnum, rfl, rfl, rfl, rfl⟩

theorem WellFormed.sendMessage {mq mq' : MQManager} (h : mq.WellFormed) {m : MessageAndRecipient}
    (hsend : mq.sendMessage = .ok (m, mq')) : mq'.WellFormed := by
  obtain ⟨mq₁, hnext, hack⟩ := sendMessage_iff.mp hsend
  exact (h.getNextMessage hnext).ack hack

theorem WellFormed.sendMessage_ok {mq : MQManager} (h : mq.WellFormed) (hne : mq.isEmpty = false)
    {fprint : Fingerprint} (hq : fprint ∈ mq.queues) : ∃ m mq', mq.sendMessage = .ok (m, mq') := by
  obtain ⟨m, mq₁, hnext⟩ := h.getNextMessage_ok hne hq
  obtain ⟨_, _, _, -, hfind, -, -, -, heq⟩ := serve_eq_ok hnext
  have hmem : m.fingerprint ∈ mq₁.queues := by
    rw [heq]
    exact SortedMap.mem_of_find? hfind
  exact ⟨m, _, sendMessage_iff.mpr ⟨mq₁, hnext, ack_of_mem hmem _⟩⟩

theorem Fits.sendMessage {mq mq' : MQManager} (h : mq.Fits) {m : MessageAndRecipient}
    (hsend : mq.sendMessage = .ok (m, mq')) : mq'.Fits := by
  obtain ⟨-, -, -, -, -, hev, -, hn, -⟩ := sendMessage_eq_ok hsend
  exact ⟨hev ▸ h.switchGame.current, hn ▸ h.switchGame.waiting⟩

/-- A send changes nobody's having a queue. -/
theorem mem_queues_sendMessage {mq mq' : MQManager} {m : MessageAndRecipient}
    (h : mq.sendMessage = .ok (m, mq')) {fprint : Fingerprint} :
    fprint ∈ mq'.queues ↔ fprint ∈ mq.queues := by
  obtain ⟨pos, hfind, -, -, -, -, -, -, hq⟩ := sendMessage_eq_ok h
  have hmem : m.fingerprint ∈ mq.queues := mem_queues_switchGame.mp (SortedMap.mem_of_find? hfind)
  rw [hq]
  split
  · rw [SortedMap.mem_set, mem_queues_switchGame]
    exact ⟨fun h => h.elim (fun e => e ▸ hmem) id, Or.inr⟩
  · exact mem_queues_switchGame

/-- A batch is never empty, and the position it ends at is another one, as a 32-bit number too. -/
theorem ackNumber_ne {mq mq' : MQManager} (hf : mq.Fits) {m : MessageAndRecipient}
    (h : mq.sendMessage = .ok (m, mq')) {pos : ℕ}
    (hpos : mq.switchGame.queues.find? m.fingerprint = some pos) :
    m.ackNumber ≠ pos := by
  obtain ⟨pos', hfind, hlen, hmsg, hnum, -⟩ := sendMessage_eq_ok h
  rw [hpos] at hfind
  cases hfind
  have hne := List.length_pos_iff.mpr (hf.switchGame.pickEvents_ne_nil hlen)
  have hbound : 4 + 13 * (pickEvents 4 (mq.switchGame.currentGameEvents.drop pos)).length ≤
      maxUdpDataFieldSize := length_pickEvents_lt _ (by decide)
  rw [hnum, hmsg]
  simp only [maxUdpDataFieldSize, toUInt32] at hbound ⊢
  omega

/-- **A send is lost on the queue while a game waits**: the recipient stays where it was. -/
theorem sendMessage_stuck {mq mq' : MQManager} (hf : mq.Fits) {m : MessageAndRecipient}
    (h : mq.sendMessage = .ok (m, mq')) (hn : mq.switchGame.nextGames ≠ []) :
    mq'.queues.find? m.fingerprint ≠ some m.ackNumber := by
  obtain ⟨pos, hfind, -, -, -, -, -, -, hq⟩ := sendMessage_eq_ok h
  rw [hq, if_neg hn, hfind]
  intro heq
  exact ackNumber_ne hf h hfind (Option.some.inj heq).symm

/-! ## A series of sends -/

/-- Successful sends, one after the other, as long as the queue is not empty. -/
inductive Sends : MQManager → List MessageAndRecipient → MQManager → Prop
  | nil (mq : MQManager) : Sends mq [] mq
  | cons {mq mq₁ mq₂ : MQManager} {m : MessageAndRecipient} {ms : List MessageAndRecipient} :
    mq.isEmpty = false → mq.sendMessage = .ok (m, mq₁) → Sends mq₁ ms mq₂ →
    Sends mq (m :: ms) mq₂

/-- The events of a game that a client is sent in a series of sends, in order. -/
def eventsSentTo (client : Fingerprint) (gameId : ℕ) (ms : List MessageAndRecipient) :
    List Event :=
  (ms.filter fun m => m.fingerprint = client ∧ m.msg.gameId = gameId).flatMap (·.msg.events)

/-- Every send moves its recipient to the number it returned, and after finitely many sends the
queue is empty, with every game that was waiting sent in full to every client. -/
structure DeliversEverything (mq : MQManager) : Prop where
  /-- Each send counts. -/
  moves : ∀ ms mq₁ m mq₂, Sends mq ms mq₁ → mq₁.isEmpty = false →
    mq₁.sendMessage = .ok (m, mq₂) → mq₂.queues.find? m.fingerprint = some m.ackNumber
  /-- The series ends, and everything has been sent. -/
  finishes : ∃ ms mq', Sends mq ms mq' ∧ mq'.isEmpty = true ∧
    ∀ game ∈ mq.nextGames, ∀ client ∈ mq.queues, eventsSentTo client game.1 ms = numbered game.2

/-- The number of events that clients still have to be sent, all clients together. -/
def unsent (mq : MQManager) : ℕ :=
  (mq.queues.entries.map fun queue => mq.currentGameEvents.length - queue.2).sum

/-- A queue on which sends count. -/
structure Flowing (mq : MQManager) : Prop where
  wellFormed : mq.WellFormed
  fits : mq.Fits
  nextGames_eq_nil : mq.nextGames = []
  length_lt : mq.currentGameEvents.length < 2 ^ 32

theorem Flowing.switchGame_eq {mq : MQManager} (h : mq.Flowing) : mq.switchGame = mq :=
  switchGame_of_not_switches (by simp [switches, h.nextGames_eq_nil])

/-- On a flowing queue a send moves its recipient behind the batch. -/
theorem Flowing.sendMessage {mq mq' : MQManager} (h : mq.Flowing) {m : MessageAndRecipient}
    (hsend : mq.sendMessage = .ok (m, mq')) : ∃ pos,
      mq.queues.find? m.fingerprint = some pos ∧
      m.msg = ⟨mq.currentlyBroadcastedGameId, pickEvents 4 (mq.currentGameEvents.drop pos)⟩ ∧
      m.ackNumber = pos + m.msg.events.length ∧ pos < m.ackNumber ∧
      m.ackNumber ≤ mq.currentGameEvents.length ∧
      mq'.currentGameEvents = mq.currentGameEvents ∧
      mq'.currentlyBroadcastedGameId = mq.currentlyBroadcastedGameId ∧
      mq'.nextGames = [] ∧ mq'.queues = mq.queues.set m.fingerprint m.ackNumber := by
  obtain ⟨pos, hfind, hlt, hmsg, hnum, hev, hid, hn, hq⟩ := sendMessage_eq_ok hsend
  rw [h.switchGame_eq] at hfind hlt hmsg hev hid hn hq
  have hpos := List.length_pos_iff.mpr (h.fits.pickEvents_ne_nil hlt)
  have hle : (pickEvents 4 (mq.currentGameEvents.drop pos)).length ≤
      mq.currentGameEvents.length - pos := by
    rw [← List.length_drop]
    exact length_pickEvents_le 4 _
  have hlen := h.length_lt
  have hnum' : m.ackNumber = pos + m.msg.events.length := by
    rw [hnum]
    exact toUInt32_of_lt (by rw [hmsg]; exact lt_of_le_of_lt (by simpa using by omega) hlen)
  rw [toUInt32_of_lt hlen, if_pos h.nextGames_eq_nil] at hq
  have hbatch : m.msg.events.length = (pickEvents 4 (mq.currentGameEvents.drop pos)).length := by
    rw [hmsg]
  refine ⟨pos, hfind, hmsg, hnum', by omega, by omega, hev, hid, hn.trans h.nextGames_eq_nil, ?_⟩
  rw [hq, min_eq_right (by omega)]

theorem Flowing.step {mq mq' : MQManager} (h : mq.Flowing) {m : MessageAndRecipient}
    (hsend : mq.sendMessage = .ok (m, mq')) : mq'.Flowing := by
  obtain ⟨-, -, -, -, -, -, hev, -, hn, -⟩ := h.sendMessage hsend
  exact ⟨h.wellFormed.sendMessage hsend, h.fits.sendMessage hsend, hn, hev ▸ h.length_lt⟩

theorem Flowing.sends {mq mq' : MQManager} (h : mq.Flowing) {ms : List MessageAndRecipient}
    (hs : Sends mq ms mq') : mq'.Flowing := by
  induction hs with
  | nil => exact h
  | cons _ hsend _ ih => exact ih (h.step hsend)

theorem Flowing.unsent_lt {mq mq' : MQManager} (h : mq.Flowing) {m : MessageAndRecipient}
    (hsend : mq.sendMessage = .ok (m, mq')) : mq'.unsent < mq.unsent := by
  obtain ⟨pos, hfind, -, -, hlt, hle, hev, -, -, hq⟩ := h.sendMessage hsend
  have hfind' : mq'.queues.find? m.fingerprint = some m.ackNumber := by simp [hq]
  have herase : mq'.queues.erase m.fingerprint = mq.queues.erase m.fingerprint := by
    rw [hq, SortedMap.erase_set]
  have hbefore := ((SortedMap.entries_perm_erase hfind).map
    fun queue => mq.currentGameEvents.length - queue.2).sum_eq
  have hafter := ((SortedMap.entries_perm_erase hfind').map
    fun queue => mq.currentGameEvents.length - queue.2).sum_eq
  rw [herase] at hafter
  simp only [List.map_cons, List.sum_cons] at hbefore hafter
  rw [unsent, unsent, hev, hbefore, hafter]
  omega

/-- **A flowing queue drains.** Every client is sent the rest of the log from its position on. -/
theorem Flowing.exists_sends {mq : MQManager} (h : mq.Flowing) : ∃ ms mq', Sends mq ms mq' ∧
    mq'.isEmpty = true ∧ ∀ client pos, mq.queues.find? client = some pos →
      eventsSentTo client mq.currentlyBroadcastedGameId ms = mq.currentGameEvents.drop pos := by
  generalize hd : mq.unsent = remaining
  induction remaining using Nat.strongRecOn generalizing mq with
  | ind remaining ih =>
    cases hempty : mq.isEmpty with
    | true =>
      refine ⟨[], mq, .nil mq, hempty, fun client pos hfind => ?_⟩
      simp only [isEmpty, Bool.and_eq_true, Bool.not_eq_true', ← Bool.not_eq_true,
        hasPending_iff] at hempty
      have hge : mq.currentGameEvents.length ≤ pos := by
        by_contra hlt
        exact hempty.1 ⟨client, pos, hfind, not_le.mp hlt⟩
      rw [List.drop_eq_nil_of_le hge]
      rfl
    | false =>
      have hpend : mq.hasPendingMessagesForCurrentGame = true := by
        simpa [isEmpty, h.nextGames_eq_nil] using hempty
      obtain ⟨f, _, hq, -⟩ := hasPending_iff.mp hpend
      obtain ⟨m, mq₁, hsend⟩ := h.wellFormed.sendMessage_ok hempty (SortedMap.mem_of_find? hq)
      obtain ⟨pos₀, hfind, hmsg, hnum, hlt, hle, hev, hid, -, hset⟩ := h.sendMessage hsend
      obtain ⟨ms, mq', hs, hdone, hsent⟩ := ih _ (hd ▸ h.unsent_lt hsend) (h.step hsend) rfl
      refine ⟨m :: ms, mq', .cons hempty hsend hs, hdone, fun client pos hpos => ?_⟩
      have hgame : m.msg.gameId = mq.currentlyBroadcastedGameId := by rw [hmsg]
      rw [hid, hev] at hsent
      by_cases hc : m.fingerprint = client
      · -- the batch, and then what is sent from the new position on
        subst hc
        rw [hfind] at hpos
        cases hpos
        have hnew : mq₁.queues.find? m.fingerprint = some m.ackNumber := by simp [hset]
        have hbatch : m.msg.events = (mq.currentGameEvents.drop pos₀).take m.msg.events.length := by
          rw [hmsg]
          exact pickEvents_eq_take 4 _
        have hrest := hsent _ _ hnew
        rw [eventsSentTo] at hrest ⊢
        rw [List.filter_cons_of_pos (by simp [hgame]), List.flatMap_cons, hrest, hnum,
          ← List.drop_drop]
        exact (congrArg (· ++ _) hbatch).trans (List.take_append_drop _ _)
      · rw [eventsSentTo, List.filter_cons_of_neg (by simp [hc])]
        exact hsent client pos (by rw [hset, SortedMap.find?_set, if_neg (Ne.symm hc), hpos])

theorem Flowing.moves {mq : MQManager} (h : mq.Flowing) {ms : List MessageAndRecipient}
    {mq₁ mq₂ : MQManager} {m : MessageAndRecipient} (hs : Sends mq ms mq₁)
    (hsend : mq₁.sendMessage = .ok (m, mq₂)) :
    mq₂.queues.find? m.fingerprint = some m.ackNumber := by
  obtain ⟨-, -, -, -, -, -, -, -, -, hset⟩ := (h.sends hs).sendMessage hsend
  simp [hset]

/-! ## Exactly when everything is delivered -/

/-- A log of `2 ^ 32` events or more is never sent in full: no position reaches its end. -/
theorem not_isEmpty_of_long {mq : MQManager} (hwf : mq.WellFormed) {client : Fingerprint}
    (hq : client ∈ mq.queues) (hlong : 2 ^ 32 ≤ mq.currentGameEvents.length) :
    mq.isEmpty = false := by
  obtain ⟨pos, hpos⟩ := SortedMap.mem_iff_find?.mp hq
  have hpend : mq.hasPendingMessagesForCurrentGame = true :=
    hasPending_iff.mpr ⟨client, pos, hpos, lt_of_lt_of_le (hwf.position_lt _ _ hpos) hlong⟩
  simp [isEmpty, hpend]

/-- Nor does it ever stop being sent. -/
theorem sends_of_long {mq mq' : MQManager} {ms : List MessageAndRecipient} (hs : Sends mq ms mq')
    (hwf : mq.WellFormed) {client : Fingerprint} (hq : client ∈ mq.queues)
    (hlong : 2 ^ 32 ≤ mq.switchGame.currentGameEvents.length)
    (hn : mq.switchGame.nextGames = []) (hne : mq.isEmpty = false) : mq'.isEmpty = false := by
  induction hs with
  | nil => exact hne
  | @cons mq mq₁ mq₂ m ms _ hsend _ ih =>
    obtain ⟨-, -, -, -, -, hev, -, hng, -⟩ := sendMessage_eq_ok hsend
    have hwf₁ := hwf.sendMessage hsend
    have hq₁ : client ∈ mq₁.queues := (mem_queues_sendMessage hsend).mpr hq
    have hsw : mq₁.switchGame = mq₁ :=
      switchGame_of_not_switches (by simp [switches, hng, hn])
    exact ih hwf₁ hq₁ (by rw [hsw, hev]; exact hlong) (by rw [hsw, hng, hn])
      (not_isEmpty_of_long hwf₁ hq₁ (hev ▸ hlong))

/-- After the first waiting game has become the current one, the rest of the story is the same. -/
theorem sendMessage_switchGame {mq : MQManager}
    (hp : mq.switchGame.hasPendingMessagesForCurrentGame = true) :
    mq.switchGame.sendMessage = mq.sendMessage := by
  have hsw : mq.switchGame.switchGame = mq.switchGame :=
    switchGame_of_not_switches (by simp [switches, hp])
  rw [sendMessage, sendMessage, getNextMessage, getNextMessage, hsw,
    clientsToServeSchedule_switchGame]

theorem DeliversEverything.of_flowing {mq : MQManager} (h : mq.Flowing) :
    mq.DeliversEverything := by
  obtain ⟨ms, mq', hs, hdone, -⟩ := h.exists_sends
  refine ⟨fun _ _ _ _ hs' _ hsend => h.moves hs' hsend, ms, mq', hs, hdone, ?_⟩
  rw [h.nextGames_eq_nil]
  exact fun _ hgame => absurd hgame List.not_mem_nil

/-- The case of one waiting game, with everybody up to date in the current one. -/
theorem DeliversEverything.of_switchGame {mq : MQManager} (hwf : mq.WellFormed) (hf : mq.Fits)
    {client : Fingerprint} (hq : client ∈ mq.queues) {game : ℕ × List GameEventVariant}
    (hn : mq.nextGames = [game]) (hp : mq.hasPendingMessagesForCurrentGame = false)
    (hlen : game.2.length < 2 ^ 32) : mq.DeliversEverything := by
  have hne : mq.isEmpty = false := by simp [isEmpty, hn]
  obtain ⟨game', rest, hn', heq⟩ :=
    switchGame_of_switches (show mq.switches = true by simp [switches, hp, hn])
  rw [hn] at hn'
  cases hn'
  have hflow : mq.switchGame.Flowing :=
    ⟨hwf.switchGame, hf.switchGame, by rw [heq], by rw [heq]; simpa using hlen⟩
  have hpend := hwf.hasPending_switchGame hne hq
  have hne' : mq.switchGame.isEmpty = false := by simp [isEmpty, hpend]
  have hsame := sendMessage_switchGame hpend
  -- a series of sends from here is one from the queue that has gone on to the next game
  have htail : ∀ {ms mq₁}, Sends mq ms mq₁ → ms ≠ [] → Sends mq.switchGame ms mq₁ := by
    intro ms mq₁ hs hms
    cases hs with
    | nil => exact absurd rfl hms
    | cons _ hsend hrest => exact .cons hne' (hsame ▸ hsend) hrest
  refine ⟨fun ms mq₁ m mq₂ hs _ hsend => ?_, ?_⟩
  · cases hs with
    | nil => exact hflow.moves (.nil _) (hsame ▸ hsend)
    | cons hne₁ hsend₁ hrest =>
      exact hflow.moves (htail (.cons hne₁ hsend₁ hrest) (List.cons_ne_nil _ _)) hsend
  · obtain ⟨ms, mq', hs, hdone, hsent⟩ := hflow.exists_sends
    cases hs with
    | nil =>
      rw [hne'] at hdone
      cases hdone
    | @cons _ mq₁ _ m ms _ hsend hrest =>
      refine ⟨m :: ms, mq', .cons hne (hsame ▸ hsend) hrest, hdone, fun g hg c hc => ?_⟩
      rw [hn] at hg
      cases List.mem_singleton.mp hg
      obtain ⟨pos, hpos⟩ := SortedMap.mem_iff_find?.mp hc
      have hzero : mq.switchGame.queues.find? c = some 0 := by simp [heq, hpos]
      have hall := hsent c 0 hzero
      rw [heq] at hall
      exact hall

/-- **Exactly when successful sends deliver everything.** Either no game waits, or one does and
nobody has anything left to get of the current game; and the log about to be sent is short enough
for 32-bit positions. -/
theorem deliversEverything_iff {mq : MQManager} (hwf : mq.WellFormed) (hf : mq.Fits)
    {client : Fingerprint} (hq : client ∈ mq.queues) : mq.DeliversEverything ↔
      (mq.nextGames = [] ∧ mq.currentGameEvents.length < 2 ^ 32) ∨
      ∃ game, mq.nextGames = [game] ∧ mq.hasPendingMessagesForCurrentGame = false ∧
        game.2.length < 2 ^ 32 := by
  constructor
  · intro h
    obtain ⟨ms, mq', hs, hdone, -⟩ := h.finishes
    -- the first send must count, so nothing may wait behind the game it is about
    have hfirst : mq.isEmpty = false → mq.switchGame.nextGames = [] := by
      intro hne
      by_contra hn
      obtain ⟨m, mq₁, hsend⟩ := hwf.sendMessage_ok hne hq
      exact sendMessage_stuck hf hsend hn (h.moves [] mq m mq₁ (.nil mq) hne hsend)
    have hshort : mq.isEmpty = false → mq.switchGame.currentGameEvents.length < 2 ^ 32 := by
      intro hne
      by_contra hlong
      have := sends_of_long hs hwf hq (not_lt.mp hlong) (hfirst hne) hne
      rw [hdone] at this
      cases this
    cases hn : mq.nextGames with
    | nil =>
      left
      refine ⟨rfl, ?_⟩
      have hsw : mq.switchGame = mq := switchGame_of_not_switches (by simp [switches, hn])
      cases hne : mq.isEmpty with
      | false => exact hsw ▸ hshort hne
      | true =>
        by_contra hlong
        rw [not_isEmpty_of_long hwf hq (not_lt.mp hlong)] at hne
        cases hne
    | cons game rest =>
      right
      have hne : mq.isEmpty = false := by simp [isEmpty, hn]
      have hp : mq.hasPendingMessagesForCurrentGame = false := by
        by_contra hp
        have hsw : mq.switchGame = mq :=
          switchGame_of_not_switches (by simp [switches, Bool.not_eq_false _ ▸ hp])
        have := hfirst hne
        rw [hsw, hn] at this
        cases this
      obtain ⟨game', rest', hn', heq⟩ :=
        switchGame_of_switches (show mq.switches = true by simp [switches, hp, hn])
      rw [hn] at hn'
      cases hn'
      have hrest := hfirst hne
      have hlen := hshort hne
      rw [heq] at hrest hlen
      exact ⟨game, by rw [show rest = [] from hrest], hp, by simpa using hlen⟩
  · rintro (⟨hn, hlen⟩ | ⟨game, hn, hp, hlen⟩)
    · exact .of_flowing ⟨hwf, hf, hn, hlen⟩
    · exact .of_switchGame hwf hf hq hn hp hlen

end MQManager

end ScreenWorms
