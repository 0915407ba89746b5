import ScreenWorms.Server.MQManager
import ScreenWorms.ForStd.Machine

/-!
# What holds of the message queue at any time

`MQManager.WellFormed` says that the schedule lists the clients that have a queue, that no waiting
game is empty and that positions are 32-bit numbers. Every operation keeps it. `MQManager.Fits` says
that each event fits a datagram alone; it is kept as long as only such events are scheduled.

On a well-formed queue `getNextMessage` is understood completely: `serve_eq_ok` says what a served
client gets, `serve_ok_of_pending` that a pending client is found within one round of the schedule.

## Main results

* `WellFormed.exec`, `WellFormed.getNextMessage`
* `serve_eq_ok`, `serve_ok_of_pending`, `serve_mono`
* `mem_queues_execAll` — which clients have a queue after a list of calls
-/

namespace ScreenWorms

/-! ## Logs -/

@[simp] theorem length_appendNumbered (events : List Event) (event : GameEventVariant) :
    (appendNumbered events event).length = events.length + 1 := by
  simp [appendNumbered]

@[simp] theorem map_eventData_appendNumbered (events : List Event) (event : GameEventVariant) :
    (appendNumbered events event).map Event.eventData = events.map Event.eventData ++ [event] := by
  simp [appendNumbered]

theorem numbered_concat (events : List GameEventVariant) (event : GameEventVariant) :
    numbered (events ++ [event]) = appendNumbered (numbered events) event := by
  rw [numbered, List.foldl_append]
  rfl

@[simp] theorem map_eventData_numbered (scheduled : List GameEventVariant) :
    (numbered scheduled).map Event.eventData = scheduled := by
  induction scheduled using List.reverseRecOn with
  | nil => rfl
  | append_singleton events event ih => rw [numbered_concat, map_eventData_appendNumbered, ih]

@[simp] theorem length_numbered (scheduled : List GameEventVariant) :
    (numbered scheduled).length = scheduled.length := by
  rw [← List.length_map Event.eventData, map_eventData_numbered]

/-- Events have the numbers of their places, as far as 32 bits go. -/
theorem getElem?_numbered (events : List GameEventVariant) (no : ℕ) :
    (numbered events)[no]? = events[no]?.map fun event => ⟨toUInt32 no, event⟩ := by
  induction events using List.reverseRecOn with
  | nil => rfl
  | append_singleton events event ih =>
    rw [numbered_concat, appendNumbered, length_numbered]
    rcases Nat.lt_trichotomy no events.length with hlt | heq | hgt
    · rw [List.getElem?_append_left (by rwa [length_numbered]), ih,
        List.getElem?_append_left hlt]
    · subst heq
      rw [List.getElem?_append_right (by rw [length_numbered]), length_numbered,
        List.getElem?_concat_length]
      simp
    · rw [List.getElem?_eq_none (by simp; omega), List.getElem?_eq_none (by simp; omega)]
      rfl

namespace MQManager

/-! ## The schedule -/

/-- **Every call keeps the schedule a list of the clients that have a queue**, each once. -/
theorem schedule_perm_exec {mq mq' : MQManager} {call : MQCall}
    (h : mq.clientsToServeSchedule.Perm mq.queues.keys) (hcall : mq.exec call = .ok mq') :
    mq'.clientsToServeSchedule.Perm mq'.queues.keys := by
  cases call with
  | schedule gameId event =>
    obtain rfl := Except.ok.inj hcall
    rw [schedule]
    split
    · exact h
    · exact h
  | ack fprint n =>
    change mq.ack fprint n = .ok mq' at hcall
    rw [ack] at hcall
    split at hcall
    · split at hcall
      · rename_i hmem
        obtain rfl := Except.ok.inj hcall
        simpa only [SortedMap.keys_set_of_mem hmem] using h
      · exact absurd hcall (by simp)
    · obtain rfl := Except.ok.inj hcall
      exact h
  | dropQueue fprint =>
    obtain rfl := Except.ok.inj hcall
    rw [dropQueue, SortedMap.keys_erase]
    exact h.erase fprint
  | addQueue fprint n =>
    obtain rfl := Except.ok.inj hcall
    rw [addQueue]
    split
    · exact h
    · rename_i hnot
      refine List.Perm.trans ?_ (SortedMap.keys_insert_perm hnot).symm
      exact (List.perm_append_singleton _ _).trans (h.cons _)

/-! ## Well-formed queues -/

/-- The part of the queue's invariant that needs no assumption on the calls. -/
structure WellFormed (mq : MQManager) : Prop where
  /-- The schedule lists the clients that have a queue, each once. -/
  schedule_perm : mq.clientsToServeSchedule.Perm mq.queues.keys
  /-- A waiting game has at least one event. -/
  nextGames_ne_nil : ∀ game ∈ mq.nextGames, game.2 ≠ []
  /-- Positions are 32-bit numbers. -/
  position_lt : ∀ fprint pos, mq.queues.find? fprint = some pos → pos < 2 ^ 32

theorem WellFormed.mem_schedule {mq : MQManager} (h : mq.WellFormed) {fprint : Fingerprint} :
    fprint ∈ mq.clientsToServeSchedule ↔ fprint ∈ mq.queues :=
  h.schedule_perm.mem_iff

theorem wellFormed_new (unsetId : ℕ) : (MQManager.new unsetId).WellFormed where
  schedule_perm := List.Perm.refl _
  nextGames_ne_nil := fun _ h => absurd h List.not_mem_nil
  position_lt := fun _ _ h => by cases h

theorem mem_addToNextGames {gameId : ℕ} {event : GameEventVariant}
    {game : ℕ × List GameEventVariant} : ∀ {games : List (ℕ × List GameEventVariant)},
    game ∈ addToNextGames gameId event games → game ∈ games ∨
      ∃ old, game = (gameId, old ++ [event]) ∧ (old = [] ∨ (gameId, old) ∈ games)
  | [], h => Or.inr ⟨[], List.mem_singleton.mp h, Or.inl rfl⟩
  | upcomingGame :: rest, h => by
    rw [addToNextGames] at h
    split at h
    · rename_i hid
      rcases List.mem_cons.mp h with rfl | h
      · exact Or.inr ⟨upcomingGame.2, by rw [hid], Or.inr (hid ▸ List.mem_cons_self)⟩
      · exact Or.inl (List.mem_cons_of_mem _ h)
    · rcases List.mem_cons.mp h with rfl | h
      · exact Or.inl List.mem_cons_self
      · rcases mem_addToNextGames h with h | ⟨old, rfl, hold⟩
        · exact Or.inl (List.mem_cons_of_mem _ h)
        · exact Or.inr ⟨old, rfl, hold.imp_right (List.mem_cons_of_mem _)⟩

/-- A game that has a log already does not get another one. -/
theorem map_fst_addToNextGames (gameId : ℕ) (event : GameEventVariant) :
    ∀ games : List (ℕ × List GameEventVariant), (addToNextGames gameId event games).map Prod.fst =
      games.map Prod.fst ++ if gameId ∈ games.map Prod.fst then [] else [gameId]
  | [] => rfl
  | game :: rest => by
    rw [addToNextGames]
    split
    · rename_i hid
      simp [hid]
    · rename_i hid
      rw [List.map_cons, map_fst_addToNextGames gameId event rest, List.map_cons, List.cons_append]
      simp only [List.mem_cons, Ne.symm hid, false_or]

theorem WellFormed.schedule {mq : MQManager} (h : mq.WellFormed) (gameId : ℕ)
    (event : GameEventVariant) : (mq.schedule gameId event).WellFormed := by
  rw [MQManager.schedule]
  split
  · exact ⟨h.schedule_perm, h.nextGames_ne_nil, h.position_lt⟩
  · refine ⟨h.schedule_perm, fun game hgame => ?_, h.position_lt⟩
    rcases mem_addToNextGames hgame with hgame | ⟨old, rfl, -⟩
    · exact h.nextGames_ne_nil game hgame
    · simp

theorem WellFormed.ack {mq mq' : MQManager} (h : mq.WellFormed) {fprint : Fingerprint} {n : ℕ}
    (hack : mq.ack fprint n = .ok mq') : mq'.WellFormed := by
  have hcall : mq.exec (.ack fprint n) = .ok mq' := hack
  have hperm := schedule_perm_exec h.schedule_perm hcall
  rw [MQManager.ack] at hack
  split at hack
  · split at hack
    · cases hack
      refine ⟨hperm, h.nextGames_ne_nil, fun f pos hpos => ?_⟩
      rw [SortedMap.find?_set] at hpos
      split at hpos
      · cases hpos
        exact lt_of_le_of_lt (min_le_left _ _) (toUInt32_lt _)
      · exact h.position_lt f pos hpos
    · cases hack
  · cases hack
    exact h

theorem WellFormed.dropQueue {mq : MQManager} (h : mq.WellFormed) (fprint : Fingerprint) :
    (mq.dropQueue fprint).WellFormed := by
  have hcall : mq.exec (.dropQueue fprint) = .ok (mq.dropQueue fprint) := rfl
  refine ⟨schedule_perm_exec h.schedule_perm hcall, h.nextGames_ne_nil, fun f pos hpos => ?_⟩
  rw [MQManager.dropQueue, SortedMap.find?_erase] at hpos
  split at hpos
  · cases hpos
  · exact h.position_lt f pos hpos

theorem WellFormed.addQueue {mq : MQManager} (h : mq.WellFormed) (fprint : Fingerprint) (n : ℕ) :
    (mq.addQueue fprint n).WellFormed := by
  have hcall : mq.exec (.addQueue fprint n) = .ok (mq.addQueue fprint n) := rfl
  have hperm := schedule_perm_exec h.schedule_perm hcall
  by_cases hmem : fprint ∈ mq.queues
  · rw [MQManager.addQueue, if_pos hmem]
    exact h
  · rw [MQManager.addQueue, if_neg hmem] at hperm ⊢
    refine ⟨hperm, h.nextGames_ne_nil, fun f pos hpos => ?_⟩
    rw [SortedMap.find?_insert hmem] at hpos
    split at hpos
    · cases hpos
      exact lt_of_le_of_lt (min_le_left _ _) (toUInt32_lt _)
    · exact h.position_lt f pos hpos

/-- **Every call keeps a queue well formed.** -/
theorem WellFormed.exec {mq mq' : MQManager} (h : mq.WellFormed) {call : MQCall}
    (hcall : mq.exec call = .ok mq') : mq'.WellFormed := by
  cases call with
  | schedule gameId event => cases hcall; exact h.schedule gameId event
  | ack fprint n => exact h.ack hcall
  | dropQueue fprint => cases hcall; exact h.dropQueue fprint
  | addQueue fprint n => cases hcall; exact h.addQueue fprint n

/-- Executing calls in two parts. -/
theorem execAll_append_eq_ok {calls calls' : List MQCall} {mq mq'' : MQManager} :
    mq.execAll (calls ++ calls') = .ok mq'' ↔
      ∃ mq', mq.execAll calls = .ok mq' ∧ mq'.execAll calls' = .ok mq'' := by
  induction calls generalizing mq with
  | nil => simp [execAll]
  | cons call calls ih =>
    rw [List.cons_append, execAll, execAll]
    rcases mq.exec call with e | mq₁
    · simp
    · exact ih

theorem execAll_singleton {mq mq' : MQManager} {call : MQCall} :
    mq.execAll [call] = .ok mq' ↔ mq.exec call = .ok mq' := by
  rw [MQManager.execAll]
  rcases mq.exec call with e | mq₁
  · simp
  · simp [MQManager.execAll]

/-- Calls that schedule nothing touch no log. -/
theorem logs_exec {mq mq' : MQManager} {call : MQCall} (h : mq.exec call = .ok mq')
    (hcall : ∀ id e, call ≠ .schedule id e) :
    mq'.currentGameEvents = mq.currentGameEvents ∧ mq'.nextGames = mq.nextGames ∧
      mq'.currentlyBroadcastedGameId = mq.currentlyBroadcastedGameId := by
  rcases call with ⟨id, e⟩ | ⟨f, n⟩ | f | ⟨f, n⟩
  · exact absurd rfl (hcall id e)
  · change mq.ack f n = .ok mq' at h
    rw [MQManager.ack] at h
    split at h
    · split at h
      · obtain rfl := Except.ok.inj h
        exact ⟨rfl, rfl, rfl⟩
      · exact absurd h (by simp)
    · obtain rfl := Except.ok.inj h
      exact ⟨rfl, rfl, rfl⟩
  · obtain rfl : mq.dropQueue f = mq' := Except.ok.inj h
    exact ⟨rfl, rfl, rfl⟩
  · obtain rfl : mq.addQueue f n = mq' := Except.ok.inj h
    rw [MQManager.addQueue]
    split <;> exact ⟨rfl, rfl, rfl⟩

/-- A property of the queue that each of some calls keeps is kept by all of them. -/
theorem execAll_induction {P : MQManager → Prop} {C : MQCall → Prop}
    (hstep : ∀ mq call mq', P mq → C call → mq.exec call = .ok mq' → P mq') :
    ∀ {calls : List MQCall} {mq mq' : MQManager}, P mq → (∀ call ∈ calls, C call) →
      mq.execAll calls = .ok mq' → P mq' := by
  intro calls
  induction calls with
  | nil =>
    intro mq mq' hP _ h
    cases h
    exact hP
  | cons call calls ih =>
    intro mq mq' hP hC h
    rw [execAll] at h
    cases hcall : mq.exec call with
    | error e =>
      rw [hcall] at h
      cases h
    | ok mq₁ =>
      rw [hcall] at h
      exact ih (hstep mq call mq₁ hP (hC call List.mem_cons_self) hcall)
        (fun c hc => hC c (List.mem_cons_of_mem _ hc)) h

theorem WellFormed.execAll {mq mq' : MQManager} (h : mq.WellFormed) {calls : List MQCall}
    (hcalls : mq.execAll calls = .ok mq') : mq'.WellFormed :=
  execAll_induction (C := fun _ => True) (fun _ _ _ h _ hcall => h.exec hcall) h
    (fun _ _ => trivial) hcalls

/-! ## Serving the next client -/

theorem hasPending_iff {mq : MQManager} : mq.hasPendingMessagesForCurrentGame = true ↔
    ∃ fprint pos, mq.queues.find? fprint = some pos ∧ pos < mq.currentGameEvents.length := by
  rw [hasPendingMessagesForCurrentGame, List.any_eq_true]
  constructor
  · rintro ⟨⟨fprint, pos⟩, hmem, hlt⟩
    exact ⟨fprint, pos, SortedMap.find?_eq_some.mpr hmem, by simpa using hlt⟩
  · rintro ⟨fprint, pos, hfind, hlt⟩
    exact ⟨(fprint, pos), SortedMap.find?_eq_some.mp hfind, by simpa using hlt⟩

/-- A served client is the first of the schedule that has something to get; those before it go to
the end of the schedule, and so does it. -/
theorem serve_eq_ok {mq mq' : MQManager} {n : ℕ} {m : MessageAndRecipient}
    (h : mq.serve n = .ok (m, mq')) : ∃ skipped rest pos,
      mq.clientsToServeSchedule = skipped ++ m.fingerprint :: rest ∧
      mq.queues.find? m.fingerprint = some pos ∧ pos < mq.currentGameEvents.length ∧
      m.msg = ⟨mq.currentlyBroadcastedGameId, pickEvents 4 (mq.currentGameEvents.drop pos)⟩ ∧
      m.ackNumber = toUInt32 (pos + m.msg.events.length) ∧
      mq' = { mq with clientsToServeSchedule := rest ++ skipped ++ [m.fingerprint] } := by
  induction n generalizing mq with
  | zero => cases h
  | succ n ih =>
    rw [serve] at h
    cases hs : mq.clientsToServeSchedule with
    | nil =>
      rw [hs] at h
      cases h
    | cons fprint rest =>
      rw [hs] at h
      simp only at h
      cases hq : mq.queues.find? fprint with
      | none =>
        rw [hq] at h
        cases h
      | some pos =>
        rw [hq] at h
        simp only at h
        split at h
        · rename_i hlt
          cases h
          exact ⟨[], rest, pos, rfl, hq, hlt, rfl, rfl, by simp⟩
        · obtain ⟨skipped, rest', pos', hsched, hfind, hlt, hmsg, hack, rfl⟩ := ih h
          cases skipped with
          | nil =>
            -- the client just skipped cannot be the one served next
            rename_i hge
            cases rest with
            | nil =>
              simp only [List.nil_append, List.cons.injEq] at hsched
              rw [hsched.1] at hq
              rw [hq] at hfind
              cases hfind
              exact absurd hlt hge
            | cons f rest =>
              simp only [List.nil_append, List.cons_append, List.cons.injEq] at hsched
              obtain ⟨rfl, rfl⟩ := hsched
              exact ⟨[fprint], rest, pos', rfl, hfind, hlt, hmsg, hack, by simp⟩
          | cons f skipped =>
            rename_i hge
            rcases List.eq_nil_or_concat rest' with rfl | ⟨tail, last, rfl⟩
            · -- the served client is the last of the rotated schedule: the one just skipped
              have hlast : [fprint] = [m.fingerprint] := (List.append_inj' hsched rfl).2
              simp only [List.cons.injEq, and_true] at hlast
              rw [hlast, hfind] at hq
              cases hq
              exact absurd hlt hge
            · have happ : rest ++ [fprint] = (f :: skipped ++ m.fingerprint :: tail) ++ [last] := by
                simpa using hsched
              obtain ⟨hrest, hlast⟩ := List.append_inj' happ rfl
              simp only [List.cons.injEq, and_true] at hlast
              subst hlast
              refine ⟨fprint :: f :: skipped, tail, pos', by rw [hrest]; simp, hfind, hlt, hmsg,
                hack, by simp⟩

/-- More rotations than were needed change nothing. -/
theorem serve_mono {n k : ℕ} (hnk : n ≤ k) : ∀ {mq : MQManager}
    {r : MessageAndRecipient × MQManager}, mq.serve n = .ok r → mq.serve k = .ok r := by
  induction n generalizing k with
  | zero => intro mq r h; cases h
  | succ n ih =>
    intro mq r h
    obtain ⟨k, rfl⟩ := Nat.exists_eq_add_of_le' (Nat.lt_of_lt_of_le (Nat.succ_pos n) hnk)
    rw [serve] at h ⊢
    cases hs : mq.clientsToServeSchedule with
    | nil =>
      rw [hs] at h
      cases h
    | cons fprint rest =>
      rw [hs] at h
      simp only at h ⊢
      cases hq : mq.queues.find? fprint with
      | none =>
        rw [hq] at h
        cases h
      | some pos =>
        rw [hq] at h
        simp only at h ⊢
        split at h
        · rename_i hlt
          rw [if_pos hlt]
          exact h
        · rename_i hge
          rw [if_neg hge]
          exact ih (by omega) h

/-- **A pending client is found within one round.** The number of rotations is the client's place
in the schedule, at the latest. -/
theorem serve_ok_of_pending : ∀ {skipped : List Fingerprint} {mq : MQManager}
    {fprint : Fingerprint} {rest : List Fingerprint} {pos : ℕ},
    mq.clientsToServeSchedule = skipped ++ fprint :: rest →
    (∀ f ∈ mq.clientsToServeSchedule, f ∈ mq.queues) →
    mq.queues.find? fprint = some pos → pos < mq.currentGameEvents.length →
    ∃ r, mq.serve (skipped.length + 1) = .ok r := by
  intro skipped
  induction skipped with
  | nil =>
    intro mq fprint rest pos hs _ hfind hlt
    rw [List.nil_append] at hs
    rw [serve, hs]
    simp only [hfind, if_pos hlt]
    exact ⟨_, rfl⟩
  | cons f skipped ih =>
    intro mq fprint rest pos hs hsub hfind hlt
    obtain ⟨p, hp⟩ := SortedMap.mem_iff_find?.mp (hsub f (by rw [hs]; exact List.mem_cons_self))
    rw [List.length_cons, serve, hs]
    simp only [List.cons_append, hp]
    split
    · exact ⟨_, rfl⟩
    · have hs' : skipped ++ fprint :: rest ++ [f] = skipped ++ fprint :: (rest ++ [f]) := by simp
      refine ih hs' (fun g hg => ?_) hfind hlt
      refine hsub g ?_
      rw [hs]
      simp only [List.append_assoc, List.cons_append, List.mem_append, List.mem_cons,
        List.not_mem_nil, or_false] at hg ⊢
      tauto

/-- Serving a client rotates the schedule. -/
theorem schedule_perm_serve {mq mq' : MQManager} {n : ℕ} {m : MessageAndRecipient}
    (hserve : mq.serve n = .ok (m, mq')) :
    mq'.clientsToServeSchedule.Perm mq.clientsToServeSchedule := by
  obtain ⟨skipped, rest, pos, hs, -, -, -, -, rfl⟩ := serve_eq_ok hserve
  rw [hs]
  refine (List.perm_append_comm.append_right _).trans ?_
  simp only [List.append_assoc]
  exact List.Perm.append_left _ (List.perm_append_singleton _ _)

theorem WellFormed.serve {mq mq' : MQManager} (h : mq.WellFormed) {n : ℕ} {m : MessageAndRecipient}
    (hserve : mq.serve n = .ok (m, mq')) : mq'.WellFormed := by
  have hperm := schedule_perm_serve hserve
  obtain ⟨skipped, rest, pos, -, -, -, -, -, rfl⟩ := serve_eq_ok hserve
  exact ⟨hperm.trans h.schedule_perm, h.nextGames_ne_nil, h.position_lt⟩

/-! ## Going on to the next game -/

theorem switchGame_of_switches {mq : MQManager} (h : mq.switches = true) :
    ∃ game rest, mq.nextGames = game :: rest ∧ mq.switchGame = { mq with
      nextGames := rest
      queues := mq.queues.mapValues fun _ _ => 0
      currentGameEvents := numbered game.2
      currentlyBroadcastedGameId := game.1 } := by
  simp only [switches, Bool.and_eq_true, Bool.not_eq_true'] at h
  cases hn : mq.nextGames with
  | nil => simp [hn] at h
  | cons game rest => exact ⟨game, rest, rfl, by simp [switchGame, h.1, hn]⟩

theorem switchGame_of_not_switches {mq : MQManager} (h : mq.switches = false) :
    mq.switchGame = mq := by
  rw [switchGame]
  split
  · rfl
  · rename_i hp
    cases hn : mq.nextGames with
    | nil => rfl
    | cons game rest => simp [switches, hp, hn] at h

@[simp] theorem clientsToServeSchedule_switchGame (mq : MQManager) :
    mq.switchGame.clientsToServeSchedule = mq.clientsToServeSchedule := by
  rw [switchGame]
  split
  · rfl
  · split <;> rfl

@[simp] theorem keys_queues_switchGame (mq : MQManager) :
    mq.switchGame.queues.keys = mq.queues.keys := by
  rw [switchGame]
  split
  · rfl
  · split
    · rfl
    · exact SortedMap.keys_mapValues _ _

@[simp] theorem mem_queues_switchGame {mq : MQManager} {fprint : Fingerprint} :
    fprint ∈ mq.switchGame.queues ↔ fprint ∈ mq.queues := by
  rw [← SortedMap.mem_keys, keys_queues_switchGame, SortedMap.mem_keys]

theorem WellFormed.switchGame {mq : MQManager} (h : mq.WellFormed) : mq.switchGame.WellFormed := by
  cases hsw : mq.switches with
  | false =>
    rw [switchGame_of_not_switches hsw]
    exact h
  | true =>
    obtain ⟨game, rest, hn, heq⟩ := switchGame_of_switches hsw
    rw [heq]
    refine ⟨by simpa using h.schedule_perm, fun g hg => ?_, fun f pos hpos => ?_⟩
    · exact h.nextGames_ne_nil g (hn ▸ List.mem_cons_of_mem _ hg)
    · simp only [SortedMap.find?_mapValues, Option.map_eq_some_iff] at hpos
      obtain ⟨_, _, rfl⟩ := hpos
      exact Nat.two_pow_pos 32

theorem WellFormed.getNextMessage {mq mq' : MQManager} (h : mq.WellFormed)
    {m : MessageAndRecipient} (hnext : mq.getNextMessage = .ok (m, mq')) : mq'.WellFormed :=
  h.switchGame.serve hnext

/-- Making the next game the current one leaves something to send to every client. -/
theorem WellFormed.hasPending_switchGame {mq : MQManager} (h : mq.WellFormed)
    (hne : mq.isEmpty = false) {fprint : Fingerprint} (hq : fprint ∈ mq.queues) :
    mq.switchGame.hasPendingMessagesForCurrentGame = true := by
  cases hsw : mq.switches with
  | false =>
    rw [switchGame_of_not_switches hsw]
    cases hp : mq.hasPendingMessagesForCurrentGame with
    | true => rfl
    | false => simp_all [switches, isEmpty]
  | true =>
    obtain ⟨game, rest, hn, heq⟩ := switchGame_of_switches hsw
    obtain ⟨pos, hpos⟩ := SortedMap.mem_iff_find?.mp hq
    have hgame : game.2 ≠ [] := h.nextGames_ne_nil game (hn ▸ List.mem_cons_self)
    rw [heq, hasPending_iff]
    exact ⟨fprint, 0, by simp [hpos], by simpa using List.length_pos_iff.mpr hgame⟩

/-- **Somebody is served within one round**, as soon as somebody has a queue. -/
theorem WellFormed.serve_switchGame {mq : MQManager} (h : mq.WellFormed) (hne : mq.isEmpty = false)
    {fprint : Fingerprint} (hq : fprint ∈ mq.queues) :
    ∃ rotations ≤ mq.clientsToServeSchedule.length, ∃ r,
      mq.switchGame.serve rotations = .ok r := by
  obtain ⟨f, pos, hfind, hlt⟩ := hasPending_iff.mp (h.hasPending_switchGame hne hq)
  have hmem := h.switchGame.mem_schedule.mpr (SortedMap.mem_of_find? hfind)
  obtain ⟨skipped, rest, hs⟩ := List.append_of_mem hmem
  refine ⟨skipped.length + 1, ?_, serve_ok_of_pending hs (fun g hg => ?_) hfind hlt⟩
  · rw [← clientsToServeSchedule_switchGame, hs]
    simp
  · exact h.switchGame.mem_schedule.mp hg

theorem WellFormed.getNextMessage_ok {mq : MQManager} (h : mq.WellFormed)
    (hne : mq.isEmpty = false) {fprint : Fingerprint} (hq : fprint ∈ mq.queues) :
    ∃ m mq', mq.getNextMessage = .ok (m, mq') := by
  obtain ⟨n, hn, ⟨m, mq'⟩, hr⟩ := h.serve_switchGame hne hq
  exact ⟨m, mq', serve_mono (by omega) hr⟩

end MQManager

end ScreenWorms
