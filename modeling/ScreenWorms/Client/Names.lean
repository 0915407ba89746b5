import ScreenWorms.Client.Games

/-!
# The players that lines are about

An event is checked when it is stored, and its players are looked up when its line is written, maybe
many messages later. Between the two the names stay as they are, and entering another game forgets
the stored events before it learns other names. The constructor leaves `playersInGame` unset, which
nothing reads before the first message sets it to 0.

## Main definitions

* `ReceivedEvent.player?`
* `Client.Named`

## Main results

* `clientMachine_named` — every player that is looked up is found
-/

namespace ScreenWorms

/-- The player that an event is about. -/
def ReceivedEvent.player? (e : ReceivedEvent) : Option ℕ :=
  match e.eventData with
  | some (.pixel event) => some event.playerNumber
  | some (.playerEliminated event) => some event.playerNumber
  | _ => none

namespace Client

/-- `playersInGame` is the number of names, or 0. -/
def PlayersCounted (c : Client) : Prop :=
  c.playersInGame = 0 ∨ c.playersInGame = c.playerNames.size

/-- The players of the stored events have names. Only a client that has not got any message has no
game. -/
structure Named (c : Client) : Prop where
  unseen : c.gameId = -1 → c.seenGameIds = ∅
  counted : c.gameId ≠ -1 → c.PlayersCounted
  numbered : NamesNumbered c
  stored : ∀ no e, c.events.find? no = some e → ∀ i, e.player? = some i → i ∈ c.playerNames

variable {c c₁ : Client} {msg : ReceivedMessage}

/-! ## Storing -/

/-- A valid event is about one of the players of the game. -/
theorem player?_lt {e : ReceivedEvent} {i : ℕ} (h : c.validateEvent e = true)
    (hi : e.player? = some i) : i < c.playersInGame := by
  rw [validateEvent, validEvent] at h
  rw [ReceivedEvent.player?] at hi
  split at hi
  · rename_i event heq
    rw [heq] at h
    simp only [Bool.not_eq_true', Bool.or_eq_false_iff, decide_eq_false_iff_not, not_le] at h
    obtain rfl : event.playerNumber = i := Option.some.inj hi
    exact h.1.1
  · rename_i event heq
    rw [heq] at h
    simp only [Bool.not_eq_true', decide_eq_false_iff_not, not_le] at h
    obtain rfl : event.playerNumber = i := Option.some.inj hi
    exact h
  · exact absurd hi (by simp)

/-- So it is about one of the names. -/
theorem PlayersCounted.mem_playerNames (h : c.PlayersCounted) (hnumbered : NamesNumbered c)
    {e : ReceivedEvent} {i : ℕ} (hvalid : c.validateEvent e = true) (hi : e.player? = some i) :
    i ∈ c.playerNames := by
  have hlt := player?_lt hvalid hi
  rw [hnumbered]
  rcases h with hzero | hsize
  · omega
  · omega

/-- A number of players that does not fit into 8 bits is taken for 0. -/
theorem playersCounted_install {newGame : EventNewGame} {playerNames : SortedMap ℕ PlayerName}
    (hparsed : newGame.parsedPlayers = .ok playerNames) (c : Client) :
    (c.install newGame playerNames).PlayersCounted := by
  rcases Nat.lt_or_eq_of_le (size_parsedPlayers_le hparsed) with hlt | heq
  · exact Or.inr (toUInt8_of_lt hlt)
  · left
    show toUInt8 playerNames.size = 0
    rw [heq]
    rfl

/-- A client that has got a message is in a game. -/
theorem Took.gameId_ne (h : c.Took msg c₁) (hunseen : c.gameId = -1 → c.seenGameIds = ∅) :
    c₁.gameId ≠ -1 := by
  intro hnone
  rcases h with ⟨-, hseen⟩ | ⟨hid, -⟩ | - | -
  · rw [hunseen hnone] at hseen
    exact absurd hseen (Finset.notMem_empty _)
  · exact absurd (hid.trans hnone) (by omega)
  · exact absurd (show (msg.gameId : ℤ) = -1 from hnone) (by omega)
  · exact absurd (show (msg.gameId : ℤ) = -1 from hnone) (by omega)

/-- **Taking a message** keeps the stored events and the names together. -/
theorem Took.named (h : c.Took msg c₁) (hc : c.Named) : c₁.Named := by
  have hnumbered := h.numbered hc.numbered
  have hgame : c₁.gameId = -1 → c₁.seenGameIds = ∅ := fun hnone =>
    absurd hnone (h.gameId_ne hc.unseen)
  rcases h with - | ⟨hid, hvalid⟩ | - | ⟨-, -, -, hparsed, hvalid⟩
  · exact hc
  · have hcounted := hc.counted (by omega)
    refine ⟨hgame, fun _ => hcounted, hnumbered, fun no e hfind i hi => ?_⟩
    rcases find?_store hfind with hfind | ⟨he, -⟩
    · exact hc.stored no e hfind i hi
    · exact hcounted.mem_playerNames hc.numbered (hvalid e he) hi
  · exact ⟨hgame, fun _ => Or.inl rfl, hnumbered, fun no e hfind => (by cases hfind)⟩
  · have hcounted := playersCounted_install hparsed (c.enter msg.gameId)
    refine ⟨hgame, fun _ => hcounted, hnumbered, fun no e hfind i hi => ?_⟩
    rcases find?_store hfind with hfind | ⟨he, -⟩
    · cases hfind
    · exact hcounted.mem_playerNames hnumbered (hvalid e he) hi

/-! ## Writing -/

/-- The line of an event needs its player, and all names in the case of `NEW_GAME`. -/
theorem Named.isSome_eventToMessageForGui (h : c.Named) {no : ℕ} {e : ReceivedEvent}
    (he : c.events.find? no = some e) : (eventToMessageForGui e c.playerNames).isSome = true := by
  have hplayer := h.stored no e he
  rw [ReceivedEvent.player?] at hplayer
  rw [eventToMessageForGui]
  split
  · rw [Option.isSome_map]
    exact isSome_listedNames h.numbered
  · rename_i event heq
    rw [heq] at hplayer
    obtain ⟨name, hname⟩ := SortedMap.mem_iff_find?.mp (hplayer _ rfl)
    rw [hname]
    rfl
  · rename_i event heq
    rw [heq] at hplayer
    obtain ⟨name, hname⟩ := SortedMap.mem_iff_find?.mp (hplayer _ rfl)
    rw [hname]
    rfl
  · rfl

theorem writeLines_ne_missingName
    (h : ∀ no e, c.events.find? no = some e → (eventToMessageForGui e c.playerNames).isSome = true)
    (nos : List ℕ) : c.writeLines nos ≠ .error .missingName := by
  induction nos with
  | nil =>
    intro hnil
    cases hnil
  | cons no nos ih =>
    rw [writeLines]
    rcases hfind : c.events.find? no with _ | e
    · intro hmissing
      cases hmissing
    · obtain ⟨line, hline⟩ := Option.isSome_iff_exists.mp (h no e hfind)
      simp only [hline]
      intro hrest
      split at hrest
      · cases hrest
      · rename_i err herr
        cases hrest
        exact ih herr

/-- **Writing** finds every name. -/
theorem Named.writePending_ne (h : c.Named) : c.writePending ≠ .error .missingName := by
  intro hwrite
  rw [writePending] at hwrite
  simp only at hwrite
  split at hwrite
  · rename_i err herr
    cases hwrite
    refine writeLines_ne_missingName (fun no e he => ?_) _ herr
    exact h.isSome_eventToMessageForGui he
  · cases hwrite

/-- **A message** never makes the client look up a player that it does not know. -/
theorem Named.processMessageFromServer_ne (h : c.Named) (msg : ReceivedMessage) :
    c.processMessageFromServer msg ≠ .error .missingName := by
  intro hmsg
  rcases processMessageFromServer_cases msg c with ⟨c₁, htook, heq⟩ | heq | heq
  · exact (htook.named h).writePending_ne (heq ▸ hmsg)
  · rw [heq] at hmsg
    cases hmsg
  · rw [heq] at hmsg
    cases hmsg

end Client

open Client

/-! ## Runs -/

variable {r : ClientRun}

/-- The players of the stored events have names in every run. -/
theorem invariant_named : clientMachine.Invariant fun r => r.client.Named where
  init := by
    rintro r ⟨-, unsetWanted, unsetToSend, unsetPlayers, unsetMaxx, unsetMaxy, hclient⟩
    rw [hclient]
    refine ⟨fun _ => rfl, fun hid => absurd rfl hid, fun i => ?_, fun no e hfind => (by cases hfind)⟩
    simp [Client.new, SortedMap.size]
  step := by
    intro u msg t _ hu hstep
    obtain ⟨c₁, out, n, m, htook, -, rfl⟩ := clientMachine_step_cases hstep
    have hc₁ := htook.named hu
    exact ⟨hc₁.unseen, hc₁.counted, hc₁.numbered, hc₁.stored⟩

/-- **Every player that is looked up is found**, whatever messages the client gets: those of the
stored events have names, the names are numbered from 0, and once the client has entered a game
`playersInGame` is their number or 0. It enters one with the first message. -/
theorem clientMachine_named (h : clientMachine.Reachable r) : r.client.Named ∧
    (∀ msg, clientMachine.step msg r ≠ .error .missingName) ∧
    ∀ msg t, clientMachine.step msg r = .ok t → t.client.gameId ≠ -1 := by
  have hnamed := invariant_named.reachable h
  refine ⟨hnamed, fun msg hstep => ?_, fun msg t hstep => ?_⟩
  · simp only [clientMachine] at hstep
    split at hstep
    · rename_i err herr
      cases hstep
      exact hnamed.processMessageFromServer_ne msg herr
    · cases hstep
  · obtain ⟨c₁, out, n, m, htook, -, rfl⟩ := clientMachine_step_cases hstep
    exact htook.gameId_ne hnamed.unseen

/-- The client in a game with pixels of two players. -/
theorem clientMachine_named_two : ∃ r, clientMachine.Reachable r ∧ r.client.events.size = 3 ∧
    r.client.playersInGame = 2 ∧ r.client.Named ∧
    (∀ msg, clientMachine.step msg r ≠ .error .missingName) ∧
    ∀ msg t, clientMachine.step msg r = .ok t → t.client.gameId ≠ -1 := by
  obtain ⟨r, hr, hsize, hplayers⟩ := (Machine.Reachable.init init_freshClient).exists_of_exec
    (P := fun r => r.client.events.size = 3 ∧ r.client.playersInGame = 2)
    [⟨7, (twoPlayersLog 7).events⟩] (by decide +kernel)
  exact ⟨r, hr, hsize, hplayers, clientMachine_named hr⟩

/-- Before the first message the number of players is what the memory held before. -/
theorem not_playersCounted : clientMachine.Reachable ⟨.new 0 0 7 0 0, []⟩ ∧
    ¬(Client.new 0 0 7 0 0).PlayersCounted := by
  refine ⟨.init ⟨rfl, 0, 0, 7, 0, 0, rfl⟩, ?_⟩
  rintro (hzero | hsize)
  · exact absurd hzero (by decide)
  · exact absurd hsize (by decide)

end ScreenWorms
