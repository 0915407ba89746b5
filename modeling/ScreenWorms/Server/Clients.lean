import ScreenWorms.Server.ServerInvariant

/-!
# What the operations do to clients

Starting a game changes no client (`startGameIfReady_clients`): it places the worms of players whose
socket, session and connection stay what they were.

## Main definitions

* `GameState.SameClients` — the same sockets hold the same clients

## Main results

* `GameState.Orderly.startGameIfReady_clients` — starting a game changes no client
-/

namespace ScreenWorms

variable {D : Type}

open GameTask MQManager

namespace GameState

/-! ## Starting a game -/

/-- The same sockets hold the same clients. -/
structure SameClients (g g' : GameState D) : Prop where
  watchers : g'.watchers = g.watchers
  mem : ∀ name, name ∈ g'.players ↔ name ∈ g.players
  client : ∀ name p', g'.players.find? name = some p' →
    ∃ p, g.players.find? name = some p ∧ p.SameClient p'

theorem SameClients.refl (g : GameState D) : g.SameClients g :=
  ⟨rfl, fun _ => Iff.rfl, fun _ p hp => ⟨p, hp, rfl, rfl, rfl, rfl⟩⟩

theorem SameClients.trans {g₁ g₂ g₃ : GameState D} (h₁₂ : g₁.SameClients g₂)
    (h₂₃ : g₂.SameClients g₃) : g₁.SameClients g₃ where
  watchers := h₂₃.watchers.trans h₁₂.watchers
  mem name := (h₂₃.mem name).trans (h₁₂.mem name)
  client name p₃ hp₃ := by
    obtain ⟨p₂, hp₂, h₂₃⟩ := h₂₃.client name p₃ hp₃
    obtain ⟨p₁, hp₁, h₁₂⟩ := h₁₂.client name p₂ hp₂
    exact ⟨p₁, hp₁, h₂₃.playerName.trans h₁₂.playerName, h₂₃.fingerprint.trans h₁₂.fingerprint,
      h₂₃.sessionId.trans h₁₂.sessionId, h₂₃.isDisconnected.trans h₁₂.isDisconnected⟩

theorem SameClients.find? {g g' : GameState D} (h : g.SameClients g') {name : PlayerName}
    {p : Player D} (hp : g.players.find? name = some p) :
    ∃ p', g'.players.find? name = some p' ∧ p.SameClient p' := by
  obtain ⟨p', hp'⟩ := SortedMap.mem_iff_find?.mp ((h.mem name).mpr (SortedMap.mem_of_find? hp))
  obtain ⟨q, hq, hsame⟩ := h.client name p' hp'
  rw [hp] at hq
  cases hq
  exact ⟨p', hp', hsame⟩

theorem SameClients.adjust {g g' : GameState D} {name : PlayerName} {p q : Player D}
    (hp : g.players.find? name = some p) (hpq : p.SameClient q)
    (hplayers : g'.players = g.players.adjust name fun _ => q) (hw : g'.watchers = g.watchers) :
    g.SameClients g' where
  watchers := hw
  mem n := by rw [hplayers, SortedMap.mem_adjust]
  client n r hr := find?_adjust_sameClient hp hpq (hplayers ▸ hr)

/-- With everybody connected, the end of a game erases nobody. -/
theorem SameClients.endGame {g : GameTask D}
    (hall : ∀ name p, g.players.find? name = some p → p.isDisconnected = false) :
    g.toGameState.SameClients g.endGame.toGameState := by
  rw [endGame_eq]
  refine ⟨rfl, fun name => ?_, fun name p' hp' => ?_⟩
  · rw [mem_staying, SortedMap.mem_iff_find?]
    exact ⟨fun ⟨q, hq, _⟩ => ⟨q, hq⟩, fun ⟨q, hq⟩ => ⟨q, hq, hall name q hq⟩⟩
  · obtain ⟨q, hq, -, rfl⟩ := find?_staying.mp hp'
    exact ⟨q, hq, rfl, rfl, rfl, rfl⟩

theorem droppedQueues_of_connected {players : SortedMap PlayerName (Player D)}
    (hall : ∀ name p, players.find? name = some p → p.isDisconnected = false) :
    droppedQueues players = [] := by
  rw [List.eq_nil_iff_forall_not_mem]
  intro c hc
  obtain ⟨name, p, hp, hd, -⟩ := mem_droppedQueues.mp hc
  rw [hall name p hp] at hd
  cases hd

/-- A call that schedules an event. -/
def IsSchedule (c : MQCall) : Prop := ∃ gameId event, c = .schedule gameId event

/-- With everybody connected, a change that needs no message or timeout changes no client and only
schedules events. -/
theorem change_of_connected {g g' : GameTask D} (h : Change .turn g g')
    (hall : ∀ name p, g.players.find? name = some p → p.isDisconnected = false) :
    g.toGameState.SameClients g'.toGameState ∧
      ∃ cs, g'.calls = g.calls ++ cs ∧ ∀ c ∈ cs, IsSchedule c := by
  have one : ∀ gameId event, ∀ c ∈ [MQCall.schedule gameId event], IsSchedule c :=
    fun gameId event c hc => ⟨gameId, event, List.mem_singleton.mp hc⟩
  cases h with
  | drop hsender => cases hsender
  | watcher hop => cases hop
  | answered hop _ _ => cases hop
  | joined pf hop _ => cases hop
  | prepared hs hcan =>
    obtain ⟨gameId, hcalls⟩ := prepareGame_calls g
    exact ⟨⟨rfl, fun _ => Iff.rfl, fun _ p hp => ⟨p, hp, rfl, rfl, rfl, rfl⟩⟩, _, hcalls, one _ _⟩
  | moved hp hsame => exact ⟨.adjust hp hsame rfl rfl, [], by simp [setPlayer], by simp⟩
  | ate rng _ hp hsame => exact ⟨.adjust hp hsame rfl rfl, _, rfl, one _ _⟩
  | @eliminated name p q no rng _ hp hsame =>
    have hsame' : p.SameClient { q with isEliminated := true } := hsame.eliminated
    exact ⟨.adjust hp hsame' rfl rfl, _, rfl, one _ _⟩
  | @ended name p q no rng _ hp hsame =>
    have hsame' : p.SameClient { q with isEliminated := true } := hsame.eliminated
    have hadjust : g.toGameState.SameClients
        (GameTask.eliminated name q no { g with rng := rng }).toGameState :=
      .adjust hp hsame' rfl rfl
    have hall' : ∀ n r, (GameTask.eliminated name q no { g with rng := rng }).players.find? n =
        some r → r.isDisconnected = false := by
      intro n r hr
      obtain ⟨r', hr', hsame''⟩ := hadjust.client n r hr
      rw [hsame''.isDisconnected]
      exact hall n r' hr'
    refine ⟨hadjust.trans (.endGame hall'), ?_⟩
    rw [endGame_eq, droppedQueues_of_connected hall']
    refine ⟨_, List.append_assoc _ _ _, fun c hc => ?_⟩
    simp only [List.cons_append, List.nil_append, List.mem_cons, List.not_mem_nil, or_false] at hc
    rcases hc with rfl | rfl
    · exact ⟨_, _, rfl⟩
    · exact ⟨_, _, rfl⟩

/-- **Starting a game changes no client** and only schedules events. -/
theorem Orderly.startGameIfReady_clients {pf : Platform D} {g g' : GameTask D}
    (h : g.toGameState.Orderly []) (hready : GameTask.startGameIfReady pf g = .ok g') :
    g.toGameState.SameClients g'.toGameState ∧
      ∃ cs, g'.calls = g.calls ++ cs ∧ ∀ c ∈ cs, IsSchedule c := by
  have same : g.toGameState.SameClients g.toGameState ∧
      ∃ cs, g.calls = g.calls ++ cs ∧ ∀ c ∈ cs, IsSchedule c :=
    ⟨.refl _, [], by simp, by simp⟩
  rcases startGameIfReady_cases hready with rfl | ⟨hs, -, -⟩
  · exact same
  · have hchanges : Changes .turn g g' := h.startGameIfReady_changes hready
    refine hchanges.induction (I := fun g' => g.toGameState.SameClients g'.toGameState ∧
      ∃ cs, g'.calls = g.calls ++ cs ∧ ∀ c ∈ cs, IsSchedule c) (fun g₁ g₂ _ hchange hI => ?_) same
    obtain ⟨hsame, cs, hcs, hall⟩ := hI
    have hconnected : ∀ name p, g₁.players.find? name = some p → p.isDisconnected = false := by
      intro name p hp
      obtain ⟨p₀, hp₀, hclient⟩ := hsame.client name p hp
      rw [hclient.isDisconnected]
      exact h.lobby_connected hs name p₀ hp₀
    obtain ⟨hsame', cs', hcs', hall'⟩ := change_of_connected hchange hconnected
    exact ⟨hsame.trans hsame', cs ++ cs', by rw [hcs', hcs, List.append_assoc], fun c hc =>
      (List.mem_append.mp hc).elim (hall c) (hall' c)⟩

end GameState

end ScreenWorms
