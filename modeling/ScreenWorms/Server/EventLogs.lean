import Mathlib.Data.Finset.Prod
import ScreenWorms.Common.Encoder
import ScreenWorms.Server.Pixels

/-!
# Games as logs that clients can take

The events of a game, as the server saves them, make a log in the form in which clients take it
(`EventLog`). They are valid for the settings of the game, and few enough to be numbered, since no
pixel is eaten twice. They can be encoded, since ids and coordinates fit their fields and a
`NEW_GAME` has names for at most 25 players.

## Main definitions

* `GameEventVariant.Named`, `Issued` — what can be encoded of a game manager's calls

## Main results

* `Issued.run` — every operation issues what can be encoded
* `Game.OnBoard.built` — every event of a game can be encoded
* `Game.OnBoard.exists_eventLog` — a game is a log
-/

namespace ScreenWorms

open Machine Client GameTask

variable {D : Type}

/-! ## Events that can be encoded -/

/-- A `NEW_GAME` event has names for 1 to 25 players. -/
def GameEventVariant.Named : GameEventVariant → Prop
  | .newGame e => ∃ maxx maxy, ∃ names : List PlayerName, e = .ofNames maxx maxy
    (names.map Subtype.val) ∧ names ≠ [] ∧ names.length ≤ maxPlayers ∧ ∀ n ∈ names, n.val ≠ []
  | .pixel _ => True
  | .playerEliminated _ => True
  | .gameOver => True

/-- Game ids fit their field, and so do the names of players. -/
structure Issued (g : GameTask D) : Prop where
  rng : g.rng.v < 2 ^ 32
  gameId : g.gameId < 2 ^ 32
  calls : ∀ x ∈ scheduled g.calls, x.1 < 2 ^ 32 ∧ x.2.Named

section Issued

variable {pf : Platform D} {g g' : GameTask D}

/-- Nothing is scheduled. -/
theorem Issued.of_scheduled (h : Issued g) (hrng : g'.rng = g.rng) (hid : g'.gameId = g.gameId)
    (hcalls : scheduled g'.calls = scheduled g.calls) : Issued g' :=
  ⟨hrng ▸ h.rng, hid ▸ h.gameId, hcalls ▸ h.calls⟩

/-- An event of the current game. -/
theorem Issued.save (h : Issued g) {rng : RNG} (hrng : rng.v < 2 ^ 32) {e : GameEventVariant}
    (he : e.Named) (hv : g'.rng = rng) (hid : g'.gameId = g.gameId)
    (hcalls : g'.calls = g.calls ++ [.schedule g.gameId e]) : Issued g' := by
  refine ⟨hv ▸ hrng, hid ▸ h.gameId, fun x hx => ?_⟩
  rw [hcalls, scheduled_append, List.mem_append] at hx
  rcases hx with hx | hx
  · exact h.calls x hx
  · rw [List.mem_singleton.mp hx]
    exact ⟨h.gameId, he⟩

theorem Issued.ate (h : Issued g) {rng : RNG} (hrng : rng.v < 2 ^ 32) {name : PlayerName}
    {q : Player D} {no : ℕ} : Issued (GameTask.ate name q no { g with rng := rng }) :=
  h.save (e := .pixel ⟨no, q.pixel.1, q.pixel.2⟩) hrng trivial rfl rfl rfl

theorem Issued.eliminated (h : Issued g) {rng : RNG} (hrng : rng.v < 2 ^ 32) {name : PlayerName}
    {q : Player D} {no : ℕ} : Issued (GameTask.eliminated name q no { g with rng := rng }) :=
  h.save (e := .playerEliminated ⟨no⟩) hrng trivial rfl rfl rfl

theorem Issued.endGame (h : Issued g) : Issued g.endGame := by
  have hover : Issued g.emitGameOver := h.save (e := .gameOver) h.rng trivial rfl rfl rfl
  rw [endGame_eq]
  refine hover.of_scheduled rfl rfl ?_
  simp [emitGameOver, saveEvent, call]

theorem Issued.dropConnection (h : Issued g) (f : Fingerprint) : Issued (g.dropConnection f) := by
  obtain ⟨watchers, players, calls, heq, hcalls⟩ := exists_dropConnection f g
  rw [heq]
  exact h.of_scheduled rfl rfl hcalls

theorem Issued.handleMessageFromWatcher (h : Issued g) (f : Fingerprint)
    (msg : ClientToServerMessage) : Issued (g.handleMessageFromWatcher f msg) := by
  obtain ⟨watchers, calls, heq, hcalls⟩ := exists_handleMessageFromWatcher f msg g
  rw [heq]
  exact h.of_scheduled rfl rfl hcalls

theorem Issued.moveWorm (h : Issued g) (hsound : g.toGameState.Sound) {name : PlayerName}
    {p : Player D} {flow : Flow} (hp : g.players.find? name = some p)
    (hbody : GameTask.moveWorm pf name p g = .ok (flow, g')) : Issued g' :=
  hsound.moveWorm_induction (J := Issued) hp h (fun _ _ => h.of_scheduled rfl rfl rfl)
    (fun _ _ _ _ _ => h.ate h.rng) (fun _ _ => h.eliminated h.rng) (fun _ hgone => hgone.endGame)
    hbody

/-- The id of a game is a draw, and its players have registered. -/
theorem Issued.prepareGame (h : Issued g) (ho : g.toGameState.Orderly [])
    (hcan : canStartGame g.players = true) : Issued g.prepareGame := by
  refine ⟨toUInt32_lt _, h.rng, fun x hx => ?_⟩
  have hcalls : scheduled g.prepareGame.calls = scheduled g.calls ++
      [(g.rng.v, .newGame (.ofNames g.maxx g.maxy (g.players.keys.map Subtype.val)))] :=
    scheduled_append _ _
  rw [hcalls, List.mem_append] at hx
  rcases hx with hx | hx
  · exact h.calls x hx
  · rw [List.mem_singleton.mp hx]
    have htwo := GameState.two_le_size_of_canStartGame hcan
    rw [← SortedMap.length_keys] at htwo
    refine ⟨h.rng, g.maxx, g.maxy, g.players.keys, rfl, List.ne_nil_of_length_pos (by omega),
      g.players.length_keys.le.trans ho.size_le, fun n hn => ?_⟩
    obtain ⟨p, hp⟩ := SortedMap.mem_iff_find?.mp (SortedMap.mem_keys.mp hn)
    exact (ho.named n p hp).2

theorem Issued.placePlayer (h : Issued g) {name : PlayerName} {names : List PlayerName}
    (hpl : g.toGameState.Placing (name :: names)) {p : Player D}
    (hp : g.players.find? name = some p) {flow : Flow}
    (hbody : GameTask.placePlayer pf name p g = .ok (flow, g')) : Issued g' := by
  obtain ⟨no, hno⟩ := hpl.toOrderly.number hpl.started hp (by simp)
  cases hplaced : p.placed pf g.maxx g.maxy g.rng with
  | mk placed rng =>
    have hrng : rng.v < 2 ^ 32 := by
      have hsnd : (p.placed pf g.maxx g.maxy g.rng).2 = rng := congrArg Prod.snd hplaced
      rw [← hsnd]
      exact toUInt32_lt _
    rcases placePlayer_cases name hpl.started hno hplaced with
      ⟨-, heq⟩ | ⟨-, -, heq⟩ | ⟨-, -, heq⟩ <;> rw [heq] at hbody <;> cases hbody
    · exact h.ate hrng
    · exact h.eliminated hrng
    · exact (h.eliminated hrng).endGame

theorem Issued.startGame (h : Issued g) (ho : g.toGameState.Orderly [])
    (hs : g.gameStarted = false) (hcan : canStartGame g.players = true)
    (hstart : g.startGame pf = .ok g') : Issued g' := by
  refine ho.startGame_induction (J := fun _ g₁ => Issued g₁) hs hcan (h.prepareGame ho hcan) ?_ ?_
    (fun g₁ h₁ => h₁) hstart
  · exact fun name names g₁ p g₂ hpl h₁ hp hb => h₁.placePlayer hpl hp hb
  · exact fun name names g₁ p g₂ hpl h₁ hp hb => h₁.placePlayer hpl hp hb

/-- **Every operation** issues what can be encoded. -/
theorem Issued.run {op : GameOp} (h : Issued g) (hsound : g.toGameState.Sound)
    (hop : op.run pf g = .ok g') : Issued g' :=
  hsound.run_induction (I := Issued) (fun _ f _ h => h.dropConnection f)
    (fun _ f msg _ h => h.handleMessageFromWatcher f msg)
    (fun _ _ _ _ _ h => h.of_scheduled rfl rfl (by simp [answered, call, setPlayer]))
    (fun _ _ _ _ _ h => h.of_scheduled rfl rfl (by simp [joined, call]))
    (fun _ _ ho hs hcan h hstart => h.startGame ho hs hcan hstart)
    (fun _ _ _ _ _ hsound hp h hb => h.moveWorm hsound hp hb) h hop

theorem Issued.exec : ∀ {ops : List GameOp} {g g' : GameTask D}, Issued g → g.toGameState.Sound →
    (gameMachine pf).exec ops g = .ok g' → Issued g'
  | [], g, g', h, _, hexec => by
    obtain rfl : g = g' := Except.ok.inj hexec
    exact h
  | op :: ops, g, g', h, hsound, hexec => by
    obtain ⟨g₁, hop, hrest⟩ := Machine.exec_cons_eq_ok.mp hexec
    obtain ⟨g₂, hrun, rfl⟩ := gameMachine_step_eq_ok.mp hop
    have hsound₂ : g₂.toGameState.Sound :=
      GameState.Sound.run (g := { g with calls := [] }) hsound hrun
    have h₂ : Issued g₂ := Issued.run (g := { g with calls := [] })
      ⟨h.rng, h.gameId, fun x hx => absurd hx List.not_mem_nil⟩ hsound hrun
    refine Issued.exec (g := { g₂ with calls := g.calls ++ g₂.calls })
      ⟨h₂.rng, h₂.gameId, fun x hx => ?_⟩ hsound₂ hrest
    rw [scheduled_append, List.mem_append] at hx
    exact hx.elim (h.calls x) (h₂.calls x)

end Issued

/-! ## Games as logs -/

/-- A client enters a game with a `NEW_GAME` of at least two players. -/
theorem Client.InGame.two_le {newGame : EventNewGame} {c : Client} (h : InGame newGame c)
    {names : SortedMap ℕ PlayerName} (hparsed : newGame.parsedPlayers = .ok names) :
    2 ≤ names.size := by
  induction h with
  | @enter c c' msg first out hid hnew hfirst hmsg =>
    rcases processMessageFromServer_cases msg c with ⟨c₁, htook, -⟩ | heq | heq
    · rcases htook with ⟨-, hseen⟩ | ⟨hid', -⟩ | ⟨-, -, hnone⟩ | ⟨-, -, hfirst', -, hvalid⟩
      · exact absurd hseen hnew
      · exact absurd hid' hid
      · cases hfirst.symm.trans hnone
      · obtain ⟨hmem, hdata⟩ := firstNewGame_eq_some hfirst
        have hvalid := hvalid first hmem
        rw [validateEvent, validEvent, hdata] at hvalid
        simp only [hparsed] at hvalid
        simp at hvalid
        exact hvalid.2
    · cases heq.symm.trans hmsg
    · cases heq.symm.trans hmsg
  | stay _ _ _ ih => exact ih

/-- An event about a player is a `PIXEL` or a `PLAYER_ELIMINATED`. -/
theorem length_eq_pixels_add : ∀ {events : List GameEventVariant},
    (∀ e ∈ events, ∃ no, e.about = some no) → events.length =
      (events.filterMap GameEventVariant.pixel?).length + events.countP (·.isElimination)
  | [], _ => rfl
  | e :: events, h => by
    have ih := length_eq_pixels_add fun e' he' => h e' (List.mem_cons_of_mem _ he')
    rcases e with e | e | e | _
    · obtain ⟨_, hno⟩ := h _ List.mem_cons_self
      cases hno
    · rw [List.filterMap_cons_some (f := GameEventVariant.pixel?) rfl, List.length_cons,
        List.length_cons, ih,
        List.countP_cons_of_neg (by simp [GameEventVariant.isElimination])]
      omega
    · rw [List.filterMap_cons_none (f := GameEventVariant.pixel?) rfl, List.length_cons, ih,
        List.countP_cons_of_pos (by rfl)]
      rfl
    · obtain ⟨_, hno⟩ := h _ List.mem_cons_self
      cases hno

namespace Game

variable {x : Game} {maxx maxy : ℕ}

/-- The settings a client takes from the game, and what they make valid. -/
theorem OnBoard.settings (h : x.OnBoard maxx maxy) : ∃ names, x.newGame.parsedPlayers = .ok names ∧
    2 ≤ names.size ∧ ∀ e ∈ x.events, ∀ no,
      validEvent maxx maxy (toUInt8 names.size) ⟨no, some e⟩ = true := by
  obtain ⟨c, hc⟩ := h.entered
  obtain ⟨names, hparsed, hmaxx, hmaxy, hplayers⟩ := hc.settings
  refine ⟨names, hparsed, hc.two_le hparsed, fun e he no => ?_⟩
  have hvalid := h.valid c hc e he no
  rw [validateEvent, hmaxx, hmaxy, hplayers] at hvalid
  rw [← h.width, ← h.height]
  exact hvalid

/-- Numbers of players fit a byte. -/
theorem OnBoard.number_lt (h : x.OnBoard maxx maxy) {e : GameEventVariant} (he : e ∈ x.events)
    {no : ℕ} (hno : e.about = some no) : no < 2 ^ 8 := by
  obtain ⟨names, -, -, hvalid⟩ := h.settings
  have hlt : toUInt8 names.size < 2 ^ 8 := Nat.mod_lt _ (by decide)
  have hvalid := hvalid e he 0
  cases e <;> cases hno <;> simp [validEvent] at hvalid <;> omega

/-- The last of the players has had an event. -/
theorem OnBoard.length_names_le (h : x.OnBoard maxx maxy) (hx : x.WellPlayed) :
    x.names.length ≤ 2 ^ 8 := by
  have htwo := hx.two_le
  have hlast : (((x.events.take x.names.length).map GameEventVariant.about))[x.names.length - 1]? =
      some (some (x.names.length - 1)) := by
    rw [hx.opening, List.getElem?_map, List.getElem?_range (by omega)]
    rfl
  rw [List.getElem?_map, Option.map_eq_some_iff] at hlast
  obtain ⟨e, he, hno⟩ := hlast
  have hlt := h.number_lt (List.mem_of_mem_take (List.mem_of_getElem? he)) hno
  omega

theorem OnBoard.length_pixels_le (h : x.OnBoard maxx maxy) : x.pixels.length ≤ maxx * maxy := by
  have hsub : x.pixels.toFinset ⊆ Finset.range maxx ×ˢ Finset.range maxy := fun p hp => by
    obtain ⟨hpx, hpy⟩ := h.inside p (List.mem_toFinset.mp hp)
    exact Finset.mem_product.mpr ⟨Finset.mem_range.mpr hpx, Finset.mem_range.mpr hpy⟩
  have hcard := Finset.card_le_card hsub
  rwa [List.toFinset_card_of_nodup h.distinct, Finset.card_product, Finset.card_range,
    Finset.card_range] at hcard

/-- **There are few events**, since no pixel is eaten twice. -/
theorem OnBoard.length_log_lt (h : x.OnBoard maxx maxy) (hx : x.WellPlayed) (hmaxx : maxx ≤ 4096)
    (hmaxy : maxy ≤ 4096) : x.log.length < 2 ^ 32 := by
  have hpixels := h.length_pixels_le.trans (Nat.mul_le_mul hmaxx hmaxy)
  have hevents : x.events.length = x.pixels.length + x.eliminations :=
    length_eq_pixels_add fun e he => by
      obtain ⟨no, -, hno⟩ := hx.about e he
      exact ⟨no, hno⟩
  have helim := hx.eliminations_le
  have hnames := h.length_names_le hx
  have hover : (if x.IsOver then [GameEventVariant.gameOver] else []).length ≤ 1 := by
    split <;> simp
  rw [log, played, List.length_append, List.length_cons]
  omega

/-- **Every event can be encoded.** -/
theorem OnBoard.built (h : x.OnBoard maxx maxy) (hmaxx : maxx ≤ 4096) (hmaxy : maxy ≤ 4096)
    (hnamed : (GameEventVariant.newGame x.newGame).Named) : ∀ e ∈ x.log, e.Built := by
  intro e he
  rw [log, played, List.cons_append, List.mem_cons, List.mem_append] at he
  rcases he with rfl | he | he
  · obtain ⟨maxx', maxy', names, heq, hne, hle, hnames⟩ := hnamed
    have hx : x.maxx = maxx' := congrArg EventNewGame.maxx heq
    have hy : x.maxy = maxy' := congrArg EventNewGame.maxy heq
    have hwidth := h.width
    have hheight := h.height
    show GameEventVariant.Built (.newGame x.newGame)
    rw [heq]
    exact .newGame (by omega) (by omega) hne hle hnames
  · obtain ⟨no, -, hno⟩ := h.number e he
    have hlt := h.number_lt he hno
    rcases e with e | ⟨no', ex, ey⟩ | ⟨no'⟩ | _
    · cases hno
    · cases hno
      have hin : (ex, ey) ∈ x.pixels := List.mem_filterMap.mpr ⟨_, he, rfl⟩
      obtain ⟨hex, hey⟩ := h.inside _ hin
      exact .pixel hlt (by omega) (by omega)
    · cases hno
      exact .playerEliminated hlt
    · cases hno
  · split at he
    · rw [List.mem_singleton.mp he]
      exact .gameOver
    · exact absurd he List.not_mem_nil

/-- **A game is a log** that clients can take. -/
theorem OnBoard.exists_eventLog (h : x.OnBoard maxx maxy) (hx : x.WellPlayed)
    (hmaxx : maxx ≤ 4096) (hmaxy : maxy ≤ 4096) :
    ∃ log : EventLog, log.gameId = x.gameId ∧ log.events = withNumbers x.log := by
  obtain ⟨names, hparsed, htwo, hvalid⟩ := h.settings
  let later := x.events ++ if x.IsOver then [GameEventVariant.gameOver] else []
  have hlog : GameEventVariant.newGame x.newGame :: later = x.log := rfl
  refine ⟨⟨x.gameId, x.newGame, later, names, hparsed, fun e he => ?_, ?_⟩, rfl, rfl⟩
  · have hget := getElem?_of_mem_withNumbers he
    obtain ⟨no, data⟩ := e
    rw [getElem?_withNumbers, Option.map_eq_some_iff] at hget
    obtain ⟨v, hv, heq⟩ := hget
    cases heq
    rcases no with _ | no
    · cases hv
      have hfew : ¬names.size < 2 := not_lt.mpr htwo
      simp only [validEvent, hparsed, hfew, ne_eq, not_true, decide_false, Bool.or_self, Bool.not_false]
    · rw [List.getElem?_cons_succ] at hv
      rcases List.mem_append.mp (List.mem_of_getElem? hv) with hv | hv
      · have hwidth : x.newGame.maxx = maxx := h.width
        have hheight : x.newGame.maxy = maxy := h.height
        rw [hwidth, hheight]
        exact hvalid v hv _
      · split at hv
        · rw [List.mem_singleton.mp hv]
          rfl
        · exact absurd hv List.not_mem_nil
  · have hlt := h.length_log_lt hx hmaxx hmaxy
    rw [← hlog, List.length_cons] at hlt
    exact hlt

end Game

end ScreenWorms
