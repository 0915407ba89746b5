import ScreenWorms.Server.Bystanders
import ScreenWorms.Server.Turns
import Mathlib.Algebra.BigOperators.Ring.List
import Mathlib.Analysis.SpecialFunctions.Trigonometric.Basic
import Mathlib.Data.Finset.Prod

/-!
# How long a game lasts

A worm moves by one in each turn. It may stay on its pixel in one turn, but two moves in a row with
at most 90 degrees in between lead farther than two points of a pixel are apart. So in any two
turns a worm eats a pixel or is gone, and the board has only so many pixels.

The energy of a game pays for this: two for every pixel that is left, and for each worm how many
moves it has at most before it leaves its pixel. Every move costs one. Messages in between cost
nothing, whoever sends them.

## Main definitions

* `Rules.patience`, `Rules.energy`
* `Rules.Restless`, `Platform.Restless` — two moves in a row lead off a pixel

## Main results

* `Rules.energy_moves` — what the moves of a turn cost
* `game_lasts` — a game is over after at most as many turns as the board has pixels, and 25 more
-/

namespace ScreenWorms

open GameTask Machine

/-! ## The energy of a game -/

section Rules

variable {ι K : Type} [Field K] [LinearOrder K] [FloorRing K]

namespace Rules

variable (rules : Rules K)

/-- A worm has moved onto the pixel that it is on from the same pixel. -/
def Stayed (w : Worm ι K) : Prop :=
  ⌊w.position.1 - (rules.shift w.heading).1⌋ = ⌊w.position.1⌋ ∧
    ⌊w.position.2 - (rules.shift w.heading).2⌋ = ⌊w.position.2⌋

instance (w : Worm ι K) : Decidable (rules.Stayed w) := inferInstanceAs (Decidable (_ ∧ _))

/-- How many moves a worm has at most until it leaves its pixel. -/
def patience (w : Worm ι K) : ℕ := if rules.Stayed w then 1 else 2

/-- The pixels of the board. -/
def board : Finset (ℤ × ℤ) :=
  (Finset.range rules.maxx.toNat ×ˢ Finset.range rules.maxy.toNat).image wide

/-- What is left for the worms to spend. -/
def energy (eaten : Finset (ℤ × ℤ)) (ws : List (Worm ι K)) : ℕ :=
  2 * (rules.board \ eaten).card + (ws.map rules.patience).sum

/-- Two moves in a row lead by at least 1 along one of the axes. -/
def Restless : Prop :=
  ∀ heading heading' : ℤ, 0 ≤ heading → heading < 360 →
    (heading' = heading ∨ heading' = (heading + rules.turningSpeed) % 360 ∨
      heading' = (heading - rules.turningSpeed) % 360) →
    1 ≤ |(rules.shift heading).1 + (rules.shift heading').1| ∨
      1 ≤ |(rules.shift heading).2 + (rules.shift heading').2|

variable {rules}

omit [Field K] [LinearOrder K] [FloorRing K] in
theorem mem_board {pixel : ℤ × ℤ} : pixel ∈ rules.board ↔ rules.OnBoard pixel := by
  simp only [board, Finset.mem_image, Finset.mem_product, Finset.mem_range, OnBoard]
  constructor
  · rintro ⟨⟨x, y⟩, ⟨hx, hy⟩, rfl⟩
    simp only [wide]
    omega
  · rintro ⟨hx, hx', hy, hy'⟩
    refine ⟨(pixel.1.toNat, pixel.2.toNat), ⟨by omega, by omega⟩, ?_⟩
    simp only [wide, Int.toNat_of_nonneg hx, Int.toNat_of_nonneg hy]

theorem one_le_patience (w : Worm ι K) : 1 ≤ rules.patience w := by
  rw [patience]
  split <;> omega

theorem patience_le_two (w : Worm ι K) : rules.patience w ≤ 2 := by
  rw [patience]
  split <;> omega

/-- Two points of one pixel, with a whole step of length 1 along an axis between them. -/
theorem abs_add_lt_one [IsStrictOrderedRing K] {x a b : K} (ha : ⌊x - a⌋ = ⌊x⌋)
    (hb : ⌊x + b⌋ = ⌊x⌋) : |a + b| < 1 := by
  have hlt := Int.abs_sub_lt_one_of_floor_eq_floor (hb.trans ha.symm)
  rwa [add_sub_sub_cancel, add_comm] at hlt

/-- **A worm that has stayed on its pixel leaves it** with the next move. -/
theorem Restless.moved_ne [IsStrictOrderedRing K] (h : rules.Restless) {w : Worm ι K}
    (hheading : 0 ≤ w.heading ∧ w.heading < 360) (hstayed : rules.Stayed w) :
    (rules.moved w).pixel ≠ w.pixel := by
  intro hsame
  have hturn : (rules.moved w).heading = w.heading ∨
      (rules.moved w).heading = (w.heading + rules.turningSpeed) % 360 ∨
      (rules.moved w).heading = (w.heading - rules.turningSpeed) % 360 := by
    rw [moved]
    cases w.turnDirection with
    | straight => exact Or.inl rfl
    | right => exact Or.inr (Or.inl rfl)
    | left => exact Or.inr (Or.inr rfl)
  have hposition : (rules.moved w).position =
      w.position + rules.shift (rules.moved w).heading := rfl
  obtain ⟨hx, hy⟩ := Prod.mk.inj hsame
  rw [hposition] at hx hy
  rcases h _ _ hheading.1 hheading.2 hturn with hfar | hfar
  · exact absurd (abs_add_lt_one hstayed.1 hx) (not_lt.mpr hfar)
  · exact absurd (abs_add_lt_one hstayed.2 hy) (not_lt.mpr hfar)

/-- A worm that has moved and is still on its pixel has stayed there. -/
theorem stayed_moved {w : Worm ι K} (hsame : (rules.moved w).pixel = w.pixel) :
    rules.Stayed (rules.moved w) := by
  have hposition : (rules.moved w).position =
      w.position + rules.shift (rules.moved w).heading := rfl
  obtain ⟨hx, hy⟩ := Prod.mk.inj hsame
  rw [Stayed, hx, hy, hposition]
  simp

/-- A worm that stays spends its patience. -/
theorem Restless.patience_moved [IsStrictOrderedRing K] (h : rules.Restless) {w : Worm ι K}
    (hheading : 0 ≤ w.heading ∧ w.heading < 360) (hsame : (rules.moved w).pixel = w.pixel) :
    rules.patience (rules.moved w) + 1 = rules.patience w := by
  rw [patience, if_pos (stayed_moved hsame), patience,
    if_neg fun hstayed => h.moved_ne hheading hstayed hsame]

omit [Field K] [LinearOrder K] [FloorRing K] in
/-- A pixel is eaten. -/
theorem card_board_sdiff_insert {eaten : Finset (ℤ × ℤ)} {pixel : ℤ × ℤ} (hfree : pixel ∉ eaten)
    (hin : rules.OnBoard pixel) :
    (rules.board \ insert pixel eaten).card + 1 = (rules.board \ eaten).card := by
  rw [Finset.sdiff_insert]
  exact Finset.card_erase_add_one (Finset.mem_sdiff.mpr ⟨mem_board.mpr hin, hfree⟩)

/-- **What the moves of a turn cost**, if the game is not over. -/
theorem energy_moves [IsStrictOrderedRing K] (h : rules.Restless) :
    ∀ {ws : List (Worm ι K)} {left : ℕ} {eaten : Finset (ℤ × ℤ)},
    (∀ w ∈ ws, 0 ≤ w.heading ∧ w.heading < 360) → 2 ≤ (rules.moves left eaten ws).left →
    rules.energy (rules.moves left eaten ws).eaten (rules.moves left eaten ws).worms + ws.length ≤
      rules.energy eaten ws
  | [], left, eaten, _, _ => le_rfl
  | w :: ws, left, eaten, hheadings, hover => by
    obtain ⟨hfirst, hrest⟩ := List.forall_mem_cons.mp hheadings
    have hone : 1 ≤ rules.patience w := one_le_patience w
    rw [moves] at hover ⊢
    split at hover
    · rename_i hleft
      exact absurd hover (not_le.mpr hleft)
    · rename_i hleft
      rw [if_neg hleft]
      simp only at hover ⊢
      split at hover
      · rename_i hsame
        rw [if_pos hsame]
        have ih := energy_moves h hrest hover
        have hpatience := h.patience_moved hfirst hsame
        simp only [energy, Outcome.after, List.singleton_append, List.map_cons, List.sum_cons,
          List.length_cons] at ih ⊢
        omega
      · rename_i hother
        rw [if_neg hother]
        split at hover
        · rename_i hout
          rw [if_pos hout]
          have ih := energy_moves h hrest hover
          simp only [energy, Outcome.after, List.nil_append, List.map_cons, List.sum_cons,
            List.length_cons] at ih ⊢
          omega
        · rename_i hin
          rw [if_neg hin]
          rw [not_or, not_not] at hin
          have ih := energy_moves h hrest hover
          have hcard := card_board_sdiff_insert hin.1 hin.2
          have htwo : rules.patience (rules.moved w) ≤ 2 := patience_le_two (rules.moved w)
          simp only [energy, Outcome.after, List.singleton_append, List.map_cons, List.sum_cons,
            List.length_cons] at ih ⊢
          omega

/-- **What a turn costs**, if the game is not over. -/
theorem energy_turn [IsStrictOrderedRing K] (h : rules.Restless) {ws : List (Worm ι K)}
    {eaten : Finset (ℤ × ℤ)} (hheadings : ∀ w ∈ ws, 0 ≤ w.heading ∧ w.heading < 360)
    (hover : 2 ≤ (rules.turn eaten ws).worms.length) :
    rules.energy (rules.turn eaten ws).eaten (rules.turn eaten ws).worms + ws.length ≤
      rules.energy eaten ws := by
  by_cases hleft : (rules.moves ws.length eaten ws).left < 2
  · rw [turn_of_over hleft] at hover
    rw [left_moves] at hleft
    exact absurd hover (not_le.mpr hleft)
  · rw [turn_of_running hleft]
    exact energy_moves h hheadings (not_lt.mp hleft)

end Rules

end Rules

/-! ## The energy of a game manager -/

section Game

variable {K : Type} [Field K] [LinearOrder K] [FloorRing K]

/-- The numbers are exact, and moves with at most 90 degrees in between lead off a pixel. Of the
cosines and sines of exact numbers this is true (`real_restless`). -/
structure Platform.Restless (pf : Platform K) : Prop extends pf.Exact where
  strides : ∀ d < 360, ∀ t ≤ 90, 1 ≤ |pf.cos d + pf.cos ((d + t) % 360)| ∨
    1 ≤ |pf.sin d + pf.sin ((d + t) % 360)|

/-- The energy of the game that is under way. -/
def GameState.energy (pf : Platform K) (g : GameState K) : ℕ :=
  (g.rules pf).energy (g.eatenPixels.image wide) g.worms

variable {pf : Platform K}

theorem Platform.Restless.rules (hpf : pf.Restless) {g : GameState K} (hlim : g.WithinLimits) :
    (g.rules pf).Restless := by
  intro heading heading' hge hlt hturn
  obtain ⟨-, hspeed⟩ := hlim.turningSpeed_mem
  have hspeed' : (g.rules pf).turningSpeed = (g.turningSpeed : ℤ) := rfl
  show 1 ≤ |pf.cos heading.toNat + pf.cos heading'.toNat| ∨
    1 ≤ |pf.sin heading.toNat + pf.sin heading'.toNat|
  rw [hspeed'] at hturn
  rcases hturn with rfl | rfl | rfl
  · have hstay := hpf.strides heading'.toNat (by omega) 0 (by omega)
    rwa [Nat.add_zero, Nat.mod_eq_of_lt (by omega)] at hstay
  · have hright := hpf.strides heading.toNat (by omega) g.turningSpeed hspeed
    rwa [show (heading.toNat + g.turningSpeed) % 360 =
      ((heading + g.turningSpeed) % 360).toNat by omega] at hright
  · -- the heading before is to the right of the one after
    have hleft := hpf.strides ((heading - g.turningSpeed) % 360).toNat (by omega) g.turningSpeed
      hspeed
    rwa [show (((heading - g.turningSpeed) % 360).toNat + g.turningSpeed) % 360 =
      heading.toNat by omega, add_comm (pf.cos _), add_comm (pf.sin _)] at hleft

/-! ### Messages and drops -/

section Frame

variable {D : Type}

/-- Bystanders have no worms. -/
theorem GameState.worms_alone (g : GameState D) : g.alone.worms = g.worms := by
  have hworm : ∀ name, g.alone.worm? name = g.worm? name := fun name => by
    have hfind : g.alone.players.find? name = (g.players.find? name).bind Player.worm :=
      find?_worms g.players name
    rw [worm?, worm?, hfind]
    rcases g.players.find? name with _ | p
    · rfl
    · cases hin : p.takesPartInCurrentGame
      · simp [Player.worm, hin, Player.isAlive]
      · simp only [Option.bind_some, Player.worm, hin, if_true, Player.isAlive]
        rfl
  have hkeys : g.alone.players.keys = g.players.keys.filter (· ∈ g.alone.players) :=
    keys_worms g.players
  rw [worms, worms, hkeys, List.filterMap_filter]
  refine List.filterMap_congr fun name _ => ?_
  rw [← hworm]
  split
  · rfl
  · rename_i hnot
    have hnone : g.alone.players.find? name = none :=
      SortedMap.find?_eq_none.mpr (by simpa using hnot)
    rw [worm?, hnone]

/-- An operation leaves the board as it is. -/
theorem GameTask.Change.sameBoard {op : GameOp} {g g' : GameTask D} (h : Change op g g') :
    g.toGameState.SameBoard g'.toGameState := by
  cases h with
  | @drop f =>
    by_cases hw : f ∈ g.watchers
    · rw [dropConnection_of_watcher hw]
      exact ⟨rfl, rfl, rfl⟩
    · cases hs : g.gameStarted with
      | true =>
        rw [dropConnection_of_running hw hs]
        exact ⟨rfl, rfl, rfl⟩
      | false =>
        rw [dropConnection_of_lobby hw hs]
        exact ⟨rfl, rfl, rfl⟩
  | @watcher f msg =>
    obtain ⟨watchers, calls, heq, -⟩ := exists_handleMessageFromWatcher f msg g
    rw [heq]
    exact ⟨rfl, rfl, rfl⟩
  | ended =>
    rw [endGame_eq]
    exact ⟨rfl, rfl, rfl⟩
  | _ => exact ⟨rfl, rfl, rfl⟩

theorem GameState.SameBoard.trans {g₁ g₂ g₃ : GameState D} (h : g₁.SameBoard g₂)
    (h' : g₂.SameBoard g₃) : g₁.SameBoard g₃ :=
  ⟨h'.maxx.trans h.maxx, h'.maxy.trans h.maxy, h'.turningSpeed.trans h.turningSpeed⟩

theorem sameBoard_exec {pf : Platform D} : ∀ {ops : List GameOp} {g g' : GameTask D},
    (gameMachine pf).Reachable g → (gameMachine pf).exec ops g = .ok g' →
    g.toGameState.SameBoard g'.toGameState
  | [], g, g', _, h => by
    obtain rfl : g = g' := Except.ok.inj h
    exact ⟨rfl, rfl, rfl⟩
  | op :: ops, g, g', hg, h => by
    obtain ⟨g₁, hstep, hrest⟩ := Machine.exec_cons_eq_ok.mp h
    obtain ⟨g₂, hrun, rfl⟩ := gameMachine_step_eq_ok.mp hstep
    have hsound := (gameMachine_sound pf).reachable hg
    have hfirst : g.toGameState.SameBoard g₂.toGameState :=
      (hsound.run_changes (g := { g with calls := [] }) hrun).induction
        (I := fun g₁ => g.toGameState.SameBoard g₁.toGameState)
        (fun _ _ _ hchange h => h.trans hchange.sameBoard) ⟨rfl, rfl, rfl⟩
    exact hfirst.trans (sameBoard_exec
      (g := { g₂ with calls := g.calls ++ g₂.calls }) (hg.step hstep) hrest)

end Frame

theorem GameState.energy_alone (g : GameState K) : g.alone.energy pf = g.energy pf := by
  rw [energy, worms_alone]
  rfl

/-- A participant may steer. -/
theorem energy_answered {g : GameTask K} {msg : ClientToServerMessage} {p : Player K}
    (hp : g.players.find? msg.playerName = some p) :
    (g.answered msg p).energy pf = g.energy pf := by
  have hpatience : ∀ name,
      ((g.answered msg p).worm? name).map (g.rules pf).patience =
        (g.worm? name).map (g.rules pf).patience := fun name => by
    have hfind : (g.answered msg p).players.find? name =
        (g.players.adjust msg.playerName fun _ => p.updated g.gameStarted msg).find? name := rfl
    have hnumbers : (g.answered msg p).playerNumberInGame = g.playerNumberInGame := rfl
    rw [GameState.worm?, GameState.worm?, hfind, hnumbers, SortedMap.find?_adjust]
    by_cases hname : name = msg.playerName
    · subst hname
      rw [hp, Option.map_some, if_pos rfl]
      have halive : (p.updated g.gameStarted msg).isAlive = p.isAlive := rfl
      simp only [halive]
      split
      · rw [Option.map_map, Option.map_map]
        rfl
      · rfl
    · simp only [if_neg hname, Option.map_id']
  have hkeys : (g.answered msg p).players.keys = g.players.keys := SortedMap.keys_adjust _ _ _
  have hrules : (g.answered msg p).rules pf = g.rules pf := rfl
  rw [GameState.energy, GameState.energy, Rules.energy, Rules.energy, GameState.worms,
    GameState.worms, hkeys, hrules, List.map_filterMap, List.map_filterMap]
  simp only [hpatience]
  rfl

/-- **What is not a turn** neither ends a game under way nor costs anything. -/
theorem energy_run {op : GameOp} (hop : op ≠ .turn) {g g' : GameTask K} (h : g.toGameState.Sound)
    (hs : g.gameStarted = true) (hrun : op.run pf g = .ok g') :
    g'.gameStarted = true ∧ g'.energy pf = g.energy pf := by
  cases hc : op.concerns g.toGameState with
  | false =>
    have hunseen := unseen_reached pf hs hc
    rw [GameOp.reached_of_run hrun] at hunseen
    refine ⟨hunseen.started.trans hs, ?_⟩
    rw [← GameState.energy_alone, hunseen.alone, GameState.energy_alone]
  | true =>
    rcases op with ⟨f, msg⟩ | f | _
    · rw [GameOp.concerns, decide_eq_true_iff, participants_eq, SortedMap.find?_mapValues,
        Option.map_eq_some_iff] at hc
      obtain ⟨w, hw, hf⟩ := hc
      rw [find?_worms] at hw
      obtain ⟨p, hp, hworm⟩ := Option.bind_eq_some_iff.mp hw
      rw [Player.worm, Option.ite_none_right_eq_some] at hworm
      obtain rfl := Option.some.inj hworm.2
      have hname : msg.playerNameSize ≠ 0 := fun hnil =>
        (h.named _ _ hp).2 (List.length_eq_zero_iff.mp hnil)
      have hrunning : (g.answered msg p).gameStarted = true := hs
      rw [GameOp.run, handleMessage, if_neg hname, handleMessageFromPlayer_of_known hp hf,
        startGameIfReady_of_running pf hrunning] at hrun
      obtain rfl := Except.ok.inj hrun
      exact ⟨hrunning, energy_answered hp⟩
    · cases hc
    · exact absurd rfl hop

/-- Drops and messages, one after the other. -/
theorem energy_exec : ∀ {ops : List GameOp} {g g' : GameTask K}, (∀ op ∈ ops, op ≠ .turn) →
    (gameMachine pf).Reachable g → g.gameStarted = true → (gameMachine pf).exec ops g = .ok g' →
    g'.gameStarted = true ∧ g'.energy pf = g.energy pf
  | [], g, g', _, _, hs, h => by
    obtain rfl : g = g' := Except.ok.inj h
    exact ⟨hs, rfl⟩
  | op :: ops, g, g', hops, hg, hs, h => by
    obtain ⟨hop, hrest⟩ := List.forall_mem_cons.mp hops
    obtain ⟨g₁, hstep, hexec⟩ := Machine.exec_cons_eq_ok.mp h
    obtain ⟨g₂, hrun, rfl⟩ := gameMachine_step_eq_ok.mp hstep
    have hsound := (gameMachine_sound pf).reachable hg
    obtain ⟨hs₂, henergy⟩ := energy_run (g := { g with calls := [] }) hop hsound hs hrun
    obtain ⟨hs', henergy'⟩ := energy_exec (g := { g₂ with calls := g.calls ++ g₂.calls }) hrest
      (hg.step hstep) hs₂ hexec
    exact ⟨hs', henergy'.trans henergy⟩

variable [IsStrictOrderedRing K]

/-- **A turn costs at least two** if the game goes on. -/
theorem energy_runTurn (hpf : pf.Restless) {g : GameTask K} (hg : (gameMachine pf).Reachable g)
    (hlim : g.WithinLimits) (hs : g.gameStarted = true) {g' : GameTask K}
    (hturn : (gameMachine pf).step .turn g = .ok g') (hs' : g'.gameStarted = true) :
    g'.energy pf + 2 ≤ g.energy pf := by
  have hsound := (gameMachine_sound pf).reachable hg
  have hpos := (gameMachine_positioned hpf.toExact).reachable hg
  have hboard := sameBoard_exec hg (Machine.exec_singleton hturn)
  obtain ⟨g₁, hrun, rfl⟩ := gameMachine_step_eq_ok.mp hturn
  have hagrees := runTurn_agrees hpf.toExact hsound hs hlim hpos hrun
  have hover := hagrees.goesOn.mp hs'
  have hcost := Rules.energy_turn (hpf.rules hlim) (hpos.heading hlim) hover
  have htwo : 2 ≤ g.worms.length := by
    rw [hsound.length_worms hs]
    exact (hsound.running hs).alive_ge
  have hrules : g₁.rules pf = g.rules pf := hboard.rules_eq pf
  have hworms : g₁.worms = (g.turnByRules pf).worms := by
    have hstarted : g₁.gameStarted = true := hs'
    rw [hagrees.survivors, hstarted]
    simp
  have henergy : g₁.energy pf =
      (g.rules pf).energy (g.turnByRules pf).eaten (g.turnByRules pf).worms := by
    rw [GameState.energy, hrules, hagrees.eaten, hworms]
  show g₁.energy pf + 2 ≤ g.energy pf
  rw [henergy]
  exact (Nat.add_le_add_left htwo _).trans hcost

omit [IsStrictOrderedRing K] in
/-- At the start, two for every pixel and two for every worm. -/
theorem GameState.Registered.energy_le {g : GameState K} (h : g.Registered) (pf : Platform K) :
    g.energy pf ≤ 2 * (g.maxx * g.maxy + maxPlayers) := by
  have hboard : ((g.rules pf).board \ g.eatenPixels.image wide).card ≤ g.maxx * g.maxy := by
    refine (Finset.card_le_card Finset.sdiff_subset).trans ?_
    refine Finset.card_image_le.trans (le_of_eq ?_)
    rw [Finset.card_product, Finset.card_range, Finset.card_range]
    rfl
  have hworms : g.worms.length ≤ maxPlayers := by
    refine (List.length_filterMap_le _ _).trans ?_
    rw [SortedMap.length_keys]
    exact h.size_le
  have hpatience := List.sum_le_card_nsmul (g.worms.map (g.rules pf).patience) 2 fun n hn => by
    obtain ⟨w, -, rfl⟩ := List.mem_map.mp hn
    exact Rules.patience_le_two w
  rw [List.length_map, nsmul_eq_mul, Nat.cast_id] at hpatience
  rw [energy, Rules.energy]
  omega

/-! ## The energy of a server -/

/-- The board of a server is one that the command line allows. -/
theorem server_withinLimits {D : Type} (pf : Platform D) :
    (serverMachine pf).Invariant fun s => s.gameManager.toGameState.WithinLimits where
  init s hs := by
    obtain ⟨config, unsetId, unsetAlive, rfl⟩ := hs
    exact ⟨config.boardWidth_mem, config.boardHeight_mem, config.turningSpeed_mem⟩
  step s op s' hs hlim hstep := by
    obtain ⟨g, hg, hgm⟩ := reachable_gameTask (reachable_gameManager hs)
    obtain ⟨g', hexec, hgm'⟩ := server_game pf (Machine.Run.nil.snoc hstep) g hgm
    have hboard := sameBoard_exec hg hexec
    rw [hgm, hgm'] at hboard
    exact hboard.withinLimits.mpr hlim

/-- How many turns a step of the server plays. -/
def Server.Op.turns : Server.Op → ℕ
  | .tick _ _ => 1
  | _ => 0

/-- **A step of the server** that leaves the game running: a turn costs two, the rest nothing. -/
theorem energy_step (hpf : pf.Restless) {s : Server K} {op : Server.Op} {s' : Server K}
    (hs : (serverMachine pf).Reachable s) (hrunning : s.gameManager.gameStarted = true)
    (hrunning' : s'.gameManager.gameStarted = true)
    (hstep : (serverMachine pf).step op s = .ok s') :
    s'.gameManager.energy pf + 2 * op.turns ≤ s.gameManager.energy pf := by
  obtain ⟨g, hg, hgm⟩ := reachable_gameTask (reachable_gameManager hs)
  obtain ⟨g', hexec, hgm'⟩ := server_game pf (Machine.Run.nil.snoc hstep) g hgm
  have hlim := (server_withinLimits pf).reachable hs
  rw [← hgm] at hlim
  rw [← hgm] at hrunning ⊢
  rw [← hgm'] at hrunning' ⊢
  rw [List.nil_append, List.flatMap_singleton] at hexec
  cases op with
  | tick now order =>
    -- silent clients are dropped, then the worms move
    rw [Server.gameOps] at hexec
    obtain ⟨g₁, hdrops, hturn⟩ := Machine.exec_concat_eq_ok.mp hexec
    have hdrop : ∀ fs : List Fingerprint, ∀ o ∈ fs.map GameOp.drop, o ≠ GameOp.turn := by
      intro fs o ho
      obtain ⟨f, -, rfl⟩ := List.mem_map.mp ho
      exact GameOp.noConfusion
    obtain ⟨hs₁, henergy⟩ := energy_exec (hdrop _) hg hrunning hdrops
    have hboard := sameBoard_exec hg hdrops
    have hcost := energy_runTurn hpf (hg.exec hdrops) (hboard.withinLimits.mpr hlim) hs₁ hturn
      hrunning'
    rw [henergy] at hcost
    exact hcost
  | read now f addr datagram =>
    refine le_of_eq (energy_exec (fun op hop => ?_) hg hrunning hexec).2
    rw [Server.gameOps, Option.mem_toList, Option.map_eq_some_iff] at hop
    obtain ⟨m, -, rfl⟩ := hop
    exact GameOp.noConfusion
  | send delivered => exact le_of_eq (energy_exec (fun op hop => absurd hop List.not_mem_nil) hg
      hrunning hexec).2

/-- **A game lasts at most as many turns as the board has pixels, and 25 more.** -/
theorem game_lasts (hpf : pf.Restless) {s t : Server K} (hs : (serverMachine pf).Reachable s)
    {tr : List (Server K × Server.Op)} (h : (serverMachine pf).Run s tr t)
    (hrunning : ∀ u ∈ visited tr t, u.gameManager.gameStarted = true) :
    (tr.map fun x => x.2.turns).sum ≤ s.gameManager.maxx * s.gameManager.maxy + maxPlayers := by
  obtain ⟨g, hg, hgm⟩ := reachable_gameTask (reachable_gameManager hs)
  have hregistered := ((gameMachine_sound pf).reachable hg).toRegistered
  rw [hgm] at hregistered
  have hcost : t.gameManager.energy pf + (tr.map fun x => 2 * x.2.turns).sum ≤
      s.gameManager.energy pf :=
    h.cost_le (P := fun s => s.gameManager.gameStarted = true)
      (fun u op v hu hrun hrun' hstep => energy_step hpf hu hrun hrun' hstep) hs hrunning
  have hstart := hregistered.energy_le pf
  rw [List.sum_map_mul_left] at hcost
  omega

end Game

/-! ### Cosines and sines -/

open Real in
/-- Two unit vectors with at most a right angle in between add up to the root of 2 at least. -/
theorem real_restless {pf : Platform ℝ} (h : pf.Exact)
    (hcos : ∀ d : ℕ, pf.cos d = cos (d * (π / 180)))
    (hsin : ∀ d : ℕ, pf.sin d = sin (d * (π / 180))) : pf.Restless where
  toExact := h
  strides d _ t ht := by
    have hturn : ((d : ℝ) + t) * (π / 180) =
        ((d + t) % 360 : ℕ) * (π / 180) + ((d + t) / 360 : ℕ) * (2 * π) := by
      have hdiv : (d : ℝ) + t = ((d + t) % 360 : ℕ) + 360 * ((d + t) / 360 : ℕ) := by
        exact_mod_cast (Nat.mod_add_div (d + t) 360).symm
      rw [hdiv]
      ring
    have hcos' : cos (((d + t) % 360 : ℕ) * (π / 180)) = cos ((d + t) * (π / 180)) := by
      rw [hturn, cos_add_nat_mul_two_pi]
    have hsin' : sin (((d + t) % 360 : ℕ) * (π / 180)) = sin ((d + t) * (π / 180)) := by
      rw [hturn, sin_add_nat_mul_two_pi]
    have hangle : 0 ≤ cos (t * (π / 180)) := by
      have hpos : (0 : ℝ) ≤ t := Nat.cast_nonneg t
      have hle : (t : ℝ) ≤ 90 := by exact_mod_cast ht
      refine cos_nonneg_of_mem_Icc ⟨?_, ?_⟩ <;> nlinarith [pi_pos]
    have hdiff : cos ((d + t) * (π / 180) - d * (π / 180)) = cos (t * (π / 180)) := by ring_nf
    rw [hcos, hcos, hsin, hsin, hcos', hsin']
    by_contra hnot
    rw [not_or, not_le, not_le] at hnot
    have hx := (sq_lt_one_iff_abs_lt_one _).mpr hnot.1
    have hy := (sq_lt_one_iff_abs_lt_one _).mpr hnot.2
    rw [cos_sub] at hdiff
    nlinarith [sin_sq_add_cos_sq (d * (π / 180)), sin_sq_add_cos_sq ((d + t) * (π / 180))]

/-- The sine of an angle below 360 degrees, in millionths. -/
def sinMillionths (degrees : ℕ) : ℤ := cosMillionths ((degrees + 270) % 360)

/-- Two displacements add up to a pixel along one of the axes. -/
def Strides (d e : ℕ) : Prop :=
  1000000 ≤ |cosMillionths d + cosMillionths e| ∨ 1000000 ≤ |sinMillionths d + sinMillionths e|

/-- Both displacements are turned by 90 degrees. -/
theorem Strides.quarter {d e : ℕ} (hd : d < 360) (he : e < 360) (h : Strides d e) :
    Strides ((d + 90) % 360) ((e + 90) % 360) := by
  have hcos : ∀ d < 360, cosMillionths ((d + 90) % 360) = -sinMillionths d := by decide +kernel
  have hsin : ∀ d < 360, sinMillionths ((d + 90) % 360) = cosMillionths d := by decide +kernel
  rw [Strides, hcos d hd, hcos e he, hsin d hd, hsin e he, ← neg_add, abs_neg]
  exact h.symm

theorem strides_first {d t : ℕ} (hd : d ≤ 90) (ht : t ≤ 90) : Strides d (d + t) := by
  have hone : ∀ d ≤ 90, 1000000 ≤ cosMillionths d + sinMillionths d := by decide +kernel
  by_cases hfirst : d + t ≤ 90
  · have hdt := hone (d + t) hfirst
    have hd' := hone d hd
    rcases le_total (sinMillionths d + sinMillionths (d + t))
      (cosMillionths d + cosMillionths (d + t)) with hle | hle
    · exact Or.inl ((show (1000000 : ℤ) ≤ _ by omega).trans (le_abs_self _))
    · exact Or.inr ((show (1000000 : ℤ) ≤ _ by omega).trans (le_abs_self _))
  · -- the second one has turned past the axis
    have hpast : ∀ d ≤ 90, ∀ j ≤ d, 1000000 ≤ sinMillionths d + sinMillionths (j + 90) := by
      decide +kernel
    have hle := hpast d hd (d + t - 90) (by omega)
    rw [Nat.sub_add_cancel (by omega)] at hle
    exact Or.inr (hle.trans (le_abs_self _))

theorem strides (d t : ℕ) (hd : d < 360) (ht : t ≤ 90) : Strides d ((d + t) % 360) := by
  by_cases hfirst : d ≤ 90
  · rw [Nat.mod_eq_of_lt (by omega)]
    exact strides_first hfirst ht
  · have ih := (strides (d - 90) t (by omega) ht).quarter (by omega) (Nat.mod_lt _ (by decide))
    rwa [show (d - 90 + 90) % 360 = d by omega,
      show ((d - 90 + t) % 360 + 90) % 360 = (d + t) % 360 by omega] at ih

theorem rational_restless : rational.Restless where
  toExact := rational_exact
  strides d hd t ht := by
    have hscale : ∀ x y : ℤ, 1000000 ≤ |x + y| →
        1 ≤ |(x : ℚ) / 1000000 + (y : ℚ) / 1000000| := fun x y h => by
      rw [← add_div, abs_div, abs_of_pos (show (0 : ℚ) < 1000000 by norm_num),
        le_div_iff₀ (by norm_num), one_mul]
      exact_mod_cast h
    exact (strides d t hd ht).imp (hscale _ _) (hscale _ _)

/-- Two turns of a game that goes on. -/
def TwoTurns (tr : List (Server ℚ × Server.Op)) (t : Server ℚ) : Prop :=
  (∀ u ∈ visited tr t, u.gameManager.gameStarted = true) ∧ (tr.map fun x => x.2.turns).sum = 2

instance (tr : List (Server ℚ × Server.Op)) (t : Server ℚ) : Decidable (TwoTurns tr t) :=
  inferInstanceAs (Decidable (_ ∧ _))

/-- Two turns of a game, and a message in between. -/
theorem game_lasts_two : ∃ (s t : Server ℚ) (tr : List (Server ℚ × Server.Op)),
    (serverMachine rational).Reachable s ∧ (serverMachine rational).Run s tr t ∧
    (∀ u ∈ visited tr t, u.gameManager.gameStarted = true) ∧
    (tr.map fun x => x.2.turns).sum = 2 ∧
    (tr.map fun x => x.2.turns).sum ≤ s.gameManager.maxx * s.gameManager.maxy + maxPlayers := by
  have hinit : (serverMachine rational).init (.new (smallBoard 5 (by decide)) 0 0) :=
    ⟨_, 0, 0, rfl⟩
  let ops : List Server.Op := [.tick 3 [], .said 4 1 5 .left 0 [97], .tick 5 []]
  obtain ⟨s, hs, hruns⟩ := (Machine.Reachable.init hinit).exists_of_exec
    (P := fun s => (((serverMachine rational).exec ops s).toOption.any fun t => decide (TwoTurns
      ((serverMachine rational).trace ops s) t)) = true)
    [.said 0 1 5 .right 0 [97], .said 0 2 5 .right 0 [98]] (by decide +kernel)
  obtain ⟨tr, t, hrun, -, hrunning, htwo⟩ := Machine.exists_run_of_any
    (P := TwoTurns) ops hruns
  exact ⟨s, t, tr, hs, hrun, hrunning, htwo, game_lasts rational_restless hs hrun hrunning⟩

end ScreenWorms
