import ScreenWorms.Server.Pixels
import Mathlib.Algebra.Order.Floor.Ring
import Mathlib.Data.Finset.Image
import Mathlib.Tactic.Linarith

/-!
# Worms in exact numbers

The rules of a turn speak of a position on a plane and of the pixel that contains it. The code keeps
the pixel beside the position, converts to `uint16_t` and tests for a negative coordinate. Here the
rules are written down over any field with a floor (`Rules.turn`), and the worms of the code are
shown to obey the invariant that connects the two: the pixel of a worm that is still in the game is
the floor of its position, and is on the board (`Player.Positioned`).

`Platform.Exact` replaces the `double`s by the numbers of such a field. All that is left of the
cosines and sines is that no worm moves by more than 1 along either axis.

## Main definitions

* `Worm`, `Rules`, `Rules.moves`, `Rules.turn` — a turn by the rules
* `Platform.Exact`
* `Player.asWorm` — the worm of a player, as the rules see it
* `Player.Positioned`

## Main results

* `Player.Positioned.advance_verdict` — the checks of the code come to what the rules say
* `gameMachine_positioned` — whatever is done with a game manager, its worms are positioned
-/

namespace ScreenWorms

/-! ## A turn by the rules -/

/-- A worm of a player, which has a number in the game. -/
structure Worm (ι K : Type) where
  player : ι
  number : ℕ
  position : K × K
  heading : ℤ
  turnDirection : TurnDirection

/-- What a turn depends on: `shift` is the displacement that belongs to a heading. -/
structure Rules (K : Type) where
  turningSpeed : ℤ
  maxx : ℤ
  maxy : ℤ
  shift : ℤ → K × K

/-- What is generated in a turn. Players go by their numbers. -/
inductive TurnEvent
  | pixel (number : ℕ) (pixel : ℤ × ℤ)
  | playerEliminated (number : ℕ)
  | gameOver
deriving DecidableEq

/-- What comes of a turn: its events, the eaten pixels, the worms that are still in the game, and
how many these are. -/
structure Outcome (ι K : Type) where
  events : List TurnEvent
  eaten : Finset (ℤ × ℤ)
  worms : List (Worm ι K)
  left : ℕ

/-- Events and worms that come before. -/
def Outcome.after {ι K : Type} (events : List TurnEvent) (worms : List (Worm ι K))
    (o : Outcome ι K) : Outcome ι K :=
  { o with events := events ++ o.events, worms := worms ++ o.worms }

section Rules

variable {ι K : Type} [Field K]

namespace Rules

variable (rules : Rules K)

/-- A worm turns, and moves along its heading. -/
def moved (w : Worm ι K) : Worm ι K :=
  let heading := match w.turnDirection with
    | .straight => w.heading
    | .right => (w.heading + rules.turningSpeed) % 360
    | .left => (w.heading - rules.turningSpeed) % 360
  { w with heading := heading, position := w.position + rules.shift heading }

/-- A pixel of the board. -/
def OnBoard (pixel : ℤ × ℤ) : Prop :=
  0 ≤ pixel.1 ∧ pixel.1 < rules.maxx ∧ 0 ≤ pixel.2 ∧ pixel.2 < rules.maxy

instance (pixel : ℤ × ℤ) : Decidable (rules.OnBoard pixel) :=
  inferInstanceAs (Decidable (_ ∧ _))

theorem moved_heading (w : Worm ι K) (h : 0 ≤ w.heading ∧ w.heading < 360) :
    0 ≤ (rules.moved w).heading ∧ (rules.moved w).heading < 360 := by
  rw [moved]
  cases w.turnDirection with
  | straight => exact h
  | right => exact ⟨Int.emod_nonneg _ (by decide), Int.emod_lt_of_pos _ (by decide)⟩
  | left => exact ⟨Int.emod_nonneg _ (by decide), Int.emod_lt_of_pos _ (by decide)⟩

end Rules

variable [LinearOrder K] [FloorRing K]

/-- The pixel that contains the position of a worm. -/
def Worm.pixel (w : Worm ι K) : ℤ × ℤ := (⌊w.position.1⌋, ⌊w.position.2⌋)

namespace Rules

variable (rules : Rules K)

/-- The worms move one after another, until less than two are left. -/
def moves : ℕ → Finset (ℤ × ℤ) → List (Worm ι K) → Outcome ι K
  | left, eaten, [] => ⟨[], eaten, [], left⟩
  | left, eaten, w :: ws =>
    if left < 2 then ⟨[], eaten, w :: ws, left⟩
    else
      let moved := rules.moved w
      if moved.pixel = w.pixel then (moves left eaten ws).after [] [moved]
      else if moved.pixel ∈ eaten ∨ ¬rules.OnBoard moved.pixel then
        (moves (left - 1) eaten ws).after [.playerEliminated w.number] []
      else (moves left (insert moved.pixel eaten) ws).after [.pixel w.number moved.pixel] [moved]

/-- A turn: the game is over once less than two worms are left. -/
def turn (eaten : Finset (ℤ × ℤ)) (ws : List (Worm ι K)) : Outcome ι K :=
  let o := rules.moves ws.length eaten ws
  if o.left < 2 then { o with events := o.events ++ [.gameOver] } else o

variable {rules}

theorem moves_of_over {left : ℕ} {eaten : Finset (ℤ × ℤ)} {ws : List (Worm ι K)} (h : left < 2) :
    rules.moves left eaten ws = ⟨[], eaten, ws, left⟩ := by
  cases ws with
  | nil => rfl
  | cons w ws => exact if_pos h

section Step

variable {left : ℕ} {eaten : Finset (ℤ × ℤ)} {w : Worm ι K} (ws : List (Worm ι K))

/-- A worm that stays on its pixel. -/
theorem moves_stays (hleft : 2 ≤ left) (hsame : (rules.moved w).pixel = w.pixel) :
    rules.moves left eaten (w :: ws) =
      (rules.moves left eaten ws).after [] [rules.moved w] := by
  rw [moves, if_neg (not_lt.mpr hleft)]
  exact if_pos hsame

/-- A worm that runs into an eaten pixel, or leaves the board. -/
theorem moves_eliminated (hleft : 2 ≤ left) (hsame : (rules.moved w).pixel ≠ w.pixel)
    (hout : (rules.moved w).pixel ∈ eaten ∨ ¬rules.OnBoard (rules.moved w).pixel) :
    rules.moves left eaten (w :: ws) =
      (rules.moves (left - 1) eaten ws).after [.playerEliminated w.number] [] := by
  rw [moves, if_neg (not_lt.mpr hleft)]
  exact (if_neg hsame).trans (if_pos hout)

/-- A worm that eats a pixel. -/
theorem moves_eats (hleft : 2 ≤ left) (hsame : (rules.moved w).pixel ≠ w.pixel)
    (hfree : (rules.moved w).pixel ∉ eaten) (hin : rules.OnBoard (rules.moved w).pixel) :
    rules.moves left eaten (w :: ws) =
      (rules.moves left (insert (rules.moved w).pixel eaten) ws).after
        [.pixel w.number (rules.moved w).pixel] [rules.moved w] := by
  rw [moves, if_neg (not_lt.mpr hleft)]
  exact (if_neg hsame).trans (if_neg fun hout => hout.elim hfree fun hnot => hnot hin)

end Step

theorem turn_of_over {eaten : Finset (ℤ × ℤ)} {ws : List (Worm ι K)}
    (h : (rules.moves ws.length eaten ws).left < 2) :
    rules.turn eaten ws = { rules.moves ws.length eaten ws with
      events := (rules.moves ws.length eaten ws).events ++ [.gameOver] } :=
  if_pos h

theorem turn_of_running {eaten : Finset (ℤ × ℤ)} {ws : List (Worm ι K)}
    (h : ¬(rules.moves ws.length eaten ws).left < 2) :
    rules.turn eaten ws = rules.moves ws.length eaten ws :=
  if_neg h

/-- The count of the worms is kept: `k` worms are in the game besides those listed. -/
theorem left_moves_add : ∀ {ws : List (Worm ι K)} {left k : ℕ} {eaten : Finset (ℤ × ℤ)},
    left = ws.length + k →
    (rules.moves left eaten ws).left = (rules.moves left eaten ws).worms.length + k
  | [], left, k, eaten => fun h => h
  | w :: ws, left, k, eaten => fun h => by
    have hlen : left = ws.length + (k + 1) := by rw [h, List.length_cons]; omega
    rw [moves]
    split
    · exact h
    · simp only
      split
      · have ih : (rules.moves left eaten ws).left =
            (rules.moves left eaten ws).worms.length + (k + 1) := left_moves_add hlen
        simp only [Outcome.after, List.singleton_append, List.length_cons]
        omega
      · split
        · exact left_moves_add (by omega)
        · have ih : (rules.moves left (insert (rules.moved w).pixel eaten) ws).left =
              (rules.moves left (insert (rules.moved w).pixel eaten) ws).worms.length + (k + 1) :=
            left_moves_add hlen
          simp only [Outcome.after, List.singleton_append, List.length_cons]
          omega

theorem left_moves (eaten : Finset (ℤ × ℤ)) (ws : List (Worm ι K)) :
    (rules.moves ws.length eaten ws).left = (rules.moves ws.length eaten ws).worms.length :=
  left_moves_add (Nat.add_zero _).symm

/-- Headings stay below 360 degrees. -/
theorem heading_moves : ∀ {ws : List (Worm ι K)} {left : ℕ} {eaten : Finset (ℤ × ℤ)},
    (∀ w ∈ ws, 0 ≤ w.heading ∧ w.heading < 360) →
    ∀ w ∈ (rules.moves left eaten ws).worms, 0 ≤ w.heading ∧ w.heading < 360
  | [], _, _, _ => fun w hw => absurd hw List.not_mem_nil
  | w :: ws, left, eaten, h => by
    obtain ⟨hfirst, hrest⟩ := List.forall_mem_cons.mp h
    have hmoved := rules.moved_heading w hfirst
    rw [moves]
    split
    · exact h
    · simp only
      split
      · exact List.forall_mem_cons.mpr ⟨hmoved, heading_moves hrest⟩
      · split
        · exact heading_moves hrest
        · exact List.forall_mem_cons.mpr ⟨hmoved, heading_moves hrest⟩

end Rules

end Rules

/-! ## Exact arithmetic -/

variable {K : Type} [Field K] [LinearOrder K] [FloorRing K]

/-- The numbers are exact, and no displacement is longer than 1 along either axis. The conversion to
`uint16_t` is the floor of a number that fits, and anything otherwise. -/
structure Platform.Exact (pf : Platform K) : Prop where
  centre : ∀ r < 2 ^ 16, pf.centre r = r + 1 / 2
  add : ∀ x y, pf.add x y = x + y
  isNegative : ∀ x, pf.isNegative x = true ↔ x < 0
  toUInt16 : ∀ x, 0 ≤ x → x < 2 ^ 16 → (pf.toUInt16 x : ℤ) = ⌊x⌋
  cos : ∀ d < 360, |pf.cos d| ≤ 1
  sin : ∀ d < 360, |pf.sin d| ≤ 1

/-- The board and the turning speed are as large as the server allows. -/
structure GameState.WithinLimits {D : Type} (g : GameState D) : Prop where
  maxx_mem : 16 ≤ g.maxx ∧ g.maxx ≤ 4096
  maxy_mem : 16 ≤ g.maxy ∧ g.maxy ≤ 4096
  turningSpeed_mem : 1 ≤ g.turningSpeed ∧ g.turningSpeed ≤ 90

/-- The worm of a player, as the rules see it. -/
def Player.asWorm {D : Type} (p : Player D) (number : ℕ) : Worm PlayerName D where
  player := p.playerName
  number := number
  position := p.coords
  heading := p.movementDirection
  turnDirection := p.turnDirection

/-- The rules of the games of a game manager. -/
def GameState.rules {D : Type} (pf : Platform D) (g : GameState D) : Rules D where
  turningSpeed := g.turningSpeed
  maxx := g.maxx
  maxy := g.maxy
  shift heading := (pf.cos heading.toNat, pf.sin heading.toNat)

/-- A pixel among unbounded integers. -/
def wide (pixel : ℕ × ℕ) : ℤ × ℤ := (pixel.1, pixel.2)

theorem wide_injective : Function.Injective wide := fun _ _ h =>
  Prod.ext (Int.ofNat.inj (congrArg Prod.fst h)) (Int.ofNat.inj (congrArg Prod.snd h))

/-- A pixel of the code is on the board if its coordinates are small enough. -/
theorem GameState.onBoard_wide {D : Type} (pf : Platform D) (g : GameState D) (pixel : ℕ × ℕ) :
    (g.rules pf).OnBoard (wide pixel) ↔ pixel.1 < g.maxx ∧ pixel.2 < g.maxy := by
  simp only [Rules.OnBoard, GameState.rules, wide]
  omega

/-- **The invariant of a worm**: its pixel is the one that contains its position, and is on the
board. -/
structure Player.Positioned (maxx maxy : ℕ) (p : Player K) : Prop where
  pixel_eq : wide p.pixel = (⌊p.coords.1⌋, ⌊p.coords.2⌋)
  pixel_lt : p.pixel.1 < maxx ∧ p.pixel.2 < maxy
  heading_lt : p.movementDirection < 360

/-! ## A move -/

section Moves

variable {pf : Platform K} {g : GameState K} {p : Player K}

theorem Player.Positioned.asWorm_pixel (hp : p.Positioned g.maxx g.maxy) (number : ℕ) :
    (p.asWorm number).pixel = wide p.pixel := hp.pixel_eq.symm

/-- The move of the code is that of the rules. -/
theorem Player.asWorm_advance (hpf : pf.Exact) (hlim : g.WithinLimits) (p : Player K) (number : ℕ) :
    (p.advance pf g.turningSpeed).asWorm number = (g.rules pf).moved (p.asWorm number) := by
  obtain ⟨-, hspeed⟩ := hlim.turningSpeed_mem
  have hleft : (((p.movementDirection + 360 - g.turningSpeed) % 360 : ℕ) : ℤ) =
      ((p.movementDirection : ℤ) - g.turningSpeed) % 360 := by
    rw [Int.natCast_mod, Int.natCast_sub (by omega)]
    omega
  have hright : (((p.movementDirection + g.turningSpeed) % 360 : ℕ) : ℤ) =
      ((p.movementDirection : ℤ) + g.turningSpeed) % 360 := by
    rw [Int.natCast_mod, Int.natCast_add]
    rfl
  cases hturn : p.turnDirection with
  | straight =>
    simp only [Player.asWorm, Player.advance, Rules.moved, GameState.rules, hturn, hpf.add]
    rfl
  | right =>
    simp only [Player.asWorm, Player.advance, Rules.moved, GameState.rules, hturn, hpf.add,
      ← hright]
    rfl
  | left =>
    simp only [Player.asWorm, Player.advance, Rules.moved, GameState.rules, hturn, hpf.add, ← hleft]
    rfl

theorem Player.Positioned.advance_heading_lt (pf : Platform K) (hp : p.Positioned g.maxx g.maxy)
    (turningSpeed : ℕ) : (p.advance pf turningSpeed).movementDirection < 360 := by
  rw [Player.advance]
  have hlt := hp.heading_lt
  cases p.turnDirection <;> simp only <;> omega

variable [IsStrictOrderedRing K]

/-- A worm that is on the board stays well within 16 bits when it moves. -/
theorem Player.Positioned.advance_lt (hpf : pf.Exact) (hlim : g.WithinLimits)
    (hp : p.Positioned g.maxx g.maxy) :
    (p.advance pf g.turningSpeed).coords.1 < 2 ^ 16 ∧
      (p.advance pf g.turningSpeed).coords.2 < 2 ^ 16 := by
  have hheading := hp.advance_heading_lt pf g.turningSpeed
  have within : ∀ {x d : K} {n max : ℕ}, ⌊x⌋ = n → n < max → max ≤ 4096 → |d| ≤ 1 →
      pf.add x d < 2 ^ 16 := by
    intro x d n max hfloor hn hmax hd
    have hx : x < n + 1 := by
      have hlt := Int.lt_floor_add_one x
      rwa [hfloor, Int.cast_natCast] at hlt
    have hle : (n : K) ≤ 4095 := by
      have hnat : n ≤ 4095 := by omega
      exact_mod_cast hnat
    rw [hpf.add]
    have hd' := (abs_le.mp hd).2
    linarith
  have hpixel := Prod.mk.inj hp.pixel_eq
  exact ⟨within hpixel.1.symm hp.pixel_lt.1 hlim.maxx_mem.2 (hpf.cos _ hheading),
    within hpixel.2.symm hp.pixel_lt.2 hlim.maxy_mem.2 (hpf.sin _ hheading)⟩

/-- A cast of a coordinate that is not negative yields its floor. -/
theorem Player.Positioned.toUInt16_advance (hpf : pf.Exact) (hlim : g.WithinLimits)
    (hp : p.Positioned g.maxx g.maxy)
    (hx : 0 ≤ (p.advance pf g.turningSpeed).coords.1)
    (hy : 0 ≤ (p.advance pf g.turningSpeed).coords.2) (number : ℕ) :
    wide (pf.toUInt16 (p.advance pf g.turningSpeed).coords.1,
      pf.toUInt16 (p.advance pf g.turningSpeed).coords.2) =
        ((p.advance pf g.turningSpeed).asWorm number).pixel := by
  obtain ⟨hx', hy'⟩ := hp.advance_lt hpf hlim
  exact Prod.ext (hpf.toUInt16 _ hx hx') (hpf.toUInt16 _ hy hy')

/-- What the rules say of a worm that has moved. -/
def Verdict.Follows (rules : Rules K) (eaten : Finset (ℤ × ℤ)) (w moved : Worm PlayerName K) :
    Verdict → Prop
  | .stays => moved.pixel = w.pixel
  | .eliminated => moved.pixel ≠ w.pixel ∧ (moved.pixel ∈ eaten ∨ ¬rules.OnBoard moved.pixel)
  | .eats pixel => moved.pixel = wide pixel ∧ moved.pixel ≠ w.pixel ∧ moved.pixel ∉ eaten ∧
    rules.OnBoard moved.pixel

/-- **The checks of the code come to what the rules say.** -/
theorem Player.Positioned.advance_verdict (hpf : pf.Exact) (hlim : g.WithinLimits)
    (hp : p.Positioned g.maxx g.maxy) (eatenPixels : Finset (ℕ × ℕ)) (number : ℕ) :
    ((p.advance pf g.turningSpeed).verdict pf g.maxx g.maxy eatenPixels).Follows (g.rules pf)
      (eatenPixels.image wide) (p.asWorm number) ((g.rules pf).moved (p.asWorm number)) := by
  rw [← Player.asWorm_advance hpf hlim]
  have hcast := fun hx hy => hp.toUInt16_advance hpf hlim hx hy number
  have hpixel : (p.advance pf g.turningSpeed).pixel = p.pixel := rfl
  generalize p.advance pf g.turningSpeed = q at hcast hpixel ⊢
  rw [Player.verdict]
  by_cases hneg : (pf.isNegative q.coords.1 || pf.isNegative q.coords.2) = true
  · -- a negative coordinate is off the board, and the worm was on it
    rw [if_pos hneg]
    rw [Bool.or_eq_true, hpf.isNegative, hpf.isNegative] at hneg
    have hout : (q.asWorm number).pixel.1 < 0 ∨ (q.asWorm number).pixel.2 < 0 :=
      hneg.imp (fun h => Int.floor_lt.mpr (by rwa [Int.cast_zero])) fun h =>
        Int.floor_lt.mpr (by rwa [Int.cast_zero])
    refine ⟨fun heq => ?_, Or.inr fun hin => ?_⟩
    · rw [heq, hp.asWorm_pixel] at hout
      simp only [wide] at hout
      omega
    · rw [Rules.OnBoard] at hin
      omega
  · rw [if_neg hneg]
    rw [Bool.or_eq_true, hpf.isNegative, hpf.isNegative, not_or, not_lt, not_lt] at hneg
    have hmoved := hcast hneg.1 hneg.2
    have hwas := hp.asWorm_pixel number
    rw [← hpixel] at hwas
    generalize pf.toUInt16 q.coords.1 = x at hmoved ⊢
    generalize pf.toUInt16 q.coords.2 = y at hmoved ⊢
    have hstays : wide (x, y) = wide q.pixel ↔ x = q.pixel.1 ∧ y = q.pixel.2 := by
      rw [wide_injective.eq_iff, Prod.ext_iff]
    have heaten : wide (x, y) ∈ eatenPixels.image wide ↔ (x, y) ∈ eatenPixels :=
      wide_injective.mem_finset_image
    have hboard := g.onBoard_wide pf (x, y)
    by_cases hsame : x = q.pixel.1 ∧ y = q.pixel.2
    · simp only [if_pos hsame, Verdict.Follows, ← hmoved, hwas]
      exact hstays.mpr hsame
    · have hother := mt hstays.mp hsame
      by_cases hout : x ≥ g.maxx ∨ y ≥ g.maxy ∨ (x, y) ∈ eatenPixels
      · simp only [if_neg hsame, if_pos hout, Verdict.Follows, ← hmoved, hwas]
        refine ⟨hother, ?_⟩
        rw [heaten, hboard]
        rcases hout with hx | hy | hin
        · exact Or.inr fun hon => absurd hon.1 (not_lt.mpr hx)
        · exact Or.inr fun hon => absurd hon.2 (not_lt.mpr hy)
        · exact Or.inl hin
      · simp only [if_neg hsame, if_neg hout, Verdict.Follows, ← hmoved, hwas]
        refine ⟨trivial, hother, ?_, ?_⟩
        · rw [heaten]
          exact fun hin => hout (Or.inr (Or.inr hin))
        · rw [hboard]
          omega

/-- A worm that goes on is positioned after its move, on the pixel it has eaten or on the one it was
on. -/
theorem Player.Positioned.advance_stays (hpf : pf.Exact) (hlim : g.WithinLimits)
    (hp : p.Positioned g.maxx g.maxy) {eatenPixels : Finset (ℕ × ℕ)}
    (hv : (p.advance pf g.turningSpeed).verdict pf g.maxx g.maxy eatenPixels = .stays) :
    (p.advance pf g.turningSpeed).Positioned g.maxx g.maxy where
  pixel_eq := by
    have hsame := hp.advance_verdict hpf hlim eatenPixels 0
    rw [hv, ← Player.asWorm_advance hpf hlim] at hsame
    exact ((hp.asWorm_pixel 0).symm.trans hsame.symm)
  pixel_lt := hp.pixel_lt
  heading_lt := hp.advance_heading_lt pf _

theorem Player.Positioned.advance_eats (hpf : pf.Exact) (hlim : g.WithinLimits)
    (hp : p.Positioned g.maxx g.maxy) {eatenPixels : Finset (ℕ × ℕ)} {pixel : ℕ × ℕ}
    (hv : (p.advance pf g.turningSpeed).verdict pf g.maxx g.maxy eatenPixels = .eats pixel) :
    ({ p.advance pf g.turningSpeed with pixel := pixel } : Player K).Positioned g.maxx g.maxy where
  pixel_eq := by
    have hnew := hp.advance_verdict hpf hlim eatenPixels 0
    rw [hv, ← Player.asWorm_advance hpf hlim] at hnew
    exact hnew.1.symm
  pixel_lt := by
    obtain ⟨hx, hy, -⟩ := Player.verdict_eats hv
    exact ⟨hx, hy⟩
  heading_lt := hp.advance_heading_lt pf _

/-! ## The start of a game -/

theorem Platform.Exact.floor_centre (hpf : pf.Exact) {r : ℕ} (hr : r < 2 ^ 16) :
    ⌊pf.centre r⌋ = r := by
  have hhalf : ⌊(1 / 2 : K)⌋ = 0 := Int.floor_eq_zero_iff.mpr ⟨by linarith, by linarith⟩
  rw [hpf.centre r hr, Int.floor_natCast_add, hhalf, add_zero]

/-- A worm starts in the middle of the pixel that the cast yields. -/
theorem Platform.Exact.centred (hpf : pf.Exact) : pf.Centred := by
  intro r hr
  have hlt : ((r : K) + 1) ≤ 2 ^ 16 := by exact_mod_cast hr
  have hpos : (0 : K) ≤ r := Nat.cast_nonneg r
  have hcentre := hpf.centre r hr
  have hcast := hpf.toUInt16 (pf.centre r) (by linarith) (by linarith)
  rw [hpf.floor_centre hr] at hcast
  exact Int.ofNat.inj hcast

theorem Player.positioned_placed (hpf : pf.Exact) (hlim : g.WithinLimits) (rng : RNG)
    (p : Player K) : (p.placed pf g.maxx g.maxy rng).1.Positioned g.maxx g.maxy := by
  have within : ∀ {r max : ℕ}, 16 ≤ max ∧ max ≤ 4096 → r % max < max ∧ r % max < 2 ^ 16 := by
    intro r max hmax
    have hlt : r % max < max := Nat.mod_lt r (by omega)
    omega
  refine ⟨?_, ?_, Nat.mod_lt _ (by decide)⟩
  · simp only [Player.placed, wide, hpf.centred _ (within hlim.maxx_mem).2,
      hpf.centred _ (within hlim.maxy_mem).2, hpf.floor_centre (within hlim.maxx_mem).2,
      hpf.floor_centre (within hlim.maxy_mem).2]
  · simp only [Player.placed, hpf.centred _ (within hlim.maxx_mem).2,
      hpf.centred _ (within hlim.maxy_mem).2]
    exact ⟨(within hlim.maxx_mem).1, (within hlim.maxy_mem).1⟩

end Moves

/-! ## The worms of a game manager -/

/-- The worms that are in the game are positioned. -/
def GameState.Positions (g : GameState K) : Prop :=
  g.WithinLimits → ∀ name p, g.players.find? name = some p → p.isAlive = true →
    p.Positioned g.maxx g.maxy

/-- Nothing that the rules depend on is changed. -/
structure GameState.SameBoard {D : Type} (g g' : GameState D) : Prop where
  maxx : g'.maxx = g.maxx
  maxy : g'.maxy = g.maxy
  turningSpeed : g'.turningSpeed = g.turningSpeed

theorem GameState.SameBoard.withinLimits {D : Type} {g g' : GameState D} (h : g.SameBoard g') :
    g'.WithinLimits ↔ g.WithinLimits := by
  constructor
  · exact fun hlim => ⟨h.maxx ▸ hlim.maxx_mem, h.maxy ▸ hlim.maxy_mem,
      h.turningSpeed ▸ hlim.turningSpeed_mem⟩
  · exact fun hlim => ⟨h.maxx ▸ hlim.maxx_mem, h.maxy ▸ hlim.maxy_mem,
      h.turningSpeed ▸ hlim.turningSpeed_mem⟩

theorem GameState.SameBoard.rules_eq {D : Type} {g g' : GameState D} (h : g.SameBoard g')
    (pf : Platform D) : g'.rules pf = g.rules pf := by
  rw [GameState.rules, GameState.rules, h.maxx, h.maxy, h.turningSpeed]

namespace GameState

variable {g g' : GameState K}

theorem Positions.of_players (h : g.Positions) (hsame : g.SameBoard g')
    (hp : ∀ name q, g'.players.find? name = some q → q.isAlive = true →
      (g.WithinLimits → q.Positioned g.maxx g.maxy) ∨
      ∃ p, g.players.find? name = some p ∧ p.isAlive = true ∧ q.coords = p.coords ∧
        q.pixel = p.pixel ∧ q.movementDirection = p.movementDirection) : g'.Positions := by
  intro hlim' name q hq halive
  have hlim := hsame.withinLimits.mp hlim'
  rw [hsame.maxx, hsame.maxy]
  rcases hp name q hq halive with hnew | ⟨p, hfind, hpalive, hcoords, hpixel, hheading⟩
  · exact hnew hlim
  · have hpos := h hlim name p hfind hpalive
    refine ⟨?_, hpixel ▸ hpos.pixel_lt, hheading ▸ hpos.heading_lt⟩
    rw [hpixel, hcoords]
    exact hpos.pixel_eq

theorem Positions.of_players_eq (h : g.Positions) (hsame : g.SameBoard g')
    (hplayers : g'.players = g.players) : g'.Positions :=
  h.of_players hsame fun _ q hq halive =>
    Or.inr ⟨q, hplayers ▸ hq, halive, rfl, rfl, rfl⟩

/-- Writing through a reference to a player. -/
theorem Positions.adjust (h : g.Positions) (hsame : g.SameBoard g') {name : PlayerName}
    {q : Player K} (hplayers : g'.players = g.players.adjust name fun _ => q)
    (hq : g.WithinLimits → q.isAlive = true → q.Positioned g.maxx g.maxy) : g'.Positions := by
  refine h.of_players hsame fun n r hr halive => ?_
  rw [hplayers, SortedMap.find?_adjust, Option.map_eq_some_iff] at hr
  obtain ⟨r', hr', rfl⟩ := hr
  by_cases hn : n = name
  · rw [if_pos hn] at halive ⊢
    exact Or.inl fun hlim => hq hlim halive
  · rw [if_neg hn] at halive ⊢
    exact Or.inr ⟨r', hr', halive, rfl, rfl, rfl⟩

theorem Positions.staying (h : g.Positions) (hsame : g.SameBoard g')
    (hplayers : g'.players = GameTask.staying g.players) : g'.Positions := by
  refine h.of_players hsame fun n q hq halive => ?_
  rw [hplayers] at hq
  obtain ⟨p, hp, -, rfl⟩ := GameTask.find?_staying.mp hq
  exact Or.inr ⟨p, hp, halive, rfl, rfl, rfl⟩

theorem Positions.markDisconnected (h : g.Positions) (hsame : g.SameBoard g') {f : Fingerprint}
    (hplayers : g'.players = GameTask.markDisconnected f g.players) : g'.Positions := by
  refine h.of_players hsame fun n q hq halive => ?_
  rw [hplayers] at hq
  obtain ⟨p, hp, rfl⟩ := GameTask.find?_markDisconnected_eq_some.mp hq
  by_cases hn : (GameTask.firstPlayerOf f g.players).map Prod.fst = some n
  · rw [if_pos hn] at halive ⊢
    exact Or.inr ⟨p, hp, halive, rfl, rfl, rfl⟩
  · rw [if_neg hn] at halive ⊢
    exact Or.inr ⟨p, hp, halive, rfl, rfl, rfl⟩

end GameState

/-! ### Operations -/

open GameTask

namespace GameState

variable {pf : Platform K} {g g' : GameTask K}

theorem Positions.endGame (h : g.toGameState.Positions) : g.endGame.toGameState.Positions := by
  rw [endGame_eq]
  exact h.staying ⟨rfl, rfl, rfl⟩ rfl

theorem Positions.dropConnection (h : g.toGameState.Positions) (f : Fingerprint) :
    (g.dropConnection f).toGameState.Positions := by
  by_cases hw : f ∈ g.watchers
  · rw [dropConnection_of_watcher hw]
    exact h.of_players_eq ⟨rfl, rfl, rfl⟩ rfl
  · cases hs : g.gameStarted with
    | true =>
      rw [dropConnection_of_running hw hs]
      exact h.markDisconnected ⟨rfl, rfl, rfl⟩ rfl
    | false =>
      rw [dropConnection_of_lobby hw hs]
      have hmarked : ({ g.toGameState with
          players := GameTask.markDisconnected f g.players } : GameState K).Positions :=
        h.markDisconnected ⟨rfl, rfl, rfl⟩ rfl
      exact hmarked.staying ⟨rfl, rfl, rfl⟩ rfl

theorem Positions.joined (h : g.toGameState.Positions) (f : Fingerprint)
    {msg : ClientToServerMessage} (hnew : msg.playerName ∉ g.players) :
    (g.joined pf f msg).toGameState.Positions := by
  refine h.of_players ⟨rfl, rfl, rfl⟩ fun n q hq halive => ?_
  have hfind : (g.players.insert msg.playerName (.joining pf g.gameStarted f msg)).find? n =
      some q := hq
  rw [SortedMap.find?_insert hnew] at hfind
  split at hfind
  · -- a new player has no worm yet
    cases hfind
    cases halive
  · exact Or.inr ⟨q, hfind, halive, rfl, rfl, rfl⟩

variable [IsStrictOrderedRing K]

/-- A worm moves. -/
theorem Positions.moveWorm (h : g.toGameState.Positions) (hpf : pf.Exact)
    (hsound : g.toGameState.Sound) {name : PlayerName} {p : Player K} {flow : Flow}
    (hp : g.players.find? name = some p) (hbody : GameTask.moveWorm pf name p g = .ok (flow, g')) :
    g'.toGameState.Positions := by
  refine hsound.moveWorm_induction (J := fun g => g.toGameState.Positions) hp h
    (fun halive hv => ?_) (fun no pixel halive _ hv => ?_) (fun no _ => ?_)
    (fun _ hgone => hgone.endGame) hbody
  · exact h.adjust ⟨rfl, rfl, rfl⟩ rfl fun hlim _ =>
      (h hlim name p hp halive).advance_stays hpf hlim hv
  · exact h.adjust ⟨rfl, rfl, rfl⟩ rfl fun hlim _ =>
      (h hlim name p hp halive).advance_eats hpf hlim hv
  · exact h.adjust ⟨rfl, rfl, rfl⟩ rfl fun _ hq => by simp [Player.isAlive] at hq

/-- A worm is put on the board. -/
theorem Positions.placePlayer (h : g.toGameState.Positions) (hpf : pf.Exact) {name : PlayerName}
    {names : List PlayerName} (hpl : g.toGameState.Placing (name :: names)) {p : Player K}
    {flow : Flow} (hp : g.players.find? name = some p)
    (hbody : GameTask.placePlayer pf name p g = .ok (flow, g')) : g'.toGameState.Positions := by
  obtain ⟨no, hno⟩ := hpl.toOrderly.number hpl.started hp (by simp)
  cases hplaced : p.placed pf g.maxx g.maxy g.rng with
  | mk placed rng =>
    have hpos : g.WithinLimits → placed.Positioned g.maxx g.maxy := fun hlim => by
      have hall := p.positioned_placed hpf hlim g.rng
      rwa [hplaced] at hall
    have hgone : (eliminated name placed no { g with rng := rng }).toGameState.Positions :=
      h.adjust ⟨rfl, rfl, rfl⟩ rfl fun _ hq => by simp [Player.isAlive] at hq
    rcases placePlayer_cases name hpl.started hno hplaced with
      ⟨-, heq⟩ | ⟨-, -, heq⟩ | ⟨-, -, heq⟩ <;> rw [heq] at hbody <;> cases hbody
    · exact h.adjust ⟨rfl, rfl, rfl⟩ rfl fun hlim _ => hpos hlim
    · exact hgone
    · exact hgone.endGame

theorem Positions.startGame (h : g.toGameState.Positions) (hpf : pf.Exact)
    (ho : g.toGameState.Orderly []) (hs : g.gameStarted = false)
    (hcan : canStartGame g.players = true) (hstart : g.startGame pf = .ok g') :
    g'.toGameState.Positions := by
  refine ho.startGame_induction (J := fun _ g₁ => g₁.toGameState.Positions) hs hcan
    (h.of_players_eq ⟨rfl, rfl, rfl⟩ rfl) ?_ ?_ (fun g₁ h₁ => h₁) hstart
  · exact fun name names g₁ p g₂ hpl h₁ hp hb => h₁.placePlayer hpf hpl hp hb
  · exact fun name names g₁ p g₂ hpl h₁ hp hb => h₁.placePlayer hpf hpl hp hb

end GameState

/-- **The worms are positioned** whatever is done with a game manager. -/
theorem gameMachine_positioned [IsStrictOrderedRing K] {pf : Platform K} (hpf : pf.Exact) :
    (gameMachine pf).Invariant fun g => g.toGameState.Positions where
  init g hg := by
    obtain ⟨-, rngSeed, turningSpeed, maxx, maxy, unsetAlive, heq⟩ := hg
    rw [heq]
    intro _ name p hp
    cases hp
  step g op g' hreach h hstep := by
    obtain ⟨g₁, hrun, rfl⟩ := gameMachine_step_eq_ok.mp hstep
    have hsound := (gameMachine_sound pf).reachable hreach
    have hall : g₁.toGameState.Positions :=
      GameState.Sound.run_induction (g := { g with calls := [] })
        (I := fun g => g.toGameState.Positions) (fun _ f _ h => h.dropConnection f)
        (fun g f msg _ h => ?_) (fun g msg p _ hp h => ?_)
        (fun _ f _ _ hnew h => h.joined f hnew)
        (fun _ _ ho hs hcan h hstart => h.startGame hpf ho hs hcan hstart)
        (fun _ _ _ _ _ hsound hp h hb => h.moveWorm hpf hsound hp hb) hsound h hrun
    exact hall
    · obtain ⟨watchers, calls, heq, -⟩ := exists_handleMessageFromWatcher f msg g
      rw [heq]
      exact h.of_players_eq ⟨rfl, rfl, rfl⟩ rfl
    · exact h.adjust ⟨rfl, rfl, rfl⟩ rfl fun hlim halive => by
        have hpos := h hlim _ p hp halive
        exact ⟨hpos.pixel_eq, hpos.pixel_lt, hpos.heading_lt⟩

end ScreenWorms
