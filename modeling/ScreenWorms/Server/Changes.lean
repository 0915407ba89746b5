import Mathlib.Logic.Relation
import ScreenWorms.Server.GameInvariant

/-!
# The changes an operation is made of

Every public operation of the game manager is a sequence of a few kinds of changes: a socket is
dropped, a watcher's message is handled, a player is updated or joins, a game is prepared, a worm
moves, eats, is eliminated. `run_changes` says so once; what holds of the calls an operation makes
is then shown for one change at a time.

## Main definitions

* `GameTask.Change`, `GameTask.Changes`

## Main results

* `GameTask.Changes.induction` — what every change keeps, a sequence of changes keeps
* `GameState.Sound.run_changes` — every operation is a sequence of changes
-/

namespace ScreenWorms

variable {D : Type}

open GameTask

/-- The socket an operation is about. -/
def GameOp.sender : GameOp → Option Fingerprint
  | .message f _ => some f
  | .drop f => some f
  | .turn => none

namespace GameTask

/-! ## Changes -/

/-- One change that an operation makes. -/
inductive Change (op : GameOp) : GameTask D → GameTask D → Prop
  | drop {g f} : op.sender = some f → Change op g (g.dropConnection f)
  | watcher {g f msg} : op = .message f msg → Change op g (g.handleMessageFromWatcher f msg)
  | answered {g f msg p} : op = .message f msg → g.players.find? msg.playerName = some p →
    p.fingerprint = f → Change op g (g.answered msg p)
  | joined {g f msg} (pf : Platform D) : op = .message f msg → msg.playerName ∉ g.players →
    Change op g (g.joined pf f msg)
  | prepared {g} : g.gameStarted = false → canStartGame g.players = true →
    Change op g g.prepareGame
  | moved {g name p q} : g.players.find? name = some p → p.SameClient q →
    Change op g (g.setPlayer name q)
  | ate {g name p q no} (rng : RNG) : g.gameStarted = true → g.players.find? name = some p →
    p.SameClient q →
    Change op g (ate name q no { g with rng := rng })
  | eliminated {g name p q no} (rng : RNG) : g.gameStarted = true → g.players.find? name = some p →
    p.SameClient q →
    Change op g (eliminated name q no { g with rng := rng })
  | ended {g name p q no} (rng : RNG) : g.gameStarted = true → g.players.find? name = some p →
    p.SameClient q →
    Change op g (eliminated name q no { g with rng := rng }).endGame

/-- A sequence of changes. What is registered is in order before each of them. -/
def Changes (op : GameOp) : GameTask D → GameTask D → Prop :=
  Relation.ReflTransGen fun g g' => g.toGameState.Registered ∧ Change op g g'

/-- What every change keeps, a sequence of changes keeps. -/
theorem Changes.induction {op : GameOp} {I : GameTask D → Prop} {g g' : GameTask D}
    (hchange : ∀ g₁ g₂, g₁.toGameState.Registered → Change op g₁ g₂ → I g₁ → I g₂)
    (h : Changes op g g') (hI : I g) : I g' := by
  induction h with
  | refl => exact hI
  | tail _ hstep ih => exact hchange _ _ hstep.1 hstep.2 ih

end GameTask

namespace GameState

theorem Sound.moveWorm_change {pf : Platform D} {op : GameOp} {g g' : GameTask D}
    (h : g.toGameState.Sound) {name : PlayerName} {p : Player D} {flow : Flow}
    (hp : g.players.find? name = some p) (hbody : GameTask.moveWorm pf name p g = .ok (flow, g')) :
    Changes op g g' := by
  rcases moveWorm_cases pf name fun hs ha =>
      h.toOrderly.number hs hp (by simp [ha]) with
    ⟨-, heq⟩ | ⟨-, -, heq⟩ | ⟨hs, -, moved, no, hsame, -, -, heq | heq | ⟨-, heq⟩ | ⟨-, heq⟩⟩ <;>
      rw [heq] at hbody <;> cases hbody
  · exact .refl
  · exact .refl
  · exact .single ⟨h.toRegistered, .moved hp hsame⟩
  · exact .single ⟨h.toRegistered, .ate g.rng hs hp hsame⟩
  · exact .single ⟨h.toRegistered, .eliminated g.rng hs hp hsame⟩
  · exact .single ⟨h.toRegistered, .ended g.rng hs hp hsame⟩

theorem Placing.placePlayer_change {pf : Platform D} {op : GameOp} {g g' : GameTask D}
    {name : PlayerName} {names : List PlayerName} (h : g.toGameState.Placing (name :: names))
    {p : Player D} {flow : Flow} (hp : g.players.find? name = some p)
    (hbody : GameTask.placePlayer pf name p g = .ok (flow, g')) : Changes op g g' := by
  obtain ⟨no, hno⟩ := h.toOrderly.number h.started hp (by simp)
  cases hpl : p.placed pf g.maxx g.maxy g.rng with
  | mk placed rng =>
    have hsame := Player.sameClient_placed pf g.maxx g.maxy g.rng p
    rw [hpl] at hsame
    rcases placePlayer_cases name h.started hno hpl with
      ⟨-, heq⟩ | ⟨-, -, heq⟩ | ⟨-, -, heq⟩ <;> rw [heq] at hbody <;> cases hbody
    · exact .single ⟨h.toRegistered, .ate rng h.started hp hsame⟩
    · exact .single ⟨h.toRegistered, .eliminated rng h.started hp hsame⟩
    · exact .single ⟨h.toRegistered, .ended rng h.started hp hsame⟩

/-- What follows once a game is prepared. -/
theorem Orderly.startGame_changes {pf : Platform D} {op : GameOp} {g g' : GameTask D}
    (h : g.toGameState.Orderly []) (hs : g.gameStarted = false)
    (hcan : canStartGame g.players = true) (hstart : GameTask.startGame pf g = .ok g') :
    Changes op g.prepareGame g' := by
  refine h.startGame_induction (J := fun _ g₁ => Changes op g.prepareGame g₁) hs hcan .refl ?_ ?_
    (fun g₁ h₁ => h₁) hstart
  · exact fun name names g₁ p g₂ hpl h₁ hp hb => h₁.trans (hpl.placePlayer_change hp hb)
  · exact fun name names g₁ p g₂ hpl h₁ hp hb => h₁.trans (hpl.placePlayer_change hp hb)

theorem Orderly.startGameIfReady_changes {pf : Platform D} {op : GameOp} {g g' : GameTask D}
    (h : g.toGameState.Orderly []) (hready : GameTask.startGameIfReady pf g = .ok g') :
    Changes op g g' := by
  rcases startGameIfReady_cases hready with rfl | ⟨hs, hcan, hstart⟩
  · exact .refl
  · exact .head ⟨h.toRegistered, .prepared hs hcan⟩ (h.startGame_changes hs hcan hstart)

theorem Sound.dropIfOlder_changes {op : GameOp} {g g' : GameTask D} (h : g.toGameState.Sound)
    {f : Fingerprint} (hop : op.sender = some f) {msg : ClientToServerMessage}
    {names : List PlayerName}
    (hloop : forPlayers (GameTask.dropIfOlder f msg) names g = .ok g') : Changes op g g' :=
  (forPlayers_dropIfOlder_invariant (I := fun g₁ => g₁.toGameState.Sound ∧ Changes op g g₁)
    (fun _ hI => ⟨hI.1.dropConnection f, hI.2.tail ⟨hI.1.toRegistered, .drop hop⟩⟩)
    ⟨h, .refl⟩ hloop).2

/-- **Every operation is a sequence of changes.** -/
theorem Sound.run_changes {pf : Platform D} {op : GameOp} {g g' : GameTask D}
    (h : g.toGameState.Sound) (hop : op.run pf g = .ok g') : Changes op g g' := by
  cases op with
  | drop f =>
    cases hop
    exact .single ⟨h.toRegistered, .drop rfl⟩
  | turn =>
    exact (forPlayers_invariant (I := fun g₁ => g₁.toGameState.Sound ∧ Changes .turn g g₁)
      (fun _ _ _ _ _ hI hp hb => ⟨hI.1.moveWorm hp hb, hI.2.trans (hI.1.moveWorm_change hp hb)⟩)
      ⟨h, .refl⟩ hop).2
  | message f msg =>
    simp only [GameOp.run, GameTask.handleMessage] at hop
    split at hop
    · cases hop
      exact .single ⟨h.toRegistered, .watcher rfl⟩
    · rename_i hname
      rcases handleMessageFromPlayer_cases hop with
        ⟨p, hp, hf, hready⟩ | ⟨p, -, -, rfl⟩ | ⟨hnew, g₁, hloop, hend⟩
      · exact .head ⟨h.toRegistered, .answered rfl hp hf⟩
          ((h.answered hp).startGameIfReady_changes hready)
      · exact .refl
      · obtain ⟨hsound, hsub⟩ := h.dropIfOlder hloop
        have hchanges : Changes (.message f msg) g g₁ := h.dropIfOlder_changes rfl hloop
        rcases hend with ⟨-, rfl⟩ | ⟨hsize, hready⟩
        · exact hchanges
        · have hnew₁ : msg.playerName ∉ g₁.players := fun hmem => hnew (hsub _ hmem)
          exact hchanges.trans (.head ⟨hsound.toRegistered, .joined pf rfl hnew₁⟩
            ((hsound.joined pf f hname hnew₁ hsize).startGameIfReady_changes hready))

end GameState

end ScreenWorms
