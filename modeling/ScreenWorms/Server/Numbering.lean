import ScreenWorms.Common.Encoder
import ScreenWorms.Common.NameFields
import ScreenWorms.Server.FixedPoint
import ScreenWorms.Server.GameLog

/-!
# The numbers of the players

The server numbers the players of a game in the order of its map, and sends their names in that
order. A client reads the names back, sorts them, compares, and numbers them again. Both maps say
the same: the number of a player is the place of its name among all names.

## Main definitions

* `SameNumbers` — one map from names to numbers, one from numbers to names
* `NumberedAlike` — a client numbers the players of a game as the server does

## Main results

* `sameNumbers` — the two ways of numbering agree
* `startGame_frame` — placing the worms leaves the numbers alone
* `startGame_numbers` — a client that decodes the `NEW_GAME` of a game numbers its players alike
-/

namespace ScreenWorms

variable {D : Type}

open GameTask

/-- A map from numbers to names has what a map from names to numbers has, and nothing else. -/
def SameNumbers (numbers : SortedMap PlayerName ℕ) (names : SortedMap ℕ PlayerName) : Prop :=
  ∀ no name, names.find? no = some name ↔ numbers.find? name = some no

/-- **The two ways of numbering agree.** -/
theorem sameNumbers {names : List PlayerName} (hnodup : names.Nodup)
    (hlen : names.length ≤ maxPlayers) : SameNumbers (numberPlayers names) (numberNames names) := by
  have hle : names.length ≤ 2 ^ 8 := hlen.trans (by decide)
  intro no name
  rw [find?_numberNames hle]
  constructor
  · exact fun h => find?_numberPlayers hnodup hlen h
  · intro h
    rw [find?_numberPlayers_eq hnodup] at h
    split at h
    · rename_i hmem
      have hlt := List.idxOf_lt_length_of_mem hmem
      rw [toUInt8_of_lt (by omega)] at h
      obtain rfl := Option.some.inj h
      rw [List.getElem?_eq_getElem hlt, List.getElem_idxOf hlt]
    · exact absurd h (by simp)

/-! ## Placing the worms -/

/-- What placing worms leaves alone: the numbers of the players, the id of the game, and the calls
made before. -/
structure GameTask.SameGame (g g' : GameTask D) : Prop where
  playerNumberInGame : g'.playerNumberInGame = g.playerNumberInGame
  gameId : g'.gameId = g.gameId
  calls : g.calls <+: g'.calls

namespace GameTask.SameGame

variable {g g' g'' : GameTask D}

theorem trans (h : g.SameGame g') (h' : g'.SameGame g'') : g.SameGame g'' where
  playerNumberInGame := h'.playerNumberInGame.trans h.playerNumberInGame
  gameId := h'.gameId.trans h.gameId
  calls := h.calls.trans h'.calls

theorem endGame (g : GameTask D) : g.SameGame g.endGame := by
  rw [endGame_eq]
  exact ⟨rfl, rfl, List.prefix_append _ _⟩

end GameTask.SameGame

/-- A player without a number is a fault; one with a number has something of it scheduled. -/
theorem placePlayer_frame {pf : Platform D} {name : PlayerName} {player : Player D}
    {g g' : GameTask D} {flow : Flow} (h : placePlayer pf name player g = .ok (flow, g')) :
    g.SameGame g' := by
  rcases hplaced : player.placed pf g.maxx g.maxy g.rng with ⟨placed, rng⟩
  rw [placePlayer, hplaced] at h
  rcases hno : g.playerNumberInGame.find? placed.playerName with _ | no
  · simp only [eliminatePlayer, emitPlayerEliminatedEvent, emitPixelEvent, playerNo, setPlayer, hno,
      bind, Except.bind] at h
    split at h
    · exact absurd h (by simp)
    · exact absurd h (by simp)
  · have hate := emitPixelEvent_setPlayer name (g := { g with rng := rng }) hno
    have helim := eliminatePlayer_setPlayer name (g := { g with rng := rng }) hno
    have hgone : g.SameGame (eliminated name placed no { g with rng := rng }) :=
      ⟨rfl, rfl, List.prefix_append _ _⟩
    simp only [setPlayer] at hate helim
    simp only [setPlayer, hate, helim, bind, Except.bind, pure, Except.pure] at h
    by_cases heaten : placed.pixel ∈ g.eatenPixels
    · simp only [if_pos heaten] at h
      obtain ⟨-, rfl⟩ := Prod.mk.inj (Except.ok.inj h)
      split
      · exact hgone.trans (.endGame _)
      · exact hgone
    · simp only [if_neg heaten] at h
      obtain ⟨-, rfl⟩ := Prod.mk.inj (Except.ok.inj h)
      exact ⟨rfl, rfl, List.prefix_append _ _⟩

/-- **Placing the worms leaves the numbers alone.** -/
theorem startGame_frame {pf : Platform D} {g g' : GameTask D} (h : g.startGame pf = .ok g') :
    g.prepareGame.SameGame g' :=
  forPlayers_invariant (I := fun g₁ => g.prepareGame.SameGame g₁)
    (fun _ _ _ _ _ hI _ hbody => hI.trans (placePlayer_frame hbody))
    ⟨rfl, rfl, List.prefix_rfl⟩ h

/-! ## The client's side -/

/-- The calls of `startGame`, which leads from `g` to `g'`, begin with the `NEW_GAME` event of the
game. Wherever the record of that event lies in a datagram, it is decoded to an event whose names
are read without an exception, each under the number the server has given it, and nothing else. -/
def NumberedAlike (g g' : GameTask D) : Prop :=
  ∃ (e : EventNewGame) (rest : List MQCall),
    g'.calls = g.calls ++ .schedule g'.gameId (.newGame e) :: rest ∧
    (∀ name ∈ g.players, name ∈ g'.playerNumberInGame) ∧
    ∀ eventNo < 2 ^ 32, ∀ buffer pos size,
      Holds buffer pos (Event.encode ⟨eventNo, .newGame e⟩) →
      Event.getEncodedSize ⟨eventNo, .newGame e⟩ ≤ size → size < 2 ^ 32 →
      ∃ decoded bytesUsed names,
        Event.decode buffer pos size = .ok (⟨eventNo, some (.newGame decoded)⟩, bytesUsed) ∧
        decoded.parsedPlayers = .ok names ∧ SameNumbers g'.playerNumberInGame names

/-- **A client numbers the players as the server does**, whenever a game starts with 2 to 25
players. -/
theorem startGame_numbers {pf : Platform D} {g g' : GameTask D} (htwo : 2 ≤ g.players.size)
    (hmax : g.players.size ≤ maxPlayers) (hnames : ∀ name ∈ g.players, name.val ≠ [])
    (hx : g.maxx < 2 ^ 16) (hy : g.maxy < 2 ^ 16) (hstart : g.startGame pf = .ok g') :
    NumberedAlike g g' := by
  have hlength : g.players.keys.length = g.players.size := g.players.length_keys
  have hframe := startGame_frame hstart
  have hnumbers : g'.playerNumberInGame = numberPlayers g.players.keys := hframe.playerNumberInGame
  obtain ⟨rest, hrest⟩ := hframe.calls
  refine ⟨.ofNames g.maxx g.maxy (g.players.keys.map Subtype.val), rest, ?_, fun name hname => ?_,
    fun eventNo hno buffer pos size hholds hfits hsize => ?_⟩
  · rw [← hrest, hframe.gameId]
    exact List.append_assoc _ _ _
  · rw [hnumbers, SortedMap.mem_iff_find?, find?_numberPlayers_eq g.players.nodup_keys,
      if_pos (SortedMap.mem_keys.mpr hname)]
    exact ⟨_, rfl⟩
  · have hnonempty : ∀ name ∈ g.players.keys, name.val ≠ [] := fun name hname =>
      hnames name (SortedMap.mem_keys.mp hname)
    have hbuilt : Event.Built ⟨eventNo,
        .newGame (.ofNames g.maxx g.maxy (g.players.keys.map Subtype.val))⟩ :=
      ⟨hno, .newGame (hx.trans (by decide)) (hy.trans (by decide))
        (List.ne_nil_of_length_pos (by omega)) (hlength.trans_le hmax) hnonempty⟩
    exact ⟨_, _, _, hbuilt.decode_encode hholds hfits hsize,
      parsedPlayers_ofNames _ _ hnonempty g.players.sorted,
      hnumbers ▸ sameNumbers g.players.nodup_keys (hlength.trans_le hmax)⟩

/-- Two players in the lobby. One name starts with the other. -/
def prefixedNames : GameTask ℤ :=
  let join (players : SortedMap PlayerName (Player ℤ)) (name : PlayerName) :=
    players.insert name (Player.joining fixedPoint false name.val ⟨1, .right, 0, name⟩)
  { (GameState.new 5 6 16 16 0 : GameState ℤ) with
    players := join (join ∅ ⟨[119, 111], by decide⟩) ⟨[119], by decide⟩
    calls := [] }

theorem startGame_numbers_prefixed : ∃ g', prefixedNames.startGame fixedPoint = .ok g' ∧
    NumberedAlike prefixedNames g' := by
  have hok : (prefixedNames.startGame fixedPoint).isOk = true := by decide +kernel
  have hnames : ∀ name ∈ prefixedNames.players.keys, name.val ≠ [] := by decide +kernel
  obtain ⟨g', hstart⟩ := Except.exists_of_isOk hok
  exact ⟨g', hstart, startGame_numbers (by decide +kernel) (by decide +kernel) hnames (by decide)
    (by decide) hstart⟩

end ScreenWorms
