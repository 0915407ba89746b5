import Mathlib.Data.Fintype.Basic
import ScreenWorms.Client.Games
import ScreenWorms.Common.NameFields

/-!
# How many players a game can have

Players are numbered with 8 bits, by the size the map of names has when a name is inserted, and the
client keeps the number of players in 8 bits. A players field has room for more than 256 names. But
`parsedPlayers` returns only names in ascending order, so all different, and there are 94 names of
one character. The others take two characters and a separator at least.

## Main definitions

* `nameCharacters` — what names are made of
* `AllNumbered` — the map has all names of a field

## Main results

* `length_namesIn_lt` — how many different names there is room for
* `parsedPlayers_numbered` — no number of a player wraps around
-/

namespace ScreenWorms

open Client

/-- The characters of names. -/
def nameCharacters : Finset Byte := Finset.univ.filter fun c => 33 ≤ c.val ∧ c.val ≤ 126

theorem card_nameCharacters : nameCharacters.card = 94 := by decide +kernel

variable {e : EventNewGame} {playerNames : SortedMap ℕ PlayerName}

/-! ## Room for names -/

/-- **There is no room for 256 different names.** -/
theorem length_namesIn_lt (hsize : e.players.length ≤ EventNewGame.maxPlayersFieldSize)
    (hparsed : e.parsedPlayers = .ok playerNames) : (namesIn e.players).length < 2 ^ 8 := by
  obtain ⟨-, names, hmap, hascending, -⟩ := parsedPlayers_eq_ok.mp hparsed
  have hnodup : (namesIn e.players).Nodup := by
    have hnames : names.Nodup := hascending.imp ne_of_lt
    rw [← hmap]
    exact hnames.map Subtype.val_injective
  have hne : ∀ w ∈ namesIn e.players, w ≠ [] := by
    intro w hw
    simpa using (List.mem_filter.mp hw).2
  have hletters : ∀ w ∈ namesIn e.players, ∀ c ∈ w, c ∈ nameCharacters := by
    rw [← hmap, List.forall_mem_map]
    intro n _ c hc
    exact Finset.mem_filter.mpr ⟨Finset.mem_univ c, PlayerName.mem_range n hc⟩
  have hlong := List.two_mul_length_le hnodup hne hletters
  have hroom := List.sum_length_filter_splitOnP_le isSeparator (fun w => w ≠ []) e.players
  have hmax : EventNewGame.maxPlayersFieldSize = 525 := rfl
  rw [← namesIn] at hroom
  rw [card_nameCharacters] at hlong
  omega

/-! ## What is listed -/

/-- The names with consecutive numbers are listed one after another. -/
theorem namesForGui_range' {names : List PlayerName} : ∀ {k : ℕ},
    (∀ i < names.length, playerNames.find? (k + i) = names[i]?) →
    namesForGui playerNames (List.range' k names.length) =
      some (names.flatMap fun n => 32 :: n.val) := by
  induction names with
  | nil =>
    intro k _
    rfl
  | cons n names ih =>
    intro k h
    have hfirst : playerNames.find? k = some n := h 0 (Nat.succ_pos _)
    have hrest : namesForGui playerNames (List.range' (k + 1) names.length) =
        some (names.flatMap fun n => 32 :: n.val) := by
      refine ih fun i hi => ?_
      rw [Nat.add_right_comm, Nat.add_assoc]
      exact h (i + 1) (Nat.succ_lt_succ hi)
    rw [List.length_cons, List.range'_succ, namesForGui, hfirst]
    simp only [hrest, Option.map_some, List.flatMap_cons]

/-! ## What the client counts -/

/-- A client that enters a game counts the names of its `NEW_GAME`. -/
theorem players_of_entered {c c' : Client} {msg : ReceivedMessage} {event : ReceivedEvent}
    (hparsed : e.parsedPlayers = .ok playerNames)
    (hfirst : firstNewGame msg.events = some (event, e)) (hnew : msg.gameId ∉ c.seenGameIds)
    (h : c.processMessageFromServerWithMismatchedGameId msg = .ok c') :
    c'.playerNames = playerNames ∧ c'.playersInGame = toUInt8 playerNames.size := by
  rw [processMessageFromServerWithMismatchedGameId, if_neg hnew] at h
  simp only [hfirst, hparsed] at h
  split at h
  · rcases readInEventsListOfCurrentGame_cases msg.events
      ((c.enter msg.gameId).install e playerNames) with ⟨-, hread⟩ | hread
    · obtain rfl := Except.ok.inj (hread.symm.trans h)
      exact ⟨rfl, rfl⟩
    · exact absurd (hread.symm.trans h) (by simp)
  · exact absurd h (by simp)

/-! ## Numbers -/

/-- All names of the field are in the map, the `i`-th one at the key `i`, and there is nothing else
in the map. -/
structure AllNumbered (field : List Byte) (playerNames : SortedMap ℕ PlayerName) : Prop where
  /-- A number of a player fits into 8 bits. -/
  length_lt : (namesIn field).length < 2 ^ 8
  mem_iff : ∀ i, i ∈ playerNames ↔ i < (namesIn field).length
  find?_eq : ∀ i, (playerNames.find? i).map Subtype.val = (namesIn field)[i]?
  /-- The line of the event has all names, in their order. -/
  listed : listedNames playerNames = some ((namesIn field).flatMap fun w => 32 :: w)

theorem allNumbered_numberNames {field : List Byte} {names : List PlayerName}
    (hmap : names.map Subtype.val = namesIn field) (hlt : (namesIn field).length < 2 ^ 8) :
    AllNumbered field (numberNames names) where
  length_lt := hlt
  mem_iff i := by
    rw [← hmap, List.length_map] at hlt ⊢
    rw [mem_numberNames, size_numberNames hlt.le]
  find?_eq i := by
    rw [← hmap, List.length_map] at hlt
    rw [find?_numberNames hlt.le, ← hmap, List.getElem?_map]
  listed := by
    rw [← hmap, List.length_map] at hlt
    rw [listedNames, size_numberNames hlt.le, toUInt8_of_lt hlt, List.range_eq_range', ← hmap,
      List.flatMap_map]
    refine namesForGui_range' fun i _ => ?_
    rw [Nat.zero_add, find?_numberNames hlt.le]

/-- **No number of a player wraps around.** All names of a field are numbered if it is not too long
and `parsedPlayers` returns, and a client that enters the game with it counts all of them. -/
theorem parsedPlayers_numbered (hsize : e.players.length ≤ EventNewGame.maxPlayersFieldSize)
    (hparsed : e.parsedPlayers = .ok playerNames) : AllNumbered e.players playerNames ∧
    ∀ (c c' : Client) (msg : ReceivedMessage) (event : ReceivedEvent),
      firstNewGame msg.events = some (event, e) → msg.gameId ∉ c.seenGameIds →
      c.processMessageFromServerWithMismatchedGameId msg = .ok c' →
      c'.playersInGame = (namesIn e.players).length := by
  have hlt := length_namesIn_lt hsize hparsed
  obtain ⟨-, names, hmap, -, rfl⟩ := parsedPlayers_eq_ok.mp hparsed
  refine ⟨allNumbered_numberNames hmap hlt, fun c c' msg event hfirst hnew h => ?_⟩
  rw [(players_of_entered hparsed hfirst hnew h).2, ← hmap, List.length_map]
  rw [← hmap, List.length_map] at hlt
  rw [size_numberNames hlt.le, toUInt8_of_lt hlt]

/-- Two names, the first of which is followed by two zero bytes. -/
def twoNames : EventNewGame := ⟨16, 16, [97, 0, 0, 98, 98, 0]⟩

theorem parsedPlayers_numbered_two : ∃ playerNames c', twoNames.parsedPlayers = .ok playerNames ∧
    (Client.new 0 0 0 0 0).processMessageFromServerWithMismatchedGameId
      ⟨7, [⟨0, some (.newGame twoNames)⟩]⟩ = .ok c' ∧
    AllNumbered twoNames.players playerNames ∧ c'.playersInGame = 2 := by
  have hparses : twoNames.parsedPlayers.isOk = true := by decide +kernel
  have henters : ((Client.new 0 0 0 0 0).processMessageFromServerWithMismatchedGameId
      ⟨7, [⟨0, some (.newGame twoNames)⟩]⟩).isOk = true := by decide +kernel
  obtain ⟨playerNames, hparsed⟩ := Except.exists_of_isOk hparses
  obtain ⟨c', hc'⟩ := Except.exists_of_isOk henters
  obtain ⟨hall, hcount⟩ := parsedPlayers_numbered (by decide) hparsed
  exact ⟨playerNames, c', hparsed, hc', hall, hcount _ c' _ _ rfl (by decide) hc'⟩

end ScreenWorms
