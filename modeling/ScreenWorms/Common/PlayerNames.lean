import Mathlib.Data.List.Destutter
import Mathlib.Data.List.Sort
import ScreenWorms.Common.Decoder
import ScreenWorms.ForStd.SortedMap

/-!
# The names in a NEW_GAME event

`parsedPlayers` reads the `players` field of a `NEW_GAME` event back into names, and
`eventToMessageForGui` writes the line a graphical interface gets for an event. The map of names is
keyed by 8-bit numbers that count up; `mem_numberNames` says which keys it has, whatever the number
of names.

## Main definitions

* `EventNewGame.parsedPlayers`
* `eventToMessageForGui`
* `validEvent` — what `validateEvent` lets pass

## Main results

* `mem_parsedPlayers` — the numbers of the players
* `find?_numberNames` — names are numbered in the order in which they were read
* `isSome_eventToMessageForGui` — a valid event names only players that are there
-/

namespace ScreenWorms

/-! ## Names -/

/-- `isspace` in the classic locale. -/
def isSpace (c : Byte) : Bool := c = 32 || (9 ≤ c.val && c.val ≤ 13)

/-- The strings that `ss >> playerName` yields one after another. -/
def words (s : List Byte) : List (List Byte) := (s.splitOnP isSpace).filter fun w => w ≠ []

/-- The names among them, if all are valid. -/
def validNames : List (List Byte) → Option (List PlayerName)
  | [] => some []
  | w :: ws =>
    if h : isValidPlayerName w = true then (validNames ws).map (⟨w, h⟩ :: ·) else none

/-- The map `playerNames` after all names have been inserted. -/
def numberNames (listOfNames : List PlayerName) : SortedMap ℕ PlayerName :=
  listOfNames.foldl (fun playerNames name => playerNames.insert (toUInt8 playerNames.size) name) ∅

/-- `EventNewGame::parsedPlayers`. -/
def EventNewGame.parsedPlayers (e : EventNewGame) :
    Except DecodeError (SortedMap ℕ PlayerName) :=
  if 32 ∈ e.players then .error .encoderDecoderError
  else
    match validNames (words (e.players.map fun c => if c = 0 then 32 else c)) with
    | none => .error .encoderDecoderError
    | some listOfNames =>
      let sortedListOfNames := (listOfNames.insertionSort (· ≤ ·)).destutter (· ≠ ·)
      if sortedListOfNames = listOfNames then .ok (numberNames listOfNames)
      else .error .encoderDecoderError

theorem numberNames_concat (listOfNames : List PlayerName) (name : PlayerName) :
    numberNames (listOfNames ++ [name]) =
      (numberNames listOfNames).insert (toUInt8 (numberNames listOfNames).size) name := by
  rw [numberNames, List.foldl_append]
  rfl

/-- The keys are the numbers below the size, and these are 8-bit numbers. -/
theorem keys_numberNames (listOfNames : List PlayerName) :
    (numberNames listOfNames).size ≤ 2 ^ 8 ∧
      ∀ i, i ∈ numberNames listOfNames ↔ i < (numberNames listOfNames).size := by
  induction listOfNames using List.reverseRecOn with
  | nil => exact ⟨by decide, fun i => by simp [numberNames, SortedMap.size]⟩
  | append_singleton names name ih =>
    obtain ⟨hsize, hkeys⟩ := ih
    rw [numberNames_concat]
    rcases Nat.lt_or_eq_of_le hsize with hlt | heq
    · have hnew : (numberNames names).size ∉ numberNames names := fun hmem =>
        absurd ((hkeys _).mp hmem) (lt_irrefl _)
      rw [toUInt8_of_lt hlt, SortedMap.size_insert hnew]
      refine ⟨hlt, fun i => ?_⟩
      rw [SortedMap.mem_insert, hkeys]
      omega
    · -- the number wraps around to 0, which is taken
      have hzero : toUInt8 (numberNames names).size ∈ numberNames names := by
        rw [hkeys, heq]
        decide
      rw [SortedMap.insert_of_mem hzero]
      exact ⟨hsize, hkeys⟩

theorem mem_numberNames (listOfNames : List PlayerName) (i : ℕ) :
    i ∈ numberNames listOfNames ↔ i < (numberNames listOfNames).size :=
  (keys_numberNames listOfNames).2 i

theorem size_not_mem_numberNames (listOfNames : List PlayerName) :
    (numberNames listOfNames).size ∉ numberNames listOfNames := by
  rw [mem_numberNames]
  exact lt_irrefl _

theorem size_numberNames {names : List PlayerName} (h : names.length ≤ 2 ^ 8) :
    (numberNames names).size = names.length := by
  induction names using List.reverseRecOn with
  | nil => rfl
  | append_singleton names name ih =>
    rw [List.length_append, List.length_singleton] at h ⊢
    have hsize := ih (by omega)
    have hnew := size_not_mem_numberNames names
    rw [numberNames_concat, toUInt8_of_lt (by omega), SortedMap.size_insert hnew, hsize]

/-- Names are numbered in the order in which they were read. -/
theorem find?_numberNames {names : List PlayerName} (h : names.length ≤ 2 ^ 8) (i : ℕ) :
    (numberNames names).find? i = names[i]? := by
  induction names using List.reverseRecOn with
  | nil => rfl
  | append_singleton names name ih =>
    rw [List.length_append, List.length_singleton] at h
    have hsize := @size_numberNames names (by omega)
    have hnew := size_not_mem_numberNames names
    rw [numberNames_concat, toUInt8_of_lt (by omega), SortedMap.find?_insert hnew, ih (by omega),
      hsize]
    split
    · rename_i heq
      rw [heq, List.getElem?_concat_length]
    · rename_i hne
      rcases Nat.lt_or_gt_of_ne hne with hlt | hgt
      · rw [List.getElem?_append_left hlt]
      · rw [List.getElem?_eq_none (by omega), List.getElem?_eq_none (by
          rw [List.length_append, List.length_singleton]
          omega)]

/-- What is returned numbers some list of names. -/
theorem exists_of_parsedPlayers {e : EventNewGame} {names : SortedMap ℕ PlayerName}
    (h : e.parsedPlayers = .ok names) : ∃ listOfNames, names = numberNames listOfNames := by
  rw [EventNewGame.parsedPlayers] at h
  split at h
  · cases h
  · split at h
    · cases h
    · simp only at h
      split at h
      · cases h
        exact ⟨_, rfl⟩
      · cases h

theorem mem_parsedPlayers {e : EventNewGame} {names : SortedMap ℕ PlayerName}
    (h : e.parsedPlayers = .ok names) (i : ℕ) : i ∈ names ↔ i < names.size := by
  obtain ⟨listOfNames, rfl⟩ := exists_of_parsedPlayers h
  exact mem_numberNames _ i

/-- A name more would take a key that is there already. -/
theorem size_parsedPlayers_le {e : EventNewGame} {names : SortedMap ℕ PlayerName}
    (h : e.parsedPlayers = .ok names) : names.size ≤ 2 ^ 8 := by
  obtain ⟨listOfNames, rfl⟩ := exists_of_parsedPlayers h
  exact (keys_numberNames listOfNames).1

/-! ## Lines -/

/-- A string of ASCII characters. -/
def ascii (s : String) : List Byte := s.toList.map fun c => Fin.ofNat 256 c.toNat

/-- A number in decimal notation. -/
def decimal (n : ℕ) : List Byte := ascii (toString n)

/-- The names in a `NEW_GAME` line, each after a blank; `none` is a dereferenced `end()`. -/
def namesForGui (playerNames : SortedMap ℕ PlayerName) : List ℕ → Option (List Byte)
  | [] => some []
  | i :: rest =>
    match playerNames.find? i with
    | none => none
    | some name => (namesForGui playerNames rest).map ((32 :: name.val) ++ ·)

/-- The names that a `NEW_GAME` line lists. -/
def listedNames (playerNames : SortedMap ℕ PlayerName) : Option (List Byte) :=
  namesForGui playerNames (List.range (toUInt8 playerNames.size))

/-- `eventToMessageForGui`; `none` is a dereferenced `end()`. -/
def eventToMessageForGui (e : ReceivedEvent) (playerNames : SortedMap ℕ PlayerName) :
    Option (List Byte) :=
  match e.eventData with
  | some (.newGame event) =>
    (listedNames playerNames).map fun names =>
      ascii "NEW_GAME " ++ decimal event.maxx ++ [32] ++ decimal event.maxy ++ names ++ [10]
  | some (.pixel event) =>
    (playerNames.find? event.playerNumber).map fun name =>
      ascii "PIXEL " ++ decimal event.x ++ [32] ++ decimal event.y ++ 32 :: name.val ++ [10]
  | some (.playerEliminated event) =>
    (playerNames.find? event.playerNumber).map fun name =>
      ascii "PLAYER_ELIMINATED " ++ name.val ++ [10]
  | _ => some []

/-! ## Validity -/

/-- The checks of `Client::validateEvent`, given the settings of the game. -/
def validEvent (maxx maxy playersInGame : ℕ) (event : ReceivedEvent) : Bool :=
  match event.eventData with
  | some (.newGame e) =>
    match e.parsedPlayers with
    | .ok playerNames => !(event.eventNo ≠ 0 || playerNames.size < 2)
    | .error _ => false
  | some (.pixel e) => !(e.playerNumber ≥ playersInGame || e.x ≥ maxx || e.y ≥ maxy)
  | some (.playerEliminated e) => !(e.playerNumber ≥ playersInGame)
  | _ => true

theorem isSome_namesForGui {playerNames : SortedMap ℕ PlayerName} {is : List ℕ}
    (h : ∀ i ∈ is, i ∈ playerNames) : (namesForGui playerNames is).isSome = true := by
  induction is with
  | nil => rfl
  | cons i rest ih =>
    obtain ⟨name, hname⟩ := SortedMap.mem_iff_find?.mp (h i List.mem_cons_self)
    rw [namesForGui, hname]
    simpa using ih fun j hj => h j (List.mem_cons_of_mem _ hj)

theorem isSome_listedNames {playerNames : SortedMap ℕ PlayerName}
    (hkeys : ∀ i, i ∈ playerNames ↔ i < playerNames.size) :
    (listedNames playerNames).isSome = true :=
  isSome_namesForGui fun i hi => (hkeys i).mpr ((List.mem_range.mp hi).trans_le (Nat.mod_le _ _))

/-- **A valid event has a line.** -/
theorem isSome_eventToMessageForGui {playerNames : SortedMap ℕ PlayerName}
    (hkeys : ∀ i, i ∈ playerNames ↔ i < playerNames.size) {maxx maxy : ℕ} {e : ReceivedEvent}
    (h : validEvent maxx maxy (toUInt8 playerNames.size) e = true) :
    (eventToMessageForGui e playerNames).isSome = true := by
  have hfind : ∀ no, no < toUInt8 playerNames.size → (playerNames.find? no).isSome = true := by
    intro no hno
    obtain ⟨name, hname⟩ := SortedMap.mem_iff_find?.mp
      ((hkeys no).mpr (hno.trans_le (Nat.mod_le _ _)))
    rw [hname]
    rfl
  rw [eventToMessageForGui]
  rw [validEvent] at h
  split
  · rw [Option.isSome_map]
    exact isSome_listedNames hkeys
  · rename_i e' heq
    rw [heq] at h
    simp only [Bool.not_eq_true', Bool.or_eq_false_iff, decide_eq_false_iff_not, not_le] at h
    rw [Option.isSome_map]
    exact hfind _ h.1.1
  · rename_i e' heq
    rw [heq] at h
    simp only [Bool.not_eq_true', decide_eq_false_iff_not, not_le] at h
    rw [Option.isSome_map]
    exact hfind _ h
  · rfl

end ScreenWorms
