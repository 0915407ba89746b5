import ScreenWorms.Common.PlayerNames
import ScreenWorms.ForStd.Words

/-!
# The players field of a NEW_GAME event

The field is a list of names, each followed by a zero byte. `parsedPlayers` does not read it as one.
It turns zero bytes into blanks and reads words from a stream, which takes the bytes from 9 to 13 for
blanks as well and skips any number of them. A field that has a blank itself is refused; one that has
an empty name, or another separator, is not.

## Main definitions

* `NamesField` — the fields that are lists of names
* `namesIn` — the names in a field, however they are separated
* `LooselySeparated` — fields with names that are not separated as they should be

## Main results

* `parsedPlayers_eq_ok`, `parsedPlayers_eq_ok_iff` — which fields are accepted
* `parsedPlayers_exact_iff` — when that is right
-/

namespace ScreenWorms

/-- A list of names in ascending order, each followed by a zero byte. No name is empty. -/
def NamesField (field : List Byte) : Prop :=
  ∃ names : List PlayerName, (∀ n ∈ names, n.val ≠ []) ∧ names.Pairwise (· < ·) ∧
    field = names.flatMap fun n => n.val ++ [0]

/-- A zero byte, or another byte that ends a word. -/
def isSeparator (c : Byte) : Bool := c = 0 || isSpace c

/-- The pieces of a field between separators. -/
def namesIn (field : List Byte) : List (List Byte) :=
  (field.splitOnP isSeparator).filter fun w => w ≠ []

/-- The names in the field are valid and in ascending order, but they are not each followed by
exactly one zero byte: there are separators at the start, or several in a row, or others than the
zero byte, namely the bytes from 9 to 13. -/
structure LooselySeparated (field : List Byte) : Prop where
  noBlank : (32 : Byte) ∉ field
  valid : ∀ w ∈ namesIn field, isValidPlayerName w = true
  ascending : (namesIn field).Pairwise (· < ·)
  loose : field ≠ (namesIn field).flatMap fun w => w ++ [0]

/-! ## What is accepted -/

variable {field : List Byte} {e : EventNewGame}

/-- The words that are read are the names in the field. -/
theorem words_eq_namesIn (field : List Byte) :
    words (field.map fun c => if c = 0 then 32 else c) = namesIn field := by
  have hsplit : (field.splitOnP fun c => isSpace (if c = 0 then 32 else c)) =
      field.splitOnP isSeparator := by
    congr 1
    funext c
    by_cases hc : c = 0
    · rw [if_pos hc, hc]
      rfl
    · rw [if_neg hc, isSeparator, decide_eq_false hc, Bool.false_or]
  have hmap : (field.splitOnP isSeparator).map (List.map fun c => if c = 0 then 32 else c) =
      field.splitOnP isSeparator := by
    refine (List.map_congr_left fun w hw => ?_).trans (List.map_id _)
    refine (List.map_congr_left fun c hc => ?_).trans (List.map_id _)
    have hzero : c ≠ 0 := by
      rintro rfl
      exact absurd (List.forall_mem_splitOnP isSeparator field w hw 0 hc) (by decide)
    exact if_neg hzero
  rw [words, namesIn, List.splitOnP_map, hsplit, hmap]

theorem validNames_eq_some_iff : ∀ {ws : List (List Byte)} {names : List PlayerName},
    validNames ws = some names ↔ names.map Subtype.val = ws
  | [], names => by
    rw [validNames, Option.some.injEq, eq_comm, List.map_eq_nil_iff]
  | w :: ws, names => by
    rw [validNames, List.map_eq_cons_iff]
    constructor
    · intro h
      split at h
      · rename_i hw
        obtain ⟨ns, hns, rfl⟩ := Option.map_eq_some_iff.mp h
        exact ⟨⟨w, hw⟩, ns, rfl, rfl, validNames_eq_some_iff.mp hns⟩
      · exact absurd h (by simp)
    · rintro ⟨n, ns, rfl, rfl, hns⟩
      rw [dif_pos n.property, validNames_eq_some_iff.mpr hns]
      rfl

theorem exists_map_val {ws : List (List Byte)} (h : ∀ w ∈ ws, isValidPlayerName w = true) :
    ∃ names : List PlayerName, names.map Subtype.val = ws := by
  refine ⟨ws.attach.map fun w => ⟨w.val, h w.val w.property⟩, ?_⟩
  rw [List.map_map]
  exact List.attach_map_subtype_val _

theorem pairwise_map_val {names : List PlayerName} :
    (names.map Subtype.val).Pairwise (· < ·) ↔ names.Pairwise (· < ·) := List.pairwise_map

theorem isChain_lt {names : List PlayerName} (hle : names.IsChain (· ≤ ·))
    (hne : names.IsChain (· ≠ ·)) : names.IsChain (· < ·) := by
  induction names with
  | nil => exact .nil
  | cons n names ih =>
    rcases names with _ | ⟨m, names⟩
    · exact .singleton n
    · obtain ⟨hnm, hle⟩ := List.isChain_cons_cons.mp hle
      obtain ⟨hnm', hne⟩ := List.isChain_cons_cons.mp hne
      exact List.isChain_cons_cons.mpr ⟨lt_of_le_of_ne hnm hnm', ih hle hne⟩

/-- Sorting and dropping repetitions leaves exactly the ascending lists alone. -/
theorem destutter_insertionSort_eq_iff {names : List PlayerName} :
    (names.insertionSort (· ≤ ·)).destutter (· ≠ ·) = names ↔ names.Pairwise (· < ·) := by
  constructor
  · intro h
    have hle : names.Pairwise (· ≤ ·) := by
      have hsorted := (List.pairwise_insertionSort (· ≤ ·) names).sublist
        (List.destutter_sublist (· ≠ ·) (names.insertionSort (· ≤ ·)))
      rwa [h] at hsorted
    have hne : names.IsChain (· ≠ ·) := by
      have hchain := List.isChain_destutter (· ≠ ·) (names.insertionSort (· ≤ ·))
      rwa [h] at hchain
    exact (isChain_lt hle.isChain hne).pairwise
  · intro h
    rw [(h.imp le_of_lt).insertionSort_eq]
    exact List.destutter_of_isChain _ _ (h.imp ne_of_lt).isChain

/-- **What is accepted**, and what is returned for it. -/
theorem parsedPlayers_eq_ok {playerNames : SortedMap ℕ PlayerName} :
    e.parsedPlayers = .ok playerNames ↔ (32 : Byte) ∉ e.players ∧ ∃ names : List PlayerName,
      names.map Subtype.val = namesIn e.players ∧ names.Pairwise (· < ·) ∧
        playerNames = numberNames names := by
  rw [EventNewGame.parsedPlayers, words_eq_namesIn]
  by_cases hblank : (32 : Byte) ∈ e.players
  · rw [if_pos hblank]
    exact iff_of_false (fun h => by cases h) fun h => h.1 hblank
  rw [if_neg hblank]
  rcases hnames : validNames (namesIn e.players) with _ | names
  · refine iff_of_false (fun h => by cases h) ?_
    rintro ⟨-, names, hmap, -⟩
    rw [validNames_eq_some_iff.mpr hmap] at hnames
    cases hnames
  · have hmap := validNames_eq_some_iff.mp hnames
    simp only
    split
    · rename_i hsort
      have hascending := destutter_insertionSort_eq_iff.mp hsort
      rw [Except.ok.injEq]
      refine ⟨fun h => ⟨hblank, names, hmap, hascending, h.symm⟩, ?_⟩
      rintro ⟨-, names', hmap', -, rfl⟩
      rw [List.map_injective_iff.mpr Subtype.val_injective (hmap'.trans hmap.symm)]
    · rename_i hsort
      refine iff_of_false (fun h => by cases h) ?_
      rintro ⟨-, names', hmap', hascending, -⟩
      have heq := List.map_injective_iff.mpr Subtype.val_injective (hmap'.trans hmap.symm)
      exact hsort (destutter_insertionSort_eq_iff.mpr (heq ▸ hascending))

/-- **Which fields are accepted.** -/
theorem parsedPlayers_eq_ok_iff : (∃ playerNames, e.parsedPlayers = .ok playerNames) ↔
    (32 : Byte) ∉ e.players ∧ (∀ w ∈ namesIn e.players, isValidPlayerName w = true) ∧
      (namesIn e.players).Pairwise (· < ·) := by
  simp only [parsedPlayers_eq_ok]
  constructor
  · rintro ⟨_, hblank, names, hmap, hascending, -⟩
    rw [← hmap, pairwise_map_val, List.forall_mem_map]
    exact ⟨hblank, fun n _ => n.property, hascending⟩
  · rintro ⟨hblank, hvalid, hascending⟩
    obtain ⟨names, hmap⟩ := exists_map_val hvalid
    rw [← hmap, pairwise_map_val] at hascending
    exact ⟨_, hblank, names, hmap, hascending, rfl⟩

/-- The only exception that is thrown. -/
theorem parsedPlayers_eq_error {err : DecodeError} (h : e.parsedPlayers = .error err) :
    err = .encoderDecoderError := by
  rw [EventNewGame.parsedPlayers] at h
  split at h
  · exact (Except.error.inj h).symm
  · split at h
    · exact (Except.error.inj h).symm
    · simp only at h
      split at h
      · cases h
      · exact (Except.error.inj h).symm

/-! ## What should be accepted -/

theorem PlayerName.mem_range (n : PlayerName) {c : Byte} (hc : c ∈ n.val) :
    33 ≤ c.val ∧ c.val ≤ 126 := by
  have h := n.property
  simp only [isValidPlayerName, Bool.and_eq_true, List.all_eq_true, decide_eq_true_eq] at h
  exact h.2 c hc

theorem PlayerName.not_mem_blank (n : PlayerName) : (32 : Byte) ∉ n.val := fun hc =>
  absurd (n.mem_range hc).1 (by decide)

/-- Nothing in a name separates words. -/
theorem PlayerName.isSeparator_eq_false (n : PlayerName) {c : Byte} (hc : c ∈ n.val) :
    isSeparator c = false := by
  have hrange := n.mem_range hc
  have hblank : c ≠ 32 := fun heq => n.not_mem_blank (heq ▸ hc)
  have hzero : c ≠ 0 := by
    rintro rfl
    exact absurd hrange.1 (by decide)
  simp only [isSeparator, isSpace, hblank, hzero, decide_false, Bool.false_or,
    Bool.and_eq_false_iff, decide_eq_false_iff_not]
  omega

/-- The names in a list of names. -/
theorem namesIn_flatMap : ∀ {names : List PlayerName}, (∀ n ∈ names, n.val ≠ []) →
    namesIn (names.flatMap fun n => n.val ++ [0]) = names.map Subtype.val
  | [], _ => rfl
  | n :: names, h => by
    have hname : ∀ c ∈ n.val, isSeparator c = false := fun c hc => n.isSeparator_eq_false hc
    have ih := namesIn_flatMap fun m hm => h m (List.mem_cons_of_mem _ hm)
    rw [namesIn] at ih
    rw [namesIn, List.flatMap_cons, List.append_assoc, List.singleton_append,
      List.splitOnP_append_cons_of_forall_mem hname 0 (by decide), List.filter_cons_of_pos
      (by simpa using h n List.mem_cons_self), ih, List.map_cons]

/-- There is no blank in a list of names. -/
theorem blank_not_mem_flatMap (names : List PlayerName) :
    (32 : Byte) ∉ names.flatMap fun n => n.val ++ [0] := by
  intro hblank
  obtain ⟨n, -, hc⟩ := List.mem_flatMap.mp hblank
  rcases List.mem_append.mp hc with hc | hc
  · exact n.not_mem_blank hc
  · exact absurd (List.mem_singleton.mp hc) (by decide)

/-- **A list of names** is accepted, and all of them are numbered. -/
theorem parsedPlayers_flatMap {names : List PlayerName} (hnames : ∀ n ∈ names, n.val ≠ [])
    (hsorted : names.Pairwise (· < ·))
    (hfield : e.players = names.flatMap fun n => n.val ++ [0]) :
    e.parsedPlayers = .ok (numberNames names) := by
  refine parsedPlayers_eq_ok.mpr ⟨?_, names, ?_, hsorted, rfl⟩
  · rw [hfield]
    exact blank_not_mem_flatMap names
  · rw [hfield, namesIn_flatMap hnames]

/-- What the constructor writes is a list of names. -/
theorem players_ofNames_eq_flatMap (maxx maxy : ℕ) (names : List PlayerName) :
    (EventNewGame.ofNames maxx maxy (names.map Subtype.val)).players =
      names.flatMap fun n => n.val ++ [0] := by
  have hname : ∀ n : PlayerName, (n.val ++ [32]).map (fun c : Byte => if c = 32 then 0 else c) =
      n.val ++ [0] := by
    intro n
    rw [List.map_append]
    congr 1
    refine (List.map_congr_left fun c hc => ?_).trans (List.map_id _)
    have hblank : c ≠ 32 := fun heq => n.not_mem_blank (heq ▸ hc)
    exact if_neg hblank
  simp only [EventNewGame.ofNames, List.flatMap_map, List.map_flatMap, hname]

/-- **The names of a `NEW_GAME` are read back** as they were written. -/
theorem parsedPlayers_ofNames {names : List PlayerName} (maxx maxy : ℕ)
    (hnames : ∀ n ∈ names, n.val ≠ []) (hsorted : names.Pairwise (· < ·)) :
    (EventNewGame.ofNames maxx maxy (names.map Subtype.val)).parsedPlayers =
      .ok (numberNames names) :=
  parsedPlayers_flatMap hnames hsorted (players_ofNames_eq_flatMap maxx maxy names)

/-- **The right fields** are those that are accepted and separated as they should be. -/
theorem namesField_iff : NamesField e.players ↔ (∃ playerNames, e.parsedPlayers = .ok playerNames) ∧
    e.players = (namesIn e.players).flatMap fun w => w ++ [0] := by
  constructor
  · rintro ⟨names, hne, hascending, hfield⟩
    refine ⟨⟨_, parsedPlayers_flatMap hne hascending hfield⟩, ?_⟩
    rw [hfield, namesIn_flatMap hne, List.flatMap_map]
  · rintro ⟨⟨_, hparsed⟩, hfield⟩
    obtain ⟨-, names, hmap, hascending, -⟩ := parsedPlayers_eq_ok.mp hparsed
    refine ⟨names, fun n hn => ?_, hascending, ?_⟩
    · have hmem : n.val ∈ namesIn e.players := hmap ▸ List.mem_map_of_mem hn
      simpa using (List.mem_filter.mp hmem).2
    · rw [hfield, ← hmap, List.flatMap_map]

/-- `parsedPlayers` accepts the field if it is a list of names, and throws `EncoderDecoderError` if
it is not. -/
def ParsesExactly (e : EventNewGame) : Prop :=
  ((∃ playerNames, e.parsedPlayers = .ok playerNames) ↔ NamesField e.players) ∧
    (¬NamesField e.players → e.parsedPlayers = .error .encoderDecoderError)

/-- **When fields are parsed as they should be**: unless there are valid names in ascending order in
the field that are not each followed by exactly one zero byte. -/
theorem parsedPlayers_exact_iff (e : EventNewGame) :
    ParsesExactly e ↔ ¬LooselySeparated e.players := by
  rw [ParsesExactly, namesField_iff]
  constructor
  · rintro ⟨hiff, -⟩ hloose
    have hok := parsedPlayers_eq_ok_iff.mpr ⟨hloose.noBlank, hloose.valid, hloose.ascending⟩
    exact hloose.loose (hiff.mp hok).2
  · intro hnot
    have hfield : (∃ playerNames, e.parsedPlayers = .ok playerNames) →
        e.players = (namesIn e.players).flatMap fun w => w ++ [0] := by
      intro hok
      obtain ⟨hblank, hvalid, hascending⟩ := parsedPlayers_eq_ok_iff.mp hok
      by_contra hloose
      exact hnot ⟨hblank, hvalid, hascending, hloose⟩
    refine ⟨⟨fun hok => ⟨hok, hfield hok⟩, And.left⟩, fun h => ?_⟩
    rcases hparsed : e.parsedPlayers with err | playerNames
    · rw [parsedPlayers_eq_error hparsed]
    · exact absurd ⟨⟨playerNames, hparsed⟩, hfield ⟨playerNames, hparsed⟩⟩ h

/-- A decoded event with an empty name between two others. It is accepted. -/
theorem not_parsesExactly : ∃ e, EventNewGame.decode
      [0, 0, 0, 16, 0, 0, 0, 16, 97, 0, 0, 98, 0] 0 13 = .ok e ∧ ¬ParsesExactly e := by
  refine ⟨⟨16, 16, [97, 0, 0, 98, 0]⟩, by decide +kernel, fun h => ?_⟩
  refine (parsedPlayers_exact_iff _).mp h ⟨by decide, by decide, by decide, by decide⟩

end ScreenWorms
