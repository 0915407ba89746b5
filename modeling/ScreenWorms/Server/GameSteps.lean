import ScreenWorms.Server.GameState

/-!
# What the operations of the game do

Equations for the operations of the game manager, so that no later proof unfolds them, and rules for
its loops: `forPlayers_induction` for what holds if the loop ends well, `forPlayers_invariant` for
what every iteration keeps, and `forPlayers_total` for a loop that always ends well.

The bodies of the two loops over worms are described by case analyses, `placePlayer_cases` and
`moveWorm_cases`, which say everything an iteration can do, and so is a message of a player by
`handleMessageFromPlayer_cases`.

## Main results

* `forPlayers_induction`, `forPlayers_invariant`, `forPlayers_total`
* `dropIfOlder_eq`, `forPlayers_dropIfOlder_invariant`
* `eraseDisconnectedPlayers_eq`, `dropConnection_of_watcher`, `dropConnection_of_running`,
  `dropConnection_of_lobby`, `endGame_eq`
* `placePlayer_cases`, `moveWorm_cases`, `handleMessageFromPlayer_cases`
-/

namespace ScreenWorms

variable {D : Type}

/-- The loop of `handleMessageFromPlayer` drops the sender because of this player. -/
def Player.isOlder (f : Fingerprint) (msg : ClientToServerMessage) (p : Player D) : Bool :=
  p.fingerprint = f ∧ msg.sessionId > p.sessionId

namespace GameTask

/-! ## Rules for loops -/

variable {body : PlayerName → Player D → GameTask D → Except Fault (Flow × GameTask D)}

/-- What holds after a loop that ends without a fault. -/
theorem forPlayers_induction {I : List PlayerName → GameTask D → Prop} {Q : GameTask D → Prop}
    (hskip : ∀ name names g, I (name :: names) g → g.players.find? name = none → I names g)
    (hnext : ∀ name names g player g', I (name :: names) g → g.players.find? name = some player →
      body name player g = .ok (.next, g') → name ∈ g'.players → I names g')
    (hexit : ∀ name names g player g', I (name :: names) g → g.players.find? name = some player →
      body name player g = .ok (.exit, g') → Q g')
    (hnil : ∀ g, I [] g → Q g) :
    ∀ {names : List PlayerName} {g g' : GameTask D}, I names g →
      forPlayers body names g = .ok g' → Q g' := by
  intro names
  induction names with
  | nil =>
    intro g g' hI h
    cases h
    exact hnil g hI
  | cons name names ih =>
    intro g g' hI h
    rw [forPlayers] at h
    cases hfind : g.players.find? name with
    | none =>
      rw [hfind] at h
      exact ih (hskip name names g hI hfind) h
    | some player =>
      rw [hfind] at h
      cases hbody : body name player g with
      | error e => simp [hbody] at h
      | ok r =>
        obtain ⟨flow, g₁⟩ := r
        cases flow with
        | exit =>
          simp only [hbody, Except.ok.injEq] at h
          exact h ▸ hexit name names g player g₁ hI hfind hbody
        | next =>
          simp only [hbody] at h
          split at h
          · rename_i hmem
            exact ih (hnext name names g player g₁ hI hfind hbody hmem) h
          · cases h

/-- What every iteration keeps, a loop that ends without a fault keeps. -/
theorem forPlayers_invariant {I : GameTask D → Prop}
    (hbody : ∀ name g player flow g', I g → g.players.find? name = some player →
      body name player g = .ok (flow, g') → I g')
    {names : List PlayerName} {g g' : GameTask D} (hI : I g)
    (h : forPlayers body names g = .ok g') : I g' :=
  forPlayers_induction (I := fun _ => I) (fun _ _ _ hI _ => hI)
    (fun name _ g player g' hI hp hb _ => hbody name g player .next g' hI hp hb)
    (fun name _ g player g' hI hp hb => hbody name g player .exit g' hI hp hb)
    (fun _ hI => hI) hI h

/-- A loop none of whose iterations goes wrong. -/
theorem forPlayers_total {I : List PlayerName → GameTask D → Prop} {Q : GameTask D → Prop}
    (hskip : ∀ name names g, I (name :: names) g → g.players.find? name = none → I names g)
    (hbody : ∀ name names g player, I (name :: names) g → g.players.find? name = some player →
      (∃ g', body name player g = .ok (.next, g') ∧ name ∈ g'.players ∧ I names g') ∨
      ∃ g', body name player g = .ok (.exit, g') ∧ Q g')
    (hnil : ∀ g, I [] g → Q g) :
    ∀ {names : List PlayerName} {g : GameTask D}, I names g →
      ∃ g', forPlayers body names g = .ok g' ∧ Q g' := by
  intro names
  induction names with
  | nil =>
    intro g hI
    exact ⟨g, rfl, hnil g hI⟩
  | cons name names ih =>
    intro g hI
    rw [forPlayers]
    cases hfind : g.players.find? name with
    | none => exact ih (hskip name names g hI hfind)
    | some player =>
      rcases hbody name names g player hI hfind with ⟨g₁, hb, hmem, hI'⟩ | ⟨g₁, hb, hQ⟩
      · simp only [hb, if_pos hmem]
        exact ih hI'
      · simp only [hb]
        exact ⟨g₁, rfl, hQ⟩

/-- A loop whose body has no faults goes wrong in one way only. -/
theorem forPlayers_error {I : GameTask D → Prop}
    (hnext : ∀ name g player flow g', I g → g.players.find? name = some player →
      body name player g = .ok (flow, g') → I g')
    (hbody : ∀ name g player e, I g → g.players.find? name = some player →
      body name player g ≠ .error e) :
    ∀ {names : List PlayerName} {g : GameTask D} {e : Fault}, I g →
      forPlayers body names g = .error e → e = .erasedEntry := by
  intro names
  induction names with
  | nil =>
    intro g e _ h
    cases h
  | cons name names ih =>
    intro g e hI h
    rw [forPlayers] at h
    cases hfind : g.players.find? name with
    | none =>
      rw [hfind] at h
      exact ih hI h
    | some player =>
      rw [hfind] at h
      cases hb : body name player g with
      | error e' => exact absurd hb (hbody name g player e' hI hfind)
      | ok r =>
        obtain ⟨flow, g₁⟩ := r
        have hI' := hnext name g player flow g₁ hI hfind hb
        cases flow with
        | exit => simp [hb] at h
        | next =>
          simp only [hb] at h
          split at h
          · exact ih hI' h
          · exact (Except.error.inj h).symm

/-! ## The loop over the sender's older players -/

section Older

variable {f : Fingerprint} {msg : ClientToServerMessage}

theorem isOlder_fingerprint {p : Player D} (h : p.isOlder f msg = true) : p.fingerprint = f := by
  simp only [Player.isOlder, decide_eq_true_eq] at h
  exact h.1

theorem dropIfOlder_eq (f : Fingerprint) (msg : ClientToServerMessage) (n : PlayerName)
    (p : Player D) (g : GameTask D) : dropIfOlder f msg n p g =
      .ok (.next, if p.isOlder f msg then g.dropConnection f else g) := by
  rw [dropIfOlder]
  by_cases h : p.fingerprint = f ∧ msg.sessionId > p.sessionId <;> simp [Player.isOlder, h]

/-- What a drop of the sender keeps, the loop keeps. -/
theorem forPlayers_dropIfOlder_invariant {I : GameTask D → Prop}
    (hdrop : ∀ g, I g → I (g.dropConnection f)) {names : List PlayerName} {g g' : GameTask D}
    (hI : I g) (h : forPlayers (dropIfOlder f msg) names g = .ok g') : I g' := by
  refine forPlayers_invariant (fun name g p flow g' hI _ hb => ?_) hI h
  rw [dropIfOlder_eq] at hb
  obtain ⟨-, rfl⟩ := Prod.mk.inj (Except.ok.inj hb)
  split
  · exact hdrop g hI
  · exact hI

end Older

/-! ## Erasing disconnected players -/

/-- The players that `eraseDisconnectedPlayers` leaves, with their ready marks cleared. -/
def staying (players : SortedMap PlayerName (Player D)) : SortedMap PlayerName (Player D) :=
  (players.mapValues fun _ p => { p with isReadyToPlay := false }).filter fun _ p =>
    !p.isDisconnected

theorem find?_staying {players : SortedMap PlayerName (Player D)} {name : PlayerName}
    {p : Player D} : (staying players).find? name = some p ↔
      ∃ q, players.find? name = some q ∧ q.isDisconnected = false ∧
        p = { q with isReadyToPlay := false } := by
  rw [staying, SortedMap.find?_filter_eq_some, SortedMap.find?_mapValues, Option.map_eq_some_iff]
  constructor
  · rintro ⟨⟨q, hq, rfl⟩, hd⟩
    exact ⟨q, hq, by simpa using hd, rfl⟩
  · rintro ⟨q, hq, hd, rfl⟩
    exact ⟨⟨q, hq, rfl⟩, by simpa using hd⟩

theorem mem_staying {players : SortedMap PlayerName (Player D)} {name : PlayerName} :
    name ∈ staying players ↔ ∃ q, players.find? name = some q ∧ q.isDisconnected = false := by
  rw [SortedMap.mem_iff_find?]
  constructor
  · rintro ⟨p, hp⟩
    obtain ⟨q, hq, hd, -⟩ := find?_staying.mp hp
    exact ⟨q, hq, hd⟩
  · rintro ⟨q, hq, hd⟩
    exact ⟨_, find?_staying.mpr ⟨q, hq, hd, rfl⟩⟩

theorem size_staying_le (players : SortedMap PlayerName (Player D)) :
    (staying players).size ≤ players.size := by
  rw [← SortedMap.size_mapValues (fun _ (p : Player D) => { p with isReadyToPlay := false }) players]
  exact List.length_filter_le _ _

/-- Nobody who stays is ready. -/
theorem canStartGame_staying (players : SortedMap PlayerName (Player D)) :
    canStartGame (staying players) = false := by
  have hzero : (staying players).entries.countP (fun player => player.2.isReadyToPlay) = 0 := by
    rw [List.countP_eq_zero]
    rintro ⟨name, p⟩ hp
    obtain ⟨q, -, -, rfl⟩ := find?_staying.mp (SortedMap.find?_eq_some.mpr hp)
    simp
  simp [canStartGame, hzero]

/-- The calls that `eraseDisconnectedPlayers` makes. -/
def droppedQueues (players : SortedMap PlayerName (Player D)) : List MQCall :=
  (players.entries.filter fun p => p.2.isDisconnected).map fun p => .dropQueue p.2.fingerprint

theorem mem_droppedQueues {players : SortedMap PlayerName (Player D)} {c : MQCall} :
    c ∈ droppedQueues players ↔ ∃ name p, players.find? name = some p ∧
      p.isDisconnected = true ∧ c = .dropQueue p.fingerprint := by
  simp only [droppedQueues, List.mem_map, List.mem_filter, Prod.exists, SortedMap.find?_eq_some]
  constructor
  · rintro ⟨name, p, ⟨hp, hd⟩, rfl⟩
    exact ⟨name, p, hp, hd, rfl⟩
  · rintro ⟨name, p, hp, hd, rfl⟩
    exact ⟨name, p, ⟨hp, hd⟩, rfl⟩

private theorem foldl_erase (erased : List (PlayerName × Player D)) : ∀ g : GameTask D,
    erased.foldl
      (fun g p => call (.dropQueue p.2.fingerprint) { g with players := g.players.erase p.1 }) g =
    { g with
      players := g.players.filter fun name _ => name ∉ erased.map Prod.fst
      calls := g.calls ++ erased.map fun p => .dropQueue p.2.fingerprint } := by
  induction erased with
  | nil =>
    intro g
    have hall : g.players.filter (fun name _ => name ∉ ([] : List PlayerName)) = g.players :=
      SortedMap.ext_find? fun name => by cases h : g.players.find? name <;>
        simp [SortedMap.find?_filter, h]
    simp only [List.foldl_nil, List.map_nil, hall, List.append_nil]
  | cons p rest ih =>
    intro g
    have hfilter : (g.players.erase p.1).filter (fun name _ => name ∉ rest.map Prod.fst) =
        g.players.filter fun name _ => name ∉ (p :: rest).map Prod.fst :=
      SortedMap.ext_find? fun name => by
        rw [SortedMap.find?_filter, SortedMap.find?_filter, SortedMap.find?_erase]
        by_cases hname : name = p.1
        · cases g.players.find? name <;> simp [hname]
        · rw [if_neg hname]
          refine congrArg (fun b => Option.filter (fun _ => b) _) (decide_eq_decide.mpr ?_)
          rw [List.map_cons, List.mem_cons, not_or]
          exact (and_iff_right hname).symm
    rw [List.foldl_cons, ih]
    simp only [call, hfilter, List.map_cons, List.append_assoc, List.singleton_append]

theorem eraseDisconnectedPlayers_eq (g : GameTask D) : g.eraseDisconnectedPlayers =
    { g with players := staying g.players, calls := g.calls ++ droppedQueues g.players } := by
  rw [eraseDisconnectedPlayers]
  simp only [foldl_erase]
  congr 1
  · -- an entry goes exactly when its own player is marked
    congr 1
    refine SortedMap.ext_find? fun name => ?_
    rw [staying, SortedMap.find?_filter, SortedMap.find?_filter]
    cases h : (g.players.mapValues fun _ (p : Player D) =>
        { p with isReadyToPlay := false }).find? name with
    | none => rfl
    | some p =>
      have hmem := SortedMap.find?_eq_some.mp h
      cases hd : p.isDisconnected with
      | true =>
        have hin : name ∈ ((g.players.mapValues fun _ (p : Player D) =>
            { p with isReadyToPlay := false }).entries.filter fun p => p.2.isDisconnected).map
              Prod.fst :=
          List.mem_map.mpr ⟨(name, p), List.mem_filter.mpr ⟨hmem, hd⟩, rfl⟩
        simp [Option.filter, hd, hin]
      | false =>
        have hout : name ∉ ((g.players.mapValues fun _ (p : Player D) =>
            { p with isReadyToPlay := false }).entries.filter fun p => p.2.isDisconnected).map
              Prod.fst := by
          intro hin
          obtain ⟨⟨name', q⟩, hq, rfl⟩ := List.mem_map.mp hin
          obtain ⟨hq, hdq⟩ := List.mem_filter.mp hq
          rw [SortedMap.eq_of_mem_entries hmem hq] at hd
          rw [hd] at hdq
          cases hdq
        simp [Option.filter, hd, hout]
  · simp [droppedQueues, SortedMap.mapValues, List.filter_map, Function.comp_def]

/-! ## Disconnecting a socket -/

theorem firstPlayerOf_eq_some {players : SortedMap PlayerName (Player D)} {f : Fingerprint}
    {name : PlayerName} {p : Player D} (h : firstPlayerOf f players = some (name, p)) :
    players.find? name = some p ∧ p.fingerprint = f :=
  ⟨SortedMap.find?_eq_some.mpr (List.mem_of_find?_eq_some h), by
    simpa using List.find?_some h⟩

theorem firstPlayerOf_eq_none {players : SortedMap PlayerName (Player D)} {f : Fingerprint} :
    firstPlayerOf f players = none ↔
      ∀ name p, players.find? name = some p → p.fingerprint ≠ f := by
  rw [firstPlayerOf, List.find?_eq_none]
  simp only [Prod.forall, SortedMap.find?_eq_some, decide_eq_true_eq]

/-- The first player of a socket comes before every other one. -/
theorem firstPlayerOf_le {players : SortedMap PlayerName (Player D)} {f : Fingerprint}
    {name name' : PlayerName} {p q : Player D} (h : firstPlayerOf f players = some (name, p))
    (hq : players.find? name' = some q) (hf : q.fingerprint = f) : name ≤ name' := by
  obtain ⟨-, before, after, hentries, hbefore⟩ := List.find?_eq_some_iff_append.mp h
  have hmem := SortedMap.find?_eq_some.mp hq
  have hsorted := players.sorted
  rw [hentries] at hmem hsorted
  rcases List.mem_append.mp hmem with hmem | hmem
  · exact absurd hf (by simpa using hbefore _ hmem)
  · rcases List.mem_cons.mp hmem with heq | hmem
    · exact le_of_eq (Prod.mk.inj heq).1.symm
    · rw [List.map_append, List.map_cons] at hsorted
      have hcons := List.pairwise_cons.mp (List.pairwise_append.mp hsorted).2.1
      exact (hcons.1 name' (List.mem_map.mpr ⟨_, hmem, rfl⟩)).le

theorem exists_firstPlayerOf {players : SortedMap PlayerName (Player D)} {f : Fingerprint}
    {name : PlayerName} {p : Player D} (hp : players.find? name = some p)
    (hf : p.fingerprint = f) : ∃ name' q, firstPlayerOf f players = some (name', q) := by
  cases h : firstPlayerOf f players with
  | none => exact absurd hf (firstPlayerOf_eq_none.mp h name p hp)
  | some e => exact ⟨e.1, e.2, rfl⟩

theorem find?_markDisconnected {players : SortedMap PlayerName (Player D)} {f : Fingerprint}
    {name : PlayerName} : (markDisconnected f players).find? name =
      (players.find? name).map fun p =>
        if (firstPlayerOf f players).map Prod.fst = some name then
          { p with isDisconnected := true } else p := by
  rw [markDisconnected]
  cases h : firstPlayerOf f players with
  | none => simp
  | some e =>
    simp only [SortedMap.find?_adjust, Option.map_some, Option.some.injEq]
    cases players.find? name with
    | none => rfl
    | some p => by_cases hname : name = e.1 <;> simp [hname, Ne.symm]

/-- A marked player is one that was there, with nothing but its mark changed. -/
theorem find?_markDisconnected_eq_some {players : SortedMap PlayerName (Player D)}
    {f : Fingerprint} {name : PlayerName} {p : Player D} :
    (markDisconnected f players).find? name = some p ↔ ∃ q, players.find? name = some q ∧
      p = if (firstPlayerOf f players).map Prod.fst = some name then
        { q with isDisconnected := true } else q := by
  rw [find?_markDisconnected, Option.map_eq_some_iff]
  constructor <;> rintro ⟨q, hq, rfl⟩ <;> exact ⟨q, hq, rfl⟩

@[simp] theorem keys_markDisconnected (players : SortedMap PlayerName (Player D))
    (f : Fingerprint) : (markDisconnected f players).keys = players.keys := by
  rw [markDisconnected]
  split
  · rfl
  · exact SortedMap.keys_adjust _ _ _

@[simp] theorem mem_markDisconnected {players : SortedMap PlayerName (Player D)}
    {f : Fingerprint} {name : PlayerName} :
    name ∈ markDisconnected f players ↔ name ∈ players := by
  rw [← SortedMap.mem_keys, keys_markDisconnected, SortedMap.mem_keys]

@[simp] theorem size_markDisconnected (players : SortedMap PlayerName (Player D))
    (f : Fingerprint) : (markDisconnected f players).size = players.size := by
  rw [← SortedMap.length_keys, keys_markDisconnected, SortedMap.length_keys]

theorem dropConnection_of_watcher {f : Fingerprint} {g : GameTask D} (hw : f ∈ g.watchers) :
    g.dropConnection f =
      { g with watchers := g.watchers.erase f, calls := g.calls ++ [.dropQueue f] } := by
  rw [dropConnection]
  exact if_pos hw

theorem dropConnection_of_running {f : Fingerprint} {g : GameTask D} (hw : f ∉ g.watchers)
    (hs : g.gameStarted = true) : g.dropConnection f =
      { g with
        players := markDisconnected f g.players
        calls := g.calls ++ [.dropQueue f] } := by
  rw [dropConnection]
  exact (if_neg hw).trans (if_pos hs)

theorem dropConnection_of_lobby {f : Fingerprint} {g : GameTask D} (hw : f ∉ g.watchers)
    (hs : g.gameStarted = false) : g.dropConnection f =
      { g with
        players := staying (markDisconnected f g.players)
        calls := g.calls ++ .dropQueue f :: droppedQueues (markDisconnected f g.players) } := by
  rw [dropConnection]
  refine (if_neg hw).trans ((if_neg (by simp [call, hs])).trans ?_)
  rw [eraseDisconnectedPlayers_eq]
  simp [call]

/-! ## Worms -/

end GameTask

/-- A worm that is still in the game. -/
def Player.isAlive (p : Player D) : Bool := p.takesPartInCurrentGame && !p.isEliminated

/-- What no worm's move changes about a player. -/
structure Player.SameClient (p q : Player D) : Prop where
  playerName : q.playerName = p.playerName
  fingerprint : q.fingerprint = p.fingerprint
  sessionId : q.sessionId = p.sessionId
  isDisconnected : q.isDisconnected = p.isDisconnected

theorem Player.SameClient.eliminated {p q : Player D} (h : p.SameClient q) :
    p.SameClient { q with isEliminated := true } :=
  ⟨h.playerName, h.fingerprint, h.sessionId, h.isDisconnected⟩

theorem Player.SameClient.onPixel {p q : Player D} (h : p.SameClient q) (pixel : ℕ × ℕ) :
    p.SameClient { q with pixel := pixel } :=
  ⟨h.playerName, h.fingerprint, h.sessionId, h.isDisconnected⟩

theorem Player.sameClient_placed (pf : Platform D) (maxx maxy : ℕ) (rng : RNG) (p : Player D) :
    p.SameClient (p.placed pf maxx maxy rng).1 :=
  ⟨rfl, rfl, rfl, rfl⟩

@[simp] theorem Player.isAlive_placed (pf : Platform D) (maxx maxy : ℕ) (rng : RNG)
    (p : Player D) : (p.placed pf maxx maxy rng).1.isAlive = true := rfl

theorem Player.sameClient_advance (pf : Platform D) (turningSpeed : ℕ) (p : Player D) :
    p.SameClient (p.advance pf turningSpeed) :=
  ⟨rfl, rfl, rfl, rfl⟩

namespace GameTask

/-- The members after a worm has eaten the pixel it is on. -/
def ate (name : PlayerName) (player : Player D) (no : ℕ) (g : GameTask D) : GameTask D :=
  { g with
    players := g.players.adjust name fun _ => player
    eatenPixels := insert player.pixel g.eatenPixels
    calls := g.calls ++ [.schedule g.gameId (.pixel ⟨no, player.pixel.1, player.pixel.2⟩)] }

/-- The members after an elimination, before the check whether the game is over. -/
def eliminated (name : PlayerName) (player : Player D) (no : ℕ) (g : GameTask D) : GameTask D :=
  { g with
    players := g.players.adjust name fun _ => { player with isEliminated := true }
    alivePlayers := toUInt8 (g.alivePlayers + 255)
    calls := g.calls ++ [.schedule g.gameId (.playerEliminated ⟨no⟩)] }

theorem endGame_eq (g : GameTask D) : g.endGame =
    { g with
      gameStarted := false
      players := staying g.players
      calls := g.calls ++ .schedule g.gameId .gameOver :: droppedQueues g.players } := by
  rw [endGame, eraseDisconnectedPlayers_eq]
  simp [emitGameOver, saveEvent, call]

theorem eliminatePlayer_setPlayer (name : PlayerName) {player : Player D} {g : GameTask D} {no : ℕ}
    (hno : g.playerNumberInGame.find? player.playerName = some no) :
    (g.setPlayer name player).eliminatePlayer name player =
      .ok (if toUInt8 (g.alivePlayers + 255) < 2 then (eliminated name player no g).endGame
        else eliminated name player no g) := by
  simp only [eliminatePlayer, emitPlayerEliminatedEvent, playerNo, setPlayer, hno, eliminated,
    SortedMap.adjust_adjust, Function.comp_def]
  simp only [bind, Except.bind, pure, Except.pure, saveEvent, call]
  split <;> rfl

theorem emitPixelEvent_setPlayer (name : PlayerName) {player : Player D} {g : GameTask D} {no : ℕ}
    (hno : g.playerNumberInGame.find? player.playerName = some no) :
    emitPixelEvent player { g.setPlayer name player with
      eatenPixels := insert player.pixel g.eatenPixels } = .ok (ate name player no g) := by
  simp only [emitPixelEvent, playerNo, setPlayer, hno]
  rfl

/-- **Everything that putting a worm on the board can do.** -/
theorem placePlayer_cases {pf : Platform D} (name : PlayerName) {player : Player D}
    {g : GameTask D} {no : ℕ} (hs : g.gameStarted = true)
    (hno : g.playerNumberInGame.find? player.playerName = some no) {placed : Player D} {rng : RNG}
    (hp : player.placed pf g.maxx g.maxy g.rng = (placed, rng)) :
    (placed.pixel ∉ g.eatenPixels ∧ placePlayer pf name player g =
      .ok (.next, ate name placed no { g with rng := rng })) ∨
    (placed.pixel ∈ g.eatenPixels ∧ 2 ≤ toUInt8 (g.alivePlayers + 255) ∧
      placePlayer pf name player g =
        .ok (.next, eliminated name placed no { g with rng := rng })) ∨
    (placed.pixel ∈ g.eatenPixels ∧ toUInt8 (g.alivePlayers + 255) < 2 ∧
      placePlayer pf name player g =
        .ok (.exit, (eliminated name placed no { g with rng := rng }).endGame)) := by
  have hname : placed.playerName = player.playerName := by
    have h := (Player.sameClient_placed pf g.maxx g.maxy g.rng player).playerName
    rwa [hp] at h
  rw [← hname] at hno
  rw [placePlayer, hp]
  by_cases heaten : placed.pixel ∈ g.eatenPixels
  · right
    have helim := eliminatePlayer_setPlayer name (g := { g with rng := rng }) hno
    simp only [setPlayer] at helim ⊢
    simp only [heaten, if_true, helim, bind, Except.bind, pure, Except.pure]
    by_cases halive : toUInt8 (g.alivePlayers + 255) < 2
    · exact Or.inr ⟨trivial, halive, by simp only [if_pos halive, endGame_eq]; rfl⟩
    · exact Or.inl ⟨trivial, not_lt.mp halive, by simp only [if_neg halive, eliminated, hs]; rfl⟩
  · left
    refine ⟨heaten, ?_⟩
    have hate := emitPixelEvent_setPlayer name (g := { g with rng := rng }) hno
    simp only [setPlayer] at hate ⊢
    simp only [heaten, if_false, hate, bind, Except.bind, pure, Except.pure]
    simp only [ate, hs, if_true]

/-- A worm that is still in the game moves. -/
theorem moveWorm_of_alive (pf : Platform D) (name : PlayerName) {player : Player D}
    {g : GameTask D} {no : ℕ} (hs : g.gameStarted = true) (halive : player.isAlive = true)
    (hno : g.playerNumberInGame.find? player.playerName = some no) :
    moveWorm pf name player g = .ok (.next,
      match (player.advance pf g.turningSpeed).verdict pf g.maxx g.maxy g.eatenPixels with
      | .stays => g.setPlayer name (player.advance pf g.turningSpeed)
      | .eats pixel => ate name { player.advance pf g.turningSpeed with pixel := pixel } no g
      | .eliminated =>
        if toUInt8 (g.alivePlayers + 255) < 2 then
          (eliminated name (player.advance pf g.turningSpeed) no g).endGame
        else eliminated name (player.advance pf g.turningSpeed) no g) := by
  have hin : (player.isEliminated || !player.takesPartInCurrentGame) = false := by
    cases he : player.isEliminated <;> cases ht : player.takesPartInCurrentGame <;>
      simp [Player.isAlive, he, ht] at halive ⊢
  have hclient := Player.sameClient_advance pf g.turningSpeed player
  simp only [moveWorm, hs, hin, Bool.not_true, Bool.false_eq_true, if_false]
  generalize player.advance pf g.turningSpeed = moved at hclient ⊢
  rw [← hclient.playerName] at hno
  cases hv : moved.verdict pf g.maxx g.maxy g.eatenPixels with
  | stays => simp only [setPlayer, hv, pure, Except.pure]
  | eats pixel =>
    have hate := emitPixelEvent_setPlayer name (g := g)
      (show g.playerNumberInGame.find? { moved with pixel := pixel }.playerName = some no from hno)
    simp only [setPlayer] at hate
    simp only [setPlayer, hv, SortedMap.adjust_adjust, Function.comp_def, hate, bind,
      Except.bind, pure, Except.pure]
  | eliminated =>
    have helim := eliminatePlayer_setPlayer name (g := g) hno
    simp only [setPlayer] at helim
    simp only [setPlayer, hv, helim, bind, Except.bind, pure, Except.pure]

/-- A worm that is out of the game is passed by. -/
theorem moveWorm_of_not_alive (pf : Platform D) (name : PlayerName) {player : Player D}
    {g : GameTask D} (hs : g.gameStarted = true) (halive : player.isAlive = false) :
    moveWorm pf name player g = .ok (.next, g) := by
  have hout : (player.isEliminated || !player.takesPartInCurrentGame) = true := by
    cases he : player.isEliminated <;> cases ht : player.takesPartInCurrentGame <;>
      simp [Player.isAlive, he, ht] at halive ⊢
  simp only [moveWorm, hs, hout, Bool.not_true, Bool.false_eq_true, if_false, if_true]
  rfl

/-- The loop is left once the game is over. -/
theorem moveWorm_of_over (pf : Platform D) (name : PlayerName) (player : Player D)
    {g : GameTask D} (hs : g.gameStarted = false) :
    moveWorm pf name player g = .ok (.exit, g) := by
  simp only [moveWorm, hs, Bool.not_false, if_true]
  rfl

/-- **Everything that moving a worm can do.** -/
theorem moveWorm_cases (pf : Platform D) (name : PlayerName) {player : Player D}
    {g : GameTask D} (hno : g.gameStarted = true → player.isAlive = true →
      ∃ no, g.playerNumberInGame.find? player.playerName = some no) :
    (g.gameStarted = false ∧ moveWorm pf name player g = .ok (.exit, g)) ∨
    (g.gameStarted = true ∧ player.isAlive = false ∧ moveWorm pf name player g = .ok (.next, g)) ∨
    (g.gameStarted = true ∧ player.isAlive = true ∧ ∃ moved no,
      player.SameClient moved ∧ moved.isAlive = true ∧
      g.playerNumberInGame.find? player.playerName = some no ∧
      (moveWorm pf name player g = .ok (.next, g.setPlayer name moved) ∨
       moveWorm pf name player g = .ok (.next, ate name moved no g) ∨
       (2 ≤ toUInt8 (g.alivePlayers + 255) ∧
         moveWorm pf name player g = .ok (.next, eliminated name moved no g)) ∨
       (toUInt8 (g.alivePlayers + 255) < 2 ∧
         moveWorm pf name player g = .ok (.next, (eliminated name moved no g).endGame)))) := by
  cases hs : g.gameStarted with
  | false => exact Or.inl ⟨rfl, moveWorm_of_over pf name player hs⟩
  | true =>
    cases halive : player.isAlive with
    | false => exact Or.inr (Or.inl ⟨rfl, rfl, moveWorm_of_not_alive pf name hs halive⟩)
    | true =>
      obtain ⟨no, hno⟩ := hno hs halive
      have hclient := Player.sameClient_advance pf g.turningSpeed player
      have halive' : (player.advance pf g.turningSpeed).isAlive = true := halive
      refine Or.inr (Or.inr ⟨rfl, rfl, ?_⟩)
      rw [moveWorm_of_alive pf name hs halive hno]
      cases (player.advance pf g.turningSpeed).verdict pf g.maxx g.maxy g.eatenPixels with
      | stays => exact ⟨_, no, hclient, halive', hno, Or.inl rfl⟩
      | eats pixel =>
        exact ⟨{ player.advance pf g.turningSpeed with pixel := pixel }, no,
          hclient.onPixel pixel, halive', hno, Or.inr (Or.inl rfl)⟩
      | eliminated =>
        refine ⟨_, no, hclient, halive', hno, Or.inr (Or.inr ?_)⟩
        by_cases hlt : toUInt8 (g.alivePlayers + 255) < 2
        · exact Or.inr ⟨hlt, by simp only [if_pos hlt]⟩
        · exact Or.inl ⟨not_lt.mp hlt, by simp only [if_neg hlt]⟩

/-! ## Messages from players -/

/-- The entry of a known player is updated, and its acknowledgement passed on. -/
def answered (msg : ClientToServerMessage) (p : Player D) (g : GameTask D) : GameTask D :=
  call (.ack p.fingerprint msg.nextExpectedEventNo)
    (g.setPlayer msg.playerName (p.updated g.gameStarted msg))

/-- A new player joins. -/
def joined (pf : Platform D) (f : Fingerprint) (msg : ClientToServerMessage) (g : GameTask D) :
    GameTask D :=
  call (.addQueue f msg.nextExpectedEventNo)
    { g with players := g.players.insert msg.playerName (.joining pf g.gameStarted f msg) }

variable {pf : Platform D} {f : Fingerprint} {msg : ClientToServerMessage} {g : GameTask D}
  {p : Player D}

theorem handleMessageFromPlayer_of_other (hp : g.players.find? msg.playerName = some p)
    (hf : p.fingerprint ≠ f) : g.handleMessageFromPlayer pf f msg = .ok g := by
  rw [handleMessageFromPlayer, hp]
  exact if_pos hf

theorem handleMessageFromPlayer_of_known (hp : g.players.find? msg.playerName = some p)
    (hf : p.fingerprint = f) :
    g.handleMessageFromPlayer pf f msg = startGameIfReady pf (g.answered msg p) := by
  subst hf
  rw [handleMessageFromPlayer, hp]
  exact if_neg (not_not.mpr rfl)

theorem handleMessageFromPlayer_of_new (hp : g.players.find? msg.playerName = none) :
    g.handleMessageFromPlayer pf f msg =
      match forPlayers (dropIfOlder f msg) g.players.keys g with
      | .error e => .error e
      | .ok g₁ =>
        if g₁.players.size = maxPlayers then .ok g₁
        else startGameIfReady pf (joined pf f msg g₁) := by
  rw [handleMessageFromPlayer, hp]
  simp only [bind, Except.bind]
  cases forPlayers (dropIfOlder f msg) g.players.keys g <;> rfl

theorem startGameIfReady_of_running (pf : Platform D) (hs : g.gameStarted = true) :
    startGameIfReady pf g = .ok g := by
  rw [startGameIfReady, hs]
  rfl

/-- A game is started in the lobby only, once enough players are ready. -/
theorem startGameIfReady_cases {g' : GameTask D} (hready : startGameIfReady pf g = .ok g') :
    g' = g ∨ g.gameStarted = false ∧ canStartGame g.players = true ∧
      g.startGame pf = .ok g' := by
  rw [startGameIfReady] at hready
  split at hready
  · rename_i hc
    simp only [Bool.and_eq_true, Bool.not_eq_true'] at hc
    exact Or.inr ⟨hc.1, hc.2, hready⟩
  · exact Or.inl (Except.ok.inj hready).symm

/-- **What a player's message does**: its player is known, known to another socket, or new. -/
theorem handleMessageFromPlayer_cases {g' : GameTask D}
    (hmsg : g.handleMessageFromPlayer pf f msg = .ok g') :
    (∃ p, g.players.find? msg.playerName = some p ∧ p.fingerprint = f ∧
      startGameIfReady pf (g.answered msg p) = .ok g') ∨
    (∃ p, g.players.find? msg.playerName = some p ∧ p.fingerprint ≠ f ∧ g' = g) ∨
    msg.playerName ∉ g.players ∧ ∃ g₁,
      forPlayers (dropIfOlder f msg) g.players.keys g = .ok g₁ ∧
      (g₁.players.size = maxPlayers ∧ g' = g₁ ∨
        g₁.players.size ≠ maxPlayers ∧ startGameIfReady pf (joined pf f msg g₁) = .ok g') := by
  cases hp : g.players.find? msg.playerName with
  | some p =>
    by_cases hf : p.fingerprint = f
    · rw [handleMessageFromPlayer_of_known hp hf] at hmsg
      exact Or.inl ⟨p, rfl, hf, hmsg⟩
    · rw [handleMessageFromPlayer_of_other hp hf] at hmsg
      exact Or.inr (Or.inl ⟨p, rfl, hf, (Except.ok.inj hmsg).symm⟩)
  | none =>
    refine Or.inr (Or.inr ⟨SortedMap.find?_eq_none.mp hp, ?_⟩)
    rw [handleMessageFromPlayer_of_new hp] at hmsg
    cases hloop : forPlayers (dropIfOlder f msg) g.players.keys g with
    | error e => simp [hloop] at hmsg
    | ok g₁ =>
      simp only [hloop] at hmsg
      refine ⟨g₁, rfl, ?_⟩
      split at hmsg
      · rename_i hfull
        exact Or.inl ⟨hfull, (Except.ok.inj hmsg).symm⟩
      · rename_i hroom
        exact Or.inr ⟨hroom, hmsg⟩

end GameTask

end ScreenWorms
