import ScreenWorms.Server.Clients
import ScreenWorms.Server.FixedPoint

/-!
# Loops that erase what they stand on

Three loops run over `players` while what they call may erase entries. Stepping on from an erased
entry is undefined behaviour.

In `handleMessageFromPlayer` the sender is dropped once for each of its older players. A dropped
watcher costs no player, and while a game is under way a player is only marked. In the lobby the
first player of the sender is erased; it is the one the loop stands on exactly when the first player
is itself an older one (`forPlayers_dropIfOlder_ok_iff`).

In `runTurn` the last elimination but one ends the game, which erases the disconnected players. The
loop stands on the worm just eliminated, so all depends on whether its player is connected; `doomed`
lists the worms a turn eliminates. In `startGame` nobody is disconnected.

## Main definitions

* `GameTask.older` — how many of some players make the loop drop the sender
* `doomed` — the worms a turn eliminates, in order

## Main results

* `dropIfOlder_of_running`, `dropIfOlder_of_watcher` — the outcome of the loop while a game runs
* `no_erasedEntry_iff` — when no loop steps on from an erased entry
-/

namespace ScreenWorms

variable {D : Type}

namespace GameTask

variable {f : Fingerprint} {msg : ClientToServerMessage} {g : GameTask D}

/-! ## The loop over the sender's older players -/

/-- How many of some players make the loop drop the sender. -/
def older (f : Fingerprint) (msg : ClientToServerMessage)
    (players : SortedMap PlayerName (Player D)) (names : List PlayerName) : ℕ :=
  names.countP fun n => (players.find? n).any (·.isOlder f msg)

theorem older_cons (f : Fingerprint) (msg : ClientToServerMessage)
    (players : SortedMap PlayerName (Player D)) (n : PlayerName) (names : List PlayerName) :
    older f msg players (n :: names) = older f msg players names +
      if (players.find? n).any (·.isOlder f msg) then 1 else 0 :=
  List.countP_cons

theorem older_pos {players : SortedMap PlayerName (Player D)} :
    0 < older f msg players players.keys ↔
      ∃ n p, players.find? n = some p ∧ p.isOlder f msg = true := by
  rw [older, List.countP_pos_iff]
  constructor
  · rintro ⟨n, -, hn⟩
    obtain ⟨p, hp, hold⟩ := (Option.any_eq_true _ _).mp hn
    exact ⟨n, p, hp, hold⟩
  · rintro ⟨n, p, hp, hold⟩
    exact ⟨n, SortedMap.mem_keys.mpr (SortedMap.mem_of_find? hp), by simp [hp, hold]⟩

theorem older_markDisconnected (f f' : Fingerprint) (msg : ClientToServerMessage)
    (players : SortedMap PlayerName (Player D)) (names : List PlayerName) :
    older f msg (markDisconnected f' players) names = older f msg players names := by
  refine List.countP_congr fun n _ => ?_
  rw [find?_markDisconnected]
  cases players.find? n with
  | none => rfl
  | some p =>
    simp only [Option.map_some, Option.any_some]
    split <;> rfl

/-- Marking twice is marking once. -/
theorem markDisconnected_markDisconnected (f : Fingerprint)
    (players : SortedMap PlayerName (Player D)) :
    markDisconnected f (markDisconnected f players) = markDisconnected f players := by
  have hfirst : (firstPlayerOf f (markDisconnected f players)).map Prod.fst =
      (firstPlayerOf f players).map Prod.fst := by
    rw [markDisconnected]
    split
    · rfl
    · rename_i e _
      have hsame : (fun e' : PlayerName × Player D => decide
          ((if e'.1 = e.1 then { e'.2 with isDisconnected := true } else e'.2).fingerprint = f)) =
          fun e' => decide (e'.2.fingerprint = f) := by
        funext e'
        split <;> rfl
      simp only [firstPlayerOf, SortedMap.adjust, SortedMap.mapValues, List.find?_map,
        Option.map_map, Function.comp_def, hsame]
  refine SortedMap.ext_find? fun n => ?_
  rw [find?_markDisconnected, hfirst, find?_markDisconnected, Option.map_map]
  cases players.find? n with
  | none => rfl
  | some p => by_cases h : (firstPlayerOf f players).map Prod.fst = some n <;> simp [h]

/-- One round of the loop. -/
theorem forPlayers_dropIfOlder_cons (n : PlayerName) (names : List PlayerName) :
    forPlayers (dropIfOlder f msg) (n :: names) g =
      if (g.players.find? n).any (·.isOlder f msg) then
        if n ∈ (g.dropConnection f).players then
          forPlayers (dropIfOlder f msg) names (g.dropConnection f)
        else .error .erasedEntry
      else forPlayers (dropIfOlder f msg) names g := by
  rw [forPlayers]
  cases hp : g.players.find? n with
  | none => simp
  | some p =>
    simp only [dropIfOlder_eq, Option.any_some]
    by_cases hold : p.isOlder f msg = true
    · simp [hold]
    · have hmem : n ∈ g.players := SortedMap.mem_of_find? hp
      simp [hold, hmem]

/-- The loop passes by players that are not older ones of the sender. -/
theorem dropIfOlder_skip {names : List PlayerName} : ∀ {before : List PlayerName},
    older f msg g.players before = 0 →
    forPlayers (dropIfOlder f msg) (before ++ names) g = forPlayers (dropIfOlder f msg) names g
  | [], _ => rfl
  | n :: before, h => by
    rw [older_cons] at h
    rw [List.cons_append, forPlayers_dropIfOlder_cons, if_neg (by intro hn; simp [hn] at h)]
    exact dropIfOlder_skip (by omega)

/-- Without older players the loop does nothing. -/
theorem dropIfOlder_of_none {names : List PlayerName} (h : older f msg g.players names = 0) :
    forPlayers (dropIfOlder f msg) names g = .ok g := by
  have hskip : forPlayers (dropIfOlder f msg) (names ++ []) g = .ok g := dropIfOlder_skip h
  rwa [List.append_nil] at hskip

/-- **While a game runs**, a sender that does not watch is dropped as often as it has older players,
and its first player is marked. -/
theorem dropIfOlder_of_running (msg : ClientToServerMessage) :
    ∀ {names : List PlayerName} {g : GameTask D}, f ∉ g.watchers →
    g.gameStarted = true → (∀ n ∈ names, n ∈ g.players) →
    forPlayers (dropIfOlder f msg) names g = .ok { g with
      players := if older f msg g.players names = 0 then g.players else markDisconnected f g.players
      calls := g.calls ++ List.replicate (older f msg g.players names) (.dropQueue f) }
  | [], g, _, _, _ => by simp [forPlayers, older]
  | n :: names, g, hw, hs, hmem => by
    rw [forPlayers_dropIfOlder_cons, older_cons, dropConnection_of_running hw hs]
    by_cases hold : (g.players.find? n).any (·.isOlder f msg) = true
    · have hn : ∀ n' ∈ n :: names, n' ∈ markDisconnected f g.players := fun n' hn' =>
        mem_markDisconnected.mpr (hmem n' hn')
      have ih := dropIfOlder_of_running msg (g := { g with
        players := markDisconnected f g.players, calls := g.calls ++ [.dropQueue f] }) hw hs
        fun n' hn' => hn n' (List.mem_cons_of_mem _ hn')
      rw [if_pos hold, if_pos (hn n List.mem_cons_self), ih]
      simp only [older_markDisconnected, markDisconnected_markDisconnected, if_pos hold,
        List.append_assoc, List.replicate_succ, List.singleton_append, ite_self,
        Nat.add_one_ne_zero, if_false]
    · rw [if_neg hold, if_neg hold, dropIfOlder_of_running msg hw hs fun n' hn' =>
        hmem n' (List.mem_cons_of_mem _ hn')]
      rfl

/-- A sender that watches is first dropped as a watcher. -/
theorem dropIfOlder_of_watcher (msg : ClientToServerMessage) :
    ∀ {names : List PlayerName} {g : GameTask D}, f ∈ g.watchers →
    g.gameStarted = true → (∀ n ∈ names, n ∈ g.players) →
    forPlayers (dropIfOlder f msg) names g = .ok { g with
      watchers := if older f msg g.players names = 0 then g.watchers else g.watchers.erase f
      players := if older f msg g.players names ≤ 1 then g.players else markDisconnected f g.players
      calls := g.calls ++ List.replicate (older f msg g.players names) (.dropQueue f) }
  | [], g, _, _, _ => by simp [forPlayers, older]
  | n :: names, g, hw, hs, hmem => by
    rw [forPlayers_dropIfOlder_cons, older_cons, dropConnection_of_watcher hw]
    by_cases hold : (g.players.find? n).any (·.isOlder f msg) = true
    · have hout : f ∉ g.watchers.erase f := by simp
      have hrest := dropIfOlder_of_running msg (g := { g with
        watchers := g.watchers.erase f, calls := g.calls ++ [.dropQueue f] }) hout hs
        fun n' hn' => hmem n' (List.mem_cons_of_mem _ hn')
      have hle : (older f msg g.players names + 1 ≤ 1) = (older f msg g.players names = 0) :=
        propext (by omega)
      rw [if_pos hold, if_pos (hmem n List.mem_cons_self), hrest]
      simp only [if_pos hold, List.append_assoc, List.replicate_succ, List.singleton_append,
        Nat.add_one_ne_zero, if_false, hle]
    · rw [if_neg hold, if_neg hold, dropIfOlder_of_watcher msg hw hs fun n' hn' =>
        hmem n' (List.mem_cons_of_mem _ hn')]
      rfl

/-! ## The loop in the lobby -/

/-- In the lobby, dropping a socket erases its first player and nobody else. -/
theorem mem_dropConnection_of_lobby (hw : f ∉ g.watchers) (hs : g.gameStarted = false)
    (hall : ∀ n p, g.players.find? n = some p → p.isDisconnected = false) {n : PlayerName} :
    n ∈ (g.dropConnection f).players ↔
      n ∈ g.players ∧ (firstPlayerOf f g.players).map Prod.fst ≠ some n := by
  rw [dropConnection_of_lobby hw hs, mem_staying, SortedMap.mem_iff_find?]
  simp only [find?_markDisconnected_eq_some]
  constructor
  · rintro ⟨q, ⟨p, hp, rfl⟩, hd⟩
    refine ⟨⟨p, hp⟩, fun hfirst => ?_⟩
    rw [if_pos hfirst] at hd
    cases hd
  · rintro ⟨⟨p, hp⟩, hfirst⟩
    exact ⟨p, ⟨p, hp, (if_neg hfirst).symm⟩, hall n p hp⟩

/-- The loop stands on the first player of the sender and erases it. -/
theorem dropIfOlder_erased (hw : f ∉ g.watchers) (hs : g.gameStarted = false)
    (hall : ∀ n p, g.players.find? n = some p → p.isDisconnected = false) {n : PlayerName}
    {p : Player D} (hfirst : firstPlayerOf f g.players = some (n, p))
    (hold : p.isOlder f msg = true) :
    forPlayers (dropIfOlder f msg) g.players.keys g = .error .erasedEntry := by
  obtain ⟨-, before, after, hentries, hbefore⟩ := List.find?_eq_some_iff_append.mp hfirst
  have hkeys : g.players.keys = before.map Prod.fst ++ n :: after.map Prod.fst := by
    rw [SortedMap.keys, hentries]
    simp
  have hnone : older f msg g.players (before.map Prod.fst) = 0 := by
    rw [older, List.countP_eq_zero]
    rintro n' hn'
    obtain ⟨⟨n', q⟩, he, rfl⟩ := List.mem_map.mp hn'
    have hq : g.players.find? n' = some q := SortedMap.find?_eq_some.mpr (by
      rw [hentries]
      exact List.mem_append_left _ he)
    have hf : q.fingerprint ≠ f := by simpa using hbefore _ he
    simp [hq, Player.isOlder, hf]
  have hp := (firstPlayerOf_eq_some hfirst).1
  rw [hkeys, dropIfOlder_skip hnone, forPlayers_dropIfOlder_cons, if_pos (by simp [hp, hold])]
  refine if_neg fun hmem => ?_
  exact ((mem_dropConnection_of_lobby hw hs hall).mp hmem).2 (by rw [hfirst]; rfl)

/-- Nothing keeps the loop from going well at any player of `names`. -/
structure Safe (f : Fingerprint) (msg : ClientToServerMessage) (names : List PlayerName)
    (g : GameTask D) : Prop where
  sorted : names.Pairwise (· < ·)
  connected : g.gameStarted = false → ∀ n p, g.players.find? n = some p → p.isDisconnected = false
  safe : f ∈ g.watchers ∨ g.gameStarted = true ∨
    (∃ n p, firstPlayerOf f g.players = some (n, p) ∧ ∀ n' ∈ names, n < n') ∨
    ∀ n p, firstPlayerOf f g.players = some (n, p) → p.isOlder f msg = false

/-- A player of the sender that the loop has passed keeps the rest of the loop safe. -/
theorem Safe.of_passed {names : List PlayerName} {n : PlayerName} {p : Player D}
    (hsorted : (n :: names).Pairwise (· < ·)) (hp : g.players.find? n = some p)
    (hf : p.fingerprint = f) :
    ∃ n₀ p₀, firstPlayerOf f g.players = some (n₀, p₀) ∧ ∀ n' ∈ names, n₀ < n' := by
  obtain ⟨n₀, p₀, hfirst⟩ := exists_firstPlayerOf hp hf
  exact ⟨n₀, p₀, hfirst, fun n' hn' =>
    lt_of_le_of_lt (firstPlayerOf_le hfirst hp hf) ((List.pairwise_cons.mp hsorted).1 n' hn')⟩

theorem Safe.dropIfOlder {names : List PlayerName} {n : PlayerName} {p : Player D}
    (h : Safe f msg (n :: names) g) (hp : g.players.find? n = some p) :
    ∃ g', dropIfOlder f msg n p g = .ok (.next, g') ∧ n ∈ g'.players ∧ Safe f msg names g' := by
  have hmem : n ∈ g.players := SortedMap.mem_of_find? hp
  have hnames := (List.pairwise_cons.mp h.sorted).2
  rw [dropIfOlder_eq]
  by_cases hold : p.isOlder f msg = true
  · have hf := isOlder_fingerprint hold
    refine ⟨_, rfl, ?_⟩
    rw [if_pos hold]
    by_cases hw : f ∈ g.watchers
    · rw [dropConnection_of_watcher hw]
      exact ⟨hmem, hnames, h.connected, Or.inr (Or.inr (Or.inl (of_passed h.sorted hp hf)))⟩
    · cases hs : g.gameStarted with
      | true =>
        rw [dropConnection_of_running hw hs]
        exact ⟨mem_markDisconnected.mpr hmem, hnames,
          fun hs' => absurd (hs.symm.trans hs') (by decide), Or.inr (Or.inl hs)⟩
      | false =>
        -- the first player of the sender is another one, so this one stays
        have hall := h.connected hs
        have hother : (firstPlayerOf f g.players).map Prod.fst ≠ some n := by
          intro heq
          obtain ⟨⟨n₀, p₀⟩, hfirst, rfl⟩ := Option.map_eq_some_iff.mp heq
          rcases h.safe with hw' | hs' | ⟨n₁, p₁, hfirst', hlt⟩ | hnot
          · exact hw hw'
          · exact absurd (hs.symm.trans hs') (by decide)
          · rw [hfirst] at hfirst'
            cases hfirst'
            exact lt_irrefl _ (hlt _ List.mem_cons_self)
          · have hp₀ := (firstPlayerOf_eq_some hfirst).1
            rw [hp] at hp₀
            cases hp₀
            rw [hnot _ _ hfirst] at hold
            cases hold
        have hstays := (mem_dropConnection_of_lobby hw hs hall).mpr ⟨hmem, hother⟩
        rw [dropConnection_of_lobby hw hs] at hstays ⊢
        have hp' : (staying (markDisconnected f g.players)).find? n =
            some { p with isReadyToPlay := false } :=
          find?_staying.mpr ⟨p, find?_markDisconnected_eq_some.mpr
            ⟨p, hp, (if_neg hother).symm⟩, hall n p hp, rfl⟩
        refine ⟨hstays, hnames, fun _ n' q hq => ?_, Or.inr (Or.inr (Or.inl ?_))⟩
        · obtain ⟨q', -, hd, rfl⟩ := find?_staying.mp hq
          exact hd
        · exact of_passed (g := { g with players := staying (markDisconnected f g.players) })
            h.sorted hp' hf
  · refine ⟨g, by rw [if_neg hold], hmem, hnames, h.connected, ?_⟩
    exact h.safe.imp_right fun hs => hs.imp_right fun hsafe => hsafe.imp_left
      fun ⟨n₀, p₀, hfirst, hlt⟩ =>
        ⟨n₀, p₀, hfirst, fun n' hn' => hlt n' (List.mem_cons_of_mem _ hn')⟩

/-- **When the loop goes well**: unless the sender is in the lobby, does not watch, and its first
player is an older one. -/
theorem forPlayers_dropIfOlder_ok_iff (f : Fingerprint) (msg : ClientToServerMessage)
    {g : GameTask D}
    (hall : g.gameStarted = false → ∀ n p, g.players.find? n = some p → p.isDisconnected = false) :
    (∃ g', forPlayers (dropIfOlder f msg) g.players.keys g = .ok g') ↔
      f ∈ g.watchers ∨ g.gameStarted = true ∨
      ∀ n p, firstPlayerOf f g.players = some (n, p) → p.isOlder f msg = false := by
  constructor
  · rintro ⟨g', hg'⟩
    by_contra hnot
    simp only [not_or, not_forall, Bool.not_eq_true, Bool.not_eq_false] at hnot
    obtain ⟨hw, hs, n, p, hfirst, hold⟩ := hnot
    rw [dropIfOlder_erased hw hs (hall hs) hfirst hold] at hg'
    cases hg'
  · intro h
    obtain ⟨g', hg', -⟩ := forPlayers_total (I := fun names g => Safe f msg names g)
      (Q := fun _ => True) (fun _ _ _ hI _ => ⟨(List.pairwise_cons.mp hI.sorted).2, hI.connected,
        hI.safe.imp_right fun hs => hs.imp_right fun hsafe => hsafe.imp_left
          fun ⟨n₀, p₀, hfirst, hlt⟩ =>
            ⟨n₀, p₀, hfirst, fun n' hn' => hlt n' (List.mem_cons_of_mem _ hn')⟩⟩)
      (fun _ _ _ _ hI hp => Or.inl (hI.dropIfOlder hp)) (fun _ _ => trivial)
      (⟨g.players.sorted, hall, h.imp_right fun hs => hs.imp_right Or.inr⟩ :
        Safe f msg g.players.keys g)
    exact ⟨g', hg'⟩

end GameTask

/-! ## The loop over the worms -/

/-- The worms a turn eliminates if it goes on to the end, in order. -/
def doomed (pf : Platform D) (turningSpeed maxx maxy : ℕ) :
    Finset (ℕ × ℕ) → List (PlayerName × Player D) → List PlayerName
  | _, [] => []
  | eatenPixels, e :: es =>
    if e.2.isAlive then
      match (e.2.advance pf turningSpeed).verdict pf maxx maxy eatenPixels with
      | .stays => doomed pf turningSpeed maxx maxy eatenPixels es
      | .eats pixel => doomed pf turningSpeed maxx maxy (insert pixel eatenPixels) es
      | .eliminated => e.1 :: doomed pf turningSpeed maxx maxy eatenPixels es
    else doomed pf turningSpeed maxx maxy eatenPixels es

/-- Nobody who has this name is disconnected. -/
def ConnectedAs (players : SortedMap PlayerName (Player D)) (name : PlayerName) : Prop :=
  ∀ p, players.find? name = some p → p.isDisconnected = false

theorem connectedAs_adjust {players : SortedMap PlayerName (Player D)} {n name : PlayerName}
    {p q : Player D} (hp : players.find? n = some p) (hpq : p.SameClient q) :
    ConnectedAs (players.adjust n fun _ => q) name ↔ ConnectedAs players name := by
  rw [ConnectedAs, ConnectedAs, SortedMap.find?_adjust]
  by_cases hname : name = n
  · subst hname
    simp [hp, hpq.isDisconnected]
  · simp [hname]

namespace GameTask

theorem moveWorm_over (pf : Platform D) {g : GameTask D} (hs : g.gameStarted = false) :
    ∀ names : List PlayerName, forPlayers (moveWorm pf) names g = .ok g
  | [] => rfl
  | n :: names => by
    rw [forPlayers]
    cases hp : g.players.find? n with
    | none => exact moveWorm_over pf hs names
    | some p => simp only [moveWorm_of_over pf n p hs]

theorem mem_endGame_eliminated (no : ℕ) {g : GameTask D} {n : PlayerName} {p q : Player D}
    (hp : g.players.find? n = some p) (hpq : p.SameClient q) :
    n ∈ (eliminated n q no g).endGame.players ↔ ConnectedAs g.players n := by
  rw [endGame_eq, mem_staying]
  simp [eliminated, SortedMap.find?_adjust, ConnectedAs, hp, hpq.isDisconnected]

/-- **When a turn goes well**: unless the elimination that ends the game is that of a disconnected
player. The induction is on the entries still to be visited, `es`. -/
theorem forPlayers_moveWorm_ok_iff (pf : Platform D) : ∀ {es : List (PlayerName × Player D)}
    {g : GameTask D}, g.toGameState.Sound → g.gameStarted = true →
    (∀ e ∈ es, g.players.find? e.1 = some e.2) → (es.map Prod.fst).Nodup →
    ((∃ g', forPlayers (moveWorm pf) (es.map Prod.fst) g = .ok g') ↔
      ∀ name, (doomed pf g.turningSpeed g.maxx g.maxy g.eatenPixels es)[g.alivePlayers - 2]? =
        some name → ConnectedAs g.players name)
  | [], g, _, _, _, _ => by simp [forPlayers, doomed]
  | (n, p) :: es, g, h, hs, hes, hnodup => by
    obtain ⟨hnot, hnodup'⟩ := List.nodup_cons.mp hnodup
    have hp : g.players.find? n = some p := hes (n, p) List.mem_cons_self
    have hmem : n ∈ g.players := SortedMap.mem_of_find? hp
    have hrun := h.running hs
    have hrest : ∀ e ∈ es, g.players.find? e.1 = some e.2 :=
      fun e he => hes e (List.mem_cons_of_mem _ he)
    -- an entry still to be visited is not the one a worm's move writes
    have hwritten : ∀ {q : Player D}, ∀ e ∈ es,
        (g.players.adjust n fun _ => q).find? e.1 = some e.2 := fun e he => by
      have hne : e.1 ≠ n := fun heq => hnot (heq ▸ List.mem_map.mpr ⟨e, he, rfl⟩)
      rw [SortedMap.find?_adjust_of_ne hne]
      exact hrest e he
    rw [List.map_cons, forPlayers, hp]
    cases halive : p.isAlive with
    | false =>
      simp only [moveWorm_of_not_alive pf n hs halive, if_pos hmem, doomed, halive,
        Bool.false_eq_true, if_false]
      exact forPlayers_moveWorm_ok_iff pf h hs hrest hnodup'
    | true =>
      obtain ⟨no, hno⟩ := h.toOrderly.number hs hp (by simp [halive])
      have hbody := moveWorm_of_alive pf n hs halive hno
      have hsame := Player.sameClient_advance pf g.turningSpeed p
      simp only [doomed, halive, if_true]
      cases hv : (p.advance pf g.turningSpeed).verdict pf g.maxx g.maxy g.eatenPixels with
      | stays =>
        simp only [hv] at hbody ⊢
        have ih := forPlayers_moveWorm_ok_iff pf (h.moveWorm hp hbody) hs hwritten hnodup'
        simp only [hbody, setPlayer, SortedMap.mem_adjust, if_pos hmem] at ih ⊢
        simpa only [connectedAs_adjust hp hsame] using ih
      | eats pixel =>
        simp only [hv] at hbody ⊢
        have hsame' : p.SameClient { p.advance pf g.turningSpeed with pixel := pixel } :=
          hsame.onPixel pixel
        have ih := forPlayers_moveWorm_ok_iff pf (h.moveWorm hp hbody) hs hwritten hnodup'
        simp only [hbody, ate, SortedMap.mem_adjust, if_pos hmem] at ih ⊢
        simpa only [connectedAs_adjust hp hsame'] using ih
      | eliminated =>
        have hsame' : p.SameClient { p.advance pf g.turningSpeed with isEliminated := true } :=
          hsame.eliminated
        have hcount := hrun.toUInt8_alive h.toRegistered
        have hge := hrun.alive_ge
        simp only [hv, hcount] at hbody ⊢
        by_cases hlast : g.alivePlayers = 2
        · have hover : (GameTask.eliminated n (p.advance pf g.turningSpeed) no
              g).endGame.gameStarted = false := by rw [endGame_eq]
          simp only [hlast, Nat.reduceSub, Nat.one_lt_two, if_true] at hbody
          simp only [hbody, moveWorm_over pf hover, hlast, Nat.sub_self, List.getElem?_cons_zero,
            Option.some.injEq, forall_eq']
          rw [← mem_endGame_eliminated no hp hsame]
          split
          · rename_i hstays
            simp [hstays]
          · rename_i hgone
            simp [hgone]
        · have hlt : ¬ g.alivePlayers - 1 < 2 := by omega
          simp only [if_neg hlt] at hbody
          have hsound := h.moveWorm hp hbody
          have ih := forPlayers_moveWorm_ok_iff pf hsound hs hwritten hnodup'
          have hidx : g.alivePlayers - 2 = (g.alivePlayers - 1 - 2) + 1 := by omega
          simp only [hbody, GameTask.eliminated, SortedMap.mem_adjust, if_pos hmem, hcount] at ih ⊢
          rw [hidx]
          simpa only [List.getElem?_cons_succ, connectedAs_adjust hp hsame'] using ih

/-- A turn goes wrong in one way only. -/
theorem forPlayers_moveWorm_total (pf : Platform D) {g : GameTask D} (h : g.toGameState.Sound)
    {e : Fault} (herr : g.runTurn pf = .error e) : e = .erasedEntry := by
  refine forPlayers_error (I := fun g => g.toGameState.Sound) (fun n g p flow g' hI hp hb =>
    hI.moveWorm hp hb) (fun n g p e hI hp hb => ?_) h herr
  rcases moveWorm_cases pf n fun hs ha => hI.toOrderly.number hs hp (by simp [ha]) with
    ⟨-, heq⟩ | ⟨-, -, heq⟩ | ⟨-, -, _, _, -, -, -, heq | heq | ⟨-, heq⟩ | ⟨-, heq⟩⟩ <;>
      rw [heq] at hb <;> cases hb

end GameTask

/-! ## Every message and every turn -/

open GameTask

/-- When the loops of an operation never erase the entry they stand on. In a message from an
unknown player, the sender watches, or a game is under way, or the sender's first player is not
older than the message. In a turn, the worm whose elimination ends the game is not the one of a
disconnected player. -/
def GameOp.LoopsSafely (pf : Platform D) (g : GameState D) : GameOp → Prop
  | .message f msg => msg.playerNameSize ≠ 0 → msg.playerName ∉ g.players →
    f ∈ g.watchers ∨ g.gameStarted = true ∨
      ∀ n p, firstPlayerOf f g.players = some (n, p) → p.isOlder f msg = false
  | .drop _ => True
  | .turn => g.gameStarted = true → ∀ name,
    (doomed pf g.turningSpeed g.maxx g.maxy g.eatenPixels g.players.entries)[g.alivePlayers - 2]? =
      some name → ConnectedAs g.players name

/-- **When no loop steps on from an entry it has erased.** -/
theorem no_erasedEntry_iff {pf : Platform D} {gm : GameManager D}
    (hgm : (managerMachine pf).Reachable gm) (op : GameOp) :
    op.run pf ⟨gm.toGameState, []⟩ ≠ .error .erasedEntry ↔ op.LoopsSafely pf gm.toGameState := by
  have hsound := ((managerMachine_consistent pf).reachable hgm).sound
  generalize gm.toGameState = g at hsound
  cases op with
  | drop f => simp [GameOp.run, GameOp.LoopsSafely]
  | turn =>
    simp only [GameOp.run, GameOp.LoopsSafely]
    cases hs : g.gameStarted with
    | false =>
      have hover : GameTask.runTurn pf ⟨g, []⟩ = .ok ⟨g, []⟩ := moveWorm_over pf hs _
      simp [hover]
    | true =>
      have hiff := @forPlayers_moveWorm_ok_iff _ pf g.players.entries ⟨g, []⟩ hsound hs
        (fun e he => SortedMap.find?_eq_some.mpr he) g.players.nodup_keys
      simp only [true_implies]
      rw [← hiff]
      cases hturn : GameTask.runTurn pf ⟨g, []⟩ with
      | ok g' => exact ⟨fun _ => ⟨g', hturn⟩, fun _ => by simp⟩
      | error e =>
        obtain rfl : e = .erasedEntry := forPlayers_moveWorm_total pf (g := ⟨g, []⟩) hsound hturn
        refine ⟨fun hne => (hne rfl).elim, ?_⟩
        rintro ⟨g', hg'⟩
        exact absurd (hturn.symm.trans hg') (by simp)
  | message f msg =>
    simp only [GameOp.run, GameOp.LoopsSafely, GameTask.handleMessage]
    split
    · rename_i hname
      simp [hname]
    · rename_i hname
      have ready : ∀ {g₁ : GameTask D}, g₁.toGameState.Orderly [] →
          startGameIfReady pf g₁ ≠ .error .erasedEntry := fun ho herr => by
        obtain ⟨g', hg', -⟩ := ho.startGameIfReady pf
        rw [hg'] at herr
        cases herr
      cases hp : g.players.find? msg.playerName with
      | some p =>
        have hmem := SortedMap.mem_of_find? hp
        simp only [hmem, not_true, false_implies, implies_true, iff_true]
        by_cases hf : p.fingerprint = f
        · rw [handleMessageFromPlayer_of_known (g := ⟨g, []⟩) hp hf]
          exact ready (GameState.Sound.answered (g := ⟨g, []⟩) hsound hp)
        · rw [handleMessageFromPlayer_of_other (g := ⟨g, []⟩) hp hf]
          simp
      | none =>
        have hnew : msg.playerName ∉ g.players := SortedMap.find?_eq_none.mp hp
        have hiff := forPlayers_dropIfOlder_ok_iff f msg (g := ⟨g, []⟩)
          hsound.lobby_connected
        rw [handleMessageFromPlayer_of_new (g := ⟨g, []⟩) hp]
        simp only [hname, hnew, not_false_eq_true, true_implies, ne_eq]
        rw [← hiff]
        cases hloop : forPlayers (GameTask.dropIfOlder f msg) g.players.keys ⟨g, []⟩ with
        | error e =>
          have he : e = .erasedEntry := forPlayers_error (I := fun _ => True)
            (fun _ _ _ _ _ _ _ _ => trivial)
            (fun n g p e _ _ hb => by rw [dropIfOlder_eq] at hb; cases hb) trivial hloop
          simp [he]
        | ok g₁ =>
          obtain ⟨hsound₁, hsub⟩ := GameState.Sound.dropIfOlder (g := ⟨g, []⟩) hsound hloop
          simp only [Except.ok.injEq, exists_eq', iff_true]
          split
          · simp
          · rename_i hsize
            exact ready (hsound₁.joined pf f hname (fun hm => hnew (hsub _ hm)) hsize)

/-- A known player's message is safe. -/
theorem no_erasedEntry_known : ∃ s : Server ℤ, (serverMachine fixedPoint).Reachable s ∧
    (GameOp.message [1] (letter 5 .straight 97)).run fixedPoint ⟨s.gameManager.toGameState, []⟩ ≠
      .error .erasedEntry := by
  obtain ⟨s, hs, hmem⟩ := exists_reachable
    (P := fun s => (letter 5 .straight 97).playerName ∈ s.gameManager.players)
    (smallBoard 5 (by decide)) [.said 0 1 5 .straight 0 [97]] (by decide +kernel)
  exact ⟨s, hs, (no_erasedEntry_iff (reachable_gameManager hs) _).mpr
    fun _ hnew => absurd hmem hnew⟩

/-- In the lobby, the socket of player `a` sends a message of player `b` with a greater session
number. The loop erases `a` while it stands on it. -/
theorem erasedEntry_newer_session : ∃ s : Server ℤ, (serverMachine fixedPoint).Reachable s ∧
    (GameOp.message [1] (letter 6 .straight 98)).run fixedPoint ⟨s.gameManager.toGameState, []⟩ =
      .error .erasedEntry :=
  exists_reachable (smallBoard 5 (by decide)) [.said 0 1 5 .straight 0 [97]] (by decide +kernel)

end ScreenWorms
