import Mathlib.Algebra.BigOperators.Group.List.Basic
import ScreenWorms.Server.Leaving
import ScreenWorms.Server.Sessions

/-!
# Smaller and larger session numbers

A socket that holds a client should be able to replace it by a message with a larger session number,
and a message with a smaller one should be ignored. `SessionLaw` states both for all clients of the
sender; `sessionLaw_iff` says when they hold.

A message of a known player never looks at the session number. One of an unknown player drops the
sender once for every older player, and in the lobby this erases what the loop stands on. Only a
watcher that stays a watcher is replaced as it should be, and a player whose name changes during a
game.

## Main definitions

* `GameState.ClientSession` — the session numbers of the clients of a socket
* `GameManager.Reconnects`, `GameManager.SessionLaw`
* `GameManager.Ignores`, `GameManager.Replaces` — when the two halves of the law hold

## Main results

* `size_dropIfOlder_of_lobby` — in the lobby every older player costs the sender one player
* `handleMessage_eq_self_iff`, `reconnects_iff` — the two halves
* `sessionLaw_iff` — when a message obeys the law
-/

namespace ScreenWorms

variable {D : Type}

open GameTask MQManager

/-! ## The loop in the lobby, counted -/

namespace GameTask

variable {f : Fingerprint} {msg : ClientToServerMessage} {g g' : GameTask D}

theorem size_dropConnection_of_lobby (hw : f ∉ g.watchers) (hs : g.gameStarted = false)
    (hall : ∀ n p, g.players.find? n = some p → p.isDisconnected = false) {n₀ : PlayerName}
    {p₀ : Player D} (hfirst : firstPlayerOf f g.players = some (n₀, p₀)) :
    (g.dropConnection f).players.size + 1 = g.players.size := by
  have hmem : n₀ ∈ g.players := SortedMap.mem_of_find? (firstPlayerOf_eq_some hfirst).1
  rw [← SortedMap.size_erase hmem]
  refine congrArg (· + 1) (SortedMap.size_congr fun n => ?_)
  rw [mem_dropConnection_of_lobby hw hs hall, SortedMap.mem_erase, hfirst, and_comm]
  simp [eq_comm]

/-- Who is older does not depend on being ready. -/
theorem older_dropConnection_of_lobby (hw : f ∉ g.watchers) (hs : g.gameStarted = false)
    (hall : ∀ n p, g.players.find? n = some p → p.isDisconnected = false) {n₀ : PlayerName}
    {p₀ : Player D} (hfirst : firstPlayerOf f g.players = some (n₀, p₀)) {names : List PlayerName}
    (hnot : n₀ ∉ names) :
    older f msg (g.dropConnection f).players names = older f msg g.players names := by
  refine List.countP_congr fun n hn => ?_
  have hother : (firstPlayerOf f g.players).map Prod.fst ≠ some n := by
    rw [hfirst]
    rintro ⟨⟩
    exact hnot hn
  rw [dropConnection_of_lobby hw hs, find?_staying_markDisconnected hall hother]
  rcases g.players.find? n with _ | p
  · rfl
  · rfl

/-- **In the lobby every older player costs the sender one player**, if the loop goes well. -/
theorem size_dropIfOlder_of_lobby : ∀ {names : List PlayerName} {g : GameTask D},
    names.Pairwise (· < ·) → f ∉ g.watchers → g.gameStarted = false →
    (∀ n p, g.players.find? n = some p → p.isDisconnected = false) →
    forPlayers (dropIfOlder f msg) names g = .ok g' →
    g'.players.size + older f msg g.players names = g.players.size
  | [], g, _, _, _, _, hloop => by
    obtain rfl : g = g' := Except.ok.inj hloop
    rfl
  | n :: names, g, hsorted, hw, hs, hall, hloop => by
    obtain ⟨hlt, hsorted'⟩ := List.pairwise_cons.mp hsorted
    rw [forPlayers_dropIfOlder_cons] at hloop
    rw [older_cons]
    split at hloop
    · rename_i hold
      rw [if_pos hold]
      split at hloop
      · rename_i hstays
        obtain ⟨p, hp, hpold⟩ := (Option.any_eq_true _ _).mp hold
        have hf := isOlder_fingerprint hpold
        obtain ⟨n₀, p₀, hfirst⟩ := exists_firstPlayerOf hp hf
        -- the erased player comes before the one the loop stands on
        have hne : n₀ ≠ n := fun he =>
          ((mem_dropConnection_of_lobby hw hs hall).mp hstays).2 (by rw [hfirst, he]; rfl)
        have hbefore : n₀ < n := lt_of_le_of_ne (firstPlayerOf_le hfirst hp hf) hne
        have hnot : n₀ ∉ names := fun hmem => lt_asymm hbefore (hlt n₀ hmem)
        have hsize := size_dropConnection_of_lobby hw hs hall hfirst
        have hconnected : ∀ n q, (g.dropConnection f).players.find? n = some q →
            q.isDisconnected = false := by
          intro n q hq
          rw [dropConnection_of_lobby hw hs] at hq
          obtain ⟨q, -, hd, rfl⟩ := find?_staying.mp hq
          exact hd
        have hrest := size_dropIfOlder_of_lobby hsorted' (g := g.dropConnection f)
          (by rw [dropConnection_of_lobby hw hs]; exact hw)
          (by rw [dropConnection_of_lobby hw hs]; exact hs) hconnected hloop
        rw [older_dropConnection_of_lobby hw hs hall hfirst hnot] at hrest
        omega
      · exact absurd hloop (by simp)
    · rename_i hnold
      rw [if_neg hnold, Nat.add_zero]
      exact size_dropIfOlder_of_lobby hsorted' hw hs hall hloop

theorem watchers_dropConnection {f' : Fingerprint} (h : f' ∈ (g.dropConnection f).watchers) :
    f' ∈ g.watchers := by
  by_cases hw : f ∈ g.watchers
  · rw [dropConnection_of_watcher hw] at h
    exact (SortedMap.mem_erase.mp h).2
  · rcases hs : g.gameStarted with _ | _
    · rw [dropConnection_of_lobby hw hs] at h
      exact h
    · rw [dropConnection_of_running hw hs] at h
      exact h

/-- The loop adds no watcher. -/
theorem watchers_dropIfOlder {names : List PlayerName}
    (hloop : forPlayers (dropIfOlder f msg) names g = .ok g') {f' : Fingerprint}
    (h : f' ∈ g'.watchers) : f' ∈ g.watchers := by
  revert h
  exact forPlayers_dropIfOlder_invariant (I := fun g₁ => f' ∈ g₁.watchers → f' ∈ g.watchers)
    (fun g₁ hI h₁ => hI (watchers_dropConnection h₁)) id hloop

/-- A sender that watches does not lose a player for the first of them, but no longer watches. -/
theorem size_dropIfOlder_of_watcher : ∀ {names : List PlayerName} {g : GameTask D},
    names.Pairwise (· < ·) → f ∈ g.watchers → g.gameStarted = false →
    (∀ n p, g.players.find? n = some p → p.isDisconnected = false) →
    forPlayers (dropIfOlder f msg) names g = .ok g' → 0 < older f msg g.players names →
    f ∉ g'.watchers ∧ g'.players.size + older f msg g.players names = g.players.size + 1
  | [], _, _, _, _, _, _, hpos => absurd hpos (by simp [older])
  | n :: names, g, hsorted, hw, hs, hall, hloop, hpos => by
    obtain ⟨-, hsorted'⟩ := List.pairwise_cons.mp hsorted
    rw [forPlayers_dropIfOlder_cons] at hloop
    rw [older_cons] at hpos ⊢
    split at hloop
    · rename_i hold
      rw [if_pos hold]
      rw [dropConnection_of_watcher hw] at hloop
      split at hloop
      · have hout : f ∉ g.watchers.erase f := by simp
        have hrest := size_dropIfOlder_of_lobby hsorted' (g := { g with
          watchers := g.watchers.erase f, calls := g.calls ++ [.dropQueue f] }) hout hs hall hloop
        exact ⟨fun hf => hout (watchers_dropIfOlder hloop hf), by simp only at hrest; omega⟩
      · exact absurd hloop (by simp)
    · rename_i hnold
      rw [if_neg hnold, Nat.add_zero] at hpos ⊢
      exact size_dropIfOlder_of_watcher hsorted' hw hs hall hloop hpos

end GameTask

/-! ## The law -/

/-- A socket holds a connected client with this session number. -/
inductive GameState.ClientSession (g : GameState D) (f : Fingerprint) : ℕ → Prop
  | watcher {w : Watcher} : g.watchers.find? f = some w → ClientSession g f w.sessionId
  | player {n : PlayerName} {p : Player D} : g.players.find? n = some p → p.fingerprint = f →
    p.isDisconnected = false → ClientSession g f p.sessionId

namespace GameManager

/-- The message has the same outcome as dropping its sender first. -/
def Reconnects (pf : Platform D) (f : Fingerprint) (msg : ClientToServerMessage)
    (gm : GameManager D) : Prop :=
  ∃ gm₁ gm₂, gm.dropConnection f = .ok gm₁ ∧ gm₁.handleMessage pf f msg = .ok gm₂ ∧
    gm.handleMessage pf f msg = .ok gm₂

/-- Session numbers decide: a message with a smaller one than that of a client of its sender changes
nothing, and one with a larger one replaces the client. -/
structure SessionLaw (pf : Platform D) (f : Fingerprint) (msg : ClientToServerMessage)
    (gm : GameManager D) : Prop where
  ignores : ∀ sessionId, gm.ClientSession f sessionId → msg.sessionId < sessionId →
    gm.handleMessage pf f msg = .ok gm
  replaces : ∀ sessionId, gm.ClientSession f sessionId → sessionId < msg.sessionId →
    gm.Reconnects pf f msg

/-! ## When it holds -/

/-- Dropping the socket would change nothing: a game is under way, and the socket does not watch,
has no queue, and its first player is disconnected. -/
structure NothingToDrop (f : Fingerprint) (gm : GameManager D) : Prop where
  started : gm.gameStarted = true
  watcher : f ∉ gm.watchers
  queue : f ∉ gm.mqManager.queues
  player : ∀ n p, firstPlayerOf f gm.players = some (n, p) → p.isDisconnected = true

/-- An acknowledgement of the socket would change nothing: a game waits, or the socket is at this
position. -/
def NothingToAck (f : Fingerprint) (nextExpectedEventNo : ℕ) (gm : GameManager D) : Prop :=
  gm.mqManager.nextGames ≠ [] ∨ gm.mqManager.queues.find? f =
    some (min (toUInt32 gm.mqManager.currentGameEvents.length) nextExpectedEventNo)

/-- The message tells nothing new about the player: it goes on as before, and is or need not get
ready. -/
def NothingNew (msg : ClientToServerMessage) (p : Player D) (gm : GameManager D) : Prop :=
  p.turnDirection = msg.turnDirection ∧
    (gm.gameStarted = true ∨ msg.turnDirection = .straight ∨ p.isReadyToPlay = true)

/-- When the message is ignored. A watcher's must be older, or repeat what is known. That of a known
player must come from another socket, or repeat what is known. For an unknown player there must be
no room, and no older player of the sender, or none to drop. -/
def Ignores (f : Fingerprint) (msg : ClientToServerMessage) (gm : GameManager D) : Prop :=
  if msg.playerNameSize = 0 then
    ∀ w, gm.watchers.find? f = some w → msg.sessionId < w.sessionId ∨
      msg.sessionId = w.sessionId ∧ gm.NothingToAck f msg.nextExpectedEventNo
  else
    match gm.players.find? msg.playerName with
    | some p => p.fingerprint = f →
      gm.NothingNew msg p ∧ gm.NothingToAck f msg.nextExpectedEventNo
    | none => gm.players.size = maxPlayers ∧
      ((∀ n p, gm.players.find? n = some p → p.isOlder f msg = false) ∨ gm.NothingToDrop f)

/-- When the message replaces the clients of its sender. A watcher must be its only one, or there
must be none to drop. For a known player there must be none to drop, and if it is the sender's own,
a game must wait. For an unknown player a game must be under way, and if the sender watches, two of
its players must be older. -/
def Replaces (f : Fingerprint) (msg : ClientToServerMessage) (gm : GameManager D) : Prop :=
  if msg.playerNameSize = 0 then
    (f ∈ gm.watchers ∧ ∀ n p, gm.players.find? n = some p → p.fingerprint ≠ f) ∨
      gm.NothingToDrop f
  else
    match gm.players.find? msg.playerName with
    | some p => gm.NothingToDrop f ∧ (p.fingerprint = f → gm.mqManager.nextGames ≠ [])
    | none => gm.gameStarted = true ∧
      (f ∈ gm.watchers → 2 ≤ older f msg gm.players gm.players.keys)

end GameManager

/-! ## Dropping the sender -/

namespace GameManager

variable {pf : Platform D} {f : Fingerprint} {msg : ClientToServerMessage} {gm gm' : GameManager D}

/-- A connected client of a socket that does not watch is a player. -/
theorem exists_player_of_clientSession {sessionId : ℕ} (h : gm.ClientSession f sessionId)
    (hw : f ∉ gm.watchers) : ∃ n p, gm.players.find? n = some p ∧ p.fingerprint = f ∧
      p.isDisconnected = false ∧ p.sessionId = sessionId := by
  rcases h with hfind | ⟨hp, hf, hd⟩
  · exact absurd (SortedMap.mem_of_find? hfind) hw
  · exact ⟨_, _, hp, hf, hd, rfl⟩

/-- **When dropping a socket with a connected client changes nothing.** -/
theorem dropConnection_eq_self_iff (hgm : gm.Consistent) {sessionId : ℕ}
    (hclient : gm.ClientSession f sessionId) :
    gm.dropConnection f = .ok gm ↔ gm.NothingToDrop f := by
  constructor
  · intro h
    have hw : f ∉ gm.watchers := by
      intro hw
      rw [dropConnection_of_watcher hw] at h
      have hwatchers : gm.watchers.erase f = gm.watchers :=
        congrArg (fun gm : GameManager D => gm.watchers) (Except.ok.inj h)
      rw [← hwatchers] at hw
      exact (SortedMap.mem_erase.mp hw).1 rfl
    obtain ⟨n, p, hp, hf, -⟩ := exists_player_of_clientSession hclient hw
    obtain ⟨n₀, p₀, hfirst⟩ := exists_firstPlayerOf hp hf
    rcases hs : gm.gameStarted with _ | _
    · rw [dropConnection_of_lobby hgm hw hs] at h
      have hplayers := congrArg (fun gm : GameManager D => gm.players.size) (Except.ok.inj h)
      have hsize := size_dropConnection_of_lobby (g := ⟨gm.toGameState, []⟩) hw hs
        (hgm.sound.lobby_connected hs) hfirst
      rw [GameTask.dropConnection_of_lobby (g := ⟨gm.toGameState, []⟩) hw hs] at hsize
      simp only at hplayers hsize
      omega
    · rw [dropConnection_of_running hw hs] at h
      have hq : gm.mqManager.queues.erase f = gm.mqManager.queues :=
        congrArg (fun gm : GameManager D => gm.mqManager.queues) (Except.ok.inj h)
      have hplayers : markDisconnected f gm.players = gm.players :=
        congrArg (fun gm : GameManager D => gm.players) (Except.ok.inj h)
      refine ⟨hs, hw, fun hmem => ?_, fun n p hfirst' => ?_⟩
      · rw [← hq] at hmem
        exact (SortedMap.mem_erase.mp hmem).1 rfl
      · have hmarked : (markDisconnected f gm.players).find? n =
            some { p with isDisconnected := true } :=
          find?_markDisconnected_eq_some.mpr
            ⟨p, (firstPlayerOf_eq_some hfirst').1, by rw [hfirst', Option.map_some, if_pos rfl]⟩
        rw [hplayers, (firstPlayerOf_eq_some hfirst').1] at hmarked
        rw [Option.some.inj hmarked]
  · rintro ⟨hs, hw, hq, hfirst⟩
    have hplayers : markDisconnected f gm.players = gm.players := by
      rw [markDisconnected]
      split
      · rfl
      · rename_i e he
        obtain ⟨n, p⟩ := e
        have hd := hfirst n p he
        exact SortedMap.adjust_of_find? (firstPlayerOf_eq_some he).1 (by rw [← hd])
    rw [dropConnection_of_running hw hs, hplayers, hgm.wellFormed.dropQueue_of_not_mem hq]

/-! ## Messages without a name -/

theorem ack_eq_self_iff {n : ℕ} :
    gm.mqManager.ack f n = .ok gm.mqManager ↔ gm.NothingToAck f n := by
  rw [MQManager.ack, NothingToAck]
  by_cases hn : gm.mqManager.nextGames = []
  · refine Iff.trans ?_ (or_iff_right (not_not.mpr hn)).symm
    rw [if_pos (by simp [hn])]
    constructor
    · intro h
      split at h
      · have hqueues : gm.mqManager.queues.set f
            (min (toUInt32 gm.mqManager.currentGameEvents.length) n) = gm.mqManager.queues :=
          congrArg MQManager.queues (Except.ok.inj h)
        rw [← hqueues]
        simp
      · exact absurd h (by simp)
    · intro h
      rw [if_pos (SortedMap.mem_of_find? h), SortedMap.set_of_find? h]
  · rw [if_neg (by simpa using hn)]
    exact iff_of_true rfl (Or.inl hn)

theorem handleMessage_of_task (hname : msg.playerNameSize = 0) {g : GameTask D} {mq : MQManager}
    (hg : GameTask.handleMessageFromWatcher f msg ⟨gm.toGameState, []⟩ = g)
    (hcalls : gm.mqManager.execAll g.calls = .ok mq) :
    gm.handleMessage pf f msg = .ok ⟨g.toGameState, mq⟩ :=
  perform_eq_ok.mpr ⟨g, by rw [GameTask.handleMessage, if_pos hname, hg], hcalls, rfl⟩

/-- The socket of a player does not become a watcher. -/
theorem handleMessage_of_player (hname : msg.playerNameSize = 0) (hw : f ∉ gm.watchers)
    {n : PlayerName} {p : Player D} (hp : gm.players.find? n = some p) (hf : p.fingerprint = f) :
    gm.handleMessage pf f msg = .ok gm := by
  refine handleMessage_of_task hname (g := ⟨gm.toGameState, []⟩) ?_ rfl
  have hany : (gm.players.entries.any fun p => decide (p.2.fingerprint = f)) = true :=
    List.any_eq_true.mpr ⟨(n, p), SortedMap.find?_eq_some.mp hp, by simpa using hf⟩
  rw [handleMessageFromWatcher, SortedMap.find?_eq_none.mpr hw]
  exact if_pos hany

/-- A new socket starts to watch. -/
theorem handleMessage_of_stranger (hname : msg.playerNameSize = 0) (hw : f ∉ gm.watchers)
    (hnone : ∀ n p, gm.players.find? n = some p → p.fingerprint ≠ f) :
    gm.handleMessage pf f msg = .ok { gm with
      watchers := gm.watchers.insert f ⟨msg.sessionId⟩
      mqManager := gm.mqManager.addQueue f msg.nextExpectedEventNo } := by
  refine handleMessage_of_task hname (g := { gm.toGameState with
    watchers := gm.watchers.insert f ⟨msg.sessionId⟩
    calls := [.addQueue f msg.nextExpectedEventNo] }) ?_ rfl
  have hany : ¬(gm.players.entries.any fun p => decide (p.2.fingerprint = f)) = true := by
    intro hany
    obtain ⟨⟨n, p⟩, he, hf⟩ := List.any_eq_true.mp hany
    exact hnone n p (SortedMap.find?_eq_some.mpr he) (by simpa using hf)
  rw [handleMessageFromWatcher, SortedMap.find?_eq_none.mpr hw]
  exact if_neg hany

variable {w : Watcher}

/-- A watcher acknowledges. -/
theorem handleMessage_of_same (hname : msg.playerNameSize = 0)
    (hw : gm.watchers.find? f = some w) (hid : w.sessionId = msg.sessionId) :
    gm.handleMessage pf f msg = .ok gm' ↔ gm'.toGameState = gm.toGameState ∧
      gm.mqManager.ack f msg.nextExpectedEventNo = .ok gm'.mqManager := by
  have htask : GameTask.handleMessageFromWatcher f msg ⟨gm.toGameState, []⟩ =
      { gm.toGameState with calls := [.ack f msg.nextExpectedEventNo] } := by
    rw [handleMessageFromWatcher, hw]
    exact if_pos hid
  rw [handleMessage, perform_eq_ok, GameTask.handleMessage, if_pos hname, htask]
  simp only [Except.ok.injEq, exists_eq_left', execAll_singleton, MQManager.exec, and_comm]

/-- A watcher is replaced. -/
theorem handleMessage_of_newer (hname : msg.playerNameSize = 0)
    (hw : gm.watchers.find? f = some w) (hid : w.sessionId < msg.sessionId) :
    gm.handleMessage pf f msg = .ok { gm with
      watchers := gm.watchers.adjust f fun _ => ⟨msg.sessionId⟩
      mqManager := (gm.mqManager.dropQueue f).addQueue f msg.nextExpectedEventNo } := by
  refine handleMessage_of_task hname (g := { gm.toGameState with
    watchers := gm.watchers.adjust f fun _ => ⟨msg.sessionId⟩
    calls := [.dropQueue f, .addQueue f msg.nextExpectedEventNo] }) ?_ rfl
  rw [handleMessageFromWatcher, hw]
  exact (if_neg hid.ne).trans (if_pos hid)

/-- An old message of a watcher is ignored. -/
theorem handleMessage_of_older (hname : msg.playerNameSize = 0)
    (hw : gm.watchers.find? f = some w) (hid : msg.sessionId < w.sessionId) :
    gm.handleMessage pf f msg = .ok gm := by
  refine handleMessage_of_task hname (g := ⟨gm.toGameState, []⟩) ?_ rfl
  rw [handleMessageFromWatcher, hw]
  exact (if_neg hid.ne').trans (if_neg hid.not_gt)

/-- **When a message without a name changes nothing.** -/
theorem handleMessage_eq_self_iff_of_watcher (hname : msg.playerNameSize = 0) {sessionId : ℕ}
    (hclient : gm.ClientSession f sessionId) :
    gm.handleMessage pf f msg = .ok gm ↔ gm.Ignores f msg := by
  rw [Ignores, if_pos hname]
  rcases hfind : gm.watchers.find? f with _ | w
  · have hw : f ∉ gm.watchers := SortedMap.find?_eq_none.mp hfind
    obtain ⟨n, p, hp, hf, -⟩ := exists_player_of_clientSession hclient hw
    exact iff_of_true (handleMessage_of_player hname hw hp hf) fun w hw => absurd hw (by simp)
  · simp only [Option.some.injEq, forall_eq']
    rcases lt_trichotomy msg.sessionId w.sessionId with hid | hid | hid
    · exact iff_of_true (handleMessage_of_older hname hfind hid) (Or.inl hid)
    · rw [handleMessage_of_same hname hfind hid.symm, ack_eq_self_iff]
      exact ⟨fun h => Or.inr ⟨hid, h.2⟩, fun h => ⟨rfl, (h.resolve_left hid.not_lt).2⟩⟩
    · refine iff_of_false (fun h => ?_) fun h => ?_
      · rw [handleMessage_of_newer hname hfind hid] at h
        have hwatchers : gm.watchers.adjust f (fun _ => ⟨msg.sessionId⟩) = gm.watchers :=
          congrArg (fun gm : GameManager D => gm.watchers) (Except.ok.inj h)
        have hnew : (gm.watchers.adjust f fun _ => ⟨msg.sessionId⟩).find? f =
            some ⟨msg.sessionId⟩ := by
          rw [SortedMap.find?_adjust_self, hfind]
          rfl
        rw [hwatchers, hfind] at hnew
        obtain rfl := Option.some.inj hnew
        exact lt_irrefl _ hid
      · rcases h with h | h <;> omega

/-- A watcher that sends a message without a name goes on watching. -/
theorem mem_watchers_of_watcher (hname : msg.playerNameSize = 0) (hw : f ∈ gm.watchers)
    (h : gm.handleMessage pf f msg = .ok gm') : f ∈ gm'.watchers := by
  obtain ⟨w, hfind⟩ := SortedMap.mem_iff_find?.mp hw
  rcases lt_trichotomy msg.sessionId w.sessionId with hid | hid | hid
  · rw [handleMessage_of_older hname hfind hid] at h
    obtain rfl := Except.ok.inj h
    exact hw
  · rw [((handleMessage_of_same hname hfind hid.symm).mp h).1]
    exact hw
  · rw [handleMessage_of_newer hname hfind hid] at h
    obtain rfl := Except.ok.inj h
    exact SortedMap.mem_adjust.mpr hw

/-- **When a message without a name replaces the clients of its sender.** -/
theorem reconnects_iff_of_watcher (hgm : gm.Consistent) (hname : msg.playerNameSize = 0)
    {sessionId : ℕ} (hclient : gm.ClientSession f sessionId) (hlt : sessionId < msg.sessionId) :
    gm.Reconnects pf f msg ↔ gm.Replaces f msg := by
  rw [Replaces, if_pos hname]
  by_cases hw : f ∈ gm.watchers
  · refine Iff.trans ?_ (or_iff_left fun h : gm.NothingToDrop f => h.watcher hw).symm
    constructor
    · rintro ⟨gm₁, gm₂, hdrop, hmsg₁, hmsg⟩
      refine ⟨hw, fun n p hp hf => ?_⟩
      -- dropping the socket leaves its player, and so nobody watches in the end
      have hout : f ∉ gm₁.watchers := not_mem_watchers_of_drop hgm hdrop
      have hp₁ : gm₁.players.find? n = some p := by
        rw [dropConnection_of_watcher hw] at hdrop
        rw [← Except.ok.inj hdrop]
        exact hp
      rw [handleMessage_of_player hname hout hp₁ hf] at hmsg₁
      obtain rfl : gm₁ = gm₂ := Except.ok.inj hmsg₁
      exact hout (mem_watchers_of_watcher hname hw hmsg)
    · rintro ⟨-, hnone⟩
      obtain ⟨w, hfind⟩ := SortedMap.mem_iff_find?.mp hw
      have hid : w.sessionId = sessionId := by
        rcases hclient with hfind' | ⟨hp, hf, -⟩
        · rw [Option.some.inj (hfind.symm.trans hfind')]
        · exact absurd hf (hnone _ _ hp)
      refine ⟨_, _, dropConnection_of_watcher hw,
        handleMessage_of_stranger hname (by simp) hnone, ?_⟩
      rw [handleMessage_of_newer hname hfind (hid ▸ hlt), SortedMap.insert_erase _ hw]
  · refine Iff.trans ?_ (or_iff_right fun h => hw h.1).symm
    rw [← dropConnection_eq_self_iff hgm hclient]
    obtain ⟨n, p, hp, hf, -⟩ := exists_player_of_clientSession hclient hw
    have hself : gm.handleMessage pf f msg = .ok gm := handleMessage_of_player hname hw hp hf
    refine ⟨?_, fun hdrop => ⟨gm, gm, hdrop, hself, hself⟩⟩
    rintro ⟨gm₁, gm₂, hdrop, hmsg₁, hmsg⟩
    obtain rfl : gm = gm₂ := Except.ok.inj (hself.symm.trans hmsg)
    have hout : f ∉ gm₁.watchers := not_mem_watchers_of_drop hgm hdrop
    by_cases hex : ∃ n p, gm₁.players.find? n = some p ∧ p.fingerprint = f
    · obtain ⟨n₁, p₁, hp₁, hf₁⟩ := hex
      rw [handleMessage_of_player hname hout hp₁ hf₁] at hmsg₁
      rw [hdrop, hmsg₁]
    · have hnone : ∀ n p, gm₁.players.find? n = some p → p.fingerprint ≠ f :=
        fun n p hp hf => hex ⟨n, p, hp, hf⟩
      rw [handleMessage_of_stranger hname hout hnone] at hmsg₁
      refine absurd ?_ hw
      rw [← Except.ok.inj hmsg₁]
      exact SortedMap.mem_insert.mpr (Or.inl rfl)

end GameManager

/-! ## Messages of known players -/

namespace MQManager

/-- The events of the current and the waiting games. -/
def eventCount (mq : MQManager) : ℕ :=
  mq.currentGameEvents.length + (mq.nextGames.map fun game => game.2.length).sum

theorem sum_addToNextGames (gameId : ℕ) (event : GameEventVariant) :
    ∀ games : List (ℕ × List GameEventVariant),
      ((addToNextGames gameId event games).map fun game => game.2.length).sum =
        (games.map fun game => game.2.length).sum + 1
  | [] => rfl
  | game :: games => by
    rw [addToNextGames]
    split
    · simp only [List.map_cons, List.sum_cons, List.length_append, List.length_singleton]
      omega
    · simp only [List.map_cons, List.sum_cons, sum_addToNextGames gameId event games]
      omega

theorem eventCount_schedule (mq : MQManager) (gameId : ℕ) (event : GameEventVariant) :
    (mq.schedule gameId event).eventCount = mq.eventCount + 1 := by
  rw [schedule]
  split
  · simp only [eventCount, length_appendNumbered]
    omega
  · simp only [eventCount, sum_addToNextGames]
    omega

/-- No call takes an event away. -/
theorem eventCount_le_exec {mq mq' : MQManager} {call : MQCall} (h : mq.exec call = .ok mq') :
    mq.eventCount ≤ mq'.eventCount := by
  by_cases hcall : ∃ id e, call = .schedule id e
  · obtain ⟨id, e, rfl⟩ := hcall
    obtain rfl : mq.schedule id e = mq' := Except.ok.inj h
    exact (mq.eventCount_schedule id e).symm ▸ Nat.le_succ _
  · obtain ⟨hcurrent, hn, -⟩ := logs_exec h fun id e he => hcall ⟨id, e, he⟩
    rw [eventCount, eventCount, hcurrent, hn]

/-- **Calls that schedule an event change the queue.** -/
theorem eventCount_lt_execAll {gameId : ℕ} {event : GameEventVariant} :
    ∀ {calls : List MQCall} {mq mq' : MQManager}, .schedule gameId event ∈ calls →
      mq.execAll calls = .ok mq' → mq.eventCount < mq'.eventCount
  | [], _, _, hmem, _ => absurd hmem List.not_mem_nil
  | call :: calls, mq, mq', hmem, h => by
    rw [MQManager.execAll] at h
    rcases hcall : mq.exec call with e | mq₁
    · rw [hcall] at h
      exact absurd h (by simp)
    · rw [hcall] at h
      have hle : mq₁.eventCount ≤ mq'.eventCount :=
        execAll_induction (P := fun mq => mq₁.eventCount ≤ mq.eventCount) (C := fun _ => True)
          (fun _ _ _ hP _ hexec => hP.trans (eventCount_le_exec hexec)) le_rfl
          (fun _ _ => trivial) h
      rcases List.mem_cons.mp hmem with rfl | hmem
      · obtain rfl : mq.schedule gameId event = mq₁ := Except.ok.inj hcall
        rw [eventCount_schedule] at hle
        exact hle
      · exact (eventCount_le_exec hcall).trans_lt (eventCount_lt_execAll hmem h)

end MQManager

/-- A message that has a game started. -/
theorem GameState.Orderly.schedule_mem_startGame {pf : Platform D} {g g' : GameTask D}
    (h : g.toGameState.Orderly []) (hs : g.gameStarted = false)
    (hcan : canStartGame g.players = true) (hstart : GameTask.startGame pf g = .ok g') :
    ∃ gameId event, .schedule gameId event ∈ g'.calls := by
  have hchanges : Changes .turn g.prepareGame g' := h.startGame_changes hs hcan hstart
  obtain ⟨cs, hcs, -⟩ := hchanges.issues
  obtain ⟨gameId, hprepared⟩ := prepareGame_calls g
  refine ⟨gameId, .newGame (.ofNames g.maxx g.maxy (g.players.keys.map Subtype.val)), ?_⟩
  rw [hcs, hprepared, List.append_assoc]
  exact List.mem_append_right _ List.mem_cons_self

namespace GameManager

variable {pf : Platform D} {f : Fingerprint} {msg : ClientToServerMessage} {gm gm' : GameManager D}
  {p : Player D}

/-- A message that carries the name of a player of another socket is ignored. -/
theorem handleMessage_of_other (hname : msg.playerNameSize ≠ 0)
    (hp : gm.players.find? msg.playerName = some p) (hf : p.fingerprint ≠ f) :
    gm.handleMessage pf f msg = .ok gm := by
  refine perform_eq_ok.mpr ⟨⟨gm.toGameState, []⟩, ?_, rfl, rfl⟩
  rw [GameTask.handleMessage, if_neg hname]
  exact handleMessageFromPlayer_of_other (g := ⟨gm.toGameState, []⟩) hp hf

/-- A message of a known player that starts no game. -/
theorem handleMessage_of_known (hname : msg.playerNameSize ≠ 0)
    (hp : gm.players.find? msg.playerName = some p) (hf : p.fingerprint = f)
    (hno : ¬(gm.gameStarted = false ∧ canStartGame (gm.players.adjust msg.playerName fun _ =>
      p.updated gm.gameStarted msg) = true)) :
    gm.handleMessage pf f msg = .ok gm' ↔ gm'.toGameState = { gm.toGameState with
        players := gm.players.adjust msg.playerName fun _ => p.updated gm.gameStarted msg } ∧
      gm.mqManager.ack f msg.nextExpectedEventNo = .ok gm'.mqManager := by
  have htask : GameTask.handleMessageFromPlayer pf f msg ⟨gm.toGameState, []⟩ =
      .ok (answered msg p ⟨gm.toGameState, []⟩) := by
    rw [handleMessageFromPlayer_of_known (g := ⟨gm.toGameState, []⟩) hp hf, startGameIfReady]
    refine if_neg fun h => hno ?_
    simpa [answered, call, setPlayer] using h
  subst hf
  rw [handleMessage, perform_eq_ok, GameTask.handleMessage, if_neg hname, htask]
  simp only [Except.ok.injEq, exists_eq_left']
  exact and_comm.trans (and_congr_right' execAll_singleton)

/-- A message of a known player that starts a game changes the queue. -/
theorem handleMessage_ne_self_of_starts (hgm : gm.Consistent) (hname : msg.playerNameSize ≠ 0)
    (hp : gm.players.find? msg.playerName = some p) (hf : p.fingerprint = f)
    (hs : gm.gameStarted = false) (hcan : canStartGame (gm.players.adjust msg.playerName fun _ =>
      p.updated gm.gameStarted msg) = true) : gm.handleMessage pf f msg ≠ .ok gm := by
  intro h
  obtain ⟨g, hg, hcalls, -⟩ := perform_eq_ok.mp h
  rw [GameTask.handleMessage, if_neg hname,
    handleMessageFromPlayer_of_known (g := ⟨gm.toGameState, []⟩) hp hf, startGameIfReady,
    if_pos (by simpa [answered, call, setPlayer, hs] using hcan)] at hg
  have horderly := GameState.Sound.answered (g := ⟨gm.toGameState, []⟩) hgm.sound hp
  obtain ⟨gameId, event, hmem⟩ := horderly.schedule_mem_startGame hs hcan hg
  exact lt_irrefl _ (eventCount_lt_execAll hmem hcalls)

theorem updated_eq_self_iff :
    p.updated gm.gameStarted msg = p ↔ gm.NothingNew msg p := by
  rw [NothingNew, Player.updated]
  constructor
  · intro h
    have hturn : msg.turnDirection = p.turnDirection := congrArg Player.turnDirection h
    have hready : (p.isReadyToPlay || (!gm.gameStarted && msg.turnDirection != .straight)) =
        p.isReadyToPlay := congrArg Player.isReadyToPlay h
    refine ⟨hturn.symm, ?_⟩
    rcases hr : p.isReadyToPlay with _ | _ <;> rcases hs : gm.gameStarted with _ | _ <;>
      simp [hr, hs] at hready ⊢
    exact hready
  · rintro ⟨hturn, hready⟩
    have hready' : (p.isReadyToPlay || (!gm.gameStarted && msg.turnDirection != .straight)) =
        p.isReadyToPlay := by
      rcases hready with hs | hstraight | hr
      · simp [hs]
      · simp [hstraight]
      · simp [hr]
    rw [hready', ← hturn]

/-- **When a message of a known player changes nothing.** -/
theorem handleMessage_eq_self_iff_of_known (hgm : gm.Consistent) (hname : msg.playerNameSize ≠ 0)
    (hp : gm.players.find? msg.playerName = some p) :
    gm.handleMessage pf f msg = .ok gm ↔ gm.Ignores f msg := by
  rw [Ignores, if_neg hname, hp]
  simp only
  by_cases hf : p.fingerprint = f
  · rw [← ack_eq_self_iff, ← updated_eq_self_iff]
    simp only [hf, true_implies]
    have hsame : p.updated gm.gameStarted msg = p →
        (gm.players.adjust msg.playerName fun _ => p.updated gm.gameStarted msg) = gm.players :=
      fun h => SortedMap.adjust_of_find? hp h
    by_cases hstarts : gm.gameStarted = false ∧ canStartGame (gm.players.adjust msg.playerName
        fun _ => p.updated gm.gameStarted msg) = true
    · refine iff_of_false (handleMessage_ne_self_of_starts hgm hname hp hf hstarts.1 hstarts.2) ?_
      rintro ⟨hupdated, -⟩
      have hwaits := hgm.sound.lobby_waits hstarts.1
      rw [hsame hupdated, hwaits] at hstarts
      exact absurd hstarts.2 Bool.false_ne_true
    · rw [handleMessage_of_known hname hp hf hstarts]
      refine and_congr_left' ⟨fun h => ?_, fun h => by rw [hsame h]⟩
      have hplayers := congrArg (fun g : GameState D => g.players.find? msg.playerName) h
      simp only [SortedMap.find?_adjust_self, hp, Option.map_some, Option.some.injEq] at hplayers
      exact hplayers.symm
  · exact iff_of_true (handleMessage_of_other hname hp hf) fun hf' => absurd hf' hf

/-- A message of a known player changes no client. -/
theorem clients_of_known (hgm : gm.Consistent) (hname : msg.playerNameSize ≠ 0)
    (hp : gm.players.find? msg.playerName = some p) (h : gm.handleMessage pf f msg = .ok gm') :
    gm'.watchers = gm.watchers ∧ gm'.players.size = gm.players.size ∧
      ∀ n q, gm.players.find? n = some q → ∃ r, gm'.players.find? n = some r ∧ q.SameClient r := by
  by_cases hf : p.fingerprint = f
  · subst hf
    obtain ⟨g, hg, -, heq⟩ := perform_eq_ok.mp h
    rw [GameTask.handleMessage, if_neg hname] at hg
    obtain ⟨g', -, hg', hsame, -⟩ := calls_answered pf hgm.sound hp
    obtain rfl : g' = g := Except.ok.inj (hg'.symm.trans hg)
    have hupdated : gm.toGameState.SameClients (answered msg p ⟨gm.toGameState, []⟩).toGameState :=
      .adjust hp (q := p.updated gm.gameStarted msg) ⟨rfl, rfl, rfl, rfl⟩ rfl rfl
    have hall := hupdated.trans hsame
    rw [heq]
    exact ⟨hall.watchers, SortedMap.size_congr hall.mem, fun n q hq => hall.find? hq⟩
  · rw [handleMessage_of_other hname hp hf] at h
    obtain rfl := Except.ok.inj h
    exact ⟨rfl, rfl, fun n q hq => ⟨q, hq, rfl, rfl, rfl, rfl⟩⟩

end GameManager

/-! ## Messages of unknown players -/

namespace GameManager

variable {pf : Platform D} {f : Fingerprint} {msg : ClientToServerMessage} {gm gm' : GameManager D}
  {p : Player D}

/-- Everything a message of an unknown player does to the clients: its sender is dropped for each of
its older players, and joins if there is room. -/
theorem clients_of_unknown (hgm : gm.Consistent) (hname : msg.playerNameSize ≠ 0)
    (hnew : gm.players.find? msg.playerName = none) (h : gm.handleMessage pf f msg = .ok gm') :
    ∃ g₁, forPlayers (dropIfOlder f msg) gm.players.keys ⟨gm.toGameState, []⟩ = .ok g₁ ∧
      gm'.watchers = g₁.watchers ∧
      ((g₁.players.size = maxPlayers ∧ gm'.toGameState = g₁.toGameState ∧
          gm.mqManager.execAll g₁.calls = .ok gm'.mqManager) ∨
        (g₁.players.size ≠ maxPlayers ∧ gm'.players.size = g₁.players.size + 1 ∧
          ∃ r, gm'.players.find? msg.playerName = some r ∧ r.sessionId = msg.sessionId)) := by
  obtain ⟨g, hg, hcalls, heq⟩ := perform_eq_ok.mp h
  rw [GameTask.handleMessage, if_neg hname,
    handleMessageFromPlayer_of_new (g := ⟨gm.toGameState, []⟩) hnew] at hg
  rcases hloop : forPlayers (dropIfOlder f msg) gm.players.keys ⟨gm.toGameState, []⟩ with e | g₁
  · simp only [hloop] at hg
    exact absurd hg (by simp)
  · simp only [hloop] at hg
    refine ⟨g₁, rfl, ?_⟩
    rw [heq]
    split at hg
    · rename_i hfull
      obtain rfl := Except.ok.inj hg
      exact ⟨rfl, Or.inl ⟨hfull, rfl, hcalls⟩⟩
    · rename_i hroom
      obtain ⟨hsound, hsub⟩ :=
        GameState.Sound.dropIfOlder (g := ⟨gm.toGameState, []⟩) hgm.sound hloop
      have hnew₁ : msg.playerName ∉ g₁.players := fun hmem =>
        SortedMap.find?_eq_none.mp hnew (hsub _ hmem)
      obtain ⟨hsame, -⟩ := (hsound.joined pf f hname hnew₁ hroom).startGameIfReady_clients hg
      have hentry : (joined pf f msg g₁).players.find? msg.playerName =
          some (.joining pf g₁.gameStarted f msg) := by
        simp [joined, call, SortedMap.find?_insert hnew₁]
      refine ⟨hsame.watchers, Or.inr ⟨hroom, ?_, ?_⟩⟩
      · rw [SortedMap.size_congr hsame.mem]
        exact SortedMap.size_insert hnew₁
      · obtain ⟨r, hr, hclient⟩ := hsame.find? hentry
        exact ⟨r, hr, hclient.sessionId⟩

/-- The sender of a message of an unknown player joins a running game if there is room. -/
def enroll (pf : Platform D) (f : Fingerprint) (msg : ClientToServerMessage) (gm : GameManager D) :
    GameManager D :=
  if gm.players.size = maxPlayers then gm
  else { gm with
    players := gm.players.insert msg.playerName (.joining pf gm.gameStarted f msg)
    mqManager := gm.mqManager.addQueue f msg.nextExpectedEventNo }

@[simp] theorem watchers_enroll : (enroll pf f msg gm).watchers = gm.watchers := by
  rw [enroll]
  split <;> rfl

theorem find?_enroll (hnew : msg.playerName ∉ gm.players) {n : PlayerName}
    (hn : n ≠ msg.playerName) : (enroll pf f msg gm).players.find? n = gm.players.find? n := by
  rw [enroll]
  split
  · rfl
  · rw [SortedMap.find?_insert hnew, if_neg hn]

/-- While a game runs, nothing happens but the loop and the joining. -/
theorem handleMessage_of_loop (hname : msg.playerNameSize ≠ 0)
    (hnew : gm.players.find? msg.playerName = none) {g₁ : GameTask D}
    (hloop : forPlayers (dropIfOlder f msg) gm.players.keys ⟨gm.toGameState, []⟩ = .ok g₁)
    (hs : g₁.gameStarted = true) {mq : MQManager}
    (hcalls : gm.mqManager.execAll g₁.calls = .ok mq) :
    gm.handleMessage pf f msg = .ok (enroll pf f msg ⟨g₁.toGameState, mq⟩) := by
  have htask : GameTask.handleMessage pf f msg ⟨gm.toGameState, []⟩ =
      .ok (if g₁.players.size = maxPlayers then g₁ else joined pf f msg g₁) := by
    rw [GameTask.handleMessage, if_neg hname,
      handleMessageFromPlayer_of_new (g := ⟨gm.toGameState, []⟩) hnew]
    simp only [hloop]
    split
    · rfl
    · rw [startGameIfReady]
      exact if_neg (by simp [joined, call, hs])
  by_cases hfull : g₁.players.size = maxPlayers
  · rw [if_pos hfull] at htask
    refine perform_eq_ok.mpr ⟨g₁, htask, ?_, ?_⟩
    · rw [hcalls, enroll, if_pos hfull]
    · rw [enroll, if_pos hfull]
  · rw [if_neg hfull] at htask
    refine perform_eq_ok.mpr ⟨_, htask, ?_, ?_⟩
    · rw [enroll, if_neg hfull]
      exact execAll_append_eq_ok.mpr ⟨mq, hcalls, rfl⟩
    · rw [enroll, if_neg hfull]
      rfl

/-- While a game runs, a player of the sender is marked if there is an older one. -/
theorem handleMessage_of_unknown_player (hgm : gm.Consistent) (hname : msg.playerNameSize ≠ 0)
    (hnew : gm.players.find? msg.playerName = none) (hw : f ∉ gm.watchers)
    (hs : gm.gameStarted = true) (hold : 0 < older f msg gm.players gm.players.keys) :
    gm.handleMessage pf f msg = .ok (enroll pf f msg { gm with
      players := markDisconnected f gm.players
      mqManager := gm.mqManager.dropQueue f }) := by
  have hloop := dropIfOlder_of_running msg (g := ⟨gm.toGameState, []⟩) hw hs
    fun n hn => SortedMap.mem_keys.mp hn
  rw [if_neg hold.ne', List.nil_append] at hloop
  refine handleMessage_of_loop hname hnew hloop hs ?_
  rw [hgm.wellFormed.execAll_replicate_dropQueue, if_neg hold.ne']

/-- While a game runs, a sender that watches is dropped as a watcher first. -/
theorem handleMessage_of_unknown_watcher (hgm : gm.Consistent) (hname : msg.playerNameSize ≠ 0)
    (hnew : gm.players.find? msg.playerName = none) (hw : f ∈ gm.watchers)
    (hs : gm.gameStarted = true) (hold : 0 < older f msg gm.players gm.players.keys) :
    gm.handleMessage pf f msg = .ok (enroll pf f msg { gm with
      watchers := gm.watchers.erase f
      players := if older f msg gm.players gm.players.keys ≤ 1 then gm.players
        else markDisconnected f gm.players
      mqManager := gm.mqManager.dropQueue f }) := by
  have hloop := dropIfOlder_of_watcher msg (g := ⟨gm.toGameState, []⟩) hw hs
    fun n hn => SortedMap.mem_keys.mp hn
  rw [if_neg hold.ne', List.nil_append] at hloop
  refine handleMessage_of_loop hname hnew hloop hs ?_
  rw [hgm.wellFormed.execAll_replicate_dropQueue, if_neg hold.ne']

theorem loop_of_no_older (hnone : older f msg gm.players gm.players.keys = 0) :
    forPlayers (dropIfOlder f msg) gm.players.keys ⟨gm.toGameState, []⟩ =
      .ok ⟨gm.toGameState, []⟩ :=
  dropIfOlder_of_none (g := ⟨gm.toGameState, []⟩) hnone

theorem older_eq_zero : older f msg gm.players gm.players.keys = 0 ↔
    ∀ n p, gm.players.find? n = some p → p.isOlder f msg = false := by
  rw [← not_iff_not, ← ne_eq, ← Nat.pos_iff_ne_zero, older_pos]
  simp

/-- If the loop drops the sender and yet nothing changes, there was nothing to drop. -/
theorem dropConnection_eq_self_of_older (hgm : gm.Consistent) (hname : msg.playerNameSize ≠ 0)
    (hnew : gm.players.find? msg.playerName = none)
    (hold : 0 < older f msg gm.players gm.players.keys) {g₁ : GameTask D}
    (hloop : forPlayers (dropIfOlder f msg) gm.players.keys ⟨gm.toGameState, []⟩ = .ok g₁)
    (hfull : g₁.players.size = maxPlayers) (hgame : gm.toGameState = g₁.toGameState)
    (h : gm.handleMessage pf f msg = .ok gm) : gm.dropConnection f = .ok gm := by
  have hfull' : gm.players.size = maxPlayers := by rw [hgame]; exact hfull
  have hwatchers : gm.watchers = g₁.watchers := congrArg GameState.watchers hgame
  have hplayers : gm.players = g₁.players := congrArg GameState.players hgame
  have hsorted := gm.players.sorted
  by_cases hw : f ∈ gm.watchers
  · exfalso
    rcases hs : gm.gameStarted with _ | _
    · obtain ⟨hout, -⟩ := size_dropIfOlder_of_watcher (g := ⟨gm.toGameState, []⟩) hsorted hw hs
        (hgm.sound.lobby_connected hs) hloop hold
      exact hout (hwatchers ▸ hw)
    · rw [handleMessage_of_unknown_watcher hgm hname hnew hw hs hold] at h
      have herased := congrArg (fun gm : GameManager D => gm.watchers) (Except.ok.inj h)
      simp only [watchers_enroll] at herased
      rw [← herased] at hw
      exact (SortedMap.mem_erase.mp hw).1 rfl
  · rcases hs : gm.gameStarted with _ | _
    · have hsize : g₁.players.size + older f msg gm.players gm.players.keys = gm.players.size :=
        size_dropIfOlder_of_lobby (g := ⟨gm.toGameState, []⟩) hsorted hw hs
          (hgm.sound.lobby_connected hs) hloop
      have hsame : g₁.players.size = gm.players.size := congrArg SortedMap.size hplayers.symm
      omega
    · rw [handleMessage_of_unknown_player hgm hname hnew hw hs hold, enroll,
        if_pos (by simpa using hfull')] at h
      rw [dropConnection_of_running hw hs]
      exact h

/-- **When a message of an unknown player changes nothing.** -/
theorem handleMessage_eq_self_iff_of_unknown (hgm : gm.Consistent) (hname : msg.playerNameSize ≠ 0)
    (hnew : gm.players.find? msg.playerName = none) {sessionId : ℕ}
    (hclient : gm.ClientSession f sessionId) :
    gm.handleMessage pf f msg = .ok gm ↔ gm.Ignores f msg := by
  rw [Ignores, if_neg hname, hnew]
  simp only
  rw [← older_eq_zero, ← dropConnection_eq_self_iff hgm hclient]
  rcases Nat.eq_zero_or_pos (older f msg gm.players gm.players.keys) with hzero | hold
  · refine Iff.trans ⟨fun h => ?_, fun hfull => ?_⟩ (and_iff_left (Or.inl hzero)).symm
    · obtain ⟨g₁, -, -, ⟨hfull, hgame, -⟩ | ⟨-, -, r, hr, -⟩⟩ := clients_of_unknown hgm hname hnew h
      · rw [hgame]
        exact hfull
      · exact absurd (hnew.symm.trans hr) (by simp)
    · refine perform_eq_ok.mpr ⟨⟨gm.toGameState, []⟩, ?_, rfl, rfl⟩
      rw [GameTask.handleMessage, if_neg hname,
        handleMessageFromPlayer_of_new (g := ⟨gm.toGameState, []⟩) hnew]
      simp only [loop_of_no_older hzero, if_pos hfull]
  · rw [or_iff_right hold.ne']
    constructor
    · intro h
      obtain ⟨g₁, hloop, -, ⟨hfull, hgame, -⟩ | ⟨-, -, r, hr, -⟩⟩ :=
        clients_of_unknown hgm hname hnew h
      · exact ⟨by rw [hgame]; exact hfull,
          dropConnection_eq_self_of_older hgm hname hnew hold hloop hfull hgame h⟩
      · exact absurd (hnew.symm.trans hr) (by simp)
    · rintro ⟨hfull, hself⟩
      have hdrop := (dropConnection_eq_self_iff hgm hclient).mp hself
      rw [dropConnection_of_running hdrop.watcher hdrop.started] at hself
      rw [handleMessage_of_unknown_player hgm hname hnew hdrop.watcher hdrop.started hold,
        Except.ok.inj hself, enroll, if_pos hfull]

/-! ## The outcome after dropping the sender first -/

theorem find?_eq_none_of_drop (hgm : gm.Consistent) (h : gm.dropConnection f = .ok gm')
    {n : PlayerName} (hn : gm.players.find? n = none) : gm'.players.find? n = none := by
  by_contra hne
  obtain ⟨q, hq⟩ := Option.ne_none_iff_exists'.mp hne
  obtain ⟨p, hp, -⟩ := find?_of_drop hgm h hq
  exact absurd (hn.symm.trans hp) (by simp)

/-- In the lobby, dropping the sender costs it one player, and no other. -/
theorem players_of_drop_lobby (hgm : gm.Consistent) (hw : f ∉ gm.watchers)
    (hs : gm.gameStarted = false) {n₀ : PlayerName} {p₀ : Player D}
    (hfirst : firstPlayerOf f gm.players = some (n₀, p₀)) (h : gm.dropConnection f = .ok gm') :
    gm'.gameStarted = false ∧ gm'.players.size + 1 = gm.players.size ∧
      ∀ n p, n ≠ n₀ → gm.players.find? n = some p →
        gm'.players.find? n = some { p with isReadyToPlay := false } := by
  have hall := hgm.sound.lobby_connected hs
  have hsize := size_dropConnection_of_lobby (g := ⟨gm.toGameState, []⟩) hw hs hall hfirst
  rw [GameTask.dropConnection_of_lobby (g := ⟨gm.toGameState, []⟩) hw hs] at hsize
  rw [dropConnection_of_lobby hgm hw hs] at h
  obtain rfl := Except.ok.inj h
  refine ⟨hs, hsize, ?_⟩
  · intro n p hn hp
    have hother : (firstPlayerOf f gm.players).map Prod.fst ≠ some n := by
      rw [hfirst]
      rintro ⟨⟩
      exact hn rfl
    show (staying (markDisconnected f gm.players)).find? n = _
    rw [find?_staying_markDisconnected hall hother, hp]
    rfl

/-- A watcher that sends a message of a known player goes on watching. -/
theorem not_reconnects_of_known_watcher (hgm : gm.Consistent) (hname : msg.playerNameSize ≠ 0)
    (hp : gm.players.find? msg.playerName = some p) (hw : f ∈ gm.watchers) :
    ¬gm.Reconnects pf f msg := by
  rintro ⟨gm₁, gm₂, hdrop, hmsg₁, hmsg⟩
  have hp₁ : gm₁.players.find? msg.playerName = some p := by
    rw [dropConnection_of_watcher hw] at hdrop
    rw [← Except.ok.inj hdrop]
    exact hp
  have hout := not_mem_watchers_of_drop hgm hdrop
  rw [← (clients_of_known (hgm.drop pf hdrop) hname hp₁ hmsg₁).1,
    (clients_of_known hgm hname hp hmsg).1] at hout
  exact hout hw

/-- In the lobby, dropping the sender costs it a player that its message does not bring back. -/
theorem not_reconnects_of_known_lobby (hgm : gm.Consistent) (hname : msg.playerNameSize ≠ 0)
    (hp : gm.players.find? msg.playerName = some p) (hw : f ∉ gm.watchers)
    (hs : gm.gameStarted = false) {sessionId : ℕ} (hclient : gm.ClientSession f sessionId)
    (hlt : sessionId < msg.sessionId) : ¬gm.Reconnects pf f msg := by
  rintro ⟨gm₁, gm₂, hdrop, hmsg₁, hmsg⟩
  obtain ⟨x, q, hq, hqf, -, hqid⟩ := exists_player_of_clientSession hclient hw
  obtain ⟨n₀, p₀, hfirst⟩ := exists_firstPlayerOf hq hqf
  obtain ⟨hs₁, hsize₁, hothers⟩ := players_of_drop_lobby hgm hw hs hfirst hdrop
  obtain ⟨-, hsize, hclients⟩ := clients_of_known hgm hname hp hmsg
  have hgm₁ := hgm.drop pf hdrop
  rcases hp₁ : gm₁.players.find? msg.playerName with _ | p₁
  · -- the player is the one that was dropped, and joins anew with the number of the message
    obtain ⟨g₁, hloop, -, hcases⟩ := clients_of_unknown hgm₁ hname hp₁ hmsg₁
    have hcount : g₁.players.size + older f msg gm₁.players gm₁.players.keys = gm₁.players.size :=
      size_dropIfOlder_of_lobby (g := ⟨gm₁.toGameState, []⟩) gm₁.players.sorted
        (not_mem_watchers_of_drop hgm hdrop) hs₁ (hgm₁.sound.lobby_connected hs₁) hloop
    have hle := hgm.sound.size_le
    rcases hcases with ⟨hfull, -⟩ | ⟨-, hsize₂, r, hr, hrid⟩
    · omega
    · obtain ⟨r', hr', hsame⟩ := hclients _ p hp
      obtain rfl : r = r' := Option.some.inj (hr.symm.trans hr')
      have hfirstname : msg.playerName = n₀ := by
        by_contra hne
        exact absurd (hp₁.symm.trans (hothers _ p hne hp)) (by simp)
      have hother : x ≠ n₀ := by
        rintro rfl
        rw [← hfirstname, hp] at hq
        rw [← Option.some.inj hq, ← hsame.sessionId] at hqid
        omega
      have hpos : 0 < older f msg gm₁.players gm₁.players.keys :=
        older_pos.mpr ⟨x, _, hothers x q hother hq, by simp [Player.isOlder, hqf, hqid, hlt]⟩
      omega
  · obtain ⟨-, hsize₂, -⟩ := clients_of_known hgm₁ hname hp₁ hmsg₁
    omega

/-- While a game runs, an acknowledgement of a dropped socket is possible only if a game waits. -/
theorem nothingToDrop_of_reconnects (hgm : gm.Consistent) (hname : msg.playerNameSize ≠ 0)
    (hp : gm.players.find? msg.playerName = some p) (hf : p.fingerprint = f) (hw : f ∉ gm.watchers)
    (hs : gm.gameStarted = true) (h : gm.Reconnects pf f msg) :
    gm.NothingToDrop f ∧ gm.mqManager.nextGames ≠ [] := by
  obtain ⟨gm₁, gm₂, hdrop, hmsg₁, hmsg⟩ := h
  have hgm₁ := hgm.drop pf hdrop
  rw [dropConnection_of_running hw hs] at hdrop
  have hplayers₁ : gm₁.players = markDisconnected f gm.players := by rw [← Except.ok.inj hdrop]
  have hmq₁ : gm₁.mqManager = gm.mqManager.dropQueue f := by rw [← Except.ok.inj hdrop]
  have hs₁ : gm₁.gameStarted = true := by rw [← Except.ok.inj hdrop]; exact hs
  obtain ⟨p₁, hp₁⟩ : ∃ p₁, gm₁.players.find? msg.playerName = some p₁ := by
    rw [hplayers₁, ← SortedMap.mem_iff_find?, mem_markDisconnected]
    exact SortedMap.mem_of_find? hp
  have hf₁ : p₁.fingerprint = f := by
    rw [hplayers₁] at hp₁
    obtain ⟨q, hq, rfl⟩ := find?_markDisconnected_eq_some.mp hp₁
    obtain rfl := Option.some.inj (hp.symm.trans hq)
    split <;> exact hf
  have hack := ((handleMessage_of_known hname hp hf (by simp [hs])).mp hmsg).2
  have hack₁ := ((handleMessage_of_known hname hp₁ hf₁ (by simp [hs₁])).mp hmsg₁).2
  have hout : f ∉ (gm.mqManager.dropQueue f).queues := fun hq => (SortedMap.mem_erase.mp hq).1 rfl
  have hwaits : gm.mqManager.nextGames ≠ [] := by
    intro hn
    rw [hmq₁, MQManager.ack, if_pos (show (gm.mqManager.dropQueue f).nextGames.isEmpty = true by
      simp [dropQueue, hn]), if_neg hout] at hack₁
    exact absurd hack₁ (by simp)
  have hself : gm.mqManager.ack f msg.nextExpectedEventNo = .ok gm.mqManager :=
    ack_eq_self_iff.mpr (Or.inl hwaits)
  have hself₁ : gm₁.mqManager.ack f msg.nextExpectedEventNo = .ok gm₁.mqManager :=
    ack_eq_self_iff.mpr (Or.inl (by rw [hmq₁]; exact hwaits))
  have hsame : gm.mqManager = gm₁.mqManager := by
    rw [Except.ok.inj (hself.symm.trans hack), Except.ok.inj (hself₁.symm.trans hack₁)]
  refine ⟨⟨hs, hw, by rw [hsame, hmq₁]; exact hout, fun n₀ q hfirst => ?_⟩, hwaits⟩
  have hq := (firstPlayerOf_eq_some hfirst).1
  have hq₁ : gm₁.players.find? n₀ = some { q with isDisconnected := true } := by
    rw [hplayers₁, find?_markDisconnected_eq_some]
    exact ⟨q, hq, by rw [hfirst, Option.map_some, if_pos rfl]⟩
  obtain ⟨-, -, hclients⟩ := clients_of_known hgm hname hp hmsg
  obtain ⟨-, -, hclients₁⟩ := clients_of_known hgm₁ hname hp₁ hmsg₁
  obtain ⟨r, hr, hqr⟩ := hclients n₀ q hq
  obtain ⟨r₁, hr₁, hqr₁⟩ := hclients₁ n₀ _ hq₁
  obtain rfl : r = r₁ := Option.some.inj (hr.symm.trans hr₁)
  exact hqr.isDisconnected.symm.trans hqr₁.isDisconnected

/-- **When a message of a known player replaces the clients of its sender.** -/
theorem reconnects_iff_of_known (hgm : gm.Consistent) (hname : msg.playerNameSize ≠ 0)
    (hp : gm.players.find? msg.playerName = some p) {sessionId : ℕ}
    (hclient : gm.ClientSession f sessionId) (hlt : sessionId < msg.sessionId) :
    gm.Reconnects pf f msg ↔ gm.Replaces f msg := by
  rw [Replaces, if_neg hname, hp]
  simp only
  by_cases hw : f ∈ gm.watchers
  · exact iff_of_false (not_reconnects_of_known_watcher hgm hname hp hw) fun h => h.1.watcher hw
  rcases hs : gm.gameStarted with _ | _
  · exact iff_of_false (not_reconnects_of_known_lobby hgm hname hp hw hs hclient hlt)
      fun h => absurd (hs.symm.trans h.1.started) (by simp)
  by_cases hf : p.fingerprint = f
  · constructor
    · intro h
      obtain ⟨hnothing, hwaits⟩ := nothingToDrop_of_reconnects hgm hname hp hf hw hs h
      exact ⟨hnothing, fun _ => hwaits⟩
    · rintro ⟨hnothing, hwaits⟩
      have hmsg : gm.handleMessage pf f msg = .ok ⟨{ gm.toGameState with
          players := gm.players.adjust msg.playerName fun _ => p.updated gm.gameStarted msg },
          gm.mqManager⟩ :=
        (handleMessage_of_known hname hp hf (by simp [hs])).mpr
          ⟨rfl, ack_eq_self_iff.mpr (Or.inl (hwaits hf))⟩
      exact ⟨gm, _, (dropConnection_eq_self_iff hgm hclient).mpr hnothing, hmsg, hmsg⟩
  · have hself : gm.handleMessage pf f msg = .ok gm := handleMessage_of_other hname hp hf
    refine Iff.trans ?_ (and_iff_left fun h => absurd h hf).symm
    rw [← dropConnection_eq_self_iff hgm hclient]
    refine ⟨?_, fun hdrop => ⟨gm, gm, hdrop, hself, hself⟩⟩
    rintro ⟨gm₁, gm₂, hdrop, hmsg₁, hmsg⟩
    obtain rfl : gm = gm₂ := Except.ok.inj (hself.symm.trans hmsg)
    obtain ⟨p₁, hp₁⟩ : ∃ p₁, gm₁.players.find? msg.playerName = some p₁ := by
      rw [dropConnection_of_running hw hs] at hdrop
      rw [← Except.ok.inj hdrop, ← SortedMap.mem_iff_find?, mem_markDisconnected]
      exact SortedMap.mem_of_find? hp
    obtain ⟨p', hp', hf₁, -⟩ := find?_of_drop hgm hdrop hp₁
    obtain rfl := Option.some.inj (hp.symm.trans hp')
    rw [handleMessage_of_other hname hp₁ (fun h => hf (hf₁.symm.trans h))] at hmsg₁
    rw [hdrop, hmsg₁]

/-- While a game runs, a message of an unknown player replaces a sender that does not watch: the
loop has dropped it already. -/
theorem reconnects_of_unknown_player (hgm : gm.Consistent) (hname : msg.playerNameSize ≠ 0)
    (hnew : gm.players.find? msg.playerName = none) (hw : f ∉ gm.watchers)
    (hs : gm.gameStarted = true) (hold : 0 < older f msg gm.players gm.players.keys) :
    gm.Reconnects pf f msg := by
  have hdrop := dropConnection_of_running (D := D) hw hs
  refine ⟨_, _, hdrop, ?_, handleMessage_of_unknown_player hgm hname hnew hw hs hold⟩
  rw [handleMessage_of_unknown_player (hgm.drop pf hdrop) hname
    (find?_eq_none_of_drop hgm hdrop hnew) hw hs (by simpa [older_markDisconnected] using hold)]
  simp only [markDisconnected_markDisconnected, hgm.wellFormed.dropQueue_dropQueue]

/-- A sender that watches is replaced if the loop drops it twice, as a watcher and as a player. -/
theorem reconnects_of_unknown_watcher (hgm : gm.Consistent) (hname : msg.playerNameSize ≠ 0)
    (hnew : gm.players.find? msg.playerName = none) (hw : f ∈ gm.watchers)
    (hs : gm.gameStarted = true) (hold : 2 ≤ older f msg gm.players gm.players.keys) :
    gm.Reconnects pf f msg := by
  have hdrop := dropConnection_of_watcher (D := D) hw
  refine ⟨_, _, hdrop, ?_, handleMessage_of_unknown_watcher hgm hname hnew hw hs (by omega)⟩
  rw [handleMessage_of_unknown_player (hgm.drop pf hdrop) hname
    (find?_eq_none_of_drop hgm hdrop hnew) (by simp) hs (by simp only; omega)]
  simp only [if_neg (show ¬older f msg gm.players gm.players.keys ≤ 1 by omega),
    hgm.wellFormed.dropQueue_dropQueue]

/-- Nobody starts to watch by a message of an unknown player. -/
theorem watchers_of_unknown (hgm : gm.Consistent) (hname : msg.playerNameSize ≠ 0)
    (hnew : gm.players.find? msg.playerName = none) (h : gm.handleMessage pf f msg = .ok gm')
    {f' : Fingerprint} (hf' : f' ∈ gm'.watchers) : f' ∈ gm.watchers := by
  obtain ⟨g₁, hloop, hw, -⟩ := clients_of_unknown hgm hname hnew h
  rw [hw] at hf'
  exact watchers_dropIfOlder hloop hf'

/-- Otherwise the loop leaves the sender a watcher, or its first player connected. -/
theorem two_le_older_of_reconnects (hgm : gm.Consistent) (hname : msg.playerNameSize ≠ 0)
    (hnew : gm.players.find? msg.playerName = none) (hw : f ∈ gm.watchers)
    (hs : gm.gameStarted = true) (h : gm.Reconnects pf f msg) :
    2 ≤ older f msg gm.players gm.players.keys := by
  obtain ⟨gm₁, gm₂, hdrop, hmsg₁, hmsg⟩ := h
  have hgm₁ := hgm.drop pf hdrop
  have hnew₁ := find?_eq_none_of_drop hgm hdrop hnew
  have hout := not_mem_watchers_of_drop hgm hdrop
  rcases Nat.eq_zero_or_pos (older f msg gm.players gm.players.keys) with hzero | hold
  · rw [handleMessage_of_loop hname hnew (loop_of_no_older hzero) hs rfl] at hmsg
    obtain rfl := Except.ok.inj hmsg
    refine absurd (watchers_of_unknown hgm₁ hname hnew₁ hmsg₁ ?_) hout
    rw [watchers_enroll]
    exact hw
  · by_contra hlt
    have hone : older f msg gm.players gm.players.keys ≤ 1 := by omega
    obtain ⟨n, p, hp, hpold⟩ := older_pos.mp hold
    obtain ⟨n₀, p₀, hfirst⟩ := exists_firstPlayerOf hp (isOlder_fingerprint hpold)
    obtain ⟨hp₀, hf₀⟩ := firstPlayerOf_eq_some hfirst
    have hne : n₀ ≠ msg.playerName := by
      rintro rfl
      exact absurd (hnew.symm.trans hp₀) (by simp)
    rw [handleMessage_of_unknown_watcher hgm hname hnew hw hs hold] at hmsg
    simp only [if_pos hone] at hmsg
    rw [dropConnection_of_watcher hw] at hdrop
    obtain rfl := Except.ok.inj hdrop
    rw [handleMessage_of_unknown_player hgm₁ hname hnew₁ hout hs hold] at hmsg₁
    have hplayers := congrArg (fun gm : GameManager D => gm.players.find? n₀)
      (Except.ok.inj (hmsg.trans hmsg₁.symm))
    have hnot : msg.playerName ∉ gm.players := SortedMap.find?_eq_none.mp hnew
    simp only at hplayers
    rw [find?_enroll (by simpa using hnot) hne, find?_enroll (by simpa using hnot) hne] at hplayers
    have hmarked : (markDisconnected f gm.players).find? n₀ =
        some { p₀ with isDisconnected := true } :=
      find?_markDisconnected_eq_some.mpr ⟨p₀, hp₀, by rw [hfirst, Option.map_some, if_pos rfl]⟩
    rw [hp₀, hmarked] at hplayers
    have hd := congrArg Player.isDisconnected (Option.some.inj hplayers)
    rw [hgm.sound.watcher_connected f hw n₀ p₀ hp₀ hf₀] at hd
    exact absurd hd (by simp)

/-- In the lobby, dropping a player that is not older leaves the older ones. -/
theorem older_le_of_drop (hgm : gm.Consistent) (hw : f ∉ gm.watchers)
    (hs : gm.gameStarted = false) {n₀ : PlayerName} {p₀ : Player D}
    (hfirst : firstPlayerOf f gm.players = some (n₀, p₀)) (hnot : p₀.isOlder f msg = false)
    (h : gm.dropConnection f = .ok gm') :
    older f msg gm.players gm.players.keys ≤ older f msg gm'.players gm'.players.keys := by
  obtain ⟨-, -, hothers⟩ := players_of_drop_lobby hgm hw hs hfirst h
  rw [older, older, List.countP_eq_length_filter, List.countP_eq_length_filter]
  refine (List.subperm_of_subset (gm.players.nodup_keys.filter _) fun n hn => ?_).length_le
  obtain ⟨-, hold⟩ := List.mem_filter.mp hn
  obtain ⟨p, hp, hpold⟩ := (Option.any_eq_true _ _).mp hold
  have hne : n ≠ n₀ := by
    rintro rfl
    obtain rfl := Option.some.inj (hp.symm.trans (firstPlayerOf_eq_some hfirst).1)
    exact absurd (hnot.symm.trans hpold) (by simp)
  have hp' := hothers n p hne hp
  refine List.mem_filter.mpr ⟨SortedMap.mem_keys.mpr (SortedMap.mem_of_find? hp'), ?_⟩
  rw [hp', Option.any_some]
  exact hpold

/-- In the lobby, dropping a player first costs the sender one more than the loop does. -/
theorem not_reconnects_of_unknown_player_lobby (hgm : gm.Consistent)
    (hname : msg.playerNameSize ≠ 0) (hnew : gm.players.find? msg.playerName = none)
    (hw : f ∉ gm.watchers) (hs : gm.gameStarted = false)
    (hold : 0 < older f msg gm.players gm.players.keys) : ¬gm.Reconnects pf f msg := by
  rintro ⟨gm₁, gm₂, hdrop, hmsg₁, hmsg⟩
  obtain ⟨n, p, hp, hpold⟩ := older_pos.mp hold
  obtain ⟨n₀, p₀, hfirst⟩ := exists_firstPlayerOf hp (isOlder_fingerprint hpold)
  obtain ⟨hs₁, hsize₁, -⟩ := players_of_drop_lobby hgm hw hs hfirst hdrop
  have hgm₁ := hgm.drop pf hdrop
  have hle := hgm.sound.size_le
  obtain ⟨g₁, hloop, -, hcases⟩ := clients_of_unknown hgm hname hnew hmsg
  obtain ⟨g₂, hloop₂, -, hcases₂⟩ :=
    clients_of_unknown hgm₁ hname (find?_eq_none_of_drop hgm hdrop hnew) hmsg₁
  have hcount : g₁.players.size + older f msg gm.players gm.players.keys = gm.players.size :=
    size_dropIfOlder_of_lobby (g := ⟨gm.toGameState, []⟩) gm.players.sorted hw hs
      (hgm.sound.lobby_connected hs) hloop
  have hcount₂ : g₂.players.size + older f msg gm₁.players gm₁.players.keys = gm₁.players.size :=
    size_dropIfOlder_of_lobby (g := ⟨gm₁.toGameState, []⟩) gm₁.players.sorted
      (not_mem_watchers_of_drop hgm hdrop) hs₁ (hgm₁.sound.lobby_connected hs₁) hloop₂
  -- the loop goes well, so the first player of the sender is not older
  have hnot := (((forPlayers_dropIfOlder_ok_iff (g := ⟨gm.toGameState, []⟩) f msg
    hgm.sound.lobby_connected).mp ⟨g₁, hloop⟩).resolve_left hw).resolve_left (by simp [hs])
  have hmore := older_le_of_drop hgm hw hs hfirst (hnot n₀ p₀ hfirst) hdrop
  rcases hcases with ⟨hfull, -⟩ | ⟨-, hsize, -⟩
  · omega
  · rcases hcases₂ with ⟨hfull₂, -⟩ | ⟨-, hsize₂, -⟩
    · omega
    · omega

/-- The same for a sender that watches: the loop drops the watcher first. -/
theorem not_reconnects_of_unknown_watcher_lobby (hgm : gm.Consistent)
    (hname : msg.playerNameSize ≠ 0) (hnew : gm.players.find? msg.playerName = none)
    (hw : f ∈ gm.watchers) (hs : gm.gameStarted = false) : ¬gm.Reconnects pf f msg := by
  rintro ⟨gm₁, gm₂, hdrop, hmsg₁, hmsg⟩
  have hgm₁ := hgm.drop pf hdrop
  have hout := not_mem_watchers_of_drop hgm hdrop
  have hle := hgm.sound.size_le
  have hnew₁ := find?_eq_none_of_drop hgm hdrop hnew
  obtain ⟨g₁, hloop, hw₁, hcases⟩ := clients_of_unknown hgm hname hnew hmsg
  obtain ⟨g₂, hloop₂, hw₂, hcases₂⟩ := clients_of_unknown hgm₁ hname hnew₁ hmsg₁
  rcases Nat.eq_zero_or_pos (older f msg gm.players gm.players.keys) with hzero | hold
  · rw [loop_of_no_older hzero] at hloop
    obtain rfl := Except.ok.inj hloop
    exact hout (watchers_of_unknown hgm₁ hname hnew₁ hmsg₁ (hw₁ ▸ hw))
  · rw [dropConnection_of_watcher hw] at hdrop
    obtain rfl := Except.ok.inj hdrop
    obtain ⟨-, hcount⟩ := size_dropIfOlder_of_watcher (g := ⟨gm.toGameState, []⟩)
      gm.players.sorted hw hs (hgm.sound.lobby_connected hs) hloop hold
    have hcount₁ : g₁.players.size + older f msg gm.players gm.players.keys =
        gm.players.size + 1 := hcount
    have hcount₂ : g₂.players.size + older f msg gm.players gm.players.keys = gm.players.size :=
      size_dropIfOlder_of_lobby
        (g := ⟨{ gm.toGameState with watchers := gm.watchers.erase f }, []⟩)
        gm.players.sorted hout hs (hgm.sound.lobby_connected hs) hloop₂
    rcases hcases₂ with ⟨hfull₂, -⟩ | ⟨-, hsize₂, r, hr, -⟩
    · omega
    · rcases hcases with ⟨-, hgame, -⟩ | ⟨-, hsize, -⟩
      · -- there was no room for the player, but there is after the drop
        rw [hgame] at hr
        have hmem : msg.playerName ∈ g₁.players := SortedMap.mem_of_find? hr
        exact SortedMap.find?_eq_none.mp hnew
          ((GameState.Sound.dropIfOlder (g := ⟨gm.toGameState, []⟩) hgm.sound hloop).2 _ hmem)
      · omega

/-- **When a message of an unknown player replaces the clients of its sender.** -/
theorem reconnects_iff_of_unknown (hgm : gm.Consistent) (hname : msg.playerNameSize ≠ 0)
    (hnew : gm.players.find? msg.playerName = none) {sessionId : ℕ}
    (hclient : gm.ClientSession f sessionId) (hlt : sessionId < msg.sessionId) :
    gm.Reconnects pf f msg ↔ gm.Replaces f msg := by
  rw [Replaces, if_neg hname, hnew]
  simp only
  by_cases hw : f ∈ gm.watchers
  · rcases hs : gm.gameStarted with _ | _
    · exact iff_of_false (not_reconnects_of_unknown_watcher_lobby hgm hname hnew hw hs) (by simp)
    · constructor
      · exact fun h => ⟨rfl, fun _ => two_le_older_of_reconnects hgm hname hnew hw hs h⟩
      · exact fun h => reconnects_of_unknown_watcher hgm hname hnew hw hs (h.2 hw)
  · obtain ⟨n, p, hp, hf, -, hid⟩ := exists_player_of_clientSession hclient hw
    have hold : 0 < older f msg gm.players gm.players.keys :=
      older_pos.mpr ⟨n, p, hp, by simp [Player.isOlder, hf, hid, hlt]⟩
    rcases hs : gm.gameStarted with _ | _
    · exact iff_of_false
        (not_reconnects_of_unknown_player_lobby hgm hname hnew hw hs hold) (by simp)
    · exact iff_of_true (reconnects_of_unknown_player hgm hname hnew hw hs hold)
        ⟨rfl, fun h => absurd h hw⟩

/-- **When a message changes nothing**, if its sender has a connected client. -/
theorem handleMessage_eq_self_iff (hgm : gm.Consistent) {sessionId : ℕ}
    (hclient : gm.ClientSession f sessionId) :
    gm.handleMessage pf f msg = .ok gm ↔ gm.Ignores f msg := by
  by_cases hname : msg.playerNameSize = 0
  · exact handleMessage_eq_self_iff_of_watcher hname hclient
  · rcases hp : gm.players.find? msg.playerName with _ | p
    · exact handleMessage_eq_self_iff_of_unknown hgm hname hp hclient
    · exact handleMessage_eq_self_iff_of_known hgm hname hp

/-- **When a message replaces the clients of its sender**, if one of them has a smaller session
number. -/
theorem reconnects_iff (hgm : gm.Consistent) {sessionId : ℕ}
    (hclient : gm.ClientSession f sessionId) (hlt : sessionId < msg.sessionId) :
    gm.Reconnects pf f msg ↔ gm.Replaces f msg := by
  by_cases hname : msg.playerNameSize = 0
  · exact reconnects_iff_of_watcher hgm hname hclient hlt
  · rcases hp : gm.players.find? msg.playerName with _ | p
    · exact reconnects_iff_of_unknown hgm hname hp hclient hlt
    · exact reconnects_iff_of_known hgm hname hp hclient hlt

end GameManager

/-- **When a message obeys the session numbers** of the clients of its sender. -/
theorem sessionLaw_iff {pf : Platform D} {gm : GameManager D}
    (hgm : (managerMachine pf).Reachable gm) (f : Fingerprint) (msg : ClientToServerMessage) :
    gm.SessionLaw pf f msg ↔ ∀ sessionId, gm.ClientSession f sessionId →
      (msg.sessionId < sessionId → gm.Ignores f msg) ∧
      (sessionId < msg.sessionId → gm.Replaces f msg) := by
  have hconsistent := (managerMachine_consistent pf).reachable hgm
  constructor
  · rintro ⟨hignores, hreplaces⟩ sessionId hclient
    exact ⟨fun hlt => (GameManager.handleMessage_eq_self_iff hconsistent hclient).mp
        (hignores sessionId hclient hlt),
      fun hlt => (GameManager.reconnects_iff hconsistent hclient hlt).mp
        (hreplaces sessionId hclient hlt)⟩
  · intro h
    exact ⟨fun sessionId hclient hlt =>
        (GameManager.handleMessage_eq_self_iff hconsistent hclient).mpr ((h sessionId hclient).1 hlt),
      fun sessionId hclient hlt =>
        (GameManager.reconnects_iff hconsistent hclient hlt).mpr ((h sessionId hclient).2 hlt)⟩

/-- A message from a client that watches. -/
def nameless (sessionId : ℕ) : ClientToServerMessage where
  sessionId := sessionId
  turnDirection := .straight
  nextExpectedEventNo := 0
  playerName := ⟨[], by decide⟩

/-- A watcher that starts a new session is replaced. -/
theorem sessionLaw_watcher : ∃ s : Server ℤ, (serverMachine fixedPoint).Reachable s ∧
    s.gameManager.ClientSession [1] 5 ∧ s.gameManager.SessionLaw fixedPoint [1] (nameless 6) := by
  obtain ⟨s, hs, hw, hplayers⟩ := exists_reachable
    (P := fun s => (s.gameManager.watchers.find? [1]).map Watcher.sessionId = some 5 ∧
      s.gameManager.players.keys = [])
    (smallBoard 5 (by decide)) [.said 0 1 5 .straight 0 []] (by decide +kernel)
  obtain ⟨w, hw, hid⟩ := Option.map_eq_some_iff.mp hw
  have hnone : ∀ n p, s.gameManager.players.find? n ≠ some p := fun n p hp => by
    have hmem := SortedMap.mem_keys.mpr (SortedMap.mem_of_find? hp)
    rw [hplayers] at hmem
    exact List.not_mem_nil hmem
  refine ⟨s, hs, hid ▸ .watcher hw, (sessionLaw_iff (reachable_gameManager hs) _ _).mpr ?_⟩
  rintro _ (⟨hw'⟩ | ⟨hp, -, -⟩)
  · obtain rfl := Option.some.inj (hw.symm.trans hw')
    rw [hid]
    exact ⟨fun hlt => absurd hlt (by decide),
      fun _ => Or.inl ⟨SortedMap.mem_of_find? hw, fun n p hp => absurd hp (hnone n p)⟩⟩
  · exact absurd hp (hnone _ _)

/-- A message from an older session of player `a` turns the worm all the same. -/
theorem not_sessionLaw : ∃ s : Server ℤ, (serverMachine fixedPoint).Reachable s ∧
    ¬ s.gameManager.SessionLaw fixedPoint [1] (letter 4 .left 97) := by
  obtain ⟨s, hs, hp, hturned⟩ := exists_reachable
    (P := fun s => (s.gameManager.players.find? (letter 4 .left 97).playerName).any
        (fun p => p.fingerprint = [1] ∧ p.isDisconnected = false ∧ p.sessionId = 5 ∧
          p.turnDirection = .straight) = true ∧
      (s.gameManager.handleMessage fixedPoint [1] (letter 4 .left 97)).toOption.all (fun gm =>
        (gm.players.find? (letter 4 .left 97).playerName).map Player.turnDirection = some .left) =
          true)
    (smallBoard 5 (by decide)) [.said 0 1 5 .straight 0 [97]] (by decide +kernel)
  obtain ⟨p, hp, hall⟩ := (Option.any_eq_true _ _).mp hp
  obtain ⟨hf, hd, hid, hstraight⟩ := of_decide_eq_true hall
  refine ⟨s, hs, fun h => ?_⟩
  have hsame := h.ignores 5 (hid ▸ .player hp hf hd) (by decide)
  rw [hsame] at hturned
  have hleft := of_decide_eq_true (show decide _ = true from hturned)
  rw [hp, Option.map_some, hstraight] at hleft
  cases hleft

end ScreenWorms
