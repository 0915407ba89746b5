import ScreenWorms.Server.Broadcast

/-!
# Nobody starves

`getNextMessage` goes through the schedule from the front, takes the first client that has something
to get, and puts it and those before it at the end. A client that has something to get is therefore
never passed over. Its place in the schedule is the rank: every call that returns somebody else
lowers it, since those it returns or skips were before the client. What happens between the calls
never raises it: new clients go to the end, and one that goes only makes room.

## Main definitions

* `MQManager.HasUnsent` — the client has something to get of the current game
* `recipients` — whom the calls of `getNextMessage` in a run return

## Main results

* `serve_lowers` — who is not served moves forward
* `queueMachine_fair` — a client with something to get is served within its place in the schedule
-/

/-! ### Places in a list -/

namespace List

variable {α : Type} [BEq α] [LawfulBEq α] {a b : α} {l : List α}

/-- Going to the end makes room for everybody else. -/
theorem idxOf_rotate (hab : b ≠ a) (ha : a ∈ b :: l) :
    (l ++ [b]).idxOf a + 1 = (b :: l).idxOf a := by
  have hmem : a ∈ l := (mem_cons.mp ha).resolve_left (Ne.symm hab)
  rw [idxOf_append_of_mem hmem, idxOf_cons_ne l hab]

/-- So does leaving. -/
theorem idxOf_erase_le (hab : b ≠ a) : (l.erase b).idxOf a ≤ l.idxOf a := by
  induction l with
  | nil => exact Nat.le_refl _
  | cons c l ih =>
    by_cases hcb : c == b
    · obtain rfl := eq_of_beq hcb
      rw [erase_cons_head, idxOf_cons_ne l hab]
      exact Nat.le_succ _
    · rw [erase_cons_tail (by simpa using hcb)]
      by_cases hca : c = a
      · rw [idxOf_cons_eq _ hca]
        exact Nat.zero_le _
      · rw [idxOf_cons_ne _ hca, idxOf_cons_ne _ hca]
        exact Nat.succ_le_succ ih

end List

namespace ScreenWorms

open Machine MQManager

namespace MQManager

variable {mq mq' : MQManager} {client : Fingerprint} {m : MessageAndRecipient}

/-- The client has a queue, and events of the current game to get. -/
def HasUnsent (mq : MQManager) (client : Fingerprint) : Prop :=
  ∃ pos, mq.queues.find? client = some pos ∧ pos < mq.currentGameEvents.length

instance : Decidable (mq.HasUnsent client) :=
  decidable_of_iff ((mq.queues.find? client).any fun pos => pos < mq.currentGameEvents.length) <| by
    simp [HasUnsent, Option.any_eq_true]

/-! ## One call -/

/-- **Who is not served moves forward.** -/
theorem serve_lowers {n : ℕ} (hmem : client ∈ mq.clientsToServeSchedule)
    (hunsent : mq.HasUnsent client) (h : mq.serve n = .ok (m, mq')) (hne : m.fingerprint ≠ client) :
    mq'.clientsToServeSchedule.idxOf client < mq.clientsToServeSchedule.idxOf client := by
  induction n generalizing mq with
  | zero => simp [serve] at h
  | succ n ih =>
    rw [serve] at h
    rcases hs : mq.clientsToServeSchedule with _ | ⟨fprint, rest⟩
    · rw [hs] at h
      exact absurd h (by simp)
    · rw [hs] at h hmem
      simp only at h
      rcases hq : mq.queues.find? fprint with _ | pos
      · rw [hq] at h
        exact absurd h (by simp)
      · rw [hq] at h
        simp only at h
        split at h
        · obtain ⟨rfl, rfl⟩ := Prod.mk.inj (Except.ok.inj h)
          have hfront : fprint ≠ client := hne
          have hroom := List.idxOf_rotate hfront hmem
          exact Nat.lt_of_succ_le hroom.le
        · -- the client in front has nothing to get, so it is another one
          rename_i hge
          have hfront : fprint ≠ client := by
            intro he
            obtain ⟨pos', hpos', hlt⟩ := hunsent
            rw [he, hpos'] at hq
            exact hge (Option.some.inj hq ▸ hlt)
          have hroom := List.idxOf_rotate hfront hmem
          have hrest := (List.mem_cons.mp hmem).resolve_left (Ne.symm hfront)
          have hmem' : client ∈ (rest ++ [fprint]) := List.mem_append_left _ hrest
          have hlt := @ih { mq with clientsToServeSchedule := rest ++ [fprint] } hmem' hunsent h
          exact hlt.trans ((Nat.lt_succ_self _).trans_eq hroom)

theorem getNextMessage_lowers (hmem : client ∈ mq.clientsToServeSchedule)
    (hunsent : mq.switchGame.HasUnsent client) (h : mq.getNextMessage = .ok (m, mq'))
    (hne : m.fingerprint ≠ client) :
    mq'.clientsToServeSchedule.idxOf client < mq.clientsToServeSchedule.idxOf client := by
  rw [← clientsToServeSchedule_switchGame mq] at hmem ⊢
  exact serve_lowers hmem hunsent h hne

/-- A call returns as soon as somebody has something to get. -/
theorem exists_getNextMessage (hperm : mq.clientsToServeSchedule.Perm mq.queues.keys)
    (hunsent : mq.switchGame.HasUnsent client) :
    ∃ m mq', mq.getNextMessage = .ok (m, mq') := by
  obtain ⟨pos, hfind, hlt⟩ := hunsent
  have hsched : mq.switchGame.clientsToServeSchedule = mq.clientsToServeSchedule :=
    clientsToServeSchedule_switchGame mq
  have hsub : ∀ f ∈ mq.switchGame.clientsToServeSchedule, f ∈ mq.switchGame.queues := by
    intro f hf
    rw [hsched] at hf
    exact mem_queues_switchGame.mpr (hperm.mem_iff.mp hf)
  have hmem : client ∈ mq.switchGame.clientsToServeSchedule := by
    rw [hsched]
    exact hperm.mem_iff.mpr (mem_queues_switchGame.mp (SortedMap.mem_of_find? hfind))
  obtain ⟨skipped, rest, hsplit⟩ := List.append_of_mem hmem
  obtain ⟨⟨m, mq'⟩, hserve⟩ := serve_ok_of_pending hsplit hsub hfind hlt
  refine ⟨m, mq', serve_mono ?_ hserve⟩
  rw [← hsched, hsplit]
  simp

/-! ## The other operations -/

/-- **A call for another client leaves a client where it is**, or moves it forward. -/
theorem idxOf_exec_le {c : MQCall} (hmem : client ∈ mq.clientsToServeSchedule)
    (hdrop : c ≠ .dropQueue client) (h : mq.exec c = .ok mq') :
    client ∈ mq'.clientsToServeSchedule ∧
      mq'.clientsToServeSchedule.idxOf client ≤ mq.clientsToServeSchedule.idxOf client := by
  cases c with
  | schedule gameId event =>
    obtain rfl := Except.ok.inj h
    rw [schedule]
    split
    · exact ⟨hmem, le_rfl⟩
    · exact ⟨hmem, le_rfl⟩
  | ack f n =>
    change mq.ack f n = .ok mq' at h
    rw [ack] at h
    split at h
    · split at h
      · obtain rfl := Except.ok.inj h
        exact ⟨hmem, le_rfl⟩
      · exact absurd h (by simp)
    · obtain rfl := Except.ok.inj h
      exact ⟨hmem, le_rfl⟩
  | dropQueue f =>
    obtain rfl := Except.ok.inj h
    have hne : f ≠ client := fun he => hdrop (he ▸ rfl)
    exact ⟨(List.mem_erase_of_ne (Ne.symm hne)).mpr hmem, List.idxOf_erase_le hne⟩
  | addQueue f n =>
    obtain rfl := Except.ok.inj h
    rw [addQueue]
    split
    · exact ⟨hmem, le_rfl⟩
    · exact ⟨List.mem_append_left _ hmem, (List.idxOf_append_of_mem hmem).le⟩

/-- The schedule stays a list of the clients that have a queue. -/
theorem schedule_perm_step {op : MQOp} (hperm : mq.clientsToServeSchedule.Perm mq.queues.keys)
    (h : queueMachine.step op mq = .ok mq') :
    mq'.clientsToServeSchedule.Perm mq'.queues.keys := by
  cases op with
  | call c => exact schedule_perm_exec hperm h
  | getNextMessage =>
    obtain ⟨m, hnext⟩ := step_getNextMessage_eq_ok.mp h
    have hrotated := schedule_perm_serve hnext
    rw [clientsToServeSchedule_switchGame] at hrotated
    refine hrotated.trans ?_
    obtain ⟨_, _, _, -, -, -, -, -, rfl⟩ := serve_eq_ok hnext
    rw [keys_queues_switchGame]
    exact hperm

end MQManager

/-! ## Runs -/

/-- Whom a step returns. -/
def recipient : MQManager × MQOp → Option Fingerprint
  | (mq, .getNextMessage) => mq.getNextMessage.toOption.map fun r => r.1.fingerprint
  | (_, .call _) => none

/-- Whom the calls of `getNextMessage` in a run return, in order. -/
def recipients (tr : List (MQManager × MQOp)) : List Fingerprint := tr.filterMap recipient

/-- What the run may do: the client is not dropped, and has something to get at each call of
`getNextMessage`, after the switch the call makes. -/
structure KeepsUnsent (client : Fingerprint) (x : MQManager × MQOp) : Prop where
  not_dropped : x.2 ≠ .call (.dropQueue client)
  hasUnsent : x.2 = .getNextMessage → x.1.switchGame.HasUnsent client

variable {tr : List (MQManager × MQOp)} {mq mq' : MQManager} {client : Fingerprint}

/-- **A step that does not return the client** leaves it its place, or a lower one if it returns
somebody else. -/
theorem KeepsUnsent.step {op : MQOp} (h : KeepsUnsent client (mq, op))
    (hmem : client ∈ mq.clientsToServeSchedule) (hstep : queueMachine.step op mq = .ok mq')
    (hne : recipient (mq, op) ≠ some client) :
    client ∈ mq'.clientsToServeSchedule ∧
      mq'.clientsToServeSchedule.idxOf client + (recipient (mq, op)).toList.length ≤
        mq.clientsToServeSchedule.idxOf client := by
  cases op with
  | call c => exact idxOf_exec_le hmem (fun he => h.not_dropped (he ▸ rfl)) hstep
  | getNextMessage =>
    obtain ⟨m, hnext⟩ := step_getNextMessage_eq_ok.mp hstep
    have hrecipient : recipient (mq, .getNextMessage) = some m.fingerprint := by
      rw [recipient, hnext]
      rfl
    rw [hrecipient] at hne ⊢
    have hlt := getNextMessage_lowers hmem (h.hasUnsent rfl) hnext fun he => hne (he ▸ rfl)
    have hrotated := schedule_perm_serve hnext
    rw [clientsToServeSchedule_switchGame] at hrotated
    exact ⟨hrotated.mem_iff.mpr hmem, hlt⟩

/-- **Nobody starves.** A client at the place `i` of the schedule, that is not dropped and has
something to get at every call of `getNextMessage`, is returned by one of the first `i + 1` calls,
and each of them returns. -/
theorem queueMachine_fair {i : ℕ} (hperm : mq.clientsToServeSchedule.Perm mq.queues.keys)
    (hi : mq.clientsToServeSchedule[i]? = some client) (hrun : queueMachine.Run mq tr mq')
    (hkeeps : ∀ x ∈ tr, KeepsUnsent client x) :
    (i < (recipients tr).length → client ∈ (recipients tr).take (i + 1)) ∧
    (mq'.switchGame.HasUnsent client → ∃ m mq'', mq'.getNextMessage = .ok (m, mq'')) := by
  constructor
  · intro hlength
    have hmem := List.mem_of_getElem? hi
    have hplace : mq.clientsToServeSchedule.idxOf client = i := by
      obtain ⟨hlt, rfl⟩ := List.getElem?_eq_some_iff.mp hi
      exact (hperm.nodup_iff.mpr mq.queues.nodup_keys).idxOf_getElem i hlt
    -- the place of the client is the rank
    have hwithin : client ∈ (recipients tr).take (mq.clientsToServeSchedule.idxOf client + 1) ∨
        client ∈ mq'.clientsToServeSchedule ∧
          mq'.clientsToServeSchedule.idxOf client + (recipients tr).length ≤
            mq.clientsToServeSchedule.idxOf client :=
      hrun.observed_within
        (fun mq op mq' hmem hkeeps hstep hne => KeepsUnsent.step hkeeps hmem hstep hne) hmem hkeeps
    rcases hwithin with hserved | ⟨-, hrank⟩
    · exact hplace ▸ hserved
    · omega
  · intro hunsent
    refine exists_getNextMessage ?_ hunsent
    clear hkeeps hunsent hi
    induction hrun with
    | nil => exact hperm
    | snoc _ hstep ih => exact schedule_perm_step ih hstep

/-- Three clients have one event to get. -/
def threeClients : MQManager where
  nextGames := []
  queues := ((∅ : SortedMap Fingerprint ℕ).insert [1] 0).insert [2] 0 |>.insert [3] 0
  clientsToServeSchedule := [[1], [2], [3]]
  currentGameEvents := [⟨0, .gameOver⟩]
  currentlyBroadcastedGameId := 7

/-- While the first two are served, one of them leaves and another client comes. -/
def comeAndGo : List MQOp :=
  [.getNextMessage, .call (.ack [1] 1), .call (.addQueue [4] 0), .call (.dropQueue [1]),
    .getNextMessage, .call (.schedule 8 .gameOver), .getNextMessage]

/-- The last one is served by the third call. -/
theorem queueMachine_fair_three : ∃ tr mq', queueMachine.Run threeClients tr mq' ∧
    tr.map Prod.snd = comeAndGo ∧ [3] ∈ (recipients tr).take 3 := by
  have hok : (queueMachine.exec comeAndGo threeClients).isOk = true := by decide +kernel
  obtain ⟨mq', hexec⟩ := Except.exists_of_isOk hok
  have hkeeps : ∀ x ∈ queueMachine.trace comeAndGo threeClients,
      x.2 ≠ .call (.dropQueue [3]) ∧ (x.2 = .getNextMessage → x.1.switchGame.HasUnsent [3]) := by
    decide +kernel
  exact ⟨_, mq', run_trace hexec, map_snd_trace hexec,
    (queueMachine_fair (i := 2) (by decide) (by decide) (run_trace hexec)
      fun x hx => ⟨(hkeeps x hx).1, (hkeeps x hx).2⟩).1 (by decide +kernel)⟩

end ScreenWorms
