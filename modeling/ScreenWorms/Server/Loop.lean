import ScreenWorms.ForStd.EventLoop
import ScreenWorms.Server.FixedPoint

/-!
# The loop of the server

`Server::run`. A round cleans up and plays a turn if the timer has fired, then reads one datagram if
there is one, then sends one message if there is one and the socket was reported to be writable. The
socket is only asked whether it is while messages wait.

## Main definitions

* `ServerRevents`, `ServerInput`
* `serverLoop`

## Main results

* `serverLoop_exact` — the loop gets wherever `serverMachine` gets, and a message waits for nothing
  but the socket
-/

namespace ScreenWorms

open Machine

variable {D : Type} {pf : Platform D} {s t : Server D}

/-- `revents` of the server's descriptors. -/
structure ServerRevents where
  /-- `POLLIN` of the turn timer. -/
  turnTimer : Bool
  /-- `POLLIN` of the socket. -/
  readable : Bool
  /-- `POLLOUT` of the socket. -/
  writable : Bool
deriving DecidableEq, Inhabited

/-- What a round of the server gets from outside. -/
structure ServerInput where
  /-- The time at which connections are looked through, and in which order. -/
  now : ℤ
  order : List Fingerprint
  /-- What `recvfrom` yields and when, if it does not fail. -/
  datagram : Option (ℤ × Fingerprint × SockAddr × List Byte)
  /-- Whether `sendto` succeeds. -/
  delivered : Bool
deriving DecidableEq

/-- `Server::run`. Of `events`, it is `POLLOUT` of the socket that changes. -/
def serverLoop (pf : Platform D) :
    EventLoop (Server D) Server.Op Fault Bool ServerRevents ServerInput where
  toMachine := serverMachine pf
  calls := [
    fun r i _ => if r.turnTimer then some (.tick i.now i.order) else none,
    fun r i _ =>
      if r.readable then
        i.datagram.map fun (now, fingerprint, their_addr, datagram) =>
          .read now fingerprint their_addr datagram
      else none,
    fun r i s =>
      if !s.gameManager.mqManager.isEmpty && r.writable then some (.send i.delivered) else none]
  start := false
  wanted s := !s.gameManager.mqManager.isEmpty
  report pollOut r := { r with writable := r.writable && pollOut }
  nothing := ⟨false, false, false⟩

/-- Nothing waits at first. -/
theorem serverLoop_start (s : Server D) (hs : (serverMachine pf).init s) :
    (serverLoop pf).wanted s = (serverLoop pf).start := by
  obtain ⟨config, unsetId, unsetAlive, rfl⟩ := hs
  rfl

/-- Each step can be a round of its own. -/
theorem serverLoop_single (s : Server D) (op : Server.Op) :
    (serverMachine pf).step op s = .ok s ∨ (serverLoop pf).Single op s := by
  cases op with
  | tick now order =>
    exact Or.inr ⟨⟨true, false, false⟩, ⟨now, order, none, false⟩,
      EventLoop.made_eq_singleton [] (by simp) rfl (by simp [serverLoop])⟩
  | read now fingerprint their_addr datagram =>
    exact Or.inr ⟨⟨false, true, false⟩, ⟨0, [], some (now, fingerprint, their_addr, datagram), false⟩,
      EventLoop.made_eq_singleton ((serverLoop pf).calls.take 1)
        (by simp [serverLoop]) rfl (by simp [serverLoop])⟩
  | send delivered =>
    cases hempty : s.gameManager.mqManager.isEmpty with
    | true => exact Or.inl (if_pos hempty)
    | false =>
      exact Or.inr ⟨⟨false, false, true⟩, ⟨0, [], none, delivered⟩,
        EventLoop.made_eq_singleton ((serverLoop pf).calls.take 2)
          (by simp [serverLoop]) (by simp [serverLoop, hempty]) (by simp)⟩

/-- **A message waits only for the socket.** If one waits and the socket is writable, the round
sends one, unless there is none left by then. -/
theorem serverLoop_sends {w w' : Waiting (Server D) Bool ServerRevents}
    (hw : (serverLoop pf).loop.Reachable w) {happened : ServerRevents} {i : ServerInput}
    (hwaits : w.state.gameManager.mqManager.isEmpty = false) (hwritable : happened.writable = true)
    (hstep : (serverLoop pf).loop.step (.ready happened i) w = .ok w') :
    w'.state.gameManager.mqManager.isEmpty = true ∨
      ∃ s, (s, .send i.delivered) ∈ (serverLoop pf).steps (w, .ready happened i) := by
  have hevents : w.events = !w.state.gameManager.mqManager.isEmpty :=
    (EventLoop.loop_events serverLoop_start).reachable hw
  have hreported : ((serverLoop pf).report w.events happened).writable = true := by
    show (happened.writable && w.events) = true
    rw [hwritable, hevents, hwaits]
    rfl
  obtain ⟨s, t, -, hsend, hend, hmem⟩ := EventLoop.exists_call_of_step
    ((serverLoop pf).calls.take 2) [] rfl rfl hstep
  obtain rfl := Except.ok.inj hend
  rcases EventLoop.round_singleton hsend with ⟨hnone, rfl⟩ | ⟨op, hcall, -⟩
  · left
    rw [hreported, Bool.and_true] at hnone
    simpa using hnone
  · right
    obtain ⟨-, heq⟩ := Option.ite_none_right_eq_some.mp hcall
    obtain rfl := Option.some.inj heq
    exact ⟨s, hmem _ hcall⟩

/-- **The loop is the machine.** Whatever `poll` and the sockets do, the loop gets to the states that
the machine gets to, and fails as it may fail. It asks whether the socket is writable while messages
wait, and then they wait for nothing else. -/
theorem serverLoop_exact (pf : Platform D) :
    (∀ s, (∃ w, (serverLoop pf).loop.Reachable w ∧ w.state = s) ↔ (serverMachine pf).Reachable s) ∧
    (∀ e, (∃ w p, (serverLoop pf).loop.Reachable w ∧ (serverLoop pf).loop.step p w = .error e) ↔
      ∃ s op, (serverMachine pf).Reachable s ∧ (serverMachine pf).step op s = .error e) ∧
    ∀ w, (serverLoop pf).loop.Reachable w →
      w.events = !w.state.gameManager.mqManager.isEmpty ∧
      ∀ happened i w', (serverLoop pf).loop.step (.ready happened i) w = .ok w' →
        happened.writable = true → w.state.gameManager.mqManager.isEmpty = false →
        w'.state.gameManager.mqManager.isEmpty = true ∨
          ∃ s, (s, .send i.delivered) ∈ (serverLoop pf).steps (w, .ready happened i) := by
  have hsingle : ∀ s op, (serverLoop pf).Reachable s →
      (serverLoop pf).step op s = .ok s ∨ (serverLoop pf).Single op s :=
    fun s op _ => serverLoop_single s op
  refine ⟨fun s => ?_, fun e => ?_, fun w hw => ⟨?_, ?_⟩⟩
  · exact EventLoop.loop_reachable_iff serverLoop_start hsingle
  · exact EventLoop.loop_fails_iff serverLoop_start hsingle
  · exact (EventLoop.loop_events serverLoop_start).reachable hw
  · exact fun happened i w' hstep hwritable hwaits => serverLoop_sends hw hwaits hwritable hstep

end ScreenWorms
