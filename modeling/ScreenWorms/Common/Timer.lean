import Mathlib.Data.Int.Order.Basic
import Mathlib.Tactic.Common

/-!
# The timers

The client and the server each have a timer that fires again and again. `setIntervalTimer` adds the
interval to the current time and carries a full second over, but not when the sum is exactly one
second. The interval itself is all in the nanoseconds, so that it must be shorter than a second.

## Main definitions

* `Timespec`, `Itimerspec`
* `setIntervalTimer`
* `CallerInterval` — the intervals of the client and the server

## Main results

* `timerSettings_armed_iff` — when the settings are right
* `setIntervalTimer_returns_iff` — when the program goes on
-/

namespace ScreenWorms

/-- `NS_IN_SECOND`. -/
def nsInSecond : ℤ := 1000000000

/-- `NS_IN_MS`. -/
def nsInMs : ℤ := 1000000

/-- `MSG_TO_SERVER_INTERVAL_MS`. -/
def msgToServerIntervalMs : ℤ := 30

/-- `timespec`. -/
structure Timespec where
  tvSec : ℤ
  tvNsec : ℤ
deriving DecidableEq

/-- `itimerspec`. -/
structure Itimerspec where
  itInterval : Timespec
  itValue : Timespec
deriving DecidableEq

namespace Timespec

/-- The time in nanoseconds. -/
def nanoseconds (t : Timespec) : ℤ := t.tvSec * nsInSecond + t.tvNsec

/-- The nanoseconds are less than a second. -/
def Normalised (t : Timespec) : Prop := 0 ≤ t.tvNsec ∧ t.tvNsec < nsInSecond

instance decidableNormalised (t : Timespec) : Decidable t.Normalised :=
  inferInstanceAs (Decidable (_ ∧ _))

end Timespec

/-- The `timerSettings` of `utils::setIntervalTimer`, at the time that `clock_gettime` yields. -/
def timerSettings (now : Timespec) (intervalNsec : ℤ) : Itimerspec :=
  let now := { now with tvNsec := now.tvNsec + intervalNsec }
  let now := if now.tvNsec > nsInSecond then
      { now with tvNsec := now.tvNsec - nsInSecond, tvSec := now.tvSec + 1 }
    else now
  ⟨⟨0, intervalNsec⟩, now⟩

/-- `utils::setIntervalTimer`: the settings of the timer, or none when the program exits since
`timerfd_settime` fails. -/
def setIntervalTimer (timerfdSettime : Itimerspec → Bool) (now : Timespec) (intervalNsec : ℤ) :
    Option Itimerspec :=
  if timerfdSettime (timerSettings now intervalNsec) then some (timerSettings now intervalNsec)
  else none

/-- The intervals that `setIntervalTimer` is called with. -/
inductive CallerInterval : ℤ → Prop
  /-- The turns of the server, for the numbers of rounds that `ServerConfig` accepts. -/
  | turn (roundsPerSec : ℕ) (hmin : 1 ≤ roundsPerSec) (hmax : roundsPerSec ≤ 250) :
    CallerInterval (nsInSecond / roundsPerSec)
  /-- The messages of the client. -/
  | message : CallerInterval (msgToServerIntervalMs * nsInMs)

/-- The timer first fires after the interval, and both times are normalised. -/
structure Armed (now : Timespec) (intervalNsec : ℤ) : Prop where
  first : (timerSettings now intervalNsec).itValue.nanoseconds = now.nanoseconds + intervalNsec
  value : (timerSettings now intervalNsec).itValue.Normalised
  interval : (timerSettings now intervalNsec).itInterval.Normalised

variable {now : Timespec} {intervalNsec : ℤ}

/-- The intervals are positive, and at most a second. -/
theorem CallerInterval.bounds (h : CallerInterval intervalNsec) :
    0 < intervalNsec ∧ intervalNsec ≤ nsInSecond := by
  cases h with
  | turn roundsPerSec hmin hmax =>
    have hpos : (0 : ℤ) < roundsPerSec := by omega
    refine ⟨?_, Int.ediv_le_self _ (by decide)⟩
    refine Int.lt_of_lt_of_le Int.zero_lt_one ((Int.le_ediv_iff_mul_le hpos).mpr ?_)
    rw [nsInSecond]
    omega
  | message => decide

theorem timerSettings_of_gt (h : now.tvNsec + intervalNsec > nsInSecond) :
    timerSettings now intervalNsec = ⟨⟨0, intervalNsec⟩,
      ⟨now.tvSec + 1, now.tvNsec + intervalNsec - nsInSecond⟩⟩ := by
  simp only [timerSettings, if_pos h]

theorem timerSettings_of_le (h : now.tvNsec + intervalNsec ≤ nsInSecond) :
    timerSettings now intervalNsec = ⟨⟨0, intervalNsec⟩,
      ⟨now.tvSec, now.tvNsec + intervalNsec⟩⟩ := by
  simp only [timerSettings, gt_iff_lt, if_neg (not_lt.mpr h)]

/-- Carrying a second over does not change the time. -/
theorem nanoseconds_timerSettings (now : Timespec) (intervalNsec : ℤ) :
    (timerSettings now intervalNsec).itValue.nanoseconds = now.nanoseconds + intervalNsec := by
  rcases le_or_gt (now.tvNsec + intervalNsec) nsInSecond with hle | hgt
  · simp only [timerSettings_of_le hle, Timespec.nanoseconds]
    omega
  · simp only [timerSettings_of_gt hgt, Timespec.nanoseconds, Int.add_mul]
    omega

/-- The time is normalised unless the sum is exactly one second. -/
theorem normalised_itValue_iff (hnow : now.Normalised) (hinterval : CallerInterval intervalNsec) :
    (timerSettings now intervalNsec).itValue.Normalised ↔
      now.tvNsec + intervalNsec ≠ nsInSecond := by
  obtain ⟨hpos, hle⟩ := hinterval.bounds
  obtain ⟨hzero, hlt⟩ := hnow
  rcases le_or_gt (now.tvNsec + intervalNsec) nsInSecond with hsum | hsum
  · simp only [timerSettings_of_le hsum, Timespec.Normalised]
    omega
  · simp only [timerSettings_of_gt hsum, Timespec.Normalised]
    omega

/-- The interval is normalised unless it is a second. -/
theorem normalised_itInterval_iff (now : Timespec) (hinterval : CallerInterval intervalNsec) :
    (timerSettings now intervalNsec).itInterval.Normalised ↔ intervalNsec ≠ nsInSecond := by
  obtain ⟨hpos, hle⟩ := hinterval.bounds
  show 0 ≤ intervalNsec ∧ intervalNsec < nsInSecond ↔ _
  omega

/-- **The timer**: whenever it is set, the settings are right exactly when the interval is not a
second and does not lead up to a full second. -/
theorem timerSettings_armed_iff (hnow : now.Normalised)
    (hinterval : CallerInterval intervalNsec) : Armed now intervalNsec ↔
      intervalNsec ≠ nsInSecond ∧ now.tvNsec + intervalNsec ≠ nsInSecond := by
  rw [← normalised_itValue_iff hnow hinterval,
    ← normalised_itInterval_iff now hinterval]
  constructor
  · intro h
    exact ⟨h.interval, h.value⟩
  · rintro ⟨hnormal, hvalue⟩
    exact ⟨nanoseconds_timerSettings now intervalNsec, hvalue, hnormal⟩

/-- Two turns of 20 ms, the second of which begins in the last 10 ms of a second. -/
theorem timerSettings_armed_two : Armed ⟨7, 0⟩ (nsInSecond / (50 : ℕ)) ∧
    Armed ⟨7, 990000000⟩ (nsInSecond / (50 : ℕ)) := by
  have hturn : CallerInterval (nsInSecond / (50 : ℕ)) := .turn 50 (by decide) (by decide)
  exact ⟨(timerSettings_armed_iff (by decide) hturn).mpr (by decide),
    (timerSettings_armed_iff (by decide) hturn).mpr (by decide)⟩

/-- A round per second, and two rounds per second that begin in the middle of a second. -/
theorem not_armed : ¬Armed ⟨7, 1⟩ (nsInSecond / (1 : ℕ)) ∧
    ¬Armed ⟨7, 500000000⟩ (nsInSecond / (2 : ℕ)) := by
  refine ⟨fun h => ?_, fun h => ?_⟩
  · exact absurd h.interval (by decide)
  · exact absurd h.value (by decide)

/-- `timerfd_settime` takes normalised times only. Then the program goes on exactly when the
settings are right. -/
theorem setIntervalTimer_returns_iff {timerfdSettime : Itimerspec → Bool}
    (hsettime : ∀ settings, timerfdSettime settings = true ↔
      settings.itInterval.Normalised ∧ settings.itValue.Normalised)
    (now : Timespec) (intervalNsec : ℤ) :
    (setIntervalTimer timerfdSettime now intervalNsec).isSome = true ↔ Armed now intervalNsec := by
  rw [setIntervalTimer]
  split
  · rename_i htaken
    obtain ⟨hnormal, hvalue⟩ := (hsettime _).mp htaken
    exact iff_of_true rfl ⟨nanoseconds_timerSettings now intervalNsec, hvalue, hnormal⟩
  · rename_i hfailed
    refine iff_of_false Bool.false_ne_true fun h => hfailed ?_
    exact (hsettime _).mpr ⟨h.interval, h.value⟩

end ScreenWorms
