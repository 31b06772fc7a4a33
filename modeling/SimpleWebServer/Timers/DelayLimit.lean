import SimpleWebServer.Timers.TimerOrder

/-!
# The limit on the delay

`add_timer` is to reject a delay of the wheel's span or more.  It adds the delay to the clock
modulo `2^64` and first asks whether the sum has passed, and `get_slot_timestamp` takes the
greatest number for the present.  A delay so long that the sum wraps, or meets that number,
comes to the limit only where the time it seems to have is still to come.
-/

namespace SimpleWebServer.Timers

/-- `TimerId{}`, whose pointer is null -/
def TimerId.empty (it : Nat) : TimerId := ⟨0, it⟩

/-- What `add_timer` returns. -/
def Added.returned : Added → Nat → TimerId
  | .ran, it => .empty it
  | .rejected, it => .empty it
  | .stored id, _ => id

/-- `a - a % every_ms` -/
def slotStart (a : Nat) : Nat := a - a % everyMs

theorem getSlotTimestamp_max (reading : Nat) :
    getSlotTimestamp (uint64Size - 1) reading = slotStart reading := by
  rw [getSlotTimestamp, if_pos rfl, slotStart]

theorem getSlotTimestamp_of_ne {a : Nat} (other : a ≠ uint64Size - 1) (reading : Nat) :
    getSlotTimestamp a reading = slotStart a := by
  rw [getSlotTimestamp, if_neg other, slotStart]

theorem uint64Size_eq : uint64Size = 18446744073709551616 := rfl

namespace TimerWheel

/-- The timer neither runs nor is stored, and the identifier that is returned is empty. -/
def Rejects (ti : TimerWheel) (timer : Timer) (reads : ClockReads) : Prop :=
  ∀ it null,
    (ti.addTimer timer it reads).1 ≠ .ran ∧ (ti.addTimer timer it reads).2 = ti ∧
      (ti.addTimer timer it reads).1.returned null = .empty null

/-- The delay and the clock as `add_timer` reads it first, not reduced. -/
def unreducedSum (timer : Timer) (reads : ClockReads) : Nat :=
  timer.triggerAfterMs.toNat + reads.now

/--
The sum is in range, or what it is taken for is ahead of the wheel.  The greatest delay is
itself taken for the present, which must then be beyond the span.
-/
def SeesLimit (ti : TimerWheel) (timer : Timer) (reads : ClockReads) : Prop :=
  let sum := unreducedSum timer reads
  sum < uint64Size - 1 ∨
    ti.triggerBeforeMs <
        slotStart (if sum = uint64Size - 1 then reads.forSum else sum - uint64Size) ∧
      (timer.triggerAfterMs.toNat = uint64Size - 1 → spanSec * 1000 ≤ reads.forDelay)

instance (ti : TimerWheel) (timer : Timer) (reads : ClockReads) :
    Decidable (ti.SeesLimit timer reads) :=
  inferInstanceAs (Decidable (_ ∨ _ ∧ (_ → _)))

section

variable (ti : TimerWheel) (timer : Timer) (reads : ClockReads)

/-- Of the three branches only that of the limit returns so and leaves the wheel alone. -/
theorem rejects_iff : ti.Rejects timer reads ↔
    ti.triggerBeforeMs < atMs timer reads ∧
      spanSec * 1000 ≤ getSlotTimestamp timer.triggerAfterMs.toNat reads.forDelay := by
  constructor
  · intro rejects
    obtain ⟨waits, same, -⟩ := rejects 0 0
    rw [addTimer] at waits same
    split_ifs at waits same with due limit
    · exact absurd rfl waits
    · exact ⟨Nat.lt_of_not_le due, limit⟩
    · have list := congrFun (congrArg TimerWheel.wheel same) (ti.slotOf (atMs timer reads))
      simp [pushBack] at list
  · rintro ⟨future, limit⟩ it null
    rw [addTimer, if_neg (Nat.not_le_of_lt future), if_pos limit]
    exact ⟨by simp, rfl, rfl⟩

/-- The time of a timer whose sum is in range is the sum, rounded down. -/
theorem atMs_of_inRange (inRange : unreducedSum timer reads < uint64Size - 1) :
    atMs timer reads = slotStart (unreducedSum timer reads) := by
  have small : unreducedSum timer reads % uint64Size = unreducedSum timer reads :=
    Nat.mod_eq_of_lt (by omega)
  rw [atMs, ← unreducedSum, small, getSlotTimestamp_of_ne (Nat.ne_of_lt inRange)]

/-- Otherwise it is the present or what is left of the sum. -/
theorem atMs_of_outOfRange (outOfRange : ¬ unreducedSum timer reads < uint64Size - 1)
    (clock : reads.now < uint64Size / 2) :
    atMs timer reads = slotStart (if unreducedSum timer reads = uint64Size - 1 then reads.forSum
      else unreducedSum timer reads - uint64Size) := by
  have delay : timer.triggerAfterMs.toNat < uint64Size := timer.triggerAfterMs.toNat_lt
  rw [atMs, ← unreducedSum]
  by_cases greatest : unreducedSum timer reads = uint64Size - 1
  · rw [if_pos greatest, greatest, Nat.mod_eq_of_lt (by decide), getSlotTimestamp_max]
  · rw [if_neg greatest]
    have wraps : unreducedSum timer reads % uint64Size = unreducedSum timer reads - uint64Size := by
      rw [unreducedSum, uint64Size_eq] at *
      omega
    rw [wraps, getSlotTimestamp_of_ne]
    rw [unreducedSum, uint64Size_eq] at *
    omega

variable {timer} (long : spanSec * 1000 ≤ timer.triggerAfterMs.toNat)
include long

/-- Only the greatest delay may be taken for one within the limit. -/
theorem delay_iff :
    spanSec * 1000 ≤ getSlotTimestamp timer.triggerAfterMs.toNat reads.forDelay ↔
      (timer.triggerAfterMs.toNat = uint64Size - 1 → spanSec * 1000 ≤ reads.forDelay) := by
  rw [span_eq] at *
  by_cases greatest : timer.triggerAfterMs.toNat = uint64Size - 1
  · rw [greatest, getSlotTimestamp_max, slotStart, everyMs_eq]
    omega
  · rw [getSlotTimestamp_of_ne greatest, slotStart, everyMs_eq]
    omega

/--
A delay of the span or more is rejected exactly when its sum with the clock is in range or is
taken for a time ahead of the wheel.
-/
theorem rejects_iff_seesLimit (clock : reads.now < uint64Size / 2)
    (past : ti.triggerBeforeMs ≤ reads.now) :
    ti.Rejects timer reads ↔ ti.SeesLimit timer reads := by
  rw [rejects_iff, delay_iff reads long]
  by_cases inRange : unreducedSum timer reads < uint64Size - 1
  · refine iff_of_true ⟨?_, fun greatest => ?_⟩ (.inl inRange)
    · rw [atMs_of_inRange timer reads inRange, slotStart, unreducedSum, everyMs_eq]
      rw [span_eq] at long
      omega
    · rw [unreducedSum, greatest] at inRange
      omega
  · rw [atMs_of_outOfRange timer reads inRange clock, SeesLimit]
    exact (or_iff_right inRange).symm

end

/-- A timer of two minutes. -/
def longTimer : Timer := ⟨120000, 0⟩

/-- Far from the end of the range the limit is seen. -/
theorem rejects_iff_seesLimit_longTimer :
    (TimerWheel.new 1000).Rejects longTimer ⟨1005, 1005, 1005⟩ ↔
      (TimerWheel.new 1000).SeesLimit longTimer ⟨1005, 1005, 1005⟩ :=
  rejects_iff_seesLimit _ _ (by decide) (by decide) (by decide)

/-- The delay that `co_sleep(-1)` asks for. -/
def minusOneTimer : Timer := ⟨UInt64.ofNat (uint64Size - 1), 0⟩

/-- Its sum has just passed, and the callback runs. -/
theorem minusOneTimer_runs :
    ¬ ∀ (ti : TimerWheel) (timer : Timer) (reads : ClockReads),
      spanSec * 1000 ≤ timer.triggerAfterMs.toNat → reads.now < uint64Size / 2 →
      ti.triggerBeforeMs ≤ reads.now → ti.Rejects timer reads := by
  intro all
  have rejects := all (.new 1000) minusOneTimer ⟨1005, 1005, 1005⟩ (by decide) (by decide)
    (by decide)
  exact absurd (rejects 0 0).1 (by decide)

end TimerWheel

end SimpleWebServer.Timers
