import SimpleWebServer.Logging.Logger

/-!
# The daily roll

`flush_buf` is to open a new file at its first call at or after the roll time on a day that
is not the day of the last roll.  `is_after` compares with `roll_time` the other way round,
component by component and by the day of the month, and a roll overwrites `roll_time`.
-/

namespace SimpleWebServer.Logging

open SimpleWebServer.Base SimpleWebServer.Lib.Runs

/-- A day of the calendar. -/
structure Date where
  year : Int
  mon : Int
  mday : Int
  deriving DecidableEq, Repr

structure TimeOfDay where
  hour : Int
  min : Int
  sec : Int
  deriving DecidableEq, Repr

/-- A local date-time. -/
structure LocalTime where
  date : Date
  time : TimeOfDay
  deriving DecidableEq, Repr

def Date.Before (day other : Date) : Prop :=
  day.year < other.year ∨ day.year = other.year ∧
    (day.mon < other.mon ∨ day.mon = other.mon ∧ day.mday < other.mday)

instance (day other : Date) : Decidable (day.Before other) :=
  inferInstanceAs (Decidable (_ ∨ _))

namespace TimeOfDay

def Before (time other : TimeOfDay) : Prop :=
  time.hour < other.hour ∨ time.hour = other.hour ∧
    (time.min < other.min ∨ time.min = other.min ∧ time.sec < other.sec)

/-- No component is later. -/
def Within (time other : TimeOfDay) : Prop :=
  time.hour ≤ other.hour ∧ time.min ≤ other.min ∧ time.sec ≤ other.sec

instance (time other : TimeOfDay) : Decidable (time.Before other) :=
  inferInstanceAs (Decidable (_ ∨ _))

instance (time other : TimeOfDay) : Decidable (time.Within other) :=
  inferInstanceAs (Decidable (_ ∧ _))

theorem not_before_self (time : TimeOfDay) : ¬ time.Before time := by
  rintro (hour | ⟨-, min | ⟨-, sec⟩⟩)
  · exact absurd hour (Int.lt_irrefl _)
  · exact absurd min (Int.lt_irrefl _)
  · exact absurd sec (Int.lt_irrefl _)

/-- A time that has no later component is before the other one, or the same. -/
theorem Within.before_or_eq {time other : TimeOfDay} (within : time.Within other) :
    time.Before other ∨ time = other := by
  obtain ⟨hour, min, sec⟩ := time
  obtain ⟨otherHour, otherMin, otherSec⟩ := other
  simp only [Within, Before, TimeOfDay.mk.injEq] at within ⊢
  omega

theorem within_self (time : TimeOfDay) : time.Within time :=
  ⟨Int.le_refl _, Int.le_refl _, Int.le_refl _⟩

end TimeOfDay

namespace LocalTime

/-- The order of the clock. -/
def Le (first second : LocalTime) : Prop :=
  first.date.Before second.date ∨
    first.date = second.date ∧ ¬ second.time.Before first.time

instance (first second : LocalTime) : Decidable (first.Le second) :=
  inferInstanceAs (Decidable (_ ∨ _))

/-- What `DayTime()` keeps of it. -/
def dayTime (now : LocalTime) : DayTime :=
  ⟨now.date.mday, now.time.hour, now.time.min, now.time.sec⟩

end LocalTime

/-! ## When a roll is due -/

/-- The purpose of the roll: one each day, at the first call from the roll time on. -/
structure Schedule where
  rollAt : TimeOfDay
  /-- the day of the last roll, or of the start -/
  lastDay : Date
  deriving DecidableEq, Repr

namespace Schedule

def Due (schedule : Schedule) (now : LocalTime) : Prop :=
  now.date ≠ schedule.lastDay ∧ ¬ now.time.Before schedule.rollAt

instance (schedule : Schedule) (now : LocalTime) : Decidable (schedule.Due now) :=
  inferInstanceAs (Decidable (_ ∧ _))

/-- A call at time `now` -/
def call (schedule : Schedule) (now : LocalTime) : Schedule :=
  if schedule.Due now then { schedule with lastDay := now.date } else schedule

/-- What the source keeps as `roll_time`. -/
def rollTime (schedule : Schedule) : DayTime :=
  ⟨schedule.lastDay.mday, schedule.rollAt.hour, schedule.rollAt.min, schedule.rollAt.sec⟩

/--
The calls at which the test of the source is right: those on the day of the last roll, those
at the very roll time, and those before it that some component still keeps from a roll.
-/
def OnTime (schedule : Schedule) (now : LocalTime) : Prop :=
  now.date = schedule.lastDay ∨
  now.time = schedule.rollAt ∧ now.date.mday ≠ schedule.lastDay.mday ∨
  now.time.Before schedule.rollAt ∧
    (now.date.mday = schedule.lastDay.mday ∨ ¬ now.time.Within schedule.rollAt)

instance (schedule : Schedule) (now : LocalTime) : Decidable (schedule.OnTime now) :=
  inferInstanceAs (Decidable (_ ∨ _))

theorem isAfter_iff (schedule : Schedule) (now : LocalTime) :
    now.dayTime.isAfter schedule.rollTime = true ↔
      now.date.mday ≠ schedule.lastDay.mday ∧ now.time.Within schedule.rollAt := by
  rw [DayTime.isAfter, decide_eq_true_eq]
  exact and_congr_left fun _ => ne_comm

/-- The test is right at exactly those calls. -/
theorem isAfter_iff_due (schedule : Schedule) (now : LocalTime) :
    (now.dayTime.isAfter schedule.rollTime = true ↔ schedule.Due now) ↔ schedule.OnTime now := by
  rw [isAfter_iff, Due, OnTime]
  have dayOf : now.date.mday ≠ schedule.lastDay.mday → now.date ≠ schedule.lastDay :=
    fun differ same => differ (congrArg Date.mday same)
  by_cases today : now.date = schedule.lastDay
  · simp [today]
  by_cases early : now.time.Before schedule.rollAt
  · have notYet : now.time ≠ schedule.rollAt := by
      intro same
      rw [same] at early
      exact schedule.rollAt.not_before_self early
    simp only [today, early, notYet, not_true_eq_false, and_false, iff_false, false_or,
      false_and, true_and]
    rw [not_and_or, not_ne_iff]
  · have atTime : now.time.Within schedule.rollAt ↔ now.time = schedule.rollAt := by
      constructor
      · exact fun within => within.before_or_eq.resolve_left early
      · intro same
        rw [same]
        exact schedule.rollAt.within_self
    simp only [today, early, atTime, not_false_eq_true, ne_eq, and_self, iff_true, false_or,
      false_and, or_false]
    exact and_comm

end Schedule

/-! ## What the logger does -/

namespace Logger

/-- The file was changed. -/
def Switched (before after : Logger) : Prop := after.closed ≠ before.closed

instance (before after : Logger) : Decidable (Switched before after) :=
  inferInstanceAs (Decidable (_ ≠ _))

@[simp]
theorem trim_rollTime (logger : Logger) : logger.trim.rollTime = logger.rollTime := by
  unfold trim
  split <;> rfl

@[simp]
theorem trim_closed (logger : Logger) : logger.trim.closed = logger.closed := by
  unfold trim
  split <;> rfl

@[simp]
theorem flushFront_rollTime (logger : Logger) : logger.flushFront.rollTime = logger.rollTime := by
  unfold flushFront
  split <;> rfl

@[simp]
theorem flushFront_closed (logger : Logger) : logger.flushFront.closed = logger.closed := by
  unfold flushFront
  split <;> rfl

@[simp]
theorem takeBlock_rollTime (logger : Logger) : logger.takeBlock.rollTime = logger.rollTime := by
  unfold takeBlock
  split
  · split <;> rfl
  · rfl

@[simp]
theorem writeBack_rollTime (logger : Logger) (log : Bytes) :
    (logger.writeBack log).2.rollTime = logger.rollTime := by
  unfold writeBack
  split <;> rfl

theorem writeLoop_rollTime (log : Bytes) (fuel : Nat) (remain : Int) (logger : Logger) :
    (logger.writeLoop log fuel remain).rollTime = logger.rollTime := by
  induction fuel generalizing remain logger with
  | zero => rfl
  | succ fuel ih =>
      unfold writeLoop
      split
      · rw [ih, writeBack_rollTime, takeBlock_rollTime]
      · rfl

/-- A flush changes the file and `roll_time` where `is_after` says so. -/
theorem flushOne_rolls (logger : Logger) (ti : DayTime) :
    (Switched logger (logger.flushOne ti) ↔ ti.isAfter logger.rollTime = true) ∧
      (logger.flushOne ti).rollTime =
        if ti.isAfter logger.rollTime then ti else logger.rollTime := by
  rw [Switched, flushOne, flushFront_closed, trim_closed, flushFront_rollTime, trim_rollTime, roll]
  cases after : ti.isAfter logger.rollTime with
  | true => simp [resetFileFd]
  | false => simp

end Logger

/-! ## Runs -/

/-- A logger beside the schedule, with the times at which either one changed the file. -/
structure RollRun where
  logger : Logger
  schedule : Schedule
  now : LocalTime
  switched : List LocalTime := []
  due : List LocalTime := []
  deriving DecidableEq, Repr

inductive RollEvent where
  /-- the block lists after `write_buf` of a string, before it flushes -/
  | write (log : Bytes)
  /-- one call of `flush_buf` -/
  | flush (now : LocalTime)
  deriving DecidableEq, Repr

namespace RollRun

/-- A logger that starts at `now`, with the roll time `rollAt`. -/
def start (config : Config) (rollAt : TimeOfDay) (now : LocalTime) : RollRun where
  logger := { Logger.new config now.date.mday with
    rollTime := ⟨now.date.mday, rollAt.hour, rollAt.min, rollAt.sec⟩ }
  schedule := ⟨rollAt, now.date⟩
  now := now

def flush (run : RollRun) (now : LocalTime) : RollRun where
  logger := run.logger.flushOne now.dayTime
  schedule := run.schedule.call now
  now := now
  switched :=
    if Logger.Switched run.logger (run.logger.flushOne now.dayTime) then run.switched ++ [now]
    else run.switched
  due := if run.schedule.Due now then run.due ++ [now] else run.due

/-- The clock does not go back. -/
def step (run : RollRun) : RollEvent → Option RollRun
  | .write log => some { run with logger := run.logger.fill log }
  | .flush now => if run.now.Le now then some (run.flush now) else none

/-- The file was changed at the calls at which a roll was due, and at no others. -/
def RollsDaily (run : RollRun) : Prop := run.switched = run.due

instance : DecidablePred RollsDaily := fun run =>
  inferInstanceAs (Decidable (run.switched = run.due))

/-- The condition on a step: a call at which the test of the source is right. -/
def CallsOnTime (run : RollRun) : RollEvent → Prop
  | .write _ => True
  | .flush now => run.schedule.OnTime now

/-- As long as the rolls were right, `roll_time` is the roll time on the last day. -/
def Synchronised (run : RollRun) : Prop := run.logger.rollTime = run.schedule.rollTime

theorem flush_rollsDaily_iff {run : RollRun} (synchronised : run.Synchronised)
    (daily : run.RollsDaily) (now : LocalTime) :
    (run.flush now).RollsDaily ↔ run.schedule.OnTime now := by
  rw [← run.schedule.isAfter_iff_due now, RollsDaily, flush]
  have rolls := (run.logger.flushOne_rolls now.dayTime).1
  rw [synchronised] at rolls
  have noneAdded (times : List LocalTime) : times ++ [now] ≠ times := by simp
  simp only [rolls, show run.switched = run.due from daily]
  by_cases after : now.dayTime.isAfter run.schedule.rollTime = true <;>
    by_cases due : run.schedule.Due now <;>
    simp [after, due]

theorem flush_synchronised {run : RollRun} (synchronised : run.Synchronised) {now : LocalTime}
    (onTime : run.schedule.OnTime now) : (run.flush now).Synchronised := by
  have agree := (run.schedule.isAfter_iff_due now).mpr onTime
  have rolled := (run.logger.flushOne_rolls now.dayTime).2
  rw [synchronised] at rolled
  rw [Synchronised, flush, rolled, Schedule.call]
  by_cases due : run.schedule.Due now
  · have after := agree.mpr due
    obtain ⟨-, within⟩ := (run.schedule.isAfter_iff now).mp after
    have atTime := within.before_or_eq.resolve_left due.2
    rw [if_pos after, if_pos due, Schedule.rollTime, LocalTime.dayTime, atTime]
  · rw [if_neg fun after => due (agree.mp after), if_neg due]

theorem step_rollsDaily_iff {run next : RollRun} {event : RollEvent}
    (synchronised : run.Synchronised) (daily : run.RollsDaily)
    (taken : run.step event = some next) : next.RollsDaily ↔ run.CallsOnTime event := by
  cases event with
  | write log =>
      cases taken
      exact ⟨fun _ => trivial, fun _ => daily⟩
  | flush now =>
      obtain ⟨-, rfl⟩ := of_guarded taken
      exact flush_rollsDaily_iff synchronised daily now

theorem step_synchronised {run next : RollRun} {event : RollEvent}
    (synchronised : run.Synchronised) (daily : run.RollsDaily) (nextDaily : next.RollsDaily)
    (taken : run.step event = some next) : next.Synchronised := by
  have onTime := (step_rollsDaily_iff synchronised daily taken).mp nextDaily
  cases event with
  | write log =>
      cases taken
      exact (Logger.writeLoop_rollTime log _ _ run.logger).trans synchronised
  | flush now =>
      obtain ⟨-, rfl⟩ := of_guarded taken
      exact flush_synchronised synchronised onTime

/-- The log rolls daily in exactly the runs whose calls all come on time. -/
theorem rollsDaily_iff (config : Config) (rollAt : TimeOfDay) (now : LocalTime)
    (events : List RollEvent) :
    AllStates step RollsDaily (start config rollAt now) events ↔
      StepsMeet step CallsOnTime (start config rollAt now) events :=
  allStates_iff_of_good Synchronised (fun _ _ _ => step_synchronised)
    (fun _ _ _ => step_rollsDaily_iff) events rfl rfl

/-- The calls that `flush_buf` makes of itself are such calls. -/
theorem flushLoop_run (isFull : Bool) (fuel : Nat) (times : Nat → LocalTime) (run : RollRun)
    (first : run.now.Le (times 0)) (forward : ∀ call, (times call).Le (times (call + 1))) :
    ∃ events last, runFrom step run events = some last ∧
      last.logger = run.logger.flushLoop isFull fuel fun call => (times call).dayTime := by
  induction fuel generalizing times run with
  | zero => exact ⟨[], run, rfl, rfl⟩
  | succ fuel ih =>
      have called : run.step (.flush (times 0)) = some (run.flush (times 0)) := if_pos first
      unfold Logger.flushLoop
      dsimp only
      split
      · obtain ⟨events, last, ran, same⟩ := ih (fun call => times (call + 1))
          (run.flush (times 0)) (forward 0) fun call => forward (call + 1)
        exact ⟨.flush (times 0) :: events, last, (runFrom_next called events).trans ran, same⟩
      · exact ⟨[.flush (times 0)], _, runFrom_next called [], rfl⟩

/-- A second after midnight, the roll time of the source, the file of the day before stays. -/
theorem midnight_missed :
    ¬ ∀ (config : Config) (rollAt : TimeOfDay) (now : LocalTime) (events : List RollEvent),
      AllStates step RollsDaily (start config rollAt now) events := by
  intro all
  exact absurd (all .source ⟨0, 0, 0⟩ ⟨⟨2025, 6, 1⟩, ⟨10, 0, 0⟩⟩
    [.flush ⟨⟨2025, 6, 2⟩, ⟨0, 0, 1⟩⟩]) (by decide +kernel)

end RollRun

end SimpleWebServer.Logging
