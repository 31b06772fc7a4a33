import SimpleWebServer.Base.Bytes
import Mathlib.Logic.Function.Basic

/-!
# The timer wheel

`TimerWheel` keeps one list of timers for each slot of ten milliseconds and turns with the
clock.  Times are `uint64_t`: they are kept as numbers, and the one sum that can leave the
range is reduced.  A list node is known by its address, and it carries the slot time that
`add_timer` computed for it; the source keeps that time in the `TimerId` only.
-/

namespace SimpleWebServer.Timers

/-- `TimerWheel::every_ms` -/
def everyMs : Nat := 10

/-- `TimerWheel::span_sec` -/
def spanSec : Nat := 60

/-- `wheel.size()` -/
def wheelSize : Nat := spanSec * 1000 / everyMs

/-- The number of values of a `uint64_t`. -/
def uint64Size : Nat := UInt64.size

/-- A timer with the name of its callback. -/
structure Timer where
  triggerAfterMs : UInt64
  cb : Nat
  deriving DecidableEq, Repr

/-- A node of a slot's list. -/
structure TimerNode where
  it : Nat
  timer : Timer
  atMs : Nat
  deriving DecidableEq, Repr

structure TimerId where
  triggerAtMs : Nat
  it : Nat
  deriving DecidableEq, Repr

structure TimerWheel where
  wheel : Nat → List TimerNode
  slotPtr : Nat
  triggerBeforeMs : Nat

/-- `get_slot_timestamp(a)`; `a == -1` reads the clock, which then shows `reading`. -/
def getSlotTimestamp (a reading : Nat) : Nat :=
  let a := if a = uint64Size - 1 then reading else a
  a - a % everyMs

/-- The clock in the order in which `add_timer` reads it: for the sum, and for each sentinel. -/
structure ClockReads where
  now : Nat
  forSum : Nat
  forDelay : Nat
  deriving DecidableEq, Repr

/-- What `add_timer` did with a timer. -/
inductive Added where
  /-- `timer_old`: the callback ran at once -/
  | ran
  /-- `timer_over_limit` -/
  | rejected
  | stored (id : TimerId)
  deriving DecidableEq, Repr

namespace TimerWheel

/-- `TimerWheel::TimerWheel` when the clock shows `now`. -/
def new (now : Nat) : TimerWheel where
  wheel := fun _ => []
  slotPtr := 0
  triggerBeforeMs := getSlotTimestamp (uint64Size - 1) now

/-- The slot time of a timer that is added now. -/
def atMs (timer : Timer) (reads : ClockReads) : Nat :=
  getSlotTimestamp ((timer.triggerAfterMs.toNat + reads.now) % uint64Size) reads.forSum

/-- The slot that a time lies in, counted from the current one. -/
def slotOf (ti : TimerWheel) (atMs : Nat) : Nat :=
  (ti.slotPtr + (atMs - ti.triggerBeforeMs) / everyMs) % wheelSize

/-- `wheel[slot].push_back(timer)` -/
def pushBack (ti : TimerWheel) (slot : Nat) (node : TimerNode) : TimerWheel :=
  { ti with wheel := Function.update ti.wheel slot (ti.wheel slot ++ [node]) }

/-- `add_timer`; a stored timer becomes the list node `it`. -/
def addTimer (ti : TimerWheel) (timer : Timer) (it : Nat) (reads : ClockReads) :
    Added × TimerWheel :=
  let atMs := atMs timer reads
  if atMs ≤ ti.triggerBeforeMs then (.ran, ti)
  else if spanSec * 1000 ≤ getSlotTimestamp timer.triggerAfterMs.toNat reads.forDelay then
    (.rejected, ti)
  else (.stored ⟨atMs, it⟩, ti.pushBack (ti.slotOf atMs) ⟨it, timer, atMs⟩)

/-- The head of an iteration of `trigger_timer`: advance the time and the slot. -/
def advance (ti : TimerWheel) : TimerWheel :=
  { ti with
    triggerBeforeMs := ti.triggerBeforeMs + everyMs
    slotPtr := (ti.slotPtr + 1) % wheelSize }

/-- The list of the current slot. -/
def current (ti : TimerWheel) : List TimerNode := ti.wheel ti.slotPtr

/-- `wheel[slot_ptr].clear()` -/
def clearCurrent (ti : TimerWheel) : TimerWheel :=
  { ti with wheel := Function.update ti.wheel ti.slotPtr [] }

end TimerWheel

/-! ## Runs -/

/-- Where the program is in `trigger_timer`. -/
inductive Phase where
  | idle
  /-- before the test of the `while` loop -/
  | looping (atMs : Nat)
  /-- inside the loop over the current slot, behind the callbacks of `position` nodes -/
  | firing (atMs position : Nat)
  deriving DecidableEq, Repr

/-- User code runs between two calls, and inside the callback of a node. -/
def Phase.userRuns : Phase → Bool
  | .idle => true
  | .looping _ => false
  | .firing _ position => 0 < position

/-- A callback invoked by `trigger_timer`: the slot time of its timer and the time it ran at. -/
structure Fired where
  node : TimerNode
  triggerBeforeMs : Nat
  deriving DecidableEq, Repr

structure TimerRun where
  ti : TimerWheel
  /-- the last reading of the clock -/
  clock : Nat
  /-- the address of the next list node -/
  nextIt : Nat := 0
  phase : Phase := .idle
  fired : List Fired := []

inductive Event where
  /-- `add_timer`, called between two `trigger_timer` calls or by a callback -/
  | add (timer : Timer) (reads : ClockReads)
  /-- `trigger_timer(now_ms)` is called -/
  | trigger (nowMs reading : Nat)
  /-- the test of the `while` loop and the head of the iteration -/
  | next
  /-- the callback of the next node of the current slot -/
  | fire
  /-- the end of the loop over the slot -/
  | clear
  deriving DecidableEq, Repr

namespace TimerRun

/-- A run starts with a new wheel. -/
def start (now : Nat) : TimerRun where
  ti := .new now
  clock := now

/-- The clock is nondecreasing and below `2 ^ 63`. -/
def ClockRuns (run : TimerRun) (first second third : Nat) : Prop :=
  run.clock ≤ first ∧ first ≤ second ∧ second ≤ third ∧ third < uint64Size / 2

instance (run : TimerRun) (first second third : Nat) :
    Decidable (run.ClockRuns first second third) :=
  inferInstanceAs (Decidable (_ ∧ _))

/-- One step of the program. -/
def step (run : TimerRun) : Event → Option TimerRun
  | .add timer reads =>
      if run.phase.userRuns = true ∧ run.ClockRuns reads.now reads.forSum reads.forDelay then
        some { run with
          ti := (run.ti.addTimer timer run.nextIt reads).2
          clock := reads.forDelay
          nextIt := run.nextIt + 1 }
      else none
  | .trigger nowMs reading =>
      if run.phase = .idle ∧ run.ClockRuns nowMs nowMs reading then
        some { run with phase := .looping (getSlotTimestamp nowMs reading), clock := reading }
      else none
  | .next =>
      match run.phase with
      | .looping atMs =>
          if run.ti.triggerBeforeMs < atMs then
            some { run with ti := run.ti.advance, phase := .firing atMs 0 }
          else some { run with phase := .idle }
      | _ => none
  | .fire =>
      match run.phase with
      | .firing atMs position =>
          match run.ti.current[position]? with
          | some node =>
              some { run with
                phase := .firing atMs (position + 1)
                fired := run.fired ++ [⟨node, run.ti.triggerBeforeMs⟩] }
          | none => none
      | _ => none
  | .clear =>
      match run.phase with
      | .firing atMs position =>
          if position = run.ti.current.length then
            some { run with ti := run.ti.clearCurrent, phase := .looping atMs }
          else none
      | _ => none

/-! What the steps of `trigger_timer` do, and where they are taken. -/

theorem of_next {run next : TimerRun} (taken : run.step .next = some next) :
    ∃ atMs, run.phase = .looping atMs ∧
      (run.ti.triggerBeforeMs < atMs ∧
          next = { run with ti := run.ti.advance, phase := .firing atMs 0 } ∨
        atMs ≤ run.ti.triggerBeforeMs ∧ next = { run with phase := .idle }) := by
  unfold step at taken
  cases phase : run.phase with
  | idle => simp [phase] at taken
  | firing atMs position => simp [phase] at taken
  | looping atMs =>
      refine ⟨atMs, rfl, ?_⟩
      by_cases late : run.ti.triggerBeforeMs < atMs
      · simp only [phase, if_pos late, Option.some.injEq] at taken
        exact .inl ⟨late, taken.symm⟩
      · simp only [phase, if_neg late, Option.some.injEq] at taken
        exact .inr ⟨Nat.le_of_not_lt late, taken.symm⟩

theorem of_fire {run next : TimerRun} (taken : run.step .fire = some next) :
    ∃ atMs position node, run.phase = .firing atMs position ∧
      run.ti.current[position]? = some node ∧
      next = { run with
        phase := .firing atMs (position + 1)
        fired := run.fired ++ [⟨node, run.ti.triggerBeforeMs⟩] } := by
  unfold step at taken
  cases phase : run.phase with
  | idle => simp [phase] at taken
  | looping atMs => simp [phase] at taken
  | firing atMs position =>
      cases head : run.ti.current[position]? with
      | none => simp [phase, head] at taken
      | some node =>
          simp only [phase, head, Option.some.injEq] at taken
          exact ⟨atMs, position, node, rfl, head, taken.symm⟩

theorem of_clear {run next : TimerRun} (taken : run.step .clear = some next) :
    ∃ atMs position, run.phase = .firing atMs position ∧
      position = run.ti.current.length ∧
      next = { run with ti := run.ti.clearCurrent, phase := .looping atMs } := by
  unfold step at taken
  cases phase : run.phase with
  | idle => simp [phase] at taken
  | looping atMs => simp [phase] at taken
  | firing atMs position =>
      by_cases done : position = run.ti.current.length
      · simp only [phase, if_pos done, Option.some.injEq] at taken
        exact ⟨atMs, position, rfl, done, taken.symm⟩
      · simp [phase, done] at taken

end TimerRun

end SimpleWebServer.Timers
