import SimpleWebServer.Lib.Runs
import SimpleWebServer.Reactor.Channel
import SimpleWebServer.Timers.TimerWheel

/-!
# The coroutine scheduler

`CorouteScheduler` resumes the coroutines of its `ready_queue` from a `handle_co` callback
of the event loop.  A coroutine runs until it suspends in `co_read`, `co_write`,
`co_accept` or `co_sleep`, or until its callback ends.  The channel callbacks and the
timers put suspended coroutines back into the queue.
-/

namespace SimpleWebServer.Co

open SimpleWebServer.Reactor SimpleWebServer.Timers SimpleWebServer.Lib.Runs

/-- `Coroutine*` -/
abbrev Coroutine := Nat

/-- What a suspended coroutine waits for, and what put an entry into the queue. -/
inductive Reason where
  /-- `add_callback` -/
  | start
  /-- `_co_io_fun` on the descriptor, for the event -/
  | io (fd : Nat) (et : EventType)
  /-- `co_sleep` -/
  | sleep
  deriving DecidableEq, Repr

inductive CoState where
  | running
  | suspended (reason : Reason)
  deriving DecidableEq, Repr

/-- An entry of `ready_queue`; the source keeps the pointer only. -/
structure Ready where
  co : Coroutine
  reason : Reason
  deriving DecidableEq, Repr

/-- Where the loop's thread is. -/
inductive Phase where
  /-- in the event loop, outside `handle_co` -/
  | idle
  /-- in `handle_co`, before the test of its loop -/
  | handling
  /-- in the coroutine `now_co` -/
  | running (nowCo : Coroutine)
  deriving DecidableEq, Repr

/-- `CorouteScheduler` with what its loop holds for it. -/
structure CorouteScheduler where
  isSchedule : Bool := false
  fdMap : Nat → Option (Channel Coroutine) := fun _ => none
  coMap : Coroutine → Option CoState := fun _ => none
  readyQueue : List Ready := []
  /-- the `handle_co` callbacks in the loop's `cb_list` -/
  cbList : Nat := 0
  /-- epoll's interest list -/
  interest : Nat → Option Interest := fun _ => none
  /-- the coroutines that the stored timers schedule -/
  timers : List Coroutine := []
  phase : Phase := .idle

namespace CorouteScheduler

/-! ## `add_callback`, `schedule_co`, `handle_co` -/

/-- `ready_queue.push_back(co)` -/
def push (s : CorouteScheduler) (entry : Ready) : CorouteScheduler :=
  { s with readyQueue := s.readyQueue ++ [entry] }

/-- `schedule_co(nullptr)` -/
def wake (s : CorouteScheduler) : CorouteScheduler :=
  if s.isSchedule then s else { s with cbList := s.cbList + 1, isSchedule := true }

/-- `schedule_co(co)` -/
def scheduleCo (s : CorouteScheduler) (entry : Ready) : CorouteScheduler := (s.push entry).wake

/-- `add_callback`, with the coroutine that the pool hands out -/
def addCallback (s : CorouteScheduler) (co : Coroutine) : CorouteScheduler :=
  ({ s with coMap := Function.update s.coMap co (some (.suspended .start)) }.push
    ⟨co, .start⟩).wake

/-- The running coroutine gives up control to `handle_co`. -/
def suspend (s : CorouteScheduler) (co : Coroutine) (reason : Reason) : CorouteScheduler :=
  { s with coMap := Function.update s.coMap co (some (.suspended reason)), phase := .handling }

/-! ## The functions a coroutine calls -/

/-- The channel of a descriptor, which `_co_io_fun` creates when it is missing. -/
def channel (s : CorouteScheduler) (fd : Nat) : Channel Coroutine :=
  (s.fdMap fd).getD { Channel.new with isOnce := true }

/-- The channel after `enable_event`: its callback is set when the event was not enabled. -/
def enabled (s : CorouteScheduler) (fd : Nat) (et : EventType) (co : Coroutine) :
    Channel Coroutine :=
  if known : (s.channel fd).isEnable et = true then
    (s.channel fd).enableAgain et ((s.channel fd).enabled_cb et known)
  else (s.channel fd).enableEvent et co

/-- `_co_io_fun` when the first call of `f` succeeds -/
def ioReady (s : CorouteScheduler) (fd : Nat) : CorouteScheduler :=
  { s with fdMap := Function.update s.fdMap fd (some (s.channel fd)) }

/-- `_co_io_fun` when the first call of `f` fails, up to its `co_yield_` -/
def ioBlocked (s : CorouteScheduler) (fd : Nat) (et : EventType) (co : Coroutine) :
    CorouteScheduler :=
  { s with
    fdMap := Function.update s.fdMap fd (some (s.enabled fd et co))
    interest := Function.update s.interest fd (some (s.enabled fd et co).interest) }.suspend co
      (.io fd et)

/-- `co_sleep`, by what `add_timer` did with its timer -/
def coSleep (s : CorouteScheduler) (co : Coroutine) : Added → CorouteScheduler
  | .ran => (s.scheduleCo ⟨co, .sleep⟩).suspend co .sleep
  | .rejected => s.suspend co .sleep
  | .stored _ => { s with timers := s.timers ++ [co] }.suspend co .sleep

/-- `co_close`: the channel is destroyed and the descriptor closed -/
def coClose (s : CorouteScheduler) (fd : Nat) : CorouteScheduler :=
  { s with
    fdMap := Function.update s.fdMap fd none
    interest := Function.update s.interest fd none }

/-- The end of the callback: the coroutine leaves `co_map` and yields for the last time. -/
def finish (s : CorouteScheduler) (co : Coroutine) : CorouteScheduler :=
  { s with coMap := Function.update s.coMap co none, phase := .handling }

/-! ## Reports and timers -/

/-- The entries that the callbacks of a channel put into the queue. -/
def entriesOf (fd : Nat) (ch : Channel Coroutine) : List Ready :=
  ch.triggered.map fun fired => ⟨fired.2, .io fd fired.1⟩

/-- `poll` for one event of its list: `trigger_event` and `handle_event` of the channel -/
def handleReport (s : CorouteScheduler) (fd : Nat) (ch : Channel Coroutine) (interest : Interest)
    (reported : EventType → Bool) : CorouteScheduler :=
  (entriesOf fd (ch.triggerEvents reported)).foldl scheduleCo
    { s with
      fdMap := Function.update s.fdMap fd (some (ch.triggerEvents reported).handled)
      interest := Function.update s.interest fd (some interest.reported) }

/-! ## Steps -/

inductive Event where
  /-- `add_callback`, called from outside or by a coroutine -/
  | addCallback (co : Coroutine)
  /-- the loop runs a `handle_co` callback -/
  | handleCo
  /-- `handle_co` resumes the first coroutine of the queue -/
  | resume
  /-- `handle_co` finds the queue empty -/
  | handleEnd
  /-- `co_read`, `co_write` or `co_accept`; `ready` when the call does not fail at once -/
  | io (fd : Nat) (et : EventType) (ready : Bool)
  | sleep (added : Added)
  | close (fd : Nat)
  | finish
  /-- epoll reports a descriptor with EPOLLIN, EPOLLOUT, both or an error alone -/
  | report (fd : Nat) (reported : EventType → Bool)
  /-- the timer of a coroutine fires -/
  | fire (co : Coroutine)

/-- One step of the loop's thread. -/
def step (s : CorouteScheduler) : Event → Option CorouteScheduler
  | .addCallback co =>
      if s.phase ≠ .handling ∧ s.coMap co = none then some (s.addCallback co) else none
  | .handleCo =>
      if s.phase = .idle ∧ 0 < s.cbList then
        some { s with cbList := s.cbList - 1, phase := .handling }
      else none
  | .resume =>
      match s.phase, s.readyQueue with
      | .handling, entry :: rest =>
          -- a coroutine that has ended returns to address 0
          if s.coMap entry.co ≠ none then
            some { s with
              readyQueue := rest
              coMap := Function.update s.coMap entry.co (some .running)
              phase := .running entry.co }
          else none
      | _, _ => none
  | .handleEnd =>
      if s.phase = .handling ∧ s.readyQueue = [] then
        some { s with isSchedule := false, phase := .idle }
      else none
  | .io fd et ready =>
      match s.phase with
      | .running co => some (if ready then s.ioReady fd else s.ioBlocked fd et co)
      | _ => none
  | .sleep added =>
      match s.phase with
      | .running co => some (s.coSleep co added)
      | _ => none
  | .close fd =>
      match s.phase with
      | .running _ => some (s.coClose fd)
      | _ => none
  | .finish =>
      match s.phase with
      | .running co => some (s.finish co)
      | _ => none
  | .report fd reported =>
      match s.fdMap fd, s.interest fd with
      | some ch, some interest =>
          if s.phase = .idle ∧ interest.Armed ∧ interest.Allows reported then
            some (s.handleReport fd ch interest reported)
          else none
      | _, _ => none
  | .fire co =>
      if s.phase = .idle ∧ co ∈ s.timers then
        some ({ s with timers := s.timers.erase co }.scheduleCo ⟨co, .sleep⟩)
      else none

/-- A new scheduler on a running loop. -/
def new : CorouteScheduler := {}

/-! ## What a step does -/

theorem of_resume {s next : CorouteScheduler} (taken : s.step .resume = some next) :
    ∃ entry rest, s.phase = .handling ∧ s.readyQueue = entry :: rest ∧ next = { s with
      readyQueue := rest
      coMap := Function.update s.coMap entry.co (some .running)
      phase := .running entry.co } := by
  simp only [step] at taken
  split at taken
  · next entry rest handling queue =>
      obtain ⟨-, resumed⟩ := of_guarded taken
      exact ⟨entry, rest, handling, queue, resumed.symm⟩
  · cases taken

theorem of_io {s next : CorouteScheduler} {fd : Nat} {et : EventType} {ready : Bool}
    (taken : s.step (.io fd et ready) = some next) :
    ∃ co, s.phase = .running co ∧ next = if ready then s.ioReady fd else s.ioBlocked fd et co := by
  simp only [step] at taken
  split at taken
  · next co runs => exact ⟨co, runs, (Option.some.inj taken).symm⟩
  · cases taken

theorem of_sleep {s next : CorouteScheduler} {added : Added}
    (taken : s.step (.sleep added) = some next) :
    ∃ co, s.phase = .running co ∧ next = s.coSleep co added := by
  simp only [step] at taken
  split at taken
  · next co runs => exact ⟨co, runs, (Option.some.inj taken).symm⟩
  · cases taken

theorem of_close {s next : CorouteScheduler} {fd : Nat}
    (taken : s.step (.close fd) = some next) :
    ∃ co, s.phase = .running co ∧ next = s.coClose fd := by
  simp only [step] at taken
  split at taken
  · next co runs => exact ⟨co, runs, (Option.some.inj taken).symm⟩
  · cases taken

theorem of_finish {s next : CorouteScheduler} (taken : s.step .finish = some next) :
    ∃ co, s.phase = .running co ∧ next = s.finish co := by
  simp only [step] at taken
  split at taken
  · next co runs => exact ⟨co, runs, (Option.some.inj taken).symm⟩
  · cases taken

theorem of_report {s next : CorouteScheduler} {fd : Nat} {reported : EventType → Bool}
    (taken : s.step (.report fd reported) = some next) :
    ∃ ch interest, s.fdMap fd = some ch ∧ s.interest fd = some interest ∧
      (s.phase = .idle ∧ interest.Armed ∧ interest.Allows reported) ∧
      next = s.handleReport fd ch interest reported := by
  simp only [step] at taken
  split at taken
  · next ch interest known found =>
      obtain ⟨enabled, handled⟩ := of_guarded taken
      exact ⟨ch, interest, known, found, enabled, handled.symm⟩
  · cases taken

/-! ## What scheduling leaves alone -/

section wake

variable (s : CorouteScheduler)

@[simp]
theorem wake_readyQueue : s.wake.readyQueue = s.readyQueue := by
  unfold wake
  split <;> rfl

@[simp]
theorem wake_coMap : s.wake.coMap = s.coMap := by
  unfold wake
  split <;> rfl

@[simp]
theorem wake_fdMap : s.wake.fdMap = s.fdMap := by
  unfold wake
  split <;> rfl

@[simp]
theorem wake_interest : s.wake.interest = s.interest := by
  unfold wake
  split <;> rfl

@[simp]
theorem wake_timers : s.wake.timers = s.timers := by
  unfold wake
  split <;> rfl

@[simp]
theorem wake_phase : s.wake.phase = s.phase := by
  unfold wake
  split <;> rfl

end wake

/-- Two schedulers that agree up to their queue, their flag and the pending callbacks. -/
structure SameButQueue (s next : CorouteScheduler) : Prop where
  coMap : next.coMap = s.coMap
  fdMap : next.fdMap = s.fdMap
  interest : next.interest = s.interest
  timers : next.timers = s.timers
  phase : next.phase = s.phase

theorem scheduleCo_readyQueue (s : CorouteScheduler) (entry : Ready) :
    (s.scheduleCo entry).readyQueue = s.readyQueue ++ [entry] := by
  simp [scheduleCo, push]

theorem scheduleCo_same (s : CorouteScheduler) (entry : Ready) :
    SameButQueue s (s.scheduleCo entry) := by
  constructor <;> simp [scheduleCo, push]

theorem scheduleAll_readyQueue (entries : List Ready) (s : CorouteScheduler) :
    (entries.foldl scheduleCo s).readyQueue = s.readyQueue ++ entries := by
  induction entries generalizing s with
  | nil => simp
  | cons entry rest ih =>
      rw [List.foldl_cons, ih, scheduleCo_readyQueue, List.append_assoc, List.singleton_append]

theorem scheduleAll_same (entries : List Ready) (s : CorouteScheduler) :
    SameButQueue s (entries.foldl scheduleCo s) := by
  induction entries generalizing s with
  | nil => exact ⟨rfl, rfl, rfl, rfl, rfl⟩
  | cons entry rest ih =>
      have first := s.scheduleCo_same entry
      have others := ih (s.scheduleCo entry)
      exact ⟨others.coMap.trans first.coMap, others.fdMap.trans first.fdMap,
        others.interest.trans first.interest, others.timers.trans first.timers,
        others.phase.trans first.phase⟩

end CorouteScheduler

end SimpleWebServer.Co
