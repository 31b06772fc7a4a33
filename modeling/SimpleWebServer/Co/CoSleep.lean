import SimpleWebServer.Co.CorouteScheduler
import SimpleWebServer.Timers.TimerDelivery

/-!
# Sleeping coroutines

`co_sleep` gives the loop a timer that schedules the coroutine, and yields.  `add_timer` may
run the callback at once, store the timer, or reject it; `co_sleep` yields in each case.
Here the scheduler and the timer wheel of its loop run together: what `add_timer` did with
the timer decides how the coroutine sleeps, and a firing node schedules its coroutine.
-/

namespace SimpleWebServer.Co

open SimpleWebServer.Timers SimpleWebServer.Lib.Runs

/-- The largest `int`. -/
def intMax : Nat := 2147483647

/-- A scheduler with the timer wheel of its loop. -/
structure SleepRun where
  sched : CorouteScheduler
  timers : TimerRun

inductive SleepEvent where
  /-- a step of the scheduler with which timers have nothing to do -/
  | co (event : CorouteScheduler.Event)
  /-- `co_sleep(ms)`, with what the clock shows inside `add_timer` -/
  | sleep (ms : Nat) (reads : ClockReads)
  /-- the timer descriptor's callback calls `trigger_timer(now_ms)` -/
  | trigger (nowMs reading : Nat)
  /-- the head of the loop of `trigger_timer` -/
  | next
  /-- the callback of the next node: `schedule_co(co)` -/
  | fire
  /-- the end of the loop over the slot -/
  | clear

/-- Sleeping and waking are steps of both components. -/
def CorouteScheduler.Event.timed : CorouteScheduler.Event → Bool
  | .sleep _ => true
  | .fire _ => true
  | _ => false

/-- The node whose callback `trigger_timer` invokes next. -/
def nextNode (timers : TimerRun) : Option TimerNode :=
  match timers.phase with
  | .firing _ position => timers.ti.current[position]?
  | _ => none

/-- The wheel holds a node that has not fired and schedules the coroutine. -/
def Stored (timers : TimerRun) (co : Coroutine) (it : Nat) : Prop :=
  ∃ slot index node, (timers.ti.wheel slot)[index]? = some node ∧
    ¬ (slot = timers.ti.slotPtr ∧ index < timers.phase.position) ∧
    node.timer.cb = co ∧ node.it = it

namespace SleepRun

/-- `{static_cast<uint64_t>(ms), cb}` -/
def timer (ms : Nat) (co : Coroutine) : Timer := ⟨UInt64.ofNat ms, co⟩

/-- What `add_timer` does with the timer of `co_sleep(ms)`. -/
def added (run : SleepRun) (ms : Nat) (co : Coroutine) (reads : ClockReads) : Added :=
  (run.timers.ti.addTimer (timer ms co) run.timers.nextIt reads).1

/-- One step of the loop's thread. -/
def step (run : SleepRun) : SleepEvent → Option SleepRun
  | .co event =>
      if run.timers.phase = .idle ∧ event.timed = false then
        (run.sched.step event).map fun sched => { run with sched := sched }
      else none
  | .sleep ms reads =>
      match run.sched.phase with
      | .running co =>
          if run.timers.phase = .idle ∧ ms ≤ intMax then
            (run.timers.step (.add (timer ms co) reads)).map fun timers =>
              ⟨run.sched.coSleep co (run.added ms co reads), timers⟩
          else none
      | _ => none
  | .trigger nowMs reading =>
      if run.sched.phase = .idle then
        (run.timers.step (.trigger nowMs reading)).map fun timers => { run with timers := timers }
      else none
  | .next => (run.timers.step .next).map fun timers => { run with timers := timers }
  | .fire =>
      match nextNode run.timers with
      | some node =>
          (run.timers.step .fire).map fun timers =>
            ⟨{ run.sched with timers := run.sched.timers.erase node.timer.cb }.scheduleCo
              ⟨node.timer.cb, .sleep⟩, timers⟩
      | none => none
  | .clear => (run.timers.step .clear).map fun timers => { run with timers := timers }

/-- A new scheduler on a loop whose wheel was made when the clock showed `now`. -/
def start (now : Nat) : SleepRun where
  sched := .new
  timers := .start now

/-- Something will resume the sleeping coroutine: its place in the queue, or one timer. -/
def AwaitedCo (run : SleepRun) (co : Coroutine) : Prop :=
  co ∈ run.sched.readyQueue.map Ready.co ∨ ∃! it, Stored run.timers co it

/-- No coroutine is stranded by `co_sleep`. -/
def Awaited (run : SleepRun) : Prop :=
  ∀ co, run.sched.coMap co = some (.suspended .sleep) → run.AwaitedCo co

/--
The condition on a `co_sleep`: the coroutine is in the queue already, or the wheel has reached
the time of the timer, or the delay is below the limit and no earlier timer of the coroutine
is left.  With a delay above the limit only an earlier timer helps.
-/
def WithinLimit (run : SleepRun) : SleepEvent → Prop
  | .sleep ms reads => ∀ co, run.sched.phase = .running co →
      co ∈ run.sched.readyQueue.map Ready.co ∨
        TimerWheel.atMs (timer ms co) reads ≤ run.timers.ti.triggerBeforeMs ∨
        if getSlotTimestamp ms reads.forDelay < spanSec * 1000 then
          ∀ it, ¬ Stored run.timers co it
        else ∃! it, Stored run.timers co it
  | _ => True

end SleepRun

/-! ## Which timers are stored -/

/-- The nodes stay, and no callback of the current slot has run. -/
theorem stored_turn {timers next : TimerRun} (nodes : next.ti.wheel = timers.ti.wheel)
    (before : timers.phase.position = 0) (after : next.phase.position = 0) (co : Coroutine)
    (it : Nat) : Stored next co it ↔ Stored timers co it := by
  simp only [Stored, nodes, before, after, Nat.not_lt_zero, and_false, not_false_eq_true]

theorem stored_pushBack {timers : TimerRun} (idle : timers.phase = .idle) (slot clock : Nat)
    (timer : Timer) (atMs : Nat) (co : Coroutine) (it : Nat) :
    Stored { timers with
        ti := timers.ti.pushBack slot ⟨timers.nextIt, timer, atMs⟩
        clock := clock
        nextIt := timers.nextIt + 1 } co it ↔
      Stored timers co it ∨ timer.cb = co ∧ timers.nextIt = it := by
  have quiet : timers.phase.position = 0 := by
    rw [idle]
    rfl
  simp only [Stored, quiet, Nat.not_lt_zero, and_false, not_false_eq_true, true_and]
  constructor
  · rintro ⟨other, index, node, found, isCo, isIt⟩
    rcases TimerRun.getElem?_pushBack found with old | ⟨-, -, rfl⟩
    · exact Or.inl ⟨other, index, node, old, isCo, isIt⟩
    · exact Or.inr ⟨isCo, isIt⟩
  · rintro (⟨other, index, node, found, isCo, isIt⟩ | ⟨isCo, isIt⟩)
    · obtain ⟨place, inside⟩ := List.mem_iff_getElem?.mp
        (TimerRun.mem_pushBack_iff.mpr (.inl (List.mem_of_getElem? found)))
      exact ⟨other, place, node, inside, isCo, isIt⟩
    · have last : (⟨timers.nextIt, timer, atMs⟩ : TimerNode) ∈
          (timers.ti.pushBack slot ⟨timers.nextIt, timer, atMs⟩).wheel slot := by
        simp [TimerWheel.pushBack]
      obtain ⟨place, inside⟩ := List.mem_iff_getElem?.mp last
      exact ⟨slot, place, _, inside, isCo, isIt⟩

/-- A node that fires schedules its own coroutine, and takes no timer from another one. -/
theorem stored_fire {timers next : TimerRun} {node : TimerNode}
    (head : nextNode timers = some node) (taken : timers.step .fire = some next) {co : Coroutine}
    (other : co ≠ node.timer.cb) (it : Nat) : Stored next co it ↔ Stored timers co it := by
  obtain ⟨atMs, position, fired, phase, found, rfl⟩ := TimerRun.of_fire taken
  have isNode : fired = node := by
    rw [nextNode, phase] at head
    exact Option.some.inj (found.symm.trans head)
  subst isNode
  simp only [Stored, phase]
  constructor
  · rintro ⟨slot, index, node, inside, ahead, known⟩
    refine ⟨slot, index, node, inside, fun early => ahead ⟨early.1, ?_⟩, known⟩
    exact Nat.lt_succ_of_lt early.2
  · rintro ⟨slot, index, node, inside, ahead, isCo, isIt⟩
    refine ⟨slot, index, node, inside, ?_, isCo, isIt⟩
    rintro ⟨here, early⟩
    rcases Nat.lt_succ_iff_lt_or_eq.mp early with before | isPosition
    · exact ahead ⟨here, before⟩
    · subst isPosition here
      rw [TimerWheel.current] at found
      rw [Option.some.inj (inside.symm.trans found)] at isCo
      exact other isCo.symm

/-- The nodes that `clear` removes have fired. -/
theorem stored_clear {timers next : TimerRun} (taken : timers.step .clear = some next)
    (co : Coroutine) (it : Nat) : Stored next co it ↔ Stored timers co it := by
  obtain ⟨atMs, position, phase, done, rfl⟩ := TimerRun.of_clear taken
  simp only [Stored, phase]
  constructor
  · rintro ⟨slot, index, node, inside, -, known⟩
    obtain ⟨old, elsewhere⟩ := TimerRun.getElem?_clearCurrent inside
    exact ⟨slot, index, node, old, fun early => elsewhere early.1, known⟩
  · rintro ⟨slot, index, node, inside, ahead, known⟩
    have elsewhere : slot ≠ timers.ti.slotPtr := by
      rintro rfl
      refine ahead ⟨rfl, ?_⟩
      change index < position
      rw [done]
      exact (List.getElem?_eq_some_iff.mp inside).1
    refine ⟨slot, index, node, ?_, fun early => elsewhere early.1, known⟩
    simp only [TimerWheel.clearCurrent, Function.update_of_ne elsewhere]
    exact inside

/-- The three outcomes of `add_timer`. -/
theorem addTimer_outcome (ti : TimerWheel) (timer : Timer) (it : Nat) (reads : ClockReads) :
    TimerWheel.atMs timer reads ≤ ti.triggerBeforeMs ∧
        ti.addTimer timer it reads = (.ran, ti) ∨
      ti.triggerBeforeMs < TimerWheel.atMs timer reads ∧
        (spanSec * 1000 ≤ getSlotTimestamp timer.triggerAfterMs.toNat reads.forDelay ∧
            ti.addTimer timer it reads = (.rejected, ti) ∨
          getSlotTimestamp timer.triggerAfterMs.toNat reads.forDelay < spanSec * 1000 ∧
            ti.addTimer timer it reads =
              (.stored ⟨TimerWheel.atMs timer reads, it⟩,
                ti.pushBack (ti.slotOf (TimerWheel.atMs timer reads))
                  ⟨it, timer, TimerWheel.atMs timer reads⟩)) := by
  rw [TimerWheel.addTimer]
  split_ifs with past limit
  · exact Or.inl ⟨past, rfl⟩
  · exact Or.inr ⟨Nat.not_le.mp past, Or.inl ⟨limit, rfl⟩⟩
  · exact Or.inr ⟨Nat.not_le.mp past, Or.inr ⟨Nat.not_le.mp limit, rfl⟩⟩

/-! ## What the steps do to the sleeping coroutines -/

open CorouteScheduler in
/-- Between two sleeps the scheduler forgets no sleeping coroutine. -/
theorem sleepers_kept {s next : CorouteScheduler} {event : CorouteScheduler.Event}
    (untimed : event.timed = false) (taken : s.step event = some next) {co : Coroutine}
    (sleeps : next.coMap co = some (.suspended .sleep)) :
    s.coMap co = some (.suspended .sleep) ∧
      (co ∈ s.readyQueue.map Ready.co → co ∈ next.readyQueue.map Ready.co) := by
  have update {other : Coroutine} {state : Option CoState}
      (states : next.coMap = Function.update s.coMap other state)
      (awake : state ≠ some (.suspended .sleep)) :
      co ≠ other ∧ s.coMap co = some (.suspended .sleep) := by
    have different : co ≠ other := by
      rintro rfl
      rw [states, Function.update_self] at sleeps
      exact awake sleeps
    rw [states, Function.update_of_ne different] at sleeps
    exact ⟨different, sleeps⟩
  cases event with
  | addCallback other =>
      obtain ⟨-, rfl⟩ := of_guarded taken
      have states : (s.addCallback other).coMap =
          Function.update s.coMap other (some (.suspended .start)) := by
        simp [CorouteScheduler.addCallback, push]
      refine ⟨(update states (by simp)).2, fun queued => ?_⟩
      simp only [CorouteScheduler.addCallback, wake_readyQueue, push, List.map_append]
      exact List.mem_append_left _ queued
  | handleCo =>
      obtain ⟨-, rfl⟩ := of_guarded taken
      exact ⟨sleeps, id⟩
  | resume =>
      obtain ⟨entry, rest, -, queue, rfl⟩ := CorouteScheduler.of_resume taken
      obtain ⟨different, before⟩ := update rfl (by simp)
      refine ⟨before, fun queued => ?_⟩
      rw [queue, List.map_cons, List.mem_cons] at queued
      exact queued.resolve_left different
  | handleEnd =>
      obtain ⟨-, rfl⟩ := of_guarded taken
      exact ⟨sleeps, id⟩
  | io fd et ready =>
      obtain ⟨other, -, rfl⟩ := CorouteScheduler.of_io taken
      cases ready with
      | true => exact ⟨sleeps, id⟩
      | false => exact ⟨(update rfl (by simp)).2, id⟩
  | sleep outcome => cases untimed
  | close fd =>
      obtain ⟨other, -, rfl⟩ := CorouteScheduler.of_close taken
      exact ⟨sleeps, id⟩
  | finish =>
      obtain ⟨other, -, rfl⟩ := CorouteScheduler.of_finish taken
      exact ⟨(update rfl (by simp)).2, id⟩
  | report fd reported =>
      obtain ⟨ch, interest, -, -, -, rfl⟩ := CorouteScheduler.of_report taken
      rw [CorouteScheduler.handleReport, (scheduleAll_same _ _).coMap] at sleeps
      refine ⟨sleeps, fun queued => ?_⟩
      rw [CorouteScheduler.handleReport, scheduleAll_readyQueue, List.map_append]
      exact List.mem_append_left _ queued
  | fire other => cases untimed

namespace SleepRun

/-- What a step leaves of a coroutine that slept before it. -/
theorem AwaitedCo.mono {run next : SleepRun} {co : Coroutine} (awaited : run.AwaitedCo co)
    (queue : co ∈ run.sched.readyQueue.map Ready.co → co ∈ next.sched.readyQueue.map Ready.co)
    (stored : ∀ it, Stored next.timers co it ↔ Stored run.timers co it) : next.AwaitedCo co := by
  rcases awaited with queued | timer
  · exact Or.inl (queue queued)
  · right
    simp only [stored]
    exact timer

/-- A step of the wheel alone. -/
theorem Awaited.turn {run : SleepRun} (awaited : run.Awaited) {timers : TimerRun}
    (stored : ∀ co it, Stored timers co it ↔ Stored run.timers co it) :
    Awaited { run with timers := timers } :=
  fun co sleeps => (awaited co sleeps).mono id (stored co)

/-- A node that fires puts its coroutine into the queue. -/
theorem Awaited.fire {run : SleepRun} (awaited : run.Awaited) {node : TimerNode}
    {timers : TimerRun} (head : nextNode run.timers = some node)
    (taken : run.timers.step .fire = some timers) :
    Awaited ⟨{ run.sched with timers := run.sched.timers.erase node.timer.cb }.scheduleCo
      ⟨node.timer.cb, .sleep⟩, timers⟩ := by
  intro co sleeps
  have same := CorouteScheduler.scheduleCo_same
    { run.sched with timers := run.sched.timers.erase node.timer.cb } ⟨node.timer.cb, .sleep⟩
  have queue := CorouteScheduler.scheduleCo_readyQueue
    { run.sched with timers := run.sched.timers.erase node.timer.cb } ⟨node.timer.cb, .sleep⟩
  by_cases isCo : co = node.timer.cb
  · left
    rw [queue, List.map_append, isCo]
    exact List.mem_append_right _ List.mem_cons_self
  · rw [same.coMap] at sleeps
    refine (awaited co sleeps).mono (fun queued => ?_) (stored_fire head taken isCo)
    rw [queue, List.map_append]
    exact List.mem_append_left _ queued

theorem coSleep_coMap (s : CorouteScheduler) (co : Coroutine) (outcome : Added) :
    (s.coSleep co outcome).coMap = Function.update s.coMap co (some (.suspended .sleep)) := by
  cases outcome <;> simp [CorouteScheduler.coSleep, CorouteScheduler.suspend,
    CorouteScheduler.scheduleCo, CorouteScheduler.push]

/-- Only a callback that ran at once puts the coroutine into the queue. -/
theorem coSleep_readyQueue (s : CorouteScheduler) (co : Coroutine) (outcome : Added) :
    (s.coSleep co outcome).readyQueue =
      s.readyQueue ++ if outcome = .ran then [⟨co, .sleep⟩] else [] := by
  cases outcome <;> simp [CorouteScheduler.coSleep, CorouteScheduler.suspend,
    CorouteScheduler.scheduleCo, CorouteScheduler.push]

/-- A delay that is an `int` survives the cast. -/
theorem timer_delay {ms : Nat} (isInt : ms ≤ intMax) (co : Coroutine) :
    (timer ms co).triggerAfterMs.toNat = ms := by
  have below : ms < UInt64.size := Nat.lt_of_le_of_lt isInt (by decide)
  exact UInt64.toNat_ofNat_of_lt' below

/-- The coroutine that sleeps is awaited exactly under the condition. -/
theorem awaitedCo_sleep {run : SleepRun} (distinct : run.timers.Distinct)
    (idle : run.timers.phase = .idle) {ms : Nat} (isInt : ms ≤ intMax) {co : Coroutine}
    (runs : run.sched.phase = .running co) (reads : ClockReads) (clock : Nat) :
    AwaitedCo ⟨run.sched.coSleep co (run.added ms co reads), { run.timers with
        ti := (run.timers.ti.addTimer (timer ms co) run.timers.nextIt reads).2
        clock := clock
        nextIt := run.timers.nextIt + 1 }⟩ co ↔
      run.WithinLimit (.sleep ms reads) := by
  have delay := timer_delay isInt co
  have condition : run.WithinLimit (.sleep ms reads) ↔
      (co ∈ run.sched.readyQueue.map Ready.co ∨
        TimerWheel.atMs (timer ms co) reads ≤ run.timers.ti.triggerBeforeMs ∨
        if getSlotTimestamp ms reads.forDelay < spanSec * 1000 then
          ∀ it, ¬ Stored run.timers co it
        else ∃! it, Stored run.timers co it) := by
    constructor
    · exact fun within => within co runs
    · intro within other isOther
      rw [runs] at isOther
      cases isOther
      exact within
  have quiet : run.timers.phase.position = 0 := by
    rw [idle]
    rfl
  rw [condition, AwaitedCo, coSleep_readyQueue]
  rcases addTimer_outcome run.timers.ti (timer ms co) run.timers.nextIt reads with
    ⟨past, outcome⟩ | ⟨future, ⟨limit, outcome⟩ | ⟨below, outcome⟩⟩
  · refine iff_of_true (Or.inl ?_) (Or.inr (Or.inl past))
    simp [added, outcome]
  · rw [delay] at limit
    rw [added, outcome, if_neg (by nofun), List.append_nil, if_neg (Nat.not_lt.mpr limit),
      or_iff_right (Nat.not_le.mpr future)]
    let later : TimerRun :=
      { run.timers with ti := run.timers.ti, clock := clock, nextIt := run.timers.nextIt + 1 }
    have same : ∀ it, Stored later co it ↔ Stored run.timers co it :=
      stored_turn rfl quiet quiet co
    exact or_congr Iff.rfl (existsUnique_congr same)
  · rw [delay] at below
    rw [added, outcome, if_neg (by nofun), List.append_nil, if_pos below,
      or_iff_right (Nat.not_le.mpr future)]
    apply or_congr Iff.rfl
    simp only [stored_pushBack idle, timer, true_and]
    have old : ∀ it, Stored run.timers co it → it ≠ run.timers.nextIt := by
      rintro it ⟨slot, index, node, found, -, -, rfl⟩
      exact Nat.ne_of_lt (distinct.known slot node (List.mem_of_getElem? found))
    constructor
    · rintro ⟨only, -, unique⟩ it stored
      have first := unique it (Or.inl stored)
      have second := unique run.timers.nextIt (Or.inr rfl)
      exact old it stored (first.trans second.symm)
    · intro none
      refine ⟨run.timers.nextIt, Or.inr rfl, ?_⟩
      rintro it (stored | rfl)
      · exact absurd stored (none it)
      · rfl

theorem awaited_sleep {run : SleepRun} (distinct : run.timers.Distinct) (awaited : run.Awaited)
    (idle : run.timers.phase = .idle) {ms : Nat} (isInt : ms ≤ intMax) {co : Coroutine}
    (runs : run.sched.phase = .running co) (reads : ClockReads) (clock : Nat) :
    Awaited ⟨run.sched.coSleep co (run.added ms co reads), { run.timers with
        ti := (run.timers.ti.addTimer (timer ms co) run.timers.nextIt reads).2
        clock := clock
        nextIt := run.timers.nextIt + 1 }⟩ ↔
      run.WithinLimit (.sleep ms reads) := by
  rw [← awaitedCo_sleep distinct idle isInt runs reads clock]
  constructor
  · intro all
    exact all co (by rw [coSleep_coMap, Function.update_self])
  · intro itself other sleeps
    by_cases isCo : other = co
    · rw [isCo]
      exact itself
    · rw [coSleep_coMap, Function.update_of_ne isCo] at sleeps
      refine (awaited other sleeps).mono (fun queued => ?_) fun it => ?_
      · rw [coSleep_readyQueue, List.map_append]
        exact List.mem_append_left _ queued
      · have quiet : run.timers.phase.position = 0 := by
          rw [idle]
          rfl
        rcases run.timers.addTimer_cases (timer ms co) run.timers.nextIt reads with
          same | ⟨-, stored⟩
        · rw [same]
          exact stored_turn rfl quiet quiet other it
        · simp only [stored, stored_pushBack idle]
          exact or_iff_left fun new => isCo new.1.symm

/-! ## Runs -/

theorem delivering_step {run next : SleepRun} {event : SleepEvent}
    (delivering : run.timers.Delivering) (taken : run.step event = some next) :
    next.timers.Delivering := by
  cases event with
  | co event =>
      obtain ⟨-, sched⟩ := of_guarded_map taken
      obtain ⟨sched, -, rfl⟩ := sched
      exact delivering
  | sleep ms reads =>
      simp only [step] at taken
      split at taken
      · obtain ⟨⟨idle, -⟩, timers, added, rfl⟩ := of_guarded_map taken
        exact delivering.step (show run.timers.CallbacksQuiet (.add _ _) from idle) added
      · cases taken
  | trigger nowMs reading =>
      obtain ⟨-, timers, triggered, rfl⟩ := of_guarded_map taken
      exact delivering.step
        (show run.timers.CallbacksQuiet (.trigger nowMs reading) from trivial) triggered
  | next =>
      obtain ⟨timers, turned, rfl⟩ := Option.map_eq_some_iff.mp taken
      exact delivering.step (show run.timers.CallbacksQuiet (.next) from trivial) turned
  | fire =>
      simp only [step] at taken
      split at taken
      · obtain ⟨timers, fired, rfl⟩ := Option.map_eq_some_iff.mp taken
        exact delivering.step (show run.timers.CallbacksQuiet (.fire) from trivial) fired
      · cases taken
  | clear =>
      obtain ⟨timers, cleared, rfl⟩ := Option.map_eq_some_iff.mp taken
      exact delivering.step (show run.timers.CallbacksQuiet (.clear) from trivial) cleared

/-- Only `co_sleep` can strand a coroutine. -/
theorem awaited_step {run next : SleepRun} {event : SleepEvent}
    (delivering : run.timers.Delivering) (awaited : run.Awaited)
    (taken : run.step event = some next) : next.Awaited ↔ run.WithinLimit event := by
  cases event with
  | co event =>
      obtain ⟨⟨-, untimed⟩, sched, stepped, rfl⟩ := of_guarded_map taken
      refine iff_of_true (fun co sleeps => ?_) trivial
      obtain ⟨before, queue⟩ := sleepers_kept untimed stepped sleeps
      exact (awaited co before).mono queue fun _ => Iff.rfl
  | sleep ms reads =>
      simp only [step] at taken
      split at taken
      · next co runs =>
          obtain ⟨⟨idle, isInt⟩, timers, added, rfl⟩ := of_guarded_map taken
          obtain ⟨-, rfl⟩ := of_guarded added
          exact awaited_sleep delivering.distinct awaited idle isInt runs reads _
      · cases taken
  | trigger nowMs reading =>
      obtain ⟨-, timers, triggered, rfl⟩ := of_guarded_map taken
      obtain ⟨⟨idle, -⟩, rfl⟩ := of_guarded triggered
      refine iff_of_true (awaited.turn fun co it => ?_) trivial
      apply stored_turn
      · rfl
      · rw [idle]
        rfl
      · rfl
  | next =>
      obtain ⟨timers, turned, rfl⟩ := Option.map_eq_some_iff.mp taken
      obtain ⟨atMs, phase, ⟨-, rfl⟩ | ⟨-, rfl⟩⟩ := TimerRun.of_next turned
      all_goals
        refine iff_of_true (awaited.turn fun co it => ?_) trivial
        apply stored_turn
        · rfl
        · rw [phase]
          rfl
        · rfl
  | fire =>
      simp only [step] at taken
      split at taken
      · next node head =>
          obtain ⟨timers, fired, rfl⟩ := Option.map_eq_some_iff.mp taken
          exact iff_of_true (awaited.fire head fired) trivial
      · cases taken
  | clear =>
      obtain ⟨timers, cleared, rfl⟩ := Option.map_eq_some_iff.mp taken
      exact iff_of_true (awaited.turn (stored_clear cleared)) trivial

/-- `co_sleep` strands no coroutine exactly when each of its timers is within the limit. -/
theorem allAwaited_iff (now : Nat) (events : List SleepEvent) :
    AllStates step Awaited (start now) events ↔ StepsMeet step WithinLimit (start now) events :=
  allStates_iff_stepsMeet (fun run => run.timers.Delivering)
    (fun _ _ _ delivering taken => delivering_step delivering taken)
    (fun _ _ _ delivering awaited taken => awaited_step delivering awaited taken)
    events (TimerRun.start_delivering now) (by simp [Awaited, start, CorouteScheduler.new])

/-! ## The runs are runs of the scheduler -/

/-- The scheduler's list of timers counts the nodes of the wheel that have not fired. -/
def Linked (run : SleepRun) : Prop :=
  ∀ co, ∃ its : List Nat, its.Nodup ∧ (∀ it, it ∈ its ↔ Stored run.timers co it) ∧
    its.length = run.sched.timers.count co

theorem Linked.of_same {run next : SleepRun} (linked : run.Linked)
    (timers : next.sched.timers = run.sched.timers)
    (stored : ∀ co it, Stored next.timers co it ↔ Stored run.timers co it) : next.Linked := by
  intro co
  obtain ⟨its, distinct, nodes, count⟩ := linked co
  exact ⟨its, distinct, fun it => (nodes it).trans (stored co it).symm, by rw [timers, count]⟩

/-- The node that fires is the one that leaves the wheel. -/
theorem stored_fired {timers next : TimerRun} {node : TimerNode} (distinct : timers.Distinct)
    (head : nextNode timers = some node) (taken : timers.step .fire = some next) :
    Stored timers node.timer.cb node.it ∧
      ∀ it, Stored next node.timer.cb it ↔ Stored timers node.timer.cb it ∧ it ≠ node.it := by
  obtain ⟨atMs, position, fired, phase, found, rfl⟩ := TimerRun.of_fire taken
  have isNode : fired = node := by
    rw [nextNode, phase] at head
    exact Option.some.inj (found.symm.trans head)
  subst isNode
  simp only [Stored, phase]
  refine ⟨⟨_, position, fired, found, fun early => Nat.lt_irrefl _ early.2, rfl, rfl⟩, ?_⟩
  intro it
  constructor
  · rintro ⟨slot, index, node, inside, ahead, isCo, rfl⟩
    refine ⟨⟨slot, index, node, inside, fun early => ahead ⟨early.1, ?_⟩, isCo, rfl⟩, ?_⟩
    · exact Nat.lt_succ_of_lt early.2
    · intro same
      obtain ⟨here, there⟩ := distinct.places inside found same
      exact ahead ⟨here, there ▸ Nat.lt_succ_self _⟩
  · rintro ⟨⟨slot, index, node, inside, ahead, isCo, rfl⟩, other⟩
    refine ⟨slot, index, node, inside, ?_, isCo, rfl⟩
    rintro ⟨here, early⟩
    rcases Nat.lt_succ_iff_lt_or_eq.mp early with before | isPosition
    · exact ahead ⟨here, before⟩
    · subst isPosition here
      rw [TimerWheel.current] at found
      exact other (by rw [Option.some.inj (inside.symm.trans found)])

theorem Linked.fire {run : SleepRun} (linked : run.Linked) (distinct : run.timers.Distinct)
    {node : TimerNode} {timers : TimerRun} (head : nextNode run.timers = some node)
    (taken : run.timers.step .fire = some timers) :
    node.timer.cb ∈ run.sched.timers ∧
      Linked ⟨{ run.sched with timers := run.sched.timers.erase node.timer.cb }.scheduleCo
        ⟨node.timer.cb, .sleep⟩, timers⟩ := by
  have same := CorouteScheduler.scheduleCo_same
    { run.sched with timers := run.sched.timers.erase node.timer.cb } ⟨node.timer.cb, .sleep⟩
  obtain ⟨stored, left⟩ := stored_fired distinct head taken
  constructor
  · obtain ⟨its, -, nodes, count⟩ := linked node.timer.cb
    have inside := List.length_pos_of_mem ((nodes node.it).mpr stored)
    exact List.count_pos_iff.mp (by omega)
  · intro co
    rw [same.timers]
    obtain ⟨its, different, nodes, count⟩ := linked co
    by_cases isCo : co = node.timer.cb
    · subst isCo
      refine ⟨its.erase node.it, different.erase _, fun it => ?_, ?_⟩
      · rw [different.mem_erase_iff, nodes, left, and_comm]
      · rw [List.length_erase_of_mem ((nodes node.it).mpr stored), List.count_erase_self, count]
    · refine ⟨its, different, fun it => ?_, ?_⟩
      · rw [nodes]
        exact (stored_fire head taken isCo it).symm
      · rw [List.count_erase_of_ne isCo, count]

theorem Linked.sleep {run : SleepRun} (linked : run.Linked) (distinct : run.timers.Distinct)
    (idle : run.timers.phase = .idle) (ms : Nat) (co : Coroutine) (reads : ClockReads)
    (clock : Nat) :
    Linked ⟨run.sched.coSleep co (run.added ms co reads), { run.timers with
        ti := (run.timers.ti.addTimer (timer ms co) run.timers.nextIt reads).2
        clock := clock
        nextIt := run.timers.nextIt + 1 }⟩ := by
  have quiet : run.timers.phase.position = 0 := by
    rw [idle]
    rfl
  rcases addTimer_outcome run.timers.ti (timer ms co) run.timers.nextIt reads with
    ⟨-, outcome⟩ | ⟨-, ⟨-, outcome⟩ | ⟨-, outcome⟩⟩
  · rw [added, outcome]
    refine linked.of_same ?_ fun other it => ?_
    · simp [CorouteScheduler.coSleep, CorouteScheduler.suspend, CorouteScheduler.scheduleCo,
        CorouteScheduler.push]
    · exact stored_turn rfl quiet quiet other it
  · rw [added, outcome]
    exact linked.of_same rfl fun other it => stored_turn rfl quiet quiet other it
  · rw [added, outcome]
    intro other
    obtain ⟨its, different, nodes, count⟩ := linked other
    simp only [stored_pushBack idle]
    by_cases isCo : co = other
    · subst isCo
      refine ⟨its ++ [run.timers.nextIt], ?_, fun it => ?_, ?_⟩
      · rw [List.nodup_append]
        refine ⟨different, List.nodup_singleton _, ?_⟩
        rintro it old new added rfl
        rw [List.mem_singleton] at added
        obtain ⟨slot, index, node, found, -, -, isIt⟩ := (nodes it).mp old
        have below := distinct.known slot node (List.mem_of_getElem? found)
        omega
      · rw [List.mem_append, List.mem_singleton, nodes]
        exact or_congr Iff.rfl ⟨fun isIt => ⟨rfl, isIt.symm⟩, fun new => new.2.symm⟩
      · change _ = (run.sched.timers ++ [co]).count co
        rw [List.length_append, List.count_append, count]
        simp
    · refine ⟨its, different, fun it => ?_, ?_⟩
      · rw [nodes]
        exact (or_iff_left fun new => isCo new.1).symm
      · change _ = (run.sched.timers ++ [co]).count other
        rw [List.count_append, count, List.count_cons_of_ne isCo]
        rfl

open CorouteScheduler in
/-- Steps that neither sleep nor fire a timer leave the timers alone. -/
theorem timers_kept {s next : CorouteScheduler} {event : CorouteScheduler.Event}
    (untimed : event.timed = false) (taken : s.step event = some next) :
    next.timers = s.timers := by
  cases event with
  | addCallback co =>
      obtain ⟨-, rfl⟩ := of_guarded taken
      simp [CorouteScheduler.addCallback, push]
  | handleCo =>
      obtain ⟨-, rfl⟩ := of_guarded taken
      rfl
  | resume =>
      obtain ⟨entry, rest, -, -, rfl⟩ := CorouteScheduler.of_resume taken
      rfl
  | handleEnd =>
      obtain ⟨-, rfl⟩ := of_guarded taken
      rfl
  | io fd et ready =>
      obtain ⟨co, -, rfl⟩ := CorouteScheduler.of_io taken
      cases ready <;> rfl
  | sleep outcome => cases untimed
  | close fd =>
      obtain ⟨co, -, rfl⟩ := CorouteScheduler.of_close taken
      rfl
  | finish =>
      obtain ⟨co, -, rfl⟩ := CorouteScheduler.of_finish taken
      rfl
  | report fd reported =>
      obtain ⟨ch, interest, -, -, -, rfl⟩ := CorouteScheduler.of_report taken
      exact (scheduleAll_same _ _).timers
  | fire other => cases untimed

/-- What relates the two components between the steps. -/
structure Joined (run : SleepRun) : Prop where
  delivering : run.timers.Delivering
  linked : run.Linked
  /-- `trigger_timer` runs in the event loop, outside `handle_co` -/
  apart : run.timers.phase ≠ .idle → run.sched.phase = .idle

theorem start_joined (now : Nat) : (start now).Joined where
  delivering := TimerRun.start_delivering now
  linked := by
    intro co
    refine ⟨[], List.nodup_nil, fun it => iff_of_false nofun ?_, rfl⟩
    rintro ⟨slot, index, node, found, -⟩
    cases found
  apart := fun busy => absurd rfl busy

/-- A joint step is a step of the scheduler, or leaves the scheduler as it was. -/
theorem Joined.step {run next : SleepRun} {event : SleepEvent} (joined : run.Joined)
    (taken : run.step event = some next) : next.Joined ∧
      (next.sched = run.sched ∨ ∃ event, run.sched.step event = some next.sched) := by
  have delivering := delivering_step joined.delivering taken
  cases event with
  | co event =>
      obtain ⟨⟨idle, untimed⟩, sched, stepped, rfl⟩ := of_guarded_map taken
      refine ⟨⟨delivering, ?_, fun busy => absurd idle busy⟩, Or.inr ⟨event, stepped⟩⟩
      exact joined.linked.of_same (timers_kept untimed stepped) fun _ _ => Iff.rfl
  | sleep ms reads =>
      simp only [SleepRun.step] at taken
      split at taken
      · next co runs =>
          obtain ⟨⟨idle, -⟩, timers, added, rfl⟩ := of_guarded_map taken
          obtain ⟨-, rfl⟩ := of_guarded added
          refine ⟨⟨delivering, ?_, fun busy => absurd idle busy⟩,
            Or.inr ⟨.sleep (run.added ms co reads), ?_⟩⟩
          · exact joined.linked.sleep joined.delivering.distinct idle ms co reads _
          · simp only [CorouteScheduler.step, runs]
      · cases taken
  | trigger nowMs reading =>
      obtain ⟨schedIdle, timers, triggered, rfl⟩ := of_guarded_map taken
      obtain ⟨⟨idle, -⟩, rfl⟩ := of_guarded triggered
      refine ⟨⟨delivering, joined.linked.of_same rfl fun co it => ?_, fun _ => schedIdle⟩,
        Or.inl rfl⟩
      apply stored_turn
      · rfl
      · rw [idle]
        rfl
      · rfl
  | next =>
      obtain ⟨timers, turned, rfl⟩ := Option.map_eq_some_iff.mp taken
      obtain ⟨atMs, phase, ⟨-, rfl⟩ | ⟨-, rfl⟩⟩ := TimerRun.of_next turned
      all_goals
        refine ⟨⟨delivering, joined.linked.of_same rfl fun co it => ?_,
          fun _ => joined.apart (by simp [phase])⟩, Or.inl rfl⟩
        apply stored_turn
        · rfl
        · rw [phase]
          rfl
        · rfl
  | fire =>
      simp only [SleepRun.step] at taken
      split at taken
      · next node head =>
          obtain ⟨timers, fired, rfl⟩ := Option.map_eq_some_iff.mp taken
          obtain ⟨listed, linked⟩ := joined.linked.fire joined.delivering.distinct head fired
          obtain ⟨_, _, _, phase, -⟩ := TimerRun.of_fire fired
          have idle := joined.apart (by simp [phase])
          refine ⟨⟨delivering, linked, fun _ => ?_⟩, Or.inr ⟨.fire node.timer.cb, ?_⟩⟩
          · rw [(CorouteScheduler.scheduleCo_same _ _).phase]
            exact idle
          · rw [CorouteScheduler.step, if_pos ⟨idle, listed⟩]
      · cases taken
  | clear =>
      obtain ⟨timers, cleared, rfl⟩ := Option.map_eq_some_iff.mp taken
      obtain ⟨_, _, phase, -⟩ := TimerRun.of_clear cleared
      exact ⟨⟨delivering, joined.linked.of_same rfl (stored_clear cleared),
        fun _ => joined.apart (by simp [phase])⟩, Or.inl rfl⟩

/-- What holds of every run of the scheduler holds with the wheel below it. -/
theorem sched_reachable (now : Nat) {events : List SleepEvent} {last : SleepRun}
    (run : runFrom step (start now) events = some last) :
    ∃ events, runFrom CorouteScheduler.step .new events = some last.sched := by
  refine (runFrom_invariant (fun run => run.Joined ∧
    ∃ events, runFrom CorouteScheduler.step .new events = some run.sched) ?_
    ⟨start_joined now, [], rfl⟩ run).2
  rintro state event next ⟨joined, before, reached⟩ taken
  obtain ⟨nextJoined, same | ⟨schedEvent, stepped⟩⟩ := joined.step taken
  · exact ⟨nextJoined, before, by rw [same]; exact reached⟩
  · exact ⟨nextJoined, before ++ [schedEvent], runFrom_concat reached stepped⟩

/-- A coroutine sleeps for a minute. -/
def minuteRun : List SleepEvent :=
  [.co (.addCallback 1), .co .handleCo, .co .resume, .sleep 60000 ⟨1000, 1000, 1000⟩]

/-- The timer is rejected, and nothing will resume the coroutine. -/
theorem minuteRun_strands : ¬ AllStates step Awaited (start 1000) minuteRun := by
  intro all
  obtain ⟨last, run, sleeps, queue, wheel⟩ : ∃ last,
      runFrom step (start 1000) minuteRun = some last ∧
        last.sched.coMap 1 = some (.suspended .sleep) ∧ last.sched.readyQueue = [] ∧
          ∀ slot, last.timers.ti.wheel slot = [] := ⟨_, rfl, rfl, rfl, fun _ => rfl⟩
  rcases all.last run 1 sleeps with queued | ⟨it, ⟨slot, index, node, found, -⟩, -⟩
  · rw [queue] at queued
    cases queued
  · rw [wheel slot] at found
    cases found

end SleepRun

end SimpleWebServer.Co
