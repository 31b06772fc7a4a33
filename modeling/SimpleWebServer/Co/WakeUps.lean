import SimpleWebServer.Co.ResumeSafety

/-!
# Who is woken by a report

A coroutine that suspends in `_co_io_fun` relies on the callback of its event: the callback
must schedule this coroutine, and nothing else may.  The channel keeps the callback of the
first coroutine that waited for the event.  Here the runs of the scheduler also record, for
each suspended coroutine, whether its event has been reported since it suspended.
-/

namespace SimpleWebServer.Co

open SimpleWebServer.Reactor SimpleWebServer.Lib.Runs

/-- A scheduler, with the suspended coroutines whose event has been reported since. -/
structure WakeRun where
  sched : CorouteScheduler
  heard : Coroutine → Bool := fun _ => false

namespace WakeRun

open CorouteScheduler

/-- A report carries the event that the coroutine waits for on the descriptor. -/
def hears (s : CorouteScheduler) (fd : Nat) (reported : EventType → Bool) (co : Coroutine) :
    Bool :=
  match s.coMap co with
  | some (.suspended (.io other et)) => decide (other = fd) && reported et
  | _ => false

/-- What a step of the scheduler changes in the record. -/
def record (run : WakeRun) : Event → Coroutine → Bool
  | .io _ _ false =>
      match run.sched.phase with
      | .running co => Function.update run.heard co false
      | _ => run.heard
  | .report fd reported => fun co => run.heard co || hears run.sched fd reported co
  | _ => run.heard

def step (run : WakeRun) (event : Event) : Option WakeRun :=
  (run.sched.step event).map fun next => ⟨next, run.record event⟩

def new : WakeRun where
  sched := .new

/-- The coroutine is suspended in `_co_io_fun` on the descriptor, for the event. -/
def WaitsIn (s : CorouteScheduler) (co : Coroutine) (fd : Nat) (et : EventType) : Prop :=
  s.coMap co = some (.suspended (.io fd et))

/--
Before each `resume` of a coroutine its event has been reported since it suspended.  A
coroutine whose event has been reported is in the queue until then, and while the loop is
outside `handle_co` it has a callback for it.
-/
def Woken (run : WakeRun) : Prop :=
  (∀ entry rest, run.sched.phase = .handling → run.sched.readyQueue = entry :: rest →
    ∀ fd et, WaitsIn run.sched entry.co fd et → run.heard entry.co = true) ∧
  ∀ co fd et, WaitsIn run.sched co fd et → run.heard co = true →
    co ∈ run.sched.readyQueue.map Ready.co ∧
      (run.sched.phase = .idle → 0 < run.sched.cbList)

/--
The condition on a step.  When a coroutine suspends on a descriptor, the callback of its event
is its own, and each other enabled event has captured a coroutine that waits for it.  A
descriptor is closed when nobody waits on it.
-/
def WakesWaiter (run : WakeRun) : Event → Prop
  | .io fd et false => ∀ other, (run.sched.channel fd).isEnable other = true →
      ∀ waiter ∈ (run.sched.channel fd).cbArr other,
        if other = et then run.sched.phase = .running waiter
        else run.sched.Waits waiter (.io fd other)
  | .close fd => ∀ et, ∀ waiter ∈ (run.sched.channel fd).cbArr et,
      ¬ WaitsIn run.sched waiter fd et
  | _ => True

instance (s : CorouteScheduler) (co : Coroutine) (fd : Nat) (et : EventType) :
    Decidable (WaitsIn s co fd et) :=
  inferInstanceAs (Decidable (s.coMap co = some (.suspended (.io fd et))))

instance (run : WakeRun) : DecidablePred run.WakesWaiter
  | .io fd et false =>
      inferInstanceAs (Decidable (∀ other, (run.sched.channel fd).isEnable other = true →
        ∀ waiter ∈ (run.sched.channel fd).cbArr other,
          if other = et then run.sched.phase = .running waiter
          else run.sched.Waits waiter (.io fd other)))
  | .close fd =>
      inferInstanceAs (Decidable (∀ et, ∀ waiter ∈ (run.sched.channel fd).cbArr et,
        ¬ WaitsIn run.sched waiter fd et))
  | .io _ _ true => .isTrue trivial
  | .addCallback _ => .isTrue trivial
  | .handleCo => .isTrue trivial
  | .resume => .isTrue trivial
  | .handleEnd => .isTrue trivial
  | .sleep _ => .isTrue trivial
  | .finish => .isTrue trivial
  | .report _ _ => .isTrue trivial
  | .fire _ => .isTrue trivial

/-- The event is enabled on the channel of the descriptor and has captured the coroutine. -/
def Captured (s : CorouteScheduler) (co : Coroutine) (fd : Nat) (et : EventType) : Prop :=
  ∃ ch, s.fdMap fd = some ch ∧ ch.enableArr et = true ∧ ch.cbArr et = some co

/-- A coroutine that may have been scheduled has a callback of the loop that will resume it. -/
structure Posted (s : CorouteScheduler) : Prop where
  queue : s.readyQueue ≠ [] → s.phase = .idle → s.isSchedule = true
  flag : s.isSchedule = true → s.phase = .idle → 0 < s.cbList

/-- What holds between the steps of a run that meets the condition. -/
structure Inv (run : WakeRun) : Prop where
  sched : run.sched.Inv
  captured : ∀ co fd et, WaitsIn run.sched co fd et → Captured run.sched co fd et
  heard : ∀ co fd et, WaitsIn run.sched co fd et →
    (run.heard co = true ↔ co ∈ run.sched.readyQueue.map Ready.co)
  posted : Posted run.sched

theorem new_inv : new.Inv where
  sched := CorouteScheduler.new_inv
  captured := by simp [new, WaitsIn, CorouteScheduler.new]
  heard := by simp [new, WaitsIn, CorouteScheduler.new]
  posted := by constructor <;> simp [new, CorouteScheduler.new]

theorem Inv.woken {run : WakeRun} (inv : run.Inv) : run.Woken := by
  constructor
  · intro entry rest _ queue fd et waits
    rw [inv.heard entry.co fd et waits, queue]
    exact List.mem_cons_self
  · intro co fd et waits heard
    have queued := (inv.heard co fd et waits).mp heard
    refine ⟨queued, fun idle => inv.posted.flag (inv.posted.queue ?_ idle) idle⟩
    intro empty
    rw [empty] at queued
    cases queued

/-! ## Callbacks of the loop -/

/-- `schedule_co` posts a callback where none is pending. -/
theorem Posted.wake {s : CorouteScheduler}
    (flag : s.isSchedule = true → s.phase = .idle → 0 < s.cbList) : Posted s.wake := by
  unfold CorouteScheduler.wake
  split
  · next scheduled => exact ⟨fun _ _ => scheduled, flag⟩
  · exact ⟨fun _ _ => rfl, fun _ _ => Nat.succ_pos _⟩

theorem Posted.scheduleAll (entries : List Ready) {s : CorouteScheduler} (posted : Posted s) :
    Posted (entries.foldl scheduleCo s) := by
  induction entries generalizing s with
  | nil => exact posted
  | cons entry rest ih => exact ih (Posted.wake posted.flag)

/-- Inside `handle_co` the queue is looked at again. -/
theorem Posted.of_inside {s : CorouteScheduler} (inside : s.phase ≠ .idle) : Posted s :=
  ⟨fun _ idle => absurd idle inside, fun _ idle => absurd idle inside⟩

theorem posted_step {s next : CorouteScheduler} {event : Event} (posted : Posted s)
    (taken : s.step event = some next) : Posted next := by
  cases event with
  | addCallback co =>
      obtain ⟨-, rfl⟩ := of_guarded taken
      exact Posted.wake posted.flag
  | handleCo =>
      obtain ⟨-, rfl⟩ := of_guarded taken
      exact Posted.of_inside (by simp)
  | resume =>
      obtain ⟨entry, rest, -, -, rfl⟩ := of_resume taken
      exact Posted.of_inside (by simp)
  | handleEnd =>
      obtain ⟨⟨-, empty⟩, rfl⟩ := of_guarded taken
      exact ⟨fun queued => absurd empty queued, fun flag => by cases flag⟩
  | io fd et ready =>
      obtain ⟨co, runs, rfl⟩ := of_io taken
      cases ready with
      | true => exact Posted.of_inside (by simp [ioReady, runs])
      | false => exact Posted.of_inside (by simp [ioBlocked, suspend])
  | sleep added =>
      obtain ⟨co, -, rfl⟩ := of_sleep taken
      apply Posted.of_inside
      cases added <;> simp [coSleep, suspend]
  | close fd =>
      obtain ⟨co, runs, rfl⟩ := of_close taken
      exact Posted.of_inside (by simp [coClose, runs])
  | finish =>
      obtain ⟨co, -, rfl⟩ := of_finish taken
      exact Posted.of_inside (by simp [CorouteScheduler.finish])
  | report fd reported =>
      obtain ⟨ch, interest, -, -, -, rfl⟩ := of_report taken
      exact Posted.scheduleAll _ ⟨posted.queue, posted.flag⟩
  | fire co =>
      obtain ⟨-, rfl⟩ := of_guarded taken
      exact Posted.wake posted.flag

/-! ## Steps without a report -/

/-- A step neither suspends a coroutine on a descriptor nor hears or wakes one that is. -/
structure Kept (run next : WakeRun) : Prop where
  waits : ∀ co fd et, WaitsIn next.sched co fd et → WaitsIn run.sched co fd et
  captured : ∀ co fd et, WaitsIn next.sched co fd et → Captured run.sched co fd et →
    Captured next.sched co fd et
  heard : ∀ co fd et, WaitsIn next.sched co fd et → next.heard co = run.heard co
  queue : ∀ co fd et, WaitsIn next.sched co fd et →
    (co ∈ next.sched.readyQueue.map Ready.co ↔ co ∈ run.sched.readyQueue.map Ready.co)

theorem Inv.kept {run next : WakeRun} (inv : run.Inv) (sched : next.sched.Inv)
    (posted : Posted next.sched) (kept : run.Kept next) : next.Inv where
  sched := sched
  captured co fd et waits :=
    kept.captured co fd et waits (inv.captured co fd et (kept.waits co fd et waits))
  heard co fd et waits := by
    rw [kept.heard co fd et waits, kept.queue co fd et waits]
    exact inv.heard co fd et (kept.waits co fd et waits)
  posted := posted

/-- A coroutine that leaves `_co_io_fun` or never was there waits on no descriptor. -/
theorem waitsIn_of_update {s next : CorouteScheduler} {co : Coroutine} {state : Option CoState}
    (states : next.coMap = Function.update s.coMap co state)
    (elsewhere : ∀ fd et, state ≠ some (.suspended (.io fd et))) {other : Coroutine} {fd : Nat}
    {et : EventType} (waits : WaitsIn next other fd et) : other ≠ co ∧ WaitsIn s other fd et := by
  have different : other ≠ co := by
    rintro rfl
    rw [WaitsIn, states, Function.update_self] at waits
    exact elsewhere fd et waits
  rw [WaitsIn, states, Function.update_of_ne different] at waits
  exact ⟨different, waits⟩

/-- One coroutine changes its state, and with it at most its own place in the queue. -/
theorem Kept.of_update {run next : WakeRun} {co : Coroutine} {state : Option CoState}
    (states : next.sched.coMap = Function.update run.sched.coMap co state)
    (elsewhere : ∀ fd et, state ≠ some (.suspended (.io fd et)))
    (fdMap : next.sched.fdMap = run.sched.fdMap) (heard : next.heard = run.heard)
    (queue : ∀ other, other ≠ co → (other ∈ next.sched.readyQueue.map Ready.co ↔
      other ∈ run.sched.readyQueue.map Ready.co)) : run.Kept next where
  waits _ _ _ waits := (waitsIn_of_update states elsewhere waits).2
  captured _ _ _ _ captured := by
    rw [Captured, fdMap]
    exact captured
  heard _ _ _ _ := by rw [heard]
  queue other _ _ waits := queue other (waitsIn_of_update states elsewhere waits).1

/-- No coroutine changes its state, and no channel loses a callback. -/
theorem Kept.of_same {run next : WakeRun} (states : next.sched.coMap = run.sched.coMap)
    (captured : ∀ co fd et, WaitsIn run.sched co fd et → Captured run.sched co fd et →
      Captured next.sched co fd et)
    (heard : next.heard = run.heard)
    (queue : next.sched.readyQueue = run.sched.readyQueue) : run.Kept next where
  waits co fd et waits := by
    rw [WaitsIn, states] at waits
    exact waits
  captured co fd et waits := captured co fd et (by rw [WaitsIn, states] at waits; exact waits)
  heard _ _ _ _ := by rw [heard]
  queue _ _ _ _ := by rw [queue]

theorem mem_append_other {entries : List Ready} {entry : Ready} {other : Coroutine}
    (different : other ≠ entry.co) :
    other ∈ (entries ++ [entry]).map Ready.co ↔ other ∈ entries.map Ready.co := by
  rw [List.map_append, List.mem_append, List.map_cons, List.map_nil, List.mem_singleton]
  exact or_iff_left different

/-- A coroutine that sleeps waits on no descriptor. -/
theorem Kept.coSleep (run : WakeRun) (co : Coroutine) (added : Timers.Added) :
    run.Kept ⟨run.sched.coSleep co added, run.heard⟩ := by
  have states : (run.sched.coSleep co added).coMap =
      Function.update run.sched.coMap co (some (.suspended .sleep)) := by
    cases added <;> simp [CorouteScheduler.coSleep, suspend, scheduleCo, push]
  have fdMap : (run.sched.coSleep co added).fdMap = run.sched.fdMap := by
    cases added <;> simp [CorouteScheduler.coSleep, suspend, scheduleCo, push]
  refine Kept.of_update states (by simp) fdMap rfl fun other different => ?_
  cases added with
  | ran =>
      have queue : (run.sched.coSleep co .ran).readyQueue =
          run.sched.readyQueue ++ [⟨co, .sleep⟩] := by
        simp [CorouteScheduler.coSleep, suspend, scheduleCo, push]
      rw [queue]
      exact mem_append_other different
  | rejected => rfl
  | stored timerId => rfl

/-- `_co_io_fun` creates a channel only where there was none. -/
theorem Captured.ioReady {s : CorouteScheduler} {co : Coroutine} {fd other : Nat} {et : EventType}
    (captured : Captured s co other et) : Captured (s.ioReady fd) co other et := by
  obtain ⟨ch, known, enabled, isCo⟩ := captured
  refine ⟨ch, ?_, enabled, isCo⟩
  simp only [CorouteScheduler.ioReady]
  by_cases same : other = fd
  · rw [same] at known
    rw [same, Function.update_self, channel_of_known known]
  · rw [Function.update_of_ne same]
    exact known

theorem Captured.coClose {s : CorouteScheduler} {co : Coroutine} {fd other : Nat} {et : EventType}
    (captured : Captured s co other et) (waits : WaitsIn s co other et)
    (unattended : ∀ et, ∀ waiter ∈ (s.channel fd).cbArr et, ¬ WaitsIn s waiter fd et) :
    Captured (s.coClose fd) co other et := by
  obtain ⟨ch, known, enabled, isCo⟩ := captured
  refine ⟨ch, ?_, enabled, isCo⟩
  have different : other ≠ fd := by
    rintro rfl
    rw [channel_of_known known] at unattended
    exact unattended et co isCo waits
  simp only [CorouteScheduler.coClose]
  rw [Function.update_of_ne different]
  exact known

/-! ## Suspending, and being heard -/

theorem armsWaiters_of_wakesWaiter {run : WakeRun} {event : Event}
    (met : run.WakesWaiter event) : run.sched.ArmsWaiters event := by
  cases event with
  | io fd et ready =>
      cases ready with
      | true => trivial
      | false =>
          intro other enabled waiter captured
          have whose := met other enabled waiter captured
          split at whose
          · next same => exact Or.inl ⟨same, whose⟩
          · exact Or.inr whose
  | _ => trivial

/-- The event that a coroutine suspends for has captured the coroutine. -/
theorem captured_ioBlocked {run : WakeRun} {fd : Nat} {et : EventType} {co : Coroutine}
    (runs : run.sched.phase = .running co) (met : run.WakesWaiter (.io fd et false)) :
    Captured (run.sched.ioBlocked fd et co) co fd et := by
  refine ⟨run.sched.enabled fd et co, Function.update_self .., ?_, ?_⟩
  · rw [enabled_enableArr, Function.update_self]
  · by_cases before : (run.sched.channel fd).isEnable et = true
    · obtain ⟨waiter, captured⟩ := Option.isSome_iff_exists.mp
        ((run.sched.channel fd).enabled_cb et before)
      have isRunning := met et before waiter captured
      rw [if_pos rfl, runs] at isRunning
      cases isRunning
      rw [enabled_cbArr before, captured]
    · rw [CorouteScheduler.enabled, dif_neg before]
      exact Function.update_self ..

/-- The callbacks of the others stay where they are. -/
theorem Captured.ioBlocked {s : CorouteScheduler} {waiter co : Coroutine} {fd other : Nat}
    {et event : EventType} (captured : Captured s waiter other event) :
    Captured (s.ioBlocked fd et co) waiter other event := by
  obtain ⟨ch, known, enabled, isWaiter⟩ := captured
  by_cases same : other = fd
  · subst same
    rw [← channel_of_known known] at enabled isWaiter
    refine ⟨s.enabled other et co, Function.update_self .., ?_, ?_⟩
    · rw [enabled_enableArr]
      by_cases sameEvent : event = et
      · rw [sameEvent, Function.update_self]
      · rw [Function.update_of_ne sameEvent]
        exact enabled
    · rw [enabled_cbArr enabled]
      exact isWaiter
  · refine ⟨ch, ?_, enabled, isWaiter⟩
    simp only [CorouteScheduler.ioBlocked, suspend]
    rw [Function.update_of_ne same]
    exact known

theorem Inv.ioBlocked {run : WakeRun} (inv : run.Inv) {fd : Nat} {et : EventType} {co : Coroutine}
    (runs : run.sched.phase = .running co) (met : run.WakesWaiter (.io fd et false)) :
    Inv ⟨run.sched.ioBlocked fd et co, Function.update run.heard co false⟩ := by
  have absent := inv.sched.safe.absent (Or.inl (inv.sched.running co runs))
  have states : (run.sched.ioBlocked fd et co).coMap =
      Function.update run.sched.coMap co (some (.suspended (.io fd et))) := rfl
  have before : ∀ other fd' event, WaitsIn (run.sched.ioBlocked fd et co) other fd' event →
      other ≠ co → WaitsIn run.sched other fd' event := by
    intro other fd' event waits different
    rw [WaitsIn, states, Function.update_of_ne different] at waits
    exact waits
  constructor
  · exact inv.sched.ioBlocked runs (armsWaiters_of_wakesWaiter met)
  · intro other fd' event waits
    by_cases same : other = co
    · subst same
      rw [WaitsIn, states, Function.update_self] at waits
      cases waits
      exact captured_ioBlocked runs met
    · exact (inv.captured other fd' event (before other fd' event waits same)).ioBlocked
  · intro other fd' event waits
    by_cases same : other = co
    · subst same
      simp only [Function.update_self]
      exact iff_of_false nofun absent
    · simp only [Function.update_of_ne same]
      exact inv.heard other fd' event (before other fd' event waits same)
  · exact Posted.of_inside (by simp [CorouteScheduler.ioBlocked, suspend])

/-- A coroutine that waits hears the reports of its own event. -/
theorem hears_iff {s : CorouteScheduler} {co : Coroutine} {fd other : Nat} {et : EventType}
    {reported : EventType → Bool} (waits : WaitsIn s co other et) :
    hears s fd reported co = true ↔ other = fd ∧ reported et = true := by
  rw [WaitsIn] at waits
  simp [hears, waits]

/-- The callbacks of a report schedule those who wait for it. -/
theorem Inv.scheduled_iff {run : WakeRun} (inv : run.Inv) {fd : Nat} {ch : Channel Coroutine}
    {interest : Interest} {reported : EventType → Bool} (known : run.sched.fdMap fd = some ch)
    (found : run.sched.interest fd = some interest) (allows : interest.Allows reported)
    {co : Coroutine} {other : Nat} {et : EventType} (waits : WaitsIn run.sched co other et) :
    co ∈ (entriesOf fd (ch.triggerEvents reported)).map Ready.co ↔
      other = fd ∧ reported et = true := by
  constructor
  · intro scheduled
    obtain ⟨entry, inside, rfl⟩ := List.mem_map.mp scheduled
    obtain ⟨event, triggered, -, reason⟩ := mem_entriesOf.mp inside
    have state := (inv.sched.sources.entries_wait known found allows entry inside).1
    rw [reason, waits] at state
    cases state
    refine ⟨rfl, ?_⟩
    have quiet := inv.sched.sources.untriggered fd ch et known
    simpa [Channel.triggerEvents, quiet] using triggered
  · rintro ⟨rfl, carries⟩
    obtain ⟨otherCh, isKnown, -, isCo⟩ := inv.captured co other et waits
    rw [known] at isKnown
    cases isKnown
    refine List.mem_map.mpr ⟨⟨co, .io other et⟩, mem_entriesOf.mpr ⟨et, ?_, isCo, rfl⟩, rfl⟩
    simp [Channel.triggerEvents, carries]

/-- A report schedules exactly the coroutines that hear it. -/
theorem Inv.handleReport {run : WakeRun} (inv : run.Inv) {fd : Nat} {ch : Channel Coroutine}
    {interest : Interest} {reported : EventType → Bool} (known : run.sched.fdMap fd = some ch)
    (found : run.sched.interest fd = some interest) (idle : run.sched.phase = .idle)
    (allows : interest.Allows reported) :
    Inv ⟨run.sched.handleReport fd ch interest reported,
      fun co => run.heard co || hears run.sched fd reported co⟩ := by
  have queue := scheduleAll_readyQueue (entriesOf fd (ch.triggerEvents reported))
    { run.sched with
      fdMap := Function.update run.sched.fdMap fd (some (ch.triggerEvents reported).handled)
      interest := Function.update run.sched.interest fd (some interest.reported) }
  have same := scheduleAll_same (entriesOf fd (ch.triggerEvents reported))
    { run.sched with
      fdMap := Function.update run.sched.fdMap fd (some (ch.triggerEvents reported).handled)
      interest := Function.update run.sched.interest fd (some interest.reported) }
  constructor
  · exact inv.sched.handleReport known found idle allows
  · intro co other et waits
    rw [WaitsIn, CorouteScheduler.handleReport, same.coMap] at waits
    obtain ⟨otherCh, isKnown, enabled, isCo⟩ := inv.captured co other et waits
    rw [Captured, CorouteScheduler.handleReport, same.fdMap]
    by_cases sameFd : other = fd
    · subst sameFd
      rw [known] at isKnown
      cases isKnown
      exact ⟨_, Function.update_self .., enabled, isCo⟩
    · refine ⟨otherCh, ?_, enabled, isCo⟩
      simp only [Function.update_of_ne sameFd]
      exact isKnown
  · intro co other et waits
    rw [WaitsIn, CorouteScheduler.handleReport, same.coMap] at waits
    replace waits : WaitsIn run.sched co other et := waits
    rw [CorouteScheduler.handleReport, queue, List.map_append, List.mem_append, Bool.or_eq_true,
      inv.heard co other et waits, hears_iff waits, inv.scheduled_iff known found allows waits]
  · exact Posted.scheduleAll _ ⟨inv.posted.queue, inv.posted.flag⟩

/-! ## Runs -/

theorem Inv.step {run next : WakeRun} {event : Event} (inv : run.Inv)
    (met : run.WakesWaiter event) (taken : run.step event = some next) : next.Inv := by
  obtain ⟨sched, stepped, rfl⟩ := Option.map_eq_some_iff.mp taken
  have schedInv : sched.Inv := inv.sched.step (armsWaiters_of_wakesWaiter met) stepped
  have posted : Posted sched := posted_step inv.posted stepped
  cases event with
  | addCallback co =>
      obtain ⟨⟨-, fresh⟩, rfl⟩ := of_guarded stepped
      have states : (run.sched.addCallback co).coMap =
          Function.update run.sched.coMap co (some (.suspended .start)) := by
        simp [CorouteScheduler.addCallback, push]
      refine inv.kept schedInv posted (Kept.of_update states (by simp) ?_ rfl ?_)
      · simp [CorouteScheduler.addCallback, push]
      · intro other different
        have queue : (run.sched.addCallback co).readyQueue =
            run.sched.readyQueue ++ [⟨co, .start⟩] := by
          simp [CorouteScheduler.addCallback, push]
        rw [queue]
        exact mem_append_other different
  | handleCo =>
      obtain ⟨-, rfl⟩ := of_guarded stepped
      exact inv.kept schedInv posted (Kept.of_same rfl (fun _ _ _ _ => id) rfl rfl)
  | resume =>
      obtain ⟨entry, rest, -, queue, rfl⟩ := of_resume stepped
      refine inv.kept schedInv posted
        (Kept.of_update rfl (by simp) rfl rfl fun other different => ?_)
      rw [queue, List.map_cons, List.mem_cons]
      exact (or_iff_right different).symm
  | handleEnd =>
      obtain ⟨-, rfl⟩ := of_guarded stepped
      exact inv.kept schedInv posted (Kept.of_same rfl (fun _ _ _ _ => id) rfl rfl)
  | io fd et ready =>
      obtain ⟨co, runs, rfl⟩ := of_io stepped
      cases ready with
      | true =>
          exact inv.kept schedInv posted
            (Kept.of_same rfl (fun _ _ _ _ => Captured.ioReady) rfl rfl)
      | false =>
          simp only [record, runs]
          exact inv.ioBlocked runs met
  | sleep added =>
      obtain ⟨co, -, rfl⟩ := of_sleep stepped
      exact inv.kept schedInv posted (Kept.coSleep run co added)
  | close fd =>
      obtain ⟨co, -, rfl⟩ := of_close stepped
      refine inv.kept schedInv posted (Kept.of_same rfl ?_ rfl rfl)
      exact fun _ _ _ waits captured => captured.coClose waits met
  | finish =>
      obtain ⟨co, -, rfl⟩ := of_finish stepped
      exact inv.kept schedInv posted (Kept.of_update rfl (by simp) rfl rfl fun _ _ => Iff.rfl)
  | report fd reported =>
      obtain ⟨ch, interest, known, found, enabled, rfl⟩ := of_report stepped
      exact inv.handleReport known found enabled.1 enabled.2.2
  | fire co =>
      obtain ⟨enabled, rfl⟩ := of_guarded stepped
      have same := scheduleCo_same { run.sched with timers := run.sched.timers.erase co }
        ⟨co, .sleep⟩
      have sleeps := inv.sched.sources.sleeping co enabled.2
      apply inv.kept schedInv posted
      have states : ({ run.sched with timers := run.sched.timers.erase co }.scheduleCo
          ⟨co, .sleep⟩).coMap =
            Function.update run.sched.coMap co (some (.suspended .sleep)) := by
        rw [same.coMap, ← sleeps.1, Function.update_eq_self]
      refine Kept.of_update states (by simp) same.fdMap rfl fun other different => ?_
      rw [scheduleCo_readyQueue]
      exact mem_append_other different

/-- In the runs that meet the condition a report wakes those who wait for it, and nobody else. -/
theorem allWoken_of_wakesWaiter (events : List Event)
    (meets : StepsMeet step WakesWaiter new events) : AllStates step Woken new events :=
  allStates_of_stepsMeet Inv (fun _ _ _ => Inv.step) (fun _ inv => inv.woken) events
    new_inv meets

/-- One coroutine reads and another one writes on one descriptor, and both events come at once. -/
theorem allWoken_of_wakesWaiter_readerWriter :
    AllStates step Woken new [.addCallback 1, .addCallback 2, .handleCo, .resume,
      .io 5 .read false, .resume, .io 5 .write false, .handleEnd, .report 5 (only .read),
      .handleCo, .resume, .io 5 .read false, .handleEnd, .report 5 fun _ => true, .handleCo,
      .resume, .finish, .resume, .close 5, .finish, .handleEnd] :=
  allWoken_of_wakesWaiter _ (by decide +kernel)

/-- A coroutine has read on the descriptor and ended; a second one waits there. -/
def takenOverRun : List Event :=
  [.addCallback 1, .handleCo, .resume, .io 5 .read false, .handleEnd, .report 5 (only .read),
    .handleCo, .resume, .finish, .handleEnd, .addCallback 2, .handleCo, .resume,
    .io 5 .read false, .handleEnd, .report 5 (only .read)]

/-- The callback still schedules the first coroutine: the second one is not woken. -/
theorem takenOverRun_strands : ¬ AllStates step Woken new takenOverRun := by
  intro all
  obtain ⟨last, run, waits, heard, queue⟩ : ∃ last, runFrom step new takenOverRun = some last ∧
      WaitsIn last.sched 2 5 .read ∧ last.heard 2 = true ∧
        last.sched.readyQueue.map Ready.co = [1] := ⟨_, rfl, rfl, rfl, rfl⟩
  have woken := ((all.last run).2 2 5 .read waits heard).1
  rw [queue] at woken
  exact absurd woken (by decide)

/-! ## When the callback is not its own -/

/-- The record follows every run of the scheduler. -/
theorem runFrom_sched {events : List Event} {run : WakeRun} {last : CorouteScheduler}
    (runs : runFrom CorouteScheduler.step run.sched events = some last) :
    ∃ heard, runFrom step run events = some ⟨last, heard⟩ := by
  induction events generalizing run with
  | nil =>
      cases runs
      exact ⟨run.heard, rfl⟩
  | cons event rest ih =>
      rw [runFrom_cons] at runs
      obtain ⟨middle, stepped, more⟩ := Option.bind_eq_some_iff.mp runs
      obtain ⟨heard, behind⟩ := @ih ⟨middle, run.record event⟩ more
      refine ⟨heard, ?_⟩
      rw [runFrom_cons, step, stepped]
      exact behind

/-- A coroutine that suspends behind the callback of another one can miss its report. -/
theorem missed_of_otherCallback {run next : WakeRun} (inv : run.Inv) {fd : Nat} {et : EventType}
    {co other : Coroutine} (runs : run.sched.phase = .running co)
    (taken : run.step (.io fd et false) = some next)
    (enabled : (run.sched.channel fd).isEnable et = true)
    (captured : (run.sched.channel fd).cbArr et = some other) (different : other ≠ co) :
    Reaches step (fun last => ¬ last.Woken) next := by
  have absent := inv.sched.safe.absent (Or.inl (inv.sched.running co runs))
  obtain ⟨sched, stepped, rfl⟩ := Option.map_eq_some_iff.mp taken
  simp only [CorouteScheduler.step, runs, Bool.false_eq_true, if_false,
    Option.some.injEq] at stepped
  subst stepped
  have suspendedSafe : (run.sched.ioBlocked fd et co).Safe :=
    inv.sched.safe.update rfl (List.Sublist.refl _) absent
  obtain ⟨events, idle, drains, ⟨isIdle, empty⟩, fdMap, interest, states⟩ :=
    drain rfl suspendedSafe
  obtain ⟨heard, drained⟩ := @runFrom_sched events
    ⟨run.sched.ioBlocked fd et co, run.record (.io fd et false)⟩ idle drains
  have channel : idle.fdMap fd = some (run.sched.enabled fd et co) := by
    rw [fdMap]
    exact Function.update_self ..
  have registered : idle.interest fd = some (run.sched.enabled fd et co).interest := by
    rw [interest]
    exact Function.update_self ..
  have armed : (run.sched.enabled fd et co).enableArr et = true := by
    rw [enabled_enableArr, Function.update_self]
  have waits : WaitsIn idle co fd et := by
    have notQueued : co ∉ (run.sched.ioBlocked fd et co).readyQueue.map Ready.co := absent
    rw [WaitsIn, states, if_neg notQueued]
    exact Function.update_self ..
  have reports := step_report_only isIdle channel registered armed
  have reported : step ⟨idle, heard⟩ (.report fd (only et)) = some
      ⟨idle.handleReport fd (run.sched.enabled fd et co)
        (run.sched.enabled fd et co).interest (only et),
        fun co => heard co || hears idle fd (only et) co⟩ := by
    rw [step, reports]
    rfl
  refine reaches_behind drained (reaches_next reported (reaches_now fun woken => ?_))
  have hearing : hears idle fd (only et) co = true :=
    (hears_iff waits).mpr ⟨rfl, by simp [only]⟩
  have still : WaitsIn (idle.handleReport fd (run.sched.enabled fd et co)
      (run.sched.enabled fd et co).interest (only et)) co fd et := by
    rw [WaitsIn, CorouteScheduler.handleReport, (scheduleAll_same _ _).coMap]
    exact waits
  have queued := (woken.2 co fd et still (by simp [hearing])).1
  rw [CorouteScheduler.handleReport, scheduleAll_readyQueue, empty, List.nil_append] at queued
  obtain ⟨entry, inside, rfl⟩ := List.mem_map.mp queued
  obtain ⟨event, triggered, isCo, -⟩ := mem_entriesOf.mp inside
  have same : event = et := by
    have quiet := inv.sched.sources.channel_untriggered fd event
    simpa [Channel.triggerEvents, enabled_triggerArr, quiet, only] using triggered
  subst same
  have keeps : (run.sched.enabled fd event entry.co).cbArr event = some entry.co := isCo
  rw [enabled_cbArr enabled, captured] at keeps
  exact different (Option.some.inj keeps)

end WakeRun

end SimpleWebServer.Co
