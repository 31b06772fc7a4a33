import SimpleWebServer.Co.CorouteScheduler
import SimpleWebServer.Lib.Tables
import Mathlib.Data.List.Nodup

/-!
# Which coroutines the queue holds

`enable_event` arms every event that was ever enabled on the channel, and an event keeps
the callback of the coroutine that enabled it first.  A report may therefore schedule a
coroutine that no longer waits for it.  In the runs in which every suspension arms only
events whose coroutines wait for them, each source of wake-ups (the queue, the armed
events, the stored timers) holds suspended coroutines only, and no coroutine is in two.
-/

namespace SimpleWebServer.Co

open SimpleWebServer.Reactor SimpleWebServer.Timers SimpleWebServer.Lib SimpleWebServer.Lib.Runs

namespace CorouteScheduler

/-- The queue holds each coroutine once, suspended for the reason of its entry. -/
def Safe (s : CorouteScheduler) : Prop :=
  (s.readyQueue.map Ready.co).Nodup ∧
    ∀ entry ∈ s.readyQueue, s.coMap entry.co = some (.suspended entry.reason)

instance : DecidablePred Safe := fun s =>
  inferInstanceAs (Decidable ((s.readyQueue.map Ready.co).Nodup ∧
    ∀ entry ∈ s.readyQueue, s.coMap entry.co = some (.suspended entry.reason)))

/-- The coroutine is suspended for a reason and nothing has scheduled it yet. -/
def Waits (s : CorouteScheduler) (co : Coroutine) (reason : Reason) : Prop :=
  s.coMap co = some (.suspended reason) ∧ co ∉ s.readyQueue.map Ready.co

instance (s : CorouteScheduler) (co : Coroutine) (reason : Reason) :
    Decidable (s.Waits co reason) :=
  inferInstanceAs (Decidable (s.coMap co = some (.suspended reason) ∧
    co ∉ s.readyQueue.map Ready.co))

/--
The condition on a step: when a coroutine suspends on a descriptor, each event enabled on
its channel has captured the coroutine itself, for its own event, or one that waits for
that event there.
-/
def ArmsWaiters (s : CorouteScheduler) : Event → Prop
  | .io fd et false => ∀ other, (s.channel fd).isEnable other = true →
      ∀ waiter ∈ (s.channel fd).cbArr other,
        (other = et ∧ s.phase = .running waiter) ∨ s.Waits waiter (.io fd other)
  | _ => True

instance (s : CorouteScheduler) : DecidablePred s.ArmsWaiters
  | .io fd et false =>
      inferInstanceAs (Decidable (∀ other, (s.channel fd).isEnable other = true →
        ∀ waiter ∈ (s.channel fd).cbArr other,
          (other = et ∧ s.phase = .running waiter) ∨ s.Waits waiter (.io fd other)))
  | .io _ _ true => .isTrue trivial
  | .addCallback _ => .isTrue trivial
  | .handleCo => .isTrue trivial
  | .resume => .isTrue trivial
  | .handleEnd => .isTrue trivial
  | .sleep _ => .isTrue trivial
  | .close _ => .isTrue trivial
  | .finish => .isTrue trivial
  | .report _ _ => .isTrue trivial
  | .fire _ => .isTrue trivial

/-- An event that epoll may report on a channel has captured a coroutine that waits for it. -/
def ArmedFor (s : CorouteScheduler) (fd : Nat) (interest : Interest) (et : EventType) : Prop :=
  interest.oneshot = true ∧
    ∃ ch waiter, s.fdMap fd = some ch ∧ ch.cbArr et = some waiter ∧ s.Waits waiter (.io fd et)

/-- The armed events and the stored timers have captured coroutines that wait for them. -/
structure Sources (s : CorouteScheduler) : Prop where
  armed : ∀ fd interest et, s.interest fd = some interest → interest.events et = true →
    s.ArmedFor fd interest et
  once : ∀ fd ch, s.fdMap fd = some ch → ch.isOnce = true
  untriggered : ∀ fd ch et, s.fdMap fd = some ch → ch.triggerArr et = false
  timersOnce : s.timers.Nodup
  sleeping : ∀ co ∈ s.timers, s.Waits co .sleep

/-- What holds between the steps of a run that meets the condition. -/
structure Inv (s : CorouteScheduler) : Prop where
  safe : s.Safe
  running : ∀ co, s.phase = .running co → s.coMap co = some .running
  sources : s.Sources

theorem new_inv : new.Inv where
  safe := by simp [new, Safe]
  running := by simp [new]
  sources := by constructor <;> simp [new]

/-! ## Waiting coroutines -/

/-- A waiting coroutine is neither the running one nor one outside `co_map`. -/
theorem Waits.ne {s : CorouteScheduler} {waiter co : Coroutine} {reason : Reason}
    (waits : s.Waits waiter reason)
    (other : s.coMap co = some .running ∨ s.coMap co = none) : waiter ≠ co := by
  rintro rfl
  have known := waits.1
  rcases other with runs | gone
  · rw [runs] at known
    cases known
  · rw [gone] at known
    cases known

/-- A coroutine waits for one reason only. -/
theorem Waits.unique {s : CorouteScheduler} {co : Coroutine} {first second : Reason}
    (one : s.Waits co first) (two : s.Waits co second) : first = second := by
  have same := one.1.symm.trans two.1
  cases same
  rfl

/-- Waiting survives every step that neither touches the coroutine nor schedules it. -/
theorem Waits.mono {s next : CorouteScheduler} {waiter : Coroutine} {reason : Reason}
    (waits : s.Waits waiter reason) (sameState : next.coMap waiter = s.coMap waiter)
    (queue : ∀ entry ∈ next.readyQueue, entry ∈ s.readyQueue ∨ entry.co ≠ waiter) :
    next.Waits waiter reason := by
  refine ⟨sameState.trans waits.1, ?_⟩
  intro listed
  obtain ⟨entry, inside, isWaiter⟩ := List.mem_map.mp listed
  rcases queue entry inside with old | different
  · exact waits.2 (List.mem_map.mpr ⟨entry, old, isWaiter⟩)
  · exact different isWaiter

/-- A step that touches one coroutine only leaves the others waiting. -/
theorem Waits.update {s next : CorouteScheduler} {waiter co : Coroutine} {reason : Reason}
    {state : Option CoState} (waits : s.Waits waiter reason) (different : waiter ≠ co)
    (states : next.coMap = Function.update s.coMap co state)
    (queue : ∀ entry ∈ next.readyQueue, entry ∈ s.readyQueue ∨ entry.co = co) :
    next.Waits waiter reason := by
  apply waits.mono (by rw [states, Function.update_of_ne different])
  intro entry inside
  rcases queue entry inside with old | new
  · exact Or.inl old
  · exact Or.inr (by rw [new]; exact different.symm)

/-- A coroutine outside the queue can change its state, and the queue can shrink. -/
theorem Safe.update {s next : CorouteScheduler} (safe : s.Safe) {co : Coroutine}
    {state : Option CoState} (states : next.coMap = Function.update s.coMap co state)
    (queue : next.readyQueue.Sublist s.readyQueue)
    (absent : co ∉ next.readyQueue.map Ready.co) : next.Safe := by
  refine ⟨safe.1.sublist (queue.map Ready.co), ?_⟩
  intro entry inside
  have different : entry.co ≠ co := by
    intro same
    exact absent (List.mem_map.mpr ⟨entry, inside, same⟩)
  rw [states, Function.update_of_ne different]
  exact safe.2 entry (queue.subset inside)

/-- Entries for different waiting coroutines can be appended to the queue. -/
theorem Safe.append {s next : CorouteScheduler} (safe : s.Safe) {entries : List Ready}
    (queue : next.readyQueue = s.readyQueue ++ entries) (states : next.coMap = s.coMap)
    (different : (entries.map Ready.co).Nodup)
    (waiting : ∀ entry ∈ entries, s.Waits entry.co entry.reason) : next.Safe := by
  refine ⟨?_, ?_⟩
  · rw [queue, List.map_append, List.nodup_append]
    refine ⟨safe.1, different, ?_⟩
    intro old listed new added same
    obtain ⟨entry, inside, isNew⟩ := List.mem_map.mp added
    rw [same, ← isNew] at listed
    exact (waiting entry inside).2 listed
  · intro entry inside
    rw [queue] at inside
    rw [states]
    rcases List.mem_append.mp inside with old | new
    · exact safe.2 entry old
    · exact (waiting entry new).1

/-- A coroutine outside the queue enters it suspended. -/
theorem Safe.enter {s next : CorouteScheduler} (safe : s.Safe) {co : Coroutine} {reason : Reason}
    (states : next.coMap = Function.update s.coMap co (some (.suspended reason)))
    (queue : next.readyQueue = s.readyQueue ++ [⟨co, reason⟩])
    (absent : co ∉ s.readyQueue.map Ready.co) : next.Safe := by
  let between : CorouteScheduler :=
    { s with coMap := Function.update s.coMap co (some (.suspended reason)) }
  have suspended : between.Safe := safe.update rfl (List.Sublist.refl _) absent
  apply suspended.append queue states (List.nodup_singleton _)
  intro entry inside
  rw [List.mem_singleton.mp inside]
  exact ⟨Function.update_self .., absent⟩

/-- A coroutine that is not suspended is not in the queue. -/
theorem Safe.absent {s : CorouteScheduler} (safe : s.Safe) {co : Coroutine}
    (state : s.coMap co = some .running ∨ s.coMap co = none) :
    co ∉ s.readyQueue.map Ready.co := by
  intro listed
  obtain ⟨entry, inside, isCo⟩ := List.mem_map.mp listed
  have known := safe.2 entry inside
  rw [isCo] at known
  rcases state with runs | gone
  · rw [runs] at known
    cases known
  · rw [gone] at known
    cases known

theorem ArmedFor.mono {s next : CorouteScheduler} {fd : Nat} {interest : Interest}
    {et : EventType} (armed : s.ArmedFor fd interest et)
    (channels : ∀ ch, s.fdMap fd = some ch → next.fdMap fd = some ch)
    (waits : ∀ waiter, s.Waits waiter (.io fd et) → next.Waits waiter (.io fd et)) :
    next.ArmedFor fd interest et := by
  obtain ⟨oneshot, ch, waiter, known, captured, waiting⟩ := armed
  exact ⟨oneshot, ch, waiter, channels ch known, captured, waits waiter waiting⟩

/-- The sources of a step that touches neither channels nor timers. -/
theorem Sources.mono {s next : CorouteScheduler} (sources : s.Sources)
    (fdMap : next.fdMap = s.fdMap) (interest : next.interest = s.interest)
    (timers : next.timers = s.timers)
    (waits : ∀ waiter reason, s.Waits waiter reason → next.Waits waiter reason) :
    next.Sources := by
  constructor
  · intro fd known et found reported
    rw [interest] at found
    exact (sources.armed fd known et found reported).mono (by simp [fdMap]) fun waiter =>
      waits waiter _
  · rw [fdMap]
    exact sources.once
  · rw [fdMap]
    exact sources.untriggered
  · rw [timers]
    exact sources.timersOnce
  · intro co listed
    rw [timers] at listed
    exact waits co _ (sources.sleeping co listed)

/-! ## The steps of `handle_co` -/

theorem Inv.addCallback {s : CorouteScheduler} (inv : s.Inv) {co : Coroutine}
    (fresh : s.coMap co = none) : (s.addCallback co).Inv := by
  have queue : (s.addCallback co).readyQueue = s.readyQueue ++ [⟨co, .start⟩] := by
    simp [CorouteScheduler.addCallback, push]
  have states : (s.addCallback co).coMap =
      Function.update s.coMap co (some (.suspended .start)) := by
    simp [CorouteScheduler.addCallback, push]
  have samePhase : (s.addCallback co).phase = s.phase := by
    simp [CorouteScheduler.addCallback, push]
  constructor
  · exact inv.safe.enter states queue (inv.safe.absent (Or.inr fresh))
  · intro other runs
    rw [samePhase] at runs
    have known := inv.running other runs
    have different : other ≠ co := by
      rintro rfl
      rw [fresh] at known
      cases known
    rw [states, Function.update_of_ne different]
    exact known
  · refine inv.sources.mono (by simp [CorouteScheduler.addCallback, push])
      (by simp [CorouteScheduler.addCallback, push])
      (by simp [CorouteScheduler.addCallback, push]) ?_
    intro waiter reason waits
    apply waits.update (waits.ne (Or.inr fresh)) states
    intro entry inside
    rw [queue] at inside
    rcases List.mem_append.mp inside with old | new
    · exact Or.inl old
    · rw [List.mem_singleton.mp new]
      exact Or.inr rfl

theorem Inv.resume {s next : CorouteScheduler} (inv : s.Inv) {entry : Ready}
    {rest : List Ready} (queue : s.readyQueue = entry :: rest)
    (isNext : next = { s with
      readyQueue := rest
      coMap := Function.update s.coMap entry.co (some .running)
      phase := .running entry.co }) : next.Inv := by
  have distinct := inv.safe.1
  rw [queue, List.map_cons, List.nodup_cons] at distinct
  subst isNext
  constructor
  · refine inv.safe.update rfl ?_ distinct.1
    rw [queue]
    exact List.sublist_cons_self entry rest
  · intro co runs
    cases runs
    exact Function.update_self ..
  · refine inv.sources.mono rfl rfl rfl ?_
    intro waiter reason waits
    have different : waiter ≠ entry.co := by
      rintro rfl
      exact waits.2 (by simp [queue])
    apply waits.update different rfl
    intro other inside
    exact Or.inl (by rw [queue]; exact List.mem_cons_of_mem entry inside)

/-- The phase, the flag and the pending callbacks matter to no source. -/
theorem Inv.elsewhere {s next : CorouteScheduler} (inv : s.Inv)
    (queue : next.readyQueue = s.readyQueue) (states : next.coMap = s.coMap)
    (fdMap : next.fdMap = s.fdMap) (interest : next.interest = s.interest)
    (timers : next.timers = s.timers) (phase : ∀ co, next.phase ≠ .running co) : next.Inv := by
  constructor
  · rw [Safe, queue, states]
    exact inv.safe
  · intro co runs
    exact absurd runs (phase co)
  · apply inv.sources.mono fdMap interest timers
    intro waiter reason waits
    rw [Waits, queue, states]
    exact waits

/-! ## The steps of a running coroutine -/

/-- The running coroutine gives up control, with its state changed and nothing else. -/
theorem Inv.leave {s next : CorouteScheduler} (inv : s.Inv) {co : Coroutine}
    {state : Option CoState} (runs : s.coMap co = some .running)
    (queue : next.readyQueue = s.readyQueue)
    (states : next.coMap = Function.update s.coMap co state)
    (phase : next.phase = .handling) (sources : next.Sources) : next.Inv := by
  constructor
  · apply inv.safe.update states (by rw [queue])
    rw [queue]
    exact inv.safe.absent (Or.inl runs)
  · intro other running
    rw [phase] at running
    cases running
  · exact sources

/-- While a coroutine gives up control, the others wait as before. -/
theorem Waits.leave {s next : CorouteScheduler} {waiter co : Coroutine} {reason : Reason}
    {state : Option CoState} (waits : s.Waits waiter reason) (runs : s.coMap co = some .running)
    (queue : next.readyQueue = s.readyQueue)
    (states : next.coMap = Function.update s.coMap co state) : next.Waits waiter reason :=
  waits.update (waits.ne (Or.inl runs)) states fun entry inside =>
    Or.inl (by rw [queue] at inside; exact inside)

theorem Inv.finish {s : CorouteScheduler} (inv : s.Inv) {co : Coroutine}
    (runs : s.coMap co = some .running) : (s.finish co).Inv :=
  inv.leave runs rfl rfl rfl
    (inv.sources.mono rfl rfl rfl fun _ _ waits => waits.leave runs rfl rfl)

theorem Sources.channel_once {s : CorouteScheduler} (sources : s.Sources) (fd : Nat) :
    (s.channel fd).isOnce = true := by
  unfold channel
  cases found : s.fdMap fd with
  | none => rfl
  | some ch => exact sources.once fd ch found

theorem Sources.channel_untriggered {s : CorouteScheduler} (sources : s.Sources) (fd : Nat)
    (et : EventType) : (s.channel fd).triggerArr et = false := by
  unfold channel
  cases found : s.fdMap fd with
  | none => rfl
  | some ch => exact sources.untriggered fd ch et found

theorem channel_of_known {s : CorouteScheduler} {fd : Nat} {ch : Channel Coroutine}
    (known : s.fdMap fd = some ch) : s.channel fd = ch := by
  rw [channel, known]
  rfl

/-- Nothing is armed on a descriptor without a channel. -/
theorem Sources.ioReady {s : CorouteScheduler} (sources : s.Sources) (fd : Nat) :
    (s.ioReady fd).Sources := by
  have channels : ∀ other ch, s.fdMap other = some ch →
      (s.ioReady fd).fdMap other = some ch := by
    intro other ch known
    simp only [CorouteScheduler.ioReady]
    by_cases same : other = fd
    · subst same
      rw [Function.update_self, channel_of_known known]
    · rw [Function.update_of_ne same]
      exact known
  constructor
  · intro other interest et found reported
    exact (sources.armed other interest et found reported).mono (channels other) fun _ => id
  · exact Table.forall_update_some sources.once (sources.channel_once fd)
  · intro other ch et known
    rcases Table.of_update_some known with ⟨-, rfl⟩ | ⟨-, old⟩
    · exact sources.channel_untriggered fd et
    · exact sources.untriggered other ch et old
  · exact sources.timersOnce
  · exact sources.sleeping

theorem Sources.coClose {s : CorouteScheduler} (sources : s.Sources) (fd : Nat) :
    (s.coClose fd).Sources := by
  constructor
  · intro other interest et found reported
    obtain ⟨different, old⟩ := Table.of_update_none found
    refine (sources.armed other interest et old reported).mono ?_ fun _ => id
    intro ch known
    simp only [CorouteScheduler.coClose]
    rw [Function.update_of_ne different]
    exact known
  · exact Table.forall_update_none sources.once
  · intro other ch et known
    exact sources.untriggered other ch et (Table.of_update_none known).2
  · exact sources.timersOnce
  · exact sources.sleeping

@[simp]
theorem enabled_isOnce (s : CorouteScheduler) (fd : Nat) (et : EventType) (co : Coroutine) :
    (s.enabled fd et co).isOnce = (s.channel fd).isOnce := by
  unfold enabled
  split <;> rfl

@[simp]
theorem enabled_triggerArr (s : CorouteScheduler) (fd : Nat) (et : EventType) (co : Coroutine) :
    (s.enabled fd et co).triggerArr = (s.channel fd).triggerArr := by
  unfold enabled
  split <;> rfl

theorem enabled_enableArr (s : CorouteScheduler) (fd : Nat) (et : EventType) (co : Coroutine) :
    (s.enabled fd et co).enableArr = Function.update (s.channel fd).enableArr et true := by
  unfold enabled
  split <;> rfl

/-- An event that was enabled before keeps the coroutine it has captured. -/
theorem enabled_cbArr {s : CorouteScheduler} {fd : Nat} {et other : EventType} {co : Coroutine}
    (before : (s.channel fd).isEnable other = true) :
    (s.enabled fd et co).cbArr other = (s.channel fd).cbArr other := by
  unfold enabled
  split
  · rfl
  · next unknown =>
      have different : other ≠ et := by
        rintro rfl
        exact unknown before
      simp only [Channel.enableEvent]
      rw [Function.update_of_ne different]

/-- Whom the events enabled after a suspension have captured. -/
theorem enabled_captures {s : CorouteScheduler} {fd : Nat} {et : EventType} {co : Coroutine}
    (runs : s.phase = .running co) (met : s.ArmsWaiters (.io fd et false)) {other : EventType}
    (enabled : (s.enabled fd et co).enableArr other = true) :
    ∃ waiter, (s.enabled fd et co).cbArr other = some waiter ∧
      ((other = et ∧ waiter = co) ∨ s.Waits waiter (.io fd other)) := by
  rw [enabled_enableArr] at enabled
  by_cases before : (s.channel fd).isEnable other = true
  · obtain ⟨waiter, captured⟩ := Option.isSome_iff_exists.mp
      ((s.channel fd).enabled_cb other before)
    refine ⟨waiter, by rw [enabled_cbArr before, captured], ?_⟩
    apply (met other before waiter captured).imp_left
    rw [runs]
    rintro ⟨same, isWaiter⟩
    cases isWaiter
    exact ⟨same, rfl⟩
  · have same : other = et := by
      by_contra different
      rw [Function.update_of_ne different] at enabled
      exact before enabled
    subst same
    refine ⟨co, ?_, Or.inl ⟨rfl, rfl⟩⟩
    rw [CorouteScheduler.enabled, dif_neg before]
    exact Function.update_self ..

theorem Inv.ioBlocked {s : CorouteScheduler} (inv : s.Inv) {fd : Nat} {et : EventType}
    {co : Coroutine} (runs : s.phase = .running co)
    (met : s.ArmsWaiters (.io fd et false)) : (s.ioBlocked fd et co).Inv := by
  have running := inv.running co runs
  have others : ∀ waiter reason, s.Waits waiter reason →
      (s.ioBlocked fd et co).Waits waiter reason :=
    fun _ _ waits => waits.leave running rfl rfl
  have itself : (s.ioBlocked fd et co).Waits co (.io fd et) :=
    ⟨Function.update_self .., inv.safe.absent (Or.inl running)⟩
  refine inv.leave running rfl rfl rfl ?_
  constructor
  · intro other interest event found reported
    rcases Table.of_update_some found with ⟨rfl, rfl⟩ | ⟨different, old⟩
    · obtain ⟨waiter, captured, whose⟩ := enabled_captures runs met reported
      refine ⟨?_, s.enabled other et co, waiter, Function.update_self .., captured, ?_⟩
      · have once := inv.sources.channel_once other
        have armed : (s.enabled other et co).enableArr event = true := reported
        simp only [Channel.interest, enabled_isOnce, once, Channel.isEnable, Bool.true_and,
          Bool.or_eq_true]
        cases event with
        | read => exact Or.inl armed
        | write => exact Or.inr armed
      · rcases whose with ⟨rfl, rfl⟩ | waits
        · exact itself
        · exact others waiter _ waits
    · refine (inv.sources.armed other interest event old reported).mono ?_ fun waiter =>
        others waiter _
      intro ch known
      simp only [CorouteScheduler.ioBlocked, suspend]
      rw [Function.update_of_ne different]
      exact known
  · apply Table.forall_update_some inv.sources.once
    rw [enabled_isOnce]
    exact inv.sources.channel_once fd
  · intro other ch event known
    rcases Table.of_update_some known with ⟨-, rfl⟩ | ⟨-, old⟩
    · rw [enabled_triggerArr]
      exact inv.sources.channel_untriggered fd event
    · exact inv.sources.untriggered other ch event old
  · exact inv.sources.timersOnce
  · intro other listed
    exact others other _ (inv.sources.sleeping other listed)

theorem Inv.coSleep {s : CorouteScheduler} (inv : s.Inv) {co : Coroutine}
    (running : s.coMap co = some .running) (added : Added) : (s.coSleep co added).Inv := by
  have absent := inv.safe.absent (Or.inl running)
  cases added with
  | ran =>
      have queue : (s.coSleep co .ran).readyQueue = s.readyQueue ++ [⟨co, .sleep⟩] := by
        simp [CorouteScheduler.coSleep, suspend, scheduleCo, push]
      have states : (s.coSleep co .ran).coMap =
          Function.update s.coMap co (some (.suspended .sleep)) := by
        simp [CorouteScheduler.coSleep, suspend, scheduleCo, push]
      constructor
      · exact inv.safe.enter states queue absent
      · intro other runs
        cases runs
      · refine inv.sources.mono (by simp [CorouteScheduler.coSleep, suspend, scheduleCo, push])
          (by simp [CorouteScheduler.coSleep, suspend, scheduleCo, push])
          (by simp [CorouteScheduler.coSleep, suspend, scheduleCo, push]) ?_
        intro waiter reason waits
        apply waits.update (waits.ne (Or.inl running)) states
        intro entry inside
        rw [queue] at inside
        rcases List.mem_append.mp inside with old | new
        · exact Or.inl old
        · rw [List.mem_singleton.mp new]
          exact Or.inr rfl
  | rejected =>
      exact inv.leave running rfl rfl rfl
        (inv.sources.mono rfl rfl rfl fun _ _ waits => waits.leave running rfl rfl)
  | stored timerId =>
      have others : ∀ waiter reason, s.Waits waiter reason →
          (s.coSleep co (.stored timerId)).Waits waiter reason :=
        fun _ _ waits => waits.leave running rfl rfl
      refine inv.leave running rfl rfl rfl ?_
      constructor
      · intro fd interest et found reported
        exact (inv.sources.armed fd interest et found reported).mono (fun _ => id) fun waiter =>
          others waiter _
      · exact inv.sources.once
      · exact inv.sources.untriggered
      · change (s.timers ++ [co]).Nodup
        rw [List.nodup_append]
        refine ⟨inv.sources.timersOnce, List.nodup_singleton co, ?_⟩
        intro old listed new added same
        rw [List.mem_singleton] at added
        rw [same, added] at listed
        exact (inv.sources.sleeping co listed).ne (Or.inl running) rfl
      · intro other listed
        rcases List.mem_append.mp listed with old | new
        · exact others other _ (inv.sources.sleeping other old)
        · rw [List.mem_singleton.mp new]
          exact ⟨Function.update_self .., absent⟩

/-! ## Reports and timers -/

theorem mem_entriesOf {fd : Nat} {ch : Channel Coroutine} {entry : Ready} :
    entry ∈ entriesOf fd ch ↔ ∃ et, ch.triggerArr et = true ∧ ch.cbArr et = some entry.co ∧
      entry.reason = .io fd et := by
  unfold entriesOf
  constructor
  · intro inside
    obtain ⟨⟨et, co⟩, fires, rfl⟩ := List.mem_map.mp inside
    obtain ⟨triggered, captured⟩ := Channel.mem_triggered.mp fires
    exact ⟨et, triggered, captured, rfl⟩
  · rintro ⟨et, triggered, captured, reason⟩
    refine List.mem_map.mpr ⟨(et, entry.co), Channel.mem_triggered.mpr ⟨triggered, captured⟩, ?_⟩
    rw [← reason]

/-- Coroutines that wait for the events of one channel are different. -/
theorem entriesOf_nodup {s : CorouteScheduler} {fd : Nat} {ch : Channel Coroutine}
    (waiting : ∀ entry ∈ entriesOf fd ch, s.Waits entry.co entry.reason) :
    ((entriesOf fd ch).map Ready.co).Nodup := by
  rw [List.Nodup, List.pairwise_map, entriesOf, List.pairwise_map]
  apply ch.triggered_pairwise.imp_of_mem
  intro first second firstFires secondFires different sameCo
  have one := waiting _ (List.mem_map.mpr ⟨first, firstFires, rfl⟩)
  have two := waiting _ (List.mem_map.mpr ⟨second, secondFires, rfl⟩)
  rw [← sameCo] at two
  have sameReason := one.unique two
  simp only [Reason.io.injEq, true_and] at sameReason
  exact different sameReason

/-- The armed events of a channel that a report may carry schedule waiting coroutines. -/
theorem Sources.entries_wait {s : CorouteScheduler} (sources : s.Sources) {fd : Nat}
    {ch : Channel Coroutine} {interest : Interest} {reported : EventType → Bool}
    (known : s.fdMap fd = some ch) (found : s.interest fd = some interest)
    (allows : interest.Allows reported) :
    ∀ entry ∈ entriesOf fd (ch.triggerEvents reported), s.Waits entry.co entry.reason := by
  intro entry inside
  obtain ⟨et, triggered, captured, reason⟩ := mem_entriesOf.mp inside
  have carries : reported et = true := by
    have quiet := sources.untriggered fd ch et known
    simpa [Channel.triggerEvents, quiet] using triggered
  obtain ⟨-, other, waiter, sameCh, isWaiter, waits⟩ :=
    sources.armed fd interest et found (allows et carries)
  rw [known] at sameCh
  cases sameCh
  have captured : ch.cbArr et = some entry.co := captured
  rw [isWaiter] at captured
  cases captured
  rw [reason]
  exact waits

section report

variable {s : CorouteScheduler} {fd : Nat} {ch : Channel Coroutine} {interest : Interest}
  {reported : EventType → Bool}

/-- A report leaves those alone that do not wait on its descriptor. -/
theorem Waits.handleReport {waiter : Coroutine} {reason : Reason} (waits : s.Waits waiter reason)
    (elsewhere : ∀ et, reason ≠ .io fd et)
    (waiting : ∀ entry ∈ entriesOf fd (ch.triggerEvents reported),
      s.Waits entry.co entry.reason) :
    (s.handleReport fd ch interest reported).Waits waiter reason := by
  rw [CorouteScheduler.handleReport]
  apply waits.mono (by rw [(scheduleAll_same _ _).coMap])
  intro entry inside
  rw [scheduleAll_readyQueue] at inside
  rcases List.mem_append.mp inside with old | new
  · exact Or.inl old
  · apply Or.inr
    rintro rfl
    obtain ⟨et, -, -, isReason⟩ := mem_entriesOf.mp new
    exact elsewhere et ((waits.unique (waiting entry new)).trans isReason)

/-- A report disarms its descriptor. -/
theorem Sources.handleReport (sources : s.Sources) (known : s.fdMap fd = some ch)
    (found : s.interest fd = some interest) (allows : interest.Allows reported) :
    (s.handleReport fd ch interest reported).Sources := by
  have waiting := sources.entries_wait known found allows
  have same := scheduleAll_same (entriesOf fd (ch.triggerEvents reported))
    { s with
      fdMap := Function.update s.fdMap fd (some (ch.triggerEvents reported).handled)
      interest := Function.update s.interest fd (some interest.reported) }
  constructor
  · intro other known' et found' armed
    rw [CorouteScheduler.handleReport, same.interest] at found'
    rcases Table.of_update_some found' with ⟨rfl, rfl⟩ | ⟨different, old⟩
    · unfold Interest.reported at armed
      split at armed
      · cases armed
      · next notOnce =>
          exact absurd (sources.armed other interest et found armed).1 notOnce
    · refine (sources.armed other known' et old armed).mono ?_ ?_
      · intro otherCh isOther
        rw [CorouteScheduler.handleReport, same.fdMap]
        simp only [Function.update_of_ne different]
        exact isOther
      · intro waiter waits
        refine waits.handleReport ?_ waiting
        intro event sameReason
        cases sameReason
        exact different rfl
  · rw [CorouteScheduler.handleReport, same.fdMap]
    exact Table.forall_update_some sources.once (sources.once fd ch known)
  · intro other otherCh et isOther
    rw [CorouteScheduler.handleReport, same.fdMap] at isOther
    rcases Table.of_update_some isOther with ⟨-, rfl⟩ | ⟨-, old⟩
    · rfl
    · exact sources.untriggered other otherCh et old
  · rw [CorouteScheduler.handleReport, same.timers]
    exact sources.timersOnce
  · intro co listed
    rw [CorouteScheduler.handleReport, same.timers] at listed
    exact (sources.sleeping co listed).handleReport (by simp) waiting

theorem Inv.handleReport (inv : s.Inv) (known : s.fdMap fd = some ch)
    (found : s.interest fd = some interest) (idle : s.phase = .idle)
    (allows : interest.Allows reported) : (s.handleReport fd ch interest reported).Inv := by
  have waiting := inv.sources.entries_wait known found allows
  constructor
  · exact inv.safe.append (scheduleAll_readyQueue _ _) (scheduleAll_same _ _).coMap
      (entriesOf_nodup waiting) waiting
  · intro co runs
    rw [CorouteScheduler.handleReport, (scheduleAll_same _ _).phase, idle] at runs
    cases runs
  · exact inv.sources.handleReport known found allows

end report

theorem Inv.fire {s : CorouteScheduler} (inv : s.Inv) {co : Coroutine} (idle : s.phase = .idle)
    (listed : co ∈ s.timers) :
    ({ s with timers := s.timers.erase co }.scheduleCo ⟨co, .sleep⟩).Inv := by
  have queue := scheduleCo_readyQueue { s with timers := s.timers.erase co } ⟨co, .sleep⟩
  have same := scheduleCo_same { s with timers := s.timers.erase co } ⟨co, .sleep⟩
  have waits := inv.sources.sleeping co listed
  have others : ∀ waiter reason, waiter ≠ co → s.Waits waiter reason →
      ({ s with timers := s.timers.erase co }.scheduleCo ⟨co, .sleep⟩).Waits waiter reason := by
    intro waiter reason different waiting
    apply waiting.mono (by rw [same.coMap])
    intro entry inside
    rw [queue] at inside
    rcases List.mem_append.mp inside with old | new
    · exact Or.inl old
    · rw [List.mem_singleton.mp new]
      exact Or.inr different.symm
  constructor
  · apply inv.safe.append queue same.coMap (List.nodup_singleton _)
    intro entry inside
    rw [List.mem_singleton.mp inside]
    exact waits
  · intro other runs
    rw [same.phase, idle] at runs
    cases runs
  · constructor
    · intro fd interest et found armed
      rw [same.interest] at found
      apply (inv.sources.armed fd interest et found armed).mono (by rw [same.fdMap]; simp)
      intro waiter waiting
      refine others waiter _ ?_ waiting
      rintro rfl
      cases waiting.unique waits
    · rw [same.fdMap]
      exact inv.sources.once
    · rw [same.fdMap]
      exact inv.sources.untriggered
    · rw [same.timers]
      exact inv.sources.timersOnce.erase co
    · intro other inside
      rw [same.timers] at inside
      obtain ⟨different, still⟩ := inv.sources.timersOnce.mem_erase_iff.mp inside
      exact others other _ different (inv.sources.sleeping other still)

/-! ## Runs -/

theorem Inv.step {s next : CorouteScheduler} {event : Event} (inv : s.Inv)
    (met : s.ArmsWaiters event) (taken : s.step event = some next) : next.Inv := by
  cases event with
  | addCallback co =>
      obtain ⟨enabled, rfl⟩ := of_guarded taken
      exact inv.addCallback enabled.2
  | handleCo =>
      obtain ⟨-, rfl⟩ := of_guarded taken
      exact inv.elsewhere rfl rfl rfl rfl rfl fun co => by simp
  | resume =>
      obtain ⟨entry, rest, -, queue, rfl⟩ := of_resume taken
      exact inv.resume queue rfl
  | handleEnd =>
      obtain ⟨-, rfl⟩ := of_guarded taken
      exact inv.elsewhere rfl rfl rfl rfl rfl fun co => by simp
  | io fd et ready =>
      obtain ⟨co, runs, rfl⟩ := of_io taken
      cases ready with
      | true => exact ⟨inv.safe, inv.running, inv.sources.ioReady fd⟩
      | false => exact inv.ioBlocked runs met
  | sleep added =>
      obtain ⟨co, runs, rfl⟩ := of_sleep taken
      exact inv.coSleep (inv.running co runs) added
  | close fd =>
      obtain ⟨co, -, rfl⟩ := of_close taken
      exact ⟨inv.safe, inv.running, inv.sources.coClose fd⟩
  | finish =>
      obtain ⟨co, runs, rfl⟩ := of_finish taken
      exact inv.finish (inv.running co runs)
  | report fd reported =>
      obtain ⟨ch, interest, known, found, enabled, rfl⟩ := of_report taken
      exact inv.handleReport known found enabled.1 enabled.2.2
  | fire co =>
      obtain ⟨enabled, rfl⟩ := of_guarded taken
      exact inv.fire enabled.1 enabled.2

/-- In a run that arms waiting coroutines only, the queue is safe in every state. -/
theorem allSafe_of_armsWaiters (events : List Event)
    (meets : StepsMeet step ArmsWaiters new events) : AllStates step Safe new events :=
  allStates_of_stepsMeet Inv (fun _ _ _ => Inv.step) (fun _ inv => inv.safe) events
    new_inv meets

/-- A report that carries one event. -/
def only (et : EventType) : EventType → Bool := fun other => decide (other = et)

/--
One coroutine waits to read, and another to write on the same descriptor, twice; then both
events are reported at once.
-/
def readerAndWriter : List Event :=
  [.addCallback 1, .addCallback 2, .handleCo, .resume, .io 5 .read false, .resume,
    .io 5 .write false, .handleEnd, .report 5 (only .write), .handleCo, .resume,
    .io 5 .write false, .handleEnd, .report 5 fun _ => true, .handleCo, .resume, .finish,
    .resume, .close 5, .finish, .handleEnd]

theorem allSafe_of_armsWaiters_readerAndWriter : AllStates step Safe new readerAndWriter ∧
    (runFrom step new readerAndWriter).isSome = true :=
  ⟨allSafe_of_armsWaiters readerAndWriter (by decide +kernel), by decide +kernel⟩

/--
One coroutine waits to read and later to write on one descriptor.  Both events are armed
then, and a report of both schedules it twice.
-/
theorem bothEvents_schedule_twice :
    ¬ ∀ events : List Event, AllStates step Safe new events := by
  intro all
  exact absurd
    (all [.addCallback 1, .handleCo, .resume, .io 5 .read false, .handleEnd,
      .report 5 (only .read), .handleCo, .resume, .io 5 .write false, .handleEnd,
      .report 5 fun _ => true])
    (by decide +kernel)

/-! ## The condition leaves out nothing else -/

/-- `handle_co` can run to its end with every queued coroutine ending at once. -/
theorem drain : ∀ {s : CorouteScheduler}, s.phase = .handling → s.Safe →
    ∃ events last, runFrom step s events = some last ∧ (last.phase = .idle ∧
      last.readyQueue = []) ∧ last.fdMap = s.fdMap ∧ last.interest = s.interest ∧
      ∀ co, last.coMap co = if co ∈ s.readyQueue.map Ready.co then none else s.coMap co := by
  intro s
  induction queue : s.readyQueue generalizing s with
  | nil =>
      intro handling safe
      refine ⟨[.handleEnd], { s with isSchedule := false, phase := .idle }, ?_, ⟨rfl, queue⟩, rfl,
        rfl, ?_⟩
      · simp [runFrom, step, handling, queue]
      · intro co
        simp
  | cons entry rest ih =>
      intro handling safe
      have known := safe.2 entry (by rw [queue]; exact List.mem_cons_self)
      have distinct := safe.1
      rw [queue, List.map_cons, List.nodup_cons] at distinct
      let resumed : CorouteScheduler := { s with
        readyQueue := rest
        coMap := Function.update s.coMap entry.co (some .running)
        phase := .running entry.co }
      have resumedSafe : resumed.Safe := by
        refine safe.update rfl ?_ distinct.1
        rw [queue]
        exact List.sublist_cons_self entry rest
      have endedSafe : (resumed.finish entry.co).Safe :=
        resumedSafe.update rfl (List.Sublist.refl _) distinct.1
      obtain ⟨events, last, run, idle, fdMap, interest, states⟩ :=
        @ih (resumed.finish entry.co) rfl rfl endedSafe
      refine ⟨.resume :: .finish :: events, last, ?_, idle, fdMap, interest, ?_⟩
      · have first : s.step .resume = some resumed := by
          simp [step, handling, queue, known, resumed]
        have second : resumed.step .finish = some (resumed.finish entry.co) := rfl
        simpa [runFrom, first, second] using run
      · intro co
        rw [states co]
        by_cases isEntry : co = entry.co
        · simp [isEntry, resumed, CorouteScheduler.finish]
        · simp [isEntry, resumed, CorouteScheduler.finish]

/-- On an idle loop an armed event can be reported alone. -/
theorem step_report_only {s : CorouteScheduler} (idle : s.phase = .idle) {fd : Nat}
    {ch : Channel Coroutine} (known : s.fdMap fd = some ch)
    (registered : s.interest fd = some ch.interest) {et : EventType}
    (armed : ch.enableArr et = true) :
    s.step (.report fd (only et)) = some (s.handleReport fd ch ch.interest (only et)) := by
  have allows : ch.interest.Allows (only et) := by
    intro event carries
    rw [of_decide_eq_true carries]
    exact armed
  simp only [step, known, registered]
  rw [if_pos ⟨idle, fun _ => ⟨et, armed⟩, allows⟩]

/-- A report of one event schedules the coroutine that its callback captured. -/
theorem mem_readyQueue_of_report (s : CorouteScheduler) {fd : Nat} {ch : Channel Coroutine}
    {interest : Interest} {et : EventType} {co : Coroutine} (captured : ch.cbArr et = some co) :
    (⟨co, .io fd et⟩ : Ready) ∈ (s.handleReport fd ch interest (only et)).readyQueue := by
  rw [CorouteScheduler.handleReport, scheduleAll_readyQueue]
  refine List.mem_append_right _ (mem_entriesOf.mpr ⟨et, ?_, captured, rfl⟩)
  simp [Channel.triggerEvents, only]

/--
A suspension that breaks the condition leads to an unsafe queue: when the other coroutines
end, a report of the event in question schedules a coroutine that does not wait for it.
-/
theorem unsafe_of_strangerArmed {s next : CorouteScheduler} (inv : s.Inv) {fd : Nat}
    {et : EventType} (taken : s.step (.io fd et false) = some next)
    (broken : ¬ s.ArmsWaiters (.io fd et false)) :
    Reaches step (fun last => ¬ last.Safe) next := by
  obtain ⟨co, runs, rfl⟩ := of_io taken
  have running := inv.running co runs
  simp only [ArmsWaiters, not_forall] at broken
  obtain ⟨other, enabled, waiter, captured, stranger⟩ := broken
  have absent := inv.safe.absent (Or.inl running)
  have suspendedSafe : (s.ioBlocked fd et co).Safe :=
    inv.safe.update rfl (List.Sublist.refl _) absent
  obtain ⟨events, idle, run, ⟨isIdle, -⟩, fdMap, interest, states⟩ := drain rfl suspendedSafe
  have channel : idle.fdMap fd = some (s.enabled fd et co) := by
    rw [fdMap]
    exact Function.update_self ..
  have registered : idle.interest fd = some (s.enabled fd et co).interest := by
    rw [interest]
    exact Function.update_self ..
  have armed : (s.enabled fd et co).enableArr other = true := by
    rw [enabled_enableArr]
    by_cases same : other = et
    · rw [same, Function.update_self]
    · rw [Function.update_of_ne same]
      exact enabled
  refine reaches_behind run (reaches_next (step_report_only isIdle channel registered armed)
    (reaches_now ?_))
  rintro ⟨-, suspended⟩
  have capturedNow : (s.enabled fd et co).cbArr other = some waiter := by
    rw [enabled_cbArr enabled]
    exact captured
  have known := suspended _ (mem_readyQueue_of_report idle capturedNow)
  rw [CorouteScheduler.handleReport, (scheduleAll_same _ _).coMap] at known
  simp only [states] at known
  split at known
  · cases known
  · next notQueued =>
      by_cases isCo : waiter = co
      · subst isCo
        simp only [CorouteScheduler.ioBlocked, suspend, Function.update_self,
          Option.some.injEq, CoState.suspended.injEq, Reason.io.injEq, true_and] at known
        exact stranger (Or.inl ⟨known.symm, runs⟩)
      · simp only [CorouteScheduler.ioBlocked, suspend,
          Function.update_of_ne isCo] at known
        exact stranger (Or.inr ⟨known, notQueued⟩)

end CorouteScheduler

end SimpleWebServer.Co
