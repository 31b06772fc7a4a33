import SimpleWebServer.Lib.Runs
import SimpleWebServer.Timers.TimerWheel

/-!
# When timers fire

A slot of the wheel stands for all times that differ by a multiple of the span.  As long as
every stored time is at most one span ahead of the wheel, the list of the current slot holds
the timers of the current time and no others.
-/

namespace SimpleWebServer.Timers

open SimpleWebServer.Lib.Runs

theorem everyMs_eq : everyMs = 10 := rfl

theorem wheelSize_eq : wheelSize = 6000 := rfl

theorem span_eq : spanSec * 1000 = 60000 := rfl

theorem getSlotTimestamp_aligned (a reading : Nat) : getSlotTimestamp a reading % everyMs = 0 := by
  unfold getSlotTimestamp everyMs
  simp only
  omega

namespace TimerWheel

/-- A stored time is in its slot, and at most one span ahead of the wheel. -/
structure Placed (ti : TimerWheel) (slot : Nat) (node : TimerNode) : Prop where
  aligned : node.atMs % everyMs = 0
  notPast : ti.triggerBeforeMs ≤ node.atMs
  inSpan : node.atMs ≤ ti.triggerBeforeMs + spanSec * 1000
  inSlot : slot = ti.slotOf node.atMs

/-- All stored timers are placed. -/
structure Sound (ti : TimerWheel) : Prop where
  aligned : ti.triggerBeforeMs % everyMs = 0
  inWheel : ti.slotPtr < wheelSize
  placed : ∀ slot, ∀ node ∈ ti.wheel slot, ti.Placed slot node

theorem new_sound (now : Nat) : (TimerWheel.new now).Sound where
  aligned := getSlotTimestamp_aligned _ now
  inWheel := show 0 < wheelSize by decide
  placed := by
    intro slot node member
    cases member

/-- A node is pushed into the slot of its time. -/
theorem Sound.pushBack {ti : TimerWheel} (sound : ti.Sound) {node : TimerNode}
    (aligned : node.atMs % everyMs = 0) (future : ti.triggerBeforeMs ≤ node.atMs)
    (inSpan : node.atMs ≤ ti.triggerBeforeMs + spanSec * 1000) :
    (ti.pushBack (ti.slotOf node.atMs) node).Sound where
  aligned := sound.aligned
  inWheel := sound.inWheel
  placed := by
    intro slot other member
    by_cases same : slot = ti.slotOf node.atMs
    · rw [same, TimerWheel.pushBack] at member
      simp only [Function.update_self, List.mem_append, List.mem_singleton] at member
      rcases member with old | rfl
      · have placed := sound.placed _ other old
        exact ⟨placed.aligned, placed.notPast, placed.inSpan, same.trans placed.inSlot⟩
      · exact ⟨aligned, future, inSpan, same⟩
    · rw [TimerWheel.pushBack] at member
      simp only [Function.update_of_ne same] at member
      have placed := sound.placed _ other member
      exact ⟨placed.aligned, placed.notPast, placed.inSpan, placed.inSlot⟩

/-- A timer less than one span ahead lies in the current slot exactly when it is due. -/
theorem Placed.current_iff {ti : TimerWheel} (sound : ti.Sound) {slot : Nat} {node : TimerNode}
    (placed : ti.Placed slot node) (near : node.atMs < ti.triggerBeforeMs + spanSec * 1000) :
    slot = ti.slotPtr ↔ node.atMs = ti.triggerBeforeMs := by
  have inSlot := placed.inSlot
  have notPast := placed.notPast
  have aligned := placed.aligned
  have wheelAligned := sound.aligned
  have inWheel := sound.inWheel
  simp only [slotOf, wheelSize_eq, span_eq, everyMs_eq] at *
  omega

/-- Turning the wheel by one slot keeps all timers in place, and none is a span ahead. -/
theorem Sound.advance {ti : TimerWheel} (sound : ti.Sound)
    (future : ∀ slot, ∀ node ∈ ti.wheel slot, ti.triggerBeforeMs < node.atMs) :
    ti.advance.Sound ∧ ∀ slot, ∀ node ∈ ti.advance.wheel slot,
      node.atMs < ti.advance.triggerBeforeMs + spanSec * 1000 := by
  have wheelAligned := sound.aligned
  have inWheel := sound.inWheel
  refine ⟨⟨?_, ?_, ?_⟩, ?_⟩
  · simp only [TimerWheel.advance, everyMs_eq] at *
    omega
  · exact Nat.mod_lt _ (by decide)
  · intro slot node member
    have placed := sound.placed slot node member
    have later := future slot node member
    obtain ⟨aligned, notPast, inSpan, inSlot⟩ := placed
    constructor
    · exact aligned
    · simp only [TimerWheel.advance, span_eq, everyMs_eq] at *
      omega
    · simp only [TimerWheel.advance, span_eq, everyMs_eq] at *
      omega
    · simp only [slotOf, TimerWheel.advance, wheelSize_eq, span_eq, everyMs_eq] at *
      omega
  · intro slot node member
    have placed := sound.placed slot node member
    have inSpan := placed.inSpan
    simp only [TimerWheel.advance, span_eq, everyMs_eq] at *
    omega

/-- What clearing the current slot leaves is placed. -/
theorem Sound.clearCurrent {ti : TimerWheel} (sound : ti.Sound) :
    ti.clearCurrent.Sound ∧ ∀ slot, ∀ node ∈ ti.clearCurrent.wheel slot,
      node ∈ ti.wheel slot ∧ slot ≠ ti.slotPtr := by
  have stays : ∀ slot, ∀ node ∈ ti.clearCurrent.wheel slot,
      node ∈ ti.wheel slot ∧ slot ≠ ti.slotPtr := by
    intro slot node member
    by_cases same : slot = ti.slotPtr
    · rw [same, TimerWheel.clearCurrent] at member
      simp at member
    · simp only [TimerWheel.clearCurrent, Function.update_of_ne same] at member
      exact ⟨member, same⟩
  refine ⟨⟨sound.aligned, sound.inWheel, ?_⟩, stays⟩
  intro slot node member
  have placed := sound.placed slot node (stays slot node member).1
  exact ⟨placed.aligned, placed.notPast, placed.inSpan, placed.inSlot⟩

end TimerWheel

/-! ## Runs -/

namespace TimerRun

/-- `add_timer` stores this timer. -/
def Stores (run : TimerRun) (timer : Timer) (reads : ClockReads) : Prop :=
  run.ti.triggerBeforeMs < TimerWheel.atMs timer reads ∧
    getSlotTimestamp timer.triggerAfterMs.toNat reads.forDelay < spanSec * 1000

/--
A timer that is stored lies at most one span ahead of the wheel, and less than one span when
a callback of `trigger_timer` adds it.
-/
def WithinSpan (run : TimerRun) : Event → Prop
  | .add timer reads =>
      run.Stores timer reads →
        TimerWheel.atMs timer reads ≤ run.ti.triggerBeforeMs + spanSec * 1000 ∧
          (run.phase ≠ .idle →
            TimerWheel.atMs timer reads < run.ti.triggerBeforeMs + spanSec * 1000)
  | _ => True

instance (run : TimerRun) (timer : Timer) (reads : ClockReads) :
    Decidable (run.Stores timer reads) :=
  inferInstanceAs (Decidable (_ ∧ _))

instance (run : TimerRun) : (event : Event) → Decidable (run.WithinSpan event)
  | .add timer reads => inferInstanceAs (Decidable (run.Stores timer reads → _ ∧ (_ → _)))
  | .trigger _ _ => .isTrue trivial
  | .next => .isTrue trivial
  | .fire => .isTrue trivial
  | .clear => .isTrue trivial

/-- What a stored time is to the wheel in each phase. -/
def Phase.Ahead (phase : Phase) (ti : TimerWheel) (node : TimerNode) : Prop :=
  match phase with
  | .firing _ _ => node.atMs < ti.triggerBeforeMs + spanSec * 1000
  | _ => ti.triggerBeforeMs < node.atMs

/-- Every callback that `trigger_timer` has invoked ran at the time of its timer, in order. -/
structure OnTime (run : TimerRun) : Prop where
  exact : ∀ fired ∈ run.fired, fired.node.atMs = fired.triggerBeforeMs
  ordered : run.fired.Pairwise fun earlier later => earlier.node.atMs ≤ later.node.atMs

/-- The invariant of a run. -/
structure Sound (run : TimerRun) : Prop where
  wheel : run.ti.Sound
  ahead : ∀ slot, ∀ node ∈ run.ti.wheel slot, Phase.Ahead run.phase run.ti node
  onTime : run.OnTime
  past : ∀ fired ∈ run.fired, fired.node.atMs ≤ run.ti.triggerBeforeMs

theorem start_sound (now : Nat) : (start now).Sound where
  wheel := TimerWheel.new_sound now
  ahead := by
    intro slot node member
    cases member
  onTime := {
    exact := by
      intro fired member
      cases member
    ordered := List.Pairwise.nil }
  past := by
    intro fired member
    cases member

theorem mem_pushBack_iff {ti : TimerWheel} {slot pushed : Nat} {node new : TimerNode} :
    node ∈ (ti.pushBack pushed new).wheel slot ↔
      node ∈ ti.wheel slot ∨ slot = pushed ∧ node = new := by
  by_cases same : slot = pushed
  · subst same
    simp [TimerWheel.pushBack]
  · simp [TimerWheel.pushBack, same]

theorem mem_pushBack {ti : TimerWheel} {slot pushed : Nat} {node new : TimerNode}
    (member : node ∈ (ti.pushBack pushed new).wheel slot) :
    node ∈ ti.wheel slot ∨ node = new :=
  (mem_pushBack_iff.mp member).imp_right And.right

/-- `add_timer` leaves the wheel as it was or stores a timer. -/
theorem addTimer_cases (run : TimerRun) (timer : Timer) (it : Nat) (reads : ClockReads) :
    (run.ti.addTimer timer it reads).2 = run.ti ∨
      run.Stores timer reads ∧ (run.ti.addTimer timer it reads).2 =
        run.ti.pushBack (run.ti.slotOf (TimerWheel.atMs timer reads))
          ⟨it, timer, TimerWheel.atMs timer reads⟩ := by
  unfold TimerWheel.addTimer Stores
  simp only
  split_ifs with past limit
  · exact .inl rfl
  · exact .inl rfl
  · exact .inr ⟨⟨by omega, by omega⟩, rfl⟩

theorem Sound.add {run : TimerRun} (sound : run.Sound) {timer : Timer} {reads : ClockReads}
    (within : run.WithinSpan (.add timer reads)) (users : run.phase.userRuns = true)
    (clock it : Nat) :
    Sound { run with
      ti := (run.ti.addTimer timer run.nextIt reads).2
      clock := clock
      nextIt := it } := by
  rcases run.addTimer_cases timer run.nextIt reads with same | ⟨stores, stored⟩
  · rw [same]
    exact ⟨sound.wheel, sound.ahead, ⟨sound.onTime.exact, sound.onTime.ordered⟩, sound.past⟩
  · obtain ⟨future, -⟩ := id stores
    obtain ⟨inSpan, inside⟩ := within stores
    rw [stored]
    let node : TimerNode := ⟨run.nextIt, timer, TimerWheel.atMs timer reads⟩
    have aligned : node.atMs % everyMs = 0 := getSlotTimestamp_aligned _ _
    refine ⟨sound.wheel.pushBack aligned (Nat.le_of_lt future) inSpan, ?_,
      ⟨sound.onTime.exact, sound.onTime.ordered⟩, sound.past⟩
    intro slot node member
    rcases mem_pushBack member with old | rfl
    · have ahead := sound.ahead slot node old
      cases phase : run.phase <;> rw [phase] at ahead <;> exact ahead
    · cases phase : run.phase with
      | idle => exact future
      | looping atMs =>
          rw [phase] at users
          cases users
      | firing atMs position => exact inside (by rw [phase]; simp)

theorem Sound.fire {run : TimerRun} (sound : run.Sound) {atMs position : Nat} {node : TimerNode}
    (phase : run.phase = .firing atMs position)
    (next : run.ti.current[position]? = some node) :
    Sound { run with
      phase := .firing atMs (position + 1)
      fired := run.fired ++ [⟨node, run.ti.triggerBeforeMs⟩] } := by
  have member : node ∈ run.ti.wheel run.ti.slotPtr := List.mem_of_getElem? next
  have ahead := sound.ahead _ node member
  rw [phase] at ahead
  have due : node.atMs = run.ti.triggerBeforeMs :=
    ((sound.wheel.placed _ node member).current_iff sound.wheel ahead).mp rfl
  refine ⟨sound.wheel, ?_, ⟨?_, ?_⟩, ?_⟩
  · intro slot other stored
    have kept := sound.ahead slot other stored
    rw [phase] at kept
    exact kept
  · intro fired logged
    rcases List.mem_append.mp logged with old | new
    · exact sound.onTime.exact fired old
    · rw [List.mem_singleton.mp new]
      exact due
  · refine List.pairwise_append.mpr ⟨sound.onTime.ordered, List.pairwise_singleton _ _, ?_⟩
    intro earlier old later new
    rw [List.mem_singleton.mp new]
    exact Nat.le_trans (sound.past earlier old) (Nat.le_of_eq due.symm)
  · intro fired logged
    rcases List.mem_append.mp logged with old | new
    · exact sound.past fired old
    · rw [List.mem_singleton.mp new]
      exact Nat.le_of_eq due

theorem Sound.next {run next : TimerRun} (sound : run.Sound)
    (taken : run.step .next = some next) : next.Sound := by
  obtain ⟨atMs, phase, ⟨_, rfl⟩ | ⟨_, rfl⟩⟩ := of_next taken
  · have ahead := sound.ahead
    rw [phase] at ahead
    obtain ⟨wheel, near⟩ := sound.wheel.advance ahead
    refine ⟨wheel, near, ⟨sound.onTime.exact, sound.onTime.ordered⟩, ?_⟩
    intro fired logged
    exact Nat.le_trans (sound.past fired logged) (Nat.le_add_right _ _)
  · have ahead := sound.ahead
    rw [phase] at ahead
    exact ⟨sound.wheel, ahead, ⟨sound.onTime.exact, sound.onTime.ordered⟩, sound.past⟩

theorem Sound.clear {run next : TimerRun} (sound : run.Sound)
    (taken : run.step .clear = some next) : next.Sound := by
  obtain ⟨atMs, position, phase, _, rfl⟩ := of_clear taken
  have ahead := sound.ahead
  rw [phase] at ahead
  obtain ⟨wheel, stays⟩ := sound.wheel.clearCurrent
  refine ⟨wheel, ?_, ⟨sound.onTime.exact, sound.onTime.ordered⟩, sound.past⟩
  -- what is left lies in another slot, so it is not due yet
  intro slot node member
  obtain ⟨stored, other⟩ := stays slot node member
  have placed := sound.wheel.placed slot node stored
  have notDue : node.atMs ≠ run.ti.triggerBeforeMs := fun due =>
    other ((placed.current_iff sound.wheel (ahead slot node stored)).mpr due)
  exact Nat.lt_of_le_of_ne placed.notPast (Ne.symm notDue)

/-- Every step that meets the condition keeps the invariant. -/
theorem Sound.step {run next : TimerRun} {event : Event} (sound : run.Sound)
    (within : run.WithinSpan event) (taken : run.step event = some next) : next.Sound := by
  cases event with
  | next => exact sound.next taken
  | clear => exact sound.clear taken
  | add timer reads =>
      obtain ⟨enabled, rfl⟩ := of_guarded taken
      exact sound.add within enabled.1 _ _
  | trigger nowMs reading =>
      obtain ⟨enabled, rfl⟩ := of_guarded taken
      have ahead := sound.ahead
      rw [enabled.1] at ahead
      exact ⟨sound.wheel, ahead, ⟨sound.onTime.exact, sound.onTime.ordered⟩, sound.past⟩
  | fire =>
      obtain ⟨atMs, position, node, phase, head, rfl⟩ := of_fire taken
      exact sound.fire phase head

/--
In every run in which each stored timer lies within one span, every callback that
`trigger_timer` invokes runs at the time of its timer, and the callbacks run in that order.
-/
theorem onTime_of_withinSpan (now : Nat) {events : List Event} {last : TimerRun}
    (within : StepsMeet TimerRun.step WithinSpan (start now) events)
    (run : runFrom TimerRun.step (start now) events = some last) : last.OnTime :=
  (runFrom_guarded_invariant Sound
    (fun _ _ _ sound met taken => sound.step met taken) (start_sound now) within run).onTime

/-- Timers in several slots, one of them added by a callback, and two calls with a gap between. -/
def severalTimers : List Event :=
  [.add ⟨10, 7⟩ ⟨1005, 1005, 1005⟩, .add ⟨35, 8⟩ ⟨1006, 1006, 1006⟩,
    .add ⟨12, 9⟩ ⟨1007, 1007, 1007⟩, .trigger 1012 1012, .next, .fire,
    .add ⟨20, 10⟩ ⟨1013, 1013, 1013⟩, .fire, .clear, .next, .trigger 1067 1067, .next, .clear,
    .next, .fire, .clear, .next, .fire, .clear, .next, .clear, .next, .clear, .next]

theorem onTime_of_withinSpan_severalTimers : ∃ last,
    runFrom TimerRun.step (start 1000) severalTimers = some last ∧ last.OnTime ∧
      last.fired.map (fun fired => fired.node.timer.cb) = [7, 9, 10, 8] := by
  have within : StepsMeet TimerRun.step WithinSpan (start 1000) severalTimers := by
    decide +kernel
  have runs : (runFrom TimerRun.step (start 1000) severalTimers).map
      (fun last => last.fired.map fun fired => fired.node.timer.cb) = some [7, 9, 10, 8] := by
    decide +kernel
  obtain ⟨last, run, fired⟩ := Option.map_eq_some_iff.mp runs
  exact ⟨last, run, onTime_of_withinSpan 1000 within run, fired⟩

/-- A wheel that is 20 ms late files a timer of 59990 ms under the next slot. -/
def lateTimer : List Event :=
  [.add ⟨59990, 7⟩ ⟨1020, 1020, 1020⟩, .trigger 1020 1020, .next, .fire]

theorem lateTimer_fires_early :
    ¬ ∀ now events last, runFrom TimerRun.step (start now) events = some last → last.OnTime := by
  intro onTime
  have fired : (runFrom TimerRun.step (start 1000) lateTimer).map TimerRun.fired =
      some [⟨⟨0, ⟨59990, 7⟩, 61010⟩, 1010⟩] := by
    decide +kernel
  obtain ⟨last, run, log⟩ := Option.map_eq_some_iff.mp fired
  have early := (onTime 1000 lateTimer last run).exact _ (by rw [log]; exact List.mem_cons_self)
  exact absurd early (by decide)

end TimerRun

end SimpleWebServer.Timers
