import SimpleWebServer.Timers.DelayLimit
import SimpleWebServer.Timers.TimerAgenda

/-!
# The wheel and the clock

`TimerSchedulerAdapter` drives the timer wheel of a loop with a timerfd: its handler reads the
descriptor, calls `trigger_timer` and sets the descriptor again.  When the loop comes to the
handler soon enough, and no call of `trigger_timer` takes too long, the wheel stays close to
the clock.  The clock is `CLOCK_MONOTONIC`, in nanoseconds.
-/

namespace SimpleWebServer.Reactor

open SimpleWebServer.Lib SimpleWebServer.Lib.Runs SimpleWebServer.Timers

/-- The nanoseconds of a millisecond. -/
def nsPerMs : Nat := 1000000

/-- `newValue.it_value` in `reset_timefd`: seconds and nanoseconds. -/
def itValue (after : Nat) : Nat × Nat := (after / 1000, after % 1000 * nsPerMs)

/-- `timerfd_settime` with a relative value and no interval: when the descriptor expires. -/
def timerfdSettime (clock : Nat) (value : Nat × Nat) : Option Nat :=
  if value = (0, 0) then none else some (clock + value.1 * 1000 * nsPerMs + value.2)

/-- `reset_timefd` -/
def resetTimefd (clock after : Nat) : Option Nat := timerfdSettime clock (itValue after)

structure TimerSchedulerAdapter where
  /-- the wheel, and the calls of its users -/
  users : CancelRun
  clock : Nat
  /-- when the timerfd expires or has expired; it is not set when there is no such time -/
  timefd : Option Nat
  /-- `epoll_wait` has returned the timerfd, and its handler has not run yet -/
  reported : Bool := false
  /-- the assertion in `read_timefd` has failed -/
  failed : Bool := false
  /-- the clock when `trigger_timer` was last called, or the wheel was made -/
  since : Nat

inductive AdapterEvent where
  /-- time passes -/
  | pass (clock : Nat)
  /-- `epoll_wait` returns the timerfd -/
  | report
  /-- the handler reads the timerfd and calls `trigger_timer` -/
  | handle
  /-- the test of the loop in `trigger_timer`; behind the loop the handler sets the timerfd -/
  | next
  /-- the callback of the next node of the slot -/
  | fire
  /-- the end of the loop over the slot -/
  | clear
  /-- `add_timer`, called by the loop's thread outside of the handler or in a callback -/
  | add (timer : Timer) (reads : ClockReads)
  /-- `remove_timer`, called likewise -/
  | remove (id : TimerId)
  deriving DecidableEq, Repr

namespace TimerSchedulerAdapter

/-- `get_now_timestamp()` -/
def nowMs (s : TimerSchedulerAdapter) : Nat := s.clock / nsPerMs

/-- A call of `trigger_timer` is under way. -/
def Busy (s : TimerSchedulerAdapter) : Prop := s.users.run.phase ≠ .idle

instance (s : TimerSchedulerAdapter) : Decidable s.Busy := inferInstanceAs (Decidable (_ ≠ _))

/-- A read of the timerfd returns eight bytes. -/
def Readable (s : TimerSchedulerAdapter) : Prop := ∃ expires ∈ s.timefd, expires ≤ s.clock

instance (s : TimerSchedulerAdapter) : Decidable s.Readable :=
  inferInstanceAs (Decidable (∃ expires ∈ s.timefd, expires ≤ s.clock))

/-- The constructor makes the wheel and then sets the timerfd. -/
def start (created set : Nat) : TimerSchedulerAdapter where
  users := .start (created / nsPerMs)
  clock := set
  timefd := resetTimefd set 1
  since := created

/-- One step. -/
def step (s : TimerSchedulerAdapter) : AdapterEvent → Option TimerSchedulerAdapter
  | .pass clock => if s.clock ≤ clock then some { s with clock := clock } else none
  | .report =>
      if s.Readable ∧ ¬ s.Busy ∧ s.failed = false then some { s with reported := true } else none
  | .handle =>
      if s.reported = true ∧ ¬ s.Busy then
        if s.Readable then
          (s.users.step (.wheel (.trigger s.nowMs s.nowMs))).map fun users =>
            { s with users := users, timefd := none, reported := false, since := s.clock }
        else some { s with reported := false, failed := true }
      else none
  | .next =>
      (s.users.step (.wheel .next)).map fun users =>
        { s with
          users := users
          timefd := if users.run.phase = .idle then resetTimefd s.clock everyMs else s.timefd }
  | .fire => (s.users.step (.wheel .fire)).map fun users => { s with users := users }
  | .clear => (s.users.step (.wheel .clear)).map fun users => { s with users := users }
  | .add timer reads =>
      if reads.now = s.nowMs then
        (s.users.step (.wheel (.add timer reads))).map fun users =>
          { s with users := users, clock := max s.clock (reads.forDelay * nsPerMs) }
      else none
  | .remove id => (s.users.step (.remove id)).map fun users => { s with users := users }

/--
The loop keeps up: it comes to the handler at most `delay` milliseconds after the timerfd has
expired, and a call of `trigger_timer` takes at most `work` milliseconds.
-/
structure KeepsUp (delay work : Nat) (s : TimerSchedulerAdapter) : Prop where
  handles : ∀ expires ∈ s.timefd, s.clock ≤ expires + delay * nsPerMs
  returns : s.Busy → s.clock ≤ s.since + work * nsPerMs

instance (delay work : Nat) (s : TimerSchedulerAdapter) : Decidable (s.KeepsUp delay work) :=
  decidable_of_iff ((∀ expires ∈ s.timefd, s.clock ≤ expires + delay * nsPerMs) ∧
      (s.Busy → s.clock ≤ s.since + work * nsPerMs))
    ⟨fun ⟨handles, returns⟩ => ⟨handles, returns⟩, fun up => ⟨up.handles, up.returns⟩⟩

/-- How far the wheel is behind the clock at most, between two calls of `trigger_timer`. -/
def lag (delay work : Nat) : Nat := delay + work + 2 * everyMs - 1

/--
The conditions on a step: the loop keeps up, a timer that is stored leaves room for the lag
within the span, and a timer is cancelled before the wheel comes to its time.
-/
def Meets (delay work : Nat) (s : TimerSchedulerAdapter) (event : AdapterEvent) : Prop :=
  s.KeepsUp delay work ∧
    match event with
    | .add timer reads => s.users.run.Stores timer reads →
        timer.triggerAfterMs.toNat + lag delay work + work < spanSec * 1000
    | .remove id => s.users.RemovesAhead (.remove id)
    | _ => True

instance (delay work : Nat) (s : TimerSchedulerAdapter) :
    DecidablePred (s.Meets delay work)
  | .add timer reads => inferInstanceAs (Decidable (s.KeepsUp delay work ∧
      (s.users.run.Stores timer reads →
        timer.triggerAfterMs.toNat + lag delay work + work < spanSec * 1000)))
  | .remove id => inferInstanceAs (Decidable (s.KeepsUp delay work ∧
      s.users.RemovesAhead (.remove id)))
  | .pass _ => inferInstanceAs (Decidable (s.KeepsUp delay work ∧ True))
  | .report => inferInstanceAs (Decidable (s.KeepsUp delay work ∧ True))
  | .handle => inferInstanceAs (Decidable (s.KeepsUp delay work ∧ True))
  | .next => inferInstanceAs (Decidable (s.KeepsUp delay work ∧ True))
  | .fire => inferInstanceAs (Decidable (s.KeepsUp delay work ∧ True))
  | .clear => inferInstanceAs (Decidable (s.KeepsUp delay work ∧ True))

/-- What the users of the timers may rely on. -/
structure Serves (delay work : Nat) (s : TimerSchedulerAdapter) : Prop where
  /-- the read of the timerfd never fails -/
  reads : s.failed = false
  /-- the timerfd is set whenever its handler does not run -/
  set : s.Busy ∨ s.timefd.isSome
  /-- when it has expired, it is reported and its handler calls `trigger_timer` -/
  handled : s.Readable → ¬ s.Busy → s.nowMs < uint64Size / 2 →
    ∃ next, runFrom step s [.report, .handle] = some next ∧ next.Busy
  /-- no timer fires before its time -/
  notEarly : ∀ id ∈ s.users.run.firedIds, id.triggerAtMs ≤ s.nowMs
  /-- and none later than the lag -/
  notLate : ¬ s.Busy → ∀ id ∈ s.users.accepted, id ∉ s.users.cancelled →
    id.triggerAtMs + lag delay work < s.nowMs → id ∈ s.users.run.firedIds
  /-- none fires twice, or when it was cancelled -/
  once : s.users.run.firedIds.Nodup ∧ ∀ id ∈ s.users.run.firedIds, id ∉ s.users.cancelled
  /-- they fire in the order of their times -/
  ordered : s.users.run.firedIds.Pairwise fun first second =>
    first.triggerAtMs ≤ second.triggerAtMs

/-! ## How far the wheel is behind -/

/-- The time that the loop in `trigger_timer` turns the wheel to. -/
def target : Phase → Option Nat
  | .idle => none
  | .looping atMs => some atMs
  | .firing atMs _ => some atMs

structure Inv (delay work : Nat) (s : TimerSchedulerAdapter) : Prop where
  follows : s.users.Follows
  nodup : s.users.accepted.Nodup
  reads : s.failed = false
  read : s.users.run.clock ≤ s.nowMs
  readable : s.reported = true → s.Readable
  /-- the timerfd is set between two calls of `trigger_timer` -/
  set : ¬ s.Busy → ∃ expires, s.timefd = some expires ∧
    expires ≤ s.since + (work + everyMs) * nsPerMs
  unset : s.Busy → s.timefd = none
  past : s.since ≤ s.clock
  turned : ¬ s.Busy → s.users.run.ti.triggerBeforeMs = slotStart (s.since / nsPerMs)
  turning : ∀ atMs ∈ target s.users.run.phase,
    atMs = slotStart (s.since / nsPerMs) ∧ s.users.run.ti.triggerBeforeMs ≤ atMs
  /-- the wheel was not too far behind when it began to turn -/
  began : s.since / nsPerMs ≤ s.users.run.ti.triggerBeforeMs + lag delay work

section steps

variable {delay work : Nat} {s next : TimerSchedulerAdapter}

theorem slotStart_le (a : Nat) : slotStart a ≤ a ∧ a < slotStart a + everyMs := by
  unfold slotStart everyMs
  omega

theorem getSlotTimestamp_now (a : Nat) : getSlotTimestamp a a = slotStart a := by
  unfold getSlotTimestamp slotStart
  split <;> rfl

theorem resetTimefd_everyMs (clock : Nat) :
    resetTimefd clock everyMs = some (clock + everyMs * nsPerMs) := by
  simp [resetTimefd, timerfdSettime, itValue, everyMs, nsPerMs]

theorem start_inv {created set : Nat} (after : created ≤ set)
    (soon : set ≤ created + work * nsPerMs) : (start created set).Inv delay work where
  follows := CancelRun.start_follows _
  nodup := List.nodup_nil
  reads := rfl
  read := Nat.div_le_div_right after
  readable := by
    intro reported
    cases reported
  set := by
    intro _
    refine ⟨set + nsPerMs, by simp [start, resetTimefd, timerfdSettime, itValue, nsPerMs], ?_⟩
    change set + nsPerMs ≤ created + (work + everyMs) * nsPerMs
    simp only [everyMs, nsPerMs] at *
    omega
  unset := by
    intro busy
    exact absurd rfl busy
  past := after
  turned := fun _ => getSlotTimestamp_max _
  turning := by
    intro atMs member
    cases member
  began := by
    change created / nsPerMs ≤ getSlotTimestamp _ (created / nsPerMs) + lag delay work
    rw [getSlotTimestamp_max]
    have near := slotStart_le (created / nsPerMs)
    simp only [everyMs, lag, slotStart] at *
    omega

/-- The clock is ahead of the wheel by the lag, and while the wheel turns by the work besides. -/
theorem Inv.behind (inv : s.Inv delay work) (up : s.KeepsUp delay work) :
    (¬ s.Busy → s.nowMs ≤ s.users.run.ti.triggerBeforeMs + lag delay work) ∧
      s.nowMs ≤ s.users.run.ti.triggerBeforeMs + lag delay work + work := by
  by_cases busy : s.Busy
  · refine ⟨fun idle => absurd busy idle, ?_⟩
    have returns := up.returns busy
    have began := inv.began
    simp only [nowMs, nsPerMs] at *
    omega
  · obtain ⟨expires, timefd, soon⟩ := inv.set busy
    have handles := up.handles expires timefd
    have turned := inv.turned busy
    have near := slotStart_le (s.since / nsPerMs)
    have close : s.nowMs ≤ s.users.run.ti.triggerBeforeMs + lag delay work := by
      rw [turned]
      simp only [nowMs, lag, nsPerMs, everyMs] at *
      omega
    exact ⟨fun _ => close, Nat.le_add_right_of_le close⟩

/-- What is stored when there is room for the lag is within the span. -/
theorem Inv.withinSpan (inv : s.Inv delay work) {timer : Timer} {reads : ClockReads}
    (met : s.Meets delay work (.add timer reads)) (now : reads.now = s.nowMs)
    (bounded : reads.now < uint64Size / 2) : s.users.run.WithinSpan (.add timer reads) := by
  intro stores
  have room := met.2 stores
  obtain ⟨-, behind⟩ := inv.behind met.1
  have inRange : TimerWheel.unreducedSum timer reads < uint64Size - 1 := by
    simp only [TimerWheel.unreducedSum, uint64Size_eq, spanSec] at *
    omega
  have below := (slotStart_le (TimerWheel.unreducedSum timer reads)).1
  rw [TimerWheel.atMs_of_inRange timer reads inRange]
  simp only [TimerWheel.unreducedSum] at *
  omega

theorem busy_iff : s.Busy ↔ (target s.users.run.phase).isSome = true := by
  unfold Busy
  cases s.users.run.phase <;> simp [target]

/-- A step that neither begins, goes on with nor ends a call of `trigger_timer`. -/
theorem Inv.keep (inv : s.Inv delay work) (follows : next.users.Follows)
    (nodup : next.users.accepted.Nodup) (failed : next.failed = s.failed)
    (read : next.users.run.clock ≤ next.nowMs)
    (reported : next.reported = true → s.reported = true ∨ s.Readable)
    (timefd : next.timefd = s.timefd) (clock : s.clock ≤ next.clock)
    (since : next.since = s.since)
    (turned : next.users.run.ti.triggerBeforeMs = s.users.run.ti.triggerBeforeMs)
    (same : target next.users.run.phase = target s.users.run.phase) : next.Inv delay work := by
  have busy : next.Busy ↔ s.Busy := by rw [busy_iff, busy_iff, same]
  constructor
  · exact follows
  · exact nodup
  · rw [failed, inv.reads]
  · exact read
  · intro isReported
    have readable : s.Readable := (reported isReported).elim inv.readable id
    obtain ⟨expires, member, expired⟩ := readable
    exact ⟨expires, by rw [timefd]; exact member, Nat.le_trans expired clock⟩
  · rw [busy, timefd, since]
    exact inv.set
  · rw [busy, timefd]
    exact inv.unset
  · rw [since]
    exact Nat.le_trans inv.past clock
  · rw [busy, turned, since]
    exact inv.turned
  · rw [same, turned, since]
    exact inv.turning
  · rw [turned, since]
    exact inv.began

/-- The handler calls `trigger_timer`. -/
theorem Inv.handle (inv : s.Inv delay work) (up : s.KeepsUp delay work)
    (taken : s.step .handle = some next) : next.Inv delay work := by
  obtain ⟨⟨reported, idle⟩, taken⟩ : (s.reported = true ∧ ¬ s.Busy) ∧
      (if s.Readable then
        (s.users.step (.wheel (.trigger s.nowMs s.nowMs))).map fun users =>
          { s with users := users, timefd := none, reported := false, since := s.clock }
      else some { s with reported := false, failed := true }) = some next := by
    simp only [step] at taken
    split at taken
    · next enabled => exact ⟨enabled, taken⟩
    · cases taken
  rw [if_pos (inv.readable reported)] at taken
  obtain ⟨users, called, rfl⟩ := Option.map_eq_some_iff.mp taken
  have follows := inv.follows.step (by trivial) called
  have nodup := inv.follows.good.inv.nodup inv.nodup called
  obtain ⟨run, stepped, rfl⟩ := Option.map_eq_some_iff.mp called
  obtain ⟨-, rfl⟩ := of_guarded stepped
  have close := (inv.behind up).1 idle
  have mono : s.users.run.ti.triggerBeforeMs ≤ slotStart s.nowMs := by
    have past : s.since / nsPerMs ≤ s.nowMs := Nat.div_le_div_right inv.past
    rw [inv.turned idle]
    simp only [slotStart, everyMs] at *
    omega
  constructor
  · exact follows
  · exact nodup
  · exact inv.reads
  · exact Nat.le_refl _
  · intro again
    cases again
  · intro notBusy
    exact absurd Phase.noConfusion notBusy
  · intro _
    rfl
  · exact Nat.le_refl _
  · intro notBusy
    exact absurd Phase.noConfusion notBusy
  · intro atMs member
    cases member
    exact ⟨getSlotTimestamp_now _, by rw [getSlotTimestamp_now]; exact mono⟩
  · exact close

/-- The test of the loop in `trigger_timer`. -/
theorem Inv.turn (inv : s.Inv delay work) (up : s.KeepsUp delay work)
    (taken : s.step .next = some next) : next.Inv delay work := by
  obtain ⟨users, called, rfl⟩ := Option.map_eq_some_iff.mp taken
  have follows := inv.follows.step (by trivial) called
  have nodup := inv.follows.good.inv.nodup inv.nodup called
  obtain ⟨run, stepped, rfl⟩ := Option.map_eq_some_iff.mp called
  obtain ⟨atMs, phase, ⟨late, rfl⟩ | ⟨reached, rfl⟩⟩ := TimerRun.of_next stepped
  · obtain ⟨rfl, below⟩ := inv.turning atMs (by rw [phase]; rfl)
    have busy : s.Busy := by
      rw [busy_iff, phase]
      rfl
    constructor
    · exact follows
    · exact nodup
    · exact inv.reads
    · exact inv.read
    · exact inv.readable
    · intro notBusy
      exact absurd Phase.noConfusion notBusy
    · intro _
      exact inv.unset busy
    · exact inv.past
    · intro notBusy
      exact absurd Phase.noConfusion notBusy
    · intro atMs member
      cases member
      refine ⟨rfl, ?_⟩
      have aligned := inv.follows.sound.wheel.aligned
      change s.users.run.ti.triggerBeforeMs + everyMs ≤ _
      simp only [slotStart, everyMs] at *
      omega
    · have began := inv.began
      change s.since / nsPerMs ≤ s.users.run.ti.triggerBeforeMs + everyMs + lag delay work
      omega
  · obtain ⟨rfl, below⟩ := inv.turning atMs (by rw [phase]; rfl)
    have busy : s.Busy := by
      rw [busy_iff, phase]
      rfl
    constructor
    · exact follows
    · exact nodup
    · exact inv.reads
    · exact inv.read
    · intro isReported
      -- while `trigger_timer` runs, the timerfd is not set
      obtain ⟨expires, member, -⟩ := inv.readable isReported
      rw [inv.unset busy] at member
      cases member
    · intro _
      have returns := up.returns busy
      refine ⟨s.clock + everyMs * nsPerMs, resetTimefd_everyMs s.clock, ?_⟩
      change s.clock + everyMs * nsPerMs ≤ s.since + (work + everyMs) * nsPerMs
      simp only [everyMs, nsPerMs] at *
      omega
    · intro again
      exact absurd rfl again
    · exact inv.past
    · intro _
      exact Nat.le_antisymm below reached
    · intro atMs member
      cases member
    · exact inv.began

theorem Inv.step (inv : s.Inv delay work) {event : AdapterEvent} (met : s.Meets delay work event)
    (taken : s.step event = some next) : next.Inv delay work := by
  cases event with
  | pass clock =>
      obtain ⟨later, rfl⟩ := of_guarded taken
      exact inv.keep inv.follows inv.nodup rfl
        (Nat.le_trans inv.read (Nat.div_le_div_right later)) .inl rfl later rfl rfl rfl
  | report =>
      obtain ⟨⟨readable, -⟩, rfl⟩ := of_guarded taken
      exact inv.keep inv.follows inv.nodup rfl inv.read (fun _ => .inr readable) rfl
        (Nat.le_refl _) rfl rfl rfl
  | handle => exact inv.handle met.1 taken
  | next => exact inv.turn met.1 taken
  | fire =>
      obtain ⟨users, called, rfl⟩ := Option.map_eq_some_iff.mp taken
      have follows := inv.follows.step (by trivial) called
      have nodup := inv.follows.good.inv.nodup inv.nodup called
      obtain ⟨run, stepped, rfl⟩ := Option.map_eq_some_iff.mp called
      obtain ⟨atMs, position, node, phase, -, rfl⟩ := TimerRun.of_fire stepped
      exact inv.keep follows nodup rfl inv.read .inl rfl (Nat.le_refl _) rfl rfl
        (by rw [phase]; rfl)
  | clear =>
      obtain ⟨users, called, rfl⟩ := Option.map_eq_some_iff.mp taken
      have follows := inv.follows.step (by trivial) called
      have nodup := inv.follows.good.inv.nodup inv.nodup called
      obtain ⟨run, stepped, rfl⟩ := Option.map_eq_some_iff.mp called
      obtain ⟨atMs, position, phase, -, rfl⟩ := TimerRun.of_clear stepped
      exact inv.keep follows nodup rfl inv.read .inl rfl (Nat.le_refl _) rfl rfl
        (by rw [phase]; rfl)
  | add timer reads =>
      obtain ⟨now, users, called, rfl⟩ := of_guarded_map taken
      have nodup := inv.follows.good.inv.nodup inv.nodup called
      have whole := called
      obtain ⟨run, stepped, rfl⟩ := Option.map_eq_some_iff.mp called
      obtain ⟨⟨-, ordered⟩, rfl⟩ := of_guarded stepped
      obtain ⟨-, first, second, bounded⟩ := ordered
      have within : s.users.OnAgenda (.wheel (.add timer reads)) :=
        inv.withinSpan met now (Nat.lt_of_le_of_lt (Nat.le_trans first second) bounded)
      have follows := inv.follows.step within whole
      refine inv.keep follows nodup rfl ?_ .inl rfl (Nat.le_max_left _ _) rfl ?_ rfl
      · change reads.forDelay ≤ max s.clock (reads.forDelay * nsPerMs) / nsPerMs
        simp only [nsPerMs]
        omega
      · change (s.users.run.ti.addTimer timer s.users.run.nextIt reads).2.triggerBeforeMs = _
        rcases s.users.run.addTimer_cases timer s.users.run.nextIt reads with same | ⟨-, stored⟩
        · rw [same]
        · rw [stored]
          rfl
  | remove id =>
      obtain ⟨users, called, rfl⟩ := Option.map_eq_some_iff.mp taken
      have ahead : s.users.OnAgenda (.remove id) := met.2
      have follows := inv.follows.step ahead called
      have nodup := inv.follows.good.inv.nodup inv.nodup called
      obtain ⟨-, run, removed, rfl⟩ := of_guarded_map called
      rcases inv.follows.good.inv.filed.removeTimer_cases removed with ⟨-, rfl⟩ | ⟨-, -, -, rfl⟩
      · exact inv.keep follows nodup rfl inv.read .inl rfl (Nat.le_refl _) rfl rfl rfl
      · refine inv.keep follows nodup rfl inv.read .inl rfl (Nat.le_refl _) rfl rfl ?_
        change target (s.users.run.phase.moveTo _) = _
        cases s.users.run.phase <;> rfl

/-- A step is a call of the wheel, or leaves its users alone. -/
theorem users_of_step {event : AdapterEvent} (taken : s.step event = some next) :
    next.users = s.users ∧ event ≠ .fire ∨
      ∃ call, s.users.step call = some next.users ∧ (call = .wheel .fire ↔ event = .fire) ∧
        ∀ id, call = .remove id → event = .remove id := by
  cases event with
  | pass clock =>
      obtain ⟨-, rfl⟩ := of_guarded taken
      exact .inl ⟨rfl, AdapterEvent.noConfusion⟩
  | report =>
      obtain ⟨-, rfl⟩ := of_guarded taken
      exact .inl ⟨rfl, AdapterEvent.noConfusion⟩
  | handle =>
      simp only [TimerSchedulerAdapter.step] at taken
      split at taken
      · split at taken
        · obtain ⟨users, called, rfl⟩ := Option.map_eq_some_iff.mp taken
          exact .inr ⟨_, called, by simp, by simp⟩
        · cases taken
          exact .inl ⟨rfl, AdapterEvent.noConfusion⟩
      · cases taken
  | next =>
      obtain ⟨users, called, rfl⟩ := Option.map_eq_some_iff.mp taken
      exact .inr ⟨_, called, by simp, by simp⟩
  | fire =>
      obtain ⟨users, called, rfl⟩ := Option.map_eq_some_iff.mp taken
      exact .inr ⟨_, called, by simp, by simp⟩
  | clear =>
      obtain ⟨users, called, rfl⟩ := Option.map_eq_some_iff.mp taken
      exact .inr ⟨_, called, by simp, by simp⟩
  | add timer reads =>
      obtain ⟨-, users, called, rfl⟩ := of_guarded_map taken
      exact .inr ⟨_, called, by simp, by simp⟩
  | remove id =>
      obtain ⟨users, called, rfl⟩ := Option.map_eq_some_iff.mp taken
      exact .inr ⟨_, called, by simp, by simp⟩

/-- A pending timer stays pending unless it is cancelled or its callback begins. -/
theorem pending_of_step {event : AdapterEvent} (taken : s.step event = some next) {id : TimerId}
    (kept : event ≠ .remove id)
    (silent : ¬ (event = .fire ∧ s.users.run.rest.head?.map TimerNode.id = some id))
    (pending : id ∈ s.users.agenda.items ∧ id ∉ s.users.run.firedIds) :
    id ∈ next.users.agenda.items ∧ id ∉ next.users.run.firedIds := by
  rcases users_of_step taken with ⟨same, -⟩ | ⟨call, called, fires, removes⟩
  · rw [same]
    exact pending
  · obtain ⟨listed, notFired⟩ := pending
    obtain ⟨accepted, uncancelled⟩ := List.mem_filter.mp listed
    obtain ⟨stays, cancels⟩ := CancelRun.accepted_of_step called
    constructor
    · refine List.mem_filter.mpr ⟨stays id accepted, decide_eq_true fun cancelled => ?_⟩
      rcases cancels id cancelled with before | now
      · exact of_decide_eq_true uncancelled before
      · exact kept (removes id now)
    · rw [CancelRun.firedIds_of_step called, List.mem_append, not_or]
      refine ⟨notFired, ?_⟩
      split
      · next firing =>
          rw [Option.mem_toList]
          exact fun now => silent ⟨fires.mp firing, now⟩
      · exact List.not_mem_nil

/-- What has fired is done in the agenda. -/
theorem mem_done_of_fired {users : CancelRun} (follows : users.Follows) {id : TimerId}
    (fired : id ∈ users.run.firedIds) :
    id ∈ users.agenda.items ∧ id.triggerAtMs ≤ users.run.ti.triggerBeforeMs := by
  have inDone : id ∈ users.agenda.done TimerId.triggerAtMs := by
    rw [follows.shows.done]
    exact List.mem_append_left _ fired
  exact Agenda.mem_done.mp inDone

theorem Inv.notAhead (inv : s.Inv delay work) : s.users.run.ti.triggerBeforeMs ≤ s.nowMs := by
  have past : s.since / nsPerMs ≤ s.nowMs := Nat.div_le_div_right inv.past
  have below := (slotStart_le (s.since / nsPerMs)).1
  by_cases busy : s.Busy
  · obtain ⟨atMs, member⟩ := Option.isSome_iff_exists.mp (busy_iff.mp busy)
    obtain ⟨rfl, turning⟩ := inv.turning atMs member
    exact Nat.le_trans turning (Nat.le_trans below past)
  · rw [inv.turned busy]
    exact Nat.le_trans below past

/-- A callback begins when the wheel has reached the time of its timer. -/
theorem Inv.fire_due (inv : next.Inv delay work) (taken : s.step .fire = some next)
    {id : TimerId} (first : s.users.run.rest.head?.map TimerNode.id = some id) :
    next.Busy ∧ next.users.run.ti.triggerBeforeMs = id.triggerAtMs := by
  obtain ⟨users, called, rfl⟩ := Option.map_eq_some_iff.mp taken
  obtain ⟨run, stepped, rfl⟩ := Option.map_eq_some_iff.mp called
  obtain ⟨atMs, position, node, phase, head, rfl⟩ := TimerRun.of_fire stepped
  have onTime := inv.follows.sound.onTime.exact ⟨node, s.users.run.ti.triggerBeforeMs⟩
    (List.mem_append_right _ (List.mem_singleton.mpr rfl))
  simp only [TimerRun.rest, phase, Phase.isFiring, if_true, TimerRun.ahead, Phase.position,
    List.head?_drop, head, Option.map_some, Option.some.injEq] at first
  subst first
  exact ⟨Phase.noConfusion, onTime.symm⟩

/-- A timer of one slot or more that is shorter than the span is stored. -/
theorem Inv.stored (inv : s.Inv delay work) {timer : Timer} {reads : ClockReads}
    (taken : s.step (.add timer reads) = some next)
    (long : everyMs ≤ timer.triggerAfterMs.toNat)
    (short : timer.triggerAfterMs.toNat < spanSec * 1000) :
    ∃ id, s.users.run.returned (.add timer reads) = some id ∧
      id.triggerAtMs = slotStart (s.nowMs + timer.triggerAfterMs.toNat) ∧
      id ∈ next.users.agenda.items ∧ id ∉ next.users.run.firedIds := by
  obtain ⟨now, users, called, rfl⟩ := of_guarded_map taken
  have firedIds := CancelRun.firedIds_of_step called
  obtain ⟨run, stepped, rfl⟩ := Option.map_eq_some_iff.mp called
  obtain ⟨⟨-, -, first, second, bounded⟩, -⟩ := of_guarded stepped
  have inRange : TimerWheel.unreducedSum timer reads < uint64Size - 1 := by
    simp only [TimerWheel.unreducedSum, uint64Size_eq, spanSec] at *
    omega
  have atMs := TimerWheel.atMs_of_inRange timer reads inRange
  rw [TimerWheel.unreducedSum, now, Nat.add_comm] at atMs
  have stores : s.users.run.Stores timer reads := by
    constructor
    · have notAhead := inv.notAhead
      have near := slotStart_le (s.nowMs + timer.triggerAfterMs.toNat)
      rw [atMs]
      omega
    · have notLimit : timer.triggerAfterMs.toNat ≠ uint64Size - 1 := by
        simp only [uint64Size_eq, spanSec] at *
        omega
      rw [getSlotTimestamp_of_ne notLimit]
      exact Nat.lt_of_le_of_lt (slotStart_le _).1 short
  rcases s.users.run.returned_cases timer reads with ⟨none, -⟩ | ⟨-, returned, -⟩
  · exact absurd stores none
  · have gone := inv.follows.good.gone
    have known := inv.follows.good.inv.known
    refine ⟨_, returned, atMs, List.mem_filter.mpr ⟨?_, decide_eq_true ?_⟩, ?_⟩
    · change _ ∈ s.users.accepted ++ (s.users.run.returned (.add timer reads)).toList
      rw [returned]
      exact List.mem_append_right _ (List.mem_singleton.mpr rfl)
    · intro cancelled
      exact Nat.lt_irrefl _ (gone _ cancelled).known
    · have other : (CancelEvent.wheel (.add timer reads)) ≠ .wheel .fire := by simp
      rw [if_neg other, List.append_nil] at firedIds
      rw [firedIds]
      intro logged
      have item := (mem_done_of_fired inv.follows logged).1
      exact Nat.lt_irrefl _ (known _ (List.mem_of_mem_filter item))

/-! ## What the users see -/

theorem Inv.handled (inv : s.Inv delay work) (readable : s.Readable) (idle : ¬ s.Busy)
    (bounded : s.nowMs < uint64Size / 2) :
    ∃ next, runFrom TimerSchedulerAdapter.step s [.report, .handle] = some next ∧ next.Busy := by
  let reported : TimerSchedulerAdapter := { s with reported := true }
  have report : s.step .report = some reported := if_pos ⟨readable, idle, inv.reads⟩
  obtain ⟨run, called⟩ : ∃ run, s.users.run.step (.trigger s.nowMs s.nowMs) = some run ∧
      run.phase ≠ .idle :=
    ⟨_, if_pos ⟨not_not.mp idle, inv.read, Nat.le_refl _, Nat.le_refl _, bounded⟩,
      Phase.noConfusion⟩
  have stepped : s.users.step (.wheel (.trigger s.nowMs s.nowMs)) = some { s.users with
      run := run
      accepted := s.users.accepted ++ [] } := by
    rw [CancelRun.step, called.1]
    rfl
  have handle : reported.step .handle = some { reported with
      users := { s.users with run := run, accepted := s.users.accepted ++ [] }
      timefd := none
      reported := false
      since := s.clock } := by
    have enabled : reported.reported = true ∧ ¬ reported.Busy := ⟨rfl, idle⟩
    have stillReadable : reported.Readable := readable
    simp only [TimerSchedulerAdapter.step, if_pos enabled, if_pos stillReadable]
    exact congrArg (Option.map _) stepped
  exact ⟨_, (runFrom_next report _).trans (runFrom_next handle []), called.2⟩

theorem Inv.serves (inv : s.Inv delay work) (up : s.KeepsUp delay work) : s.Serves delay work where
  reads := inv.reads
  set := by
    by_cases busy : s.Busy
    · exact .inl busy
    · obtain ⟨expires, timefd, -⟩ := inv.set busy
      exact .inr (by rw [timefd]; rfl)
  handled := inv.handled
  notEarly := by
    intro id fired
    exact Nat.le_trans (mem_done_of_fired inv.follows fired).2 inv.notAhead
  notLate := by
    intro idle id accepted uncancelled late
    have close := (inv.behind up).1 idle
    have inDone : id ∈ s.users.agenda.done TimerId.triggerAtMs := by
      refine Agenda.mem_done.mpr ⟨List.mem_filter.mpr ⟨accepted, decide_eq_true uncancelled⟩, ?_⟩
      change id.triggerAtMs ≤ s.users.run.ti.triggerBeforeMs
      omega
    rw [inv.follows.shows.done] at inDone
    have notFiring : s.users.run.phase.isFiring = false := by
      rw [not_not.mp idle]
      rfl
    simpa [TimerRun.rest, notFiring] using inDone
  once := by
    constructor
    · have nodup : (s.users.agenda.done TimerId.triggerAtMs).Nodup :=
        nodup_byTime ((inv.nodup.filter _).filter _)
      rw [inv.follows.shows.done] at nodup
      exact (List.nodup_append.mp nodup).1
    · intro id fired
      exact of_decide_eq_true (List.mem_filter.mp (mem_done_of_fired inv.follows fired).1).2
  ordered := by
    have sorted : (byTime TimerId.triggerAtMs (s.users.agenda.items.filter fun id =>
        id.triggerAtMs ≤ s.users.agenda.now)).Pairwise fun first second =>
          first.triggerAtMs ≤ second.triggerAtMs := pairwise_byTime
    change (s.users.agenda.done TimerId.triggerAtMs).Pairwise _ at sorted
    rw [inv.follows.shows.done] at sorted
    exact (List.pairwise_append.mp sorted).1

/--
In every run in which the loop keeps up, the timerfd is set or its handler runs, its read never
fails, and every timer fires once, in the order of the times, neither early nor later than the
lag behind the clock.
-/
theorem serves_of_keepsUp {created set : Nat} {events : List AdapterEvent}
    {last : TimerSchedulerAdapter} (after : created ≤ set) (soon : set ≤ created + work * nsPerMs)
    (met : StepsMeet TimerSchedulerAdapter.step (Meets delay work) (start created set) events)
    (run : runFrom TimerSchedulerAdapter.step (start created set) events = some last)
    (up : last.KeepsUp delay work) : last.Serves delay work :=
  (runFrom_guarded_invariant (Inv delay work) (fun _ _ _ inv met taken => inv.step met taken)
    (start_inv after soon) met run).serves up

/-- Two timers; the handler is late by two milliseconds, and a callback takes one. -/
def lateHandler : List AdapterEvent :=
  [.add ⟨30, 7⟩ ⟨1000, 1000, 1000⟩, .add ⟨10, 8⟩ ⟨1000, 1000, 1000⟩, .pass 1001000000, .report,
    .handle, .next, .pass 1013000000, .report, .handle, .next, .fire, .pass 1014000000, .clear,
    .next]

theorem serves_of_keepsUp_lateHandler :
    ∃ last, runFrom TimerSchedulerAdapter.step (start 1000000000 1000000000) lateHandler =
      some last ∧ last.Serves 2 1 := by
  have ends : (runFrom TimerSchedulerAdapter.step (start 1000000000 1000000000) lateHandler).any
      (fun last => last.KeepsUp 2 1) = true := by
    decide +kernel
  obtain ⟨last, run, up⟩ := (Option.any_eq_true _ _).mp ends
  exact ⟨last, run, serves_of_keepsUp (Nat.le_refl _) (by decide) (by decide +kernel) run
    (of_decide_eq_true up)⟩

end steps

end TimerSchedulerAdapter

end SimpleWebServer.Reactor
