import Mathlib.Tactic.IntervalCases
import SimpleWebServer.Reactor.TimerSchedulerAdapter

/-!
# Connecting

`TCPConnector` calls `connect` from its loop.  As long as that fails, it sets a timer for the
next attempt and doubles the delay; when the delay has passed the limit, it throws.  The loop's
timers also serve other users.
-/

namespace SimpleWebServer.Tcp

open SimpleWebServer.Lib SimpleWebServer.Lib.Runs SimpleWebServer.Timers SimpleWebServer.Reactor

/-- `max_retry_delay_ms` -/
def maxRetryDelayMs : Nat := 30 * 1000

/-- The name of `connect_peer` as a callback. -/
def connectPeer : Nat := 0

/-- Where a connector is. -/
inductive Connecting where
  /-- the constructor has added `connect_peer` to the callbacks of the loop -/
  | queued
  /-- `connect_peer` runs -/
  | calling
  /-- a timer is to call `connect_peer` -/
  | waiting (id : TimerId)
  /-- `connect fail` was thrown -/
  | threw
  /-- `create_conn_cb` was called -/
  | connected
  /-- `add_timer` has called `connect_peer` itself, or refused the timer -/
  | unserved
  deriving DecidableEq, Repr

structure TCPConnector where
  /-- the timers of the loop -/
  timers : TimerSchedulerAdapter
  retryDelayMs : Nat := 500
  phase : Connecting := .queued
  /-- when `connect` was called, in milliseconds -/
  attempts : List Nat := []
  /-- how often `create_conn_cb` was called -/
  created : Nat := 0

inductive ConnectorEvent where
  /-- a step of the timers; that of a callback of a timer begins it -/
  | timers (event : AdapterEvent)
  /-- the loop runs the callback of the constructor -/
  | start
  /-- `connect` returns, and `connect_peer` goes on to its end -/
  | connect (ret : Int) (reads : ClockReads)
  deriving DecidableEq, Repr

namespace TCPConnector

/-- A connector on a loop whose timers are new. -/
def new (created set : Nat) : TCPConnector where
  timers := .start created set

/-- The timer whose callback is next in the loop over a slot. -/
def nextTimer (s : TCPConnector) : Option TimerId :=
  s.timers.users.run.rest.head?.map TimerNode.id

/-- The timer for the next attempt. -/
def retryTimer (s : TCPConnector) : Timer := ⟨UInt64.ofNat s.retryDelayMs, connectPeer⟩

/-- `connect_peer` behind the call of `connect` -/
def connectPeerBehind (s : TCPConnector) (ret : Int) (reads : ClockReads) : Option TCPConnector :=
  let tried := { s with attempts := s.attempts ++ [s.timers.nowMs] }
  if ret < 0 then
    if s.retryDelayMs ≤ maxRetryDelayMs then
      (s.timers.step (.add s.retryTimer reads)).map fun timers =>
        { tried with
          timers := timers
          retryDelayMs := s.retryDelayMs * 2
          phase :=
            match s.timers.users.run.returned (.add s.retryTimer reads) with
            | some id => .waiting id
            | none => .unserved }
    else some { tried with phase := .threw }
  else some { tried with phase := .connected, created := s.created + 1 }

/--
One step.  While `connect_peer` runs, its thread does nothing else; the identifier of its timer
is known to no other user.
-/
def step (s : TCPConnector) : ConnectorEvent → Option TCPConnector
  | .timers event =>
      match s.phase with
      | .calling =>
          match event with
          | .pass clock => (s.timers.step (.pass clock)).map fun timers =>
              { s with timers := timers }
          | _ => none
      | .waiting id =>
          if event = .remove id then none
          else (s.timers.step event).map fun timers =>
            { s with
              timers := timers
              phase := if event = .fire ∧ s.nextTimer = some id then .calling else s.phase }
      | _ => (s.timers.step event).map fun timers => { s with timers := timers }
  | .start =>
      if s.phase = .queued ∧ ¬ s.timers.Busy then some { s with phase := .calling } else none
  | .connect ret reads => if s.phase = .calling then s.connectPeerBehind ret reads else none

/-- The conditions on a step: the loop keeps up, and the others keep to the rules for timers. -/
def Meets (delay work : Nat) (s : TCPConnector) : ConnectorEvent → Prop
  | .timers event => s.timers.Meets delay work event
  | .start => True
  | .connect _ _ => s.timers.KeepsUp delay work

instance (delay work : Nat) (s : TCPConnector) : DecidablePred (s.Meets delay work)
  | .timers event => inferInstanceAs (Decidable (s.timers.Meets delay work event))
  | .start => .isTrue trivial
  | .connect _ _ => inferInstanceAs (Decidable (s.timers.KeepsUp delay work))

/-- The delay behind an attempt, the first one being number zero. -/
def delayBehind (index : Nat) : Nat := 500 * 2 ^ index

/-- What holds of a connector at any time. -/
structure Retries (delay work : Nat) (s : TCPConnector) : Prop where
  /-- `connect` is called seven times at most, and the connector throws behind the seventh -/
  attempts : s.attempts.length ≤ 7 ∧ (s.phase = .threw ↔ s.attempts.length = 7 ∧ s.created = 0)
  /-- there is one connection at most -/
  created : s.created = if s.phase = .connected then 1 else 0
  /-- no timer is refused, and none runs at once -/
  served : s.phase ≠ .unserved
  /-- the timer of the next attempt is stored and has not fired -/
  waits : ∀ id, s.phase = .waiting id → id ∈ s.timers.users.accepted ∧
    id ∉ s.timers.users.cancelled ∧ id ∉ s.timers.users.run.firedIds
  /-- between two attempts passes the delay, up to a slot and the lag of the loop -/
  spaced : ∀ index before behind, s.attempts[index]? = some before →
    s.attempts[index + 1]? = some behind →
    before + delayBehind index < behind + everyMs ∧
      behind ≤ before + delayBehind index + TimerSchedulerAdapter.lag delay work + work

/-! ## The attempts -/

/-- The next attempt is still to come. -/
def Going (phase : Connecting) : Prop :=
  phase = .queued ∨ phase = .calling ∨ ∃ id, phase = .waiting id

/-- `connect` was last called then, as the attempt of that number. -/
def IsLast (s : TCPConnector) (index last : Nat) : Prop :=
  s.attempts[index]? = some last ∧ s.attempts.length = index + 1

structure Inv (delay work : Nat) (s : TCPConnector) : Prop where
  timers : s.timers.Inv delay work
  served : s.phase ≠ .unserved
  created : s.created = if s.phase = .connected then 1 else 0
  going : Going s.phase → s.retryDelayMs = delayBehind s.attempts.length ∧ s.attempts.length ≤ 6
  threw : s.phase = .threw → s.attempts.length = 7
  connected : s.phase = .connected → s.attempts.length ≤ 7
  queued : s.phase = .queued → s.attempts = []
  /-- `connect_peer` runs as the callback of its timer -/
  calling : s.phase = .calling → ∀ index last, s.IsLast index last → s.timers.Busy ∧
    s.timers.users.run.ti.triggerBeforeMs = slotStart (last + delayBehind index)
  waiting : ∀ id, s.phase = .waiting id →
    (id ∈ s.timers.users.agenda.items ∧ id ∉ s.timers.users.run.firedIds) ∧
      ∀ index last, s.IsLast index last → id.triggerAtMs = slotStart (last + delayBehind index)
  spaced : ∀ index before behind, s.attempts[index]? = some before →
    s.attempts[index + 1]? = some behind →
    before + delayBehind index < behind + everyMs ∧
      behind ≤ before + delayBehind index + TimerSchedulerAdapter.lag delay work + work

section steps

variable {delay work : Nat} {s next : TCPConnector}

theorem new_inv {created set : Nat} (after : created ≤ set)
    (soon : set ≤ created + work * nsPerMs) : (new created set).Inv delay work where
  timers := TimerSchedulerAdapter.start_inv after soon
  served := Connecting.noConfusion
  created := rfl
  going := fun _ => ⟨rfl, Nat.zero_le _⟩
  threw := Connecting.noConfusion
  connected := Connecting.noConfusion
  queued := fun _ => rfl
  calling := Connecting.noConfusion
  waiting := fun _ => Connecting.noConfusion
  spaced := by
    intro index before behind first
    cases first

theorem isLast_append {attempts : List Nat} {now index last : Nat}
    (isLast : (attempts ++ [now])[index]? = some last ∧ (attempts ++ [now]).length = index + 1) :
    index = attempts.length ∧ last = now := by
  obtain ⟨found, length⟩ := isLast
  rw [List.length_append, List.length_singleton] at length
  have here : index = attempts.length := by omega
  subst here
  rw [List.getElem?_append_right (Nat.le_refl _), Nat.sub_self] at found
  exact ⟨rfl, (Option.some.inj found).symm⟩

/-- An attempt that a timer has begun keeps the distance from the last one. -/
theorem Inv.spaced_append (inv : s.Inv delay work) (up : s.timers.KeepsUp delay work)
    (calling : s.phase = .calling) (index before behind : Nat)
    (first : (s.attempts ++ [s.timers.nowMs])[index]? = some before)
    (second : (s.attempts ++ [s.timers.nowMs])[index + 1]? = some behind) :
    before + delayBehind index < behind + everyMs ∧
      behind ≤ before + delayBehind index + TimerSchedulerAdapter.lag delay work + work := by
  have inside : index + 1 < (s.attempts ++ [s.timers.nowMs]).length :=
    (List.getElem?_eq_some_iff.mp second).1
  rw [List.length_append, List.length_singleton] at inside
  rw [List.getElem?_append_left (by omega)] at first
  by_cases old : index + 1 < s.attempts.length
  · rw [List.getElem?_append_left old] at second
    exact inv.spaced index before behind first second
  · have length : s.attempts.length = index + 1 := by omega
    rw [List.getElem?_append_right (by omega), length, Nat.sub_self] at second
    cases second
    obtain ⟨-, turned⟩ := inv.calling calling index before ⟨first, length⟩
    have near := TimerSchedulerAdapter.slotStart_le (before + delayBehind index)
    have notAhead := inv.timers.notAhead
    have behind := (inv.timers.behind up).2
    rw [turned] at notAhead behind
    omega

theorem delayBehind_le {length : Nat} (few : length ≤ 6) :
    delayBehind length ≤ maxRetryDelayMs ↔ length ≤ 5 := by
  interval_cases length <;> decide

theorem delayBehind_bounds {length : Nat} (few : length ≤ 5) :
    everyMs ≤ delayBehind length ∧ delayBehind length ≤ 16000 := by
  interval_cases length <;> decide

theorem delayBehind_succ (length : Nat) : delayBehind length * 2 = delayBehind (length + 1) := by
  rw [delayBehind, delayBehind, Nat.pow_succ, Nat.mul_assoc]

theorem retryTimer_toNat (small : s.retryDelayMs ≤ 16000) :
    s.retryTimer.triggerAfterMs.toNat = s.retryDelayMs := by
  rw [retryTimer, UInt64.toNat_ofNat', Nat.mod_eq_of_lt (by omega)]

/-- `connect_peer`, when the loop keeps up and its longest delay leaves room for the lag. -/
theorem Inv.connect (roomy : 16000 + TimerSchedulerAdapter.lag delay work + work < spanSec * 1000)
    (inv : s.Inv delay work) (up : s.timers.KeepsUp delay work) (calling : s.phase = .calling)
    {ret : Int} {reads : ClockReads} (taken : s.connectPeerBehind ret reads = some next) :
    next.Inv delay work := by
  obtain ⟨doubled, few⟩ := inv.going (.inr (.inl calling))
  have spaced := inv.spaced_append up calling
  have created : s.created = 0 := by
    rw [inv.created, calling]
    rfl
  have length : (s.attempts ++ [s.timers.nowMs]).length = s.attempts.length + 1 := by simp
  unfold connectPeerBehind at taken
  dsimp only at taken
  split at taken
  · split at taken
    · next within =>
        obtain ⟨timers, added, rfl⟩ := Option.map_eq_some_iff.mp taken
        have five : s.attempts.length ≤ 5 := by
          rw [doubled] at within
          exact (delayBehind_le few).mp within
        obtain ⟨long, short⟩ := delayBehind_bounds five
        rw [← doubled] at long short
        have toNat := retryTimer_toNat short
        have room : s.timers.Meets delay work (.add s.retryTimer reads) := by
          refine ⟨up, fun _ => ?_⟩
          rw [toNat]
          omega
        obtain ⟨id, returned, atMs, stored⟩ := inv.timers.stored added (by rw [toNat]; exact long)
          (by
            rw [toNat]
            exact Nat.lt_of_le_of_lt short (by decide))
        simp only [returned]
        refine ⟨inv.timers.step room added, Connecting.noConfusion, created, ?_,
          Connecting.noConfusion, Connecting.noConfusion, Connecting.noConfusion,
          Connecting.noConfusion, ?_, spaced⟩
        · intro _
          change s.retryDelayMs * 2 = delayBehind (s.attempts ++ [s.timers.nowMs]).length ∧
            (s.attempts ++ [s.timers.nowMs]).length ≤ 6
          rw [length, doubled]
          exact ⟨delayBehind_succ _, by omega⟩
        · intro other waiting
          cases waiting
          refine ⟨stored, fun index last isLast => ?_⟩
          obtain ⟨rfl, rfl⟩ := isLast_append isLast
          rw [atMs, toNat, doubled]
    · next beyond =>
        cases taken
        have six : s.attempts.length = 6 := by
          rw [doubled, delayBehind_le few] at beyond
          omega
        refine ⟨inv.timers, Connecting.noConfusion, created, ?_, fun _ => by rw [length, six],
          Connecting.noConfusion, Connecting.noConfusion, Connecting.noConfusion,
          fun _ => Connecting.noConfusion, spaced⟩
        rintro (queued | again | ⟨id, waiting⟩)
        · cases queued
        · cases again
        · cases waiting
  · cases taken
    refine ⟨inv.timers, Connecting.noConfusion, by rw [created]; rfl, ?_, Connecting.noConfusion,
      fun _ => ?_, Connecting.noConfusion, Connecting.noConfusion, fun _ => Connecting.noConfusion,
      spaced⟩
    · rintro (queued | again | ⟨id, waiting⟩)
      · cases queued
      · cases again
      · cases waiting
    · rw [length]
      omega

/-- The timers go on, and the connector stays where it is. -/
theorem Inv.keep (inv : s.Inv delay work) {timers : TimerSchedulerAdapter}
    (sound : timers.Inv delay work)
    (calling : s.phase = .calling → (s.timers.Busy → timers.Busy) ∧
      timers.users.run.ti.triggerBeforeMs = s.timers.users.run.ti.triggerBeforeMs)
    (waiting : ∀ id, s.phase = .waiting id →
      id ∈ timers.users.agenda.items ∧ id ∉ timers.users.run.firedIds) :
    Inv delay work { s with timers := timers } where
  timers := sound
  served := inv.served
  created := inv.created
  going := inv.going
  threw := inv.threw
  connected := inv.connected
  queued := inv.queued
  calling := by
    intro now index last isLast
    obtain ⟨busy, turned⟩ := inv.calling now index last isLast
    obtain ⟨stays, same⟩ := calling now
    exact ⟨stays busy, same.trans turned⟩
  waiting := fun id now => ⟨waiting id now, (inv.waiting id now).2⟩
  spaced := inv.spaced

theorem Inv.stepTimers (inv : s.Inv delay work) {event : AdapterEvent}
    (met : s.timers.Meets delay work event) (taken : s.step (.timers event) = some next) :
    next.Inv delay work := by
  simp only [step] at taken
  split at taken
  · next calling =>
      split at taken
      · obtain ⟨timers, passed, rfl⟩ := Option.map_eq_some_iff.mp taken
        apply inv.keep (inv.timers.step met passed)
        · intro _
          obtain ⟨-, rfl⟩ := of_guarded passed
          exact ⟨id, rfl⟩
        · intro id waiting
          rw [calling] at waiting
          cases waiting
      · cases taken
  · next id waiting =>
      split at taken
      · cases taken
      · next kept =>
          obtain ⟨timers, stepped, rfl⟩ := Option.map_eq_some_iff.mp taken
          have sound := inv.timers.step met stepped
          obtain ⟨pending, time⟩ := inv.waiting id waiting
          split
          · next fires =>
              obtain ⟨rfl, first⟩ := fires
              have due := sound.fire_due stepped first
              refine ⟨sound, Connecting.noConfusion, ?_,
                fun _ => inv.going (.inr (.inr ⟨id, waiting⟩)), Connecting.noConfusion,
                Connecting.noConfusion, Connecting.noConfusion, ?_,
                fun _ => Connecting.noConfusion, inv.spaced⟩
              · rw [inv.created, waiting]
                rfl
              · intro _ index last isLast
                exact ⟨due.1, due.2.trans (time index last isLast)⟩
          · next silent =>
              apply inv.keep sound
              · intro calling
                rw [waiting] at calling
                cases calling
              · intro other otherWaiting
                rw [waiting] at otherWaiting
                cases otherWaiting
                exact TimerSchedulerAdapter.pending_of_step stepped kept silent pending
  · next notCalling notWaiting =>
      obtain ⟨timers, stepped, rfl⟩ := Option.map_eq_some_iff.mp taken
      apply inv.keep (inv.timers.step met stepped)
      · intro calling
        exact absurd calling notCalling
      · intro id waiting
        exact absurd waiting (notWaiting id)

theorem Inv.step (roomy : 16000 + TimerSchedulerAdapter.lag delay work + work < spanSec * 1000)
    (inv : s.Inv delay work) {event : ConnectorEvent} (met : s.Meets delay work event)
    (taken : s.step event = some next) : next.Inv delay work := by
  cases event with
  | timers event => exact inv.stepTimers met taken
  | start =>
      obtain ⟨⟨queued, -⟩, rfl⟩ := of_guarded taken
      refine ⟨inv.timers, Connecting.noConfusion, ?_, fun _ => inv.going (.inl queued),
        Connecting.noConfusion, Connecting.noConfusion, Connecting.noConfusion, ?_,
        fun _ => Connecting.noConfusion, inv.spaced⟩
      · rw [inv.created, queued]
        rfl
      · intro _ index last isLast
        have none := isLast.1
        rw [inv.queued queued] at none
        cases none
  | connect ret reads =>
      simp only [TCPConnector.step] at taken
      split at taken
      · next calling => exact inv.connect roomy met calling taken
      · cases taken

theorem Inv.retries (inv : s.Inv delay work) : s.Retries delay work where
  attempts := by
    have created := inv.created
    cases phase : s.phase with
    | threw =>
        rw [phase] at created
        have seven := inv.threw phase
        exact ⟨Nat.le_of_eq seven, fun _ => ⟨seven, created⟩, fun _ => rfl⟩
    | connected =>
        rw [phase] at created
        refine ⟨inv.connected phase, Connecting.noConfusion, fun both => ?_⟩
        rw [both.2] at created
        cases created
    | unserved => exact absurd phase inv.served
    | _ =>
        have going : Going s.phase := by simp [Going, phase]
        have six := (inv.going going).2
        refine ⟨by omega, Connecting.noConfusion, fun both => ?_⟩
        omega
  created := inv.created
  served := inv.served
  waits := by
    intro id waiting
    obtain ⟨⟨listed, notFired⟩, -⟩ := inv.waiting id waiting
    obtain ⟨accepted, uncancelled⟩ := List.mem_filter.mp listed
    exact ⟨accepted, of_decide_eq_true uncancelled, notFired⟩
  spaced := inv.spaced

/--
In every run in which the loop keeps up, `connect` is called seven times at most, each time
when the doubled delay has passed and not later than the lag behind it, and `create_conn_cb`
once at most; no retry is refused or lost.
-/
theorem retries_of_keepsUp {created set : Nat} {events : List ConnectorEvent}
    {last : TCPConnector}
    (roomy : 16000 + TimerSchedulerAdapter.lag delay work + work < spanSec * 1000)
    (after : created ≤ set) (soon : set ≤ created + work * nsPerMs)
    (met : StepsMeet TCPConnector.step (Meets delay work) (new created set) events)
    (run : runFrom TCPConnector.step (new created set) events = some last) :
    last.Retries delay work :=
  (runFrom_guarded_invariant (Inv delay work)
    (fun _ _ _ inv met taken => inv.step roomy met taken) (new_inv after soon) met run).retries

/-- The first attempt fails and the second one succeeds; the handler is late by half a second. -/
def secondAttempt : List ConnectorEvent :=
  [.start, .connect (-1) ⟨1000, 1000, 1000⟩, .timers (.pass 1502000000), .timers .report,
    .timers .handle] ++
    (List.replicate 49 [.timers .next, .timers .clear]).flatten ++
    [.timers .next, .timers .fire, .connect 0 ⟨1502, 1502, 1502⟩, .timers .clear, .timers .next]

theorem retries_of_keepsUp_secondAttempt :
    ∃ last, runFrom TCPConnector.step (new 1000000000 1000000000) secondAttempt = some last ∧
      last.Retries 501 0 := by
  have ends : (runFrom TCPConnector.step (new 1000000000 1000000000) secondAttempt).any
      (fun last => last.phase = .connected) = true := by
    decide +kernel
  obtain ⟨last, run, -⟩ := (Option.any_eq_true _ _).mp ends
  exact ⟨last, run, retries_of_keepsUp (by decide) (Nat.le_refl _) (Nat.le_refl _)
    (by decide +kernel) run⟩

end steps

end TCPConnector

end SimpleWebServer.Tcp
