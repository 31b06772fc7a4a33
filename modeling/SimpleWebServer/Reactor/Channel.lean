import Mathlib.Logic.Function.Basic

/-!
# Channels and their registration with epoll

A `Channel` keeps, for each event type, a callback, whether the event is enabled and
whether it was triggered.  Every change of the enabled events is passed on to epoll, which
reports the events of its interest list; a one-shot registration is disarmed by a report
and armed again, with all enabled events, by the next update.
-/

namespace SimpleWebServer.Reactor

/-- `EventLoop::EventType` -/
inductive EventType where
  | read
  | write
  deriving DecidableEq, Repr

namespace EventType

/-- The event types in the order of their indices. -/
def all : List EventType := [.read, .write]

theorem mem_all (et : EventType) : et ∈ all := by
  cases et <;> decide

theorem all_nodup : all.Nodup := by decide

/-- A condition on the event types can be checked one by one. -/
instance decidableForall (holds : EventType → Prop) [DecidablePred holds] :
    Decidable (∀ et, holds et) :=
  decidable_of_iff (∀ et ∈ all, holds et)
    ⟨fun each et => each et et.mem_all, fun every et _ => every et⟩

/-- So can an existence. -/
instance decidableExists (holds : EventType → Prop) [DecidablePred holds] :
    Decidable (∃ et, holds et) :=
  decidable_of_iff (∃ et ∈ all, holds et)
    ⟨fun ⟨et, _, held⟩ => ⟨et, held⟩, fun ⟨et, held⟩ => ⟨et, et.mem_all, held⟩⟩

end EventType

/-- `EventLoop::Channel` with callbacks of type `Cb`; an enabled event has a callback. -/
structure Channel (Cb : Type) where
  cbArr : EventType → Option Cb := fun _ => none
  triggerArr : EventType → Bool := fun _ => false
  enableArr : EventType → Bool := fun _ => false
  isOnce : Bool := false
  enabled_cb : ∀ et, enableArr et = true → (cbArr et).isSome = true

/-- What epoll knows about a file descriptor; the events of a disarmed one are cleared. -/
structure Interest where
  events : EventType → Bool
  oneshot : Bool

namespace Channel

variable {Cb : Type}

/-- A channel as `get_channel` returns it. -/
def new : Channel Cb where
  enabled_cb := by simp

def isEnable (ch : Channel Cb) (et : EventType) : Bool := ch.enableArr et

/-- `enable_event(et, cb)` without its `update_channel` -/
def enableEvent (ch : Channel Cb) (et : EventType) (cb : Cb) : Channel Cb where
  cbArr := Function.update ch.cbArr et (some cb)
  triggerArr := ch.triggerArr
  enableArr := Function.update ch.enableArr et true
  isOnce := ch.isOnce
  enabled_cb := by
    intro other enabled
    by_cases same : other = et
    · simp [same]
    · rw [Function.update_of_ne same] at enabled ⊢
      exact ch.enabled_cb other enabled

/-- `enable_event(et)`, which asserts that there is a callback -/
def enableAgain (ch : Channel Cb) (et : EventType) (assertm : (ch.cbArr et).isSome = true) :
    Channel Cb where
  cbArr := ch.cbArr
  triggerArr := ch.triggerArr
  enableArr := Function.update ch.enableArr et true
  isOnce := ch.isOnce
  enabled_cb := by
    intro other enabled
    by_cases same : other = et
    · rw [same]
      exact assertm
    · rw [Function.update_of_ne same] at enabled
      exact ch.enabled_cb other enabled

/-- `disable_event(et)` without its `update_channel` -/
def disableEvent (ch : Channel Cb) (et : EventType) : Channel Cb where
  cbArr := ch.cbArr
  triggerArr := ch.triggerArr
  enableArr := Function.update ch.enableArr et false
  isOnce := ch.isOnce
  enabled_cb := by
    intro other enabled
    by_cases same : other = et
    · simp [same] at enabled
    · rw [Function.update_of_ne same] at enabled
      exact ch.enabled_cb other enabled

/-- The `epoll_event` that `update_channel` builds. -/
def interest (ch : Channel Cb) : Interest where
  events := ch.enableArr
  oneshot := ch.isOnce && (ch.isEnable .read || ch.isEnable .write)

/-- `trigger_event` for each event that a report carries -/
def triggerEvents (ch : Channel Cb) (reported : EventType → Bool) : Channel Cb :=
  { ch with triggerArr := fun et => ch.triggerArr et || reported et }

/-- The callbacks that `handle_event` calls, in order, with the events they belong to. -/
def triggered (ch : Channel Cb) : List (EventType × Cb) :=
  EventType.all.filterMap fun et =>
    if ch.triggerArr et then (ch.cbArr et).map fun cb => (et, cb) else none

/-- `trigger_arr[et] = false`, behind the callback of the event -/
def clearTrigger (ch : Channel Cb) (et : EventType) : Channel Cb :=
  { ch with triggerArr := Function.update ch.triggerArr et false }

/-- The channel after `handle_event`. -/
def handled (ch : Channel Cb) : Channel Cb := { ch with triggerArr := fun _ => false }

theorem mem_triggered {ch : Channel Cb} {et : EventType} {cb : Cb} :
    (et, cb) ∈ ch.triggered ↔ ch.triggerArr et = true ∧ ch.cbArr et = some cb := by
  simp only [triggered, List.mem_filterMap]
  constructor
  · rintro ⟨other, -, found⟩
    split at found
    · next fires =>
        obtain ⟨known, has, pair⟩ := Option.map_eq_some_iff.mp found
        cases pair
        exact ⟨fires, has⟩
    · cases found
  · rintro ⟨fires, has⟩
    exact ⟨et, et.mem_all, by simp [fires, has]⟩

/-- Each event runs at most one callback. -/
theorem triggered_pairwise (ch : Channel Cb) :
    ch.triggered.Pairwise fun first second => first.1 ≠ second.1 := by
  unfold triggered
  rw [List.pairwise_filterMap]
  apply EventType.all_nodup.imp
  intro first second different one isOne two isTwo
  have oneEvent : one.1 = first := by
    split at isOne
    · obtain ⟨_, _, pair⟩ := Option.map_eq_some_iff.mp isOne
      rw [← pair]
    · cases isOne
  have twoEvent : two.1 = second := by
    split at isTwo
    · obtain ⟨_, _, pair⟩ := Option.map_eq_some_iff.mp isTwo
      rw [← pair]
    · cases isTwo
  rw [oneEvent, twoEvent]
  exact different

end Channel

namespace Interest

/-- epoll still reports the descriptor, if only an error: no report of one shot has disarmed it. -/
def Armed (interest : Interest) : Prop :=
  interest.oneshot = true → ∃ et, interest.events et = true

/-- A report carries only events that were asked for; an error alone carries none of the two. -/
def Allows (interest : Interest) (reported : EventType → Bool) : Prop :=
  ∀ et, reported et = true → interest.events et = true

instance (interest : Interest) : Decidable interest.Armed :=
  inferInstanceAs (Decidable (interest.oneshot = true → ∃ et, interest.events et = true))

instance (interest : Interest) (reported : EventType → Bool) :
    Decidable (interest.Allows reported) :=
  inferInstanceAs (Decidable (∀ et, reported et = true → interest.events et = true))

/-- The registration after a report. -/
def reported (interest : Interest) : Interest :=
  if interest.oneshot then { interest with events := fun _ => false } else interest

end Interest

end SimpleWebServer.Reactor
