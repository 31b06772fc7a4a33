import Mathlib.Logic.Function.Basic
import SimpleWebServer.Lib.Runs

/-!
# The event loop

`EventLoop::run` polls, swaps the callback list out under the mutex, and runs what it swapped.
Other threads add callbacks under the mutex and wake the loop through an eventfd, which epoll
reports for as long as its counter is positive.  The steps of the loop's thread and of all
other threads interleave at the accesses to the list, the eventfd, the mutex and the flag.
-/

namespace SimpleWebServer.Reactor

open SimpleWebServer.Lib.Runs

/-- One entry of the list that `epoll_wait` returns. -/
inductive Report where
  /-- the eventfd of the `Activater` -/
  | activater
  /-- another channel of the loop -/
  | channel (fd : Nat)
  deriving DecidableEq, Repr

/-- Where a thread is in a function of the loop that it has called. -/
inductive LoopCall where
  | outside
  /-- in `add_callback_after`, behind `lock_guard`, before `cb_list.push_back` -/
  | locked
  /-- before the `write` of `activate` -/
  | pushed
  /-- before the end of the scope of `lock_guard` -/
  | written
  /-- in `add_timer`, `remove_timer`, `update_channel` or `remove_channel`, under the mutex -/
  | holding
  /-- in `stop`, behind `is_loop = false`, before the `write` of `activate` -/
  | stopping
  deriving DecidableEq, Repr

/-- Where the loop's thread is in `run`. -/
inductive RunPhase where
  /-- `run` has not been called, or has returned -/
  | outside
  /-- before the test of `is_loop` -/
  | testing
  /-- about to enter `epoll_wait` -/
  | polling
  /-- blocked in `epoll_wait` -/
  | waiting
  /-- in the loop of `poll`, before the next report -/
  | handling (reports : List Report)
  /-- in the handler of another channel -/
  | inHandler (reports : List Report)
  /-- behind `poll`, before `lock_guard` -/
  | locking
  /-- under the mutex, before the swap -/
  | swapping
  /-- under the mutex, behind the swap -/
  | swapped
  /-- in the loop of `run`, before the next callback -/
  | callbacks
  /-- in a callback -/
  | inCallback
  deriving DecidableEq, Repr

namespace RunPhase

/-- The loop's thread runs code that may call the loop. -/
def userRuns : RunPhase → Bool
  | .outside => true
  | .inHandler _ => true
  | .inCallback => true
  | _ => false

/-- The reports that `poll` has still to handle. -/
def reports : RunPhase → List Report
  | .handling reports => reports
  | .inHandler reports => reports
  | _ => []

end RunPhase

/-- A callback that was run, by which thread and in which phase. -/
structure RanCallback (Thread : Type) where
  cb : Nat
  thread : Thread
  phaseNo : Nat
  deriving DecidableEq, Repr

/-- The loop with the threads that use it.  Callbacks are numbered in the order of additions. -/
structure EventLoop (Thread : Type) where
  isLoop : Bool := false
  cbList : List Nat := []
  /-- `now_cb_list`, from the next callback on -/
  nowCbList : List Nat := []
  /-- the counter of the eventfd -/
  counter : Nat := 0
  /-- the holder of `mu` -/
  mu : Option Thread := none
  phase : RunPhase := .outside
  call : Thread → LoopCall := fun _ => .outside
  /-- an assertion has failed -/
  failed : Bool := false
  /-- how many callbacks have been added -/
  added : Nat := 0
  /-- the number of the phase of the loop in which a callback was added -/
  addedIn : Nat → Nat := fun _ => 0
  /-- counts the handler phases and the callback phases -/
  phaseNo : Nat := 0
  ran : List (RanCallback Thread) := []

namespace EventLoop

variable {Thread : Type} [DecidableEq Thread]

inductive Event (Thread : Type) where
  /-- `lock_guard` in `add_callback_after` -/
  | lock (thread : Thread)
  /-- `cb_list.push_back` -/
  | push (thread : Thread)
  /-- the `write` of `activate` in `add_callback_after` -/
  | write (thread : Thread)
  /-- the end of the scope of `lock_guard` -/
  | unlock (thread : Thread)
  /-- `add_timer`, `remove_timer`, `update_channel` or `remove_channel` takes the mutex -/
  | hold (thread : Thread)
  | release (thread : Thread)
  /-- `is_loop = false` in `stop` -/
  | stop (thread : Thread)
  /-- the `write` of `activate` in `stop` -/
  | stopWrite (thread : Thread)
  /-- the loop's thread calls `run` -/
  | run
  /-- `while (is_loop)` -/
  | test
  /-- `epoll_wait` is called -/
  | wait
  /-- `epoll_wait` returns with what is ready, with nothing after its timeout -/
  | wake (reports : List Report)
  /-- `epoll_wait` returns with `EINTR` -/
  | interrupted
  /-- the next report: `handle_read` of the activater, or another handler begins -/
  | handle
  /-- the handler returns -/
  | handlerEnd
  /-- the last report has been handled -/
  | pollEnd
  /-- `lock_guard` in `run` -/
  | runLock
  /-- `now_cb_list.swap(cb_list)` -/
  | swap
  /-- the end of its scope -/
  | runUnlock
  /-- the next callback begins -/
  | callback
  /-- the callback returns -/
  | callbackEnd
  /-- the last callback has returned -/
  | callbacksEnd
  deriving DecidableEq, Repr

/-- A thread may call a function of the loop; the loop's thread does so from user code. -/
def MayCall (s : EventLoop Thread) (loop thread : Thread) : Prop :=
  s.call thread = .outside ∧ (thread = loop → s.phase.userRuns = true)

/-- The loop's thread goes on in `run`. -/
def RunsIn (s : EventLoop Thread) (loop : Thread) (phase : RunPhase) : Prop :=
  s.phase = phase ∧ s.call loop = .outside

instance (s : EventLoop Thread) (loop thread : Thread) : Decidable (s.MayCall loop thread) :=
  inferInstanceAs (Decidable (_ ∧ _))

instance (s : EventLoop Thread) (loop : Thread) (phase : RunPhase) :
    Decidable (s.RunsIn loop phase) :=
  inferInstanceAs (Decidable (_ ∧ _))

def setCall (s : EventLoop Thread) (thread : Thread) (call : LoopCall) : EventLoop Thread :=
  { s with call := Function.update s.call thread call }

/-- `cb_list.push_back(cb)` -/
def pushBack (s : EventLoop Thread) : EventLoop Thread :=
  { s with
    cbList := s.cbList ++ [s.added]
    added := s.added + 1
    addedIn := Function.update s.addedIn s.added s.phaseNo }

/-- `Activater::activate` -/
def activate (s : EventLoop Thread) : EventLoop Thread := { s with counter := s.counter + 1 }

/-- `Activater::handle_read`, which asserts that the `read` returned a counter -/
def handleRead (s : EventLoop Thread) : EventLoop Thread :=
  if 0 < s.counter then { s with counter := 0 } else { s with failed := true }

/-- What `epoll_wait` may return: each descriptor once, the eventfd while it is positive. -/
def Reports (s : EventLoop Thread) (reports : List Report) : Prop :=
  reports.Nodup ∧ (.activater ∈ reports ↔ 0 < s.counter)

instance (s : EventLoop Thread) (reports : List Report) : Decidable (s.Reports reports) :=
  inferInstanceAs (Decidable (_ ∧ _))

/-- One step of one thread; `loop` is the thread that calls `run`. -/
def step (loop : Thread) (s : EventLoop Thread) : Event Thread → Option (EventLoop Thread)
  | .lock thread =>
      if s.MayCall loop thread ∧ s.mu = none then
        some ({ s with mu := some thread }.setCall thread .locked)
      else none
  | .push thread =>
      if s.call thread = .locked then some (s.pushBack.setCall thread .pushed) else none
  | .write thread =>
      if s.call thread = .pushed then some (s.activate.setCall thread .written) else none
  | .unlock thread =>
      if s.call thread = .written then
        some ({ s with mu := none }.setCall thread .outside)
      else none
  | .hold thread =>
      if s.MayCall loop thread ∧ s.mu = none then
        some ({ s with mu := some thread }.setCall thread .holding)
      else none
  | .release thread =>
      if s.call thread = .holding then
        some ({ s with mu := none }.setCall thread .outside)
      else none
  | .stop thread =>
      if s.MayCall loop thread then
        some ({ s with isLoop := false }.setCall thread .stopping)
      else none
  | .stopWrite thread =>
      if s.call thread = .stopping then some (s.activate.setCall thread .outside) else none
  | .run =>
      if s.RunsIn loop .outside ∧ s.isLoop = false then
        some { s with isLoop := true, phase := .testing }
      else none
  | .test =>
      if s.RunsIn loop .testing then
        some { s with phase := if s.isLoop then .polling else .outside }
      else none
  | .wait => if s.RunsIn loop .polling then some { s with phase := .waiting } else none
  | .wake reports =>
      if s.RunsIn loop .waiting ∧ s.Reports reports then
        some { s with phase := .handling reports, phaseNo := s.phaseNo + 1 }
      else none
  | .interrupted =>
      if s.RunsIn loop .waiting then some { s with phase := .locking } else none
  | .handle =>
      match s.phase with
      | .handling (.activater :: rest) => some { s.handleRead with phase := .handling rest }
      | .handling (.channel _ :: rest) => some { s with phase := .inHandler rest }
      | _ => none
  | .handlerEnd =>
      match s.phase with
      | .inHandler rest =>
          if s.call loop = .outside then some { s with phase := .handling rest } else none
      | _ => none
  | .pollEnd =>
      if s.RunsIn loop (.handling []) then some { s with phase := .locking } else none
  | .runLock =>
      if s.RunsIn loop .locking ∧ s.mu = none then
        some { s with mu := some loop, phase := .swapping }
      else none
  | .swap =>
      if s.RunsIn loop .swapping then
        some { s with
          nowCbList := s.cbList
          cbList := []
          phase := .swapped
          phaseNo := s.phaseNo + 1 }
      else none
  | .runUnlock =>
      if s.RunsIn loop .swapped then some { s with mu := none, phase := .callbacks } else none
  | .callback =>
      match s.nowCbList with
      | cb :: rest =>
          if s.RunsIn loop .callbacks then
            some { s with
              nowCbList := rest
              phase := .inCallback
              ran := s.ran ++ [⟨cb, loop, s.phaseNo⟩] }
          else none
      | [] => none
  | .callbackEnd =>
      if s.RunsIn loop .inCallback then some { s with phase := .callbacks } else none
  | .callbacksEnd =>
      if s.RunsIn loop .callbacks ∧ s.nowCbList = [] then some { s with phase := .testing }
      else none

theorem of_handle {loop : Thread} {s next : EventLoop Thread}
    (taken : s.step loop .handle = some next) :
    (∃ rest, s.phase = .handling (.activater :: rest) ∧
        next = { s.handleRead with phase := .handling rest }) ∨
      ∃ fd rest, s.phase = .handling (.channel fd :: rest) ∧
        next = { s with phase := .inHandler rest } := by
  simp only [step] at taken
  split at taken
  · next rest handling => exact Or.inl ⟨rest, handling, (Option.some.inj taken).symm⟩
  · next fd rest handling => exact Or.inr ⟨fd, rest, handling, (Option.some.inj taken).symm⟩
  · cases taken

theorem of_handlerEnd {loop : Thread} {s next : EventLoop Thread}
    (taken : s.step loop .handlerEnd = some next) :
    ∃ rest, s.phase = .inHandler rest ∧ next = { s with phase := .handling rest } := by
  simp only [step] at taken
  split at taken
  · next rest inHandler => exact ⟨rest, inHandler, (of_guarded taken).2.symm⟩
  · cases taken

theorem of_callback {loop : Thread} {s next : EventLoop Thread}
    (taken : s.step loop .callback = some next) :
    ∃ cb rest, s.nowCbList = cb :: rest ∧ s.RunsIn loop .callbacks ∧ next = { s with
      nowCbList := rest
      phase := .inCallback
      ran := s.ran ++ [⟨cb, loop, s.phaseNo⟩] } := by
  simp only [step] at taken
  split at taken
  · next cb rest now =>
      obtain ⟨callbacks, invoked⟩ := of_guarded taken
      exact ⟨cb, rest, now, callbacks, invoked.symm⟩
  · cases taken

omit [DecidableEq Thread] in
/-- A loop that has just been constructed. -/
def new : EventLoop Thread := {}

end EventLoop

end SimpleWebServer.Reactor
