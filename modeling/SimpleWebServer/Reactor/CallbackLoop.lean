import SimpleWebServer.Reactor.EventLoop
import SimpleWebServer.Lib.Runs

/-!
# The turns of a loop

What the users of a loop see of `EventLoop::run`: a turn polls, handles a batch of reports,
and then runs the callbacks that were in the list when the batch was done.  The mutex and the
eventfd are left to the interleavings of `EventLoop`, which this loop abstracts.
-/

namespace SimpleWebServer.Reactor

open SimpleWebServer.Lib.Runs

/-- Where `run` is in its turn. -/
inductive LoopPhase (Report Callback : Type) where
  | outside
  /-- before the test of `is_loop` -/
  | testing
  /-- in `epoll_wait` -/
  | polling
  /-- `poll` goes through a batch; the reports it has not come to -/
  | handling (reports : List Report)
  /-- the swapped callbacks that have not begun -/
  | callbacks (now : List Callback)
  deriving Repr

/-- A loop with callbacks of type `Callback`. -/
structure CallbackLoop (Report Callback : Type) where
  isLoop : Bool := false
  phase : LoopPhase Report Callback := .outside
  cbList : List Callback := []
  deriving Repr

/-- The steps of a loop. -/
inductive Turn (Report Callback : Type) where
  /-- `is_loop = false` in `stop` -/
  | stop
  /-- `run` is called -/
  | run
  /-- `while (is_loop)` -/
  | test
  /-- `epoll_wait` returns a batch -/
  | wake (reports : List Report)
  /-- `poll` comes to the next report -/
  | report
  /-- `now_cb_list.swap(cb_list)` -/
  | swap
  /-- the next callback begins -/
  | callback
  /-- the last callback has returned -/
  | callbacksEnd
  /-- `cb_list.push_back(cb)` -/
  | push (cb : Callback)
  deriving Repr

namespace Turn

variable {Report Callback : Type}

/-- The batch that a step brings. -/
def reports : Turn Report Callback → List Report
  | .wake reports => reports
  | _ => []

/-- The step neither adds a callback nor begins one. -/
def quiet : Turn Report Callback → Bool
  | .callback => false
  | .push _ => false
  | _ => true

end Turn

namespace LoopPhase

variable {Report Callback : Type}

def reports : LoopPhase Report Callback → List Report
  | .handling reports => reports
  | _ => []

def now : LoopPhase Report Callback → List Callback
  | .callbacks now => now
  | _ => []

theorem eq_callbacks {phase : LoopPhase Report Callback} {cb : Callback} {rest : List Callback}
    (isNow : phase.now = cb :: rest) : phase = .callbacks (cb :: rest) := by
  cases phase with
  | callbacks now => rw [← isNow, LoopPhase.now]
  | _ => cases isNow

end LoopPhase

namespace CallbackLoop

variable {Report Callback : Type}

def step (loop : CallbackLoop Report Callback) : Turn Report Callback →
    Option (CallbackLoop Report Callback)
  | .stop => some { loop with isLoop := false }
  | .run =>
      match loop.phase, loop.isLoop with
      | .outside, false => some { loop with isLoop := true, phase := .testing }
      | _, _ => none
  | .test =>
      match loop.phase with
      | .testing => some { loop with phase := if loop.isLoop then .polling else .outside }
      | _ => none
  | .wake reports =>
      match loop.phase with
      | .polling => some { loop with phase := .handling reports }
      | _ => none
  | .report =>
      match loop.phase with
      | .handling (_ :: rest) => some { loop with phase := .handling rest }
      | _ => none
  | .swap =>
      match loop.phase with
      | .handling [] => some { loop with phase := .callbacks loop.cbList, cbList := [] }
      | _ => none
  | .callback =>
      match loop.phase with
      | .callbacks (_ :: rest) => some { loop with phase := .callbacks rest }
      | _ => none
  | .callbacksEnd =>
      match loop.phase with
      | .callbacks [] => some { loop with phase := .testing }
      | _ => none
  | .push cb => some { loop with cbList := loop.cbList ++ [cb] }

/-- The callbacks that will be run, in order. -/
def queue (loop : CallbackLoop Report Callback) : List Callback := loop.phase.now ++ loop.cbList

variable {loop next : CallbackLoop Report Callback}

/-- A step that is not about callbacks moves them from the list to the phase at most. -/
theorem queue_of_quiet {turn : Turn Report Callback} (taken : loop.step turn = some next)
    (quiet : turn.quiet = true) : next.queue = loop.queue := by
  cases turn with
  | stop =>
      cases taken
      rfl
  | run =>
      simp only [step] at taken
      split at taken
      · next outside _ =>
          cases taken
          simp [queue, outside, LoopPhase.now]
      · cases taken
  | test =>
      simp only [step] at taken
      split at taken
      · next testing =>
          cases taken
          cases stopped : loop.isLoop <;> simp [queue, testing, LoopPhase.now]
      · cases taken
  | wake reports =>
      simp only [step] at taken
      split at taken
      · next polling =>
          cases taken
          simp [queue, polling, LoopPhase.now]
      · cases taken
  | report =>
      simp only [step] at taken
      split at taken
      · next handling =>
          cases taken
          simp [queue, handling, LoopPhase.now]
      · cases taken
  | swap =>
      simp only [step] at taken
      split at taken
      · next handling =>
          cases taken
          simp [queue, handling, LoopPhase.now]
      · cases taken
  | callback => cases quiet
  | callbacksEnd =>
      simp only [step] at taken
      split at taken
      · next callbacks =>
          cases taken
          simp [queue, callbacks, LoopPhase.now]
      · cases taken
  | push cb => cases quiet

theorem step_callback (taken : loop.step .callback = some next) :
    ∃ cb, loop.phase.now = cb :: next.phase.now ∧ loop.queue = cb :: next.queue ∧
      next.phase.reports = [] := by
  simp only [step] at taken
  split at taken
  · next cb rest callbacks =>
      cases taken
      exact ⟨cb, by simp [callbacks, LoopPhase.now], by simp [queue, callbacks, LoopPhase.now], rfl⟩
  · cases taken

theorem mem_reports_of_step {turn : Turn Report Callback} (taken : loop.step turn = some next)
    {report : Report} (isReport : report ∈ next.phase.reports) :
    report ∈ loop.phase.reports ∨ report ∈ turn.reports := by
  cases turn with
  | stop =>
      cases taken
      exact Or.inl isReport
  | run =>
      simp only [step] at taken
      split at taken <;> cases taken
      cases isReport
  | test =>
      simp only [step] at taken
      split at taken <;> cases taken
      cases stopped : loop.isLoop <;> simp [stopped, LoopPhase.reports] at isReport
  | wake reports =>
      simp only [step] at taken
      split at taken <;> cases taken
      exact Or.inr isReport
  | report =>
      simp only [step] at taken
      split at taken
      · next first rest handling =>
          cases taken
          apply Or.inl
          rw [handling]
          exact List.mem_cons_of_mem first isReport
      · cases taken
  | swap =>
      simp only [step] at taken
      split at taken <;> cases taken
      cases isReport
  | callback =>
      obtain ⟨_, _, _, none⟩ := step_callback taken
      rw [none] at isReport
      cases isReport
  | callbacksEnd =>
      simp only [step] at taken
      split at taken <;> cases taken
      cases isReport
  | push cb =>
      cases taken
      exact Or.inl isReport

end CallbackLoop

/-! ## The interleavings of a loop -/

/-- What `LoopPhase` shows of a phase of `run`. -/
def RunPhase.turn (now : List Nat) : RunPhase → LoopPhase Report Nat
  | .outside => .outside
  | .testing => .testing
  | .polling => .polling
  | .waiting => .polling
  | .handling reports => .handling reports
  | .inHandler reports => .handling reports
  | .locking => .handling []
  | .swapping => .handling []
  | .swapped => .callbacks now
  | .callbacks => .callbacks now
  | .inCallback => .callbacks now

namespace EventLoop

variable {Thread : Type}

def turn (s : EventLoop Thread) : CallbackLoop Report Nat where
  isLoop := s.isLoop
  phase := s.phase.turn s.nowCbList
  cbList := s.cbList

theorem turn_of_phase {s : EventLoop Thread} {phase : RunPhase} (isPhase : s.phase = phase) :
    s.turn = ⟨s.isLoop, phase.turn s.nowCbList, s.cbList⟩ := by
  rw [← isPhase]
  rfl

/-- A step out of a phase, as a step of the turn. -/
theorem turns_of_phase {s next : EventLoop Thread} {phase : RunPhase} (isPhase : s.phase = phase)
    (turn : Turn Report Nat)
    (turned : CallbackLoop.step ⟨s.isLoop, phase.turn s.nowCbList, s.cbList⟩ turn =
      some next.turn) :
    next.turn = s.turn ∨ ∃ turn, s.turn.step turn = some next.turn := by
  refine Or.inr ⟨turn, ?_⟩
  rw [turn_of_phase isPhase]
  exact turned

variable [DecidableEq Thread]

/-- Each step of a thread is at most one step of the turn. -/
theorem step_turn {loop : Thread} {s next : EventLoop Thread} {event : Event Thread}
    (taken : s.step loop event = some next) :
    next.turn = s.turn ∨ ∃ turn, s.turn.step turn = some next.turn := by
  cases event with
  | lock thread =>
      obtain ⟨-, rfl⟩ := of_guarded taken
      exact Or.inl rfl
  | push thread =>
      obtain ⟨-, rfl⟩ := of_guarded taken
      exact Or.inr ⟨.push s.added, rfl⟩
  | write thread =>
      obtain ⟨-, rfl⟩ := of_guarded taken
      exact Or.inl rfl
  | unlock thread =>
      obtain ⟨-, rfl⟩ := of_guarded taken
      exact Or.inl rfl
  | hold thread =>
      obtain ⟨-, rfl⟩ := of_guarded taken
      exact Or.inl rfl
  | release thread =>
      obtain ⟨-, rfl⟩ := of_guarded taken
      exact Or.inl rfl
  | stop thread =>
      obtain ⟨-, rfl⟩ := of_guarded taken
      exact Or.inr ⟨.stop, rfl⟩
  | stopWrite thread =>
      obtain ⟨-, rfl⟩ := of_guarded taken
      exact Or.inl rfl
  | run =>
      obtain ⟨⟨⟨outside, -⟩, notLoop⟩, rfl⟩ := of_guarded taken
      apply turns_of_phase outside .run
      rw [notLoop]
      rfl
  | test =>
      obtain ⟨⟨testing, -⟩, rfl⟩ := of_guarded taken
      apply turns_of_phase testing .test
      cases s.isLoop <;> rfl
  | wait =>
      obtain ⟨⟨polling, -⟩, rfl⟩ := of_guarded taken
      exact Or.inl (turn_of_phase polling).symm
  | wake reports =>
      obtain ⟨⟨⟨waiting, -⟩, -⟩, rfl⟩ := of_guarded taken
      exact turns_of_phase waiting (.wake reports) rfl
  | interrupted =>
      obtain ⟨⟨waiting, -⟩, rfl⟩ := of_guarded taken
      exact turns_of_phase waiting (.wake []) rfl
  | handle =>
      rcases of_handle taken with ⟨rest, handling, rfl⟩ | ⟨fd, rest, handling, rfl⟩
      · apply turns_of_phase handling .report
        rw [handleRead]
        split <;> rfl
      · exact turns_of_phase handling .report rfl
  | handlerEnd =>
      obtain ⟨rest, inHandler, rfl⟩ := of_handlerEnd taken
      exact Or.inl (turn_of_phase inHandler).symm
  | pollEnd =>
      obtain ⟨⟨handling, -⟩, rfl⟩ := of_guarded taken
      exact Or.inl (turn_of_phase handling).symm
  | runLock =>
      obtain ⟨⟨⟨locking, -⟩, -⟩, rfl⟩ := of_guarded taken
      exact Or.inl (turn_of_phase locking).symm
  | swap =>
      obtain ⟨⟨swapping, -⟩, rfl⟩ := of_guarded taken
      exact turns_of_phase swapping .swap rfl
  | runUnlock =>
      obtain ⟨⟨swapped, -⟩, rfl⟩ := of_guarded taken
      exact Or.inl (turn_of_phase swapped).symm
  | callback =>
      obtain ⟨cb, rest, now, ⟨callbacks, -⟩, rfl⟩ := of_callback taken
      apply turns_of_phase callbacks .callback
      rw [now]
      rfl
  | callbackEnd =>
      obtain ⟨⟨inCallback, -⟩, rfl⟩ := of_guarded taken
      exact Or.inl (turn_of_phase inCallback).symm
  | callbacksEnd =>
      obtain ⟨⟨⟨callbacks, -⟩, done⟩, rfl⟩ := of_guarded taken
      apply turns_of_phase callbacks .callbacksEnd
      rw [done]
      simp [CallbackLoop.step, RunPhase.turn, EventLoop.turn]

/-- What the interleavings of the threads do is what some turns do. -/
theorem run_turns {loop : Thread} {s last : EventLoop Thread} {events : List (Event Thread)}
    (run : runFrom (fun s => s.step loop) s events = some last) :
    ∃ turns, runFrom CallbackLoop.step s.turn turns = some last.turn :=
  run_of_stutters turn (fun _ _ _ => step_turn) run

end EventLoop

end SimpleWebServer.Reactor
