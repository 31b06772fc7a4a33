import Mathlib.Data.Fin.Basic
import Mathlib.Logic.Function.Basic
import SimpleWebServer.Lib.Runs
import SimpleWebServer.Lib.Tables

/-!
# Stopping a pool of loops

`EventloopPool::start` spawns a thread for each loop and returns.  The thread sets `is_loop`
when it comes to it, and `stop` clears the flags one after the other, from any thread.  Nothing
orders the two, so a flag may be set behind the `stop` that was to clear it.
-/

namespace SimpleWebServer.Reactor

open SimpleWebServer.Lib SimpleWebServer.Lib.Runs

/-- Where the thread of a loop is in `EventLoop::run`. -/
inductive RunPosition where
  /-- the thread has not been spawned -/
  | unborn
  /-- before `assertm(is_loop == false)` -/
  | entered
  /-- before `thread_id = gettid()` -/
  | asserted
  /-- before `is_loop = true` -/
  | bound
  /-- before the test of `while (is_loop)` -/
  | testing
  /-- in the body of the loop -/
  | looping
  | ended
  /-- the assertion has thrown -/
  | threw
  deriving DecidableEq, Repr

/-- The thread will not set `is_loop` any more. -/
def RunPosition.hasSet : RunPosition → Bool
  | .testing => true
  | .looping => true
  | .ended => true
  | .threw => true
  | _ => false

/-- A call of `EventloopPool::stop`. -/
structure StopCall where
  /-- the loops whose flag it has cleared -/
  cleared : Nat := 0
  /-- the `activate` for the last of them is still to come -/
  activating : Bool := false
  /-- `start` had returned when it was made -/
  afterStart : Bool
  deriving DecidableEq, Repr

/-- The loops of a pool with the threads that `start` spawns, and callers of `stop`. -/
structure LoopThreads (nThread : Nat) (Caller : Type) where
  isLoop : Fin nThread → Bool := fun _ => false
  /-- the thread that a loop was bound to -/
  threadId : Fin nThread → Option (Fin nThread) := fun _ => none
  position : Fin nThread → RunPosition := fun _ => .unborn
  /-- the threads that `start` has spawned, when it has been called -/
  spawned : Option Nat := none
  stops : Caller → Option StopCall := fun _ => none
  /-- a `stop` that was called after `start` had returned has returned -/
  stopped : Bool := false

namespace LoopThreads

variable {nThread : Nat} {Caller : Type} [DecidableEq Caller]

inductive Event (nThread : Nat) (Caller : Type) where
  /-- `start` is called -/
  | start
  /-- `start` spawns the next thread -/
  | spawn
  /-- the assertion of `run` -/
  | assertm (i : Fin nThread)
  /-- `thread_id = gettid()` -/
  | bind (i : Fin nThread)
  /-- `is_loop = true` -/
  | set (i : Fin nThread)
  /-- `while (is_loop)` -/
  | test (i : Fin nThread)
  /-- the body of the loop is done -/
  | turn (i : Fin nThread)
  /-- `EventloopPool::stop` is called -/
  | stop (caller : Caller)
  /-- `is_loop = false` for the next loop -/
  | clear (caller : Caller)
  /-- `activater->activate()` of that loop -/
  | activate (caller : Caller)
  /-- `stop` returns -/
  | stopReturn (caller : Caller)
  deriving DecidableEq, Repr

/-- `start` has returned. -/
def Started (s : LoopThreads nThread Caller) : Prop := s.spawned = some nThread

instance (s : LoopThreads nThread Caller) : Decidable s.Started :=
  inferInstanceAs (Decidable (_ = _))

def moveTo (s : LoopThreads nThread Caller) (i : Fin nThread) (position : RunPosition) :
    LoopThreads nThread Caller :=
  { s with position := Function.update s.position i position }

def setCall (s : LoopThreads nThread Caller) (caller : Caller) (call : Option StopCall) :
    LoopThreads nThread Caller :=
  { s with stops := Function.update s.stops caller call }

/-- `is_loop = false` in a call of `stop` -/
def clear (s : LoopThreads nThread Caller) (caller : Caller) (call : StopCall) (i : Fin nThread) :
    LoopThreads nThread Caller :=
  { s with isLoop := Function.update s.isLoop i false }.setCall caller
    (some { call with cleared := call.cleared + 1, activating := true })

def step (s : LoopThreads nThread Caller) : Event nThread Caller →
    Option (LoopThreads nThread Caller)
  | .start => if s.spawned = none then some { s with spawned := some 0 } else none
  | .spawn =>
      match s.spawned with
      | none => none
      | some count =>
          if more : count < nThread then
            some ({ s with spawned := some (count + 1) }.moveTo ⟨count, more⟩ .entered)
          else none
  | .assertm i =>
      if s.position i = .entered then
        some (s.moveTo i (if s.isLoop i then .threw else .asserted))
      else none
  | .bind i =>
      if s.position i = .asserted then
        some ({ s with threadId := Function.update s.threadId i (some i) }.moveTo i .bound)
      else none
  | .set i =>
      if s.position i = .bound then
        some ({ s with isLoop := Function.update s.isLoop i true }.moveTo i .testing)
      else none
  | .test i =>
      if s.position i = .testing then
        some (s.moveTo i (if s.isLoop i then .looping else .ended))
      else none
  | .turn i => if s.position i = .looping then some (s.moveTo i .testing) else none
  | .stop caller =>
      if s.stops caller = none then
        some (s.setCall caller (some { afterStart := decide s.Started }))
      else none
  | .clear caller =>
      match s.stops caller with
      | none => none
      | some call =>
          if more : call.cleared < nThread then
            if call.activating = false then some (s.clear caller call ⟨call.cleared, more⟩)
            else none
          else none
  | .activate caller =>
      match s.stops caller with
      | none => none
      | some call =>
          if call.activating = true then
            some (s.setCall caller (some { call with activating := false }))
          else none
  | .stopReturn caller =>
      match s.stops caller with
      | none => none
      | some call =>
          if call.cleared = nThread ∧ call.activating = false then
            some ({ s with stopped := s.stopped || call.afterStart }.setCall caller none)
          else none

/-- A new pool. -/
def new : LoopThreads nThread Caller := {}

/-- Once the pool was stopped no loop runs on. -/
def StopKept (s : LoopThreads nThread Caller) : Prop :=
  s.stopped = true → ∀ i, s.isLoop i = false

instance : DecidablePred (@StopKept nThread Caller) := fun s =>
  inferInstanceAs (Decidable (s.stopped = true → ∀ i, s.isLoop i = false))

/-- The condition on a step: a flag that is cleared behind `start` has been set before. -/
def ClearsSet (s : LoopThreads nThread Caller) : Event nThread Caller → Prop
  | .clear caller => ∀ call ∈ s.stops caller, call.afterStart = true →
      ∀ i : Fin nThread, i.val = call.cleared → (s.position i).hasSet = true
  | _ => True

instance (s : LoopThreads nThread Caller) : DecidablePred s.ClearsSet
  | .clear caller => inferInstanceAs (Decidable (∀ call ∈ s.stops caller,
      call.afterStart = true → ∀ i : Fin nThread, i.val = call.cleared →
        (s.position i).hasSet = true))
  | .start => .isTrue trivial
  | .spawn => .isTrue trivial
  | .assertm _ => .isTrue trivial
  | .bind _ => .isTrue trivial
  | .set _ => .isTrue trivial
  | .test _ => .isTrue trivial
  | .turn _ => .isTrue trivial
  | .stop _ => .isTrue trivial
  | .activate _ => .isTrue trivial
  | .stopReturn _ => .isTrue trivial

/-! ## What a step does -/

theorem of_spawn {s next : LoopThreads nThread Caller} (taken : s.step .spawn = some next) :
    ∃ (count : Nat) (more : count < nThread), s.spawned = some count ∧
      next = { s with spawned := some (count + 1) }.moveTo ⟨count, more⟩ .entered := by
  simp only [step] at taken
  split at taken
  · cases taken
  · next count spawned =>
      split at taken
      · next more => exact ⟨count, more, spawned, (Option.some.inj taken).symm⟩
      · cases taken

theorem of_clear {s next : LoopThreads nThread Caller} {caller : Caller}
    (taken : s.step (.clear caller) = some next) :
    ∃ (call : StopCall) (more : call.cleared < nThread), s.stops caller = some call ∧
      next = s.clear caller call ⟨call.cleared, more⟩ := by
  simp only [step] at taken
  split at taken
  · cases taken
  · next call called =>
      split at taken
      · next more => exact ⟨call, more, called, (of_guarded taken).2.symm⟩
      · cases taken

theorem of_activate {s next : LoopThreads nThread Caller} {caller : Caller}
    (taken : s.step (.activate caller) = some next) :
    ∃ call, s.stops caller = some call ∧
      next = s.setCall caller (some { call with activating := false }) := by
  simp only [step] at taken
  split at taken
  · cases taken
  · next call called => exact ⟨call, called, (of_guarded taken).2.symm⟩

theorem of_stopReturn {s next : LoopThreads nThread Caller} {caller : Caller}
    (taken : s.step (.stopReturn caller) = some next) :
    ∃ call, s.stops caller = some call ∧ call.cleared = nThread ∧
      next = { s with stopped := s.stopped || call.afterStart }.setCall caller none := by
  simp only [step] at taken
  split at taken
  · cases taken
  · next call called =>
      obtain ⟨⟨all, -⟩, rfl⟩ := of_guarded taken
      exact ⟨call, called, all, rfl⟩

/-- What a step does to the threads: none moves, or one is spawned, or one goes on in `run`. -/
inductive Moves (s next : LoopThreads nThread Caller) : Prop where
  | rest (spawned : next.spawned = s.spawned) (position : next.position = s.position)
  | start (none : s.spawned = none) (spawned : next.spawned = some 0)
      (position : next.position = s.position)
  | spawn (count : Nat) (more : count < nThread) (before : s.spawned = some count)
      (spawned : next.spawned = some (count + 1))
      (position : next.position = Function.update s.position ⟨count, more⟩ .entered)
  | goOn (i : Fin nThread) (after : RunPosition) (begun : s.position i ≠ .unborn)
      (born : after ≠ .unborn) (keeps : (s.position i).hasSet = true → after.hasSet = true)
      (spawned : next.spawned = s.spawned)
      (position : next.position = Function.update s.position i after)

theorem moves_of_step {s next : LoopThreads nThread Caller} {event : Event nThread Caller}
    (taken : s.step event = some next) : Moves s next := by
  -- a thread that is about to set its flag has not set it
  have goesOn {i : Fin nThread} {before after : RunPosition} {next : LoopThreads nThread Caller}
      (here : s.position i = before) (begun : before ≠ .unborn) (born : after ≠ .unborn)
      (keeps : before.hasSet = true → after.hasSet = true) (spawned : next.spawned = s.spawned)
      (position : next.position = Function.update s.position i after) : Moves s next :=
    .goOn i after (here ▸ begun) born (here ▸ keeps) spawned position
  cases event with
  | start =>
      obtain ⟨none, rfl⟩ := of_guarded taken
      exact .start none rfl rfl
  | spawn =>
      obtain ⟨count, more, spawned, rfl⟩ := of_spawn taken
      exact .spawn count more spawned rfl rfl
  | assertm i =>
      obtain ⟨entered, rfl⟩ := of_guarded taken
      refine goesOn entered (by decide) ?_ (fun hasSet => Bool.noConfusion hasSet) rfl rfl
      split <;> exact RunPosition.noConfusion
  | bind i =>
      obtain ⟨asserted, rfl⟩ := of_guarded taken
      exact goesOn asserted (by decide) RunPosition.noConfusion
        (fun hasSet => Bool.noConfusion hasSet) rfl rfl
  | set i =>
      obtain ⟨bound, rfl⟩ := of_guarded taken
      exact goesOn bound (by decide) RunPosition.noConfusion (fun _ => rfl) rfl rfl
  | test i =>
      obtain ⟨testing, rfl⟩ := of_guarded taken
      refine goesOn testing (by decide) ?_ (fun _ => ?_) rfl rfl
      · split <;> exact RunPosition.noConfusion
      · split <;> rfl
  | turn i =>
      obtain ⟨looping, rfl⟩ := of_guarded taken
      exact goesOn looping (by decide) RunPosition.noConfusion (fun _ => rfl) rfl rfl
  | stop caller =>
      obtain ⟨-, rfl⟩ := of_guarded taken
      exact .rest rfl rfl
  | clear caller =>
      obtain ⟨_, _, -, rfl⟩ := of_clear taken
      exact .rest rfl rfl
  | activate caller =>
      obtain ⟨_, -, rfl⟩ := of_activate taken
      exact .rest rfl rfl
  | stopReturn caller =>
      obtain ⟨_, -, -, rfl⟩ := of_stopReturn taken
      exact .rest rfl rfl

/-- Only a thread that has not set its flag sets one. -/
theorem isLoop_of_step {s next : LoopThreads nThread Caller} {event : Event nThread Caller}
    {i : Fin nThread} (taken : s.step event = some next) (cleared : s.isLoop i = false)
    (hasSet : (s.position i).hasSet = true) : next.isLoop i = false := by
  cases event with
  | start => exact (of_guarded taken).2 ▸ cleared
  | spawn =>
      obtain ⟨_, _, -, rfl⟩ := of_spawn taken
      exact cleared
  | assertm j => exact (of_guarded taken).2 ▸ cleared
  | bind j => exact (of_guarded taken).2 ▸ cleared
  | set j =>
      obtain ⟨bound, rfl⟩ := of_guarded taken
      have apart : i ≠ j := by
        rintro rfl
        rw [bound] at hasSet
        cases hasSet
      exact (Function.update_of_ne apart ..).trans cleared
  | test j => exact (of_guarded taken).2 ▸ cleared
  | turn j => exact (of_guarded taken).2 ▸ cleared
  | stop caller => exact (of_guarded taken).2 ▸ cleared
  | clear caller =>
      obtain ⟨call, more, -, rfl⟩ := of_clear taken
      by_cases same : i = ⟨call.cleared, more⟩
      · subst same
        exact Function.update_self ..
      · exact (Function.update_of_ne same ..).trans cleared
  | activate caller =>
      obtain ⟨_, -, rfl⟩ := of_activate taken
      exact cleared
  | stopReturn caller =>
      obtain ⟨_, -, -, rfl⟩ := of_stopReturn taken
      exact cleared

/-- Only the steps of `stop` change its calls. -/
theorem stops_of_step {s next : LoopThreads nThread Caller} {event : Event nThread Caller}
    (taken : s.step event = some next) :
    (next.stops = s.stops ∧ next.stopped = s.stopped) ∨
      ∃ caller, event = .stop caller ∨ event = .clear caller ∨ event = .activate caller ∨
        event = .stopReturn caller := by
  cases event with
  | spawn =>
      obtain ⟨_, _, -, rfl⟩ := of_spawn taken
      exact .inl ⟨rfl, rfl⟩
  | stop caller => exact .inr ⟨caller, .inl rfl⟩
  | clear caller => exact .inr ⟨caller, .inr (.inl rfl)⟩
  | activate caller => exact .inr ⟨caller, .inr (.inr (.inl rfl))⟩
  | stopReturn caller => exact .inr ⟨caller, .inr (.inr (.inr rfl))⟩
  | _ =>
      obtain ⟨-, rfl⟩ := of_guarded taken
      exact .inl ⟨rfl, rfl⟩

/-! ## A flag that stays cleared -/

/-- The flag is cleared and will not be set any more. -/
def Settled (s : LoopThreads nThread Caller) (i : Fin nThread) : Prop :=
  s.isLoop i = false ∧ (s.position i).hasSet = true

/-- The threads that `start` has not come to have not begun. -/
def Unborn (s : LoopThreads nThread Caller) : Prop :=
  ∀ i : Fin nThread, s.spawned.getD 0 ≤ i.val → s.position i = .unborn

/-- No step of any thread sets it again. -/
theorem Settled.step {s next : LoopThreads nThread Caller} {i : Fin nThread}
    {event : Event nThread Caller} (settled : s.Settled i) (unborn : s.Unborn)
    (taken : s.step event = some next) : next.Settled i := by
  refine ⟨isLoop_of_step taken settled.1 settled.2, ?_⟩
  have hasSet := settled.2
  cases moves_of_step taken with
  | rest _ position => rwa [position]
  | start _ _ position => rwa [position]
  | spawn count more before _ position =>
      have apart : i ≠ ⟨count, more⟩ := by
        rintro rfl
        rw [unborn ⟨count, more⟩ (by rw [before]; exact Nat.le_refl _)] at hasSet
        cases hasSet
      rwa [position, Function.update_of_ne apart]
  | goOn j after _ _ keeps _ position =>
      rw [position]
      by_cases same : i = j
      · subst same
        rw [Function.update_self]
        exact keeps hasSet
      · rwa [Function.update_of_ne same]

theorem Unborn.step {s next : LoopThreads nThread Caller} {event : Event nThread Caller}
    (unborn : s.Unborn) (taken : s.step event = some next) : next.Unborn := by
  intro i later
  cases moves_of_step taken with
  | rest spawned position =>
      rw [position]
      exact unborn i (spawned ▸ later)
  | start none _ position =>
      rw [position]
      exact unborn i (by rw [none]; exact Nat.zero_le _)
  | spawn count more before spawned position =>
      rw [spawned] at later
      have apart : i ≠ ⟨count, more⟩ := by
        rintro rfl
        exact absurd later (Nat.not_succ_le_self count)
      rw [position, Function.update_of_ne apart]
      exact unborn i (by rw [before]; exact Nat.le_of_succ_le later)
  | goOn j after begun _ _ spawned position =>
      have apart : i ≠ j := by
        rintro rfl
        exact begun (unborn i (spawned ▸ later))
      rw [position, Function.update_of_ne apart]
      exact unborn i (spawned ▸ later)

/-! ## When every flag has been set -/

/-- What the calls of `stop` behind `start` have cleared is settled. -/
structure Inv (s : LoopThreads nThread Caller) : Prop where
  unborn : s.Unborn
  cleared : ∀ caller call, s.stops caller = some call → call.afterStart = true →
    ∀ i : Fin nThread, i.val < call.cleared → s.Settled i
  stopped : s.stopped = true → ∀ i, s.Settled i

omit [DecidableEq Caller] in
theorem new_inv : (new : LoopThreads nThread Caller).Inv := by
  refine ⟨fun _ _ => rfl, ?_, ?_⟩
  · intro caller call called
    cases called
  · intro stopped
    cases stopped

theorem Inv.step {s next : LoopThreads nThread Caller} {event : Event nThread Caller}
    (inv : s.Inv) (met : s.ClearsSet event) (taken : s.step event = some next) : next.Inv := by
  have unborn := inv.unborn.step taken
  have kept : s.stopped = true → ∀ i, next.Settled i :=
    fun isStopped i => (inv.stopped isStopped i).step inv.unborn taken
  have stopped (same : next.stopped = s.stopped) : next.stopped = true → ∀ i, next.Settled i :=
    fun isStopped => kept (same.symm.trans isStopped)
  have cleared : ∀ caller call, s.stops caller = some call → call.afterStart = true →
      ∀ i : Fin nThread, i.val < call.cleared → next.Settled i :=
    fun caller call called afterStart i below =>
      (inv.cleared caller call called afterStart i below).step inv.unborn taken
  rcases stops_of_step taken with ⟨stops, same⟩ | ⟨caller, isEvent⟩
  · exact ⟨unborn, stops ▸ cleared, stopped same⟩
  rcases isEvent with rfl | rfl | rfl | rfl
  · obtain ⟨-, rfl⟩ := of_guarded taken
    refine ⟨unborn, Table.forall_update_some cleared fun _ i below => ?_, stopped rfl⟩
    exact absurd below (Nat.not_lt_zero _)
  · obtain ⟨call, more, called, rfl⟩ := of_clear taken
    refine ⟨unborn, Table.forall_update_some cleared fun afterStart i below => ?_, stopped rfl⟩
    rcases Nat.lt_succ_iff_lt_or_eq.mp below with before | now
    · exact cleared caller call called afterStart i before
    · have isLast : i = ⟨call.cleared, more⟩ := Fin.ext now
      subst isLast
      exact ⟨Function.update_self .., met call called afterStart _ rfl⟩
  · obtain ⟨call, called, rfl⟩ := of_activate taken
    exact ⟨unborn, Table.forall_update_some cleared (cleared caller call called), stopped rfl⟩
  · obtain ⟨call, called, all, rfl⟩ := of_stopReturn taken
    refine ⟨unborn, Table.forall_update_none cleared, fun isStopped i => ?_⟩
    rcases Bool.or_eq_true_iff.mp isStopped with before | now
    · exact kept before i
    · exact cleared caller call called now i (by rw [all]; exact i.isLt)

omit [DecidableEq Caller] in
theorem Inv.stopKept {s : LoopThreads nThread Caller} (inv : s.Inv) : s.StopKept :=
  fun stopped i => (inv.stopped stopped i).1

/-- A stop is kept in every run in which each flag it clears has been set before. -/
theorem stopKept_of_clearsSet (events : List (Event nThread Caller))
    (meets : StepsMeet step ClearsSet new events) : AllStates step StopKept new events :=
  allStates_of_stepsMeet Inv (fun _ _ _ inv met taken => inv.step met taken)
    (fun _ inv => inv.stopKept) events new_inv meets

/-- One loop that has begun to run when it is stopped. -/
def runningRun : List (Event 1 Unit) :=
  [.start, .spawn, .assertm 0, .bind 0, .set 0, .test 0, .stop (), .clear (), .activate (),
    .stopReturn (), .turn 0, .test 0]

theorem stopKept_of_clearsSet_runningRun : AllStates step StopKept new runningRun :=
  stopKept_of_clearsSet runningRun (by decide +kernel)

/-- The thread comes to its flag when `stop` has returned. -/
def lateRun : List (Event 1 Unit) :=
  [.start, .spawn, .assertm 0, .bind 0, .stop (), .clear (), .activate (), .stopReturn (), .set 0]

theorem lateRun_loses :
    ¬ ∀ (nThread : Nat) (events : List (Event nThread Unit)), 1 ≤ nThread →
      AllStates step StopKept new events := by
  intro all
  exact absurd (all 1 lateRun (by decide)) (by decide +kernel)

/-! ## A flag that is set behind its stop -/

/-- From any point of a call of `stop` the call can return, and no thread has moved meanwhile. -/
theorem reaches_return {caller : Caller} (left : Nat) {s : LoopThreads nThread Caller}
    {call : StopCall} (called : s.stops caller = some call) (activating : call.activating = true)
    (rest : call.cleared + left = nThread) :
    ∃ events last, runFrom step s events = some last ∧ last.position = s.position ∧
      (call.afterStart = true → last.stopped = true) ∧
      ∀ i, s.isLoop i = false → last.isLoop i = false := by
  induction left generalizing s call with
  | zero =>
      let waiting := { call with activating := false }
      let woken := s.setCall caller (some waiting)
      let last := { woken with stopped := s.stopped || call.afterStart }.setCall caller none
      have activated : s.step (.activate caller) = some woken := by
        simp only [step, called]
        exact if_pos activating
      have behind : woken.stops caller = some waiting := Function.update_self ..
      have returned : woken.step (.stopReturn caller) = some last := by
        simp only [step, behind]
        exact if_pos ⟨rest, rfl⟩
      refine ⟨[.activate caller, .stopReturn caller], last, ?_, rfl, ?_, fun _ => id⟩
      · rw [runFrom_next activated, runFrom_next returned, runFrom_nil]
      · intro afterStart
        change (s.stopped || call.afterStart) = true
        rw [afterStart, Bool.or_true]
  | succ left ih =>
      have more : call.cleared < nThread := by omega
      let waiting := { call with activating := false }
      let woken := s.setCall caller (some waiting)
      let cleared := woken.clear caller waiting ⟨call.cleared, more⟩
      have activated : s.step (.activate caller) = some woken := by
        simp only [step, called]
        exact if_pos activating
      have behind : woken.stops caller = some waiting := Function.update_self ..
      have stepped : woken.step (.clear caller) = some cleared := by
        simp only [step, behind]
        exact (dif_pos more).trans (if_pos rfl)
      have next : cleared.stops caller =
          some { waiting with cleared := call.cleared + 1, activating := true } :=
        Function.update_self ..
      obtain ⟨events, last, ran, position, stopped, kept⟩ := ih next rfl (by dsimp only; omega)
      refine ⟨.activate caller :: .clear caller :: events, last, ?_, position, stopped,
        fun i unset => kept i ?_⟩
      · rw [runFrom_next activated, runFrom_next stepped]
        exact ran
      · change Function.update s.isLoop ⟨call.cleared, more⟩ false i = false
        by_cases same : i = ⟨call.cleared, more⟩
        · rw [same, Function.update_self]
        · rw [Function.update_of_ne same]
          exact unset

/-- A thread that has begun and not set its flag can still set it, though `stop` has returned. -/
theorem reaches_set {i : Fin nThread} {s : LoopThreads nThread Caller}
    (begun : s.position i ≠ .unborn) (early : (s.position i).hasSet = false)
    (unset : s.isLoop i = false) (stopped : s.stopped = true) :
    Reaches step (fun last => ¬ last.StopKept) s := by
  have fromBound {s : LoopThreads nThread Caller} (bound : s.position i = .bound)
      (stopped : s.stopped = true) : Reaches step (fun last => ¬ last.StopKept) s := by
    refine reaches_next (show s.step (.set i) = some _ from if_pos bound)
      (reaches_now fun kept => ?_)
    have isUnset : Function.update s.isLoop i true i = false := kept stopped i
    rw [Function.update_self] at isUnset
    cases isUnset
  have fromAsserted {s : LoopThreads nThread Caller} (asserted : s.position i = .asserted)
      (stopped : s.stopped = true) : Reaches step (fun last => ¬ last.StopKept) s :=
    reaches_next (show s.step (.bind i) = some _ from if_pos asserted)
      (fromBound (Function.update_self ..) stopped)
  cases here : s.position i with
  | unborn => exact absurd here begun
  | entered =>
      have stepped : s.step (.assertm i) = some (s.moveTo i .asserted) := by
        rw [step, if_pos here, unset]
        rfl
      exact reaches_next stepped (fromAsserted (Function.update_self ..) stopped)
  | asserted => exact fromAsserted here stopped
  | bound => exact fromBound here stopped
  | testing => rw [here] at early; cases early
  | looping => rw [here] at early; cases early
  | ended => rw [here] at early; cases early
  | threw => rw [here] at early; cases early

/-- The threads that `start` has spawned have begun, and `start` stays returned. -/
structure Begun (s : LoopThreads nThread Caller) : Prop where
  position : ∀ i : Fin nThread, i.val < s.spawned.getD 0 → s.position i ≠ .unborn
  started : ∀ caller call, s.stops caller = some call → call.afterStart = true → s.Started

omit [DecidableEq Caller] in
theorem new_begun : (new : LoopThreads nThread Caller).Begun := by
  constructor
  · intro i below
    exact absurd below (Nat.not_lt_zero _)
  · intro caller call called
    cases called

/-- The threads up to the one that `start` spawns have begun, and go on. -/
theorem Begun.position_step {s next : LoopThreads nThread Caller} {event : Event nThread Caller}
    (begun : s.Begun) (taken : s.step event = some next) (i : Fin nThread)
    (below : i.val < next.spawned.getD 0) : next.position i ≠ .unborn := by
  cases moves_of_step taken with
  | rest spawned position =>
      rw [position]
      exact begun.position i (spawned ▸ below)
  | start _ spawned _ =>
      rw [spawned] at below
      exact absurd below (Nat.not_lt_zero _)
  | spawn count more before spawned position =>
      rw [position]
      by_cases same : i = ⟨count, more⟩
      · rw [same, Function.update_self]
        exact RunPosition.noConfusion
      · rw [Function.update_of_ne same]
        have apart : i.val ≠ count := fun isCount => same (Fin.ext isCount)
        rw [spawned] at below
        have upTo : i.val < count + 1 := below
        apply begun.position i
        rw [before]
        change i.val < count
        omega
  | goOn j after _ born _ spawned position =>
      rw [position]
      by_cases same : i = j
      · rw [same, Function.update_self]
        exact born
      · rw [Function.update_of_ne same]
        exact begun.position i (spawned ▸ below)

/-- When `start` has returned no step takes that back. -/
theorem Started.step {s next : LoopThreads nThread Caller} {event : Event nThread Caller}
    (started : s.Started) (taken : s.step event = some next) : next.Started := by
  have all : s.spawned = some nThread := started
  cases moves_of_step taken with
  | rest spawned _ => exact spawned.trans all
  | start none _ _ =>
      rw [none] at all
      cases all
  | spawn count more before _ _ =>
      rw [before] at all
      exact absurd (Option.some.inj all) (Nat.ne_of_lt more)
  | goOn _ _ _ _ _ spawned _ => exact spawned.trans all

theorem Begun.step {s next : LoopThreads nThread Caller} {event : Event nThread Caller}
    (begun : s.Begun) (taken : s.step event = some next) : next.Begun := by
  refine ⟨begun.position_step taken, ?_⟩
  have started : ∀ caller call, s.stops caller = some call → call.afterStart = true →
      next.Started :=
    fun caller call called after => (begun.started caller call called after).step taken
  rcases stops_of_step taken with ⟨stops, -⟩ | ⟨caller, isEvent⟩
  · exact stops ▸ started
  rcases isEvent with rfl | rfl | rfl | rfl
  · obtain ⟨-, rfl⟩ := of_guarded taken
    exact Table.forall_update_some started of_decide_eq_true
  · obtain ⟨call, _, called, rfl⟩ := of_clear taken
    exact Table.forall_update_some started (started caller call called)
  · obtain ⟨call, called, rfl⟩ := of_activate taken
    exact Table.forall_update_some started (started caller call called)
  · obtain ⟨_, -, -, rfl⟩ := of_stopReturn taken
    exact Table.forall_update_none started

/-- A flag that is cleared behind `start` and before it was set can be set behind the stop. -/
theorem reaches_of_early {events : List (Event nThread Caller)}
    {s next : LoopThreads nThread Caller}
    (run : runFrom step new events = some s) {caller : Caller}
    (taken : s.step (.clear caller) = some next) (early : ¬ s.ClearsSet (.clear caller)) :
    Reaches step (fun last => ¬ last.StopKept) next := by
  have begun : s.Begun :=
    runFrom_invariant Begun (fun _ _ _ begun taken => begun.step taken) new_begun run
  obtain ⟨call, more, called, rfl⟩ := of_clear taken
  simp only [ClearsSet, called, Option.mem_def, Option.some.injEq, forall_eq',
    not_forall, Bool.not_eq_true] at early
  obtain ⟨afterStart, i, isLast, unset⟩ := early
  have here : i = ⟨call.cleared, more⟩ := Fin.ext isLast
  subst here
  have started : s.spawned = some nThread := begun.started caller call called afterStart
  have born : s.position ⟨call.cleared, more⟩ ≠ .unborn :=
    begun.position _ (by rw [started]; exact more)
  have behind : (s.clear caller call ⟨call.cleared, more⟩).stops caller =
      some { call with cleared := call.cleared + 1, activating := true } :=
    Function.update_self ..
  obtain ⟨later, last, ran, position, stopped, kept⟩ :=
    reaches_return (nThread - (call.cleared + 1)) behind rfl (by dsimp only; omega)
  refine reaches_behind ran (reaches_set ?_ ?_ (kept _ (Function.update_self ..))
    (stopped afterStart))
  · rw [position]
    exact born
  · rw [position]
    exact unset

end LoopThreads

end SimpleWebServer.Reactor
