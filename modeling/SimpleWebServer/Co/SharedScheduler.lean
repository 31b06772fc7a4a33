import SimpleWebServer.Co.CorouteScheduler
import SimpleWebServer.Lib.Runs

/-!
# A scheduler shared by two threads

In `TCPServer2` the thread that accepts connections calls `add_callback` of the schedulers
of the other threads.  Here the accesses to `ready_queue` and `is_schedule` and the calls
of `add_callback_after` are single steps of the two threads, in any order.  The flag is set
after the callback was posted and cleared after the queue was found empty: a `schedule_co`
of the other thread can fall between.
-/

namespace SimpleWebServer.Co

open SimpleWebServer.Lib.Runs

inductive Thread where
  /-- the thread that runs `accept_cb` -/
  | acceptor
  /-- the thread of the scheduler's loop -/
  | worker
  deriving DecidableEq, Repr

/-- Where a thread is in `add_callback` or `schedule_co`. -/
inductive Caller where
  | outside
  /-- behind `ready_queue.push_back`, before the test of `is_schedule` -/
  | pushed
  /-- behind the test, before `add_callback_after` -/
  | posting
  /-- behind `add_callback_after`, before `is_schedule = true` -/
  | setting
  deriving DecidableEq, Repr

/-- Where the worker's loop is. -/
inductive LoopPhase where
  /-- outside `handle_co`: in `poll`, or between two callbacks -/
  | idle
  /-- before `ready_queue.empty()` -/
  | testing
  /-- before `ready_queue.front()` -/
  | taking
  /-- before `ready_queue.pop_front()` -/
  | popping (nowCo : Coroutine)
  /-- in the resumed coroutine -/
  | running (nowCo : Coroutine)
  /-- before `is_schedule = false` -/
  | clearing
  deriving DecidableEq, Repr

/-- What the two threads share, and where they are. -/
structure SharedScheduler where
  readyQueue : List Coroutine := []
  isSchedule : Bool := false
  /-- the `handle_co` callbacks in `cb_list` -/
  cbList : Nat := 0
  /-- those that the loop has swapped out and not yet run -/
  nowCbList : Nat := 0
  acceptor : Caller := .outside
  worker : Caller := .outside
  loop : LoopPhase := .idle
  deriving DecidableEq, Repr

namespace SharedScheduler

inductive Event where
  /-- `ready_queue.push_back(co)` in `add_callback` or `schedule_co` -/
  | push (thread : Thread) (co : Coroutine)
  /-- `if (!is_schedule)` -/
  | readFlag (thread : Thread)
  /-- `loop->add_callback_after(cb)` -/
  | post (thread : Thread)
  /-- `is_schedule = true` -/
  | setFlag (thread : Thread)
  /-- `now_cb_list.swap(cb_list)` -/
  | swap
  /-- the loop runs a `handle_co` callback -/
  | runCallback
  /-- `ready_queue.empty()` -/
  | testQueue
  /-- `ready_queue.front()` -/
  | front
  /-- `ready_queue.pop_front()` -/
  | popFront
  /-- the coroutine gives back control -/
  | yield
  /-- `is_schedule = false` -/
  | clear
  deriving DecidableEq, Repr

def caller (s : SharedScheduler) : Thread → Caller
  | .acceptor => s.acceptor
  | .worker => s.worker

def setCaller (s : SharedScheduler) (thread : Thread) (caller : Caller) : SharedScheduler :=
  match thread with
  | .acceptor => { s with acceptor := caller }
  | .worker => { s with worker := caller }

/-- A thread can call `schedule_co`; the worker does so in its callbacks and coroutines. -/
def mayCall (s : SharedScheduler) : Thread → Bool
  | .acceptor => true
  | .worker =>
      match s.loop with
      | .idle => true
      | .running _ => true
      | _ => false

/-- The worker's loop goes on: it is not in a call of its own. -/
def loops (s : SharedScheduler) (phase : LoopPhase) : Prop :=
  s.loop = phase ∧ s.worker = .outside

instance (s : SharedScheduler) (phase : LoopPhase) : Decidable (s.loops phase) :=
  inferInstanceAs (Decidable (s.loop = phase ∧ s.worker = .outside))

/-- One atomic step of one thread. -/
def step (s : SharedScheduler) : Event → Option SharedScheduler
  | .push thread co =>
      if s.caller thread = .outside ∧ s.mayCall thread = true then
        some ({ s with readyQueue := s.readyQueue ++ [co] }.setCaller thread .pushed)
      else none
  | .readFlag thread =>
      if s.caller thread = .pushed then
        some (s.setCaller thread (if s.isSchedule then .outside else .posting))
      else none
  | .post thread =>
      if s.caller thread = .posting then
        some ({ s with cbList := s.cbList + 1 }.setCaller thread .setting)
      else none
  | .setFlag thread =>
      if s.caller thread = .setting then
        some ({ s with isSchedule := true }.setCaller thread .outside)
      else none
  | .swap =>
      if s.loops .idle ∧ s.nowCbList = 0 then
        some { s with nowCbList := s.cbList, cbList := 0 }
      else none
  | .runCallback =>
      if s.loops .idle ∧ 0 < s.nowCbList then
        some { s with nowCbList := s.nowCbList - 1, loop := .testing }
      else none
  | .testQueue =>
      if s.loops .testing then
        some { s with loop := if s.readyQueue = [] then .clearing else .taking }
      else none
  | .front =>
      match s.readyQueue with
      | co :: _ => if s.loops .taking then some { s with loop := .popping co } else none
      | [] => none
  | .popFront =>
      match s.loop with
      | .popping co => some { s with readyQueue := s.readyQueue.tail, loop := .running co }
      | _ => none
  | .yield =>
      match s.loop with
      | .running _ => if s.worker = .outside then some { s with loop := .testing } else none
      | _ => none
  | .clear =>
      if s.loop = .clearing then some { s with isSchedule := false, loop := .idle } else none

def new : SharedScheduler := {}

/-- The `handle_co` callbacks that the worker's loop is going to run. -/
def pending (s : SharedScheduler) : Nat := s.cbList + s.nowCbList

/-- With no thread inside the two functions, queued coroutines and the flag mean a callback. -/
def NotLost (s : SharedScheduler) : Prop :=
  s.acceptor = .outside ∧ s.worker = .outside ∧ s.loop = .idle →
    s.readyQueue ≠ [] ∨ s.isSchedule = true → 0 < s.pending

instance : DecidablePred NotLost := fun s =>
  inferInstanceAs (Decidable (s.acceptor = .outside ∧ s.worker = .outside ∧ s.loop = .idle →
    s.readyQueue ≠ [] ∨ s.isSchedule = true → 0 < s.pending))

/--
The condition on a step: the flag is cleared while another callback is pending, or while
the acceptor is not about to set it and the queue is empty or the acceptor is going to find
the flag cleared.
-/
def ClearsInTime (s : SharedScheduler) : Event → Prop
  | .clear => 0 < s.pending ∨
      (s.acceptor ≠ .setting ∧ (s.readyQueue = [] ∨ s.acceptor ≠ .outside))
  | _ => True

instance (s : SharedScheduler) : DecidablePred s.ClearsInTime
  | .clear => inferInstanceAs (Decidable (0 < s.pending ∨
      (s.acceptor ≠ .setting ∧ (s.readyQueue = [] ∨ s.acceptor ≠ .outside))))
  | .push _ _ => .isTrue trivial
  | .readFlag _ => .isTrue trivial
  | .post _ => .isTrue trivial
  | .setFlag _ => .isTrue trivial
  | .swap => .isTrue trivial
  | .runCallback => .isTrue trivial
  | .testQueue => .isTrue trivial
  | .front => .isTrue trivial
  | .popFront => .isTrue trivial
  | .yield => .isTrue trivial

/-! ## One thread alone -/

/-- The two-thread state shows the fields of a scheduler. -/
structure Shows (s : SharedScheduler) (single : CorouteScheduler) : Prop where
  readyQueue : s.readyQueue = single.readyQueue.map Ready.co
  isSchedule : s.isSchedule = single.isSchedule
  cbList : s.cbList = single.cbList

/-- The steps of a call that no other thread interrupts. -/
def callSteps (s : SharedScheduler) (thread : Thread) (co : Coroutine) : List Event :=
  if s.isSchedule then [.push thread co, .readFlag thread]
  else [.push thread co, .readFlag thread, .post thread, .setFlag thread]

@[simp]
theorem setCaller_caller (s : SharedScheduler) (thread : Thread) (caller : Caller) :
    (s.setCaller thread caller).caller thread = caller := by
  cases thread <;> rfl

@[simp]
theorem setCaller_readyQueue (s : SharedScheduler) (thread : Thread) (caller : Caller) :
    (s.setCaller thread caller).readyQueue = s.readyQueue := by
  cases thread <;> rfl

@[simp]
theorem setCaller_isSchedule (s : SharedScheduler) (thread : Thread) (caller : Caller) :
    (s.setCaller thread caller).isSchedule = s.isSchedule := by
  cases thread <;> rfl

@[simp]
theorem setCaller_cbList (s : SharedScheduler) (thread : Thread) (caller : Caller) :
    (s.setCaller thread caller).cbList = s.cbList := by
  cases thread <;> rfl

@[simp]
theorem setCaller_nowCbList (s : SharedScheduler) (thread : Thread) (caller : Caller) :
    (s.setCaller thread caller).nowCbList = s.nowCbList := by
  cases thread <;> rfl

@[simp]
theorem setCaller_loop (s : SharedScheduler) (thread : Thread) (caller : Caller) :
    (s.setCaller thread caller).loop = s.loop := by
  cases thread <;> rfl

/-- Uninterrupted, the steps of a call are `schedule_co` of the scheduler. -/
theorem callSteps_scheduleCo {s : SharedScheduler} {single : CorouteScheduler}
    (shows : s.Shows single) {thread : Thread} (outside : s.caller thread = .outside)
    (may : s.mayCall thread = true) (entry : Ready) :
    ∃ last, runFrom step s (s.callSteps thread entry.co) = some last ∧
      last.Shows (single.scheduleCo entry) ∧ last.caller thread = .outside := by
  have flag := shows.isSchedule
  unfold callSteps
  cases known : s.isSchedule with
  | true =>
      rw [known] at flag
      refine ⟨_, by simp [runFrom, step, outside, may, known]; rfl, ⟨?_, ?_, ?_⟩, by simp⟩
      · simp [CorouteScheduler.scheduleCo, CorouteScheduler.push, shows.readyQueue]
      · simp [CorouteScheduler.scheduleCo, CorouteScheduler.push, CorouteScheduler.wake, ← flag]
      · simp [CorouteScheduler.scheduleCo, CorouteScheduler.push, CorouteScheduler.wake,
          ← flag, shows.cbList]
  | false =>
      rw [known] at flag
      refine ⟨_, by simp [runFrom, step, outside, may, known]; rfl, ⟨?_, ?_, ?_⟩, by simp⟩
      · simp [CorouteScheduler.scheduleCo, CorouteScheduler.push, shows.readyQueue]
      · simp [CorouteScheduler.scheduleCo, CorouteScheduler.push, CorouteScheduler.wake, ← flag]
      · simp [CorouteScheduler.scheduleCo, CorouteScheduler.push, CorouteScheduler.wake,
          ← flag, shows.cbList]

/-! ## The invariant -/

/-- A callback is pending, or the worker is in `handle_co`. -/
def Attended (s : SharedScheduler) : Prop := 0 < s.pending ∨ s.loop ≠ .idle

/--
Whoever relies on `handle_co` is attended: the flag, a thread that is about to set it, and
the queue, unless a thread is still going to look at the flag or to post.
-/
structure Inv (s : SharedScheduler) : Prop where
  ownCall : s.worker ≠ .outside → s.mayCall .worker = true
  setting : ∀ thread, s.caller thread = .setting → s.Attended
  flag : s.isSchedule = true → s.Attended
  queue : s.readyQueue ≠ [] →
    s.Attended ∨ ∃ thread, s.caller thread = .pushed ∨ s.caller thread = .posting

theorem new_inv : new.Inv := by
  constructor
  · simp [new]
  · intro thread setting
    cases thread <;> cases setting
  · simp [new]
  · simp [new]

theorem Inv.notLost {s : SharedScheduler} (inv : s.Inv) : s.NotLost := by
  rintro ⟨acceptor, worker, idle⟩ relies
  have attended : s.Attended := by
    rcases relies with queued | flagged
    · rcases inv.queue queued with attended | ⟨thread, inside⟩
      · exact attended
      · cases thread with
        | acceptor => simp [caller, acceptor] at inside
        | worker => simp [caller, worker] at inside
    · exact inv.flag flagged
  rcases attended with pending | inside
  · exact pending
  · exact absurd idle inside

/-! ## The steps of a call -/

theorem setCaller_caller_other (s : SharedScheduler) {thread other : Thread} (caller : Caller)
    (different : other ≠ thread) : (s.setCaller thread caller).caller other = s.caller other := by
  cases thread <;> cases other <;> simp [setCaller, SharedScheduler.caller] at different ⊢

theorem setCaller_pending (s : SharedScheduler) (thread : Thread) (caller : Caller) :
    (s.setCaller thread caller).pending = s.pending := by
  rw [pending, setCaller_cbList, setCaller_nowCbList, pending]

theorem setCaller_attended {s : SharedScheduler} {thread : Thread} {caller : Caller} :
    (s.setCaller thread caller).Attended ↔ s.Attended := by
  rw [Attended, setCaller_pending, setCaller_loop, Attended]

/--
A step of a call moves its thread to the position `caller`.  The other thread stays where
it is, and what relied on `handle_co` before still may.
-/
theorem Inv.call {s shared : SharedScheduler} (inv : s.Inv) {thread : Thread} {caller : Caller}
    (same : ∀ other, shared.caller other = s.caller other) (loop : shared.loop = s.loop)
    (attended : s.Attended → shared.Attended)
    (allowed : caller ≠ .outside → s.mayCall thread = true)
    (setting : caller = .setting → shared.Attended)
    (flag : shared.isSchedule = true → shared.Attended)
    (queue : shared.readyQueue ≠ [] → shared.Attended ∨ caller = .pushed ∨ caller = .posting ∨
      (s.readyQueue ≠ [] ∧ s.caller thread ≠ .pushed ∧ s.caller thread ≠ .posting)) :
    (shared.setCaller thread caller).Inv := by
  constructor
  · intro inside
    cases thread with
    | acceptor =>
        have worker : s.worker ≠ .outside := by
          rw [show s.worker = shared.worker from (same .worker).symm]
          exact inside
        simpa [mayCall, setCaller, loop] using inv.ownCall worker
    | worker => simpa [mayCall, setCaller, loop] using allowed inside
  · intro other isSetting
    rw [setCaller_attended]
    by_cases own : other = thread
    · rw [own, setCaller_caller] at isSetting
      exact setting isSetting
    · rw [setCaller_caller_other shared caller own, same] at isSetting
      exact attended (inv.setting other isSetting)
  · intro flagged
    rw [setCaller_attended]
    exact flag (by simpa using flagged)
  · intro queued
    rw [setCaller_attended]
    rcases queue (by simpa using queued) with
      now | pushed | posting | ⟨before, notPushed, notPosting⟩
    · exact Or.inl now
    · exact Or.inr ⟨thread, Or.inl (by rw [setCaller_caller]; exact pushed)⟩
    · exact Or.inr ⟨thread, Or.inr (by rw [setCaller_caller]; exact posting)⟩
    · rcases inv.queue before with old | ⟨other, inside⟩
      · exact Or.inl (attended old)
      · refine Or.inr ⟨other, ?_⟩
        have different : other ≠ thread := by
          rintro rfl
          rcases inside with pushed | posting
          · exact notPushed pushed
          · exact notPosting posting
        rw [setCaller_caller_other shared caller different, same]
        exact inside

/-- A thread in a call is at a place where it may call. -/
theorem Inv.mayCall {s : SharedScheduler} (inv : s.Inv) {thread : Thread}
    (inside : s.caller thread ≠ .outside) : s.mayCall thread = true := by
  cases thread with
  | acceptor => rfl
  | worker => exact inv.ownCall inside

theorem Inv.push {s : SharedScheduler} (inv : s.Inv) {thread : Thread} (co : Coroutine)
    (may : s.mayCall thread = true) :
    ({ s with readyQueue := s.readyQueue ++ [co] }.setCaller thread .pushed).Inv := by
  refine inv.call (fun other => by cases other <;> rfl) rfl id (fun _ => may) nofun inv.flag ?_
  intro _
  exact Or.inr (Or.inl rfl)

theorem Inv.readFlag {s : SharedScheduler} (inv : s.Inv) {thread : Thread}
    (pushed : s.caller thread = .pushed) :
    (s.setCaller thread (if s.isSchedule then .outside else .posting)).Inv := by
  have inside : s.mayCall thread = true := inv.mayCall (by rw [pushed]; nofun)
  cases flag : s.isSchedule with
  | true =>
      have attended := inv.flag flag
      exact inv.call (fun _ => rfl) rfl id nofun nofun (fun _ => attended) fun _ => Or.inl attended
  | false =>
      refine inv.call (fun _ => rfl) rfl id (fun _ => inside) nofun inv.flag ?_
      intro _
      exact Or.inr (Or.inr (Or.inl rfl))

theorem Inv.post {s : SharedScheduler} (inv : s.Inv) {thread : Thread}
    (posting : s.caller thread = .posting) :
    ({ s with cbList := s.cbList + 1 }.setCaller thread .setting).Inv := by
  have inside : s.mayCall thread = true := inv.mayCall (by rw [posting]; nofun)
  have attended : { s with cbList := s.cbList + 1 }.Attended := by
    apply Or.inl
    change 0 < s.cbList + 1 + s.nowCbList
    omega
  exact inv.call (fun other => by cases other <;> rfl) rfl (fun _ => attended) (fun _ => inside)
    (fun _ => attended) (fun _ => attended) fun _ => Or.inl attended

theorem Inv.setFlag {s : SharedScheduler} (inv : s.Inv) {thread : Thread}
    (setting : s.caller thread = .setting) :
    ({ s with isSchedule := true }.setCaller thread .outside).Inv := by
  have attended : s.Attended := inv.setting thread setting
  exact inv.call (fun other => by cases other <;> rfl) rfl id nofun nofun (fun _ => attended)
    fun _ => Or.inl attended

/-! ## The steps of the loop -/

/-- Between the accesses of `handle_co` the worker is in no call of its own. -/
theorem Inv.outside {s : SharedScheduler} (inv : s.Inv) (busy : s.mayCall .worker = false) :
    s.worker = .outside := by
  by_contra inCall
  have may := inv.ownCall inCall
  rw [busy] at may
  cases may

/-- A step of `handle_co` that stays inside it. -/
theorem Inv.of_inside {next : SharedScheduler} (outside : next.worker = .outside)
    (loop : next.loop ≠ .idle) : next.Inv := by
  have attended : next.Attended := Or.inr loop
  constructor
  · intro inCall
    exact absurd outside inCall
  · exact fun _ _ => attended
  · exact fun _ => attended
  · exact fun _ => Or.inl attended

theorem Inv.swap {s : SharedScheduler} (inv : s.Inv) (none : s.nowCbList = 0) :
    { s with nowCbList := s.cbList, cbList := 0 }.Inv := by
  have same : ({ s with nowCbList := s.cbList, cbList := 0 } : SharedScheduler).Attended ↔
      s.Attended := by
    simp [Attended, pending, none]
  constructor
  · exact inv.ownCall
  · intro thread setting
    exact same.mpr (inv.setting thread (by cases thread <;> exact setting))
  · intro flag
    exact same.mpr (inv.flag flag)
  · intro queued
    rcases inv.queue queued with attended | ⟨thread, inCall⟩
    · exact Or.inl (same.mpr attended)
    · exact Or.inr ⟨thread, by cases thread <;> exact inCall⟩

/-- The end of `handle_co`, when it meets the condition. -/
theorem Inv.clear {s : SharedScheduler} (inv : s.Inv) (clearing : s.loop = .clearing)
    (met : s.ClearsInTime .clear) : { s with isSchedule := false, loop := .idle }.Inv := by
  have outside : s.worker = .outside :=
    inv.outside (by simp [SharedScheduler.mayCall, clearing])
  constructor
  · intro inCall
    exact absurd outside inCall
  · intro thread setting
    rcases met with pending | ⟨notSetting, -⟩
    · exact Or.inl pending
    · cases thread with
      | acceptor => exact absurd setting notSetting
      | worker =>
          have setting : s.worker = .setting := setting
          rw [outside] at setting
          cases setting
  · intro flag
    cases flag
  · intro queued
    rcases met with pending | ⟨notSetting, empty | inCall⟩
    · exact Or.inl (Or.inl pending)
    · exact absurd empty queued
    · refine Or.inr ⟨.acceptor, ?_⟩
      change s.acceptor = .pushed ∨ s.acceptor = .posting
      cases position : s.acceptor with
      | outside => exact absurd position inCall
      | pushed => exact Or.inl rfl
      | posting => exact Or.inr rfl
      | setting => exact absurd position notSetting

theorem Inv.step {s next : SharedScheduler} {event : Event} (inv : s.Inv)
    (met : s.ClearsInTime event) (taken : s.step event = some next) : next.Inv := by
  cases event with
  | push thread co =>
      obtain ⟨enabled, rfl⟩ := of_guarded taken
      exact inv.push co enabled.2
  | readFlag thread =>
      obtain ⟨pushed, rfl⟩ := of_guarded taken
      exact inv.readFlag pushed
  | post thread =>
      obtain ⟨posting, rfl⟩ := of_guarded taken
      exact inv.post posting
  | setFlag thread =>
      obtain ⟨setting, rfl⟩ := of_guarded taken
      exact inv.setFlag setting
  | swap =>
      obtain ⟨enabled, rfl⟩ := of_guarded taken
      exact inv.swap enabled.2
  | runCallback =>
      obtain ⟨enabled, rfl⟩ := of_guarded taken
      exact Inv.of_inside enabled.1.2 nofun
  | testQueue =>
      obtain ⟨testing, rfl⟩ := of_guarded taken
      refine Inv.of_inside testing.2 ?_
      dsimp only
      split <;> nofun
  | front =>
      simp only [SharedScheduler.step] at taken
      split at taken
      · split at taken
        · next taking =>
            cases taken
            exact Inv.of_inside taking.2 nofun
        · cases taken
      · cases taken
  | popFront =>
      simp only [SharedScheduler.step] at taken
      split at taken
      · next co popping =>
          cases taken
          exact Inv.of_inside (inv.outside (by simp [SharedScheduler.mayCall, popping])) nofun
      · cases taken
  | yield =>
      simp only [SharedScheduler.step] at taken
      split at taken
      · split at taken
        · next outside =>
            cases taken
            exact Inv.of_inside outside nofun
        · cases taken
      · cases taken
  | clear =>
      obtain ⟨clearing, rfl⟩ := of_guarded taken
      exact inv.clear clearing met

/-- While the flag is cleared in time, no scheduled coroutine is lost. -/
theorem allNotLost_of_clearsInTime (events : List Event)
    (meets : StepsMeet step ClearsInTime new events) : AllStates step NotLost new events :=
  allStates_of_stepsMeet Inv (fun _ _ _ => Inv.step) (fun _ inv => inv.notLost)
    events new_inv meets

/-- The acceptor adds two coroutines, the second while the first one runs. -/
theorem allNotLost_of_clearsInTime_twoCoroutines :
    AllStates step NotLost new [.push .acceptor 1, .readFlag .acceptor, .post .acceptor,
      .setFlag .acceptor, .swap, .runCallback, .testQueue, .front, .popFront,
      .push .acceptor 2, .readFlag .acceptor, .yield, .testQueue, .front, .popFront, .yield,
      .testQueue, .clear] :=
  allNotLost_of_clearsInTime _ (by decide)

/-- The flag is set after `handle_co` has run to its end: no later call posts a callback. -/
theorem flagSetLate_loses : ¬ ∀ events : List Event, AllStates step NotLost new events := by
  intro all
  exact absurd
    (all [.push .acceptor 1, .readFlag .acceptor, .post .acceptor, .swap, .runCallback,
      .testQueue, .front, .popFront, .yield, .testQueue, .clear, .setFlag .acceptor])
    (by decide)

/-! ## The condition leaves out nothing else -/

/-- At rest without a callback, a queued coroutine or the flag is lost. -/
theorem lost_of_rest {s : SharedScheduler}
    (rest : s.acceptor = .outside ∧ s.worker = .outside ∧ s.loop = .idle)
    (relies : s.readyQueue ≠ [] ∨ s.isSchedule = true) (none : s.pending = 0) : ¬ s.NotLost := by
  intro notLost
  have positive := notLost rest relies
  omega

/-- A flag that is cleared out of time leads to a lost coroutine at once, or when it is set. -/
theorem lost_of_clearedOutOfTime {s next : SharedScheduler} (inv : s.Inv)
    (taken : s.step .clear = some next) (broken : ¬ s.ClearsInTime .clear) :
    Reaches step (fun last => ¬ last.NotLost) next := by
  obtain ⟨clearing, rfl⟩ := of_guarded taken
  have outside : s.worker = .outside :=
    inv.outside (by simp [SharedScheduler.mayCall, clearing])
  simp only [ClearsInTime, not_or, not_and, Nat.not_lt, Nat.le_zero] at broken
  obtain ⟨none, relies⟩ := broken
  by_cases setting : s.acceptor = .setting
  · -- the acceptor sets the flag behind a `handle_co` that has ended
    have sets : step { s with isSchedule := false, loop := .idle } (.setFlag .acceptor) =
        some { s with isSchedule := true, loop := .idle, acceptor := .outside } := by
      simp [step, caller, setCaller, setting]
    exact reaches_next sets
      (reaches_now (lost_of_rest ⟨rfl, outside, rfl⟩ (Or.inr rfl) none))
  · obtain ⟨queued, atRest⟩ := relies setting
    exact reaches_now (lost_of_rest ⟨not_not.mp atRest, outside, rfl⟩ (Or.inl queued) none)

end SharedScheduler

end SimpleWebServer.Co
