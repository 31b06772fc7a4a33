import SimpleWebServer.Lib.LockStack
import SimpleWebServer.Timers.TimerCancel

/-!
# Callbacks and the mutex of the loop

The operations of an `EventLoop` lock its mutex, which is not recursive, and user code calls
them from everywhere: from its threads, from the handlers of channels, from the callbacks of
timers, and from those that were handed to the loop.  `run` is careful to invoke callbacks
outside the mutex.  `add_timer` hands the timer on to the wheel under the mutex, and the wheel
invokes the callback of an old timer at once.
-/

namespace SimpleWebServer.Reactor

open SimpleWebServer.Lib.Runs SimpleWebServer.Lib.LockStack SimpleWebServer.Timers

/-- A callback that user code has supplied. -/
inductive UserCallback where
  | timer (cb : Nat)
  | loop (cb : Nat)
  | channel (fd : Nat)
  deriving DecidableEq, Repr

/-- What is done under the mutex. -/
inductive LoopOp where
  | addTimer (timer : Timer)
  | removeTimer (id : TimerId)
  /-- `add_callback_after` -/
  | addCallbackAfter (cb : Nat)
  /-- `update_channel`, for `enable_event` and `disable_event` -/
  | updateChannel (fd : Nat)
  /-- `remove_channel`, for `~Channel` -/
  | removeChannel (fd : Nat)
  /-- `now_cb_list.swap(cb_list)` in `run` -/
  | swap
  deriving DecidableEq, Repr

/-- All but `run` is called by user code. -/
def LoopOp.isCall : LoopOp → Bool
  | .swap => false
  | _ => true

/-- One entry of the list that `epoll_wait` returns, for each handler of its channel. -/
inductive Source where
  /-- the eventfd of the `Activater` -/
  | activater
  /-- the timerfd of the `TimerSchedulerAdapter` -/
  | timer
  /-- a channel of user code -/
  | channel (fd : Nat)
  deriving DecidableEq, Repr

/-- Where a thread is in one of the functions that it has called. -/
inductive Frame where
  | callback (cb : UserCallback)
  /-- before `lock_guard` -/
  | waits (op : LoopOp)
  /-- behind `lock_guard` -/
  | holds (op : LoopOp)
  /-- before the end of the scope of `lock_guard` -/
  | unlocking
  /-- in `run`, before the test of `is_loop` -/
  | testing
  /-- in `epoll_wait` -/
  | polling
  /-- in the loop of `poll` -/
  | dispatching (reports : List Source)
  /-- in the handler of the timerfd, in `trigger_timer`, before the test of the `while` loop -/
  | triggering (atMs : Nat)
  /-- in the loop over a slot, behind the callbacks of the nodes `reached` -/
  | firing (atMs : Nat) (reached : List Nat)
  /-- in `run`, in the loop over `now_cb_list` -/
  | calling (nowCbList : List Nat)
  deriving DecidableEq, Repr

namespace Frame

/-- The thread is in the scope of `lock_guard`. -/
def inside : Frame → Bool
  | .holds _ => true
  | .unlocking => true
  | _ => false

/-- A timer that `add_timer` finds ahead of the wheel. -/
def NotOld (ti : TimerWheel) (reads : ClockReads) : Frame → Prop
  | .holds (.addTimer timer) => ti.triggerBeforeMs < TimerWheel.atMs timer reads
  | _ => True

end Frame

/-- User code runs where a thread has called no function, and in a callback. -/
def userRuns : List Frame → Bool
  | [] => true
  | .callback _ :: _ => true
  | _ => false

/-- An event loop with the threads that use it. -/
structure LockedLoop (Thread : Type) where
  ti : TimerWheel
  mu : Option Thread := none
  isLoop : Bool := false
  threadId : Option Thread := none
  cbList : List Nat := []
  /-- the address of the next list node of the wheel -/
  nextIt : Nat := 0
  /-- the functions that a thread is in, the innermost one first -/
  stack : Thread → List Frame := fun _ => []

namespace LockedLoop

variable {Thread : Type} [DecidableEq Thread]

/-- A step of `run` and of what it calls, outside the mutex. -/
inductive Move where
  /-- `while (is_loop)` -/
  | test
  /-- `epoll_wait` returns -/
  | wake (reports : List Source)
  /-- the next handler of `poll`; that of the timerfd reads the clock -/
  | handle (nowMs reading : Nat)
  /-- the test of the `while` loop of `trigger_timer` and the head of the iteration -/
  | next
  /-- the callback of the next node of the slot -/
  | fire
  /-- the end of the loop over the slot -/
  | clear
  /-- the last handler of `poll` has returned -/
  | pollEnd
  /-- the next callback of `now_cb_list` -/
  | callback
  /-- the last callback has returned -/
  | callbacksEnd
  /-- a callback returns -/
  | returns
  deriving DecidableEq, Repr

inductive Event (Thread : Type) where
  /-- user code calls an operation -/
  | call (thread : Thread) (op : LoopOp)
  /-- user code calls `add_callback` -/
  | addCallback (thread : Thread) (cb : Nat)
  | stop (thread : Thread)
  | run (thread : Thread)
  /-- `lock_guard` -/
  | lock (thread : Thread)
  /-- the operation itself; `add_timer` reads the clock -/
  | body (thread : Thread) (reads : ClockReads)
  /-- the end of the scope of `lock_guard` -/
  | unlock (thread : Thread)
  | move (thread : Thread) (move : Move)
  deriving DecidableEq, Repr

/-- The thread goes on in these functions. -/
def put (s : LockedLoop Thread) (thread : Thread) (frames : List Frame) : LockedLoop Thread :=
  { s with stack := Function.update s.stack thread frames }

/-- What an operation does under the mutex, in front of the functions `rest`. -/
def perform (s : LockedLoop Thread) (thread : Thread) (rest : List Frame) (reads : ClockReads) :
    LoopOp → LockedLoop Thread
  | .addTimer timer =>
      let added := s.ti.addTimer timer s.nextIt reads
      { s with ti := added.2, nextIt := s.nextIt + 1 }.put thread <|
        if added.1 = Added.ran then .callback (.timer timer.cb) :: .unlocking :: rest
        else .unlocking :: rest
  | .removeTimer id => { s with ti := s.ti.removeTimer id }.put thread (.unlocking :: rest)
  | .addCallbackAfter cb =>
      { s with cbList := s.cbList ++ [cb] }.put thread (.unlocking :: rest)
  | .updateChannel _ => s.put thread (.unlocking :: rest)
  | .removeChannel _ => s.put thread (.unlocking :: rest)
  | .swap => { s with cbList := [] }.put thread (.unlocking :: .calling s.cbList :: rest)

omit [DecidableEq Thread] in
/-- What comes in the place of the innermost function, and what becomes of the wheel. -/
def goOn (s : LockedLoop Thread) : Move → Frame → Option (List Frame × TimerWheel)
  | .test, .testing => some (if s.isLoop then [.polling] else [], s.ti)
  | .wake reports, .polling => some ([.dispatching reports], s.ti)
  | .handle _ _, .dispatching (.activater :: reports) => some ([.dispatching reports], s.ti)
  | .handle nowMs reading, .dispatching (.timer :: reports) =>
      some ([.triggering (getSlotTimestamp nowMs reading), .dispatching reports], s.ti)
  | .handle _ _, .dispatching (.channel fd :: reports) =>
      some ([.callback (.channel fd), .dispatching reports], s.ti)
  | .next, .triggering atMs =>
      if s.ti.triggerBeforeMs < atMs then some ([.firing atMs []], s.ti.advance)
      else some ([], s.ti)
  | .fire, .firing atMs reached =>
      (s.ti.current.find? (·.it ∉ reached)).map fun node =>
        ([.callback (.timer node.timer.cb), .firing atMs (reached ++ [node.it])], s.ti)
  | .clear, .firing atMs reached =>
      if (s.ti.current.find? (·.it ∉ reached)).isNone = true then
        some ([.triggering atMs], s.ti.clearCurrent)
      else none
  | .pollEnd, .dispatching [] => some ([.waits .swap], s.ti)
  | .callback, .calling (cb :: nowCbList) =>
      some ([.callback (.loop cb), .calling nowCbList], s.ti)
  | .callbacksEnd, .calling [] => some ([.testing], s.ti)
  | .returns, .callback _ => some ([], s.ti)
  | _, _ => none

/-- One step of one thread. -/
def step (s : LockedLoop Thread) : Event Thread → Option (LockedLoop Thread)
  | .call thread op =>
      if userRuns (s.stack thread) = true ∧ op.isCall = true then
        some (s.put thread (.waits op :: s.stack thread))
      else none
  | .addCallback thread cb =>
      if userRuns (s.stack thread) = true then
        some (s.put thread ((if s.isLoop = true ∧ s.threadId = some thread then
            .callback (.loop cb)
          else .waits (.addCallbackAfter cb)) :: s.stack thread))
      else none
  | .stop thread =>
      if userRuns (s.stack thread) = true then some { s with isLoop := false } else none
  | .run thread =>
      if userRuns (s.stack thread) = true ∧ s.isLoop = false then
        some ({ s with isLoop := true, threadId := some thread }.put thread
          (.testing :: s.stack thread))
      else none
  | .lock thread =>
      match s.stack thread with
      | .waits op :: rest =>
          if s.mu = none then some ({ s with mu := some thread }.put thread (.holds op :: rest))
          else none
      | _ => none
  | .body thread reads =>
      match s.stack thread with
      | .holds op :: rest => some (s.perform thread rest reads op)
      | _ => none
  | .unlock thread =>
      match s.stack thread with
      | .unlocking :: rest => some ({ s with mu := none }.put thread rest)
      | _ => none
  | .move thread move =>
      match s.stack thread with
      | frame :: rest =>
          (s.goOn move frame).map fun gone => { s with ti := gone.2 }.put thread (gone.1 ++ rest)
      | [] => none

omit [DecidableEq Thread] in
/-- A loop that is constructed when the clock shows `now`. -/
def new (now : Nat) : LockedLoop Thread where
  ti := .new now

omit [DecidableEq Thread] in
/-- The thread runs a callback of user code. -/
def InCallback (s : LockedLoop Thread) (thread : Thread) : Prop :=
  ∃ cb, (s.stack thread).head? = some (.callback cb)

/-- Callbacks run outside the mutex, and any operation that they call gets it. -/
structure LockFree (s : LockedLoop Thread) : Prop where
  free : ∀ thread, s.InCallback thread → s.mu ≠ some thread
  callable : ∀ thread, s.InCallback thread → ∀ op : LoopOp, op.isCall = true →
    Reaches step (fun last => last.mu = some thread ∧
      last.stack thread = .holds op :: s.stack thread) s

omit [DecidableEq Thread] in
/-- The condition on a step: the timer that is added is not an old one. -/
def NotOld (s : LockedLoop Thread) : Event Thread → Prop
  | .body thread reads => ∀ frame ∈ (s.stack thread).head?, frame.NotOld s.ti reads
  | _ => True

/-! ## Who holds the mutex -/

omit [DecidableEq Thread] in
/-- Only the thread whose innermost function is in the scope of `lock_guard` holds the mutex. -/
def Inv (s : LockedLoop Thread) : Prop := Held Frame.inside s.mu s.stack

omit [DecidableEq Thread] in
theorem inv_new (now : Nat) : (new now : LockedLoop Thread).Inv := held_new

theorem not_top_of_userRuns {frames : List Frame} (users : userRuns frames = true) :
    ¬ TopInside Frame.inside frames := by
  cases frames with
  | nil => exact outside_nil.not_top
  | cons frame rest =>
      rw [topInside_cons]
      cases frame with
      | callback cb => exact Bool.false_ne_true
      | _ => cases users

/-- `add_timer` invokes the callback of an old timer, and of no other. -/
theorem addTimer_ran_iff (ti : TimerWheel) (timer : Timer) (it : Nat) (reads : ClockReads) :
    (ti.addTimer timer it reads).1 = .ran ↔ TimerWheel.atMs timer reads ≤ ti.triggerBeforeMs := by
  simp only [TimerWheel.addTimer]
  by_cases old : TimerWheel.atMs timer reads ≤ ti.triggerBeforeMs
  · rw [if_pos old]
    exact iff_of_true rfl old
  · rw [if_neg old]
    refine iff_of_false (fun ran => ?_) old
    split at ran <;> cases ran

/-- An operation ends in front of the unlocking, or `add_timer` in a callback. -/
theorem perform_cases (s : LockedLoop Thread) (thread : Thread) (rest : List Frame)
    (reads : ClockReads) (op : LoopOp) :
    (s.perform thread rest reads op).mu = s.mu ∧
      (Frame.NotOld s.ti reads (.holds op) ∧
          (∃ run, Outside Frame.inside run ∧ (s.perform thread rest reads op).stack =
            Function.update s.stack thread (.unlocking :: (run ++ rest))) ∨
        ∃ timer : Timer, ¬ Frame.NotOld s.ti reads (.holds op) ∧
          (s.perform thread rest reads op).stack =
            Function.update s.stack thread
              (.callback (.timer timer.cb) :: .unlocking :: rest)) := by
  cases op with
  | addTimer timer =>
      by_cases old : TimerWheel.atMs timer reads ≤ s.ti.triggerBeforeMs
      · have ran := (addTimer_ran_iff s.ti timer s.nextIt reads).mpr old
        refine ⟨rfl, .inr ⟨timer, Nat.not_lt_of_le old, ?_⟩⟩
        simp only [perform, put, if_pos ran]
      · have stored := mt (addTimer_ran_iff s.ti timer s.nextIt reads).mp old
        refine ⟨rfl, .inl ⟨Nat.lt_of_not_le old, [], outside_nil, ?_⟩⟩
        simp only [perform, put, if_neg stored, List.nil_append]
  | removeTimer id => exact ⟨rfl, .inl ⟨trivial, [], outside_nil, rfl⟩⟩
  | addCallbackAfter cb => exact ⟨rfl, .inl ⟨trivial, [], outside_nil, rfl⟩⟩
  | updateChannel fd => exact ⟨rfl, .inl ⟨trivial, [], outside_nil, rfl⟩⟩
  | removeChannel fd => exact ⟨rfl, .inl ⟨trivial, [], outside_nil, rfl⟩⟩
  | swap =>
      exact ⟨rfl, .inl ⟨trivial, [.calling s.cbList], outside_cons.mpr ⟨rfl, outside_nil⟩, rfl⟩⟩

omit [DecidableEq Thread] in
/-- No step of `run` but the swap is in the scope of `lock_guard`. -/
theorem goOn_outside {s : LockedLoop Thread} {move : Move} {frame : Frame}
    {gone : List Frame × TimerWheel} (went : s.goOn move frame = some gone) :
    frame.inside = false ∧ Outside Frame.inside gone.1 := by
  have one {other : Frame} (outer : other.inside = false) : Outside Frame.inside [other] :=
    outside_cons.mpr ⟨outer, outside_nil⟩
  have two {first second : Frame} (outer : first.inside = false)
      (inner : second.inside = false) : Outside Frame.inside [first, second] :=
    outside_cons.mpr ⟨outer, one inner⟩
  unfold goOn at went
  split at went
  case h_1 =>
    cases went
    refine ⟨rfl, ?_⟩
    split
    · exact one rfl
    · exact outside_nil
  case h_6 =>
    split at went <;> cases went
    · exact ⟨rfl, one rfl⟩
    · exact ⟨rfl, outside_nil⟩
  case h_7 =>
    obtain ⟨node, -, rfl⟩ := Option.map_eq_some_iff.mp went
    exact ⟨rfl, two rfl rfl⟩
  case h_8 =>
    obtain ⟨-, rfl⟩ := of_guarded went
    exact ⟨rfl, one rfl⟩
  case h_12 =>
    cases went
    exact ⟨rfl, outside_nil⟩
  case h_13 => cases went
  all_goals
    cases went
    first
      | exact ⟨rfl, one rfl⟩
      | exact ⟨rfl, two rfl rfl⟩

/-- A thread outside the scope goes on outside it. -/
theorem Inv.goesOn {s : LockedLoop Thread} (inv : s.Inv) {thread : Thread} {frame : Frame}
    {rest : List Frame} (frames : s.stack thread = frame :: rest) (outer : frame.inside = false)
    {more : List Frame} (outside : Outside Frame.inside more) {ti : TimerWheel} :
    ({ s with ti := ti }.put thread (more ++ rest)).Inv := by
  have apart : ¬ TopInside Frame.inside (s.stack thread) := by
    rw [frames, topInside_cons, outer]
    exact Bool.false_ne_true
  have all := Held.outside inv apart
  rw [frames] at all
  exact Held.moveOutside inv apart
    (List.forall_mem_append.mpr ⟨outside, (outside_cons.mp all).2⟩)

/-- User code enters a function. -/
theorem Inv.enters {s : LockedLoop Thread} (inv : s.Inv) {thread : Thread}
    (users : userRuns (s.stack thread) = true) {frame : Frame} (outer : frame.inside = false)
    {isLoop : Bool} {threadId : Option Thread} :
    ({ s with isLoop := isLoop, threadId := threadId }.put thread
      (frame :: s.stack thread)).Inv := by
  have apart := not_top_of_userRuns users
  exact Held.moveOutside inv apart (outside_cons.mpr ⟨outer, Held.outside inv apart⟩)

theorem Inv.step {s next : LockedLoop Thread} {event : Event Thread} (inv : s.Inv)
    (notOld : s.NotOld event) (taken : s.step event = some next) : next.Inv := by
  cases event with
  | call thread op =>
      obtain ⟨⟨users, -⟩, rfl⟩ := of_guarded taken
      exact inv.enters users rfl
  | addCallback thread cb =>
      obtain ⟨users, rfl⟩ := of_guarded taken
      apply inv.enters users
      split <;> rfl
  | stop thread =>
      obtain ⟨-, rfl⟩ := of_guarded taken
      exact inv
  | run thread =>
      obtain ⟨⟨users, -⟩, rfl⟩ := of_guarded taken
      exact inv.enters users rfl
  | lock thread =>
      simp only [LockedLoop.step] at taken
      split at taken
      · next op rest frames =>
          obtain ⟨free, rfl⟩ := of_guarded taken
          have below := Held.below inv thread
          rw [frames] at below
          exact Held.lock (free ▸ inv : Held Frame.inside none s.stack)
            (topInside_cons.mpr rfl) below
      · cases taken
  | body thread reads =>
      simp only [LockedLoop.step] at taken
      split at taken
      · next op rest frames =>
          cases taken
          have inTime : Frame.NotOld s.ti reads (.holds op) :=
            notOld (.holds op) (by rw [frames]; rfl)
          have below := Held.below inv thread
          rw [frames] at below
          obtain ⟨mu, ⟨-, run, outside, stack⟩ | ⟨timer, old, -⟩⟩ :=
            s.perform_cases thread rest reads op
          · rw [Inv, mu, stack]
            refine Held.move inv ?_ (List.forall_mem_append.mpr ⟨outside, below⟩)
            rw [frames, topInside_cons, topInside_cons]
            exact Iff.rfl
          · exact absurd inTime old
      · cases taken
  | unlock thread =>
      simp only [LockedLoop.step] at taken
      split at taken
      · next rest frames =>
          cases taken
          have top : TopInside Frame.inside (s.stack thread) := by
            rw [frames, topInside_cons]
            rfl
          have holder := (Held.top inv thread).mpr top
          have below := Held.below inv thread
          rw [frames] at below
          exact Held.unlock (holder ▸ inv : Held Frame.inside (some thread) s.stack) below
      · cases taken
  | move thread move =>
      simp only [LockedLoop.step] at taken
      split at taken
      · next frame rest frames =>
          obtain ⟨gone, went, rfl⟩ := Option.map_eq_some_iff.mp taken
          obtain ⟨outer, outside⟩ := goOn_outside went
          exact inv.goesOn frames outer outside
      · cases taken

/-! ## The mutex is given back -/

theorem put_stack (s : LockedLoop Thread) (thread : Thread) (frames : List Frame) :
    (s.put thread frames).stack thread = frames := Function.update_self ..

theorem put_stack_other (s : LockedLoop Thread) {thread other : Thread} (frames : List Frame)
    (apart : other ≠ thread) : (s.put thread frames).stack other = s.stack other :=
  Function.update_of_ne apart ..

theorem step_returns {s : LockedLoop Thread} {thread : Thread} {cb : UserCallback}
    {rest : List Frame} (frames : s.stack thread = .callback cb :: rest) :
    s.step (.move thread .returns) = some (s.put thread rest) := by
  rw [step, frames]
  rfl

/-- The holder can give the mutex back without another thread. -/
theorem reaches_unlock {s : LockedLoop Thread} {holder : Thread}
    (top : TopInside Frame.inside (s.stack holder)) :
    Reaches step (fun last => last.mu = none ∧
      ∀ other, other ≠ holder → last.stack other = s.stack other) s := by
  have unlocks {s : LockedLoop Thread} {rest : List Frame}
      (frames : s.stack holder = .unlocking :: rest) :
      Reaches step (fun last => last.mu = none ∧
        ∀ other, other ≠ holder → last.stack other = s.stack other) s := by
    have stepped : s.step (.unlock holder) = some ({ s with mu := none }.put holder rest) := by
      simp only [step, frames]
    exact reaches_next stepped (reaches_now ⟨rfl, fun other apart =>
      Function.update_of_ne apart ..⟩)
  obtain ⟨frame, head, inside⟩ := top
  obtain ⟨rest, frames⟩ : ∃ rest, s.stack holder = frame :: rest :=
    ⟨_, List.eq_cons_of_mem_head? head⟩
  cases frame with
  | unlocking => exact unlocks frames
  | holds op =>
      have stepped : s.step (.body holder ⟨0, 0, 0⟩) =
          some (s.perform holder rest ⟨0, 0, 0⟩ op) := by
        simp only [step, frames]
      apply reaches_next stepped
      obtain ⟨-, ⟨-, run, -, stack⟩ | ⟨timer, -, stack⟩⟩ :=
        s.perform_cases holder rest ⟨0, 0, 0⟩ op
      · obtain ⟨events, last, ran, free, same⟩ :=
          unlocks ((congrFun stack holder).trans (Function.update_self ..))
        refine ⟨events, last, ran, free, fun other apart => ?_⟩
        rw [same other apart, stack, Function.update_of_ne apart]
      · have returned := step_returns ((congrFun stack holder).trans (Function.update_self ..))
        apply reaches_next returned
        obtain ⟨events, last, ran, free, same⟩ :=
          unlocks (put_stack (s.perform holder rest ⟨0, 0, 0⟩ op) holder (.unlocking :: rest))
        refine ⟨events, last, ran, free, fun other apart => ?_⟩
        rw [same other apart, put_stack_other _ _ apart, stack, Function.update_of_ne apart]
  | _ => cases inside

omit [DecidableEq Thread] in
theorem Inv.free {s : LockedLoop Thread} (inv : s.Inv) {thread : Thread}
    (inside : s.InCallback thread) : s.mu ≠ some thread := by
  intro holds
  obtain ⟨cb, head⟩ := inside
  obtain ⟨frame, top, inner⟩ := (Held.top inv thread).mp holds
  rw [head] at top
  cases top
  cases inner

/-- An operation that a callback calls gets the mutex. -/
theorem Inv.callable {s : LockedLoop Thread} (inv : s.Inv) {thread : Thread}
    (inside : s.InCallback thread) {op : LoopOp} (isCall : op.isCall = true) :
    Reaches LockedLoop.step (fun last => last.mu = some thread ∧
      last.stack thread = .holds op :: s.stack thread) s := by
  have users : userRuns (s.stack thread) = true := by
    obtain ⟨cb, head⟩ := inside
    rw [List.eq_cons_of_mem_head? head]
    rfl
  have called : s.step (.call thread op) = some (s.put thread (.waits op :: s.stack thread)) :=
    if_pos ⟨users, isCall⟩
  have locks {last : LockedLoop Thread} (free : last.mu = none)
      (waits : last.stack thread = .waits op :: s.stack thread) :
      Reaches LockedLoop.step (fun last => last.mu = some thread ∧
        last.stack thread = .holds op :: s.stack thread) last := by
    have stepped : last.step (.lock thread) =
        some ({ last with mu := some thread }.put thread (.holds op :: s.stack thread)) := by
      simp only [LockedLoop.step, waits, if_pos free]
    exact reaches_next stepped (reaches_now ⟨rfl, Function.update_self ..⟩)
  have waits : (s.put thread (.waits op :: s.stack thread)).stack thread =
      .waits op :: s.stack thread := put_stack ..
  apply reaches_next called
  cases mu : s.mu with
  | none => exact locks mu waits
  | some holder =>
      have apart : thread ≠ holder := fun same => inv.free inside (same ▸ mu)
      have top : TopInside Frame.inside
          ((s.put thread (.waits op :: s.stack thread)).stack holder) := by
        rw [put_stack_other _ _ apart.symm]
        exact (Held.top inv holder).mp mu
      obtain ⟨events, last, ran, free, same⟩ := reaches_unlock top
      exact reaches_behind ran (locks free ((same thread apart).trans waits))

/-! ## Old timers -/

theorem Inv.lockFree {s : LockedLoop Thread} (inv : s.Inv) : s.LockFree where
  free := fun _ inside => inv.free inside
  callable := fun _ inside _ isCall => inv.callable inside isCall

/-- The callback of an old timer runs under the mutex. -/
theorem Inv.not_lockFree {s next : LockedLoop Thread} {event : Event Thread} (inv : s.Inv)
    (old : ¬ s.NotOld event) (taken : s.step event = some next) : ¬ next.LockFree := by
  cases event with
  | body thread reads =>
      simp only [LockedLoop.step] at taken
      split at taken
      · next op rest frames =>
          cases taken
          have top : TopInside Frame.inside (s.stack thread) := by
            rw [frames, topInside_cons]
            rfl
          obtain ⟨mu, ⟨inTime, -⟩ | ⟨timer, -, stack⟩⟩ := s.perform_cases thread rest reads op
          · refine absurd (fun frame head => ?_) old
            rw [frames] at head
            cases head
            exact inTime
          · intro lockFree
            refine lockFree.free thread ⟨.timer timer.cb, ?_⟩
              (mu.trans ((Held.top inv thread).mpr top))
            rw [stack, Function.update_self]
            rfl
      · cases taken
  | call thread op => exact absurd trivial old
  | addCallback thread cb => exact absurd trivial old
  | stop thread => exact absurd trivial old
  | run thread => exact absurd trivial old
  | lock thread => exact absurd trivial old
  | unlock thread => exact absurd trivial old
  | move thread move => exact absurd trivial old

/-- Callbacks run outside the mutex in exactly the runs that add no old timer. -/
theorem lockFree_iff_notOld (now : Nat) (events : List (Event Thread)) :
    AllStates step LockFree (new now) events ↔ StepsMeet step NotOld (new now) events := by
  have decides (s : LockedLoop Thread) (event : Event Thread) (next : LockedLoop Thread)
      (inv : s.Inv) (taken : s.step event = some next) : next.LockFree ↔ s.NotOld event :=
    ⟨fun lockFree => by_contra fun old => inv.not_lockFree old taken lockFree,
      fun notOld => (inv.step notOld taken).lockFree⟩
  exact allStates_iff_of_good Inv
    (fun s event next inv _ lockFree taken =>
      inv.step ((decides s event next inv taken).mp lockFree) taken)
    (fun s event next inv _ taken => decides s event next inv taken) events
    (inv_new now) (inv_new now).lockFree

/-- A timer without a delay. -/
def oldTimer : List (Event Unit) :=
  [.call () (.addTimer ⟨0, 7⟩), .lock (), .body () ⟨1000, 1000, 1000⟩]

theorem oldTimer_underMutex :
    ¬ ∀ (Thread : Type) [DecidableEq Thread] (now : Nat) (events : List (Event Thread)),
      AllStates step LockFree (new now) events := by
  intro all
  have held : (runFrom step (new 1000 : LockedLoop Unit) oldTimer).map
      (fun last => (last.mu, last.stack ())) =
        some (some (), [.callback (.timer 7), .unlocking]) := by
    decide +kernel
  obtain ⟨last, run, place⟩ := Option.map_eq_some_iff.mp held
  obtain ⟨mu, stack⟩ := Prod.mk.inj place
  exact ((all Unit 1000 oldTimer).last run).free ()
    ⟨.timer 7, by rw [stack]; rfl⟩ mu

end LockedLoop

end SimpleWebServer.Reactor
