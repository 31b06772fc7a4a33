import Mathlib.Data.List.Range
import SimpleWebServer.Reactor.EventLoop
import SimpleWebServer.Lib.Runs

/-!
# The callback list of a loop

The loop is woken for every callback, and runs each one once and in order, in a later phase
than the one in which it was added.  The eventfd may be drained before the list is swapped,
and a callback may be pushed between the two: the swap takes it all the same, and its wake-up
is then one too many.
-/

namespace SimpleWebServer.Reactor

open SimpleWebServer.Lib.Runs

namespace RunPhase

/-- The loop has left `epoll_wait` and will swap the list before it waits again. -/
def swapsBeforeWait : RunPhase → Bool
  | .handling _ => true
  | .inHandler _ => true
  | .locking => true
  | .swapping => true
  | _ => false

/-- The swapped callbacks have not all been run. -/
def runsCallbacks : RunPhase → Bool
  | .swapped => true
  | .callbacks => true
  | .inCallback => true
  | _ => false

end RunPhase

namespace EventLoop

variable {Thread : Type}

/-- What users of `add_callback_after` rely on; `loop` is the thread that calls `run`. -/
structure Delivers (loop : Thread) (s : EventLoop Thread) : Prop where
  /-- the loop does not wait for an unrelated event while a callback is in the list -/
  woken : s.phase = .polling ∨ s.phase = .waiting → s.cbList ≠ [] →
    0 < s.counter ∨ ∃ thread, s.call thread = .pushed
  /-- the callbacks run once and in the order in which they were added -/
  inOrder : s.ran.map RanCallback.cb = List.range s.ran.length
  added : s.ran.length ≤ s.added
  onLoop : ∀ ran ∈ s.ran, ran.thread = loop
  /-- no callback runs in the phase in which it was added -/
  later : ∀ ran ∈ s.ran, s.addedIn ran.cb < ran.phaseNo
  /-- `handle_read` never finds the counter at zero -/
  readable : s.failed = false

/-- The invariant of all interleavings. -/
structure Inv (loop : Thread) (s : EventLoop Thread) : Prop where
  woken : s.phase.swapsBeforeWait = false → s.cbList ≠ [] →
    0 < s.counter ∨ ∃ thread, s.call thread = .pushed
  queue : s.ran.map RanCallback.cb ++ s.nowCbList ++ s.cbList = List.range s.added
  nowEmpty : s.phase.runsCallbacks = false → s.nowCbList = []
  onLoop : ∀ ran ∈ s.ran, ran.thread = loop
  ranLater : ∀ ran ∈ s.ran, s.addedIn ran.cb < ran.phaseNo
  nowLater : ∀ cb ∈ s.nowCbList, s.addedIn cb < s.phaseNo
  listed : ∀ cb ∈ s.cbList, s.addedIn cb ≤ s.phaseNo
  once : s.phase.reports.Nodup
  reported : .activater ∈ s.phase.reports → 0 < s.counter
  readable : s.failed = false

theorem new_inv (loop : Thread) : (new : EventLoop Thread).Inv loop := by
  constructor <;> simp [new, RunPhase.reports]

theorem Inv.delivers {loop : Thread} {s : EventLoop Thread} (inv : s.Inv loop) :
    s.Delivers loop := by
  have length := congrArg List.length inv.queue
  simp only [List.length_append, List.length_map, List.length_range] at length
  constructor
  · intro waits
    apply inv.woken
    rcases waits with polling | waiting
    · rw [polling]
      rfl
    · rw [waiting]
      rfl
  · have front := congrArg (List.take s.ran.length) inv.queue
    rw [List.append_assoc, List.take_append_of_le_length (by simp), List.take_range] at front
    rw [List.take_of_length_le (by simp)] at front
    rw [front, Nat.min_eq_left (by omega)]
  · omega
  · exact inv.onLoop
  · exact inv.ranLater
  · exact inv.readable

/-- The callbacks that have been added are the first numbers. -/
theorem Inv.known {loop : Thread} {s : EventLoop Thread} (inv : s.Inv loop) {cb : Nat}
    (used : cb ∈ s.ran.map RanCallback.cb ∨ cb ∈ s.nowCbList ∨ cb ∈ s.cbList) : cb < s.added := by
  have inRange : cb ∈ List.range s.added := by
    rw [← inv.queue, List.mem_append, List.mem_append]
    rcases used with ran | now | listed
    · exact Or.inl (Or.inl ran)
    · exact Or.inl (Or.inr now)
    · exact Or.inr listed
  exact List.mem_range.mp inRange

/-- Outside the callback phase nothing is left to run. -/
theorem Inv.nothingNow {loop : Thread} {s : EventLoop Thread} (inv : s.Inv loop)
    {phase : RunPhase} (isPhase : s.phase = phase) (idle : phase.runsCallbacks = false) :
    s.nowCbList = [] := by
  apply inv.nowEmpty
  rw [isPhase]
  exact idle

/-! ## The steps of a caller -/

/-- What a caller may change: the counter grows, and nobody leaves `pushed` without it. -/
structure Calls (s next : EventLoop Thread) : Prop where
  cbList : next.cbList = s.cbList
  nowCbList : next.nowCbList = s.nowCbList
  added : next.added = s.added
  addedIn : next.addedIn = s.addedIn
  phase : next.phase = s.phase
  phaseNo : next.phaseNo = s.phaseNo
  ran : next.ran = s.ran
  failed : next.failed = s.failed
  counter : s.counter ≤ next.counter
  wakes : (∃ thread, s.call thread = .pushed) →
    0 < next.counter ∨ ∃ thread, next.call thread = .pushed

theorem Inv.calls {loop : Thread} {s next : EventLoop Thread} (inv : s.Inv loop)
    (calls : s.Calls next) : next.Inv loop := by
  obtain ⟨cbList, nowCbList, added, addedIn, phase, phaseNo, ran, failed, counter, wakes⟩ := calls
  constructor
  · rw [phase, cbList]
    intro waits listed
    rcases inv.woken waits listed with positive | pushed
    · exact Or.inl (Nat.lt_of_lt_of_le positive counter)
    · exact wakes pushed
  · rw [ran, nowCbList, cbList, added]
    exact inv.queue
  · rw [phase, nowCbList]
    exact inv.nowEmpty
  · rw [ran]
    exact inv.onLoop
  · rw [ran, addedIn]
    exact inv.ranLater
  · rw [nowCbList, addedIn, phaseNo]
    exact inv.nowLater
  · rw [cbList, addedIn, phaseNo]
    exact inv.listed
  · rw [phase]
    exact inv.once
  · rw [phase]
    exact fun reported => Nat.lt_of_lt_of_le (inv.reported reported) counter
  · rw [failed]
    exact inv.readable

section callers

variable [DecidableEq Thread]

/-- A caller goes on; one that leaves `pushed` has written. -/
theorem Calls.of_setCall (s : EventLoop Thread) (thread : Thread) (call : LoopCall)
    (mu : Option Thread) (isLoop : Bool) {counter : Nat} (grows : s.counter ≤ counter)
    (wakes : s.call thread = .pushed → 0 < counter) :
    s.Calls ({ s with mu := mu, isLoop := isLoop, counter := counter }.setCall thread call) := by
  refine ⟨rfl, rfl, rfl, rfl, rfl, rfl, rfl, rfl, grows, ?_⟩
  rintro ⟨other, pushed⟩
  by_cases same : other = thread
  · rw [same] at pushed
    exact Or.inl (wakes pushed)
  · refine Or.inr ⟨other, ?_⟩
    simp only [setCall, Function.update_of_ne same]
    exact pushed

omit [DecidableEq Thread] in
/-- A thread outside `pushed` has nothing to wake the loop for. -/
theorem wakes_of_call {s : EventLoop Thread} {thread : Thread} {call : LoopCall} {counter : Nat}
    (isCall : s.call thread = call) (other : call ≠ .pushed) :
    s.call thread = .pushed → 0 < counter := by
  intro pushed
  rw [isCall] at pushed
  exact absurd pushed other

theorem Inv.push {loop : Thread} {s : EventLoop Thread} (inv : s.Inv loop) (thread : Thread) :
    (s.pushBack.setCall thread .pushed).Inv loop := by
  have older {cb : Nat} (known : cb < s.added) :
      Function.update s.addedIn s.added s.phaseNo cb = s.addedIn cb :=
    Function.update_of_ne (Nat.ne_of_lt known) _ _
  constructor
  · intro _ _
    exact Or.inr ⟨thread, Function.update_self ..⟩
  · change s.ran.map RanCallback.cb ++ s.nowCbList ++ (s.cbList ++ [s.added]) =
      List.range (s.added + 1)
    rw [← List.append_assoc, inv.queue, List.range_succ]
  · exact inv.nowEmpty
  · exact inv.onLoop
  · intro ran logged
    change Function.update s.addedIn s.added s.phaseNo ran.cb < ran.phaseNo
    rw [older (inv.known (Or.inl (List.mem_map_of_mem logged)))]
    exact inv.ranLater ran logged
  · intro cb now
    change Function.update s.addedIn s.added s.phaseNo cb < s.phaseNo
    rw [older (inv.known (Or.inr (Or.inl now)))]
    exact inv.nowLater cb now
  · intro cb listed
    change Function.update s.addedIn s.added s.phaseNo cb ≤ s.phaseNo
    rcases List.mem_append.mp listed with before | new
    · rw [older (inv.known (Or.inr (Or.inr before)))]
      exact inv.listed cb before
    · rw [List.mem_singleton.mp new, Function.update_self]
  · exact inv.once
  · exact inv.reported
  · exact inv.readable

end callers

/-! ## The steps of the loop -/

/-- A step of `run` that touches neither the lists nor the eventfd. -/
theorem Inv.goesOn {loop : Thread} {s : EventLoop Thread} (inv : s.Inv loop) (mu : Option Thread)
    (isLoop : Bool) {before phase : RunPhase} (isPhase : s.phase = before)
    (swaps : phase.swapsBeforeWait = false → before.swapsBeforeWait = false)
    (runs : phase.runsCallbacks = false → s.nowCbList = [])
    (fewer : phase.reports.Sublist before.reports) :
    { s with mu := mu, isLoop := isLoop, phase := phase }.Inv loop := by
  rw [← isPhase] at swaps fewer
  constructor
  · exact fun waits => inv.woken (swaps waits)
  · exact inv.queue
  · exact runs
  · exact inv.onLoop
  · exact inv.ranLater
  · exact inv.nowLater
  · exact inv.listed
  · exact inv.once.sublist fewer
  · exact fun reported => inv.reported (fewer.subset reported)
  · exact inv.readable

/-- `epoll_wait` returns: a handler phase begins. -/
theorem Inv.wake {loop : Thread} {s : EventLoop Thread} (inv : s.Inv loop)
    (waiting : s.phase = .waiting) {reports : List Report} (once : reports.Nodup)
    (reported : .activater ∈ reports → 0 < s.counter) :
    { s with phase := .handling reports, phaseNo := s.phaseNo + 1 }.Inv loop where
  woken := nofun
  queue := inv.queue
  nowEmpty _ := inv.nothingNow waiting rfl
  onLoop := inv.onLoop
  ranLater := inv.ranLater
  nowLater cb now := Nat.lt_succ_of_lt (inv.nowLater cb now)
  listed cb listed := Nat.le_succ_of_le (inv.listed cb listed)
  once := once
  reported := reported
  readable := inv.readable

/-- `handle_read` drains the eventfd, and the swap is still to come. -/
theorem Inv.handleRead {loop : Thread} {s : EventLoop Thread} (inv : s.Inv loop)
    {rest : List Report} (handling : s.phase = .handling (.activater :: rest)) :
    { s.handleRead with phase := .handling rest }.Inv loop := by
  have once := inv.once
  rw [handling] at once
  obtain ⟨absent, distinct⟩ := List.nodup_cons.mp once
  have positive : 0 < s.counter := by
    apply inv.reported
    rw [handling]
    exact List.mem_cons_self
  rw [EventLoop.handleRead, if_pos positive]
  constructor
  · nofun
  · exact inv.queue
  · exact fun _ => inv.nothingNow handling rfl
  · exact inv.onLoop
  · exact inv.ranLater
  · exact inv.nowLater
  · exact inv.listed
  · exact distinct
  · exact fun reported => absurd reported absent
  · exact inv.readable

/-- The swap takes all callbacks, and begins the phase that runs them. -/
theorem Inv.swap {loop : Thread} {s : EventLoop Thread} (inv : s.Inv loop)
    (swapping : s.phase = .swapping) :
    { s with
      nowCbList := s.cbList
      cbList := []
      phase := .swapped
      phaseNo := s.phaseNo + 1 }.Inv loop where
  woken _ empty := absurd rfl empty
  queue := by
    have queue := inv.queue
    rw [inv.nothingNow swapping rfl, List.append_nil] at queue
    rw [List.append_nil]
    exact queue
  nowEmpty := nofun
  onLoop := inv.onLoop
  ranLater := inv.ranLater
  nowLater cb listed := Nat.lt_succ_of_le (inv.listed cb listed)
  listed := nofun
  once := List.nodup_nil
  reported := nofun
  readable := inv.readable

theorem Inv.callback {loop : Thread} {s : EventLoop Thread} (inv : s.Inv loop) {cb : Nat}
    {rest : List Nat} (now : s.nowCbList = cb :: rest) (callbacks : s.phase = .callbacks) :
    { s with
      nowCbList := rest
      phase := .inCallback
      ran := s.ran ++ [(⟨cb, loop, s.phaseNo⟩ : RanCallback Thread)] }.Inv loop := by
  have first : cb ∈ s.nowCbList := by
    rw [now]
    exact List.mem_cons_self
  have split {ran : RanCallback Thread} (logged : ran ∈ s.ran ++ [⟨cb, loop, s.phaseNo⟩]) :
      ran ∈ s.ran ∨ ran = ⟨cb, loop, s.phaseNo⟩ :=
    (List.mem_append.mp logged).imp_right List.mem_singleton.mp
  constructor
  · exact fun _ => inv.woken (by rw [callbacks]; rfl)
  · have queue := inv.queue
    rw [now] at queue
    rw [← queue]
    simp
  · nofun
  · intro ran logged
    rcases split logged with before | rfl
    · exact inv.onLoop ran before
    · rfl
  · intro ran logged
    rcases split logged with before | rfl
    · exact inv.ranLater ran before
    · exact inv.nowLater cb first
  · intro other inRest
    apply inv.nowLater other
    rw [now]
    exact List.mem_cons_of_mem cb inRest
  · exact inv.listed
  · exact List.nodup_nil
  · nofun
  · exact inv.readable

/-! ## All interleavings -/

variable [DecidableEq Thread]

theorem Inv.step {loop : Thread} {s next : EventLoop Thread} {event : Event Thread}
    (inv : s.Inv loop) (taken : s.step loop event = some next) : next.Inv loop := by
  cases event with
  | lock thread =>
      obtain ⟨⟨may, -⟩, rfl⟩ := of_guarded taken
      exact inv.calls (Calls.of_setCall s thread .locked (some thread) s.isLoop (Nat.le_refl _)
        (wakes_of_call may.1 nofun))
  | push thread =>
      obtain ⟨-, rfl⟩ := of_guarded taken
      exact inv.push thread
  | write thread =>
      obtain ⟨-, rfl⟩ := of_guarded taken
      exact inv.calls (Calls.of_setCall s thread .written s.mu s.isLoop (Nat.le_succ _)
        fun _ => Nat.succ_pos _)
  | unlock thread =>
      obtain ⟨written, rfl⟩ := of_guarded taken
      exact inv.calls (Calls.of_setCall s thread .outside none s.isLoop (Nat.le_refl _)
        (wakes_of_call written nofun))
  | hold thread =>
      obtain ⟨⟨may, -⟩, rfl⟩ := of_guarded taken
      exact inv.calls (Calls.of_setCall s thread .holding (some thread) s.isLoop (Nat.le_refl _)
        (wakes_of_call may.1 nofun))
  | release thread =>
      obtain ⟨holding, rfl⟩ := of_guarded taken
      exact inv.calls (Calls.of_setCall s thread .outside none s.isLoop (Nat.le_refl _)
        (wakes_of_call holding nofun))
  | stop thread =>
      obtain ⟨may, rfl⟩ := of_guarded taken
      exact inv.calls (Calls.of_setCall s thread .stopping s.mu false (Nat.le_refl _)
        (wakes_of_call may.1 nofun))
  | stopWrite thread =>
      obtain ⟨-, rfl⟩ := of_guarded taken
      exact inv.calls (Calls.of_setCall s thread .outside s.mu s.isLoop (Nat.le_succ _)
        fun _ => Nat.succ_pos _)
  | run =>
      obtain ⟨⟨⟨outside, -⟩, -⟩, rfl⟩ := of_guarded taken
      exact inv.goesOn s.mu true outside (fun _ => rfl) (fun _ => inv.nothingNow outside rfl)
        (List.nil_sublist _)
  | test =>
      obtain ⟨⟨testing, -⟩, rfl⟩ := of_guarded taken
      cases s.isLoop with
      | true =>
          exact inv.goesOn s.mu _ testing (fun _ => rfl) (fun _ => inv.nothingNow testing rfl)
            (List.nil_sublist _)
      | false =>
          exact inv.goesOn s.mu _ testing (fun _ => rfl) (fun _ => inv.nothingNow testing rfl)
            (List.nil_sublist _)
  | wait =>
      obtain ⟨⟨polling, -⟩, rfl⟩ := of_guarded taken
      exact inv.goesOn s.mu s.isLoop polling (fun _ => rfl)
        (fun _ => inv.nothingNow polling rfl) (List.nil_sublist _)
  | wake reports =>
      obtain ⟨⟨⟨waiting, -⟩, once, readable⟩, rfl⟩ := of_guarded taken
      exact inv.wake waiting once readable.mp
  | interrupted =>
      obtain ⟨⟨waiting, -⟩, rfl⟩ := of_guarded taken
      exact inv.goesOn s.mu s.isLoop waiting nofun (fun _ => inv.nothingNow waiting rfl)
        (List.nil_sublist _)
  | handle =>
      rcases of_handle taken with ⟨rest, handling, rfl⟩ | ⟨fd, rest, handling, rfl⟩
      · exact inv.handleRead handling
      · exact inv.goesOn s.mu s.isLoop handling nofun (fun _ => inv.nothingNow handling rfl)
          (List.sublist_cons_self _ rest)
  | handlerEnd =>
      obtain ⟨rest, inHandler, rfl⟩ := of_handlerEnd taken
      exact inv.goesOn s.mu s.isLoop inHandler nofun
        (fun _ => inv.nothingNow inHandler rfl) (List.Sublist.refl rest)
  | pollEnd =>
      obtain ⟨⟨handling, -⟩, rfl⟩ := of_guarded taken
      exact inv.goesOn s.mu s.isLoop handling nofun (fun _ => inv.nothingNow handling rfl)
        (List.nil_sublist _)
  | runLock =>
      obtain ⟨⟨⟨locking, -⟩, -⟩, rfl⟩ := of_guarded taken
      exact inv.goesOn (some loop) s.isLoop locking nofun
        (fun _ => inv.nothingNow locking rfl) (List.nil_sublist _)
  | swap =>
      obtain ⟨⟨swapping, -⟩, rfl⟩ := of_guarded taken
      exact inv.swap swapping
  | runUnlock =>
      obtain ⟨⟨swapped, -⟩, rfl⟩ := of_guarded taken
      exact inv.goesOn none s.isLoop swapped (fun _ => rfl) nofun (List.nil_sublist _)
  | callback =>
      obtain ⟨cb, rest, now, ⟨callbacks, -⟩, rfl⟩ := of_callback taken
      exact inv.callback now callbacks
  | callbackEnd =>
      obtain ⟨⟨inCallback, -⟩, rfl⟩ := of_guarded taken
      exact inv.goesOn s.mu s.isLoop inCallback (fun _ => rfl) nofun (List.nil_sublist _)
  | callbacksEnd =>
      obtain ⟨⟨⟨callbacks, -⟩, done⟩, rfl⟩ := of_guarded taken
      exact inv.goesOn s.mu s.isLoop callbacks (fun _ => rfl) (fun _ => done)
        (List.nil_sublist _)

/-- Every interleaving of the callers with the loop delivers the callbacks. -/
theorem allDelivers (loop : Thread) (events : List (Event Thread)) :
    AllStates (fun s => s.step loop) (Delivers loop) new events :=
  allStates_of_invariant (Inv loop) (fun _ _ _ => Inv.step) (fun _ => Inv.delivers) events
    (new_inv loop)

end EventLoop

end SimpleWebServer.Reactor
