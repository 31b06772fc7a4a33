import SimpleWebServer.Logging.LogThreads

/-!
# What the log holds at the end

The calls of all threads are as if they had been made one after the other.  When the logger
has been destroyed, every line is in its files, those of one thread in their order; and the
flush thread does end.
-/

namespace SimpleWebServer.Logging

open SimpleWebServer.Base SimpleWebServer.Lib SimpleWebServer.Lib.Runs

namespace LogThreads

variable {Thread : Type} [DecidableEq Thread] {config : Config} {day : Int}
  {events : List (Event Thread)} {last : LogThreads Thread}

/-! ## One call after the other -/

/--
Whatever the threads do, the lists are as a row of whole calls leaves them, up to the call
that is under way.
-/
theorem calls_of_careful (async : config.isAsync = true)
    (careful : StepsMeet step Careful (start config day) events)
    (run : runFrom step (start config day) events = some last) :
    ∃ calls logger, runFrom Logger.stepBlocks (.new config day) calls = some logger ∧
      writtenBy calls = last.lines.map Prod.snd ∧
      (last.working = .nothing → last.mem.view = logger) := by
  have both : StepsMeet step (fun s event => s.Careful event ∧ (False → s.Fits event))
      (start config day) events := careful.imp fun _ _ met => ⟨met, False.elim⟩
  obtain ⟨base, calls, sequential⟩ := (inv_of_run async both run).inOrder
  refine ⟨calls, base.view, sequential.run, sequential.written, ?_⟩
  intro nothing
  have same : last.mem = base := by
    have under := sequential.under
    rw [nothing] at under
    exact under
  rw [same]

section shutdown

/--
Two threads write lines: one comes to the mutex when the other has it, and the flush thread
wakes up in between and writes the first block.  Then the logger is destroyed, up to the join.
-/
def shutdown : List (Event Bool) :=
  let advance : Bool → Event Bool := fun thread => .advance thread ⟨1, 0, 0, 0⟩
  let flush : Event Bool := .flush ⟨1, 0, 0, 0⟩
  .append false .warn (ascii "cd") :: List.replicate 4 flush ++
    [advance false, advance false, .append true .info (ascii "ab"), advance false,
      advance false, advance false, advance true, advance true, .wake true, advance true,
      advance true, advance true, flush, flush, .append false .info (ascii "ef")] ++
    List.replicate 8 flush ++ List.replicate 5 (advance false) ++
    [.destroy ⟨1, 0, 0, 0⟩, .destroy ⟨1, 0, 0, 0⟩]

/-- What follows. -/
def afterShutdown : List (Event Bool) :=
  [.flush ⟨1, 0, 0, 0⟩, .flush ⟨1, 0, 0, 0⟩, .wake true] ++
    List.replicate 9 (.flush ⟨1, 0, 0, 0⟩) ++ List.replicate 6 (.destroy ⟨1, 0, 0, 0⟩)

theorem calls_of_careful_shutdown :
    ∃ last, runFrom step (start LogRun.fourBytes 1) (shutdown ++ afterShutdown) = some last ∧
      ∃ calls logger, runFrom Logger.stepBlocks (.new LogRun.fourBytes 1) calls = some logger ∧
        writtenBy calls = last.lines.map Prod.snd ∧
        (last.working = .nothing → last.mem.view = logger) := by
  have ends : (runFrom step (start LogRun.fourBytes 1) (shutdown ++ afterShutdown)).isSome := by
    decide +kernel
  obtain ⟨last, run⟩ := Option.isSome_iff_exists.mp ends
  exact ⟨last, run, calls_of_careful rfl (by decide +kernel) run⟩

end shutdown

/-! ## Nothing is lost -/

/-- Strings that fit are added one behind the other. -/
theorem stream_of_fitting {first logger : Logger} {calls : List Logging.Event}
    (sound : first.Sound) (fitting : StepsMeet Logger.stepBlocks WritesFitting first calls)
    (run : runFrom Logger.stepBlocks first calls = some logger) :
    logger.stream = first.stream ++ (writtenBy calls).flatten := by
  induction calls generalizing first with
  | nil =>
      cases run
      simp [writtenBy]
  | cons call rest ih =>
      rw [runFrom_cons] at run
      obtain ⟨next, taken, more⟩ := Option.bind_eq_some_iff.mp run
      simp only [StepsMeet, taken] at fitting
      cases call with
      | write log ti =>
          obtain ⟨nonempty, rfl⟩ := of_guarded taken
          obtain ⟨fits, within⟩ := fitting.1
          obtain ⟨soundNext, same⟩ := sound.wf.writeBuf nonempty within ti
          rw [ih soundNext fitting.2 more, same, (sound.wf.fill_exact_iff nonempty).mpr fits,
            writtenBy, List.flatten_cons, List.append_assoc]
      | flush isFull clock =>
          cases taken
          obtain ⟨soundNext, same⟩ := sound.flushBuf isFull clock
          rw [ih soundNext fitting.2 more, same, writtenBy]

/-- The strings of a thread. -/
def linesOf (thread : Thread) (lines : List (Thread × Bytes)) : List Bytes :=
  (lines.filter fun line => line.1 = thread).map Prod.snd

/-- The strings that a thread gives to `append_log` in a run. -/
def appendedBy (thread : Thread) : List (Event Thread) → List Bytes
  | [] => []
  | .append other _ log :: rest =>
      if other = thread then log :: appendedBy thread rest else appendedBy thread rest
  | _ :: rest => appendedBy thread rest

end LogThreads

/-- The string that `append_log` has not written yet. -/
def Appending.pending : Appending → List Bytes
  | .outside => []
  | .locking _ log => [log]
  | .writing _ log _ => [log]
  | .notifying _ log => [log]
  | .flushing _ => []

namespace LogThreads

variable {Thread : Type} {s next : LogThreads Thread}

/-! ### The order of the lines -/

theorem stepFlusher_frame {ti : DayTime} (taken : s.stepFlusher ti = some next) :
    next.lines = s.lines ∧ next.appending = s.appending ∧ next.destroying = s.destroying := by
  unfold stepFlusher at taken
  split at taken
  · obtain ⟨-, rfl⟩ := of_guarded taken
    exact ⟨rfl, rfl, rfl⟩
  · cases taken
    exact ⟨rfl, rfl, rfl⟩
  · cases taken
    exact ⟨rfl, rfl, rfl⟩
  · split at taken <;> cases taken <;> exact ⟨rfl, rfl, rfl⟩
  · cases taken
  · obtain ⟨-, rfl⟩ := of_guarded taken
    exact ⟨rfl, rfl, rfl⟩
  · obtain ⟨stepped, -, rfl⟩ := Option.map_eq_some_iff.mp taken
    exact ⟨rfl, rfl, rfl⟩
  · cases taken
    exact ⟨rfl, rfl, rfl⟩
  · cases taken

theorem stepDestructor_frame {ti : DayTime} (taken : s.stepDestructor ti = some next) :
    next.lines = s.lines ∧ next.appending = s.appending := by
  unfold stepDestructor at taken
  split at taken
  · cases taken
    exact ⟨rfl, rfl⟩
  · cases taken
    exact ⟨rfl, rfl⟩
  · obtain ⟨-, rfl⟩ := of_guarded taken
    exact ⟨rfl, rfl⟩
  · obtain ⟨stepped, -, rfl⟩ := Option.map_eq_some_iff.mp taken
    exact ⟨rfl, rfl⟩
  · cases taken
    exact ⟨rfl, rfl⟩
  · cases taken

/-- The string has room in the last block. -/
def FitsRoom (s : LogThreads Thread) : Event Thread → Prop
  | .advance thread _ =>
      match s.appending thread with
      | .locking _ log => log.length ≤ s.mem.view.room
      | .notifying _ _ => s.mem.view.blocks ≤ s.mem.config.bufBlockNum
      | _ => True
  | _ => True

instance (s : LogThreads Thread) : (event : Event Thread) → Decidable (s.FitsRoom event)
  | .advance thread _ => by
      unfold FitsRoom
      dsimp only
      split <;> infer_instance
  | .append .. => .isTrue trivial
  | .flush _ => .isTrue trivial
  | .wake _ => .isTrue trivial
  | .destroy _ => .isTrue trivial

theorem FitsRoom.fits {event : Event Thread} (room : s.FitsRoom event) : s.Fits event := by
  cases event with
  | advance thread ti =>
      cases place : s.appending thread with
      | locking level log =>
          simp only [FitsRoom, place] at room
          simp only [Fits, place]
          exact .inl room
      | notifying level log => simpa only [FitsRoom, Fits, place] using room
      | _ => simp [Fits, place]
  | _ => trivial

variable [DecidableEq Thread] {config : Config} {day : Int} {events : List (Event Thread)}
  {last : LogThreads Thread} {thread : Thread}

/-- What a thread has written or is about to write. -/
def given (s : LogThreads Thread) (thread : Thread) : List Bytes :=
  linesOf thread s.lines ++ (s.appending thread).pending

theorem given_of_frame (lines : next.lines = s.lines) (appending : next.appending = s.appending) :
    next.given thread = s.given thread := by
  rw [given, given, lines, appending]

/-- A thread that moves on within `append_log` keeps its string. -/
theorem given_of_move {other : Thread} {place : Appending} (lines : next.lines = s.lines)
    (moved : next.appending = Function.update s.appending other place)
    (kept : place.pending = (s.appending other).pending) :
    next.given thread = s.given thread := by
  have same : (next.appending thread).pending = (s.appending thread).pending := by
    by_cases equal : thread = other
    · rw [equal, moved, Function.update_self, kept]
    · rw [moved, Function.update_of_ne equal]
  rw [given, given, same, lines]

theorem given_of_stepAppender {other : Thread} {ti : DayTime}
    (taken : s.stepAppender other ti = some next) : next.given thread = s.given thread := by
  cases place : s.appending other with
  | outside => simp [stepAppender, place] at taken
  | locking level log =>
      simp only [stepAppender, place] at taken
      obtain ⟨-, rfl⟩ := of_guarded taken
      refine given_of_move (by rfl) (by rfl) ?_
      rw [place]
      rfl
  | writing level log at_ =>
      simp only [stepAppender, place, Option.some.injEq] at taken
      subst taken
      refine given_of_move (by rfl) (by rfl) ?_
      rw [place]
      split <;> rfl
  | notifying level log =>
      simp only [stepAppender, place, Option.some.injEq] at taken
      subst taken
      -- the string that was pending is now written
      have behind :
          (if level = .fatal then Appending.flushing .roll else .outside).pending = [] := by
        split <;> rfl
      by_cases equal : thread = other
      · subst equal
        have written : (s.appending thread).pending = [log] := by
          rw [place]
          rfl
        simp [given, move, linesOf, behind, written]
      · have differs : other ≠ thread := fun same => equal same.symm
        simp [given, move, linesOf, equal, differs]
  | flushing at_ =>
      simp only [stepAppender, place] at taken
      obtain ⟨stepped, -, rfl⟩ := Option.map_eq_some_iff.mp taken
      refine given_of_move (by rfl) (by rfl) ?_
      rw [place]
      split <;> rfl

theorem given_of_step {event : Event Thread} (taken : s.step event = some next) :
    next.given thread = s.given thread ++ appendedBy thread [event] := by
  cases event with
  | append other level log =>
      obtain ⟨⟨outside, -⟩, rfl⟩ := of_guarded taken
      by_cases equal : other = thread
      · subst equal
        simp [given, move, outside, appendedBy, Appending.pending]
      · have differs : thread ≠ other := fun same => equal same.symm
        simp [given, move, appendedBy, equal, differs]
  | advance other ti => simp [given_of_stepAppender taken, appendedBy]
  | flush ti =>
      obtain ⟨lines, appending, -⟩ := stepFlusher_frame taken
      simp [given_of_frame lines appending, appendedBy]
  | wake timedOut =>
      obtain ⟨-, rfl⟩ := of_guarded taken
      simp [given, appendedBy]
  | destroy ti =>
      obtain ⟨lines, appending⟩ := stepDestructor_frame taken
      simp [given_of_frame lines appending, appendedBy]

theorem appendedBy_cons (event : Event Thread) (rest : List (Event Thread)) :
    appendedBy thread (event :: rest) = appendedBy thread [event] ++ appendedBy thread rest := by
  cases event with
  | append other level log =>
      rw [appendedBy, appendedBy]
      split <;> rfl
  | _ => rfl

/-- Each thread's strings are written in its order. -/
theorem given_of_run {first : LogThreads Thread} (run : runFrom step first events = some last) :
    last.given thread = first.given thread ++ appendedBy thread events := by
  induction events generalizing first with
  | nil =>
      cases run
      simp [appendedBy]
  | cons event rest ih =>
      rw [runFrom_cons] at run
      obtain ⟨next, taken, more⟩ := Option.bind_eq_some_iff.mp run
      rw [ih more, given_of_step taken, List.append_assoc, ← appendedBy_cons]

/--
When the logger is gone, its files hold every line, each as it was appended, and the lines of
each thread in their order.
-/
theorem complete_of_careful (async : config.isAsync = true)
    (careful : StepsMeet step (fun s event => s.Careful event ∧ s.Fits event)
      (start config day) events)
    (run : runFrom step (start config day) events = some last) (gone : last.destroying = .gone) :
    ∃ lines : List (Thread × Bytes),
      last.mem.view.output = (lines.map Prod.snd).flatten ∧
      ∀ thread, linesOf thread lines = appendedBy thread events := by
  have both : StepsMeet step (fun s event => s.Careful event ∧ (True → s.Fits event))
      (start config day) events := careful.imp fun _ _ met => ⟨met.1, fun _ => met.2⟩
  have inv := inv_of_run async both run
  have outside : ∀ thread, last.appending thread = .outside :=
    inv.quiet (by rw [gone]; exact Destroying.noConfusion)
  have ended := inv.joined (by rw [gone]; rfl)
  have empty := inv.flushed (by rw [gone]; rfl)
  refine ⟨last.lines, ?_, ?_⟩
  · obtain ⟨base, calls, sequential⟩ := inv.inOrder
    have nothing : last.working = .nothing := by
      rcases inv.mu_of_outside outside with owner | owner
      · rw [working, owner, gone]
        rfl
      · rw [working, owner, ended]
        rfl
    have same : last.mem = base := by
      have under := sequential.under
      rw [nothing] at under
      exact under
    have sound : (Logger.new config day).Sound := ⟨Logger.new_wf config day, Nat.zero_le _⟩
    have stream := stream_of_fitting sound (sequential.fitting trivial) sequential.run
    rw [← same, sequential.written, Logger.stream] at stream
    simpa [Logger.output, LogMemory.view, empty] using stream
  · intro thread
    have all : last.given thread = (start config day).given thread ++ appendedBy thread events :=
      given_of_run run
    simpa [given, outside, Appending.pending, start, linesOf] using all

theorem complete_of_careful_shutdown :
    ∃ last, runFrom step (start LogRun.fourBytes 1) (shutdown ++ afterShutdown) = some last ∧
      ∃ lines : List (Bool × Bytes),
        last.mem.view.output = (lines.map Prod.snd).flatten ∧
        ∀ thread, linesOf thread lines = appendedBy thread (shutdown ++ afterShutdown) := by
  have ends : (runFrom step (start LogRun.fourBytes 1) (shutdown ++ afterShutdown)).any
      (fun last => last.destroying = .gone) = true := by
    decide +kernel
  have room : StepsMeet step (fun s event => s.Careful event ∧ s.FitsRoom event)
      (start LogRun.fourBytes 1) (shutdown ++ afterShutdown) := by
    decide +kernel
  obtain ⟨last, run, gone⟩ := (Option.any_eq_true _ _).mp ends
  refine ⟨last, run, complete_of_careful rfl ?_ run (of_decide_eq_true gone)⟩
  exact room.imp fun _ _ met => ⟨met.1, met.2.fits⟩

end LogThreads

/-! ## The flush thread ends -/

/-- The steps of a `flush_buf(false)` from a place on. -/
def LogMemory.FlushAt.rank : LogMemory.FlushAt → Nat
  | .again => 1
  | .pop => 2
  | .spare => 3
  | .front => 4
  | .trim => 5
  | .roll => 6

/--
The steps of the flush thread from a place on, once `is_thread_run` is false and when it is not
woken without a reason.
-/
def FlushThread.rank : FlushThread → Nat
  | .ended => 0
  | .leaving => 1
  | .looping => 2
  | .locking => 3
  | .flushing place => 2 + place.rank
  | .woken true => 9
  | .waiting => 10
  | .testing => 11
  | .woken false => 12
  | .checking => 12

namespace LogThreads

section rank

variable {Thread : Type} {s next : LogThreads Thread} {ti : DayTime}

theorem stepFlush_rank {mem after : LogMemory} {place later : LogMemory.FlushAt}
    (taken : mem.stepFlush false ti place = some (after, some later)) :
    later.rank < place.rank := by
  cases place <;> simp only [LogMemory.stepFlush] at taken
  case roll =>
    cases taken
    decide
  case trim =>
    cases taken
    decide
  case front => split at taken <;> cases taken <;> decide
  case spare =>
    split at taken
    · cases taken
    · cases taken
      decide
  case pop =>
    split at taken
    · cases taken
    · cases taken
      decide
  case again => split at taken <;> simp_all

theorem stepFlusher_rank (stopped : s.isThreadRun = false)
    (taken : s.stepFlusher ti = some next) :
    next.flushThread.rank < s.flushThread.rank := by
  unfold stepFlusher at taken
  split at taken
  · next place =>
      obtain ⟨-, rfl⟩ := of_guarded taken
      simp [place, FlushThread.rank]
  · next place =>
      cases taken
      simp [place, stopped, FlushThread.rank]
  · next place =>
      cases taken
      rw [place]
      change (if _ then _ else _ : FlushThread).rank < _
      split <;> decide
  · next place =>
      split at taken
      · cases taken
        simp [place, FlushThread.rank, LogMemory.FlushAt.rank]
      · cases taken
        simp [place, FlushThread.rank]
  · cases taken
  · next timedOut place =>
      obtain ⟨-, rfl⟩ := of_guarded taken
      cases timedOut <;> simp [place, FlushThread.rank, LogMemory.FlushAt.rank]
  · next at_ place =>
      obtain ⟨⟨mem, after⟩, stepped, rfl⟩ := Option.map_eq_some_iff.mp taken
      rw [place]
      cases after with
      | none =>
          change 2 < 2 + at_.rank
          cases at_ <;> decide
      | some later =>
          have less := stepFlush_rank stepped
          change 2 + later.rank < 2 + at_.rank
          omega
  · next place =>
      cases taken
      simp [place, FlushThread.rank]
  · cases taken

/-- Where the list has a front, `flush_buf` goes on. -/
theorem stepFlush_isSome {mem : LogMemory} {isFull : Bool} {place : LogMemory.FlushAt}
    (front : place.takesFront = true → mem.bufList ≠ []) :
    (mem.stepFlush isFull ti place).isSome := by
  cases place with
  | spare =>
      cases list : mem.bufList with
      | nil => exact absurd list (front rfl)
      | cons address rest => simp [LogMemory.stepFlush, list]
  | pop =>
      cases list : mem.bufList with
      | nil => exact absurd list (front rfl)
      | cons address rest => simp [LogMemory.stepFlush, list]
  | roll => rfl
  | trim => rfl
  | front =>
      simp only [LogMemory.stepFlush]
      split <;> rfl
  | again =>
      simp only [LogMemory.stepFlush]
      split <;> rfl

/-- While the destructor waits, the flush thread can go on, or its wait comes to its end. -/
theorem Inv.flusher_goes {config : Config} {day : Int} {fits : Prop}
    (inv : s.Inv config day fits) (joining : s.destroying = .joining)
    (running : s.flushThread ≠ .ended) (asleep : s.flushThread ≠ .waiting) :
    (s.stepFlusher ti).isSome := by
  have outside : ∀ thread, s.appending thread = .outside :=
    inv.quiet (by rw [joining]; exact Destroying.noConfusion)
  have free (unlocked : s.flushThread.locked = false) : s.mu = none := by
    rcases inv.mu_of_outside outside with none | owner
    · exact none
    · have locked := inv.flusher.mp owner
      rw [unlocked] at locked
      cases locked
  cases place : s.flushThread with
  | locking =>
      rw [place] at free
      simp [LogThreads.stepFlusher, place, free rfl]
  | looping => simp [LogThreads.stepFlusher, place]
  | checking => simp [LogThreads.stepFlusher, place]
  | testing =>
      simp only [LogThreads.stepFlusher, place]
      split <;> rfl
  | waiting => exact absurd place asleep
  | woken timedOut =>
      rw [place] at free
      simp [LogThreads.stepFlusher, place, free rfl]
  | flushing at_ =>
      obtain ⟨base, calls, sequential⟩ := inv.inOrder
      have under := sequential.under
      rw [inv.working_of_flusher (by rw [place]; rfl), place] at under
      simp only [LogThreads.stepFlusher, place, Option.isSome_map]
      exact stepFlush_isSome under.2
  | leaving => simp [LogThreads.stepFlusher, place]
  | ended => exact absurd place running

end rank

/-! ### The join -/

/-- A step of the flush thread, or the end of its wait. -/
def isFlusherStep {Thread : Type} : Event Thread → Bool
  | .flush _ => true
  | .wake timedOut => timedOut
  | _ => false

/-- The flush thread is woken without a reason. -/
def isSpurious {Thread : Type} : Event Thread → Bool
  | .wake timedOut => !timedOut
  | _ => false

theorem stepDestructor_joined {Thread : Type} {s next : LogThreads Thread} {ti : DayTime}
    (notAlive : s.destroying ≠ .alive) (notFlagged : s.destroying ≠ .flagged)
    (taken : s.stepDestructor ti = some next) :
    next.flushThread = s.flushThread ∧ next.destroying.joined = true := by
  unfold stepDestructor at taken
  split at taken
  · next alive => exact absurd alive notAlive
  · next flagged => exact absurd flagged notFlagged
  · obtain ⟨-, rfl⟩ := of_guarded taken
    exact ⟨rfl, rfl⟩
  · obtain ⟨⟨mem, after⟩, -, rfl⟩ := Option.map_eq_some_iff.mp taken
    cases after <;> exact ⟨rfl, rfl⟩
  · cases taken
    exact ⟨rfl, rfl⟩
  · cases taken

section join

variable {Thread : Type} [DecidableEq Thread] {config : Config} {day : Int} {fits : Prop}
  {s next last : LogThreads Thread} {events more : List (Event Thread)}

/-- Behind the notification nobody notifies any more. -/
structure Notified (config : Config) (day : Int) (s : LogThreads Thread) : Prop where
  inv : s.Inv config day False
  notAlive : s.destroying ≠ .alive
  notFlagged : s.destroying ≠ .flagged

theorem Notified.step (async : config.isAsync = true) (notified : s.Notified config day)
    {event : Event Thread} (careful : s.Careful event) (taken : s.step event = some next) :
    next.Notified config day ∧
      next.flushThread.rank + (if isFlusherStep event then 1 else 0) ≤
        s.flushThread.rank + (if isSpurious event then 2 else 0) := by
  have inv := notified.inv.step async careful False.elim taken
  have notAlive := notified.notAlive
  have notFlagged := notified.notFlagged
  cases event with
  | append thread level log => exact absurd careful.2 notAlive
  | advance thread ti =>
      have outside := notified.inv.quiet notAlive thread
      simp [LogThreads.step, stepAppender, outside] at taken
  | flush ti =>
      have less := stepFlusher_rank (notified.inv.stopped notAlive) taken
      obtain ⟨-, -, same⟩ := stepFlusher_frame taken
      refine ⟨⟨inv, by rwa [same], by rwa [same]⟩, ?_⟩
      simp only [isFlusherStep, isSpurious, if_true]
      omega
  | wake timedOut =>
      obtain ⟨waiting, rfl⟩ := of_guarded taken
      refine ⟨⟨inv, notAlive, notFlagged⟩, ?_⟩
      rw [waiting]
      cases timedOut <;> simp [isFlusherStep, isSpurious, FlushThread.rank]
  | destroy ti =>
      obtain ⟨same, joined⟩ := stepDestructor_joined notAlive notFlagged taken
      refine ⟨⟨inv, ?_, ?_⟩, ?_⟩
      · intro alive
        rw [alive] at joined
        cases joined
      · intro flagged
        rw [flagged] at joined
        cases joined
      · simp [same, isFlusherStep, isSpurious]

/-- The steps of a run, against the rank. -/
theorem Notified.run (async : config.isAsync = true) (notified : s.Notified config day)
    (careful : StepsMeet LogThreads.step Careful s more)
    (run : runFrom LogThreads.step s more = some last) :
    last.flushThread.rank + more.countP isFlusherStep ≤
      s.flushThread.rank + 2 * more.countP isSpurious := by
  induction more generalizing s with
  | nil =>
      cases run
      simp
  | cons event rest ih =>
      rw [runFrom_cons] at run
      obtain ⟨next, taken, ran⟩ := Option.bind_eq_some_iff.mp run
      simp only [StepsMeet, taken] at careful
      obtain ⟨behind, step⟩ := notified.step async careful.1 taken
      have others := ih behind careful.2 ran
      rw [List.countP_cons, List.countP_cons]
      calc
        last.flushThread.rank + (rest.countP isFlusherStep + if isFlusherStep event then 1 else 0)
          ≤ next.flushThread.rank + 2 * rest.countP isSpurious +
              (if isFlusherStep event then 1 else 0) := by omega
        _ ≤ s.flushThread.rank + (if isSpurious event then 2 else 0) +
              2 * rest.countP isSpurious := by omega
        _ = s.flushThread.rank +
              2 * (rest.countP isSpurious + if isSpurious event then 1 else 0) := by
          split <;> omega

/--
The join comes back: the flush thread can always go on, or the time of its wait runs out, and
it ends after twelve steps and two more for each time that it is woken without a reason.
-/
theorem join_returns (async : config.isAsync = true)
    (careful : StepsMeet LogThreads.step Careful (start config day) events)
    (run : runFrom LogThreads.step (start config day) events = some s)
    (joining : s.destroying = .joining) :
    (s.flushThread = .ended ∨ ∃ event, isFlusherStep event = true ∧
      (s.step event).isSome = true) ∧
    ∀ more last, StepsMeet LogThreads.step Careful s more →
      runFrom LogThreads.step s more = some last →
      more.countP isFlusherStep ≤ 12 + 2 * more.countP isSpurious := by
  have both : StepsMeet LogThreads.step (fun s event => s.Careful event ∧ (False → s.Fits event))
      (start config day) events := careful.imp fun _ _ met => ⟨met, False.elim⟩
  have inv := inv_of_run async both run
  have notified : s.Notified config day :=
    ⟨inv, by rw [joining]; exact Destroying.noConfusion,
      by rw [joining]; exact Destroying.noConfusion⟩
  constructor
  · by_cases ended : s.flushThread = .ended
    · exact .inl ended
    · right
      by_cases waiting : s.flushThread = .waiting
      · exact ⟨.wake true, rfl, by simp [LogThreads.step, waiting]⟩
      · exact ⟨.flush ⟨0, 0, 0, 0⟩, rfl, inv.flusher_goes joining ended waiting⟩
  · intro more last carefulMore ran
    have bound := notified.run async carefulMore ran
    have twelve : s.flushThread.rank ≤ 12 := by
      cases place : s.flushThread with
      | flushing at_ => cases at_ <;> decide
      | woken timedOut => cases timedOut <;> decide
      | _ => decide
    omega

theorem join_returns_shutdown :
    ∃ s, runFrom LogThreads.step (start LogRun.fourBytes 1) shutdown = some s ∧
      (s.flushThread = .ended ∨ ∃ event, isFlusherStep event = true ∧
        (s.step event).isSome = true) ∧
      ∀ more last, StepsMeet LogThreads.step Careful s more →
        runFrom LogThreads.step s more = some last →
        more.countP isFlusherStep ≤ 12 + 2 * more.countP isSpurious := by
  have joins : (runFrom LogThreads.step (start LogRun.fourBytes 1) shutdown).any
      (fun s => s.destroying = .joining) = true := by
    decide +kernel
  obtain ⟨s, run, joining⟩ := (Option.any_eq_true _ _).mp joins
  exact ⟨s, run, join_returns rfl (by decide +kernel) run (of_decide_eq_true joining)⟩

end join

end LogThreads

end SimpleWebServer.Logging
