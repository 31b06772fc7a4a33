import Mathlib.Data.Fintype.Basic
import Mathlib.Logic.Function.Basic
import SimpleWebServer.Logging.LogMemory

/-!
# The threads of the logger

Any number of threads append lines, one thread flushes, and at the end the logger is
destroyed.  `write_buf` and the flush thread work under the mutex, the destructor when the
flush thread has been joined; the flush that follows a fatal line takes no mutex.
-/

namespace SimpleWebServer.Logging

open SimpleWebServer.Base SimpleWebServer.Lib SimpleWebServer.Lib.Runs
open LogMemory (WriteAt FlushAt)

/-- `Logger::Level` -/
inductive Level where
  | trace
  | debug
  | info
  | warn
  | error
  | fatal
  deriving DecidableEq, Repr

/-- Where a thread is in `append_log`, behind the formatting of `log`. -/
inductive Appending where
  | outside
  /-- in front of the `lock_guard` of `write_buf` -/
  | locking (level : Level) (log : Bytes)
  /-- in the loop of `write_buf` -/
  | writing (level : Level) (log : Bytes) (place : WriteAt)
  /-- behind the loop, in front of the notification and the end of the `lock_guard` -/
  | notifying (level : Level) (log : Bytes)
  /-- in the `flush_buf(true)` of a fatal line -/
  | flushing (place : FlushAt)
  deriving DecidableEq, Repr

/-- Where the flush thread is in `flush_loop_in_thread`. -/
inductive FlushThread where
  /-- in front of the `unique_lock` -/
  | locking
  /-- in front of the test of `is_thread_run` -/
  | looping
  /-- in front of `if (!need_buf_flush())` -/
  | checking
  /-- in `wait_for`, in front of its predicate -/
  | testing
  /-- asleep, without the mutex -/
  | waiting
  /-- awake again, in front of the mutex -/
  | woken (timedOut : Bool)
  | flushing (place : FlushAt)
  /-- behind the loop, in front of the end of the `unique_lock` -/
  | leaving
  | ended
  deriving DecidableEq, Repr

/-- Where the destructor is. -/
inductive Destroying where
  /-- it has not been called -/
  | alive
  /-- behind `is_thread_run = false` -/
  | flagged
  /-- behind `conv.notify_one()`, in `th.join()` -/
  | joining
  | flushing (place : FlushAt)
  /-- in front of `close(fd)` -/
  | closing
  | gone
  deriving DecidableEq, Repr

/-- Who has the mutex. -/
inductive Owner (Thread : Type) where
  | appender (thread : Thread)
  | flusher
  deriving DecidableEq, Repr

structure LogThreads (Thread : Type) where
  mem : LogMemory
  mu : Option (Owner Thread) := none
  isThreadRun : Bool := true
  appending : Thread → Appending := fun _ => .outside
  flushThread : FlushThread := .locking
  destroying : Destroying := .alive
  /-- the strings that `write_buf` has written, in the order in which it gave back the mutex -/
  lines : List (Thread × Bytes) := []

/-- `conv.notify_one()` -/
def FlushThread.notified : FlushThread → FlushThread
  | .waiting => .woken false
  | other => other

namespace LogThreads

variable {Thread : Type}

inductive Event (Thread : Type) where
  /-- a thread calls `append_log`, which makes the string `log` -/
  | append (thread : Thread) (level : Level) (log : Bytes)
  /-- the next step of a thread in `append_log` -/
  | advance (thread : Thread) (ti : DayTime)
  /-- the next step of the flush thread -/
  | flush (ti : DayTime)
  /-- `wait_for` comes back, with or without a reason -/
  | wake (timedOut : Bool)
  /-- the next step of the destructor -/
  | destroy (ti : DayTime)
  deriving DecidableEq, Repr

/-- The logger that the constructor leaves on the day `day`. -/
def start (config : Config) (day : Int) : LogThreads Thread where
  mem := .new config day

/-- The next step of the flush thread, which reads `ti` if it looks at the clock. -/
def stepFlusher (s : LogThreads Thread) (ti : DayTime) : Option (LogThreads Thread) :=
  match s.flushThread with
  | .locking =>
      if s.mu.isNone then some { s with mu := some .flusher, flushThread := .looping } else none
  | .looping =>
      some { s with flushThread := if s.isThreadRun then .checking else .leaving }
  | .checking =>
      some { s with flushThread := if s.mem.needBufFlush then .flushing .roll else .testing }
  | .testing =>
      if s.mem.needBufFlush then some { s with flushThread := .flushing .roll }
      else some { s with mu := none, flushThread := .waiting }
  | .waiting => none
  | .woken timedOut =>
      if s.mu.isNone then
        some { s with
          mu := some .flusher
          flushThread := if timedOut then .flushing .roll else .testing }
      else none
  | .flushing place =>
      (s.mem.stepFlush false ti place).map fun stepped =>
        { s with
          mem := stepped.1
          flushThread := match stepped.2 with
            | some next => .flushing next
            | none => .looping }
  | .leaving => some { s with mu := none, flushThread := .ended }
  | .ended => none

/-- The next step of the destructor; behind the join it is alone. -/
def stepDestructor (s : LogThreads Thread) (ti : DayTime) : Option (LogThreads Thread) :=
  match s.destroying with
  | .alive => some { s with isThreadRun := false, destroying := .flagged }
  | .flagged => some { s with flushThread := s.flushThread.notified, destroying := .joining }
  | .joining =>
      if s.flushThread = .ended then some { s with destroying := .flushing .roll } else none
  | .flushing place =>
      (s.mem.stepFlush true ti place).map fun stepped =>
        { s with
          mem := stepped.1
          destroying := match stepped.2 with
            | some next => .flushing next
            | none => .closing }
  | .closing => some { s with destroying := .gone }
  | .gone => none

variable [DecidableEq Thread]

def move (s : LogThreads Thread) (thread : Thread) (place : Appending) : LogThreads Thread :=
  { s with appending := Function.update s.appending thread place }

/-- The next step of a thread in `append_log`; a fatal line ends in an exception. -/
def stepAppender (s : LogThreads Thread) (thread : Thread) (ti : DayTime) :
    Option (LogThreads Thread) :=
  match s.appending thread with
  | .outside => none
  | .locking level log =>
      if s.mu.isNone then
        some { s.move thread (.writing level log (.taking log.length)) with
          mu := some (.appender thread) }
      else none
  | .writing level log place =>
      let stepped := s.mem.stepWrite log place
      some { s.move thread (match stepped.2 with
          | some next => .writing level log next
          | none => .notifying level log) with
        mem := stepped.1 }
  | .notifying level log =>
      some { s.move thread (if level = .fatal then .flushing .roll else .outside) with
        mu := none
        flushThread := if s.mem.needBufFlush then s.flushThread.notified else s.flushThread
        lines := s.lines ++ [(thread, log)] }
  | .flushing place =>
      (s.mem.stepFlush true ti place).map fun stepped =>
        { s.move thread (match stepped.2 with
            | some next => .flushing next
            | none => .outside) with
          mem := stepped.1 }

/-- One step; no string is empty, since each ends in a line feed. -/
def step (s : LogThreads Thread) : Event Thread → Option (LogThreads Thread)
  | .append thread level log =>
      if s.appending thread = .outside ∧ log ≠ [] then
        some (s.move thread (.locking level log))
      else none
  | .advance thread ti => s.stepAppender thread ti
  | .flush ti => s.stepFlusher ti
  | .wake timedOut =>
      if s.flushThread = .waiting then some { s with flushThread := .woken timedOut } else none
  | .destroy ti => s.stepDestructor ti

/--
No line is fatal, and the logger is neither used when it is being destroyed nor destroyed when
it is used.
-/
def Careful (s : LogThreads Thread) : Event Thread → Prop
  | .append _ level _ => level ≠ .fatal ∧ s.destroying = .alive
  | .destroy _ => s.destroying = .alive → ∀ thread, s.appending thread = .outside
  | _ => True

instance [Fintype Thread] (s : LogThreads Thread) : (event : Event Thread) →
    Decidable (s.Careful event)
  | .append _ level _ => inferInstanceAs (Decidable (level ≠ .fatal ∧ _))
  | .advance _ _ => .isTrue trivial
  | .flush _ => .isTrue trivial
  | .wake _ => .isTrue trivial
  | .destroy _ => inferInstanceAs (Decidable (_ → ∀ thread, s.appending thread = .outside))

end LogThreads

/-! ## What is under way -/

/-- A call that works on the lists. -/
inductive Working where
  | nothing
  | writing (log : Bytes) (place : WriteAt)
  /-- behind the loop of `write_buf` -/
  | written (log : Bytes)
  | flushing (isFull : Bool) (place : FlushAt)
  deriving DecidableEq, Repr

/-- The call began in `base`, and has taken it to `mem`. -/
def Working.From (base mem : LogMemory) : Working → Prop
  | .nothing => mem = base
  | .writing log place =>
      Since (LogMemory.writeSteps log) (.taking log.length) base place mem
  | .written log => Completes (LogMemory.writeSteps log) (.taking log.length) base mem
  | .flushing isFull place => Since (LogMemory.flushSteps isFull) .roll base place mem ∧
      (place.takesFront = true → mem.bufList ≠ [])

/-- The strings that calls have written. -/
def writtenBy : List Logging.Event → List Bytes
  | [] => []
  | .write log _ :: rest => log :: writtenBy rest
  | .flush _ _ :: rest => writtenBy rest

theorem writtenBy_append (calls more : List Logging.Event) :
    writtenBy (calls ++ more) = writtenBy calls ++ writtenBy more := by
  induction calls with
  | nil => rfl
  | cons call rest ih =>
      cases call with
      | write log ti => simp [writtenBy, ih]
      | flush isFull clock => simp [writtenBy, ih]

/-- The string that a call is about to write fits, and so do the blocks behind it. -/
def WritesFitting (logger : Logger) : Logging.Event → Prop
  | .write log _ => logger.FitsOrRepeats log ∧
      (logger.fill log).blocks ≤ logger.config.bufBlockNum
  | .flush _ _ => True

/--
The lists are as whole calls left them, one behind the other, up to the call under way; when
`fits` holds, all of them were written to fit.
-/
structure Sequential (config : Config) (day : Int) (fits : Prop) (lines : List Bytes)
    (working : Working) (mem base : LogMemory) (calls : List Logging.Event) : Prop where
  separate : base.Separate
  run : runFrom Logger.stepBlocks (.new config day) calls = some base.view
  written : writtenBy calls = lines
  under : working.From base mem
  fitting : fits → StepsMeet Logger.stepBlocks WritesFitting (.new config day) calls
  next : ∀ log place, working = .writing log place ∨ working = .written log → log ≠ [] ∧
    (fits → base.view.FitsOrRepeats log)

def InOrder (config : Config) (day : Int) (fits : Prop) (lines : List Bytes)
    (working : Working) (mem : LogMemory) : Prop :=
  ∃ base calls, Sequential config day fits lines working mem base calls

/-- The constants of the logger stay. -/
theorem config_of_flush {isFull : Bool} {clock : Nat → DayTime} {logger result : Logger}
    (flushed : FlushBuf isFull clock logger result) : result.config = logger.config := by
  induction flushed with
  | last => simp [Logger.flushOne]
  | again _ _ _ ih => simpa [Logger.flushOne] using ih

theorem config_of_run {config : Config} {day : Int} {logger : Logger}
    {calls : List Logging.Event}
    (run : runFrom Logger.stepBlocks (.new config day) calls = some logger) :
    logger.config = config := by
  have kept : logger.Kept ∧ logger.config = config := by
    refine runFrom_invariant (fun logger : Logger => logger.Kept ∧ logger.config = config) ?_
      ⟨Logger.new_kept config day, rfl⟩ run
    rintro logger call next ⟨kept, same⟩ taken
    refine ⟨kept.step taken, ?_⟩
    cases call with
    | write log ti =>
        obtain ⟨nonempty, rfl⟩ := of_guarded taken
        have filled := (kept.wf.fill_stream nonempty).2.1
        rw [Logger.writeBuf]
        split
        · rw [filled, same]
        · rw [config_of_flush (Logger.flushBuf_returns _ _ _), filled, same]
    | flush isFull clock =>
        cases taken
        rw [config_of_flush (logger.flushBuf_returns isFull clock), same]
  exact kept.2

section InOrder

variable {config : Config} {day : Int} {fits : Prop} {lines : List Bytes} {mem base : LogMemory}
  {log : Bytes} {calls : List Logging.Event}

theorem inOrder_new : InOrder config day fits [] .nothing (.new config day) :=
  ⟨_, [], LogMemory.new_separate config day, rfl, rfl, rfl, fun _ => trivial, by simp⟩

theorem Sequential.kept {working : Working}
    (sequential : Sequential config day fits lines working mem base calls) : base.view.Kept :=
  runFrom_invariant Logger.Kept (fun _ _ _ kept taken => kept.step taken)
    (Logger.new_kept config day) sequential.run

theorem InOrder.beginWrite (inOrder : InOrder config day fits lines .nothing mem)
    (nonempty : log ≠ []) (fit : fits → mem.view.FitsOrRepeats log) :
    InOrder config day fits lines (.writing log (.taking log.length)) mem := by
  obtain ⟨base, calls, sequential⟩ := inOrder
  have same : mem = base := sequential.under
  subst same
  refine ⟨mem, calls, sequential.separate, sequential.run, sequential.written, Since.begin _ _,
    sequential.fitting, ?_⟩
  rintro other place (same | same)
  · cases same
    exact ⟨nonempty, fit⟩
  · cases same

theorem InOrder.write {place : LogMemory.WriteAt}
    (inOrder : InOrder config day fits lines (.writing log place) mem) :
    InOrder config day fits lines (match (mem.stepWrite log place).2 with
      | some next => .writing log next
      | none => .written log) (mem.stepWrite log place).1 := by
  obtain ⟨base, calls, sequential⟩ := inOrder
  have since : Since (LogMemory.writeSteps log) (.taking log.length) base place mem :=
    sequential.under
  obtain ⟨nonempty, fit⟩ := sequential.next log place (.inl rfl)
  have taken (ti : DayTime) : LogMemory.writeSteps log ti mem place =
      some ((mem.stepWrite log place).1, (mem.stepWrite log place).2) := rfl
  cases after : (mem.stepWrite log place).2 with
  | some next =>
      rw [after] at taken
      refine ⟨base, calls, sequential.separate, sequential.run, sequential.written,
        since.more (taken ⟨0, 0, 0, 0⟩), sequential.fitting, ?_⟩
      rintro other place (same | same)
      · cases same
        exact ⟨nonempty, fit⟩
      · cases same
  | none =>
      rw [after] at taken
      refine ⟨base, calls, sequential.separate, sequential.run, sequential.written,
        since.last (taken ⟨0, 0, 0, 0⟩), sequential.fitting, ?_⟩
      rintro other place (same | same)
      · cases same
      · cases same
        exact ⟨nonempty, fit⟩

theorem InOrder.commitWrite (async : config.isAsync = true)
    (inOrder : InOrder config day fits lines (.written log) mem)
    (room : fits → mem.view.blocks ≤ mem.config.bufBlockNum) :
    InOrder config day fits (lines ++ [log]) .nothing mem := by
  obtain ⟨base, calls, sequential⟩ := inOrder
  obtain ⟨nonempty, fit⟩ := sequential.next log (.taking 0) (.inr rfl)
  have same := config_of_run sequential.run
  obtain ⟨separate, filled⟩ := LogMemory.view_of_write nonempty sequential.separate
    sequential.kept.wf sequential.under
  have taken : base.view.stepBlocks (.write log ⟨0, 0, 0, 0⟩) = some mem.view := by
    rw [Logger.stepBlocks, if_pos nonempty, Logger.writeBuf, same, if_pos async, filled]
  refine ⟨mem, calls ++ [.write log ⟨0, 0, 0, 0⟩], separate,
    runFrom_concat sequential.run taken, ?_, rfl, ?_, by simp⟩
  · rw [writtenBy_append, sequential.written]
    rfl
  · intro isFit
    apply (sequential.fitting isFit).concat sequential.run
    have sameConfig : mem.config = base.view.config := by
      have kept := (sequential.kept.wf.fill_stream nonempty).2.1
      rw [← filled] at kept
      exact kept
    rw [WritesFitting, ← filled, ← sameConfig]
    exact ⟨fit isFit, room isFit⟩

theorem InOrder.beginFlush (inOrder : InOrder config day fits lines .nothing mem)
    (isFull : Bool) : InOrder config day fits lines (.flushing isFull .roll) mem := by
  obtain ⟨base, calls, sequential⟩ := inOrder
  have same : mem = base := sequential.under
  subst same
  exact ⟨mem, calls, sequential.separate, sequential.run, sequential.written,
    ⟨Since.begin _ _, fun isFront => by cases isFront⟩, sequential.fitting, by simp⟩

theorem InOrder.flush {isFull : Bool} {place : FlushAt} {ti : DayTime} {next : LogMemory}
    {after : Option FlushAt}
    (inOrder : InOrder config day fits lines (.flushing isFull place) mem)
    (taken : mem.stepFlush isFull ti place = some (next, after)) :
    InOrder config day fits lines (match after with
      | some place => .flushing isFull place
      | none => .nothing) next := by
  obtain ⟨base, calls, sequential⟩ := inOrder
  have since : Since (LogMemory.flushSteps isFull) .roll base place mem := sequential.under.1
  cases after with
  | some place =>
      exact ⟨base, calls, sequential.separate, sequential.run, sequential.written,
        ⟨since.more taken, LogMemory.bufList_of_takesFront taken⟩, sequential.fitting, by simp⟩
  | none =>
      -- the call has returned, and what it left is what the next one begins with
      obtain ⟨separate, clock, flushed⟩ := LogMemory.view_of_flush sequential.separate
        (since.last taken)
      have stepped : base.view.stepBlocks (.flush isFull clock) = some next.view := by
        rw [Logger.stepBlocks, flushed.eq_flushBuf]
      refine ⟨next, calls ++ [.flush isFull clock], separate,
        runFrom_concat sequential.run stepped, ?_, rfl, ?_, by simp⟩
      · rw [writtenBy_append, sequential.written]
        exact List.append_nil _
      · intro isFit
        exact (sequential.fitting isFit).concat sequential.run trivial

end InOrder

/-! ## The mutex -/

/-- The thread has the mutex. -/
def Appending.locked : Appending → Bool
  | .writing .. => true
  | .notifying .. => true
  | _ => false

def FlushThread.locked : FlushThread → Bool
  | .looping => true
  | .checking => true
  | .testing => true
  | .flushing _ => true
  | .leaving => true
  | _ => false

/-- The destructor is behind `th.join()`. -/
def Destroying.joined : Destroying → Bool
  | .flushing _ => true
  | .closing => true
  | .gone => true
  | _ => false

/-- The destructor has flushed. -/
def Destroying.flushed : Destroying → Bool
  | .closing => true
  | .gone => true
  | _ => false

def Appending.working : Appending → Working
  | .writing _ log place => .writing log place
  | .notifying _ log => .written log
  | _ => .nothing

def FlushThread.working : FlushThread → Working
  | .flushing place => .flushing false place
  | _ => .nothing

def Destroying.working : Destroying → Working
  | .flushing place => .flushing true place
  | _ => .nothing

/-- The thread appends a line that is not fatal. -/
def Appending.Ordinary : Appending → Prop
  | .outside => True
  | .locking level log => level ≠ .fatal ∧ log ≠ []
  | .writing level _ _ => level ≠ .fatal
  | .notifying level _ => level ≠ .fatal
  | .flushing _ => False

namespace LogThreads

variable {Thread : Type}

/-- The call that works on the lists: that of the holder of the mutex, or the destructor's. -/
def working (s : LogThreads Thread) : Working :=
  match s.mu with
  | some (.appender thread) => (s.appending thread).working
  | some .flusher => s.flushThread.working
  | none => s.destroying.working

/-- The condition under which a string is added as it is, on the steps of the threads. -/
def Fits (s : LogThreads Thread) : Event Thread → Prop
  | .advance thread _ =>
      match s.appending thread with
      | .locking _ log => s.mem.view.FitsOrRepeats log
      | .notifying _ _ => s.mem.view.blocks ≤ s.mem.config.bufBlockNum
      | _ => True
  | _ => True

structure Inv (config : Config) (day : Int) (fits : Prop) (s : LogThreads Thread) : Prop where
  appender : ∀ thread, s.mu = some (.appender thread) ↔ (s.appending thread).locked = true
  flusher : s.mu = some .flusher ↔ s.flushThread.locked = true
  quiet : s.destroying ≠ .alive → ∀ thread, s.appending thread = .outside
  stopped : s.destroying ≠ .alive → s.isThreadRun = false
  joined : s.destroying.joined = true → s.flushThread = .ended
  flushed : s.destroying.flushed = true → s.mem.bufList = []
  ordinary : ∀ thread, (s.appending thread).Ordinary
  inOrder : InOrder config day fits (s.lines.map Prod.snd) s.working s.mem

theorem start_inv (config : Config) (day : Int) (fits : Prop) :
    (start config day : LogThreads Thread).Inv config day fits where
  appender := by
    intro thread
    simp [start, Appending.locked]
  flusher := by simp [start, FlushThread.locked]
  quiet := fun notAlive => absurd rfl notAlive
  stopped := fun notAlive => absurd rfl notAlive
  joined := fun isJoined => by cases isJoined
  flushed := fun isFlushed => by cases isFlushed
  ordinary := fun _ => trivial
  inOrder := inOrder_new

variable {config : Config} {day : Int} {fits : Prop} {s next : LogThreads Thread} {ti : DayTime}

/-! ### The flush thread -/

theorem Destroying.joined_of_flushed {place : Destroying} (isFlushed : place.flushed = true) :
    place.joined = true := by
  cases place <;> first | rfl | cases isFlushed

/-- A move of the flush thread, which may take the free mutex or give it back. -/
theorem Inv.moveFlusher (inv : s.Inv config day fits) (running : s.flushThread ≠ .ended)
    {mem : LogMemory} {mu : Option (Owner Thread)} {place : FlushThread}
    (owner : mu = s.mu ∨ (s.mu = none ∨ s.mu = some .flusher) ∧ (mu = none ∨ mu = some .flusher))
    (flusher : mu = some .flusher ↔ place.locked = true)
    (inOrder : InOrder config day fits (s.lines.map Prod.snd)
      ({ s with mem := mem, mu := mu, flushThread := place } : LogThreads Thread).working mem) :
    ({ s with mem := mem, mu := mu, flushThread := place } : LogThreads Thread).Inv
      config day fits where
  appender := by
    intro thread
    rw [← inv.appender thread]
    rcases owner with rfl | ⟨old, new⟩
    · exact Iff.rfl
    · rcases old with old | old <;> rcases new with new | new <;> simp [old, new]
  flusher := flusher
  quiet := inv.quiet
  stopped := inv.stopped
  joined := fun isJoined => absurd (inv.joined isJoined) running
  flushed := fun isFlushed =>
    absurd (inv.joined (Destroying.joined_of_flushed isFlushed)) running
  ordinary := inv.ordinary
  inOrder := inOrder

/-- Behind the join the flush thread is gone; before it, the destructor does not flush. -/
theorem Inv.alone (inv : s.Inv config day fits) (running : s.flushThread ≠ .ended) :
    s.destroying.working = .nothing := by
  cases place : s.destroying with
  | flushing place =>
      have ended := inv.joined (by rw [place]; rfl)
      exact absurd ended running
  | alive => rfl
  | flagged => rfl
  | joining => rfl
  | closing => rfl
  | gone => rfl

/-- What the flush thread does with the mutex. -/
theorem Inv.working_of_flusher (inv : s.Inv config day fits)
    (locked : s.flushThread.locked = true) : s.working = s.flushThread.working := by
  rw [working, inv.flusher.mpr locked]

/-- A move of the flush thread while it has the mutex. -/
theorem Inv.moveLocked (inv : s.Inv config day fits) (owner : s.mu = some .flusher)
    (running : s.flushThread ≠ .ended) {mem : LogMemory} {place : FlushThread}
    (locked : place.locked = true)
    (inOrder : InOrder config day fits (s.lines.map Prod.snd) place.working mem) :
    ({ s with mem := mem, flushThread := place } : LogThreads Thread).Inv config day fits := by
  refine inv.moveFlusher running (.inl rfl) (by simp [owner, locked]) ?_
  rw [working, owner]
  exact inOrder

theorem Inv.stepFlusher (inv : s.Inv config day fits) (taken : s.stepFlusher ti = some next) :
    next.Inv config day fits := by
  have running : s.flushThread ≠ .ended := by
    intro ended
    simp [LogThreads.stepFlusher, ended] at taken
  have inOrder := inv.inOrder
  have owner := inv.flusher
  have mine := inv.working_of_flusher
  cases place : s.flushThread with
  | locking =>
      simp only [LogThreads.stepFlusher, place] at taken
      obtain ⟨free, rfl⟩ := of_guarded taken
      have isFree := Option.isNone_iff_eq_none.mp free
      apply inv.moveFlusher running (.inr ⟨.inl isFree, .inr rfl⟩) (by simp [FlushThread.locked])
      rw [working, isFree, inv.alone running] at inOrder
      exact inOrder
  | looping =>
      simp only [LogThreads.stepFlusher, place, Option.some.injEq] at taken
      subst taken
      rw [place] at owner mine
      rw [mine rfl] at inOrder
      apply inv.moveLocked (owner.mpr rfl) running
      · split <;> rfl
      · split <;> exact inOrder
  | checking =>
      simp only [LogThreads.stepFlusher, place, Option.some.injEq] at taken
      subst taken
      rw [place] at owner mine
      rw [mine rfl] at inOrder
      apply inv.moveLocked (owner.mpr rfl) running
      · split <;> rfl
      · split
        · exact inOrder.beginFlush false
        · exact inOrder
  | testing =>
      simp only [LogThreads.stepFlusher, place] at taken
      rw [place] at owner mine
      rw [mine rfl] at inOrder
      split at taken
      · cases taken
        exact inv.moveLocked (owner.mpr rfl) running rfl (inOrder.beginFlush false)
      · cases taken
        apply inv.moveFlusher running (.inr ⟨.inr (owner.mpr rfl), .inl rfl⟩)
          (by simp [FlushThread.locked])
        change InOrder config day fits _ s.destroying.working s.mem
        rw [inv.alone running]
        exact inOrder
  | waiting => simp [LogThreads.stepFlusher, place] at taken
  | woken timedOut =>
      simp only [LogThreads.stepFlusher, place] at taken
      obtain ⟨free, rfl⟩ := of_guarded taken
      have isFree := Option.isNone_iff_eq_none.mp free
      rw [working, isFree, inv.alone running] at inOrder
      apply inv.moveFlusher running (.inr ⟨.inl isFree, .inr rfl⟩)
      · split <;> simp [FlushThread.locked]
      · change InOrder config day fits _
          (if timedOut then FlushThread.flushing .roll else .testing).working s.mem
        split
        · exact inOrder.beginFlush false
        · exact inOrder
  | flushing at_ =>
      simp only [LogThreads.stepFlusher, place] at taken
      obtain ⟨⟨mem, after⟩, stepped, rfl⟩ := Option.map_eq_some_iff.mp taken
      rw [place] at owner mine
      rw [mine rfl] at inOrder
      have behind := inOrder.flush stepped
      apply inv.moveLocked (owner.mpr rfl) running
      · cases after <;> rfl
      · cases after <;> exact behind
  | leaving =>
      simp only [LogThreads.stepFlusher, place, Option.some.injEq] at taken
      subst taken
      rw [place] at owner mine
      rw [mine rfl] at inOrder
      apply inv.moveFlusher running (.inr ⟨.inr (owner.mpr rfl), .inl rfl⟩)
        (by simp [FlushThread.locked])
      change InOrder config day fits _ s.destroying.working s.mem
      rw [inv.alone running]
      exact inOrder
  | ended => exact absurd place running

/-! ### The destructor -/

theorem notified_locked (place : FlushThread) : place.notified.locked = place.locked := by
  cases place <;> rfl

theorem notified_working (place : FlushThread) : place.notified.working = place.working := by
  cases place <;> rfl

/-- With no thread in `append_log`, the mutex is free or the flush thread has it. -/
theorem Inv.mu_of_outside (inv : s.Inv config day fits)
    (outside : ∀ thread, s.appending thread = .outside) :
    s.mu = none ∨ s.mu = some .flusher := by
  cases owner : s.mu with
  | none => exact .inl rfl
  | some holder =>
      cases holder with
      | flusher => exact .inr rfl
      | appender thread =>
          have locked := (inv.appender thread).mp owner
          rw [outside thread] at locked
          cases locked

/-- A move of the destructor, which may notify the flush thread. -/
theorem Inv.moveDestructor (inv : s.Inv config day fits)
    (outside : ∀ thread, s.appending thread = .outside) {mem : LogMemory} {isRun : Bool}
    {flushThread : FlushThread} {place : Destroying}
    (stopped : isRun = false) (locked : flushThread.locked = s.flushThread.locked)
    (joined : place.joined = true → flushThread = .ended)
    (flushed : place.flushed = true → mem.bufList = [])
    (inOrder : InOrder config day fits (s.lines.map Prod.snd)
      ({ s with
        mem := mem
        isThreadRun := isRun
        flushThread := flushThread
        destroying := place } : LogThreads Thread).working mem) :
    ({ s with
      mem := mem
      isThreadRun := isRun
      flushThread := flushThread
      destroying := place } : LogThreads Thread).Inv config day fits where
  appender := inv.appender
  flusher := by
    rw [locked]
    exact inv.flusher
  quiet := fun _ => outside
  stopped := fun _ => stopped
  joined := joined
  flushed := flushed
  ordinary := inv.ordinary
  inOrder := inOrder

theorem Inv.stepDestructor (inv : s.Inv config day fits)
    (careful : s.destroying = .alive → ∀ thread, s.appending thread = .outside)
    (taken : s.stepDestructor ti = some next) : next.Inv config day fits := by
  have outside : ∀ thread, s.appending thread = .outside := by
    by_cases alive : s.destroying = .alive
    · exact careful alive
    · exact inv.quiet alive
  have inOrder := inv.inOrder
  have free := inv.mu_of_outside outside
  have stopped := inv.stopped
  cases place : s.destroying with
  | alive =>
      simp only [LogThreads.stepDestructor, place, Option.some.injEq] at taken
      subst taken
      refine inv.moveDestructor outside rfl rfl (fun isJoined => by cases isJoined)
        (fun isFlushed => by cases isFlushed) ?_
      rcases free with owner | owner
      · rw [working, owner, place] at inOrder
        rw [working, owner]
        exact inOrder
      · rw [working, owner] at inOrder
        rw [working, owner]
        exact inOrder
  | flagged =>
      have isStopped := stopped (by rw [place]; exact Destroying.noConfusion)
      simp only [LogThreads.stepDestructor, place, Option.some.injEq] at taken
      subst taken
      refine inv.moveDestructor outside isStopped (notified_locked _)
        (fun isJoined => by cases isJoined)
        (fun isFlushed => by cases isFlushed) ?_
      rcases free with owner | owner
      · rw [working, owner, place] at inOrder
        rw [working, owner]
        exact inOrder
      · rw [working, owner] at inOrder
        rw [working, owner]
        change InOrder config day fits _ s.flushThread.notified.working s.mem
        rw [notified_working]
        exact inOrder
  | joining =>
      have isStopped := stopped (by rw [place]; exact Destroying.noConfusion)
      simp only [LogThreads.stepDestructor, place] at taken
      obtain ⟨ended, rfl⟩ := of_guarded taken
      have owner : s.mu = none := by
        rcases free with none | some
        · exact none
        · have locked := inv.flusher.mp some
          rw [ended] at locked
          cases locked
      rw [working, owner, place] at inOrder
      refine inv.moveDestructor outside isStopped rfl (fun _ => ended)
        (fun isFlushed => by cases isFlushed) ?_
      rw [working, owner]
      exact inOrder.beginFlush true
  | flushing at_ =>
      have isStopped := stopped (by rw [place]; exact Destroying.noConfusion)
      simp only [LogThreads.stepDestructor, place] at taken
      obtain ⟨⟨mem, after⟩, stepped, rfl⟩ := Option.map_eq_some_iff.mp taken
      have ended := inv.joined (by rw [place]; rfl)
      have owner : s.mu = none := by
        rcases free with none | some
        · exact none
        · have locked := inv.flusher.mp some
          rw [ended] at locked
          cases locked
      rw [working, owner, place] at inOrder
      have behind := inOrder.flush stepped
      refine inv.moveDestructor outside isStopped rfl (fun _ => ended) ?_ ?_
      · intro isFlushed
        cases after with
        | some next => cases isFlushed
        | none => exact LogMemory.bufList_of_returns stepped
      · rw [working, owner]
        cases after <;> exact behind
  | closing =>
      have isStopped := stopped (by rw [place]; exact Destroying.noConfusion)
      simp only [LogThreads.stepDestructor, place, Option.some.injEq] at taken
      subst taken
      have ended := inv.joined (by rw [place]; rfl)
      refine inv.moveDestructor outside isStopped rfl (fun _ => ended)
        (fun _ => inv.flushed (by rw [place]; rfl)) ?_
      rcases free with owner | owner
      · rw [working, owner, place] at inOrder
        rw [working, owner]
        exact inOrder
      · rw [working, owner] at inOrder
        rw [working, owner]
        exact inOrder
  | gone => simp [LogThreads.stepDestructor, place] at taken

/-! ### The threads that append -/

section append

variable {thread : Thread}

/-- A thread that is in `append_log` knows the logger alive. -/
theorem Inv.alive (inv : s.Inv config day fits) (inside : s.appending thread ≠ .outside) :
    s.destroying = .alive := by
  by_contra notAlive
  exact inside (inv.quiet notAlive thread)

variable [DecidableEq Thread]

/-- A move of a thread in `append_log`, which may take the free mutex or give it back. -/
theorem Inv.moveAppender (inv : s.Inv config day fits) (alive : s.destroying = .alive)
    {mem : LogMemory} {mu : Option (Owner Thread)} {flushThread : FlushThread}
    {lines : List (Thread × Bytes)} {place : Appending}
    (owner : mu = s.mu ∧ place.locked = (s.appending thread).locked ∨
      s.mu = none ∧ mu = some (.appender thread) ∧ place.locked = true ∨
      s.mu = some (.appender thread) ∧ mu = none ∧ place.locked = false)
    (locked : flushThread.locked = s.flushThread.locked) (ordinary : place.Ordinary)
    (inOrder : InOrder config day fits (lines.map Prod.snd)
      ({ s.move thread place with
        mem := mem
        mu := mu
        flushThread := flushThread
        lines := lines } : LogThreads Thread).working mem) :
    ({ s.move thread place with
      mem := mem
      mu := mu
      flushThread := flushThread
      lines := lines } : LogThreads Thread).Inv config day fits where
  appender := by
    intro other
    change mu = some (.appender other) ↔
      (Function.update s.appending thread place other).locked = true
    by_cases same : other = thread
    · subst same
      have mine := inv.appender other
      rw [Function.update_self]
      rcases owner with ⟨rfl, kept⟩ | ⟨-, rfl, kept⟩ | ⟨-, rfl, kept⟩
      · rw [kept, mine]
      · simp [kept]
      · simp [kept]
    · rw [Function.update_of_ne same, ← inv.appender other]
      have differs : thread ≠ other := fun equal => same equal.symm
      rcases owner with ⟨rfl, -⟩ | ⟨free, rfl, -⟩ | ⟨mine, rfl, -⟩
      · exact Iff.rfl
      · simp [free, differs]
      · simp [mine, differs]
  flusher := by
    rw [locked, ← inv.flusher]
    change mu = some .flusher ↔ s.mu = some .flusher
    rcases owner with ⟨rfl, -⟩ | ⟨free, rfl, -⟩ | ⟨mine, rfl, -⟩
    · exact Iff.rfl
    · simp [free]
    · simp [mine]
  quiet := fun notAlive => absurd alive notAlive
  stopped := fun notAlive => absurd alive notAlive
  joined := by
    intro isJoined
    change s.destroying.joined = true at isJoined
    rw [alive] at isJoined
    cases isJoined
  flushed := by
    intro isFlushed
    change s.destroying.flushed = true at isFlushed
    rw [alive] at isFlushed
    cases isFlushed
  ordinary := by
    intro other
    change (Function.update s.appending thread place other).Ordinary
    by_cases same : other = thread
    · rw [same, Function.update_self]
      exact ordinary
    · rw [Function.update_of_ne same]
      exact inv.ordinary other
  inOrder := inOrder

theorem Inv.stepAppender (async : config.isAsync = true) (inv : s.Inv config day fits)
    (fit : fits → s.Fits (.advance thread ti))
    (taken : s.stepAppender thread ti = some next) : next.Inv config day fits := by
  have inOrder := inv.inOrder
  have ordinary := inv.ordinary thread
  have mine := inv.appender thread
  cases place : s.appending thread with
  | outside => simp [LogThreads.stepAppender, place] at taken
  | locking level log =>
      simp only [LogThreads.stepAppender, place] at taken
      obtain ⟨free, rfl⟩ := of_guarded taken
      have isFree := Option.isNone_iff_eq_none.mp free
      have alive := inv.alive (by rw [place]; exact Appending.noConfusion)
      rw [place] at ordinary
      simp only [Fits, place] at fit
      rw [working, isFree, alive] at inOrder
      refine inv.moveAppender alive (.inr (.inl ⟨isFree, rfl, rfl⟩)) rfl ordinary.1 ?_
      rw [working]
      simp only [move, Function.update_self]
      exact inOrder.beginWrite ordinary.2 fit
  | writing level log at_ =>
      simp only [LogThreads.stepAppender, place, Option.some.injEq] at taken
      subst taken
      have alive := inv.alive (by rw [place]; exact Appending.noConfusion)
      rw [place] at ordinary mine
      have owner := mine.mpr rfl
      rw [working, owner] at inOrder
      simp only [place] at inOrder
      have behind := inOrder.write
      refine inv.moveAppender alive (.inl ⟨rfl, ?_⟩) rfl ?_ ?_
      · rw [place]
        split <;> rfl
      · split <;> exact ordinary
      · rw [working]
        simp only [owner, move, Function.update_self]
        split at behind <;> exact behind
  | notifying level log =>
      simp only [LogThreads.stepAppender, place, Option.some.injEq] at taken
      subst taken
      have alive := inv.alive (by rw [place]; exact Appending.noConfusion)
      rw [place] at ordinary mine
      have notFatal : level ≠ .fatal := ordinary
      have owner := mine.mpr rfl
      simp only [Fits, place] at fit
      rw [working, owner] at inOrder
      simp only [place] at inOrder
      refine inv.moveAppender alive (.inr (.inr ⟨owner, rfl, ?_⟩)) ?_ ?_ ?_
      · rw [if_neg notFatal]
        rfl
      · split
        · exact notified_locked _
        · rfl
      · rw [if_neg notFatal]
        trivial
      · change InOrder config day fits ((s.lines ++ [(thread, log)]).map Prod.snd)
          s.destroying.working s.mem
        rw [alive, List.map_append]
        exact inOrder.commitWrite async fit
  | flushing at_ =>
      rw [place] at ordinary
      cases ordinary

theorem Inv.step (async : config.isAsync = true) {event : Event Thread}
    (inv : s.Inv config day fits) (careful : s.Careful event) (fit : fits → s.Fits event)
    (taken : s.step event = some next) : next.Inv config day fits := by
  cases event with
  | append thread level log =>
      obtain ⟨⟨outside, nonempty⟩, rfl⟩ := of_guarded taken
      refine inv.moveAppender careful.2 (.inl ⟨rfl, ?_⟩) rfl ⟨careful.1, nonempty⟩ ?_
      · rw [outside]
        rfl
      · -- whoever has the mutex, it is not this thread
        have inOrder := inv.inOrder
        cases owner : s.mu with
        | none =>
            rw [working, owner] at inOrder
            rw [working]
            simp only [move, owner]
            exact inOrder
        | some holder =>
            rw [working, owner] at inOrder
            rw [working]
            cases holder with
            | flusher => exact inOrder
            | appender other =>
                have differs : other ≠ thread := by
                  rintro rfl
                  have locked := (inv.appender other).mp owner
                  rw [outside] at locked
                  cases locked
                simp only [move, owner, Function.update_of_ne differs]
                exact inOrder
  | advance thread ti => exact inv.stepAppender async fit taken
  | flush ti => exact inv.stepFlusher taken
  | wake timedOut =>
      obtain ⟨waiting, rfl⟩ := of_guarded taken
      have running : s.flushThread ≠ .ended := by
        rw [waiting]
        exact FlushThread.noConfusion
      have owner := inv.flusher
      rw [waiting] at owner
      refine inv.moveFlusher running (.inl rfl) (owner.trans (by simp [FlushThread.locked])) ?_
      have inOrder := inv.inOrder
      cases mutex : s.mu with
      | none =>
          rw [working, mutex] at inOrder
          rw [working]
          exact inOrder
      | some holder =>
          cases holder with
          | flusher => cases owner.mp mutex
          | appender thread =>
              rw [working, mutex] at inOrder
              rw [working]
              exact inOrder
  | destroy ti => exact inv.stepDestructor careful taken

variable {events : List (Event Thread)}

theorem inv_of_run (async : config.isAsync = true) {last : LogThreads Thread}
    (careful : StepsMeet step (fun s event => s.Careful event ∧ (fits → s.Fits event))
      (start config day) events)
    (run : runFrom step (start config day) events = some last) : last.Inv config day fits :=
  runFrom_guarded_invariant (Inv config day fits)
    (fun _ _ _ inv met taken => inv.step async met.1 met.2 taken)
    (start_inv config day fits) careful run

end append

end LogThreads

end SimpleWebServer.Logging
