import SimpleWebServer.Logging.Logger

/-!
# The log as a byte stream

Everything a logger was given is in its files or waits in `buf_list`.  `write_buf` copies
the head of its string in every iteration of the loop: what it adds is a first piece that
fills the last block and then copies of one further piece.  This is the string itself for
strings that fit, and for the few longer ones that are built that way.
-/

namespace SimpleWebServer.Logging

open SimpleWebServer.Base SimpleWebServer.Lib.Runs

namespace Logger

/-- The bytes written to the log files and then the bytes that wait. -/
def stream (logger : Logger) : Bytes :=
  logger.closed.flatten ++ logger.file ++ logger.bufList.flatMap BufBlock.buf

/-- The room that the first iteration of `write_buf` finds. -/
def room (logger : Logger) : Nat :=
  match logger.bufList.getLast? with
  | none => logger.config.bufBlockSize
  | some block =>
      if block.isFull then logger.config.bufBlockSize else block.capacity - block.writen

/-- All blocks have the configured capacity, and the spare ones are empty. -/
structure Wf (logger : Logger) : Prop where
  listed : ∀ block ∈ logger.bufList, block.capacity = logger.config.bufBlockSize
  spare : ∀ block ∈ logger.emptyBufList,
    block.capacity = logger.config.bufBlockSize ∧ block.buf = []

theorem new_wf (config : Config) (day : Int) : (new config day).Wf := by
  constructor <;> intro block listed <;> simp [new] at listed

@[simp]
theorem new_stream (config : Config) (day : Int) : (new config day).stream = [] := rfl

/-! ## One iteration of `write_buf` -/

@[simp]
theorem takeBlock_config (logger : Logger) : logger.takeBlock.config = logger.config := by
  unfold takeBlock
  split
  · split <;> rfl
  · rfl

theorem takeBlock_eq_of_room {logger : Logger} {block : BufBlock}
    (last : logger.bufList.getLast? = some block) (free : block.isFull = false) :
    logger.takeBlock = logger := by
  simp [takeBlock, needsBlock, last, free]

theorem room_of_needsBlock {logger : Logger} (needs : logger.needsBlock = true) :
    logger.room = logger.config.bufBlockSize := by
  unfold needsBlock at needs
  unfold room
  split
  · rfl
  · next block last =>
      rw [last] at needs
      rw [if_pos needs]

/-- After the head of the loop the last block has `room` bytes of room. -/
theorem Wf.takeBlock_last {logger : Logger} (wf : logger.Wf) :
    ∃ front block, logger.takeBlock.bufList = front ++ [block] ∧
      block.capacity - block.writen = logger.room ∧ 0 < logger.room := by
  have positive := logger.config.bufBlockSize_pos
  cases needs : logger.needsBlock with
  | true =>
      rw [room_of_needsBlock needs]
      cases spare : logger.emptyBufList with
      | nil =>
          refine ⟨logger.bufList, _, by simp [takeBlock, needs, spare]; rfl, ?_, positive⟩
          simp [BufBlock.writen]
      | cons block rest =>
          have known := wf.spare block (by simp [spare])
          refine ⟨logger.bufList, block, by simp [takeBlock, needs, spare], ?_, positive⟩
          rw [known.1, BufBlock.writen, known.2]
          rfl
  | false =>
      cases last : logger.bufList.getLast? with
      | none => simp [needsBlock, last] at needs
      | some block =>
          have free : block.isFull = false := by simpa [needsBlock, last] using needs
          have fits := block.fits
          have notFull : block.writen ≠ block.capacity := by
            intro full
            rw [(block.isFull_iff).mpr full] at free
            cases free
          obtain ⟨front, shape⟩ := List.getLast?_eq_some_iff.mp last
          refine ⟨front, block, by rw [takeBlock_eq_of_room last free, shape], ?_, ?_⟩
          · simp [room, last, free]
          · simp only [room, last, free, Bool.false_eq_true, if_false]
            rw [BufBlock.writen] at notFull ⊢
            omega

theorem Wf.takeBlock {logger : Logger} (wf : logger.Wf) : logger.takeBlock.Wf := by
  unfold Logger.takeBlock
  split
  · split
    · constructor
      · intro block listed
        rcases List.mem_append.mp listed with old | new
        · exact wf.listed block old
        · rw [List.mem_singleton.mp new]
          rfl
      · exact wf.spare
    · next block rest spare =>
        constructor
        · intro other listed
          rcases List.mem_append.mp listed with old | new
          · exact wf.listed other old
          · rw [List.mem_singleton.mp new]
            exact (wf.spare block (by simp [spare])).1
        · intro other listed
          exact wf.spare other (by simp [spare, listed])
  · exact wf

theorem Wf.takeBlock_stream {logger : Logger} (wf : logger.Wf) :
    logger.takeBlock.stream = logger.stream := by
  unfold Logger.takeBlock
  split
  · split
    · simp [stream]
    · next block rest spare =>
        have known := wf.spare block (by simp [spare])
        simp [stream, known.2]
  · rfl

/-- What one iteration does: the head of the string is added, as far as there is room. -/
structure Iterated (logger next : Logger) (log : Bytes) : Prop where
  wf : next.Wf
  config : next.config = logger.config
  stream : next.stream = logger.stream ++ log.take (min logger.room log.length)
  filled : logger.room ≤ log.length → next.needsBlock = true

theorem Wf.iterated {logger : Logger} (wf : logger.Wf) (log : Bytes) :
    (logger.takeBlock.writeBack log).1 = min logger.room log.length ∧
      Iterated logger (logger.takeBlock.writeBack log).2 log := by
  obtain ⟨front, block, shape, free, -⟩ := wf.takeBlock_last
  have taken := wf.takeBlock
  have sameStream := wf.takeBlock_stream
  have last : logger.takeBlock.bufList.getLast? = some block := by simp [shape]
  have drop : logger.takeBlock.bufList.dropLast = front := by simp [shape]
  have count : block.room log.length = min logger.room log.length := by
    rw [BufBlock.room, free]
  simp only [writeBack, last, drop]
  refine ⟨count, ?_, takeBlock_config logger, ?_, ?_⟩
  · constructor
    · intro other listed
      rcases List.mem_append.mp listed with old | new
      · exact taken.listed other (by simp [shape, old])
      · rw [List.mem_singleton.mp new]
        exact taken.listed block (by simp [shape])
    · exact taken.spare
  · rw [← sameStream]
    simp [stream, shape, count]
  · intro enough
    have fits := block.fits
    simp only [needsBlock, List.getLast?_append, List.getLast?_singleton]
    change (block.writeBuf log).isFull = true
    rw [BufBlock.isFull_iff, BufBlock.writen, BufBlock.writeBuf_buf, List.length_append,
      List.length_take, count, BufBlock.writeBuf_capacity]
    rw [BufBlock.writen] at free
    omega

/-! ## The loop -/

/-- A piece, repeated. -/
def copies (piece : Bytes) (count : Nat) : Bytes := (List.replicate count piece).flatten

@[simp]
theorem copies_zero (piece : Bytes) : copies piece 0 = [] := rfl

theorem copies_succ (piece : Bytes) (count : Nat) :
    copies piece (count + 1) = piece ++ copies piece count := by
  simp [copies, List.replicate_succ]

@[simp]
theorem copies_length (piece : Bytes) (count : Nat) :
    (copies piece count).length = count * piece.length := by
  simp [copies]

theorem writeLoop_done (log : Bytes) (fuel : Nat) {remain : Int} (done : remain ≤ 0)
    (logger : Logger) : logger.writeLoop log fuel remain = logger := by
  cases fuel with
  | zero => rfl
  | succ fuel => rw [writeLoop, if_neg (by omega)]

/-- The result of the loop: `count` further copies of the head of the string. -/
structure Looped (logger last : Logger) (log : Bytes) (remain : Int) (count : Nat) : Prop where
  wf : last.Wf
  config : last.config = logger.config
  stream : last.stream = logger.stream ++ copies (log.take logger.config.bufBlockSize) count
  enough : remain ≤ count * (min logger.config.bufBlockSize log.length : Nat)
  exact : (count : Int) * (min logger.config.bufBlockSize log.length : Nat) <
    remain + (min logger.config.bufBlockSize log.length : Nat)

/-- The loop from a state in which the next iteration takes a block. -/
theorem Wf.writeLoop_looped {log : Bytes} (nonempty : log ≠ []) :
    ∀ (fuel : Nat) (remain : Int) {logger : Logger}, logger.Wf → logger.needsBlock = true →
      remain ≤ fuel → -(min logger.config.bufBlockSize log.length : Nat) < remain →
      remain ≤ log.length →
      ∃ count, Looped logger (logger.writeLoop log fuel remain) log remain count := by
  have size : 0 < log.length := List.length_pos_iff.mpr nonempty
  intro fuel
  induction fuel with
  | zero =>
      intro remain logger wf needs fueled above within
      refine ⟨0, wf, rfl, by simp [writeLoop], by simpa using fueled, ?_⟩
      simpa using by omega
  | succ fuel ih =>
      intro remain logger wf needs fueled above within
      have positive := logger.config.bufBlockSize_pos
      by_cases more : 0 < remain
      · obtain ⟨count, step⟩ := wf.iterated log
        have roomIs := room_of_needsBlock needs
        rw [writeLoop, if_pos more]
        simp only
        rw [count, roomIs]
        have pieceIs : log.take (min logger.room log.length) =
            log.take logger.config.bufBlockSize := by
          rw [roomIs, List.take_eq_take_min]
          simp
        by_cases last : log.length < logger.config.bufBlockSize
        · rw [writeLoop_done log fuel (by omega)]
          refine ⟨1, step.wf, step.config, ?_, by omega, by omega⟩
          rw [step.stream, pieceIs, copies_succ, copies_zero, List.append_nil]
        · have filled := step.filled (by rw [roomIs]; omega)
          obtain ⟨rest, looped⟩ := ih
            (remain - (min logger.config.bufBlockSize log.length : Nat)) step.wf filled
            (by omega) (by rw [step.config]; omega) (by omega)
          have enough := looped.enough
          have exact := looped.exact
          rw [step.config] at enough exact
          refine ⟨rest + 1, looped.wf, looped.config.trans step.config, ?_, ?_, ?_⟩
          · rw [looped.stream, step.stream, step.config, pieceIs, copies_succ, List.append_assoc]
          · rw [Int.natCast_succ, Int.add_mul]
            omega
          · rw [Int.natCast_succ, Int.add_mul]
            omega
      · rw [writeLoop_done log _ (by omega)]
        refine ⟨0, wf, rfl, by simp, by simpa using by omega, ?_⟩
        simpa using by omega

/-- The string fits into the room, or it is its own head repeated the way the loop writes it. -/
def FitsOrRepeats (logger : Logger) (log : Bytes) : Prop :=
  log.length ≤ logger.room ∨
    ∃ count, log = log.take logger.room ++ copies (log.take logger.config.bufBlockSize) count

/-- What `write_buf` adds to the stream before it flushes. -/
theorem Wf.fill_stream {logger : Logger} (wf : logger.Wf) {log : Bytes} (nonempty : log ≠ []) :
    (logger.fill log).Wf ∧ (logger.fill log).config = logger.config ∧
      ∃ count, (logger.fill log).stream =
          logger.stream ++ log.take logger.room ++
            copies (log.take logger.config.bufBlockSize) count ∧
        log.length ≤ min logger.room log.length +
          count * min logger.config.bufBlockSize log.length ∧
        min logger.room log.length + count * min logger.config.bufBlockSize log.length <
          log.length + min logger.config.bufBlockSize log.length := by
  have size : 0 < log.length := List.length_pos_iff.mpr nonempty
  have positive := logger.config.bufBlockSize_pos
  obtain ⟨-, -, -, -, roomy⟩ := wf.takeBlock_last
  obtain ⟨count, step⟩ := wf.iterated log
  have head : log.take (min logger.room log.length) = log.take logger.room := by
    exact List.take_eq_take_min.symm
  have stepStream := step.stream
  rw [head] at stepStream
  obtain ⟨fuel, fuelIs⟩ : ∃ fuel, log.length = fuel + 1 := ⟨log.length - 1, by omega⟩
  have unfolded : logger.fill log =
      (logger.takeBlock.writeBack log).2.writeLoop log fuel
        (log.length - (min logger.room log.length : Nat)) := by
    rw [fill, ← count]
    nth_rewrite 1 [fuelIs]
    rw [writeLoop, if_pos (by omega)]
  rw [unfolded]
  by_cases inside : log.length ≤ logger.room
  · rw [writeLoop_done log fuel (by omega)]
    refine ⟨step.wf, step.config, 0, ?_, by omega, by omega⟩
    rw [stepStream, copies_zero, List.append_nil]
  · obtain ⟨rest, looped⟩ := Wf.writeLoop_looped nonempty fuel
      (log.length - (min logger.room log.length : Nat)) step.wf (step.filled (by omega))
      (by omega) (by omega) (by omega)
    have enough := looped.enough
    have exact := looped.exact
    rw [step.config, ← Int.natCast_mul] at enough exact
    refine ⟨looped.wf, looped.config.trans step.config, rest, ?_, by omega, by omega⟩
    rw [looped.stream, stepStream, step.config]

/-- The string is added exactly when it fits or is its own head repeated. -/
theorem Wf.fill_exact_iff {logger : Logger} (wf : logger.Wf) {log : Bytes} (nonempty : log ≠ []) :
    (logger.fill log).stream = logger.stream ++ log ↔ logger.FitsOrRepeats log := by
  obtain ⟨-, -, count, added, enough, exact⟩ := wf.fill_stream nonempty
  rw [added, List.append_assoc, List.append_cancel_left_eq]
  constructor
  · intro same
    exact Or.inr ⟨count, same.symm⟩
  · rintro (inside | ⟨other, same⟩)
    · have none : count = 0 := by
        rw [Nat.min_eq_right inside] at exact
        by_contra some
        have atLeast := Nat.le_mul_of_pos_left (min logger.config.bufBlockSize log.length)
          (Nat.pos_of_ne_zero some)
        omega
      rw [none, List.take_of_length_le inside, copies_zero, List.append_nil]
    · have positive := logger.config.bufBlockSize_pos
      have size : 0 < log.length := List.length_pos_iff.mpr nonempty
      have lengths := congrArg List.length same
      rw [List.length_append, copies_length, List.length_take, List.length_take] at lengths
      have counts : count = other := by
        have piece : 0 < min logger.config.bufBlockSize log.length := by omega
        have notFewer : other * min logger.config.bufBlockSize log.length <
            (count + 1) * min logger.config.bufBlockSize log.length := by
          rw [Nat.succ_mul]
          omega
        have notMore : count * min logger.config.bufBlockSize log.length <
            (other + 1) * min logger.config.bufBlockSize log.length := by
          rw [Nat.succ_mul]
          omega
        have fewer := Nat.lt_of_mul_lt_mul_right notFewer
        have more := Nat.lt_of_mul_lt_mul_right notMore
        omega
      rw [counts]
      exact same.symm

/-! ## `flush_buf` -/

theorem roll_stream (logger : Logger) (ti : DayTime) : (logger.roll ti).stream = logger.stream := by
  unfold roll
  split
  · simp [resetFileFd, stream]
  · rfl

theorem Wf.roll {logger : Logger} (wf : logger.Wf) (ti : DayTime) : (logger.roll ti).Wf := by
  unfold Logger.roll
  split
  · exact ⟨wf.listed, wf.spare⟩
  · exact wf

@[simp]
theorem roll_config (logger : Logger) (ti : DayTime) :
    (logger.roll ti).config = logger.config := by
  unfold roll
  split <;> rfl

@[simp]
theorem roll_blocks (logger : Logger) (ti : DayTime) :
    (logger.roll ti).blocks = logger.blocks := by
  unfold roll
  split <;> rfl

theorem trim_eq_of_within {logger : Logger} (within : logger.blocks ≤ logger.config.bufBlockNum) :
    logger.trim = logger := by
  rw [trim, if_neg (Nat.not_lt.mpr within)]

theorem flushFront_stream (logger : Logger) : logger.flushFront.stream = logger.stream := by
  unfold flushFront
  split
  · rfl
  · next block rest shape => simp [stream, shape]

theorem Wf.flushFront {logger : Logger} (wf : logger.Wf) : logger.flushFront.Wf := by
  unfold Logger.flushFront
  split
  · exact wf
  · next block rest shape =>
      constructor
      · intro other listed
        exact wf.listed other (by simp [shape, listed])
      · intro other listed
        rcases List.mem_append.mp listed with old | new
        · exact wf.spare other old
        · rw [List.mem_singleton.mp new]
          exact ⟨wf.listed block (by simp [shape]), rfl⟩

@[simp]
theorem flushFront_config (logger : Logger) : logger.flushFront.config = logger.config := by
  unfold flushFront
  split <;> rfl

theorem flushFront_blocks (logger : Logger) : logger.flushFront.blocks = logger.blocks := by
  unfold flushFront
  split
  · rfl
  · next block rest shape =>
      simp only [blocks, shape, List.length_append, List.length_cons, List.length_nil]
      omega

/-- A logger whose blocks are within the limit. -/
structure Sound (logger : Logger) : Prop where
  wf : logger.Wf
  within : logger.blocks ≤ logger.config.bufBlockNum

/-- Within the limit a flush moves the first block to the file, and nothing else changes. -/
theorem Sound.flushOne {logger : Logger} (sound : logger.Sound) (ti : DayTime) :
    (logger.flushOne ti).Sound ∧ (logger.flushOne ti).stream = logger.stream := by
  have noTrim : (logger.roll ti).trim = logger.roll ti :=
    trim_eq_of_within (by rw [roll_blocks, roll_config]; exact sound.within)
  rw [Logger.flushOne, noTrim]
  refine ⟨⟨(sound.wf.roll ti).flushFront, ?_⟩, ?_⟩
  · rw [flushFront_blocks, roll_blocks, flushFront_config, roll_config]
    exact sound.within
  · rw [flushFront_stream, roll_stream]

theorem Sound.flushLoop (isFull : Bool) :
    ∀ (fuel : Nat) (clock : Nat → DayTime) {logger : Logger}, logger.Sound →
      (logger.flushLoop isFull fuel clock).Sound ∧
        (logger.flushLoop isFull fuel clock).stream = logger.stream := by
  intro fuel
  induction fuel with
  | zero => exact fun clock logger sound => ⟨sound, rfl⟩
  | succ fuel ih =>
      intro clock logger sound
      obtain ⟨flushed, same⟩ := sound.flushOne (clock 0)
      unfold Logger.flushLoop
      dsimp only
      split
      · have rest := ih (fun call => clock (call + 1)) flushed
        exact ⟨rest.1, rest.2.trans same⟩
      · exact ⟨flushed, same⟩

/-- `flush_buf` neither adds nor loses a byte. -/
theorem Sound.flushBuf {logger : Logger} (sound : logger.Sound) (isFull : Bool)
    (clock : Nat → DayTime) :
    (logger.flushBuf isFull clock).Sound ∧
      (logger.flushBuf isFull clock).stream = logger.stream :=
  Sound.flushLoop isFull _ clock sound

/-- `write_buf` with its flush, when the blocks stay within the limit. -/
theorem Wf.writeBuf {logger : Logger} (wf : logger.Wf) {log : Bytes} (nonempty : log ≠ [])
    (within : (logger.fill log).blocks ≤ logger.config.bufBlockNum) (ti : DayTime) :
    (logger.writeBuf log ti).Sound ∧
      (logger.writeBuf log ti).stream = (logger.fill log).stream := by
  obtain ⟨filled, config, -⟩ := wf.fill_stream nonempty
  have sound : (logger.fill log).Sound := ⟨filled, by rw [config]; exact within⟩
  unfold Logger.writeBuf
  split
  · exact ⟨sound, rfl⟩
  · exact sound.flushBuf false fun _ => ti

end Logger

/-! ## Runs -/

/-- A logger with all the strings it was given. -/
structure LogRun where
  logger : Logger
  logged : Bytes := []
  deriving DecidableEq, Repr

inductive Event where
  /-- `write_buf` of a string; a flush inside it happens at `ti` -/
  | write (log : Bytes) (ti : DayTime)
  /-- `flush_buf(is_full)` with what its calls read from the clock -/
  | flush (isFull : Bool) (clock : Nat → DayTime)

namespace LogRun

def start (config : Config) (day : Int) : LogRun where
  logger := .new config day

/-- Strings are not empty, and a write that exceeds the limit of blocks ends the run. -/
def step (run : LogRun) : Event → Option LogRun
  | .write log ti =>
      if log ≠ [] ∧ (run.logger.fill log).blocks ≤ run.logger.config.bufBlockNum then
        some { logger := run.logger.writeBuf log ti, logged := run.logged ++ log }
      else none
  | .flush isFull clock => some { run with logger := run.logger.flushBuf isFull clock }

/-- Files and waiting blocks hold exactly what was logged. -/
def Exact (run : LogRun) : Prop := run.logger.stream = run.logged

instance : DecidablePred Exact := fun run =>
  inferInstanceAs (Decidable (run.logger.stream = run.logged))

/-- The condition on a step: a string that is written fits or repeats its head. -/
def WritesWhole (run : LogRun) : Event → Prop
  | .write log _ => run.logger.FitsOrRepeats log
  | .flush _ _ => True

theorem step_sound {run next : LogRun} {event : Event} (sound : run.logger.Sound)
    (taken : run.step event = some next) : next.logger.Sound := by
  cases event with
  | write log ti =>
      simp only [step] at taken
      split at taken
      · next enabled =>
          cases taken
          exact (sound.wf.writeBuf enabled.1 enabled.2 ti).1
      · cases taken
  | flush isFull clock =>
      cases taken
      exact (sound.flushBuf isFull clock).1

theorem step_exact_iff {run next : LogRun} {event : Event} (sound : run.logger.Sound)
    (exact : run.Exact) (taken : run.step event = some next) :
    next.Exact ↔ run.WritesWhole event := by
  cases event with
  | write log ti =>
      simp only [step] at taken
      split at taken
      · next enabled =>
          cases taken
          rw [Exact, (sound.wf.writeBuf enabled.1 enabled.2 ti).2, ← exact,
            sound.wf.fill_exact_iff enabled.1]
          rfl
      · cases taken
  | flush isFull clock =>
      cases taken
      simp only [Exact, WritesWhole, iff_true]
      rw [(sound.flushBuf isFull clock).2]
      exact exact

/-- The log is the byte stream it was given exactly in the runs that write no string in parts. -/
theorem exact_iff_writesWhole (config : Config) (day : Int) (events : List Event) :
    AllStates step Exact (start config day) events ↔
      StepsMeet step WritesWhole (start config day) events := by
  refine allStates_iff_stepsMeet (fun run => run.logger.Sound)
    (fun _ _ _ => step_sound) (fun _ _ _ => step_exact_iff) events ⟨?_, Nat.zero_le _⟩ rfl
  exact Logger.new_wf config day

/-- Blocks of four bytes. -/
def fourBytes : Config where
  isAsync := true
  bufBlockNum := 256
  bufBlockSize := 4
  bufBlockSize_pos := by decide

/-- `"abcdef"` over a boundary between two blocks: the log begins `"abcdabcd"`. -/
theorem crossing_repeats :
    ¬ ∀ (config : Config) (day : Int) (events : List Event),
      AllStates step Exact (start config day) events := by
  intro all
  exact absurd (all fourBytes 1 [.write (ascii "abcdef") ⟨1, 0, 0, 0⟩]) (by decide +kernel)

end LogRun

end SimpleWebServer.Logging
