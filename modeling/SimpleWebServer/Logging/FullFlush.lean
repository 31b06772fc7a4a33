import SimpleWebServer.Logging.BlockLists

/-!
# The full flush

`flush_buf(true)` calls itself until `buf_list` is empty, and every call looks at the clock
and counts the blocks again.  Within `buf_block_num` no block is dropped on the way: the
contents go to the files in order and the blocks behind the spare ones.
-/

namespace SimpleWebServer.Logging

open SimpleWebServer.Base SimpleWebServer.Lib.Runs

/-- `flush_buf(is_full)` returns, after as many calls as it takes. -/
inductive FlushBuf (isFull : Bool) : (Nat → DayTime) → Logger → Logger → Prop where
  | last {clock : Nat → DayTime} {logger : Logger}
      (done : (logger.flushOne (clock 0)).bufList = [] ∨ isFull = false) :
      FlushBuf isFull clock logger (logger.flushOne (clock 0))
  | again {clock : Nat → DayTime} {logger result : Logger}
      (more : (logger.flushOne (clock 0)).bufList ≠ []) (full : isFull = true)
      (rest : FlushBuf isFull (fun call => clock (call + 1)) (logger.flushOne (clock 0)) result) :
      FlushBuf isFull clock logger result

namespace Logger

/-- What was written to the log files, one after the other. -/
def output (logger : Logger) : Bytes := logger.closed.flatten ++ logger.file

/-- The log waits no longer. -/
structure Drained (logger result : Logger) : Prop where
  written : result.output = logger.output ++ logger.bufList.flatMap BufBlock.buf
  emptied : result.bufList = []
  moved : result.emptyBufList = logger.emptyBufList ++ logger.bufList.map BufBlock.flushBuf
  unfilled : ∀ block ∈ result.emptyBufList, block.writen = 0
  total : result.blocks = logger.blocks

/-- Within the limit the full flush returns, at whatever times its calls read. -/
def Drains (logger : Logger) : Prop :=
  logger.blocks ≤ logger.config.bufBlockNum → ∀ clock : Nat → DayTime,
    (∃ result, FlushBuf true clock logger result) ∧
      ∀ result, FlushBuf true clock logger result → Drained logger result

/-! ## The recursion ends -/

theorem flushFront_bufList (logger : Logger) :
    logger.flushFront.bufList = logger.bufList.drop 1 := by
  unfold flushFront
  split
  · next none => rw [none, List.drop_nil]
  · next block rest shape => rw [shape, List.drop_one, List.tail_cons]

/-- Every call takes a block out of a list that has one, also where it drops others. -/
theorem flushOne_length (logger : Logger) (ti : DayTime) :
    (logger.flushOne ti).bufList.length ≤ logger.bufList.length - 1 := by
  have shorter := (logger.roll ti).trim_isPrefix.1.length_le
  rw [roll_bufList] at shorter
  rw [flushOne, flushFront_bufList, List.length_drop]
  exact Nat.sub_le_sub_right shorter 1

/-- The number of calls that the model allows is enough. -/
theorem flushLoop_returns (isFull : Bool) (fuel : Nat) (clock : Nat → DayTime) (logger : Logger)
    (enough : logger.bufList.length < fuel) :
    FlushBuf isFull clock logger (logger.flushLoop isFull fuel clock) := by
  induction fuel generalizing clock logger with
  | zero => exact absurd enough (Nat.not_lt_zero _)
  | succ fuel ih =>
      unfold flushLoop
      dsimp only
      split
      · next more =>
          have shorter := logger.flushOne_length (clock 0)
          have some := List.length_pos_of_ne_nil more.1
          exact .again more.1 more.2 (ih _ _ (by omega))
      · next done =>
          refine .last ?_
          by_cases none : (logger.flushOne (clock 0)).bufList = []
          · exact Or.inl none
          · exact Or.inr (Bool.eq_false_iff.mpr fun full => done ⟨none, full⟩)

theorem flushBuf_returns (logger : Logger) (isFull : Bool) (clock : Nat → DayTime) :
    FlushBuf isFull clock logger (logger.flushBuf isFull clock) :=
  flushLoop_returns isFull _ clock logger (Nat.lt_succ_self _)

/-! ## What it does -/

@[simp]
theorem roll_emptyBufList (logger : Logger) (ti : DayTime) :
    (logger.roll ti).emptyBufList = logger.emptyBufList := by
  unfold roll
  split <;> rfl

theorem flushFront_emptyBufList (logger : Logger) : logger.flushFront.emptyBufList =
    logger.emptyBufList ++ (logger.bufList.take 1).map BufBlock.flushBuf := by
  unfold flushFront
  split
  · next none => rw [none, List.take_nil, List.map_nil, List.append_nil]
  · next block rest shape => rw [shape]; rfl

/-- One call within the limit. -/
structure FlushedFront (logger next : Logger) : Prop where
  stream : next.stream = logger.stream
  bufList : next.bufList = logger.bufList.drop 1
  emptyBufList : next.emptyBufList =
    logger.emptyBufList ++ (logger.bufList.take 1).map BufBlock.flushBuf
  total : next.blocks = logger.blocks
  config : next.config = logger.config

theorem flushOne_front {logger : Logger} (within : logger.blocks ≤ logger.config.bufBlockNum)
    (ti : DayTime) : FlushedFront logger (logger.flushOne ti) := by
  have noTrim : (logger.roll ti).trim = logger.roll ti :=
    trim_eq_of_within (by rw [roll_blocks, roll_config]; exact within)
  rw [flushOne, noTrim]
  constructor
  · rw [flushFront_stream, roll_stream]
  · rw [flushFront_bufList, roll_bufList]
  · rw [flushFront_emptyBufList, roll_emptyBufList, roll_bufList]
  · rw [flushFront_blocks, roll_blocks]
  · rw [flushFront_config, roll_config]

/-- The lists and the stream at the end, by induction over the calls. -/
theorem drained_lists {clock : Nat → DayTime} {logger result : Logger}
    (flushed : FlushBuf true clock logger result)
    (within : logger.blocks ≤ logger.config.bufBlockNum) :
    result.stream = logger.stream ∧ result.bufList = [] ∧
      result.emptyBufList = logger.emptyBufList ++ logger.bufList.map BufBlock.flushBuf ∧
      result.blocks = logger.blocks := by
  induction flushed with
  | @last clock logger done =>
      have one := flushOne_front within (clock 0)
      have none := done.resolve_right Bool.noConfusion
      have single : logger.bufList.take 1 = logger.bufList := by
        rw [one.bufList] at none
        rw [← List.append_nil (logger.bufList.take 1), ← none, List.take_append_drop]
      refine ⟨one.stream, none, ?_, one.total⟩
      rw [one.emptyBufList, single]
  | @again clock logger result more full rest ih =>
      have one := flushOne_front within (clock 0)
      obtain ⟨stream, emptied, moved, total⟩ := ih (by rw [one.total, one.config]; exact within)
      refine ⟨stream.trans one.stream, emptied, ?_, total.trans one.total⟩
      calc
        result.emptyBufList = logger.emptyBufList ++
            ((logger.bufList.take 1).map BufBlock.flushBuf ++
              (logger.bufList.drop 1).map BufBlock.flushBuf) := by
          rw [moved, one.emptyBufList, one.bufList, List.append_assoc]
        _ = logger.emptyBufList ++ logger.bufList.map BufBlock.flushBuf := by
          rw [← List.map_append, List.take_append_drop]

theorem Wf.drained {logger result : Logger} (wf : logger.Wf) {clock : Nat → DayTime}
    (flushed : FlushBuf true clock logger result)
    (within : logger.blocks ≤ logger.config.bufBlockNum) : Drained logger result := by
  obtain ⟨stream, emptied, moved, total⟩ := drained_lists flushed within
  refine ⟨?_, emptied, moved, ?_, total⟩
  · rw [Logger.stream, emptied, List.flatMap_nil, List.append_nil] at stream
    exact stream
  · intro block member
    rw [moved] at member
    rcases List.mem_append.mp member with spare | written
    · rw [BufBlock.writen, (wf.spare block spare).2, List.length_nil]
    · obtain ⟨other, -, rfl⟩ := List.mem_map.mp written
      rfl

/-- The full flush drains the log in every state of every run. -/
theorem allDrain (config : Config) (day : Int) (events : List Event) :
    AllStates stepBlocks Drains (new config day) events := by
  refine allStates_of_invariant Kept (fun _ _ _ kept => kept.step) ?_ events (new_kept config day)
  intro logger kept within clock
  exact ⟨⟨_, logger.flushBuf_returns true clock⟩,
    fun result flushed => kept.wf.drained flushed within⟩

end Logger

end SimpleWebServer.Logging
