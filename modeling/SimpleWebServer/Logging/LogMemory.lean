import SimpleWebServer.Lib.CriticalSection
import SimpleWebServer.Logging.FullFlush

/-!
# The logger in memory

The two lists of the logger hold pointers to blocks, and `write_buf` and `flush_buf` work on
the blocks behind them.  Here every access to the lists is a step of its own.  Where nobody
else has access, the steps of a call together do what the call does in the model with values.
-/

namespace SimpleWebServer.Logging

open SimpleWebServer.Base SimpleWebServer.Lib

/-- `Logger` with its blocks behind pointers; the null pointer is `0`. -/
structure LogMemory where
  config : Config
  rollTime : DayTime
  block : Nat → BufBlock
  bufList : List Nat := []
  emptyBufList : List Nat := []
  /-- the address of the next new block -/
  nextAddress : Nat := 1
  closed : List Bytes := []
  file : Bytes := []

namespace LogMemory

/-- The logger that the constructor leaves on the day `day`. -/
def new (config : Config) (day : Int) : LogMemory where
  config := config
  rollTime := ⟨day, 0, 0, 0⟩
  block := fun _ => .null

/-- `need_buf_flush()` -/
def needBufFlush (mem : LogMemory) : Bool := decide (1 < mem.bufList.length)

/-! ## `write_buf` -/

/-- `buf_list.empty() || buf_list.back()->is_full()` -/
def needsBlock (mem : LogMemory) : Bool :=
  match mem.bufList.getLast? with
  | none => true
  | some address => (mem.block address).isFull

/-- The head of the loop. -/
def takeBlock (mem : LogMemory) : LogMemory :=
  if mem.needsBlock then
    match mem.emptyBufList with
    | [] =>
        { mem with
          block := Function.update mem.block mem.nextAddress
            (.new mem.nextAddress mem.config.bufBlockSize)
          bufList := mem.bufList ++ [mem.nextAddress]
          nextAddress := mem.nextAddress + 1 }
    | address :: rest =>
        { mem with bufList := mem.bufList ++ [address], emptyBufList := rest }
  else mem

/-- `buf_list.back()->write_buf(log, size)` and the number it returns -/
def writeBack (mem : LogMemory) (log : Bytes) : Nat × LogMemory :=
  match mem.bufList.getLast? with
  | none => (0, mem)
  | some address =>
      ((mem.block address).room log.length,
        { mem with
          block := Function.update mem.block address ((mem.block address).writeBuf log) })

/-- Where the loop of `write_buf` is. -/
inductive WriteAt where
  /-- before the test of `remain` -/
  | taking (remain : Int)
  /-- before `buf_list.back()->write_buf` -/
  | copying (remain : Int)
  deriving DecidableEq, Repr

/-- A step of the loop; there is none behind it. -/
def stepWrite (log : Bytes) (mem : LogMemory) : WriteAt → LogMemory × Option WriteAt
  | .taking remain =>
      if 0 < remain then (mem.takeBlock, some (.copying remain)) else (mem, none)
  | .copying remain =>
      let written := mem.writeBack log
      (written.2, some (.taking (remain - written.1)))

/-! ## `flush_buf` -/

/-- `reset_file_fd` -/
def resetFileFd (mem : LogMemory) : LogMemory :=
  { mem with closed := mem.closed ++ [mem.file], file := [] }

/-- The roll of the log file at time `ti`. -/
def roll (mem : LogMemory) (ti : DayTime) : LogMemory :=
  if ti.isAfter mem.rollTime then { mem with rollTime := ti }.resetFileFd else mem

/-- `list::resize` -/
def resize (addresses : List Nat) (count : Nat) : List Nat :=
  addresses.take count ++ List.replicate (count - addresses.length) 0

/-- The check of the number of blocks. -/
def trim (mem : LogMemory) : LogMemory :=
  let count := mem.bufList.length + mem.emptyBufList.length
  if mem.config.bufBlockNum < count then
    let excess := count - mem.config.bufBlockNum
    { mem with
      emptyBufList := resize mem.emptyBufList (min mem.emptyBufList.length excess)
      bufList :=
        if mem.config.bufBlockNum < mem.bufList.length then
          resize mem.bufList (mem.bufList.length - mem.config.bufBlockNum)
        else mem.bufList }
  else mem

/-- Where `flush_buf` is. -/
inductive FlushAt where
  | roll
  | trim
  /-- before the test of `buf_list`, and `buf_list.front()->flush_buf(fd)` behind it -/
  | front
  /-- before `empty_buf_list.push_back(buf_list.front())` -/
  | spare
  /-- before `buf_list.pop_front()` -/
  | pop
  /-- before the test in front of the recursive call -/
  | again
  deriving DecidableEq, Repr

/-- `buf_list.front()` or `buf_list.pop_front()` is next. -/
def FlushAt.takesFront : FlushAt → Bool
  | .spare => true
  | .pop => true
  | _ => false

/-- `buf_list.front()->flush_buf(fd)` -/
def writeFront (mem : LogMemory) (address : Nat) : LogMemory :=
  { mem with
    block := Function.update mem.block address (mem.block address).flushBuf
    file := mem.file ++ (mem.block address).buf }

/--
A step of `flush_buf(is_full)` at time `ti`, with where it is next; nowhere when it has
returned.  The first element of an empty list is undefined.
-/
def stepFlush (isFull : Bool) (ti : DayTime) (mem : LogMemory) :
    FlushAt → Option (LogMemory × Option FlushAt)
  | .roll => some (mem.roll ti, some .trim)
  | .trim => some (mem.trim, some .front)
  | .front =>
      match mem.bufList with
      | [] => some (mem, some .again)
      | address :: _ => some (mem.writeFront address, some .spare)
  | .spare =>
      match mem.bufList with
      | [] => none
      | address :: _ =>
          some ({ mem with emptyBufList := mem.emptyBufList ++ [address] }, some .pop)
  | .pop =>
      match mem.bufList with
      | [] => none
      | _ :: rest => some ({ mem with bufList := rest }, some .again)
  | .again =>
      if mem.bufList ≠ [] ∧ isFull = true then some (mem, some .roll) else some (mem, none)

section stepFlush

variable {isFull : Bool} {ti : DayTime} {mem next : LogMemory} {place after : FlushAt}

/-- The list has a front where it is taken. -/
theorem bufList_of_takesFront (taken : mem.stepFlush isFull ti place = some (next, some after))
    (takesFront : after.takesFront = true) : next.bufList ≠ [] := by
  cases place <;> simp only [stepFlush] at taken
  case roll =>
    cases taken
    cases takesFront
  case trim =>
    cases taken
    cases takesFront
  case front =>
    split at taken
    · cases taken
      cases takesFront
    · next address rest shape =>
        cases taken
        change mem.bufList ≠ []
        rw [shape]
        exact List.cons_ne_nil address rest
  case spare =>
    split at taken
    · cases taken
    · next address rest shape =>
        cases taken
        change mem.bufList ≠ []
        rw [shape]
        exact List.cons_ne_nil address rest
  case pop =>
    split at taken
    · cases taken
    · cases taken
      cases takesFront
  case again =>
    split at taken
    · cases taken
      cases takesFront
    · cases taken

/-- A full flush returns when the list is empty. -/
theorem bufList_of_returns (taken : mem.stepFlush true ti place = some (next, none)) :
    next.bufList = [] := by
  cases place <;> simp only [stepFlush] at taken
  case roll => cases taken
  case trim => cases taken
  case front => split at taken <;> cases taken
  case spare => split at taken <;> cases taken
  case pop => split at taken <;> cases taken
  case again =>
    split at taken
    · cases taken
    · next done =>
        cases taken
        by_contra some
        exact done ⟨some, trivial⟩

end stepFlush

/-! ## The values behind the pointers -/

/-- The logger with the blocks in place of their addresses. -/
def view (mem : LogMemory) : Logger where
  config := mem.config
  rollTime := mem.rollTime
  bufList := mem.bufList.map mem.block
  emptyBufList := mem.emptyBufList.map mem.block
  nextAddress := mem.nextAddress
  closed := mem.closed
  file := mem.file

/-- No block is in the lists twice, and new addresses are new. -/
structure Separate (mem : LogMemory) : Prop where
  distinct : (mem.bufList ++ mem.emptyBufList).Nodup
  known : ∀ address ∈ mem.bufList ++ mem.emptyBufList, address < mem.nextAddress

theorem new_separate (config : Config) (day : Int) : (new config day).Separate where
  distinct := List.nodup_nil
  known := by
    intro address member
    cases member

/-- A block that is not in a list does not matter for it. -/
theorem map_update {addresses : List Nat} {address : Nat} (block : Nat → BufBlock)
    (value : BufBlock) (apart : address ∉ addresses) :
    addresses.map (Function.update block address value) = addresses.map block := by
  apply List.map_congr_left
  intro other member
  have differs : other ≠ address := fun same => apart (by rwa [same] at member)
  exact Function.update_of_ne differs value block

/-! ### `write_buf` -/

theorem needsBlock_view (mem : LogMemory) : mem.view.needsBlock = mem.needsBlock := by
  have last : mem.view.bufList.getLast? = mem.bufList.getLast?.map mem.block :=
    List.getLast?_map
  rw [Logger.needsBlock, last, needsBlock]
  cases mem.bufList.getLast? <;> rfl

theorem Separate.fresh {mem : LogMemory} (separate : mem.Separate) :
    mem.nextAddress ∉ mem.bufList ++ mem.emptyBufList :=
  fun member => Nat.lt_irrefl _ (separate.known _ member)

theorem Separate.takeBlock {mem : LogMemory} (separate : mem.Separate) :
    mem.takeBlock.Separate ∧ mem.takeBlock.view = mem.view.takeBlock := by
  rw [LogMemory.takeBlock, Logger.takeBlock, needsBlock_view]
  split
  · cases spare : mem.emptyBufList with
    | nil =>
        have fresh := separate.fresh
        have distinct := separate.distinct
        have known := separate.known
        rw [spare, List.append_nil] at fresh distinct known
        refine ⟨⟨?_, ?_⟩, ?_⟩
        · change ((mem.bufList ++ [mem.nextAddress]) ++ []).Nodup
          rw [List.append_nil, ← List.concat_eq_append]
          exact distinct.concat fresh
        · intro address member
          simp only [List.append_nil, List.mem_append, List.mem_singleton] at member
          rcases member with old | rfl
          · exact Nat.lt_succ_of_lt (known address old)
          · exact Nat.lt_succ_self _
        · simp [view, spare, map_update _ _ fresh]
    | cons address rest =>
        have distinct := separate.distinct
        have known := separate.known
        rw [spare] at distinct known
        refine ⟨⟨?_, ?_⟩, ?_⟩
        · simpa using distinct
        · simpa using known
        · simp [view, spare]
  · exact ⟨separate, rfl⟩

theorem Separate.writeBack {mem : LogMemory} (separate : mem.Separate) (log : Bytes) :
    (mem.writeBack log).2.Separate ∧ (mem.writeBack log).1 = (mem.view.writeBack log).1 ∧
      (mem.writeBack log).2.view = (mem.view.writeBack log).2 := by
  have last : mem.view.bufList.getLast? = mem.bufList.getLast?.map mem.block :=
    List.getLast?_map
  rw [LogMemory.writeBack, Logger.writeBack, last]
  cases shape : mem.bufList.getLast? with
  | none => exact ⟨separate, rfl, rfl⟩
  | some address =>
      obtain ⟨front, list⟩ := List.getLast?_eq_some_iff.mp shape
      have distinct := separate.distinct
      rw [list] at distinct
      have apartFront : address ∉ front := by
        intro member
        have pair := (List.nodup_append.mp (List.nodup_append.mp distinct).1).2.2
        exact pair address member address (List.mem_singleton_self _) rfl
      have apartSpare : address ∉ mem.emptyBufList := by
        intro member
        have pair := (List.nodup_append.mp distinct).2.2
        exact pair address (by simp) address member rfl
      refine ⟨⟨separate.distinct, separate.known⟩, rfl, ?_⟩
      simp [view, list, map_update _ _ apartFront, map_update _ _ apartSpare]

/-! ### `flush_buf` -/

theorem map_resize (block : Nat → BufBlock) {addresses : List Nat} {count : Nat}
    (shorter : count ≤ addresses.length) :
    (resize addresses count).map block = Logger.resize (addresses.map block) count := by
  rw [resize, Logger.resize, List.length_map, Nat.sub_eq_zero_of_le shorter]
  simp

theorem resize_prefix {addresses : List Nat} {count : Nat} (shorter : count ≤ addresses.length) :
    resize addresses count <+: addresses := by
  rw [resize, Nat.sub_eq_zero_of_le shorter, List.replicate_zero, List.append_nil]
  exact List.take_prefix _ _

theorem Separate.roll {mem : LogMemory} (separate : mem.Separate) (ti : DayTime) :
    (mem.roll ti).Separate ∧ (mem.roll ti).view = mem.view.roll ti := by
  rw [LogMemory.roll, Logger.roll]
  change _ ∧ _ = if ti.isAfter mem.rollTime then _ else _
  split
  · exact ⟨⟨separate.distinct, separate.known⟩, rfl⟩
  · exact ⟨separate, rfl⟩

theorem Separate.of_prefix {mem next : LogMemory} (separate : mem.Separate)
    (buf : next.bufList <+: mem.bufList) (empty : next.emptyBufList <+: mem.emptyBufList)
    (same : next.nextAddress = mem.nextAddress) : next.Separate := by
  have sublist := buf.sublist.append empty.sublist
  constructor
  · exact separate.distinct.sublist sublist
  · intro address member
    rw [same]
    exact separate.known address (sublist.subset member)

theorem Separate.trim {mem : LogMemory} (separate : mem.Separate) :
    mem.trim.Separate ∧ mem.trim.view = mem.view.trim := by
  have count : mem.view.blocks = mem.bufList.length + mem.emptyBufList.length := by
    simp [Logger.blocks, view]
  have lengths : mem.view.bufList.length = mem.bufList.length := List.length_map _
  have spareLengths : mem.view.emptyBufList.length = mem.emptyBufList.length :=
    List.length_map _
  have spare := Nat.min_le_left mem.emptyBufList.length
    (mem.bufList.length + mem.emptyBufList.length - mem.config.bufBlockNum)
  have front := Nat.sub_le mem.bufList.length mem.config.bufBlockNum
  constructor
  · apply separate.of_prefix
    · rw [LogMemory.trim]
      split
      · dsimp only
        split
        · exact resize_prefix front
        · exact List.prefix_rfl
      · exact List.prefix_rfl
    · rw [LogMemory.trim]
      split
      · exact resize_prefix spare
      · exact List.prefix_rfl
    · rw [LogMemory.trim]
      split <;> rfl
  · have config : mem.view.config = mem.config := rfl
    rw [LogMemory.trim, Logger.trim, count, lengths, spareLengths, config]
    split
    · have spareMap := map_resize mem.block spare
      have frontMap := map_resize mem.block front
      by_cases above : mem.config.bufBlockNum < mem.bufList.length
      · simp only [if_pos above, view, spareMap, frontMap]
      · simp only [if_neg above, view, spareMap]
    · rfl

/-- `buf_list.front()` is written, moved to the spare blocks and taken off the list. -/
theorem Separate.flushFront {mem : LogMemory} (separate : mem.Separate) {address : Nat}
    {rest : List Nat} (shape : mem.bufList = address :: rest) :
    ({ mem.writeFront address with
        emptyBufList := mem.emptyBufList ++ [address]
        bufList := rest } : LogMemory).Separate ∧
      ({ mem.writeFront address with
        emptyBufList := mem.emptyBufList ++ [address]
        bufList := rest } : LogMemory).view = mem.view.flushFront := by
  have distinct := separate.distinct
  have known := separate.known
  rw [shape] at distinct known
  obtain ⟨fresh, others⟩ := List.nodup_cons.mp distinct
  have apartRest : address ∉ rest := fun member => fresh (List.mem_append_left _ member)
  have apartSpare : address ∉ mem.emptyBufList :=
    fun member => fresh (List.mem_append_right _ member)
  have moved : (rest ++ (mem.emptyBufList ++ [address])).Perm
      (address :: (rest ++ mem.emptyBufList)) := by
    rw [← List.append_assoc]
    exact List.perm_append_singleton address _
  refine ⟨⟨moved.nodup_iff.mpr distinct, ?_⟩, ?_⟩
  · intro other member
    exact known other (moved.mem_iff.mp member)
  · simp [writeFront, view, Logger.flushFront, shape, map_update _ _ apartRest,
      map_update _ _ apartSpare]

end LogMemory

/-! ## The calls, undisturbed -/

namespace LogMemory

/-- The steps of `write_buf(log, log.length)`; they do not read the clock. -/
def writeSteps (log : Bytes) (_ : DayTime) (mem : LogMemory) (place : WriteAt) :
    Option (LogMemory × Option WriteAt) := some (mem.stepWrite log place)

/-- The steps of `flush_buf(is_full)` -/
def flushSteps (isFull : Bool) (ti : DayTime) (mem : LogMemory) (place : FlushAt) :
    Option (LogMemory × Option FlushAt) := mem.stepFlush isFull ti place

/-- What the rest of the loop does, by the place from which it runs. -/
def WriteExpects (log : Bytes) (place : WriteAt) (mem result : LogMemory) : Prop :=
  match place with
  | .taking remain => ∀ fuel : Nat, remain ≤ fuel → mem.Separate → mem.view.Wf →
      result.Separate ∧ result.view = mem.view.writeLoop log fuel remain
  | .copying remain => ∀ (fuel : Nat) (logger : Logger), remain ≤ fuel + 1 → mem.Separate →
      logger.Wf → mem.view = logger.takeBlock →
      result.Separate ∧ result.view = (mem.view.writeBack log).2.writeLoop log fuel
        (remain - (mem.view.writeBack log).1)

theorem writeExpects_of_completes {log : Bytes} (nonempty : log ≠ []) {place : WriteAt}
    {mem result : LogMemory} (completes : Completes (writeSteps log) place mem result) :
    WriteExpects log place mem result := by
  induction completes with
  | @last ti place mem result taken =>
      cases place with
      | taking remain =>
          intro fuel enough separate wf
          simp only [writeSteps, stepWrite] at taken
          split at taken
          · cases taken
          · next done =>
              cases taken
              exact ⟨separate, (Logger.writeLoop_done log fuel (by omega) _).symm⟩
      | copying remain => cases taken
  | @more ti place after mem next result taken rest ih =>
      cases place with
      | taking remain =>
          intro fuel enough separate wf
          simp only [writeSteps, stepWrite] at taken
          split at taken
          · next more =>
              cases taken
              obtain ⟨fuel, rfl⟩ : ∃ less, fuel = less + 1 := ⟨fuel - 1, by omega⟩
              obtain ⟨taken, same⟩ := separate.takeBlock
              obtain ⟨resultSeparate, isResult⟩ :=
                ih fuel mem.view (by omega) taken wf same
              refine ⟨resultSeparate, ?_⟩
              rw [isResult, same, Logger.writeLoop, if_pos more]
          · cases taken
      | copying remain =>
          intro fuel logger enough separate wf isTaken
          obtain ⟨written, count, same⟩ := separate.writeBack log
          cases taken
          have iterated := wf.iterated log
          have progress : 0 < (logger.takeBlock.writeBack log).1 := by
            obtain ⟨-, -, -, -, room⟩ := wf.takeBlock_last
            have length := List.length_pos_of_ne_nil nonempty
            rw [iterated.1]
            omega
          rw [← isTaken] at iterated progress
          have less : remain - ((mem.writeBack log).1 : Int) ≤ fuel := by
            rw [count]
            omega
          obtain ⟨resultSeparate, isResult⟩ := ih fuel less written
            (by rw [same]; exact iterated.2.wf)
          exact ⟨resultSeparate, by rw [isResult, same, count]⟩

/-- `write_buf`, undisturbed, fills the blocks. -/
theorem view_of_write {log : Bytes} (nonempty : log ≠ []) {mem result : LogMemory}
    (separate : mem.Separate) (wf : mem.view.Wf)
    (completes : Completes (writeSteps log) (.taking log.length) mem result) :
    result.Separate ∧ result.view = mem.view.fill log :=
  writeExpects_of_completes nonempty completes log.length (Int.le_refl _) separate wf

/-- What the rest of `flush_buf` does when the call began in `base` and read `ti`. -/
def FlushExpects (isFull : Bool) (place : FlushAt) (mem result : LogMemory) : Prop :=
  ∀ (base : LogMemory) (ti : DayTime), base.Separate → (match place with
    | .roll => mem = base
    | .trim => mem = base.roll ti
    | .front => mem = (base.roll ti).trim
    | .spare => ∃ address rest, (base.roll ti).trim.bufList = address :: rest ∧
        mem = (base.roll ti).trim.writeFront address
    | .pop => ∃ address rest, (base.roll ti).trim.bufList = address :: rest ∧
        mem = { (base.roll ti).trim.writeFront address with
          emptyBufList := (base.roll ti).trim.emptyBufList ++ [address] }
    | .again => mem.Separate ∧ mem.view = base.view.flushOne ti) →
  result.Separate ∧ ∃ clock, FlushBuf isFull clock base.view result.view

/-- The times that a call and the calls inside it read. -/
def clockCons (ti : DayTime) (clock : Nat → DayTime) : Nat → DayTime
  | 0 => ti
  | call + 1 => clock call

theorem Separate.trimmed {base : LogMemory} (separate : base.Separate) (ti : DayTime) :
    (base.roll ti).trim.Separate ∧
      (base.roll ti).trim.view = (base.view.roll ti).trim := by
  obtain ⟨rolled, same⟩ := separate.roll ti
  rw [← same]
  exact rolled.trim

theorem flushExpects_of_completes {isFull : Bool} {place : FlushAt} {mem result : LogMemory}
    (completes : Completes (flushSteps isFull) place mem result) :
    FlushExpects isFull place mem result := by
  induction completes with
  | @last input place mem result taken =>
      intro base ti separate here
      cases place with
      | roll => cases taken
      | trim => cases taken
      | front =>
          simp only [flushSteps, stepFlush] at taken
          split at taken <;> cases taken
      | spare =>
          simp only [flushSteps, stepFlush] at taken
          split at taken <;> cases taken
      | pop =>
          simp only [flushSteps, stepFlush] at taken
          split at taken <;> cases taken
      | again =>
          simp only [flushSteps, stepFlush] at taken
          split at taken
          · cases taken
          · next done =>
              cases taken
              obtain ⟨memSeparate, same⟩ := here
              refine ⟨memSeparate, fun _ => ti, ?_⟩
              rw [same]
              apply FlushBuf.last
              rw [← same]
              by_cases full : isFull = true
              · left
                by_contra some
                exact done ⟨fun none => some (by rw [view, none]; rfl), full⟩
              · exact Or.inr (Bool.eq_false_iff.mpr full)
  | @more input place after mem next result taken rest ih =>
      intro base ti separate here
      obtain ⟨trimmed, trimmedView⟩ := separate.trimmed ti
      cases place with
      | roll =>
          cases taken
          subst here
          exact ih mem input separate rfl
      | trim =>
          cases taken
          exact ih base ti separate (by rw [here])
      | front =>
          simp only [flushSteps, stepFlush] at taken
          cases here
          split at taken
          · next none =>
              cases taken
              refine ih base ti separate ⟨trimmed, ?_⟩
              rw [Logger.flushOne, ← trimmedView, Logger.flushFront]
              simp [view, none]
          · next address others shape =>
              cases taken
              exact ih base ti separate ⟨address, others, shape, rfl⟩
      | spare =>
          obtain ⟨address, others, shape, rfl⟩ := here
          simp only [flushSteps, stepFlush, writeFront, shape] at taken
          cases taken
          exact ih base ti separate ⟨address, others, shape, by simp only [writeFront, shape]⟩
      | pop =>
          obtain ⟨address, others, shape, rfl⟩ := here
          simp only [flushSteps, stepFlush, writeFront, shape] at taken
          cases taken
          refine ih base ti separate ?_
          rw [Logger.flushOne, ← trimmedView]
          exact trimmed.flushFront shape
      | again =>
          simp only [flushSteps, stepFlush] at taken
          split at taken
          · next more =>
              cases taken
              obtain ⟨memSeparate, same⟩ := here
              obtain ⟨resultSeparate, clock, flushed⟩ := ih mem input memSeparate rfl
              refine ⟨resultSeparate, clockCons ti clock, ?_⟩
              rw [same] at flushed
              refine .again ?_ more.2 flushed
              change (base.view.flushOne ti).bufList ≠ []
              rw [← same]
              exact fun none => more.1 (List.map_eq_nil_iff.mp none)
          · cases taken

/-- `flush_buf`, undisturbed, is the one of the model with values. -/
theorem view_of_flush {isFull : Bool} {mem result : LogMemory} (separate : mem.Separate)
    (completes : Completes (flushSteps isFull) .roll mem result) :
    result.Separate ∧ ∃ clock, FlushBuf isFull clock mem.view result.view :=
  flushExpects_of_completes completes mem ⟨0, 0, 0, 0⟩ separate rfl

end LogMemory

/-- The result does not depend on how `flush_buf` returns. -/
theorem FlushBuf.eq_flushBuf {isFull : Bool} {clock : Nat → DayTime} {logger result : Logger}
    (flushed : FlushBuf isFull clock logger result) :
    result = logger.flushBuf isFull clock := by
  have unique {other : Logger} (more : FlushBuf isFull clock logger other) : result = other := by
    induction flushed generalizing other with
    | last done =>
        cases more with
        | last => rfl
        | again nonempty full =>
            rcases done with none | notFull
            · exact absurd none nonempty
            · rw [full] at notFull
              cases notFull
    | again nonempty full rest ih =>
        cases more with
        | last done =>
            rcases done with none | notFull
            · exact absurd none nonempty
            · rw [full] at notFull
              cases notFull
        | again _ _ others => exact ih others
  exact unique (logger.flushBuf_returns isFull clock)

end SimpleWebServer.Logging
