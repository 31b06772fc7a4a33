import Mathlib.Data.List.Nodup
import Mathlib.Data.List.Perm.Subperm
import SimpleWebServer.Logging.BlockLimit
import SimpleWebServer.Logging.LogStream

/-!
# The two block lists

Blocks are made by `write_buf`, move to `empty_buf_list` when they are flushed and back when
they are filled again, and are dropped by the check of their number.  Every block is in one
list at most, those that wait are full up to the last one, and the others are empty.
-/

namespace SimpleWebServer.Logging

open SimpleWebServer.Base SimpleWebServer.Lib.Runs

namespace Logger

/-- What `write_buf` and `flush_buf` rely on in the lists. -/
structure Represented (logger : Logger) : Prop where
  filled : ∀ block ∈ logger.bufList, 0 < block.writen ∧ block.writen ≤ block.capacity
  full : ∀ block ∈ logger.bufList.dropLast, block.isFull = true
  spare : ∀ block ∈ logger.emptyBufList, block.writen = 0
  notNull : ∀ block ∈ logger.bufList ++ logger.emptyBufList, block ≠ .null
  distinct : ((logger.bufList ++ logger.emptyBufList).map BufBlock.address).Nodup
  /-- `list::resize` makes no list longer -/
  resized : logger.trim.bufList <+: logger.bufList ∧
    logger.trim.emptyBufList <+: logger.emptyBufList

theorem trim_isPrefix (logger : Logger) : logger.trim.bufList <+: logger.bufList ∧
    logger.trim.emptyBufList <+: logger.emptyBufList := by
  by_cases beyond : logger.config.bufBlockNum < logger.blocks
  · refine ⟨?_, ?_⟩
    · by_cases above : logger.config.bufBlockNum < logger.bufList.length
      · rw [trim_bufList_of_above beyond above]
        exact List.take_prefix _ _
      · have same := trim_bufList_of_within beyond (Nat.le_of_not_lt above)
        exact ⟨[], by rw [same, List.append_nil]⟩
    · rw [trim_emptyBufList beyond]
      exact List.take_prefix _ _
  · rw [trim_eq_of_within (Nat.le_of_not_lt beyond)]
    exact ⟨List.prefix_rfl, List.prefix_rfl⟩

/-! ## The addresses -/

def addresses (logger : Logger) : List Nat :=
  (logger.bufList ++ logger.emptyBufList).map BufBlock.address

/-- Every block has an address of its own that was given to it. -/
structure Addressed (logger : Logger) : Prop where
  positive : 0 < logger.nextAddress
  known : ∀ address ∈ logger.addresses, 0 < address ∧ address < logger.nextAddress
  distinct : logger.addresses.Nodup

theorem new_addressed (config : Config) (day : Int) : (new config day).Addressed where
  positive := Nat.one_pos
  known := by
    intro address member
    cases member
  distinct := List.nodup_nil

/-- Blocks that move or go, and no new ones. -/
theorem Addressed.of_subperm {logger next : Logger} (addressed : logger.Addressed)
    (same : next.nextAddress = logger.nextAddress)
    (fewer : next.addresses.Subperm logger.addresses) : next.Addressed where
  positive := same ▸ addressed.positive
  known := fun address member => same ▸ addressed.known address (fewer.subset member)
  distinct := by
    obtain ⟨kept, perm, sublist⟩ := fewer
    exact perm.nodup (addressed.distinct.sublist sublist)

theorem Addressed.takeBlock {logger : Logger} (addressed : logger.Addressed) :
    logger.takeBlock.Addressed := by
  unfold Logger.takeBlock
  split
  · split
    · next none =>
        -- a new block is behind all others
        have list : logger.addresses = logger.bufList.map BufBlock.address := by
          rw [addresses, none, List.append_nil]
        have known := addressed.known
        have distinct := addressed.distinct
        rw [list] at known distinct
        refine ⟨Nat.succ_pos _, fun address member => ?_, ?_⟩
        · simp only [addresses, none, List.append_nil, List.map_append, List.mem_append,
            List.map_singleton, List.mem_singleton] at member
          rcases member with old | rfl
          · exact ⟨(known address old).1, Nat.lt_succ_of_lt (known address old).2⟩
          · exact ⟨addressed.positive, Nat.lt_succ_self _⟩
        · simp only [addresses, none, List.append_nil, List.map_append, List.map_singleton]
          refine List.nodup_append.mpr ⟨distinct, List.nodup_singleton _, ?_⟩
          intro address member new isNew
          rw [List.mem_singleton.mp isNew]
          exact Nat.ne_of_lt (known address member).2
    · next block rest spare =>
        refine addressed.of_subperm rfl ?_
        simp only [addresses, spare, List.append_assoc, List.singleton_append]
        exact List.Subperm.refl _
  · exact addressed

theorem addresses_writeBack (logger : Logger) (log : Bytes) :
    (logger.writeBack log).2.addresses = logger.addresses := by
  unfold writeBack
  split
  · rfl
  · next block last =>
      obtain ⟨front, shape⟩ := List.getLast?_eq_some_iff.mp last
      simp only [addresses, shape, List.dropLast_concat, List.map_append]
      rfl

theorem writeBack_nextAddress (logger : Logger) (log : Bytes) :
    (logger.writeBack log).2.nextAddress = logger.nextAddress := by
  unfold writeBack
  split <;> rfl

theorem Addressed.writeBack {logger : Logger} (addressed : logger.Addressed) (log : Bytes) :
    (logger.writeBack log).2.Addressed :=
  addressed.of_subperm (logger.writeBack_nextAddress log)
    (logger.addresses_writeBack log ▸ List.Subperm.refl _)

theorem Addressed.roll {logger : Logger} (addressed : logger.Addressed) (ti : DayTime) :
    (logger.roll ti).Addressed := by
  unfold Logger.roll
  split
  · exact ⟨addressed.positive, addressed.known, addressed.distinct⟩
  · exact addressed

theorem trim_nextAddress (logger : Logger) : logger.trim.nextAddress = logger.nextAddress := by
  unfold trim
  split <;> rfl

theorem Addressed.trim {logger : Logger} (addressed : logger.Addressed) :
    logger.trim.Addressed := by
  apply addressed.of_subperm logger.trim_nextAddress
  obtain ⟨buf, empty⟩ := logger.trim_isPrefix
  exact ((buf.sublist.append empty.sublist).map BufBlock.address).subperm

theorem Addressed.flushFront {logger : Logger} (addressed : logger.Addressed) :
    logger.flushFront.Addressed := by
  unfold Logger.flushFront
  split
  · exact addressed
  · next block rest shape =>
      refine addressed.of_subperm rfl ?_
      have moved : (rest ++ (logger.emptyBufList ++ [block.flushBuf])).map BufBlock.address =
          (rest ++ logger.emptyBufList).map BufBlock.address ++ [block.address] := by
        rw [← List.append_assoc, List.map_append]
        rfl
      simp only [addresses, shape, moved, List.cons_append, List.map_cons]
      exact (List.perm_append_singleton _ _).subperm

/-! ## How far the blocks are filled -/

/-- The blocks that wait, the last one alone with room. -/
structure Filled (blocks : List BufBlock) : Prop where
  begun : ∀ block ∈ blocks, 0 < block.writen
  full : ∀ block ∈ blocks.dropLast, block.isFull = true

theorem filled_nil : Filled [] where
  begun := by simp
  full := by simp

theorem Filled.of_prefix {blocks kept : List BufBlock} (filled : Filled blocks)
    (isPrefix : kept <+: blocks) : Filled kept where
  begun := fun block member => filled.begun block (isPrefix.subset member)
  full := by
    intro block member
    obtain ⟨dropped, rfl⟩ := isPrefix
    cases dropped with
    | nil => exact filled.full block (by simpa using member)
    | cons other rest =>
        apply filled.full block
        rw [List.dropLast_append_cons]
        exact List.mem_append_left _ (List.dropLast_subset kept member)

theorem Filled.tail {block : BufBlock} {rest : List BufBlock} (filled : Filled (block :: rest)) :
    Filled rest where
  begun := fun other member => filled.begun other (List.mem_cons_of_mem block member)
  full := by
    intro other member
    cases rest with
    | nil => cases member
    | cons next rest => exact filled.full other (List.mem_cons_of_mem block member)

/-- A block that takes bytes may stand behind full ones. -/
theorem filled_concat {front : List BufBlock} {last : BufBlock}
    (begun : ∀ block ∈ front, 0 < block.writen ∧ block.isFull = true) (taken : 0 < last.writen) :
    Filled (front ++ [last]) where
  begun := by
    intro block member
    rcases List.mem_append.mp member with old | new
    · exact (begun block old).1
    · rw [List.mem_singleton.mp new]
      exact taken
  full := by
    intro block member
    rw [List.dropLast_concat] at member
    exact (begun block member).2

/-- The invariant of the lists. -/
structure Kept (logger : Logger) : Prop where
  wf : logger.Wf
  filled : Filled logger.bufList
  addressed : logger.Addressed

theorem new_kept (config : Config) (day : Int) : (new config day).Kept :=
  ⟨new_wf config day, filled_nil, new_addressed config day⟩

/-- Where a block is needed, all that wait are full. -/
theorem Kept.full_of_needsBlock {logger : Logger} (kept : logger.Kept)
    (needs : logger.needsBlock = true) : ∀ block ∈ logger.bufList, block.isFull = true := by
  intro block member
  unfold needsBlock at needs
  cases last : logger.bufList.getLast? with
  | none =>
      rw [List.getLast?_eq_none_iff.mp last] at member
      cases member
  | some other =>
      rw [last] at needs
      obtain ⟨front, shape⟩ := List.getLast?_eq_some_iff.mp last
      rw [shape] at member
      rcases List.mem_append.mp member with old | new
      · exact kept.filled.full block (by rw [shape, List.dropLast_concat]; exact old)
      · rw [List.mem_singleton.mp new]
        exact needs

/-- In front of the block that the loop is going to write to, all are full. -/
theorem Kept.takeBlock_front {logger : Logger} (kept : logger.Kept) {front : List BufBlock}
    {last : BufBlock} (shape : logger.takeBlock.bufList = front ++ [last]) :
    ∀ block ∈ front, 0 < block.writen ∧ block.isFull = true := by
  cases needs : logger.needsBlock with
  | true =>
      have same : front = logger.bufList := by
        simp only [takeBlock, needs, if_true] at shape
        split at shape
        · exact (List.append_inj_left' shape rfl).symm
        · exact (List.append_inj_left' shape rfl).symm
      intro block member
      rw [same] at member
      exact ⟨kept.filled.begun block member, kept.full_of_needsBlock needs block member⟩
  | false =>
      have same : logger.takeBlock = logger := by simp [takeBlock, needs]
      rw [same] at shape
      intro block member
      refine ⟨kept.filled.begun block (by simp [shape, member]), ?_⟩
      exact kept.filled.full block (by simp [shape, member])

/-- One iteration of `write_buf`. -/
theorem Kept.iterated {logger : Logger} (kept : logger.Kept) {log : Bytes} (nonempty : log ≠ []) :
    (logger.takeBlock.writeBack log).2.Kept := by
  refine ⟨(kept.wf.iterated log).2.wf, ?_, kept.addressed.takeBlock.writeBack log⟩
  obtain ⟨front, block, shape, free, room⟩ := kept.wf.takeBlock_last
  have list : (logger.takeBlock.writeBack log).2.bufList = front ++ [block.writeBuf log] := by
    simp [writeBack, shape]
  have positive := List.length_pos_of_ne_nil nonempty
  rw [list]
  apply filled_concat (kept.takeBlock_front shape)
  rw [BufBlock.writen, BufBlock.writeBuf_buf, List.length_append, List.length_take, BufBlock.room,
    free]
  omega

theorem Kept.writeLoop {log : Bytes} (nonempty : log ≠ []) (fuel : Nat) (remain : Int)
    {logger : Logger} (kept : logger.Kept) : (logger.writeLoop log fuel remain).Kept := by
  induction fuel generalizing remain logger with
  | zero => exact kept
  | succ fuel ih =>
      rw [Logger.writeLoop]
      split
      · exact ih _ (kept.iterated nonempty)
      · exact kept

/-! ## `flush_buf` -/

@[simp]
theorem roll_bufList (logger : Logger) (ti : DayTime) :
    (logger.roll ti).bufList = logger.bufList := by
  unfold roll
  split <;> rfl

theorem Kept.roll {logger : Logger} (kept : logger.Kept) (ti : DayTime) :
    (logger.roll ti).Kept := by
  have filled := kept.filled
  rw [← logger.roll_bufList ti] at filled
  exact ⟨kept.wf.roll ti, filled, kept.addressed.roll ti⟩

@[simp]
theorem trim_config (logger : Logger) : logger.trim.config = logger.config := by
  unfold trim
  split <;> rfl

/-- The check drops blocks from the ends of the lists. -/
theorem Kept.trim {logger : Logger} (kept : logger.Kept) : logger.trim.Kept := by
  obtain ⟨buf, empty⟩ := logger.trim_isPrefix
  refine ⟨⟨fun block member => ?_, fun block member => ?_⟩, kept.filled.of_prefix buf,
    kept.addressed.trim⟩
  · rw [trim_config]
    exact kept.wf.listed block (buf.subset member)
  · rw [trim_config]
    exact kept.wf.spare block (empty.subset member)

theorem Kept.flushFront {logger : Logger} (kept : logger.Kept) : logger.flushFront.Kept := by
  refine ⟨kept.wf.flushFront, ?_, kept.addressed.flushFront⟩
  have filled := kept.filled
  unfold Logger.flushFront
  split
  · exact filled
  · next block rest shape =>
      rw [shape] at filled
      exact filled.tail

theorem Kept.flushLoop (isFull : Bool) (fuel : Nat) (clock : Nat → DayTime) {logger : Logger}
    (kept : logger.Kept) : (logger.flushLoop isFull fuel clock).Kept := by
  induction fuel generalizing clock logger with
  | zero => exact kept
  | succ fuel ih =>
      have flushed : (logger.flushOne (clock 0)).Kept := (kept.roll (clock 0)).trim.flushFront
      unfold Logger.flushLoop
      dsimp only
      split
      · exact ih _ flushed
      · exact flushed

theorem Kept.writeBuf {logger : Logger} (kept : logger.Kept) {log : Bytes} (nonempty : log ≠ [])
    (ti : DayTime) : (logger.writeBuf log ti).Kept := by
  have filled : (logger.fill log).Kept := kept.writeLoop nonempty _ _
  rw [Logger.writeBuf]
  split
  · exact filled
  · exact filled.flushLoop _ _ _

/-! ## Runs -/

/-- One call; the strings are not empty, and nothing limits the number of blocks. -/
def stepBlocks (logger : Logger) : Event → Option Logger
  | .write log ti => if log ≠ [] then some (logger.writeBuf log ti) else none
  | .flush isFull clock => some (logger.flushBuf isFull clock)

theorem Kept.step {logger next : Logger} (kept : logger.Kept) {event : Event}
    (taken : logger.stepBlocks event = some next) : next.Kept := by
  cases event with
  | write log ti =>
      obtain ⟨nonempty, rfl⟩ := of_guarded taken
      exact kept.writeBuf nonempty ti
  | flush isFull clock =>
      cases taken
      exact kept.flushLoop isFull _ clock

theorem Kept.represented {logger : Logger} (kept : logger.Kept) : logger.Represented where
  filled := fun block member => ⟨kept.filled.begun block member, block.fits⟩
  full := kept.filled.full
  spare := by
    intro block member
    rw [BufBlock.writen, (kept.wf.spare block member).2]
    rfl
  notNull := by
    rintro block member rfl
    have known := kept.addressed.known 0 (List.mem_map_of_mem member)
    exact Nat.lt_irrefl 0 known.1
  distinct := kept.addressed.distinct
  resized := logger.trim_isPrefix

/-- The lists are as they should be in every state of every run. -/
theorem allRepresented (config : Config) (day : Int) (events : List Event) :
    AllStates stepBlocks Represented (new config day) events :=
  allStates_of_invariant Kept (fun _ _ _ kept => kept.step) (fun _ kept => kept.represented) events
    (new_kept config day)

end Logger

end SimpleWebServer.Logging
