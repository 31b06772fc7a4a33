import SimpleWebServer.Logging.Logger

/-!
# The limit on the number of blocks

When both lists together have more than `buf_block_num` blocks, `flush_buf` is to drop spare
blocks first and then the newest full ones.  It hands `list::resize` the numbers of blocks
to drop, where `resize` takes the number to keep.
-/

namespace SimpleWebServer.Logging

namespace Logger

/-- What the limit promises for the lists before and after it is applied. -/
structure Limited (before after : Logger) : Prop where
  total : after.blocks ≤ before.config.bufBlockNum
  /-- full blocks are dropped only where dropping every spare one is not enough -/
  needed : before.bufList.length ≤
    after.bufList.length + (before.bufList.length - before.config.bufBlockNum)
  /-- the oldest blocks stay in front -/
  oldest : before.bufList.take before.config.bufBlockNum <+: after.bufList

/-- The lists are brought within the limit when they are not. -/
def KeepsLimit (logger : Logger) : Prop :=
  logger.config.bufBlockNum < logger.blocks → Limited logger logger.trim

/--
The numbers to drop and to keep agree: the full blocks are within the limit and the spare
ones exceed it by no more than there is room, or the full blocks alone are twice the limit.
-/
def DropsAsKept (logger : Logger) : Prop :=
  logger.bufList.length ≤ logger.config.bufBlockNum ∧
      2 * logger.bufList.length + logger.emptyBufList.length ≤ 2 * logger.config.bufBlockNum ∨
    logger.bufList.length = 2 * logger.config.bufBlockNum ∧ logger.emptyBufList.length = 0

instance : DecidablePred DropsAsKept := fun _ => inferInstanceAs (Decidable (_ ∨ _))

/-- A list is not resized beyond its length, so no null pointer is added. -/
theorem resize_of_le {blocks : List BufBlock} {count : Nat} (within : count ≤ blocks.length) :
    resize blocks count = blocks.take count := by
  rw [resize, Nat.sub_eq_zero_of_le within]
  exact List.append_nil _

section

variable {logger : Logger} (beyond : logger.config.bufBlockNum < logger.blocks)
include beyond

theorem trim_emptyBufList : logger.trim.emptyBufList = logger.emptyBufList.take
    (logger.blocks - logger.config.bufBlockNum) := by
  rw [trim, if_pos beyond]
  change resize logger.emptyBufList (min logger.emptyBufList.length
    (logger.blocks - logger.config.bufBlockNum)) = _
  rw [resize_of_le (Nat.min_le_left _ _), Nat.min_comm, ← List.take_eq_take_min]

theorem trim_bufList_of_within (within : logger.bufList.length ≤ logger.config.bufBlockNum) :
    logger.trim.bufList = logger.bufList := by
  rw [trim, if_pos beyond]
  exact if_neg (Nat.not_lt.mpr within)

theorem trim_bufList_of_above (above : logger.config.bufBlockNum < logger.bufList.length) :
    logger.trim.bufList =
      logger.bufList.take (logger.bufList.length - logger.config.bufBlockNum) := by
  rw [trim, if_pos beyond]
  change (if logger.config.bufBlockNum < logger.bufList.length then _ else _) = _
  rw [if_pos above, resize_of_le (Nat.sub_le _ _)]

/-- Full blocks within the limit all stay, and the spare ones are cut by the wrong number. -/
theorem trim_limited_of_within (within : logger.bufList.length ≤ logger.config.bufBlockNum) :
    Limited logger logger.trim ↔
      2 * logger.bufList.length + logger.emptyBufList.length ≤ 2 * logger.config.bufBlockNum := by
  have full := trim_bufList_of_within beyond within
  have total : logger.trim.blocks = logger.bufList.length +
      min (logger.blocks - logger.config.bufBlockNum) logger.emptyBufList.length := by
    rw [blocks, full, trim_emptyBufList beyond, List.length_take]
  simp only [blocks] at beyond total
  constructor
  · rintro ⟨limit, -, -⟩
    simp only [blocks] at limit
    omega
  · intro room
    refine ⟨?_, ?_, ?_⟩
    · simp only [blocks]
      omega
    · rw [full]
      exact Nat.le_add_right _ _
    · rw [full]
      exact List.take_prefix _ _

/-- Above the limit the full blocks are cut to their excess. -/
theorem trim_limited_of_above (above : logger.config.bufBlockNum < logger.bufList.length) :
    Limited logger logger.trim ↔ logger.bufList.length = 2 * logger.config.bufBlockNum ∧
      logger.emptyBufList.length = 0 := by
  have full := trim_bufList_of_above beyond above
  have fullLength : logger.trim.bufList.length =
      logger.bufList.length - logger.config.bufBlockNum := by
    rw [full, List.length_take]
    omega
  have total : logger.trim.blocks = (logger.bufList.length - logger.config.bufBlockNum) +
      min (logger.blocks - logger.config.bufBlockNum) logger.emptyBufList.length := by
    rw [blocks, fullLength, trim_emptyBufList beyond, List.length_take]
  simp only [blocks] at beyond total
  constructor
  · rintro ⟨limit, needed, -⟩
    rw [fullLength] at needed
    simp only [blocks] at limit
    omega
  · rintro ⟨twice, none⟩
    refine ⟨?_, ?_, ?_⟩
    · simp only [blocks]
      omega
    · rw [fullLength]
      omega
    · have same : logger.bufList.length - logger.config.bufBlockNum =
          logger.config.bufBlockNum := by
        omega
      have kept : logger.trim.bufList = logger.bufList.take logger.config.bufBlockNum :=
        full.trans (congrArg (logger.bufList.take ·) same)
      exact ⟨[], by rw [List.append_nil, kept]⟩

end

/-- The limit is kept for exactly those lengths of the lists. -/
theorem keepsLimit_iff (logger : Logger) :
    logger.KeepsLimit ↔ (logger.config.bufBlockNum < logger.blocks → logger.DropsAsKept) := by
  apply imp_congr_right
  intro beyond
  rcases Nat.lt_or_ge logger.config.bufBlockNum logger.bufList.length with above | within
  · rw [trim_limited_of_above beyond above, DropsAsKept]
    refine ⟨Or.inr, fun kept => kept.resolve_left fun room => ?_⟩
    exact absurd room.1 (Nat.not_le.mpr above)
  · rw [trim_limited_of_within beyond within, DropsAsKept]
    constructor
    · exact fun room => Or.inl ⟨within, room⟩
    · rintro (room | ⟨twice, none⟩)
      · exact room.2
      · omega

/-- One full block more than the limit of 256. -/
def overfull : Logger :=
  { Logger.new .source 1 with bufList := List.replicate 257 (.new 1 Config.source.bufBlockSize) }

/-- All of them but one are dropped, and the log with them. -/
theorem overfull_drops : ¬ overfull.KeepsLimit := by
  intro keeps
  have beyond : overfull.config.bufBlockNum < overfull.blocks := by decide +kernel
  have needed := (keeps beyond).needed
  rw [trim_bufList_of_above beyond (by decide +kernel)] at needed
  exact absurd needed (by decide +kernel)

end Logger

end SimpleWebServer.Logging
