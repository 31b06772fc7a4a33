import SimpleWebServer.Base.Buffer

/-!
# What the operations of the buffer show

The header describes `Buffer` as a queue that grows: bytes enter on the right and
leave on the left.  Here each operation is compared with that of a queue.  A reallocation
carries over `size()` bytes only, while the unread bytes may lie above `size()`; every
other operation shows what a queue shows.
-/

namespace SimpleWebServer.Base

namespace Buffer

/-- The positions are ordered and lie inside a storage of at least `init_capa` bytes. -/
structure Wf (buffer : Buffer) : Prop where
  ordered : buffer.leftReadPtr ≤ buffer.rightWritePtr
  inside : buffer.rightWritePtr ≤ buffer.buf.capacity
  initial : initCapa ≤ buffer.buf.capacity

theorem new_wf : Buffer.new.Wf := by
  refine ⟨Nat.le_refl _, Nat.zero_le _, ?_⟩
  simp [Buffer.new, CharVector.ofSize, CharVector.capacity]

@[simp]
theorem new_peek : Buffer.new.peek = [] := by
  simp [peek, Buffer.new]

theorem Wf.peek_length {buffer : Buffer} (wf : buffer.Wf) :
    buffer.peek.length = buffer.getSize := by
  have ordered := wf.ordered
  have inside := wf.inside
  rw [peek, CharVector.range_length, getSize]
  omega

/-- The unread bytes that a reallocation would not carry over are zero, as they are after it. -/
def CarriedOver (buffer : Buffer) : Prop :=
  ∀ index, index < buffer.rightWritePtr → max buffer.leftReadPtr buffer.buf.size ≤ index →
    buffer.buf.storage[index]? = some 0

/-- Nothing is lost when all unread bytes lie below `size()`. -/
theorem carriedOver_of_le_size {buffer : Buffer}
    (below : buffer.rightWritePtr ≤ buffer.buf.size) : buffer.CarriedOver := by
  intro index inside above
  omega

/-- The same buffer on a vector resized above its capacity. -/
def regrown (buffer : Buffer) (count : Nat) : Buffer :=
  { buffer with buf := buffer.buf.resize count }

theorem Wf.regrown {buffer : Buffer} (wf : buffer.Wf) {count : Nat}
    (above : buffer.buf.capacity < count) : (buffer.regrown count).Wf := by
  have inside := wf.inside
  have initial := wf.initial
  have sizeLe := buffer.buf.size_le
  have capacity : (buffer.regrown count).buf.capacity = buffer.buf.grownCapacity count :=
    buffer.buf.resize_capacity above
  have grown : buffer.buf.capacity ≤ buffer.buf.grownCapacity count := by
    unfold CharVector.grownCapacity
    omega
  refine ⟨wf.ordered, ?_, by omega⟩
  change buffer.rightWritePtr ≤ _
  omega

/-- The storage a resize leaves behind reaches at least as far as asked. -/
theorem le_regrown_capacity (buffer : Buffer) {count : Nat}
    (above : buffer.buf.capacity < count) : count ≤ (buffer.regrown count).buf.capacity := by
  have capacity : (buffer.regrown count).buf.capacity = buffer.buf.grownCapacity count :=
    buffer.buf.resize_capacity above
  rw [capacity, CharVector.grownCapacity]
  omega

theorem Wf.regrown_peek_iff {buffer : Buffer} (wf : buffer.Wf) {count : Nat}
    (above : buffer.buf.capacity < count) :
    (buffer.regrown count).peek = buffer.peek ↔ buffer.CarriedOver :=
  buffer.buf.range_resize_iff above wf.inside

/-! ## The operations -/

theorem Wf.bufMoveHead_peek {buffer : Buffer} (wf : buffer.Wf) :
    buffer.bufMoveHead.peek = buffer.peek := by
  have length := wf.peek_length
  have inside := wf.inside
  have fits : 0 + buffer.peek.length ≤ buffer.buf.capacity := by
    rw [length, getSize]
    omega
  have moved := buffer.buf.range_copyTo (Nat.le_refl 0) fits
  rw [Nat.zero_add, length] at moved
  simpa [peek, bufMoveHead] using moved

theorem Wf.bufMoveHead_capacity {buffer : Buffer} (wf : buffer.Wf) :
    buffer.bufMoveHead.buf.capacity = buffer.buf.capacity := by
  have inside := wf.inside
  apply buffer.buf.copyTo_capacity
  rw [wf.peek_length, getSize]
  omega

theorem Wf.bufMoveHead {buffer : Buffer} (wf : buffer.Wf) : buffer.bufMoveHead.Wf := by
  have inside := wf.inside
  have capacity := wf.bufMoveHead_capacity
  refine ⟨Nat.zero_le _, ?_, by rw [capacity]; exact wf.initial⟩
  rw [capacity]
  change buffer.getSize ≤ _
  rw [getSize]
  omega

theorem Wf.bufInsertTail_peek {buffer : Buffer} (wf : buffer.Wf) {str : Bytes}
    (fits : str.length ≤ buffer.remainRight) :
    (buffer.bufInsertTail str).peek = buffer.peek ++ str := by
  have inside := wf.inside
  rw [remainRight] at fits
  exact buffer.buf.range_copyTo wf.ordered (by omega)

theorem Wf.bufInsertTail {buffer : Buffer} (wf : buffer.Wf) {str : Bytes}
    (fits : str.length ≤ buffer.remainRight) : (buffer.bufInsertTail str).Wf := by
  have ordered := wf.ordered
  have inside := wf.inside
  rw [remainRight] at fits
  have capacity : (buffer.bufInsertTail str).buf.capacity = buffer.buf.capacity :=
    buffer.buf.copyTo_capacity (by omega)
  refine ⟨?_, ?_, by rw [capacity]; exact wf.initial⟩
  · change buffer.leftReadPtr ≤ buffer.rightWritePtr + str.length
    omega
  · rw [capacity]
    change buffer.rightWritePtr + str.length ≤ _
    omega

/-- The buffer on which `push` finally copies the string: as it is, moved, or regrown and moved. -/
def pushRoom (buffer : Buffer) (str : Bytes) : Buffer :=
  if str.length ≤ buffer.remainRight then buffer
  else if str.length ≤ buffer.leftReadPtr + buffer.remainRight then buffer.bufMoveHead
  else (buffer.regrown (buffer.buf.capacity + buffer.pushAdd str)).bufMoveHead

theorem push_eq (buffer : Buffer) (str : Bytes) :
    buffer.push str = (buffer.pushRoom str).bufInsertTail str := by
  unfold push pushRoom
  split
  · rfl
  · split <;> rfl

theorem pushAdd_pos {buffer : Buffer} {str : Bytes} (grows : buffer.pushGrows str) :
    buffer.buf.capacity < buffer.buf.capacity + buffer.pushAdd str := by
  unfold pushGrows at grows
  unfold pushAdd
  omega

theorem Wf.pushRoom {buffer : Buffer} (wf : buffer.Wf) (str : Bytes) :
    (buffer.pushRoom str).Wf ∧ str.length ≤ (buffer.pushRoom str).remainRight := by
  have ordered := wf.ordered
  have inside := wf.inside
  unfold Buffer.pushRoom
  split
  · exact ⟨wf, by assumption⟩
  · split
    · rename_i moved
      refine ⟨wf.bufMoveHead, ?_⟩
      change _ ≤ buffer.bufMoveHead.buf.capacity - buffer.getSize
      rw [wf.bufMoveHead_capacity, getSize]
      rw [remainRight] at moved
      omega
    · rename_i full
      have grows : buffer.pushGrows str := Nat.lt_of_not_le full
      have above := pushAdd_pos grows
      have regrownWf := wf.regrown above
      have reached := buffer.le_regrown_capacity above
      refine ⟨regrownWf.bufMoveHead, ?_⟩
      rw [remainRight, regrownWf.bufMoveHead_capacity]
      change _ ≤ _ - buffer.getSize
      rw [getSize]
      simp only [pushAdd, pushGrows, remainRight] at reached grows ⊢
      omega

theorem Wf.push {buffer : Buffer} (wf : buffer.Wf) (str : Bytes) : (buffer.push str).Wf := by
  rw [push_eq]
  exact (wf.pushRoom str).1.bufInsertTail (wf.pushRoom str).2

/-- `push` appends to what the buffer showed unless a reallocation lost part of that. -/
theorem Wf.push_peek_iff {buffer : Buffer} (wf : buffer.Wf) (str : Bytes) :
    (buffer.push str).peek = buffer.peek ++ str ↔
      (buffer.pushGrows str → buffer.CarriedOver) := by
  rw [push_eq, (wf.pushRoom str).1.bufInsertTail_peek (wf.pushRoom str).2,
    List.append_left_inj]
  unfold Buffer.pushRoom
  by_cases room : str.length ≤ buffer.leftReadPtr + buffer.remainRight
  · have keeps : ¬ buffer.pushGrows str := Nat.not_lt.mpr room
    simp only [keeps, false_implies, iff_true]
    split
    · rfl
    · exact wf.bufMoveHead_peek
  · have grows : buffer.pushGrows str := Nat.lt_of_not_le room
    have above := pushAdd_pos grows
    have noRoom : ¬ str.length ≤ buffer.remainRight := by omega
    rw [if_neg noRoom, if_neg room, (wf.regrown above).bufMoveHead_peek,
      wf.regrown_peek_iff above]
    simp only [grows, true_implies]

/-- `push_from` enlarges the vector when less than half of `init_capa` is free on the right. -/
def pushFromGrows (buffer : Buffer) : Prop := buffer.remainRight < initCapa / 2

theorem makeRoom_of_grows {buffer : Buffer} (grows : buffer.pushFromGrows) :
    buffer.makeRoom = buffer.regrown (buffer.buf.capacity * 2) := by
  unfold makeRoom
  rw [if_pos (show buffer.remainRight < initCapa / 2 from grows)]
  rfl

theorem makeRoom_of_not_grows {buffer : Buffer} (keeps : ¬ buffer.pushFromGrows) :
    buffer.makeRoom = buffer := by
  unfold makeRoom
  rw [if_neg (show ¬ buffer.remainRight < initCapa / 2 from keeps)]

theorem Wf.capacity_lt_double {buffer : Buffer} (wf : buffer.Wf) :
    buffer.buf.capacity < buffer.buf.capacity * 2 := by
  have initial := wf.initial
  unfold initCapa at initial
  omega

theorem Wf.makeRoom {buffer : Buffer} (wf : buffer.Wf) : buffer.makeRoom.Wf := by
  by_cases grows : buffer.pushFromGrows
  · rw [makeRoom_of_grows grows]
    exact wf.regrown wf.capacity_lt_double
  · rw [makeRoom_of_not_grows grows]
    exact wf

theorem Wf.makeRoom_peek_iff {buffer : Buffer} (wf : buffer.Wf) :
    buffer.makeRoom.peek = buffer.peek ↔ (buffer.pushFromGrows → buffer.CarriedOver) := by
  by_cases grows : buffer.pushFromGrows
  · rw [makeRoom_of_grows grows, wf.regrown_peek_iff wf.capacity_lt_double]
    simp only [grows, true_implies]
  · rw [makeRoom_of_not_grows grows]
    simp only [grows, false_implies]

/-- `push_from` is `makeRoom` followed by a copy of the bytes that were read. -/
theorem pushFrom_eq (buffer : Buffer) (result : ReadResult) :
    (buffer.pushFrom result).2 = buffer.makeRoom.bufInsertTail result.bytes := by
  unfold pushFrom
  split
  · rfl
  · rename_i none
    have empty : result.bytes = [] := by
      cases result with
      | error errno => rfl
      | data bytes =>
          simp only [ReadResult.count] at none
          have zero : bytes.length = 0 := by omega
          exact List.length_eq_zero_iff.mp zero
    rw [empty]
    simp [bufInsertTail]

theorem Wf.pushFrom {buffer : Buffer} (wf : buffer.Wf) {result : ReadResult}
    (fits : result.bytes.length ≤ buffer.offeredRoom) : (buffer.pushFrom result).2.Wf := by
  rw [pushFrom_eq]
  exact wf.makeRoom.bufInsertTail fits

theorem makeRoom_positions (buffer : Buffer) :
    buffer.makeRoom.leftReadPtr = buffer.leftReadPtr ∧
      buffer.makeRoom.rightWritePtr = buffer.rightWritePtr := by
  unfold makeRoom
  split <;> exact ⟨rfl, rfl⟩

/-- `push_from` moves the write position and nothing else. -/
theorem pushFrom_positions (buffer : Buffer) (result : ReadResult) :
    (buffer.pushFrom result).2.leftReadPtr = buffer.leftReadPtr ∧
      (buffer.pushFrom result).2.rightWritePtr =
        buffer.rightWritePtr + result.bytes.length := by
  obtain ⟨left, right⟩ := buffer.makeRoom_positions
  rw [pushFrom_eq, ← left, ← right]
  exact ⟨rfl, rfl⟩

/-- `push_from` appends what was read unless its reallocation lost part of the unread bytes. -/
theorem Wf.pushFrom_peek_iff {buffer : Buffer} (wf : buffer.Wf) {result : ReadResult}
    (fits : result.bytes.length ≤ buffer.offeredRoom) :
    (buffer.pushFrom result).2.peek = buffer.peek ++ result.bytes ↔
      (buffer.pushFromGrows → buffer.CarriedOver) := by
  rw [pushFrom_eq, wf.makeRoom.bufInsertTail_peek fits, List.append_left_inj,
    wf.makeRoom_peek_iff]

/-- `push_from` alone never leaves spare capacity behind `size()`. -/
theorem Wf.makeRoom_full {buffer : Buffer} (wf : buffer.Wf)
    (full : buffer.buf.size = buffer.buf.capacity) :
    buffer.makeRoom.buf.size = buffer.makeRoom.buf.capacity := by
  by_cases grows : buffer.pushFromGrows
  · rw [makeRoom_of_grows grows]
    change (buffer.buf.resize (buffer.buf.capacity * 2)).size =
      (buffer.buf.resize (buffer.buf.capacity * 2)).capacity
    rw [CharVector.resize_size, CharVector.resize_capacity _ wf.capacity_lt_double,
      CharVector.grownCapacity]
    omega
  · rw [makeRoom_of_not_grows grows]
    exact full

theorem Wf.pushFrom_full {buffer : Buffer} (wf : buffer.Wf)
    (full : buffer.buf.size = buffer.buf.capacity) {result : ReadResult}
    (fits : result.bytes.length ≤ buffer.offeredRoom) :
    (buffer.pushFrom result).2.buf.size = (buffer.pushFrom result).2.buf.capacity := by
  have inside : buffer.makeRoom.rightWritePtr + result.bytes.length ≤
      buffer.makeRoom.buf.capacity := by
    have below := wf.makeRoom.inside
    unfold offeredRoom remainRight at fits
    omega
  rw [pushFrom_eq]
  change buffer.makeRoom.buf.size = (buffer.makeRoom.buf.copyTo _ _).capacity
  rw [CharVector.copyTo_capacity _ inside]
  exact wf.makeRoom_full full

theorem popTo_eq (buffer : Buffer) (result : WriteResult) :
    (buffer.popTo result).2 =
      { buffer with leftReadPtr := buffer.leftReadPtr + result.accepted } := by
  unfold popTo
  split
  · rfl
  · rename_i none
    have zero : result.accepted = 0 := by
      cases result with
      | error errno => rfl
      | wrote count =>
          simp only [WriteResult.count] at none
          change count = 0
          omega
    rw [zero]
    rfl

theorem Wf.popTo {buffer : Buffer} (wf : buffer.Wf) {result : WriteResult}
    (fits : result.accepted ≤ buffer.getSize) : (buffer.popTo result).2.Wf := by
  have ordered := wf.ordered
  rw [getSize] at fits
  rw [popTo_eq]
  refine ⟨?_, wf.inside, wf.initial⟩
  change buffer.leftReadPtr + result.accepted ≤ buffer.rightWritePtr
  omega

/-- `pop_to` drops what `write` accepted from the front. -/
theorem popTo_peek (buffer : Buffer) (result : WriteResult) :
    (buffer.popTo result).2.peek = buffer.peek.drop result.accepted := by
  rw [popTo_eq]
  exact (buffer.buf.range_drop _ _ _).symm

/-- `pop()` never fails and leaves nothing unread. -/
theorem pop_eq (buffer : Buffer) :
    buffer.pop = .ok { buffer with leftReadPtr := buffer.leftReadPtr + buffer.getSize } := by
  unfold pop popLen
  rw [if_pos (by omega)]

theorem Wf.push_getSize {buffer : Buffer} (wf : buffer.Wf) (str : Bytes) :
    (buffer.push str).getSize = buffer.getSize + str.length := by
  have ordered := (wf.pushRoom str).1.ordered
  have size : (buffer.pushRoom str).getSize = buffer.getSize := by
    unfold Buffer.pushRoom
    split
    · rfl
    · split <;> rfl
  rw [push_eq, ← size]
  change (buffer.pushRoom str).rightWritePtr + str.length - (buffer.pushRoom str).leftReadPtr = _
  rw [getSize]
  omega

end Buffer

end SimpleWebServer.Base
