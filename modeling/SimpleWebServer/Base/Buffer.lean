import SimpleWebServer.Base.Bytes

/-!
# The byte buffer

`Buffer` keeps its bytes in a `vector<char>` between `left_read_ptr` and
`right_write_ptr`, and it addresses the vector up to its *capacity*, not up to
its size.  The vector is therefore modelled with both numbers: its storage, and
how much of the storage a reallocation carries over.  Positions are kept as
unbounded numbers; whether an `int` holds them is a separate question.
-/

namespace SimpleWebServer.Base

/-- A `vector<char>`: the storage it owns, as long as `capacity()`, and its `size()`. -/
structure CharVector where
  storage : Bytes
  size : Nat
  size_le : size ≤ storage.length

namespace CharVector

def capacity (vector : CharVector) : Nat := vector.storage.length

/-- `vector<char>(count)`: `count` zero bytes, with no spare capacity. -/
def ofSize (count : Nat) : CharVector :=
  ⟨List.replicate count 0, count, by simp⟩

/-- The capacity that libstdc++ allocates to grow `size()` to `count`. -/
def grownCapacity (vector : CharVector) (count : Nat) : Nat :=
  vector.size + max vector.size (count - vector.size)

/--
`resize(count)`.  Above the capacity it reallocates: the first `size()` bytes are
carried over and the rest is zero.  Within the capacity the storage stays, and the
elements that appear are zeroed.
-/
def resize (vector : CharVector) (count : Nat) : CharVector :=
  if fits : count ≤ vector.size then
    ⟨vector.storage, count, Nat.le_trans fits vector.size_le⟩
  else if within : count ≤ vector.capacity then
    ⟨vector.storage.take vector.size ++ List.replicate (count - vector.size) 0 ++
      vector.storage.drop count, count, by
        have := vector.size_le
        simp only [List.length_append, List.length_take, List.length_replicate,
          List.length_drop, capacity] at within ⊢
        omega⟩
  else
    ⟨vector.storage.take vector.size ++
      List.replicate (vector.grownCapacity count - vector.size) 0, count, by
        have := vector.size_le
        simp only [List.length_append, List.length_take, List.length_replicate,
          grownCapacity]
        omega⟩

/-- `copy` of some bytes to the storage from `position` on. -/
def copyTo (vector : CharVector) (position : Nat) (bytes : Bytes) : CharVector :=
  ⟨vector.storage.take position ++ bytes ++ vector.storage.drop (position + bytes.length),
    vector.size, by
      have := vector.size_le
      simp only [List.length_append, List.length_take, List.length_drop]
      omega⟩

/-- The bytes of the storage from `first` up to `last`. -/
def range (vector : CharVector) (first last : Nat) : Bytes :=
  (vector.storage.drop first).take (last - first)

theorem range_getElem? (vector : CharVector) (first last index : Nat) :
    (vector.range first last)[index]? =
      if index < last - first then vector.storage[first + index]? else none := by
  simp only [range, List.getElem?_take, List.getElem?_drop]

@[simp]
theorem range_length (vector : CharVector) (first last : Nat) :
    (vector.range first last).length = min (last - first) (vector.capacity - first) := by
  simp [range, capacity]

@[simp]
theorem range_self (vector : CharVector) (position : Nat) :
    vector.range position position = [] := by
  simp [range]

/-- Two vectors show the same range exactly when they agree on every cell of it. -/
theorem range_eq_iff (left right : CharVector) (first last : Nat) :
    left.range first last = right.range first last ↔
      ∀ index, index < last → first ≤ index →
        left.storage[index]? = right.storage[index]? := by
  constructor
  · intro same index below above
    have entry := congrArg (fun bytes : Bytes => bytes[index - first]?) same
    simp only [range_getElem?, show index - first < last - first by omega, if_true,
      show first + (index - first) = index by omega] at entry
    exact entry
  · intro agree
    apply List.ext_getElem?
    intro index
    rw [range_getElem?, range_getElem?]
    split
    · exact agree (first + index) (by omega) (by omega)
    · rfl

/-- Dropping from a range moves its first position. -/
theorem range_drop (vector : CharVector) (first last count : Nat) :
    (vector.range first last).drop count = vector.range (first + count) last := by
  rw [range, range, List.drop_take, List.drop_drop, Nat.sub_sub]

/-- `copyTo` keeps the capacity when the bytes fit. -/
theorem copyTo_capacity (vector : CharVector) {position : Nat} {bytes : Bytes}
    (fits : position + bytes.length ≤ vector.capacity) :
    (vector.copyTo position bytes).capacity = vector.capacity := by
  simp only [capacity, copyTo, List.length_append, List.length_take, List.length_drop] at fits ⊢
  omega

/-- A range that ends where the copied bytes end is its old part followed by these bytes. -/
theorem range_copyTo (vector : CharVector) {first position : Nat} {bytes : Bytes}
    (ordered : first ≤ position) (fits : position + bytes.length ≤ vector.capacity) :
    (vector.copyTo position bytes).range first (position + bytes.length) =
      vector.range first position ++ bytes := by
  simp only [capacity] at fits
  have prefixLength : (vector.storage.take position).length = position := by
    rw [List.length_take]
    omega
  have written : (vector.copyTo position bytes).storage.take (position + bytes.length) =
      vector.storage.take position ++ bytes := by
    simp only [copyTo]
    rw [List.take_append_of_le_length (by simp only [List.length_append, prefixLength]; omega)]
    rw [List.take_of_length_le (by simp only [List.length_append, prefixLength]; omega)]
  rw [range, range, ← List.drop_take, written, List.drop_append_of_le_length (by omega),
    List.drop_take]

/-- Copying nothing changes nothing. -/
@[simp]
theorem copyTo_nil (vector : CharVector) (position : Nat) : vector.copyTo position [] = vector := by
  cases vector
  simp [copyTo]

/-- Above the capacity `resize` reallocates. -/
theorem resize_storage (vector : CharVector) {count : Nat} (above : vector.capacity < count) :
    (vector.resize count).storage = vector.storage.take vector.size ++
      List.replicate (vector.grownCapacity count - vector.size) 0 := by
  have sizeLe := vector.size_le
  simp only [capacity] at above
  unfold resize
  rw [dif_neg (show ¬ count ≤ vector.size by omega),
    dif_neg (show ¬ count ≤ vector.capacity by simp only [capacity]; omega)]

/-- Above the capacity `resize` allocates the grown capacity. -/
theorem resize_capacity (vector : CharVector) {count : Nat} (above : vector.capacity < count) :
    (vector.resize count).capacity = vector.grownCapacity count := by
  have sizeLe := vector.size_le
  rw [capacity, resize_storage vector above]
  simp only [List.length_append, List.length_take, List.length_replicate, grownCapacity]
  omega

theorem resize_size (vector : CharVector) (count : Nat) : (vector.resize count).size = count := by
  unfold resize
  split
  · rfl
  · split <;> rfl

/-- Above the capacity `resize` keeps the cells below `size()` and zeroes all others. -/
theorem resize_storage_getElem? (vector : CharVector) {count index : Nat}
    (above : vector.capacity < count) (inside : index < vector.grownCapacity count) :
    (vector.resize count).storage[index]? =
      if index < vector.size then vector.storage[index]? else some 0 := by
  have sizeLe := vector.size_le
  have taken : (vector.storage.take vector.size).length = vector.size := by
    rw [List.length_take]
    omega
  rw [resize_storage vector above]
  split
  · rw [List.getElem?_append_left (by omega), List.getElem?_take_of_lt]
    assumption
  · rw [List.getElem?_append_right (by omega), taken, List.getElem?_replicate, if_pos (by omega)]

/-- A reallocation keeps a range exactly when the cells it does not carry over were zero. -/
theorem range_resize_iff (vector : CharVector) {count first last : Nat}
    (above : vector.capacity < count) (inside : last ≤ vector.capacity) :
    (vector.resize count).range first last = vector.range first last ↔
      ∀ index, index < last → max first vector.size ≤ index →
        vector.storage[index]? = some 0 := by
  have := vector.size_le
  rw [range_eq_iff]
  have grown : vector.capacity < vector.grownCapacity count := by
    unfold grownCapacity
    omega
  constructor
  · intro agree index below above'
    have entry := agree index below (by omega)
    rw [resize_storage_getElem? vector above (by omega), if_neg (by omega)] at entry
    exact entry.symm
  · intro zero index below atLeast
    rw [resize_storage_getElem? vector above (by omega)]
    split
    · rfl
    · exact (zero index below (by omega)).symm

end CharVector

/-- `Buffer::init_capa` -/
def initCapa : Nat := 1024

structure Buffer where
  leftReadPtr : Nat
  rightWritePtr : Nat
  buf : CharVector

namespace Buffer

/-- `Buffer::Buffer` -/
def new : Buffer := ⟨0, 0, .ofSize initCapa⟩

def getSize (buffer : Buffer) : Nat := buffer.rightWritePtr - buffer.leftReadPtr

/-- The bytes that `peek()` shows. -/
def peek (buffer : Buffer) : Bytes :=
  buffer.buf.range buffer.leftReadPtr buffer.rightWritePtr

/-- The room between the write position and the end of the storage. -/
def remainRight (buffer : Buffer) : Nat := buffer.buf.capacity - buffer.rightWritePtr

/-- The first half of `push_from`: double the capacity when less than `init_capa / 2` is left. -/
def makeRoom (buffer : Buffer) : Buffer :=
  if buffer.remainRight < initCapa / 2 then
    { buffer with buf := buffer.buf.resize (buffer.buf.capacity * 2) }
  else buffer

/-- The number of bytes `push_from` asks `read` for. -/
def offeredRoom (buffer : Buffer) : Nat := buffer.makeRoom.remainRight

/-- `push_from` when `read` answers `result`. -/
def pushFrom (buffer : Buffer) (result : ReadResult) : Int × Buffer :=
  let roomy := buffer.makeRoom
  if 0 < result.count then
    (result.count,
      { roomy with
        buf := roomy.buf.copyTo roomy.rightWritePtr result.bytes
        rightWritePtr := roomy.rightWritePtr + result.bytes.length })
  else (result.count, roomy)

/-- `pop_to` when `write`, offered the bytes of `peek`, answers `result`. -/
def popTo (buffer : Buffer) (result : WriteResult) : Int × Buffer :=
  if 0 < result.count then
    (result.count, { buffer with leftReadPtr := buffer.leftReadPtr + result.accepted })
  else (result.count, buffer)

/-- `pop(len)`: the check uses `len`, the move uses the whole unread size. -/
def popLen (buffer : Buffer) (len : Int) : Except Fault Buffer :=
  if 0 ≤ len ∧ len ≤ buffer.getSize then
    .ok { buffer with leftReadPtr := buffer.leftReadPtr + buffer.getSize }
  else .error .assertion

/-- `pop()` -/
def pop (buffer : Buffer) : Except Fault Buffer := buffer.popLen buffer.getSize

def bufMoveHead (buffer : Buffer) : Buffer where
  buf := buffer.buf.copyTo 0 buffer.peek
  leftReadPtr := 0
  rightWritePtr := buffer.getSize

def bufInsertTail (buffer : Buffer) (str : Bytes) : Buffer :=
  { buffer with
    buf := buffer.buf.copyTo buffer.rightWritePtr str
    rightWritePtr := buffer.rightWritePtr + str.length }

/-- `push` enlarges the vector when the free room on both sides is too small. -/
def pushGrows (buffer : Buffer) (str : Bytes) : Prop :=
  buffer.leftReadPtr + buffer.remainRight < str.length

/-- The extra room `push` asks for: `n - remain_left + remain_right` in the source. -/
def pushAdd (buffer : Buffer) (str : Bytes) : Nat :=
  str.length - buffer.leftReadPtr + buffer.remainRight

def push (buffer : Buffer) (str : Bytes) : Buffer :=
  if str.length ≤ buffer.remainRight then
    buffer.bufInsertTail str
  else if str.length ≤ buffer.leftReadPtr + buffer.remainRight then
    buffer.bufMoveHead.bufInsertTail str
  else
    let grown := { buffer with
      buf := buffer.buf.resize (buffer.buf.capacity + buffer.pushAdd str) }
    grown.bufMoveHead.bufInsertTail str

end Buffer

end SimpleWebServer.Base
