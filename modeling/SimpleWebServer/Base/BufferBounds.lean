import Mathlib.Algebra.GroupWithZero.Nat
import SimpleWebServer.Base.BufferFifo
import SimpleWebServer.Lib.Runs

/-!
# The bounds of the buffer

The positions of `Buffer` are `int`s, the room behind them is computed in `size_t`, and
the storage is addressed through both.  Here every operation computes as the machine does,
with values that wrap, and notes each `size_t` result and each range of bytes it touches.
Below `2^31` bytes nothing wraps: the operations are those on unbounded positions.
-/

namespace SimpleWebServer.Base

open SimpleWebServer.Lib.Runs

/-- What a `size_t` holds of an exact result. -/
def sizeT (exact : Int) : Nat := (exact % 18446744073709551616).toNat

/-- What an `int` holds of an exact result. -/
def int32 (exact : Int) : Int := (exact + 2147483648) % 4294967296 - 2147483648

theorem sizeT_of_fits {exact : Int} (nonneg : 0 ≤ exact) (fits : exact < 18446744073709551616) :
    (sizeT exact : Int) = exact := by
  unfold sizeT
  omega

theorem int32_of_fits {exact : Int} (nonneg : 0 ≤ exact) (fits : exact < 2147483648) :
    int32 exact = exact := by
  unfold int32
  omega

/-- What an operation of the buffer leaves for the record. -/
inductive BufferNote where
  /-- a `size_t` result before it wraps -/
  | unsigned (exact : Int)
  /-- the room that `push_from` offers -/
  | offered (room : Nat)
  /-- the bytes from `first` up to `last`, read or written in a storage of `capacity` bytes -/
  | touched (first last : Int) (capacity : Nat)
  deriving DecidableEq, Repr

/-- The result does not wrap, the room is enough, every byte is one of the storage. -/
def BufferNote.Safe : BufferNote → Prop
  | .unsigned exact => 0 ≤ exact ∧ exact < 18446744073709551616
  | .offered room => initCapa / 2 ≤ room
  | .touched first last capacity => ∀ index, first ≤ index → index < last →
      0 ≤ index ∧ index < capacity

/-- A buffer as the machine keeps it, with the notes of its operations. -/
structure WordBuffer where
  leftReadPtr : Int
  rightWritePtr : Int
  buf : CharVector
  notes : List BufferNote

/-- One call of the class with the answer of its system call. -/
inductive BufferCall where
  | push (str : Bytes)
  | pushFrom (result : ReadResult)
  | popTo (result : WriteResult)
  | pop
  | popLen (len : Int)
  deriving DecidableEq, Repr

/-- The bytes that enter with a call. -/
def BufferCall.entering : BufferCall → Bytes
  | .push str => str
  | .pushFrom result => result.bytes
  | _ => []

namespace WordBuffer

/-- `Buffer::Buffer` -/
def new : WordBuffer := ⟨0, 0, .ofSize initCapa, []⟩

/-- `right_write_ptr - left_read_ptr` -/
def getSize (buffer : WordBuffer) : Int := int32 (buffer.rightWritePtr - buffer.leftReadPtr)

/-- The exact `buf.capacity() - right_write_ptr`. -/
def exactRight (buffer : WordBuffer) : Int := buffer.buf.capacity - buffer.rightWritePtr

def note (buffer : WordBuffer) (notes : List BufferNote) : WordBuffer :=
  { buffer with notes := buffer.notes ++ notes }

/-- `buf.resize(count)` with an exact count. -/
def resize (buffer : WordBuffer) (count : Int) : WordBuffer :=
  { buffer.note [.unsigned count] with buf := buffer.buf.resize (sizeT count) }

def bufMoveHead (buffer : WordBuffer) : WordBuffer :=
  let left := buffer.leftReadPtr
  let right := buffer.rightWritePtr
  { buffer.note [.touched left right buffer.buf.capacity,
      .touched 0 (right - left) buffer.buf.capacity] with
    buf := buffer.buf.copyTo 0 (buffer.buf.range left.toNat right.toNat)
    leftReadPtr := 0
    rightWritePtr := buffer.getSize }

def bufInsertTail (buffer : WordBuffer) (str : Bytes) : WordBuffer :=
  let right := buffer.rightWritePtr
  { buffer.note [.touched right (right + str.length) buffer.buf.capacity] with
    buf := buffer.buf.copyTo right.toNat str
    rightWritePtr := int32 (right + str.length) }

/-- The exact `n - remain_left + remain_right`, once its difference is a `size_t`. -/
def exactAdd (buffer : WordBuffer) (str : Bytes) : Int :=
  sizeT (str.length - buffer.leftReadPtr) + sizeT buffer.exactRight

/-- `buf.resize(buf.capacity() + add)` -/
def growBy (buffer : WordBuffer) (str : Bytes) : WordBuffer :=
  (buffer.note
    [.unsigned (str.length - buffer.leftReadPtr), .unsigned (buffer.exactAdd str)]).resize
    (buffer.buf.capacity + sizeT (buffer.exactAdd str))

def push (buffer : WordBuffer) (str : Bytes) : WordBuffer :=
  let remainRight := sizeT buffer.exactRight
  let noted := buffer.note [.unsigned buffer.exactRight]
  if str.length ≤ remainRight then noted.bufInsertTail str
  else if str.length ≤ sizeT (buffer.leftReadPtr + remainRight) then
    noted.bufMoveHead.bufInsertTail str
  else (noted.growBy str).bufMoveHead.bufInsertTail str

/-- The first half of `push_from`, up to the system call. -/
def makeRoom (buffer : WordBuffer) : WordBuffer :=
  let noted := buffer.note [.unsigned buffer.exactRight]
  if sizeT buffer.exactRight < initCapa / 2 then
    let grown := noted.resize (buffer.buf.capacity * 2)
    grown.note [.unsigned grown.exactRight]
  else noted

/-- The number of bytes `push_from` asks `read` for. -/
def offeredRoom (buffer : WordBuffer) : Nat := sizeT buffer.makeRoom.exactRight

/-- `push_from` when `read`, which may use all the room, answers `result`. -/
def pushFrom (buffer : WordBuffer) (result : ReadResult) : WordBuffer :=
  let right := buffer.makeRoom.rightWritePtr
  let called := buffer.makeRoom.note [.offered buffer.offeredRoom,
    .touched right (right + buffer.offeredRoom) buffer.makeRoom.buf.capacity]
  let n := int32 result.count
  if 0 < n then
    { called with
      buf := called.buf.copyTo right.toNat result.bytes, rightWritePtr := int32 (right + n) }
  else called

/-- `pop_to` when `write` answers `result`. -/
def popTo (buffer : WordBuffer) (result : WriteResult) : WordBuffer :=
  let left := buffer.leftReadPtr
  let called := buffer.note
    [.touched left (left + sizeT buffer.getSize) buffer.buf.capacity]
  let n := int32 result.count
  if 0 < n then { called with leftReadPtr := int32 (left + n) } else called

/-- `pop(len)` -/
def popLen (buffer : WordBuffer) (len : Int) : Except Fault WordBuffer :=
  let n := sizeT buffer.getSize
  if 0 ≤ len ∧ len ≤ n then
    .ok { buffer with leftReadPtr := int32 (buffer.leftReadPtr + n) }
  else .error .assertion

/-- `pop()` -/
def pop (buffer : WordBuffer) : Except Fault WordBuffer :=
  buffer.popLen (int32 (sizeT buffer.getSize))

/--
One call.  The system calls store or accept at most what they are offered, and `pop(len)` is
called with a length that passes its assertion.
-/
def step (buffer : WordBuffer) : BufferCall → Option WordBuffer
  | .push str => some (buffer.push str)
  | .pushFrom result =>
      if result.bytes.length ≤ buffer.offeredRoom then some (buffer.pushFrom result) else none
  | .popTo result =>
      if result.accepted ≤ buffer.getSize then some (buffer.popTo result) else none
  | .pop => buffer.pop.toOption
  | .popLen len => (buffer.popLen len).toOption

end WordBuffer

/-- The same call on unbounded positions. -/
def Buffer.call (buffer : Buffer) : BufferCall → Option Buffer
  | .push str => some (buffer.push str)
  | .pushFrom result =>
      if result.bytes.length ≤ buffer.offeredRoom then some (buffer.pushFrom result).2 else none
  | .popTo result =>
      if result.accepted ≤ buffer.getSize then some (buffer.popTo result).2 else none
  | .pop => buffer.pop.toOption
  | .popLen len => (buffer.popLen len).toOption

namespace WordBuffer

/-- The unbounded positions behind the machine's. -/
def exact (buffer : WordBuffer) : Buffer :=
  ⟨buffer.leftReadPtr.toNat, buffer.rightWritePtr.toNat, buffer.buf⟩

/-- Ordered positions that fit their `int`s, in a storage that is not too large, and safe notes. -/
structure InBounds (buffer : WordBuffer) : Prop where
  nonneg : 0 ≤ buffer.leftReadPtr
  ordered : buffer.leftReadPtr ≤ buffer.rightWritePtr
  inside : buffer.rightWritePtr ≤ buffer.buf.capacity
  fits : buffer.rightWritePtr < 2147483648
  initial : initCapa ≤ buffer.buf.capacity
  storable : buffer.buf.capacity < 8589934592
  safe : ∀ note ∈ buffer.notes, note.Safe

theorem new_inBounds : WordBuffer.new.InBounds where
  nonneg := by decide
  ordered := by decide
  inside := by simp [new]
  fits := by decide
  initial := Buffer.new_wf.initial
  storable := by
    change (List.replicate initCapa 0).length < _
    rw [List.length_replicate]
    decide
  safe := by simp [new]

/-- The `int` that `read` returns is the number of bytes it has stored, or none were. -/
theorem read_cases {result : ReadResult} (short : result.bytes.length < 2147483648) :
    0 < int32 result.count ∧ int32 result.count = result.bytes.length ∨
      ¬ 0 < int32 result.count ∧ result.bytes = [] := by
  cases result with
  | error errno => exact .inr ⟨show ¬ 0 < int32 (-1) by decide, rfl⟩
  | data bytes =>
      have length : int32 (ReadResult.data bytes).count = bytes.length :=
        int32_of_fits (Int.natCast_nonneg _) (Int.ofNat_lt.mpr short)
      rw [length]
      rcases Nat.eq_zero_or_pos bytes.length with none | some
      · exact .inr ⟨by rw [none]; decide, List.length_eq_zero_iff.mp none⟩
      · exact .inl ⟨Int.natCast_pos.mpr some, rfl⟩

section
variable {buffer : WordBuffer} (bounds : buffer.InBounds)
include bounds

theorem InBounds.wf : buffer.exact.Wf := by
  have nonneg := bounds.nonneg
  have ordered := bounds.ordered
  have inside := bounds.inside
  refine ⟨?_, ?_, bounds.initial⟩
  · change buffer.leftReadPtr.toNat ≤ buffer.rightWritePtr.toNat
    omega
  · change buffer.rightWritePtr.toNat ≤ buffer.buf.capacity
    omega

theorem InBounds.note {notes : List BufferNote} (safe : ∀ note ∈ notes, note.Safe) :
    (buffer.note notes).InBounds where
  nonneg := bounds.nonneg
  ordered := bounds.ordered
  inside := bounds.inside
  fits := bounds.fits
  initial := bounds.initial
  storable := bounds.storable
  safe := by
    intro note member
    rcases List.mem_append.mp member with old | new
    · exact bounds.safe note old
    · exact safe note new

theorem InBounds.getSize_eq : buffer.getSize = buffer.rightWritePtr - buffer.leftReadPtr := by
  have nonneg := bounds.nonneg
  have ordered := bounds.ordered
  have fits := bounds.fits
  exact int32_of_fits (by omega) (by omega)

theorem InBounds.exact_getSize : (buffer.exact.getSize : Int) = buffer.getSize := by
  have nonneg := bounds.nonneg
  have ordered := bounds.ordered
  rw [bounds.getSize_eq]
  change ((buffer.rightWritePtr.toNat - buffer.leftReadPtr.toNat : Nat) : Int) = _
  omega

theorem InBounds.exactRight_safe : (BufferNote.unsigned buffer.exactRight).Safe := by
  have nonneg := bounds.nonneg
  have ordered := bounds.ordered
  have inside := bounds.inside
  have storable := bounds.storable
  change 0 ≤ buffer.exactRight ∧ buffer.exactRight < _
  unfold exactRight
  omega

theorem InBounds.exact_remainRight : sizeT buffer.exactRight = buffer.exact.remainRight := by
  have room := sizeT_of_fits bounds.exactRight_safe.1 bounds.exactRight_safe.2
  have nonneg := bounds.nonneg
  have ordered := bounds.ordered
  have inside := bounds.inside
  unfold exactRight at room ⊢
  change _ = buffer.buf.capacity - buffer.rightWritePtr.toNat
  omega

/-! ## The parts of `push` -/

theorem InBounds.bufMoveHead :
    buffer.bufMoveHead.InBounds ∧ buffer.bufMoveHead.exact = buffer.exact.bufMoveHead := by
  have nonneg := bounds.nonneg
  have ordered := bounds.ordered
  have inside := bounds.inside
  have fits := bounds.fits
  have size := bounds.getSize_eq
  have capacity : buffer.bufMoveHead.buf.capacity = buffer.buf.capacity :=
    bounds.wf.bufMoveHead_capacity
  have touched : ∀ note ∈ [BufferNote.touched buffer.leftReadPtr buffer.rightWritePtr
        buffer.buf.capacity,
      .touched 0 (buffer.rightWritePtr - buffer.leftReadPtr) buffer.buf.capacity],
      note.Safe := by
    simp only [List.mem_cons, List.not_mem_nil, or_false, forall_eq_or_imp, forall_eq,
      BufferNote.Safe]
    constructor <;> intro index above below <;> omega
  refine ⟨⟨Int.le_refl 0, ?_, ?_, ?_, ?_, ?_, (bounds.note touched).safe⟩, ?_⟩
  · change 0 ≤ buffer.getSize
    omega
  · rw [capacity]
    change buffer.getSize ≤ _
    omega
  · change buffer.getSize < _
    omega
  · rw [capacity]
    exact bounds.initial
  · rw [capacity]
    exact bounds.storable
  · change (⟨0, buffer.getSize.toNat, _⟩ : Buffer) = ⟨0, buffer.exact.getSize, _⟩
    rw [← bounds.exact_getSize, Int.toNat_natCast]
    rfl

theorem InBounds.bufInsertTail {str : Bytes} (room : str.length ≤ buffer.exact.remainRight)
    (short : (buffer.exact.bufInsertTail str).rightWritePtr < 2147483648) :
    (buffer.bufInsertTail str).InBounds ∧
      (buffer.bufInsertTail str).exact = buffer.exact.bufInsertTail str := by
  have nonneg := bounds.nonneg
  have ordered := bounds.ordered
  have inside := bounds.inside
  change buffer.rightWritePtr.toNat + str.length < _ at short
  change str.length ≤ buffer.buf.capacity - buffer.rightWritePtr.toNat at room
  have position : int32 (buffer.rightWritePtr + str.length) =
      buffer.rightWritePtr + str.length := int32_of_fits (by omega) (by omega)
  have capacity : (buffer.bufInsertTail str).buf.capacity = buffer.buf.capacity :=
    buffer.buf.copyTo_capacity (by omega)
  have touched : ∀ note ∈ [BufferNote.touched buffer.rightWritePtr
      (buffer.rightWritePtr + str.length) buffer.buf.capacity], note.Safe := by
    simp only [List.mem_singleton, forall_eq, BufferNote.Safe]
    intro index above below
    omega
  refine ⟨⟨nonneg, ?_, ?_, ?_, ?_, ?_, (bounds.note touched).safe⟩, ?_⟩
  · change buffer.leftReadPtr ≤ int32 (buffer.rightWritePtr + str.length)
    omega
  · rw [capacity]
    change int32 (buffer.rightWritePtr + str.length) ≤ _
    omega
  · change int32 (buffer.rightWritePtr + str.length) < _
    omega
  · rw [capacity]
    exact bounds.initial
  · rw [capacity]
    exact bounds.storable
  · change (⟨_, (int32 (buffer.rightWritePtr + str.length)).toNat, _⟩ : Buffer) =
      ⟨_, buffer.rightWritePtr.toNat + str.length, _⟩
    have moved : (int32 (buffer.rightWritePtr + str.length)).toNat =
        buffer.rightWritePtr.toNat + str.length := by omega
    rw [moved]
    rfl

theorem InBounds.resize {count : Int} (above : buffer.buf.capacity < count)
    (small : count < 8589934592) (double : 2 * buffer.buf.capacity < 8589934592) :
    (buffer.resize count).InBounds ∧
      (buffer.resize count).exact = buffer.exact.regrown count.toNat := by
  have inside := bounds.inside
  have initial := bounds.initial
  have sizeLe : buffer.buf.size ≤ buffer.buf.capacity := buffer.buf.size_le
  have counted : sizeT count = count.toNat := by
    have exact : (sizeT count : Int) = count := sizeT_of_fits (by omega) (by omega)
    omega
  have capacity : (buffer.resize count).buf.capacity =
      buffer.buf.size + max buffer.buf.size (count.toNat - buffer.buf.size) := by
    change (buffer.buf.resize (sizeT count)).capacity = _
    rw [counted, CharVector.resize_capacity _ (by omega), CharVector.grownCapacity]
  have noted : ∀ note ∈ [BufferNote.unsigned count], note.Safe := by
    simp only [List.mem_singleton, forall_eq, BufferNote.Safe]
    omega
  refine ⟨⟨bounds.nonneg, bounds.ordered, ?_, bounds.fits, ?_, ?_, (bounds.note noted).safe⟩, ?_⟩
  · rw [capacity]
    change buffer.rightWritePtr ≤ _
    omega
  · rw [capacity]
    omega
  · rw [capacity]
    omega
  · change (⟨_, _, buffer.buf.resize (sizeT count)⟩ : Buffer) = _
    rw [counted]
    rfl

theorem InBounds.growBy {str : Bytes} (grows : buffer.exact.pushGrows str)
    (short : buffer.exact.getSize + str.length < 2147483648) :
    (buffer.growBy str).InBounds ∧
      (buffer.growBy str).exact =
        buffer.exact.regrown (buffer.buf.capacity + buffer.exact.pushAdd str) := by
  have nonneg := bounds.nonneg
  have ordered := bounds.ordered
  have inside := bounds.inside
  have size := bounds.getSize_eq
  rw [← bounds.exact_getSize] at size
  have room := bounds.exact_remainRight
  have free : buffer.exact.remainRight = buffer.buf.capacity - buffer.rightWritePtr.toNat := rfl
  change buffer.leftReadPtr.toNat + buffer.exact.remainRight < str.length at grows
  have difference : (sizeT (str.length - buffer.leftReadPtr) : Int) =
      str.length - buffer.leftReadPtr := sizeT_of_fits (by omega) (by omega)
  have add : buffer.exactAdd str = buffer.exact.pushAdd str := by
    unfold exactAdd
    rw [difference, room]
    change _ = ((str.length - buffer.leftReadPtr.toNat + buffer.exact.remainRight : Nat) : Int)
    omega
  have added : buffer.exact.pushAdd str =
      str.length - buffer.leftReadPtr.toNat + buffer.exact.remainRight := rfl
  have sum : (sizeT (buffer.exactAdd str) : Int) = buffer.exactAdd str :=
    sizeT_of_fits (by omega) (by omega)
  have noted : ∀ note ∈ [BufferNote.unsigned (str.length - buffer.leftReadPtr),
      .unsigned (buffer.exactAdd str)], note.Safe := by
    simp only [List.mem_cons, List.not_mem_nil, or_false, forall_eq_or_imp, forall_eq,
      BufferNote.Safe]
    omega
  have above : (buffer.buf.capacity : Int) < buffer.buf.capacity + sizeT (buffer.exactAdd str) := by
    omega
  have grown := (bounds.note noted).resize above (by omega)
    (show 2 * buffer.buf.capacity < _ by omega)
  have count : ((buffer.buf.capacity : Int) + sizeT (buffer.exactAdd str)).toNat =
      buffer.buf.capacity + buffer.exact.pushAdd str := by omega
  rw [count] at grown
  exact grown

/-- A push whose end fits an `int` is the push on unbounded positions. -/
theorem InBounds.push {str : Bytes}
    (short : (buffer.exact.push str).rightWritePtr < 2147483648) :
    (buffer.push str).InBounds ∧ (buffer.push str).exact = buffer.exact.push str := by
  have nonneg := bounds.nonneg
  have ordered := bounds.ordered
  have inside := bounds.inside
  have storable := bounds.storable
  have room : sizeT buffer.exactRight = buffer.buf.capacity - buffer.rightWritePtr.toNat :=
    bounds.exact_remainRight
  have noted : ∀ note ∈ [BufferNote.unsigned buffer.exactRight], note.Safe := by
    simpa using bounds.exactRight_safe
  have start := bounds.note noted
  have both : sizeT (buffer.leftReadPtr + sizeT buffer.exactRight) =
      buffer.exact.leftReadPtr + buffer.exact.remainRight := by
    have sum : (sizeT (buffer.leftReadPtr + sizeT buffer.exactRight) : Int) =
        buffer.leftReadPtr + sizeT buffer.exactRight := sizeT_of_fits (by omega) (by omega)
    rw [← bounds.exact_remainRight]
    change _ = buffer.leftReadPtr.toNat + _
    omega
  have enough := (bounds.wf.pushRoom str).2
  rw [Buffer.push_eq] at short ⊢
  unfold Buffer.pushRoom at short enough ⊢
  unfold WordBuffer.push
  dsimp only
  rw [both, bounds.exact_remainRight]
  by_cases right : str.length ≤ buffer.exact.remainRight
  · rw [if_pos right] at short enough
    rw [if_pos right, if_pos right]
    exact start.bufInsertTail enough short
  · rw [if_neg right] at short enough
    rw [if_neg right, if_neg right]
    by_cases free : str.length ≤ buffer.exact.leftReadPtr + buffer.exact.remainRight
    · rw [if_pos free] at short enough
      rw [if_pos free, if_pos free]
      obtain ⟨moved, same⟩ := start.bufMoveHead
      change _ = buffer.exact.bufMoveHead at same
      rw [← same] at short enough ⊢
      exact moved.bufInsertTail enough short
    · rw [if_neg free] at short enough
      rw [if_neg free, if_neg free]
      have grows : buffer.exact.pushGrows str := Nat.lt_of_not_le free
      obtain ⟨grown, regrown⟩ := start.growBy grows short
      obtain ⟨moved, same⟩ := grown.bufMoveHead
      rw [regrown] at same
      change _ = (buffer.exact.regrown (buffer.exact.buf.capacity +
        buffer.exact.pushAdd str)).bufMoveHead at same
      rw [← same] at short enough ⊢
      exact moved.bufInsertTail enough short

/-! ## `push_from`, `pop_to` and `pop` -/

/-- `push_from` always finds half of `init_capa`. -/
theorem InBounds.makeRoom :
    buffer.makeRoom.InBounds ∧ buffer.makeRoom.exact = buffer.exact.makeRoom ∧
      initCapa / 2 ≤ buffer.offeredRoom := by
  have nonneg := bounds.nonneg
  have ordered := bounds.ordered
  have inside := bounds.inside
  have fits := bounds.fits
  have initial := bounds.initial
  have room : sizeT buffer.exactRight = buffer.buf.capacity - buffer.rightWritePtr.toNat :=
    bounds.exact_remainRight
  have noted : ∀ note ∈ [BufferNote.unsigned buffer.exactRight], note.Safe := by
    simpa using bounds.exactRight_safe
  have start := bounds.note noted
  unfold offeredRoom WordBuffer.makeRoom Buffer.makeRoom
  dsimp only
  rw [← bounds.exact_remainRight]
  by_cases full : sizeT buffer.exactRight < initCapa / 2
  · rw [if_pos full, if_pos full]
    unfold initCapa at full initial
    have above : (buffer.buf.capacity : Int) < buffer.buf.capacity * 2 := by omega
    have small : (buffer.buf.capacity : Int) * 2 < 8589934592 := by omega
    obtain ⟨grown, same⟩ := start.resize above small (show 2 * buffer.buf.capacity < _ by omega)
    have count : ((buffer.buf.capacity : Int) * 2).toNat = buffer.buf.capacity * 2 := by omega
    rw [count] at same
    have safe : ∀ note ∈ [BufferNote.unsigned
        ((buffer.note [.unsigned buffer.exactRight]).resize
          (buffer.buf.capacity * 2)).exactRight], note.Safe := by
      simpa using grown.exactRight_safe
    refine ⟨grown.note safe, same, ?_⟩
    have reached : buffer.buf.capacity * 2 ≤
        (buffer.exact.regrown (buffer.buf.capacity * 2)).buf.capacity :=
      buffer.exact.le_regrown_capacity bounds.wf.capacity_lt_double
    calc initCapa / 2
        ≤ (buffer.exact.regrown (buffer.buf.capacity * 2)).remainRight := by
          change 1024 / 2 ≤ _ - buffer.rightWritePtr.toNat
          omega
      _ = _ := congrArg Buffer.remainRight same.symm
      _ = _ := grown.exact_remainRight.symm
  · rw [if_neg full, if_neg full]
    exact ⟨start, rfl, Nat.le_of_not_lt full⟩

theorem InBounds.exact_offeredRoom : buffer.offeredRoom = buffer.exact.offeredRoom := by
  obtain ⟨roomy, same, -⟩ := bounds.makeRoom
  rw [Buffer.offeredRoom, ← same]
  exact roomy.exact_remainRight

/-- A `push_from` whose end fits an `int` is the one on unbounded positions. -/
theorem InBounds.pushFrom {result : ReadResult}
    (stored : result.bytes.length ≤ buffer.exact.offeredRoom)
    (short : (buffer.exact.pushFrom result).2.rightWritePtr < 2147483648) :
    (buffer.pushFrom result).InBounds ∧
      (buffer.pushFrom result).exact = (buffer.exact.pushFrom result).2 := by
  obtain ⟨roomy, same, enough⟩ := bounds.makeRoom
  have room : (buffer.offeredRoom : Int) = buffer.makeRoom.exactRight :=
    sizeT_of_fits roomy.exactRight_safe.1 roomy.exactRight_safe.2
  have nonneg := roomy.nonneg
  have ordered := roomy.ordered
  have touched : ∀ note ∈ [BufferNote.offered buffer.offeredRoom,
      .touched buffer.makeRoom.rightWritePtr
        (buffer.makeRoom.rightWritePtr + buffer.offeredRoom) buffer.makeRoom.buf.capacity],
      note.Safe := by
    simp only [List.mem_cons, List.not_mem_nil, or_false, forall_eq_or_imp, forall_eq,
      BufferNote.Safe]
    refine ⟨enough, fun index above below => ?_⟩
    unfold exactRight at room
    omega
  have called := roomy.note touched
  rw [Buffer.pushFrom_eq, ← same] at short ⊢
  rw [Buffer.offeredRoom, ← same] at stored
  obtain ⟨inserted, tail⟩ := called.bufInsertTail stored short
  change buffer.makeRoom.rightWritePtr.toNat + result.bytes.length < _ at short
  unfold WordBuffer.pushFrom
  dsimp only
  have counted : result.bytes.length < 2147483648 := by omega
  rcases read_cases counted with ⟨some, length⟩ | ⟨none, empty⟩
  · rw [if_pos some, length]
    exact ⟨{ inserted with safe := called.safe }, tail⟩
  · rw [if_neg none, empty]
    refine ⟨called, ?_⟩
    simp [Buffer.bufInsertTail]
    rfl

/-- Moving the read position up to the write position at most. -/
theorem InBounds.readTo {left : Int} (nonneg : 0 ≤ left) (ordered : left ≤ buffer.rightWritePtr) :
    { buffer with leftReadPtr := left }.InBounds :=
  { bounds with nonneg := nonneg, ordered := ordered }

theorem InBounds.popTo {result : WriteResult} (taken : result.accepted ≤ buffer.exact.getSize) :
    (buffer.popTo result).InBounds ∧
      (buffer.popTo result).exact = (buffer.exact.popTo result).2 := by
  have nonneg := bounds.nonneg
  have ordered := bounds.ordered
  have inside := bounds.inside
  have fits := bounds.fits
  have size := bounds.getSize_eq
  have sameSize := bounds.exact_getSize
  have offered : (sizeT buffer.getSize : Int) = buffer.getSize :=
    sizeT_of_fits (by omega) (by omega)
  have touched : ∀ note ∈ [BufferNote.touched buffer.leftReadPtr
      (buffer.leftReadPtr + sizeT buffer.getSize) buffer.buf.capacity], note.Safe := by
    simp only [List.mem_singleton, forall_eq, BufferNote.Safe]
    intro index above below
    omega
  have called := bounds.note touched
  have counted : 0 < int32 result.count ∧ int32 result.count = result.accepted ∨
      ¬ 0 < int32 result.count ∧ result.accepted = 0 := by
    cases result with
    | error errno => exact .inr ⟨show ¬ 0 < int32 (-1) by decide, rfl⟩
    | wrote count =>
        change count ≤ buffer.exact.getSize at taken
        have length : int32 (WriteResult.wrote count).count = count :=
          int32_of_fits (Int.natCast_nonneg _) (show (count : Int) < _ by omega)
        rw [length]
        rcases Nat.eq_zero_or_pos count with none | some
        · exact .inr ⟨by rw [none]; decide, none⟩
        · exact .inl ⟨Int.natCast_pos.mpr some, rfl⟩
  rw [Buffer.popTo_eq]
  unfold WordBuffer.popTo
  dsimp only
  rcases counted with ⟨some, length⟩ | ⟨none, zero⟩
  · have position : int32 (buffer.leftReadPtr + result.accepted) =
        buffer.leftReadPtr + result.accepted := int32_of_fits (by omega) (by omega)
    rw [if_pos some, length, position]
    refine ⟨called.readTo (by omega) (show _ ≤ buffer.rightWritePtr by omega), ?_⟩
    change (⟨(buffer.leftReadPtr + result.accepted).toNat, _, _⟩ : Buffer) =
      ⟨buffer.leftReadPtr.toNat + result.accepted, _, _⟩
    have moved : (buffer.leftReadPtr + result.accepted).toNat =
        buffer.leftReadPtr.toNat + result.accepted := by omega
    rw [moved]
    rfl
  · rw [if_neg none, zero]
    exact ⟨called, rfl⟩

/-- `pop(len)` passes its assertion on both or on none, and then moves by the whole size. -/
theorem InBounds.popLen {len : Int} {next : WordBuffer} (taken : buffer.popLen len = .ok next) :
    next.InBounds ∧ buffer.exact.popLen len = .ok next.exact := by
  have nonneg := bounds.nonneg
  have ordered := bounds.ordered
  have fits := bounds.fits
  have size := bounds.getSize_eq
  have sameSize := bounds.exact_getSize
  have offered : (sizeT buffer.getSize : Int) = buffer.getSize :=
    sizeT_of_fits (by omega) (by omega)
  have position : int32 (buffer.leftReadPtr + sizeT buffer.getSize) = buffer.rightWritePtr := by
    have sum : buffer.leftReadPtr + sizeT buffer.getSize = buffer.rightWritePtr := by omega
    rw [sum]
    exact int32_of_fits (by omega) fits
  unfold WordBuffer.popLen at taken
  dsimp only at taken
  split at taken
  · next passed =>
      cases taken
      rw [position]
      refine ⟨bounds.readTo (by omega) (Int.le_refl _), ?_⟩
      rw [Buffer.popLen, if_pos (by omega)]
      congr 1
      change (⟨buffer.leftReadPtr.toNat + buffer.exact.getSize, _, _⟩ : Buffer) =
        ⟨buffer.rightWritePtr.toNat, _, _⟩
      have moved : buffer.leftReadPtr.toNat + buffer.exact.getSize =
          buffer.rightWritePtr.toNat := by omega
      rw [moved]
      rfl
  · cases taken

theorem InBounds.popLen_of_exact {len : Int} {after : Buffer}
    (passed : buffer.exact.popLen len = .ok after) : ∃ next, buffer.popLen len = .ok next := by
  have nonneg := bounds.nonneg
  have ordered := bounds.ordered
  have fits := bounds.fits
  have size := bounds.getSize_eq
  have sameSize := bounds.exact_getSize
  have offered : (sizeT buffer.getSize : Int) = buffer.getSize :=
    sizeT_of_fits (by omega) (by omega)
  rw [Buffer.popLen] at passed
  split at passed
  · next inside =>
      unfold WordBuffer.popLen
      dsimp only
      rw [if_pos (by omega)]
      exact ⟨_, rfl⟩
  · cases passed

theorem InBounds.pop {next : WordBuffer} (taken : buffer.pop = .ok next) :
    next.InBounds ∧ buffer.exact.pop = .ok next.exact := by
  have nonneg := bounds.nonneg
  have ordered := bounds.ordered
  have fits := bounds.fits
  have size := bounds.getSize_eq
  have offered : (sizeT buffer.getSize : Int) = buffer.getSize :=
    sizeT_of_fits (by omega) (by omega)
  have whole : int32 (sizeT buffer.getSize) = buffer.exact.getSize := by
    rw [offered, bounds.exact_getSize]
    exact int32_of_fits (by omega) (by omega)
  rw [WordBuffer.pop, whole] at taken
  exact bounds.popLen taken

end

/-! ## Runs -/

theorem toOption_eq_some {α : Type*} {outcome : Except Fault α} {value : α}
    (taken : outcome.toOption = some value) : outcome = .ok value := by
  cases outcome with
  | error fault => cases taken
  | ok found =>
      cases taken
      rfl

/--
A step of the machine is a step on unbounded positions, and when that ends at a position that
fits an `int` the machine is in bounds there.
-/
theorem InBounds.step {buffer next : WordBuffer} (bounds : buffer.InBounds) {call : BufferCall}
    (taken : buffer.step call = some next) :
    ∃ after, buffer.exact.call call = some after ∧
      (after.rightWritePtr < 2147483648 → next.InBounds ∧ next.exact = after) := by
  cases call with
  | push str =>
      cases taken
      exact ⟨_, rfl, fun short => bounds.push short⟩
  | pushFrom result =>
      obtain ⟨stored, made⟩ := of_guarded taken
      rw [bounds.exact_offeredRoom] at stored
      cases made
      exact ⟨_, if_pos stored, fun short => bounds.pushFrom stored short⟩
  | popTo result =>
      obtain ⟨accepted, made⟩ := of_guarded taken
      rw [← bounds.exact_getSize, Int.ofNat_le] at accepted
      cases made
      exact ⟨_, if_pos accepted, fun _ => bounds.popTo accepted⟩
  | pop =>
      obtain ⟨popped, same⟩ := bounds.pop (toOption_eq_some taken)
      exact ⟨next.exact, by rw [Buffer.call, same]; rfl, fun _ => ⟨popped, rfl⟩⟩
  | popLen len =>
      obtain ⟨popped, same⟩ := bounds.popLen (toOption_eq_some taken)
      exact ⟨next.exact, by rw [Buffer.call, same]; rfl, fun _ => ⟨popped, rfl⟩⟩

/-- A machine run stays in bounds when the unbounded run keeps to positions that fit an `int`. -/
theorem InBounds.run {buffer : WordBuffer} (bounds : buffer.InBounds) (calls : List BufferCall)
    (short : AllStates Buffer.call (fun buffer => buffer.rightWritePtr < 2147483648)
      buffer.exact calls) : AllStates WordBuffer.step InBounds buffer calls := by
  induction calls generalizing buffer with
  | nil => exact bounds
  | cons call rest ih =>
      refine ⟨bounds, ?_⟩
      cases taken : buffer.step call with
      | none => trivial
      | some next =>
          obtain ⟨after, called, follows⟩ := bounds.step taken
          simp only [AllStates, called] at short
          obtain ⟨nextBounds, same⟩ := follows short.2.head
          exact ih nextBounds (by rw [same]; exact short.2)

end WordBuffer

namespace Buffer

/-- On unbounded positions a call keeps them ordered and writes at most what enters. -/
theorem Wf.call {buffer after : Buffer} (wf : buffer.Wf) {call : BufferCall}
    (taken : buffer.call call = some after) :
    after.Wf ∧ after.rightWritePtr ≤ buffer.rightWritePtr + call.entering.length := by
  have ordered := wf.ordered
  have emptied : ∀ {len : Int}, buffer.popLen len = .ok after →
      after.Wf ∧ after.rightWritePtr ≤ buffer.rightWritePtr := by
    intro len popped
    unfold popLen at popped
    split at popped
    · cases popped
      refine ⟨⟨?_, wf.inside, wf.initial⟩, Nat.le_refl _⟩
      change buffer.leftReadPtr + (buffer.rightWritePtr - buffer.leftReadPtr) ≤ buffer.rightWritePtr
      omega
    · cases popped
  cases call with
  | push str =>
      cases taken
      refine ⟨wf.push str, ?_⟩
      rw [push_eq]
      change (buffer.pushRoom str).rightWritePtr + str.length ≤ _ + str.length
      have moved : (buffer.pushRoom str).rightWritePtr ≤ buffer.rightWritePtr := by
        unfold Buffer.pushRoom
        split
        · exact Nat.le_refl _
        · split <;> exact Nat.sub_le _ _
      omega
  | pushFrom result =>
      obtain ⟨stored, made⟩ := of_guarded taken
      cases made
      refine ⟨wf.pushFrom stored, ?_⟩
      rw [pushFrom_eq]
      change buffer.makeRoom.rightWritePtr + result.bytes.length ≤ _ + result.bytes.length
      have same := buffer.makeRoom_positions.2
      omega
  | popTo result =>
      obtain ⟨accepted, made⟩ := of_guarded taken
      cases made
      refine ⟨wf.popTo accepted, ?_⟩
      rw [popTo_eq]
      exact Nat.le_refl _
  | pop => exact emptied (WordBuffer.toOption_eq_some taken)
  | popLen len => exact emptied (WordBuffer.toOption_eq_some taken)

/-- The number of bytes that enter in all calls. -/
def enteredBytes (calls : List BufferCall) : Nat :=
  (calls.map fun call => call.entering.length).sum

theorem Wf.short_of_entered {buffer : Buffer} (wf : buffer.Wf) {limit : Nat}
    (calls : List BufferCall) (below : buffer.rightWritePtr + enteredBytes calls < limit) :
    AllStates Buffer.call (fun buffer => buffer.rightWritePtr < limit) buffer calls := by
  induction calls generalizing buffer with
  | nil => exact Nat.lt_of_le_of_lt (Nat.le_add_right _ _) below
  | cons call rest ih =>
      rw [enteredBytes, List.map_cons, List.sum_cons, ← enteredBytes] at below
      refine ⟨show buffer.rightWritePtr < limit by omega, ?_⟩
      cases taken : buffer.call call with
      | none => trivial
      | some after =>
          obtain ⟨afterWf, grown⟩ := wf.call taken
          exact ih afterWf (by omega)

theorem Wf.short_of_capacity {buffer : Buffer} (wf : buffer.Wf) {limit : Nat}
    {calls : List BufferCall}
    (below : AllStates Buffer.call (fun buffer => buffer.buf.capacity < limit) buffer calls) :
    AllStates Buffer.call (fun buffer => buffer.rightWritePtr < limit) buffer calls := by
  induction calls generalizing buffer with
  | nil => exact Nat.lt_of_le_of_lt wf.inside below
  | cons call rest ih =>
      refine ⟨Nat.lt_of_le_of_lt wf.inside below.1, ?_⟩
      cases taken : buffer.call call with
      | none => trivial
      | some after =>
          simp only [AllStates, taken] at below
          exact ih (wf.call taken).1 below.2

/--
The sizes stay below `2^31`: those of all bytes that enter, or those of the storage in every
state of the run.
-/
def SizesFit (calls : List BufferCall) : Prop :=
  enteredBytes calls < 2147483648 ∨
    AllStates Buffer.call (fun buffer => buffer.buf.capacity < 2147483648) .new calls

end Buffer

namespace WordBuffer

/--
As long as the sizes fit, in every state of a run the positions are ordered and inside the
storage, and no operation up to there has computed a `size_t` that wraps, offered `read` less
than half of `init_capa` or touched a byte outside the storage of that moment.
-/
theorem keeps_bounds {calls : List BufferCall} (sizes : Buffer.SizesFit calls) :
    AllStates step
      (fun buffer => (0 ≤ buffer.leftReadPtr ∧ buffer.leftReadPtr ≤ buffer.rightWritePtr ∧
          buffer.rightWritePtr ≤ buffer.buf.capacity) ∧
        ∀ note ∈ buffer.notes, note.Safe) new calls := by
  have short : AllStates Buffer.call (fun buffer => buffer.rightWritePtr < 2147483648)
      .new calls := by
    rcases sizes with entered | capacity
    · exact Buffer.new_wf.short_of_entered calls (Nat.zero_add _ ▸ entered)
    · exact Buffer.new_wf.short_of_capacity capacity
  exact (new_inBounds.run calls short).imp fun buffer bounds =>
    ⟨⟨bounds.nonneg, bounds.ordered, bounds.inside⟩, bounds.safe⟩

/-- A push into the free room, one behind a moved head, one that grows, and the calls that pop. -/
def boundedCalls : List BufferCall :=
  [.push (List.replicate 1000 1), .popTo (.wrote 700), .push (List.replicate 100 2),
    .push (List.replicate 3000 3), .pushFrom (.data [4, 5]), .popLen 1, .pop]

theorem boundedCalls_keeps_bounds :
    AllStates step
      (fun buffer => (0 ≤ buffer.leftReadPtr ∧ buffer.leftReadPtr ≤ buffer.rightWritePtr ∧
          buffer.rightWritePtr ≤ buffer.buf.capacity) ∧
        ∀ note ∈ buffer.notes, note.Safe) new boundedCalls := by
  refine keeps_bounds (.inl ?_)
  decide +kernel

end WordBuffer
end SimpleWebServer.Base
