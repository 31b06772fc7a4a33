import SimpleWebServer.Base.BufferBounds

/-!
# The buffer as a byte queue

The header describes `Buffer` as a queue that grows.  This module compares the class, with
its `int` positions, with that queue over whole runs of its operations.  Two things go wrong:
a reallocation may lose unread bytes, and since `push_from` and the calls that pop move the
positions to the right only, the bytes that pass through take `right_write_ptr` out of its
`int`.  The runs in which the buffer is a queue are exactly those without either.
-/

namespace SimpleWebServer.Base

open SimpleWebServer.Lib.Runs

/--
One call of the class with the answer of its system call.  The string that is pushed lies
outside of the buffer: no operation of the buffer changes it.
-/
inductive BufferOp where
  | push (str : Bytes)
  | pushFrom (result : ReadResult)
  | popTo (result : WriteResult)
  | pop
  deriving DecidableEq, Repr

def BufferOp.call : BufferOp → BufferCall
  | .push str => .push str
  | .pushFrom result => .pushFrom result
  | .popTo result => .popTo result
  | .pop => .pop

theorem int32_lt (exact : Int) : int32 exact < 2147483648 := by
  unfold int32
  omega

/-- A sum of two `int`s that does not wrap to a negative one fits. -/
theorem int32_fits_of_nonneg {exact : Int} (small : exact < 4294967296)
    (nonneg : 0 ≤ int32 exact) : exact < 2147483648 := by
  unfold int32 at nonneg
  omega

namespace WordBuffer

/-- The bytes that `peek()` shows. -/
def peek (buffer : WordBuffer) : Bytes :=
  buffer.buf.range buffer.leftReadPtr.toNat (buffer.leftReadPtr.toNat + sizeT buffer.getSize)

/-- The positions are ordered and lie in the vector. -/
def Positioned (buffer : WordBuffer) : Prop :=
  0 ≤ buffer.leftReadPtr ∧ buffer.leftReadPtr ≤ buffer.rightWritePtr ∧
    buffer.rightWritePtr ≤ buffer.buf.capacity

instance : DecidablePred Positioned := fun buffer =>
  inferInstanceAs (Decidable (0 ≤ buffer.leftReadPtr ∧ buffer.leftReadPtr ≤ buffer.rightWritePtr ∧
    buffer.rightWritePtr ≤ buffer.buf.capacity))

/-- The bytes that enter end behind `right_write_ptr`, or behind the unread bytes once moved. -/
def endsAt (buffer : WordBuffer) : BufferOp → Int
  | .push str =>
      if str.length ≤ buffer.exactRight then buffer.rightWritePtr + str.length
      else buffer.rightWritePtr - buffer.leftReadPtr + str.length
  | .pushFrom result => buffer.rightWritePtr + result.bytes.length
  | .popTo _ => buffer.rightWritePtr
  | .pop => buffer.rightWritePtr

theorem InBounds.positioned {buffer : WordBuffer} (bounds : buffer.InBounds) :
    buffer.Positioned := ⟨bounds.nonneg, bounds.ordered, bounds.inside⟩

theorem InBounds.peek_eq {buffer : WordBuffer} (bounds : buffer.InBounds) :
    buffer.peek = buffer.exact.peek := by
  have nonneg := bounds.nonneg
  have ordered := bounds.ordered
  have fits := bounds.fits
  have size := bounds.getSize_eq
  have counted : (sizeT buffer.getSize : Int) = buffer.getSize :=
    sizeT_of_fits (by omega) (by omega)
  have last : buffer.leftReadPtr.toNat + sizeT buffer.getSize = buffer.rightWritePtr.toNat := by
    omega
  rw [peek, last]
  rfl

/-- A call that ends within an `int` does so on unbounded positions. -/
theorem InBounds.call_fits {buffer : WordBuffer} (bounds : buffer.InBounds) {op : BufferOp}
    (short : buffer.endsAt op < 2147483648) {after : Buffer}
    (called : buffer.exact.call op.call = some after) : after.rightWritePtr < 2147483648 := by
  have nonneg := bounds.nonneg
  have ordered := bounds.ordered
  have fits := bounds.fits
  have right : buffer.exact.rightWritePtr = buffer.rightWritePtr.toNat := rfl
  have left : buffer.exact.leftReadPtr = buffer.leftReadPtr.toNat := rfl
  cases op with
  | push str =>
      cases called
      have room := bounds.exact_remainRight
      have exact := sizeT_of_fits bounds.exactRight_safe.1 bounds.exactRight_safe.2
      rw [endsAt] at short
      rw [Buffer.push_eq, Buffer.pushRoom]
      by_cases behind : str.length ≤ buffer.exact.remainRight
      · rw [if_pos behind]
        rw [if_pos (by omega)] at short
        change buffer.exact.rightWritePtr + str.length < _
        omega
      · rw [if_neg behind]
        rw [if_neg (by omega)] at short
        split
        · change buffer.exact.getSize + str.length < _
          rw [Buffer.getSize]
          omega
        · change buffer.exact.getSize + str.length < _
          rw [Buffer.getSize]
          omega
  | pushFrom result =>
      obtain ⟨-, rfl⟩ := of_guarded called
      rw [endsAt] at short
      rw [(buffer.exact.pushFrom_positions result).2]
      omega
  | popTo result =>
      obtain ⟨-, rfl⟩ := of_guarded called
      rw [Buffer.popTo_eq]
      change buffer.exact.rightWritePtr < _
      omega
  | pop =>
      have grown := (bounds.wf.call called).2
      change _ ≤ buffer.exact.rightWritePtr + 0 at grown
      omega

theorem push_right_lt (buffer : WordBuffer) (str : Bytes) :
    (buffer.push str).rightWritePtr < 2147483648 := by
  unfold push
  dsimp only
  split
  · exact int32_lt _
  · split
    · exact int32_lt _
    · exact int32_lt _

theorem push_right_eq (buffer : WordBuffer) {str : Bytes}
    (behind : str.length ≤ sizeT buffer.exactRight) :
    (buffer.push str).rightWritePtr = int32 (buffer.rightWritePtr + str.length) := by
  unfold push
  dsimp only
  rw [if_pos behind]
  rfl

theorem makeRoom_right (buffer : WordBuffer) :
    buffer.makeRoom.rightWritePtr = buffer.rightWritePtr := by
  unfold makeRoom
  dsimp only
  split
  · rfl
  · rfl

theorem pushFrom_right_lt {buffer : WordBuffer} (fits : buffer.rightWritePtr < 2147483648)
    (result : ReadResult) : (buffer.pushFrom result).rightWritePtr < 2147483648 := by
  unfold pushFrom
  dsimp only
  split
  · exact int32_lt _
  · rw [← buffer.makeRoom_right] at fits
    exact fits

theorem pushFrom_right_eq {buffer : WordBuffer} (fits : buffer.rightWritePtr < 2147483648)
    (nonneg : 0 ≤ buffer.rightWritePtr) {result : ReadResult}
    (short : result.bytes.length < 2147483648) :
    (buffer.pushFrom result).rightWritePtr =
      int32 (buffer.rightWritePtr + result.bytes.length) := by
  unfold pushFrom
  dsimp only
  rcases read_cases short with ⟨some, length⟩ | ⟨none, empty⟩
  · rw [if_pos some, length, buffer.makeRoom_right]
  · have same : int32 (buffer.rightWritePtr + ((0 : Nat) : Int)) = buffer.rightWritePtr :=
      int32_of_fits (by omega) (by omega) |>.trans (Int.add_zero _)
    rw [if_neg none, empty, List.length_nil, same]
    exact buffer.makeRoom_right

/-- A buffer shows as many bytes as lie between its positions. -/
theorem Positioned.peek_length_le {buffer : WordBuffer} (positioned : buffer.Positioned)
    (fits : buffer.rightWritePtr < 2147483648) :
    (buffer.peek.length : Int) ≤ buffer.rightWritePtr - buffer.leftReadPtr := by
  obtain ⟨nonneg, ordered, -⟩ := positioned
  have size : buffer.getSize = buffer.rightWritePtr - buffer.leftReadPtr :=
    int32_of_fits (by omega) (by omega)
  have counted : (sizeT buffer.getSize : Int) = buffer.getSize :=
    sizeT_of_fits (by omega) (by omega)
  rw [peek, CharVector.range_length]
  omega

end WordBuffer

/-! ## Runs of the operations -/

/-- A buffer with the history of its run: all bytes that entered, and how many of them left. -/
structure TrackedBuffer where
  buffer : WordBuffer
  entered : Bytes
  removed : Nat

namespace TrackedBuffer

def new : TrackedBuffer := ⟨.new, [], 0⟩

/-- The queue the buffer stands for: what entered without the prefix that left. -/
def unread (tracked : TrackedBuffer) : Bytes := tracked.entered.drop tracked.removed

/-- How many bytes have left behind the call. -/
def removedBy (tracked : TrackedBuffer) : BufferOp → Nat
  | .push _ => tracked.removed
  | .pushFrom _ => tracked.removed
  | .popTo result => tracked.removed + result.accepted
  | .pop => tracked.entered.length

/-- One operation; the system calls store or accept at most what they are offered. -/
def step (tracked : TrackedBuffer) (op : BufferOp) : Option TrackedBuffer :=
  (tracked.buffer.step op.call).map fun buffer =>
    { buffer := buffer
      entered := tracked.entered ++ op.call.entering
      removed := tracked.removedBy op }

/-- The positions are those of unread bytes in the vector, and `peek()` shows the queue. -/
def ShowsUnread (tracked : TrackedBuffer) : Prop :=
  tracked.buffer.Positioned ∧ tracked.buffer.peek = tracked.unread

instance : DecidablePred ShowsUnread := fun tracked =>
  inferInstanceAs (Decidable (tracked.buffer.Positioned ∧ tracked.buffer.peek = tracked.unread))

/-- The operation enlarges the vector. -/
def Grows (tracked : TrackedBuffer) : BufferOp → Prop
  | .push str => tracked.buffer.exact.pushGrows str
  | .pushFrom _ => tracked.buffer.exact.pushFromGrows
  | .popTo _ => False
  | .pop => False

/--
The bytes that enter end at a position of an `int`, and an operation that enlarges the vector
finds its unread bytes carried over.
-/
def KeepsUnread (tracked : TrackedBuffer) (op : BufferOp) : Prop :=
  tracked.buffer.endsAt op < 2147483648 ∧
    (tracked.Grows op → tracked.buffer.exact.CarriedOver)

/-- What holds as long as the buffer shows its queue. -/
structure Sound (tracked : TrackedBuffer) : Prop where
  bounds : tracked.buffer.InBounds
  removed_le : tracked.removed ≤ tracked.entered.length

theorem new_sound : TrackedBuffer.new.Sound := ⟨WordBuffer.new_inBounds, Nat.le_refl _⟩

theorem new_showsUnread : TrackedBuffer.new.ShowsUnread := by
  refine ⟨WordBuffer.new_inBounds.positioned, ?_⟩
  rw [show TrackedBuffer.new.buffer = WordBuffer.new from rfl,
    WordBuffer.new_inBounds.peek_eq]
  exact Buffer.new_peek

theorem Sound.unread_length {tracked : TrackedBuffer} (sound : tracked.Sound)
    (shown : tracked.ShowsUnread) : (tracked.unread.length : Int) =
      tracked.buffer.rightWritePtr - tracked.buffer.leftReadPtr := by
  have wf := sound.bounds.wf
  rw [← shown.2, sound.bounds.peek_eq, wf.peek_length, sound.bounds.exact_getSize]
  exact sound.bounds.getSize_eq

/-- What enters is behind what is unread. -/
theorem Sound.unread_append {tracked : TrackedBuffer} (sound : tracked.Sound) (bytes : Bytes) :
    (tracked.entered ++ bytes).drop tracked.removed = tracked.unread ++ bytes := by
  rw [List.drop_append_of_le_length sound.removed_le, ← unread]

/-- Bytes that are shown leave no room for a size that wraps. -/
theorem Sound.entering_lt {tracked : TrackedBuffer} (sound : tracked.Sound)
    (shown : tracked.ShowsUnread) {buffer : WordBuffer} (positioned : buffer.Positioned)
    (right : buffer.rightWritePtr < 2147483648) {bytes : Bytes}
    (shows : buffer.peek = (tracked.entered ++ bytes).drop tracked.removed) :
    tracked.buffer.rightWritePtr - tracked.buffer.leftReadPtr + bytes.length < 2147483648 := by
  have length := sound.unread_length shown
  have most := positioned.peek_length_le right
  obtain ⟨nonneg, ordered, -⟩ := positioned
  rw [shows, sound.unread_append, List.length_append] at most
  omega

/-- The bytes that a buffer shows have entered at positions of an `int`. -/
theorem Sound.ends_of_shown {tracked next : TrackedBuffer} (sound : tracked.Sound)
    (shown : tracked.ShowsUnread) {op : BufferOp} (taken : tracked.step op = some next)
    (nextShown : next.ShowsUnread) : tracked.buffer.endsAt op < 2147483648 := by
  have nonneg := sound.bounds.nonneg
  have ordered := sound.bounds.ordered
  have fits := sound.bounds.fits
  obtain ⟨buffer, called, rfl⟩ := Option.map_eq_some_iff.mp taken
  obtain ⟨positioned, shows⟩ := nextShown
  change buffer.Positioned at positioned
  change buffer.peek = (tracked.entered ++ op.call.entering).drop (tracked.removedBy op) at shows
  cases op with
  | push str =>
      cases called
      have entering := sound.entering_lt shown positioned (tracked.buffer.push_right_lt str) shows
      change _ - _ + (str.length : Int) < _ at entering
      rw [WordBuffer.endsAt]
      split
      · next behind =>
          have room := sizeT_of_fits sound.bounds.exactRight_safe.1 sound.bounds.exactRight_safe.2
          obtain ⟨left, inOrder, -⟩ := positioned
          rw [tracked.buffer.push_right_eq (by omega)] at inOrder
          exact int32_fits_of_nonneg (by omega) (Int.le_trans left inOrder)
      · exact entering
  | pushFrom result =>
      obtain ⟨-, rfl⟩ := of_guarded called
      have entering := sound.entering_lt shown positioned
        (WordBuffer.pushFrom_right_lt fits result) shows
      change _ - _ + (result.bytes.length : Int) < _ at entering
      obtain ⟨left, inOrder, -⟩ := positioned
      rw [WordBuffer.pushFrom_right_eq fits (by omega) (by omega)] at inOrder
      rw [WordBuffer.endsAt]
      exact int32_fits_of_nonneg (by omega) (Int.le_trans left inOrder)
  | popTo result => exact fits
  | pop => exact fits

/-- An operation that ends within an `int` is the one on unbounded positions. -/
theorem Sound.step {tracked next : TrackedBuffer} (sound : tracked.Sound)
    (shown : tracked.ShowsUnread) {op : BufferOp} (taken : tracked.step op = some next)
    (short : tracked.buffer.endsAt op < 2147483648) :
    next.Sound ∧ tracked.buffer.exact.call op.call = some next.buffer.exact := by
  obtain ⟨buffer, called, rfl⟩ := Option.map_eq_some_iff.mp taken
  obtain ⟨after, exact, follows⟩ := sound.bounds.step called
  obtain ⟨bounds, same⟩ := follows (sound.bounds.call_fits short exact)
  refine ⟨⟨bounds, ?_⟩, by rw [exact, same]⟩
  have removedLe := sound.removed_le
  change tracked.removedBy op ≤ (tracked.entered ++ op.call.entering).length
  rw [List.length_append]
  cases op with
  | push str => exact Nat.le_trans removedLe (Nat.le_add_right _ _)
  | pushFrom result => exact Nat.le_trans removedLe (Nat.le_add_right _ _)
  | popTo result =>
      obtain ⟨accepted, -⟩ := of_guarded called
      have length := sound.unread_length shown
      rw [sound.bounds.getSize_eq, ← length, unread, List.length_drop] at accepted
      change tracked.removed + result.accepted ≤ tracked.entered.length
      omega
  | pop => exact Nat.le_refl _

theorem Sound.shown_iff {tracked : TrackedBuffer} (sound : tracked.Sound) :
    tracked.ShowsUnread ↔ tracked.buffer.exact.peek = tracked.unread := by
  rw [ShowsUnread, sound.bounds.peek_eq]
  exact and_iff_right sound.bounds.positioned

/-- On unbounded positions only an enlargement can lose what is shown. -/
theorem Sound.call_shown_iff {tracked next : TrackedBuffer} (sound : tracked.Sound)
    (shown : tracked.ShowsUnread) {op : BufferOp} (taken : tracked.step op = some next)
    (nextSound : next.Sound)
    (called : tracked.buffer.exact.call op.call = some next.buffer.exact) :
    next.ShowsUnread ↔ (tracked.Grows op → tracked.buffer.exact.CarriedOver) := by
  have wf := sound.bounds.wf
  have shows := sound.shown_iff.mp shown
  obtain ⟨buffer, -, rfl⟩ := Option.map_eq_some_iff.mp taken
  rw [nextSound.shown_iff]
  cases op with
  | push str =>
      have pushed := Option.some.inj called
      change buffer.exact.peek = (tracked.entered ++ str).drop tracked.removed ↔ _
      rw [← pushed, sound.unread_append, ← shows]
      exact wf.push_peek_iff str
  | pushFrom result =>
      obtain ⟨stored, read⟩ := of_guarded called
      change buffer.exact.peek = (tracked.entered ++ result.bytes).drop tracked.removed ↔ _
      rw [← read, sound.unread_append, ← shows]
      exact wf.pushFrom_peek_iff stored
  | popTo result =>
      obtain ⟨-, written⟩ := of_guarded called
      refine iff_of_true ?_ nofun
      change buffer.exact.peek =
        (tracked.entered ++ []).drop (tracked.removed + result.accepted)
      rw [← written, Buffer.popTo_peek, shows, unread, List.drop_drop, List.append_nil]
  | pop =>
      refine iff_of_true ?_ nofun
      have popped := WordBuffer.toOption_eq_some called
      rw [Buffer.pop_eq] at popped
      change buffer.exact.peek = (tracked.entered ++ []).drop tracked.entered.length
      rw [← Except.ok.inj popped, Buffer.peek, Buffer.getSize, Nat.add_sub_cancel' wf.ordered,
        CharVector.range_self, List.append_nil, List.drop_length]

/-- From a buffer that shows its queue, a step shows the next one iff it keeps the unread bytes. -/
theorem Sound.step_shown_iff {tracked next : TrackedBuffer} (sound : tracked.Sound)
    (shown : tracked.ShowsUnread) {op : BufferOp} (taken : tracked.step op = some next) :
    next.ShowsUnread ↔ tracked.KeepsUnread op := by
  constructor
  · intro nextShown
    have short := sound.ends_of_shown shown taken nextShown
    obtain ⟨nextSound, called⟩ := sound.step shown taken short
    exact ⟨short, (sound.call_shown_iff shown taken nextSound called).mp nextShown⟩
  · rintro ⟨short, carried⟩
    obtain ⟨nextSound, called⟩ := sound.step shown taken short
    exact (sound.call_shown_iff shown taken nextSound called).mpr carried

/--
A buffer shows exactly its unread input throughout a run if and only if no byte enters behind
the last position of an `int`, and every operation of the run that enlarges the vector finds the
unread bytes carried over.
-/
theorem peek_eq_unread_iff (ops : List BufferOp) :
    AllStates step ShowsUnread new ops ↔ StepsMeet step KeepsUnread new ops :=
  allStates_iff_of_good Sound
    (fun _ _ _ sound shown nextShown taken =>
      (sound.step shown taken (sound.ends_of_shown shown taken nextShown)).1)
    (fun _ _ _ sound shown taken => sound.step_shown_iff shown taken)
    ops new_sound new_showsUnread

/-- Four pushes that leave unread bytes above `size()` before the vector is enlarged again. -/
def losingRun : List BufferOp :=
  [.push (List.replicate 1000 1), .push (List.replicate 100 1),
    .push (List.replicate 948 1), .push [1]]

/-- In that run the last enlargement turns unread bytes into zeros. -/
theorem losingRun_loses : ¬ AllStates step ShowsUnread new losingRun := by
  decide +kernel

end TrackedBuffer

end SimpleWebServer.Base
