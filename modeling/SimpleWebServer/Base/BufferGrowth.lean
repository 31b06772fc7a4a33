import SimpleWebServer.Base.BufferBounds

/-!
# How far the buffer grows

The header says that the unread bytes move left when there is room, and that the vector is
resized otherwise.  `push` does so.  `push_from` looks at the room on the right only and
never moves the bytes, so on a buffer that is read from and popped in turn the write
position, and with it the storage, grows with all bytes that ever passed through.
-/

namespace SimpleWebServer.Base

open SimpleWebServer.Lib.Runs

namespace BufferCall

/-- The string that is pushed. -/
def pushed : BufferCall → Bytes
  | .push str => str
  | _ => []

/-- The room a call needs: that of its string, and half of `init_capa` to read into. -/
def needed : BufferCall → Nat
  | .push str => str.length
  | .pushFrom _ => initCapa / 2
  | _ => 0

end BufferCall

namespace Buffer

/-- A call enlarges the vector only for want of room on both sides. -/
def EnlargesForNeed (buffer : Buffer) (call : BufferCall) : Prop :=
  ∀ after, buffer.call call = some after → buffer.buf.capacity < after.buf.capacity →
    buffer.buf.capacity < buffer.getSize + call.needed

/-- A run whose unread bytes and whose strings are not longer than `largest`. -/
structure KeepsWithin (largest : Nat) (first : Buffer) (calls : List BufferCall) : Prop where
  unread : AllStates Buffer.call (fun buffer => buffer.getSize ≤ largest) first calls
  strings : ∀ call ∈ calls, call.pushed.length ≤ largest

/-- The capacity that is enough for such a run. -/
def capacityBound (largest : Nat) : Nat := 4 * largest + initCapa

/-- Freed space is used again: no call of the run enlarges the vector without need, and the
capacity depends on the bytes that wait and not on those that passed. -/
structure ReusesSpace (calls : List BufferCall) : Prop where
  needed : StepsMeet Buffer.call EnlargesForNeed .new calls
  bounded : ∀ largest, KeepsWithin largest .new calls →
    AllStates Buffer.call (fun buffer => buffer.buf.capacity ≤ capacityBound largest) .new calls

/--
`push_from` is called with room to read into behind the unread bytes, or there is none on
both sides together.
-/
def ReadsWithRoom (buffer : Buffer) : BufferCall → Prop
  | .pushFrom _ => initCapa / 2 ≤ buffer.remainRight ∨
      buffer.leftReadPtr + buffer.remainRight < initCapa / 2
  | _ => True

/-! ## The capacity after one call -/

section

variable {buffer : Buffer} (wf : buffer.Wf)
include wf

/-- Both sides together are what the unread bytes leave free. -/
theorem Wf.free_eq :
    buffer.getSize + (buffer.leftReadPtr + buffer.remainRight) = buffer.buf.capacity := by
  have ordered := wf.ordered
  have inside := wf.inside
  rw [getSize, remainRight]
  omega

theorem Wf.bufInsertTail_capacity {str : Bytes} (fits : str.length ≤ buffer.remainRight) :
    (buffer.bufInsertTail str).buf.capacity = buffer.buf.capacity := by
  apply buffer.buf.copyTo_capacity
  have inside := wf.inside
  rw [remainRight] at fits
  omega

theorem Wf.pushRoom_capacity_of_fits {str : Bytes} (fits : ¬ buffer.pushGrows str) :
    (buffer.pushRoom str).buf.capacity = buffer.buf.capacity := by
  rw [pushGrows, Nat.not_lt] at fits
  unfold Buffer.pushRoom
  rcases Nat.lt_or_ge buffer.remainRight str.length with short | right
  · rw [if_neg (Nat.not_le.mpr short), if_pos fits, wf.bufMoveHead_capacity]
  · rw [if_pos right]

theorem Wf.pushRoom_capacity_of_grows {str : Bytes} (grows : buffer.pushGrows str) :
    (buffer.pushRoom str).buf.capacity =
      buffer.buf.grownCapacity (buffer.buf.capacity + buffer.pushAdd str) := by
  have above := pushAdd_pos grows
  have short : buffer.leftReadPtr + buffer.remainRight < str.length := grows
  unfold Buffer.pushRoom
  rw [if_neg (by omega), if_neg (by omega), (wf.regrown above).bufMoveHead_capacity]
  exact buffer.buf.resize_capacity above

theorem Wf.push_capacity (str : Bytes) :
    (buffer.push str).buf.capacity = (buffer.pushRoom str).buf.capacity := by
  obtain ⟨roomy, fits⟩ := wf.pushRoom str
  rw [push_eq, roomy.bufInsertTail_capacity fits]

/-- `push` enlarges the vector for need only. -/
theorem Wf.push_enlarges {str : Bytes}
    (enlarged : buffer.buf.capacity < (buffer.push str).buf.capacity) :
    buffer.buf.capacity < buffer.getSize + str.length := by
  by_contra enough
  have free := wf.free_eq
  have fits : ¬ buffer.pushGrows str := by
    rw [pushGrows]
    omega
  rw [wf.push_capacity, wf.pushRoom_capacity_of_fits fits] at enlarged
  exact Nat.lt_irrefl _ enlarged

/-- What `push` adds is at most the length of the string, twice. -/
theorem Wf.push_capacity_le (str : Bytes) : (buffer.push str).buf.capacity ≤
    max (2 * buffer.buf.capacity) (buffer.buf.capacity + 2 * str.length) := by
  rw [wf.push_capacity]
  by_cases grows : buffer.pushGrows str
  · have sizeLe : buffer.buf.size ≤ buffer.buf.capacity := buffer.buf.size_le
    have short : buffer.leftReadPtr + buffer.remainRight < str.length := grows
    rw [wf.pushRoom_capacity_of_grows grows, CharVector.grownCapacity, pushAdd]
    omega
  · rw [wf.pushRoom_capacity_of_fits grows]
    omega

theorem Wf.pushFrom_capacity {result : ReadResult}
    (stored : result.bytes.length ≤ buffer.offeredRoom) :
    (buffer.pushFrom result).2.buf.capacity = buffer.makeRoom.buf.capacity := by
  rw [pushFrom_eq, wf.makeRoom.bufInsertTail_capacity stored]

theorem Wf.makeRoom_capacity_of_grows (grows : buffer.pushFromGrows) :
    buffer.makeRoom.buf.capacity = 2 * buffer.buf.capacity := by
  have sizeLe : buffer.buf.size ≤ buffer.buf.capacity := buffer.buf.size_le
  rw [makeRoom_of_grows grows]
  change (buffer.buf.resize _).capacity = _
  rw [buffer.buf.resize_capacity wf.capacity_lt_double, CharVector.grownCapacity]
  omega

/-- `push_from` enlarges the vector for want of room on the right alone. -/
theorem Wf.pushFrom_enlarges_iff {result : ReadResult}
    (stored : result.bytes.length ≤ buffer.offeredRoom) :
    buffer.buf.capacity < (buffer.pushFrom result).2.buf.capacity ↔ buffer.pushFromGrows := by
  have double := wf.capacity_lt_double
  rw [wf.pushFrom_capacity stored]
  constructor
  · intro enlarged
    by_contra keeps
    rw [makeRoom_of_not_grows keeps] at enlarged
    exact Nat.lt_irrefl _ enlarged
  · intro grows
    rw [wf.makeRoom_capacity_of_grows grows]
    omega

end

/-- The calls that pop leave the vector alone. -/
theorem popLen_buf {buffer after : Buffer} {len : Int} (popped : buffer.popLen len = .ok after) :
    after.buf = buffer.buf := by
  unfold popLen at popped
  split at popped
  · cases popped
    rfl
  · cases popped

/-! ## The law and the bound -/

/-- Which calls enlarge the vector without need. -/
theorem Wf.enlargesForNeed_iff {buffer after : Buffer} (wf : buffer.Wf) {call : BufferCall}
    (taken : buffer.call call = some after) :
    buffer.EnlargesForNeed call ↔ buffer.ReadsWithRoom call := by
  have free := wf.free_eq
  have law : buffer.EnlargesForNeed call ↔ (buffer.buf.capacity < after.buf.capacity →
      buffer.buf.capacity < buffer.getSize + call.needed) := by
    refine ⟨fun enlarges => enlarges after taken, fun enlarges other same => ?_⟩
    rw [Option.some.inj (same.symm.trans taken)]
    exact enlarges
  have pops (same : after.buf = buffer.buf) : buffer.EnlargesForNeed call ↔ True := by
    rw [law, same]
    exact iff_true_intro fun enlarged => absurd enlarged (Nat.lt_irrefl _)
  cases call with
  | push str =>
      cases taken
      exact law.trans (iff_true_intro wf.push_enlarges)
  | pushFrom result =>
      obtain ⟨stored, made⟩ := of_guarded taken
      cases made
      rw [law, wf.pushFrom_enlarges_iff stored, pushFromGrows, BufferCall.needed, ReadsWithRoom]
      omega
  | popTo result =>
      obtain ⟨-, made⟩ := of_guarded taken
      cases made
      exact pops (by rw [popTo_eq])
  | pop => exact pops (popLen_buf (WordBuffer.toOption_eq_some taken))
  | popLen len => exact pops (popLen_buf (WordBuffer.toOption_eq_some taken))

/-- A call that enlarges the vector for need does not enlarge it by much. -/
theorem Wf.call_capacity_le {buffer after : Buffer} (wf : buffer.Wf) {call : BufferCall}
    (taken : buffer.call call = some after) (law : buffer.EnlargesForNeed call) {largest : Nat}
    (unread : buffer.getSize ≤ largest) (string : call.pushed.length ≤ largest)
    (before : buffer.buf.capacity ≤ capacityBound largest) :
    after.buf.capacity ≤ capacityBound largest := by
  rcases Nat.lt_or_ge buffer.buf.capacity after.buf.capacity with enlarged | same
  · have need := law after taken enlarged
    rw [capacityBound] at before ⊢
    cases call with
    | push str =>
        cases taken
        have grown := wf.push_capacity_le str
        simp only [BufferCall.pushed] at string
        simp only [BufferCall.needed] at need
        omega
    | pushFrom result =>
        obtain ⟨stored, made⟩ := of_guarded taken
        cases made
        have grows := (wf.pushFrom_enlarges_iff stored).mp enlarged
        have double := wf.makeRoom_capacity_of_grows grows
        simp only [BufferCall.needed] at need
        rw [wf.pushFrom_capacity stored, double]
        have half : initCapa / 2 + initCapa / 2 = initCapa := rfl
        omega
    | popTo result | pop | popLen len =>
        simp only [BufferCall.needed] at need
        have free := wf.free_eq
        omega
  · exact Nat.le_trans same before

theorem Wf.bounded_of_law {buffer : Buffer} (wf : buffer.Wf) {calls : List BufferCall}
    (law : StepsMeet Buffer.call EnlargesForNeed buffer calls) {largest : Nat}
    (within : KeepsWithin largest buffer calls)
    (start : buffer.buf.capacity ≤ capacityBound largest) :
    AllStates Buffer.call (fun buffer => buffer.buf.capacity ≤ capacityBound largest)
      buffer calls := by
  induction calls generalizing buffer with
  | nil => exact start
  | cons call rest ih =>
      refine ⟨start, ?_⟩
      cases taken : buffer.call call with
      | none => trivial
      | some after =>
          obtain ⟨unread, strings⟩ := within
          simp only [StepsMeet, taken] at law
          simp only [AllStates, taken] at unread
          obtain ⟨string, others⟩ := List.forall_mem_cons.mp strings
          exact ih (wf.call taken).1 law.2 ⟨unread.2, others⟩
            (wf.call_capacity_le taken law.1 unread.1 string start)

theorem new_capacity_le (largest : Nat) : Buffer.new.buf.capacity ≤ capacityBound largest := by
  have initial : Buffer.new.buf.capacity = initCapa := List.length_replicate
  rw [initial]
  exact Nat.le_add_left _ _

/-- The machine's positions stay in their `int`s, however many bytes pass through. -/
theorem inBounds_of_law {calls : List BufferCall}
    (law : StepsMeet Buffer.call EnlargesForNeed .new calls) {largest : Nat}
    (within : KeepsWithin largest .new calls) (small : capacityBound largest < 2147483648) :
    AllStates WordBuffer.step WordBuffer.InBounds .new calls := by
  have bounded := new_wf.bounded_of_law law within (new_capacity_le largest)
  refine WordBuffer.new_inBounds.run calls (new_wf.short_of_capacity (bounded.imp ?_))
  exact fun buffer below => Nat.lt_of_le_of_lt below small

/-- A run uses freed space again exactly when all its calls of `push_from` have room. -/
theorem reusesSpace_iff (calls : List BufferCall) :
    ReusesSpace calls ↔ StepsMeet Buffer.call ReadsWithRoom .new calls := by
  have same : StepsMeet Buffer.call EnlargesForNeed .new calls ↔
      StepsMeet Buffer.call ReadsWithRoom .new calls :=
    stepsMeet_congr Wf (fun _ _ _ wf taken => (wf.call taken).1)
      (fun _ _ _ wf taken => wf.enlargesForNeed_iff taken) calls new_wf
  constructor
  · exact fun reuses => same.mp reuses.needed
  · intro roomy
    have law := same.mpr roomy
    exact ⟨law, fun largest within => new_wf.bounded_of_law law within (new_capacity_le largest)⟩

/-! ## A connection that reads and pops -/

/-- Half a kilobyte is read and popped, over and over. -/
def drifting : Nat → List BufferCall
  | 0 => []
  | count + 1 => .pushFrom (.data (List.replicate 512 0)) :: .pop :: drifting count

/-- There is always room for it. -/
theorem Wf.offeredRoom_ge {buffer : Buffer} (wf : buffer.Wf) : 512 ≤ buffer.offeredRoom := by
  have inside := wf.inside
  have initial : 1024 ≤ buffer.buf.capacity := wf.initial
  by_cases grows : buffer.pushFromGrows
  · have double := wf.makeRoom_capacity_of_grows grows
    rw [offeredRoom, remainRight, double, buffer.makeRoom_positions.2]
    omega
  · rw [offeredRoom, makeRoom_of_not_grows grows]
    exact Nat.not_lt.mp grows

theorem call_pop (buffer : Buffer) : buffer.call .pop =
    some { buffer with leftReadPtr := buffer.leftReadPtr + buffer.getSize } := by
  rw [Buffer.call, pop_eq]
  rfl

/-- What one read and one pop leave behind. -/
theorem Wf.drift_once {buffer : Buffer} (wf : buffer.Wf)
    (popped : buffer.leftReadPtr = buffer.rightWritePtr) {str : Bytes} (size : str.length = 512) :
    ∃ read after, buffer.call (.pushFrom (.data str)) = some read ∧
      read.call .pop = some after ∧ read.getSize = 512 ∧ after.Wf ∧
      after.leftReadPtr = after.rightWritePtr ∧
      after.rightWritePtr = buffer.rightWritePtr + 512 := by
  have stored : (ReadResult.data str).bytes.length ≤ buffer.offeredRoom :=
    Nat.le_trans (Nat.le_of_eq size) wf.offeredRoom_ge
  have taken : buffer.call (.pushFrom (.data str)) = some (buffer.pushFrom (.data str)).2 :=
    if_pos stored
  have moved := buffer.pushFrom_positions (.data str)
  have left : (buffer.pushFrom (.data str)).2.leftReadPtr = buffer.rightWritePtr :=
    moved.1.trans popped
  have right : (buffer.pushFrom (.data str)).2.rightWritePtr = buffer.rightWritePtr + 512 := by
    rw [moved.2, ReadResult.bytes, size]
  have readWf := (wf.call taken).1
  have emptied := call_pop (buffer.pushFrom (.data str)).2
  refine ⟨_, _, taken, emptied, ?_, (readWf.call emptied).1, ?_, right⟩
  · rw [getSize, left, right]
    exact Nat.add_sub_cancel_left _ _
  · exact Nat.add_sub_cancel' readWf.ordered

/-- The write position, and the storage with it, grows by what passes through. -/
theorem Wf.drift {buffer : Buffer} (wf : buffer.Wf)
    (popped : buffer.leftReadPtr = buffer.rightWritePtr) (count : Nat) :
    KeepsWithin 512 buffer (drifting count) ∧
      ∃ last, runFrom Buffer.call buffer (drifting count) = some last ∧ last.Wf ∧
        last.rightWritePtr = buffer.rightWritePtr + 512 * count := by
  have nothing : buffer.getSize ≤ 512 := by
    rw [getSize, popped, Nat.sub_self]
    exact Nat.zero_le _
  induction count generalizing buffer with
  | zero =>
      exact ⟨⟨nothing, by simp [drifting]⟩, buffer, rfl, wf, rfl⟩
  | succ count ih =>
      obtain ⟨read, after, taken, emptied, unread, afterWf, afterPopped, moved⟩ :=
        wf.drift_once popped List.length_replicate
      have none : after.getSize ≤ 512 := by
        rw [getSize, afterPopped, Nat.sub_self]
        exact Nat.zero_le _
      obtain ⟨within, last, run, lastWf, right⟩ := ih afterWf afterPopped none
      refine ⟨⟨?_, ?_⟩, last, ?_, lastWf, ?_⟩
      · refine ⟨nothing, ?_⟩
        rw [taken]
        refine ⟨Nat.le_of_eq unread, ?_⟩
        rw [emptied]
        exact within.unread
      · intro call member
        rcases List.mem_cons.mp member with rfl | rest
        · exact Nat.zero_le _
        · rcases List.mem_cons.mp rest with rfl | later
          · exact Nat.zero_le _
          · exact within.strings call later
      · rw [drifting, runFrom_next taken, runFrom_next emptied, run]
      · rw [right, moved]
        omega

theorem drifting_not_bounded (bound count : Nat) (beyond : bound < 512 * count) :
    ¬ AllStates Buffer.call (fun buffer => buffer.buf.capacity ≤ bound) .new
      (drifting count) := by
  intro all
  obtain ⟨-, last, run, wf, right⟩ := new_wf.drift rfl count
  have below : last.buf.capacity ≤ bound := all.last run
  have inside := wf.inside
  have start : Buffer.new.rightWritePtr = 0 := rfl
  omega

/-- Seven reads of 512 bytes, each popped at once, need more than the bound; and there is no other
bound for such runs. -/
theorem drifting_grows : ¬ ReusesSpace (drifting 7) ∧
    ∀ bound, ∃ count, KeepsWithin 512 .new (drifting count) ∧
      ¬ AllStates Buffer.call (fun buffer => buffer.buf.capacity ≤ bound) .new
        (drifting count) := by
  refine ⟨fun reuses => ?_, fun bound => ⟨bound + 1, (new_wf.drift rfl _).1, ?_⟩⟩
  · exact drifting_not_bounded _ 7 (by decide) (reuses.bounded 512 (new_wf.drift rfl 7).1)
  · exact drifting_not_bounded bound (bound + 1) (by omega)

end Buffer

end SimpleWebServer.Base
