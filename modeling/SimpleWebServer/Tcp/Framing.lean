import SimpleWebServer.Base.BufferQueue
import SimpleWebServer.Tcp.TCPConnection

/-!
# Message framing

A `message_cb` looks at `get_data()` and drops the messages it has read with
`pop_data(len)`.  What is left belongs to the next message, whatever segments the stream
arrives in.  `Buffer::pop(len)` checks `len` but drops everything that is unread; and since
neither it nor `push_from` ever moves the bytes to the left, `read_buf` can frame only as
many bytes as its `int` positions count.
-/

namespace SimpleWebServer.Tcp

open SimpleWebServer.Base SimpleWebServer.Lib.Runs

/--
What `handle_read`, `get_data` and `pop_data` use of a connection, with all bytes it has
received, and how many of them were popped.
-/
structure FrameRun where
  state : State := .connecting
  readBuf : WordBuffer := .new
  received : Bytes := []
  popped : Nat := 0

inductive FrameEvent where
  /-- `handle_read` up to its call of `message_cb` -/
  | receive (segment : Bytes)
  /-- `message_cb` calls `pop_data(len)` -/
  | popData (len : Int)
  deriving DecidableEq, Repr

namespace FrameRun

def start : FrameRun := {}

/-- `read_buf->push_from(peer_fd)` -/
def receive (run : FrameRun) (segment : Bytes) : FrameRun :=
  { run with
    readBuf := run.readBuf.pushFrom (.data segment)
    received := run.received ++ segment }

@[simp]
theorem receive_state (run : FrameRun) (segment : Bytes) :
    (run.receive segment).state = run.state := by
  rw [receive]

@[simp]
theorem receive_readBuf (run : FrameRun) (segment : Bytes) :
    (run.receive segment).readBuf = run.readBuf.pushFrom (.data segment) := by
  rw [receive]

/-- One step; a segment has at least one byte and fits into what `read` was offered. -/
def step (run : FrameRun) : FrameEvent → Option FrameRun
  | .receive segment =>
      if segment ≠ [] ∧ segment.length ≤ run.readBuf.offeredRoom then some (run.receive segment)
      else none
  | .popData len =>
      if run.state ≠ .fullClose then
        (run.readBuf.popLen len).toOption.map fun readBuf =>
          { run with readBuf := readBuf, popped := run.popped + len.toNat }
      else none

/-- The `read_buf` with its history. -/
def tracked (run : FrameRun) : TrackedBuffer := ⟨run.readBuf, run.received, run.popped⟩

/-- The positions lie in the vector, and `get_data()` shows what was received and not popped. -/
def Framed (run : FrameRun) : Prop :=
  run.readBuf.Positioned ∧ run.readBuf.peek = run.received.drop run.popped

instance : DecidablePred Framed := fun run =>
  inferInstanceAs (Decidable (run.readBuf.Positioned ∧ run.readBuf.peek = _))

/--
The condition on a step: a segment ends at a position of an `int`, and a pop drops all that
`get_data()` shows.
-/
def KeepsFraming (run : FrameRun) : FrameEvent → Prop
  | .receive segment => run.readBuf.rightWritePtr + segment.length < 2147483648
  | .popData len => len = run.readBuf.getSize

/-- What holds of a `read_buf` that was only read into and popped, as long as it was framed. -/
structure Sound (run : FrameRun) : Prop where
  tracked : run.tracked.Sound
  full : run.readBuf.buf.size = run.readBuf.buf.capacity

theorem start_sound : start.Sound :=
  ⟨TrackedBuffer.new_sound, by simp [start, WordBuffer.new, CharVector.ofSize,
    CharVector.capacity]⟩

theorem Sound.carriedOver {run : FrameRun} (sound : run.Sound) :
    run.readBuf.exact.CarriedOver := by
  apply Buffer.carriedOver_of_le_size
  have inside := sound.tracked.bounds.wf.inside
  rw [show run.readBuf.exact.buf.size = run.readBuf.exact.buf.capacity from sound.full]
  exact inside

/-- A segment is a `push_from` of the `read_buf`. -/
theorem step_receive {run next : FrameRun} {segment : Bytes}
    (taken : run.step (.receive segment) = some next) :
    run.tracked.step (.pushFrom (.data segment)) = some next.tracked := by
  obtain ⟨⟨-, fits⟩, rfl⟩ := of_guarded taken
  have offered : (ReadResult.data segment).bytes.length ≤ run.readBuf.offeredRoom := fits
  have called : run.tracked.buffer.step (.pushFrom (.data segment)) =
      some (run.receive segment).readBuf := by
    rw [receive_readBuf]
    exact if_pos offered
  rw [TrackedBuffer.step, BufferOp.call, called]
  rfl

theorem step_popData {run next : FrameRun} {len : Int}
    (taken : run.step (.popData len) = some next) :
    run.readBuf.popLen len = .ok next.readBuf ∧ next.received = run.received ∧
      next.popped = run.popped + len.toNat := by
  rw [step] at taken
  split at taken
  · obtain ⟨readBuf, popped, rfl⟩ := Option.map_eq_some_iff.mp taken
    exact ⟨WordBuffer.toOption_eq_some popped, rfl, rfl⟩
  · cases taken

/-- A pop stays within `get_data()` and moves behind all of it. -/
theorem Sound.popLen {run next : FrameRun} {len : Int} (sound : run.Sound)
    (popped : run.readBuf.popLen len = .ok next.readBuf) :
    (0 ≤ len ∧ len ≤ run.readBuf.getSize) ∧ next.readBuf.InBounds ∧
      next.readBuf.peek = [] ∧ next.readBuf.buf = run.readBuf.buf := by
  obtain ⟨bounds, exact⟩ := sound.tracked.bounds.popLen popped
  have size := sound.tracked.bounds.exact_getSize
  have ordered := sound.tracked.bounds.wf.ordered
  rw [Buffer.popLen] at exact
  split at exact
  · next inside =>
      have same := Except.ok.inj exact
      refine ⟨⟨inside.1, Int.le_trans inside.2 (Int.le_of_eq size)⟩, bounds, ?_, ?_⟩
      · rw [bounds.peek_eq, ← same, Buffer.peek, Buffer.getSize]
        change CharVector.range _ (_ + (_ - _)) _ = []
        rw [Nat.add_sub_cancel' ordered]
        exact CharVector.range_self _ _
      · exact congrArg Buffer.buf same.symm
  · cases exact

/-- A framed `read_buf` counts what was received and not popped. -/
theorem Sound.getSize_eq {run : FrameRun} (sound : run.Sound) (framed : run.Framed) :
    run.popped ≤ run.received.length ∧
      run.readBuf.getSize = (run.received.length - run.popped : Nat) := by
  have length := sound.tracked.unread_length framed
  have size := sound.tracked.bounds.getSize_eq
  refine ⟨sound.tracked.removed_le, size.trans (length.symm.trans ?_)⟩
  exact congrArg Nat.cast List.length_drop

theorem Sound.step {run next : FrameRun} {event : FrameEvent} (sound : run.Sound)
    (framed : run.Framed) (nextFramed : next.Framed) (taken : run.step event = some next) :
    next.Sound := by
  cases event with
  | receive segment =>
      have received := step_receive taken
      have short := sound.tracked.ends_of_shown framed received nextFramed
      obtain ⟨nextTracked, called⟩ := sound.tracked.step framed received short
      refine ⟨nextTracked, ?_⟩
      obtain ⟨stored, read⟩ := of_guarded called
      have full := sound.tracked.bounds.wf.pushFrom_full sound.full stored
      rw [read] at full
      exact full
  | popData len =>
      obtain ⟨popped, received, count⟩ := step_popData taken
      obtain ⟨⟨nonneg, within⟩, bounds, -, buf⟩ := sound.popLen popped
      obtain ⟨most, size⟩ := sound.getSize_eq framed
      refine ⟨⟨bounds, ?_⟩, ?_⟩
      · change next.popped ≤ next.received.length
        rw [received, count]
        omega
      · rw [buf]
        exact sound.full

/-- A segment is shown behind what was there when its end fits, and a pop shows nothing. -/
theorem Sound.step_framed_iff {run next : FrameRun} {event : FrameEvent} (sound : run.Sound)
    (framed : run.Framed) (taken : run.step event = some next) :
    next.Framed ↔ run.KeepsFraming event := by
  cases event with
  | receive segment =>
      refine (sound.tracked.step_shown_iff framed (step_receive taken)).trans ?_
      exact and_iff_left fun _ => sound.carriedOver
  | popData len =>
      obtain ⟨popped, received, count⟩ := step_popData taken
      obtain ⟨⟨nonneg, within⟩, bounds, none, -⟩ := sound.popLen popped
      obtain ⟨most, size⟩ := sound.getSize_eq framed
      rw [Framed, and_iff_right bounds.positioned, none, received, count, KeepsFraming, eq_comm,
        List.drop_eq_nil_iff]
      omega

/--
`get_data()` is right throughout exactly in the runs that receive no byte behind the last
position of an `int` and only pop all that is shown.
-/
theorem framed_iff_keepsFraming (events : List FrameEvent) :
    AllStates step Framed start events ↔ StepsMeet step KeepsFraming start events :=
  allStates_iff_of_good Sound
    (fun _ _ _ sound framed nextFramed taken => sound.step framed nextFramed taken)
    (fun _ _ _ sound framed taken => sound.step_framed_iff framed taken)
    events start_sound TrackedBuffer.new_showsUnread

/-- A message of one byte is popped from two, and the second byte is skipped. -/
theorem popData_skips : ¬ ∀ events, AllStates step Framed start events := by
  intro all
  exact absurd (all [.receive (ascii "ab"), .popData 1]) (by decide +kernel)

/-! ## The calls of `handle_read` -/

/-- The run has what its functions use of the connection. -/
structure Of (run : FrameRun) (conn : TCPConnection) : Prop where
  bounds : run.readBuf.InBounds
  state : conn.state = run.state
  readBuf : conn.readBuf = run.readBuf.exact

theorem Of.popData {run : FrameRun} {conn next : TCPConnection} (same : run.Of conn) {len : Int}
    (popped : conn.popDataLen len = .ok next) :
    ∃ last, run.step (.popData len) = some last ∧ last.Of next := by
  obtain ⟨opened, readBuf, inside, rfl⟩ := TCPConnection.of_popDataLen popped
  rw [same.state] at opened
  rw [same.readBuf] at inside
  obtain ⟨word, called⟩ := same.bounds.popLen_of_exact inside
  obtain ⟨bounds, exact⟩ := same.bounds.popLen called
  refine ⟨{ run with readBuf := word, popped := run.popped + len.toNat }, ?_, bounds,
    same.state, Except.ok.inj (inside.symm.trans exact)⟩
  rw [step, if_pos opened, called]
  rfl

/-- The pops of a `message_cb` that returns are steps of the run. -/
theorem runCalls_run {lens : List Int} {run : FrameRun} {conn next : TCPConnection}
    (same : run.Of conn) (ran : conn.runCalls (lens.map .popDataLen) = .ok next) :
    ∃ last, runFrom step run (lens.map .popData) = some last ∧ last.Of next := by
  induction lens generalizing run conn with
  | nil =>
      cases ran
      exact ⟨run, rfl, same⟩
  | cons len lens ih =>
      cases called : conn.call (.popDataLen len) with
      | error assertion =>
          rw [List.map_cons, TCPConnection.runCalls_cons_error called] at ran
          cases ran
      | ok middle =>
          rw [List.map_cons, TCPConnection.runCalls_cons_ok called] at ran
          obtain ⟨popped, stepped, nextSame⟩ := same.popData called
          obtain ⟨last, rest, lastSame⟩ := ih nextSame ran
          exact ⟨last, (runFrom_next stepped _).trans rest, lastSame⟩

/-- `handle_read` with a `message_cb` that pops is a step for the segment and one for each pop. -/
theorem handleRead_run {run : FrameRun} {segment : Bytes} {lens : List Int}
    {conn next : TCPConnection} (same : run.Of conn) (nonempty : segment ≠ [])
    (fits : segment.length ≤ conn.readBuf.offeredRoom)
    (short : conn.readBuf.rightWritePtr + segment.length < 2147483648)
    (handled : conn.handleRead (.data segment) (some (lens.map .popDataLen)) = .ok next) :
    ∃ last, runFrom step run (.receive segment :: lens.map .popData) = some last ∧
      last.Of next := by
  obtain ⟨byte, rest, rfl⟩ := List.exists_cons_of_ne_nil nonempty
  rw [same.readBuf] at fits short
  have offered : (ReadResult.data (byte :: rest)).bytes.length ≤ run.readBuf.exact.offeredRoom :=
    fits
  have ends : (run.readBuf.exact.pushFrom (.data (byte :: rest))).2.rightWritePtr < 2147483648 := by
    rw [(run.readBuf.exact.pushFrom_positions _).2]
    exact short
  obtain ⟨bounds, exact⟩ := same.bounds.pushFrom offered ends
  have stepped : run.step (.receive (byte :: rest)) = some (run.receive (byte :: rest)) :=
    if_pos ⟨nonempty, by rw [same.bounds.exact_offeredRoom]; exact fits⟩
  have behind : (run.receive (byte :: rest)).Of
      { conn with readBuf := (conn.readBuf.pushFrom (.data (byte :: rest))).2 } := by
    refine ⟨?_, ?_, ?_⟩
    · rw [receive_readBuf]
      exact bounds
    · rw [receive_state]
      exact same.state
    · rw [receive_readBuf, exact, same.readBuf]
  obtain ⟨last, ran, lastSame⟩ := runCalls_run behind handled
  exact ⟨last, (runFrom_next stepped _).trans ran, lastSame⟩

end FrameRun

end SimpleWebServer.Tcp
