import SimpleWebServer.Base.BufferGrowth
import SimpleWebServer.Tcp.WriteBacklog

/-!
# What the other end receives

Two connections are the ends of one TCP stream: what `handle_write` gives to the kernel at one
end is read at the other.  What the user there has popped and what `get_data()` still shows are
the bytes of `send_data`, in order and none of them twice, and those that are still missing are
under way or in `write_buf`; as long as `write_buf` keeps them when it grows, `pop_data(len)`
takes all that is shown, and `read_buf` ends within an `int`.  Behind the end of the stream
nothing is missing.
-/

namespace SimpleWebServer.Tcp

open SimpleWebServer.Base SimpleWebServer.Lib.Runs

/-- A connection with the history of its stream. -/
structure StreamEnd where
  run : BacklogRun
  /-- what `send_data` has taken over -/
  sent : Bytes := []
  /-- what `write` has accepted and the other end has not read -/
  wire : Bytes := []
  /-- what was taken from the front of `read_buf` -/
  taken : Bytes := []
  /-- `read` has returned `0` when no end had called `full_close` -/
  ended : Bool := false

/-- What the user has popped, and what `get_data()` shows behind it. -/
def StreamEnd.received (side : StreamEnd) : Bytes := side.taken ++ side.run.conn.readBuf.peek

/-- Two ends; a stream that is broken delivers nothing more. -/
structure Stream where
  ends : Bool → StreamEnd
  broken : Bool := false

inductive StreamEvent where
  /-- a step of the connection at one end -/
  | at (side : Bool) (event : BacklogEvent)
  /-- the stream breaks, and what is under way is lost -/
  | break_
  deriving DecidableEq, Repr

namespace BacklogRun

/-- `send_data` takes the message over. -/
def Takes (s : BacklogRun) (msg : Bytes) : Prop :=
  s.conn.state = .connecting ∧ s.conn.writeBuf.getSize + msg.length < maxWriteBufSize

instance (s : BacklogRun) (msg : Bytes) : Decidable (s.Takes msg) :=
  inferInstanceAs (Decidable (_ ∧ _))

/-- What a step adds to the messages. -/
def takenBy (s : BacklogRun) : BacklogEvent → Bytes
  | .call (.sendData msg) => if s.Takes msg then msg else []
  | _ => []

/-- What the kernel accepts in a step. -/
def acceptedBy (s : BacklogRun) : BacklogEvent → Bytes
  | .write result => s.conn.writeBuf.peek.take result.accepted
  | _ => []

/-- What `pop_data(len)` is to take. -/
def poppedLen (s : BacklogRun) (len : Int) : Bytes :=
  match s.conn.popDataLen len with
  | .ok _ => s.conn.readBuf.peek.take len.toNat
  | .error _ => []

/-- What a step takes from `read_buf`; without a `message_cb`, `handle_read` pops what it reads. -/
def poppedBy (s : BacklogRun) : BacklogEvent → Bytes
  | .read (.data (byte :: rest)) =>
      if s.userCb.messageCb then [] else (s.conn.readBuf.pushFrom (.data (byte :: rest))).2.peek
  | .call (.popDataLen len) => s.poppedLen len
  | .call .popData => s.poppedLen s.conn.readBuf.getSize
  | _ => []

/-! ### What a step does -/

/-- What a step does to `write_buf`. -/
def writeBufBehind (s : BacklogRun) : BacklogEvent → Buffer
  | .write result => (s.conn.writeBuf.popTo result).2
  | .call (.sendData msg) => if s.Takes msg then s.conn.writeBuf.push msg else s.conn.writeBuf
  | _ => s.conn.writeBuf

/-- What `pop_data(len)` does to `read_buf`. -/
def readBufPopped (s : BacklogRun) (len : Int) : Buffer :=
  match s.conn.popDataLen len with
  | .ok conn => conn.readBuf
  | .error _ => s.conn.readBuf

/-- What a step does to `read_buf`. -/
def readBufBehind (s : BacklogRun) : BacklogEvent → Buffer
  | .read (.data (byte :: rest)) =>
      let stored := (s.conn.readBuf.pushFrom (.data (byte :: rest))).2
      if s.userCb.messageCb then stored
      else { stored with leftReadPtr := stored.leftReadPtr + stored.getSize }
  | .read result => (s.conn.readBuf.pushFrom result).2
  | .call (.popDataLen len) => s.readBufPopped len
  | .call .popData => s.readBufPopped s.conn.readBuf.getSize
  | _ => s.conn.readBuf

/-- What a step does to the state of the connection and to its socket. -/
inductive Moved (s : BacklogRun) (event : BacklogEvent) (conn : TCPConnection) : Prop where
  | kept (state : conn.state = s.conn.state) (shutdowns : conn.shutdowns = s.conn.shutdowns)
  | closed (state : conn.state = .fullClose)
      (shutdowns : conn.shutdowns = s.conn.shutdowns ++ [.rdwr])
  /-- `half_close` -/
  | halved (connecting : s.conn.state = .connecting) (state : conn.state = .halfClose)
      (shutdowns : conn.shutdowns = s.conn.shutdowns ∨
        conn.shutdowns = s.conn.shutdowns ++ [.wr] ∧ conn.writeBuf.getSize = 0)
  /-- the end of `handle_write` on a connection that was half closed -/
  | lowered (state : s.conn.state = .halfClose) (same : conn.state = s.conn.state)
      (shutdowns : conn.shutdowns = s.conn.shutdowns ++ [.wr])
      (empty : conn.writeBuf.getSize = 0 ∨
        event = .returned ∧ s.waiting.head? = some .writeLower)

/-- All that a step does to the connection. -/
structure Does (s : BacklogRun) (event : BacklogEvent) (conn : TCPConnection) : Prop where
  moved : s.Moved event conn
  writeBuf : conn.writeBuf = s.writeBufBehind event
  readBuf : conn.readBuf = s.readBufBehind event

section step

variable {s next : BacklogRun} {event : BacklogEvent}

theorem moved_fullClose (s : BacklogRun) (event : BacklogEvent) {t : BacklogRun}
    (state : t.conn.state = s.conn.state) (shutdowns : t.conn.shutdowns = s.conn.shutdowns) :
    s.Moved event t.fullClose.conn := by
  unfold fullClose
  split
  · split
    · exact .closed rfl (by rw [← shutdowns]; rfl)
    · exact .closed rfl (by rw [← shutdowns]; rfl)
  · exact .kept state shutdowns

theorem moved_lowered {conn : TCPConnection} (state : conn.state = s.conn.state)
    (shutdowns : conn.shutdowns = s.conn.shutdowns)
    (empty : conn.writeBuf.getSize = 0 ∨
      event = .returned ∧ s.waiting.head? = some .writeLower) :
    s.Moved event (BacklogRun.lowered conn) := by
  unfold BacklogRun.lowered
  split
  · next half => exact .lowered (state ▸ half) state (by rw [← shutdowns]; rfl) empty
  · exact .kept state shutdowns

theorem fullClose_readBuf (s : BacklogRun) : s.fullClose.conn.readBuf = s.conn.readBuf := by
  rw [BacklogRun.fullClose]
  split_ifs <;> rfl

theorem lowered_readBuf (conn : TCPConnection) :
    (BacklogRun.lowered conn).readBuf = conn.readBuf := by
  rw [BacklogRun.lowered]
  split_ifs <;> rfl

theorem does_handleRead (result : ReadResult) :
    s.Does (.read result) (s.handleRead result).conn := by
  unfold handleRead
  cases result with
  | error errno =>
      cases errno with
      | again => exact ⟨.kept rfl rfl, rfl, rfl⟩
      | intr => exact ⟨.kept rfl rfl, rfl, rfl⟩
      | other =>
          exact ⟨moved_fullClose s _ rfl rfl, fullClose_writeBuf _, fullClose_readBuf _⟩
  | data bytes =>
      cases bytes with
      | nil => exact ⟨moved_fullClose s _ rfl rfl, fullClose_writeBuf _, fullClose_readBuf _⟩
      | cons byte rest =>
          dsimp only
          split
          · next messageCb => exact ⟨.kept rfl rfl, rfl, (if_pos messageCb).symm⟩
          · next none =>
              rw [Buffer.pop_eq]
              exact ⟨.kept rfl rfl, rfl, (if_neg none).symm⟩

theorem does_handleWrite {result : WriteResult}
    (fits : result.accepted ≤ s.conn.writeBuf.getSize) :
    s.Does (.write result) (s.handleWrite result).conn := by
  unfold handleWrite
  split
  · cases result with
    | error errno =>
        cases errno with
        | again => exact ⟨.kept rfl rfl, rfl, rfl⟩
        | intr => exact ⟨.kept rfl rfl, rfl, rfl⟩
        | other =>
            exact ⟨moved_fullClose s _ rfl rfl, fullClose_writeBuf _, fullClose_readBuf _⟩
    | wrote count =>
        cases count with
        | zero => exact ⟨.kept rfl rfl, rfl, rfl⟩
        | succ count =>
            dsimp only
            split
            · next empty =>
                split
                · exact ⟨.kept rfl rfl, rfl, rfl⟩
                · exact ⟨moved_lowered rfl rfl (.inl empty), lowered_writeBuf _,
                    lowered_readBuf _⟩
            · split
              · exact ⟨.kept rfl rfl, rfl, rfl⟩
              · exact ⟨.kept rfl rfl, rfl, rfl⟩
  · next nothing =>
      have none : result.accepted = 0 := by omega
      refine ⟨.kept rfl rfl, ?_, rfl⟩
      rw [writeBufBehind, Buffer.popTo_eq, none]
      rfl

theorem does_sendData (msg : Bytes) :
    s.Does (.call (.sendData msg)) (s.call (.sendData msg)).conn := by
  rw [call]
  split
  · next full =>
      have refused : ¬ s.Takes msg := fun takes => Nat.not_le_of_lt takes.2 full.2
      refine ⟨moved_fullClose s _ rfl rfl, ?_, fullClose_readBuf _⟩
      rw [fullClose_writeBuf, writeBufBehind, if_neg refused]
  · next notFull =>
      unfold TCPConnection.sendData
      by_cases connecting : s.conn.state = .connecting
      · have room : ¬ maxWriteBufSize ≤ s.conn.writeBuf.getSize + msg.length :=
          fun full => notFull ⟨connecting, full⟩
        have takes : s.Takes msg := ⟨connecting, Nat.lt_of_not_le room⟩
        rw [if_pos connecting, if_neg room]
        exact ⟨.kept rfl rfl, (if_pos takes).symm, rfl⟩
      · have refused : ¬ s.Takes msg := fun takes => connecting takes.1
        rw [if_neg connecting]
        exact ⟨.kept rfl rfl, (if_neg refused).symm, rfl⟩

theorem does_halfClose : s.Does (.call .halfClose) (s.finish s.conn.halfClose).conn := by
  unfold TCPConnection.halfClose
  split
  · next connecting =>
      dsimp only
      split
      · next empty => exact ⟨.halved connecting rfl (.inr ⟨rfl, empty.1⟩), rfl, rfl⟩
      · exact ⟨.halved connecting rfl (.inl rfl), rfl, rfl⟩
  · exact ⟨.kept rfl rfl, rfl, rfl⟩

theorem does_pop {len : Int} (writes : s.writeBufBehind event = s.conn.writeBuf)
    (pops : s.readBufBehind event = s.readBufPopped len) :
    s.Does event (s.finish (s.conn.popDataLen len)).conn := by
  cases popped : s.conn.popDataLen len with
  | ok conn =>
      have readBuf : conn.readBuf = s.readBufPopped len := by
        rw [readBufPopped, popped]
      obtain ⟨-, _, -, rfl⟩ := TCPConnection.of_popDataLen popped
      exact ⟨.kept rfl rfl, writes.symm, readBuf.trans pops.symm⟩
  | error assertion =>
      have readBuf : s.conn.readBuf = s.readBufPopped len := by
        rw [readBufPopped, popped]
      exact ⟨.kept rfl rfl, writes.symm, readBuf.trans pops.symm⟩

theorem does_call (call : UserCall) : s.Does (.call call) (s.call call).conn := by
  cases call with
  | sendData msg => exact does_sendData msg
  | popData => exact does_pop rfl rfl
  | popDataLen len => exact does_pop rfl rfl
  | halfClose => exact does_halfClose
  | fullClose => exact ⟨moved_fullClose s _ rfl rfl, fullClose_writeBuf _, fullClose_readBuf _⟩

/-- What one step does to the connection. -/
theorem does_of_step (taken : s.step event = some next) : s.Does event next.conn := by
  cases event with
  | read result =>
      obtain ⟨-, rfl⟩ := of_guarded taken
      exact does_handleRead result
  | write result =>
      obtain ⟨⟨-, -, fits⟩, rfl⟩ := of_guarded taken
      exact does_handleWrite fits
  | call call =>
      obtain ⟨-, rfl⟩ := of_guarded taken
      exact does_call call
  | returned =>
      simp only [step] at taken
      split at taken
      · cases taken
      · next innermost rest waiting =>
          obtain ⟨-, rfl⟩ := of_guarded taken
          cases innermost with
          | messageCb => exact ⟨.kept rfl rfl, rfl, rfl⟩
          | writeLower =>
              refine ⟨moved_lowered rfl rfl (.inr ⟨rfl, ?_⟩), lowered_writeBuf _,
                lowered_readBuf _⟩
              rw [waiting]
              rfl
          | writeHigh => exact ⟨.kept rfl rfl, rfl, rfl⟩
          | closeCb => exact ⟨.kept rfl rfl, rfl, rfl⟩

end step

end BacklogRun

namespace Stream

def start (userCb : Bool → UserCallback) : Stream where
  ends := fun side => { run := .start (userCb side) }

/--
What the kernel may answer: a write is accepted before the end is shut down, a read stores what
is under way, and it returns `0` behind the last byte of an end that was shut down.
-/
def Answers (s : Stream) (side : Bool) : BacklogEvent → Prop
  | .write (.wrote (_ + 1)) => (s.ends side).run.conn.shutdowns = [] ∧ s.broken = false
  | .read (.data []) => s.broken = true ∨ .rdwr ∈ (s.ends side).run.conn.shutdowns ∨
      (s.ends !side).wire = [] ∧ (s.ends !side).run.conn.shutdowns ≠ []
  | .read (.data bytes) => bytes <+: (s.ends !side).wire ∧ s.broken = false
  | _ => True

instance (s : Stream) (side : Bool) : DecidablePred (s.Answers side)
  | .write (.wrote (_ + 1)) => inferInstanceAs (Decidable (_ ∧ _))
  | .write (.wrote 0) => .isTrue trivial
  | .write (.error _) => .isTrue trivial
  | .read (.data []) => inferInstanceAs (Decidable (_ ∨ _ ∨ _ ∧ _))
  | .read (.data (_ :: _)) => inferInstanceAs (Decidable (_ ∧ _))
  | .read (.error _) => .isTrue trivial
  | .call _ => .isTrue trivial
  | .returned => .isTrue trivial

/-- The read returns the end of the stream of an end that was only half closed. -/
def EndsNow (s : Stream) (event : BacklogEvent) : Prop :=
  event = .read (.data []) ∧ s.broken = false ∧
    ∀ other, .rdwr ∉ (s.ends other).run.conn.shutdowns

instance (s : Stream) (event : BacklogEvent) : Decidable (s.EndsNow event) :=
  inferInstanceAs (Decidable (_ ∧ _ ∧ _))

def readBytes : BacklogEvent → Bytes
  | .read result => result.bytes
  | _ => []

/-- One end makes a step; what it reads leaves the wire of the other. -/
def move (s : Stream) (side : Bool) (event : BacklogEvent) (run : BacklogRun) : Stream :=
  { s with
    ends := fun other =>
      if other = side then
        { s.ends side with
          run := run
          sent := (s.ends side).sent ++ (s.ends side).run.takenBy event
          wire := (s.ends side).wire ++ (s.ends side).run.acceptedBy event
          taken := (s.ends side).taken ++ (s.ends side).run.poppedBy event
          ended := (s.ends side).ended || decide (s.EndsNow event) }
      else { s.ends other with wire := (s.ends other).wire.drop (readBytes event).length } }

/-- One step of one end, or of the network. -/
def step (s : Stream) : StreamEvent → Option Stream
  | .at side event =>
      if s.Answers side event then ((s.ends side).run.step event).map (s.move side event)
      else none
  | .break_ => some { s with
      ends := fun side => { s.ends side with wire := [] }
      broken := true }

/--
A segment ends at a position of an `int`, and `pop_data(len)` takes all that `get_data()` shows;
`write_buf` keeps what it holds, and is empty when a half closed connection is shut down.
-/
def KeepsStream (s : BacklogRun) : BacklogEvent → Prop
  | .read result => s.conn.readBuf.rightWritePtr + result.bytes.length < 2147483648
  | .call (.popDataLen len) => len = s.conn.readBuf.getSize
  | .call (.sendData msg) =>
      s.Takes msg → s.conn.writeBuf.pushGrows msg → s.conn.writeBuf.CarriedOver
  | .returned => s.waiting.head? = some .writeLower → s.conn.state = .halfClose →
      s.conn.writeBuf.getSize = 0
  | _ => True

instance (s : BacklogRun) : DecidablePred (KeepsStream s)
  | .call (.sendData msg) =>
      inferInstanceAs (Decidable (s.Takes msg → s.conn.writeBuf.leftReadPtr +
        s.conn.writeBuf.remainRight < msg.length → ∀ index, index < s.conn.writeBuf.rightWritePtr →
          max s.conn.writeBuf.leftReadPtr s.conn.writeBuf.buf.size ≤ index →
            s.conn.writeBuf.buf.storage[index]? = some 0))
  | .returned => inferInstanceAs (Decidable (_ → _ → _))
  | .read _ => inferInstanceAs (Decidable (_ < _))
  | .call (.popDataLen _) => inferInstanceAs (Decidable (_ = _))
  | .write _ => .isTrue trivial
  | .call .popData => .isTrue trivial
  | .call .halfClose => .isTrue trivial
  | .call .fullClose => .isTrue trivial

/-- The conditions on the steps of both ends. -/
def Keeps (s : Stream) : StreamEvent → Prop
  | .at side event => KeepsStream (s.ends side).run event
  | .break_ => True

instance (s : Stream) : DecidablePred s.Keeps
  | .at side event => inferInstanceAs (Decidable (KeepsStream (s.ends side).run event))
  | .break_ => .isTrue trivial

/--
An end has received what the other end has sent, up to what is under way or in the other's
`write_buf`; a broken stream has delivered a front part.  Behind the end of the stream all that
was sent is received.
-/
structure Delivers (s : Stream) : Prop where
  whole : s.broken = false → ∀ side, (s.ends !side).received ++ (s.ends side).wire ++
    (s.ends side).run.conn.writeBuf.peek = (s.ends side).sent
  front : ∀ side, (s.ends !side).received <+: (s.ends side).sent
  ended : ∀ side, (s.ends side).ended = true → (s.ends side).received = (s.ends !side).sent
  /-- the positions are those of the `int`s -/
  fits : ∀ side, (s.ends side).run.conn.readBuf.rightWritePtr < 2147483648 ∧
    (s.ends side).run.conn.writeBuf.rightWritePtr < 2147483648

/-! ## Nothing is lost or doubled -/

/-- A connection that is shut down for writing alone has written all that it was given. -/
def ShutEmpty (conn : TCPConnection) : Prop :=
  conn.shutdowns ≠ [] → .rdwr ∉ conn.shutdowns →
    conn.state = .halfClose ∧ conn.writeBuf.getSize = 0

/-- A `read_buf` that was only read into and popped: a reallocation carries over all of it. -/
structure ReadBufSound (buffer : Buffer) : Prop where
  wf : buffer.Wf
  full : buffer.buf.size = buffer.buf.capacity
  fits : buffer.rightWritePtr < 2147483648

/-- The end of the stream has been read: the other end sends nothing more. -/
structure Over (reader writer : StreamEnd) : Prop where
  all : reader.received = writer.sent
  nothing : writer.wire = []
  shut : writer.run.conn.shutdowns ≠ []
  silent : writer.run.conn.state ≠ .connecting

structure Inv (s : Stream) : Prop where
  wf : ∀ side, (s.ends side).run.conn.writeBuf.Wf
  small : ∀ side,
    (s.ends side).run.conn.writeBuf.buf.capacity ≤ Buffer.capacityBound maxWriteBufSize
  read : ∀ side, ReadBufSound (s.ends side).run.conn.readBuf
  whole : s.broken = false → ∀ side, (s.ends !side).received ++ (s.ends side).wire ++
    (s.ends side).run.conn.writeBuf.peek = (s.ends side).sent
  broken : s.broken = true → ∀ side,
    (s.ends !side).received <+: (s.ends side).sent ∧ (s.ends side).wire = []
  shut : ∀ side, ShutEmpty (s.ends side).run.conn
  allRead : ∀ side, (s.ends side).ended = true → Over (s.ends side) (s.ends !side)

theorem ReadBufSound.new : ReadBufSound .new where
  wf := Buffer.new_wf
  full := by simp [Buffer.new, CharVector.ofSize, CharVector.capacity]
  fits := by decide

theorem start_inv (userCb : Bool → UserCallback) : (start userCb).Inv where
  wf := fun _ => Buffer.new_wf
  small := fun _ => Buffer.new_capacity_le _
  read := fun _ => .new
  whole := fun _ _ => by simp [StreamEnd.received, start, BacklogRun.start, TCPConnection.new]
  broken := by
    intro broken
    cases broken
  shut := by
    intro side shut
    exact absurd rfl shut
  allRead := by
    intro side ended
    cases ended

section steps

variable {s next : BacklogRun} {event : BacklogEvent}

/-- An empty `write_buf` that no message enters stays empty. -/
theorem getSize_writeBufBehind (closing : s.conn.state ≠ .connecting)
    (empty : s.conn.writeBuf.getSize = 0) : (s.writeBufBehind event).getSize = 0 := by
  unfold BacklogRun.writeBufBehind
  split
  · rw [Buffer.popTo_eq]
    simp only [Buffer.getSize] at *
    omega
  · rw [if_neg fun takes => closing takes.1]
    exact empty
  · exact empty

theorem ShutEmpty.step (empty : ShutEmpty s.conn) (keeps : KeepsStream s event)
    (taken : s.step event = some next) : ShutEmpty next.conn := by
  obtain ⟨moved, writeBuf, -⟩ := BacklogRun.does_of_step taken
  intro shut half
  cases moved with
  | kept state shutdowns =>
      rw [shutdowns] at shut half
      obtain ⟨halfClosed, nothing⟩ := empty shut half
      refine ⟨state.trans halfClosed, ?_⟩
      rw [writeBuf]
      exact getSize_writeBufBehind (by rw [halfClosed]; exact State.noConfusion) nothing
  | closed state shutdowns =>
      rw [shutdowns] at half
      exact absurd (List.mem_append_right _ (List.mem_singleton.mpr rfl)) half
  | halved connecting state shutdowns =>
      refine ⟨state, ?_⟩
      rcases shutdowns with same | ⟨-, nothing⟩
      · rw [same] at shut half
        have halfClosed := (empty shut half).1
        rw [connecting] at halfClosed
        cases halfClosed
      · exact nothing
  | lowered state same shutdowns nothing =>
      refine ⟨same.trans state, ?_⟩
      rcases nothing with nothing | ⟨rfl, waiting⟩
      · exact nothing
      · rw [writeBuf]
        exact keeps waiting state

/-- What leaves `write_buf` is accepted, and what enters it was taken over. -/
theorem stream_of_step (wf : s.conn.writeBuf.Wf) (keeps : KeepsStream s event)
    (taken : s.step event = some next) :
    next.conn.writeBuf.Wf ∧
      s.acceptedBy event ++ next.conn.writeBuf.peek = s.conn.writeBuf.peek ++ s.takenBy event := by
  rw [(BacklogRun.does_of_step taken).writeBuf]
  cases event with
  | write result =>
      obtain ⟨⟨-, -, fits⟩, -⟩ := of_guarded taken
      refine ⟨wf.popTo fits, ?_⟩
      simp [BacklogRun.acceptedBy, BacklogRun.writeBufBehind, BacklogRun.takenBy,
        Buffer.popTo_peek]
  | call call =>
      cases call with
      | sendData msg =>
          simp only [BacklogRun.acceptedBy, BacklogRun.writeBufBehind, BacklogRun.takenBy]
          split
          · next takes => exact ⟨wf.push msg, (wf.push_peek_iff msg).mpr (keeps takes)⟩
          · exact ⟨wf, by simp⟩
      | _ => exact ⟨wf, by simp [BacklogRun.acceptedBy, BacklogRun.writeBufBehind,
          BacklogRun.takenBy]⟩
  | _ => exact ⟨wf, by simp [BacklogRun.acceptedBy, BacklogRun.writeBufBehind,
      BacklogRun.takenBy]⟩

/-- A message that is taken over makes `write_buf` larger for want of room only. -/
theorem writeBuf_small_of_step (wf : s.conn.writeBuf.Wf)
    (small : s.conn.writeBuf.buf.capacity ≤ Buffer.capacityBound maxWriteBufSize)
    (taken : s.step event = some next) :
    next.conn.writeBuf.buf.capacity ≤ Buffer.capacityBound maxWriteBufSize := by
  rw [(BacklogRun.does_of_step taken).writeBuf]
  unfold BacklogRun.writeBufBehind
  split
  · rw [Buffer.popTo_eq]
    exact small
  · next msg =>
      split
      · next takes =>
          have below := takes.2
          have pushed : s.conn.writeBuf.call (.push msg) = some (s.conn.writeBuf.push msg) := rfl
          have unread : s.conn.writeBuf.getSize ≤ maxWriteBufSize := by omega
          have string : msg.length ≤ maxWriteBufSize := by omega
          have law := (wf.enlargesForNeed_iff pushed).mpr trivial
          exact wf.call_capacity_le pushed law unread string small
      · exact small
  · exact small

/-! ### What a step does to `read_buf` -/

section readBuf

variable {buffer after : Buffer}

theorem ReadBufSound.pushFrom (sound : ReadBufSound buffer) {result : ReadResult}
    (offered : result.bytes.length ≤ buffer.offeredRoom)
    (short : buffer.rightWritePtr + result.bytes.length < 2147483648) :
    ReadBufSound (buffer.pushFrom result).2 ∧
      (buffer.pushFrom result).2.peek = buffer.peek ++ result.bytes := by
  have below : buffer.rightWritePtr ≤ buffer.buf.size := by
    rw [sound.full]
    exact sound.wf.inside
  refine ⟨⟨sound.wf.pushFrom offered, sound.wf.pushFrom_full sound.full offered, ?_⟩, ?_⟩
  · rw [(buffer.pushFrom_positions result).2]
    exact short
  · exact (sound.wf.pushFrom_peek_iff offered).mpr fun _ => Buffer.carriedOver_of_le_size below

/-- A pop moves behind all that was unread. -/
theorem ReadBufSound.popLen (sound : ReadBufSound buffer) {len : Int}
    (popped : buffer.popLen len = .ok after) : ReadBufSound after ∧ after.peek = [] := by
  have ordered := sound.wf.ordered
  have behind : buffer.leftReadPtr + buffer.getSize = buffer.rightWritePtr :=
    Nat.add_sub_cancel' ordered
  unfold Buffer.popLen at popped
  split at popped
  · cases popped
    rw [behind]
    refine ⟨⟨⟨Nat.le_refl _, sound.wf.inside, sound.wf.initial⟩, sound.full, sound.fits⟩, ?_⟩
    exact CharVector.range_self _ _
  · cases popped

end readBuf

/-- `read_buf` stays sound, and what leaves it and what it shows is what it showed and was read. -/
structure ReadMoved (s : BacklogRun) (event : BacklogEvent) (readBuf : Buffer) : Prop where
  sound : ReadBufSound readBuf
  shown : s.poppedBy event ++ readBuf.peek = s.conn.readBuf.peek ++ readBytes event

/-- `pop_data(len)` takes what it pops when that is all. -/
theorem readBufPopped_sound (sound : ReadBufSound s.conn.readBuf) {len : Int}
    (all : len = s.conn.readBuf.getSize) : ReadBufSound (s.readBufPopped len) ∧
      s.poppedLen len ++ (s.readBufPopped len).peek = s.conn.readBuf.peek := by
  unfold BacklogRun.readBufPopped BacklogRun.poppedLen
  cases popped : s.conn.popDataLen len with
  | error assertion => exact ⟨sound, rfl⟩
  | ok conn =>
      obtain ⟨-, readBuf, taken, rfl⟩ := TCPConnection.of_popDataLen popped
      obtain ⟨emptied, nothing⟩ := sound.popLen taken
      have length := sound.wf.peek_length
      refine ⟨emptied, ?_⟩
      change _ ++ readBuf.peek = _
      rw [nothing, List.append_nil]
      apply List.take_of_length_le
      omega

/-- `handle_read` stores what it reads, and without a `message_cb` pops it. -/
theorem readMoved_read (sound : ReadBufSound s.conn.readBuf) {result : ReadResult}
    (offered : result.bytes.length ≤ s.conn.readBuf.offeredRoom)
    (short : s.conn.readBuf.rightWritePtr + result.bytes.length < 2147483648) :
    ReadMoved s (.read result) (s.readBufBehind (.read result)) := by
  obtain ⟨stored, shown⟩ := sound.pushFrom offered short
  cases result with
  | error errno => exact ⟨stored, shown⟩
  | data bytes =>
      cases bytes with
      | nil => exact ⟨stored, shown⟩
      | cons byte rest =>
          by_cases messageCb : s.userCb.messageCb = true
          · constructor
            · rw [BacklogRun.readBufBehind, if_pos messageCb]
              exact stored
            · rw [BacklogRun.poppedBy, BacklogRun.readBufBehind, if_pos messageCb,
                if_pos messageCb]
              exact shown
          · obtain ⟨emptied, nothing⟩ := stored.popLen (Buffer.pop_eq _)
            constructor
            · rw [BacklogRun.readBufBehind, if_neg messageCb]
              exact emptied
            · rw [BacklogRun.poppedBy, BacklogRun.readBufBehind, if_neg messageCb,
                if_neg messageCb, nothing, List.append_nil]
              exact shown

/-- What a step reads enters `read_buf`, and what leaves it is taken. -/
theorem readMoved_of_step (sound : ReadBufSound s.conn.readBuf) (keeps : KeepsStream s event)
    (taken : s.step event = some next) : ReadMoved s event next.conn.readBuf := by
  have popped {len : Int} (all : len = s.conn.readBuf.getSize)
      (pops : s.poppedBy event = s.poppedLen len)
      (behind : s.readBufBehind event = s.readBufPopped len) (none : readBytes event = []) :
      ReadMoved s event (s.readBufBehind event) := by
    rw [behind]
    obtain ⟨stays, shown⟩ := readBufPopped_sound sound all
    refine ⟨stays, ?_⟩
    rw [pops, none, List.append_nil]
    exact shown
  have kept (pops : s.poppedBy event = []) (none : readBytes event = []) :
      ReadMoved s event s.conn.readBuf := by
    refine ⟨sound, ?_⟩
    rw [pops, none, List.nil_append, List.append_nil]
  rw [(BacklogRun.does_of_step taken).readBuf]
  cases event with
  | read result =>
      obtain ⟨⟨-, -, offered⟩, -⟩ := of_guarded taken
      exact readMoved_read sound offered keeps
  | write result => exact kept rfl rfl
  | call call =>
      cases call with
      | popData => exact popped rfl rfl rfl rfl
      | popDataLen len => exact popped keeps rfl rfl rfl
      | sendData msg => exact kept rfl rfl
      | halfClose => exact kept rfl rfl
      | fullClose => exact kept rfl rfl
  | returned => exact kept rfl rfl

/-- A connection that closes goes on closing. -/
theorem closing_of_step (taken : s.step event = some next) :
    (s.conn.state ≠ .connecting → next.conn.state ≠ .connecting) ∧
      (s.conn.shutdowns ≠ [] → next.conn.shutdowns ≠ []) := by
  cases (BacklogRun.does_of_step taken).moved with
  | kept state shutdowns => exact ⟨by rw [state]; exact id, by rw [shutdowns]; exact id⟩
  | closed state shutdowns =>
      exact ⟨fun _ => by rw [state]; exact State.noConfusion, fun _ => by simp [shutdowns]⟩
  | halved connecting state shutdowns =>
      refine ⟨fun closing => absurd connecting closing, fun shut => ?_⟩
      rcases shutdowns with same | ⟨more, -⟩
      · rwa [same]
      · simp [more]
  | lowered state same shutdowns empty =>
      exact ⟨by rw [same]; exact id, fun _ => by simp [shutdowns]⟩

end steps

section inv

variable {s next : Stream} {side : Bool} {event : BacklogEvent}

theorem readBytes_prefix (answers : s.Answers side event) :
    readBytes event <+: (s.ends !side).wire ∧ (s.broken = true → readBytes event = []) := by
  cases event with
  | read result =>
      cases result with
      | error errno => exact ⟨List.nil_prefix, fun _ => rfl⟩
      | data bytes =>
          cases bytes with
          | nil => exact ⟨List.nil_prefix, fun _ => rfl⟩
          | cons byte rest =>
              refine ⟨answers.1, fun broken => ?_⟩
              rw [answers.2] at broken
              cases broken
  | _ => exact ⟨List.nil_prefix, fun _ => rfl⟩

theorem acceptedBy_eq_nil (answers : s.Answers side event)
    (stopped : s.broken = true ∨ (s.ends side).run.conn.shutdowns ≠ []) :
    (s.ends side).run.acceptedBy event = [] := by
  cases event with
  | write result =>
      cases result with
      | error errno => rfl
      | wrote count =>
          cases count with
          | zero => rfl
          | succ count =>
              rcases stopped with broken | shut
              · rw [answers.2] at broken
                cases broken
              · exact absurd answers.1 shut
  | _ => rfl

theorem takenBy_eq_nil {run : BacklogRun} (closing : run.conn.state ≠ .connecting) :
    run.takenBy event = [] := by
  unfold BacklogRun.takenBy
  split
  · exact if_neg fun takes => closing takes.1
  · rfl

/-- The end of the stream is read behind all that was sent. -/
theorem Inv.over_of_endsNow (inv : s.Inv) (answers : s.Answers side event)
    (endsNow : s.EndsNow event) : Over (s.ends side) (s.ends !side) := by
  obtain ⟨rfl, unbroken, open_⟩ := endsNow
  rcases answers with broken | own | ⟨nothing, shut⟩
  · rw [unbroken] at broken
    cases broken
  · exact absurd own (open_ side)
  · obtain ⟨state, empty⟩ := inv.shut (!side) shut (open_ _)
    have all := inv.whole unbroken (!side)
    have noPeek : (s.ends !side).run.conn.writeBuf.peek = [] := by
      apply List.eq_nil_of_length_eq_zero
      rw [(inv.wf _).peek_length, empty]
    rw [Bool.not_not, nothing, noPeek, List.append_nil, List.append_nil] at all
    exact ⟨all, nothing, shut, by rw [state]; exact State.noConfusion⟩

theorem forall_side {holds : Bool → Prop} (side : Bool) (here : holds side)
    (there : holds !side) : ∀ other, holds other := by
  intro other
  by_cases same : other = side
  · exact same ▸ here
  · have opposite : other = !side := by
      cases other <;> cases side <;> simp_all
    exact opposite ▸ there

theorem move_here (s : Stream) (side : Bool) (event : BacklogEvent) (run : BacklogRun) :
    (s.move side event run).ends side =
      { s.ends side with
        run := run
        sent := (s.ends side).sent ++ (s.ends side).run.takenBy event
        wire := (s.ends side).wire ++ (s.ends side).run.acceptedBy event
        taken := (s.ends side).taken ++ (s.ends side).run.poppedBy event
        ended := (s.ends side).ended || decide (s.EndsNow event) } :=
  if_pos rfl

theorem move_there (s : Stream) (side : Bool) (event : BacklogEvent) (run : BacklogRun) :
    (s.move side event run).ends (!side) =
      { s.ends (!side) with wire := (s.ends !side).wire.drop (readBytes event).length } :=
  if_neg (by simp)

/-- An end has received what it reads. -/
theorem received_here {run : BacklogRun}
    (moved : ReadMoved (s.ends side).run event run.conn.readBuf) :
    ((s.move side event run).ends side).received =
      (s.ends side).received ++ readBytes event := by
  rw [move_here, StreamEnd.received, StreamEnd.received]
  change (s.ends side).taken ++ _ ++ run.conn.readBuf.peek = _
  rw [List.append_assoc, moved.shown, List.append_assoc]

theorem received_there (s : Stream) (side : Bool) (event : BacklogEvent) (run : BacklogRun) :
    ((s.move side event run).ends !side).received = (s.ends !side).received := by
  rw [move_there]
  rfl

/-- What is read was next on the wire. -/
theorem read_wire {received bytes wire : Bytes} (next : bytes <+: wire) :
    received ++ bytes ++ wire.drop bytes.length = received ++ wire := by
  obtain ⟨rest, rfl⟩ := next
  rw [List.drop_left, List.append_assoc]

/-- One end makes a step. -/
theorem Inv.move (inv : s.Inv) {run : BacklogRun} (answers : s.Answers side event)
    (keeps : KeepsStream (s.ends side).run event)
    (taken : (s.ends side).run.step event = some run) : (s.move side event run).Inv := by
  obtain ⟨reads, readsNone⟩ := readBytes_prefix answers
  obtain ⟨wf, stream⟩ := stream_of_step (inv.wf side) keeps taken
  obtain ⟨closing, shut⟩ := closing_of_step taken
  have moved := readMoved_of_step (inv.read side) keeps taken
  have here := received_here moved
  have there := s.received_there side event run
  constructor
  · refine forall_side side ?_ ?_
    · rw [move_here]
      exact wf
    · rw [move_there]
      exact inv.wf _
  · refine forall_side side ?_ ?_
    · rw [move_here]
      exact writeBuf_small_of_step (inv.wf side) (inv.small side) taken
    · rw [move_there]
      exact inv.small _
  · refine forall_side side ?_ ?_
    · rw [move_here]
      exact moved.sound
    · rw [move_there]
      exact inv.read _
  · intro unbroken
    refine forall_side side ?_ ?_
    · rw [there, move_here]
      have whole := inv.whole unbroken side
      calc
        (s.ends !side).received ++ ((s.ends side).wire ++ (s.ends side).run.acceptedBy event) ++
            run.conn.writeBuf.peek
          = (s.ends !side).received ++ (s.ends side).wire ++
              ((s.ends side).run.acceptedBy event ++ run.conn.writeBuf.peek) := by
            simp only [List.append_assoc]
        _ = (s.ends side).sent ++ (s.ends side).run.takenBy event := by
            rw [stream, ← List.append_assoc, whole]
    · rw [Bool.not_not, here, move_there]
      have whole := inv.whole unbroken (!side)
      rw [Bool.not_not] at whole
      change (s.ends side).received ++ readBytes event ++
        (s.ends !side).wire.drop (readBytes event).length ++ _ = _
      rw [read_wire reads]
      exact whole
  · intro broken
    have none := readsNone broken
    refine forall_side side ?_ ?_
    · rw [there, move_here]
      obtain ⟨front, nothing⟩ := inv.broken broken side
      refine ⟨front.trans (List.prefix_append _ _), ?_⟩
      change (s.ends side).wire ++ _ = []
      rw [nothing, acceptedBy_eq_nil answers (.inl broken), List.append_nil]
    · rw [Bool.not_not, here, move_there]
      obtain ⟨front, nothing⟩ := inv.broken broken (!side)
      rw [Bool.not_not] at front
      refine ⟨?_, ?_⟩
      · rw [none, List.append_nil]
        exact front
      · change (s.ends !side).wire.drop _ = []
        rw [nothing, List.drop_nil]
  · refine forall_side side ?_ ?_
    · rw [move_here]
      exact (inv.shut side).step keeps taken
    · rw [move_there]
      exact inv.shut _
  · refine forall_side side ?_ ?_
    · intro ended
      rw [move_here] at ended
      have allRead : Over (s.ends side) (s.ends !side) := by
        rcases Bool.or_eq_true_iff.mp ended with before | now
        · exact inv.allRead side before
        · exact inv.over_of_endsNow answers (of_decide_eq_true now)
      rw [allRead.nothing] at reads
      have none : readBytes event = [] := List.prefix_nil.mp reads
      rw [none, List.append_nil] at here
      rw [move_there]
      refine ⟨here.trans allRead.all, ?_, allRead.shut, allRead.silent⟩
      change (s.ends !side).wire.drop _ = []
      rw [allRead.nothing, List.drop_nil]
    · intro ended
      rw [move_there] at ended
      have allRead := inv.allRead (!side) ended
      rw [Bool.not_not] at allRead ⊢
      rw [move_here]
      refine ⟨there.trans ?_, ?_, shut allRead.shut, closing allRead.silent⟩
      · change (s.ends !side).received = (s.ends side).sent ++ _
        rw [takenBy_eq_nil allRead.silent, List.append_nil]
        exact allRead.all
      · change (s.ends side).wire ++ _ = []
        rw [allRead.nothing, acceptedBy_eq_nil answers (.inr allRead.shut), List.append_nil]

theorem Inv.front (inv : s.Inv) (side : Bool) :
    (s.ends !side).received <+: (s.ends side).sent := by
  cases broken : s.broken with
  | true => exact (inv.broken broken side).1
  | false =>
      rw [← inv.whole broken side, List.append_assoc]
      exact List.prefix_append _ _

theorem Inv.step (inv : s.Inv) {event : StreamEvent} (keeps : s.Keeps event)
    (taken : s.step event = some next) : next.Inv := by
  cases event with
  | «at» side event =>
      obtain ⟨answers, run, stepped, rfl⟩ := of_guarded_map taken
      exact inv.move answers keeps stepped
  | break_ =>
      cases taken
      refine ⟨inv.wf, inv.small, inv.read, ?_, fun _ side => ⟨inv.front side, rfl⟩, inv.shut,
        fun side ended => ?_⟩
      · intro unbroken
        cases unbroken
      · obtain ⟨all, -, shut, silent⟩ := inv.allRead side ended
        exact ⟨all, rfl, shut, silent⟩

theorem Inv.fits (inv : s.Inv) (side : Bool) :
    (s.ends side).run.conn.readBuf.rightWritePtr < 2147483648 ∧
      (s.ends side).run.conn.writeBuf.rightWritePtr < 2147483648 := by
  have inside := (inv.wf side).inside
  have small := inv.small side
  have bound : Buffer.capacityBound maxWriteBufSize < 2147483648 := by decide
  exact ⟨(inv.read side).fits, by omega⟩

/--
In every run of two ends in which `write_buf` keeps what it holds when it grows, and is empty
when a half closed connection is shut down, and in which `read_buf` is popped as a whole and
ends within an `int`, the users receive what the other end has sent, in order and without gaps,
and all of it in front of the end of the stream.
-/
theorem delivers_of_keeps {userCb : Bool → UserCallback} {events : List StreamEvent}
    {last : Stream} (keeps : StepsMeet Stream.step Keeps (start userCb) events)
    (run : runFrom Stream.step (start userCb) events = some last) : last.Delivers := by
  have inv : last.Inv := runFrom_guarded_invariant Inv
    (fun _ _ _ inv met taken => inv.step met taken) (start_inv userCb) keeps run
  exact ⟨inv.whole, inv.front, fun side ended => (inv.allRead side ended).all, inv.fits⟩

/-- A user with a `message_cb`, and no other callback. -/
def reader : UserCallback where
  openCb := false
  closeCb := false
  messageCb := true
  writeHigh := false
  writeLower := false

/--
One end sends three bytes and closes its half; they are written and read in two segments, and
the `message_cb` at the other end waits for both before it pops them.
-/
def threeBytes : List StreamEvent :=
  [.at true (.call (.sendData (ascii "abc"))), .at true (.call .halfClose),
    .at true (.write (.wrote 1)), .at false (.read (.data (ascii "a"))), .at false .returned,
    .at true (.write (.wrote 2)), .at false (.read (.data (ascii "bc"))),
    .at false (.call (.popDataLen 3)), .at false .returned, .at false (.read (.data []))]

theorem delivers_of_keeps_threeBytes :
    ∃ last, runFrom Stream.step (start fun _ => reader) threeBytes = some last ∧
      last.Delivers := by
  have ends : (runFrom Stream.step (start fun _ => reader) threeBytes).isSome = true := by
    decide +kernel
  obtain ⟨last, run⟩ := Option.isSome_iff_exists.mp ends
  exact ⟨last, run, delivers_of_keeps (by decide +kernel) run⟩

end inv

end Stream

end SimpleWebServer.Tcp
