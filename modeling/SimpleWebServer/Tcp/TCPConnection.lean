import SimpleWebServer.Base.Buffer
import SimpleWebServer.Reactor.Channel

/-!
# TCP connections

`TCPConnection` connects a channel with two buffers and the user's callbacks.  Each of its
functions asserts that the state allows it; a failed `assertm` throws through the event
loop.  `shutdown` calls, calls of `close_cb` and queued removals are recorded.
-/

namespace SimpleWebServer.Tcp

open SimpleWebServer.Base SimpleWebServer.Reactor

/-- `TCPConnection::State` -/
inductive State where
  | connecting
  | halfClose
  | fullClose
  deriving DecidableEq, Repr

/-- The callbacks of the connection's channel. -/
inductive Handler where
  | handleRead
  | handleWrite
  deriving DecidableEq, Repr

/-- The second argument of `shutdown`. -/
inductive Shutdown where
  | wr
  | rdwr
  deriving DecidableEq, Repr

/-- The functions whose assertion can fail. -/
inductive Assertion where
  | halfClose
  | fullClose
  | sendData
  | popData
  | handleWrite
  /-- the assertion of `Buffer::pop` -/
  | bufferPop
  deriving DecidableEq, Repr

/-- `max_write_buf_size` -/
def maxWriteBufSize : Nat := 1024 * 1024

structure TCPConnection where
  state : State
  ch : Channel Handler
  writeBuf : Buffer
  readBuf : Buffer
  shutdowns : List Shutdown := []
  /-- how often `close_cb` was called -/
  closeCbs : Nat := 0
  /-- how often `remove_conn_cb` was added to the loop's callbacks -/
  removeCbs : Nat := 0
  writeCb_isSome : (ch.cbArr .write).isSome = true

/-- What user code may call on a connection. -/
inductive UserCall where
  | sendData (msg : Bytes)
  | popData
  | popDataLen (len : Int)
  | halfClose
  | fullClose
  deriving DecidableEq, Repr

namespace TCPConnection

/-- `TCPConnection::TCPConnection`, without the call of `open_cb` -/
def new : TCPConnection where
  state := .connecting
  ch := ((Channel.new.enableEvent .read .handleRead).enableEvent .write .handleWrite).disableEvent
    .write
  writeBuf := .new
  readBuf := .new
  writeCb_isSome := rfl

/-- `ch->enable_event(EventType::WRITE)` -/
def enableWrite (conn : TCPConnection) : TCPConnection :=
  { conn with
    ch := conn.ch.enableAgain .write conn.writeCb_isSome
    writeCb_isSome := conn.writeCb_isSome }

/-- `ch->disable_event(EventType::WRITE)` -/
def disableWrite (conn : TCPConnection) : TCPConnection :=
  { conn with
    ch := conn.ch.disableEvent .write
    writeCb_isSome := conn.writeCb_isSome }

/-- `shutdown(peer_fd, how)` -/
def shutdown (conn : TCPConnection) (how : Shutdown) : TCPConnection :=
  { conn with shutdowns := conn.shutdowns ++ [how] }

/-- `half_close` -/
def halfClose (conn : TCPConnection) : Except Assertion TCPConnection :=
  if conn.state = .connecting then
    let closing := { conn with state := .halfClose }
    if closing.writeBuf.getSize = 0 ∧ closing.ch.isEnable .write = false then
      .ok (closing.shutdown .wr)
    else .ok closing
  else .error .halfClose

/-- `full_close`; every function that `close_cb` could call on the connection asserts against it. -/
def fullClose (conn : TCPConnection) : Except Assertion TCPConnection :=
  if conn.state ≠ .fullClose then
    .ok ({ conn with
      state := .fullClose
      closeCbs := conn.closeCbs + 1
      removeCbs := conn.removeCbs + 1 }.shutdown .rdwr)
  else .error .fullClose

/-- `send_data(msg)` -/
def sendData (conn : TCPConnection) (msg : Bytes) : Except Assertion TCPConnection :=
  if conn.state = .connecting then
    if maxWriteBufSize ≤ conn.writeBuf.getSize + msg.length then conn.fullClose
    else .ok { conn with writeBuf := conn.writeBuf.push msg }.enableWrite
  else .error .sendData

/-- `pop_data(len)` -/
def popDataLen (conn : TCPConnection) (len : Int) : Except Assertion TCPConnection :=
  if conn.state ≠ .fullClose then
    match conn.readBuf.popLen len with
    | .ok readBuf => .ok { conn with readBuf := readBuf }
    | .error _ => .error .bufferPop
  else .error .popData

/-- What `pop_data(len)` has done when it returns. -/
theorem of_popDataLen {conn next : TCPConnection} {len : Int}
    (popped : conn.popDataLen len = .ok next) :
    conn.state ≠ .fullClose ∧ ∃ readBuf, conn.readBuf.popLen len = .ok readBuf ∧
      next = { conn with readBuf := readBuf } := by
  unfold popDataLen at popped
  split at popped
  · next opened =>
      split at popped
      · next readBuf inside =>
          cases popped
          exact ⟨opened, readBuf, inside, rfl⟩
      · cases popped
  · cases popped

/-- `pop_data()` -/
def popData (conn : TCPConnection) : Except Assertion TCPConnection :=
  conn.popDataLen conn.readBuf.getSize

def call (conn : TCPConnection) : UserCall → Except Assertion TCPConnection
  | .sendData msg => conn.sendData msg
  | .popData => conn.popData
  | .popDataLen len => conn.popDataLen len
  | .halfClose => conn.halfClose
  | .fullClose => conn.fullClose

/-- The calls that one invocation of a user callback makes. -/
def runCalls (conn : TCPConnection) (calls : List UserCall) : Except Assertion TCPConnection :=
  calls.foldlM call conn

@[simp]
theorem runCalls_nil (conn : TCPConnection) : conn.runCalls [] = .ok conn := rfl

theorem runCalls_cons_ok {conn next : TCPConnection} {first : UserCall}
    (called : conn.call first = .ok next) (rest : List UserCall) :
    conn.runCalls (first :: rest) = next.runCalls rest := by
  simp [runCalls, called, bind, Except.bind]

theorem runCalls_cons_error {conn : TCPConnection} {first : UserCall} {assertion : Assertion}
    (threw : conn.call first = .error assertion) (rest : List UserCall) :
    conn.runCalls (first :: rest) = .error assertion := by
  simp [runCalls, threw, bind, Except.bind]

/-- What each call that returns preserves, the calls of a callback preserve. -/
theorem runCalls_preserves {holds : TCPConnection → Prop}
    (preserved : ∀ {conn next : TCPConnection} {call : UserCall}, holds conn →
      conn.call call = .ok next → holds next)
    {calls : List UserCall} {conn next : TCPConnection} (start : holds conn)
    (ran : conn.runCalls calls = .ok next) : holds next := by
  induction calls generalizing conn with
  | nil =>
      cases ran
      exact start
  | cons first rest ih =>
      cases called : conn.call first with
      | error assertion =>
          rw [runCalls_cons_error called] at ran
          cases ran
      | ok middle =>
          rw [runCalls_cons_ok called] at ran
          exact ih (preserved start called) ran

/-- `handle_read`, with the answer of `read` and the calls of `message_cb`, if there is one -/
def handleRead (conn : TCPConnection) (read : ReadResult) (messageCb : Option (List UserCall)) :
    Except Assertion TCPConnection :=
  let received := { conn with readBuf := (conn.readBuf.pushFrom read).2 }
  match read with
  | .data (_ :: _) =>
      match messageCb with
      | some calls => received.runCalls calls
      | none =>
          match received.readBuf.pop with
          | .ok readBuf => .ok { received with readBuf := readBuf }
          | .error _ => .error .bufferPop
  | .error .again => .ok received
  | .error .intr => .ok received
  | .error .other => received.fullClose
  | .data [] => received.fullClose

/-- `handle_read` reads into `read_buf` and then makes calls. -/
theorem handleRead_preserves {holds : TCPConnection → Prop}
    (received : ∀ {conn : TCPConnection} (readBuf : Buffer), holds conn →
      holds { conn with readBuf := readBuf })
    (preserved : ∀ {conn next : TCPConnection} {call : UserCall}, holds conn →
      conn.call call = .ok next → holds next)
    {conn next : TCPConnection} {result : ReadResult} {messageCb : Option (List UserCall)}
    (start : holds conn) (handled : conn.handleRead result messageCb = .ok next) :
    holds next := by
  let behindRead := { conn with readBuf := (conn.readBuf.pushFrom result).2 }
  have behind : holds behindRead := received _ start
  have closes {last : TCPConnection} (closed : behindRead.fullClose = .ok last) : holds last := by
    have called : behindRead.call .fullClose = .ok last := closed
    exact preserved behind called
  unfold handleRead at handled
  cases result with
  | error errno =>
      cases errno with
      | again =>
          cases handled
          exact behind
      | intr =>
          cases handled
          exact behind
      | other => exact closes handled
  | data bytes =>
      cases bytes with
      | nil => exact closes handled
      | cons byte rest =>
          cases messageCb with
          | some calls => exact runCalls_preserves preserved behind handled
          | none =>
              dsimp only at handled
              split at handled
              · next readBuf _ =>
                  cases handled
                  exact received readBuf start
              · cases handled

/-- `handle_write`, with the answer of `write` and the calls of `write_lower` and `write_high` -/
def handleWrite (conn : TCPConnection) (write : WriteResult)
    (writeLower writeHigh : List UserCall) : Except Assertion TCPConnection :=
  if 0 < conn.writeBuf.getSize then
    let sent := { conn with writeBuf := (conn.writeBuf.popTo write).2 }
    match write with
    | .wrote (_ + 1) =>
        if sent.writeBuf.getSize = 0 then
          match sent.disableWrite.runCalls writeLower with
          | .ok lowered =>
              .ok (if lowered.state = .halfClose then lowered.shutdown .wr else lowered)
          | .error assertion => .error assertion
        else if maxWriteBufSize ≤ sent.writeBuf.getSize then sent.runCalls writeHigh
        else .ok sent
    | .error .again => .ok sent
    | .error .intr => .ok sent
    | .error .other => sent.fullClose
    -- the assertion of this branch is `assertm(-1)`, which holds
    | .wrote 0 => .ok sent
  else .error .handleWrite

end TCPConnection

end SimpleWebServer.Tcp
