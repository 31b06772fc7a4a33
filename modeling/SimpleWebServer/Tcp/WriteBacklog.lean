import SimpleWebServer.Tcp.TCPServer

/-!
# The limit on `write_buf`

`send_data` closes a connection whose `write_buf` would reach `max_write_buf_size`, and
`handle_write` calls `write_high` when it has reached it.  The handlers and `full_close` call
the user, who may call the connection again before they go on; here each of these calls is a
step, and the functions that wait for the user are a stack.
-/

namespace SimpleWebServer.Tcp

open SimpleWebServer.Base SimpleWebServer.Lib.Runs

/-- A callback of the user that a function of the connection waits for. -/
inductive Waiting where
  /-- in `handle_read` -/
  | messageCb
  /-- in `handle_write`, behind the write that left nothing -/
  | writeLower
  /-- in `handle_write` -/
  | writeHigh
  /-- in `full_close` -/
  | closeCb
  deriving DecidableEq, Repr

/-- A connection in the middle of its calls, the innermost first. -/
structure BacklogRun where
  conn : TCPConnection
  userCb : UserCallback
  waiting : List Waiting := []
  failed : Option Assertion := none

inductive BacklogEvent where
  /-- the loop calls `handle_read` -/
  | read (result : ReadResult)
  /-- the loop calls `handle_write` -/
  | write (result : WriteResult)
  /-- the user calls the connection, in a callback or between two reports -/
  | call (call : UserCall)
  /-- the innermost callback returns -/
  | returned
  deriving DecidableEq, Repr

namespace BacklogRun

def start (userCb : UserCallback) : BacklogRun where
  conn := .new
  userCb := userCb

/-- A function of the connection has returned, or thrown. -/
def finish (s : BacklogRun) : Except Assertion TCPConnection → BacklogRun
  | .ok conn => { s with conn := conn }
  | .error assertion => { s with failed := some assertion }

/-- `full_close`, up to the call of `close_cb` -/
def fullClose (s : BacklogRun) : BacklogRun :=
  if s.conn.state ≠ .fullClose then
    if s.userCb.closeCb then
      { s with conn := s.conn.beginClose.callCloseCb, waiting := .closeCb :: s.waiting }
    else { s with conn := s.conn.beginClose.addRemoveCb }
  else { s with failed := some .fullClose }

/-- A call of the user; `send_data` closes a connection whose `write_buf` is full. -/
def call (s : BacklogRun) : UserCall → BacklogRun
  | .sendData msg =>
      if s.conn.state = .connecting ∧
          maxWriteBufSize ≤ s.conn.writeBuf.getSize + msg.length then
        s.fullClose
      else s.finish (s.conn.sendData msg)
  | .popData => s.finish s.conn.popData
  | .popDataLen len => s.finish (s.conn.popDataLen len)
  | .halfClose => s.finish s.conn.halfClose
  | .fullClose => s.fullClose

/-- `handle_read`, up to the call of a callback -/
def handleRead (s : BacklogRun) (result : ReadResult) : BacklogRun :=
  let received : BacklogRun :=
    { s with conn := { s.conn with readBuf := (s.conn.readBuf.pushFrom result).2 } }
  match result with
  | .data (_ :: _) =>
      if s.userCb.messageCb then { received with waiting := .messageCb :: s.waiting }
      else
        match received.conn.readBuf.pop with
        | .ok readBuf => { received with conn := { received.conn with readBuf := readBuf } }
        | .error _ => { received with failed := some .bufferPop }
  | .error .again => received
  | .error .intr => received
  | .error .other => received.fullClose
  | .data [] => received.fullClose

/-- `handle_write` behind `write_lower` -/
def lowered (conn : TCPConnection) : TCPConnection :=
  if conn.state = .halfClose then conn.shutdown .wr else conn

/-- `handle_write`, up to the call of a callback -/
def handleWrite (s : BacklogRun) (result : WriteResult) : BacklogRun :=
  if 0 < s.conn.writeBuf.getSize then
    let sent : BacklogRun :=
      { s with conn := { s.conn with writeBuf := (s.conn.writeBuf.popTo result).2 } }
    match result with
    | .wrote (_ + 1) =>
        if sent.conn.writeBuf.getSize = 0 then
          if s.userCb.writeLower then
            { s with conn := sent.conn.disableWrite, waiting := .writeLower :: s.waiting }
          else { s with conn := lowered sent.conn.disableWrite }
        else if maxWriteBufSize ≤ sent.conn.writeBuf.getSize ∧ s.userCb.writeHigh = true then
          { sent with waiting := .writeHigh :: s.waiting }
        else sent
    | .error .again => sent
    | .error .intr => sent
    | .error .other => sent.fullClose
    -- the assertion of this branch is `assertm(-1)`, which holds
    | .wrote 0 => sent
  else { s with failed := some .handleWrite }

/-- The function behind the innermost callback goes on, and returns. -/
def goOn (s : BacklogRun) : Waiting → BacklogRun
  | .messageCb => s
  | .writeLower => { s with conn := lowered s.conn }
  | .writeHigh => s
  | .closeCb => { s with conn := s.conn.addRemoveCb }

/-- One step.  The loop calls a handler only when no other one is waiting. -/
def step (s : BacklogRun) : BacklogEvent → Option BacklogRun
  | .read result =>
      if s.failed = none ∧ s.waiting = [] ∧ result.bytes.length ≤ s.conn.readBuf.offeredRoom then
        some (s.handleRead result)
      else none
  | .write result =>
      if s.failed = none ∧ s.waiting = [] ∧ result.accepted ≤ s.conn.writeBuf.getSize then
        some (s.handleWrite result)
      else none
  | .call call => if s.failed = none then some (s.call call) else none
  | .returned =>
      match s.waiting with
      | [] => none
      | innermost :: rest =>
          if s.failed = none then some ({ s with waiting := rest }.goOn innermost) else none

/--
What the limit promises: `write_buf` is below it, so `write_high` is not called, and
`send_data` enqueues nothing that would reach it and closes the connection.
-/
structure WithinLimit (s : BacklogRun) : Prop where
  below : s.conn.writeBuf.getSize < maxWriteBufSize
  noHigh : Waiting.writeHigh ∉ s.waiting
  refused : ∀ msg, s.conn.state = .connecting →
    maxWriteBufSize ≤ s.conn.writeBuf.getSize + msg.length →
      (s.call (.sendData msg)).conn.writeBuf = s.conn.writeBuf ∧
        (s.call (.sendData msg)).conn.state = .fullClose

/-- The invariant: the positions of `write_buf` are in order and its size is below the limit. -/
structure Bounded (s : BacklogRun) : Prop where
  wf : s.conn.writeBuf.Wf
  below : s.conn.writeBuf.getSize < maxWriteBufSize
  noHigh : Waiting.writeHigh ∉ s.waiting

theorem start_bounded (userCb : UserCallback) : (start userCb).Bounded where
  wf := Buffer.new_wf
  below := show (0 : Nat) < maxWriteBufSize by decide
  noHigh := List.not_mem_nil

/-- What leaves `write_buf` alone, and does not call `write_high`, keeps the bound. -/
theorem Bounded.of_eq {s next : BacklogRun} (bounded : s.Bounded)
    (same : next.conn.writeBuf = s.conn.writeBuf) (noHigh : Waiting.writeHigh ∉ next.waiting) :
    next.Bounded where
  wf := same ▸ bounded.wf
  below := same ▸ bounded.below
  noHigh := noHigh

theorem fullClose_writeBuf (s : BacklogRun) : s.fullClose.conn.writeBuf = s.conn.writeBuf := by
  rw [fullClose]
  split_ifs <;> rfl

theorem fullClose_state {s : BacklogRun} (opened : s.conn.state ≠ .fullClose) :
    s.fullClose.conn.state = .fullClose := by
  rw [fullClose, if_pos opened]
  split_ifs <;> rfl

theorem Bounded.fullClose {s : BacklogRun} (bounded : s.Bounded) : s.fullClose.Bounded := by
  apply bounded.of_eq s.fullClose_writeBuf
  rw [BacklogRun.fullClose]
  split_ifs <;> simp [bounded.noHigh]

/-- A call that throws changes nothing. -/
theorem Bounded.finish {s : BacklogRun} (bounded : s.Bounded)
    {result : Except Assertion TCPConnection}
    (returns : ∀ conn, result = .ok conn →
      conn.writeBuf.Wf ∧ conn.writeBuf.getSize < maxWriteBufSize) : (s.finish result).Bounded := by
  cases result with
  | ok conn => exact ⟨(returns conn rfl).1, (returns conn rfl).2, bounded.noHigh⟩
  | error assertion => exact ⟨bounded.wf, bounded.below, bounded.noHigh⟩

/-- `send_data` enqueues a message only when it stays below the limit. -/
theorem Bounded.sendData {s : BacklogRun} (bounded : s.Bounded) {msg : Bytes}
    (fits : ¬ (s.conn.state = .connecting ∧
      maxWriteBufSize ≤ s.conn.writeBuf.getSize + msg.length)) :
    (s.finish (s.conn.sendData msg)).Bounded := by
  apply bounded.finish
  intro conn sent
  rw [TCPConnection.sendData] at sent
  split_ifs at sent with connecting full
  · exact absurd ⟨connecting, full⟩ fits
  · cases sent
    refine ⟨bounded.wf.push msg, ?_⟩
    change (s.conn.writeBuf.push msg).getSize < _
    rw [bounded.wf.push_getSize]
    exact Nat.lt_of_not_le full

theorem popDataLen_writeBuf {conn next : TCPConnection} {len : Int}
    (popped : conn.popDataLen len = .ok next) : next.writeBuf = conn.writeBuf := by
  obtain ⟨-, readBuf, -, rfl⟩ := TCPConnection.of_popDataLen popped
  rfl

theorem halfClose_writeBuf {conn next : TCPConnection} (closed : conn.halfClose = .ok next) :
    next.writeBuf = conn.writeBuf := by
  unfold TCPConnection.halfClose at closed
  split at closed
  · dsimp only at closed
    split at closed
    · cases closed
      rfl
    · cases closed
      rfl
  · cases closed

theorem Bounded.call {s : BacklogRun} (bounded : s.Bounded) (call : UserCall) :
    (s.call call).Bounded := by
  have kept {conn : TCPConnection} (same : conn.writeBuf = s.conn.writeBuf) :
      conn.writeBuf.Wf ∧ conn.writeBuf.getSize < maxWriteBufSize :=
    same ▸ ⟨bounded.wf, bounded.below⟩
  cases call with
  | sendData msg =>
      rw [BacklogRun.call]
      split_ifs with full
      · exact bounded.fullClose
      · exact bounded.sendData full
  | popData => exact bounded.finish fun conn popped => kept (popDataLen_writeBuf popped)
  | popDataLen len => exact bounded.finish fun conn popped => kept (popDataLen_writeBuf popped)
  | halfClose => exact bounded.finish fun conn closed => kept (halfClose_writeBuf closed)
  | fullClose => exact bounded.fullClose

theorem Bounded.handleRead {s : BacklogRun} (bounded : s.Bounded) (result : ReadResult) :
    (s.handleRead result).Bounded := by
  have received : Bounded
      { s with conn := { s.conn with readBuf := (s.conn.readBuf.pushFrom result).2 } } :=
    bounded.of_eq rfl bounded.noHigh
  unfold BacklogRun.handleRead
  cases result with
  | error errno =>
      cases errno with
      | again => exact received
      | intr => exact received
      | other => exact received.fullClose
  | data bytes =>
      cases bytes with
      | nil => exact received.fullClose
      | cons byte rest =>
          dsimp only
          split_ifs
          · exact bounded.of_eq rfl (by simp [bounded.noHigh])
          · split
            · exact bounded.of_eq rfl bounded.noHigh
            · exact bounded.of_eq rfl bounded.noHigh

theorem lowered_writeBuf (conn : TCPConnection) :
    (lowered conn).writeBuf = conn.writeBuf := by
  rw [lowered]
  split_ifs <;> rfl

/-- What a write leaves is below the limit, as what was there: `write_high` is not called. -/
theorem Bounded.handleWrite {s : BacklogRun} (bounded : s.Bounded) {result : WriteResult}
    (fits : result.accepted ≤ s.conn.writeBuf.getSize) : (s.handleWrite result).Bounded := by
  have wf := bounded.wf.popTo fits
  have below : (s.conn.writeBuf.popTo result).2.getSize < maxWriteBufSize := by
    have size : (s.conn.writeBuf.popTo result).2.getSize ≤ s.conn.writeBuf.getSize := by
      rw [Buffer.popTo_eq]
      exact Nat.sub_le_sub_left (Nat.le_add_right _ _) _
    exact Nat.lt_of_le_of_lt size bounded.below
  have sent : Bounded
      { s with conn := { s.conn with writeBuf := (s.conn.writeBuf.popTo result).2 } } :=
    ⟨wf, below, bounded.noHigh⟩
  unfold BacklogRun.handleWrite
  split
  · cases result with
    | error errno =>
        cases errno with
        | again => exact sent
        | intr => exact sent
        | other => exact sent.fullClose
    | wrote count =>
        cases count with
        | zero => exact sent
        | succ count =>
            dsimp only
            split
            · split
              · exact sent.of_eq rfl (by simp [bounded.noHigh])
              · exact sent.of_eq (lowered_writeBuf _) bounded.noHigh
            · split
              · next high => exact absurd high.1 (Nat.not_le_of_lt below)
              · exact sent
  · exact bounded.of_eq rfl bounded.noHigh

theorem Bounded.goOn {s : BacklogRun} (bounded : s.Bounded) (innermost : Waiting) :
    (s.goOn innermost).Bounded := by
  cases innermost with
  | messageCb => exact bounded
  | writeLower => exact bounded.of_eq (lowered_writeBuf _) bounded.noHigh
  | writeHigh => exact bounded
  | closeCb => exact bounded.of_eq rfl bounded.noHigh

theorem Bounded.step {s next : BacklogRun} (bounded : s.Bounded) {event : BacklogEvent}
    (taken : s.step event = some next) : next.Bounded := by
  cases event with
  | read result =>
      obtain ⟨-, rfl⟩ := of_guarded taken
      exact bounded.handleRead result
  | write result =>
      obtain ⟨⟨-, -, fits⟩, rfl⟩ := of_guarded taken
      exact bounded.handleWrite fits
  | call call =>
      obtain ⟨-, rfl⟩ := of_guarded taken
      exact bounded.call call
  | returned =>
      simp only [BacklogRun.step] at taken
      split at taken
      · cases taken
      · next innermost rest waits =>
          obtain ⟨-, rfl⟩ := of_guarded taken
          have noHigh : Waiting.writeHigh ∉ rest := fun member =>
            bounded.noHigh (waits ▸ List.mem_cons_of_mem innermost member)
          have returned : Bounded { s with waiting := rest } := bounded.of_eq rfl noHigh
          exact returned.goOn innermost

theorem Bounded.withinLimit {s : BacklogRun} (bounded : s.Bounded) : s.WithinLimit where
  below := bounded.below
  noHigh := bounded.noHigh
  refused := by
    intro msg connecting full
    have opened : s.conn.state ≠ .fullClose := by
      rw [connecting]
      decide
    rw [BacklogRun.call, if_pos ⟨connecting, full⟩]
    exact ⟨s.fullClose_writeBuf, fullClose_state opened⟩

/-- Whatever the user calls, and wherever, `write_buf` stays below the limit. -/
theorem allWithinLimit (userCb : UserCallback) (events : List BacklogEvent) :
    AllStates step WithinLimit (start userCb) events :=
  allStates_of_invariant Bounded (fun _ _ _ bounded => bounded.step)
    (fun _ bounded => bounded.withinLimit) events (start_bounded userCb)

end BacklogRun

end SimpleWebServer.Tcp
