import SimpleWebServer.Tcp.TCPConnection
import SimpleWebServer.Base.BufferFifo
import SimpleWebServer.Lib.Runs

/-!
# The close protocol of a connection

The channel of a connection stays enabled after `full_close`, and its write handler runs
behind its read handler when one report carries both events.  This module follows a
connection through its reports up to its removal.  Each handler finds the connection in the
state that the handlers before it left, and asserts.
-/

namespace SimpleWebServer.Tcp

open SimpleWebServer.Base SimpleWebServer.Reactor SimpleWebServer.Lib.Runs

namespace TCPConnection

/-- `message_cb` answers with `send_data` and then consumes with `pop_data`. -/
def answering (answer : Bytes) : List UserCall := [.sendData answer, .popData]

/-- The calls that the state of the connection allows the user. -/
def Allows (conn : TCPConnection) : UserCall → Prop
  | .sendData _ => conn.state = .connecting
  | .halfClose => conn.state = .connecting
  | .fullClose => conn.state ≠ .fullClose
  | .popData => conn.state ≠ .fullClose
  | .popDataLen len => conn.state ≠ .fullClose ∧ 0 ≤ len ∧ len ≤ conn.readBuf.getSize

instance (conn : TCPConnection) : DecidablePred conn.Allows
  | .sendData _ => inferInstanceAs (Decidable (conn.state = .connecting))
  | .halfClose => inferInstanceAs (Decidable (conn.state = .connecting))
  | .fullClose => inferInstanceAs (Decidable (conn.state ≠ .fullClose))
  | .popData => inferInstanceAs (Decidable (conn.state ≠ .fullClose))
  | .popDataLen len => inferInstanceAs (Decidable
      (conn.state ≠ .fullClose ∧ 0 ≤ len ∧ len ≤ conn.readBuf.getSize))

/-- The callback of the event has returned. -/
def clearTrigger (conn : TCPConnection) (et : EventType) : TCPConnection :=
  { conn with ch := conn.ch.clearTrigger et, writeCb_isSome := conn.writeCb_isSome }

/-- `trigger_event` for the events of a report -/
def trigger (conn : TCPConnection) (reported : EventType → Bool) : TCPConnection :=
  { conn with ch := conn.ch.triggerEvents reported, writeCb_isSome := conn.writeCb_isSome }

/-- `handle_event` has nothing left to call. -/
def Quiet (conn : TCPConnection) : Prop := ∀ et, conn.ch.triggerArr et = false

instance (conn : TCPConnection) : Decidable conn.Quiet :=
  inferInstanceAs (Decidable (∀ et, conn.ch.triggerArr et = false))

end TCPConnection

/-- A connection with the assertion that failed, if one did. -/
structure ConnRun where
  conn : TCPConnection
  failed : Option Assertion := none
  removed : Bool := false

inductive Event where
  /-- epoll reports the connection with EPOLLIN, EPOLLOUT, both or an error alone -/
  | report (reported : EventType → Bool)
  /-- `handle_read`, and the answer of `message_cb` to what it read -/
  | read (result : ReadResult) (answer : Bytes)
  /-- `handle_write` -/
  | write (result : WriteResult)
  /-- the user calls the connection between two reports -/
  | user (call : UserCall)
  /-- the loop runs the queued removal -/
  | remove

namespace ConnRun

def start : ConnRun where
  conn := .new

/-- No assertion has failed and the connection object exists. -/
def Lives (run : ConnRun) : Prop := run.failed = none ∧ run.removed = false

instance (run : ConnRun) : Decidable run.Lives :=
  inferInstanceAs (Decidable (run.failed = none ∧ run.removed = false))

/-- A call has returned, or thrown. -/
def finish (run : ConnRun) : Except Assertion TCPConnection → ConnRun
  | .ok conn => { run with conn := conn }
  | .error assertion => { run with failed := some assertion }

/-- A handler has returned to `handle_event`, or thrown through it. -/
def finishHandler (run : ConnRun) (et : EventType) : Except Assertion TCPConnection → ConnRun
  | .ok conn => { run with conn := conn.clearTrigger et }
  | .error assertion => { run with failed := some assertion }

/-- One step; the registration is level-triggered and follows the enabled events. -/
def step (run : ConnRun) : Event → Option ConnRun
  | .report reported =>
      if run.Lives ∧ run.conn.Quiet ∧ run.conn.ch.interest.Allows reported then
        some { run with conn := run.conn.trigger reported }
      else none
  | .read result answer =>
      if run.Lives ∧ run.conn.ch.triggerArr .read = true ∧
          result.bytes.length ≤ run.conn.readBuf.offeredRoom then
        some (run.finishHandler .read
          (run.conn.handleRead result (some (TCPConnection.answering answer))))
      else none
  | .write result =>
      if run.Lives ∧ run.conn.ch.triggerArr .read = false ∧
          run.conn.ch.triggerArr .write = true ∧
          result.accepted ≤ run.conn.writeBuf.getSize then
        some (run.finishHandler .write (run.conn.handleWrite result [] []))
      else none
  | .user call =>
      if run.Lives ∧ run.conn.Quiet ∧ run.conn.Allows call then
        some (run.finish (run.conn.call call))
      else none
  | .remove =>
      if run.Lives ∧ run.conn.Quiet ∧ 0 < run.conn.removeCbs then
        some { run with removed := true }
      else none

/-- The close protocol: no assertion of the three failed, and the connection closed once. -/
def Protocol (run : ConnRun) : Prop :=
  (run.failed ≠ some .fullClose ∧ run.failed ≠ some .popData ∧ run.failed ≠ some .handleWrite) ∧
    run.conn.closeCbs ≤ 1 ∧ run.conn.removeCbs ≤ 1

instance : DecidablePred Protocol := fun run =>
  inferInstanceAs (Decidable ((run.failed ≠ some .fullClose ∧ run.failed ≠ some .popData ∧
    run.failed ≠ some .handleWrite) ∧ run.conn.closeCbs ≤ 1 ∧ run.conn.removeCbs ≤ 1))

/-- What is sent leaves `write_buf` neither empty nor full. -/
def Queues (conn : TCPConnection) (msg : Bytes) : Prop :=
  0 < conn.writeBuf.getSize + msg.length ∧ conn.writeBuf.getSize + msg.length < maxWriteBufSize

/--
The condition on a step: after `full_close` neither `read` nor `write` ends the connection
again, an answer to a message fits into `write_buf`, and nobody enables the write event of
an empty `write_buf`.
-/
def Orderly (run : ConnRun) : Event → Prop
  | .read (.data (_ :: _)) answer => run.conn.state = .connecting → Queues run.conn answer
  | .read (.data []) _ => run.conn.state ≠ .fullClose
  | .read (.error .other) _ => run.conn.state ≠ .fullClose
  | .write (.error .other) => run.conn.state ≠ .fullClose
  | .user (.sendData msg) => 0 < run.conn.writeBuf.getSize + msg.length
  | _ => True

instance (conn : TCPConnection) (msg : Bytes) : Decidable (Queues conn msg) :=
  inferInstanceAs (Decidable (0 < conn.writeBuf.getSize + msg.length ∧
    conn.writeBuf.getSize + msg.length < maxWriteBufSize))

instance (run : ConnRun) : DecidablePred run.Orderly
  | .read (.data (_ :: _)) answer =>
      inferInstanceAs (Decidable (run.conn.state = .connecting → Queues run.conn answer))
  | .read (.data []) _ => inferInstanceAs (Decidable (run.conn.state ≠ .fullClose))
  | .read (.error .other) _ => inferInstanceAs (Decidable (run.conn.state ≠ .fullClose))
  | .read (.error .again) _ => .isTrue trivial
  | .read (.error .intr) _ => .isTrue trivial
  | .write (.error .other) => inferInstanceAs (Decidable (run.conn.state ≠ .fullClose))
  | .write (.error .again) => .isTrue trivial
  | .write (.error .intr) => .isTrue trivial
  | .write (.wrote _) => .isTrue trivial
  | .user (.sendData msg) =>
      inferInstanceAs (Decidable (0 < run.conn.writeBuf.getSize + msg.length))
  | .user .popData => .isTrue trivial
  | .user (.popDataLen _) => .isTrue trivial
  | .user .halfClose => .isTrue trivial
  | .user .fullClose => .isTrue trivial
  | .report _ => .isTrue trivial
  | .remove => .isTrue trivial

end ConnRun

/-! ## What the functions preserve -/

namespace TCPConnection

/--
The write event is enabled or triggered only while there is something to write, and the
connection was closed as often as its state says.
-/
structure Inv (conn : TCPConnection) : Prop where
  wf : conn.writeBuf.Wf
  interest : conn.ch.enableArr .write = true ∨ conn.ch.triggerArr .write = true →
    0 < conn.writeBuf.getSize
  closeCbs : conn.closeCbs = if conn.state = .fullClose then 1 else 0
  removeCbs : conn.removeCbs = if conn.state = .fullClose then 1 else 0

theorem new_inv : new.Inv := by
  refine ⟨Buffer.new_wf, ?_, rfl, rfl⟩
  rintro (enabled | triggered)
  · simp [new, Channel.disableEvent] at enabled
  · simp [new, Channel.disableEvent, Channel.enableEvent, Channel.new] at triggered

/-- The invariant does not look at the read buffer. -/
theorem Inv.readBuf {conn : TCPConnection} (inv : conn.Inv) (readBuf : Buffer) :
    { conn with readBuf := readBuf }.Inv :=
  ⟨inv.wf, inv.interest, inv.closeCbs, inv.removeCbs⟩

theorem Inv.shutdown {conn : TCPConnection} (inv : conn.Inv) (how : Shutdown) :
    (conn.shutdown how).Inv :=
  ⟨inv.wf, inv.interest, inv.closeCbs, inv.removeCbs⟩

theorem Inv.clearTrigger {conn : TCPConnection} (inv : conn.Inv) (et : EventType) :
    (conn.clearTrigger et).Inv := by
  refine ⟨inv.wf, ?_, inv.closeCbs, inv.removeCbs⟩
  rintro (enabled | triggered)
  · exact inv.interest (Or.inl enabled)
  · refine inv.interest (Or.inr ?_)
    simp only [TCPConnection.clearTrigger, Channel.clearTrigger] at triggered
    by_cases same : EventType.write = et
    · rw [same, Function.update_self] at triggered
      cases triggered
    · rw [Function.update_of_ne same] at triggered
      exact triggered

/-- A report carries the write event only when it is enabled. -/
theorem Inv.trigger {conn : TCPConnection} (inv : conn.Inv) {reported : EventType → Bool}
    (allows : conn.ch.interest.Allows reported) : (conn.trigger reported).Inv := by
  refine ⟨inv.wf, ?_, inv.closeCbs, inv.removeCbs⟩
  rintro (enabled | triggered)
  · exact inv.interest (Or.inl enabled)
  · simp only [TCPConnection.trigger, Channel.triggerEvents, Bool.or_eq_true] at triggered
    rcases triggered with before | now
    · exact inv.interest (Or.inr before)
    · exact inv.interest (Or.inl (allows .write now))

theorem Inv.closedOnce {conn : TCPConnection} (inv : conn.Inv) :
    conn.closeCbs ≤ 1 ∧ conn.removeCbs ≤ 1 := by
  rw [inv.closeCbs, inv.removeCbs]
  split <;> omega

theorem Inv.fullClose {conn : TCPConnection} (inv : conn.Inv) (opened : conn.state ≠ .fullClose) :
    ∃ next, conn.fullClose = .ok next ∧ next.Inv := by
  have closeCbs := inv.closeCbs
  have removeCbs := inv.removeCbs
  rw [if_neg opened] at closeCbs removeCbs
  have closed : { conn with
      state := .fullClose
      closeCbs := conn.closeCbs + 1
      removeCbs := conn.removeCbs + 1 }.Inv := by
    refine ⟨inv.wf, inv.interest, ?_, ?_⟩
    · simp [closeCbs]
    · simp [removeCbs]
  exact ⟨_, by rw [TCPConnection.fullClose, if_pos opened], closed.shutdown .rdwr⟩

theorem Inv.halfClose {conn : TCPConnection} (inv : conn.Inv)
    (connecting : conn.state = .connecting) : ∃ next, conn.halfClose = .ok next ∧ next.Inv := by
  have closing : { conn with state := .halfClose }.Inv := by
    have closeCbs := inv.closeCbs
    have removeCbs := inv.removeCbs
    rw [connecting] at closeCbs removeCbs
    exact ⟨inv.wf, inv.interest, closeCbs, removeCbs⟩
  rw [TCPConnection.halfClose, if_pos connecting]
  dsimp only
  split
  · exact ⟨_, rfl, closing.shutdown .wr⟩
  · exact ⟨_, rfl, closing⟩

theorem Inv.sendData {conn : TCPConnection} (inv : conn.Inv) {msg : Bytes}
    (connecting : conn.state = .connecting) (queues : 0 < conn.writeBuf.getSize + msg.length) :
    ∃ next, conn.sendData msg = .ok next ∧ next.Inv ∧
      (conn.writeBuf.getSize + msg.length < maxWriteBufSize → next.state = .connecting) := by
  rw [TCPConnection.sendData, if_pos connecting]
  by_cases tooLong : maxWriteBufSize ≤ conn.writeBuf.getSize + msg.length
  · rw [if_pos tooLong]
    obtain ⟨next, closed, nextInv⟩ := inv.fullClose (by rw [connecting]; nofun)
    exact ⟨next, closed, nextInv, fun below => absurd tooLong (Nat.not_le.mpr below)⟩
  · rw [if_neg tooLong]
    refine ⟨_, rfl, ⟨inv.wf.push msg, ?_, inv.closeCbs, inv.removeCbs⟩, fun _ => connecting⟩
    intro _
    change 0 < (conn.writeBuf.push msg).getSize
    rw [inv.wf.push_getSize]
    exact queues

theorem Inv.popDataLen {conn : TCPConnection} (inv : conn.Inv) {len : Int}
    (opened : conn.state ≠ .fullClose) (inside : 0 ≤ len ∧ len ≤ conn.readBuf.getSize) :
    ∃ next, conn.popDataLen len = .ok next ∧ next.Inv := by
  rw [TCPConnection.popDataLen, if_pos opened, Buffer.popLen, if_pos inside]
  exact ⟨_, rfl, inv.readBuf _⟩

theorem Inv.popData {conn : TCPConnection} (inv : conn.Inv) (opened : conn.state ≠ .fullClose) :
    ∃ next, conn.popData = .ok next ∧ next.Inv :=
  inv.popDataLen opened ⟨Int.natCast_nonneg _, Int.le_refl _⟩

theorem Inv.call {conn : TCPConnection} (inv : conn.Inv) {call : UserCall}
    (allowed : conn.Allows call)
    (queues : ∀ msg, call = .sendData msg → 0 < conn.writeBuf.getSize + msg.length) :
    ∃ next, conn.call call = .ok next ∧ next.Inv := by
  cases call with
  | sendData msg =>
      obtain ⟨next, sent, nextInv, -⟩ := inv.sendData allowed (queues msg rfl)
      exact ⟨next, sent, nextInv⟩
  | popData => exact inv.popData allowed
  | popDataLen len => exact inv.popDataLen allowed.1 allowed.2
  | halfClose => exact inv.halfClose allowed
  | fullClose => exact inv.fullClose allowed

/-- What a handler may end with: a connection in order, or the assertion of `send_data`. -/
def Ends : Except Assertion TCPConnection → Prop
  | .ok next => next.Inv
  | .error assertion => assertion = .sendData

/-- An answer that fits is queued and the message consumed; outside CONNECTING it throws. -/
theorem Inv.answering {conn : TCPConnection} (inv : conn.Inv) {answer : Bytes}
    (fits : conn.state = .connecting → ConnRun.Queues conn answer) :
    Ends (conn.runCalls (TCPConnection.answering answer)) := by
  by_cases connecting : conn.state = .connecting
  · obtain ⟨queues, below⟩ := fits connecting
    obtain ⟨sent, isSent, sentInv, still⟩ := inv.sendData connecting queues
    obtain ⟨popped, isPopped, poppedInv⟩ :=
      sentInv.popData (by rw [still below]; nofun)
    have sends : conn.call (.sendData answer) = .ok sent := isSent
    have pops : sent.call .popData = .ok popped := isPopped
    rw [TCPConnection.answering, runCalls_cons_ok sends, runCalls_cons_ok pops, runCalls_nil]
    exact poppedInv
  · have throws : conn.call (.sendData answer) = .error .sendData := by
      rw [TCPConnection.call, TCPConnection.sendData, if_neg connecting]
    rw [TCPConnection.answering, runCalls_cons_error throws]
    rfl

theorem Ends.of_ok {result : Except Assertion TCPConnection}
    (done : ∃ next, result = .ok next ∧ next.Inv) : Ends result := by
  obtain ⟨next, rfl, inv⟩ := done
  exact inv

theorem Inv.handleRead {run : ConnRun} (inv : run.conn.Inv) {result : ReadResult}
    {answer : Bytes} (orderly : run.Orderly (.read result answer)) :
    Ends (run.conn.handleRead result (some (TCPConnection.answering answer))) := by
  have received := inv.readBuf (run.conn.readBuf.pushFrom result).2
  unfold TCPConnection.handleRead
  cases result with
  | error errno =>
      cases errno with
      | again => exact received
      | intr => exact received
      | other => exact Ends.of_ok (received.fullClose orderly)
  | data bytes =>
      cases bytes with
      | nil => exact Ends.of_ok (received.fullClose orderly)
      | cons byte rest => exact received.answering orderly

/-- Popping what `write` took keeps the connection in order, up to an empty buffer. -/
theorem Inv.handleWrite {run : ConnRun} (inv : run.conn.Inv) {result : WriteResult}
    (triggered : run.conn.ch.triggerArr .write = true)
    (fits : result.accepted ≤ run.conn.writeBuf.getSize) (orderly : run.Orderly (.write result)) :
    ∃ next, run.conn.handleWrite result [] [] = .ok next ∧ (next.clearTrigger .write).Inv := by
  have waiting := inv.interest (Or.inr triggered)
  have wf := inv.wf.popTo fits
  have size : (run.conn.writeBuf.popTo result).2.getSize =
      run.conn.writeBuf.getSize - result.accepted := by
    rw [Buffer.popTo_eq]
    simp only [Buffer.getSize]
    omega
  -- the connection behind `pop_to`, when some bytes are left
  have sentInv : 0 < (run.conn.writeBuf.popTo result).2.getSize →
      { run.conn with writeBuf := (run.conn.writeBuf.popTo result).2 }.Inv := by
    intro left
    exact ⟨wf, fun _ => left, inv.closeCbs, inv.removeCbs⟩
  rw [TCPConnection.handleWrite, if_pos waiting]
  cases result with
  | error errno =>
      have left : 0 < (run.conn.writeBuf.popTo (.error errno)).2.getSize := by
        rw [size]
        exact waiting
      cases errno with
      | again => exact ⟨_, rfl, (sentInv left).clearTrigger .write⟩
      | intr => exact ⟨_, rfl, (sentInv left).clearTrigger .write⟩
      | other =>
          obtain ⟨next, closed, nextInv⟩ := (sentInv left).fullClose orderly
          exact ⟨next, closed, nextInv.clearTrigger .write⟩
  | wrote count =>
      cases count with
      | zero =>
          refine ⟨_, rfl, Inv.clearTrigger (sentInv ?_) .write⟩
          rw [size]
          exact waiting
      | succ count =>
          dsimp only
          by_cases empty : (run.conn.writeBuf.popTo (.wrote (count + 1))).2.getSize = 0
          · rw [if_pos empty]
            refine ⟨_, rfl, ?_⟩
            have lowered : (TCPConnection.clearTrigger
                { run.conn with
                  writeBuf := (run.conn.writeBuf.popTo (.wrote (count + 1))).2 }.disableWrite
                .write).Inv := by
              refine ⟨wf, ?_, inv.closeCbs, inv.removeCbs⟩
              rintro (enabled | still)
              · simp [TCPConnection.clearTrigger, Channel.clearTrigger, disableWrite,
                  Channel.disableEvent] at enabled
              · simp [TCPConnection.clearTrigger, Channel.clearTrigger] at still
            split
            · exact lowered.shutdown .wr
            · exact lowered
          · rw [if_neg empty]
            have kept := (sentInv (Nat.pos_of_ne_zero empty)).clearTrigger .write
            split
            · exact ⟨_, rfl, kept⟩
            · exact ⟨_, rfl, kept⟩

/-! ## When they assert -/

theorem fullClose_again {conn : TCPConnection} (closed : conn.state = .fullClose) :
    conn.fullClose = .error .fullClose := by
  rw [fullClose, if_neg (not_not.mpr closed)]

/-- An answer that does not fit closes the connection, and `pop_data` asserts. -/
theorem answering_over {conn : TCPConnection} {answer : Bytes}
    (connecting : conn.state = .connecting)
    (tooLong : maxWriteBufSize ≤ conn.writeBuf.getSize + answer.length) :
    conn.runCalls (answering answer) = .error .popData := by
  have opened : conn.state ≠ .fullClose := by
    rw [connecting]
    nofun
  have sends : conn.call (.sendData answer) = .ok ({ conn with
      state := .fullClose
      closeCbs := conn.closeCbs + 1
      removeCbs := conn.removeCbs + 1 }.shutdown .rdwr) := by
    rw [call, sendData, if_pos connecting, if_pos tooLong,
      fullClose, if_pos opened]
  rw [answering, runCalls_cons_ok sends]
  exact runCalls_cons_error (by simp [call, popData,
    popDataLen, shutdown]) []

/-- After `full_close` a read that ends the connection asserts. -/
theorem handleRead_again {conn : TCPConnection} (closed : conn.state = .fullClose)
    {result : ReadResult} (ends : result = .data [] ∨ result = .error .other)
    (messageCb : Option (List UserCall)) :
    conn.handleRead result messageCb = .error .fullClose := by
  rcases ends with rfl | rfl
  · exact fullClose_again closed
  · exact fullClose_again closed

theorem handleWrite_again {conn : TCPConnection} (closed : conn.state = .fullClose)
    (waiting : 0 < conn.writeBuf.getSize) :
    conn.handleWrite (.error .other) [] [] = .error .fullClose := by
  rw [handleWrite, if_pos waiting]
  exact fullClose_again closed

theorem handleRead_over {conn : TCPConnection} {answer rest : Bytes} {byte : Byte}
    (connecting : conn.state = .connecting)
    (tooLong : maxWriteBufSize ≤ conn.writeBuf.getSize + answer.length) :
    conn.handleRead (.data (byte :: rest)) (some (answering answer)) =
      .error .popData :=
  answering_over connecting tooLong

end TCPConnection

namespace ConnRun

/-- The connection is in order, and at most `send_data` has asserted. -/
structure Inv (run : ConnRun) : Prop where
  conn : run.conn.Inv
  failed : run.failed = none ∨ run.failed = some .sendData

theorem start_inv : start.Inv := ⟨TCPConnection.new_inv, Or.inl rfl⟩

theorem Inv.protocol {run : ConnRun} (inv : run.Inv) : run.Protocol := by
  refine ⟨?_, inv.conn.closedOnce⟩
  rcases inv.failed with none | sendData
  · rw [none]
    exact ⟨nofun, nofun, nofun⟩
  · rw [sendData]
    exact ⟨by decide, by decide, by decide⟩

theorem Inv.step {run next : ConnRun} {event : Event} (inv : run.Inv)
    (orderly : run.Orderly event) (taken : run.step event = some next) : next.Inv := by
  cases event with
  | report reported =>
      obtain ⟨enabled, rfl⟩ := of_guarded taken
      exact ⟨inv.conn.trigger enabled.2.2, inv.failed⟩
  | read result answer =>
      obtain ⟨-, rfl⟩ := of_guarded taken
      have ends := inv.conn.handleRead orderly
      cases handled : run.conn.handleRead result (some (TCPConnection.answering answer)) with
      | ok conn =>
          rw [handled] at ends
          exact ⟨TCPConnection.Inv.clearTrigger ends .read, inv.failed⟩
      | error assertion =>
          rw [handled] at ends
          exact ⟨inv.conn, Or.inr (congrArg some ends)⟩
  | write result =>
      obtain ⟨enabled, rfl⟩ := of_guarded taken
      obtain ⟨conn, handled, connInv⟩ :=
        inv.conn.handleWrite enabled.2.2.1 enabled.2.2.2 orderly
      rw [handled]
      exact ⟨connInv, inv.failed⟩
  | user call =>
      obtain ⟨enabled, rfl⟩ := of_guarded taken
      have queues : ∀ msg, call = .sendData msg →
          0 < run.conn.writeBuf.getSize + msg.length := by
        rintro msg rfl
        exact orderly
      obtain ⟨conn, called, connInv⟩ := inv.conn.call enabled.2.2 queues
      rw [called]
      exact ⟨connInv, inv.failed⟩
  | remove =>
      obtain ⟨-, rfl⟩ := of_guarded taken
      exact ⟨inv.conn, inv.failed⟩

/-- Orderly runs keep the close protocol. -/
theorem allProtocol_of_orderly (events : List Event)
    (meets : StepsMeet step Orderly start events) : AllStates step Protocol start events :=
  allStates_of_stepsMeet Inv (fun _ _ _ => Inv.step) (fun _ inv => inv.protocol)
    events start_inv meets

/-- A message is answered, the answer is written, and the peer closes. -/
theorem allProtocol_of_orderly_echo :
    AllStates step Protocol start [.report fun et => decide (et = .read),
      .read (.data (ascii "ping")) (ascii "pong"), .report fun _ => true,
      .read (.error .again) [], .write (.wrote 4), .report fun et => decide (et = .read),
      .read (.data []) [], .remove] :=
  allProtocol_of_orderly _ (by decide +kernel)

/-- An answer of a mebibyte: `send_data` closes the connection, and `pop_data` asserts. -/
theorem longAnswer_asserts : ¬ ∀ events : List Event, AllStates step Protocol start events := by
  intro all
  let readable : EventType → Bool := fun et => decide (et = .read)
  let reported : ConnRun := { start with conn := start.conn.trigger readable }
  let answer : Bytes := List.replicate maxWriteBufSize 0
  have first : start.step (.report readable) = some reported := by
    rw [step, if_pos (by decide +kernel)]
  have tooLong : maxWriteBufSize ≤ reported.conn.writeBuf.getSize + answer.length := by
    rw [List.length_replicate]
    exact Nat.le_add_left ..
  have second : reported.step (.read (.data [0]) answer) =
      some { reported with failed := some .popData } := by
    rw [step, if_pos (by decide +kernel), TCPConnection.handleRead_over rfl tooLong]
    rfl
  have run : runFrom step start [.report readable, .read (.data [0]) answer] =
      some { reported with failed := some .popData } := by
    simp only [runFrom, first, second]
  exact ((all _).last run).1.2.1 rfl

/-! ## The condition leaves out nothing else -/

/-- A report of the write event makes `handle_write` assert on an empty `write_buf`. -/
theorem fails_of_emptyWrite (run : ConnRun) (lives : run.Lives) (quiet : run.conn.Quiet)
    (enabled : run.conn.ch.enableArr .write = true) (empty : run.conn.writeBuf.getSize = 0) :
    Reaches step (fun last => ¬ last.Protocol) run := by
  let writable : EventType → Bool := fun et => decide (et = .write)
  have allows : run.conn.ch.interest.Allows writable := by
    intro et carries
    rw [of_decide_eq_true carries]
    exact enabled
  have reported : run.step (.report writable) =
      some { run with conn := run.conn.trigger writable } := by
    rw [step, if_pos ⟨lives, quiet, allows⟩]
  have asserts : (run.conn.trigger writable).handleWrite (.wrote 0) [] [] =
      .error .handleWrite := by
    rw [TCPConnection.handleWrite, if_neg]
    change ¬ 0 < run.conn.writeBuf.getSize
    omega
  have onlyWrite : (run.conn.trigger writable).ch.triggerArr .read = false ∧
      (run.conn.trigger writable).ch.triggerArr .write = true := by
    simp [TCPConnection.trigger, Channel.triggerEvents, writable, quiet .read]
  have written : ConnRun.step { run with conn := run.conn.trigger writable } (.write (.wrote 0)) =
      some { run with conn := run.conn.trigger writable, failed := some .handleWrite } := by
    rw [step, if_pos ⟨lives, onlyWrite.1, onlyWrite.2, Nat.zero_le _⟩]
    simp only [asserts, finishHandler]
  refine reaches_next reported (reaches_next written (reaches_now ?_))
  rintro ⟨⟨-, -, handleWrite⟩, -⟩
  exact handleWrite rfl

/-- Sending nothing into an empty `write_buf` enables the write event all the same. -/
theorem sendData_nothing {conn : TCPConnection} (inv : conn.Inv) {msg : Bytes}
    (connecting : conn.state = .connecting) (nothing : conn.writeBuf.getSize + msg.length = 0) :
    ∃ next, conn.sendData msg = .ok next ∧ next.ch.enableArr .write = true ∧
      next.writeBuf.getSize = 0 ∧ next.ch.triggerArr = conn.ch.triggerArr ∧
      next.state = .connecting := by
  have small : ¬ maxWriteBufSize ≤ conn.writeBuf.getSize + msg.length := by
    rw [nothing, maxWriteBufSize]
    omega
  rw [TCPConnection.sendData, if_pos connecting, if_neg small]
  refine ⟨_, rfl, ?_, ?_, rfl, connecting⟩
  · simp [TCPConnection.enableWrite, Channel.enableAgain]
  · change (conn.writeBuf.push msg).getSize = 0
    rw [inv.wf.push_getSize]
    exact nothing

/-- A failed assertion of `full_close`, `pop_data` or `handle_write` breaks the protocol. -/
theorem breaks_at_once {run : ConnRun} {assertion : Assertion}
    (failed : run.failed = some assertion)
    (whose : assertion = .fullClose ∨ assertion = .popData) :
    Reaches step (fun last => ¬ last.Protocol) run := by
  apply reaches_now
  rintro ⟨⟨fullClose, popData, -⟩, -⟩
  rcases whose with rfl | rfl
  · exact fullClose failed
  · exact popData failed

/-- An empty answer into an empty `write_buf` leaves the write event enabled. -/
theorem handleRead_nothing {conn : TCPConnection} (inv : conn.Inv) {answer : Bytes}
    (byte : Byte) (rest : Bytes) (connecting : conn.state = .connecting)
    (nothing : conn.writeBuf.getSize + answer.length = 0) :
    ∃ next, conn.handleRead (.data (byte :: rest)) (some (TCPConnection.answering answer)) =
        .ok next ∧ next.ch.enableArr .write = true ∧ next.writeBuf.getSize = 0 ∧
      next.ch.triggerArr = conn.ch.triggerArr := by
  obtain ⟨sent, isSent, writes, empty, triggers, still⟩ :=
    sendData_nothing (inv.readBuf (conn.readBuf.pushFrom (.data (byte :: rest))).2) connecting
      nothing
  refine ⟨{ sent with
    readBuf := { sent.readBuf with
      leftReadPtr := sent.readBuf.leftReadPtr + sent.readBuf.getSize } }, ?_, writes, empty,
    triggers⟩
  have sends : TCPConnection.call
      { conn with readBuf := (conn.readBuf.pushFrom (.data (byte :: rest))).2 }
      (.sendData answer) = .ok sent := isSent
  apply (TCPConnection.runCalls_cons_ok sends [.popData]).trans
  have pops : sent.call .popData = .ok { sent with
      readBuf := { sent.readBuf with
        leftReadPtr := sent.readBuf.leftReadPtr + sent.readBuf.getSize } } := by
    simp [TCPConnection.call, TCPConnection.popData, TCPConnection.popDataLen, Buffer.popLen,
      still]
  exact TCPConnection.runCalls_cons_ok pops []

/-- A message whose answer is empty, or too long, where it is sent. -/
theorem breaks_of_misfit {run : ConnRun} (inv : run.Inv) (lives : run.Lives) {answer : Bytes}
    (byte : Byte) (rest : Bytes) (connecting : run.conn.state = .connecting)
    (misfit : ¬ Queues run.conn answer) :
    Reaches step (fun last => ¬ last.Protocol) (run.finishHandler .read
      (run.conn.handleRead (.data (byte :: rest)) (some (TCPConnection.answering answer)))) := by
  by_cases nothing : run.conn.writeBuf.getSize + answer.length = 0
  · obtain ⟨conn, handled, writes, empty, triggers⟩ :=
      handleRead_nothing inv.conn byte rest connecting nothing
    rw [handled]
    refine fails_of_emptyWrite (run.finishHandler .read (.ok conn)) lives ?_ writes empty
    intro et
    change Function.update conn.ch.triggerArr .read false et = false
    rw [triggers]
    cases et with
    | read => exact Function.update_self ..
    | write =>
        -- a write event that is still to be handled would mean unsent bytes
        rw [Function.update_of_ne (by decide)]
        by_contra triggered
        have waiting := inv.conn.interest (Or.inr (Bool.not_eq_false _ ▸ triggered))
        omega
  · have tooLong : maxWriteBufSize ≤ run.conn.writeBuf.getSize + answer.length := by
      by_contra below
      exact misfit ⟨Nat.pos_of_ne_zero nothing, Nat.not_le.mp below⟩
    rw [TCPConnection.handleRead_over connecting tooLong]
    exact breaks_at_once rfl (Or.inr rfl)

theorem breaks_of_read {run : ConnRun} (inv : run.Inv) (lives : run.Lives) {result : ReadResult}
    {answer : Bytes} (disorder : ¬ run.Orderly (.read result answer)) :
    Reaches step (fun last => ¬ last.Protocol) (run.finishHandler .read
      (run.conn.handleRead result (some (TCPConnection.answering answer)))) := by
  have closes (closed : run.conn.state = .fullClose)
      (ends : result = .data [] ∨ result = .error .other) :
      Reaches step (fun last => ¬ last.Protocol) (run.finishHandler .read
        (run.conn.handleRead result (some (TCPConnection.answering answer)))) := by
    rw [TCPConnection.handleRead_again closed ends]
    exact breaks_at_once rfl (Or.inl rfl)
  cases result with
  | error errno =>
      cases errno with
      | again => exact absurd trivial disorder
      | intr => exact absurd trivial disorder
      | other => exact closes (not_not.mp disorder) (Or.inr rfl)
  | data bytes =>
      cases bytes with
      | nil => exact closes (not_not.mp disorder) (Or.inl rfl)
      | cons byte rest =>
          obtain ⟨connecting, misfit⟩ := Classical.not_imp.mp disorder
          exact breaks_of_misfit inv lives byte rest connecting misfit

theorem breaks_of_write {run : ConnRun} (inv : run.Inv)
    (triggered : run.conn.ch.triggerArr .write = true) {result : WriteResult}
    (disorder : ¬ run.Orderly (.write result)) :
    Reaches step (fun last => ¬ last.Protocol)
      (run.finishHandler .write (run.conn.handleWrite result [] [])) := by
  cases result with
  | wrote count => exact absurd trivial disorder
  | error errno =>
      cases errno with
      | again => exact absurd trivial disorder
      | intr => exact absurd trivial disorder
      | other =>
          have waiting := inv.conn.interest (Or.inr triggered)
          rw [TCPConnection.handleWrite_again (not_not.mp disorder) waiting]
          exact breaks_at_once rfl (Or.inl rfl)

theorem breaks_of_send {run : ConnRun} (inv : run.Inv) (lives : run.Lives)
    (quiet : run.conn.Quiet) {msg : Bytes} (connecting : run.conn.state = .connecting)
    (disorder : ¬ run.Orderly (.user (.sendData msg))) :
    Reaches step (fun last => ¬ last.Protocol)
      (run.finish (run.conn.call (.sendData msg))) := by
  have nothing : run.conn.writeBuf.getSize + msg.length = 0 :=
    Nat.eq_zero_of_not_pos disorder
  obtain ⟨sent, isSent, writes, empty, triggers, -⟩ :=
    sendData_nothing inv.conn connecting nothing
  have called : run.conn.call (.sendData msg) = .ok sent := isSent
  rw [called]
  refine fails_of_emptyWrite (run.finish (.ok sent)) lives ?_ writes empty
  intro et
  change sent.ch.triggerArr et = false
  rw [triggers]
  exact quiet et

/-- A step that is not orderly breaks the protocol at once, or lets the next report do so. -/
theorem breaks_of_disorder {run next : ConnRun} {event : Event} (inv : run.Inv)
    (taken : run.step event = some next) (disorder : ¬ run.Orderly event) :
    Reaches step (fun last => ¬ last.Protocol) next := by
  cases event with
  | report reported => exact absurd trivial disorder
  | remove => exact absurd trivial disorder
  | read result answer =>
      obtain ⟨enabled, rfl⟩ := of_guarded taken
      exact breaks_of_read inv enabled.1 disorder
  | write result =>
      obtain ⟨enabled, rfl⟩ := of_guarded taken
      exact breaks_of_write inv enabled.2.2.1 disorder
  | user call =>
      obtain ⟨enabled, rfl⟩ := of_guarded taken
      cases call with
      | sendData msg => exact breaks_of_send inv enabled.1 enabled.2.1 enabled.2.2 disorder
      | popData => exact absurd trivial disorder
      | popDataLen len => exact absurd trivial disorder
      | halfClose => exact absurd trivial disorder
      | fullClose => exact absurd trivial disorder

end ConnRun

end SimpleWebServer.Tcp
