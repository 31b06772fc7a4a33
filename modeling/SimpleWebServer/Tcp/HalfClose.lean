import SimpleWebServer.Tcp.CloseProtocol

/-!
# Half close

`half_close` stops the sending side once everything sent before it has been written.  Two
places issue `shutdown(SHUT_WR)`: `half_close` itself, and `handle_write` when it has emptied
`write_buf`.  The second looks at the state behind `write_lower`, a callback that may send
and half close again.  Here all callbacks make any calls.
-/

namespace SimpleWebServer.Tcp

open SimpleWebServer.Base SimpleWebServer.Reactor SimpleWebServer.Lib.Runs

namespace TCPConnection

/--
`shutdown(SHUT_WR)` was issued at most once, and with nothing left to write.  Nothing is
queued behind it, so `write_buf` shows what it held when it was issued.
-/
def ShutsAfterWrites (conn : TCPConnection) : Prop :=
  (Shutdown.wr ∈ conn.shutdowns → conn.writeBuf.getSize = 0) ∧
    conn.shutdowns.count .wr ≤ 1

instance : DecidablePred ShutsAfterWrites := fun conn =>
  inferInstanceAs (Decidable ((Shutdown.wr ∈ conn.shutdowns → conn.writeBuf.getSize = 0) ∧
    conn.shutdowns.count .wr ≤ 1))

end TCPConnection

/-- The calls only consume, from `readable` bytes in `read_buf`. -/
def Consumes : Nat → List UserCall → Prop
  | _, [] => True
  | _, .popData :: rest => Consumes 0 rest
  | readable, .popDataLen len :: rest => (0 ≤ len ∧ len ≤ readable) ∧ Consumes 0 rest
  | _, .sendData _ :: _ => False
  | _, .halfClose :: _ => False
  | _, .fullClose :: _ => False

/--
The calls of a callback on an open connection with an empty `write_buf` end in a half close
that `handle_write` repeats.  `sent` counts what they have sent so far, if they have sent:
with nothing sent `half_close` has issued the `shutdown` itself, and with some bytes sent it
has to wait for them.
-/
def HalfCloses : Option Nat → Nat → List UserCall → Prop
  | _, _, [] => False
  | sent, readable, .sendData msg :: rest =>
      sent.getD 0 + msg.length < maxWriteBufSize ∧
        HalfCloses (some (sent.getD 0 + msg.length)) readable rest
  | sent, _, .popData :: rest => HalfCloses sent 0 rest
  | sent, readable, .popDataLen len :: rest =>
      (0 ≤ len ∧ len ≤ readable) ∧ HalfCloses sent 0 rest
  | sent, readable, .halfClose :: rest => sent ≠ some 0 ∧ Consumes readable rest
  | _, _, .fullClose :: _ => False

instance Consumes.decidable : (readable : Nat) → (calls : List UserCall) →
    Decidable (Consumes readable calls)
  | _, [] => .isTrue trivial
  | _, .popData :: rest => Consumes.decidable 0 rest
  | readable, .popDataLen len :: rest =>
      have := Consumes.decidable 0 rest
      inferInstanceAs (Decidable ((0 ≤ len ∧ len ≤ readable) ∧ Consumes 0 rest))
  | _, .sendData _ :: _ => .isFalse id
  | _, .halfClose :: _ => .isFalse id
  | _, .fullClose :: _ => .isFalse id

instance HalfCloses.decidable : (sent : Option Nat) → (readable : Nat) →
    (calls : List UserCall) → Decidable (HalfCloses sent readable calls)
  | _, _, [] => .isFalse id
  | sent, readable, .sendData msg :: rest =>
      have := HalfCloses.decidable (some (sent.getD 0 + msg.length)) readable rest
      inferInstanceAs (Decidable (sent.getD 0 + msg.length < maxWriteBufSize ∧
        HalfCloses (some (sent.getD 0 + msg.length)) readable rest))
  | sent, _, .popData :: rest => HalfCloses.decidable sent 0 rest
  | sent, readable, .popDataLen len :: rest =>
      have := HalfCloses.decidable sent 0 rest
      inferInstanceAs (Decidable ((0 ≤ len ∧ len ≤ readable) ∧ HalfCloses sent 0 rest))
  | sent, readable, .halfClose :: rest =>
      inferInstanceAs (Decidable (sent ≠ some 0 ∧ Consumes readable rest))
  | _, _, .fullClose :: _ => .isFalse id

/-- What happens to a connection, with what its callbacks call. -/
inductive CallbackEvent where
  /-- epoll reports the connection with EPOLLIN, EPOLLOUT, both or an error alone -/
  | report (reported : EventType → Bool)
  /-- `handle_read`, with the calls of `message_cb` -/
  | read (result : ReadResult) (messageCb : Option (List UserCall))
  /-- `handle_write`, with the calls of `write_lower` and `write_high` -/
  | write (result : WriteResult) (writeLower writeHigh : List UserCall)
  /-- `open_cb`, or the user between two reports, calls the connection -/
  | user (call : UserCall)
  /-- the loop runs the queued removal -/
  | remove

namespace ConnRun

/-- One step; a call that the state does not allow is made, and throws. -/
def stepCalls (run : ConnRun) : CallbackEvent → Option ConnRun
  | .report reported =>
      if run.Lives ∧ run.conn.Quiet ∧ run.conn.ch.interest.Allows reported then
        some { run with conn := run.conn.trigger reported }
      else none
  | .read result messageCb =>
      if run.Lives ∧ run.conn.ch.triggerArr .read = true ∧
          result.bytes.length ≤ run.conn.readBuf.offeredRoom then
        some (run.finishHandler .read (run.conn.handleRead result messageCb))
      else none
  | .write result writeLower writeHigh =>
      if run.Lives ∧ run.conn.ch.triggerArr .read = false ∧
          run.conn.ch.triggerArr .write = true ∧
          result.accepted ≤ run.conn.writeBuf.getSize then
        some (run.finishHandler .write (run.conn.handleWrite result writeLower writeHigh))
      else none
  | .user call =>
      if run.Lives ∧ run.conn.Quiet then some (run.finish (run.conn.call call)) else none
  | .remove =>
      if run.Lives ∧ run.conn.Quiet ∧ 0 < run.conn.removeCbs then
        some { run with removed := true }
      else none

/-- The condition on a step: behind the write that empties `write_buf` nobody half closes. -/
def LowerKeepsOpen (run : ConnRun) : CallbackEvent → Prop
  | .write (.wrote (count + 1)) writeLower _ =>
      run.conn.state = .connecting → count + 1 = run.conn.writeBuf.getSize →
        ¬ HalfCloses none run.conn.readBuf.getSize writeLower
  | _ => True

instance (run : ConnRun) : DecidablePred run.LowerKeepsOpen
  | .write (.wrote (count + 1)) writeLower _ =>
      inferInstanceAs (Decidable (run.conn.state = .connecting →
        count + 1 = run.conn.writeBuf.getSize →
          ¬ HalfCloses none run.conn.readBuf.getSize writeLower))
  | .write (.wrote 0) _ _ => .isTrue trivial
  | .write (.error _) _ _ => .isTrue trivial
  | .read _ _ => .isTrue trivial
  | .report _ => .isTrue trivial
  | .user _ => .isTrue trivial
  | .remove => .isTrue trivial

end ConnRun

/-! ## What a call preserves -/

namespace TCPConnection

/-- `shutdown(SHUT_WR)` leaves `CONNECTING` behind. -/
structure Sound (conn : TCPConnection) : Prop where
  wf : conn.writeBuf.Wf
  closing : Shutdown.wr ∈ conn.shutdowns → conn.state ≠ .connecting

theorem new_sound : new.Sound := ⟨Buffer.new_wf, by simp [new]⟩

theorem new_shutsAfterWrites : new.ShutsAfterWrites := by decide +kernel

/-- A step that does not lose the invariant, and keeps the order of writes and shutdown. -/
def Keeps (conn next : TCPConnection) : Prop :=
  next.Sound ∧ (conn.ShutsAfterWrites → next.ShutsAfterWrites)

theorem Keeps.trans {conn middle next : TCPConnection} (first : conn.Keeps middle)
    (second : middle.Keeps next) : conn.Keeps next :=
  ⟨second.1, fun good => second.2 (first.2 good)⟩

theorem Sound.keeps {conn : TCPConnection} (sound : conn.Sound) : conn.Keeps conn :=
  ⟨sound, id⟩

theorem Sound.readBuf {conn : TCPConnection} (sound : conn.Sound) (readBuf : Buffer) :
    conn.Keeps { conn with readBuf := readBuf } :=
  ⟨⟨sound.wf, sound.closing⟩, id⟩

theorem Sound.clearTrigger {conn : TCPConnection} (sound : conn.Sound) (et : EventType) :
    conn.Keeps (conn.clearTrigger et) :=
  ⟨⟨sound.wf, sound.closing⟩, id⟩

/-- Closing again issues another kind of shutdown. -/
theorem Sound.fullClose {conn next : TCPConnection} (sound : conn.Sound)
    (closed : conn.fullClose = .ok next) : conn.Keeps next ∧ next.state = .fullClose := by
  rw [TCPConnection.fullClose] at closed
  split at closed
  · cases closed
    have same : Shutdown.wr ∈ conn.shutdowns ++ [.rdwr] ↔ Shutdown.wr ∈ conn.shutdowns := by
      simp
    refine ⟨⟨⟨sound.wf, fun _ => State.noConfusion⟩, ?_⟩, rfl⟩
    rintro ⟨drained, once⟩
    refine ⟨fun issued => drained (same.mp issued), ?_⟩
    change (conn.shutdowns ++ [Shutdown.rdwr]).count Shutdown.wr ≤ 1
    rw [List.count_append]
    exact once
  · cases closed

/-- `half_close` shuts down where nothing was sent since `write_buf` was emptied. -/
theorem halfClose_eq {conn next : TCPConnection} (closed : conn.halfClose = .ok next) :
    conn.state = .connecting ∧ next.state = .halfClose ∧ next.writeBuf = conn.writeBuf ∧
      next.readBuf = conn.readBuf ∧
      next.shutdowns = conn.shutdowns ++
        if conn.writeBuf.getSize = 0 ∧ conn.ch.isEnable .write = false then [.wr] else [] := by
  rw [TCPConnection.halfClose] at closed
  split at closed
  · next connecting =>
      dsimp only at closed
      split at closed
      · next empty =>
          cases closed
          exact ⟨connecting, rfl, rfl, rfl, (if_pos empty).symm ▸ rfl⟩
      · next waiting =>
          cases closed
          exact ⟨connecting, rfl, rfl, rfl, (if_neg waiting).symm ▸ (List.append_nil _).symm⟩
  · cases closed

theorem Sound.halfClose {conn next : TCPConnection} (sound : conn.Sound)
    (closed : conn.halfClose = .ok next) : conn.Keeps next := by
  obtain ⟨connecting, state, writeBuf, -, shutdowns⟩ := halfClose_eq closed
  have unissued : Shutdown.wr ∉ conn.shutdowns := fun issued => sound.closing issued connecting
  refine ⟨⟨writeBuf ▸ sound.wf, fun _ => by rw [state]; nofun⟩, fun _ => ?_⟩
  rw [ShutsAfterWrites, shutdowns, writeBuf]
  split
  · next empty =>
      refine ⟨fun _ => empty.1, ?_⟩
      rw [List.count_append, List.count_eq_zero_of_not_mem unissued]
      exact Nat.le_refl _
  · refine ⟨fun issued => absurd (by simpa using issued) unissued, ?_⟩
    rw [List.append_nil, List.count_eq_zero_of_not_mem unissued]
    exact Nat.zero_le _

/-- `send_data` queues the message, or closes the connection that has too much queued. -/
theorem sendData_eq {conn next : TCPConnection} {msg : Bytes}
    (sent : conn.sendData msg = .ok next) :
    conn.state = .connecting ∧
      (maxWriteBufSize ≤ conn.writeBuf.getSize + msg.length ∧ conn.fullClose = .ok next ∨
        conn.writeBuf.getSize + msg.length < maxWriteBufSize ∧
          next = { conn with writeBuf := conn.writeBuf.push msg }.enableWrite) := by
  rw [TCPConnection.sendData] at sent
  split at sent
  · next connecting =>
      refine ⟨connecting, ?_⟩
      split at sent
      · next tooLong => exact Or.inl ⟨tooLong, sent⟩
      · next fits =>
          cases sent
          exact Or.inr ⟨Nat.not_le.mp fits, rfl⟩
  · cases sent

theorem Sound.sendData {conn next : TCPConnection} (sound : conn.Sound) {msg : Bytes}
    (sent : conn.sendData msg = .ok next) : conn.Keeps next := by
  obtain ⟨connecting, ⟨-, closed⟩ | ⟨-, rfl⟩⟩ := sendData_eq sent
  · exact (sound.fullClose closed).1
  · have unissued : Shutdown.wr ∉ conn.shutdowns := fun issued => sound.closing issued connecting
    refine ⟨⟨sound.wf.push msg, fun issued => absurd issued unissued⟩, fun good => ?_⟩
    exact ⟨fun issued => absurd issued unissued, good.2⟩

/-- `pop_data` leaves `read_buf` empty. -/
theorem popDataLen_eq {conn next : TCPConnection} {len : Int}
    (popped : conn.popDataLen len = .ok next) :
    conn.state ≠ .fullClose ∧ (0 ≤ len ∧ len ≤ conn.readBuf.getSize) ∧
      ∃ readBuf : Buffer, readBuf.getSize = 0 ∧ next = { conn with readBuf := readBuf } := by
  obtain ⟨opened, readBuf, taken, rfl⟩ := TCPConnection.of_popDataLen popped
  rw [Buffer.popLen] at taken
  split at taken
  · next bounds =>
      cases taken
      refine ⟨opened, bounds, _, ?_, rfl⟩
      simp only [Buffer.getSize]
      omega
  · cases taken

theorem Sound.call {conn next : TCPConnection} (sound : conn.Sound) {call : UserCall}
    (called : conn.call call = .ok next) : conn.Keeps next := by
  cases call with
  | sendData msg => exact sound.sendData called
  | popData =>
      obtain ⟨-, -, readBuf, -, rfl⟩ := popDataLen_eq called
      exact sound.readBuf readBuf
  | popDataLen len =>
      obtain ⟨-, -, readBuf, -, rfl⟩ := popDataLen_eq called
      exact sound.readBuf readBuf
  | halfClose => exact sound.halfClose called
  | fullClose => exact (sound.fullClose called).1

theorem Keeps.call {conn middle next : TCPConnection} (kept : conn.Keeps middle)
    {call : UserCall} (called : middle.call call = .ok next) : conn.Keeps next :=
  kept.trans (kept.1.call called)

/-- The calls of a callback that returns. -/
theorem Sound.runCalls {calls : List UserCall} {conn next : TCPConnection} (sound : conn.Sound)
    (ran : conn.runCalls calls = .ok next) : conn.Keeps next :=
  runCalls_preserves (fun kept called => kept.call called) sound.keeps ran

theorem Sound.handleRead {conn next : TCPConnection} (sound : conn.Sound) {result : ReadResult}
    {messageCb : Option (List UserCall)} (handled : conn.handleRead result messageCb = .ok next) :
    conn.Keeps next :=
  handleRead_preserves (fun readBuf kept => kept.trans (kept.1.readBuf readBuf))
    (fun kept called => kept.call called) sound.keeps handled

/-! ## What the calls of `write_lower` end in -/

/-- Nothing can be called on a closed connection. -/
theorem call_closed {conn : TCPConnection} (closed : conn.state = .fullClose) (call : UserCall) :
    ∃ assertion, conn.call call = .error assertion := by
  cases call with
  | sendData msg =>
      refine ⟨.sendData, ?_⟩
      rw [TCPConnection.call, sendData, if_neg (by simp [closed])]
  | popData =>
      refine ⟨.popData, ?_⟩
      rw [TCPConnection.call, popData, popDataLen, if_neg (not_not.mpr closed)]
  | popDataLen len =>
      refine ⟨.popData, ?_⟩
      rw [TCPConnection.call, popDataLen, if_neg (not_not.mpr closed)]
  | halfClose =>
      refine ⟨.halfClose, ?_⟩
      rw [TCPConnection.call, halfClose, if_neg (by simp [closed])]
  | fullClose => exact ⟨.fullClose, fullClose_again closed⟩

theorem runCalls_closed {conn final : TCPConnection} (closed : conn.state = .fullClose)
    {calls : List UserCall} (ran : conn.runCalls calls = .ok final) : final.state = .fullClose := by
  cases calls with
  | nil =>
      cases ran
      exact closed
  | cons first rest =>
      obtain ⟨assertion, threw⟩ := call_closed closed first
      rw [runCalls_cons_error threw] at ran
      cases ran

theorem popDataLen_ok {conn : TCPConnection} {len : Int} (opened : conn.state ≠ .fullClose)
    (inside : 0 ≤ len ∧ len ≤ conn.readBuf.getSize) :
    ∃ next, conn.call (.popDataLen len) = .ok next := by
  rw [TCPConnection.call, popDataLen, if_pos opened, Buffer.popLen, if_pos inside]
  exact ⟨_, rfl⟩

theorem popData_ok {conn : TCPConnection} (opened : conn.state ≠ .fullClose) :
    ∃ next, conn.call .popData = .ok next :=
  popDataLen_ok opened ⟨Int.natCast_nonneg conn.readBuf.getSize, Int.le_refl _⟩

/-- What the calls leave of a connection that has half closed: they consume, or it is gone. -/
theorem runCalls_closing {calls : List UserCall} {conn final : TCPConnection}
    (closing : conn.state = .halfClose) (ran : conn.runCalls calls = .ok final)
    (still : final.state = .halfClose) :
    Consumes conn.readBuf.getSize calls ∧ final.shutdowns = conn.shutdowns ∧
      final.writeBuf = conn.writeBuf := by
  induction calls generalizing conn with
  | nil =>
      cases ran
      exact ⟨trivial, rfl, rfl⟩
  | cons first rest ih =>
      cases called : conn.call first with
      | error assertion =>
          rw [runCalls_cons_error called] at ran
          cases ran
      | ok middle =>
          rw [runCalls_cons_ok called] at ran
          cases first with
          | sendData msg =>
              have connecting := (sendData_eq called).1
              rw [closing] at connecting
              cases connecting
          | halfClose =>
              have connecting := (halfClose_eq called).1
              rw [closing] at connecting
              cases connecting
          | fullClose =>
              have gone : middle.state = .fullClose := by
                rw [TCPConnection.call, fullClose, if_pos (by simp [closing])] at called
                cases called
                rfl
              rw [runCalls_closed gone ran] at still
              cases still
          | popData =>
              obtain ⟨-, -, readBuf, consumed, popped⟩ := popDataLen_eq called
              have behind := ih (popped ▸ closing) ran
              rw [popped, consumed] at behind
              exact behind
          | popDataLen len =>
              obtain ⟨-, inside, readBuf, consumed, popped⟩ := popDataLen_eq called
              have behind := ih (popped ▸ closing) ran
              rw [popped, consumed] at behind
              exact ⟨⟨inside, behind.1⟩, behind.2⟩

theorem runCalls_consumes {calls : List UserCall} {conn : TCPConnection}
    (closing : conn.state = .halfClose) (consumes : Consumes conn.readBuf.getSize calls) :
    ∃ final, conn.runCalls calls = .ok final ∧ final.state = .halfClose := by
  have opened : conn.state ≠ .fullClose := by
    rw [closing]
    nofun
  induction calls generalizing conn with
  | nil => exact ⟨conn, rfl, closing⟩
  | cons first rest ih =>
      cases first with
      | sendData msg => exact consumes.elim
      | halfClose => exact consumes.elim
      | fullClose => exact consumes.elim
      | popData =>
          obtain ⟨next, popped⟩ := popData_ok opened
          obtain ⟨-, -, readBuf, consumed, same⟩ := popDataLen_eq popped
          rw [runCalls_cons_ok popped, same]
          exact ih closing (consumed.symm ▸ consumes) opened
      | popDataLen len =>
          obtain ⟨next, popped⟩ := popDataLen_ok opened consumes.1
          obtain ⟨-, -, readBuf, consumed, same⟩ := popDataLen_eq popped
          rw [runCalls_cons_ok popped, same]
          exact ih closing (consumed.symm ▸ consumes.2) opened

/-- An open connection that has sent `sent` since its `write_buf` was emptied. -/
structure Lowered (conn : TCPConnection) (sent : Option Nat) : Prop where
  sound : conn.Sound
  connecting : conn.state = .connecting
  size : conn.writeBuf.getSize = sent.getD 0
  enabled : conn.ch.enableArr .write = sent.isSome

/-- The calls of a callback returned and left a connection that meets `ends`. -/
def Returns (ends : TCPConnection → Prop) (conn : TCPConnection) (calls : List UserCall) : Prop :=
  ∃ final, conn.runCalls calls = .ok final ∧ ends final

section

variable {ends : TCPConnection → Prop} {conn next : TCPConnection} {first : UserCall}

theorem not_returns_of_error {assertion : Assertion} (threw : conn.call first = .error assertion)
    (rest : List UserCall) : ¬ Returns ends conn (first :: rest) := by
  rintro ⟨final, ran, -⟩
  rw [runCalls_cons_error threw] at ran
  cases ran

/-- Nothing returns from a closed connection to an open one. -/
theorem not_returns_of_closed (opened : ∀ final, ends final → final.state ≠ .fullClose)
    (called : conn.call first = .ok next) (closed : next.state = .fullClose)
    (rest : List UserCall) : ¬ Returns ends conn (first :: rest) := by
  rintro ⟨final, ran, met⟩
  rw [runCalls_cons_ok called] at ran
  exact opened final met (runCalls_closed closed ran)

theorem returns_cons (called : conn.call first = .ok next) (rest : List UserCall) :
    Returns ends conn (first :: rest) ↔ Returns ends next rest := by
  rw [Returns, Returns, runCalls_cons_ok called]

/-- A pop only empties `read_buf`. -/
theorem returns_popDataLen {len : Int} (opened : conn.state ≠ .fullClose)
    (inside : 0 ≤ len ∧ len ≤ conn.readBuf.getSize) (rest : List UserCall) :
    ∃ readBuf : Buffer, readBuf.getSize = 0 ∧
      (Returns ends conn (.popDataLen len :: rest) ↔
        Returns ends { conn with readBuf := readBuf } rest) := by
  obtain ⟨next, popped⟩ := popDataLen_ok opened inside
  obtain ⟨-, -, readBuf, consumed, same⟩ := popDataLen_eq popped
  exact ⟨readBuf, consumed, same ▸ returns_cons popped rest⟩

theorem returns_popData (opened : conn.state ≠ .fullClose) (rest : List UserCall) :
    ∃ readBuf : Buffer, readBuf.getSize = 0 ∧
      (Returns ends conn (.popData :: rest) ↔
        Returns ends { conn with readBuf := readBuf } rest) := by
  obtain ⟨next, popped⟩ := popData_ok opened
  obtain ⟨-, -, readBuf, consumed, same⟩ := popDataLen_eq popped
  exact ⟨readBuf, consumed, same ▸ returns_cons popped rest⟩

theorem not_returns_popDataLen {len : Int} (opened : conn.state ≠ .fullClose)
    (outside : ¬ (0 ≤ len ∧ len ≤ conn.readBuf.getSize)) (rest : List UserCall) :
    ¬ Returns ends conn (.popDataLen len :: rest) := by
  have threw : conn.call (.popDataLen len) = .error .bufferPop := by
    rw [TCPConnection.call, popDataLen, if_pos opened, Buffer.popLen, if_neg outside]
  exact not_returns_of_error threw rest

end

/-- The calls of a callback returned with the connection half closed before its time. -/
def EndsEarly (conn : TCPConnection) (calls : List UserCall) : Prop :=
  ∃ final, conn.runCalls calls = .ok final ∧ final.state = .halfClose ∧
    ¬ (Shutdown.wr ∉ final.shutdowns ∧ final.writeBuf.getSize = 0)

theorem Lowered.sendData {conn next : TCPConnection} {sent : Option Nat}
    (lowered : conn.Lowered sent) {msg : Bytes}
    (fits : conn.writeBuf.getSize + msg.length < maxWriteBufSize)
    (queued : next = { conn with writeBuf := conn.writeBuf.push msg }.enableWrite) :
    next.Lowered (some (sent.getD 0 + msg.length)) := by
  have called : conn.sendData msg = .ok next := by
    rw [TCPConnection.sendData, if_pos lowered.connecting, if_neg (Nat.not_le.mpr fits), queued]
  refine ⟨(lowered.sound.sendData called).1, ?_, ?_, ?_⟩
  · rw [queued]
    exact lowered.connecting
  · rw [queued]
    change (conn.writeBuf.push msg).getSize = _
    rw [lowered.sound.wf.push_getSize, lowered.size]
    rfl
  · rw [queued]
    simp [enableWrite, Channel.enableAgain]

theorem Lowered.readBuf {conn : TCPConnection} {sent : Option Nat} (lowered : conn.Lowered sent)
    (readBuf : Buffer) : { conn with readBuf := readBuf }.Lowered sent :=
  ⟨(lowered.sound.readBuf readBuf).1, lowered.connecting, lowered.size, lowered.enabled⟩

/-- Half closing ends early unless an empty message is all that was sent. -/
theorem Lowered.halfClose {conn : TCPConnection} {sent : Option Nat} (lowered : conn.Lowered sent)
    (rest : List UserCall) : conn.EndsEarly (.halfClose :: rest) ↔
      sent ≠ some 0 ∧ Consumes conn.readBuf.getSize rest := by
  have unissued : Shutdown.wr ∉ conn.shutdowns :=
    fun issued => lowered.sound.closing issued lowered.connecting
  obtain ⟨closed, called⟩ : ∃ closed, conn.halfClose = .ok closed := by
    rw [TCPConnection.halfClose, if_pos lowered.connecting]
    dsimp only
    split
    · exact ⟨_, rfl⟩
    · exact ⟨_, rfl⟩
  obtain ⟨-, closing, writeBuf, readBuf, shutdowns⟩ := halfClose_eq called
  -- `half_close` issues the shutdown itself exactly when nothing was sent
  have early : ¬ (Shutdown.wr ∉ closed.shutdowns ∧ closed.writeBuf.getSize = 0) ↔
      sent ≠ some 0 := by
    rw [shutdowns, writeBuf, lowered.size, Channel.isEnable, lowered.enabled]
    rcases sent with _ | _ | count
    · simp
    · simp [unissued]
    · simp
  have halfCloses : conn.call .halfClose = .ok closed := called
  have runs := runCalls_cons_ok halfCloses rest
  rw [EndsEarly, runs, ← early, ← readBuf]
  constructor
  · rintro ⟨final, ran, still, ends⟩
    obtain ⟨consumes, sameShutdowns, sameBuf⟩ := runCalls_closing closing ran still
    rw [sameShutdowns, sameBuf] at ends
    exact ⟨ends, consumes⟩
  · rintro ⟨ends, consumes⟩
    obtain ⟨final, ran, still⟩ := runCalls_consumes closing consumes
    obtain ⟨-, sameShutdowns, sameBuf⟩ := runCalls_closing closing ran still
    exact ⟨final, ran, still, by rw [sameShutdowns, sameBuf]; exact ends⟩

theorem endsEarly_opened (final : TCPConnection)
    (ends : final.state = .halfClose ∧
      ¬ (Shutdown.wr ∉ final.shutdowns ∧ final.writeBuf.getSize = 0)) :
    final.state ≠ .fullClose := by
  rw [ends.1]
  exact State.noConfusion

/-- `HalfCloses` tells from the calls alone how they end. -/
theorem Lowered.endsEarly_iff {calls : List UserCall} {conn : TCPConnection} {sent : Option Nat}
    (lowered : conn.Lowered sent) :
    conn.EndsEarly calls ↔ HalfCloses sent conn.readBuf.getSize calls := by
  have opened : conn.state ≠ .fullClose := by
    rw [lowered.connecting]
    nofun
  induction calls generalizing conn sent with
  | nil =>
      refine ⟨?_, False.elim⟩
      rintro ⟨final, ran, still, -⟩
      cases ran
      rw [lowered.connecting] at still
      cases still
  | cons first rest ih =>
      cases first with
      | sendData msg =>
          by_cases fits : conn.writeBuf.getSize + msg.length < maxWriteBufSize
          · have called : conn.call (.sendData msg) =
                .ok { conn with writeBuf := conn.writeBuf.push msg }.enableWrite := by
              rw [TCPConnection.call, TCPConnection.sendData, if_pos lowered.connecting,
                if_neg (Nat.not_le.mpr fits)]
            have behind := ih (lowered.sendData fits rfl) opened
            rw [lowered.size] at fits
            exact (returns_cons called rest).trans (behind.trans (and_iff_right fits).symm)
          · have closed : conn.call (.sendData msg) = conn.fullClose := by
              rw [TCPConnection.call, TCPConnection.sendData, if_pos lowered.connecting,
                if_pos (Nat.not_lt.mp fits)]
            rw [fullClose, if_pos opened] at closed
            rw [lowered.size] at fits
            exact iff_of_false (not_returns_of_closed endsEarly_opened closed rfl rest)
              fun ends => fits ends.1
      | popData =>
          obtain ⟨readBuf, consumed, popped⟩ := returns_popData opened rest
          have behind := ih (lowered.readBuf readBuf) opened
          dsimp only at behind
          rw [consumed] at behind
          exact popped.trans behind
      | popDataLen len =>
          by_cases inside : 0 ≤ len ∧ len ≤ conn.readBuf.getSize
          · obtain ⟨readBuf, consumed, popped⟩ := returns_popDataLen opened inside rest
            have behind := ih (lowered.readBuf readBuf) opened
            dsimp only at behind
            rw [consumed] at behind
            exact popped.trans (behind.trans (and_iff_right inside).symm)
          · exact iff_of_false (not_returns_popDataLen opened inside rest)
              fun ends => inside ends.1
      | halfClose => exact lowered.halfClose rest
      | fullClose =>
          have closed : conn.call .fullClose = conn.fullClose := rfl
          rw [fullClose, if_pos opened] at closed
          exact iff_of_false (not_returns_of_closed endsEarly_opened closed rfl rest) id

/-! ## `handle_write` -/

/-- The shutdown behind `write_lower`. -/
theorem Sound.shutdownWr {final : TCPConnection} (sound : final.Sound)
    (closing : final.state = .halfClose) : (final.shutdown .wr).Sound ∧
      (final.ShutsAfterWrites → ((final.shutdown .wr).ShutsAfterWrites ↔
        Shutdown.wr ∉ final.shutdowns ∧ final.writeBuf.getSize = 0)) := by
  refine ⟨⟨sound.wf, fun _ => ?_⟩, fun good => ?_⟩
  · change final.state ≠ .connecting
    rw [closing]
    nofun
  · have counted :
        (final.shutdowns ++ [Shutdown.wr]).count .wr = final.shutdowns.count .wr + 1 := by
      rw [List.count_append]
      rfl
    have last : Shutdown.wr ∈ final.shutdowns ++ [Shutdown.wr] :=
      List.mem_append_right _ List.mem_cons_self
    constructor
    · rintro ⟨drained, once⟩
      refine ⟨fun issued => ?_, drained last⟩
      have before := List.count_pos_iff.mpr issued
      change (final.shutdowns ++ [Shutdown.wr]).count .wr ≤ 1 at once
      omega
    · rintro ⟨unissued, empty⟩
      refine ⟨fun _ => empty, ?_⟩
      have none : final.shutdowns.count .wr = 0 := List.count_eq_zero_of_not_mem unissued
      change (final.shutdowns ++ [Shutdown.wr]).count .wr ≤ 1
      omega

/-- What a handler that returns keeps, exactly under `condition`; one that throws meets it. -/
def Judged (conn : TCPConnection) (condition : Prop) : Except Assertion TCPConnection → Prop
  | .ok next => next.Sound ∧
      (conn.ShutsAfterWrites → (next.ShutsAfterWrites ↔ condition))
  | .error _ => condition

theorem Keeps.judged {conn next : TCPConnection} {condition : Prop} (kept : conn.Keeps next)
    (met : condition) : conn.Judged condition (.ok next) :=
  ⟨kept.1, fun good => iff_of_true (kept.2 good) met⟩

theorem Judged.of_keeps {conn : TCPConnection} {condition : Prop} (met : condition)
    {result : Except Assertion TCPConnection}
    (keeps : ∀ next, result = .ok next → conn.Keeps next) : conn.Judged condition result := by
  cases result with
  | error assertion => exact met
  | ok next => exact (keeps next rfl).judged met

/-- The last part of `handle_write`: `write_lower`, and the shutdown of a half-closed connection. -/
theorem Sound.lowers {conn lowered : TCPConnection} (lowerSound : lowered.Sound)
    (waiting : 0 < conn.writeBuf.getSize) (state : lowered.state = conn.state)
    (shutdowns : lowered.shutdowns = conn.shutdowns) (empty : lowered.writeBuf.getSize = 0)
    (disabled : lowered.ch.enableArr .write = false) {writeLower : List UserCall}
    {result : Except Assertion TCPConnection}
    (returns : ∀ final, lowered.runCalls writeLower = .ok final →
      result = .ok (if final.state = .halfClose then final.shutdown .wr else final))
    (throws : ∀ assertion, lowered.runCalls writeLower = .error assertion →
      result = .error assertion) :
    conn.Judged (conn.state = .connecting →
      ¬ HalfCloses none lowered.readBuf.getSize writeLower) result := by
  have endsEarly (connecting : conn.state = .connecting) :
      lowered.EndsEarly writeLower ↔ HalfCloses none lowered.readBuf.getSize writeLower :=
    Lowered.endsEarly_iff ⟨lowerSound, state.trans connecting, empty, disabled⟩
  have lowerGood (good : conn.ShutsAfterWrites) : lowered.ShutsAfterWrites :=
    ⟨fun _ => empty, shutdowns ▸ good.2⟩
  cases ran : lowered.runCalls writeLower with
  | error assertion =>
      rw [throws assertion ran]
      intro connecting halfCloses
      obtain ⟨final, returned, -⟩ := (endsEarly connecting).mpr halfCloses
      rw [ran] at returned
      cases returned
  | ok final =>
      obtain ⟨finalSound, finalGood⟩ := lowerSound.runCalls ran
      rw [returns final ran]
      by_cases closing : final.state = .halfClose
      · rw [if_pos closing]
        obtain ⟨issuedSound, issuedGood⟩ := finalSound.shutdownWr closing
        refine ⟨issuedSound, fun good => (issuedGood (finalGood (lowerGood good))).trans ?_⟩
        constructor
        · intro inOrder connecting halfCloses
          obtain ⟨last, returned, -, ends⟩ := (endsEarly connecting).mpr halfCloses
          rw [ran] at returned
          cases returned
          exact ends inOrder
        · intro keepsOpen
          cases before : conn.state with
          | connecting =>
              by_contra ends
              exact keepsOpen before ((endsEarly before).mp ⟨final, ran, closing, ends⟩)
          | halfClose =>
              -- the shutdown was waiting for the bytes that this call has written
              obtain ⟨-, same, sameBuf⟩ := runCalls_closing (state.trans before) ran closing
              rw [same, sameBuf, shutdowns]
              refine ⟨fun issued => ?_, empty⟩
              have drained := good.1 issued
              omega
          | fullClose =>
              have closed := runCalls_closed (state.trans before) ran
              rw [closing] at closed
              cases closed
      · rw [if_neg closing]
        refine ⟨finalSound, fun good => iff_of_true (finalGood (lowerGood good)) ?_⟩
        intro connecting halfCloses
        obtain ⟨last, returned, still, -⟩ := (endsEarly connecting).mpr halfCloses
        rw [ran] at returned
        cases returned
        exact closing still

end TCPConnection

namespace ConnRun

open TCPConnection

theorem judged_handleWrite {run : ConnRun} (sound : run.conn.Sound) {result : WriteResult}
    (fits : result.accepted ≤ run.conn.writeBuf.getSize) (writeLower writeHigh : List UserCall) :
    run.conn.Judged (run.LowerKeepsOpen (.write result writeLower writeHigh))
      (run.conn.handleWrite result writeLower writeHigh) := by
  by_cases waiting : 0 < run.conn.writeBuf.getSize
  · have size : (run.conn.writeBuf.popTo result).2.getSize =
        run.conn.writeBuf.getSize - result.accepted := by
      rw [Buffer.popTo_eq]
      simp only [Buffer.getSize]
      omega
    -- while bytes wait no shutdown was issued, so taking some of them is in order
    have sent : run.conn.Keeps
        { run.conn with writeBuf := (run.conn.writeBuf.popTo result).2 } := by
      refine ⟨⟨sound.wf.popTo fits, sound.closing⟩, fun good => ⟨fun issued => ?_, good.2⟩⟩
      have drained := good.1 issued
      omega
    rw [TCPConnection.handleWrite, if_pos waiting]
    cases result with
    | error errno =>
        cases errno with
        | again => exact sent.judged trivial
        | intr => exact sent.judged trivial
        | other =>
            apply Judged.of_keeps trivial
            intro next closed
            exact sent.trans (sent.1.fullClose closed).1
    | wrote count =>
        cases count with
        | zero => exact sent.judged trivial
        | succ count =>
            dsimp only
            by_cases empty : (run.conn.writeBuf.popTo (.wrote (count + 1))).2.getSize = 0
            · rw [if_pos empty]
              have whole : count + 1 = run.conn.writeBuf.getSize := by
                simp only [WriteResult.accepted] at size fits
                omega
              let lowered := { run.conn with
                writeBuf := (run.conn.writeBuf.popTo (.wrote (count + 1))).2 }.disableWrite
              have lowerSound : lowered.Sound := ⟨sent.1.wf, sent.1.closing⟩
              have disabled : lowered.ch.enableArr .write = false := by
                simp [lowered, disableWrite, Channel.disableEvent]
              have condition :
                  run.LowerKeepsOpen (.write (.wrote (count + 1)) writeLower writeHigh) ↔
                    (run.conn.state = .connecting →
                      ¬ HalfCloses none run.conn.readBuf.getSize writeLower) :=
                ⟨fun keeps connecting => keeps connecting whole,
                  fun keeps connecting _ => keeps connecting⟩
              rw [condition]
              refine lowerSound.lowers waiting rfl rfl empty disabled ?_ ?_
              · intro final ran
                rw [ran]
              · intro assertion threw
                rw [threw]
            · rw [if_neg empty]
              have partly : count + 1 ≠ run.conn.writeBuf.getSize := by
                simp only [WriteResult.accepted] at size fits
                omega
              have met : run.LowerKeepsOpen (.write (.wrote (count + 1)) writeLower writeHigh) :=
                fun _ whole => absurd whole partly
              split
              · exact Judged.of_keeps met fun next ran => sent.trans (sent.1.runCalls ran)
              · exact sent.judged met
  · rw [TCPConnection.handleWrite, if_neg waiting]
    change run.LowerKeepsOpen (.write result writeLower writeHigh)
    cases result with
    | error errno => trivial
    | wrote count =>
        cases count with
        | zero => trivial
        | succ count =>
            intro _ whole
            omega

/-! ## Runs -/

theorem sound_finishHandler {run : ConnRun} (sound : run.conn.Sound) (et : EventType)
    {condition : Prop} {result : Except Assertion TCPConnection}
    (judged : run.conn.Judged condition result) :
    (run.finishHandler et result).conn.Sound ∧ (run.conn.ShutsAfterWrites →
      ((run.finishHandler et result).conn.ShutsAfterWrites ↔ condition)) := by
  cases result with
  | error assertion => exact ⟨sound, fun good => iff_of_true good judged⟩
  | ok next => exact ⟨(judged.1.clearTrigger et).1, judged.2⟩

/-- One step: the invariant stays, and the order of writes and shutdown under the condition. -/
theorem stepCalls_judged {run next : ConnRun} {event : CallbackEvent} (sound : run.conn.Sound)
    (taken : run.stepCalls event = some next) :
    next.conn.Sound ∧ (run.conn.ShutsAfterWrites →
      (next.conn.ShutsAfterWrites ↔ run.LowerKeepsOpen event)) := by
  cases event with
  | report reported =>
      obtain ⟨-, rfl⟩ := of_guarded taken
      exact ⟨⟨sound.wf, sound.closing⟩, fun good => iff_of_true good trivial⟩
  | read result messageCb =>
      obtain ⟨-, rfl⟩ := of_guarded taken
      refine sound_finishHandler sound .read (Judged.of_keeps trivial fun next handled => ?_)
      exact sound.handleRead handled
  | write result writeLower writeHigh =>
      obtain ⟨enabled, rfl⟩ := of_guarded taken
      exact sound_finishHandler sound .write
        (judged_handleWrite sound enabled.2.2.2 writeLower writeHigh)
  | user call =>
      obtain ⟨-, rfl⟩ := of_guarded taken
      cases called : run.conn.call call with
      | error assertion => exact ⟨sound, fun good => iff_of_true good trivial⟩
      | ok conn =>
          have kept := sound.call called
          exact ⟨kept.1, fun good => iff_of_true (kept.2 good) trivial⟩
  | remove =>
      obtain ⟨-, rfl⟩ := of_guarded taken
      exact ⟨sound, fun good => iff_of_true good trivial⟩

/--
A run shuts its sending side down once and behind all its writes exactly when no `write_lower`
half closes an open connection whose bytes it has just seen written.
-/
theorem allShutAfterWrites_iff (events : List CallbackEvent) :
    AllStates stepCalls (fun run => run.conn.ShutsAfterWrites) start events ↔
      StepsMeet stepCalls LowerKeepsOpen start events :=
  allStates_iff_stepsMeet (fun run => run.conn.Sound)
    (fun _ _ _ sound taken => (stepCalls_judged sound taken).1)
    (fun _ _ _ sound good taken => (stepCalls_judged sound taken).2 good)
    events new_sound new_shutsAfterWrites

/-- Two bytes are sent; when they are written the callback sends one more and half closes. -/
def refillingRun : List CallbackEvent :=
  [.user (.sendData [0, 0]), .report fun et => decide (et = .write),
    .write (.wrote 2) [.sendData [0], .halfClose] []]

/-- `shutdown(SHUT_WR)` is issued with one byte in `write_buf`, which is never sent. -/
theorem refillingRun_truncates :
    ¬ AllStates stepCalls (fun run => run.conn.ShutsAfterWrites) start refillingRun := by
  decide +kernel

end ConnRun

end SimpleWebServer.Tcp
