import SimpleWebServer.Tcp.HalfClose

/-!
# The write event and `write_buf`

The write event of an open connection is to be enabled exactly while `write_buf` holds
something.  It is switched on by `send_data`, whatever is sent, and off by `handle_write`
before it calls `write_lower`.  `half_close` relies on it, and so does the assertion of
`handle_write`.
-/

namespace SimpleWebServer.Tcp

open SimpleWebServer.Base SimpleWebServer.Reactor SimpleWebServer.Lib.Runs

/--
The calls, made on an open connection with an empty `write_buf`, leave it open and empty but
with its write event enabled.  `sent` tells whether an empty message was sent before.
-/
def EnablesEmpty : Bool → Nat → List UserCall → Prop
  | sent, _, [] => sent = true
  | _, readable, .sendData msg :: rest => msg = [] ∧ EnablesEmpty true readable rest
  | sent, _, .popData :: rest => EnablesEmpty sent 0 rest
  | sent, readable, .popDataLen len :: rest =>
      (0 ≤ len ∧ len ≤ readable) ∧ EnablesEmpty sent 0 rest
  | sent, readable, .halfClose :: rest => sent = true ∧ Consumes readable rest
  | _, _, .fullClose :: _ => False

instance EnablesEmpty.decidable : (sent : Bool) → (readable : Nat) → (calls : List UserCall) →
    Decidable (EnablesEmpty sent readable calls)
  | sent, _, [] => inferInstanceAs (Decidable (sent = true))
  | _, readable, .sendData msg :: rest =>
      have := EnablesEmpty.decidable true readable rest
      inferInstanceAs (Decidable (msg = [] ∧ EnablesEmpty true readable rest))
  | sent, _, .popData :: rest => EnablesEmpty.decidable sent 0 rest
  | sent, readable, .popDataLen len :: rest =>
      have := EnablesEmpty.decidable sent 0 rest
      inferInstanceAs (Decidable ((0 ≤ len ∧ len ≤ readable) ∧ EnablesEmpty sent 0 rest))
  | sent, readable, .halfClose :: rest =>
      inferInstanceAs (Decidable (sent = true ∧ Consumes readable rest))
  | _, _, .fullClose :: _ => .isFalse id

namespace TCPConnection

/-- The write event is enabled exactly while there is something to write. -/
def Interested (conn : TCPConnection) : Prop :=
  (conn.ch.isEnable .write = true ↔ 0 < conn.writeBuf.getSize) ∧
    (conn.state = .halfClose → conn.writeBuf.getSize = 0 → Shutdown.wr ∈ conn.shutdowns)

instance : DecidablePred Interested := fun conn =>
  inferInstanceAs (Decidable ((conn.ch.isEnable .write = true ↔ 0 < conn.writeBuf.getSize) ∧
    (conn.state = .halfClose → conn.writeBuf.getSize = 0 → Shutdown.wr ∈ conn.shutdowns)))

/-- The half of it that no step loses. -/
structure Prompt (conn : TCPConnection) : Prop where
  wf : conn.writeBuf.Wf
  waits : 0 < conn.writeBuf.getSize → conn.ch.enableArr .write = true
  closing : conn.state = .halfClose → conn.ch.enableArr .write = false →
    Shutdown.wr ∈ conn.shutdowns

/-- The other half: nobody waits for nothing. -/
def Settled (conn : TCPConnection) : Prop :=
  conn.ch.enableArr .write = true → 0 < conn.writeBuf.getSize

theorem new_prompt : new.Prompt := by
  refine ⟨Buffer.new_wf, ?_, ?_⟩
  · intro waiting
    exact absurd waiting (by decide +kernel)
  · intro closing
    cases closing

theorem new_settled : new.Settled := by
  intro enabled
  exact absurd enabled (by decide)

theorem Prompt.interested_iff {conn : TCPConnection} (prompt : conn.Prompt) :
    conn.Interested ↔ conn.Settled := by
  constructor
  · exact fun interested enabled => interested.1.mp enabled
  · refine fun settled => ⟨⟨settled, prompt.waits⟩, fun closing empty => ?_⟩
    refine prompt.closing closing (Bool.eq_false_iff.mpr fun enabled => ?_)
    have waiting := settled enabled
    omega

/-! ## What the calls preserve -/

theorem of_fullClose {conn next : TCPConnection} (closed : conn.fullClose = .ok next) :
    next.state = .fullClose ∧ next.ch = conn.ch ∧ next.writeBuf = conn.writeBuf := by
  rw [TCPConnection.fullClose] at closed
  split at closed
  · cases closed
    exact ⟨rfl, rfl, rfl⟩
  · cases closed

theorem halfClose_ch {conn next : TCPConnection} (closed : conn.halfClose = .ok next) :
    next.ch = conn.ch := by
  rw [TCPConnection.halfClose] at closed
  split at closed
  · dsimp only at closed
    split at closed
    · cases closed
      rfl
    · cases closed
      rfl
  · cases closed

theorem Prompt.readBuf {conn : TCPConnection} (prompt : conn.Prompt) (readBuf : Buffer) :
    { conn with readBuf := readBuf }.Prompt :=
  ⟨prompt.wf, prompt.waits, prompt.closing⟩

theorem Prompt.fullClose {conn next : TCPConnection} (prompt : conn.Prompt)
    (closed : conn.fullClose = .ok next) : next.Prompt := by
  obtain ⟨state, ch, writeBuf⟩ := of_fullClose closed
  refine ⟨writeBuf ▸ prompt.wf, by rw [writeBuf, ch]; exact prompt.waits, fun closing => ?_⟩
  rw [state] at closing
  cases closing

theorem Prompt.call {conn next : TCPConnection} (prompt : conn.Prompt) {call : UserCall}
    (called : conn.call call = .ok next) : next.Prompt := by
  cases call with
  | sendData msg =>
      obtain ⟨-, ⟨-, closed⟩ | ⟨-, rfl⟩⟩ := sendData_eq called
      · exact prompt.fullClose closed
      · have enabled : ({ conn with
            writeBuf := conn.writeBuf.push msg }.enableWrite).ch.enableArr .write = true := by
          simp [enableWrite, Channel.enableAgain]
        refine ⟨prompt.wf.push msg, fun _ => enabled, fun _ disabled => ?_⟩
        rw [enabled] at disabled
        cases disabled
  | popData =>
      obtain ⟨-, -, readBuf, -, rfl⟩ := popDataLen_eq called
      exact prompt.readBuf readBuf
  | popDataLen len =>
      obtain ⟨-, -, readBuf, -, rfl⟩ := popDataLen_eq called
      exact prompt.readBuf readBuf
  | halfClose =>
      obtain ⟨-, -, writeBuf, -, shutdowns⟩ := halfClose_eq called
      have ch := halfClose_ch called
      refine ⟨writeBuf ▸ prompt.wf, by rw [writeBuf, ch]; exact prompt.waits, ?_⟩
      intro _ disabled
      rw [ch] at disabled
      have empty : conn.writeBuf.getSize = 0 := by
        by_contra waiting
        rw [prompt.waits (Nat.pos_of_ne_zero waiting)] at disabled
        cases disabled
      rw [shutdowns, if_pos ⟨empty, disabled⟩]
      exact List.mem_append_right _ List.mem_cons_self
  | fullClose => exact prompt.fullClose called

/-- Something is waiting to be written, and its event is enabled. -/
def Busy (conn : TCPConnection) : Prop :=
  conn.writeBuf.Wf ∧ 0 < conn.writeBuf.getSize ∧ conn.ch.enableArr .write = true

/-- No call takes anything back. -/
theorem Busy.call {conn next : TCPConnection} (busy : conn.Busy) {call : UserCall}
    (called : conn.call call = .ok next) : next.Busy := by
  obtain ⟨wf, waiting, enabled⟩ := busy
  have ofSame (ch : next.ch = conn.ch) (writeBuf : next.writeBuf = conn.writeBuf) :
      next.Busy := by
    rw [Busy, ch, writeBuf]
    exact ⟨wf, waiting, enabled⟩
  cases call with
  | sendData msg =>
      obtain ⟨-, ⟨-, closed⟩ | ⟨-, rfl⟩⟩ := sendData_eq called
      · obtain ⟨-, ch, writeBuf⟩ := of_fullClose closed
        exact ofSame ch writeBuf
      · refine ⟨wf.push msg, ?_, by simp [enableWrite, Channel.enableAgain]⟩
        change 0 < (conn.writeBuf.push msg).getSize
        rw [wf.push_getSize]
        omega
  | popData =>
      obtain ⟨-, -, readBuf, -, rfl⟩ := popDataLen_eq called
      exact ofSame rfl rfl
  | popDataLen len =>
      obtain ⟨-, -, readBuf, -, rfl⟩ := popDataLen_eq called
      exact ofSame rfl rfl
  | halfClose =>
      obtain ⟨-, -, writeBuf, -, -⟩ := halfClose_eq called
      exact ofSame (halfClose_ch called) writeBuf
  | fullClose =>
      obtain ⟨-, ch, writeBuf⟩ := of_fullClose called
      exact ofSame ch writeBuf

/-- Behind `CONNECTING` no call touches the event or the bytes that wait. -/
theorem call_behind {conn next : TCPConnection} (behind : conn.state ≠ .connecting)
    {call : UserCall} (called : conn.call call = .ok next) :
    next.state ≠ .connecting ∧ next.ch = conn.ch ∧ next.writeBuf = conn.writeBuf := by
  cases call with
  | sendData msg => exact absurd (sendData_eq called).1 behind
  | popData =>
      obtain ⟨-, -, readBuf, -, rfl⟩ := popDataLen_eq called
      exact ⟨behind, rfl, rfl⟩
  | popDataLen len =>
      obtain ⟨-, -, readBuf, -, rfl⟩ := popDataLen_eq called
      exact ⟨behind, rfl, rfl⟩
  | halfClose => exact absurd (halfClose_eq called).1 behind
  | fullClose =>
      obtain ⟨state, ch, writeBuf⟩ := of_fullClose called
      exact ⟨by rw [state]; exact State.noConfusion, ch, writeBuf⟩

theorem runCalls_behind {conn final : TCPConnection} (behind : conn.state ≠ .connecting)
    {calls : List UserCall} (ran : conn.runCalls calls = .ok final) :
    final.state ≠ .connecting ∧ final.ch = conn.ch ∧ final.writeBuf = conn.writeBuf := by
  refine @runCalls_preserves (fun other => other.state ≠ .connecting ∧ other.ch = conn.ch ∧
    other.writeBuf = conn.writeBuf) ?_ calls conn final ⟨behind, rfl, rfl⟩ ran
  rintro middle next call ⟨notConnecting, ch, writeBuf⟩ called
  obtain ⟨still, nextCh, nextBuf⟩ := call_behind notConnecting called
  exact ⟨still, nextCh.trans ch, nextBuf.trans writeBuf⟩

/-- The assertion of `handle_write` is not reached by a call. -/
theorem call_error {conn : TCPConnection} {call : UserCall} {assertion : Assertion}
    (threw : conn.call call = .error assertion) : assertion ≠ .handleWrite := by
  have ofPop {len : Int} (threw : conn.popDataLen len = .error assertion) :
      assertion ≠ .handleWrite := by
    rw [popDataLen] at threw
    split at threw
    · split at threw
      · cases threw
      · cases threw
        exact Assertion.noConfusion
    · cases threw
      exact Assertion.noConfusion
  have ofClose (threw : conn.fullClose = .error assertion) : assertion ≠ .handleWrite := by
    rw [TCPConnection.fullClose] at threw
    split at threw
    · cases threw
    · cases threw
      exact Assertion.noConfusion
  cases call with
  | sendData msg =>
      rw [TCPConnection.call, sendData] at threw
      split at threw
      · split at threw
        · exact ofClose threw
        · cases threw
      · cases threw
        exact Assertion.noConfusion
  | popData => exact ofPop threw
  | popDataLen len => exact ofPop threw
  | halfClose =>
      rw [TCPConnection.call, halfClose] at threw
      dsimp only at threw
      split at threw
      · split at threw
        · cases threw
        · cases threw
      · cases threw
        exact Assertion.noConfusion
  | fullClose => exact ofClose threw

theorem runCalls_error {calls : List UserCall} {conn : TCPConnection} {assertion : Assertion}
    (threw : conn.runCalls calls = .error assertion) : assertion ≠ .handleWrite := by
  induction calls generalizing conn with
  | nil => cases threw
  | cons first rest ih =>
      cases called : conn.call first with
      | error other =>
          rw [runCalls_cons_error called] at threw
          cases threw
          exact call_error called
      | ok middle =>
          rw [runCalls_cons_ok called] at threw
          exact ih threw

/-! ## What the calls of a callback end in -/

/-- An open connection has its write event enabled for nothing. -/
def Idle (conn : TCPConnection) : Prop :=
  conn.state ≠ .fullClose ∧ ¬ conn.Settled

theorem idle_opened (final : TCPConnection) (idle : final.Idle) : final.state ≠ .fullClose :=
  idle.1

/-- An open connection that has sent nothing, or only empty messages, since it was emptied. -/
structure Emptied (conn : TCPConnection) (sent : Bool) : Prop where
  wf : conn.writeBuf.Wf
  connecting : conn.state = .connecting
  empty : conn.writeBuf.getSize = 0
  enabled : conn.ch.enableArr .write = sent

theorem Emptied.readBuf {conn : TCPConnection} {sent : Bool} (emptied : conn.Emptied sent)
    (readBuf : Buffer) : { conn with readBuf := readBuf }.Emptied sent :=
  ⟨emptied.wf, emptied.connecting, emptied.empty, emptied.enabled⟩

/-- The event is enabled for nothing if and only if a message was sent. -/
theorem not_settled_iff {conn : TCPConnection} (empty : conn.writeBuf.getSize = 0) :
    ¬ conn.Settled ↔ conn.ch.enableArr .write = true := by
  rw [Settled, empty]
  simp

theorem Busy.not_idle {conn : TCPConnection} (busy : conn.Busy) : ¬ conn.Idle :=
  fun idle => idle.2 fun _ => busy.2.1

theorem Busy.not_returns {conn : TCPConnection} (busy : conn.Busy) (calls : List UserCall) :
    ¬ Returns Idle conn calls := by
  rintro ⟨final, ran, idle⟩
  have still : final.Busy := runCalls_preserves (fun busy called => busy.call called) busy ran
  exact still.not_idle idle

/-- A message that is not empty is queued, or closes the connection. -/
theorem Emptied.not_returns_sendData {conn : TCPConnection} {sent : Bool}
    (emptied : conn.Emptied sent) {msg : Bytes} (nonempty : msg ≠ []) (rest : List UserCall) :
    ¬ Returns Idle conn (.sendData msg :: rest) := by
  have positive := List.length_pos_iff.mpr nonempty
  cases called : conn.call (.sendData msg) with
  | error assertion => exact not_returns_of_error called rest
  | ok next =>
      obtain ⟨-, ⟨-, closed⟩ | ⟨-, rfl⟩⟩ := sendData_eq called
      · exact not_returns_of_closed idle_opened called (of_fullClose closed).1 rest
      · rw [returns_cons called]
        refine Busy.not_returns ⟨emptied.wf.push msg, ?_, ?_⟩ rest
        · change 0 < (conn.writeBuf.push msg).getSize
          rw [emptied.wf.push_getSize]
          omega
        · simp [enableWrite, Channel.enableAgain]

theorem Emptied.sendEmpty {conn : TCPConnection} {sent : Bool} (emptied : conn.Emptied sent) :
    ∃ next, conn.call (.sendData []) = .ok next ∧ next.Emptied true ∧
      next.readBuf = conn.readBuf := by
  have fits : ¬ maxWriteBufSize ≤ conn.writeBuf.getSize + ([] : Bytes).length := by
    rw [emptied.empty]
    decide
  refine ⟨{ conn with writeBuf := conn.writeBuf.push [] }.enableWrite, ?_, ?_, rfl⟩
  · rw [TCPConnection.call, sendData, if_pos emptied.connecting, if_neg fits]
  · refine ⟨emptied.wf.push [], emptied.connecting, ?_, by simp [enableWrite, Channel.enableAgain]⟩
    change (conn.writeBuf.push []).getSize = 0
    rw [emptied.wf.push_getSize, emptied.empty]
    rfl

/-- Behind a half close nothing changes any more. -/
theorem Emptied.halfClose {conn : TCPConnection} {sent : Bool} (emptied : conn.Emptied sent)
    (rest : List UserCall) : Returns Idle conn (.halfClose :: rest) ↔
      sent = true ∧ Consumes conn.readBuf.getSize rest := by
  cases called : conn.call .halfClose with
  | error assertion =>
      rw [TCPConnection.call, TCPConnection.halfClose, if_pos emptied.connecting] at called
      dsimp only at called
      split at called
      · cases called
      · cases called
  | ok closed =>
      obtain ⟨-, closing, writeBuf, readBuf, -⟩ := halfClose_eq called
      have empty : closed.writeBuf.getSize = 0 := by rw [writeBuf, emptied.empty]
      have idle : ¬ closed.Settled ↔ sent = true := by
        rw [not_settled_iff empty, halfClose_ch called, emptied.enabled]
      have behind : closed.state ≠ .connecting := by
        rw [closing]
        exact State.noConfusion
      rw [returns_cons called, ← idle, ← readBuf]
      constructor
      · rintro ⟨final, ran, opened, notSettled⟩
        obtain ⟨notConnecting, ch, sameBuf⟩ := runCalls_behind behind ran
        have still : final.state = .halfClose := by
          cases state : final.state with
          | connecting => exact absurd state notConnecting
          | halfClose => rfl
          | fullClose => exact absurd state opened
        refine ⟨?_, (runCalls_closing closing ran still).1⟩
        rwa [Settled, ch, sameBuf] at notSettled
      · rintro ⟨notSettled, consumes⟩
        obtain ⟨final, ran, still⟩ := runCalls_consumes closing consumes
        obtain ⟨-, ch, sameBuf⟩ := runCalls_behind behind ran
        refine ⟨final, ran, by rw [still]; exact State.noConfusion, ?_⟩
        rwa [Settled, ch, sameBuf]

/-- `EnablesEmpty` tells from the calls alone how they end. -/
theorem Emptied.returns_idle_iff {calls : List UserCall} {conn : TCPConnection} {sent : Bool}
    (emptied : conn.Emptied sent) :
    Returns Idle conn calls ↔ EnablesEmpty sent conn.readBuf.getSize calls := by
  have opened : conn.state ≠ .fullClose := by
    rw [emptied.connecting]
    exact State.noConfusion
  induction calls generalizing conn sent with
  | nil =>
      have idle : conn.Idle ↔ sent = true := by
        rw [Idle, not_settled_iff emptied.empty, emptied.enabled]
        exact and_iff_right opened
      constructor
      · rintro ⟨final, ran, ends⟩
        cases ran
        exact idle.mp ends
      · exact fun enabled => ⟨conn, rfl, idle.mpr enabled⟩
  | cons first rest ih =>
      cases first with
      | sendData msg =>
          by_cases nothing : msg = []
          · subst nothing
            obtain ⟨next, called, behind, readBuf⟩ := emptied.sendEmpty
            have later := ih behind (by rw [behind.connecting]; exact State.noConfusion)
            rw [readBuf] at later
            exact (returns_cons called rest).trans (later.trans (and_iff_right rfl).symm)
          · exact iff_of_false (emptied.not_returns_sendData nothing rest)
              fun enables => nothing enables.1
      | popData =>
          obtain ⟨readBuf, consumed, popped⟩ := returns_popData opened rest
          have behind := ih (emptied.readBuf readBuf) opened
          dsimp only at behind
          rw [consumed] at behind
          exact popped.trans behind
      | popDataLen len =>
          by_cases inside : 0 ≤ len ∧ len ≤ conn.readBuf.getSize
          · obtain ⟨readBuf, consumed, popped⟩ := returns_popDataLen opened inside rest
            have behind := ih (emptied.readBuf readBuf) opened
            dsimp only at behind
            rw [consumed] at behind
            exact popped.trans (behind.trans (and_iff_right inside).symm)
          · exact iff_of_false (not_returns_popDataLen opened inside rest)
              fun enables => inside enables.1
      | halfClose => exact emptied.halfClose rest
      | fullClose =>
          have closed : conn.call .fullClose = conn.fullClose := rfl
          rw [TCPConnection.fullClose, if_pos opened] at closed
          exact iff_of_false (not_returns_of_closed idle_opened closed rfl rest) id

/-! ## The handlers -/

/--
What a call or a handler ends in: no event enabled for nothing and no assertion of
`handle_write`, exactly under `condition`.
-/
def Verdict (condition : Prop) : Except Assertion TCPConnection → Prop
  | .ok next => next.Prompt ∧ (¬ next.Idle ↔ condition)
  | .error assertion => assertion ≠ .handleWrite ↔ condition

theorem Settled.not_idle {conn : TCPConnection} (settled : conn.Settled) : ¬ conn.Idle :=
  fun idle => idle.2 settled

theorem not_idle_of_closed {conn : TCPConnection} (closed : conn.state = .fullClose) :
    ¬ conn.Idle :=
  fun idle => idle.1 closed

theorem verdict_ok {next : TCPConnection} (prompt : next.Prompt) (fine : ¬ next.Idle)
    {condition : Prop} (met : condition) : Verdict condition (.ok next) :=
  ⟨prompt, iff_of_true fine met⟩

theorem verdict_error {assertion : Assertion} (other : assertion ≠ .handleWrite)
    {condition : Prop} (met : condition) : Verdict condition (.error assertion) :=
  iff_of_true other met

theorem Prompt.verdict_fullClose {conn : TCPConnection} (prompt : conn.Prompt)
    {condition : Prop} (met : condition) : Verdict condition conn.fullClose := by
  cases closed : conn.fullClose with
  | error assertion =>
      have called : conn.call .fullClose = .error assertion := closed
      exact verdict_error (call_error called) met
  | ok next =>
      exact verdict_ok (prompt.fullClose closed) (not_idle_of_closed (of_fullClose closed).1) met

/-- The condition on the calls of a callback. -/
def CallsKeep (conn : TCPConnection) (calls : List UserCall) : Prop :=
  conn.state = .connecting → conn.writeBuf.getSize = 0 →
    ¬ EnablesEmpty false conn.readBuf.getSize calls

theorem Prompt.verdict_runCalls {conn : TCPConnection} (prompt : conn.Prompt)
    (settled : conn.state ≠ .fullClose → conn.Settled) (calls : List UserCall) :
    Verdict (conn.CallsKeep calls) (conn.runCalls calls) := by
  have emptied (connecting : conn.state = .connecting) (empty : conn.writeBuf.getSize = 0) :
      conn.Emptied false := by
    refine ⟨prompt.wf, connecting, empty, Bool.eq_false_iff.mpr fun enabled => ?_⟩
    have waiting := settled (by rw [connecting]; exact State.noConfusion) enabled
    omega
  cases ran : conn.runCalls calls with
  | error assertion =>
      apply verdict_error (runCalls_error ran)
      intro connecting empty enables
      obtain ⟨final, returned, -⟩ := (emptied connecting empty).returns_idle_iff.mpr enables
      rw [ran] at returned
      cases returned
  | ok final =>
      refine ⟨runCalls_preserves (fun prompt called => prompt.call called) prompt ran, ?_⟩
      by_cases connecting : conn.state = .connecting
      · by_cases empty : conn.writeBuf.getSize = 0
        · have ends : final.Idle ↔ Returns Idle conn calls := by
            rw [Returns, ran]
            constructor
            · intro idle
              exact ⟨final, rfl, idle⟩
            · rintro ⟨other, same, idle⟩
              rw [Except.ok.inj same]
              exact idle
          rw [ends, (emptied connecting empty).returns_idle_iff]
          exact ⟨fun keeps _ _ => keeps, fun keeps => keeps connecting empty⟩
        · have positive := Nat.pos_of_ne_zero empty
          have busy : conn.Busy := ⟨prompt.wf, positive, prompt.waits positive⟩
          have still : final.Busy :=
            runCalls_preserves (fun busy called => busy.call called) busy ran
          exact iff_of_true still.not_idle fun _ none => absurd none empty
      · obtain ⟨-, ch, writeBuf⟩ := runCalls_behind connecting ran
        refine iff_of_true (fun idle => ?_) fun now => absurd now connecting
        have opened : conn.state ≠ .fullClose := fun closed => idle.1 (runCalls_closed closed ran)
        apply idle.2
        rw [Settled, ch, writeBuf]
        exact settled opened

/-- A pending write event of an open connection has something to write. -/
def Pending (conn : TCPConnection) : Prop :=
  conn.state ≠ .fullClose → conn.ch.triggerArr .write = true → conn.Busy

/-- What holds between two calls of handlers. -/
structure WriteInv (conn : TCPConnection) : Prop where
  prompt : conn.Prompt
  settled : conn.state ≠ .fullClose → conn.Settled
  pending : conn.Pending

theorem call_triggerArr {conn next : TCPConnection} {call : UserCall}
    (called : conn.call call = .ok next) : next.ch.triggerArr = conn.ch.triggerArr := by
  cases call with
  | sendData msg =>
      obtain ⟨-, ⟨-, closed⟩ | ⟨-, rfl⟩⟩ := sendData_eq called
      · rw [(of_fullClose closed).2.1]
      · rfl
  | popData =>
      obtain ⟨-, -, readBuf, -, rfl⟩ := popDataLen_eq called
      rfl
  | popDataLen len =>
      obtain ⟨-, -, readBuf, -, rfl⟩ := popDataLen_eq called
      rfl
  | halfClose => rw [halfClose_ch called]
  | fullClose => rw [(of_fullClose called).2.1]

theorem runCalls_triggerArr {conn final : TCPConnection} {calls : List UserCall}
    (ran : conn.runCalls calls = .ok final) : final.ch.triggerArr = conn.ch.triggerArr :=
  @runCalls_preserves (fun other => other.ch.triggerArr = conn.ch.triggerArr)
    (fun same called => (call_triggerArr called).trans same) calls conn final rfl ran

theorem handleRead_triggerArr {conn final : TCPConnection} {result : ReadResult}
    {messageCb : Option (List UserCall)} (handled : conn.handleRead result messageCb = .ok final) :
    final.ch.triggerArr = conn.ch.triggerArr :=
  @handleRead_preserves (fun other => other.ch.triggerArr = conn.ch.triggerArr)
    (fun _ same => same) (fun same called => (call_triggerArr called).trans same)
    conn final result messageCb rfl handled

theorem Pending.call {conn next : TCPConnection} (pending : conn.Pending) {call : UserCall}
    (called : conn.call call = .ok next) : next.Pending := by
  intro _ triggered
  have opened : conn.state ≠ .fullClose := by
    intro closed
    obtain ⟨assertion, threw⟩ := call_closed closed call
    rw [threw] at called
    cases called
  rw [call_triggerArr called] at triggered
  exact (pending opened triggered).call called

/-- The condition on a read: its bytes and the calls of `message_cb`. -/
def ReadKeeps (conn : TCPConnection) : ReadResult → Option (List UserCall) → Prop
  | .data (byte :: bytes), some calls =>
      { conn with readBuf := (conn.readBuf.pushFrom (.data (byte :: bytes))).2 }.CallsKeep calls
  | _, _ => True

theorem WriteInv.verdict_handleRead {conn : TCPConnection} (inv : conn.WriteInv)
    (result : ReadResult) (messageCb : Option (List UserCall)) :
    Verdict (conn.ReadKeeps result messageCb) (conn.handleRead result messageCb) := by
  have prompt := inv.prompt.readBuf (conn.readBuf.pushFrom result).2
  have settled (readBuf : Buffer) : ¬ { conn with readBuf := readBuf }.Idle :=
    fun idle => idle.2 (inv.settled idle.1)
  unfold handleRead
  cases result with
  | error errno =>
      cases errno with
      | again => exact verdict_ok prompt (settled _) trivial
      | intr => exact verdict_ok prompt (settled _) trivial
      | other => exact prompt.verdict_fullClose trivial
  | data bytes =>
      cases bytes with
      | nil => exact prompt.verdict_fullClose trivial
      | cons byte rest =>
          cases messageCb with
          | some calls => exact prompt.verdict_runCalls inv.settled calls
          | none =>
              dsimp only
              split
              · next readBuf _ =>
                  exact verdict_ok (inv.prompt.readBuf readBuf) (settled _) trivial
              · exact verdict_error Assertion.noConfusion trivial

/-- The condition on a write: the assertion is met, and what `write_lower` does behind it. -/
def WriteKeeps (conn : TCPConnection) : WriteResult → List UserCall → Prop
  | .wrote (count + 1), writeLower =>
      conn.state = .connecting → count + 1 = conn.writeBuf.getSize →
        ¬ EnablesEmpty false conn.readBuf.getSize writeLower
  | _, _ => conn.state = .fullClose → 0 < conn.writeBuf.getSize

theorem disableWrite_settled (conn : TCPConnection) : conn.disableWrite.Settled := by
  have disabled : conn.disableWrite.ch.enableArr .write = false := by
    simp [disableWrite, Channel.disableEvent]
  intro enabled
  rw [disabled] at enabled
  cases enabled

/-- The `shutdown` of a half closed connection is what `closing` asks for. -/
theorem prompt_shutdown {conn : TCPConnection} (wf : conn.writeBuf.Wf)
    (waits : 0 < conn.writeBuf.getSize → conn.ch.enableArr .write = true) :
    (if conn.state = .halfClose then conn.shutdown .wr else conn).Prompt := by
  split
  · exact ⟨wf, waits, fun _ _ => List.mem_append_right _ List.mem_cons_self⟩
  · next notHalf => exact ⟨wf, waits, fun half => absurd half notHalf⟩

theorem idle_shutdown (conn : TCPConnection) :
    (if conn.state = .halfClose then conn.shutdown .wr else conn).Idle ↔ conn.Idle := by
  split <;> rfl

/-- The end of `handle_write`, behind the write that leaves nothing. -/
theorem verdict_lowered (conn : TCPConnection) {writeBuf : Buffer} (wf : writeBuf.Wf)
    (empty : writeBuf.getSize = 0) (writeLower : List UserCall) :
    Verdict (conn.state = .connecting → ¬ EnablesEmpty false conn.readBuf.getSize writeLower)
      (match { conn with writeBuf := writeBuf }.disableWrite.runCalls writeLower with
      | .ok lowered => .ok (if lowered.state = .halfClose then lowered.shutdown .wr else lowered)
      | .error assertion => .error assertion) := by
  let lowered := { conn with writeBuf := writeBuf }.disableWrite
  have settled : lowered.Settled := disableWrite_settled _
  have nothing {size : Nat} (same : size = writeBuf.getSize) : ¬ 0 < size :=
    Nat.not_lt.mpr (Nat.le_of_eq (same.trans empty))
  change Verdict _ (match lowered.runCalls writeLower with
    | .ok lowered => .ok (if lowered.state = .halfClose then lowered.shutdown .wr else lowered)
    | .error assertion => .error assertion)
  by_cases connecting : conn.state = .connecting
  · have lowerPrompt : lowered.Prompt := by
      refine ⟨wf, fun positive => absurd positive (nothing rfl), fun closing => ?_⟩
      rw [show lowered.state = .connecting from connecting] at closing
      cases closing
    have verdict := lowerPrompt.verdict_runCalls (fun _ => settled) writeLower
    have condition : lowered.CallsKeep writeLower ↔ (conn.state = .connecting →
        ¬ EnablesEmpty false conn.readBuf.getSize writeLower) :=
      ⟨fun keeps now => keeps now empty, fun keeps now _ => keeps now⟩
    rw [← condition]
    cases ran : lowered.runCalls writeLower with
    | error assertion =>
        rw [ran] at verdict
        exact verdict
    | ok final =>
        rw [ran] at verdict
        refine ⟨prompt_shutdown verdict.1.wf verdict.1.waits, ?_⟩
        rw [idle_shutdown]
        exact verdict.2
  · have met : conn.state = .connecting →
        ¬ EnablesEmpty false conn.readBuf.getSize writeLower := fun now => absurd now connecting
    have behind : lowered.state ≠ .connecting := connecting
    cases ran : lowered.runCalls writeLower with
    | error assertion => exact verdict_error (runCalls_error ran) met
    | ok final =>
        obtain ⟨-, ch, sameBuf⟩ := runCalls_behind behind ran
        refine verdict_ok (prompt_shutdown (sameBuf ▸ wf) fun positive => ?_) ?_ met
        · exact absurd positive (nothing (congrArg Buffer.getSize sameBuf))
        · rw [idle_shutdown]
          apply Settled.not_idle
          rw [Settled, ch, sameBuf]
          exact settled

/-- `write_high` runs on a connection that still waits for its write event. -/
theorem Prompt.verdict_writeHigh {conn : TCPConnection} (prompt : conn.Prompt) (busy : conn.Busy)
    (writeHigh : List UserCall) {condition : Prop} (met : condition) :
    Verdict condition (conn.runCalls writeHigh) := by
  cases ran : conn.runCalls writeHigh with
  | error assertion => exact verdict_error (runCalls_error ran) met
  | ok final =>
      have still : final.Busy :=
        runCalls_preserves (fun busy called => busy.call called) busy ran
      exact verdict_ok (runCalls_preserves (fun prompt called => prompt.call called) prompt ran)
        still.not_idle met

/-- A closed connection with nothing to write runs into the assertion. -/
theorem not_writeKeeps {conn : TCPConnection} {result : WriteResult} {writeLower : List UserCall}
    (closed : conn.state = .fullClose) (empty : ¬ 0 < conn.writeBuf.getSize)
    (fits : result.accepted ≤ conn.writeBuf.getSize) : ¬ conn.WriteKeeps result writeLower := by
  cases result with
  | error errno => exact fun keeps => empty (keeps closed)
  | wrote count =>
      cases count with
      | zero => exact fun keeps => empty (keeps closed)
      | succ count => exact absurd (Nat.lt_of_lt_of_le (Nat.succ_pos count) fits) empty

theorem WriteInv.verdict_handleWrite {conn : TCPConnection} (inv : conn.WriteInv)
    (triggered : conn.ch.triggerArr .write = true) {result : WriteResult}
    (fits : result.accepted ≤ conn.writeBuf.getSize) (writeLower writeHigh : List UserCall) :
    Verdict (conn.WriteKeeps result writeLower)
      (conn.handleWrite result writeLower writeHigh) := by
  unfold handleWrite
  by_cases waiting : 0 < conn.writeBuf.getSize
  · rw [if_pos waiting]
    have wf := inv.prompt.wf.popTo fits
    have size : (conn.writeBuf.popTo result).2.getSize =
        conn.writeBuf.getSize - result.accepted := by
      rw [Buffer.popTo_eq]
      simp only [Buffer.getSize]
      omega
    have enabled := inv.prompt.waits waiting
    have sent : { conn with writeBuf := (conn.writeBuf.popTo result).2 }.Prompt :=
      ⟨wf, fun _ => enabled, inv.prompt.closing⟩
    have busy (some : 0 < (conn.writeBuf.popTo result).2.getSize) :
        { conn with writeBuf := (conn.writeBuf.popTo result).2 }.Busy :=
      ⟨wf, some, enabled⟩
    cases result with
    | error errno =>
        have some : 0 < (conn.writeBuf.popTo (.error errno)).2.getSize := by
          rw [size]
          exact waiting
        cases errno with
        | again => exact verdict_ok sent (busy some).not_idle fun _ => waiting
        | intr => exact verdict_ok sent (busy some).not_idle fun _ => waiting
        | other => exact sent.verdict_fullClose fun _ => waiting
    | wrote count =>
        cases count with
        | zero =>
            refine verdict_ok sent (busy ?_).not_idle fun _ => waiting
            rw [size]
            exact waiting
        | succ count =>
            simp only [WriteResult.accepted] at fits size
            dsimp only
            by_cases empty : (conn.writeBuf.popTo (.wrote (count + 1))).2.getSize = 0
            · rw [if_pos empty]
              have whole : count + 1 = conn.writeBuf.getSize := by omega
              have condition : conn.WriteKeeps (.wrote (count + 1)) writeLower ↔
                  (conn.state = .connecting →
                    ¬ EnablesEmpty false conn.readBuf.getSize writeLower) :=
                ⟨fun keeps now => keeps now whole, fun keeps now _ => keeps now⟩
              rw [condition]
              exact verdict_lowered conn wf empty writeLower
            · rw [if_neg empty]
              have met : conn.WriteKeeps (.wrote (count + 1)) writeLower := by
                intro _ whole
                omega
              have still := busy (Nat.pos_of_ne_zero empty)
              split
              · exact sent.verdict_writeHigh still writeHigh met
              · exact verdict_ok sent still.not_idle met
  · rw [if_neg waiting]
    have closed : conn.state = .fullClose := by
      by_contra opened
      exact waiting (inv.pending opened triggered).2.1
    exact iff_of_false (not_not.mpr rfl) (not_writeKeeps closed waiting fits)

theorem handleWrite_triggerArr {conn final : TCPConnection} {result : WriteResult}
    {writeLower writeHigh : List UserCall}
    (handled : conn.handleWrite result writeLower writeHigh = .ok final) :
    final.ch.triggerArr = conn.ch.triggerArr := by
  have ofClose {sent : TCPConnection} (closed : sent.fullClose = .ok final) :
      final.ch.triggerArr = sent.ch.triggerArr := by
    rw [(of_fullClose closed).2.1]
  unfold handleWrite at handled
  split at handled
  · dsimp only at handled
    split at handled
    · split at handled
      · split at handled
        · next lowered ran =>
            have same := runCalls_triggerArr ran
            cases handled
            split <;> exact same
        · cases handled
      · split at handled
        · have same := runCalls_triggerArr handled
          exact same
        · cases handled
          rfl
    · cases handled
      rfl
    · cases handled
      rfl
    · exact ofClose handled
    · cases handled
      rfl
  · cases handled

end TCPConnection

/-! ## Runs -/

namespace ConnRun

open TCPConnection

/--
Between two dispatches the write event of an open connection follows `write_buf`, and the
assertion of `handle_write` has not failed.
-/
def WriteInterest (run : ConnRun) : Prop :=
  (run.Lives → run.conn.Quiet → run.conn.state ≠ .fullClose → run.conn.Interested) ∧
    run.failed ≠ some .handleWrite

instance : DecidablePred WriteInterest := fun run =>
  inferInstanceAs (Decidable ((run.Lives → run.conn.Quiet → run.conn.state ≠ .fullClose →
    run.conn.Interested) ∧ run.failed ≠ some .handleWrite))

/--
The condition on a step: nobody enables the write event of an empty `write_buf`, and a
closed connection that is still written to has something to write.
-/
def KeepsInterest (run : ConnRun) : CallbackEvent → Prop
  | .read result messageCb => run.conn.ReadKeeps result messageCb
  | .write result writeLower _ => run.conn.WriteKeeps result writeLower
  | .user (.sendData msg) =>
      run.conn.state = .connecting → 0 < run.conn.writeBuf.getSize + msg.length
  | _ => True

theorem start_writeInv : start.conn.WriteInv := by
  refine ⟨new_prompt, fun _ => new_settled, fun _ triggered => ?_⟩
  exact absurd triggered (by decide)

/-- A call that has returned: the connection it leaves is in order exactly under the condition. -/
theorem writeInterest_iff_of_ok {run : ConnRun} (lives : run.Lives) {conn : TCPConnection}
    {condition : Prop} (prompt : conn.Prompt) (verdict : ¬ conn.Idle ↔ condition)
    (waits : ¬ conn.Quiet → condition) :
    { run with conn := conn }.WriteInterest ↔ condition := by
  constructor
  · rintro ⟨follows, -⟩
    by_cases quiet : conn.Quiet
    · exact verdict.mp fun idle => idle.2 (prompt.interested_iff.mp (follows lives quiet idle.1))
    · exact waits quiet
  · intro met
    refine ⟨fun _ _ opened => prompt.interested_iff.mpr ?_, by simp [lives.1]⟩
    by_contra notSettled
    exact verdict.mpr met ⟨opened, notSettled⟩

/-- A call that has thrown leaves the connection as it was, and the run ends. -/
theorem writeInterest_iff_of_error (run : ConnRun) {assertion : Assertion} {condition : Prop}
    (verdict : assertion ≠ .handleWrite ↔ condition) :
    { run with failed := some assertion }.WriteInterest ↔ condition := by
  rw [← verdict]
  constructor
  · rintro ⟨-, other⟩ same
    exact other (congrArg some same)
  · intro other
    refine ⟨fun lives => ?_, fun same => other (Option.some.inj same)⟩
    cases lives.1

/-- What a step leaves is in order exactly under the condition, and in order it keeps the rest. -/
def Decides (run next : ConnRun) (event : CallbackEvent) : Prop :=
  (next.WriteInterest ↔ run.KeepsInterest event) ∧
    (run.KeepsInterest event → next.conn.WriteInv)

theorem settled_of_not_idle {conn : TCPConnection} (fine : ¬ conn.Idle)
    (opened : conn.state ≠ .fullClose) : conn.Settled := by
  by_contra notSettled
  exact fine ⟨opened, notSettled⟩

theorem decides_read {run : ConnRun} (inv : run.conn.WriteInv) (lives : run.Lives)
    (result : ReadResult) (messageCb : Option (List UserCall)) :
    run.Decides (run.finishHandler .read (run.conn.handleRead result messageCb))
      (.read result messageCb) := by
  have verdict := inv.verdict_handleRead result messageCb
  cases handled : run.conn.handleRead result messageCb with
  | error assertion =>
      rw [handled] at verdict
      exact ⟨writeInterest_iff_of_error run verdict, fun _ => inv⟩
  | ok final =>
      rw [handled] at verdict
      obtain ⟨prompt, fine⟩ := verdict
      have pending : final.Pending :=
        handleRead_preserves (fun _ pending => pending) (fun pending called => pending.call called)
          inv.pending handled
      have triggers := handleRead_triggerArr handled
      -- only the write event can be left, and it was reported while something waited
      have waits : ¬ (final.clearTrigger .read).Quiet → run.conn.ReadKeeps result messageCb := by
        intro busy
        rw [← fine]
        intro idle
        apply busy
        intro et
        cases et with
        | read => simp [TCPConnection.clearTrigger, Channel.clearTrigger]
        | write =>
            rw [Bool.eq_false_iff]
            intro triggered
            have still : final.ch.triggerArr .write = true := triggered
            exact (pending idle.1 still).not_idle idle
      refine ⟨writeInterest_iff_of_ok lives ⟨prompt.wf, prompt.waits, prompt.closing⟩ fine waits,
        fun met => ⟨⟨prompt.wf, prompt.waits, prompt.closing⟩, ?_, pending⟩⟩
      exact settled_of_not_idle (fine.mpr met)

theorem decides_write {run : ConnRun} (inv : run.conn.WriteInv) (lives : run.Lives)
    (notRead : run.conn.ch.triggerArr .read = false)
    (triggered : run.conn.ch.triggerArr .write = true) {result : WriteResult}
    (fits : result.accepted ≤ run.conn.writeBuf.getSize) (writeLower writeHigh : List UserCall) :
    run.Decides (run.finishHandler .write (run.conn.handleWrite result writeLower writeHigh))
      (.write result writeLower writeHigh) := by
  have verdict := inv.verdict_handleWrite triggered fits writeLower writeHigh
  cases handled : run.conn.handleWrite result writeLower writeHigh with
  | error assertion =>
      rw [handled] at verdict
      exact ⟨writeInterest_iff_of_error run verdict, fun _ => inv⟩
  | ok final =>
      rw [handled] at verdict
      obtain ⟨prompt, fine⟩ := verdict
      have quiet : (final.clearTrigger .write).Quiet := by
        intro et
        cases et with
        | read =>
            change Function.update final.ch.triggerArr .write false .read = false
            rw [Function.update_of_ne (by decide), handleWrite_triggerArr handled]
            exact notRead
        | write => simp [TCPConnection.clearTrigger, Channel.clearTrigger]
      refine ⟨writeInterest_iff_of_ok lives ⟨prompt.wf, prompt.waits, prompt.closing⟩ fine
        fun busy => absurd quiet busy, fun met =>
          ⟨⟨prompt.wf, prompt.waits, prompt.closing⟩, settled_of_not_idle (fine.mpr met),
            fun _ still => ?_⟩⟩
      have cleared := (quiet .write).symm.trans still
      cases cleared

/-- Of single calls only an empty message is in question. -/
theorem callsKeep_single (run : ConnRun) (call : UserCall) :
    run.conn.CallsKeep [call] ↔ run.KeepsInterest (.user call) := by
  cases call with
  | sendData msg =>
      have queued : 0 < run.conn.writeBuf.getSize + msg.length ↔
          (run.conn.writeBuf.getSize = 0 → msg ≠ []) := by
        rw [← List.length_pos_iff]
        omega
      simp [CallsKeep, EnablesEmpty, KeepsInterest, queued]
  | popData => simp [CallsKeep, EnablesEmpty, KeepsInterest]
  | popDataLen len => simp [CallsKeep, EnablesEmpty, KeepsInterest]
  | halfClose => simp [CallsKeep, EnablesEmpty, KeepsInterest]
  | fullClose => simp [CallsKeep, EnablesEmpty, KeepsInterest]

/-- The user calls the connection between two dispatches. -/
theorem decides_user {run : ConnRun} (inv : run.conn.WriteInv) (lives : run.Lives)
    (quiet : run.conn.Quiet) (call : UserCall) :
    run.Decides (run.finish (run.conn.call call)) (.user call) := by
  have verdict : Verdict (run.KeepsInterest (.user call)) (run.conn.call call) := by
    have single := inv.prompt.verdict_runCalls inv.settled [call]
    rw [callsKeep_single] at single
    cases called : run.conn.call call with
    | error assertion =>
        rw [runCalls_cons_error called] at single
        exact single
    | ok next =>
        rw [runCalls_cons_ok called] at single
        exact single
  cases called : run.conn.call call with
  | error assertion =>
      rw [called] at verdict
      exact ⟨writeInterest_iff_of_error run verdict, fun _ => inv⟩
  | ok final =>
      rw [called] at verdict
      obtain ⟨prompt, fine⟩ := verdict
      have still : final.Quiet := by
        intro et
        rw [call_triggerArr called]
        exact quiet et
      refine ⟨writeInterest_iff_of_ok lives prompt fine fun busy => absurd still busy,
        fun met => ⟨prompt, settled_of_not_idle (fine.mpr met), inv.pending.call called⟩⟩

theorem stepCalls_decides {run next : ConnRun} {event : CallbackEvent}
    (inv : run.conn.WriteInv) (taken : run.stepCalls event = some next) :
    run.Decides next event := by
  cases event with
  | report reported =>
      obtain ⟨⟨lives, quiet, allows⟩, rfl⟩ := of_guarded taken
      have prompt : (run.conn.trigger reported).Prompt :=
        ⟨inv.prompt.wf, inv.prompt.waits, inv.prompt.closing⟩
      have pending : (run.conn.trigger reported).Pending := by
        intro opened triggered
        simp only [TCPConnection.trigger, Channel.triggerEvents, quiet .write,
          Bool.false_or] at triggered
        have enabled := allows .write triggered
        exact ⟨inv.prompt.wf, inv.settled opened enabled, enabled⟩
      refine ⟨iff_of_true ⟨fun _ _ opened => ?_, by simp [lives.1]⟩ trivial,
        fun _ => ⟨prompt, inv.settled, pending⟩⟩
      exact prompt.interested_iff.mpr (inv.settled opened)
  | read result messageCb =>
      obtain ⟨enabled, rfl⟩ := of_guarded taken
      exact decides_read inv enabled.1 result messageCb
  | write result writeLower writeHigh =>
      obtain ⟨⟨lives, notRead, triggered, fits⟩, rfl⟩ := of_guarded taken
      exact decides_write inv lives notRead triggered fits writeLower writeHigh
  | user call =>
      obtain ⟨⟨lives, quiet⟩, rfl⟩ := of_guarded taken
      exact decides_user inv lives quiet call
  | remove =>
      obtain ⟨⟨lives, -⟩, rfl⟩ := of_guarded taken
      refine ⟨iff_of_true ⟨fun still => ?_, by simp [lives.1]⟩ trivial, fun _ => inv⟩
      cases still.2

/-- The write event follows `write_buf` exactly when it is never enabled for nothing. -/
theorem writeInterest_iff_keepsInterest (events : List CallbackEvent) :
    AllStates stepCalls WriteInterest start events ↔
      StepsMeet stepCalls KeepsInterest start events :=
  allStates_iff_of_good (fun run => run.conn.WriteInv)
    (fun _ _ _ inv _ good taken =>
      (stepCalls_decides inv taken).2 ((stepCalls_decides inv taken).1.mp good))
    (fun _ _ _ inv _ taken => (stepCalls_decides inv taken).1)
    events start_writeInv (by decide +kernel)

/-- Nothing is sent, and the write event that it enables finds nothing to write. -/
theorem emptyMessage_asserts : ¬ ∀ events, AllStates stepCalls WriteInterest start events := by
  intro all
  exact absurd (all [.user (.sendData [])]) (by decide +kernel)

end ConnRun

end SimpleWebServer.Tcp
