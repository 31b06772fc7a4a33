import SimpleWebServer.Base.BufferGrowth
import SimpleWebServer.Http.BodyFraming
import SimpleWebServer.Http.HeaderSlices
import SimpleWebServer.Http.ServerSegments

/-!
# The range of the counters

`HTTPServer2` keeps everything it has received of a message in its buffer and counts every
byte in the parser, both in an `int`, and nothing limits how long a message may become.  Here
the counters are unbounded numbers, and the question is how long an `int` would hold them.
-/

namespace SimpleWebServer.Http

open SimpleWebServer.Base SimpleWebServer.Lib.Runs

namespace HTTPMessageParser

/-- The number that `stoi` is about to give `total_len`, when `c` ends a `Content-Length` line. -/
def totalRead (memory : Memory) (parser : HTTPMessageParser) (c : Byte) : Option Int :=
  match parser.recordedLine? c with
  | none => none
  | some line =>
      match stringOf memory (parser.reading parser.beginPtr c) line.key.1 line.key.2 with
      | .error _ => none
      | .ok key =>
          if key = contentLength then
            match stringOf memory (parser.reading parser.beginPtr c) line.value.1 line.value.2 with
            | .error _ => none
            | .ok value => (stoi value).toOption
          else none

end HTTPMessageParser

/-- The read loop of a connection, one byte of `parser_message` after the other. -/
structure MessageReader where
  buf : Buffer
  parser : HTTPMessageParser
  /-- where the next byte of the call lies -/
  str : Int
  /-- how many bytes of the call are left -/
  len : Nat

/-- `co_read` returns, or the loop of `parser_message` looks at a byte. -/
inductive ReadEvent where
  | read (result : ReadResult)
  | byte
  deriving DecidableEq, Repr

/-- What `co_read` returns in the event. -/
def ReadEvent.result? : ReadEvent → Option ReadResult
  | .read result => some result
  | .byte => none

namespace MessageReader

def new (version : HTTPVersion) (code : Int) : MessageReader where
  buf := .new
  parser := .new true version code
  str := 0
  len := 0

/-- The last call is over, and the message is neither malformed nor complete. -/
def Waits (reader : MessageReader) : Prop :=
  reader.len = 0 ∧ reader.parser.isMatch = true ∧ reader.parser.isCompleted = false

instance (reader : MessageReader) : Decidable reader.Waits :=
  inferInstanceAs (Decidable (_ ∧ _ ∧ _))

/-- `push_from`, and the beginning of `parser_message` -/
def pushFrom (reader : MessageReader) (result : ReadResult) : MessageReader where
  buf := (reader.buf.pushFrom result).2
  parser := reader.parser.rebase
    ((reader.buf.pushFrom result).2.leftReadPtr - reader.parser.nowLen)
  str := (reader.buf.pushFrom result).2.leftReadPtr
  len := (reader.buf.pushFrom result).1.toNat

/-- One iteration of the loop of `parser_message`; an exception or a mismatch ends the reading. -/
def readByte (reader : MessageReader) : Option MessageReader :=
  match bufferMemory reader.buf reader.str with
  | none => none
  | some c =>
      match reader.parser.matchChar (stringOf (bufferMemory reader.buf)) c with
      | .error _ => none
      | .ok after =>
          if after.isMatch = false then none
          else some { reader with
            parser := after.enterNext, str := reader.str + 1, len := reader.len - 1 }

/-- What happens as long as the server reads; `co_read` stores at most what it is offered. -/
def step (reader : MessageReader) : ReadEvent → Option MessageReader
  | .read result =>
      if reader.Waits ∧ result.bytes.length ≤ reader.buf.offeredRoom ∧ 0 < result.count then
        some (reader.pushFrom result)
      else none
  | .byte => if 0 < reader.len then reader.readByte else none

/-- The number that the next byte gives `total_len`. -/
def totalRead (reader : MessageReader) : Option Int :=
  match bufferMemory reader.buf reader.str with
  | none => none
  | some c => reader.parser.totalRead (bufferMemory reader.buf) c

end MessageReader

/-- An `int` that is not negative holds the number. -/
def FitsInt (number : Int) : Prop := 0 ≤ number ∧ number ≤ maxInt

theorem fitsInt_zero : FitsInt 0 := ⟨Int.le_refl 0, by decide⟩

def SliceFits (slice : Slice) : Prop := FitsInt slice.1 ∧ FitsInt slice.2

/-- All counters of the buffer and of the parser are in range. -/
structure CountersFit (reader : MessageReader) : Prop where
  nowLen : FitsInt reader.parser.nowLen
  nowIdx : ∀ state, reader.parser.state = .body state → FitsInt state.nowIdx
  totalLen : FitsInt reader.parser.totalLen
  path : SliceFits reader.parser.pathPos
  query : ∀ entry ∈ reader.parser.queryPos.entries, SliceFits entry.2
  header : ∀ entry ∈ reader.parser.headerPos.entries, SliceFits entry.2
  detail : SliceFits reader.parser.detailPos
  body : SliceFits reader.parser.bodyPos
  leftReadPtr : FitsInt reader.buf.leftReadPtr
  rightWritePtr : FitsInt reader.buf.rightWritePtr

/--
What has been received together with the bytes of the read is less than `2^31` bytes, and a
`Content-Length` that ends here is not negative.
-/
def WithinInt (reader : MessageReader) : ReadEvent → Prop
  | .read result => (reader.buf.rightWritePtr + result.bytes.length : Int) ≤ maxInt
  | .byte => ∀ total, reader.totalRead = some total → 0 ≤ total

/-! ## The length of the body -/

theorem stoi_le {text : Bytes} {value : Int} (read : stoi text = .ok value) : value ≤ maxInt := by
  unfold stoi at read
  simp only at read
  split_ifs at read with noDigits _ inRange inRange
  · cases read
    exact inRange.2
  · cases read
    exact inRange.2

namespace HTTPMessageParser

theorem totalRead_le {memory : Memory} {parser : HTTPMessageParser} {c : Byte} {total : Int}
    (read : parser.totalRead memory c = some total) : total ≤ maxInt := by
  unfold totalRead at read
  split at read
  · cases read
  · split at read
    · cases read
    · split_ifs at read
      split at read
      · cases read
      · next value _ =>
          cases number : stoi value with
          | error fault =>
              rw [number] at read
              cases read
          | ok other =>
              rw [number] at read
              cases read
              exact stoi_le number

end HTTPMessageParser

/-- The entry of a line gives the length the number that `stoi` reads. -/
theorem StateHeader.recordEntry_totalLen {memory : Memory} {state : StateHeader}
    {context after : HTTPMessageParser}
    (taken : state.recordEntry (stringOf memory) context = .ok after) :
    (∃ key, stringOf memory context state.nowKeyOffset state.nowKeyLen = .ok key ∧
        key ≠ contentLength ∧ after.totalLen = context.totalLen) ∨
      ∃ value, stringOf memory context state.nowKeyOffset state.nowKeyLen = .ok contentLength ∧
        stringOf memory context state.nowValueOffset state.nowValueLen = .ok value ∧
        stoi value = .ok after.totalLen := by
  unfold recordEntry at taken
  cases built : stringOf memory context state.nowKeyOffset state.nowKeyLen with
  | error fault =>
      rw [built] at taken
      cases taken
  | ok key =>
      simp only [built] at taken
      split_ifs at taken with isLength
      · unfold takeTotalLen at taken
        split at taken
        · cases taken
        · next value shown =>
            obtain ⟨total, number, rfl⟩ := map_eq_ok taken
            exact Or.inr ⟨value, by rw [isLength], shown, number⟩
      · cases taken
        exact Or.inl ⟨key, rfl, isLength, rfl⟩

/-- The length is the number that was read, if the byte ends such a line. -/
theorem HTTPMessageParser.matchChar_totalLen {memory : Memory} {parser after : HTTPMessageParser}
    {c : Byte} (taken : parser.matchChar (stringOf memory) c = .ok after) :
    after.totalLen = (parser.totalRead memory c).getD parser.totalLen := by
  unfold totalRead
  cases records : parser.recordedLine? c with
  | none => exact (matchChar_headerKept records taken).totalLen
  | some line =>
      obtain ⟨recorded, entered, key, value, recording, kept⟩ := matchChar_records records taken
      rw [kept.totalLen]
      simp only [← key, ← value]
      rcases StateHeader.recordEntry_totalLen recording with
        ⟨other, copied, noLength, kept⟩ | ⟨text, copied, shown, number⟩
      · simp only [copied, if_neg noLength]
        exact kept
      · simp only [copied, if_true, shown, number]
        rfl

/-! ## The parser of a request -/

/-- A state of a request parser; the body counts its bytes within those of the message. -/
def State.CountsBody (state : State) (nowLen : Int) : Prop :=
  match state with
  | .code _ => False
  | .detail _ => False
  | .body state => state.nowIdx ≤ nowLen
  | _ => True

namespace HTTPMessageParser

/-- What the parser of a connection keeps between two bytes. -/
structure RequestCounted (parser : HTTPMessageParser) : Prop where
  sound : parser.Sound
  isRequest : parser.isRequest = true
  detail : parser.detailPos = (0, 0)
  body : parser.state.CountsBody parser.nowLen

theorem new_requestCounted (version : HTTPVersion) (code : Int) :
    (new true version code).RequestCounted :=
  ⟨new_sound true version code, rfl, rfl, trivial⟩

theorem RequestCounted.rebase {parser : HTTPMessageParser} (counted : parser.RequestCounted)
    (beginPtr : Int) : (parser.rebase beginPtr).RequestCounted :=
  ⟨counted.sound.moved (rebase_rebase parser beginPtr 0), counted.isRequest, counted.detail,
    counted.body⟩

/-- A step that leaves the reason phrase alone, and what it enters. -/
theorem countsBody_enterNext {middle : HTTPMessageParser} (state : State)
    (detail : middle.detailPos = (0, 0)) (stays : state.CountsBody middle.nowLen)
    (enters : ∀ next, middle.nextState = some next → next.CountsBody middle.nowLen) :
    ({ middle with state := state }.enterNext).detailPos = (0, 0) ∧
      ({ middle with state := state }.enterNext).state.CountsBody middle.nowLen := by
  cases entered : middle.nextState with
  | none =>
      simp only [enterNext]
      exact ⟨detail, stays⟩
  | some next =>
      simp only [enterNext]
      exact ⟨detail, enters next entered⟩

section

variable {parser after : HTTPMessageParser} {c : Byte} (taken : parser.Takes c after)
variable (counted : parser.RequestCounted)
include taken counted

/-- The body begins behind the header. -/
theorem Takes.countsBody_header {state : StateHeader} (inState : parser.state = .header state) :
    after.detailPos = (0, 0) ∧ after.state.CountsBody (parser.nowLen + 1) := by
  obtain ⟨beginPtr, next, middle, move, -, rfl⟩ := taken.header inState
  have fresh := counted.sound.nextState
  have nonneg := counted.sound.nowLen_nonneg
  have length : middle.nowLen = parser.nowLen + 1 := move.nowLen
  rw [← length]
  refine countsBody_enterNext (.header next) (move.startKept.detailPos.trans counted.detail) trivial
    fun other entered => ?_
  rcases move.nextState with stays | ⟨leaves, -⟩
  · cases (stays.trans fresh).symm.trans entered
  · cases leaves.symm.trans entered
    change (0 : Int) ≤ middle.nowLen
    omega

/-- A byte of the body is counted in both. -/
theorem Takes.countsBody_body {state : StateBody} (inState : parser.state = .body state) :
    after.detailPos = (0, 0) ∧ after.state.CountsBody (parser.nowLen + 1) := by
  obtain ⟨beginPtr, middle, matched, -, rfl⟩ := taken.body inState
  have fresh := counted.sound.nextState
  have kept := state.matchStep_startKept (parser.reading beginPtr c)
  have goesOn := state.matchStep_nextState (parser.reading beginPtr c)
  have length : (state.matchStep (parser.reading beginPtr c)).2.nowLen = parser.nowLen + 1 :=
    (state.matchStep_sameInput (parser.reading beginPtr c)).nowLen
  have counts : (state.matchStep (parser.reading beginPtr c)).1.nowIdx = state.nowIdx + 1 := rfl
  rw [matched] at kept goesOn length counts
  have within : state.nowIdx ≤ parser.nowLen := by
    have body := counted.body
    rw [inState] at body
    exact body
  rw [← length]
  refine countsBody_enterNext (.body middle.1) (kept.detailPos.trans counted.detail) ?_
    fun other entered => ?_
  · change middle.1.nowIdx ≤ middle.2.nowLen
    omega
  · cases (goesOn.trans fresh).symm.trans entered

/-- Every byte that matches keeps a request parser one. -/
theorem Takes.countsBody : after.detailPos = (0, 0) ∧ after.state.CountsBody after.nowLen := by
  have read := taken.nowLen
  have fresh := counted.sound.nextState
  have detail := counted.detail
  have body := counted.body
  rw [read]
  cases inState : parser.state with
  | method state =>
      obtain ⟨beginPtr, ⟨next, middle⟩, matched, -, rfl⟩ := taken.method inState
      have move := state.matchStep_move (parser.reading beginPtr c)
      rw [matched] at move
      cases move with
      | space =>
          refine countsBody_enterNext (.method _) detail trivial fun other entered => ?_
          cases entered
          trivial
      | _ =>
          refine countsBody_enterNext (.method _) detail trivial fun other entered => ?_
          cases fresh.symm.trans entered
  | url state =>
      obtain ⟨beginPtr, next, middle, move, -, rfl⟩ := taken.url inState
      have kept : middle.nowLen = parser.nowLen + 1 ∧ middle.detailPos = parser.detailPos := by
        cases move <;> exact ⟨rfl, rfl⟩
      rw [← kept.1]
      apply countsBody_enterNext (.url next) (kept.2.trans detail) trivial
      intro other entered
      rcases move.nextState with ⟨-, leaves⟩ | ⟨-, stays⟩
      · cases leaves.symm.trans entered
        trivial
      · cases (stays.trans fresh).symm.trans entered
  | version state =>
      obtain ⟨beginPtr, ⟨next, middle⟩, matched, -, rfl⟩ := taken.version inState
      have move := state.matchStep_move (parser.reading beginPtr c)
      rw [matched] at move
      cases move with
      | space _ response => cases counted.isRequest.symm.trans response
      | lineFeed =>
          refine countsBody_enterNext (.version _) detail trivial fun other entered => ?_
          cases entered
          trivial
      | _ =>
          refine countsBody_enterNext (.version _) detail trivial fun other entered => ?_
          cases fresh.symm.trans entered
  | code state =>
      rw [inState] at body
      exact body.elim
  | detail state =>
      rw [inState] at body
      exact body.elim
  | header state => exact taken.countsBody_header counted inState
  | body state => exact taken.countsBody_body counted inState

end

theorem RequestCounted.next {memory : Memory} {parser after : HTTPMessageParser} {c : Byte}
    (counted : parser.RequestCounted) (taken : parser.matchChar (stringOf memory) c = .ok after)
    (matching : after.isMatch = true) : after.enterNext.RequestCounted := by
  have here : (parser.rebase parser.beginPtr).matchChar (stringOf memory) c = .ok after := taken
  have takes := takes_of_matchChar here matching
  obtain ⟨detail, body⟩ := takes.countsBody counted
  exact ⟨counted.sound.matchCharWith (stringOf_rejectsNegative memory) taken,
    takes.isRequest.trans counted.isRequest, detail, body⟩

end HTTPMessageParser

/-! ## The reader -/

namespace MessageReader

/-- What the reader keeps: every byte that was counted or is still to be is in the buffer. -/
structure Counted (reader : MessageReader) : Prop where
  wf : reader.buf.Wf
  start : reader.buf.leftReadPtr = 0
  parser : reader.parser.RequestCounted
  within : reader.parser.nowLen + reader.len ≤ reader.buf.rightWritePtr

theorem new_counted (version : HTTPVersion) (code : Int) : (new version code).Counted where
  wf := Buffer.new_wf
  start := rfl
  parser := HTTPMessageParser.new_requestCounted version code
  within := Int.le_refl 0

theorem readByte_eq_some {reader next : MessageReader} (taken : reader.readByte = some next) :
    ∃ c after, bufferMemory reader.buf reader.str = some c ∧
      reader.parser.matchChar (stringOf (bufferMemory reader.buf)) c = .ok after ∧
      after.isMatch = true ∧ next = { reader with
        parser := after.enterNext, str := reader.str + 1, len := reader.len - 1 } := by
  unfold readByte at taken
  cases found : bufferMemory reader.buf reader.str with
  | none =>
      rw [found] at taken
      cases taken
  | some c =>
      simp only [found] at taken
      cases matched : reader.parser.matchChar (stringOf (bufferMemory reader.buf)) c with
      | error fault =>
          rw [matched] at taken
          cases taken
      | ok after =>
          simp only [matched] at taken
          split_ifs at taken with stopped
          exact ⟨c, after, rfl, matched, Bool.not_eq_false _ ▸ stopped,
            (Option.some.inj taken).symm⟩

/-- A byte that matches. -/
theorem step_byte {reader : MessageReader} {c : Byte} {after : HTTPMessageParser}
    (more : 0 < reader.len) (found : bufferMemory reader.buf reader.str = some c)
    (matched : reader.parser.matchChar (stringOf (bufferMemory reader.buf)) c = .ok after)
    (matching : after.isMatch = true) : reader.step .byte = some { reader with
      parser := after.enterNext, str := reader.str + 1, len := reader.len - 1 } := by
  rw [MessageReader.step, if_pos more, readByte, found]
  simp only [matched]
  exact if_neg (by rw [matching]; exact Bool.noConfusion)

/-- The number of bytes that `push_from` returns is that of the bytes it stores. -/
theorem pushFrom_len (reader : MessageReader) (result : ReadResult) :
    (reader.pushFrom result).len = result.bytes.length := by
  cases result with
  | error errno => rfl
  | data bytes =>
      rw [pushFrom, Buffer.pushFrom]
      split_ifs <;> rfl

theorem Counted.step {reader next : MessageReader} (counted : reader.Counted) {event : ReadEvent}
    (taken : reader.step event = some next) : next.Counted := by
  have within := counted.within
  cases event with
  | read result =>
      obtain ⟨⟨waits, stored, -⟩, rfl⟩ := of_guarded taken
      obtain ⟨left, right⟩ := reader.buf.pushFrom_positions result
      refine ⟨counted.wf.pushFrom stored, left.trans counted.start, counted.parser.rebase _, ?_⟩
      rw [pushFrom_len]
      change reader.parser.nowLen + (result.bytes.length : Int) ≤
        ((reader.buf.pushFrom result).2.rightWritePtr : Int)
      rw [right]
      have none : reader.len = 0 := waits.1
      omega
  | byte =>
      rw [MessageReader.step] at taken
      split_ifs at taken with more
      obtain ⟨c, after, -, matched, matching, rfl⟩ := readByte_eq_some taken
      refine ⟨counted.wf, counted.start, counted.parser.next matched matching, ?_⟩
      have length := (HTTPMessageParser.enterNext_sameInput after).nowLen
      have one := HTTPMessageParser.matchChar_nowLen matched
      change after.enterNext.nowLen + ((reader.len - 1 : Nat) : Int) ≤ reader.buf.rightWritePtr
      omega

theorem sliceFits_of_within {bound : Int} {slice : Slice} (within : SliceWithin bound slice)
    (small : bound ≤ maxInt) : SliceFits slice := by
  obtain ⟨offset, length, inside⟩ := within
  exact ⟨⟨offset, by omega⟩, ⟨length, by omega⟩⟩

/-- The write position bounds all counters but the length that the message announces. -/
theorem Counted.countersFit {reader : MessageReader} (counted : reader.Counted)
    (right : (reader.buf.rightWritePtr : Int) ≤ maxInt)
    (total : FitsInt reader.parser.totalLen) : CountersFit reader := by
  have sound := counted.parser.sound
  have within := counted.within
  have small : reader.parser.nowLen ≤ maxInt := by omega
  refine ⟨⟨sound.nowLen_nonneg, small⟩, ?_, total, sliceFits_of_within sound.slices.path small,
    fun entry member => sliceFits_of_within (sound.slices.query entry member) small,
    fun entry member => sliceFits_of_within (sound.slices.header entry member) small, ?_,
    sliceFits_of_within sound.slices.body small, ?_, ⟨Int.natCast_nonneg _, right⟩⟩
  · intro state inBody
    have started := sound.state
    have counts := counted.parser.body
    rw [inBody] at started counts
    have below : state.nowIdx ≤ reader.parser.nowLen := counts
    exact ⟨started.2.1, Int.le_trans below small⟩
  · rw [counted.parser.detail]
    exact ⟨fitsInt_zero, fitsInt_zero⟩
  · rw [counted.start]
    exact fitsInt_zero

/-- Where all counters fit, the condition on a step decides whether they still do behind it. -/
theorem Counted.countersFit_iff {reader next : MessageReader} (counted : reader.Counted)
    (fits : CountersFit reader) {event : ReadEvent} (taken : reader.step event = some next) :
    CountersFit next ↔ WithinInt reader event := by
  have after := counted.step taken
  cases event with
  | read result =>
      obtain ⟨-, rfl⟩ := of_guarded taken
      have right : ((reader.pushFrom result).buf.rightWritePtr : Int) =
          reader.buf.rightWritePtr + result.bytes.length :=
        congrArg Int.ofNat (reader.buf.pushFrom_positions result).2
      rw [WithinInt, ← right]
      exact ⟨fun fit => fit.rightWritePtr.2, fun small => after.countersFit small fits.totalLen⟩
  | byte =>
      rw [MessageReader.step] at taken
      split_ifs at taken with more
      obtain ⟨c, middle, found, matched, -, rfl⟩ := readByte_eq_some taken
      have total : middle.enterNext.totalLen = reader.totalRead.getD reader.parser.totalLen := by
        rw [middle.enterNext_headerKept.totalLen, HTTPMessageParser.matchChar_totalLen matched,
          totalRead, found]
      constructor
      · intro fit number read
        have nonneg := fit.totalLen.1
        rw [total, read] at nonneg
        exact nonneg
      · intro nonneg
        apply after.countersFit fits.rightWritePtr.2
        rw [total]
        cases read : reader.totalRead with
        | none => exact fits.totalLen
        | some number =>
            rw [totalRead, found] at read
            exact ⟨nonneg number (by rw [totalRead, found]; exact read),
              HTTPMessageParser.totalRead_le read⟩

theorem new_countersFit (version : HTTPVersion) (code : Int) : CountersFit (new version code) :=
  (new_counted version code).countersFit fitsInt_zero.2 fitsInt_zero

/--
The counters stay in range in every state of a run exactly when every read and every
`Content-Length` of the run are within them.
-/
theorem allCountersFit_iff (version : HTTPVersion) (code : Int) (events : List ReadEvent) :
    AllStates step CountersFit (new version code) events ↔
      StepsMeet step WithinInt (new version code) events :=
  allStates_iff_stepsMeet Counted (fun _ _ _ counted => counted.step)
    (fun _ _ _ counted fits taken => counted.countersFit_iff fits taken) events
    (new_counted version code) (new_countersFit version code)

/-! ## The reader is the read loop -/

/-- A call of `parser_message` that answers `true`, byte by byte. -/
theorem runFrom_bytes {buf : Buffer} {parser last : HTTPMessageParser} {str : Int} {len : Nat}
    (run : HTTPMessageParser.parserLoop (stringOf (bufferMemory buf)) (bufferMemory buf) str len
      parser = .ok (true, last)) :
    runFrom step ⟨buf, parser, str, len⟩ (List.replicate len .byte) =
      some ⟨buf, last, str + len, 0⟩ := by
  induction len generalizing str parser with
  | zero =>
      cases run
      rw [Nat.cast_zero, Int.add_zero]
      rfl
  | succ len ih =>
      rw [HTTPMessageParser.parserLoop] at run
      cases found : bufferMemory buf str with
      | none =>
          rw [found] at run
          cases run
      | some c =>
          simp only [found] at run
          cases matched : parser.matchChar (stringOf (bufferMemory buf)) c with
          | error fault =>
              rw [matched] at run
              cases run
          | ok after =>
              simp only [matched] at run
              split_ifs at run with stopped
              · cases run
              · have taken : step ⟨buf, parser, str, len + 1⟩ .byte =
                    some ⟨buf, after.enterNext, str + 1, len⟩ :=
                  step_byte (Nat.succ_pos len) found matched (Bool.eq_true_of_not_eq_false stopped)
                have next : str + ((len + 1 : Nat) : Int) = str + 1 + len := by omega
                rw [List.replicate_succ, runFrom_next taken, ih run, next]

theorem pushFrom_count (buf : Buffer) (result : ReadResult) :
    (buf.pushFrom result).1 = result.count := by
  rw [Buffer.pushFrom]
  split_ifs <;> rfl

/-- A read, and the bytes that `parser_message` is passed for it. -/
def callEvents (buf : Buffer) (result : ReadResult) : List ReadEvent :=
  .read result :: List.replicate (buf.pushFrom result).1.toNat .byte

theorem callEvents_result (buf : Buffer) (result : ReadResult) :
    (callEvents buf result).filterMap ReadEvent.result? = [result] := by
  simp [callEvents, ReadEvent.result?]

/-- One iteration of the read loop that goes on. -/
theorem runFrom_call {buf : Buffer} {parser last : HTTPMessageParser} (str : Int)
    {result : ReadResult} (matching : parser.isMatch = true)
    (incomplete : parser.isCompleted = false)
    (stored : result.bytes.length ≤ buf.offeredRoom) (filled : 0 < result.count)
    (run : parser.parserMessage (bufferMemory (buf.pushFrom result).2)
      (buf.pushFrom result).2.leftReadPtr (buf.pushFrom result).1.toNat = .ok (true, last)) :
    last.isMatch = true ∧ runFrom step ⟨buf, parser, str, 0⟩ (callEvents buf result) =
        some ⟨(buf.pushFrom result).2, last,
          (buf.pushFrom result).2.leftReadPtr + (buf.pushFrom result).1.toNat, 0⟩ := by
  rw [HTTPMessageParser.parserMessage, HTTPMessageParser.parserMessageWith,
    if_neg (by rw [matching]; exact Bool.noConfusion)] at run
  have moved : (parser.rebase ((buf.pushFrom result).2.leftReadPtr - parser.nowLen)).isMatch =
    true := matching
  refine ⟨(HTTPMessageParser.parserLoop_answered moved run).isMatch, ?_⟩
  have waits : (MessageReader.mk buf parser str 0).Waits := ⟨rfl, matching, incomplete⟩
  have taken : step ⟨buf, parser, str, 0⟩ (.read result) =
      some (pushFrom ⟨buf, parser, str, 0⟩ result) := if_pos ⟨waits, stored, filled⟩
  rw [callEvents, runFrom_next taken]
  exact runFrom_bytes run

/-- As long as the read loop goes on, it is a run of the reader over the same results. -/
theorem readLoop_runs {paths : PathMap} {results : List ReadResult} {buf : Buffer}
    {parser : HTTPMessageParser} {passed : Bytes} {done : ReadResults} (str : Int)
    (fits : ReadsFit buf results) (matching : parser.isMatch = true)
    (incomplete : parser.isCompleted = false)
    (run : readLoop paths results buf parser passed = .ok done)
    (waiting : done.outcome = .waiting) :
    ∃ events last, runFrom step ⟨buf, parser, str, 0⟩ events = some last ∧
      last.buf = done.buf ∧ events.filterMap ReadEvent.result? = results := by
  induction results generalizing buf parser passed str with
  | nil =>
      cases run
      exact ⟨[], _, rfl, rfl, rfl⟩
  | cons result results ih =>
      obtain ⟨stored, others⟩ := fits
      rw [readLoop] at run
      simp only at run
      split_ifs at run with ended
      · cases run
        cases waiting
      · have filled : 0 < result.count := by
          rw [pushFrom_count] at ended
          exact Int.not_le.mp ended
        cases called : parser.parserMessage (bufferMemory (buf.pushFrom result).2)
            (buf.pushFrom result).2.leftReadPtr (buf.pushFrom result).1.toNat with
        | error fault =>
            rw [called] at run
            cases run
        | ok answered =>
            obtain ⟨answer, after⟩ := answered
            cases answer with
            | false =>
                simp only [called] at run
                cases run
                cases waiting
            | true =>
                simp only [called] at run
                split_ifs at run with completed
                · split at run
                  · cases run
                  · next req _ =>
                      cases run
                      have complete := findPath_complete paths req
                      rw [show findPath paths req = .waiting from waiting] at complete
                      exact complete.elim
                · obtain ⟨goesOn, here⟩ :=
                    runFrom_call str matching incomplete stored filled called
                  obtain ⟨events, last, rest, sameBuf, returned⟩ :=
                    ih _ others goesOn (Bool.eq_false_iff.mpr completed) run
                  refine ⟨callEvents buf result ++ events, last, ?_, sameBuf, ?_⟩
                  · rw [runFrom_append, here, Option.bind_some]
                    exact rest
                  · rw [List.filterMap_append, returned, callEvents_result]
                    rfl

/-! ## A target without an end -/

/-- The reader is inside the target of a request, and the buffer begins with a `G`. -/
structure InTarget (reader : MessageReader) : Prop where
  received : ∃ rest, Reading (71 :: rest) reader.buf
  len : reader.len = 0
  matching : reader.parser.isMatch = true
  fresh : reader.parser.nextState = none
  target : ∃ state, reader.parser.state = .url state ∧ state.nowIdx ≠ 0

/-- Inside the target a `G` is one byte more of it. -/
theorem matchChar_inTarget (string : StringCtor) {parser : HTTPMessageParser} {state : StateURL}
    (inState : parser.state = .url state) (started : state.nowIdx ≠ 0) :
    ∃ after, parser.matchChar string 71 = .ok after ∧ after.isMatch = parser.isMatch ∧
      after.nextState = parser.nextState ∧
      after.state = .url { state with nowIdx := state.nowIdx + 1 } := by
  have plain : state.matchPart string (parser.reading parser.beginPtr 71) =
      .ok (state, parser.reading parser.beginPtr 71) := if_neg started
  have step : state.matchStep string (parser.reading parser.beginPtr 71) =
      .ok ({ state with nowIdx := state.nowIdx + 1 }, parser.reading parser.beginPtr 71) := by
    rw [StateURL.matchStep, plain]
    rfl
  have taken : parser.matchChar string 71 =
      (State.url state).matchStep string (parser.reading parser.beginPtr 71) := by
    rw [← inState]
    rfl
  rw [taken, State.matchStep, step]
  exact ⟨_, rfl, rfl, rfl, rfl⟩

/-- The first byte of the buffer is passed. -/
theorem InTarget.of_byte (reader : MessageReader) {rest : Bytes} {state : StateURL}
    (received : Reading (71 :: rest) reader.buf) (str : reader.str = 0) (len : reader.len = 1)
    (matching : reader.parser.isMatch = true) (fresh : reader.parser.nextState = none)
    (inState : reader.parser.state = .url state) (started : state.nowIdx ≠ 0) :
    ∃ next, reader.step .byte = some next ∧ next.InTarget ∧ next.buf = reader.buf := by
  have found : bufferMemory reader.buf reader.str = some 71 := by
    rw [str]
    exact ((Memory.holds_cons_iff _ _ _ _).mp received.holds).1
  obtain ⟨after, matched, sameMatch, sameNext, inTarget⟩ :=
    matchChar_inTarget (stringOf (bufferMemory reader.buf)) inState started
  have goesOn := sameMatch.trans matching
  have more : 0 < reader.len := by
    rw [len]
    exact Nat.one_pos
  refine ⟨_, step_byte more found matched goesOn, ?_, rfl⟩
  rw [HTTPMessageParser.enterNext_of_fresh (sameNext.trans fresh)]
  refine ⟨⟨rest, received⟩, ?_, goesOn, sameNext.trans fresh, _, inTarget, Nat.succ_ne_zero _⟩
  change reader.len - 1 = 0
  rw [len]

/-- Another byte arrives, and the parser is passed the first one of the buffer. -/
theorem InTarget.again {reader : MessageReader} (inside : reader.InTarget) :
    ∃ read next, reader.step (.read (.data [97])) = some read ∧ read.step .byte = some next ∧
      next.InTarget ∧ next.buf.rightWritePtr = reader.buf.rightWritePtr + 1 := by
  obtain ⟨rest, received⟩ := inside.received
  obtain ⟨state, inState, started⟩ := inside.target
  have stored : (ReadResult.data [97]).bytes.length ≤ reader.buf.offeredRoom :=
    Nat.le_trans (by decide) received.wf.offeredRoom_ge
  have incomplete : reader.parser.isCompleted = false := by
    rw [HTTPMessageParser.isCompleted, inState]
  have taken : reader.step (.read (.data [97])) = some (reader.pushFrom (.data [97])) :=
    if_pos ⟨⟨inside.len, inside.matching, incomplete⟩, stored, by decide⟩
  have more := received.pushFrom stored
  have passed : (reader.pushFrom (.data [97])).str = 0 := congrArg Int.ofNat more.start
  obtain ⟨next, byte, still, same⟩ := InTarget.of_byte (reader.pushFrom (.data [97])) more passed
    (reader.pushFrom_len _) inside.matching inside.fresh inState started
  refine ⟨_, next, taken, byte, still, ?_⟩
  rw [same]
  exact (reader.buf.pushFrom_positions (.data [97])).2

/-- One byte after the other. -/
def longTarget : Nat → List ReadEvent
  | 0 => []
  | count + 1 => .read (.data [97]) :: .byte :: longTarget count

theorem InTarget.long {reader : MessageReader} (inside : reader.InTarget) (count : Nat) :
    ∃ last, runFrom step reader (longTarget count) = some last ∧
      last.buf.rightWritePtr = reader.buf.rightWritePtr + count := by
  induction count generalizing reader with
  | zero => exact ⟨reader, rfl, rfl⟩
  | succ count ih =>
      obtain ⟨read, next, taken, byte, still, right⟩ := inside.again
      obtain ⟨last, run, moved⟩ := ih still
      refine ⟨last, ?_, ?_⟩
      · rw [longTarget, runFrom_next taken, runFrom_next byte, run]
      · rw [moved, right]
        omega

/-- The first five bytes of such a request. -/
def targetStart : Bytes := ascii "GET /"

theorem targetStart_inTarget : ∃ first,
    runFrom step (new .v1_0 0) (callEvents .new (.data targetStart)) = some first ∧
      first.InTarget ∧ first.buf.rightWritePtr = 5 := by
  have stored : (ReadResult.data targetStart).bytes.length ≤ Buffer.new.offeredRoom := by
    decide +kernel
  have received := reading_new.pushFrom stored
  have right : (Buffer.new.pushFrom (.data targetStart)).2.rightWritePtr = 5 := by
    decide +kernel
  have answer : ((HTTPMessageParser.new true .v1_0 0).parserMessage
      (bufferMemory (Buffer.new.pushFrom (.data targetStart)).2)
      (Buffer.new.pushFrom (.data targetStart)).2.leftReadPtr
      (Buffer.new.pushFrom (.data targetStart)).1.toNat).toOption.map
        (fun result => (result.1, result.2.state, result.2.nextState)) =
      some (true, .url { nowIdx := 1 }, none) := by
    decide +kernel
  cases called : (HTTPMessageParser.new true .v1_0 0).parserMessage
      (bufferMemory (Buffer.new.pushFrom (.data targetStart)).2)
      (Buffer.new.pushFrom (.data targetStart)).2.leftReadPtr
      (Buffer.new.pushFrom (.data targetStart)).1.toNat with
  | error fault =>
      rw [called] at answer
      cases answer
  | ok result =>
      rw [called] at answer
      obtain ⟨verdict, parser⟩ := result
      simp only [Except.toOption, Option.map_some, Option.some.injEq, Prod.mk.injEq] at answer
      obtain ⟨rfl, inState, fresh⟩ := answer
      obtain ⟨matching, run⟩ := runFrom_call 0 rfl rfl stored (by decide +kernel) called
      have begins : [] ++ (ReadResult.data targetStart).bytes = 71 :: [69, 84, 32, 47] := by
        decide +kernel
      rw [begins] at received
      exact ⟨_, run, ⟨⟨[69, 84, 32, 47], received⟩, rfl, matching, fresh, _, inState, by decide⟩,
        right⟩

theorem longTarget_beyond {count : Nat} (beyond : maxInt < 5 + count) :
    ¬ AllStates step CountersFit (new .v1_0 0)
      (callEvents .new (.data targetStart) ++ longTarget count) := by
  intro all
  obtain ⟨first, start, inside, five⟩ := targetStart_inTarget
  obtain ⟨last, run, right⟩ := inside.long count
  have whole : runFrom step (new .v1_0 0)
      (callEvents .new (.data targetStart) ++ longTarget count) = some last := by
    rw [runFrom_append, start, Option.bind_some, run]
  have fits := (all.last whole).rightWritePtr.2
  rw [right, five] at fits
  omega

/-- A target of `2^31` bytes, which is read as long as bytes arrive. -/
theorem longTarget_overflows :
    ¬ ∀ (version : HTTPVersion) (code : Int) (events : List ReadEvent),
      AllStates step CountersFit (new version code) events := by
  intro all
  have beyond : ∃ count : Nat, maxInt < 5 + count := ⟨2147483643, by unfold maxInt; omega⟩
  obtain ⟨count, long⟩ := beyond
  exact longTarget_beyond long (all .v1_0 0 _)

end MessageReader

end SimpleWebServer.Http
