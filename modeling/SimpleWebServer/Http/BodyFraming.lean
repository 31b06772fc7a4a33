import SimpleWebServer.Http.ContentLength
import SimpleWebServer.Http.ParserMoves
import SimpleWebServer.Http.RoundTrip

/-!
# Where the body ends

A message is complete with the last byte of its body, and the body that is handed out is the
one that was sent.  The start and the length of the body are recorded by two exclusive branches,
so a single byte is counted but not shown; and the counters are `int`s.
-/

namespace SimpleWebServer.Http

open SimpleWebServer.Base

/-- The body of the message that is handed out. -/
def HTTPMessageParser.getBody (memory : Memory) (parser : HTTPMessageParser) :
    Except Fault Bytes :=
  if parser.isRequest then (parser.getRequestMessage memory).map (·.body)
  else (parser.getResponseMessage memory).map (·.body)

/-- A complete parser hands out the bytes its body slice shows. -/
theorem HTTPMessageParser.getBody_eq {memory : Memory} {parser : HTTPMessageParser}
    {bytes : Bytes} (sound : parser.Sound) (known : parser.nowLen = bytes.length)
    (holds : memory.Holds parser.beginPtr bytes) (completed : parser.isCompleted = true) :
    parser.getBody memory = .ok (shown bytes parser.bodyPos) := by
  cases mode : parser.isRequest with
  | true =>
      obtain ⟨query, header, message, -⟩ := exists_requestMessage sound known holds mode completed
      rw [getBody, mode, if_pos rfl, message]
      rfl
  | false =>
      obtain ⟨header, message, -⟩ := exists_responseMessage sound known holds mode completed
      rw [getBody, mode, if_neg Bool.false_ne_true, message]
      rfl

/-- A header that carries `Content-Length: length`, in every field of that name. -/
structure FramedHeader (length : Nat) where
  fields : List HeaderField
  present : ∃ field ∈ fields, field.key = contentLength
  agree : ∀ field ∈ fields, field.key = contentLength →
    DecimalDigits field.value ∧ digitsValue field.value = length

/-- The largest `int`. -/
def maxInt : Int := 2147483647

section

variable {isRequest : Bool} {version : HTTPVersion} {code : Int}

/-- A whole message. -/
def StartLine.message (start : StartLine isRequest version code) {body : Bytes}
    (header : FramedHeader body.length) : Bytes :=
  start.text ++ (headerText header.fields ++ CRLF ++ body)

/--
Whatever the chunks, the message is complete with the last byte of the body and not before, the
body handed out is `body`, and the count of bytes has stayed within an `int`.
-/
def StartLine.Frames (start : StartLine isRequest version code) {body : Bytes}
    (header : FramedHeader body.length) : Prop :=
  ∀ calls chunks rest, CallsAddress [] calls chunks →
    chunks.flatten ++ rest = start.message header →
      Completes isRequest version code calls rest fun memory parser =>
        parser.nowLen ≤ maxInt ∧ parser.getBody memory = .ok body

/-- The header and the body when the length fits. -/
def FramedHeader.tail {body : Bytes} (header : FramedHeader body.length)
    (fits : (body.length : Int) ≤ maxInt) : MessageTail where
  header := header.fields
  body := body
  readable := by
    intro field member isLength
    obtain ⟨digits, value⟩ := header.agree field member isLength
    have small : digitsValue field.value ≤ 2147483647 := by
      rw [value]
      exact Int.ofNat_le.mp fits
    exact ⟨_, DecimalInt.stoi ⟨digits, small⟩⟩
  announced := by
    apply announcedLength_of_agree _ (Or.inr header.present)
    intro field member isLength
    obtain ⟨digits, value⟩ := header.agree field member isLength
    have small : digitsValue field.value ≤ 2147483647 := by
      rw [value]
      exact Int.ofNat_le.mp fits
    rw [DecimalInt.stoi ⟨digits, small⟩, value]

namespace StartLine

variable (start : StartLine isRequest version code) {body : Bytes}
variable (header : FramedHeader body.length)

/-- What the parser hands out when the length fits: the body, unless that is a single byte. -/
theorem shows_body (fits : (body.length : Int) ≤ maxInt) {calls : List Call}
    {chunks : List Bytes} {rest : Bytes} (addressed : CallsAddress [] calls chunks)
    (split : chunks.flatten ++ rest = start.message header) :
    Completes isRequest version code calls rest fun memory parser =>
      parser.nowLen = (start.message header).length ∧
        parser.getBody memory = .ok (shownBody body) := by
  refine completes_of_reads rfl (start.reads_tail (header.tail fits))
    (start.readTail_totalLen _ _) addressed split ?_
  rintro memory parser sound known holds completed ⟨beginPtr, last, rfl⟩
  refine ⟨known, ?_⟩
  rw [HTTPMessageParser.getBody_eq sound known holds completed]
  exact congrArg Except.ok (shown_body start.text (header.tail fits))

/-- A single byte is read and counted, and comes back as nothing. -/
theorem not_frames_of_single (single : body.length = 1) : ¬ start.Frames header := by
  intro frames
  have wholeAddressed := wholeCall_addresses (start.message header)
  have whole : [start.message header].flatten ++ [] = start.message header := by simp
  have fits : (body.length : Int) ≤ maxInt := by
    rw [single]
    decide
  obtain ⟨parser, ⟨-, framed⟩, -, shows⟩ :=
    (frames _ _ _ wholeAddressed whole).both (start.shows_body header fits wholeAddressed whole)
  exact shownBody_ne single (Except.ok.inj (shows.symm.trans framed))

/-- The body is framed exactly when it is not a single byte and the message fits an `int`. -/
theorem frames_iff :
    start.Frames header ↔
      body.length ≠ 1 ∧ ((start.message header).length : Int) ≤ maxInt := by
  constructor
  · intro frames
    have addressed : CallsAddress [] ([] ++ [wholeCall (start.message header)])
        [start.message header] := wholeCall_addresses _
    obtain ⟨parser, called, -, returned⟩ := frames _ _ [] addressed (by simp)
    have known := (parserMessagesWith_holds addressed rfl called).2
    rw [List.nil_append, List.flatten_singleton] at known
    exact ⟨fun single => start.not_frames_of_single header single frames,
      known ▸ (returned rfl [] _ rfl).1⟩
  · rintro ⟨several, short⟩ calls chunks rest addressed split
    have bodyLe : body.length ≤ (start.message header).length := by
      simp only [message, List.length_append]
      omega
    have fits : (body.length : Int) ≤ maxInt := by omega
    apply (start.shows_body header fits addressed split).imp
    rintro memory parser ⟨known, shows⟩
    rw [shownBody, if_neg several] at shows
    exact ⟨known ▸ short, shows⟩

end StartLine

end

/-- A request that announces a body of one byte. -/
def singleHeader : FramedHeader (ascii "x").length where
  fields := [LengthLine.field {
    spaces := 1
    value := ascii "1"
    valueFilled := by decide +kernel
    valuePlain := by decide +kernel
    valueStart := by decide +kernel }]
  present := ⟨_, List.mem_singleton_self _, rfl⟩
  agree := by decide +kernel

/-- Its body comes back empty. -/
theorem singleHeader_not_frames :
    ¬ ∀ (start : StartLine true .v1_0 0) (body : Bytes) (header : FramedHeader body.length),
      start.Frames header := by
  intro all
  exact (bareLine.startLine .v1_0 0).not_frames_of_single singleHeader (by decide)
    (all _ _ singleHeader)

/-! ## Bytes behind the message -/

/-- A call with `more` behind the message leaves the parser complete, with the same message. -/
def SurvivesBytes (memory : Memory) (str : Int) (len : Nat) (parser first : HTTPMessageParser) :
    Prop :=
  ∃ verdict second, parser.parserMessage memory str len = .ok (verdict, second) ∧
    second.isCompleted = true ∧
    second.getRequestMessage memory = first.getRequestMessage memory ∧
    second.getResponseMessage memory = first.getResponseMessage memory

section

variable {isRequest : Bool} {version : HTTPVersion} {code : Int}
variable {memory : Memory} {str : Int} {message more : Bytes} {first : HTTPMessageParser}

/-- Every byte behind the message is counted as one more byte of the body. -/
theorem parserMessage_behind (holds : memory.Holds str (message ++ more))
    (alone : (HTTPMessageParser.new isRequest version code).parserMessage memory str
      message.length = .ok (true, first)) (completed : first.isCompleted = true) :
    ∃ second, (HTTPMessageParser.new isRequest version code).parserMessage memory str
        (message ++ more).length = .ok (true, second) ∧
      second.state = .body { nowIdx := second.totalLen + more.length } := by
  rw [HTTPMessageParser.new_parserMessage] at alone ⊢
  obtain ⟨known, placed⟩ := HTTPMessageParser.parserLoop_position alone
  have length : first.nowLen = message.length := known.trans (Int.zero_add _)
  have fresh := HTTPMessageParser.parserLoop_nextState
    ((memory.holds_append_iff str message more).mp holds).1 rfl alone
  have matching := (HTTPMessageParser.parserLoop_answered rfl alone).isMatch
  obtain ⟨state, inBody, counted⟩ := first.isCompleted_iff.mp completed
  obtain ⟨second, run, secondState, secondLength⟩ :=
    consume_in_body message more inBody matching fresh
  -- the body takes no string, so the loop with the library's constructor is the checked one
  have checked := parserLoop_eq_consume holds length
  have unmoved : first.rebase str = first := by
    rw [show str = first.beginPtr from placed.symm, first.rebase_self]
  rw [run, unmoved] at checked
  have real := (HTTPMessageParser.parserLoop_refined memory (str + message.length)
    more.length first).resolve_left (by rw [checked]; simp [Except.map])
  refine ⟨second.rebase str, ?_, ?_⟩
  · rw [List.length_append, HTTPMessageParser.parserLoop_append more.length alone, real, checked]
    rfl
  · rw [secondState, counted, ← secondLength]

/-- One byte more and the message is not complete. -/
theorem not_survivesBytes (holds : memory.Holds str (message ++ more))
    (alone : (HTTPMessageParser.new isRequest version code).parserMessage memory str
      message.length = .ok (true, first)) (completed : first.isCompleted = true)
    (filled : more ≠ []) :
    ¬ SurvivesBytes memory str (message ++ more).length (.new isRequest version code) first := by
  rintro ⟨verdict, second, called, stillCompleted, -⟩
  obtain ⟨twin, twinCalled, inBody⟩ := parserMessage_behind holds alone completed
  obtain rfl := (Prod.mk.inj (Except.ok.inj (called.symm.trans twinCalled))).2
  obtain ⟨state, sameBody, counted⟩ := second.isCompleted_iff.mp stillCompleted
  obtain rfl := State.body.inj (inBody.symm.trans sameBody)
  have positive := List.length_pos_of_ne_nil filled
  dsimp only at counted
  omega

/-- A complete message stays complete exactly when nothing is handed over behind it. -/
theorem survivesBytes_iff (holds : memory.Holds str (message ++ more))
    (alone : (HTTPMessageParser.new isRequest version code).parserMessage memory str
      message.length = .ok (true, first)) (completed : first.isCompleted = true) :
    SurvivesBytes memory str (message ++ more).length (.new isRequest version code) first ↔
      more = [] := by
  constructor
  · intro survives
    by_contra filled
    exact not_survivesBytes holds alone completed filled survives
  · rintro rfl
    rw [List.append_nil]
    exact ⟨true, first, alone, completed, rfl, rfl⟩

end

def bareMessage : Bytes := ascii "GET / HTTP/1.0\r\n\r\n"

/-- The message with a line end behind it. -/
def bareMemory : Memory := .ofBytes 0 (bareMessage ++ CRLF)

/-- The parser behind the message alone. -/
def bareFirst : HTTPMessageParser :=
  match (HTTPMessageParser.new true .v1_0 0).parserMessage bareMemory 0 bareMessage.length with
  | .ok (_, parser) => parser
  | .error _ => .new true .v1_0 0

theorem bareFirst_alone :
    (HTTPMessageParser.new true .v1_0 0).parserMessage bareMemory 0 bareMessage.length =
      .ok (true, bareFirst) := by
  have answer : ((HTTPMessageParser.new true .v1_0 0).parserMessage bareMemory 0
      bareMessage.length).toOption.map Prod.fst = some true := by decide +kernel
  unfold bareFirst
  revert answer
  cases (HTTPMessageParser.new true .v1_0 0).parserMessage bareMemory 0 bareMessage.length with
  | error fault => simp [Except.toOption]
  | ok result => simp +contextual [Except.toOption, Prod.ext_iff]

/-- The message behind which nothing would have to come. -/
theorem survivesBytes_iff_bareMessage :
    SurvivesBytes bareMemory 0 (bareMessage ++ CRLF).length (.new true .v1_0 0) bareFirst ↔
      CRLF = [] :=
  survivesBytes_iff (Memory.holds_ofBytes 0 _) bareFirst_alone (by decide +kernel)

/-- A line end behind a complete message makes it incomplete. -/
theorem trailingLineEnd_incomplete :
    ¬ ∀ (isRequest : Bool) (version : HTTPVersion) (code : Int) (memory : Memory) (str : Int)
      (message more : Bytes) (first : HTTPMessageParser), memory.Holds str (message ++ more) →
      (HTTPMessageParser.new isRequest version code).parserMessage memory str message.length =
        .ok (true, first) → first.isCompleted = true →
      SurvivesBytes memory str (message ++ more).length (.new isRequest version code) first := by
  intro all
  have holds := Memory.holds_ofBytes 0 (bareMessage ++ CRLF)
  have completed : bareFirst.isCompleted = true := by decide +kernel
  exact not_survivesBytes holds bareFirst_alone completed (by simp [CRLF])
    (all true .v1_0 0 bareMemory 0 bareMessage CRLF bareFirst holds bareFirst_alone completed)

end SimpleWebServer.Http
