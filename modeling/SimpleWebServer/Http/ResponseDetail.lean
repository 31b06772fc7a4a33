import SimpleWebServer.Http.ParserMoves
import SimpleWebServer.Http.RoundTrip
import SimpleWebServer.Http.StartLine

/-!
# The reason phrase of a response

The slice of the reason phrase is computed from a counter when the line feed behind it has been
read.  It starts one byte too far and is two bytes too long, so what is handed out as `detail`
is never the phrase.
-/

namespace SimpleWebServer.Http

open SimpleWebServer.Base

/-- The text of a response without a body. -/
def ResponseLine.message (line : ResponseLine) (header : List HeaderField) : Bytes :=
  line.text ++ (headerText header ++ CRLF)

/--
In whatever chunks the response arrives, it comes out with its version, its code, its reason
phrase, taken from the bytes consumed, and the values of its header.
-/
def ResponseLine.Decodes (line : ResponseLine) (header : List HeaderField)
    (version : HTTPVersion) (code : Int) : Prop :=
  ∀ earlier last chunks, CallsAddress [] (earlier ++ [last]) chunks →
    chunks.flatten = line.message header →
      ∃ parser headerMap body,
        (HTTPMessageParser.new false version code).parserMessages (earlier ++ [last]) =
          .ok (true, parser) ∧
        parser.getResponseMessage last.memory = .ok {
          version := line.version, code := line.code, detail := line.detail
          header := headerMap, body := body } ∧
        SliceWithin parser.nowLen parser.detailPos ∧
        ∀ key, headerMap.lookup key = (assign ∅ (headerEntries header)).lookup key

/-! ## What stays of the start line -/

/-- What a run over the header and the body leaves of the start line. -/
theorem CharRun.startKept {first last : HTTPMessageParser} {bytes : Bytes}
    (run : CharRun first bytes last) (fresh : first.nextState = none)
    (inTail : first.state.InTail) : StartKept first last := by
  have kept := run.invariant
    (fun _ parser => parser.nextState = none ∧ parser.state.InTail ∧ StartKept first parser)
    (fun _ parser c after ⟨fresh, inTail, kept⟩ taken =>
      have next := taken.startKept fresh inTail
      ⟨taken.nextState, next.2, kept.trans next.1⟩)
    [] ⟨fresh, inTail, ⟨rfl, rfl, rfl, rfl, rfl, rfl, rfl⟩⟩
  exact kept.2.2

/-- A response never copies a query key. -/
theorem response_keysInside (version : HTTPVersion) (code : Int) (bytes : Bytes) :
    KeysInside [] bytes (HTTPMessageParser.new false version code) := by
  intro before c rest _ reached run
  have past := (charRun_of_consume run).invariant
    (fun _ parser => parser.nextState = none ∧ parser.state.PastURL)
    (fun _ parser c after ⟨fresh, past⟩ taken => ⟨taken.nextState, taken.pastURL fresh past⟩)
    [] ⟨rfl, trivial⟩
  unfold KeyInside
  cases inState : reached.state with
  | url state =>
      rw [inState] at past
      exact past.2.elim
  | _ => trivial

section

variable (line : ResponseLine) {header : List HeaderField} {version : HTTPVersion} {code : Int}
variable (initial : code ≠ -1)
include initial

/-- The slice that is recorded for the reason phrase. -/
theorem ResponseLine.detailPos_of_consume {rest : Bytes} {last : HTTPMessageParser}
    (run : consume [] (line.text ++ rest) (.new false version code) = .ok (true, last)) :
    last.detailPos = ((line.front.length : Int) + 1, (line.detail.length : Int) + 2) := by
  have start := (line.startLine version initial).reads
  cases rest with
  | nil =>
      obtain ⟨char, read⟩ := start
      rw [List.append_nil] at run
      obtain rfl := (Prod.mk.inj (Except.ok.inj (run.symm.trans read))).2
      rfl
  | cons c rest =>
      have behind := (start.consume_next c rest).symm.trans run
      exact ((charRun_of_consume behind).startKept rfl trivial).detailPos

/-- The same after calls of the parser, however they cut the response. -/
theorem ResponseLine.detailPos_of_calls {calls : List Call} {chunks : List Bytes}
    (addressed : CallsAddress [] calls chunks) (flat : chunks.flatten = line.message header)
    {parser : HTTPMessageParser}
    (called : (HTTPMessageParser.new false version code).parserMessages calls =
      .ok (true, parser)) :
    parser.detailPos = ((line.front.length : Int) + 1, (line.detail.length : Int) + 2) := by
  have inside := consume_ne_outside (new_sound false version code)
    (response_keysInside version code chunks.flatten)
  have same := parserMessages_eq addressed rfl rfl inside
  rw [called, flat, forgetBegin_ok] at same
  obtain ⟨⟨verdict, after⟩, run, moved⟩ := map_eq_ok same.symm
  obtain ⟨rfl, sameParser⟩ := Prod.mk.inj moved
  have recorded := congrArg HTTPMessageParser.detailPos sameParser
  have place := line.detailPos_of_consume initial run
  exact recorded.symm.trans place

end

/-- A view shows as many bytes as its slice is long. -/
theorem HTTPMessageParser.view_length {memory : Memory} {parser : HTTPMessageParser}
    {pos : Slice} {bytes : Bytes} (taken : parser.view memory pos = .ok bytes) :
    (bytes.length : Int) = pos.2 := by
  unfold view at taken
  split_ifs at taken with negative
  cases read : memory.read (parser.beginPtr + pos.1) pos.2.toNat with
  | none => simp [read] at taken
  | some shown =>
      simp only [read, Except.ok.injEq] at taken
      rw [← taken, Memory.read_length read]
      omega

/-- The second of two computations succeeds only behind the first. -/
theorem bind_eq_ok {α β : Type} {outcome : Except Fault α} {next : α → Except Fault β}
    {result : β} (bound : outcome >>= next = .ok result) :
    ∃ value, outcome = .ok value ∧ next value = .ok result := by
  cases outcome with
  | error fault => cases bound
  | ok value => exact ⟨value, rfl, bound⟩

theorem HTTPMessageParser.getResponseMessage_detail {memory : Memory} {parser : HTTPMessageParser}
    {message : HTTPResponseMessage} (taken : parser.getResponseMessage memory = .ok message) :
    parser.view memory parser.detailPos = .ok message.detail := by
  unfold getResponseMessage at taken
  split_ifs at taken
  · obtain ⟨detail, shown, taken⟩ := bind_eq_ok taken
    obtain ⟨header, _, taken⟩ := bind_eq_ok taken
    obtain ⟨body, _, taken⟩ := bind_eq_ok taken
    cases taken
    exact shown

/-- What is handed out for the reason phrase is two bytes longer than the phrase. -/
theorem ResponseLine.length_of_decodes (line : ResponseLine) {header : List HeaderField}
    {version : HTTPVersion} {code : Int} (initial : code ≠ -1)
    (decodes : line.Decodes header version code) :
    (line.detail.length : Int) = line.detail.length + 2 := by
  have addressed := wholeCall_addresses (line.message header)
  obtain ⟨parser, headerMap, body, called, message, -⟩ :=
    decodes [] (wholeCall (line.message header)) _ addressed List.flatten_singleton
  have length := HTTPMessageParser.view_length
    (HTTPMessageParser.getResponseMessage_detail message)
  rwa [line.detailPos_of_calls initial addressed List.flatten_singleton called] at length

/-- No response comes out with its reason phrase. -/
theorem ResponseLine.not_decodes (line : ResponseLine) (header : List HeaderField)
    (version : HTTPVersion) {code : Int} (initial : code ≠ -1) :
    ¬ line.Decodes header version code := by
  intro decodes
  have length := line.length_of_decodes initial decodes
  omega

theorem plain_ok : ∀ c ∈ ascii "OK", c ≠ CR ∧ c ≠ LF := by decide +kernel

/-- `HTTP/1.1 200 OK` -/
def okLine : ResponseLine where
  version := .v1_1
  versionText := ascii "HTTP/1.1"
  code := 200
  detail := ascii "OK"
  versionKnown := getVersionStr_v1_1
  codeKnown := by decide +kernel
  detailPlain := plain_ok

theorem ResponseLine.not_decodes_okLine : ¬ okLine.Decodes [] .v1_0 0 :=
  okLine.not_decodes [] .v1_0 (by decide)

/-- Its reason phrase is not handed out either. -/
theorem okLine_detail_differs :
    ¬ ∀ (line : ResponseLine) (header : List HeaderField) (version : HTTPVersion) (code : Int),
      code ≠ -1 → line.Decodes header version code := by
  intro all
  have length := okLine.length_of_decodes (by decide) (all okLine [] .v1_0 0 (by decide))
  omega

end SimpleWebServer.Http
