import SimpleWebServer.Http.RequestDecoding

/-!
# Writing a message and parsing it again

What the writer emits for a message is fed to a new parser.  The two sides agree on the start
line and on the header.  They disagree on the end: the writer leaves the empty line out when
there is no body, so such a message is never complete, and the parser never records the
length of a body of one byte.  From two bytes on the round trip is exact.
-/

namespace SimpleWebServer.Http

open SimpleWebServer.Base

/-! ## Messages that can be written -/

/--
Header lines of the grammar; the body length is announced exactly when there is a body, and
it is one that `stoi` reads, at most 2147483647.
-/
structure WritableTail (header : ViewMap) (body : Bytes) : Prop where
  keyFilled : ∀ entry ∈ header.entries, entry.1 ≠ []
  keyPlain : ∀ entry ∈ header.entries, ∀ c ∈ entry.1, c ≠ colon ∧ c ≠ CR
  valueFilled : ∀ entry ∈ header.entries, entry.2 ≠ []
  valuePlain : ∀ entry ∈ header.entries, ∀ c ∈ entry.2, c ≠ CR
  valueStart : ∀ entry ∈ header.entries, entry.2.head? ≠ some SP
  noLength : body = [] → header.lookup contentLength = none
  length : body ≠ [] → ∃ value, header.lookup contentLength = some value ∧
    stoi value = .ok body.length

structure WritableRequest (me : HTTPRequestMessage) : Prop extends
    WritableTail me.header me.body where
  pathFilled : me.path ≠ []
  pathPlain : ∀ c ∈ me.path, PlainByte c
  queryKeyPlain : ∀ entry ∈ me.query.entries, ∀ c ∈ entry.1, PlainByte c
  queryValuePlain : ∀ entry ∈ me.query.entries, ∀ c ∈ entry.2, PlainByte c
  versionKnown : me.version = .v0_9 ∨ me.version = .v1_0 ∨ me.version = .v1_1

structure WritableResponse (me : HTTPResponseMessage) : Prop extends
    WritableTail me.header me.body where
  versionKnown : me.version = .v0_9 ∨ me.version = .v1_0 ∨ me.version = .v1_1
  codeKnown : (httpCodeMap.lookup me.code).isSome

theorem exists_versionText {version : HTTPVersion}
    (known : version = .v0_9 ∨ version = .v1_0 ∨ version = .v1_1) :
    ∃ text, getVersionStr version = .ok text := by
  rcases known with rfl | rfl | rfl <;> exact ⟨_, rfl⟩

/-! ## The pieces of the writer as parts of the grammar -/

/-- What is built from the entries of a list with their membership, seen without it. -/
theorem map_pmap_mem {α β γ : Type*} {entries : List α} {build : ∀ entry, entry ∈ entries → β}
    {image : β → γ} {plain : α → γ}
    (same : ∀ entry member, image (build entry member) = plain entry) :
    (entries.pmap build fun _ member => member).map image = entries.map plain := by
  have unpacked : ∀ entry ∈ entries, ∀ member (_ : entry ∈ entries),
      image (build entry member) = plain entry := fun entry _ member _ => same entry member
  rw [List.map_pmap]
  exact (List.pmap_congr_left entries unpacked).trans (List.pmap_eq_map fun _ member => member)

/-- The header lines as the writer puts them down: one space behind the colon. -/
def writtenFields {header : ViewMap} {body : Bytes} (writable : WritableTail header body) :
    List HeaderField :=
  header.entries.pmap
    (fun entry (member : entry ∈ header.entries) => {
      key := entry.1
      spaces := 1
      value := entry.2
      keyFilled := writable.keyFilled entry member
      keyPlain := writable.keyPlain entry member
      valueFilled := writable.valueFilled entry member
      valuePlain := writable.valuePlain entry member
      valueStart := writable.valueStart entry member })
    fun _ member => member

section

variable {header : ViewMap} {body : Bytes} (writable : WritableTail header body)

theorem mem_writtenFields {field : HeaderField} (member : field ∈ writtenFields writable) :
    header.lookup field.key = some field.value := by
  obtain ⟨entry, entryMember, rfl⟩ := List.mem_pmap.mp member
  exact AList.mem_lookup_iff.mpr entryMember

theorem headerText_writtenFields :
    headerText (writtenFields writable) =
      (header.entries.map HTTPMessageWriter.headerLine).flatten := by
  rw [headerText, writtenFields, map_pmap_mem]
  intro entry member
  simp [HeaderField.text, HTTPMessageWriter.headerLine]

theorem headerEntries_writtenFields :
    headerEntries (writtenFields writable) =
      header.entries.map fun entry => (entry.1, entry.2) :=
  map_pmap_mem fun _ _ => rfl

theorem writtenFields_readable : ∀ field ∈ writtenFields writable, field.Readable := by
  intro field member isLength
  have found := mem_writtenFields writable member
  rw [isLength] at found
  by_cases empty : body = []
  · rw [writable.noLength empty] at found
    cases found
  · obtain ⟨value, known, number⟩ := writable.length empty
    obtain rfl := Option.some.inj (known.symm.trans found)
    exact ⟨_, number⟩

/-- A length that every announcement agrees on, when there is one. -/
theorem announcedLength_of_agree {fields : List HeaderField} {length totalLen : Int}
    (agree : ∀ field ∈ fields, field.key = contentLength → stoi field.value = .ok length)
    (known : totalLen = length ∨ ∃ field ∈ fields, field.key = contentLength) :
    announcedLength fields totalLen = length := by
  induction fields generalizing totalLen with
  | nil => simpa [announcedLength] using known
  | cons field rest ih =>
      rw [announcedLength, List.foldl_cons]
      apply ih fun field member => agree field (List.mem_cons_of_mem _ member)
      by_cases here : field.key = contentLength
      · left
        rw [HeaderField.announced, if_pos here, agree field List.mem_cons_self here]
      · rw [HeaderField.announced, if_neg here]
        simpa [here] using known

theorem writtenFields_announced : announcedLength (writtenFields writable) 0 = body.length := by
  by_cases empty : body = []
  · have length : (body.length : Int) = 0 := by simp [empty]
    rw [length]
    apply announcedLength_of_none
    intro field member isLength
    have found := mem_writtenFields writable member
    rw [isLength, writable.noLength empty] at found
    cases found
  · obtain ⟨value, known, number⟩ := writable.length empty
    apply announcedLength_of_agree
    · intro field member isLength
      have found := mem_writtenFields writable member
      rw [isLength, known] at found
      rw [← Option.some.inj found, number]
    · right
      have entry := AList.mem_lookup_iff.mp known
      exact ⟨_, List.mem_pmap_of_mem entry, rfl⟩

/-- The header and the body as the writer puts them down when there is a body. -/
def writtenTail : MessageTail where
  header := writtenFields writable
  body := body
  readable := writtenFields_readable writable
  announced := writtenFields_announced writable

/-- What stands behind the start line; without a body the empty line is missing. -/
def writtenRest : Bytes :=
  if body = [] then headerText (writtenFields writable) else (writtenTail writable).text

theorem writeHeaderBody_flatten :
    (HTTPMessageWriter.writeHeaderBody header body).flatten = writtenRest writable := by
  rw [HTTPMessageWriter.writeHeaderBody, writtenRest]
  by_cases empty : body = []
  · rw [if_pos empty, headerText_writtenFields]
    simp [empty]
  · rw [if_neg empty, if_pos (by simpa using empty), MessageTail.text, writtenTail,
      headerText_writtenFields]
    simp

end

/-! ## Start lines -/

def writtenPairs {me : HTTPRequestMessage} (writable : WritableRequest me) : List QueryPair :=
  me.query.entries.pmap
    (fun entry (member : entry ∈ me.query.entries) => {
      key := entry.1
      value := entry.2
      keyPlain := writable.queryKeyPlain entry member
      valuePlain := writable.queryValuePlain entry member })
    fun _ member => member

theorem queryEntries_writtenPairs {me : HTTPRequestMessage} (writable : WritableRequest me) :
    queryEntries (writtenPairs writable) = me.query.entries.map fun entry => (entry.1, entry.2) :=
  map_pmap_mem fun _ _ => rfl

/-- Texts that all end with a separator, without the last one, are the joined texts. -/
theorem flatten_dropLast (texts : List Bytes) (separator : Byte) :
    (texts.map (· ++ [separator])).flatten.dropLast = [separator].intercalate texts := by
  induction texts with
  | nil => rfl
  | cons text rest ih =>
      cases rest with
      | nil => simp
      | cons next rest =>
          rw [List.intercalate_cons_cons, ← ih, List.map_cons, List.flatten_cons,
            List.dropLast_append_of_ne_nil]
          simp

theorem queryText_writtenPairs {me : HTTPRequestMessage} (writable : WritableRequest me) :
    queryText (writtenPairs writable) =
      (me.query.entries.map HTTPMessageWriter.queryPair).flatten.dropLast := by
  have pairs : (writtenPairs writable).map (fun pair => pair.text ++ [ampersand]) =
      me.query.entries.map HTTPMessageWriter.queryPair :=
    map_pmap_mem fun entry _ => by simp [QueryPair.text, HTTPMessageWriter.queryPair]
  rw [← pairs, queryText, ← flatten_dropLast, List.map_map]
  rfl

theorem writtenPairs_eq_nil_iff {me : HTTPRequestMessage} (writable : WritableRequest me) :
    writtenPairs writable = [] ↔ me.query.entries.length = 0 := by
  rw [writtenPairs, List.pmap_eq_nil_iff, List.length_eq_zero_iff]

def writtenRequestLine {me : HTTPRequestMessage} (writable : WritableRequest me) {text : Bytes}
    (versionKnown : getVersionStr me.version = .ok text) : RequestLine where
  method := me.method
  path := me.path
  query := writtenPairs writable
  version := me.version
  versionText := text
  pathFilled := writable.pathFilled
  pathPlain := writable.pathPlain
  versionKnown := versionKnown

def writtenStatusLine {me : HTTPResponseMessage} (writable : WritableResponse me) {text : Bytes}
    (versionKnown : getVersionStr me.version = .ok text) : StatusLine where
  version := me.version
  versionText := text
  code := me.code
  versionKnown := versionKnown
  codeKnown := writable.codeKnown

/-- All that is written for a request. -/
theorem writeRequest_flatten {me : HTTPRequestMessage} (writable : WritableRequest me)
    {text : Bytes} (versionKnown : getVersionStr me.version = .ok text) :
    ∃ pieces, HTTPMessageWriter.writeRequest me = .ok pieces ∧
      pieces.flatten = (writtenRequestLine writable versionKnown).text ++
        writtenRest writable.toWritableTail := by
  rw [HTTPMessageWriter.writeRequest, versionKnown]
  refine ⟨_, rfl, ?_⟩
  rw [List.flatten_cons, writeHeaderBody_flatten writable.toWritableTail]
  congr 1
  rw [RequestLine.text, targetText]
  by_cases noQuery : me.query.entries.length = 0
  · simp [writtenRequestLine, (writtenPairs_eq_nil_iff writable).mpr noQuery, noQuery]
  · have some : writtenPairs writable ≠ [] := fun empty =>
      noQuery ((writtenPairs_eq_nil_iff writable).mp empty)
    simp [writtenRequestLine, some, noQuery, queryText_writtenPairs]

theorem writeResponse_flatten {me : HTTPResponseMessage} (writable : WritableResponse me)
    {text : Bytes} (versionKnown : getVersionStr me.version = .ok text) :
    ∃ pieces, HTTPMessageWriter.writeResponse me = .ok pieces ∧
      pieces.flatten = (writtenStatusLine writable versionKnown).text ++
        writtenRest writable.toWritableTail := by
  rw [HTTPMessageWriter.writeResponse, versionKnown]
  refine ⟨_, rfl, ?_⟩
  rw [List.flatten_cons, writeHeaderBody_flatten writable.toWritableTail]
  congr 1
  simp [StatusLine.text, writtenStatusLine]

/-! ## Responses -/

/-- The response comes out with the values that the entries assign, and with `body`. -/
def ReturnsResponse (line : StatusLine) (header : List (Bytes × Bytes)) (body : Bytes)
    (memory : Memory) (parser : HTTPMessageParser) : Prop :=
  ∃ detail headerMap, parser.getResponseMessage memory = .ok {
      version := line.version, code := line.code, detail := detail, header := headerMap
      body := body } ∧
    ∀ key, headerMap.lookup key = (assign ∅ header).lookup key

theorem response_decoded (version : HTTPVersion) {code : Int} (initial : code ≠ -1)
    (line : StatusLine) (tail : MessageTail) {calls : List Call} {chunks : List Bytes}
    {rest : Bytes} (addressed : CallsAddress [] calls chunks)
    (split : chunks.flatten ++ rest = line.text ++ tail.text) :
    Completes false version code calls rest
      (ReturnsResponse line (headerEntries tail.header) (shownBody tail.body)) := by
  apply completes_of_reads rfl (reads_response version code line tail initial) tail.announced
    addressed split
  rintro memory parser sound known holds completed ⟨beginPtr, last, rfl⟩
  obtain ⟨header, message, headerShown⟩ :=
    HTTPMessageParser.exists_responseMessage sound known holds rfl completed
  unfold ReturnsResponse
  rw [← shown_body line.text tail]
  exact ⟨_, header, message, fun key =>
    (headerShown key).trans (shown_header line.text tail key)⟩

/-! ## Messages that never complete -/

section

variable {isRequest : Bool} {version : HTTPVersion} {code : Int} {bytes : Bytes}
variable {returned : Memory → HTTPMessageParser → Prop}

/-- Bytes that end between two header lines leave the parser incomplete. -/
theorem not_completes_of_header {state : State} {next : StateHeader} {after : HTTPMessageParser}
    (start : (HTTPMessageParser.new isRequest version code).state = state)
    (reads : Reads [] state (.new isRequest version code) bytes (.header next) after) :
    ¬ Completes isRequest version code [wholeCall bytes] [] returned := by
  rintro ⟨parser, called, complete, -⟩
  obtain ⟨lastByte, run⟩ := reads
  have new : (HTTPMessageParser.new isRequest version code).behind [] state =
      HTTPMessageParser.new isRequest version code := by
    rw [← start]
    rfl
  have pieces : [bytes].flatten ++ [] = bytes := by simp
  rw [new, ← pieces] at run
  obtain ⟨middle, reached, begun, reachedCall, moved⟩ :=
    parserMessages_of_consume (wholeCall_addresses bytes) rfl rfl run
  rw [List.append_nil, begun] at run
  obtain rfl := (Prod.mk.inj (Except.ok.inj run)).2
  obtain rfl := (Prod.mk.inj (Except.ok.inj (called.symm.trans reachedCall))).2
  have incomplete : parser.isCompleted = false := by
    rw [← parser.rebase_isCompleted 0, moved]
    rfl
  rw [complete.mpr rfl] at incomplete
  cases incomplete

/-- Neither do bytes with a mismatch complete it. -/
theorem not_completes_of_mismatch {after : HTTPMessageParser}
    (run : consume [] bytes (.new isRequest version code) = .ok (false, after)) :
    ¬ Completes isRequest version code [wholeCall bytes] [] returned := by
  rintro ⟨parser, called, -, -⟩
  have pieces : [bytes].flatten = bytes := by simp
  have inside : consume [] [bytes].flatten (.new isRequest version code) ≠
      .error .sliceOutside := by
    rw [pieces, run]
    simp
  have same := parserMessages_eq (wholeCall_addresses bytes) rfl rfl inside
  rw [pieces, run, called] at same
  cases same

end

/-- A digit read while the code is `-1`. -/
theorem consume_code_mismatch (consumed rest : Bytes) {c : Byte} (digit : isDigit c = true)
    {parser : HTTPMessageParser} (start : parser.state = .code {}) (initial : parser.code = -1) :
    ∃ after, consume consumed (c :: rest) parser = .ok (false, after) := by
  simp [consume, HTTPMessageParser.matchChar, start, State.matchStep, StateCode.matchStep,
    StateCode.setDigit, digit, initial]

/-- A parser whose code happens to start as `-1` rejects the first digit of every status. -/
theorem statusLine_mismatch (version : HTTPVersion) (line : StatusLine) (rest : Bytes) :
    ∃ after, consume [] (line.text ++ rest) (.new false version (-1)) = .ok (false, after) := by
  obtain ⟨lastByte, run⟩ := reads_response_version [] (.new false version (-1))
    line.versionKnown rfl
  have begun : consume [] (line.versionText ++ [SP]) (.new false version (-1)) = _ := run
  obtain ⟨entry, member, sameCode⟩ := exists_entry_of_isSome line.codeKnown
  obtain ⟨text, ⟨first, -, -⟩, -⟩ := statusCode_digits entry member
  rw [sameCode] at text first
  have split : line.text ++ rest = line.versionText ++ [SP] ++
      (codeByte line.code 100 :: (codeByte line.code 10 :: codeByte line.code 1 :: SP ::
        (codeText line.code ++ CRLF ++ rest))) := by
    rw [StatusLine.text, text]
    simp
  rw [split, consume_append, begun]
  exact consume_code_mismatch _ _ first rfl rfl

/-! ## The round trip -/

structure SameRequest (me back : HTTPRequestMessage) : Prop where
  method : back.method = me.method
  path : back.path = me.path
  query : ∀ key, back.query.lookup key = me.query.lookup key
  version : back.version = me.version
  header : ∀ key, back.header.lookup key = me.header.lookup key
  body : back.body = me.body

/-- The reason phrase is written from the table, whatever the message has. -/
structure SameResponse (me back : HTTPResponseMessage) : Prop where
  version : back.version = me.version
  code : back.code = me.code
  header : ∀ key, back.header.lookup key = me.header.lookup key
  body : back.body = me.body

/--
What is written for the request completes a new parser with its last byte, in chunks of any
size, and comes out as the same request.  The parser's `version` and `code` start with
whatever its memory held.
-/
def RequestRoundTrips (version : HTTPVersion) (code : Int) (me : HTTPRequestMessage) : Prop :=
  ∃ pieces, HTTPMessageWriter.writeRequest me = .ok pieces ∧
    ∀ calls chunks rest, CallsAddress [] calls chunks → chunks.flatten ++ rest = pieces.flatten →
      Completes true version code calls rest fun memory parser =>
        ∃ back, parser.getRequestMessage memory = .ok back ∧ SameRequest me back

def ResponseRoundTrips (version : HTTPVersion) (code : Int) (me : HTTPResponseMessage) : Prop :=
  ∃ pieces, HTTPMessageWriter.writeResponse me = .ok pieces ∧
    ∀ calls chunks rest, CallsAddress [] calls chunks → chunks.flatten ++ rest = pieces.flatten →
      Completes false version code calls rest fun memory parser =>
        ∃ back, parser.getResponseMessage memory = .ok back ∧ SameResponse me back

theorem lookup_writtenFields {header : ViewMap} {body : Bytes}
    (writable : WritableTail header body) (key : Bytes) :
    (assign ∅ (headerEntries (writtenFields writable))).lookup key = header.lookup key := by
  rw [headerEntries_writtenFields, lookup_assign_entries]

theorem Completes.imp {isRequest : Bool} {version : HTTPVersion} {code : Int}
    {calls : List Call} {rest : Bytes} {first second : Memory → HTTPMessageParser → Prop}
    (completes : Completes isRequest version code calls rest first)
    (weaker : ∀ memory parser, first memory parser → second memory parser) :
    Completes isRequest version code calls rest second := by
  obtain ⟨parser, called, complete, returned⟩ := completes
  exact ⟨parser, called, complete, fun nothing earlier last pieces =>
    weaker _ _ (returned nothing earlier last pieces)⟩

/-- What the calls on a whole message return is determined by the calls. -/
theorem Completes.both {isRequest : Bool} {version : HTTPVersion} {code : Int}
    {call : Call} {first second : Memory → HTTPMessageParser → Prop}
    (completes : Completes isRequest version code [call] [] first)
    (other : Completes isRequest version code [call] [] second) :
    ∃ parser, first call.memory parser ∧ second call.memory parser := by
  obtain ⟨parser, called, -, returned⟩ := completes
  obtain ⟨twin, twinCalled, -, twinReturned⟩ := other
  obtain rfl := (Prod.mk.inj (Except.ok.inj (called.symm.trans twinCalled))).2
  exact ⟨parser, returned rfl [] call rfl, twinReturned rfl [] call rfl⟩

theorem shownBody_ne {body : Bytes} (single : body.length = 1) : shownBody body ≠ body := by
  intro same
  rw [shownBody, if_pos single] at same
  rw [← same] at single
  cases single

theorem requestRoundTrips_of_body (version : HTTPVersion) (code : Int)
    {me : HTTPRequestMessage} (writable : WritableRequest me) (long : 2 ≤ me.body.length) :
    RequestRoundTrips version code me := by
  obtain ⟨text, versionKnown⟩ := exists_versionText writable.versionKnown
  obtain ⟨pieces, written, flat⟩ := writeRequest_flatten writable versionKnown
  refine ⟨pieces, written, ?_⟩
  intro calls chunks rest addressed split
  have filled : me.body ≠ [] := List.ne_nil_of_length_pos (by omega)
  rw [flat, writtenRest, if_neg filled] at split
  apply (request_decoded version code _ _ addressed split).imp
  rintro memory parser ⟨query, header, message, queryShown, headerShown⟩
  refine ⟨_, message, rfl, rfl, ?_, rfl, ?_, if_neg (by dsimp only [writtenTail]; omega)⟩
  · intro key
    rw [queryShown, writtenRequestLine, queryEntries_writtenPairs, lookup_assign_entries]
  · intro key
    exact (headerShown key).trans (lookup_writtenFields writable.toWritableTail key)

theorem responseRoundTrips_of_body (version : HTTPVersion) {code : Int} (initial : code ≠ -1)
    {me : HTTPResponseMessage} (writable : WritableResponse me) (long : 2 ≤ me.body.length) :
    ResponseRoundTrips version code me := by
  obtain ⟨text, versionKnown⟩ := exists_versionText writable.versionKnown
  obtain ⟨pieces, written, flat⟩ := writeResponse_flatten writable versionKnown
  refine ⟨pieces, written, ?_⟩
  intro calls chunks rest addressed split
  have filled : me.body ≠ [] := List.ne_nil_of_length_pos (by omega)
  rw [flat, writtenRest, if_neg filled] at split
  apply (response_decoded version initial _ _ addressed split).imp
  rintro memory parser ⟨detail, header, message, headerShown⟩
  refine ⟨_, message, rfl, rfl, ?_, if_neg (by dsimp only [writtenTail]; omega)⟩
  intro key
  exact (headerShown key).trans (lookup_writtenFields writable.toWritableTail key)

/-- Less than two bytes are none, or one. -/
theorem body_short {body : Bytes} (short : ¬ 2 ≤ body.length) :
    body = [] ∨ body.length = 1 := by
  rw [← List.length_eq_zero_iff]
  omega

theorem requestRoundTrips_iff (version : HTTPVersion) (code : Int) {me : HTTPRequestMessage}
    (writable : WritableRequest me) :
    RequestRoundTrips version code me ↔ 2 ≤ me.body.length := by
  refine ⟨?_, requestRoundTrips_of_body version code writable⟩
  rintro ⟨pieces, written, trips⟩
  by_contra short
  obtain ⟨text, versionKnown⟩ := exists_versionText writable.versionKnown
  obtain ⟨others, rewritten, flat⟩ := writeRequest_flatten writable versionKnown
  obtain rfl := Except.ok.inj (written.symm.trans rewritten)
  have completes := trips [wholeCall pieces.flatten] [pieces.flatten] []
    (wholeCall_addresses pieces.flatten) (by simp)
  rcases body_short short with empty | single
  · obtain ⟨next, -, lines⟩ := reads_fields (writtenRequestLine writable versionKnown).text {}
      ((HTTPMessageParser.new true version code).readRequestLine
        (writtenRequestLine writable versionKnown))
      (writtenFields_readable writable.toWritableTail) ⟨rfl, rfl, rfl⟩
    have all := (reads_requestLine version code (writtenRequestLine writable versionKnown)).trans
      lines
    rw [flat, writtenRest, if_pos empty] at completes
    exact not_completes_of_header rfl all completes
  · have filled : me.body ≠ [] := List.ne_nil_of_length_pos (by omega)
    rw [writtenRest, if_neg filled] at flat
    have decoded := request_decoded version code (writtenRequestLine writable versionKnown)
      (writtenTail writable.toWritableTail) (wholeCall_addresses pieces.flatten)
      (show [pieces.flatten].flatten ++ [] = _ by simpa using flat)
    obtain ⟨parser, ⟨back, message, same⟩, ⟨query, header, shown, -⟩⟩ := completes.both decoded
    obtain rfl := Except.ok.inj (message.symm.trans shown)
    exact shownBody_ne single same.body

theorem responseRoundTrips_iff (version : HTTPVersion) (code : Int) {me : HTTPResponseMessage}
    (writable : WritableResponse me) :
    ResponseRoundTrips version code me ↔ 2 ≤ me.body.length ∧ code ≠ -1 := by
  refine ⟨?_, fun ⟨long, initial⟩ => responseRoundTrips_of_body version initial writable long⟩
  rintro ⟨pieces, written, trips⟩
  obtain ⟨text, versionKnown⟩ := exists_versionText writable.versionKnown
  obtain ⟨others, rewritten, flat⟩ := writeResponse_flatten writable versionKnown
  obtain rfl := Except.ok.inj (written.symm.trans rewritten)
  have completes := trips [wholeCall pieces.flatten] [pieces.flatten] []
    (wholeCall_addresses pieces.flatten) (by simp)
  have initial : code ≠ -1 := by
    rintro rfl
    obtain ⟨after, mismatch⟩ := statusLine_mismatch version
      (writtenStatusLine writable versionKnown) (writtenRest writable.toWritableTail)
    rw [← flat] at mismatch
    exact not_completes_of_mismatch mismatch completes
  refine ⟨?_, initial⟩
  by_contra short
  rcases body_short short with empty | single
  · obtain ⟨next, -, lines⟩ := reads_fields (writtenStatusLine writable versionKnown).text {}
      ((HTTPMessageParser.new false version code).readStatusLine
        (writtenStatusLine writable versionKnown))
      (writtenFields_readable writable.toWritableTail) ⟨rfl, rfl, rfl⟩
    have all := (reads_statusLine version code (writtenStatusLine writable versionKnown)
      initial).trans lines
    rw [flat, writtenRest, if_pos empty] at completes
    exact not_completes_of_header rfl all completes
  · have filled : me.body ≠ [] := List.ne_nil_of_length_pos (by omega)
    rw [writtenRest, if_neg filled] at flat
    have decoded := response_decoded version initial (writtenStatusLine writable versionKnown)
      (writtenTail writable.toWritableTail) (wholeCall_addresses pieces.flatten)
      (show [pieces.flatten].flatten ++ [] = _ by simpa using flat)
    obtain ⟨parser, ⟨back, message, same⟩, ⟨detail, header, shown, -⟩⟩ := completes.both decoded
    obtain rfl := Except.ok.inj (message.symm.trans shown)
    exact shownBody_ne single same.body

/--
Exactly the messages with a body of at least two bytes come back as they were written, and
a response only to a parser whose uninitialised code is not `-1`.  No longer message than one
of 2147483647 bytes is meant: its length would be no `int`.
-/
theorem roundTrips_iff (version : HTTPVersion) (code : Int) :
    (∀ me : HTTPRequestMessage, WritableRequest me →
      (RequestRoundTrips version code me ↔ 2 ≤ me.body.length)) ∧
    ∀ me : HTTPResponseMessage, WritableResponse me →
      (ResponseRoundTrips version code me ↔ 2 ≤ me.body.length ∧ code ≠ -1) :=
  ⟨fun _ writable => requestRoundTrips_iff version code writable,
    fun _ writable => responseRoundTrips_iff version code writable⟩

/-- `GET / HTTP/1.0` without header and body. -/
def bareRequest : HTTPRequestMessage where
  method := .get
  path := ascii "/"
  query := ∅
  version := .v1_0
  header := ∅
  body := []

theorem bareRequest_writable : WritableRequest bareRequest where
  keyFilled := by simp [bareRequest]
  keyPlain := by simp [bareRequest]
  valueFilled := by simp [bareRequest]
  valuePlain := by simp [bareRequest]
  valueStart := by simp [bareRequest]
  noLength := fun _ => rfl
  length := fun filled => absurd rfl filled
  pathFilled := by decide
  pathPlain := by decide +kernel
  queryKeyPlain := by simp [bareRequest]
  queryValuePlain := by simp [bareRequest]
  versionKnown := by simp [bareRequest]

/-- What is written for a request without a body is never complete. -/
theorem bareRequest_not_roundTrips :
    ¬ ∀ me : HTTPRequestMessage, WritableRequest me → RequestRoundTrips .v1_0 0 me := by
  intro trips
  have long := (requestRoundTrips_iff .v1_0 0 bareRequest_writable).mp
    (trips bareRequest bareRequest_writable)
  exact absurd long (by decide)

/-- A response with a body of two bytes. -/
def okResponse : HTTPResponseMessage where
  version := .v1_1
  code := 200
  detail := []
  header := (∅ : ViewMap).insert contentLength (ascii "2")
  body := ascii "ok"

theorem okResponse_writable : WritableResponse okResponse where
  keyFilled := by decide +kernel
  keyPlain := by decide +kernel
  valueFilled := by decide +kernel
  valuePlain := by decide +kernel
  valueStart := by decide +kernel
  noLength := fun empty => absurd empty (by decide +kernel)
  length := fun _ => ⟨ascii "2", by decide +kernel, by decide +kernel⟩
  versionKnown := by simp [okResponse]
  codeKnown := by decide +kernel

/-- A request that does not come back and a response that does. -/
theorem roundTrips_iff_samples :
    (RequestRoundTrips .v1_0 0 bareRequest ↔ 2 ≤ bareRequest.body.length) ∧
      (ResponseRoundTrips .v1_0 0 okResponse ↔ 2 ≤ okResponse.body.length ∧ (0 : Int) ≠ -1) :=
  ⟨(roundTrips_iff .v1_0 0).1 bareRequest bareRequest_writable,
    (roundTrips_iff .v1_0 0).2 okResponse okResponse_writable⟩

end SimpleWebServer.Http
