import SimpleWebServer.Http.MessageViews

/-!
# Decoding a request

A request cut into chunks of any size: every call matches, the message is complete exactly
when its last byte has been read, and what is read out of the parser then is what the
request was written from.
-/

namespace SimpleWebServer.Http

open SimpleWebServer.Base

/-- The target in the middle of a request. -/
theorem RequestLine.text_split (line : RequestLine) (rest : Bytes) :
    line.text ++ rest = getMethodStr line.method ++ [SP] ++ line.path ++
      ((if line.query = [] then [] else question :: queryText line.query) ++ [SP] ++
        (line.versionText ++ CRLF) ++ rest) := by
  simp [RequestLine.text, targetText]

theorem RequestLine.shown_path (line : RequestLine) (rest : Bytes) :
    shown (line.text ++ rest) ((getMethodStr line.method ++ [SP]).length, line.path.length) =
      line.path := by
  rw [line.text_split]
  exact shown_middle rfl

theorem RequestLine.shown_query (line : RequestLine) (rest : Bytes) (key : Bytes) :
    ((assign ∅ (querySlices ((getMethodStr line.method ++ [SP]).length + line.path.length + 1)
        line.query)).lookup key).map (shown (line.text ++ rest)) =
      (assign ∅ (queryEntries line.query)).lookup key := by
  apply lookup_assign_shown
  by_cases noQuery : line.query = []
  · rw [noQuery]
    rfl
  · have split : line.text ++ rest =
        getMethodStr line.method ++ [SP] ++ line.path ++ [question] ++ queryText line.query ++
          ([SP] ++ (line.versionText ++ CRLF) ++ rest) := by
      rw [line.text_split, if_neg noQuery]
      simp
    have start : ((getMethodStr line.method ++ [SP]).length : Int) + line.path.length + 1 =
        (getMethodStr line.method ++ [SP] ++ line.path ++ [question]).length := by
      simp only [List.length_append, List.length_singleton]
      push_cast
      ring
    rw [split, start]
    exact shown_querySlices _ _ _

/-- The request comes out with the values that the entries assign, and with `body`. -/
def ReturnsRequest (line : RequestLine) (header : List (Bytes × Bytes)) (body : Bytes)
    (memory : Memory) (parser : HTTPMessageParser) : Prop :=
  ∃ query headerMap, parser.getRequestMessage memory = .ok {
      method := line.method, path := line.path, query := query
      version := line.version, header := headerMap, body := body } ∧
    (∀ key, query.lookup key = (assign ∅ (queryEntries line.query)).lookup key) ∧
    ∀ key, headerMap.lookup key = (assign ∅ header).lookup key

/-- What a new parser makes of a request, cut into chunks of any size. -/
theorem request_decoded (version : HTTPVersion) (code : Int) (line : RequestLine)
    (tail : MessageTail) {calls : List Call} {chunks : List Bytes} {rest : Bytes}
    (addressed : CallsAddress [] calls chunks)
    (split : chunks.flatten ++ rest = line.text ++ tail.text) :
    Completes true version code calls rest
      (ReturnsRequest line (headerEntries tail.header) (shownBody tail.body)) := by
  apply completes_of_reads rfl (reads_request version code line tail) tail.announced addressed split
  rintro memory parser sound known holds completed ⟨beginPtr, last, rfl⟩
  obtain ⟨query, header, message, queryShown, headerShown⟩ :=
    HTTPMessageParser.exists_requestMessage sound known holds rfl completed
  have path := line.shown_path tail.text
  have body := shown_body line.text tail
  refine ⟨query, header, ?_, ?_, ?_⟩
  · rw [message]
    congr 2
  · intro key
    exact (queryShown key).trans (line.shown_query tail.text key)
  · intro key
    exact (headerShown key).trans (shown_header line.text tail key)

/-! ## Requests without a body -/

structure PlainRequest extends RequestLine where
  header : List HeaderField
  noLength : ∀ field ∈ header, field.key ≠ contentLength

theorem announcedLength_of_none {fields : List HeaderField}
    (none : ∀ field ∈ fields, field.key ≠ contentLength) (totalLen : Int) :
    announcedLength fields totalLen = totalLen := by
  induction fields generalizing totalLen with
  | nil => rfl
  | cons field rest ih =>
      have here : field.announced totalLen = totalLen :=
        if_neg (none field List.mem_cons_self)
      rw [announcedLength, List.foldl_cons, here]
      exact ih (fun field member => none field (List.mem_cons_of_mem _ member)) totalLen

/-- The header without a body behind it. -/
def PlainRequest.tail (request : PlainRequest) : MessageTail where
  header := request.header
  body := []
  readable := fun field member isLength => absurd isLength (request.noLength field member)
  announced := announcedLength_of_none request.noLength 0

def PlainRequest.text (request : PlainRequest) : Bytes :=
  request.toRequestLine.text ++ headerText request.header ++ CRLF

/--
Every request without a body is decoded, however it is cut into chunks, if it has at most
2147483647 bytes.
-/
theorem plainRequest_decoded (version : HTTPVersion) (code : Int) (request : PlainRequest)
    {calls : List Call} {chunks : List Bytes} {rest : Bytes}
    (addressed : CallsAddress [] calls chunks) (split : chunks.flatten ++ rest = request.text) :
    Completes true version code calls rest
      (ReturnsRequest request.toRequestLine (headerEntries request.header) []) := by
  apply request_decoded version code request.toRequestLine request.tail addressed
  rw [split]
  simp [PlainRequest.text, PlainRequest.tail, MessageTail.text]

def sampleField : HeaderField where
  key := ascii "Host"
  spaces := 2
  value := ascii "a"
  keyFilled := by decide +kernel
  keyPlain := by decide +kernel
  valueFilled := by decide +kernel
  valuePlain := by decide +kernel
  valueStart := by decide +kernel

def sampleRequest : PlainRequest where
  method := .get
  path := ascii "/"
  query := [⟨ascii "k", [], by decide +kernel, by decide +kernel⟩,
    ⟨ascii "k", ascii "v", by decide +kernel, by decide +kernel⟩]
  version := .v1_1
  versionText := ascii "HTTP/1.1"
  header := [sampleField]
  pathFilled := by decide +kernel
  pathPlain := by decide +kernel
  versionKnown := rfl
  noLength := by decide +kernel

def sampleFirst : Bytes := sampleRequest.text.take 9
def sampleSecond : Bytes := sampleRequest.text.drop 9

/-- A request with a repeated key, whose second half arrives after the first half has moved. -/
theorem plainRequest_decoded_sample :
    Completes true .v1_0 0
      [Call.behind 0 [] sampleFirst [], Call.behind 7 sampleFirst sampleSecond []] []
      (ReturnsRequest sampleRequest.toRequestLine (headerEntries [sampleField]) []) := by
  have addressed : CallsAddress []
      [Call.behind 0 [] sampleFirst [], Call.behind 7 sampleFirst sampleSecond []]
      [sampleFirst, sampleSecond] :=
    ⟨Call.behind_addresses 0 [] sampleFirst [], Call.behind_addresses 7 sampleFirst _ [], trivial⟩
  exact plainRequest_decoded .v1_0 0 sampleRequest addressed
    (by simp [sampleFirst, sampleSecond])

end SimpleWebServer.Http
