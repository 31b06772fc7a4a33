import SimpleWebServer.Http.MessageViews

/-!
# Start lines

The header and the body are read in the same way behind every start line.  What they need
of it is that a new parser reads it and then stands in front of the header.
-/

namespace SimpleWebServer.Http

open SimpleWebServer.Base

/-- A start line takes a new parser to its header state, with nothing of the header recorded. -/
structure StartLine (isRequest : Bool) (version : HTTPVersion) (code : Int) where
  text : Bytes
  after : HTTPMessageParser
  reads : Reads [] (HTTPMessageParser.new isRequest version code).state
    (.new isRequest version code) text (.header {}) after
  sameMode : after.isRequest = isRequest
  noHeader : after.headerPos = ∅
  noLength : after.totalLen = 0
  noBody : after.bodyPos = (0, 0)

namespace StartLine

variable {isRequest : Bool} {version : HTTPVersion} {code : Int}

/-- A header and a body of the announced length behind a start line. -/
theorem reads_tail (start : StartLine isRequest version code) (tail : MessageTail) :
    Reads [] (HTTPMessageParser.new isRequest version code).state
      (.new isRequest version code) (start.text ++ tail.text)
      (.body { nowIdx := tail.body.length }) (start.after.readTail start.text.length tail) :=
  start.reads.trans (Http.reads_tail start.text start.after tail start.noBody start.noLength)

/-- The parser has taken the length that the header announces. -/
theorem readTail_totalLen (start : StartLine isRequest version code) (tail : MessageTail)
    (offset : Int) : (start.after.readTail offset tail).totalLen = tail.body.length := by
  change announcedLength tail.header start.after.totalLen = _
  rw [start.noLength, tail.announced]

end StartLine

/-- The start line of a request. -/
def RequestLine.startLine (line : RequestLine) (version : HTTPVersion) (code : Int) :
    StartLine true version code where
  text := line.text
  after := (HTTPMessageParser.new true version code).readRequestLine line
  reads := reads_requestLine version code line
  sameMode := rfl
  noHeader := rfl
  noLength := rfl
  noBody := rfl

/-- The start line of a response, with any reason phrase. -/
structure ResponseLine where
  version : HTTPVersion
  versionText : Bytes
  code : Int
  detail : Bytes
  versionKnown : getVersionStr version = .ok versionText
  codeKnown : (httpCodeMap.lookup code).isSome
  detailPlain : ∀ c ∈ detail, c ≠ CR ∧ c ≠ LF

namespace ResponseLine

/-- What stands in front of the reason phrase. -/
def front (line : ResponseLine) : Bytes :=
  line.versionText ++ [SP] ++ (ascii (toString line.code) ++ [SP])

def text (line : ResponseLine) : Bytes := line.front ++ (line.detail ++ CRLF)

/-- What a new parser has recorded behind the start line of a response. -/
def read (line : ResponseLine) (parser : HTTPMessageParser) : HTTPMessageParser :=
  { parser with
    version := line.version
    code := line.code
    detailPos := (line.front.length + 1, line.detail.length + 2) }

/-- The start line of a response, for a parser whose code does not happen to start as `-1`. -/
def startLine (line : ResponseLine) (version : HTTPVersion) {code : Int} (initial : code ≠ -1) :
    StartLine false version code where
  text := line.text
  after := line.read (.new false version code)
  reads := by
    have start := reads_response_version [] (.new false version code) line.versionKnown rfl
    have status := reads_code (line.versionText ++ [SP])
      { HTTPMessageParser.new false version code with version := line.version }
      line.codeKnown initial
    exact (start.trans status).trans
      (reads_detail _ _ fun c member => (line.detailPlain c member).1)
  sameMode := rfl
  noHeader := rfl
  noLength := rfl
  noBody := rfl

end ResponseLine

end SimpleWebServer.Http
