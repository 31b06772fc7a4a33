import SimpleWebServer.Http.HTTPMessageParser

/-!
# The HTTP message writer

`HTTPMessageWriter` hands a message to its callback in pieces: the start line, all header
lines together, and for a non-empty body the separator and the body.  A message is
therefore written as the list of these pieces.  The order of the header lines is that of
the map.
-/

namespace SimpleWebServer.Http

open SimpleWebServer.Base

def CRLF : Bytes := [CR, LF]

/-- `get_version_str`: its table has three entries, and its assertion admits index three. -/
def getVersionStr : HTTPVersion → Except Fault Bytes
  | .v0_9 => .ok (ascii "HTTP/0.9")
  | .v1_0 => .ok (ascii "HTTP/1.0")
  | .v1_1 => .ok (ascii "HTTP/1.1")
  | .v2 => .error .wildRead
  | .v3 => .error .assertion

/-- `http_code_map[code]`; a code that is not in the map gets an empty text. -/
def codeText (code : Int) : Bytes := (httpCodeMap.lookup code).getD []

namespace HTTPMessageWriter

/-- `key: value` and the line end. -/
def headerLine (entry : Sigma fun _ : Bytes => Bytes) : Bytes :=
  entry.1 ++ [colon, SP] ++ entry.2 ++ CRLF

/-- `write_header_body`: the pieces behind the start line. -/
def writeHeaderBody (header : ViewMap) (body : Bytes) : List Bytes :=
  let headerStr := (header.entries.map headerLine).flatten
  if body.length ≠ 0 then [headerStr, CRLF, body] else [headerStr]

/-- `key=value` and the separator. -/
def queryPair (entry : Sigma fun _ : Bytes => Bytes) : Bytes :=
  entry.1 ++ [equalSign] ++ entry.2 ++ [ampersand]

/-- `write_message(HTTPRequestMessage&)`; the last `&` of the query becomes the space. -/
def writeRequest (me : HTTPRequestMessage) : Except Fault (List Bytes) :=
  (getVersionStr me.version).map fun version =>
    let query :=
      if me.query.entries.length ≠ 0 then
        [question] ++ (me.query.entries.map queryPair).flatten.dropLast ++ [SP]
      else [SP]
    (getMethodStr me.method ++ [SP] ++ me.path ++ query ++ version ++ CRLF) ::
      writeHeaderBody me.header me.body

/-- `write_message(HTTPResponseMessage&)` -/
def writeResponse (me : HTTPResponseMessage) : Except Fault (List Bytes) :=
  (getVersionStr me.version).map fun version =>
    (version ++ [SP] ++ ascii (toString me.code) ++ [SP] ++ codeText me.code ++ CRLF) ::
      writeHeaderBody me.header me.body

/-- `write_error_response_message` -/
def writeErrorResponse (code : Int) : Except Fault (List Bytes) :=
  if code = 400 ∨ code = 404 then
    writeResponse {
      version := .v1_0
      code := code
      detail := codeText code
      header := (∅ : ViewMap).insert (ascii "User-Agent") (ascii "simple server")
      body := [] }
  else .error .assertm

end HTTPMessageWriter

end SimpleWebServer.Http
