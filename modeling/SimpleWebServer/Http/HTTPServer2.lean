import SimpleWebServer.Base.BufferFifo
import SimpleWebServer.Http.HTTPMessageWriter

/-!
# The connection handler of `HTTPServer2`

The coroutine of a connection reads into a `Buffer` until its parser has a complete
request, and then writes its answer through the same `Buffer`.  `co_read` and `co_write`
are seen through their results.  The vector starts at address `0`; what lies outside it
cannot be read.
-/

namespace SimpleWebServer.Http

open SimpleWebServer.Base

/-- The memory a pointer into the buffer can reach. -/
def bufferMemory (buf : Buffer) : Memory := Memory.ofBytes 0 buf.buf.storage

/-- `HTTPCallback`: it fills the response it is handed. -/
abbrev HTTPCallback := HTTPRequestMessage → HTTPResponseMessage → HTTPResponseMessage

/-- `path_cb_map` -/
abbrev PathMap := AList fun _ : Bytes => HTTPCallback

/-- How the read loop of a connection ends. -/
inductive ReadEnd where
  /-- no further `co_read` has returned yet -/
  | waiting
  /-- `code = -1` -/
  | closed
  /-- `code = 400` -/
  | badRequest
  /-- `code = 404` -/
  | notFound (req : HTTPRequestMessage)
  /-- `code = 200`, with the callback of the path -/
  | found (cb : HTTPCallback) (req : HTTPRequestMessage)

/-- The end of the read loop, the buffer it leaves, and the bytes it passed to the parser. -/
structure ReadResults where
  outcome : ReadEnd
  buf : Buffer
  passed : Bytes

/-- The answer to a complete request: the callback bound to its path, if there is one. -/
def findPath (paths : PathMap) (req : HTTPRequestMessage) : ReadEnd :=
  match paths.lookup req.path with
  | none => .notFound req
  | some cb => .found cb req

/-- The bytes `parser_message(str, len)` is given. -/
def passedBytes (memory : Memory) (str : Int) (len : Nat) : Bytes :=
  (memory.read str len).getD []

/-- The `while (true)` loop over the results of successive `co_read` calls. -/
def readLoop (paths : PathMap) :
    List ReadResult → Buffer → HTTPMessageParser → Bytes → Except Fault ReadResults
  | [], buf, _, passed => .ok ⟨.waiting, buf, passed⟩
  | result :: results, buf, parser, passed =>
      let (r, buf) := buf.pushFrom result
      if r ≤ 0 then .ok ⟨.closed, buf, passed⟩
      else
        let memory := bufferMemory buf
        let str : Int := buf.leftReadPtr
        let passed := passed ++ passedBytes memory str r.toNat
        match parser.parserMessage memory str r.toNat with
        | .error fault => .error fault
        | .ok (false, _) => .ok ⟨.badRequest, buf, passed⟩
        | .ok (true, parser) =>
            if parser.isCompleted = true then
              match parser.getRequestMessage memory with
              | .error fault => .error fault
              | .ok req => .ok ⟨findPath paths req, buf, passed⟩
            else readLoop paths results buf parser passed

/--
What the writer's callback changes: the buffer, `code`, and the bytes handed to `co_write`
in how many calls.
-/
structure Sending where
  buf : Buffer
  code : Int
  handed : Bytes := []
  calls : Nat := 0

/-- The writer's callback; `write` is the answer of each `co_write` to what it is offered. -/
def sendPiece (write : Nat → Bytes → WriteResult) (sending : Sending) (str : Bytes) : Sending :=
  let buf := sending.buf.push str
  let offered := buf.peek
  let (n, buf) := buf.popTo (write sending.calls offered)
  { buf := buf
    code := if n < 0 then -1 else sending.code
    handed := sending.handed ++ offered
    calls := sending.calls + 1 }

/-- The pieces a connection writes, given how its read loop ended. -/
def answer (res : HTTPResponseMessage) : ReadEnd → Except Fault (List Bytes)
  | .waiting => .ok []
  | .closed => .ok []
  | .badRequest => HTTPMessageWriter.writeErrorResponse 400
  | .notFound _ => HTTPMessageWriter.writeErrorResponse 404
  | .found cb req => HTTPMessageWriter.writeResponse (cb req res)

/-- `code` behind the read loop. -/
def ReadEnd.code : ReadEnd → Int
  | .waiting => 200
  | .closed => -1
  | .badRequest => 400
  | .notFound _ => 404
  | .found _ _ => 200

/--
The whole handler up to `co_close`.  `parser` is the new parser and `res` the
default-constructed response, both with whatever their uninitialised members hold.
-/
def handleConnection (paths : PathMap) (reads : List ReadResult)
    (write : Nat → Bytes → WriteResult) (parser : HTTPMessageParser)
    (res : HTTPResponseMessage) : Except Fault Sending :=
  match readLoop paths reads .new parser [] with
  | .error fault => .error fault
  | .ok done =>
      (answer res done.outcome).map fun pieces =>
        pieces.foldl (sendPiece write) { buf := done.buf, code := done.outcome.code }

end SimpleWebServer.Http
