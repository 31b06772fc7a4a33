import SimpleWebServer.Http.HTTPServer2

/-!
# What a connection sends

The read loop leaves the received bytes unread in the buffer, and the writer's callback
hands over everything that is unread.  The first piece of an answer therefore goes out
behind the whole request.
-/

namespace SimpleWebServer.Http

open SimpleWebServer.Base

/-- Each `co_read` returns at most as many bytes as `push_from` offers room for. -/
def ReadsFit : Buffer → List ReadResult → Prop
  | _, [] => True
  | buf, result :: results =>
      result.bytes.length ≤ buf.offeredRoom ∧ ReadsFit (buf.pushFrom result).2 results

/-- The buffer during the read loop: nothing popped, nothing lost, no spare capacity. -/
structure Reading (received : Bytes) (buf : Buffer) : Prop where
  wf : buf.Wf
  start : buf.leftReadPtr = 0
  full : buf.buf.size = buf.buf.capacity
  peek : buf.peek = received

theorem reading_new : Reading [] .new :=
  ⟨Buffer.new_wf, rfl, by simp [Buffer.new, CharVector.ofSize, CharVector.capacity],
    Buffer.new_peek⟩

theorem Reading.carriedOver {received : Bytes} {buf : Buffer} (reading : Reading received buf) :
    buf.CarriedOver := by
  apply Buffer.carriedOver_of_le_size
  rw [reading.full]
  exact reading.wf.inside

/-- A read adds its bytes to the received ones. -/
theorem Reading.pushFrom {received : Bytes} {buf : Buffer} (reading : Reading received buf)
    {result : ReadResult} (fits : result.bytes.length ≤ buf.offeredRoom) :
    Reading (received ++ result.bytes) (buf.pushFrom result).2 := by
  have start : (buf.pushFrom result).2.leftReadPtr = 0 := by
    rw [Buffer.pushFrom_eq]
    change buf.makeRoom.leftReadPtr = 0
    unfold Buffer.makeRoom
    split <;> exact reading.start
  refine ⟨reading.wf.pushFrom fits, start, reading.wf.pushFrom_full reading.full fits, ?_⟩
  rw [(reading.wf.pushFrom_peek_iff fits).mpr fun _ => reading.carriedOver, reading.peek]

/-- The read loop has answered: it found a complete request or a malformed one. -/
def ReadEnd.Answered : ReadEnd → Prop
  | .waiting => False
  | .closed => False
  | .badRequest => True
  | .notFound _ => True
  | .found _ _ => True

/-- An answering loop has received at least one byte, and all of them are unread. -/
theorem readLoop_reading {paths : PathMap} {reads : List ReadResult} {buf : Buffer}
    {parser : HTTPMessageParser} {passed received : Bytes} {done : ReadResults}
    (reading : Reading received buf) (fits : ReadsFit buf reads)
    (ends : readLoop paths reads buf parser passed = .ok done) (answered : done.outcome.Answered) :
    ∃ all, Reading all done.buf ∧ all ≠ [] := by
  induction reads generalizing buf parser passed received with
  | nil =>
      cases ends
      exact answered.elim
  | cons result results ih =>
      obtain ⟨here, later⟩ := fits
      have next := reading.pushFrom here
      rw [readLoop] at ends
      simp only at ends
      split_ifs at ends with failed
      · cases ends
        exact answered.elim
      · have nonempty : received ++ result.bytes ≠ [] := by
          intro empty
          rw [List.append_eq_nil_iff] at empty
          unfold Buffer.pushFrom at failed
          cases result with
          | error errno => simp [ReadResult.count] at failed
          | data bytes =>
              rw [show bytes = [] from empty.2] at failed
              simp [ReadResult.count] at failed
        split at ends
        · cases ends
        · cases ends
          exact ⟨_, next, nonempty⟩
        · split_ifs at ends
          · split at ends
            · cases ends
            · cases ends
              exact ⟨_, next, nonempty⟩
          · exact ih next later ends

/-! ## The writer's callback -/

/-- Nothing is unread. -/
def Drained (buf : Buffer) : Prop := buf.leftReadPtr = buf.rightWritePtr

theorem Drained.peek {buf : Buffer} (drained : Drained buf) : buf.peek = [] := by
  unfold Buffer.peek
  rw [drained]
  exact CharVector.range_self _ _

theorem Drained.carriedOver {buf : Buffer} (drained : Drained buf) : buf.CarriedOver := by
  intro index below above
  have same := drained
  unfold Drained at same
  omega

section

variable {write : Nat → Bytes → WriteResult}
variable (accepts : ∀ call offered, write call offered = .wrote offered.length)
include accepts

/-- A piece is handed over behind everything that was unread. -/
theorem sendPiece_handed {sending : Sending} (wf : sending.buf.Wf)
    (carried : sending.buf.CarriedOver) (str : Bytes) :
    (sendPiece write sending str).handed = sending.handed ++ (sending.buf.peek ++ str) ∧
      (sendPiece write sending str).buf.Wf ∧ Drained (sendPiece write sending str).buf := by
  have pushed := (wf.push_peek_iff str).mpr fun _ => carried
  have pushedWf := wf.push str
  have length := pushedWf.peek_length
  have ordered := pushedWf.ordered
  refine ⟨?_, ?_, ?_⟩
  · change sending.handed ++ (sending.buf.push str).peek = _
    rw [pushed]
  · change ((sending.buf.push str).popTo (write sending.calls (sending.buf.push str).peek)).2.Wf
    rw [accepts]
    exact pushedWf.popTo length.le
  · change Drained
      ((sending.buf.push str).popTo (write sending.calls (sending.buf.push str).peek)).2
    rw [accepts, Buffer.popTo_eq]
    change (sending.buf.push str).leftReadPtr + (sending.buf.push str).peek.length =
      (sending.buf.push str).rightWritePtr
    rw [length, Buffer.getSize]
    omega

/-- From a drained buffer the pieces go out as they are. -/
theorem sendPieces_drained (pieces : List Bytes) {sending : Sending} (wf : sending.buf.Wf)
    (drained : Drained sending.buf) :
    (pieces.foldl (sendPiece write) sending).handed = sending.handed ++ pieces.flatten := by
  induction pieces generalizing sending with
  | nil => simp
  | cons piece pieces ih =>
      obtain ⟨handed, nextWf, nextDrained⟩ :=
        sendPiece_handed accepts wf drained.carriedOver piece
      rw [List.foldl_cons, ih nextWf nextDrained, handed, drained.peek, List.nil_append,
        List.append_assoc, List.flatten_cons]

/-- After a read loop the first piece takes the whole request with it. -/
theorem sendPieces_reading {received piece : Bytes} {pieces : List Bytes} {sending : Sending}
    (reading : Reading received sending.buf) :
    ((piece :: pieces).foldl (sendPiece write) sending).handed =
      sending.handed ++ (received ++ (piece :: pieces).flatten) := by
  obtain ⟨handed, nextWf, nextDrained⟩ :=
    sendPiece_handed accepts reading.wf reading.carriedOver piece
  rw [List.foldl_cons, sendPieces_drained accepts pieces nextWf nextDrained, handed,
    reading.peek, List.flatten_cons, List.append_assoc, List.append_assoc]

end

theorem writeResponse_cons {me : HTTPResponseMessage} {pieces : List Bytes}
    (written : HTTPMessageWriter.writeResponse me = .ok pieces) :
    ∃ piece rest, pieces = piece :: rest := by
  unfold HTTPMessageWriter.writeResponse at written
  cases version : getVersionStr me.version with
  | error fault =>
      rw [version] at written
      cases written
  | ok text =>
      rw [version] at written
      cases written
      exact ⟨_, _, rfl⟩

theorem writeErrorResponse_cons {code : Int} {pieces : List Bytes}
    (written : HTTPMessageWriter.writeErrorResponse code = .ok pieces) :
    ∃ piece rest, pieces = piece :: rest := by
  unfold HTTPMessageWriter.writeErrorResponse at written
  split_ifs at written
  exact writeResponse_cons written

/-- An answer has a start line. -/
theorem answer_cons {res : HTTPResponseMessage} {outcome : ReadEnd} {pieces : List Bytes}
    (answered : outcome.Answered) (emitted : answer res outcome = .ok pieces) :
    ∃ piece rest, pieces = piece :: rest := by
  cases outcome with
  | waiting => exact answered.elim
  | closed => exact answered.elim
  | badRequest => exact writeErrorResponse_cons emitted
  | notFound req => exact writeErrorResponse_cons emitted
  | found cb req => exact writeResponse_cons emitted

/-- A connection that answers hands over what it received, and behind it what the writer emits. -/
theorem handleConnection_handed {paths : PathMap} {reads : List ReadResult}
    (fits : ReadsFit .new reads) {write : Nat → Bytes → WriteResult}
    (accepts : ∀ call offered, write call offered = .wrote offered.length)
    {parser : HTTPMessageParser} {res : HTTPResponseMessage} {done : ReadResults}
    (ends : readLoop paths reads .new parser [] = .ok done) (answered : done.outcome.Answered)
    {pieces : List Bytes} (emitted : answer res done.outcome = .ok pieces) :
    ∃ sending received, handleConnection paths reads write parser res = .ok sending ∧
      received ≠ [] ∧ done.buf.peek = received ∧ sending.handed = received ++ pieces.flatten := by
  obtain ⟨received, reading, nonempty⟩ := readLoop_reading reading_new fits ends answered
  obtain ⟨piece, rest, rfl⟩ := answer_cons answered emitted
  let start : Sending := { buf := done.buf, code := done.outcome.code }
  refine ⟨(piece :: rest).foldl (sendPiece write) start, received, ?_, nonempty, reading.peek, ?_⟩
  · rw [handleConnection, ends]
    simp only
    rw [emitted]
    rfl
  · have startReading : Reading received start.buf := reading
    exact sendPieces_reading accepts startReading

/-- No answering connection hands over exactly the bytes its writer emits. -/
theorem handleConnection_never_exact {paths : PathMap} {reads : List ReadResult}
    (fits : ReadsFit .new reads) {write : Nat → Bytes → WriteResult}
    (accepts : ∀ call offered, write call offered = .wrote offered.length)
    {version : HTTPVersion} {code : Int} {res : HTTPResponseMessage} {done : ReadResults}
    (ends : readLoop paths reads .new (.new true version code) [] = .ok done)
    (answered : done.outcome.Answered) {pieces : List Bytes}
    (emitted : answer res done.outcome = .ok pieces) :
    ∃ sending, handleConnection paths reads write (.new true version code) res = .ok sending ∧
      sending.handed ≠ pieces.flatten := by
  obtain ⟨sending, received, handled, nonempty, -, handed⟩ :=
    handleConnection_handed fits accepts ends answered emitted
  refine ⟨sending, handled, ?_⟩
  rw [handed]
  intro same
  exact nonempty (List.append_left_eq_self.mp same)

theorem notFound_of_code {outcome : ReadEnd} (code : outcome.code = 404) :
    ∃ req, outcome = .notFound req := by
  cases outcome with
  | notFound req => exact ⟨req, rfl⟩
  | waiting => cases code
  | closed => cases code
  | badRequest => cases code
  | found cb req => cases code

def plainRequest : Bytes := ascii "GET / HTTP/1.0\r\n\r\n"

theorem plainRequest_fits : ReadsFit .new [.data plainRequest] := by
  refine ⟨?_, trivial⟩
  decide +kernel

/-- A server without any path answers a plain request with 404. -/
theorem plainRequest_notFound :
    ∃ done req, readLoop ∅ [.data plainRequest] .new (.new true .v1_0 0) [] = .ok done ∧
      done.outcome = .notFound req := by
  have code : (readLoop ∅ [.data plainRequest] .new (.new true .v1_0 0) []).toOption.map
      (fun done => done.outcome.code) = some 404 := by
    decide +kernel
  cases ends : readLoop ∅ [.data plainRequest] .new (.new true .v1_0 0) [] with
  | error fault =>
      rw [ends] at code
      cases code
  | ok done =>
      rw [ends] at code
      obtain ⟨req, outcome⟩ := notFound_of_code (Option.some.inj code)
      exact ⟨done, req, rfl, outcome⟩

def emptyResponse : HTTPResponseMessage := ⟨.v1_0, 200, [], ∅, []⟩

/-- The 404 answer to a plain request is not what the writer emits. -/
theorem handleConnection_never_exact_notFound :
    ∃ pieces sending, HTTPMessageWriter.writeErrorResponse 404 = .ok pieces ∧
      handleConnection ∅ [.data plainRequest] (fun _ offered => .wrote offered.length)
        (.new true .v1_0 0) emptyResponse = .ok sending ∧ sending.handed ≠ pieces.flatten := by
  obtain ⟨done, req, ends, outcome⟩ := plainRequest_notFound
  obtain ⟨pieces, emitted⟩ : ∃ pieces, HTTPMessageWriter.writeErrorResponse 404 = .ok pieces :=
    ⟨_, rfl⟩
  have answered : answer emptyResponse done.outcome = .ok pieces := by
    rw [outcome]
    exact emitted
  obtain ⟨sending, handled, differs⟩ := handleConnection_never_exact plainRequest_fits
    (fun _ _ => rfl) ends (by rw [outcome]; trivial) answered
  exact ⟨pieces, sending, emitted, handled, differs⟩

/-- The answer to a plain request starts with the request itself. -/
theorem answer_carries_request :
    ¬ ∀ (paths : PathMap) (reads : List ReadResult) (write : Nat → Bytes → WriteResult)
        (version : HTTPVersion) (code : Int) (res : HTTPResponseMessage) (done : ReadResults)
        (pieces : List Bytes) (sending : Sending),
      ReadsFit .new reads → (∀ call offered, write call offered = .wrote offered.length) →
      readLoop paths reads .new (.new true version code) [] = .ok done → done.outcome.Answered →
      answer res done.outcome = .ok pieces →
      handleConnection paths reads write (.new true version code) res = .ok sending →
      sending.handed = pieces.flatten := by
  intro exact_output
  obtain ⟨done, req, ends, outcome⟩ := plainRequest_notFound
  have answered : done.outcome.Answered := by rw [outcome]; trivial
  obtain ⟨pieces, emitted⟩ : ∃ pieces, answer emptyResponse done.outcome = .ok pieces := by
    rw [outcome]
    exact ⟨_, rfl⟩
  obtain ⟨sending, received, handled, nonempty, -, handed⟩ :=
    handleConnection_handed plainRequest_fits (fun _ _ => rfl) ends answered emitted
  have same := exact_output ∅ _ _ _ _ _ _ _ _ plainRequest_fits (fun _ _ => rfl) ends answered
    emitted handled
  rw [handed] at same
  exact nonempty (List.append_left_eq_self.mp same)

end SimpleWebServer.Http
