import SimpleWebServer.Http.ParserChunks
import SimpleWebServer.Http.RequestPath
import SimpleWebServer.Http.ServerOutput
import Mathlib.Tactic.IntervalCases

/-!
# Requests that arrive in segments

The read loop passes the parser the start of the buffer, not the start of the new bytes.
With the first segment the two are the same.  From the second segment on the parser reads
the beginning of the request again, and it looks for its slices in front of the buffer.
-/

namespace SimpleWebServer.Http

open SimpleWebServer.Base

/-! ## The request at once -/

/-- The bytes are one complete request: read at once they are accepted up to the last one. -/
def CompleteRequest (version : HTTPVersion) (code : Int) (request : Bytes) : Prop :=
  ∃ parser, consume [] request (.new true version code) = .ok (true, parser) ∧
    parser.isCompleted = true

/-- How the read loop ends when the whole request is passed to the parser at once. -/
def outcomeOf (paths : PathMap) (version : HTTPVersion) (code : Int) (request : Bytes) :
    Except Fault ReadEnd :=
  let memory := Memory.ofBytes 0 request
  match (HTTPMessageParser.new true version code).parserMessage memory 0 request.length with
  | .error fault => .error fault
  | .ok (false, _) => .ok .badRequest
  | .ok (true, parser) =>
      if parser.isCompleted = true then (parser.getRequestMessage memory).map (findPath paths)
      else .ok .waiting

/-- The read loop has found a complete request. -/
def ReadEnd.Complete : ReadEnd → Prop
  | .notFound _ => True
  | .found _ _ => True
  | _ => False

theorem findPath_complete (paths : PathMap) (req : HTTPRequestMessage) :
    (findPath paths req).Complete := by
  unfold findPath
  split <;> trivial

namespace HTTPMessageParser

theorem viewAll_isOk {memory : Memory} {parser : HTTPMessageParser} {positions : SliceMap}
    (views : ∀ entry ∈ positions.entries, ∃ bytes, parser.view memory entry.2 = .ok bytes) :
    ∃ shown, parser.viewAll memory positions = .ok shown := by
  unfold viewAll
  generalize (∅ : ViewMap) = shown
  revert views
  induction positions.entries generalizing shown with
  | nil =>
      intro _
      exact ⟨shown, rfl⟩
  | cons entry rest ih =>
      intro views
      obtain ⟨bytes, here⟩ := views entry List.mem_cons_self
      rw [List.foldlM_cons, here]
      exact ih _ fun later member => views later (List.mem_cons_of_mem _ member)

/-- A complete request can be read out of memory that holds its bytes. -/
theorem getRequestMessage_isOk {memory : Memory} {parser : HTTPMessageParser} {bytes : Bytes}
    (sound : parser.Sound) (known : parser.nowLen = bytes.length)
    (holds : memory.Holds parser.beginPtr bytes) (request : parser.isRequest = true)
    (completed : parser.isCompleted = true) :
    ∃ req, parser.getRequestMessage memory = .ok req := by
  have slices := sound.slices
  rw [known] at slices
  obtain ⟨query, queries⟩ := viewAll_isOk fun entry member =>
    ⟨_, view_eq holds (slices.query entry member)⟩
  obtain ⟨header, headers⟩ := viewAll_isOk fun entry member =>
    ⟨_, view_eq holds (slices.header entry member)⟩
  unfold getRequestMessage
  rw [request, completed, view_eq holds slices.path, view_eq holds slices.body, queries, headers]
  exact ⟨_, rfl⟩

/-- A message can only be read out when its path can. -/
theorem getRequestMessage_path {memory : Memory} {parser : HTTPMessageParser}
    {req : HTTPRequestMessage} (taken : parser.getRequestMessage memory = .ok req) :
    ∃ bytes, parser.view memory parser.pathPos = .ok bytes := by
  unfold getRequestMessage at taken
  split_ifs at taken
  · cases path : parser.view memory parser.pathPos with
    | error fault =>
        rw [path] at taken
        cases taken
    | ok bytes => exact ⟨bytes, rfl⟩

end HTTPMessageParser

theorem consume_isRequest {consumed bytes : Bytes} {parser after : HTTPMessageParser}
    (run : consume consumed bytes parser = .ok (true, after)) :
    after.isRequest = parser.isRequest := by
  induction bytes generalizing consumed parser with
  | nil =>
      cases run
      rfl
  | cons c rest ih =>
      rw [consume] at run
      cases taken : parser.matchChar (sliceOf (consumed ++ [c])) c with
      | error fault => simp [taken] at run
      | ok middle =>
          simp only [taken] at run
          split_ifs at run
          · cases run
          · rw [ih run, middle.enterNext_sameInput.isRequest]
            exact (State.matchStep_sameInput taken).isRequest

/-- The call that passes a complete request at once, in any memory that holds it. -/
theorem CompleteRequest.parserMessage {version : HTTPVersion} {code : Int} {request : Bytes}
    (complete : CompleteRequest version code request) :
    ∃ parser req, parser.isCompleted = true ∧
      ∀ memory : Memory, memory.Holds 0 request →
        (HTTPMessageParser.new true version code).parserMessage memory 0 request.length =
          .ok (true, parser) ∧ parser.getRequestMessage memory = .ok req := by
  obtain ⟨parser, run, completed⟩ := complete
  have sound : (parser.rebase 0).Sound := ((new_sound true version code).consume run).moved rfl
  have known : (parser.rebase 0).nowLen = request.length := by
    rw [HTTPMessageParser.rebase_nowLen, consume_nowLen run]
    simp [HTTPMessageParser.new]
  have mode : (parser.rebase 0).isRequest = true := consume_isRequest run
  obtain ⟨req, taken⟩ := HTTPMessageParser.getRequestMessage_isOk sound known
    (Memory.holds_ofBytes 0 request) mode completed
  refine ⟨parser.rebase 0, req, completed, fun memory holds => ⟨?_, ?_⟩⟩
  · have called := @HTTPMessageParser.parserMessage_eq memory 0 [] request
      (by rwa [List.nil_append]) (.new true version code) rfl rfl (by rw [run]; simp)
    rwa [run, List.length_nil, Nat.cast_zero, Int.add_zero] at called
  · rw [← taken]
    exact (HTTPMessageParser.getMessage_eq sound known rfl holds
      (Memory.holds_ofBytes 0 request)).1

/-! ## The read loop -/

theorem Reading.holds {received : Bytes} {buf : Buffer} (reading : Reading received buf) :
    (bufferMemory buf).Holds 0 received := by
  have whole := Memory.holds_ofBytes 0 buf.buf.storage
  have shown := reading.peek
  unfold Buffer.peek CharVector.range at shown
  rw [reading.start, List.drop_zero] at shown
  rw [← List.take_append_drop buf.rightWritePtr buf.buf.storage] at whole
  have front := ((Memory.holds_append_iff _ _ _ _).mp whole).1
  rw [← shown]
  rwa [List.take_append_drop] at front

section

variable {received segment : Bytes} {next : Buffer} (reading : Reading (received ++ segment) next)
include reading

/-- The bytes at the start of the buffer, as many as have just been read. -/
theorem Reading.piece_holds :
    (bufferMemory next).Holds 0 ((received ++ segment).take segment.length) := by
  have whole := reading.holds
  rw [← List.take_append_drop segment.length (received ++ segment)] at whole
  exact ((Memory.holds_append_iff _ _ _ _).mp whole).1

omit reading in
theorem piece_length (received segment : Bytes) :
    ((received ++ segment).take segment.length).length = segment.length := by
  rw [List.length_take, List.length_append]
  omega

theorem Reading.passedBytes_eq :
    passedBytes (bufferMemory next) 0 segment.length =
      (received ++ segment).take segment.length := by
  have read := Memory.read_of_holds reading.piece_holds
  rw [piece_length] at read
  rw [passedBytes, read]
  rfl

/-- One iteration of the loop: the parser is passed the first bytes of the buffer. -/
theorem readLoop_segment {paths : PathMap} {results : List ReadResult} {buf : Buffer}
    {parser : HTTPMessageParser} {passed : Bytes} (nonempty : segment ≠ [])
    (pushed : buf.pushFrom (.data segment) = ((segment.length : Int), next)) :
    readLoop paths (.data segment :: results) buf parser passed =
      match parser.parserMessage (bufferMemory next) 0 segment.length with
      | .error fault => .error fault
      | .ok (false, _) =>
          .ok ⟨.badRequest, next, passed ++ (received ++ segment).take segment.length⟩
      | .ok (true, after) =>
          if after.isCompleted = true then
            match after.getRequestMessage (bufferMemory next) with
            | .error fault => .error fault
            | .ok req =>
                .ok ⟨findPath paths req, next, passed ++ (received ++ segment).take segment.length⟩
          else
            readLoop paths results next after
              (passed ++ (received ++ segment).take segment.length) := by
  have positive : 0 < segment.length := List.length_pos_iff.mpr nonempty
  have start := reading.start
  rw [readLoop]
  simp only [pushed, start, Int.toNat_natCast, Nat.cast_zero, reading.passedBytes_eq]
  exact if_neg (by omega)

end

theorem pushFrom_data (buf : Buffer) {segment : Bytes} (nonempty : segment ≠ []) :
    buf.pushFrom (.data segment) = ((segment.length : Int), (buf.pushFrom (.data segment)).2) := by
  have positive : 0 < segment.length := List.length_pos_iff.mpr nonempty
  unfold Buffer.pushFrom
  simp [ReadResult.count, positive]

/--
A loop that ends complete: `pieces` are the bytes it passed for the segments before `last`,
and what it passes for `last` are the first bytes of everything received.
-/
structure LoopRun (received : Bytes) (segs : List Bytes) (parser : HTTPMessageParser)
    (passed : Bytes) (done : ReadResults) (earlier : List Bytes) (last : Bytes)
    (unused : List Bytes) (pieces : Bytes) (after : HTTPMessageParser) : Prop where
  segments : segs = earlier ++ last :: unused
  passedBytes : done.passed =
    passed ++ (pieces ++ (received ++ (earlier.flatten ++ last)).take last.length)
  lengths : pieces.length = earlier.flatten.length
  read : CharRun parser (pieces ++ (received ++ (earlier.flatten ++ last)).take last.length) after
  completed : after.isCompleted = true
  begins : after.beginPtr = -(parser.nowLen + pieces.length)
  shown : ∃ path, after.view (bufferMemory done.buf) after.pathPos = .ok path

theorem readLoop_run {paths : PathMap} {segs : List Bytes} {buf : Buffer}
    {parser : HTTPMessageParser} {passed received : Bytes} {done : ReadResults}
    (reading : Reading received buf) (filled : ∀ segment ∈ segs, segment ≠ [])
    (fits : ReadsFit buf (segs.map .data))
    (ends : readLoop paths (segs.map .data) buf parser passed = .ok done)
    (complete : done.outcome.Complete) :
    ∃ earlier last unused pieces after,
      LoopRun received segs parser passed done earlier last unused pieces after := by
  induction segs generalizing buf parser passed received with
  | nil =>
      cases ends
      exact complete.elim
  | cons segment rest ih =>
      obtain ⟨here, later⟩ := fits
      have nonempty := filled segment List.mem_cons_self
      have next : Reading (received ++ segment) (buf.pushFrom (.data segment)).2 :=
        reading.pushFrom here
      rw [List.map_cons, readLoop_segment next nonempty (pushFrom_data buf nonempty)] at ends
      cases called : parser.parserMessage (bufferMemory (buf.pushFrom (.data segment)).2) 0
          segment.length with
      | error fault => simp [called] at ends
      | ok result =>
          obtain ⟨verdict, after⟩ := result
          cases verdict with
          | false =>
              simp only [called] at ends
              cases ends
              exact complete.elim
          | true =>
              have run : CharRun parser ((received ++ segment).take segment.length) after := by
                refine charRun_of_parserMessage ?_ next.piece_holds
                  (by rw [piece_length]; exact called)
                intro empty
                have length := piece_length received segment
                rw [empty] at length
                exact nonempty (List.length_eq_zero_iff.mp length.symm)
              obtain ⟨afterLen, afterBegin⟩ := HTTPMessageParser.parserMessageWith_position called
              simp only [called] at ends
              by_cases completed : after.isCompleted = true
              · rw [if_pos completed] at ends
                cases taken : after.getRequestMessage
                    (bufferMemory (buf.pushFrom (.data segment)).2) with
                | error fault => simp [taken] at ends
                | ok req =>
                    simp only [taken] at ends
                    cases ends
                    exact ⟨[], segment, rest, [], after, {
                      segments := rfl
                      passedBytes := by simp
                      lengths := rfl
                      read := by simpa using run
                      completed := completed
                      begins := by rw [afterBegin]; simp
                      shown := HTTPMessageParser.getRequestMessage_path taken }⟩
              · rw [if_neg completed] at ends
                obtain ⟨earlier, last, unused, pieces, final, loop⟩ := ih next
                  (fun other member => filled other (List.mem_cons_of_mem _ member)) later ends
                have bytes : received ++ ((segment :: earlier).flatten ++ last) =
                    received ++ segment ++ (earlier.flatten ++ last) := by
                  simp
                refine ⟨segment :: earlier, last, unused,
                  (received ++ segment).take segment.length ++ pieces, final, {
                  segments := by rw [loop.segments]; rfl
                  passedBytes := by rw [loop.passedBytes, bytes]; simp
                  lengths := by
                    rw [List.length_append, piece_length, loop.lengths]
                    simp
                  read := by
                    rw [bytes, List.append_assoc]
                    exact run.append loop.read
                  completed := loop.completed
                  begins := by
                    rw [loop.begins, afterLen, List.length_append, piece_length]
                    push_cast
                    omega
                  shown := loop.shown }⟩

/-! ## Which segmentations the handler survives -/

/-- The loop passes exactly the request, and it ends as it does for the request at once. -/
def SegmentsExact (paths : PathMap) (version : HTTPVersion) (code : Int) (request : Bytes)
    (segs : List Bytes) : Prop :=
  ∃ done, readLoop paths (segs.map .data) .new (.new true version code) [] = .ok done ∧
    done.passed = request ∧ outcomeOf paths version code request = .ok done.outcome

/-- A complete request in one segment is passed and answered as it should be. -/
theorem segmentsExact_single (paths : PathMap) {version : HTTPVersion} {code : Int}
    {request : Bytes} (complete : CompleteRequest version code request) (nonempty : request ≠ [])
    (fits : ReadsFit .new [.data request]) :
    SegmentsExact paths version code request [request] := by
  have reading : Reading ([] ++ request) (Buffer.new.pushFrom (.data request)).2 :=
    reading_new.pushFrom fits.1
  obtain ⟨parser, req, completed, calls⟩ := complete.parserMessage
  have here := calls _ reading.holds
  have atOnce := calls _ (Memory.holds_ofBytes 0 request)
  have ended := @readLoop_segment _ _ _ reading paths [] _ (.new true version code) [] nonempty
    (pushFrom_data _ nonempty)
  rw [here.1] at ended
  simp only [completed, if_true, here.2] at ended
  refine ⟨_, ended, by simp, ?_⟩
  rw [outcomeOf]
  simp only [atOnce.1, completed, if_true, atOnce.2]
  rfl

/-- A path can only be shown when its offset is not in front of the buffer. -/
theorem le_pathPos_of_view {buf : Buffer} {parser : HTTPMessageParser} {path : Bytes}
    (shown : parser.view (bufferMemory buf) parser.pathPos = .ok path)
    (nonempty : 1 ≤ parser.pathPos.2) : 0 ≤ parser.beginPtr + parser.pathPos.1 := by
  unfold HTTPMessageParser.view at shown
  rw [if_neg (by omega)] at shown
  cases read : (bufferMemory buf).read (parser.beginPtr + parser.pathPos.1)
      parser.pathPos.2.toNat with
  | none => simp [read] at shown
  | some bytes =>
      have first := Memory.read_isSome read (show 0 < parser.pathPos.2.toNat by omega)
      rw [Nat.cast_zero, Int.add_zero, bufferMemory, Memory.ofBytes] at first
      split_ifs at first with inside
      · exact inside
      · cases first

/-- A request that repeats its beginning behind `count` bytes repeats it behind the method. -/
theorem method_lt_of_repeated {method : HTTPMethod} {target pieces rest : Bytes}
    (repeated : getMethodStr method ++ SP :: target = pieces ++ rest) (started : pieces ≠ [])
    (again : rest <+: getMethodStr method ++ SP :: target) (nonempty : rest ≠ []) :
    (getMethodStr method).length < pieces.length := by
  obtain ⟨more, whole⟩ := again
  obtain ⟨c, rest, rfl⟩ := List.exists_cons_of_ne_nil nonempty
  have first := congrArg List.head? whole
  by_contra short
  have here := congrArg (·[pieces.length]?) repeated
  simp only [List.getElem?_append_right (Nat.le_refl _), Nat.sub_self,
    List.getElem?_cons_zero] at here
  have positive : pieces.length ≠ 0 := fun empty => started (List.length_eq_zero_iff.mp empty)
  generalize pieces.length = count at here short positive
  cases method with
  | get =>
      have below : count ≤ 3 := Nat.le_of_not_lt short
      interval_cases count <;> simp [getMethodStr, ascii, SP] at here first positive <;>
        simp [← here] at first
  | post =>
      have below : count ≤ 4 := Nat.le_of_not_lt short
      interval_cases count <;> simp [getMethodStr, ascii, SP] at here first positive <;>
        simp [← here] at first

section

variable {segs earlier unused : List Bytes} {parser after : HTTPMessageParser} {done : ReadResults}
  {last pieces : Bytes} (loop : LoopRun [] segs parser [] done earlier last unused pieces after)
  (filled : ∀ segment ∈ segs, segment ≠ [])
include loop filled

/-- A loop that passes as many bytes as it is sent has read every segment. -/
theorem LoopRun.allRead (passed : done.passed = segs.flatten) : unused = [] := by
  have lengths := congrArg List.length passed
  have pieceLength := piece_length earlier.flatten last
  rw [loop.passedBytes, loop.segments, List.flatten_append, List.flatten_cons] at lengths
  simp only [List.nil_append, List.length_append, pieceLength, loop.lengths] at lengths
  cases unused with
  | nil => rfl
  | cons other unused =>
      have positive := List.length_pos_iff.mpr (filled other (by rw [loop.segments]; simp))
      simp only [List.flatten_cons, List.length_append] at lengths
      omega

/-- Of two segments the first one has been passed before the last. -/
theorem LoopRun.pieces_ne_nil (allRead : unused = []) (several : 2 ≤ segs.length) :
    pieces ≠ [] := by
  rintro rfl
  have zero := loop.lengths
  cases earlier with
  | nil =>
      rw [loop.segments, allRead] at several
      simp at several
  | cons first earlier =>
      have positive := List.length_pos_iff.mpr (filled first (by rw [loop.segments]; simp))
      simp only [List.flatten_cons, List.length_append, List.length_nil] at zero
      omega

end

/-- Passing the request over more than one segment never ends as it should. -/
theorem not_segmentsExact_of_two {paths : PathMap} {version : HTTPVersion} {code : Int}
    {request : Bytes} (complete : CompleteRequest version code request) {segs : List Bytes}
    (filled : ∀ segment ∈ segs, segment ≠ []) (cut : segs.flatten = request)
    (fits : ReadsFit .new (segs.map .data)) (several : 2 ≤ segs.length) :
    ¬ SegmentsExact paths version code request segs := by
  rintro ⟨done, ends, passed, atOnce⟩
  obtain ⟨reference, req, completed, calls⟩ := complete.parserMessage
  have whole := calls _ (Memory.holds_ofBytes 0 request)
  have outcome : done.outcome.Complete := by
    rw [outcomeOf] at atOnce
    simp only [whole.1, completed, if_true, whole.2] at atOnce
    rw [← Except.ok.inj atOnce]
    exact findPath_complete paths req
  obtain ⟨earlier, last, unused, pieces, after, loop⟩ :=
    readLoop_run reading_new filled fits ends outcome
  have allRead := loop.allRead filled (passed.trans cut.symm)
  have bytes := loop.passedBytes
  have read := loop.read
  rw [passed, List.nil_append, List.nil_append] at bytes
  rw [List.nil_append, ← bytes] at read
  have nonempty : (earlier.flatten ++ last).take last.length ≠ [] := by
    intro empty
    have pieceLength := piece_length earlier.flatten last
    rw [empty] at pieceLength
    exact filled last (by rw [loop.segments]; simp) (List.length_eq_zero_iff.mp pieceLength.symm)
  -- the last call has been passed the beginning of the request again
  have again : (earlier.flatten ++ last).take last.length <+: request := by
    rw [loop.segments, allRead, List.flatten_append, List.flatten_singleton] at cut
    rw [← cut]
    exact List.take_prefix _ _
  obtain ⟨method, target, split, place, length⟩ := read.complete loop.completed
  obtain ⟨path, shown⟩ := loop.shown
  have address := le_pathPos_of_view shown length
  rw [loop.begins] at address
  rw [split] at bytes again
  have behind :=
    method_lt_of_repeated bytes (loop.pieces_ne_nil filled allRead several) again nonempty
  have start : pieces.length = (getMethodStr method).length + 1 := by
    simp only [HTTPMessageParser.new] at address
    omega
  have rest : target = (earlier.flatten ++ last).take last.length := by
    rw [← List.singleton_append, ← List.append_assoc] at bytes
    exact (List.append_inj bytes (by simp [start])).2
  rw [split] at read
  rw [← rest] at again
  exact read.target_not_repeated loop.completed again

/-- A complete request is passed and answered as it should be exactly in one segment. -/
theorem segmentsExact_iff (paths : PathMap) {version : HTTPVersion} {code : Int}
    {request : Bytes} (complete : CompleteRequest version code request) {segs : List Bytes}
    (some : ∀ segment ∈ segs, segment ≠ []) (cut : segs.flatten = request)
    (fits : ReadsFit .new (segs.map .data)) :
    SegmentsExact paths version code request segs ↔ segs.length = 1 := by
  constructor
  · intro wanted
    have atMost : ¬ 2 ≤ segs.length := fun several =>
      not_segmentsExact_of_two complete some cut fits several wanted
    cases segs with
    | nil =>
        obtain ⟨parser, run, completed⟩ := complete
        rw [← cut] at run
        cases run
        cases completed
    | cons segment rest =>
        rw [List.length_cons] at atMost ⊢
        omega
  · intro single
    obtain ⟨segment, rfl⟩ := List.length_eq_one_iff.mp single
    rw [List.flatten_singleton] at cut
    subst cut
    exact segmentsExact_single paths complete (some _ List.mem_cons_self) fits

theorem plainRequest_complete : CompleteRequest .v1_0 0 plainRequest := by
  have accepted : ((consume [] plainRequest (.new true .v1_0 0)).toOption.map
      fun result => (result.1, result.2.isCompleted)) = .some (true, true) := by
    decide +kernel
  cases run : consume [] plainRequest (.new true .v1_0 0) with
  | error fault =>
      rw [run] at accepted
      cases accepted
  | ok result =>
      rw [run] at accepted
      obtain ⟨verdict, parser⟩ := result
      obtain ⟨rfl, completed⟩ := Prod.mk.inj (Option.some.inj accepted)
      exact ⟨parser, run, completed⟩

/-- The plain request cut within its version. -/
def cutRequest : List Bytes := [ascii "GET / HTTP", ascii "/1.0\r\n\r\n"]

theorem cutRequest_some : ∀ segment ∈ cutRequest, segment ≠ [] := by
  decide

theorem cutRequest_flatten : cutRequest.flatten = plainRequest := by
  decide

theorem cutRequest_fits : ReadsFit .new (cutRequest.map .data) := by
  refine ⟨?_, ?_, trivial⟩
  · decide +kernel
  · decide +kernel

theorem segmentsExact_iff_cutRequest :
    SegmentsExact ∅ .v1_0 0 plainRequest cutRequest ↔ cutRequest.length = 1 :=
  segmentsExact_iff ∅ plainRequest_complete cutRequest_some cutRequest_flatten cutRequest_fits

/-- In two segments the request is not answered as it is in one. -/
theorem secondSegment_repeats :
    ¬ ∀ (paths : PathMap) (version : HTTPVersion) (code : Int) (request : Bytes)
        (segs : List Bytes), CompleteRequest version code request →
      (∀ segment ∈ segs, segment ≠ []) → segs.flatten = request →
      ReadsFit .new (segs.map .data) → SegmentsExact paths version code request segs := by
  intro independent
  have wanted := independent ∅ .v1_0 0 _ _ plainRequest_complete cutRequest_some
    cutRequest_flatten cutRequest_fits
  exact not_segmentsExact_of_two plainRequest_complete cutRequest_some cutRequest_flatten
    cutRequest_fits (by decide) wanted

end SimpleWebServer.Http
