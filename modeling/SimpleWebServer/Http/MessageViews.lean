import SimpleWebServer.Http.ParserChunks
import SimpleWebServer.Http.ParserReads

/-!
# What is read out of the parser

A slice that the parser has recorded shows a part of the message.  For a message of the
grammar these parts are the ones it was put together from, however it was cut into chunks,
and the message is complete with its last byte and not before.
-/

namespace SimpleWebServer.Http

open SimpleWebServer.Base

/-- The bytes a slice shows. -/
def shown (bytes : Bytes) (slice : Slice) : Bytes :=
  (bytes.drop slice.1.toNat).take slice.2.toNat

theorem shown_middle {front text rest : Bytes} {slice : Slice}
    (place : slice = ((front.length : Int), (text.length : Int))) :
    shown (front ++ text ++ rest) slice = text := by
  rw [place, shown, Int.toNat_natCast, Int.toNat_natCast, List.append_assoc, List.drop_left,
    List.take_left]

/-- The slice of a pair shows its value. -/
theorem shown_pair (front rest : Bytes) (pair : QueryPair) :
    shown (front ++ pair.text ++ rest) (pair.slice front.length) = pair.value := by
  have split : front ++ pair.text ++ rest =
      front ++ (pair.key ++ [equalSign]) ++ pair.value ++ rest := by
    simp [QueryPair.text]
  rw [split]
  apply shown_middle
  simp [QueryPair.slice, add_assoc]

theorem shown_field (front rest : Bytes) (field : HeaderField) :
    shown (front ++ field.text ++ rest) (field.slice front.length) = field.value := by
  have split : front ++ field.text ++ rest =
      front ++ (field.key ++ colon :: List.replicate field.spaces SP) ++ field.value ++
        (CRLF ++ rest) := by
    simp [HeaderField.text]
  rw [split]
  apply shown_middle
  simp only [HeaderField.slice, List.length_append, List.length_cons, List.length_replicate]
  push_cast
  ring_nf

/-- The slices of a query show its values. -/
theorem shown_querySlices (front rest : Bytes) (pairs : List QueryPair) :
    (querySlices front.length pairs).map
        (fun entry => (entry.1, shown (front ++ queryText pairs ++ rest) entry.2)) =
      pairs.map fun pair => (pair.key, pair.value) := by
  induction pairs generalizing front with
  | nil => rfl
  | cons pair others ih =>
      cases others with
      | nil =>
          simp only [queryText, List.map_cons, List.map_nil, List.intercalate_singleton,
            querySlices, shown_pair]
      | cons next others =>
          have later := ih (front ++ pair.text ++ [ampersand])
          have split : front ++ queryText (pair :: next :: others) ++ rest =
              front ++ pair.text ++ [ampersand] ++ queryText (next :: others) ++ rest := by
            simp [queryText, List.intercalate_cons_cons]
          have offset : (front.length : Int) + pair.text.length + 1 =
              (front ++ pair.text ++ [ampersand]).length := by
            simp [add_assoc]
          have here : shown (front ++ queryText (pair :: next :: others) ++ rest)
              (pair.slice front.length) = pair.value := by
            have behind : front ++ queryText (pair :: next :: others) ++ rest =
                front ++ pair.text ++ ([ampersand] ++ queryText (next :: others) ++ rest) := by
              rw [split]
              simp only [List.append_assoc]
            rw [behind]
            exact shown_pair front _ pair
          rw [querySlices, List.map_cons, here, split, offset, later]
          rfl

/-- The slices of a header show its values. -/
theorem shown_headerSlices (front rest : Bytes) (fields : List HeaderField) :
    (headerSlices front.length fields).map
        (fun entry => (entry.1, shown (front ++ headerText fields ++ rest) entry.2)) =
      fields.map fun field => (field.key, field.value) := by
  induction fields generalizing front with
  | nil => rfl
  | cons field others ih =>
      have later := ih (front ++ field.text)
      have split : front ++ headerText (field :: others) ++ rest =
          front ++ field.text ++ headerText others ++ rest := by
        simp [headerText]
      have offset : (front.length : Int) + field.text.length =
          (front ++ field.text).length := by
        simp
      have here : shown (front ++ headerText (field :: others) ++ rest)
          (field.slice front.length) = field.value := by
        rw [split, List.append_assoc]
        exact shown_field front _ field
      rw [headerSlices, List.map_cons, here, split, offset, later]
      rfl

/-! ## The maps read out of the parser -/

namespace HTTPMessageParser

theorem viewAll_eq {memory : Memory} {parser : HTTPMessageParser} {bytes : Bytes}
    (holds : memory.Holds parser.beginPtr bytes) {positions : SliceMap}
    (within : ∀ entry ∈ positions.entries, SliceWithin bytes.length entry.2) :
    parser.viewAll memory positions =
      .ok (assign ∅ (positions.entries.map fun entry => (entry.1, shown bytes entry.2))) := by
  unfold viewAll
  generalize (∅ : ViewMap) = views
  revert within
  induction positions.entries generalizing views with
  | nil =>
      intro _
      rfl
  | cons entry rest ih =>
      intro within
      rw [List.foldlM_cons, view_eq holds (within entry List.mem_cons_self)]
      exact ih _ fun later member => within later (List.mem_cons_of_mem _ member)

/-- The map of views has at every key what the recorded slice shows. -/
theorem exists_viewAll {memory : Memory} {parser : HTTPMessageParser} {bytes : Bytes}
    (holds : memory.Holds parser.beginPtr bytes) {positions : SliceMap}
    (within : ∀ entry ∈ positions.entries, SliceWithin bytes.length entry.2) :
    ∃ views, parser.viewAll memory positions = .ok views ∧
      ∀ key, views.lookup key = (positions.lookup key).map (shown bytes) := by
  refine ⟨_, viewAll_eq holds within, ?_⟩
  intro key
  have empty (key : Bytes) :
      (∅ : ViewMap).lookup key = ((∅ : SliceMap).lookup key).map (shown bytes) := rfl
  have looked := lookup_assign_map empty (positions.entries.map fun entry => (entry.1, entry.2)) key
  rw [lookup_assign_entries, List.map_map] at looked
  exact looked

/-- The request that a complete parser hands out. -/
theorem exists_requestMessage {memory : Memory} {parser : HTTPMessageParser} {bytes : Bytes}
    (sound : parser.Sound) (known : parser.nowLen = bytes.length)
    (holds : memory.Holds parser.beginPtr bytes) (request : parser.isRequest = true)
    (completed : parser.isCompleted = true) :
    ∃ query header, parser.getRequestMessage memory = .ok {
        method := parser.method, path := shown bytes parser.pathPos, query := query
        version := parser.version, header := header, body := shown bytes parser.bodyPos } ∧
      (∀ key, query.lookup key = (parser.queryPos.lookup key).map (shown bytes)) ∧
      ∀ key, header.lookup key = (parser.headerPos.lookup key).map (shown bytes) := by
  have slices := sound.slices
  rw [known] at slices
  obtain ⟨query, queryRead, queryShown⟩ := exists_viewAll holds slices.query
  obtain ⟨header, headerRead, headerShown⟩ := exists_viewAll holds slices.header
  refine ⟨query, header, ?_, queryShown, headerShown⟩
  unfold getRequestMessage
  rw [request, completed, view_eq holds slices.path, view_eq holds slices.body, queryRead,
    headerRead]
  rfl

/-- The response that a complete parser hands out. -/
theorem exists_responseMessage {memory : Memory} {parser : HTTPMessageParser} {bytes : Bytes}
    (sound : parser.Sound) (known : parser.nowLen = bytes.length)
    (holds : memory.Holds parser.beginPtr bytes) (response : parser.isRequest = false)
    (completed : parser.isCompleted = true) :
    ∃ header, parser.getResponseMessage memory = .ok {
        version := parser.version, code := parser.code
        detail := shown bytes parser.detailPos, header := header
        body := shown bytes parser.bodyPos } ∧
      ∀ key, header.lookup key = (parser.headerPos.lookup key).map (shown bytes) := by
  have slices := sound.slices
  rw [known] at slices
  obtain ⟨header, headerRead, headerShown⟩ := exists_viewAll holds slices.header
  have detail : SliceWithin bytes.length parser.detailPos := by
    have counters := sound.state
    obtain ⟨state, inBody, -⟩ := parser.isCompleted_iff.mp completed
    rw [inBody, known] at counters
    exact counters.2.2
  refine ⟨header, ?_, headerShown⟩
  unfold getResponseMessage
  rw [response, completed, view_eq holds detail, view_eq holds slices.body, headerRead]
  rfl

end HTTPMessageParser

/-! ## Completed once -/

/-- In the body every byte is counted and matches. -/
theorem consume_in_body (consumed bytes : Bytes) {parser : HTTPMessageParser} {state : StateBody}
    (inBody : parser.state = .body state) (matching : parser.isMatch = true)
    (fresh : parser.nextState = none) :
    ∃ after, consume consumed bytes parser = .ok (true, after) ∧
      after.state = .body { nowIdx := state.nowIdx + bytes.length } ∧
      after.totalLen = parser.totalLen := by
  induction bytes generalizing consumed parser state with
  | nil => exact ⟨parser, rfl, by simpa using inBody, rfl⟩
  | cons c rest ih =>
      let context : HTTPMessageParser := { parser with nowChar := c, nowLen := parser.nowLen + 1 }
      let next : HTTPMessageParser :=
        { (state.matchStep context).2 with state := .body (state.matchStep context).1 }
      have taken : parser.matchChar (sliceOf (consumed ++ [c])) c = .ok next := by
        have step : parser.state.matchStep (sliceOf (consumed ++ [c])) context = .ok next := by
          rw [inBody]
          rfl
        exact step
      have same : next.isMatch = true ∧ next.nextState = none ∧
          next.totalLen = parser.totalLen ∧
          next.state = .body { nowIdx := state.nowIdx + 1 } := by
        simp only [next, StateBody.matchStep, context]
        split_ifs <;> exact ⟨matching, fresh, rfl, trivial⟩
      obtain ⟨nextMatching, nextFresh, nextLength, nextState⟩ := same
      have entered : next.enterNext = next := by
        rw [HTTPMessageParser.enterNext, nextFresh]
      obtain ⟨after, run, counted, length⟩ := ih (consumed ++ [c]) nextState nextMatching nextFresh
      refine ⟨after, ?_, ?_, length.trans nextLength⟩
      · rw [consume, taken]
        simp only [nextMatching, Bool.true_eq_false, if_false, entered, run]
      · rw [counted, List.length_cons]
        push_cast
        congr 2
        ring

/-- A message that is complete at the end of its bytes is not complete before. -/
theorem incomplete_before_end {consumed first second : Bytes}
    {parser middle after : HTTPMessageParser} (sound : parser.Sound)
    (matching : parser.isMatch = true)
    (start : consume consumed first parser = .ok (true, middle))
    (run : consume consumed (first ++ second) parser = .ok (true, after))
    (completed : after.isCompleted = true) (more : second ≠ []) :
    middle.isCompleted = false := by
  by_contra early
  obtain ⟨state, inBody, counted⟩ :=
    middle.isCompleted_iff.mp (by simpa using early)
  rw [consume_append, start] at run
  have middleSound := sound.consume start
  obtain ⟨last, runOn, lastState, lastLength⟩ := consume_in_body (consumed ++ first) second
    inBody (consume_verdict matching start) middleSound.nextState
  simp only [runOn, Except.ok.injEq, Prod.mk.injEq, true_and] at run
  subst run
  obtain ⟨final, inFinal, total⟩ := last.isCompleted_iff.mp completed
  rw [lastState] at inFinal
  obtain rfl := State.body.inj inFinal
  have positive := List.length_pos_of_ne_nil more
  dsimp only at total
  omega

/-! ## Chunks -/

/-- Calls on the beginning of bytes that a parser reads to the end. -/
theorem parserMessages_of_consume {consumed rest : Bytes} {calls : List Call}
    {chunks : List Bytes} (addressed : CallsAddress consumed calls chunks)
    {parser after : HTTPMessageParser} (known : parser.nowLen = consumed.length)
    (matching : parser.isMatch = true)
    (run : consume consumed (chunks.flatten ++ rest) parser = .ok (true, after)) :
    ∃ middle reached, consume consumed chunks.flatten parser = .ok (true, middle) ∧
      parser.parserMessages calls = .ok (true, reached) ∧
      reached.rebase 0 = middle.rebase 0 := by
  rw [consume_append] at run
  cases start : consume consumed chunks.flatten parser with
  | error fault => simp [start] at run
  | ok result =>
      obtain ⟨verdict, middle⟩ := result
      cases verdict with
      | false => simp [start] at run
      | true =>
          have same := parserMessages_eq addressed known matching (by rw [start]; simp)
          rw [start, forgetBegin_ok] at same
          obtain ⟨⟨answer, reached⟩, called, moved⟩ := map_eq_ok same
          obtain ⟨rfl, moved⟩ := Prod.mk.inj moved
          exact ⟨middle, reached, rfl, called, moved⟩

/--
A new parser answers `true` to all the calls, which leave `rest` of a message over.  It is
complete when nothing is left and not before, and then hands out what `returned` says.
-/
def Completes (isRequest : Bool) (version : HTTPVersion) (code : Int) (calls : List Call)
    (rest : Bytes) (returned : Memory → HTTPMessageParser → Prop) : Prop :=
  ∃ parser, (HTTPMessageParser.new isRequest version code).parserMessages calls =
      .ok (true, parser) ∧
    (parser.isCompleted = true ↔ rest = []) ∧
    (rest = [] → ∀ earlier last, calls = earlier ++ [last] → returned last.memory parser)

/-- What a parser looks like, at any address, behind a message with a body of `length` bytes. -/
def BehindBody (after : HTTPMessageParser) (bytes : Bytes) (length : Nat)
    (parser : HTTPMessageParser) : Prop :=
  ∃ beginPtr last, parser = HTTPMessageParser.rebase
    { after.behind bytes (.body { nowIdx := length }) with nowChar := last } beginPtr

/-- A complete body state. -/
theorem isCompleted_behind (parser : HTTPMessageParser) (consumed : Bytes) (length : Nat)
    (last : Byte) (announced : parser.totalLen = length) :
    HTTPMessageParser.isCompleted
      { parser.behind consumed (.body { nowIdx := length }) with nowChar := last } = true := by
  rw [HTTPMessageParser.isCompleted]
  simp [announced]

/--
Calls on a message that a new parser reads to the end of its body.  The parser is complete
only when nothing is left, and then it is the parser of the whole run.
-/
theorem completes_of_reads {isRequest : Bool} {version : HTTPVersion} {code : Int}
    {state : State} (start : (HTTPMessageParser.new isRequest version code).state = state)
    {bytes : Bytes} {length : Nat} {after : HTTPMessageParser}
    (reads : Reads [] state (.new isRequest version code) bytes (.body { nowIdx := length }) after)
    (announced : after.totalLen = length) {calls : List Call} {chunks : List Bytes}
    {rest : Bytes} (addressed : CallsAddress [] calls chunks)
    (split : chunks.flatten ++ rest = bytes) {returned : Memory → HTTPMessageParser → Prop}
    (returns : ∀ memory (parser : HTTPMessageParser), parser.Sound → parser.nowLen = bytes.length →
      memory.Holds parser.beginPtr bytes → parser.isCompleted = true →
      BehindBody after bytes length parser → returned memory parser) :
    Completes isRequest version code calls rest returned := by
  obtain ⟨lastByte, run⟩ := reads
  have new : (HTTPMessageParser.new isRequest version code).behind [] state =
      HTTPMessageParser.new isRequest version code := by
    rw [← start]
    rfl
  rw [new, List.nil_append, ← split] at run
  have completed := isCompleted_behind after (chunks.flatten ++ rest) length lastByte announced
  obtain ⟨middle, parser, begun, called, moved⟩ :=
    parserMessages_of_consume addressed rfl rfl run
  have sameCompleted : parser.isCompleted = middle.isCompleted := by
    rw [← parser.rebase_isCompleted 0, moved, middle.rebase_isCompleted]
  have whole (nothing : rest = []) : middle =
      { after.behind bytes (.body { nowIdx := length }) with nowChar := lastByte } := by
    rw [nothing, List.append_nil, begun] at run
    have same := (Prod.mk.inj (Except.ok.inj run)).2
    rwa [← List.append_nil chunks.flatten, ← nothing, split] at same
  have complete : parser.isCompleted = true ↔ rest = [] := by
    constructor
    · intro early
      by_contra more
      have incomplete := incomplete_before_end (new_sound isRequest version code) rfl begun run
        completed more
      rw [sameCompleted, incomplete] at early
      cases early
    · intro nothing
      rw [sameCompleted, whole nothing]
      exact isCompleted_behind after bytes length lastByte announced
  refine ⟨parser, called, complete, ?_⟩
  intro nothing earlier last pieces
  subst pieces
  obtain ⟨holds, known⟩ := parserMessagesWith_holds addressed rfl called
  rw [List.nil_append, ← List.append_nil chunks.flatten, ← nothing, split] at holds known
  have sound := ((new_sound isRequest version code).consume begun).moved moved
  apply returns last.memory parser sound known holds (complete.mpr nothing)
  exact ⟨parser.beginPtr, lastByte, by
    rw [← whole nothing]
    exact congrArg (·.rebase parser.beginPtr) moved⟩

/-! ## What a message shows -/

/-- The bytes a parser shows of a body: all but a single one. -/
def shownBody (body : Bytes) : Bytes := if body.length = 1 then [] else body

theorem shown_bodySlice (front body : Bytes) :
    shown (front ++ body) (bodySlice front.length body.length) = shownBody body := by
  unfold shownBody bodySlice
  by_cases empty : body.length = 0
  · rw [if_pos empty, if_neg (by omega), List.length_eq_zero_iff.mp empty]
    simp [shown]
  · rw [if_neg empty]
    by_cases single : body.length = 1
    · rw [if_pos single, if_pos single]
      simp [shown]
    · rw [if_neg single, if_neg single]
      have middle : shown (front ++ body ++ []) (front.length, body.length) = body :=
        shown_middle rfl
      rwa [List.append_nil] at middle

/-- The entries of a query as the text has them. -/
def queryEntries (pairs : List QueryPair) : List (Bytes × Bytes) :=
  pairs.map fun pair => (pair.key, pair.value)

def headerEntries (fields : List HeaderField) : List (Bytes × Bytes) :=
  fields.map fun field => (field.key, field.value)

/-- Slices that show the values of some entries look up the same values. -/
theorem lookup_assign_shown {slices : List (Bytes × Slice)} {entries : List (Bytes × Bytes)}
    {bytes : Bytes}
    (shows : slices.map (fun entry => (entry.1, shown bytes entry.2)) = entries) (key : Bytes) :
    ((assign ∅ slices).lookup key).map (shown bytes) = (assign ∅ entries).lookup key := by
  have empty (key : Bytes) :
      (∅ : ViewMap).lookup key = ((∅ : SliceMap).lookup key).map (shown bytes) := rfl
  rw [← lookup_assign_map empty slices key, shows]

theorem shown_header (startLine : Bytes) (tail : MessageTail) (key : Bytes) :
    ((assign ∅ (headerSlices startLine.length tail.header)).lookup key).map
        (shown (startLine ++ tail.text)) =
      (assign ∅ (headerEntries tail.header)).lookup key := by
  have split : startLine ++ tail.text =
      startLine ++ headerText tail.header ++ (CRLF ++ tail.body) := by
    simp [MessageTail.text]
  apply lookup_assign_shown
  rw [split]
  exact shown_headerSlices _ _ _

theorem shown_body (startLine : Bytes) (tail : MessageTail) :
    shown (startLine ++ tail.text)
        (bodySlice (startLine.length + (headerText tail.header ++ CRLF).length)
          tail.body.length) =
      shownBody tail.body := by
  have split : startLine ++ tail.text =
      startLine ++ (headerText tail.header ++ CRLF) ++ tail.body := by
    simp [MessageTail.text]
  rw [split, ← Nat.cast_add, ← List.length_append]
  exact shown_bodySlice _ _

end SimpleWebServer.Http
