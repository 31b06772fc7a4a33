import SimpleWebServer.Http.MessageViews
import SimpleWebServer.Http.RequestPath

/-!
# What one byte can do

The states of the header and of the target have many branches, and some of them copy a string.
The moves say once what each branch does, whatever the copied string is; what holds along a run
is then shown move by move.
-/

namespace SimpleWebServer.Http

open SimpleWebServer.Base

/-! ## The header -/

/-- What one byte does in the header. -/
inductive HeaderMove (state : StateHeader) (context : HTTPMessageParser) :
    StateHeader → HTTPMessageParser → Prop where
  | lineWithoutColon (part : state.nowPart = .key) (char : context.nowChar = CR) :
      HeaderMove state context
        { state with nowIdx := state.nowIdx + 1, nowPart := .end, isEmptyLine := true } context
  | keyStart (part : state.nowPart = .key) (char : context.nowChar ≠ CR)
      (start : state.nowIdx = 0) :
      HeaderMove state context
        { state with
          nowIdx := state.nowIdx + 1, nowPart := .key, nowKeyOffset := context.nowLen - 1 }
        context
  | keyEnd (part : state.nowPart = .key) (started : state.nowIdx ≠ 0)
      (char : context.nowChar = colon) :
      HeaderMove state context
        { state with
          nowIdx := state.nowIdx + 1, nowPart := .split
          nowKeyLen := context.nowLen - state.nowKeyOffset - 1 } context
  | keyByte (part : state.nowPart = .key) (started : state.nowIdx ≠ 0)
      (char : context.nowChar ≠ CR ∧ context.nowChar ≠ colon) :
      HeaderMove state context { state with nowIdx := state.nowIdx + 1, nowPart := .key } context
  | space (part : state.nowPart = .split) (char : context.nowChar = SP) :
      HeaderMove state context { state with nowIdx := state.nowIdx + 1, nowPart := .split } context
  | valueStart (part : state.nowPart = .split) (char : context.nowChar ≠ SP) :
      HeaderMove state context
        { state with
          nowIdx := state.nowIdx + 1, nowPart := .value, nowValueOffset := context.nowLen - 1 }
        context
  | valueByte (part : state.nowPart = .value) (char : context.nowChar ≠ CR) :
      HeaderMove state context { state with nowIdx := state.nowIdx + 1, nowPart := .value } context
  | record (part : state.nowPart = .value) (char : context.nowChar = CR) (key : Bytes)
      (totalLen : Int) :
      HeaderMove state context
        { state with
          nowIdx := state.nowIdx + 1, nowPart := .end
          nowValueLen := context.nowLen - state.nowValueOffset - 1 }
        { context with
          totalLen := totalLen
          headerPos := context.headerPos.insert key
            (state.nowValueOffset, context.nowLen - state.nowValueOffset - 1) }
  | headerEnd (part : state.nowPart = .end) (char : context.nowChar = LF)
      (line : state.isEmptyLine = true) :
      HeaderMove state context { state with nowIdx := state.nowIdx + 1, nowPart := .end }
        { context with nextState := some (.body {}) }
  | lineEnd (part : state.nowPart = .end) (char : context.nowChar = LF)
      (line : state.isEmptyLine = false) :
      HeaderMove state context { state with nowIdx := 0, nowPart := .key } context
  | mismatch (part : state.nowPart = .end) (char : context.nowChar ≠ LF) :
      HeaderMove state context { state with nowIdx := state.nowIdx + 1, nowPart := .end }
        { context with isMatch := false }

theorem StateHeader.recordEntry_eq_ok {string : StringCtor} {state : StateHeader}
    {context after : HTTPMessageParser} (taken : state.recordEntry string context = .ok after) :
    ∃ key totalLen, string context state.nowKeyOffset state.nowKeyLen = .ok key ∧
      after = { context with
        totalLen := totalLen
        headerPos := context.headerPos.insert key (state.nowValueOffset, state.nowValueLen) } := by
  unfold recordEntry at taken
  cases built : string context state.nowKeyOffset state.nowKeyLen with
  | error fault => simp [built] at taken
  | ok key =>
      simp only [built] at taken
      split_ifs at taken
      · unfold takeTotalLen at taken
        split at taken
        · cases taken
        · obtain ⟨totalLen, _, rfl⟩ := map_eq_ok taken
          exact ⟨key, totalLen, rfl, rfl⟩
      · cases taken
        exact ⟨key, context.totalLen, rfl, rfl⟩

/-- A step of the header is one of the moves. -/
theorem StateHeader.matchStep_move {string : StringCtor} {state : StateHeader}
    {context : HTTPMessageParser} {result : StateHeader × HTTPMessageParser}
    (taken : state.matchStep string context = .ok result) :
    HeaderMove state context result.1 result.2 := by
  obtain ⟨⟨next, after⟩, matched, rfl⟩ := map_eq_ok taken
  unfold matchPart at matched
  obtain ⟨isEmptyLine, nowIdx, part, keyOffset, keyLen, valueOffset, valueLen⟩ := state
  cases part with
  | key =>
      simp only at matched
      split_ifs at matched with isEnd start isColon <;> cases matched
      · exact .lineWithoutColon rfl isEnd
      · exact .keyStart rfl isEnd start
      · exact .keyEnd rfl start isColon
      · exact .keyByte rfl start ⟨isEnd, isColon⟩
  | split =>
      simp only at matched
      split_ifs at matched with noSpace <;> cases matched
      · exact .valueStart rfl noSpace
      · exact .space rfl (not_not.mp noSpace)
  | value =>
      simp only at matched
      split_ifs at matched with isEnd
      · obtain ⟨recorded, entry, equal⟩ := map_eq_ok matched
        obtain ⟨key, totalLen, -, rfl⟩ := recordEntry_eq_ok entry
        cases equal
        exact .record rfl isEnd key totalLen
      · cases matched
        exact .valueByte rfl isEnd
  | «end» =>
      simp only at matched
      split_ifs at matched with last isLF <;> cases matched
      · exact .headerEnd rfl last.1 last.2
      · exact .lineEnd rfl isLF (by simpa [isLF] using last)
      · exact .mismatch rfl isLF

/-- Behind the colon every byte but a space starts the value. -/
theorem HeaderMove.of_split {state next : StateHeader} {context after : HTTPMessageParser}
    (move : HeaderMove state context next after) (part : state.nowPart = .split)
    (noSpace : context.nowChar ≠ SP) :
    next = { state with
        nowIdx := state.nowIdx + 1, nowPart := .value, nowValueOffset := context.nowLen - 1 } ∧
      after = context := by
  cases move with
  | space _ char => exact absurd char noSpace
  | valueStart => exact ⟨rfl, rfl⟩
  | lineWithoutColon other
  | keyStart other
  | keyEnd other
  | keyByte other
  | valueByte other
  | record other
  | headerEnd other
  | lineEnd other
  | mismatch other => cases part.symm.trans other

/-- Only the empty line ends the header. -/
theorem HeaderMove.nextState {state next : StateHeader} {context after : HTTPMessageParser}
    (move : HeaderMove state context next after) :
    after.nextState = context.nextState ∨
      after.nextState = some (.body {}) ∧ next.isEmptyLine = true := by
  cases move with
  | headerEnd _ _ line => exact .inr ⟨rfl, line⟩
  | _ => exact .inl rfl

/-! ## The target -/

/-- What one byte does in the target. -/
inductive URLMove (state : StateURL) (context : HTTPMessageParser) :
    StateURL → HTTPMessageParser → Prop where
  | question (char : context.nowChar = question) :
      URLMove state context
        { state with
          nowIdx := state.nowIdx + 1, nowKeyOffset := context.nowLen, hasQuery := true }
        (StateURL.endPath context)
  | equalSign (char : context.nowChar = equalSign) :
      URLMove state context
        { state with
          nowIdx := state.nowIdx + 1, nowKeyLen := context.nowLen - state.nowKeyOffset - 1
          nowValueOffset := context.nowLen }
        context
  | ampersand (char : context.nowChar = ampersand) (key : Bytes) :
      URLMove state context
        { state with
          nowIdx := state.nowIdx + 1, nowKeyOffset := context.nowLen, nowKeyLen := -1
          nowValueOffset := -1, nowValueLen := -1 }
        { context with
          queryPos := context.queryPos.insert key
            (state.nowValueOffset, context.nowLen - 1 - state.nowValueOffset) }
  | pathEnd (char : context.nowChar = SP) (noQuery : state.hasQuery = false) :
      URLMove state context { state with nowIdx := state.nowIdx + 1 }
        (StateURL.toVersion (StateURL.endPath context))
  | queryEnd (char : context.nowChar = SP) (query : state.hasQuery = true)
      (complete : state.nowKeyOffset ≠ -1 ∧ state.nowKeyLen ≠ -1 ∧ state.nowValueOffset ≠ -1 ∧
        context.nowLen - state.nowValueOffset - 1 ≠ -1) (key : Bytes) :
      URLMove state context
        { state with
          nowIdx := state.nowIdx + 1
          nowValueLen := context.nowLen - state.nowValueOffset - 1 }
        (StateURL.toVersion { context with
          queryPos := context.queryPos.insert key
            (state.nowValueOffset, context.nowLen - state.nowValueOffset - 1) })
  | pathStart (plain : PlainByte context.nowChar) (start : state.nowIdx = 0) :
      URLMove state context { state with nowIdx := state.nowIdx + 1 }
        { context with pathPos := (context.nowLen - 1, context.pathPos.2) }
  | plain (plain : PlainByte context.nowChar) (started : state.nowIdx ≠ 0) :
      URLMove state context { state with nowIdx := state.nowIdx + 1 } context

/-- A step of the target is one of the moves. -/
theorem StateURL.matchStep_move {string : StringCtor} {state : StateURL}
    {context : HTTPMessageParser} {result : StateURL × HTTPMessageParser}
    (taken : state.matchStep string context = .ok result) :
    URLMove state context result.1 result.2 := by
  obtain ⟨⟨next, after⟩, matched, rfl⟩ := map_eq_ok taken
  unfold matchPart at matched
  simp only at matched
  split_ifs at matched with isQuestion isEqual isAmpersand isSpace noQuery complete start
  · cases matched
    exact .question isQuestion
  · cases matched
    exact .equalSign isEqual
  · obtain ⟨recorded, pair, equal⟩ := map_eq_ok matched
    obtain ⟨key, _, rfl⟩ := map_eq_ok pair
    cases equal
    exact .ampersand isAmpersand key
  · cases matched
    exact .pathEnd isSpace noQuery
  · obtain ⟨recorded, pair, equal⟩ := map_eq_ok matched
    obtain ⟨key, _, rfl⟩ := map_eq_ok pair
    cases equal
    exact .queryEnd isSpace (by simpa using noQuery) complete key
  · cases matched
    exact .pathStart ⟨isSpace, isQuestion, isEqual, isAmpersand⟩ start
  · cases matched
    exact .plain ⟨isSpace, isQuestion, isEqual, isAmpersand⟩ start

section

variable {state next : StateURL} {context after : HTTPMessageParser}

theorem URLMove.nowIdx (move : URLMove state context next after) :
    next.nowIdx = state.nowIdx + 1 := by
  cases move <;> rfl

/-- The space ends the target and nothing else does. -/
theorem URLMove.nextState (move : URLMove state context next after) :
    context.nowChar = SP ∧ after.nextState = some (.version {}) ∨
      context.nowChar ≠ SP ∧ after.nextState = context.nextState := by
  cases move with
  | question char => exact .inr ⟨by rw [char]; decide, rfl⟩
  | equalSign char => exact .inr ⟨by rw [char]; decide, rfl⟩
  | ampersand char => exact .inr ⟨by rw [char]; decide, rfl⟩
  | pathEnd char => exact .inl ⟨char, rfl⟩
  | queryEnd char => exact .inl ⟨char, rfl⟩
  | pathStart plain => exact .inr ⟨plain.1, rfl⟩
  | plain plain => exact .inr ⟨plain.1, rfl⟩

/-- Behind its first byte the path is kept or ended here. -/
theorem URLMove.pathPos (move : URLMove state context next after) (started : state.nowIdx ≠ 0) :
    after.pathPos = context.pathPos ∨ after.pathPos = (StateURL.endPath context).pathPos := by
  cases move with
  | question => exact .inr rfl
  | pathEnd => exact .inr rfl
  | pathStart _ start => exact absurd start started
  | _ => exact .inl rfl

theorem URLMove.of_question (move : URLMove state context next after)
    (char : context.nowChar = Http.question) : after = StateURL.endPath context := by
  cases move with
  | question => rfl
  | equalSign other => exact absurd (char.symm.trans other) (by decide)
  | ampersand other => exact absurd (char.symm.trans other) (by decide)
  | pathEnd other => exact absurd (char.symm.trans other) (by decide)
  | queryEnd other => exact absurd (char.symm.trans other) (by decide)
  | pathStart plain => exact absurd char plain.2.1
  | plain plain => exact absurd char plain.2.1

end

/-! ## Behind the start line -/

/-- The states behind the start line. -/
def State.InTail : State → Prop
  | .header _ => True
  | .body _ => True
  | _ => False

/-- Everything that the start line has left in the parser. -/
structure StartKept (before after : HTTPMessageParser) : Prop where
  isRequest : after.isRequest = before.isRequest
  method : after.method = before.method
  version : after.version = before.version
  code : after.code = before.code
  pathPos : after.pathPos = before.pathPos
  queryPos : after.queryPos = before.queryPos
  detailPos : after.detailPos = before.detailPos

theorem StartKept.trans {first second third : HTTPMessageParser} (head : StartKept first second)
    (tail : StartKept second third) : StartKept first third where
  isRequest := tail.isRequest.trans head.isRequest
  method := tail.method.trans head.method
  version := tail.version.trans head.version
  code := tail.code.trans head.code
  pathPos := tail.pathPos.trans head.pathPos
  queryPos := tail.queryPos.trans head.queryPos
  detailPos := tail.detailPos.trans head.detailPos

theorem HeaderMove.startKept {state next : StateHeader} {context after : HTTPMessageParser}
    (move : HeaderMove state context next after) : StartKept context after := by
  cases move <;> exact ⟨rfl, rfl, rfl, rfl, rfl, rfl, rfl⟩

theorem StateBody.matchStep_startKept (state : StateBody) (context : HTTPMessageParser) :
    StartKept context (state.matchStep context).2 := by
  unfold matchStep
  split_ifs <;> exact ⟨rfl, rfl, rfl, rfl, rfl, rfl, rfl⟩

/-- Entering a state is no more than that. -/
theorem StartKept.enter {before middle : HTTPMessageParser} (kept : StartKept before middle)
    (state : State) : StartKept before { middle with state := state }.enterNext := by
  unfold HTTPMessageParser.enterNext
  split <;> exact { kept with }

/-! ## A byte that matches -/

namespace HTTPMessageParser

/-- The parser at the start of its step on `c`, with the input at any address. -/
def reading (parser : HTTPMessageParser) (beginPtr : Int) (c : Byte) : HTTPMessageParser :=
  { parser with nowChar := c, nowLen := parser.nowLen + 1, beginPtr := beginPtr }

/-- The path ends in front of the byte that is read. -/
theorem endPath_reading (parser : HTTPMessageParser) (beginPtr : Int) (c : Byte) :
    (StateURL.endPath (parser.reading beginPtr c)).pathPos =
      (parser.pathPos.1, parser.nowLen - parser.pathPos.1) := by
  change (parser.pathPos.1, parser.nowLen + 1 - parser.pathPos.1 - 1) = _
  congr 1
  ring

/-- The parser reads `c` and goes on; the address and the copied strings may be any. -/
def Takes (parser : HTTPMessageParser) (c : Byte) (after : HTTPMessageParser) : Prop :=
  ∃ string beginPtr middle, parser.state.matchStep string (parser.reading beginPtr c) = .ok middle ∧
    middle.isMatch = true ∧ after = middle.enterNext

section

variable {parser after : HTTPMessageParser} {c : Byte} (taken : parser.Takes c after)
include taken

theorem Takes.method {state : StateMethod} (inState : parser.state = .method state) :
    ∃ beginPtr middle, state.matchStep (parser.reading beginPtr c) = middle ∧
      middle.2.isMatch = true ∧
      after = { middle.2 with state := .method middle.1 }.enterNext := by
  obtain ⟨string, beginPtr, middle, matched, matching, rfl⟩ := taken
  rw [inState] at matched
  cases matched
  exact ⟨beginPtr, _, rfl, matching, rfl⟩

theorem Takes.url {state : StateURL} (inState : parser.state = .url state) :
    ∃ beginPtr next middle, URLMove state (parser.reading beginPtr c) next middle ∧
      middle.isMatch = true ∧ after = { middle with state := .url next }.enterNext := by
  obtain ⟨string, beginPtr, middle, matched, matching, rfl⟩ := taken
  rw [inState] at matched
  obtain ⟨⟨next, stepped⟩, step, rfl⟩ := map_eq_ok matched
  exact ⟨beginPtr, next, stepped, StateURL.matchStep_move step, matching, rfl⟩

/-- Behind a byte of the target the parser is in the target, or behind the space in the version. -/
theorem Takes.url_state {state : StateURL} (inState : parser.state = .url state)
    (fresh : parser.nextState = none) :
    c = SP ∧ after.state = .version {} ∨
      c ≠ SP ∧ ∃ next : StateURL, after.state = .url next ∧ next.nowIdx = state.nowIdx + 1 := by
  obtain ⟨beginPtr, next, middle, move, -, rfl⟩ := taken.url inState
  rcases move.nextState with ⟨space, leaves⟩ | ⟨noSpace, stays⟩
  · refine .inl ⟨space, ?_⟩
    simp only [enterNext, leaves]
  · refine .inr ⟨noSpace, next, ?_, move.nowIdx⟩
    simp only [enterNext, stays, reading, fresh]

/-- Behind its first byte a byte of the target keeps the path or ends it. -/
theorem Takes.url_pathPos {state : StateURL} (inState : parser.state = .url state)
    (started : state.nowIdx ≠ 0) :
    after.pathPos = parser.pathPos ∨
      after.pathPos = (parser.pathPos.1, parser.nowLen - parser.pathPos.1) := by
  obtain ⟨beginPtr, next, middle, move, -, rfl⟩ := taken.url inState
  rw [enterNext_pathPos]
  exact (move.pathPos started).imp id fun ended => ended.trans (endPath_reading parser beginPtr c)

/-- A `?` ends the path. -/
theorem Takes.question_pathPos {state : StateURL} (inState : parser.state = .url state)
    (char : c = Http.question) :
    after.pathPos = (parser.pathPos.1, parser.nowLen - parser.pathPos.1) := by
  obtain ⟨beginPtr, next, middle, move, -, rfl⟩ := taken.url inState
  obtain rfl := move.of_question char
  rw [enterNext_pathPos]
  exact endPath_reading parser beginPtr c

theorem Takes.version {state : StateVersion} (inState : parser.state = .version state) :
    ∃ beginPtr middle, state.matchStep (parser.reading beginPtr c) = middle ∧
      middle.2.isMatch = true ∧
      after = { middle.2 with state := .version middle.1 }.enterNext := by
  obtain ⟨string, beginPtr, middle, matched, matching, rfl⟩ := taken
  rw [inState] at matched
  cases matched
  exact ⟨beginPtr, _, rfl, matching, rfl⟩

theorem Takes.detail {state : StateDetail} (inState : parser.state = .detail state) :
    ∃ beginPtr middle, state.matchStep (parser.reading beginPtr c) = middle ∧
      middle.2.isMatch = true ∧
      after = { middle.2 with state := .detail middle.1 }.enterNext := by
  obtain ⟨string, beginPtr, middle, matched, matching, rfl⟩ := taken
  rw [inState] at matched
  cases matched
  exact ⟨beginPtr, _, rfl, matching, rfl⟩

theorem Takes.header {state : StateHeader} (inState : parser.state = .header state) :
    ∃ beginPtr next middle, HeaderMove state (parser.reading beginPtr c) next middle ∧
      middle.isMatch = true ∧ after = { middle with state := .header next }.enterNext := by
  obtain ⟨string, beginPtr, middle, matched, matching, rfl⟩ := taken
  rw [inState] at matched
  obtain ⟨⟨next, stepped⟩, step, rfl⟩ := map_eq_ok matched
  exact ⟨beginPtr, next, stepped, StateHeader.matchStep_move step, matching, rfl⟩

theorem Takes.body {state : StateBody} (inState : parser.state = .body state) :
    ∃ beginPtr middle, state.matchStep (parser.reading beginPtr c) = middle ∧
      middle.2.isMatch = true ∧
      after = { middle.2 with state := .body middle.1 }.enterNext := by
  obtain ⟨string, beginPtr, middle, matched, matching, rfl⟩ := taken
  rw [inState] at matched
  cases matched
  exact ⟨beginPtr, _, rfl, matching, rfl⟩

/-- A byte of the header or of the body. -/
theorem Takes.startKept (fresh : parser.nextState = none) (inTail : parser.state.InTail) :
    StartKept parser after ∧ after.state.InTail := by
  have start (beginPtr : Int) : StartKept parser (parser.reading beginPtr c) :=
    ⟨rfl, rfl, rfl, rfl, rfl, rfl, rfl⟩
  cases inState : parser.state with
  | header state =>
      obtain ⟨beginPtr, next, middle, move, -, rfl⟩ := taken.header inState
      refine ⟨((start beginPtr).trans move.startKept).enter _, ?_⟩
      cases move <;> simp [enterNext, reading, fresh, State.InTail]
  | body state =>
      obtain ⟨beginPtr, middle, rfl, -, rfl⟩ := taken.body inState
      refine ⟨((start beginPtr).trans (state.matchStep_startKept _)).enter _, ?_⟩
      unfold StateBody.matchStep
      split_ifs <;> simp [enterNext, reading, fresh, State.InTail]
  | _ =>
      rw [inState] at inTail
      exact inTail.elim

/-- A byte behind the target. -/
theorem Takes.pastURL (fresh : parser.nextState = none) (past : parser.state.PastURL) :
    after.state.PastURL := by
  obtain ⟨string, beginPtr, middle, matched, -, rfl⟩ := taken
  have kept := State.matchStep_pathKept (by exact fresh) past matched
  exact pastURL_enterNext kept.2 kept.1.next

theorem Takes.pathPos (fresh : parser.nextState = none) (past : parser.state.PastURL) :
    after.pathPos = parser.pathPos := by
  obtain ⟨string, beginPtr, middle, matched, -, rfl⟩ := taken
  have kept := State.matchStep_pathKept (by exact fresh) past matched
  rw [enterNext_pathPos]
  exact kept.1.path

theorem Takes.nextState : after.nextState = none := by
  obtain ⟨string, beginPtr, middle, -, -, rfl⟩ := taken
  exact enterNext_nextState middle

theorem Takes.isRequest : after.isRequest = parser.isRequest := by
  obtain ⟨string, beginPtr, middle, matched, -, rfl⟩ := taken
  exact (enterNext_sameInput middle).isRequest.trans (State.matchStep_sameInput matched).isRequest

theorem Takes.isMatch : after.isMatch = true := by
  obtain ⟨string, beginPtr, middle, -, matching, rfl⟩ := taken
  rw [enterNext_isMatch, matching]

theorem Takes.nowLen : after.nowLen = parser.nowLen + 1 := by
  obtain ⟨string, beginPtr, middle, matched, -, rfl⟩ := taken
  exact (enterNext_sameInput middle).nowLen.trans (State.matchStep_sameInput matched).nowLen

end

/-- One step of a run without regard to the strings. -/
theorem takes_of_matchChar {string : StringCtor} {beginPtr : Int} {parser after : HTTPMessageParser}
    {c : Byte} (taken : (parser.rebase beginPtr).matchChar string c = .ok after)
    (matching : after.isMatch = true) : parser.Takes c after.enterNext :=
  ⟨string, beginPtr, after, taken, matching, rfl⟩

end HTTPMessageParser

/-! ## Runs -/

/-- A run begins with its first byte. -/
theorem CharRun.uncons {first last : HTTPMessageParser} {c : Byte} {rest : Bytes}
    (run : CharRun first (c :: rest) last) :
    ∃ after, first.Takes c after ∧ CharRun after rest last := by
  cases run with
  | next taken matching tail =>
      exact ⟨_, HTTPMessageParser.takes_of_matchChar taken matching, tail⟩

/-- What every byte that matches preserves holds along a run. -/
theorem CharRun.invariant (good : Bytes → HTTPMessageParser → Prop)
    (step : ∀ consumed parser c after, good consumed parser → parser.Takes c after →
      good (consumed ++ [c]) after)
    (consumed : Bytes) {bytes : Bytes} {first last : HTTPMessageParser}
    (run : CharRun first bytes last) (start : good consumed first) :
    good (consumed ++ bytes) last := by
  induction run generalizing consumed with
  | done parser => simpa using start
  | next taken matching tail ih =>
      have next := step consumed _ _ _ start (HTTPMessageParser.takes_of_matchChar taken matching)
      simpa using ih _ next

theorem charRun_of_consume {consumed bytes : Bytes} {parser after : HTTPMessageParser}
    (run : consume consumed bytes parser = .ok (true, after)) : CharRun parser bytes after := by
  induction bytes generalizing consumed parser with
  | nil =>
      cases run
      exact .done _
  | cons c rest ih =>
      rw [consume] at run
      cases taken : parser.matchChar (sliceOf (consumed ++ [c])) c with
      | error fault => simp [taken] at run
      | ok middle =>
          simp only [taken] at run
          split_ifs at run with stopped
          · cases run
          · have rebased : (parser.rebase parser.beginPtr).matchChar (sliceOf (consumed ++ [c])) c =
                .ok middle := taken
            exact .next rebased (by simpa using stopped) (ih run)

/-! ## A call on a whole message -/

namespace HTTPMessageParser

/-- The loop over two pieces, when it gets through the first one. -/
theorem parserLoop_append {string : StringCtor} {memory : Memory} {str : Int} {first : Nat}
    (second : Nat) {parser middle : HTTPMessageParser}
    (run : parserLoop string memory str first parser = .ok (true, middle)) :
    parserLoop string memory str (first + second) parser =
      parserLoop string memory (str + first) second middle := by
  induction first generalizing str parser with
  | zero =>
      cases run
      rw [Nat.zero_add, Nat.cast_zero, Int.add_zero]
  | succ first ih =>
      rw [Nat.succ_add]
      simp only [parserLoop] at run ⊢
      cases found : memory str with
      | none => simp [found] at run
      | some c =>
          simp only [found] at run ⊢
          cases taken : parser.matchChar string c with
          | error fault => simp [taken] at run
          | ok after =>
              simp only [taken] at run ⊢
              by_cases stopped : after.isMatch = false
              · simp [stopped] at run
              · rw [if_neg stopped] at run ⊢
                rw [ih run]
                congr 1
                push_cast
                ring

/-- The loop ends with a step that throws. -/
theorem parserLoop_fault {string : StringCtor} {memory : Memory} {str : Int} {c : Byte}
    (found : memory str = some c) {parser : HTTPMessageParser} {fault : Fault}
    (thrown : parser.matchChar string c = .error fault) (len : Nat) :
    parserLoop string memory str (len + 1) parser = .error fault := by
  rw [parserLoop, found]
  simp only [thrown]

/-- Between two bytes no state is waiting to be entered. -/
theorem parserLoop_nextState {string : StringCtor} {memory : Memory} {str : Int} {bytes : Bytes}
    (holds : memory.Holds str bytes) {parser after : HTTPMessageParser}
    (fresh : parser.nextState = none)
    (run : parserLoop string memory str bytes.length parser = .ok (true, after)) :
    after.nextState = none := by
  have charRun := charRun_of_parserLoop holds run
  clear holds run
  induction charRun with
  | done parser => exact fresh
  | next _ _ _ ih => exact ih (enterNext_nextState _)

/-- The first call of a new parser is the loop from where its bytes lie. -/
theorem new_parserMessage (isRequest : Bool) (version : HTTPVersion) (code : Int)
    (memory : Memory) (str : Int) (len : Nat) :
    (new isRequest version code).parserMessage memory str len =
      parserLoop (stringOf memory) memory str len ((new isRequest version code).rebase str) := by
  have start : str - (new isRequest version code).nowLen = str := Int.sub_zero str
  rw [parserMessage, parserMessageWith,
    if_neg (show ¬ (new isRequest version code).isMatch = false by simp [new]), start]

end HTTPMessageParser

theorem wholeCall_memory (bytes : Bytes) : (wholeCall bytes).memory = Memory.ofBytes 0 bytes :=
  congrArg (Memory.ofBytes 0) (List.append_nil bytes)

/-- A call on a whole message goes on from what its beginning has left. -/
theorem wholeCall_prefix {isRequest : Bool} {version : HTTPVersion} {code : Int}
    {state next : State} (start : (HTTPMessageParser.new isRequest version code).state = state)
    {text : Bytes} {after : HTTPMessageParser}
    (reads : Reads [] state (.new isRequest version code) text next after) (rest : Bytes) :
    ∃ char, (HTTPMessageParser.new isRequest version code).parserMessages
        [wholeCall (text ++ rest)] =
      HTTPMessageParser.parserLoop (stringOf (Memory.ofBytes 0 (text ++ rest)))
        (Memory.ofBytes 0 (text ++ rest)) text.length rest.length
        ({ after.behind text next with nowChar := char }.rebase 0) := by
  obtain ⟨char, run⟩ := reads
  have new : (HTTPMessageParser.new isRequest version code).behind [] state =
      HTTPMessageParser.new isRequest version code := by
    rw [← start]
    rfl
  rw [new] at run
  have holds : (Memory.ofBytes 0 (text ++ rest)).Holds 0 ([] ++ text) :=
    ((Memory.holds_append_iff _ _ _ _).mp (Memory.holds_ofBytes 0 (text ++ rest))).1
  have inside : consume [] text (.new isRequest version code) ≠ .error .sliceOutside := by
    rw [run]
    simp
  have begun := HTTPMessageParser.parserMessage_eq holds rfl rfl inside
  rw [run, List.length_nil, Nat.cast_zero, Int.add_zero,
    HTTPMessageParser.new_parserMessage] at begun
  have whole := HTTPMessageParser.parserLoop_append rest.length begun
  refine ⟨char, ?_⟩
  have answered : (HTTPMessageParser.new isRequest version code).Answered true := ⟨rfl, by simp⟩
  rw [parserMessages_singleton answered, wholeCall_memory]
  change (HTTPMessageParser.new isRequest version code).parserMessage _ 0 (text ++ rest).length = _
  rw [HTTPMessageParser.new_parserMessage, List.length_append, whole, Int.zero_add]
  rfl

end SimpleWebServer.Http
