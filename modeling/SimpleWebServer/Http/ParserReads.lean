import SimpleWebServer.Http.MessageText
import SimpleWebServer.Http.ParserSafety

/-!
# Reading one part of a message

`Reads` says that a text leads the parser from one state to another without a mismatch, and
what it then has recorded.  Each part of the grammar has its rule here, from single bytes up
to the whole target, a header line and a body; the rules are composed by `Reads.trans`.
-/

namespace SimpleWebServer.Http

open SimpleWebServer.Base

/-- The parser in `state` behind the consumed bytes, with what `parser` has recorded. -/
@[reducible]
def HTTPMessageParser.behind (parser : HTTPMessageParser) (consumed : Bytes) (state : State) :
    HTTPMessageParser :=
  { parser with isMatch := true, nowLen := consumed.length, state := state, nextState := none }

/-- Behind `consumed`, the text leads from `state` to `next` and records what `after` has. -/
def Reads (consumed : Bytes) (state : State) (parser : HTTPMessageParser) (text : Bytes)
    (next : State) (after : HTTPMessageParser) : Prop :=
  ∃ last, consume consumed text (parser.behind consumed state) =
    .ok (true, { after.behind (consumed ++ text) next with nowChar := last })

theorem Reads.refl (consumed : Bytes) (state : State) (parser : HTTPMessageParser) :
    Reads consumed state parser [] state parser := by
  refine ⟨parser.nowChar, ?_⟩
  rw [consume_nil, List.append_nil]

/-- The byte read last is overwritten before the next one is looked at. -/
theorem consume_nowChar (consumed : Bytes) (c : Byte) (rest : Bytes) (parser : HTTPMessageParser)
    (last : Byte) :
    consume consumed (c :: rest) { parser with nowChar := last } =
      consume consumed (c :: rest) parser := rfl

/-- What happens behind a text that is read happens in a run over both. -/
theorem Reads.consume_next {consumed text : Bytes} {state next : State}
    {parser after : HTTPMessageParser} (reads : Reads consumed state parser text next after)
    (c : Byte) (rest : Bytes) :
    consume consumed (text ++ c :: rest) (parser.behind consumed state) =
      consume (consumed ++ text) (c :: rest) (after.behind (consumed ++ text) next) := by
  obtain ⟨last, run⟩ := reads
  rw [consume_append, run]
  exact consume_nowChar _ c rest _ last

theorem Reads.trans {consumed first second : Bytes} {state middle next : State}
    {parser between after : HTTPMessageParser}
    (head : Reads consumed state parser first middle between)
    (tail : Reads (consumed ++ first) middle between second next after) :
    Reads consumed state parser (first ++ second) next after := by
  obtain ⟨last, readFirst⟩ := head
  obtain ⟨final, readSecond⟩ := tail
  rw [List.append_assoc] at readSecond
  cases second with
  | nil =>
      rw [consume_nil] at readSecond
      refine ⟨last, ?_⟩
      rw [List.append_nil] at readSecond ⊢
      have same := (Prod.mk.inj (Except.ok.inj readSecond)).2
      rw [readFirst]
      exact congrArg (fun parser : HTTPMessageParser =>
        (.ok (true, { parser with nowChar := last }) : Except Fault _)) same
  | cons c rest => exact ⟨final, (Reads.consume_next ⟨last, readFirst⟩ c rest).trans readSecond⟩

/-- A slice of the middle of the consumed bytes. -/
theorem sliceOf_middle {front text rest : Bytes} {context : HTTPMessageParser}
    {offset length : Int} (start : offset = front.length) (count : length = text.length)
    (read : (front ++ text).length ≤ context.nowLen) :
    sliceOf (front ++ text ++ rest) context offset length = .ok text := by
  have within : offset + length ≤ ((front ++ text).length : Nat) := by
    rw [start, count, List.length_append]
    push_cast
    exact Int.le_refl _
  rw [sliceOf_append (by omega) (by omega) within read, start, count, Int.toNat_natCast,
    Int.toNat_natCast, List.drop_left, List.take_length]

/-! ## The method -/

theorem reads_method (consumed : Bytes) (parser : HTTPMessageParser) (method : HTTPMethod) :
    Reads consumed (.method {}) parser (getMethodStr method ++ [SP]) (.url {})
      { parser with method := method } := by
  refine ⟨SP, ?_⟩
  cases method <;>
    simp [consume, HTTPMessageParser.matchChar, State.matchStep, StateMethod.matchStep,
      HTTPMessageParser.enterNext, getMethodStr, ascii, SP]
  all_goals ring

/-! ## The target -/

section

variable (consumed : Bytes) (state : StateURL) (parser : HTTPMessageParser)

theorem reads_path_start {c : Byte} (plain : PlainByte c) (start : state.nowIdx = 0) :
    Reads consumed (.url state) parser [c] (.url { state with nowIdx := state.nowIdx + 1 })
      { parser with pathPos := (consumed.length, parser.pathPos.2) } := by
  obtain ⟨noSpace, noQuestion, noEqual, noAmpersand⟩ := plain
  refine ⟨c, ?_⟩
  simp [consume, HTTPMessageParser.matchChar, State.matchStep, StateURL.matchStep,
    StateURL.matchPart, noSpace, noQuestion, noEqual, noAmpersand, start, Except.map,
    HTTPMessageParser.enterNext]

theorem reads_plain_byte {c : Byte} (plain : PlainByte c) (started : state.nowIdx ≠ 0) :
    Reads consumed (.url state) parser [c] (.url { state with nowIdx := state.nowIdx + 1 })
      parser := by
  obtain ⟨noSpace, noQuestion, noEqual, noAmpersand⟩ := plain
  refine ⟨c, ?_⟩
  simp [consume, HTTPMessageParser.matchChar, State.matchStep, StateURL.matchStep,
    StateURL.matchPart, noSpace, noQuestion, noEqual, noAmpersand, started, Except.map,
    HTTPMessageParser.enterNext]

/-- Behind the first byte of the path, plain bytes are counted and nothing else. -/
theorem reads_plain {text : Bytes} (plain : ∀ c ∈ text, PlainByte c)
    (started : state.nowIdx ≠ 0) :
    Reads consumed (.url state) parser text
      (.url { state with nowIdx := state.nowIdx + text.length }) parser := by
  induction text generalizing consumed state with
  | nil => exact .refl _ _ _
  | cons c rest ih =>
      have first := reads_plain_byte consumed state parser (plain c List.mem_cons_self) started
      have later := ih (consumed ++ [c]) { state with nowIdx := state.nowIdx + 1 }
        (fun c member => plain c (List.mem_cons_of_mem _ member)) (Nat.succ_ne_zero _)
      have both := first.trans later
      rwa [List.length_cons, Nat.add_comm rest.length, ← Nat.add_assoc]

theorem reads_path {path : Bytes} (filled : path ≠ []) (plain : ∀ c ∈ path, PlainByte c) :
    Reads consumed (.url {}) parser path (.url { nowIdx := path.length })
      { parser with pathPos := (consumed.length, parser.pathPos.2) } := by
  cases path with
  | nil => exact absurd rfl filled
  | cons c rest =>
      have first := reads_path_start consumed {} parser (plain c List.mem_cons_self) rfl
      have later := reads_plain (consumed ++ [c]) { nowIdx := 0 + 1 }
        { parser with pathPos := (consumed.length, parser.pathPos.2) }
        (fun c member => plain c (List.mem_cons_of_mem _ member)) (Nat.succ_ne_zero _)
      have both := first.trans later
      rw [List.length_cons, Nat.add_comm]
      rwa [Nat.zero_add] at both

/-- The counters in front of a pair whose key starts at `offset`. -/
def StateURL.pairStart (nowIdx : Nat) (offset : Int) : StateURL :=
  { nowIdx := nowIdx, nowKeyOffset := offset, hasQuery := true }

/-- The `?` ends the path. -/
theorem reads_question (nowIdx : Nat) :
    Reads consumed (.url { nowIdx := nowIdx }) parser [question]
      (.url (.pairStart (nowIdx + 1) (consumed.length + 1)))
      { parser with pathPos := (parser.pathPos.1, consumed.length - parser.pathPos.1) } := by
  refine ⟨question, ?_⟩
  simp [consume, HTTPMessageParser.matchChar, State.matchStep, StateURL.matchStep,
    StateURL.matchPart, StateURL.endPath, Except.map, HTTPMessageParser.enterNext,
    StateURL.pairStart]
  ring

/-- So does a space when there was no `?`. -/
theorem reads_space_path (nowIdx : Nat) :
    Reads consumed (.url { nowIdx := nowIdx }) parser [SP] (.version {})
      { parser with pathPos := (parser.pathPos.1, consumed.length - parser.pathPos.1) } := by
  refine ⟨SP, ?_⟩
  simp [consume, HTTPMessageParser.matchChar, State.matchStep, StateURL.matchStep,
    StateURL.matchPart, StateURL.endPath, StateURL.toVersion, Except.map,
    HTTPMessageParser.enterNext, SP, question, equalSign, ampersand]
  ring

/-- The `=` ends the key and starts the value. -/
theorem reads_equalSign :
    Reads consumed (.url state) parser [equalSign]
      (.url { state with
        nowIdx := state.nowIdx + 1, nowKeyLen := consumed.length - state.nowKeyOffset,
        nowValueOffset := consumed.length + 1 }) parser := by
  refine ⟨equalSign, ?_⟩
  simp [consume, HTTPMessageParser.matchChar, State.matchStep, StateURL.matchStep,
    StateURL.matchPart, Except.map, HTTPMessageParser.enterNext, equalSign, question]
  ring

/-- The counters behind a pair, which starts behind `front`. -/
def StateURL.pairRead (nowIdx : Nat) (front : Bytes) (pair : QueryPair) : StateURL where
  nowIdx := nowIdx
  nowKeyOffset := front.length
  nowKeyLen := pair.key.length
  nowValueOffset := front.length + pair.key.length + 1
  hasQuery := true

theorem reads_pairText {nowIdx : Nat} (started : nowIdx ≠ 0) (pair : QueryPair) :
    Reads consumed (.url (.pairStart nowIdx consumed.length)) parser pair.text
      (.url (.pairRead (nowIdx + pair.text.length) consumed pair)) parser := by
  have key := reads_plain consumed (.pairStart nowIdx consumed.length) parser pair.keyPlain started
  have equal := reads_equalSign (consumed ++ pair.key)
    { StateURL.pairStart nowIdx consumed.length with nowIdx := nowIdx + pair.key.length } parser
  have value := reads_plain (consumed ++ pair.key ++ [equalSign])
    { StateURL.pairStart nowIdx consumed.length with
      nowIdx := nowIdx + pair.key.length + 1
      nowKeyLen := (consumed ++ pair.key).length - consumed.length
      nowValueOffset := (consumed ++ pair.key).length + 1 }
    parser pair.valuePlain (Nat.succ_ne_zero _)
  have all := (key.trans equal).trans (by rw [← List.append_assoc]; exact value)
  rw [List.append_assoc, List.singleton_append] at all
  have counters : StateURL.pairRead (nowIdx + pair.text.length) consumed pair =
      { StateURL.pairStart nowIdx consumed.length with
        nowIdx := nowIdx + pair.key.length + 1 + pair.value.length
        nowKeyLen := (consumed ++ pair.key).length - consumed.length
        nowValueOffset := (consumed ++ pair.key).length + 1 } := by
    simp only [StateURL.pairRead, StateURL.pairStart, QueryPair.text, List.length_append,
      List.length_cons, Nat.cast_add, StateURL.mk.injEq, true_and, and_true]
    omega
  rw [counters]
  exact all

/-- The slice of a value whose pair starts behind `front`. -/
def QueryPair.slice (pair : QueryPair) (offset : Int) : Slice :=
  (offset + pair.key.length + 1, pair.value.length)

theorem sliceOf_pairKey (pair : QueryPair) (c : Byte) {context : HTTPMessageParser}
    (length : context.nowLen = (consumed ++ pair.text).length + 1) :
    sliceOf (consumed ++ pair.text ++ [c]) context consumed.length pair.key.length =
      .ok pair.key := by
  have split : consumed ++ pair.text ++ [c] =
      consumed ++ pair.key ++ (equalSign :: pair.value ++ [c]) := by
    simp [QueryPair.text]
  rw [split]
  apply sliceOf_middle rfl rfl
  rw [length, QueryPair.text]
  simp only [List.length_append, List.length_cons]
  push_cast
  omega

theorem QueryPair.length_text (pair : QueryPair) :
    (pair.text.length : Int) = pair.key.length + 1 + pair.value.length := by
  rw [QueryPair.text, List.length_append, List.length_cons]
  push_cast
  ring

/-- What the `&` behind a pair takes for the length of its value. -/
theorem QueryPair.valueLength (pair : QueryPair) (offset : Int) :
    offset + pair.text.length - (offset + pair.key.length + 1) = pair.value.length := by
  rw [pair.length_text]
  ring

/-- What the space behind a pair takes for it. -/
theorem QueryPair.lastValueLength (pair : QueryPair) :
    (pair.text.length : Int) - pair.key.length - 1 = pair.value.length := by
  rw [pair.length_text]
  ring

/-- The `&` behind a pair records it and starts the next one. -/
theorem reads_ampersand (nowIdx : Nat) (pair : QueryPair) :
    Reads (consumed ++ pair.text) (.url (.pairRead nowIdx consumed pair)) parser [ampersand]
      (.url (.pairStart (nowIdx + 1) ((consumed ++ pair.text).length + 1)))
      { parser with
        queryPos := parser.queryPos.insert pair.key (pair.slice consumed.length) } := by
  refine ⟨ampersand, ?_⟩
  simp [consume, HTTPMessageParser.matchChar, State.matchStep, StateURL.matchStep,
    StateURL.matchPart, StateURL.recordPair, sliceOf_pairKey, pair.valueLength, Except.map,
    HTTPMessageParser.enterNext, StateURL.pairRead, StateURL.pairStart, QueryPair.slice,
    ampersand, question, equalSign, -List.append_assoc]

/-- The space behind the last pair records it and ends the target. -/
theorem reads_space_pair (nowIdx : Nat) (pair : QueryPair) :
    Reads (consumed ++ pair.text) (.url (.pairRead nowIdx consumed pair)) parser [SP]
      (.version {})
      { parser with
        queryPos := parser.queryPos.insert pair.key (pair.slice consumed.length) } := by
  refine ⟨SP, ?_⟩
  have valueKnown : (consumed.length : Int) + pair.key.length + 1 ≠ -1 := by omega
  simp [consume, HTTPMessageParser.matchChar, State.matchStep, StateURL.matchStep,
    StateURL.matchPart, StateURL.recordPair, sliceOf_pairKey, pair.lastValueLength,
    valueKnown, Except.map, HTTPMessageParser.enterNext, StateURL.pairRead, StateURL.toVersion,
    QueryPair.slice, SP, ampersand, question, equalSign, -List.append_assoc]

/-- The slices of the values of a query whose first key starts at `offset`. -/
def querySlices (offset : Int) : List QueryPair → List (Bytes × Slice)
  | [] => []
  | pair :: rest =>
      (pair.key, pair.slice offset) :: querySlices (offset + pair.text.length + 1) rest

/-- A query and the space behind it. -/
theorem reads_queryText {nowIdx : Nat} (started : nowIdx ≠ 0) {pairs : List QueryPair}
    (filled : pairs ≠ []) :
    Reads consumed (.url (.pairStart nowIdx consumed.length)) parser (queryText pairs ++ [SP])
      (.version {})
      { parser with
        queryPos := assign parser.queryPos (querySlices consumed.length pairs) } := by
  induction pairs generalizing consumed nowIdx parser with
  | nil => exact absurd rfl filled
  | cons pair rest ih =>
      have text := reads_pairText consumed parser started pair
      cases rest with
      | nil =>
          have all := text.trans (reads_space_pair consumed parser _ pair)
          rw [queryText, List.map_singleton, List.intercalate_singleton]
          exact all
      | cons next rest =>
          have separator := text.trans (reads_ampersand consumed parser _ pair)
          have later := ih (consumed ++ (pair.text ++ [ampersand]))
            { parser with
              queryPos := parser.queryPos.insert pair.key (pair.slice consumed.length) }
            (Nat.succ_ne_zero (nowIdx + pair.text.length)) (List.cons_ne_nil _ _)
          have here : ((consumed ++ (pair.text ++ [ampersand])).length : Int) =
              (consumed ++ pair.text).length + 1 := by
            simp [add_assoc]
          rw [here] at later
          have all := separator.trans later
          have split : queryText (pair :: next :: rest) ++ [SP] =
              pair.text ++ [ampersand] ++ (queryText (next :: rest) ++ [SP]) := by
            simp [queryText, List.intercalate_cons_cons]
          have offset : (consumed.length : Int) + pair.text.length + 1 =
              (consumed ++ pair.text).length + 1 := by
            simp
          rw [split, querySlices, offset]
          exact all

/-- What the parser has recorded behind the target. -/
def HTTPMessageParser.readTarget (parser : HTTPMessageParser) (path : Bytes)
    (query : List QueryPair) : HTTPMessageParser :=
  { parser with
    pathPos := (consumed.length, path.length)
    queryPos := assign parser.queryPos (querySlices (consumed.length + path.length + 1) query) }

/-- A target and the space behind it. -/
theorem reads_target {path : Bytes} (filled : path ≠ []) (plain : ∀ c ∈ path, PlainByte c)
    (query : List QueryPair) :
    Reads consumed (.url {}) parser (targetText path query ++ [SP]) (.version {})
      (parser.readTarget consumed path query) := by
  have pathRead := reads_path consumed parser filled plain
  have pathLength : ((consumed ++ path).length : Int) - consumed.length = path.length := by
    simp
  by_cases noQuery : query = []
  · have space := reads_space_path (consumed ++ path)
      { parser with pathPos := (consumed.length, parser.pathPos.2) } path.length
    simp only [pathLength] at space
    have all := pathRead.trans space
    rw [noQuery, targetText, if_pos rfl, List.append_nil]
    exact all
  · have mark := reads_question (consumed ++ path)
      { parser with pathPos := (consumed.length, parser.pathPos.2) } path.length
    simp only [pathLength] at mark
    have before := pathRead.trans mark
    have here : ((consumed ++ (path ++ [question])).length : Int) =
        (consumed ++ path).length + 1 := by
      simp [add_assoc]
    rw [← here] at before
    have pairs := reads_queryText (consumed ++ (path ++ [question]))
      { parser with pathPos := (consumed.length, path.length) } (Nat.succ_ne_zero path.length)
      noQuery
    have all := before.trans pairs
    have split : targetText path query ++ [SP] =
        path ++ [question] ++ (queryText query ++ [SP]) := by
      simp [targetText, noQuery]
    have start : (consumed.length : Int) + path.length + 1 =
        (consumed ++ (path ++ [question])).length := by
      simp [add_assoc]
    rw [split, HTTPMessageParser.readTarget, start]
    exact all

end

/-! ## The version -/

section

variable (consumed : Bytes) (parser : HTTPMessageParser)

/-- The version of a request and its line end. -/
theorem reads_request_version {version : HTTPVersion} {text : Bytes}
    (known : getVersionStr version = .ok text) (request : parser.isRequest = true) :
    Reads consumed (.version {}) parser (text ++ CRLF) (.header {})
      { parser with version := version } := by
  refine ⟨LF, ?_⟩
  cases version <;> cases known <;>
    simp [consume, HTTPMessageParser.matchChar, State.matchStep, StateVersion.matchStep,
      StateVersion.fixedByte?, HTTPMessageParser.enterNext, request, ascii, CRLF, CR, LF]
  all_goals ring

/-- The version of a response and the space behind it. -/
theorem reads_response_version {version : HTTPVersion} {text : Bytes}
    (known : getVersionStr version = .ok text) (response : parser.isRequest = false) :
    Reads consumed (.version {}) parser (text ++ [SP]) (.code {})
      { parser with version := version } := by
  refine ⟨SP, ?_⟩
  cases version <;> cases known <;>
    simp [consume, HTTPMessageParser.matchChar, State.matchStep, StateVersion.matchStep,
      StateVersion.fixedByte?, HTTPMessageParser.enterNext, response, ascii, SP]
  all_goals ring

end

/-! ## The header -/

/-- The header state in front of a line. -/
structure StateHeader.LineStart (state : StateHeader) : Prop where
  nowIdx : state.nowIdx = 0
  nowPart : state.nowPart = .key
  isEmptyLine : state.isEmptyLine = false

section

variable (consumed : Bytes) (state : StateHeader) (parser : HTTPMessageParser)

theorem reads_key_start {c : Byte} (noEnd : c ≠ CR) (part : state.nowPart = .key)
    (start : state.nowIdx = 0) :
    Reads consumed (.header state) parser [c]
      (.header { state with nowIdx := state.nowIdx + 1, nowKeyOffset := consumed.length })
      parser := by
  refine ⟨c, ?_⟩
  simp [consume, HTTPMessageParser.matchChar, State.matchStep, StateHeader.matchStep,
    StateHeader.matchPart, part, noEnd, start, Except.map, HTTPMessageParser.enterNext]

theorem reads_key_byte {c : Byte} (plain : c ≠ colon ∧ c ≠ CR) (part : state.nowPart = .key)
    (started : state.nowIdx ≠ 0) :
    Reads consumed (.header state) parser [c]
      (.header { state with nowIdx := state.nowIdx + 1 }) parser := by
  refine ⟨c, ?_⟩
  simp [consume, HTTPMessageParser.matchChar, State.matchStep, StateHeader.matchStep,
    StateHeader.matchPart, part, plain, started, Except.map, HTTPMessageParser.enterNext]

theorem reads_split_space (part : state.nowPart = .split) :
    Reads consumed (.header state) parser [SP]
      (.header { state with nowIdx := state.nowIdx + 1 }) parser := by
  refine ⟨SP, ?_⟩
  simp [consume, HTTPMessageParser.matchChar, State.matchStep, StateHeader.matchStep,
    StateHeader.matchPart, part, Except.map, HTTPMessageParser.enterNext]

theorem reads_value_start {c : Byte} (noSpace : c ≠ SP) (part : state.nowPart = .split) :
    Reads consumed (.header state) parser [c]
      (.header { state with
        nowIdx := state.nowIdx + 1, nowPart := .value, nowValueOffset := consumed.length })
      parser := by
  refine ⟨c, ?_⟩
  simp [consume, HTTPMessageParser.matchChar, State.matchStep, StateHeader.matchStep,
    StateHeader.matchPart, part, noSpace, Except.map, HTTPMessageParser.enterNext]

theorem reads_value_byte {c : Byte} (plain : c ≠ CR) (part : state.nowPart = .value) :
    Reads consumed (.header state) parser [c]
      (.header { state with nowIdx := state.nowIdx + 1 }) parser := by
  refine ⟨c, ?_⟩
  simp [consume, HTTPMessageParser.matchChar, State.matchStep, StateHeader.matchStep,
    StateHeader.matchPart, part, plain, Except.map, HTTPMessageParser.enterNext]

theorem reads_colon (part : state.nowPart = .key) (started : state.nowIdx ≠ 0) :
    Reads consumed (.header state) parser [colon]
      (.header { state with
        nowIdx := state.nowIdx + 1, nowPart := .split
        nowKeyLen := consumed.length - state.nowKeyOffset }) parser := by
  refine ⟨colon, ?_⟩
  simp [consume, HTTPMessageParser.matchChar, State.matchStep, StateHeader.matchStep,
    StateHeader.matchPart, part, started, Except.map, HTTPMessageParser.enterNext, colon, CR]
  ring

/-- Bytes that only advance the counter of the line. -/
theorem reads_counted (inside : StateHeader → Prop) (text : Bytes)
    (stays : ∀ state, inside state → inside { state with nowIdx := state.nowIdx + 1 })
    (byte : ∀ c ∈ text, ∀ consumed state, inside state →
      Reads consumed (.header state) parser [c] (.header { state with nowIdx := state.nowIdx + 1 })
        parser)
    (here : inside state) :
    Reads consumed (.header state) parser text
      (.header { state with nowIdx := state.nowIdx + text.length }) parser := by
  induction text generalizing consumed state with
  | nil => simpa using Reads.refl consumed (.header state) parser
  | cons c rest ih =>
      have first := byte c List.mem_cons_self consumed state here
      have later := ih (consumed ++ [c]) { state with nowIdx := state.nowIdx + 1 }
        (fun c member => byte c (List.mem_cons_of_mem _ member)) (stays state here)
      have both := first.trans later
      rwa [List.length_cons, Nat.cast_succ, Int.add_comm rest.length, ← Int.add_assoc]

theorem reads_key {key : Bytes} (filled : key ≠ []) (plain : ∀ c ∈ key, c ≠ colon ∧ c ≠ CR)
    (start : state.LineStart) :
    Reads consumed (.header state) parser key
      (.header { state with nowIdx := key.length, nowKeyOffset := consumed.length }) parser := by
  cases key with
  | nil => exact absurd rfl filled
  | cons c rest =>
      have first := reads_key_start consumed state parser (plain c List.mem_cons_self).2
        start.nowPart start.nowIdx
      have later := reads_counted (consumed ++ [c])
        { state with nowIdx := state.nowIdx + 1, nowKeyOffset := consumed.length } parser
        (fun state => state.nowPart = .key ∧ 0 < state.nowIdx) rest
        (fun state here => ⟨here.1, by dsimp only; omega⟩)
        (fun c member consumed state here =>
          reads_key_byte consumed state parser (plain c (List.mem_cons_of_mem _ member))
            here.1 here.2.ne')
        ⟨start.nowPart, by simp [start.nowIdx]⟩
      have both := first.trans later
      simp only [start.nowIdx, Int.zero_add] at both
      rwa [List.length_cons, Nat.cast_succ, Int.add_comm]

theorem reads_value (spaces : Nat) {value : Bytes} (filled : value ≠ [])
    (plain : ∀ c ∈ value, c ≠ CR) (noSpace : value.head? ≠ some SP)
    (part : state.nowPart = .split) :
    Reads consumed (.header state) parser (List.replicate spaces SP ++ value)
      (.header { state with
        nowIdx := state.nowIdx + spaces + value.length, nowPart := .value
        nowValueOffset := consumed.length + spaces }) parser := by
  cases value with
  | nil => exact absurd rfl filled
  | cons c rest =>
      have gap := reads_counted consumed state parser (fun state => state.nowPart = .split)
        (List.replicate spaces SP) (fun state here => here)
        (fun c member consumed state here => by
          rw [List.eq_of_mem_replicate member]
          exact reads_split_space consumed state parser here)
        part
      have first := reads_value_start (consumed ++ List.replicate spaces SP)
        { state with nowIdx := state.nowIdx + (List.replicate spaces SP).length } parser
        (show c ≠ SP by simpa using noSpace) part
      have later := reads_counted (consumed ++ (List.replicate spaces SP ++ [c]))
        { state with
          nowIdx := state.nowIdx + (List.replicate spaces SP).length + 1, nowPart := .value
          nowValueOffset := (consumed ++ List.replicate spaces SP).length } parser
        (fun state => state.nowPart = .value) rest (fun state here => here)
        (fun c member consumed state here =>
          reads_value_byte consumed state parser (plain c (List.mem_cons_of_mem _ member)) here)
        rfl
      have all := (gap.trans first).trans later
      rw [List.append_assoc, List.singleton_append] at all
      simp only [List.length_append, List.length_replicate, Nat.cast_add] at all
      rwa [List.length_cons, Nat.cast_succ, Int.add_comm rest.length, ← Int.add_assoc]

/-- The line feed behind a field starts the next line. -/
theorem reads_line_end (part : state.nowPart = .end) (line : state.isEmptyLine = false) :
    Reads consumed (.header state) parser [LF]
      (.header { state with nowIdx := 0, nowPart := .key }) parser := by
  refine ⟨LF, ?_⟩
  simp [consume, HTTPMessageParser.matchChar, State.matchStep, StateHeader.matchStep,
    StateHeader.matchPart, part, line, Except.map, HTTPMessageParser.enterNext]

/-- An empty line ends the header. -/
theorem reads_empty_line (start : state.LineStart) :
    Reads consumed (.header state) parser CRLF (.body {}) parser := by
  refine ⟨LF, ?_⟩
  simp [consume, HTTPMessageParser.matchChar, State.matchStep, StateHeader.matchStep,
    StateHeader.matchPart, start.nowPart, Except.map, HTTPMessageParser.enterNext, CRLF, CR, LF]
  ring

/-! ## A field -/

/-- The slice of the value of a field that starts at `offset`. -/
def HeaderField.slice (field : HeaderField) (offset : Int) : Slice :=
  (offset + field.key.length + 1 + field.spaces, field.value.length)

/-- The field without its line end. -/
def HeaderField.body (field : HeaderField) : Bytes :=
  field.key ++ colon :: (List.replicate field.spaces SP ++ field.value)

/-- The counters behind a field, in front of its line end. -/
def StateHeader.fieldRead (state : StateHeader) (nowIdx : Int) (front : Bytes)
    (field : HeaderField) : StateHeader :=
  { state with
    nowIdx := nowIdx, nowPart := .value
    nowKeyOffset := front.length, nowKeyLen := field.key.length
    nowValueOffset := (field.slice front.length).1 }

theorem reads_field_body (field : HeaderField) (start : state.LineStart) :
    ∃ nowIdx, Reads consumed (.header state) parser field.body
      (.header (state.fieldRead nowIdx consumed field)) parser := by
  have key := reads_key consumed state parser field.keyFilled field.keyPlain start
  have split := reads_colon (consumed ++ field.key)
    { state with nowIdx := field.key.length, nowKeyOffset := consumed.length } parser
    start.nowPart (by simpa using field.keyFilled)
  have keyLength : ((consumed ++ field.key).length : Int) - consumed.length = field.key.length := by
    simp
  simp only [keyLength] at split
  have value := reads_value (consumed ++ (field.key ++ [colon]))
    { state with
      nowIdx := field.key.length + 1, nowPart := .split
      nowKeyOffset := consumed.length, nowKeyLen := field.key.length } parser
    field.spaces field.valueFilled field.valuePlain field.valueStart rfl
  have all := (key.trans split).trans value
  have valueOffset : ((consumed ++ (field.key ++ [colon])).length : Int) + field.spaces =
      (field.slice consumed.length).1 := by
    simp [HeaderField.slice, add_assoc]
  rw [List.append_assoc, List.singleton_append, valueOffset] at all
  exact ⟨_, all⟩

/-- What the parser has recorded behind a field. -/
def HTTPMessageParser.readField (parser : HTTPMessageParser) (offset : Int)
    (field : HeaderField) : HTTPMessageParser :=
  { parser with
    headerPos := parser.headerPos.insert field.key (field.slice offset)
    totalLen := field.announced parser.totalLen }

theorem sliceOf_fieldKey (field : HeaderField) (c : Byte) {context : HTTPMessageParser}
    (length : context.nowLen = (consumed ++ field.body).length + 1) :
    sliceOf (consumed ++ field.body ++ [c]) context consumed.length field.key.length =
      .ok field.key := by
  have split : consumed ++ field.body ++ [c] =
      consumed ++ field.key ++
        (colon :: (List.replicate field.spaces SP ++ field.value) ++ [c]) := by
    simp [HeaderField.body]
  rw [split]
  apply sliceOf_middle rfl rfl
  rw [length, HeaderField.body]
  simp only [List.length_append, List.length_cons]
  push_cast
  omega

theorem sliceOf_fieldValue (field : HeaderField) (c : Byte) {context : HTTPMessageParser}
    (length : context.nowLen = (consumed ++ field.body).length + 1) :
    sliceOf (consumed ++ field.body ++ [c]) context (field.slice consumed.length).1
      field.value.length = .ok field.value := by
  have split : consumed ++ field.body ++ [c] =
      consumed ++ (field.key ++ colon :: List.replicate field.spaces SP) ++ field.value ++
        [c] := by
    simp [HeaderField.body]
  rw [split]
  refine sliceOf_middle ?_ rfl ?_
  · simp only [HeaderField.slice, List.length_append, List.length_cons, List.length_replicate]
    push_cast
    ring
  · rw [length, HeaderField.body]
    simp [add_assoc]

theorem StateHeader.recordEntry_field (field : HeaderField) (readable : field.Readable)
    {context : HTTPMessageParser} (c : Byte)
    (length : context.nowLen = (consumed ++ field.body).length + 1)
    (key : state.nowKeyOffset = consumed.length ∧ state.nowKeyLen = field.key.length)
    (value : state.nowValueOffset = (field.slice consumed.length).1 ∧
      state.nowValueLen = field.value.length) :
    state.recordEntry (sliceOf (consumed ++ field.body ++ [c])) context =
      .ok (context.readField consumed.length field) := by
  unfold recordEntry
  rw [key.1, key.2, value.1, value.2, sliceOf_fieldKey consumed field c length]
  by_cases isLength : field.key = contentLength
  · obtain ⟨number, written⟩ := readable isLength
    simp only [if_pos isLength]
    rw [takeTotalLen, value.1, value.2, sliceOf_fieldValue consumed field c (by exact length)]
    simp only [written]
    simp [HTTPMessageParser.readField, HeaderField.announced, HeaderField.slice, isLength,
      written, Except.map]
  · simp [HTTPMessageParser.readField, HeaderField.announced, HeaderField.slice, isLength]

/-- The carriage return behind a field records it. -/
theorem reads_field_end (nowIdx : Int) (field : HeaderField) (readable : field.Readable) :
    Reads (consumed ++ field.body) (.header (state.fieldRead nowIdx consumed field)) parser [CR]
      (.header { state.fieldRead nowIdx consumed field with
        nowIdx := nowIdx + 1, nowPart := .end, nowValueLen := field.value.length })
      (parser.readField consumed.length field) := by
  refine ⟨CR, ?_⟩
  have recorded (context : HTTPMessageParser)
      (length : context.nowLen = (consumed ++ field.body).length + 1) :=
    StateHeader.recordEntry_field consumed
      { state.fieldRead nowIdx consumed field with
        nowPart := .end, nowValueLen := field.value.length }
      field readable CR length ⟨rfl, rfl⟩ ⟨rfl, rfl⟩
  have count : ((consumed ++ field.body).length : Int) + 1 -
      (state.fieldRead nowIdx consumed field).nowValueOffset - 1 = field.value.length := by
    simp [StateHeader.fieldRead, HeaderField.slice, HeaderField.body]
    ring
  have part : (state.fieldRead nowIdx consumed field).nowPart = .value := rfl
  simp only [consume, HTTPMessageParser.matchChar, State.matchStep, StateHeader.matchStep,
    StateHeader.matchPart, part, if_true, count]
  rw [recorded _ rfl]
  simp [Except.map, HTTPMessageParser.enterNext, HTTPMessageParser.readField, add_assoc]
  rfl

/-- A field and its line end. -/
theorem reads_field (field : HeaderField) (readable : field.Readable) (start : state.LineStart) :
    ∃ next : StateHeader, next.LineStart ∧
      Reads consumed (.header state) parser field.text (.header next)
        (parser.readField consumed.length field) := by
  obtain ⟨nowIdx, body⟩ := reads_field_body consumed state parser field start
  have recorded := body.trans (reads_field_end consumed state parser nowIdx field readable)
  have line := reads_line_end (consumed ++ (field.body ++ [CR]))
    { state.fieldRead nowIdx consumed field with
      nowIdx := nowIdx + 1, nowPart := .end, nowValueLen := field.value.length }
    (parser.readField consumed.length field) rfl start.isEmptyLine
  have all := recorded.trans line
  rw [List.append_assoc] at all
  refine ⟨_, ?_, all⟩
  exact ⟨rfl, rfl, start.isEmptyLine⟩

/-- The slices of the values of a header whose first field starts at `offset`. -/
def headerSlices (offset : Int) : List HeaderField → List (Bytes × Slice)
  | [] => []
  | field :: rest =>
      (field.key, field.slice offset) :: headerSlices (offset + field.text.length) rest

/-- What the parser has recorded behind a header. -/
def HTTPMessageParser.readHeader (parser : HTTPMessageParser) (offset : Int)
    (fields : List HeaderField) : HTTPMessageParser :=
  { parser with
    headerPos := assign parser.headerPos (headerSlices offset fields)
    totalLen := announcedLength fields parser.totalLen }

/-- Field after field, up to the start of the next line. -/
theorem reads_fields {fields : List HeaderField} (readable : ∀ field ∈ fields, field.Readable)
    (start : state.LineStart) :
    ∃ next : StateHeader, next.LineStart ∧
      Reads consumed (.header state) parser (headerText fields) (.header next)
        (parser.readHeader consumed.length fields) := by
  induction fields generalizing consumed state parser with
  | nil => exact ⟨state, start, .refl _ _ _⟩
  | cons field rest ih =>
      obtain ⟨middle, middleStart, line⟩ := reads_field consumed state parser field
        (readable field List.mem_cons_self) start
      obtain ⟨next, nextStart, later⟩ := ih (consumed ++ field.text) middle
        (parser.readField consumed.length field)
        (fun field member => readable field (List.mem_cons_of_mem _ member)) middleStart
      have all := line.trans later
      rw [List.length_append, Nat.cast_add] at all
      exact ⟨next, nextStart, all⟩

/-- The fields and the empty line behind them. -/
theorem reads_header {fields : List HeaderField} (readable : ∀ field ∈ fields, field.Readable)
    (start : state.LineStart) :
    Reads consumed (.header state) parser (headerText fields ++ CRLF) (.body {})
      (parser.readHeader consumed.length fields) := by
  obtain ⟨next, nextStart, lines⟩ := reads_fields consumed state parser readable start
  exact lines.trans (reads_empty_line _ next _ nextStart)

end

/-! ## The status of a response -/

/-- The digit of a status code at the place `unit`. -/
def codeByte (code : Int) (unit : Nat) : Byte := UInt8.ofNat (48 + code.toNat / unit % 10)

/-- A code of the table is written with three digits. -/
theorem statusCode_digits :
    ∀ entry ∈ httpCodeMap,
      ascii (toString entry.1) =
          [codeByte entry.1 100, codeByte entry.1 10, codeByte entry.1 1] ∧
        (isDigit (codeByte entry.1 100) = true ∧ isDigit (codeByte entry.1 10) = true ∧
          isDigit (codeByte entry.1 1) = true) ∧
        (((codeByte entry.1 100).toNat - 48 : Nat) : Int) * 100 +
            (((codeByte entry.1 10).toNat - 48 : Nat) : Int) * 10 +
          (((codeByte entry.1 1).toNat - 48 : Nat) : Int) = entry.1 ∧
        entry.1 ≠ -1 := by
  decide +kernel

/-- A code of the table with its entry. -/
theorem exists_entry_of_isSome {code : Int} (known : (httpCodeMap.lookup code).isSome) :
    ∃ entry ∈ httpCodeMap, entry.1 = code := by
  obtain ⟨entry, member, same⟩ := List.lookup_isSome_iff.mp known
  exact ⟨entry, member, (by simpa using same : code = entry.1).symm⟩

theorem codeText_plain (code : Int) : ∀ c ∈ codeText code, c ≠ CR := by
  have texts : (httpCodeMap.all fun entry => entry.2.all fun c => c != CR) = true := by
    decide +kernel
  intro c member
  cases found : httpCodeMap.lookup code with
  | none =>
      rw [codeText, found] at member
      cases member
  | some text =>
      rw [codeText, found] at member
      obtain ⟨before, after, split, _⟩ := List.lookup_eq_some_iff.mp found
      rw [split, List.all_append, List.all_cons, Bool.and_eq_true, Bool.and_eq_true] at texts
      exact bne_iff_ne.mp (List.all_eq_true.mp texts.2.1 c member)

section

variable (consumed : Bytes) (parser : HTTPMessageParser)

/-- A known status code and the space behind it, unless the code in the parser is `-1`. -/
theorem reads_code {code : Int} (known : (httpCodeMap.lookup code).isSome)
    (initial : parser.code ≠ -1) :
    Reads consumed (.code {}) parser (ascii (toString code) ++ [SP]) (.detail {})
      { parser with code := code } := by
  obtain ⟨entry, member, rfl⟩ := exists_entry_of_isSome known
  obtain ⟨text, ⟨first, second, third⟩, value, valid⟩ := statusCode_digits entry member
  refine ⟨SP, ?_⟩
  have got : StateCode.getCode { nowIdx := 3, codeArr :=
      (((codeByte entry.1 100).toNat - 48 : Nat), ((codeByte entry.1 10).toNat - 48 : Nat),
        ((codeByte entry.1 1).toNat - 48 : Nat)) } = entry.1 := by
    simp only [StateCode.getCode, value]
    rw [if_pos known]
  rw [text]
  simp [consume, HTTPMessageParser.matchChar, State.matchStep, StateCode.matchStep,
    StateCode.setDigit, HTTPMessageParser.enterNext, first, second, third, initial, got, valid]
  ring

/-- The bytes of a reason phrase are counted. -/
theorem reads_detail_text {text : Bytes} (plain : ∀ c ∈ text, c ≠ CR) (state : StateDetail)
    (inside : state.isPrefixR = false) :
    Reads consumed (.detail state) parser text
      (.detail { state with nowIdx := state.nowIdx + text.length }) parser := by
  induction text generalizing consumed state with
  | nil => simpa using Reads.refl consumed (.detail state) parser
  | cons c rest ih =>
      have first : Reads consumed (.detail state) parser [c]
          (.detail { state with nowIdx := state.nowIdx + 1 }) parser := by
        refine ⟨c, ?_⟩
        simp [consume, HTTPMessageParser.matchChar, State.matchStep, StateDetail.matchStep,
          plain c List.mem_cons_self, inside, HTTPMessageParser.enterNext]
      have later := ih (consumed ++ [c])
        (fun c member => plain c (List.mem_cons_of_mem _ member))
        { state with nowIdx := state.nowIdx + 1 } inside
      have both := first.trans later
      rwa [List.length_cons, Nat.cast_succ, Int.add_comm rest.length, ← Int.add_assoc]

/-- A reason phrase and the line end behind it. -/
theorem reads_detail {text : Bytes} (plain : ∀ c ∈ text, c ≠ CR) :
    Reads consumed (.detail {}) parser (text ++ CRLF) (.header {})
      { parser with detailPos := (consumed.length + 1, text.length + 2) } := by
  have phrase := reads_detail_text consumed parser plain {} rfl
  have lineEnd : Reads (consumed ++ text) (.detail { nowIdx := 0 + text.length }) parser CRLF
      (.header {}) { parser with detailPos := (consumed.length + 1, text.length + 2) } := by
    refine ⟨LF, ?_⟩
    simp [consume, HTTPMessageParser.matchChar, State.matchStep, StateDetail.matchStep,
      HTTPMessageParser.enterNext, CRLF, CR, LF]
    refine ⟨?_, ?_, ?_⟩ <;> ring
  exact phrase.trans lineEnd

end

/-! ## The body -/

/--
The slice of a body that starts at `offset`.  Its length is set by the last byte only when
that is not the first byte too.
-/
def bodySlice (offset : Int) (length : Nat) : Slice :=
  if length = 0 then (0, 0) else if length = 1 then (offset, 0) else (offset, length)

section

variable (consumed : Bytes) (parser : HTTPMessageParser)

/-- Between the first and the last byte of the body the counter advances. -/
theorem reads_body_middle (text : Bytes) (state : StateBody) (started : 0 < state.nowIdx)
    (inside : state.nowIdx + text.length < parser.totalLen) :
    Reads consumed (.body state) parser text
      (.body { state with nowIdx := state.nowIdx + text.length }) parser := by
  induction text generalizing consumed state with
  | nil => simpa using Reads.refl consumed (.body state) parser
  | cons c rest ih =>
      rw [List.length_cons, Nat.cast_succ] at inside ⊢
      have first : Reads consumed (.body state) parser [c]
          (.body { state with nowIdx := state.nowIdx + 1 }) parser := by
        have notFirst : state.nowIdx ≠ 0 := by omega
        have notLast : state.nowIdx ≠ parser.totalLen - 1 := by omega
        refine ⟨c, ?_⟩
        simp [consume, HTTPMessageParser.matchChar, State.matchStep, StateBody.matchStep,
          notFirst, notLast, HTTPMessageParser.enterNext]
      have later := ih (consumed ++ [c]) { state with nowIdx := state.nowIdx + 1 }
        (by dsimp only; omega) (by dsimp only; omega)
      have both := first.trans later
      rwa [Int.add_comm rest.length, ← Int.add_assoc]

theorem reads_body_first (c : Byte) :
    Reads consumed (.body {}) parser [c] (.body { nowIdx := 1 })
      { parser with bodyPos := (consumed.length, parser.bodyPos.2) } := by
  refine ⟨c, ?_⟩
  simp [consume, HTTPMessageParser.matchChar, State.matchStep, StateBody.matchStep,
    HTTPMessageParser.enterNext]

theorem reads_body_last (c : Byte) (state : StateBody) (started : 0 < state.nowIdx)
    (last : state.nowIdx = parser.totalLen - 1) :
    Reads consumed (.body state) parser [c] (.body { nowIdx := state.nowIdx + 1 })
      { parser with
        bodyPos := (parser.bodyPos.1, consumed.length + 1 - parser.bodyPos.1) } := by
  have notFirst : parser.totalLen - 1 ≠ 0 := by omega
  refine ⟨c, ?_⟩
  simp [consume, HTTPMessageParser.matchChar, State.matchStep, StateBody.matchStep, last,
    notFirst, HTTPMessageParser.enterNext]

/-- A body of the announced length, behind a parser that has recorded none. -/
theorem reads_body (body : Bytes) (announced : parser.totalLen = body.length)
    (fresh : parser.bodyPos = (0, 0)) :
    Reads consumed (.body {}) parser body (.body { nowIdx := body.length })
      { parser with bodyPos := bodySlice consumed.length body.length } := by
  cases body with
  | nil =>
      have empty := Reads.refl consumed (.body {}) parser
      rw [bodySlice, List.length_nil, if_pos rfl, ← fresh]
      exact empty
  | cons c rest =>
      have first := reads_body_first consumed parser c
      rw [fresh] at first
      rcases rest.eq_nil_or_concat with rfl | ⟨middle, final, rfl⟩
      · exact first
      · rw [List.concat_eq_append, List.length_cons, List.length_append,
          List.length_singleton] at announced
        push_cast at announced
        have counted := reads_body_middle (consumed ++ [c])
          { parser with bodyPos := (consumed.length, 0) } middle { nowIdx := 1 } (by decide)
          (by dsimp only; omega)
        have last := reads_body_last (consumed ++ ([c] ++ middle))
          { parser with bodyPos := (consumed.length, 0) } final
          { nowIdx := 1 + middle.length } (by dsimp only; omega) (by dsimp only; omega)
        have all := (first.trans counted).trans last
        have length : (c :: middle.concat final).length = middle.length + 2 := by simp
        have split : c :: middle.concat final = [c] ++ middle ++ [final] := by simp
        have slice : bodySlice consumed.length (middle.length + 2) =
            ((consumed.length : Int),
              ((consumed ++ ([c] ++ middle)).length : Int) + 1 - consumed.length) := by
          simp [bodySlice]
          ring
        have counter : ((middle.length + 2 : Nat) : Int) = 1 + middle.length + 1 := by
          push_cast
          ring
        rw [length, slice, counter, split]
        exact all

end

/-! ## Whole messages -/

/-- What the parser has recorded behind the header and the body. -/
def HTTPMessageParser.readTail (parser : HTTPMessageParser) (offset : Int)
    (tail : MessageTail) : HTTPMessageParser :=
  { parser.readHeader offset tail.header with
    bodyPos := bodySlice (offset + (headerText tail.header ++ CRLF).length) tail.body.length }

theorem reads_tail (consumed : Bytes) (parser : HTTPMessageParser) (tail : MessageTail)
    (fresh : parser.bodyPos = (0, 0)) (unannounced : parser.totalLen = 0) :
    Reads consumed (.header {}) parser tail.text (.body { nowIdx := tail.body.length })
      (parser.readTail consumed.length tail) := by
  have header := reads_header consumed {} parser tail.readable ⟨rfl, rfl, rfl⟩
  have length : (parser.readHeader consumed.length tail.header).totalLen = tail.body.length := by
    rw [← tail.announced, ← unannounced]
    rfl
  have body := reads_body (consumed ++ (headerText tail.header ++ CRLF)) _ tail.body length fresh
  rw [List.length_append, Nat.cast_add] at body
  exact header.trans body

/-- What a new parser has recorded behind the start line of a request. -/
def HTTPMessageParser.readRequestLine (parser : HTTPMessageParser) (request : RequestLine) :
    HTTPMessageParser :=
  { HTTPMessageParser.readTarget (getMethodStr request.method ++ [SP])
      { parser with method := request.method } request.path request.query with
    version := request.version }

theorem reads_requestLine (version : HTTPVersion) (code : Int) (request : RequestLine) :
    Reads [] (.method {}) (.new true version code) request.text (.header {})
      ((HTTPMessageParser.new true version code).readRequestLine request) := by
  have method := reads_method [] (.new true version code) request.method
  have target := reads_target (getMethodStr request.method ++ [SP])
    { HTTPMessageParser.new true version code with method := request.method }
    request.pathFilled request.pathPlain request.query
  exact (method.trans target).trans (reads_request_version _ _ request.versionKnown rfl)

/-- A new parser reads a request. -/
theorem reads_request (version : HTTPVersion) (code : Int) (line : RequestLine)
    (tail : MessageTail) :
    Reads [] (.method {}) (.new true version code) (line.text ++ tail.text)
      (.body { nowIdx := tail.body.length })
      (((HTTPMessageParser.new true version code).readRequestLine line).readTail
        line.text.length tail) :=
  (reads_requestLine version code line).trans (reads_tail line.text _ tail rfl rfl)

/-- What a new parser has recorded behind the start line of a response. -/
def HTTPMessageParser.readStatusLine (parser : HTTPMessageParser) (response : StatusLine) :
    HTTPMessageParser :=
  { parser with
    version := response.version
    code := response.code
    detailPos :=
      ((response.versionText ++ [SP] ++ (ascii (toString response.code) ++ [SP])).length + 1,
        (codeText response.code).length + 2) }

theorem reads_statusLine (version : HTTPVersion) (code : Int) (response : StatusLine)
    (initial : code ≠ -1) :
    Reads [] (.version {}) (.new false version code) response.text (.header {})
      ((HTTPMessageParser.new false version code).readStatusLine response) := by
  have start := reads_response_version [] (.new false version code) response.versionKnown rfl
  have status := reads_code (response.versionText ++ [SP])
    { HTTPMessageParser.new false version code with version := response.version }
    response.codeKnown initial
  exact (start.trans status).trans (reads_detail _ _ (codeText_plain response.code))

/-- A new parser reads a response, unless its code happens to start as `-1`. -/
theorem reads_response (version : HTTPVersion) (code : Int) (line : StatusLine)
    (tail : MessageTail) (initial : code ≠ -1) :
    Reads [] (.version {}) (.new false version code) (line.text ++ tail.text)
      (.body { nowIdx := tail.body.length })
      (((HTTPMessageParser.new false version code).readStatusLine line).readTail
        line.text.length tail) :=
  (reads_statusLine version code line initial).trans (reads_tail line.text _ tail rfl rfl)

end SimpleWebServer.Http
