import Mathlib.Logic.Denumerable
import SimpleWebServer.Http.BodyFraming
import SimpleWebServer.Http.UninitialisedMembers

/-!
# The slices of the header

`StateHeader` copies the key and stores the place of the value when a value ends, from
offsets that it keeps from byte to byte and never resets.  What is copied are the arguments of
the string's constructor, and these are observed: the step is run with a constructor that
answers with its arguments, and the calls with one that checks them.  A line is made of the
offsets that its own bytes have left, and it begins behind the lines before it, as long as an
`int` counts the bytes.
-/

namespace SimpleWebServer.Http

open SimpleWebServer.Base

/-- What a line of the header copies and stores, and `now_len` at that moment. -/
structure RecordedLine where
  key : Slice
  value : Slice
  nowLen : Int
  deriving DecidableEq, Repr

namespace RecordedLine

/-- Both slices lie in the header that begins at `start`, and the key in front of the value. -/
structure InRange (start : Int) (line : RecordedLine) : Prop where
  key_start : start ≤ line.key.1
  key_nonempty : 1 ≤ line.key.2
  key_inside : line.key.1 + line.key.2 ≤ line.nowLen
  apart : line.key.1 + line.key.2 ≤ line.value.1
  value_start : start ≤ line.value.1
  value_nonempty : 1 ≤ line.value.2
  value_inside : line.value.1 + line.value.2 ≤ line.nowLen

/-- The slices of `later` start behind the ends of those of `line`. -/
def Before (line later : RecordedLine) : Prop :=
  ∀ slice ∈ [line.key, line.value], ∀ other ∈ [later.key, later.value],
    slice.1 + slice.2 < other.1

end RecordedLine

/-- The lines of a header that begins at `start`, in the order in which they were recorded. -/
structure LinesPlaced (start : Int) (lines : List RecordedLine) : Prop where
  inRange : ∀ line ∈ lines, line.InRange start
  ordered : lines.Pairwise RecordedLine.Before

namespace HTTPMessageParser

/-- A constructor whose string tells the arguments it was called with. -/
def argumentsOf : StringCtor := fun _ offset length =>
  .ok (List.replicate (Encodable.encode (offset, length)) 0)

/-- The parser without its entries. -/
def emptied (parser : HTTPMessageParser) : HTTPMessageParser := { parser with headerPos := ∅ }

/-- What the step on `c` copies as the key and stores as the value, by running it. -/
def copiedLine? (parser : HTTPMessageParser) (c : Byte) : Option RecordedLine :=
  match parser.emptied.matchChar argumentsOf c with
  | .error _ => none
  | .ok after =>
      match after.headerPos.entries with
      | [entry] => (Encodable.decode entry.1.length).map fun key =>
          { key := key, value := entry.2, nowLen := after.nowLen }
      | _ => none

end HTTPMessageParser

/-- The parser in front of a byte that it reads, and the memory of the call. -/
structure ParserStep where
  parser : HTTPMessageParser
  c : Byte
  memory : Memory

namespace ParserStep

def line? (step : ParserStep) : Option RecordedLine := step.parser.copiedLine? step.c

/-- The bytes that the step copies from a slice. -/
def copy (step : ParserStep) (slice : Slice) : Except Fault Bytes :=
  stringOf step.memory (step.parser.reading step.parser.beginPtr step.c) slice.1 slice.2

end ParserStep

/-- The lines of the steps. -/
def linesOf (steps : List ParserStep) : List RecordedLine := steps.filterMap ParserStep.line?

namespace HTTPMessageParser

/-- The bytes that the loop of `parser_message` looks at, up to the one at which it stops. -/
def loopSteps (memory : Memory) :
    (str : Int) → (len : Nat) → HTTPMessageParser → List ParserStep
  | _, 0, _ => []
  | str, len + 1, parser =>
      match memory str with
      | none => []
      | some c =>
          ⟨parser, c, memory⟩ ::
            match parser.matchChar (stringOf memory) c with
            | .error _ => []
            | .ok after =>
                if after.isMatch = false then [] else loopSteps memory (str + 1) len after.enterNext

/-- The bytes that one call looks at. -/
def callSteps (call : Call) (parser : HTTPMessageParser) : List ParserStep :=
  if parser.isMatch = false then []
  else loopSteps call.memory call.str call.len { parser with beginPtr := call.str - parser.nowLen }

/-- The bytes that calls look at, as long as the answer is `true`. -/
def callsSteps : List Call → HTTPMessageParser → List ParserStep
  | [], _ => []
  | call :: calls, parser =>
      parser.callSteps call ++
        match parser.parserMessage call.memory call.str call.len with
        | .ok (true, after) => callsSteps calls after
        | _ => []

/-- The constructor behind a check that the slice lies in the header that begins at `start`. -/
def headerStringOf (start : Int) (memory : Memory) : StringCtor := fun parser offset length =>
  if start ≤ offset ∧ 1 ≤ length ∧ offset + length ≤ parser.nowLen then
    stringOf memory parser offset length
  else .error .sliceOutside

/-- What is stored are the slices of the lines, under the bytes that were copied as their keys. -/
def Stored (steps : List ParserStep) (parser : HTTPMessageParser) : Prop :=
  ∀ entry ∈ parser.headerPos.entries, ∃ step ∈ steps, ∃ line, step.line? = some line ∧
    step.copy line.key = .ok entry.1 ∧ entry.2 = line.value ∧ line.nowLen ≤ parser.nowLen

end HTTPMessageParser

/-! ## What only the header writes -/

/-- The line that the step on `c` is about to record, as the state has it. -/
def HTTPMessageParser.recordedLine? (parser : HTTPMessageParser) (c : Byte) : Option RecordedLine :=
  match parser.state with
  | .header state =>
      if state.nowPart = .value ∧ c = CR then
        some {
          key := (state.nowKeyOffset, state.nowKeyLen)
          value := (state.nowValueOffset, parser.nowLen + 1 - state.nowValueOffset - 1)
          nowLen := parser.nowLen + 1 }
      else none
  | _ => none

/-- The entries of the header and the length of the body. -/
structure HeaderKept (before after : HTTPMessageParser) : Prop where
  headerPos : after.headerPos = before.headerPos
  totalLen : after.totalLen = before.totalLen

theorem StateMethod.matchStep_headerKept (state : StateMethod) (context : HTTPMessageParser) :
    HeaderKept context (state.matchStep context).2 := by
  have move := state.matchStep_move context
  generalize state.matchStep context = result at move
  obtain ⟨next, middle⟩ := result
  cases move <;> exact ⟨rfl, rfl⟩

theorem URLMove.headerKept {state next : StateURL} {context middle : HTTPMessageParser}
    (move : URLMove state context next middle) : HeaderKept context middle := by
  cases move <;> exact ⟨rfl, rfl⟩

theorem StateVersion.matchStep_headerKept (state : StateVersion) (context : HTTPMessageParser) :
    HeaderKept context (state.matchStep context).2 := by
  have move := state.matchStep_move context
  generalize state.matchStep context = result at move
  obtain ⟨next, middle⟩ := result
  cases move <;> exact ⟨rfl, rfl⟩

theorem StateCode.matchStep_headerKept (state : StateCode) (context : HTTPMessageParser) :
    HeaderKept context (state.matchStep context).2 := by
  unfold matchStep
  simp only
  split_ifs <;> exact ⟨rfl, rfl⟩

theorem StateDetail.matchStep_headerKept (state : StateDetail) (context : HTTPMessageParser) :
    HeaderKept context (state.matchStep context).2 := by
  unfold matchStep
  simp only
  split_ifs <;> exact ⟨rfl, rfl⟩

theorem StateBody.matchStep_headerKept (state : StateBody) (context : HTTPMessageParser) :
    HeaderKept context (state.matchStep context).2 := by
  unfold matchStep
  split_ifs <;> exact ⟨rfl, rfl⟩

/-- A step of any other state leaves both alone. -/
theorem State.matchStep_headerKept {string : StringCtor} {state : State}
    {context after : HTTPMessageParser} (noHeader : ∀ header, state ≠ .header header)
    (taken : state.matchStep string context = .ok after) : HeaderKept context after := by
  cases state with
  | method state =>
      cases taken
      have kept := state.matchStep_headerKept context
      exact ⟨kept.headerPos, kept.totalLen⟩
  | url state =>
      obtain ⟨result, stepped, rfl⟩ := map_eq_ok taken
      have kept := (StateURL.matchStep_move stepped).headerKept
      exact ⟨kept.headerPos, kept.totalLen⟩
  | version state =>
      cases taken
      have kept := state.matchStep_headerKept context
      exact ⟨kept.headerPos, kept.totalLen⟩
  | code state =>
      cases taken
      have kept := state.matchStep_headerKept context
      exact ⟨kept.headerPos, kept.totalLen⟩
  | detail state =>
      cases taken
      have kept := state.matchStep_headerKept context
      exact ⟨kept.headerPos, kept.totalLen⟩
  | header state => exact absurd rfl (noHeader state)
  | body state =>
      cases taken
      have kept := state.matchStep_headerKept context
      exact ⟨kept.headerPos, kept.totalLen⟩

theorem HTTPMessageParser.enterNext_headerKept (parser : HTTPMessageParser) :
    HeaderKept parser parser.enterNext := by
  cases entered : parser.nextState with
  | none =>
      rw [enterNext_of_fresh entered]
      exact ⟨rfl, rfl⟩
  | some next =>
      simp only [enterNext, entered]
      exact ⟨rfl, rfl⟩

/-! ## The lines are what is copied and stored -/

/-- The arguments of the constructors are the slices of the line. -/
theorem StateHeader.matchPart_of_line {state : StateHeader} {parser : HTTPMessageParser}
    {c : Byte} {line : RecordedLine} (inState : parser.state = .header state)
    (records : parser.recordedLine? c = some line) :
    ∃ next : StateHeader, (next.nowKeyOffset, next.nowKeyLen) = line.key ∧
      (next.nowValueOffset, next.nowValueLen) = line.value ∧
      ∀ string beginPtr, state.matchPart string (parser.reading beginPtr c) =
        (next.recordEntry string (parser.reading beginPtr c)).map fun context =>
          (next, context) := by
  simp only [HTTPMessageParser.recordedLine?, inState] at records
  split_ifs at records with ends
  obtain rfl := Option.some.inj records
  refine ⟨{ state with
    nowPart := .end, nowValueLen := parser.nowLen + 1 - state.nowValueOffset - 1 },
    rfl, rfl, fun string beginPtr => ?_⟩
  unfold matchPart
  rw [ends.1]
  exact if_pos ends.2

theorem HTTPMessageParser.goesOn_of_noLine {parser : HTTPMessageParser} {state : StateHeader}
    {c : Byte} (inState : parser.state = .header state) (records : parser.recordedLine? c = none) :
    ¬ (state.nowPart = .value ∧ c = CR) := by
  intro ends
  simp only [recordedLine?, inState, if_pos ends] at records
  cases records

section

variable {string : StringCtor} {state : StateHeader} {parser : HTTPMessageParser} {beginPtr : Int}
variable {c : Byte} (inState : parser.state = .header state)
variable (records : parser.recordedLine? c = none)
include inState records

/-- A step without a line copies nothing, so its strings do not matter. -/
theorem StateHeader.matchPart_eq_of_noLine (other : StringCtor) :
    state.matchPart string (parser.reading beginPtr c) =
      state.matchPart other (parser.reading beginPtr c) := by
  have goesOn := HTTPMessageParser.goesOn_of_noLine inState records
  have char : (parser.reading beginPtr c).nowChar = c := rfl
  unfold matchPart
  rw [char]
  cases part : state.nowPart with
  | value =>
      have noReturn : c ≠ CR := fun ends => goesOn ⟨part, ends⟩
      simp only [if_neg noReturn]
  | key | split | «end» => rfl

/-- It stores nothing and reads no number. -/
theorem StateHeader.matchPart_of_noLine {result : StateHeader × HTTPMessageParser}
    (taken : state.matchPart string (parser.reading beginPtr c) = .ok result) :
    HeaderKept (parser.reading beginPtr c) result.2 := by
  have goesOn := HTTPMessageParser.goesOn_of_noLine inState records
  have char : (parser.reading beginPtr c).nowChar = c := rfl
  unfold matchPart at taken
  rw [char] at taken
  cases part : state.nowPart with
  | value =>
      have noReturn : c ≠ CR := fun ends => goesOn ⟨part, ends⟩
      simp only [part, if_neg noReturn, Except.ok.injEq] at taken
      rw [← taken]
      exact ⟨rfl, rfl⟩
  | key | split | «end» =>
      simp only [part] at taken
      split_ifs at taken <;> cases taken <;> exact ⟨rfl, rfl⟩

end

/-- A byte that ends no line leaves entries and length alone. -/
theorem HTTPMessageParser.matchChar_headerKept {string : StringCtor}
    {parser after : HTTPMessageParser} {c : Byte} (records : parser.recordedLine? c = none)
    (taken : parser.matchChar string c = .ok after) : HeaderKept parser after := by
  have step : parser.state.matchStep string (parser.reading parser.beginPtr c) = .ok after := taken
  by_cases inHeader : ∃ state, parser.state = .header state
  · obtain ⟨state, inState⟩ := inHeader
    rw [inState] at step
    obtain ⟨⟨next, middle⟩, stepped, rfl⟩ := map_eq_ok step
    obtain ⟨⟨other, context⟩, matched, same⟩ := map_eq_ok stepped
    obtain ⟨rfl, rfl⟩ := Prod.mk.inj same
    have kept := StateHeader.matchPart_of_noLine inState records matched
    exact ⟨kept.headerPos, kept.totalLen⟩
  · have kept := State.matchStep_headerKept (fun state inState => inHeader ⟨state, inState⟩) step
    exact ⟨kept.headerPos, kept.totalLen⟩

/-- A line comes from a value that ends. -/
theorem HTTPMessageParser.of_recordedLine {parser : HTTPMessageParser} {c : Byte}
    {line : RecordedLine}
    (records : parser.recordedLine? c = some line) :
    ∃ state, parser.state = .header state ∧ state.nowPart = .value ∧ c = CR ∧
      line = ⟨(state.nowKeyOffset, state.nowKeyLen),
        (state.nowValueOffset, parser.nowLen + 1 - state.nowValueOffset - 1),
        parser.nowLen + 1⟩ := by
  unfold recordedLine? at records
  split at records
  · next state inState =>
      split_ifs at records with ends
      exact ⟨state, inState, ends.1, ends.2, (Option.some.inj records).symm⟩
  · cases records

/-- A byte that ends a line records it. -/
theorem HTTPMessageParser.matchChar_records {string : StringCtor}
    {parser after : HTTPMessageParser} {c : Byte} {line : RecordedLine}
    (records : parser.recordedLine? c = some line)
    (taken : parser.matchChar string c = .ok after) :
    ∃ (recorded : StateHeader) (entered : HTTPMessageParser),
      (recorded.nowKeyOffset, recorded.nowKeyLen) = line.key ∧
      (recorded.nowValueOffset, recorded.nowValueLen) = line.value ∧
      recorded.recordEntry string (parser.reading parser.beginPtr c) = .ok entered ∧
      HeaderKept entered after := by
  have step : parser.state.matchStep string (parser.reading parser.beginPtr c) = .ok after := taken
  obtain ⟨state, inState, -⟩ := of_recordedLine records
  obtain ⟨recorded, key, value, matched⟩ := StateHeader.matchPart_of_line inState records
  rw [inState, State.matchStep, StateHeader.matchStep, matched] at step
  obtain ⟨⟨next, middle⟩, stepped, rfl⟩ := map_eq_ok step
  obtain ⟨⟨other, context⟩, entered, same⟩ := map_eq_ok stepped
  obtain ⟨rfl, rfl⟩ := Prod.mk.inj same
  obtain ⟨stored, recording, same⟩ := map_eq_ok entered
  obtain ⟨rfl, rfl⟩ := Prod.mk.inj same
  exact ⟨recorded, stored, key, value, recording, rfl, rfl⟩

theorem argumentsOf_ne_contentLength (count : Nat) :
    (List.replicate count 0 : Bytes) ≠ contentLength := by
  intro same
  have first := congrArg List.head? same
  cases count with
  | zero => cases first
  | succ count => exact absurd (Option.some.inj first) (by decide)

/-- With its arguments as the string, the step stores the line. -/
theorem StateHeader.recordEntry_argumentsOf (state : StateHeader) (context : HTTPMessageParser) :
    state.recordEntry HTTPMessageParser.argumentsOf context = .ok { context with
      headerPos := context.headerPos.insert
        (List.replicate (Encodable.encode (state.nowKeyOffset, state.nowKeyLen)) 0)
        (state.nowValueOffset, state.nowValueLen) } := by
  unfold recordEntry HTTPMessageParser.argumentsOf
  exact if_neg (argumentsOf_ne_contentLength _)

/-- A step that stores nothing copies no line. -/
theorem HTTPMessageParser.copiedLine?_of_kept {parser : HTTPMessageParser} {c : Byte}
    (kept : ∀ after, parser.emptied.matchChar argumentsOf c = .ok after → after.headerPos = ∅) :
    parser.copiedLine? c = none := by
  unfold copiedLine?
  cases taken : parser.emptied.matchChar argumentsOf c with
  | error fault => rfl
  | ok after =>
      simp only
      rw [kept after taken]
      rfl

theorem HTTPMessageParser.copiedLine?_of_insert {parser after : HTTPMessageParser} {c : Byte}
    (taken : parser.emptied.matchChar argumentsOf c = .ok after) {key value : Slice}
    (stored : after.headerPos =
      (∅ : SliceMap).insert (List.replicate (Encodable.encode key) 0) value) :
    parser.copiedLine? c = some ⟨key, value, after.nowLen⟩ := by
  unfold copiedLine?
  have told : (Encodable.decode (List.replicate (Encodable.encode key) (0 : Byte)).length :
      Option Slice) = some key := by
    rw [List.length_replicate, Encodable.encodek]
  rw [taken]
  simp only
  rw [stored, AList.insert_empty]
  simp only [AList.singleton_entries, told, Option.map_some]

/-- What the state is about to record is what the step copies and stores. -/
theorem HTTPMessageParser.copiedLine?_eq (parser : HTTPMessageParser) (c : Byte) :
    parser.copiedLine? c = parser.recordedLine? c := by
  have about : parser.emptied.recordedLine? c = parser.recordedLine? c := rfl
  cases records : parser.recordedLine? c with
  | none =>
      rw [records] at about
      exact copiedLine?_of_kept fun after taken => (matchChar_headerKept about taken).headerPos
  | some line =>
      rw [records] at about
      obtain ⟨state, inState, -⟩ := of_recordedLine about
      obtain ⟨next, key, value, matched⟩ := StateHeader.matchPart_of_line inState about
      have step : parser.emptied.matchChar argumentsOf c =
          State.matchStep argumentsOf (.header state)
            (parser.emptied.reading parser.emptied.beginPtr c) := by
        rw [← inState]
        rfl
      rw [State.matchStep, StateHeader.matchStep, matched,
        StateHeader.recordEntry_argumentsOf, key, value] at step
      obtain ⟨other, -, -, -, rfl⟩ := of_recordedLine records
      refine copiedLine?_of_insert step ?_
      rfl

/-! ## The invariant -/

/-- Both slices end in front of `floor`. -/
def RecordedLine.Ends (line : RecordedLine) (floor : Int) : Prop :=
  line.key.1 + line.key.2 < floor ∧ line.value.1 + line.value.2 < floor

theorem RecordedLine.Ends.mono {line : RecordedLine} {floor higher : Int} (ends : line.Ends floor)
    (le : floor ≤ higher) : line.Ends higher :=
  ⟨Int.lt_of_lt_of_le ends.1 le, Int.lt_of_lt_of_le ends.2 le⟩

/--
The offsets of the current line after `read` bytes, where the line begins at `floor`.  An
offset is looked at only in the parts that come after the one that sets it.
-/
def StateHeader.Placed (state : StateHeader) (floor read : Int) : Prop :=
  match state.nowPart with
  | .key => floor ≤ read ∧
      (state.nowIdx ≠ 0 → floor ≤ state.nowKeyOffset ∧ state.nowKeyOffset < read)
  | .split => floor ≤ state.nowKeyOffset ∧ 1 ≤ state.nowKeyLen ∧
      state.nowKeyOffset + state.nowKeyLen < read
  | .value => floor ≤ state.nowKeyOffset ∧ 1 ≤ state.nowKeyLen ∧
      state.nowKeyOffset + state.nowKeyLen < state.nowValueOffset ∧ state.nowValueOffset < read
  | .end => floor ≤ read

/-- A parser in the header, or behind it, and the lines that it has recorded. -/
structure Sliced (start : Int) (lines : List RecordedLine) (parser : HTTPMessageParser) : Prop where
  fresh : parser.nextState = none
  placed : LinesPlaced start lines
  tail : match parser.state with
    | .header state => ∃ floor, start ≤ floor ∧ (∀ line ∈ lines, line.Ends floor) ∧
        state.Placed floor parser.nowLen
    | .body _ => True
    | _ => False

section

variable {start : Int} {lines : List RecordedLine} {parser after : HTTPMessageParser} {c : Byte}

/-- The line of the step is in range and lies behind all others. -/
theorem Sliced.line (sliced : Sliced start lines parser) {line : RecordedLine}
    (records : parser.recordedLine? c = some line) :
    line.InRange start ∧ line.Ends (parser.nowLen + 1) ∧
      ∀ earlier ∈ lines, earlier.Before line := by
  obtain ⟨state, inState, part, -, rfl⟩ := HTTPMessageParser.of_recordedLine records
  have tail := sliced.tail
  simp only [inState] at tail
  obtain ⟨floor, begun, ended, placed⟩ := tail
  simp only [StateHeader.Placed, part] at placed
  obtain ⟨keyStart, keyNonempty, apart, valueStart⟩ := placed
  refine ⟨?_, ⟨?_, ?_⟩, ?_⟩
  · constructor <;> dsimp only <;> omega
  · dsimp only
    omega
  · dsimp only
    omega
  · intro earlier member slice isSlice other isOther
    obtain ⟨keyEnds, valueEnds⟩ := ended earlier member
    have sliceEnds : slice.1 + slice.2 < floor := by
      rcases List.mem_pair.mp isSlice with rfl | rfl
      · exact keyEnds
      · exact valueEnds
    have behind : floor ≤ other.1 := by
      rcases List.mem_pair.mp isOther with rfl | rfl
      · exact keyStart
      · dsimp only
        omega
    exact Int.lt_of_lt_of_le sliceEnds behind

theorem Sliced.placed_line (sliced : Sliced start lines parser) (c : Byte) :
    LinesPlaced start (lines ++ (parser.recordedLine? c).toList) := by
  cases records : parser.recordedLine? c with
  | none => simpa using sliced.placed
  | some line =>
      obtain ⟨inRange, -, behind⟩ := sliced.line records
      refine ⟨fun other member => ?_, ?_⟩
      · rcases List.mem_append.mp member with old | new
        · exact sliced.placed.inRange other old
        · rw [List.mem_singleton.mp new]
          exact inRange
      · refine List.pairwise_append.mpr
          ⟨sliced.placed.ordered, List.pairwise_singleton _ _, fun earlier old later new => ?_⟩
        rw [List.mem_singleton.mp new]
        exact behind earlier old

/-! ## One byte -/

/-- The offsets of a line stay in place, byte by byte. -/
theorem HeaderMove.placed {state next : StateHeader} {context middle : HTTPMessageParser}
    {floor : Int} (move : HeaderMove state context next middle)
    (placed : state.Placed floor (context.nowLen - 1)) : next.Placed floor context.nowLen := by
  cases move with
  | lineWithoutColon part | keyStart part | keyEnd part | keyByte part | space part
  | valueStart part | valueByte part | record part | headerEnd part | lineEnd part
  | mismatch part =>
      simp only [StateHeader.Placed, part] at placed ⊢
      omega

theorem HeaderMove.nowLen {state next : StateHeader} {context middle : HTTPMessageParser}
    (move : HeaderMove state context next middle) : middle.nowLen = context.nowLen := by
  cases move <;> rfl

theorem HeaderMove.end_of_line {state next : StateHeader} {beginPtr : Int}
    {middle : HTTPMessageParser} {line : RecordedLine} (inState : parser.state = .header state)
    (move : HeaderMove state (parser.reading beginPtr c) next middle)
    (records : parser.recordedLine? c = some line) : next.nowPart = .end := by
  simp only [HTTPMessageParser.recordedLine?, inState] at records
  split_ifs at records with ends
  cases move with
  | record part char key totalLen => rfl
  | valueByte part char => exact absurd ends.2 char
  | lineWithoutColon part | keyStart part | keyEnd part | keyByte part | space part
  | valueStart part | headerEnd part | lineEnd part | mismatch part =>
      exact Part.noConfusion (part.symm.trans ends.1)

/-- What the step in the header leaves, before the next state is entered. -/
theorem Sliced.inHeader (sliced : Sliced start lines parser) {state next : StateHeader}
    {beginPtr : Int} {middle : HTTPMessageParser} (inState : parser.state = .header state)
    (move : HeaderMove state (parser.reading beginPtr c) next middle) :
    ∃ floor, start ≤ floor ∧
      (∀ line ∈ lines ++ (parser.recordedLine? c).toList, line.Ends floor) ∧
      next.Placed floor middle.nowLen := by
  have tail := sliced.tail
  simp only [inState] at tail
  obtain ⟨floor, begun, ended, placed⟩ := tail
  have read : middle.nowLen = parser.nowLen + 1 := move.nowLen
  have before : state.Placed floor ((parser.reading beginPtr c).nowLen - 1) := by
    have back : (parser.reading beginPtr c).nowLen - 1 = parser.nowLen := Int.add_sub_cancel _ _
    rw [back]
    exact placed
  have kept := move.placed before
  rw [← move.nowLen] at kept
  cases records : parser.recordedLine? c with
  | some line =>
      -- the next line begins behind this one
      have isEnd := move.end_of_line inState records
      obtain ⟨-, ends, -⟩ := sliced.line records
      have floorLe : floor ≤ middle.nowLen := by
        simpa only [StateHeader.Placed, isEnd] using kept
      refine ⟨middle.nowLen, Int.le_trans begun floorLe, ?_, ?_⟩
      · intro other member
        rcases List.mem_append.mp member with old | new
        · exact (ended other old).mono floorLe
        · rw [List.mem_singleton.mp new, read]
          exact ends
      · simp only [StateHeader.Placed, isEnd]
        exact Int.le_refl _
  | none =>
      refine ⟨floor, begun, ?_, kept⟩
      simpa using ended

/-- Every byte that does not throw keeps the invariant. -/
theorem Sliced.next (sliced : Sliced start lines parser) {string : StringCtor}
    (taken : parser.matchChar string c = .ok after) :
    Sliced start (lines ++ (parser.recordedLine? c).toList) after.enterNext := by
  have placed := sliced.placed_line c
  have fresh := HTTPMessageParser.enterNext_nextState after
  have step : parser.state.matchStep string (parser.reading parser.beginPtr c) = .ok after := taken
  cases inState : parser.state with
  | header state =>
      rw [inState] at step
      obtain ⟨⟨next, middle⟩, stepped, rfl⟩ := map_eq_ok step
      have move : HeaderMove state (parser.reading parser.beginPtr c) next middle :=
        StateHeader.matchStep_move stepped
      obtain ⟨floor, begun, ended, kept⟩ := sliced.inHeader inState move
      refine ⟨fresh, placed, ?_⟩
      rcases move.nextState with stays | ⟨leaves, -⟩
      · have unchanged : middle.nextState = none := stays.trans sliced.fresh
        simp only [HTTPMessageParser.enterNext, unchanged]
        exact ⟨floor, begun, ended, kept⟩
      · simp only [HTTPMessageParser.enterNext, leaves]
  | body state =>
      rw [inState] at step
      have entered := state.matchStep_nextState (parser.reading parser.beginPtr c)
      cases matched : state.matchStep (parser.reading parser.beginPtr c) with
      | mk next middle =>
          rw [matched] at entered
          simp only [State.matchStep, matched, Except.ok.injEq] at step
          obtain rfl := step
          have unchanged : middle.nextState = none := entered.trans sliced.fresh
          refine ⟨fresh, placed, ?_⟩
          simp only [HTTPMessageParser.enterNext, unchanged]
  | _ =>
      have tail := sliced.tail
      rw [inState] at tail
      exact tail.elim

end

/-! ## What one byte copies and stores -/

section

variable {start : Int} {lines : List RecordedLine} {parser after : HTTPMessageParser}
variable {memory : Memory} {c : Byte}

theorem StateHeader.takeTotalLen_checked {state : StateHeader} {context : HTTPMessageParser}
    (value : start ≤ state.nowValueOffset ∧ 1 ≤ state.nowValueLen ∧
      state.nowValueOffset + state.nowValueLen ≤ context.nowLen) :
    state.takeTotalLen (HTTPMessageParser.headerStringOf start memory) context =
      state.takeTotalLen (stringOf memory) context := by
  have built : HTTPMessageParser.headerStringOf start memory context state.nowValueOffset
      state.nowValueLen = stringOf memory context state.nowValueOffset state.nowValueLen :=
    if_pos value
  unfold takeTotalLen
  rw [built]

theorem StateHeader.recordEntry_checked {state : StateHeader} {context : HTTPMessageParser}
    (key : start ≤ state.nowKeyOffset ∧ 1 ≤ state.nowKeyLen ∧
      state.nowKeyOffset + state.nowKeyLen ≤ context.nowLen)
    (value : start ≤ state.nowValueOffset ∧ 1 ≤ state.nowValueLen ∧
      state.nowValueOffset + state.nowValueLen ≤ context.nowLen) :
    state.recordEntry (HTTPMessageParser.headerStringOf start memory) context =
      state.recordEntry (stringOf memory) context := by
  have built : HTTPMessageParser.headerStringOf start memory context state.nowKeyOffset
      state.nowKeyLen = stringOf memory context state.nowKeyOffset state.nowKeyLen := if_pos key
  unfold recordEntry
  rw [built]
  cases stringOf memory context state.nowKeyOffset state.nowKeyLen with
  | error fault => rfl
  | ok copied =>
      simp only
      split_ifs
      · exact takeTotalLen_checked value
      · rfl

theorem Sliced.matchPart_checked (sliced : Sliced start lines parser) {state : StateHeader}
    (inState : parser.state = .header state) (beginPtr : Int) :
    state.matchPart (HTTPMessageParser.headerStringOf start memory) (parser.reading beginPtr c) =
      state.matchPart (stringOf memory) (parser.reading beginPtr c) := by
  cases records : parser.recordedLine? c with
  | none => exact StateHeader.matchPart_eq_of_noLine inState records (stringOf memory)
  | some line =>
      obtain ⟨inRange, -, -⟩ := sliced.line records
      have at_ : line.nowLen = parser.nowLen + 1 := by
        obtain ⟨other, -, -, -, rfl⟩ := HTTPMessageParser.of_recordedLine records
        rfl
      obtain ⟨next, key, value, matched⟩ := StateHeader.matchPart_of_line inState records
      have keyInside := inRange.key_inside
      have valueInside := inRange.value_inside
      have keyFacts := And.intro inRange.key_start inRange.key_nonempty
      have valueFacts := And.intro inRange.value_start inRange.value_nonempty
      rw [← key] at keyInside keyFacts
      rw [← value] at valueInside valueFacts
      rw [at_] at keyInside valueInside
      rw [matched, matched, StateHeader.recordEntry_checked
        ⟨keyFacts.1, keyFacts.2, keyInside⟩ ⟨valueFacts.1, valueFacts.2, valueInside⟩]

/-- The check changes no step. -/
theorem Sliced.matchChar_checked (sliced : Sliced start lines parser) :
    parser.matchChar (HTTPMessageParser.headerStringOf start memory) c =
      parser.matchChar (stringOf memory) c := by
  change parser.state.matchStep _ (parser.reading parser.beginPtr c) =
    parser.state.matchStep _ (parser.reading parser.beginPtr c)
  cases inState : parser.state with
  | header state =>
      rw [State.matchStep, StateHeader.matchStep, sliced.matchPart_checked inState]
      rfl
  | body state => rfl
  | _ =>
      have tail := sliced.tail
      rw [inState] at tail
      exact tail.elim

/-- A byte that ends a line stores its value under the bytes of its key. -/
theorem HTTPMessageParser.matchChar_stores {line : RecordedLine}
    (records : parser.recordedLine? c = some line)
    (taken : parser.matchChar (stringOf memory) c = .ok after) :
    ∃ key, ParserStep.copy ⟨parser, c, memory⟩ line.key = .ok key ∧
      after.headerPos = parser.headerPos.insert key line.value := by
  obtain ⟨recorded, entered, key, value, recording, kept⟩ := matchChar_records records taken
  obtain ⟨copied, totalLen, built, rfl⟩ := StateHeader.recordEntry_eq_ok recording
  rw [kept.headerPos, ← value]
  refine ⟨copied, ?_, rfl⟩
  rw [← key]
  exact built

end

/-! ## The steps -/

/-- Each step has read one byte more than the one in front of it. -/
def CountsFrom (first : Int) : List ParserStep → Prop
  | [] => True
  | step :: rest => step.parser.nowLen = first ∧ CountsFrom (first + 1) rest

theorem CountsFrom.concat {steps : List ParserStep} {first : Int} (counts : CountsFrom first steps)
    {step : ParserStep} (place : step.parser.nowLen = first + steps.length) :
    CountsFrom first (steps ++ [step]) := by
  induction steps generalizing first with
  | nil => exact ⟨by simpa using place, trivial⟩
  | cons head rest ih =>
      refine ⟨counts.1, ih counts.2 ?_⟩
      rw [place, List.length_cons]
      push_cast
      ring

section

variable {start : Int} {steps : List ParserStep} {parser after : HTTPMessageParser}
variable {memory : Memory} {c : Byte}

theorem linesOf_concat (steps : List ParserStep) (parser : HTTPMessageParser) (c : Byte)
    (memory : Memory) : linesOf (steps ++ [⟨parser, c, memory⟩]) =
      linesOf steps ++ (parser.recordedLine? c).toList := by
  unfold linesOf
  rw [List.filterMap_append]
  congr 1
  rw [← parser.copiedLine?_eq c]
  cases copied : parser.copiedLine? c with
  | none => simp [ParserStep.line?, copied]
  | some line => simp [ParserStep.line?, copied]

/-- A parser in the header, or behind it, and the steps that have led to it. -/
structure Traced (start : Int) (steps : List ParserStep) (parser : HTTPMessageParser) :
    Prop where
  sliced : Sliced start (linesOf steps) parser
  stored : parser.Stored steps
  counts : CountsFrom start steps
  read : parser.nowLen = start + steps.length

/-- What holds of steps that end a run, also when the last one throws. -/
structure StepsTraced (start : Int) (steps : List ParserStep) : Prop where
  placed : LinesPlaced start (linesOf steps)
  counts : CountsFrom start steps

theorem Traced.ended (traced : Traced start steps parser) : StepsTraced start steps :=
  ⟨traced.sliced.placed, traced.counts⟩

theorem Traced.concat (traced : Traced start steps parser) (c : Byte) (memory : Memory) :
    StepsTraced start (steps ++ [⟨parser, c, memory⟩]) where
  placed := by
    rw [linesOf_concat]
    exact traced.sliced.placed_line c
  counts := traced.counts.concat traced.read

theorem HTTPMessageParser.Stored.grow (stored : parser.Stored steps)
    (same : after.headerPos = parser.headerPos) (longer : parser.nowLen ≤ after.nowLen)
    (more : List ParserStep) : after.Stored (steps ++ more) := by
  intro entry member
  rw [same] at member
  obtain ⟨step, listed, line, copied, key, value, before⟩ := stored entry member
  exact ⟨step, List.mem_append_left _ listed, line, copied, key, value,
    Int.le_trans before longer⟩

/-- What is stored after a byte: what was stored, and the line that it ends. -/
theorem HTTPMessageParser.Stored.next (stored : parser.Stored steps)
    (taken : parser.matchChar (stringOf memory) c = .ok after) :
    after.Stored (steps ++ [⟨parser, c, memory⟩]) := by
  have read := matchChar_nowLen taken
  cases records : parser.recordedLine? c with
  | none =>
      have kept := (matchChar_headerKept records taken).headerPos
      exact stored.grow kept (by omega) _
  | some line =>
      obtain ⟨key, copied, entries⟩ := matchChar_stores records taken
      intro entry member
      rw [entries] at member
      rcases mem_insert_entries member with rfl | old
      · refine ⟨⟨parser, c, memory⟩, by simp, line, ?_, copied, rfl, ?_⟩
        · exact (parser.copiedLine?_eq c).trans records
        · obtain ⟨other, -, -, -, rfl⟩ := of_recordedLine records
          exact Int.le_of_eq read.symm
      · obtain ⟨step, listed, other, shown, bytes, value, before⟩ := stored entry old
        exact ⟨step, List.mem_append_left _ listed, other, shown, bytes, value, by omega⟩

theorem HTTPMessageParser.Stored.enterNext (stored : parser.Stored steps) :
    parser.enterNext.Stored steps := by
  have same := parser.enterNext_headerKept.headerPos
  have read := (HTTPMessageParser.enterNext_sameInput parser).nowLen
  simpa using stored.grow same (Int.le_of_eq read.symm) []

/-- Every byte that does not throw adds its step. -/
theorem Traced.next (traced : Traced start steps parser)
    (taken : parser.matchChar (stringOf memory) c = .ok after) :
    Traced start (steps ++ [⟨parser, c, memory⟩]) after.enterNext where
  sliced := by
    rw [linesOf_concat]
    exact traced.sliced.next taken
  stored := (traced.stored.next taken).enterNext
  counts := (traced.concat c memory).counts
  read := by
    rw [(HTTPMessageParser.enterNext_sameInput after).nowLen,
      HTTPMessageParser.matchChar_nowLen taken, traced.read, List.length_append,
      List.length_singleton]
    push_cast
    ring

end

/-! ## The calls -/

/-- What a run leaves whose steps are `steps`, and that it is the run with the check. -/
structure RunTraced (start : Int) (steps : List ParserStep)
    (checked run : Except Fault (Bool × HTTPMessageParser)) : Prop where
  ended : StepsTraced start steps
  checked : checked = run
  stored : ∀ answer last, run = .ok (answer, last) → last.Stored steps
  goesOn : ∀ last, run = .ok (true, last) → Traced start steps last

section

variable {start : Int} {steps : List ParserStep} {parser : HTTPMessageParser}

theorem StepsTraced.fault (traced : StepsTraced start steps) (fault : Fault) :
    RunTraced start steps (.error fault) (.error fault) where
  ended := traced
  checked := rfl
  stored := fun answer last run => by cases run
  goesOn := fun last run => by cases run

theorem StepsTraced.stopped (traced : StepsTraced start steps) (stored : parser.Stored steps) :
    RunTraced start steps (.ok (false, parser)) (.ok (false, parser)) where
  ended := traced
  checked := rfl
  stored := fun answer last run => by
    obtain ⟨-, rfl⟩ := Prod.mk.inj (Except.ok.inj run)
    exact stored
  goesOn := fun last run => by cases run

theorem Traced.done (traced : Traced start steps parser) :
    RunTraced start steps (.ok (true, parser)) (.ok (true, parser)) where
  ended := traced.ended
  checked := rfl
  stored := fun answer last run => by
    obtain ⟨-, rfl⟩ := Prod.mk.inj (Except.ok.inj run)
    exact traced.stored
  goesOn := fun last run => by
    obtain ⟨-, rfl⟩ := Prod.mk.inj (Except.ok.inj run)
    exact traced

/-- The loop of one call, also when it ends early. -/
theorem Traced.loop (traced : Traced start steps parser) (memory : Memory) (str : Int)
    (len : Nat) :
    RunTraced start (steps ++ HTTPMessageParser.loopSteps memory str len parser)
      (parser.parserLoop (HTTPMessageParser.headerStringOf start memory) memory str len)
      (parser.parserLoop (stringOf memory) memory str len) := by
  induction len generalizing str steps parser with
  | zero =>
      rw [HTTPMessageParser.loopSteps, List.append_nil]
      exact traced.done
  | succ len ih =>
      unfold HTTPMessageParser.loopSteps HTTPMessageParser.parserLoop
      cases found : memory str with
      | none =>
          simp only [List.append_nil]
          exact traced.ended.fault _
      | some c =>
          simp only [traced.sliced.matchChar_checked]
          cases taken : parser.matchChar (stringOf memory) c with
          | error fault => exact (traced.concat c memory).fault fault
          | ok after =>
              have next := traced.next taken
              simp only
              rw [List.append_cons]
              by_cases stopped : after.isMatch = false
              · rw [if_pos stopped, if_pos stopped, if_pos stopped, List.append_nil]
                exact (traced.concat c memory).stopped (traced.stored.next taken)
              · rw [if_neg stopped, if_neg stopped, if_neg stopped]
                exact ih next (str + 1)

/-- One call; where the bytes lie does not matter. -/
theorem Traced.call (traced : Traced start steps parser) (call : Call) :
    RunTraced start (steps ++ parser.callSteps call)
      (parser.parserMessageWith (HTTPMessageParser.headerStringOf start) call.memory call.str
        call.len)
      (parser.parserMessage call.memory call.str call.len) := by
  unfold HTTPMessageParser.callSteps HTTPMessageParser.parserMessage
    HTTPMessageParser.parserMessageWith
  by_cases stopped : parser.isMatch = false
  · rw [if_pos stopped, if_pos stopped, if_pos stopped, List.append_nil]
    exact traced.ended.stopped traced.stored
  · rw [if_neg stopped, if_neg stopped, if_neg stopped]
    have moved : Traced start steps { parser with beginPtr := call.str - parser.nowLen } :=
      ⟨⟨traced.sliced.fresh, traced.sliced.placed, traced.sliced.tail⟩, traced.stored,
        traced.counts, traced.read⟩
    exact moved.loop call.memory call.str call.len

theorem Traced.calls (traced : Traced start steps parser) (calls : List Call) :
    StepsTraced start (steps ++ parser.callsSteps calls) ∧
      HTTPMessageParser.parserMessagesWith (HTTPMessageParser.headerStringOf start) calls parser =
        parser.parserMessages calls ∧
      ∀ answer last, parser.parserMessages calls = .ok (answer, last) →
        last.Stored (steps ++ parser.callsSteps calls) := by
  induction calls generalizing steps parser with
  | nil =>
      rw [HTTPMessageParser.callsSteps, List.append_nil]
      refine ⟨traced.ended, rfl, fun answer last run => ?_⟩
      obtain ⟨-, rfl⟩ := Prod.mk.inj (Except.ok.inj run)
      exact traced.stored
  | cons call calls ih =>
      obtain ⟨ended, checked, stored, goesOn⟩ := traced.call call
      unfold HTTPMessageParser.callsSteps HTTPMessageParser.parserMessages
        HTTPMessageParser.parserMessagesWith
      rw [checked]
      unfold HTTPMessageParser.parserMessage at stored goesOn ⊢
      cases called : parser.parserMessageWith stringOf call.memory call.str call.len with
      | error fault =>
          simp only [List.append_nil]
          refine ⟨ended, trivial, fun answer last run => ?_⟩
          cases run
      | ok result =>
          obtain ⟨answered, after⟩ := result
          cases answered with
          | false =>
              simp only [List.append_nil]
              refine ⟨ended, trivial, fun answer last run => ?_⟩
              obtain ⟨-, rfl⟩ := Prod.mk.inj (Except.ok.inj run)
              exact stored _ _ called
          | true =>
              simp only
              rw [← List.append_assoc]
              exact ih (goesOn _ called)

end

namespace HTTPMessageParser

end HTTPMessageParser

end SimpleWebServer.Http
