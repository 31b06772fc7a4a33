import SimpleWebServer.Base.Memory
import Mathlib.Data.List.AList

/-!
# The HTTP message parser

`HTTPMessageParser` reads a message byte by byte.  Each part of the message has a
state object whose `match` step updates its own counters and the parser around it.
Keys are copied out of the input through `begin_ptr` while the message is read;
everything else is remembered as an offset and a length and looked up at the end.

How a `std::string` is made from a slice of the input is a parameter of the step,
so that the same parser can be run with the constructor of the library and with one
that also checks that the slice lies within the bytes consumed so far.

Positions are unbounded here.  In a message of at most 2147483647 bytes they are those of the
source, whose `int`s hold them; what holds of a longer one is a question of its own.
-/

namespace SimpleWebServer.Http

open SimpleWebServer.Base

inductive HTTPMethod where
  | get
  | post
  deriving DecidableEq, Repr

inductive HTTPVersion where
  | v0_9
  | v1_0
  | v1_1
  | v2
  | v3
  deriving DecidableEq, Repr

/-- `get_method_str` -/
def getMethodStr : HTTPMethod → Bytes
  | .get => ascii "GET"
  | .post => ascii "POST"

/-! ## Bytes with a meaning in the grammar -/

def CR : Byte := 13
def LF : Byte := 10
def SP : Byte := 32
def colon : Byte := 58
def question : Byte := 63
def equalSign : Byte := 61
def ampersand : Byte := 38

/-- The header whose value is the length of the body. -/
def contentLength : Bytes := ascii "Content-Length"

/-! ## `std::stoi` -/

/-- `isspace` in the C locale. -/
def isSpace (byte : Byte) : Bool := byte == 32 || (9 ≤ byte && byte ≤ 13)

def isDigit (byte : Byte) : Bool := 48 ≤ byte && byte ≤ 57

/-- The number written by a list of decimal digits. -/
def digitsValue (digits : Bytes) : Nat :=
  digits.foldl (fun value digit => value * 10 + (digit.toNat - 48)) 0

/-- The optional sign in front of a number. -/
def splitSign : Bytes → Bool × Bytes
  | 45 :: rest => (true, rest)
  | 43 :: rest => (false, rest)
  | text => (false, text)

/-- `std::stoi`: white space, an optional sign, then the longest run of digits. -/
def stoi (text : Bytes) : Except Fault Int :=
  let (negative, unsigned) := splitSign (text.dropWhile isSpace)
  let digits := unsigned.takeWhile isDigit
  if digits = [] then .error .invalidArgument
  else
    let value : Int := if negative then -(digitsValue digits : Int) else digitsValue digits
    if -2147483648 ≤ value ∧ value ≤ 2147483647 then .ok value else .error .outOfRange

/-! ## The states -/

/-- An offset and a length; `PII` in the source. -/
abbrev Slice := Int × Int

/-- `unordered_map<string, PII>` -/
abbrev SliceMap := AList fun _ : Bytes => Slice

structure StateMethod where
  nowIdx : Nat := 0
  deriving DecidableEq, Repr

structure StateURL where
  nowIdx : Nat := 0
  nowKeyOffset : Int := -1
  nowKeyLen : Int := -1
  nowValueOffset : Int := -1
  nowValueLen : Int := -1
  hasQuery : Bool := false
  deriving DecidableEq, Repr

structure StateVersion where
  nowIdx : Nat := 0
  isPrefixHttp0 : Bool := true
  deriving DecidableEq, Repr

structure StateCode where
  nowIdx : Nat := 0
  codeArr : Int × Int × Int := (0, 0, 0)
  deriving DecidableEq, Repr

structure StateDetail where
  nowIdx : Int := 0
  isPrefixR : Bool := false
  deriving DecidableEq, Repr

/-- `StateHeader::part_e` -/
inductive Part where
  | key
  | split
  | value
  | «end»
  deriving DecidableEq, Repr

structure StateHeader where
  isEmptyLine : Bool := false
  nowIdx : Int := 0
  nowPart : Part := .key
  nowKeyOffset : Int := 0
  nowKeyLen : Int := 0
  nowValueOffset : Int := 0
  nowValueLen : Int := 0
  deriving DecidableEq, Repr

structure StateBody where
  nowIdx : Int := 0
  deriving DecidableEq, Repr

/-- The object behind `unique_ptr<State>`. -/
inductive State where
  | method (state : StateMethod)
  | url (state : StateURL)
  | version (state : StateVersion)
  | code (state : StateCode)
  | detail (state : StateDetail)
  | header (state : StateHeader)
  | body (state : StateBody)
  deriving DecidableEq, Repr

structure HTTPMessageParser where
  isRequest : Bool
  isMatch : Bool := true
  totalLen : Int := 0
  nowLen : Int := 0
  nowChar : Byte := 0
  beginPtr : Int := 0
  state : State
  nextState : Option State := none
  method : HTTPMethod := .get
  pathPos : Slice := (0, 0)
  queryPos : SliceMap := ∅
  version : HTTPVersion
  code : Int
  detailPos : Slice := (0, 0)
  headerPos : SliceMap := ∅
  bodyPos : Slice := (0, 0)
  deriving DecidableEq

/-- `string(begin_ptr + offset, length)` inside a step of the parser. -/
abbrev StringCtor := HTTPMessageParser → (offset length : Int) → Except Fault Bytes

/-- The library's constructor: a negative length wraps and throws, any other length is read. -/
def stringOf (memory : Memory) : StringCtor := fun parser offset length =>
  if length < 0 then .error .lengthError
  else
    match memory.read (parser.beginPtr + offset) length.toNat with
    | some bytes => .ok bytes
    | none => .error .wildRead

/-- The slice lies within the bytes the parser has consumed. -/
def SliceConsumed (parser : HTTPMessageParser) (offset length : Int) : Prop :=
  0 ≤ offset ∧ offset + length ≤ parser.nowLen

instance (parser : HTTPMessageParser) (offset length : Int) :
    Decidable (SliceConsumed parser offset length) :=
  inferInstanceAs (Decidable (_ ∧ _))

/-- The same constructor behind a check that the slice lies within the consumed bytes. -/
def checkedStringOf (memory : Memory) : StringCtor := fun parser offset length =>
  if length < 0 then .error .lengthError
  else if SliceConsumed parser offset length then stringOf memory parser offset length
  else .error .sliceOutside

/-! ## The `match` steps -/

namespace StateBody

def matchStep (state : StateBody) (context : HTTPMessageParser) :
    StateBody × HTTPMessageParser :=
  let l := context.nowLen
  let context :=
    if state.nowIdx = 0 then
      { context with bodyPos := (l - 1, context.bodyPos.2) }
    else if state.nowIdx = context.totalLen - 1 then
      { context with bodyPos := (context.bodyPos.1, l - context.bodyPos.1) }
    else context
  ({ state with nowIdx := state.nowIdx + 1 }, context)

end StateBody

namespace StateHeader

/-- `context.total_len = stoi(string(begin_ptr + now_value_offset, now_value_len))` -/
def takeTotalLen (string : StringCtor) (state : StateHeader) (context : HTTPMessageParser) :
    Except Fault HTTPMessageParser :=
  match string context state.nowValueOffset state.nowValueLen with
  | .error fault => .error fault
  | .ok value => (stoi value).map fun totalLen => { context with totalLen := totalLen }

/-- The end of a value: record the entry, and take the body length from it. -/
def recordEntry (string : StringCtor) (state : StateHeader) (context : HTTPMessageParser) :
    Except Fault HTTPMessageParser :=
  match string context state.nowKeyOffset state.nowKeyLen with
  | .error fault => .error fault
  | .ok key =>
      let context := { context with
        headerPos := context.headerPos.insert key (state.nowValueOffset, state.nowValueLen) }
      if key = contentLength then state.takeTotalLen string context else .ok context

/-- The `switch` over `now_part`. -/
def matchPart (string : StringCtor) (state : StateHeader) (context : HTTPMessageParser) :
    Except Fault (StateHeader × HTTPMessageParser) :=
  let c := context.nowChar
  let l := context.nowLen
  match state.nowPart with
  | .key =>
      if c = CR then
        .ok ({ state with nowPart := .end, isEmptyLine := true }, context)
      else if state.nowIdx = 0 then
        .ok ({ state with nowKeyOffset := l - 1 }, context)
      else if c = colon then
        .ok ({ state with nowPart := .split, nowKeyLen := l - state.nowKeyOffset - 1 }, context)
      else .ok (state, context)
  | .split =>
      if c ≠ SP then
        .ok ({ state with nowPart := .value, nowValueOffset := l - 1 }, context)
      else .ok (state, context)
  | .value =>
      if c = CR then
        let state := { state with
          nowPart := Part.end, nowValueLen := l - state.nowValueOffset - 1 }
        (state.recordEntry string context).map fun context => (state, context)
      else .ok (state, context)
  | .end =>
      if c = LF ∧ state.isEmptyLine = true then
        .ok (state, { context with nextState := some (.body {}) })
      else if c = LF then
        .ok ({ state with nowPart := .key, nowIdx := -1 }, context)
      else .ok (state, { context with isMatch := false })

def matchStep (string : StringCtor) (state : StateHeader) (context : HTTPMessageParser) :
    Except Fault (StateHeader × HTTPMessageParser) :=
  (state.matchPart string context).map fun (state, context) =>
    ({ state with nowIdx := state.nowIdx + 1 }, context)

end StateHeader

namespace StateDetail

def matchStep (state : StateDetail) (context : HTTPMessageParser) :
    StateDetail × HTTPMessageParser :=
  let c := context.nowChar
  let l := context.nowLen
  let (state, context) :=
    if c = CR then ({ state with isPrefixR := true }, context)
    else if state.isPrefixR = true ∧ c = LF then
      (state, { context with
        detailPos := (l - state.nowIdx, state.nowIdx + 1), nextState := some (.header {}) })
    else (state, context)
  ({ state with nowIdx := state.nowIdx + 1 }, context)

end StateDetail

/-- `http_code_map`: the status codes the server knows, with their reason phrases. -/
def httpCodeMap : List (Int × Bytes) :=
  [(100, ascii "Continue"),
    (101, ascii "Switching Protocols"),
    (102, ascii "Processing"),
    (200, ascii "OK"),
    (201, ascii "Created"),
    (202, ascii "Accepted"),
    (203, ascii "Non-Authoritative Information"),
    (204, ascii "No Content"),
    (205, ascii "Reset Content"),
    (206, ascii "Partial Content"),
    (207, ascii "Multi-Status"),
    (208, ascii "Already Reported"),
    (226, ascii "IM Used"),
    (300, ascii "Multiple Choices"),
    (301, ascii "Moved Permanently"),
    (302, ascii "Found"),
    (303, ascii "See Other"),
    (304, ascii "Not Modified"),
    (305, ascii "Use Proxy"),
    (307, ascii "Temporary Redirect"),
    (308, ascii "Permanent Redirect"),
    (400, ascii "Bad Request"),
    (401, ascii "Unauthorized"),
    (402, ascii "Payment Required"),
    (403, ascii "Forbidden"),
    (404, ascii "Not Found"),
    (405, ascii "Method Not Allowed"),
    (406, ascii "Not Acceptable"),
    (407, ascii "Proxy Authentication Required"),
    (408, ascii "Request Timeout"),
    (409, ascii "Conflict"),
    (410, ascii "Gone"),
    (411, ascii "Length Required"),
    (412, ascii "Precondition Failed"),
    (413, ascii "Payload Too Large"),
    (414, ascii "URI Too Long"),
    (415, ascii "Unsupported Media Type"),
    (416, ascii "Range Not Satisfiable"),
    (417, ascii "Expectation Failed"),
    (421, ascii "Misdirected Request"),
    (422, ascii "Unprocessable Entity"),
    (423, ascii "Locked"),
    (424, ascii "Failed Dependency"),
    (426, ascii "Upgrade Required"),
    (428, ascii "Precondition Required"),
    (429, ascii "Too Many Requests"),
    (431, ascii "Request Header Fields Too Large"),
    (451, ascii "Unavailable For Legal Reasons"),
    (500, ascii "Internal Server Error"),
    (501, ascii "Not Implemented"),
    (502, ascii "Bad Gateway"),
    (503, ascii "Service Unavailable"),
    (504, ascii "Gateway Timeout"),
    (505, ascii "HTTP Version Not Supported"),
    (506, ascii "Variant Also Negotiates"),
    (507, ascii "Insufficient Storage"),
    (508, ascii "Loop Detected"),
    (510, ascii "Not Extended"),
    (511, ascii "Network Authentication Required")]

namespace StateCode

def getCode (state : StateCode) : Int :=
  let code := state.codeArr.1 * 100 + state.codeArr.2.1 * 10 + state.codeArr.2.2
  if (httpCodeMap.lookup code).isSome then code else -1

/-- `code_arr[now_idx] = digit` -/
def setDigit (state : StateCode) (digit : Int) : StateCode :=
  match state.nowIdx with
  | 0 => { state with codeArr := (digit, state.codeArr.2) }
  | 1 => { state with codeArr := (state.codeArr.1, digit, state.codeArr.2.2) }
  | _ => { state with codeArr := (state.codeArr.1, state.codeArr.2.1, digit) }

def matchStep (state : StateCode) (context : HTTPMessageParser) :
    StateCode × HTTPMessageParser :=
  let c := context.nowChar
  let (state, context) :=
    if isDigit c = true ∧ state.nowIdx < 3 then
      (state.setDigit (c.toNat - 48 : Nat), context)
    else if state.nowIdx = 3 ∧ c = SP then
      (state, { context with code := state.getCode, nextState := some (.detail {}) })
    else (state, { context with isMatch := false })
  let context := if context.code = -1 then { context with isMatch := false } else context
  ({ state with nowIdx := state.nowIdx + 1 }, context)

end StateCode

namespace StateVersion

/-- The fixed byte that position `0`–`4` or `6` of a version must carry. -/
def fixedByte? : Nat → Option Byte
  | 0 => some 72
  | 1 => some 84
  | 2 => some 84
  | 3 => some 80
  | 4 => some 47
  | 6 => some 46
  | _ => none

def matchStep (state : StateVersion) (context : HTTPMessageParser) :
    StateVersion × HTTPMessageParser :=
  let c := context.nowChar
  let mismatch := { context with isMatch := false }
  let (state, context) :=
    match fixedByte? state.nowIdx with
    | some byte => (state, if c ≠ byte then mismatch else context)
    | none =>
        if state.nowIdx = 5 then
          if c = 48 then ({ state with isPrefixHttp0 := true }, context)
          else if c = 49 then ({ state with isPrefixHttp0 := false }, context)
          else (state, mismatch)
        else if state.nowIdx = 7 then
          if state.isPrefixHttp0 = true ∧ c = 57 then
            (state, { context with version := .v0_9 })
          else if state.isPrefixHttp0 = false ∧ c = 48 then
            (state, { context with version := .v1_0 })
          else if state.isPrefixHttp0 = false ∧ c = 49 then
            (state, { context with version := .v1_1 })
          else (state, mismatch)
        else if state.nowIdx = 8 then
          if context.isRequest = true ∧ c = CR then (state, context)
          else if context.isRequest = false ∧ c = SP then
            (state, { context with nextState := some (.code {}) })
          else (state, mismatch)
        else if state.nowIdx = 9 then
          if context.isRequest = true ∧ c = LF then
            (state, { context with nextState := some (.header {}) })
          else (state, mismatch)
        else (state, mismatch)
  ({ state with nowIdx := state.nowIdx + 1 }, context)

end StateVersion

namespace StateURL

/-- `query_pos[string(begin_ptr + now_key_offset, now_key_len)] = {…}`, the place of the value -/
def recordPair (string : StringCtor) (state : StateURL) (context : HTTPMessageParser) :
    Except Fault HTTPMessageParser :=
  (string context state.nowKeyOffset state.nowKeyLen).map fun key =>
    { context with
      queryPos := context.queryPos.insert key (state.nowValueOffset, state.nowValueLen) }

/-- `context.path_pos.second = l - context.path_pos.first - 1` -/
def endPath (context : HTTPMessageParser) : HTTPMessageParser :=
  { context with pathPos := (context.pathPos.1, context.nowLen - context.pathPos.1 - 1) }

/-- `context.next_state = new StateVersion()` -/
def toVersion (context : HTTPMessageParser) : HTTPMessageParser :=
  { context with nextState := some (.version {}) }

/-- The chain of comparisons with the current byte. -/
def matchPart (string : StringCtor) (state : StateURL) (context : HTTPMessageParser) :
    Except Fault (StateURL × HTTPMessageParser) :=
  let c := context.nowChar
  let l := context.nowLen
  if c = question then
    .ok ({ state with nowKeyOffset := l, hasQuery := true }, endPath context)
  else if c = equalSign then
    .ok ({ state with nowKeyLen := l - state.nowKeyOffset - 1, nowValueOffset := l }, context)
  else if c = ampersand then
    let state := { state with nowValueLen := l - 1 - state.nowValueOffset }
    (state.recordPair string context).map fun context =>
      ({ state with
        nowKeyOffset := l, nowKeyLen := -1, nowValueOffset := -1, nowValueLen := -1 }, context)
  else if c = SP then
    if state.hasQuery = false then .ok (state, toVersion (endPath context))
    else
      let state := { state with nowValueLen := l - state.nowValueOffset - 1 }
      if state.nowKeyOffset ≠ -1 ∧ state.nowKeyLen ≠ -1 ∧
          state.nowValueOffset ≠ -1 ∧ state.nowValueLen ≠ -1 then
        (state.recordPair string context).map fun context => (state, toVersion context)
      else .error .assertion
  else if state.nowIdx = 0 then
    .ok (state, { context with pathPos := (l - 1, context.pathPos.2) })
  else .ok (state, context)

def matchStep (string : StringCtor) (state : StateURL) (context : HTTPMessageParser) :
    Except Fault (StateURL × HTTPMessageParser) :=
  (state.matchPart string context).map fun (state, context) =>
    ({ state with nowIdx := state.nowIdx + 1 }, context)

end StateURL

namespace StateMethod

def matchStep (state : StateMethod) (context : HTTPMessageParser) :
    StateMethod × HTTPMessageParser :=
  let context := { context with isMatch := true }
  let c := context.nowChar
  let methodStr := getMethodStr context.method
  let context :=
    if state.nowIdx = 0 then
      if c = 71 then { context with method := .get }
      else if c = 80 then { context with method := .post }
      else { context with isMatch := false }
    else if state.nowIdx < methodStr.length then
      if methodStr[state.nowIdx]? ≠ some c then { context with isMatch := false } else context
    else if c = SP then { context with nextState := some (.url {}) }
    else { context with isMatch := false }
  ({ state with nowIdx := state.nowIdx + 1 }, context)

end StateMethod

/-- `state->match(*this)` -/
def State.matchStep (string : StringCtor) (state : State) (context : HTTPMessageParser) :
    Except Fault HTTPMessageParser :=
  match state with
  | .method state =>
      let (state, context) := state.matchStep context
      .ok { context with state := .method state }
  | .url state =>
      (state.matchStep string context).map fun (state, context) =>
        { context with state := .url state }
  | .version state =>
      let (state, context) := state.matchStep context
      .ok { context with state := .version state }
  | .code state =>
      let (state, context) := state.matchStep context
      .ok { context with state := .code state }
  | .detail state =>
      let (state, context) := state.matchStep context
      .ok { context with state := .detail state }
  | .header state =>
      (state.matchStep string context).map fun (state, context) =>
        { context with state := .header state }
  | .body state =>
      let (state, context) := state.matchStep context
      .ok { context with state := .body state }

/-! ## The parser -/

namespace HTTPMessageParser

/--
The constructor.  It leaves `version` and `code` uninitialised; what they hold then
is a parameter here.
-/
def new (isRequest : Bool) (version : HTTPVersion) (code : Int) : HTTPMessageParser where
  isRequest := isRequest
  state := if isRequest then .method {} else .version {}
  version := version
  code := code

def isCompleted (parser : HTTPMessageParser) : Bool :=
  match parser.state with
  | .body state => state.nowIdx == parser.totalLen
  | _ => false

/-- A complete message is one whose body has been counted to its length. -/
theorem isCompleted_iff (parser : HTTPMessageParser) :
    parser.isCompleted = true ↔
      ∃ state, parser.state = .body state ∧ state.nowIdx = parser.totalLen := by
  rw [isCompleted]
  cases parser.state <;> simp

/-- `now_char = c; now_len += 1; state->match(*this);` -/
def matchChar (string : StringCtor) (parser : HTTPMessageParser) (c : Byte) :
    Except Fault HTTPMessageParser :=
  parser.state.matchStep string { parser with nowChar := c, nowLen := parser.nowLen + 1 }

/-- `if (next_state) { state.reset(next_state); next_state = nullptr; }` -/
def enterNext (parser : HTTPMessageParser) : HTTPMessageParser :=
  match parser.nextState with
  | some next => { parser with state := next, nextState := none }
  | none => parser

/-- The loop of `parser_message` over `len` bytes from `str` on. -/
def parserLoop (string : StringCtor) (memory : Memory) :
    (str : Int) → (len : Nat) → HTTPMessageParser → Except Fault (Bool × HTTPMessageParser)
  | _, 0, parser => .ok (true, parser)
  | str, len + 1, parser =>
      match memory str with
      | none => .error .wildRead
      | some c =>
          match parser.matchChar string c with
          | .error fault => .error fault
          | .ok parser =>
              if parser.isMatch = false then .ok (false, parser)
              else parserLoop string memory (str + 1) len parser.enterNext

/-- `parser_message(str, len)` with a given string constructor. -/
def parserMessageWith (string : Memory → StringCtor) (memory : Memory) (str : Int) (len : Nat)
    (parser : HTTPMessageParser) : Except Fault (Bool × HTTPMessageParser) :=
  if parser.isMatch = false then .ok (false, parser)
  else parserLoop (string memory) memory str len { parser with beginPtr := str - parser.nowLen }

/-- `parser_message(str, len)` -/
def parserMessage (memory : Memory) (str : Int) (len : Nat) (parser : HTTPMessageParser) :
    Except Fault (Bool × HTTPMessageParser) :=
  parserMessageWith stringOf memory str len parser

/-- `parser_message` with every slice checked against the bytes consumed so far. -/
def parserMessageChecked (memory : Memory) (str : Int) (len : Nat) (parser : HTTPMessageParser) :
    Except Fault (Bool × HTTPMessageParser) :=
  parserMessageWith checkedStringOf memory str len parser

end HTTPMessageParser

/-! ## The messages -/

/-- `unordered_map<string, string_view>`, by the bytes the views show. -/
abbrev ViewMap := AList fun _ : Bytes => Bytes

structure HTTPRequestMessage where
  method : HTTPMethod
  path : Bytes
  query : ViewMap
  version : HTTPVersion
  header : ViewMap
  body : Bytes
  deriving DecidableEq

structure HTTPResponseMessage where
  version : HTTPVersion
  code : Int
  detail : Bytes
  header : ViewMap
  body : Bytes
  deriving DecidableEq

namespace HTTPMessageParser

/-- `string_view(begin_ptr + pos.first, pos.second)`: the bytes it shows, if they can be read. -/
def view (memory : Memory) (parser : HTTPMessageParser) (pos : Slice) : Except Fault Bytes :=
  if pos.2 < 0 then .error .wildRead
  else
    match memory.read (parser.beginPtr + pos.1) pos.2.toNat with
    | some bytes => .ok bytes
    | none => .error .wildRead

/-- `for (auto pa : positions) views[pa.first] = string_view(…)` -/
def viewAll (memory : Memory) (parser : HTTPMessageParser) (positions : SliceMap) :
    Except Fault ViewMap :=
  positions.entries.foldlM (fun views entry => do
    let bytes ← parser.view memory entry.2
    return views.insert entry.1 bytes) ∅

def getRequestMessage (memory : Memory) (parser : HTTPMessageParser) :
    Except Fault HTTPRequestMessage := do
  if parser.isRequest && parser.isCompleted then
    let path ← parser.view memory parser.pathPos
    let query ← parser.viewAll memory parser.queryPos
    let header ← parser.viewAll memory parser.headerPos
    let body ← parser.view memory parser.bodyPos
    return { method := parser.method, path, query, version := parser.version, header, body }
  else throw .assertion

def getResponseMessage (memory : Memory) (parser : HTTPMessageParser) :
    Except Fault HTTPResponseMessage := do
  if !parser.isRequest && parser.isCompleted then
    let detail ← parser.view memory parser.detailPos
    let header ← parser.viewAll memory parser.headerPos
    let body ← parser.view memory parser.bodyPos
    return { version := parser.version, code := parser.code, detail, header, body }
  else throw .assertion

end HTTPMessageParser

end SimpleWebServer.Http
