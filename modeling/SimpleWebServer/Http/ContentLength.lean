import SimpleWebServer.Http.StartLine
import Mathlib.Data.List.TakeWhile

/-!
# The length of the body

`Content-Length` is read by `stoi`, which takes a sign, skips white space, stops at the first
byte that is not a digit and throws when it finds no number.  The values of the grammar are the
decimal numbers that fit an `int`; this module says what happens to all the others.
-/

namespace SimpleWebServer.Http

open SimpleWebServer.Base

/-! ## Decimal numbers -/

def DecimalDigits (text : Bytes) : Prop := text ≠ [] ∧ ∀ c ∈ text, isDigit c = true

instance (text : Bytes) : Decidable (DecimalDigits text) :=
  inferInstanceAs (Decidable (text ≠ [] ∧ _))

/-- A decimal number that an `int` holds. -/
def DecimalInt (text : Bytes) : Prop := DecimalDigits text ∧ digitsValue text ≤ 2147483647

instance (text : Bytes) : Decidable (DecimalInt text) :=
  inferInstanceAs (Decidable (DecimalDigits text ∧ _))

theorem isSpace_of_isDigit {c : Byte} (digit : isDigit c = true) : isSpace c = false := by
  unfold isDigit at digit
  unfold isSpace
  grind

/-- The first digit of a number is neither white space nor a sign. -/
theorem splitSign_of_digit {c : Byte} (digit : isDigit c = true) (rest : Bytes) :
    splitSign (c :: rest) = (false, c :: rest) := by
  have noMinus : c ≠ 45 := by
    rintro rfl
    simp [isDigit] at digit
  have noPlus : c ≠ 43 := by
    rintro rfl
    simp [isDigit] at digit
  rw [splitSign]
  · rintro more same
    exact noMinus (List.cons.inj same).1
  · rintro more same
    exact noPlus (List.cons.inj same).1

/-- `stoi` reads decimal digits as their number, when that fits. -/
theorem stoi_of_digits {text : Bytes} (digits : DecimalDigits text) :
    stoi text = if digitsValue text ≤ 2147483647 then .ok (digitsValue text : Int)
      else .error .outOfRange := by
  obtain ⟨filled, all⟩ := digits
  obtain ⟨first, rest, rfl⟩ := List.exists_cons_of_ne_nil filled
  have first_digit := all first List.mem_cons_self
  have kept : (first :: rest).dropWhile isSpace = first :: rest := by
    rw [List.dropWhile_cons, if_neg (by simp [isSpace_of_isDigit first_digit])]
  have whole : (first :: rest).takeWhile isDigit = first :: rest :=
    List.takeWhile_eq_self_iff.mpr all
  unfold stoi
  rw [kept, splitSign_of_digit first_digit]
  dsimp only
  rw [whole, if_neg filled]
  simp only [Bool.false_eq_true, if_false]
  split_ifs <;> first | rfl | omega

theorem DecimalInt.stoi {text : Bytes} (decimal : DecimalInt text) :
    stoi text = .ok (digitsValue text : Int) := by
  rw [stoi_of_digits decimal.1, if_pos decimal.2]

/-! ## A line that cannot be read -/

section

variable (consumed : Bytes) (state : StateHeader) (parser : HTTPMessageParser)

/-- The carriage return behind a value that is no number lets the exception of `stoi` through. -/
theorem StateHeader.recordEntry_unreadable (field : HeaderField) {fault : Fault}
    (isLength : field.key = contentLength) (unreadable : stoi field.value = .error fault)
    {context : HTTPMessageParser} (c : Byte)
    (length : context.nowLen = (consumed ++ field.body).length + 1)
    (key : state.nowKeyOffset = consumed.length ∧ state.nowKeyLen = field.key.length)
    (value : state.nowValueOffset = (field.slice consumed.length).1 ∧
      state.nowValueLen = field.value.length) :
    state.recordEntry (sliceOf (consumed ++ field.body ++ [c])) context = .error fault := by
  unfold recordEntry
  rw [key.1, key.2, sliceOf_fieldKey consumed field c length]
  simp only
  rw [if_pos isLength, takeTotalLen, value.1, value.2,
    sliceOf_fieldValue consumed field c (by exact length)]
  simp only [unreadable]
  rfl

/-- No run gets past such a line. -/
theorem consume_unreadable (field : HeaderField) {fault : Fault}
    (isLength : field.key = contentLength) (unreadable : stoi field.value = .error fault)
    (start : state.LineStart) (rest : Bytes) :
    consume consumed (field.text ++ rest) (parser.behind consumed (.header state)) =
      .error fault := by
  obtain ⟨nowIdx, body⟩ := reads_field_body consumed state parser field start
  have split : field.text ++ rest = field.body ++ CR :: (LF :: rest) := by
    simp [HeaderField.text, HeaderField.body, CRLF]
  have recorded (context : HTTPMessageParser)
      (length : context.nowLen = (consumed ++ field.body).length + 1) :=
    StateHeader.recordEntry_unreadable consumed
      { state.fieldRead nowIdx consumed field with
        nowPart := .end, nowValueLen := field.value.length }
      field isLength unreadable CR length ⟨rfl, rfl⟩ ⟨rfl, rfl⟩
  have count : ((consumed ++ field.body).length : Int) + 1 -
      (state.fieldRead nowIdx consumed field).nowValueOffset - 1 = field.value.length := by
    simp [StateHeader.fieldRead, HeaderField.slice, HeaderField.body]
    ring
  have part : (state.fieldRead nowIdx consumed field).nowPart = .value := rfl
  rw [split, body.consume_next]
  simp only [consume, HTTPMessageParser.matchChar, State.matchStep, StateHeader.matchStep,
    StateHeader.matchPart, part, if_true, count]
  rw [recorded _ rfl]
  rfl

end

/-! ## A `Content-Length` line behind other lines -/

/-- Fields that the parser reads. -/
structure ReadFields where
  fields : List HeaderField
  readable : ∀ field ∈ fields, field.Readable

/-- A `Content-Length` line with any value of the grammar. -/
structure LengthLine where
  spaces : Nat
  value : Bytes
  valueFilled : value ≠ []
  valuePlain : ∀ c ∈ value, c ≠ CR
  valueStart : value.head? ≠ some SP

def LengthLine.field (line : LengthLine) : HeaderField where
  key := contentLength
  spaces := line.spaces
  value := line.value
  keyFilled := by decide
  keyPlain := by decide +kernel
  valueFilled := line.valueFilled
  valuePlain := line.valuePlain
  valueStart := line.valueStart

/-- However `bytes` are cut into calls of a new parser, the last answer is `verdict`. -/
def Answers (isRequest : Bool) (version : HTTPVersion) (code : Int) (bytes : Bytes)
    (verdict : Bool) (leaves : HTTPMessageParser → Prop) : Prop :=
  ∀ calls chunks, CallsAddress [] calls chunks → chunks.flatten = bytes →
    ∃ parser, (HTTPMessageParser.new isRequest version code).parserMessages calls =
      .ok (verdict, parser) ∧ leaves parser

section

variable {isRequest : Bool} {version : HTTPVersion} {code : Int}

/-- All bytes of a message up to the end of a `Content-Length` line. -/
def StartLine.upTo (start : StartLine isRequest version code) (front : ReadFields)
    (line : LengthLine) : Bytes :=
  start.text ++ headerText front.fields ++ line.field.text

/--
The parser accepts the line exactly when its value is a decimal number that an `int` holds, and
takes that number; it answers `false` at the end of every other line.
-/
def StartLine.AcceptsLength (start : StartLine isRequest version code) (front : ReadFields)
    (line : LengthLine) : Prop :=
  if DecimalInt line.value then
    Answers isRequest version code (start.upTo front line) true fun parser =>
      parser.totalLen = digitsValue line.value
  else Answers isRequest version code (start.upTo front line) false fun _ => True

/-- The outcome of every sequence of calls is the outcome of the run over their bytes. -/
theorem answers_of_consume {bytes : Bytes} {verdict : Bool} {after : HTTPMessageParser}
    (run : consume [] bytes (.new isRequest version code) = .ok (verdict, after)) :
    Answers isRequest version code bytes verdict fun parser =>
      parser.rebase 0 = after.rebase 0 := by
  intro calls chunks addressed flat
  have same := parserMessages_eq addressed rfl rfl (by rw [flat, run]; simp)
  rw [flat, run, forgetBegin_ok] at same
  obtain ⟨⟨answer, parser⟩, called, moved⟩ := map_eq_ok same
  obtain ⟨sameVerdict, sameParser⟩ := Prod.mk.inj moved
  exact ⟨parser, sameVerdict ▸ called, sameParser⟩

/-- A fault of the run, other than a slice outside its bytes, is one of every sequence of calls. -/
theorem not_answers_of_fault {bytes : Bytes} {fault : Fault}
    (run : consume [] bytes (.new isRequest version code) = .error fault)
    (inside : fault ≠ .sliceOutside) (verdict : Bool) (leaves : HTTPMessageParser → Prop) :
    ¬ Answers isRequest version code bytes verdict leaves := by
  intro answers
  have addressed := wholeCall_addresses bytes
  obtain ⟨parser, called, -⟩ := answers _ _ addressed List.flatten_singleton
  have noSlice : consume [] [bytes].flatten (.new isRequest version code) ≠
      .error .sliceOutside := by
    rw [List.flatten_singleton, run]
    exact fun same => inside (Except.error.inj same)
  have same := parserMessages_eq addressed rfl rfl noSlice
  rw [called, List.flatten_singleton, run] at same
  simp at same

/-- The same calls do not answer both ways. -/
theorem Answers.verdict_eq {bytes : Bytes} {verdict other : Bool}
    {leaves otherLeaves : HTTPMessageParser → Prop}
    (answers : Answers isRequest version code bytes verdict leaves)
    (others : Answers isRequest version code bytes other otherLeaves) : verdict = other := by
  have addressed := wholeCall_addresses bytes
  obtain ⟨parser, called, -⟩ := answers _ _ addressed List.flatten_singleton
  obtain ⟨twin, twinCalled, -⟩ := others _ _ addressed List.flatten_singleton
  exact (Prod.mk.inj (Except.ok.inj (called.symm.trans twinCalled))).1

namespace StartLine

variable (start : StartLine isRequest version code) (front : ReadFields) (line : LengthLine)

/-- Up to the line the parser reads without a mismatch. -/
theorem reads_front :
    ∃ state : StateHeader, state.LineStart ∧
      Reads [] (HTTPMessageParser.new isRequest version code).state
        (.new isRequest version code) (start.text ++ headerText front.fields) (.header state)
        (start.after.readHeader start.text.length front.fields) := by
  obtain ⟨state, lineStart, fields⟩ :=
    reads_fields start.text {} start.after front.readable ⟨rfl, rfl, rfl⟩
  exact ⟨state, lineStart, start.reads.trans fields⟩

/-- What `stoi` reads becomes the length of the body. -/
theorem answers_of_stoi {length : Int} (written : stoi line.value = .ok length) :
    Answers isRequest version code (start.upTo front line) true fun parser =>
      parser.totalLen = length := by
  obtain ⟨state, lineStart, before⟩ := start.reads_front front
  obtain ⟨next, -, lineRead⟩ := reads_field (start.text ++ headerText front.fields) state
    (start.after.readHeader start.text.length front.fields) line.field
    (fun _ => ⟨length, written⟩) lineStart
  obtain ⟨last, run⟩ := before.trans lineRead
  have announced : line.field.announced
      (start.after.readHeader start.text.length front.fields).totalLen = length := by
    rw [HeaderField.announced, if_pos (show line.field.key = contentLength from rfl),
      show stoi line.field.value = .ok length from written]
  intro calls chunks addressed flat
  obtain ⟨parser, called, moved⟩ := answers_of_consume run calls chunks addressed flat
  exact ⟨parser, called, (congrArg HTTPMessageParser.totalLen moved).trans announced⟩

/-- What `stoi` throws ends every sequence of calls. -/
theorem not_answers_of_stoi {fault : Fault} (thrown : stoi line.value = .error fault)
    (verdict : Bool) (leaves : HTTPMessageParser → Prop) :
    ¬ Answers isRequest version code (start.upTo front line) verdict leaves := by
  obtain ⟨state, lineStart, before⟩ := start.reads_front front
  have inside : fault ≠ .sliceOutside := by
    rintro rfl
    exact stoi_ne_outside line.value thrown
  refine not_answers_of_fault ?_ inside verdict leaves
  have stopped := consume_unreadable (start.text ++ headerText front.fields) state
    (start.after.readHeader start.text.length front.fields) line.field rfl thrown lineStart []
  rw [List.append_nil] at stopped
  exact (before.consume_next _ _).trans stopped

/-- A value that begins with a number is taken although it is not a decimal number. -/
theorem not_acceptsLength {length : Int} (notDecimal : ¬ DecimalInt line.value)
    (read : stoi line.value = .ok length) : ¬ start.AcceptsLength front line := by
  intro rejected
  rw [AcceptsLength, if_neg notDecimal] at rejected
  cases rejected.verdict_eq (start.answers_of_stoi front line read)

/--
A value is accepted as it should be exactly when it is a decimal number that fits, in a message
of at most 2147483647 bytes up to there.
-/
theorem acceptsLength_iff : start.AcceptsLength front line ↔ DecimalInt line.value := by
  by_cases decimal : DecimalInt line.value
  · rw [AcceptsLength, if_pos decimal]
    exact ⟨fun _ => decimal, fun _ => start.answers_of_stoi front line decimal.stoi⟩
  · refine ⟨fun rejected => ?_, fun accepted => absurd accepted decimal⟩
    cases read : stoi line.value with
    | error fault =>
        rw [AcceptsLength, if_neg decimal] at rejected
        exact absurd rejected (start.not_answers_of_stoi front line read _ _)
    | ok length => exact absurd rejected (start.not_acceptsLength front line decimal read)

end StartLine

end

theorem filled_slash : ascii "/" ≠ [] := by decide +kernel

theorem plain_slash : ∀ c ∈ ascii "/", PlainByte c := by decide +kernel

/-- `GET / HTTP/1.1` -/
def bareLine : RequestLine where
  method := .get
  path := ascii "/"
  query := []
  version := .v1_1
  versionText := ascii "HTTP/1.1"
  pathFilled := filled_slash
  pathPlain := plain_slash
  versionKnown := getVersionStr_v1_1

/-- `Content-Length: 5x` -/
def trailingLine : LengthLine where
  spaces := 1
  value := ascii "5x"
  valueFilled := by decide +kernel
  valuePlain := by decide +kernel
  valueStart := by decide +kernel

/-- The number in front of a letter is taken. -/
theorem trailingLine_accepted :
    ¬ ∀ (start : StartLine true .v1_0 0) (front : ReadFields) (line : LengthLine),
      start.AcceptsLength front line := by
  have number : stoi trailingLine.value = .ok 5 := by decide +kernel
  have notDecimal : ¬ DecimalInt trailingLine.value := by decide +kernel
  simp only [not_forall]
  exact ⟨bareLine.startLine .v1_0 0, ⟨[], by simp⟩, trailingLine,
    StartLine.not_acceptsLength _ _ _ notDecimal number⟩

end SimpleWebServer.Http
