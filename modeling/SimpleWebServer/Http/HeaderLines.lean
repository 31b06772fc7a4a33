import SimpleWebServer.Http.ContentLength
import SimpleWebServer.Http.ParserMoves
import Mathlib.Data.List.Perm.Subperm

/-!
# Header lines on their own

Each line of a header should be recorded without regard to the others.  An empty value takes its
line end for its first byte and goes on into the next line; then one entry is missing.
-/

namespace SimpleWebServer.Http

open SimpleWebServer.Base

/-- A header line whose value may be empty. -/
structure HeaderLine where
  key : Bytes
  spaces : Nat
  value : Bytes
  keyFilled : key ≠ []
  keyPlain : ∀ c ∈ key, c ≠ colon ∧ c ≠ CR
  valuePlain : ∀ c ∈ value, c ≠ CR
  valueStart : value.head? ≠ some SP

namespace HeaderLine

def text (line : HeaderLine) : Bytes :=
  line.key ++ colon :: (List.replicate line.spaces SP ++ line.value) ++ CRLF

/-- Behind `front` the value of the line is recorded as a slice of the line. -/
def RecordedBehind (line : HeaderLine) (front bytes : Bytes) (parser : HTTPMessageParser) : Prop :=
  ∃ slice, parser.headerPos.lookup line.key = some slice ∧ front.length ≤ slice.1 ∧
    slice.1 + slice.2 ≤ (front ++ line.text).length ∧ shown bytes slice = line.value

/-- A line that the parser reads: its value is there, and is a number where that is asked for. -/
structure Plain (line : HeaderLine) : Prop where
  filled : line.value ≠ []
  readable : line.key = contentLength → ∃ length, stoi line.value = .ok length

/-- A line with a value is a field of the grammar. -/
def field (line : HeaderLine) (filled : line.value ≠ []) : HeaderField where
  key := line.key
  spaces := line.spaces
  value := line.value
  keyFilled := line.keyFilled
  keyPlain := line.keyPlain
  valueFilled := filled
  valuePlain := line.valuePlain
  valueStart := line.valueStart

end HeaderLine

def linesText (lines : List HeaderLine) : Bytes := (lines.map HeaderLine.text).flatten

structure HeaderSection where
  lines : List HeaderLine
  distinct : (lines.map HeaderLine.key).Nodup

def HeaderSection.text (lines : HeaderSection) : Bytes := linesText lines.lines ++ CRLF

/--
In whatever chunks the section arrives, it ends with its empty line, and there is one entry per
line, which shows the value of the line and lies within it.
-/
def StartLine.Independent {isRequest : Bool} {version : HTTPVersion} {code : Int}
    (start : StartLine isRequest version code) (header : HeaderSection) : Prop :=
  Answers isRequest version code (start.text ++ header.text) true fun parser =>
    parser.state = .body {} ∧ parser.headerPos.keys.length = header.lines.length ∧
      ∀ before line after, header.lines = before ++ line :: after →
        line.RecordedBehind (start.text ++ linesText before) (start.text ++ header.text) parser

/-! ## Lines as fields -/

/-- The fields of lines that can be read. -/
def fieldsOf (lines : List HeaderLine) (plain : ∀ line ∈ lines, line.Plain) : List HeaderField :=
  lines.pmap (fun line plain => line.field plain.filled) plain

theorem headerText_fieldsOf (lines : List HeaderLine) (plain : ∀ line ∈ lines, line.Plain) :
    headerText (fieldsOf lines plain) = linesText lines := by
  induction lines with
  | nil => rfl
  | cons line rest ih =>
      have later := ih fun line member => plain line (List.mem_cons_of_mem _ member)
      exact congrArg (line.text ++ ·) later

theorem fieldsOf_readable (lines : List HeaderLine) (plain : ∀ line ∈ lines, line.Plain) :
    ∀ field ∈ fieldsOf lines plain, field.Readable := by
  intro field member
  obtain ⟨line, inLines, rfl⟩ := List.mem_pmap.mp member
  exact (plain line inLines).readable

/-! ## Slices of distinct keys -/

section

variable {β : Type*}

theorem assign_append (map : AList fun _ : Bytes => β) (first second : List (Bytes × β)) :
    assign map (first ++ second) = assign (assign map first) second :=
  List.foldl_append

/-- A value is not overwritten by entries with other keys. -/
theorem lookup_assign_of_notMem (map : AList fun _ : Bytes => β) {entries : List (Bytes × β)}
    {key : Bytes} (others : ∀ entry ∈ entries, entry.1 ≠ key) :
    (assign map entries).lookup key = map.lookup key := by
  induction entries generalizing map with
  | nil => rfl
  | cons entry rest ih =>
      rw [assign_cons, ih _ fun entry member => others entry (List.mem_cons_of_mem _ member),
        AList.lookup_insert_ne (others entry List.mem_cons_self).symm]

/-- Distinct keys make one entry each. -/
theorem length_keys_assign {entries : List (Bytes × β)} (distinct : (entries.map Prod.fst).Nodup) :
    (assign (∅ : AList fun _ : Bytes => β) entries).keys.length = entries.length := by
  have same : (assign (∅ : AList fun _ : Bytes => β) entries).keys.Perm (entries.map Prod.fst) := by
    rw [List.perm_ext_iff_of_nodup (AList.keys_nodup _) distinct]
    intro key
    rw [← AList.mem_keys, ← AList.lookup_isSome, lookup_assign_isSome]
    simp
  rw [same.length_eq, List.length_map]

end

theorem headerSlices_append (offset : Int) (first second : List HeaderField) :
    headerSlices offset (first ++ second) =
      headerSlices offset first ++ headerSlices (offset + (headerText first).length) second := by
  induction first generalizing offset with
  | nil => simp [headerSlices, headerText]
  | cons field rest ih =>
      rw [List.cons_append, headerSlices, headerSlices, ih, List.cons_append, headerText,
        headerText, List.map_cons, List.flatten_cons, List.length_append, Nat.cast_add, add_assoc]

theorem headerSlices_keys (offset : Int) (fields : List HeaderField) :
    (headerSlices offset fields).map Prod.fst = fields.map HeaderField.key := by
  induction fields generalizing offset with
  | nil => rfl
  | cons field rest ih => rw [headerSlices, List.map_cons, List.map_cons, ih]

/-- With distinct keys each field has the slice that it was given. -/
theorem lookup_headerSlices (offset : Int) {before after : List HeaderField} {field : HeaderField}
    (distinct : ((before ++ field :: after).map HeaderField.key).Nodup) :
    (assign ∅ (headerSlices offset (before ++ field :: after))).lookup field.key =
      some (field.slice (offset + (headerText before).length)) := by
  rw [headerSlices_append, assign_append, headerSlices, assign_cons, lookup_assign_of_notMem,
    AList.lookup_insert]
  intro entry member same
  rw [List.map_append, List.map_cons] at distinct
  have notAfter := (List.nodup_cons.mp (List.nodup_append.mp distinct).2.1).1
  rw [← headerSlices_keys (offset + (headerText before).length + field.text.length)] at notAfter
  exact notAfter (same ▸ List.mem_map_of_mem member)

/-! ## Carriage returns and entries -/

/-- One once the empty line has begun. -/
def State.ended : State → Nat
  | .header state => state.isEmptyLine.toNat
  | .body _ => 1
  | _ => 0

/-- The entries and the end of the header: each of them takes a carriage return. -/
def HTTPMessageParser.lineCount (parser : HTTPMessageParser) : Nat :=
  parser.headerPos.keys.length + parser.state.ended

theorem length_keys_insert_le (positions : SliceMap) (key : Bytes) (slice : Slice) :
    (positions.insert key slice).keys.length ≤ positions.keys.length + 1 := by
  simp only [AList.keys, List.keys, List.length_map, AList.entries_insert, List.length_cons]
  exact Nat.succ_le_succ (List.kerase_sublist key positions.entries).length_le

theorem HeaderMove.count_le {state next : StateHeader} {context after : HTTPMessageParser}
    (move : HeaderMove state context next after) :
    after.headerPos.keys.length + next.isEmptyLine.toNat ≤
      context.headerPos.keys.length + state.isEmptyLine.toNat + [context.nowChar].count CR := by
  cases move with
  | lineWithoutColon _ char =>
      rw [char, List.count_singleton_self]
      simp
  | record _ char key =>
      have one := length_keys_insert_le context.headerPos key
        (state.nowValueOffset, context.nowLen - state.nowValueOffset - 1)
      rw [char, List.count_singleton_self]
      dsimp only
      omega
  | _ => exact Nat.le_add_right _ _

/-- A byte behind the start line adds at most one, and only a carriage return does. -/
theorem HTTPMessageParser.Takes.lineCount_le {parser after : HTTPMessageParser} {c : Byte}
    (taken : parser.Takes c after) (fresh : parser.nextState = none)
    (inTail : parser.state.InTail) :
    after.lineCount ≤ parser.lineCount + [c].count CR := by
  cases inState : parser.state with
  | header state =>
      obtain ⟨beginPtr, next, middle, move, -, rfl⟩ := taken.header inState
      have count := move.count_le
      unfold lineCount
      rcases move.nextState with stays | ⟨ends, line⟩
      · simp only [enterNext, stays, reading, fresh, inState, State.ended]
        exact count
      · rw [line] at count
        simp only [enterNext, ends, inState, State.ended]
        exact count
  | body state =>
      obtain ⟨beginPtr, middle, rfl, -, rfl⟩ := taken.body inState
      unfold StateBody.matchStep
      split_ifs <;> simp [lineCount, enterNext, reading, fresh, inState, State.ended]
  | _ =>
      rw [inState] at inTail
      exact inTail.elim

theorem CharRun.lineCount_le {first last : HTTPMessageParser} {bytes : Bytes}
    (run : CharRun first bytes last) (fresh : first.nextState = none)
    (inTail : first.state.InTail) : last.lineCount ≤ first.lineCount + bytes.count CR := by
  have counted := run.invariant
    (fun read parser => parser.nextState = none ∧ parser.state.InTail ∧
      parser.lineCount ≤ first.lineCount + read.count CR)
    (fun read parser c after ⟨fresh, inTail, count⟩ taken => by
      have one := taken.lineCount_le fresh inTail
      refine ⟨taken.nextState, (taken.startKept fresh inTail).2, ?_⟩
      rw [List.count_append]
      omega)
    [] ⟨fresh, inTail, by simp⟩
  exact counted.2.2

section

variable {isRequest : Bool} {version : HTTPVersion} {code : Int}
variable (start : StartLine isRequest version code)

/-- Lines that can be read are recorded on their own. -/
theorem StartLine.independent_of_plain (header : HeaderSection)
    (plain : ∀ line ∈ header.lines, line.Plain) : start.Independent header := by
  obtain ⟨lines, distinct⟩ := header
  have fields := reads_header start.text {} start.after (fieldsOf_readable lines plain)
    ⟨rfl, rfl, rfl⟩
  rw [headerText_fieldsOf] at fields
  obtain ⟨char, run⟩ := start.reads.trans fields
  intro calls chunks addressed flat
  obtain ⟨parser, called, moved⟩ := answers_of_consume run calls chunks addressed flat
  have recorded : parser.headerPos =
      assign ∅ (headerSlices start.text.length (fieldsOf lines plain)) := by
    rw [← start.noHeader]
    exact congrArg HTTPMessageParser.headerPos moved
  have keys : (headerSlices start.text.length (fieldsOf lines plain)).map Prod.fst =
      lines.map HeaderLine.key := by
    rw [headerSlices_keys, fieldsOf, List.map_pmap]
    exact List.pmap_eq_map _
  refine ⟨parser, called, congrArg HTTPMessageParser.state moved, ?_, ?_⟩
  · rw [recorded, length_keys_assign (keys ▸ distinct), ← List.length_map Prod.fst, keys,
      List.length_map]
  · rintro before line after rfl
    have linePlain := plain line (List.mem_append_right _ List.mem_cons_self)
    have split : fieldsOf (before ++ line :: after) plain =
        fieldsOf before (fun line member => plain line (List.mem_append_left _ member)) ++
          line.field linePlain.filled ::
            fieldsOf after fun line member =>
              plain line (List.mem_append_right _ (List.mem_cons_of_mem _ member)) :=
      List.pmap_append plain
    rw [headerSlices_keys, split] at keys
    have found := lookup_headerSlices start.text.length (keys ▸ distinct)
    rw [← split, ← recorded, headerText_fieldsOf] at found
    refine ⟨_, found, ?_, ?_, ?_⟩
    · simp only [HeaderField.slice, List.length_append]
      push_cast
      omega
    · simp only [HeaderField.slice, HeaderLine.text, HeaderLine.field, List.length_append,
        List.length_cons, List.length_replicate]
      push_cast
      omega
    · have shows := shown_field (start.text ++ linesText before) (linesText after ++ CRLF)
        (line.field linePlain.filled)
      have whole : start.text ++ linesText before ++ (line.field linePlain.filled).text ++
          (linesText after ++ CRLF) =
          start.text ++ HeaderSection.text ⟨before ++ line :: after, distinct⟩ := by
        simp [HeaderSection.text, linesText, HeaderField.text, HeaderLine.text, HeaderLine.field]
      rw [whole, List.length_append, Nat.cast_add] at shows
      exact shows

/-! ### Lines that are not recorded on their own -/

/-- A line up to its value. -/
theorem reads_line_front (consumed : Bytes) {state : StateHeader} (parser : HTTPMessageParser)
    (line : HeaderLine) (lineStart : state.LineStart) :
    ∃ next : StateHeader, (next.nowPart = .split ∧ next.isEmptyLine = false) ∧
      Reads consumed (.header state) parser
        (line.key ++ colon :: List.replicate line.spaces SP) (.header next) parser := by
  have key := reads_key consumed state parser line.keyFilled line.keyPlain lineStart
  have mark := reads_colon (consumed ++ line.key)
    { state with nowIdx := line.key.length, nowKeyOffset := consumed.length } parser
    lineStart.nowPart (by simpa using line.keyFilled)
  have gap := reads_counted (consumed ++ (line.key ++ [colon]))
    { state with
      nowIdx := (line.key.length : Int) + 1, nowPart := .split, nowKeyOffset := consumed.length
      nowKeyLen := (consumed ++ line.key).length - consumed.length } parser
    (fun state => state.nowPart = .split) (List.replicate line.spaces SP) (fun state here => here)
    (fun c member consumed state here => by
      rw [List.eq_of_mem_replicate member]
      exact reads_split_space consumed state parser here)
    rfl
  have all := (key.trans mark).trans gap
  rw [List.append_assoc, List.singleton_append] at all
  exact ⟨{ state with
    nowIdx := (line.key.length : Int) + 1 + (List.replicate line.spaces SP).length
    nowPart := .split, nowKeyOffset := consumed.length
    nowKeyLen := (consumed ++ line.key).length - consumed.length },
    ⟨rfl, lineStart.isEmptyLine⟩, all⟩

/-- A carriage return where the value should start becomes its first byte. -/
theorem HTTPMessageParser.Takes.swallow {parser after : HTTPMessageParser}
    (taken : parser.Takes CR after) (fresh : parser.nextState = none) {state : StateHeader}
    (inState : parser.state = .header state) (part : state.nowPart = .split) :
    after.lineCount = parser.lineCount ∧ after.state.InTail := by
  obtain ⟨beginPtr, next, middle, move, -, rfl⟩ := taken.header inState
  obtain ⟨rfl, rfl⟩ := move.of_split part (show CR ≠ SP by decide)
  simp [lineCount, enterNext, reading, fresh, inState, State.ended, State.InTail]

/-- One carriage return for each line. -/
theorem count_linesText (lines : List HeaderLine) : (linesText lines).count CR = lines.length := by
  induction lines with
  | nil => rfl
  | cons line rest ih =>
      have key : line.key.count CR = 0 :=
        List.count_eq_zero.mpr fun member => (line.keyPlain CR member).2 rfl
      have value : line.value.count CR = 0 :=
        List.count_eq_zero.mpr fun member => line.valuePlain CR member rfl
      have gap : (List.replicate line.spaces SP).count CR = 0 :=
        List.count_eq_zero.mpr fun member => by
          cases List.eq_of_mem_replicate member
      have here : line.text.count CR = 1 := by
        rw [HeaderLine.text, List.count_append, List.count_append,
          List.count_cons_of_ne (by decide), List.count_append, key, gap, value]
        rfl
      rw [linesText, List.map_cons, List.flatten_cons, List.count_append, here]
      rw [linesText] at ih
      rw [ih, List.length_cons, Nat.add_comm]

theorem StartLine.not_independent_of_empty {header : HeaderSection} {before after : List HeaderLine}
    {line : HeaderLine} (split : header.lines = before ++ line :: after)
    (plain : ∀ line ∈ before, line.Plain) (empty : line.value = []) :
    ¬ start.Independent header := by
  intro independent
  obtain ⟨state, lineStart, front⟩ := reads_fields start.text {} start.after
    (fieldsOf_readable before plain) ⟨rfl, rfl, rfl⟩
  rw [headerText_fieldsOf] at front
  obtain ⟨next, ⟨part, inside⟩, lineFront⟩ := reads_line_front (start.text ++ linesText before)
    (start.after.readHeader start.text.length (fieldsOf before plain)) line lineStart
  have read := (start.reads.trans front).trans lineFront
  obtain ⟨char, whole⟩ := wholeCall_prefix rfl read (CR :: LF :: (linesText after ++ CRLF))
  have bytes : start.text ++ linesText before ++
      (line.key ++ colon :: List.replicate line.spaces SP) ++
      CR :: LF :: (linesText after ++ CRLF) = start.text ++ header.text := by
    rw [HeaderSection.text, split]
    simp [linesText, HeaderLine.text, empty, CRLF]
  rw [bytes] at whole
  obtain ⟨parser, called, inBody, entries, -⟩ :=
    independent _ _ (wholeCall_addresses (start.text ++ header.text)) List.flatten_singleton
  rw [called] at whole
  have holds := Memory.holds_ofBytes 0 (start.text ++ header.text)
  rw [← bytes, Memory.holds_append_iff, Int.zero_add, bytes] at holds
  have run := charRun_of_parserLoop holds.2 whole.symm
  obtain ⟨swallowed, taken, tail⟩ := run.uncons
  obtain ⟨same, inTail⟩ := taken.swallow rfl rfl part
  have count := tail.lineCount_le taken.nextState inTail
  have keys : (headerSlices start.text.length (fieldsOf before plain)).map Prod.fst =
      before.map HeaderLine.key := by
    rw [headerSlices_keys, fieldsOf, List.map_pmap]
    exact List.pmap_eq_map _
  have distinct : (before.map HeaderLine.key).Nodup := by
    have all := header.distinct
    rw [split, List.map_append] at all
    exact (List.nodup_append.mp all).1
  have recorded := length_keys_assign (keys ▸ distinct)
  rw [← List.length_map Prod.fst, keys, List.length_map, ← start.noHeader] at recorded
  have first : swallowed.lineCount = before.length := by
    rw [same, HTTPMessageParser.lineCount]
    change (assign start.after.headerPos
      (headerSlices start.text.length (fieldsOf before plain))).keys.length +
        next.isEmptyLine.toNat = before.length
    rw [recorded, inside]
    rfl
  have rest : (LF :: (linesText after ++ CRLF)).count CR = after.length + 1 := by
    rw [List.count_cons_of_ne (by decide), List.count_append, count_linesText]
    rfl
  rw [HTTPMessageParser.lineCount, inBody, State.ended, entries, first, rest, split,
    List.length_append, List.length_cons] at count
  omega

/-- A `Content-Length` that is no number throws. -/
theorem StartLine.not_independent_of_unreadable {header : HeaderSection}
    {before after : List HeaderLine} {line : HeaderLine}
    (split : header.lines = before ++ line :: after) (plain : ∀ line ∈ before, line.Plain)
    (filled : line.value ≠ []) (isLength : line.key = contentLength) {fault : Fault}
    (thrown : stoi line.value = .error fault) : ¬ start.Independent header := by
  have inside : fault ≠ .sliceOutside := by
    rintro rfl
    exact stoi_ne_outside line.value thrown
  obtain ⟨state, lineStart, front⟩ := reads_fields start.text {} start.after
    (fieldsOf_readable before plain) ⟨rfl, rfl, rfl⟩
  rw [headerText_fieldsOf] at front
  have stopped := consume_unreadable (start.text ++ linesText before) state
    (start.after.readHeader start.text.length (fieldsOf before plain)) (line.field filled) isLength
    thrown lineStart (linesText after ++ CRLF)
  refine not_answers_of_fault ?_ inside true _
  have bytes : start.text ++ header.text = start.text ++ linesText before ++
      ((line.field filled).text ++ (linesText after ++ CRLF)) := by
    rw [HeaderSection.text, split]
    simp [linesText, HeaderLine.text, HeaderField.text, HeaderLine.field]
  obtain ⟨c, rest, split⟩ := List.exists_cons_of_ne_nil
    (show (line.field filled).text ++ (linesText after ++ CRLF) ≠ [] by simp [HeaderField.text])
  rw [split] at stopped bytes
  rw [bytes]
  exact ((start.reads.trans front).consume_next c rest).trans stopped

/-- What does not hold of all members of a list fails at a first one. -/
theorem exists_first_not {α : Type*} {good : α → Prop} {list : List α}
    (some : ¬ ∀ member ∈ list, good member) :
    ∃ before first after, list = before ++ first :: after ∧ (∀ member ∈ before, good member) ∧
      ¬ good first := by
  induction list with
  | nil => simp at some
  | cons head tail ih =>
      by_cases here : good head
      · have later : ¬ ∀ member ∈ tail, good member := fun all =>
          some (List.forall_mem_cons.mpr ⟨here, all⟩)
        obtain ⟨before, first, after, rfl, all, bad⟩ := ih later
        exact ⟨head :: before, first, after, rfl, List.forall_mem_cons.mpr ⟨here, all⟩, bad⟩
      · exact ⟨[], head, tail, rfl, by simp, here⟩

/--
The lines are independent exactly when each has a value, and each length is a number, in a
message of at most 2147483647 bytes.
-/
theorem StartLine.independent_iff (header : HeaderSection) :
    start.Independent header ↔ ∀ line ∈ header.lines, line.Plain := by
  refine ⟨fun independent => ?_, start.independent_of_plain header⟩
  by_contra some
  obtain ⟨before, line, after, split, plain, bad⟩ := exists_first_not some
  by_cases empty : line.value = []
  · exact start.not_independent_of_empty split plain empty independent
  · by_cases isLength : line.key = contentLength
    · cases read : stoi line.value with
      | ok length => exact bad ⟨empty, fun _ => ⟨length, read⟩⟩
      | error fault =>
          exact start.not_independent_of_unreadable split plain empty isLength read independent
    · exact bad ⟨empty, fun same => absurd same isLength⟩

end

theorem keys_plain : ∀ key ∈ [ascii "X", ascii "Y"],
    key ≠ [] ∧ ∀ c ∈ key, c ≠ colon ∧ c ≠ CR := by
  decide +kernel

theorem first_key : ascii "X" ∈ [ascii "X", ascii "Y"] := List.mem_cons_self

theorem second_key : ascii "Y" ∈ [ascii "X", ascii "Y"] :=
  List.mem_cons_of_mem _ List.mem_cons_self

theorem value_one : ∀ c ∈ ascii "1", c ≠ CR := by decide +kernel

theorem start_nil : ([] : Bytes).head? ≠ some SP := by decide +kernel

theorem start_one : (ascii "1").head? ≠ some SP := by decide +kernel

theorem keys_distinct : [ascii "X", ascii "Y"].Nodup := by decide +kernel

/-- `X:` in front of `Y: 1`. -/
def emptiedHeader : HeaderSection where
  lines := [
    { key := ascii "X", spaces := 0, value := []
      keyFilled := (keys_plain _ first_key).1, keyPlain := (keys_plain _ first_key).2
      valuePlain := List.forall_mem_nil _, valueStart := start_nil },
    { key := ascii "Y", spaces := 1, value := ascii "1"
      keyFilled := (keys_plain _ second_key).1, keyPlain := (keys_plain _ second_key).2
      valuePlain := value_one, valueStart := start_one }]
  distinct := keys_distinct

/-- The second line becomes the value of the first. -/
theorem emptiedHeader_dependent :
    ¬ ∀ (start : StartLine true .v1_0 0) (header : HeaderSection), start.Independent header := by
  intro all
  have split : emptiedHeader.lines = [] ++ emptiedHeader.lines := rfl
  exact (bareLine.startLine .v1_0 0).not_independent_of_empty split (by simp) rfl
    (all (bareLine.startLine .v1_0 0) emptiedHeader)

end SimpleWebServer.Http
