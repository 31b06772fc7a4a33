import SimpleWebServer.Http.ParserCalls

/-!
# Where the parser is total

Only two states can fail on a byte: the URL state when it copies a key of the query, and
the header state when it reads the number of a `Content-Length`.  This module states what
each of them needs before the byte, and shows that nothing else is needed.
-/

namespace SimpleWebServer.Http

open SimpleWebServer.Base

/-- White space, an optional sign and a decimal number that fits an `int`. -/
def WritesInt (text : Bytes) : Prop :=
  let (negative, unsigned) := splitSign (text.dropWhile isSpace)
  let digits := unsigned.takeWhile isDigit
  digits ≠ [] ∧ digitsValue digits ≤ if negative then 2147483648 else 2147483647

theorem stoi_isOk_iff (text : Bytes) : (∃ value, stoi text = .ok value) ↔ WritesInt text := by
  unfold stoi WritesInt
  obtain ⟨negative, unsigned⟩ := splitSign (text.dropWhile isSpace)
  by_cases empty : unsigned.takeWhile isDigit = []
  · simp [empty]
  · cases negative with
    | false =>
        simp only [empty, if_false, ne_eq, not_false_iff, true_and, Bool.false_eq_true]
        split_ifs with fits <;> simp <;> omega
    | true =>
        simp only [empty, if_false, if_true, ne_eq, not_false_iff, true_and]
        split_ifs with fits <;> simp <;> omega

/-- The key that `&`, or the space behind a query, copies lies within the bytes read by then. -/
def StateURL.KeyReady (state : StateURL) (parser : HTTPMessageParser) (c : Byte) : Prop :=
  c = ampersand ∨ (c = SP ∧ state.hasQuery = true) →
    0 ≤ state.nowKeyOffset ∧ 0 ≤ state.nowKeyLen ∧
      state.nowKeyOffset + state.nowKeyLen ≤ parser.nowLen + 1

/-- The key of the header line that is being read. -/
def StateHeader.key (state : StateHeader) (consumed : Bytes) : Bytes :=
  (consumed.drop state.nowKeyOffset.toNat).take state.nowKeyLen.toNat

/-- The carriage return behind a `Content-Length` finds a number in front of it. -/
def StateHeader.LengthReady (state : StateHeader) (consumed : Bytes) (c : Byte) : Prop :=
  state.nowPart = .value → c = CR → state.key consumed = contentLength →
    WritesInt (consumed.drop state.nowValueOffset.toNat)

/-- What the next byte `c` needs of a parser that has read `consumed`. -/
def CharReady (consumed : Bytes) (parser : HTTPMessageParser) (c : Byte) : Prop :=
  match parser.state with
  | .url state => state.KeyReady parser c
  | .header state => state.LengthReady consumed c
  | _ => True

theorem map_isOk_iff {α β : Type*} {outcome : Except Fault α} {transform : α → β} :
    (∃ result, outcome.map transform = .ok result) ↔ ∃ value, outcome = .ok value := by
  cases outcome with
  | error fault => simp [Except.map]
  | ok value => simp [Except.map]

theorem sliceOf_isOk_iff {consumed : Bytes} {context : HTTPMessageParser} {offset length : Int} :
    (∃ built, sliceOf consumed context offset length = .ok built) ↔
      0 ≤ offset ∧ 0 ≤ length ∧ offset + length ≤ context.nowLen := by
  unfold sliceOf
  by_cases negative : length < 0
  · rw [if_pos negative]
    exact iff_of_false (by rintro ⟨_, ⟨⟩⟩) (by omega)
  · rw [if_neg negative]
    by_cases inside : SliceConsumed context offset length
    · rw [if_pos inside]
      exact iff_of_true ⟨_, rfl⟩ ⟨inside.1, by omega, inside.2⟩
    · rw [if_neg inside]
      refine iff_of_false (by rintro ⟨_, ⟨⟩⟩) ?_
      rintro ⟨offset_nonneg, _, below⟩
      exact inside ⟨offset_nonneg, below⟩

/-- A slice of the bytes in front of the current one. -/
theorem sliceOf_append {consumed rest : Bytes} {context : HTTPMessageParser}
    {offset length : Int} (offset_nonneg : 0 ≤ offset) (length_nonneg : 0 ≤ length)
    (inside : offset + length ≤ consumed.length) (read : consumed.length ≤ context.nowLen) :
    sliceOf (consumed ++ rest) context offset length =
      .ok ((consumed.drop offset.toNat).take length.toNat) := by
  rw [sliceOf, if_neg (by omega), if_pos ⟨offset_nonneg, by omega⟩,
    List.drop_append_of_le_length (by omega), List.take_append_of_le_length]
  rw [List.length_drop]
  omega

section

variable {consumed : Bytes} {context : HTTPMessageParser}

theorem StateURL.matchStep_isOk_iff {state : StateURL} {before : HTTPMessageParser} {c : Byte}
    (char : context.nowChar = c) (length : context.nowLen = before.nowLen + 1)
    (sound : state.Sound before.nowLen) :
    (∃ result, state.matchStep (sliceOf consumed) context = .ok result) ↔
      state.KeyReady before c := by
  obtain ⟨keyGe, keyLe, valueLe, paired⟩ := sound
  unfold matchStep KeyReady
  rw [map_isOk_iff, ← char]
  unfold matchPart
  simp only
  split_ifs with isQuestion isEqual isAmpersand isSpace noQuery complete first
  · simp [isQuestion, question, ampersand, SP]
  · simp [isEqual, equalSign, ampersand, SP]
  · rw [map_isOk_iff, recordPair, map_isOk_iff, sliceOf_isOk_iff, length]
    simp [isAmpersand]
  · simp [isSpace, noQuery, ampersand, SP]
  · rw [map_isOk_iff, recordPair, map_isOk_iff, sliceOf_isOk_iff, length]
    simp [isSpace, noQuery]
  · refine iff_of_false (by rintro ⟨_, ⟨⟩⟩) ?_
    intro ready
    obtain ⟨offset_nonneg, length_nonneg, inside⟩ := ready (.inr ⟨isSpace, by simpa using noQuery⟩)
    have value := paired length_nonneg
    omega
  · simp [isAmpersand, isSpace]
  · simp [isAmpersand, isSpace]

theorem StateHeader.takeTotalLen_isOk_iff {rest : Bytes} {state : StateHeader}
    (read : consumed.length ≤ context.nowLen)
    (value : 0 ≤ state.nowValueOffset ∧ 0 ≤ state.nowValueLen ∧
      state.nowValueOffset + state.nowValueLen = consumed.length) :
    (∃ after, state.takeTotalLen (sliceOf (consumed ++ rest)) context = .ok after) ↔
      WritesInt (consumed.drop state.nowValueOffset.toNat) := by
  obtain ⟨offset_nonneg, length_nonneg, inside⟩ := value
  have whole : (consumed.drop state.nowValueOffset.toNat).take state.nowValueLen.toNat =
      consumed.drop state.nowValueOffset.toNat := by
    rw [List.take_of_length_le]
    rw [List.length_drop]
    omega
  unfold takeTotalLen
  rw [sliceOf_append offset_nonneg length_nonneg inside.le read, whole]
  simp only
  rw [map_isOk_iff, stoi_isOk_iff]

theorem StateHeader.recordEntry_isOk_iff {rest : Bytes} {state : StateHeader}
    (read : consumed.length ≤ context.nowLen)
    (key : 0 ≤ state.nowKeyOffset ∧ 0 ≤ state.nowKeyLen ∧
      state.nowKeyOffset + state.nowKeyLen ≤ consumed.length)
    (value : 0 ≤ state.nowValueOffset ∧ 0 ≤ state.nowValueLen ∧
      state.nowValueOffset + state.nowValueLen = consumed.length) :
    (∃ after, state.recordEntry (sliceOf (consumed ++ rest)) context = .ok after) ↔
      (state.key consumed = contentLength →
        WritesInt (consumed.drop state.nowValueOffset.toNat)) := by
  unfold recordEntry StateHeader.key
  rw [sliceOf_append key.1 key.2.1 key.2.2 read]
  simp only
  split_ifs with isLength
  · rw [takeTotalLen_isOk_iff (by exact read) value]
    exact ⟨fun written _ => written, fun ready => ready isLength⟩
  · exact ⟨fun _ equal => absurd equal isLength, fun _ => ⟨_, rfl⟩⟩

theorem StateHeader.matchStep_isOk_iff {state : StateHeader} {before : HTTPMessageParser}
    {c : Byte} (char : context.nowChar = c) (length : context.nowLen = before.nowLen + 1)
    (known : before.nowLen = consumed.length) (sound : state.Sound before.nowLen) :
    (∃ result, state.matchStep (sliceOf (consumed ++ [c])) context = .ok result) ↔
      state.LengthReady consumed c := by
  unfold matchStep LengthReady
  rw [map_isOk_iff]
  unfold matchPart
  unfold StateHeader.Sound at sound
  cases part : state.nowPart with
  | key =>
      simp only [reduceCtorEq, false_implies, iff_true]
      split_ifs <;> exact ⟨_, rfl⟩
  | split =>
      simp only [reduceCtorEq, false_implies, iff_true]
      split_ifs <;> exact ⟨_, rfl⟩
  | «end» =>
      simp only [reduceCtorEq, false_implies, iff_true]
      split_ifs <;> exact ⟨_, rfl⟩
  | value =>
      simp only [part] at sound
      obtain ⟨keyOffset, keyLength, keyEnd, valueOffset⟩ := sound
      by_cases isEnd : c = CR
      · simp only [char, isEnd, if_true, forall_const]
        rw [map_isOk_iff, recordEntry_isOk_iff]
        · rfl
        · omega
        · exact ⟨keyOffset, by dsimp only; omega, by dsimp only; omega⟩
        · exact ⟨by dsimp only; omega, by dsimp only; omega, by dsimp only; omega⟩
      · simp [char, isEnd]

end

/-- A sound parser reads the next byte without a fault exactly when the byte finds what it needs. -/
theorem HTTPMessageParser.matchChar_isOk_iff {consumed : Bytes}
    {parser : HTTPMessageParser} (sound : parser.Sound) (known : parser.nowLen = consumed.length)
    (c : Byte) :
    (∃ after, parser.matchChar (sliceOf (consumed ++ [c])) c = .ok after) ↔
      CharReady consumed parser c := by
  have counters := sound.state
  unfold matchChar State.matchStep CharReady
  cases state : parser.state with
  | url state =>
      rw [state] at counters
      simp only
      rw [map_isOk_iff]
      exact StateURL.matchStep_isOk_iff rfl rfl counters.2.2
  | header state =>
      rw [state] at counters
      simp only
      rw [map_isOk_iff]
      exact StateHeader.matchStep_isOk_iff rfl rfl known counters.2
  | method state => simp
  | version state => simp
  | code state => simp
  | detail state => simp
  | body state => simp

/-- Every byte that the parser reads on its way through `bytes` finds what it needs. -/
def CharsReady (consumed bytes : Bytes) (parser : HTTPMessageParser) : Prop :=
  ∀ (before : Bytes) (c : Byte) (rest : Bytes), bytes = before ++ c :: rest →
    ∀ reached, consume consumed before parser = .ok (true, reached) →
      CharReady (consumed ++ before) reached c

/-- A run has no fault exactly when every byte it reads finds what it needs. -/
theorem consume_isOk_iff {consumed bytes : Bytes}
    {parser : HTTPMessageParser} (sound : parser.Sound)
    (known : parser.nowLen = consumed.length) :
    (∃ result, consume consumed bytes parser = .ok result) ↔
      CharsReady consumed bytes parser := by
  induction bytes generalizing consumed parser with
  | nil =>
      refine ⟨?_, fun _ => ⟨_, rfl⟩⟩
      rintro - before c rest split
      simp at split
  | cons c rest ih =>
      have step := HTTPMessageParser.matchChar_isOk_iff sound known c
      constructor
      · rintro ⟨result, run⟩ before next later split reached readBefore
        cases before with
        | nil =>
            obtain ⟨rfl, rfl⟩ := List.cons.inj split
            cases readBefore
            rw [List.append_nil]
            apply step.mp
            rw [consume] at run
            cases taken : parser.matchChar (sliceOf (consumed ++ [c])) c with
            | error fault => simp [taken] at run
            | ok after => exact ⟨after, rfl⟩
        | cons first before =>
            obtain ⟨rfl, rfl⟩ := List.cons.inj split
            rw [consume] at run readBefore
            cases taken : parser.matchChar (sliceOf (consumed ++ [c])) c with
            | error fault => simp [taken] at run
            | ok after =>
                simp only [taken] at run readBefore
                by_cases stopped : after.isMatch = false
                · rw [if_pos stopped] at readBefore
                  cases readBefore
                · rw [if_neg stopped] at run readBefore
                  have afterLength : after.enterNext.nowLen = (consumed ++ [c]).length := by
                    rw [after.enterNext_sameInput.nowLen, HTTPMessageParser.matchChar_nowLen taken,
                      known]
                    simp
                  have tail := (ih (sound.matchChar taken) afterLength).mp ⟨result, run⟩
                  have ready := tail before next later rfl reached readBefore
                  rwa [List.append_assoc, List.singleton_append] at ready
      · intro ready
        have first := ready [] c rest rfl parser rfl
        rw [List.append_nil] at first
        obtain ⟨after, taken⟩ := step.mpr first
        rw [consume]
        simp only [taken]
        by_cases stopped : after.isMatch = false
        · rw [if_pos stopped]
          exact ⟨_, rfl⟩
        · rw [if_neg stopped]
          have afterLength : after.enterNext.nowLen = (consumed ++ [c]).length := by
            rw [after.enterNext_sameInput.nowLen, HTTPMessageParser.matchChar_nowLen taken, known]
            simp
          apply (ih (sound.matchChar taken) afterLength).mpr
          intro before next later split reached readBefore
          have here := ready (c :: before) next later (by rw [split]; rfl) reached (by
            rw [consume]
            simp only [taken, if_neg stopped]
            exact readBefore)
          rwa [List.append_assoc, List.singleton_append]

/-! ## Totality on untrusted input -/

/--
However `bytes` are cut into chunks of one contiguous buffer, every call answers `true` or
`false`: no step throws, fails an assertion or takes a slice outside the bytes consumed so far.
-/
def NeverFaults (isRequest : Bool) (version : HTTPVersion) (code : Int) (bytes : Bytes) : Prop :=
  ∀ (memory : Memory) (start : Int) (chunks : List Bytes), memory.Holds start bytes →
    chunks.flatten = bytes →
      ∃ result, (HTTPMessageParser.new isRequest version code).parserMessagesChecked
        (placedCalls memory start chunks) = .ok result

theorem forgetBegin_isOk_iff {outcome : Except Fault (Bool × HTTPMessageParser)} :
    (∃ result, forgetBegin outcome = .ok result) ↔ ∃ result, outcome = .ok result :=
  map_isOk_iff

/--
The parser is total on exactly the inputs whose bytes all find what they need, among those of at
most 2147483647 bytes.
-/
theorem neverFaults_iff (isRequest : Bool) (version : HTTPVersion) (code : Int) (bytes : Bytes) :
    NeverFaults isRequest version code bytes ↔
      CharsReady [] bytes (HTTPMessageParser.new isRequest version code) := by
  have sound := new_sound isRequest version code
  rw [← consume_isOk_iff sound rfl]
  have calls {memory : Memory} {start : Int} {chunks : List Bytes}
      (holds : memory.Holds start bytes) (cut : chunks.flatten = bytes) :
      forgetBegin ((HTTPMessageParser.new isRequest version code).parserMessagesChecked
        (placedCalls memory start chunks)) =
      forgetBegin (consume [] bytes (HTTPMessageParser.new isRequest version code)) := by
    have addressed : CallsAddress [] (placedCalls memory (start + ([] : Bytes).length) chunks)
        chunks := placedCalls_address (by rwa [List.nil_append, cut])
    rw [List.length_nil, Nat.cast_zero, Int.add_zero] at addressed
    rw [parserMessagesChecked_eq addressed rfl rfl, cut]
  constructor
  · intro total
    have holds := Memory.holds_ofBytes 0 bytes
    have cut : [bytes].flatten = bytes := by simp
    rw [← forgetBegin_isOk_iff, ← calls holds cut, forgetBegin_isOk_iff]
    exact total _ 0 [bytes] holds cut
  · intro run memory start chunks holds cut
    rw [← forgetBegin_isOk_iff, calls holds cut, forgetBegin_isOk_iff]
    exact run

/-- A query key without a value meets the assertion behind the URL. -/
theorem keyWithoutValue_faults :
    ¬ ∀ isRequest version code bytes, NeverFaults isRequest version code bytes := by
  intro total
  obtain ⟨result, run⟩ := total true .v1_0 0 (ascii "GET /?a HTTP/1.0")
    (Memory.ofBytes 0 (ascii "GET /?a HTTP/1.0")) 0 [ascii "GET /?a HTTP/1.0"]
    (Memory.holds_ofBytes 0 _) (by simp)
  have fault : (HTTPMessageParser.new true .v1_0 0).parserMessagesChecked
      (placedCalls (Memory.ofBytes 0 (ascii "GET /?a HTTP/1.0")) 0 [ascii "GET /?a HTTP/1.0"]) =
      .error .assertion := by
    decide +kernel
  rw [fault] at run
  cases run

end SimpleWebServer.Http
