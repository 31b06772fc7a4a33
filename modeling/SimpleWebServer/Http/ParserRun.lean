import SimpleWebServer.Http.HTTPMessageParser
import Mathlib.Tactic.SplitIfs

/-!
# Runs of the parser

`parser_message` sees the input through a pointer that changes from call to call.
This module replaces the pointer by what it stands for: `consume` reads a list of
bytes after an already consumed prefix, and every string is a slice of the bytes
consumed so far.  A call of the checked parser over any memory that holds the
message is this run, whatever its address and whatever the memory holds elsewhere.
-/

namespace SimpleWebServer.Http

open SimpleWebServer.Base

namespace HTTPMessageParser

/-- The same parser with another `begin_ptr`. -/
@[reducible]
def rebase (parser : HTTPMessageParser) (beginPtr : Int) : HTTPMessageParser :=
  { parser with beginPtr := beginPtr }

@[simp]
theorem rebase_rebase (parser : HTTPMessageParser) (first second : Int) :
    (parser.rebase first).rebase second = parser.rebase second := rfl

@[simp]
theorem rebase_self (parser : HTTPMessageParser) : parser.rebase parser.beginPtr = parser := rfl

@[simp]
theorem rebase_isMatch (parser : HTTPMessageParser) (beginPtr : Int) :
    (parser.rebase beginPtr).isMatch = parser.isMatch := rfl

@[simp]
theorem rebase_nowLen (parser : HTTPMessageParser) (beginPtr : Int) :
    (parser.rebase beginPtr).nowLen = parser.nowLen := rfl

@[simp]
theorem rebase_isCompleted (parser : HTTPMessageParser) (beginPtr : Int) :
    (parser.rebase beginPtr).isCompleted = parser.isCompleted := rfl

theorem rebase_enterNext (parser : HTTPMessageParser) (beginPtr : Int) :
    (parser.rebase beginPtr).enterNext = parser.enterNext.rebase beginPtr := by
  cases entered : parser.nextState <;> simp [enterNext, rebase, entered]

end HTTPMessageParser

/-! ## The steps do not look at `begin_ptr` except through the string constructor -/

/--
`string` on parsers that stand at `beginPtr` builds the same strings as `other`
does, for every parser that has consumed `consumed` bytes.
-/
def StringsAgree (string other : StringCtor) (beginPtr consumed : Int) : Prop :=
  ∀ (context : HTTPMessageParser) (offset length : Int), context.nowLen = consumed →
    string (context.rebase beginPtr) offset length = other context offset length

theorem StateMethod.matchStep_rebase (state : StateMethod) (context : HTTPMessageParser)
    (beginPtr : Int) :
    state.matchStep (context.rebase beginPtr) =
      ((state.matchStep context).1, (state.matchStep context).2.rebase beginPtr) := by
  unfold matchStep HTTPMessageParser.rebase
  simp only
  split_ifs <;> rfl

theorem StateVersion.matchStep_rebase (state : StateVersion) (context : HTTPMessageParser)
    (beginPtr : Int) :
    state.matchStep (context.rebase beginPtr) =
      ((state.matchStep context).1, (state.matchStep context).2.rebase beginPtr) := by
  unfold matchStep HTTPMessageParser.rebase
  cases fixedByte? state.nowIdx with
  | some byte =>
      simp only
      split_ifs <;> rfl
  | none =>
      simp only
      split_ifs <;> rfl

theorem StateCode.matchStep_rebase (state : StateCode) (context : HTTPMessageParser)
    (beginPtr : Int) :
    state.matchStep (context.rebase beginPtr) =
      ((state.matchStep context).1, (state.matchStep context).2.rebase beginPtr) := by
  unfold matchStep HTTPMessageParser.rebase
  simp only
  split_ifs <;> rfl

theorem StateDetail.matchStep_rebase (state : StateDetail) (context : HTTPMessageParser)
    (beginPtr : Int) :
    state.matchStep (context.rebase beginPtr) =
      ((state.matchStep context).1, (state.matchStep context).2.rebase beginPtr) := by
  unfold matchStep HTTPMessageParser.rebase
  simp only
  split_ifs <;> rfl

theorem StateBody.matchStep_rebase (state : StateBody) (context : HTTPMessageParser)
    (beginPtr : Int) :
    state.matchStep (context.rebase beginPtr) =
      ((state.matchStep context).1, (state.matchStep context).2.rebase beginPtr) := by
  unfold matchStep HTTPMessageParser.rebase
  simp only
  split_ifs <;> rfl

section

variable {string other : StringCtor} {beginPtr consumed : Int}
variable (agree : StringsAgree string other beginPtr consumed)
include agree

theorem StateURL.recordPair_rebase (state : StateURL) {context : HTTPMessageParser}
    (length : context.nowLen = consumed) :
    state.recordPair string (context.rebase beginPtr) =
      (state.recordPair other context).map (·.rebase beginPtr) := by
  unfold recordPair
  rw [agree context _ _ length]
  cases other context state.nowKeyOffset state.nowKeyLen <;> rfl

theorem StateURL.matchPart_rebase (state : StateURL) {context : HTTPMessageParser}
    (length : context.nowLen = consumed) :
    state.matchPart string (context.rebase beginPtr) =
      (state.matchPart other context).map fun result =>
        (result.1, result.2.rebase beginPtr) := by
  unfold matchPart
  simp only [StateURL.recordPair_rebase agree _ length]
  simp only [HTTPMessageParser.rebase]
  by_cases isQuestion : context.nowChar = question
  · simp only [if_pos isQuestion]
    rfl
  by_cases isEqual : context.nowChar = equalSign
  · simp only [if_neg isQuestion, if_pos isEqual]
    rfl
  by_cases isAmpersand : context.nowChar = ampersand
  · simp only [if_neg isQuestion, if_neg isEqual, if_pos isAmpersand]
    cases recordPair other _ context <;> rfl
  by_cases isSpace : context.nowChar = SP
  · simp only [if_neg isQuestion, if_neg isEqual, if_neg isAmpersand, if_pos isSpace]
    by_cases noQuery : state.hasQuery = false
    · simp only [if_pos noQuery]
      rfl
    · simp only [if_neg noQuery]
      split
      · cases recordPair other _ context <;> rfl
      · rfl
  · simp only [if_neg isQuestion, if_neg isEqual, if_neg isAmpersand, if_neg isSpace]
    split_ifs <;> rfl

theorem StateURL.matchStep_rebase (state : StateURL) {context : HTTPMessageParser}
    (length : context.nowLen = consumed) :
    state.matchStep string (context.rebase beginPtr) =
      (state.matchStep other context).map fun result =>
        (result.1, result.2.rebase beginPtr) := by
  unfold matchStep
  rw [StateURL.matchPart_rebase agree state length]
  cases matchPart other state context <;> rfl

theorem StateHeader.takeTotalLen_rebase (state : StateHeader) {context : HTTPMessageParser}
    (length : context.nowLen = consumed) :
    state.takeTotalLen string (context.rebase beginPtr) =
      (state.takeTotalLen other context).map (·.rebase beginPtr) := by
  unfold takeTotalLen
  rw [agree context _ _ length]
  cases other context state.nowValueOffset state.nowValueLen with
  | error fault => rfl
  | ok value =>
      simp only
      cases stoi value <;> rfl

theorem StateHeader.recordEntry_rebase (state : StateHeader) {context : HTTPMessageParser}
    (length : context.nowLen = consumed) :
    state.recordEntry string (context.rebase beginPtr) =
      (state.recordEntry other context).map (·.rebase beginPtr) := by
  unfold recordEntry
  rw [agree context _ _ length]
  cases other context state.nowKeyOffset state.nowKeyLen with
  | error fault => rfl
  | ok key =>
      let entry : Slice := (state.nowValueOffset, state.nowValueLen)
      by_cases isLength : key = contentLength
      · simp only [if_pos isLength]
        let recorded : HTTPMessageParser :=
          { context with headerPos := context.headerPos.insert key entry }
        have recordedLength : recorded.nowLen = consumed := length
        exact StateHeader.takeTotalLen_rebase agree state recordedLength
      · simp only [if_neg isLength]
        rfl

theorem StateHeader.matchPart_rebase (state : StateHeader) {context : HTTPMessageParser}
    (length : context.nowLen = consumed) :
    state.matchPart string (context.rebase beginPtr) =
      (state.matchPart other context).map fun result =>
        (result.1, result.2.rebase beginPtr) := by
  unfold matchPart
  simp only [StateHeader.recordEntry_rebase agree _ length]
  simp only [HTTPMessageParser.rebase]
  cases state.nowPart with
  | key =>
      simp only
      split_ifs <;> rfl
  | split =>
      simp only
      split_ifs <;> rfl
  | value =>
      by_cases isEnd : context.nowChar = CR
      · simp only [if_pos isEnd]
        cases recordEntry other _ context <;> rfl
      · simp only [if_neg isEnd]
        rfl
  | «end» =>
      simp only
      split_ifs <;> rfl

theorem StateHeader.matchStep_rebase (state : StateHeader) {context : HTTPMessageParser}
    (length : context.nowLen = consumed) :
    state.matchStep string (context.rebase beginPtr) =
      (state.matchStep other context).map fun result =>
        (result.1, result.2.rebase beginPtr) := by
  unfold matchStep
  rw [StateHeader.matchPart_rebase agree state length]
  cases matchPart other state context <;> rfl

/-- A step at another address with agreeing strings is the same step at that address. -/
theorem State.matchStep_rebase (state : State) {context : HTTPMessageParser}
    (length : context.nowLen = consumed) :
    state.matchStep string (context.rebase beginPtr) =
      (state.matchStep other context).map (·.rebase beginPtr) := by
  cases state with
  | method state =>
      simp only [matchStep]
      rw [state.matchStep_rebase]
      rfl
  | version state =>
      simp only [matchStep]
      rw [state.matchStep_rebase]
      rfl
  | code state =>
      simp only [matchStep]
      rw [state.matchStep_rebase]
      rfl
  | detail state =>
      simp only [matchStep]
      rw [state.matchStep_rebase]
      rfl
  | body state =>
      simp only [matchStep]
      rw [state.matchStep_rebase]
      rfl
  | url state =>
      simp only [matchStep]
      rw [StateURL.matchStep_rebase agree state length]
      cases state.matchStep other context <;> rfl
  | header state =>
      simp only [matchStep]
      rw [StateHeader.matchStep_rebase agree state length]
      cases state.matchStep other context <;> rfl

theorem HTTPMessageParser.matchChar_rebase (parser : HTTPMessageParser) (c : Byte)
    (length : parser.nowLen + 1 = consumed) :
    (parser.rebase beginPtr).matchChar string c =
      (parser.matchChar other c).map (·.rebase beginPtr) :=
  State.matchStep_rebase agree parser.state
    (show ({ parser with nowChar := c, nowLen := parser.nowLen + 1 } : HTTPMessageParser).nowLen =
      consumed from length)

end

/-! ## Reading bytes after a consumed prefix -/

/-- The string that a slice denotes when `consumed` are the bytes read so far. -/
def sliceOf (consumed : Bytes) : StringCtor := fun parser offset length =>
  if length < 0 then .error .lengthError
  else if SliceConsumed parser offset length then
    .ok ((consumed.drop offset.toNat).take length.toNat)
  else .error .sliceOutside

/-- Read `bytes` after `consumed`, one after another, and stop at the first mismatch. -/
def consume (consumed : Bytes) : Bytes → HTTPMessageParser →
    Except Fault (Bool × HTTPMessageParser)
  | [], parser => .ok (true, parser)
  | c :: rest, parser =>
      match parser.matchChar (sliceOf (consumed ++ [c])) c with
      | .error fault => .error fault
      | .ok parser =>
          if parser.isMatch = false then .ok (false, parser)
          else consume (consumed ++ [c]) rest parser.enterNext

/-- Over memory that holds the consumed bytes, the checked constructor builds their slices. -/
theorem checkedStringOf_agree {memory : Memory} {beginPtr : Int} {consumed : Bytes}
    (holds : memory.Holds beginPtr consumed) :
    StringsAgree (checkedStringOf memory) (sliceOf consumed) beginPtr consumed.length := by
  intro context offset length known
  unfold checkedStringOf sliceOf
  by_cases negative : length < 0
  · rw [if_pos negative, if_pos negative]
  · rw [if_neg negative, if_neg negative]
    by_cases inside : SliceConsumed context offset length
    · rw [if_pos (show SliceConsumed (context.rebase beginPtr) offset length from inside),
        if_pos inside, stringOf, if_neg negative]
      obtain ⟨nonneg, below⟩ := inside
      rw [known] at below
      have slice := holds.read_slice
        (show offset.toNat + length.toNat ≤ _ by omega)
      rw [Int.toNat_of_nonneg nonneg] at slice
      have moved : (context.rebase beginPtr).beginPtr = beginPtr := rfl
      rw [moved, slice]
    · rw [if_neg (show ¬ SliceConsumed (context.rebase beginPtr) offset length from inside),
        if_neg inside]

/-! ## What a step leaves alone -/

/-- A step of a state keeps the mode, the count of consumed bytes and `begin_ptr`. -/
structure SameInput (before after : HTTPMessageParser) : Prop where
  isRequest : after.isRequest = before.isRequest
  nowLen : after.nowLen = before.nowLen
  beginPtr : after.beginPtr = before.beginPtr

theorem SameInput.refl (parser : HTTPMessageParser) : SameInput parser parser := ⟨rfl, rfl, rfl⟩

theorem StateMethod.matchStep_sameInput (state : StateMethod) (context : HTTPMessageParser) :
    SameInput context (state.matchStep context).2 := by
  unfold matchStep
  simp only
  split_ifs <;> exact ⟨rfl, rfl, rfl⟩

theorem StateVersion.matchStep_sameInput (state : StateVersion) (context : HTTPMessageParser) :
    SameInput context (state.matchStep context).2 := by
  unfold matchStep
  cases fixedByte? state.nowIdx with
  | some byte =>
      simp only
      split_ifs <;> exact ⟨rfl, rfl, rfl⟩
  | none =>
      simp only
      split_ifs <;> exact ⟨rfl, rfl, rfl⟩

theorem StateCode.matchStep_sameInput (state : StateCode) (context : HTTPMessageParser) :
    SameInput context (state.matchStep context).2 := by
  unfold matchStep
  simp only
  split_ifs <;> exact ⟨rfl, rfl, rfl⟩

theorem StateDetail.matchStep_sameInput (state : StateDetail) (context : HTTPMessageParser) :
    SameInput context (state.matchStep context).2 := by
  unfold matchStep
  simp only
  split_ifs <;> exact ⟨rfl, rfl, rfl⟩

theorem StateBody.matchStep_sameInput (state : StateBody) (context : HTTPMessageParser) :
    SameInput context (state.matchStep context).2 := by
  unfold matchStep
  simp only
  split_ifs <;> exact ⟨rfl, rfl, rfl⟩

/-- The result of a mapped computation comes from a result of the computation. -/
theorem map_eq_ok {α β : Type*} {outcome : Except Fault α} {transform : α → β} {result : β}
    (mapped : outcome.map transform = .ok result) :
    ∃ value, outcome = .ok value ∧ transform value = result := by
  cases outcome with
  | error fault => cases mapped
  | ok value => exact ⟨value, rfl, Except.ok.inj mapped⟩

theorem StateURL.recordPair_sameInput {string : StringCtor} {state : StateURL}
    {context after : HTTPMessageParser} (taken : state.recordPair string context = .ok after) :
    SameInput context after := by
  obtain ⟨key, _, rfl⟩ := map_eq_ok taken
  exact ⟨rfl, rfl, rfl⟩

theorem StateURL.matchPart_sameInput {string : StringCtor} {state : StateURL}
    {context : HTTPMessageParser} {result : StateURL × HTTPMessageParser}
    (taken : state.matchPart string context = .ok result) : SameInput context result.2 := by
  unfold matchPart at taken
  simp only at taken
  split_ifs at taken
  · cases taken
    exact ⟨rfl, rfl, rfl⟩
  · cases taken
    exact .refl _
  · obtain ⟨after, recorded, rfl⟩ := map_eq_ok taken
    exact recordPair_sameInput recorded
  · cases taken
    exact ⟨rfl, rfl, rfl⟩
  · obtain ⟨after, recorded, rfl⟩ := map_eq_ok taken
    have same := recordPair_sameInput recorded
    exact ⟨same.isRequest, same.nowLen, same.beginPtr⟩
  · cases taken
    exact ⟨rfl, rfl, rfl⟩
  · cases taken
    exact .refl _

theorem StateHeader.recordEntry_sameInput {string : StringCtor} {state : StateHeader}
    {context after : HTTPMessageParser} (taken : state.recordEntry string context = .ok after) :
    SameInput context after := by
  unfold recordEntry at taken
  cases built : string context state.nowKeyOffset state.nowKeyLen with
  | error fault => simp [built] at taken
  | ok key =>
      simp only [built] at taken
      split_ifs at taken
      · unfold takeTotalLen at taken
        split at taken
        · cases taken
        · obtain ⟨totalLen, _, rfl⟩ := map_eq_ok taken
          exact ⟨rfl, rfl, rfl⟩
      · cases taken
        exact ⟨rfl, rfl, rfl⟩

theorem StateHeader.matchPart_sameInput {string : StringCtor} {state : StateHeader}
    {context : HTTPMessageParser} {result : StateHeader × HTTPMessageParser}
    (taken : state.matchPart string context = .ok result) : SameInput context result.2 := by
  unfold matchPart at taken
  cases part : state.nowPart with
  | key =>
      simp only [part] at taken
      split_ifs at taken <;> cases taken <;> exact ⟨rfl, rfl, rfl⟩
  | split =>
      simp only [part] at taken
      split_ifs at taken <;> cases taken <;> exact ⟨rfl, rfl, rfl⟩
  | value =>
      simp only [part] at taken
      split_ifs at taken
      · obtain ⟨after, recorded, rfl⟩ := map_eq_ok taken
        exact recordEntry_sameInput recorded
      · cases taken
        exact .refl _
  | «end» =>
      simp only [part] at taken
      split_ifs at taken <;> cases taken <;> exact ⟨rfl, rfl, rfl⟩

theorem State.matchStep_sameInput {string : StringCtor} {state : State}
    {context after : HTTPMessageParser} (taken : state.matchStep string context = .ok after) :
    SameInput context after := by
  cases state with
  | method state =>
      cases taken
      have same := state.matchStep_sameInput context
      exact ⟨same.isRequest, same.nowLen, same.beginPtr⟩
  | version state =>
      cases taken
      have same := state.matchStep_sameInput context
      exact ⟨same.isRequest, same.nowLen, same.beginPtr⟩
  | code state =>
      cases taken
      have same := state.matchStep_sameInput context
      exact ⟨same.isRequest, same.nowLen, same.beginPtr⟩
  | detail state =>
      cases taken
      have same := state.matchStep_sameInput context
      exact ⟨same.isRequest, same.nowLen, same.beginPtr⟩
  | body state =>
      cases taken
      have same := state.matchStep_sameInput context
      exact ⟨same.isRequest, same.nowLen, same.beginPtr⟩
  | url state =>
      obtain ⟨result, stepped, rfl⟩ := map_eq_ok taken
      obtain ⟨inner, matched, rfl⟩ := map_eq_ok stepped
      have same := StateURL.matchPart_sameInput matched
      exact ⟨same.isRequest, same.nowLen, same.beginPtr⟩
  | header state =>
      obtain ⟨result, stepped, rfl⟩ := map_eq_ok taken
      obtain ⟨inner, matched, rfl⟩ := map_eq_ok stepped
      have same := StateHeader.matchPart_sameInput matched
      exact ⟨same.isRequest, same.nowLen, same.beginPtr⟩

namespace HTTPMessageParser

theorem matchChar_nowLen {string : StringCtor} {parser after : HTTPMessageParser} {c : Byte}
    (taken : parser.matchChar string c = .ok after) : after.nowLen = parser.nowLen + 1 :=
  (State.matchStep_sameInput taken).nowLen

theorem enterNext_sameInput (parser : HTTPMessageParser) :
    SameInput parser parser.enterNext := by
  cases entered : parser.nextState with
  | none =>
      simp only [enterNext, entered]
      exact .refl _
  | some next =>
      simp only [enterNext, entered]
      exact ⟨rfl, rfl, rfl⟩

end HTTPMessageParser

/-! ## Calls of `parser_message` as runs -/

/-- The loop of the checked parser over memory that holds the message is `consume`. -/
theorem parserLoop_eq_consume {memory : Memory} {beginPtr : Int} {consumed bytes : Bytes}
    (holds : memory.Holds beginPtr (consumed ++ bytes)) {parser : HTTPMessageParser}
    (length : parser.nowLen = consumed.length) :
    HTTPMessageParser.parserLoop (checkedStringOf memory) memory (beginPtr + consumed.length)
        bytes.length (parser.rebase beginPtr) =
      (consume consumed bytes parser).map fun result =>
        (result.1, result.2.rebase beginPtr) := by
  induction bytes generalizing consumed parser with
  | nil => rfl
  | cons c rest ih =>
      have rest_holds : memory.Holds beginPtr (consumed ++ [c] ++ rest) := by
        rwa [List.append_assoc]
      have prefix_holds := ((memory.holds_append_iff _ _ _).mp rest_holds).1
      have here : memory (beginPtr + consumed.length) = some c := by
        have entry := holds consumed.length (by simp)
        simpa using entry
      have agree := checkedStringOf_agree prefix_holds
      have stepped := HTTPMessageParser.matchChar_rebase agree parser c
        (by rw [length]; simp)
      rw [List.length_cons, HTTPMessageParser.parserLoop, here, consume]
      simp only [stepped]
      cases taken : parser.matchChar (sliceOf (consumed ++ [c])) c with
      | error fault => rfl
      | ok after =>
          have afterLength : after.enterNext.nowLen = (consumed ++ [c]).length := by
            rw [after.enterNext_sameInput.nowLen, HTTPMessageParser.matchChar_nowLen taken, length]
            simp
          simp only [Except.map]
          by_cases stopped : after.isMatch = false
          · rw [if_pos stopped, if_pos stopped]
          · rw [if_neg stopped, if_neg stopped, HTTPMessageParser.rebase_enterNext]
            have run := ih rest_holds afterLength
            rw [List.length_append, List.length_singleton] at run
            push_cast at run
            rw [← Int.add_assoc] at run
            exact run

namespace HTTPMessageParser

/-- A call of the checked parser on the bytes behind the consumed ones is `consume`. -/
theorem parserMessageChecked_eq {memory : Memory} {beginPtr : Int} {consumed bytes : Bytes}
    (holds : memory.Holds beginPtr (consumed ++ bytes)) {parser : HTTPMessageParser}
    (length : parser.nowLen = consumed.length) (matching : parser.isMatch = true) :
    parser.parserMessageChecked memory (beginPtr + consumed.length) bytes.length =
      (consume consumed bytes parser).map fun result =>
        (result.1, result.2.rebase beginPtr) := by
  rw [parserMessageChecked, parserMessageWith, if_neg (by simp [matching])]
  rw [← parserLoop_eq_consume holds length]
  have moved : beginPtr + (consumed.length : Int) - parser.nowLen = beginPtr := by omega
  rw [moved]

/-- A parser that has failed answers `false` and stays as it is. -/
theorem parserMessageWith_failed (string : Memory → StringCtor) (memory : Memory) (str : Int)
    (len : Nat) {parser : HTTPMessageParser} (failed : parser.isMatch = false) :
    parser.parserMessageWith string memory str len = .ok (false, parser) := by
  rw [parserMessageWith, if_pos failed]

@[simp]
theorem enterNext_isMatch (parser : HTTPMessageParser) :
    parser.enterNext.isMatch = parser.isMatch := by
  cases entered : parser.nextState <;> simp [enterNext, entered]

end HTTPMessageParser

/-! ## Composition of runs -/

@[simp]
theorem consume_nil (consumed : Bytes) (parser : HTTPMessageParser) :
    consume consumed [] parser = .ok (true, parser) := rfl

/-- The verdict of a run is whether its last parser still matches. -/
theorem consume_verdict {consumed bytes : Bytes} {parser after : HTTPMessageParser}
    {verdict : Bool} (matching : parser.isMatch = true)
    (run : consume consumed bytes parser = .ok (verdict, after)) : after.isMatch = verdict := by
  induction bytes generalizing consumed parser with
  | nil =>
      cases run
      exact matching
  | cons c rest ih =>
      rw [consume] at run
      cases taken : parser.matchChar (sliceOf (consumed ++ [c])) c with
      | error fault => simp [taken] at run
      | ok middle =>
          simp only [taken] at run
          by_cases stopped : middle.isMatch = false
          · rw [if_pos stopped] at run
            cases run
            exact stopped
          · rw [if_neg stopped] at run
            exact ih (by simpa using stopped) run

/-- A run that does not stop consumes all its bytes. -/
theorem consume_nowLen {consumed bytes : Bytes} {parser after : HTTPMessageParser}
    (run : consume consumed bytes parser = .ok (true, after)) :
    after.nowLen = parser.nowLen + bytes.length := by
  induction bytes generalizing consumed parser with
  | nil =>
      cases run
      simp
  | cons c rest ih =>
      rw [consume] at run
      cases taken : parser.matchChar (sliceOf (consumed ++ [c])) c with
      | error fault => simp [taken] at run
      | ok middle =>
          simp only [taken] at run
          by_cases stopped : middle.isMatch = false
          · rw [if_pos stopped] at run
            cases run
          · rw [if_neg stopped] at run
            rw [ih run, middle.enterNext_sameInput.nowLen,
              HTTPMessageParser.matchChar_nowLen taken, List.length_cons]
            push_cast
            omega

/-- Reading two pieces is reading the first and, if it matches, the second after it. -/
theorem consume_append (consumed first second : Bytes) (parser : HTTPMessageParser) :
    consume consumed (first ++ second) parser =
      match consume consumed first parser with
      | .error fault => .error fault
      | .ok (false, middle) => .ok (false, middle)
      | .ok (true, middle) => consume (consumed ++ first) second middle := by
  induction first generalizing consumed parser with
  | nil => simp
  | cons c rest ih =>
      rw [List.cons_append, consume, consume]
      cases parser.matchChar (sliceOf (consumed ++ [c])) c with
      | error fault => rfl
      | ok after =>
          simp only
          by_cases stopped : after.isMatch = false
          · rw [if_pos stopped, if_pos stopped]
          · rw [if_neg stopped, if_neg stopped, ih, List.append_assoc, List.singleton_append]

/-! ## From the checked to the library's constructor -/

/-- Where the checked outcome is not a slice outside the consumed bytes, both outcomes agree. -/
def Refined {α : Type} (checked outcome : Except Fault α) : Prop :=
  checked = .error .sliceOutside ∨ outcome = checked

theorem Refined.map {α β : Type} {checked outcome : Except Fault α} (transform : α → β)
    (refined : Refined checked outcome) :
    Refined (checked.map transform) (outcome.map transform) := by
  rcases refined with outside | same
  · exact .inl (by rw [outside]; rfl)
  · exact .inr (by rw [same])

theorem stringOf_refined (memory : Memory) (context : HTTPMessageParser)
    (offset length : Int) :
    Refined (checkedStringOf memory context offset length)
      (stringOf memory context offset length) := by
  unfold checkedStringOf
  split_ifs with negative inside
  · exact .inr (by rw [stringOf, if_pos negative])
  · exact .inr rfl
  · exact .inl rfl

theorem StateURL.matchPart_refined (memory : Memory) (state : StateURL)
    (context : HTTPMessageParser) :
    Refined (state.matchPart (checkedStringOf memory) context)
      (state.matchPart (stringOf memory) context) := by
  have recorded (pair : StateURL) : Refined (pair.recordPair (checkedStringOf memory) context)
      (pair.recordPair (stringOf memory) context) :=
    (stringOf_refined memory context _ _).map _
  unfold matchPart
  simp only
  split_ifs
  · exact .inr rfl
  · exact .inr rfl
  · exact (recorded _).map _
  · exact .inr rfl
  · exact (recorded _).map _
  · exact .inr rfl
  · exact .inr rfl
  · exact .inr rfl

theorem StateHeader.takeTotalLen_refined (memory : Memory) (state : StateHeader)
    (context : HTTPMessageParser) :
    Refined (state.takeTotalLen (checkedStringOf memory) context)
      (state.takeTotalLen (stringOf memory) context) := by
  unfold takeTotalLen
  rcases stringOf_refined memory context state.nowValueOffset state.nowValueLen with
    outside | same
  · exact .inl (by rw [outside])
  · exact .inr (by rw [same])

theorem StateHeader.recordEntry_refined (memory : Memory) (state : StateHeader)
    (context : HTTPMessageParser) :
    Refined (state.recordEntry (checkedStringOf memory) context)
      (state.recordEntry (stringOf memory) context) := by
  unfold recordEntry
  rcases stringOf_refined memory context state.nowKeyOffset state.nowKeyLen with outside | same
  · exact .inl (by rw [outside])
  · rw [same]
    cases checkedStringOf memory context state.nowKeyOffset state.nowKeyLen with
    | error fault => exact .inr rfl
    | ok key =>
        simp only
        split_ifs
        · exact state.takeTotalLen_refined memory _
        · exact .inr rfl

theorem StateHeader.matchPart_refined (memory : Memory) (state : StateHeader)
    (context : HTTPMessageParser) :
    Refined (state.matchPart (checkedStringOf memory) context)
      (state.matchPart (stringOf memory) context) := by
  unfold matchPart
  cases state.nowPart with
  | key => exact .inr rfl
  | split => exact .inr rfl
  | value =>
      simp only
      split_ifs
      · exact (StateHeader.recordEntry_refined memory _ context).map _
      · exact .inr rfl
  | «end» => exact .inr rfl

theorem HTTPMessageParser.matchChar_refined (memory : Memory) (parser : HTTPMessageParser)
    (c : Byte) :
    Refined (parser.matchChar (checkedStringOf memory) c)
      (parser.matchChar (stringOf memory) c) := by
  unfold matchChar State.matchStep
  cases parser.state with
  | url state => exact ((state.matchPart_refined memory _).map _).map _
  | header state => exact ((state.matchPart_refined memory _).map _).map _
  | method state => exact .inr rfl
  | version state => exact .inr rfl
  | code state => exact .inr rfl
  | detail state => exact .inr rfl
  | body state => exact .inr rfl

theorem HTTPMessageParser.parserLoop_refined (memory : Memory) (str : Int) (len : Nat)
    (parser : HTTPMessageParser) :
    Refined (parserLoop (checkedStringOf memory) memory str len parser)
      (parserLoop (stringOf memory) memory str len parser) := by
  induction len generalizing str parser with
  | zero => exact .inr rfl
  | succ len ih =>
      rw [parserLoop, parserLoop]
      cases memory str with
      | none => exact .inr rfl
      | some c =>
          simp only
          rcases parser.matchChar_refined memory c with outside | same
          · exact .inl (by rw [outside])
          · rw [same]
            cases parser.matchChar (checkedStringOf memory) c with
            | error fault => exact .inr rfl
            | ok after =>
                simp only
                split_ifs
                · exact .inr rfl
                · exact ih (str + 1) after.enterNext

/-- Unless a slice lies outside the consumed bytes, the check changes nothing. -/
theorem HTTPMessageParser.parserMessage_refined (memory : Memory) (str : Int) (len : Nat)
    (parser : HTTPMessageParser) :
    Refined (parser.parserMessageChecked memory str len) (parser.parserMessage memory str len) := by
  unfold parserMessageChecked parserMessage parserMessageWith
  split_ifs
  · exact .inr rfl
  · exact parserLoop_refined memory str len _

/-- A call whose slices all lie within the consumed bytes is the run over its bytes. -/
theorem HTTPMessageParser.parserMessage_eq {memory : Memory} {beginPtr : Int}
    {consumed bytes : Bytes} (holds : memory.Holds beginPtr (consumed ++ bytes))
    {parser : HTTPMessageParser} (length : parser.nowLen = consumed.length)
    (matching : parser.isMatch = true)
    (inside : consume consumed bytes parser ≠ .error .sliceOutside) :
    parser.parserMessage memory (beginPtr + consumed.length) bytes.length =
      (consume consumed bytes parser).map fun result =>
        (result.1, result.2.rebase beginPtr) := by
  have checked := parserMessageChecked_eq holds length matching
  rcases parser.parserMessage_refined memory (beginPtr + consumed.length) bytes.length with
    outside | same
  · rw [outside] at checked
    cases run : consume consumed bytes parser with
    | error fault =>
        rw [run] at checked inside
        exact absurd checked.symm inside
    | ok result =>
        rw [run] at checked
        cases checked
  · rw [same, checked]

end SimpleWebServer.Http
