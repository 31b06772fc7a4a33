import SimpleWebServer.Http.ParserSafety

/-!
# Chunked input

A message handed over in pieces leaves the parser, and the message read out of it, as the
message handed over at once does.  The step that can tell the two apart is the copy of a
query key that lies outside the bytes consumed so far: it reads what happens to lie there.
-/

namespace SimpleWebServer.Http

open SimpleWebServer.Base

/-- A query key that the next byte `c` copies lies within the bytes consumed by then. -/
def KeyInside (parser : HTTPMessageParser) (c : Byte) : Prop :=
  match parser.state with
  | .url state =>
      c = ampersand ∨ (c = SP ∧ state.hasQuery = true) → 0 ≤ state.nowKeyLen →
        0 ≤ state.nowKeyOffset ∧ state.nowKeyOffset + state.nowKeyLen ≤ parser.nowLen + 1
  | _ => True

/-- Every query key that is copied on the way through `bytes` lies within the consumed bytes. -/
def KeysInside (consumed bytes : Bytes) (parser : HTTPMessageParser) : Prop :=
  ∀ (before : Bytes) (c : Byte) (rest : Bytes), bytes = before ++ c :: rest →
    ∀ reached, consume consumed before parser = .ok (true, reached) → KeyInside reached c

/-- A run without a fault copies its keys from inside the consumed bytes. -/
theorem CharsReady.keysInside {consumed bytes : Bytes} {parser : HTTPMessageParser}
    (ready : CharsReady consumed bytes parser) : KeysInside consumed bytes parser := by
  intro before c rest split reached readBefore
  have char := ready before c rest split reached readBefore
  unfold CharReady at char
  unfold KeyInside
  cases state : reached.state with
  | url state =>
      rw [state] at char
      intro copies _
      exact ⟨(char copies).1, (char copies).2.2⟩
  | method state => trivial
  | version state => trivial
  | code state => trivial
  | detail state => trivial
  | header state => trivial
  | body state => trivial

/-! ## No slice outside the consumed bytes -/

theorem error_ne_outside {α β : Type*} {fault : Fault}
    (inside : (.error fault : Except Fault α) ≠ .error .sliceOutside) :
    (.error fault : Except Fault β) ≠ .error .sliceOutside := by
  intro equal
  cases equal
  exact inside rfl

theorem map_ne_outside {α β : Type*} {outcome : Except Fault α} {transform : α → β}
    (inside : outcome ≠ .error .sliceOutside) :
    outcome.map transform ≠ .error .sliceOutside := by
  cases outcome with
  | error fault => exact error_ne_outside inside
  | ok value =>
      intro equal
      cases equal

theorem sliceOf_ne_outside {consumed : Bytes} {context : HTTPMessageParser}
    {offset length : Int}
    (inside : 0 ≤ length → 0 ≤ offset ∧ offset + length ≤ context.nowLen) :
    sliceOf consumed context offset length ≠ .error .sliceOutside := by
  unfold sliceOf
  by_cases negative : length < 0
  · rw [if_pos negative]
    simp
  · rw [if_neg negative, if_pos (show SliceConsumed context offset length from inside (by omega))]
    simp

theorem stoi_ne_outside (text : Bytes) : stoi text ≠ .error .sliceOutside := by
  unfold stoi
  simp only
  split_ifs <;> simp

theorem StateURL.matchStep_ne_outside {consumed : Bytes} {state : StateURL}
    {context before : HTTPMessageParser} {c : Byte} (char : context.nowChar = c)
    (length : context.nowLen = before.nowLen + 1)
    (inside : c = ampersand ∨ (c = SP ∧ state.hasQuery = true) → 0 ≤ state.nowKeyLen →
      0 ≤ state.nowKeyOffset ∧ state.nowKeyOffset + state.nowKeyLen ≤ before.nowLen + 1) :
    state.matchStep (sliceOf consumed) context ≠ .error .sliceOutside := by
  apply map_ne_outside
  rw [← char, ← length] at inside
  unfold matchPart
  simp only
  split_ifs with isQuestion isEqual isAmpersand isSpace noQuery complete first
  · simp
  · simp
  · exact map_ne_outside (map_ne_outside (sliceOf_ne_outside (inside (.inl isAmpersand))))
  · simp
  · exact map_ne_outside (map_ne_outside
      (sliceOf_ne_outside (inside (.inr ⟨isSpace, by simpa using noQuery⟩))))
  · simp
  · simp
  · simp

theorem StateHeader.recordEntry_ne_outside {consumed : Bytes} {state : StateHeader}
    {context : HTTPMessageParser}
    (key : 0 ≤ state.nowKeyOffset ∧ state.nowKeyOffset + state.nowKeyLen ≤ context.nowLen)
    (value : 0 ≤ state.nowValueOffset ∧
      state.nowValueOffset + state.nowValueLen ≤ context.nowLen) :
    state.recordEntry (sliceOf consumed) context ≠ .error .sliceOutside := by
  have keyInside : sliceOf consumed context state.nowKeyOffset state.nowKeyLen ≠
      .error .sliceOutside := sliceOf_ne_outside fun _ => key
  unfold recordEntry
  cases built : sliceOf consumed context state.nowKeyOffset state.nowKeyLen with
  | error fault =>
      rw [built] at keyInside
      exact error_ne_outside keyInside
  | ok name =>
      simp only
      split_ifs
      · unfold takeTotalLen
        generalize recorded : ({ context with
          headerPos := context.headerPos.insert name
            (state.nowValueOffset, state.nowValueLen) } : HTTPMessageParser) = after
        have sameLength : after.nowLen = context.nowLen := by rw [← recorded]
        have valueInside : sliceOf consumed after state.nowValueOffset state.nowValueLen ≠
            .error .sliceOutside := sliceOf_ne_outside fun _ => by rwa [sameLength]
        cases text : sliceOf consumed after state.nowValueOffset state.nowValueLen with
        | error fault =>
            rw [text] at valueInside
            exact error_ne_outside valueInside
        | ok number => exact map_ne_outside (stoi_ne_outside number)
      · simp

theorem StateHeader.matchStep_ne_outside {consumed : Bytes} {state : StateHeader}
    {context before : HTTPMessageParser} (length : context.nowLen = before.nowLen + 1)
    (sound : state.Sound before.nowLen) :
    state.matchStep (sliceOf consumed) context ≠ .error .sliceOutside := by
  apply map_ne_outside
  unfold matchPart
  unfold StateHeader.Sound at sound
  cases part : state.nowPart with
  | key =>
      simp only
      split_ifs <;> simp
  | split =>
      simp only
      split_ifs <;> simp
  | «end» =>
      simp only
      split_ifs <;> simp
  | value =>
      simp only [part] at sound
      simp only
      split_ifs
      · apply map_ne_outside
        exact recordEntry_ne_outside ⟨sound.1, by dsimp only; omega⟩
          ⟨by dsimp only; omega, by dsimp only; omega⟩
      · simp

theorem HTTPMessageParser.matchChar_ne_outside {consumed : Bytes} {parser : HTTPMessageParser}
    (sound : parser.Sound) {c : Byte} (inside : KeyInside parser c) :
    parser.matchChar (sliceOf consumed) c ≠ .error .sliceOutside := by
  have counters := sound.state
  unfold KeyInside at inside
  unfold matchChar State.matchStep
  cases state : parser.state with
  | url state =>
      rw [state] at inside
      exact map_ne_outside (StateURL.matchStep_ne_outside rfl rfl inside)
  | header state =>
      rw [state] at counters
      exact map_ne_outside (StateHeader.matchStep_ne_outside rfl counters.2)
  | method state => simp
  | version state => simp
  | code state => simp
  | detail state => simp
  | body state => simp

/-- A run whose keys all lie inside takes no slice outside. -/
theorem consume_ne_outside {consumed bytes : Bytes} {parser : HTTPMessageParser}
    (sound : parser.Sound) (inside : KeysInside consumed bytes parser) :
    consume consumed bytes parser ≠ .error .sliceOutside := by
  induction bytes generalizing consumed parser with
  | nil => simp
  | cons c rest ih =>
      have step : parser.matchChar (sliceOf (consumed ++ [c])) c ≠ .error .sliceOutside :=
        HTTPMessageParser.matchChar_ne_outside sound (inside [] c rest rfl parser rfl)
      rw [consume]
      cases taken : parser.matchChar (sliceOf (consumed ++ [c])) c with
      | error fault =>
          rw [taken] at step
          simpa using step
      | ok after =>
          simp only
          by_cases stopped : after.isMatch = false
          · rw [if_pos stopped]
            simp
          · rw [if_neg stopped]
            apply ih (sound.matchChar taken)
            intro before next later split reached readBefore
            apply inside (c :: before) next later (by rw [split]; rfl) reached
            rw [consume]
            simp only [taken, if_neg stopped]
            exact readBefore

/-! ## What a call leaves in the parser, whatever its string constructor -/

theorem StateBody.matchStep_isMatch (state : StateBody) (context : HTTPMessageParser) :
    (state.matchStep context).2.isMatch = context.isMatch := by
  unfold matchStep
  simp only
  split_ifs <;> rfl

theorem State.matchStep_completed {string : StringCtor} {state : State}
    {context after : HTTPMessageParser} (taken : state.matchStep string context = .ok after)
    (completed : after.isCompleted = true) : after.isMatch = context.isMatch := by
  cases state with
  | body state =>
      cases taken
      exact state.matchStep_isMatch context
  | method state =>
      cases taken
      simp [HTTPMessageParser.isCompleted] at completed
  | version state =>
      cases taken
      simp [HTTPMessageParser.isCompleted] at completed
  | code state =>
      cases taken
      simp [HTTPMessageParser.isCompleted] at completed
  | detail state =>
      cases taken
      simp [HTTPMessageParser.isCompleted] at completed
  | url state =>
      obtain ⟨result, _, rfl⟩ := map_eq_ok taken
      simp [HTTPMessageParser.isCompleted] at completed
  | header state =>
      obtain ⟨result, _, rfl⟩ := map_eq_ok taken
      simp [HTTPMessageParser.isCompleted] at completed

namespace HTTPMessageParser

/-- The verdict is the flag, and a parser that has failed has no complete message. -/
structure Answered (verdict : Bool) (parser : HTTPMessageParser) : Prop where
  isMatch : parser.isMatch = verdict
  incomplete : verdict = false → parser.isCompleted = false

theorem parserLoop_answered {string : StringCtor} {memory : Memory} {str : Int} {len : Nat}
    {parser after : HTTPMessageParser} {verdict : Bool} (matching : parser.isMatch = true)
    (run : parserLoop string memory str len parser = .ok (verdict, after)) :
    Answered verdict after := by
  induction len generalizing str parser with
  | zero =>
      cases run
      exact ⟨matching, by simp⟩
  | succ len ih =>
      rw [parserLoop] at run
      cases here : memory str with
      | none => simp [here] at run
      | some c =>
          cases taken : parser.matchChar string c with
          | error fault => simp [here, taken] at run
          | ok middle =>
              simp only [here, taken] at run
              split_ifs at run with stopped
              · cases run
                refine ⟨stopped, fun _ => ?_⟩
                by_contra completed
                have kept := State.matchStep_completed taken (by simpa using completed)
                rw [stopped] at kept
                simp [matching] at kept
              · exact ih (by simpa using stopped) run

theorem parserMessageWith_answered {string : Memory → StringCtor} {memory : Memory} {str : Int}
    {len : Nat} {parser after : HTTPMessageParser} {before verdict : Bool}
    (answered : Answered before parser)
    (run : parser.parserMessageWith string memory str len = .ok (verdict, after)) :
    Answered verdict after := by
  rw [parserMessageWith] at run
  split_ifs at run with failed
  · cases run
    have same := answered.isMatch
    rw [failed] at same
    rwa [← same] at answered
  · exact parserLoop_answered (by simpa using failed) run

theorem parserMessagesWith_answered {string : Memory → StringCtor} {calls : List Call}
    {parser after : HTTPMessageParser} {before verdict : Bool} (answered : Answered before parser)
    (run : parser.parserMessagesWith string calls = .ok (verdict, after)) :
    Answered verdict after := by
  induction calls generalizing parser before with
  | nil =>
      cases run
      exact ⟨rfl, answered.isMatch ▸ answered.incomplete⟩
  | cons call calls ih =>
      rw [parserMessagesWith] at run
      cases called : parser.parserMessageWith string call.memory call.str call.len with
      | error fault => simp [called] at run
      | ok result =>
          obtain ⟨answer, middle⟩ := result
          have middleAnswered := parserMessageWith_answered answered called
          cases answer with
          | false =>
              simp only [called] at run
              cases run
              exact middleAnswered
          | true =>
              simp only [called] at run
              exact ih middleAnswered run

/-- A call that answers `true` has consumed its bytes and points in front of all of them. -/
theorem parserLoop_position {string : StringCtor} {memory : Memory} {str : Int} {len : Nat}
    {parser after : HTTPMessageParser}
    (run : parserLoop string memory str len parser = .ok (true, after)) :
    after.nowLen = parser.nowLen + len ∧ after.beginPtr = parser.beginPtr := by
  induction len generalizing str parser with
  | zero =>
      cases run
      simp
  | succ len ih =>
      rw [parserLoop] at run
      cases here : memory str with
      | none => simp [here] at run
      | some c =>
          cases taken : parser.matchChar string c with
          | error fault => simp [here, taken] at run
          | ok middle =>
              simp only [here, taken] at run
              split_ifs at run
              · cases run
              · obtain ⟨count, start⟩ := ih run
                have same := State.matchStep_sameInput taken
                have entered := middle.enterNext_sameInput
                rw [count, start, entered.nowLen, entered.beginPtr, same.nowLen, same.beginPtr]
                refine ⟨?_, rfl⟩
                dsimp only
                push_cast
                omega

theorem parserMessageWith_position {string : Memory → StringCtor} {memory : Memory} {str : Int}
    {len : Nat} {parser after : HTTPMessageParser}
    (run : parser.parserMessageWith string memory str len = .ok (true, after)) :
    after.nowLen = parser.nowLen + len ∧ after.beginPtr = str - parser.nowLen := by
  rw [parserMessageWith] at run
  split_ifs at run
  · cases run
  · exact parserLoop_position run

end HTTPMessageParser

/-- After calls that all answer `true`, all bytes lie behind `begin_ptr` in the last memory. -/
theorem parserMessagesWith_holds {string : Memory → StringCtor} {consumed : Bytes}
    {earlier : List Call} {last : Call} {chunks : List Bytes}
    (addressed : CallsAddress consumed (earlier ++ [last]) chunks)
    {parser after : HTTPMessageParser} (known : parser.nowLen = consumed.length)
    (run : parser.parserMessagesWith string (earlier ++ [last]) = .ok (true, after)) :
    last.memory.Holds after.beginPtr (consumed ++ chunks.flatten) ∧
      after.nowLen = (consumed ++ chunks.flatten).length := by
  induction earlier generalizing consumed chunks parser with
  | nil =>
      obtain _ | ⟨chunk, _ | ⟨_, _⟩⟩ := chunks
      · cases addressed
      · obtain ⟨⟨start, holds, address, count⟩, -⟩ := addressed
        rw [List.nil_append, HTTPMessageParser.parserMessagesWith] at run
        cases called : parser.parserMessageWith string last.memory last.str last.len with
        | error fault => simp [called] at run
        | ok result =>
            obtain ⟨answer, middle⟩ := result
            cases answer with
            | false => simp [called] at run
            | true =>
                simp only [called, HTTPMessageParser.parserMessagesWith, Except.ok.injEq,
                  Prod.mk.injEq] at run
                obtain ⟨-, rfl⟩ := run
                obtain ⟨length, begin⟩ := HTTPMessageParser.parserMessageWith_position called
                rw [begin, address, length, known, count, List.flatten_cons, List.flatten_nil,
                  List.append_nil, Int.add_sub_cancel]
                exact ⟨holds, by simp⟩
      · exact addressed.2.elim
  | cons call earlier ih =>
      cases chunks with
      | nil => cases addressed
      | cons chunk chunks =>
          obtain ⟨⟨start, holds, address, count⟩, rest⟩ := addressed
          rw [List.cons_append, HTTPMessageParser.parserMessagesWith] at run
          cases called : parser.parserMessageWith string call.memory call.str call.len with
          | error fault => simp [called] at run
          | ok result =>
              obtain ⟨answer, middle⟩ := result
              cases answer with
              | false => simp [called] at run
              | true =>
                  simp only [called] at run
                  have length := (HTTPMessageParser.parserMessageWith_position called).1
                  have tail := ih rest (by rw [length, known, count]; simp) run
                  rwa [List.append_assoc] at tail

/-! ## The messages read out of the parser -/

namespace HTTPMessageParser

theorem view_eq {memory : Memory} {parser : HTTPMessageParser} {bytes : Bytes} {pos : Slice}
    (holds : memory.Holds parser.beginPtr bytes) (within : SliceWithin bytes.length pos) :
    parser.view memory pos = .ok ((bytes.drop pos.1.toNat).take pos.2.toNat) := by
  obtain ⟨offset_nonneg, length_nonneg, inside⟩ := within
  have slice := holds.read_slice (show pos.1.toNat + pos.2.toNat ≤ bytes.length by omega)
  rw [Int.toNat_of_nonneg offset_nonneg] at slice
  rw [view, if_neg (by omega), slice]

theorem viewAll_congr {memory other : Memory} {parser twin : HTTPMessageParser}
    {positions : SliceMap}
    (same : ∀ entry ∈ positions.entries, parser.view memory entry.2 = twin.view other entry.2) :
    parser.viewAll memory positions = twin.viewAll other positions := by
  unfold viewAll
  generalize (∅ : ViewMap) = views
  revert same
  induction positions.entries generalizing views with
  | nil =>
      intro _
      rfl
  | cons entry rest ih =>
      intro same
      rw [List.foldlM_cons, List.foldlM_cons, same entry List.mem_cons_self]
      cases twin.view other entry.2 with
      | error fault => rfl
      | ok bytes => exact ih _ fun later member => same later (List.mem_cons_of_mem _ member)

/-- The message depends on the consumed bytes only, wherever they lie. -/
theorem getMessage_eq {memory other : Memory} {parser twin : HTTPMessageParser} {bytes : Bytes}
    (sound : parser.Sound) (known : parser.nowLen = bytes.length)
    (same : parser.rebase 0 = twin.rebase 0) (holds : memory.Holds parser.beginPtr bytes)
    (twinHolds : other.Holds twin.beginPtr bytes) :
    parser.getRequestMessage memory = twin.getRequestMessage other ∧
      parser.getResponseMessage memory = twin.getResponseMessage other := by
  have moved : twin = parser.rebase twin.beginPtr := by
    have back := congrArg (·.rebase twin.beginPtr) same
    exact back.symm
  have slices := sound.slices
  rw [known] at slices
  have views {pos : Slice} (within : SliceWithin bytes.length pos) :
      parser.view memory pos = twin.view other pos := by
    rw [view_eq holds within, view_eq twinHolds within]
  have queries := viewAll_congr fun entry member => views (slices.query entry member)
  have headers := viewAll_congr fun entry member => views (slices.header entry member)
  have detail (completed : parser.isCompleted = true) :
      parser.view memory parser.detailPos = twin.view other parser.detailPos := by
    apply views
    have counters := sound.state
    obtain ⟨state, inBody, -⟩ := parser.isCompleted_iff.mp completed
    rw [inBody, known] at counters
    exact counters.2.2
  have request : twin.isRequest = parser.isRequest := by rw [moved]
  have complete : twin.isCompleted = parser.isCompleted := by rw [moved, rebase_isCompleted]
  have fields : twin.method = parser.method ∧ twin.version = parser.version ∧
      twin.code = parser.code ∧ twin.pathPos = parser.pathPos ∧ twin.queryPos = parser.queryPos ∧
      twin.headerPos = parser.headerPos ∧ twin.bodyPos = parser.bodyPos ∧
      twin.detailPos = parser.detailPos := by
    rw [moved]
    exact ⟨rfl, rfl, rfl, rfl, rfl, rfl, rfl, rfl⟩
  obtain ⟨method, version, code, path, query, header, body, detailPos⟩ := fields
  unfold getRequestMessage getResponseMessage
  rw [request, complete, method, version, code, path, query, header, body, detailPos,
    views slices.path, views slices.body, queries, headers]
  refine ⟨rfl, ?_⟩
  cases completed : parser.isCompleted with
  | false => simp
  | true => rw [detail completed]

theorem getMessage_incomplete {parser : HTTPMessageParser} (memory : Memory)
    (incomplete : parser.isCompleted = false) :
    parser.getRequestMessage memory = .error .assertion ∧
      parser.getResponseMessage memory = .error .assertion := by
  unfold getRequestMessage getResponseMessage
  simp [incomplete]
  exact ⟨rfl, rfl⟩

end HTTPMessageParser

/-! ## At once or in chunks -/

/-- The parsers that calls on the pieces of `consumed` can leave behind. -/
def Reached (isRequest : Bool) (version : HTTPVersion) (code : Int) (consumed : Bytes)
    (parser : HTTPMessageParser) : Prop :=
  ∃ calls chunks verdict, CallsAddress [] calls chunks ∧ chunks.flatten = consumed ∧
    (HTTPMessageParser.new isRequest version code).parserMessages calls = .ok (verdict, parser)

theorem reached_new (isRequest : Bool) (version : HTTPVersion) (code : Int) :
    Reached isRequest version code [] (.new isRequest version code) := by
  refine ⟨[], [], true, trivial, rfl, ?_⟩
  rw [HTTPMessageParser.parserMessages, HTTPMessageParser.parserMessagesWith]
  rfl

/--
Two outcomes are the same up to the address of the bytes: the same verdict, the same
parser and the same messages read out of it, or the same fault.
-/
def SameOutcome (memory : Memory) (outcome : Except Fault (Bool × HTTPMessageParser))
    (other : Memory) (otherOutcome : Except Fault (Bool × HTTPMessageParser)) : Prop :=
  match outcome, otherOutcome with
  | .ok (verdict, parser), .ok (answer, twin) =>
      verdict = answer ∧ parser.rebase 0 = twin.rebase 0 ∧
        parser.getRequestMessage memory = twin.getRequestMessage other ∧
        parser.getResponseMessage memory = twin.getResponseMessage other
  | .error fault, .error otherFault => fault = otherFault
  | _, _ => False

theorem SameOutcome.forgetBegin_eq {memory other : Memory}
    {outcome otherOutcome : Except Fault (Bool × HTTPMessageParser)}
    (same : SameOutcome memory outcome other otherOutcome) :
    forgetBegin outcome = forgetBegin otherOutcome := by
  cases outcome with
  | error fault =>
      cases otherOutcome with
      | error otherFault => rw [show fault = otherFault from same]
      | ok result => exact same.elim
  | ok result =>
      cases otherOutcome with
      | error otherFault => exact same.elim
      | ok otherResult =>
          obtain ⟨verdict, parser, -⟩ := same
          rw [forgetBegin_ok, forgetBegin_ok, verdict, parser]

theorem HTTPMessageParser.Sound.moved {parser twin : HTTPMessageParser} (sound : parser.Sound)
    (same : twin.rebase 0 = parser.rebase 0) : twin.Sound := by
  have moved : twin = parser.rebase twin.beginPtr := congrArg (·.rebase twin.beginPtr) same
  have slices := sound.slices
  have state := sound.state
  rw [moved]
  refine ⟨sound.nowLen_nonneg, sound.nextState,
    ⟨slices.1, slices.2, slices.3, slices.4, slices.5⟩, ?_⟩
  cases known : parser.state <;> rw [known] at state <;> exact state

theorem parserMessages_singleton {call : Call} {parser : HTTPMessageParser} {before : Bool}
    (answered : parser.Answered before) :
    parser.parserMessages [call] = parser.parserMessage call.memory call.str call.len := by
  rw [HTTPMessageParser.parserMessages, HTTPMessageParser.parserMessagesWith,
    HTTPMessageParser.parserMessage]
  cases called : parser.parserMessageWith stringOf call.memory call.str call.len with
  | error fault => rfl
  | ok result =>
      obtain ⟨answer, after⟩ := result
      cases answer with
      | false => rfl
      | true =>
          have same := (HTTPMessageParser.parserMessageWith_answered answered called).isMatch
          simp [HTTPMessageParser.parserMessagesWith, same]

theorem parserMessages_failed {earlier : List Call} {last : Call} {parser : HTTPMessageParser}
    (failed : parser.isMatch = false) :
    parser.parserMessages (earlier ++ [last]) = .ok (false, parser) := by
  unfold HTTPMessageParser.parserMessages
  cases earlier with
  | nil =>
      rw [List.nil_append, HTTPMessageParser.parserMessagesWith,
        HTTPMessageParser.parserMessageWith_failed stringOf _ _ _ failed]
  | cons call earlier =>
      rw [List.cons_append, HTTPMessageParser.parserMessagesWith,
        HTTPMessageParser.parserMessageWith_failed stringOf _ _ _ failed]

/-- Two outcomes of the same run whose messages are read from memories that hold its bytes. -/
theorem sameOutcome_of_forgetBegin {memory other : Memory} {consumed bytes : Bytes}
    {parser : HTTPMessageParser} (sound : parser.Sound)
    {outcome otherOutcome : Except Fault (Bool × HTTPMessageParser)}
    (run : forgetBegin outcome = forgetBegin (consume consumed bytes parser))
    (otherRun : forgetBegin otherOutcome = forgetBegin (consume consumed bytes parser))
    (answered : ∀ verdict after, outcome = .ok (verdict, after) → after.Answered verdict)
    (otherAnswered : ∀ verdict after, otherOutcome = .ok (verdict, after) → after.Answered verdict)
    (holds : ∀ after, outcome = .ok (true, after) →
      memory.Holds after.beginPtr (consumed ++ bytes) ∧
        after.nowLen = (consumed ++ bytes).length)
    (otherHolds : ∀ after, otherOutcome = .ok (true, after) →
      other.Holds after.beginPtr (consumed ++ bytes)) :
    SameOutcome memory outcome other otherOutcome := by
  cases reference : consume consumed bytes parser with
  | error fault =>
      rw [reference] at run otherRun
      cases outcome with
      | ok result => cases run
      | error first =>
          cases otherOutcome with
          | ok result => cases otherRun
          | error second =>
              cases run
              cases otherRun
              rfl
  | ok result =>
      obtain ⟨verdict, last⟩ := result
      rw [reference, forgetBegin_ok] at run otherRun
      obtain ⟨⟨answer, after⟩, rfl, equal⟩ := map_eq_ok run
      obtain ⟨⟨otherAnswer, twin⟩, rfl, otherEqual⟩ := map_eq_ok otherRun
      simp only [Prod.mk.injEq] at equal otherEqual
      obtain ⟨rfl, moved⟩ := equal
      obtain ⟨rfl, otherMoved⟩ := otherEqual
      have same : after.rebase 0 = twin.rebase 0 := moved.trans otherMoved.symm
      cases otherAnswer with
      | false =>
          have first := HTTPMessageParser.getMessage_incomplete memory
            ((answered _ _ rfl).incomplete rfl)
          have second := HTTPMessageParser.getMessage_incomplete other
            ((otherAnswered _ _ rfl).incomplete rfl)
          exact ⟨rfl, same, first.1.trans second.1.symm, first.2.trans second.2.symm⟩
      | true =>
          have afterSound := (sound.consume reference).moved moved
          obtain ⟨here, known⟩ := holds after rfl
          exact ⟨rfl, same, HTTPMessageParser.getMessage_eq afterSound known same here
            (otherHolds twin rfl)⟩

/--
A message handed over at once and in chunks, each time behind a copy of the bytes before
it, has the same outcome, provided every query key is copied from inside the bytes consumed
by then, and these are not more than 2147483647.
-/
theorem parserMessages_sameOutcome {isRequest : Bool} {version : HTTPVersion} {code : Int}
    {consumed : Bytes} {parser : HTTPMessageParser}
    (reached : Reached isRequest version code consumed parser) {chunks : List Bytes}
    (inside : KeysInside [] (consumed ++ chunks.flatten)
      (HTTPMessageParser.new isRequest version code))
    {whole : Call} (atOnce : whole.Addresses consumed chunks.flatten)
    {earlier : List Call} {last : Call}
    (pieces : CallsAddress consumed (earlier ++ [last]) chunks) :
    SameOutcome whole.memory (parser.parserMessage whole.memory whole.str whole.len)
      last.memory (parser.parserMessages (earlier ++ [last])) := by
  obtain ⟨calls, given, verdict, addressed, rfl, run⟩ := reached
  have newSound := new_sound isRequest version code
  have newAnswered : (HTTPMessageParser.new isRequest version code).Answered true :=
    ⟨rfl, by simp⟩
  have answered := HTTPMessageParser.parserMessagesWith_answered newAnswered run
  have total := consume_ne_outside newSound inside
  rw [consume_append] at total
  have start : consume [] given.flatten (HTTPMessageParser.new isRequest version code) ≠
      .error .sliceOutside := by
    intro outside
    rw [outside] at total
    exact total rfl
  have reference := parserMessages_eq addressed rfl rfl start
  rw [run, forgetBegin_ok] at reference
  obtain ⟨⟨answer, twin⟩, first, equal⟩ := map_eq_ok reference.symm
  obtain ⟨rfl, moved⟩ := Prod.mk.inj equal
  cases answer with
  | false =>
      rw [parserMessages_failed answered.isMatch, HTTPMessageParser.parserMessage,
        HTTPMessageParser.parserMessageWith_failed stringOf _ _ _ answered.isMatch]
      have first := HTTPMessageParser.getMessage_incomplete whole.memory
        (answered.incomplete rfl)
      have second := HTTPMessageParser.getMessage_incomplete last.memory
        (answered.incomplete rfl)
      exact ⟨rfl, rfl, first.1.trans second.1.symm, first.2.trans second.2.symm⟩
  | true =>
      rw [first] at total
      have sound := (newSound.consume first).moved moved.symm
      have known : parser.nowLen = given.flatten.length := by
        have length := congrArg HTTPMessageParser.nowLen moved
        have counted := consume_nowLen first
        simp only at length
        rw [← length, counted]
        simp [HTTPMessageParser.new]
      have stays : consume given.flatten chunks.flatten parser ≠ .error .sliceOutside := by
        have back : parser = twin.rebase parser.beginPtr :=
          (congrArg (·.rebase parser.beginPtr) moved).symm
        rw [back, consume_rebase]
        exact map_ne_outside total
      have single : CallsAddress given.flatten ([] ++ [whole]) [chunks.flatten] :=
        ⟨atOnce, trivial⟩
      rw [← parserMessages_singleton answered]
      refine @sameOutcome_of_forgetBegin _ _ given.flatten chunks.flatten _ sound _ _
        ?_ (parserMessages_eq pieces known answered.isMatch stays)
        (fun _ _ => HTTPMessageParser.parserMessagesWith_answered answered)
        (fun _ _ => HTTPMessageParser.parserMessagesWith_answered answered) ?_
        (fun after taken => (parserMessagesWith_holds pieces known taken).1)
      · have atOnceRun := parserMessages_eq single known
          answered.isMatch (by simpa using stays)
        simpa using atOnceRun
      · intro after taken
        have held := parserMessagesWith_holds single known taken
        simpa using held

theorem exists_ok_of_isOk {α : Type*} {outcome : Except Fault α} (ok : outcome.isOk = true) :
    ∃ result, outcome = .ok result := by
  cases outcome with
  | error fault => cases ok
  | ok result => exact ⟨result, rfl⟩

/-- The call that passes `chunk` behind `consumed` in an object that starts at `start`. -/
def Call.behind (start : Int) (consumed chunk rest : Bytes) : Call :=
  ⟨Memory.ofBytes start (consumed ++ chunk ++ rest), start + consumed.length, chunk.length⟩

theorem Call.behind_addresses (start : Int) (consumed chunk rest : Bytes) :
    (Call.behind start consumed chunk rest).Addresses consumed chunk :=
  ⟨start, ((Memory.holds_append_iff _ _ _ rest).mp (Memory.holds_ofBytes start _)).1, rfl, rfl⟩

/-- The call that hands over all bytes at once. -/
def wholeCall (bytes : Bytes) : Call := Call.behind 0 [] bytes []

theorem wholeCall_addresses (bytes : Bytes) : CallsAddress [] [wholeCall bytes] [bytes] :=
  ⟨Call.behind_addresses 0 [] bytes [], trivial⟩

def movedFirst : Bytes := ascii "GET /?a="
def movedSecond : Bytes := ascii "b HTTP/1.0\r\n\r\n"

/-- A request whose second half arrives after the first half has moved. -/
theorem parserMessages_sameOutcome_moved :
    SameOutcome (Call.behind 0 [] [movedFirst, movedSecond].flatten []).memory
      ((HTTPMessageParser.new true .v1_0 0).parserMessage
        (Call.behind 0 [] [movedFirst, movedSecond].flatten []).memory
        (Call.behind 0 [] [movedFirst, movedSecond].flatten []).str
        (Call.behind 0 [] [movedFirst, movedSecond].flatten []).len)
      (Call.behind 7 movedFirst movedSecond []).memory
      ((HTTPMessageParser.new true .v1_0 0).parserMessages
        ([Call.behind 100 [] movedFirst []] ++ [Call.behind 7 movedFirst movedSecond []])) := by
  have run : (consume [] ([] ++ [movedFirst, movedSecond].flatten)
      (HTTPMessageParser.new true .v1_0 0)).isOk = true := by
    decide +kernel
  have ready := (consume_isOk_iff (new_sound true .v1_0 0) rfl).mp (exists_ok_of_isOk run)
  exact parserMessages_sameOutcome (reached_new true .v1_0 0) ready.keysInside
    (Call.behind_addresses 0 [] _ [])
    ⟨Call.behind_addresses 100 [] movedFirst [], Call.behind_addresses 7 movedFirst _ [], trivial⟩

def staleFirst : Bytes := ascii "GET /?ab=c?&"
def staleSecond : Bytes := ascii "d=e HTTP/1.0\r\n\r\n"

/--
A second `?` moves the start of the key and keeps its old length.  The `&` behind it then
copies a byte that has not arrived yet.
-/
theorem staleKeyLength_tells_chunks :
    ¬ ∀ (consumed : Bytes) (parser : HTTPMessageParser),
      Reached true .v1_0 0 consumed parser →
      ∀ (first second : Bytes) (whole firstCall secondCall : Call),
        whole.Addresses consumed (first ++ second) → firstCall.Addresses consumed first →
        secondCall.Addresses (consumed ++ first) second →
        (∃ result, parser.parserMessage whole.memory whole.str whole.len = .ok result) →
        (∃ result, parser.parserMessages [firstCall, secondCall] = .ok result) →
        SameOutcome whole.memory (parser.parserMessage whole.memory whole.str whole.len)
          secondCall.memory (parser.parserMessages [firstCall, secondCall]) := by
  intro homomorphism
  have same := homomorphism [] _ (reached_new true .v1_0 0) staleFirst staleSecond
    (Call.behind 0 [] (staleFirst ++ staleSecond) []) (Call.behind 0 [] staleFirst [0])
    (Call.behind 0 ([] ++ staleFirst) staleSecond [])
    (Call.behind_addresses 0 [] _ []) (Call.behind_addresses 0 [] _ [0])
    (Call.behind_addresses 0 _ _ [])
    (exists_ok_of_isOk (by decide +kernel)) (exists_ok_of_isOk (by decide +kernel))
  have keys := congrArg
    (fun outcome => outcome.toOption.map fun result => result.2.queryPos.keys) same.forgetBegin_eq
  exact absurd keys (by decide +kernel)

end SimpleWebServer.Http
