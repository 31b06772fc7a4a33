import SimpleWebServer.Http.RequestRecognition

/-!
# What the constructor leaves uninitialised

Two new parsers that differ in what `version` and `code` happen to hold are run side by side.
The version is written before it is read.  The code is compared with `-1` behind every byte of
the status code, also in front of the byte that writes it.
-/

namespace SimpleWebServer.Http

open SimpleWebServer.Base

/-! ## One step of two parsers -/

/-- The same parser with other contents of the two members. -/
@[reducible]
def HTTPMessageParser.holding (parser : HTTPMessageParser) (version : HTTPVersion) (code : Int) :
    HTTPMessageParser :=
  { parser with version := version, code := code }

section

variable (context : HTTPMessageParser) (version : HTTPVersion) (code : Int)

theorem StateMethod.matchStep_holding (state : StateMethod) :
    state.matchStep (context.holding version code) =
      ((state.matchStep context).1, (state.matchStep context).2.holding version code) := by
  unfold matchStep HTTPMessageParser.holding
  simp only
  split_ifs <;> rfl

theorem StateDetail.matchStep_holding (state : StateDetail) :
    state.matchStep (context.holding version code) =
      ((state.matchStep context).1, (state.matchStep context).2.holding version code) := by
  unfold matchStep HTTPMessageParser.holding
  simp only
  split_ifs <;> rfl

theorem StateBody.matchStep_holding (state : StateBody) :
    state.matchStep (context.holding version code) =
      ((state.matchStep context).1, (state.matchStep context).2.holding version code) := by
  unfold matchStep HTTPMessageParser.holding
  simp only
  split_ifs <;> rfl

/-- The strings come out of the memory, whatever the two members hold. -/
theorem stringOf_holding (memory : Memory) (offset length : Int) :
    stringOf memory (context.holding version code) offset length =
      stringOf memory context offset length := rfl

theorem StateURL.recordPair_holding (memory : Memory) (state : StateURL) :
    state.recordPair (stringOf memory) (context.holding version code) =
      (state.recordPair (stringOf memory) context).map (·.holding version code) := by
  unfold recordPair
  rw [stringOf_holding]
  cases stringOf memory context state.nowKeyOffset state.nowKeyLen <;> rfl

theorem StateURL.matchStep_holding (memory : Memory) (state : StateURL) :
    state.matchStep (stringOf memory) (context.holding version code) =
      (state.matchStep (stringOf memory) context).map fun result =>
        (result.1, result.2.holding version code) := by
  unfold matchStep matchPart
  simp only [recordPair_holding]
  simp only [HTTPMessageParser.holding]
  by_cases isQuestion : context.nowChar = question
  · simp only [if_pos isQuestion]
    rfl
  by_cases isEqual : context.nowChar = equalSign
  · simp only [if_neg isQuestion, if_pos isEqual]
    rfl
  by_cases isAmpersand : context.nowChar = ampersand
  · simp only [if_neg isQuestion, if_neg isEqual, if_pos isAmpersand]
    cases recordPair (stringOf memory) _ context <;> rfl
  by_cases isSpace : context.nowChar = SP
  · simp only [if_neg isQuestion, if_neg isEqual, if_neg isAmpersand, if_pos isSpace]
    by_cases noQuery : state.hasQuery = false
    · simp only [if_pos noQuery]
      rfl
    · simp only [if_neg noQuery]
      split
      · cases recordPair (stringOf memory) _ context <;> rfl
      · rfl
  · simp only [if_neg isQuestion, if_neg isEqual, if_neg isAmpersand, if_neg isSpace]
    split_ifs <;> rfl

theorem StateHeader.takeTotalLen_holding (memory : Memory) (state : StateHeader) :
    state.takeTotalLen (stringOf memory) (context.holding version code) =
      (state.takeTotalLen (stringOf memory) context).map (·.holding version code) := by
  unfold takeTotalLen
  rw [stringOf_holding]
  cases stringOf memory context state.nowValueOffset state.nowValueLen with
  | error fault => rfl
  | ok value =>
      simp only
      cases stoi value <;> rfl

theorem StateHeader.recordEntry_holding (memory : Memory) (state : StateHeader) :
    state.recordEntry (stringOf memory) (context.holding version code) =
      (state.recordEntry (stringOf memory) context).map (·.holding version code) := by
  unfold recordEntry
  rw [stringOf_holding]
  cases stringOf memory context state.nowKeyOffset state.nowKeyLen with
  | error fault => rfl
  | ok key =>
      by_cases isLength : key = contentLength
      · simp only [if_pos isLength]
        let recorded : HTTPMessageParser := { context with
          headerPos := context.headerPos.insert key (state.nowValueOffset, state.nowValueLen) }
        exact StateHeader.takeTotalLen_holding recorded version code memory state
      · simp only [if_neg isLength]
        rfl

theorem StateHeader.matchStep_holding (memory : Memory) (state : StateHeader) :
    state.matchStep (stringOf memory) (context.holding version code) =
      (state.matchStep (stringOf memory) context).map fun result =>
        (result.1, result.2.holding version code) := by
  unfold matchStep matchPart
  simp only [recordEntry_holding]
  cases state.nowPart with
  | key =>
      simp only [HTTPMessageParser.holding]
      split_ifs <;> rfl
  | split =>
      simp only [HTTPMessageParser.holding]
      split_ifs <;> rfl
  | value =>
      simp only [HTTPMessageParser.holding]
      by_cases isEnd : context.nowChar = CR
      · simp only [if_pos isEnd]
        cases recordEntry (stringOf memory) _ context <;> rfl
      · simp only [if_neg isEnd]
        rfl
  | «end» =>
      simp only [HTTPMessageParser.holding]
      split_ifs <;> rfl

/-- The version that a parser holds is overwritten by the byte that decides it. -/
theorem StateVersion.matchStep_holding (state : StateVersion) :
    ∃ held, state.matchStep (context.holding version code) =
        ((state.matchStep context).1, (state.matchStep context).2.holding held code) ∧
      (version = context.version → held = (state.matchStep context).2.version) ∧
      (state.nowIdx = 7 → (state.matchStep context).2.isMatch = true →
        held = (state.matchStep context).2.version) := by
  unfold matchStep HTTPMessageParser.holding
  cases fixed : fixedByte? state.nowIdx with
  | some byte =>
      have position := fixedByte_isSome_iff.mp (Option.isSome_iff_exists.mpr ⟨byte, fixed⟩)
      simp only
      split_ifs <;> exact ⟨version, rfl, id, fun seven => by omega⟩
  | none =>
      simp only
      split_ifs with five zero one seven nine zero one eight request response ten lineFeed
      · exact ⟨version, rfl, id, fun seven => by omega⟩
      · exact ⟨version, rfl, id, fun seven => by omega⟩
      · exact ⟨version, rfl, id, fun seven => by omega⟩
      · exact ⟨.v0_9, rfl, fun _ => rfl, fun _ _ => rfl⟩
      · exact ⟨.v1_0, rfl, fun _ => rfl, fun _ _ => rfl⟩
      · exact ⟨.v1_1, rfl, fun _ => rfl, fun _ _ => rfl⟩
      · exact ⟨version, rfl, id, fun _ matching => by cases matching⟩
      all_goals exact ⟨version, rfl, id, fun seven => by omega⟩

/-- The code that a parser holds is compared with `-1` and overwritten behind the last digit. -/
theorem StateCode.matchStep_holding (state : StateCode) (alike : context.code = -1 ↔ code = -1) :
    ∃ held, state.matchStep (context.holding version code) =
        ((state.matchStep context).1, (state.matchStep context).2.holding version held) ∧
      ((state.matchStep context).2.code = -1 ↔ held = -1) ∧
      ((state.matchStep context).2.nextState ≠ context.nextState →
        held = (state.matchStep context).2.code) := by
  unfold matchStep HTTPMessageParser.holding
  simp only
  by_cases digit : isDigit context.nowChar = true ∧ state.nowIdx < 3
  · simp only [if_pos digit, ← alike]
    split_ifs <;> exact ⟨code, rfl, alike, fun differs => absurd rfl differs⟩
  by_cases behind : state.nowIdx = 3 ∧ context.nowChar = SP
  · simp only [if_neg digit, if_pos behind]
    split_ifs <;> exact ⟨state.getCode, rfl, Iff.rfl, fun _ => rfl⟩
  · simp only [if_neg digit, if_neg behind, ← alike]
    split_ifs <;> exact ⟨code, rfl, alike, fun differs => absurd rfl differs⟩

/-- Behind the space only a digit is compared. -/
theorem StateCode.matchStep_noDigit (state : StateCode) (start : state.nowIdx = 0)
    (noDigit : isDigit context.nowChar = false) :
    state.matchStep (context.holding version code) =
        ((state.matchStep context).1, (state.matchStep context).2.holding version code) ∧
      (state.matchStep context).2.isMatch = false := by
  unfold matchStep HTTPMessageParser.holding
  simp only [start, noDigit, Bool.false_eq_true, false_and, if_false,
    OfNat.zero_ne_ofNat]
  split_ifs <;> exact ⟨rfl, rfl⟩

end

theorem StateCode.matchStep_next (state : StateCode) (context : HTTPMessageParser) :
    (state.matchStep context).2.version = context.version ∧
      ((state.matchStep context).2.nextState = context.nextState ∨
        (state.matchStep context).2.nextState = some (.detail {})) := by
  unfold matchStep
  simp only
  split_ifs <;> first | exact ⟨rfl, .inl rfl⟩ | exact ⟨rfl, .inr rfl⟩

theorem StateDetail.matchStep_next (state : StateDetail) (context : HTTPMessageParser) :
    ((state.matchStep context).2.version = context.version ∧
        (state.matchStep context).2.code = context.code) ∧
      ((state.matchStep context).2.nextState = context.nextState ∨
        (state.matchStep context).2.nextState = some (.header {})) := by
  unfold matchStep
  simp only
  split_ifs <;> first | exact ⟨⟨rfl, rfl⟩, .inl rfl⟩ | exact ⟨⟨rfl, rfl⟩, .inr rfl⟩

/-! ## Two runs -/

/-- The bytes reach the first digit of a status code. -/
def ReachesCode (bytes : Bytes) : Prop :=
  ∃ version text digit rest, getVersionStr version = .ok text ∧ isDigit digit = true ∧
    bytes = text ++ SP :: digit :: rest

/-- A parser of responses in front of the first digit. -/
def HTTPMessageParser.BeforeCode (consumed : Bytes) (parser : HTTPMessageParser) : Prop :=
  match parser.state with
  | .version state => state.Inside false parser.version consumed
  | .code state => state.nowIdx = 0 ∧ ∃ known, VersionWord false known consumed
  | _ => False

/-- Which of the two members have been written. -/
def HTTPMessageParser.Written (parser : HTTPMessageParser) (version : HTTPVersion) (code : Int) :
    Prop :=
  match parser.state with
  | .method _ => parser.isRequest = true
  | .url _ => parser.isRequest = true
  | .version state => 7 < state.nowIdx → version = parser.version
  | .code _ => parser.isRequest = false ∧ version = parser.version
  | .detail _ => version = parser.version ∧ code = parser.code
  | _ => version = parser.version ∧ (parser.isRequest = false → code = parser.code)

/-- A parser on its way through `bytes`, and what another one may hold instead. -/
structure Apart (bytes consumed : Bytes) (parser : HTTPMessageParser) (version : HTTPVersion)
    (code : Int) : Prop where
  fresh : parser.nextState = none
  written : parser.Written version code
  compared : parser.isRequest = true ∨ (parser.code = -1 ↔ code = -1) ∨
    ¬ ReachesCode bytes ∧ parser.isRequest = false ∧ parser.BeforeCode consumed

section

variable {bytes consumed : Bytes} {parser after : HTTPMessageParser} {version : HTTPVersion}
variable {code : Int} {c : Byte}

theorem Apart.inMethod (apart : Apart bytes consumed parser version code)
    (taken : parser.Takes c after) {state : StateMethod} (inState : parser.state = .method state) :
    Apart bytes (consumed ++ [c]) after version code := by
  have written := apart.written
  simp only [HTTPMessageParser.Written, inState] at written
  have request : after.isRequest = true := taken.isRequest.trans written
  refine ⟨taken.nextState, ?_, .inl request⟩
  obtain ⟨beginPtr, ⟨next, middle⟩, matched, matching, rfl⟩ := taken.method inState
  have move := state.matchStep_move (parser.reading beginPtr c)
  rw [matched] at move
  simp only at move matching request ⊢
  cases move with
  | first =>
      rw [HTTPMessageParser.enterNext_of_fresh (by exact apart.fresh)] at request ⊢
      exact request
  | letter =>
      rw [HTTPMessageParser.enterNext_of_fresh (by exact apart.fresh)] at request ⊢
      exact request
  | space => exact request
  | mismatchFirst => cases matching
  | mismatch => cases matching

theorem Apart.inURL (apart : Apart bytes consumed parser version code)
    (taken : parser.Takes c after) {state : StateURL} (inState : parser.state = .url state) :
    Apart bytes (consumed ++ [c]) after version code := by
  have written := apart.written
  simp only [HTTPMessageParser.Written, inState] at written
  have request : after.isRequest = true := taken.isRequest.trans written
  refine ⟨taken.nextState, ?_, .inl request⟩
  rcases taken.url_state inState apart.fresh with ⟨-, leaves⟩ | ⟨-, next, stays, -⟩
  · simp [HTTPMessageParser.Written, leaves]
  · simpa [HTTPMessageParser.Written, stays] using request

/-- Behind the start line nothing of it is written. -/
theorem Apart.inTail (apart : Apart bytes consumed parser version code)
    (taken : parser.Takes c after) (inTail : parser.state.InTail) :
    Apart bytes (consumed ++ [c]) after version code := by
  obtain ⟨kept, stays⟩ := taken.startKept apart.fresh inTail
  have written (parser : HTTPMessageParser) (inTail : parser.state.InTail) :
      parser.Written version code ↔
        version = parser.version ∧ (parser.isRequest = false → code = parser.code) := by
    cases inState : parser.state with
    | header state => simp [HTTPMessageParser.Written, inState]
    | body state => simp [HTTPMessageParser.Written, inState]
    | _ =>
        rw [inState] at inTail
        exact inTail.elim
  have held := (written parser inTail).mp apart.written
  refine ⟨taken.nextState, (written after stays).mpr ?_, ?_⟩
  · rwa [kept.version, kept.isRequest, kept.code]
  · rw [kept.isRequest, kept.code]
    refine apart.compared.imp_right fun compared => .inl ?_
    rcases compared with alike | ⟨-, -, before⟩
    · exact alike
    · cases inState : parser.state <;> simp_all [HTTPMessageParser.BeforeCode, State.InTail]

/-- The version is written by its last digit, and not read in front of it. -/
theorem Apart.inVersion (apart : Apart bytes consumed parser version code) {state : StateVersion}
    (inState : parser.state = .version state) (beginPtr : Int) :
    ∃ held, state.matchStep ((parser.reading beginPtr c).holding version code) =
        ((state.matchStep (parser.reading beginPtr c)).1,
          (state.matchStep (parser.reading beginPtr c)).2.holding held code) ∧
      ((state.matchStep (parser.reading beginPtr c)).2.isMatch = true →
        Apart bytes (consumed ++ [c])
          ({ (state.matchStep (parser.reading beginPtr c)).2 with
            state := .version (state.matchStep (parser.reading beginPtr c)).1 } :
              HTTPMessageParser).enterNext held code) := by
  have written := apart.written
  simp only [HTTPMessageParser.Written, inState] at written
  obtain ⟨held, same, kept, decided⟩ :=
    StateVersion.matchStep_holding (parser.reading beginPtr c) version code state
  refine ⟨held, same, fun matching => ?_⟩
  have move := state.matchStep_move (parser.reading beginPtr c)
  have input := state.matchStep_sameInput (parser.reading beginPtr c)
  generalize state.matchStep (parser.reading beginPtr c) = result at *
  obtain ⟨next, middle⟩ := result
  simp only at *
  have sameCode : middle.code = parser.code := move.code
  have request : middle.isRequest = parser.isRequest := input.isRequest
  rcases move.nextState with stays | ⟨behind, sameVersion, leaves⟩
  · rw [HTTPMessageParser.enterNext_of_fresh (by exact stays.trans apart.fresh)]
    refine ⟨stays.trans apart.fresh, fun behind => ?_, ?_⟩
    · rw [move.nowIdx] at behind
      by_cases seven : state.nowIdx = 7
      · exact decided seven matching
      · exact kept (written (by omega))
    · change middle.isRequest = true ∨ (middle.code = -1 ↔ code = -1) ∨
        ¬ ReachesCode bytes ∧ middle.isRequest = false ∧ next.Inside false middle.version _
      rw [request, sameCode]
      refine apart.compared.imp_right (Or.imp_right ?_)
      rintro ⟨unreached, response, before⟩
      refine ⟨unreached, response, ?_⟩
      simp only [HTTPMessageParser.BeforeCode, inState] at before
      have mode : (parser.reading beginPtr c).isRequest = false := response
      rcases move.inside (by rw [mode]; exact before) matching with ⟨goesOn, -⟩ | ⟨-, leaves⟩
      · rwa [mode] at goesOn
      · have fresh : middle.nextState = none := stays.trans apart.fresh
        rw [fresh] at leaves
        cases leaves
  · have sameVersion : held = middle.version := kept (written behind)
    simp only [HTTPMessageParser.enterNext, leaves]
    cases mode : parser.isRequest with
    | true =>
        have mode : (parser.reading beginPtr c).isRequest = true := mode
        rw [mode, if_pos rfl]
        exact ⟨rfl,
          ⟨sameVersion, fun response => by cases response.symm.trans (request.trans mode)⟩,
          .inl (request.trans mode)⟩
    | false =>
        have mode : (parser.reading beginPtr c).isRequest = false := mode
        rw [mode]
        refine ⟨rfl, ⟨request.trans mode, sameVersion⟩, .inr ?_⟩
        change (middle.code = -1 ↔ code = -1) ∨ ¬ ReachesCode bytes ∧ middle.isRequest = false ∧
          0 = 0 ∧ ∃ known, VersionWord false known (consumed ++ [c])
        rw [sameCode]
        rcases apart.compared with isRequest | alike | ⟨unreached, -, before⟩
        · cases isRequest.symm.trans mode
        · exact .inl alike
        · simp only [HTTPMessageParser.BeforeCode, inState] at before
          refine .inr ⟨unreached, request.trans mode, rfl, ?_⟩
          rcases move.inside (by rw [mode]; exact before) matching with ⟨-, stays⟩ | ⟨ends, -⟩
          · have fresh : middle.nextState = none := stays.trans apart.fresh
            rw [fresh] at leaves
            cases leaves
          · rw [mode] at ends
            exact ⟨_, ends⟩

/-- A digit of the status code, or the space behind it. -/
theorem Apart.inCode (apart : Apart bytes consumed parser version code) {state : StateCode}
    (inState : parser.state = .code state) (begins : consumed ++ [c] <+: bytes) (beginPtr : Int) :
    ∃ held, state.matchStep ((parser.reading beginPtr c).holding version code) =
        ((state.matchStep (parser.reading beginPtr c)).1,
          (state.matchStep (parser.reading beginPtr c)).2.holding version held) ∧
      ((state.matchStep (parser.reading beginPtr c)).2.isMatch = true →
        Apart bytes (consumed ++ [c])
          ({ (state.matchStep (parser.reading beginPtr c)).2 with
            state := .code (state.matchStep (parser.reading beginPtr c)).1 } :
              HTTPMessageParser).enterNext version held) := by
  have written := apart.written
  simp only [HTTPMessageParser.Written, inState] at written
  obtain ⟨response, sameVersion⟩ := written
  rcases apart.compared with request | alike | ⟨unreached, -, before⟩
  · cases request.symm.trans response
  · obtain ⟨held, same, heldAlike, decided⟩ :=
      StateCode.matchStep_holding (parser.reading beginPtr c) version code state alike
    refine ⟨held, same, fun _ => ?_⟩
    obtain ⟨kept, next⟩ := state.matchStep_next (parser.reading beginPtr c)
    have input := state.matchStep_sameInput (parser.reading beginPtr c)
    generalize state.matchStep (parser.reading beginPtr c) = result at *
    obtain ⟨after, middle⟩ := result
    simp only at *
    have versions : version = middle.version := sameVersion.trans kept.symm
    rcases next with stays | leaves
    · rw [HTTPMessageParser.enterNext_of_fresh (by exact stays.trans apart.fresh)]
      exact ⟨stays.trans apart.fresh, ⟨input.isRequest.trans response, versions⟩,
        .inr (.inl heldAlike)⟩
    · have differs : middle.nextState ≠ (parser.reading beginPtr c).nextState := by
        rw [leaves, show (parser.reading beginPtr c).nextState = none from apart.fresh]
        simp
      simp only [HTTPMessageParser.enterNext, leaves]
      exact ⟨rfl, ⟨versions, decided differs⟩, .inr (.inl heldAlike)⟩
  · simp only [HTTPMessageParser.BeforeCode, inState] at before
    obtain ⟨start, known, text, isText, word⟩ := before
    have noDigit : isDigit c = false := by
      by_contra digit
      obtain ⟨rest, rfl⟩ := begins
      refine unreached ⟨known, text, c, rest, isText, by simpa using digit, ?_⟩
      rw [word, versionEnd_response]
      simp
    obtain ⟨same, stopped⟩ := StateCode.matchStep_noDigit (parser.reading beginPtr c) version code
      state start noDigit
    exact ⟨code, same, fun matching => by rw [stopped] at matching; cases matching⟩

/-- A byte of the reason phrase. -/
theorem Apart.inDetail (apart : Apart bytes consumed parser version code)
    (taken : parser.Takes c after) {state : StateDetail} (inState : parser.state = .detail state) :
    Apart bytes (consumed ++ [c]) after version code := by
  have written := apart.written
  simp only [HTTPMessageParser.Written, inState] at written
  obtain ⟨rfl, rfl⟩ := written
  obtain ⟨beginPtr, ⟨next, middle⟩, matched, -, rfl⟩ := taken.detail inState
  obtain ⟨⟨sameVersion, sameCode⟩, leads⟩ := state.matchStep_next (parser.reading beginPtr c)
  rw [matched] at sameVersion sameCode leads
  have alike : middle.code = -1 ↔ parser.code = -1 := by
    rw [show middle.code = parser.code from sameCode]
  rcases leads with stays | leaves
  · rw [HTTPMessageParser.enterNext_of_fresh (by exact stays.trans apart.fresh)]
    exact ⟨stays.trans apart.fresh, ⟨sameVersion.symm, sameCode.symm⟩, .inr (.inl alike)⟩
  · simp only at leaves
    simp only [HTTPMessageParser.enterNext, leaves]
    exact ⟨rfl, ⟨sameVersion.symm, fun _ => sameCode.symm⟩, .inr (.inl alike)⟩

/-- One byte. -/
theorem Apart.matchChar (apart : Apart bytes consumed parser version code) (memory : Memory)
    (begins : consumed ++ [c] <+: bytes) :
    ∃ heldVersion heldCode,
      (parser.holding version code).matchChar (stringOf memory) c =
          (parser.matchChar (stringOf memory) c).map (·.holding heldVersion heldCode) ∧
        ∀ after, parser.matchChar (stringOf memory) c = .ok after → after.isMatch = true →
          Apart bytes (consumed ++ [c]) after.enterNext heldVersion heldCode := by
  have takes (after : HTTPMessageParser) (taken : parser.matchChar (stringOf memory) c = .ok after)
      (matching : after.isMatch = true) : parser.Takes c after.enterNext :=
    ⟨_, parser.beginPtr, after, taken, matching, rfl⟩
  have stepped : parser.matchChar (stringOf memory) c =
      parser.state.matchStep (stringOf memory) (parser.reading parser.beginPtr c) := rfl
  have twin : (parser.holding version code).matchChar (stringOf memory) c =
      parser.state.matchStep (stringOf memory)
        ((parser.reading parser.beginPtr c).holding version code) := rfl
  cases inState : parser.state with
  | method state =>
      refine ⟨version, code, ?_, fun after taken matching =>
        apart.inMethod (takes after taken matching) inState⟩
      rw [twin, stepped, inState, State.matchStep, State.matchStep, StateMethod.matchStep_holding]
      rfl
  | url state =>
      refine ⟨version, code, ?_, fun after taken matching =>
        apart.inURL (takes after taken matching) inState⟩
      rw [twin, stepped, inState, State.matchStep, State.matchStep, StateURL.matchStep_holding]
      cases state.matchStep (stringOf memory) (parser.reading parser.beginPtr c) <;> rfl
  | version state =>
      obtain ⟨held, same, next⟩ := apart.inVersion inState parser.beginPtr
      refine ⟨held, code, ?_, fun after taken matching => ?_⟩
      · rw [twin, stepped, inState, State.matchStep, State.matchStep, same]
        rfl
      · rw [stepped, inState] at taken
        cases taken
        exact next matching
  | code state =>
      obtain ⟨held, same, next⟩ := apart.inCode inState begins parser.beginPtr
      refine ⟨version, held, ?_, fun after taken matching => ?_⟩
      · rw [twin, stepped, inState, State.matchStep, State.matchStep, same]
        rfl
      · rw [stepped, inState] at taken
        cases taken
        exact next matching
  | detail state =>
      refine ⟨version, code, ?_, fun after taken matching =>
        apart.inDetail (takes after taken matching) inState⟩
      rw [twin, stepped, inState, State.matchStep, State.matchStep, StateDetail.matchStep_holding]
      rfl
  | header state =>
      refine ⟨version, code, ?_, fun after taken matching =>
        apart.inTail (takes after taken matching) (by rw [inState]; trivial)⟩
      rw [twin, stepped, inState, State.matchStep, State.matchStep, StateHeader.matchStep_holding]
      cases state.matchStep (stringOf memory) (parser.reading parser.beginPtr c) <;> rfl
  | body state =>
      refine ⟨version, code, ?_, fun after taken matching =>
        apart.inTail (takes after taken matching) (by rw [inState]; trivial)⟩
      rw [twin, stepped, inState, State.matchStep, State.matchStep, StateBody.matchStep_holding]
      rfl

theorem Apart.moved (apart : Apart bytes consumed parser version code) (beginPtr : Int) :
    Apart bytes consumed (parser.rebase beginPtr) version code :=
  ⟨apart.fresh, apart.written, apart.compared⟩

theorem enterNext_holding (parser : HTTPMessageParser) (version : HTTPVersion) (code : Int) :
    (parser.holding version code).enterNext = parser.enterNext.holding version code := by
  cases entered : parser.nextState <;>
    simp [HTTPMessageParser.enterNext, HTTPMessageParser.holding, entered]

/-- The same outcome, up to the two members. -/
def SameUpTo (bytes consumed : Bytes) (outcome twin : Except Fault (Bool × HTTPMessageParser)) :
    Prop :=
  ∃ version code, twin = outcome.map (fun result => (result.1, result.2.holding version code)) ∧
    ∀ after, outcome = .ok (true, after) → Apart bytes consumed after version code

/-- The bytes of one call. -/
theorem Apart.parserLoop {memory : Memory} {str : Int} {chunk : Bytes}
    (holds : memory.Holds str chunk) (apart : Apart bytes consumed parser version code)
    (begins : consumed ++ chunk <+: bytes) :
    SameUpTo bytes (consumed ++ chunk)
      (HTTPMessageParser.parserLoop (stringOf memory) memory str chunk.length parser)
      (HTTPMessageParser.parserLoop (stringOf memory) memory str chunk.length
        (parser.holding version code)) := by
  induction chunk generalizing str consumed parser version code with
  | nil =>
      refine ⟨version, code, rfl, fun after read => ?_⟩
      cases read
      rwa [List.append_nil]
  | cons c rest ih =>
      obtain ⟨found, behind⟩ := (Memory.holds_cons_iff _ _ _ _).mp holds
      rw [List.append_cons] at begins ⊢
      obtain ⟨heldVersion, heldCode, same, next⟩ :=
        apart.matchChar memory ((List.prefix_append _ rest).trans begins)
      rw [List.length_cons, HTTPMessageParser.parserLoop, HTTPMessageParser.parserLoop, found]
      simp only [same]
      cases taken : parser.matchChar (stringOf memory) c with
      | error fault => exact ⟨version, code, rfl, fun after read => by cases read⟩
      | ok after =>
          simp only [Except.map]
          by_cases stopped : after.isMatch = false
          · rw [if_pos stopped, if_pos stopped]
            exact ⟨heldVersion, heldCode, rfl, fun after read => by cases read⟩
          · rw [if_neg stopped, if_neg stopped, enterNext_holding after heldVersion heldCode]
            exact ih behind (next after taken (by simpa using stopped)) begins

theorem Apart.parserMessageWith (call : Call) {chunk : Bytes}
    (holds : call.memory.Holds call.str chunk) (apart : Apart bytes consumed parser version code)
    (begins : consumed ++ chunk <+: bytes) (count : call.len = chunk.length) :
    SameUpTo bytes (consumed ++ chunk)
      (parser.parserMessageWith stringOf call.memory call.str call.len)
      ((parser.holding version code).parserMessageWith stringOf call.memory call.str call.len) := by
  unfold HTTPMessageParser.parserMessageWith
  by_cases failed : parser.isMatch = false
  · rw [if_pos failed, if_pos failed]
    exact ⟨version, code, rfl, fun after read => by cases read⟩
  · rw [if_neg failed, if_neg failed, count]
    exact (apart.moved (call.str - parser.nowLen)).parserLoop holds begins

theorem Apart.parserMessages {calls : List Call} {chunks : List Bytes}
    (addressed : CallsAddress consumed calls chunks)
    (apart : Apart bytes consumed parser version code)
    (begins : consumed ++ chunks.flatten <+: bytes) :
    SameUpTo bytes (consumed ++ chunks.flatten) (parser.parserMessages calls)
      ((parser.holding version code).parserMessages calls) := by
  unfold HTTPMessageParser.parserMessages
  induction calls generalizing consumed chunks parser version code with
  | nil =>
      cases chunks with
      | cons chunk chunks => exact addressed.elim
      | nil =>
          refine ⟨version, code, rfl, fun after read => ?_⟩
          obtain ⟨-, rfl⟩ := Prod.mk.inj (Except.ok.inj read)
          simpa using apart
  | cons call calls ih =>
      cases chunks with
      | nil => exact addressed.elim
      | cons chunk chunks =>
          obtain ⟨⟨address, holds, place, count⟩, rest⟩ := addressed
          rw [List.flatten_cons, ← List.append_assoc] at begins ⊢
          have here := ((Memory.holds_append_iff _ _ _ _).mp holds).2
          rw [← place] at here
          obtain ⟨heldVersion, heldCode, same, next⟩ := apart.parserMessageWith call here
            ((List.prefix_append _ _).trans begins) count
          rw [HTTPMessageParser.parserMessagesWith, HTTPMessageParser.parserMessagesWith, same]
          cases called : parser.parserMessageWith stringOf call.memory call.str call.len with
          | error fault => exact ⟨version, code, rfl, fun after read => by cases read⟩
          | ok result =>
              obtain ⟨verdict, after⟩ := result
              cases verdict with
              | false => exact ⟨heldVersion, heldCode, rfl, fun after read => by cases read⟩
              | true => exact ih rest (next after called) begins

end

/-! ## The same answers -/

/-- The same verdict, the same completion and, when complete, the same message. -/
def SameAnswer : (outcome other : Except Fault (Bool × HTTPMessageParser)) → Prop
  | .error fault, .error otherFault => fault = otherFault
  | .ok (verdict, parser), .ok (otherVerdict, twin) =>
      verdict = otherVerdict ∧ parser.isCompleted = twin.isCompleted ∧
        (parser.isCompleted = true → ∀ memory,
          parser.getRequestMessage memory = twin.getRequestMessage memory ∧
            parser.getResponseMessage memory = twin.getResponseMessage memory)
  | _, _ => False

theorem SameAnswer.verdict_eq {outcome other : Except Fault (Bool × HTTPMessageParser)}
    (same : SameAnswer outcome other) :
    outcome.toOption.map Prod.fst = other.toOption.map Prod.fst := by
  cases outcome <;> cases other
  · rfl
  · exact same.elim
  · exact same.elim
  · exact congrArg some same.1

/--
Behind every chunk, however the bytes are cut, two new parsers that differ in what the two
members hold answer the same.
-/
def SameFromAnyMemory (isRequest : Bool) (version other : HTTPVersion) (code otherCode : Int)
    (bytes : Bytes) : Prop :=
  ∀ calls chunks rest, CallsAddress [] calls chunks → chunks.flatten ++ rest = bytes →
    SameAnswer ((HTTPMessageParser.new isRequest version code).parserMessages calls)
      ((HTTPMessageParser.new isRequest other otherCode).parserMessages calls)

/-- The messages of a complete parser show only members that have been written. -/
theorem Apart.sameMessage {bytes consumed : Bytes} {parser : HTTPMessageParser}
    {version : HTTPVersion} {code : Int} (apart : Apart bytes consumed parser version code)
    (completed : parser.isCompleted = true) (memory : Memory) :
    parser.getRequestMessage memory = (parser.holding version code).getRequestMessage memory ∧
      parser.getResponseMessage memory =
        (parser.holding version code).getResponseMessage memory := by
  obtain ⟨state, inState, -⟩ := parser.isCompleted_iff.mp completed
  have written := apart.written
  simp only [HTTPMessageParser.Written, inState] at written
  obtain ⟨rfl, code⟩ := written
  cases mode : parser.isRequest with
  | true => exact ⟨rfl, by simp [HTTPMessageParser.getResponseMessage, mode]⟩
  | false =>
      obtain rfl := code mode
      exact ⟨rfl, rfl⟩

theorem sameAnswer_of_sameUpTo {bytes consumed : Bytes}
    {outcome twin : Except Fault (Bool × HTTPMessageParser)}
    (same : SameUpTo bytes consumed outcome twin)
    (answered : ∀ verdict parser, outcome = .ok (verdict, parser) → parser.Answered verdict) :
    SameAnswer outcome twin := by
  obtain ⟨version, code, rfl, apart⟩ := same
  cases outcome with
  | error fault => exact rfl
  | ok result =>
      obtain ⟨verdict, parser⟩ := result
      refine ⟨rfl, rfl, fun completed memory => ?_⟩
      cases verdict with
      | true => exact (apart parser rfl).sameMessage completed memory
      | false =>
          have incomplete := (answered false parser rfl).incomplete rfl
          rw [incomplete] at completed
          cases completed

theorem new_apart {isRequest : Bool} {version other : HTTPVersion} {code otherCode : Int}
    {bytes : Bytes} (compared : isRequest = true ∨ (code = -1 ↔ otherCode = -1) ∨
      ¬ ReachesCode bytes) :
    Apart bytes [] (.new isRequest version code) other otherCode where
  fresh := rfl
  written := by
    cases isRequest with
    | true => rfl
    | false => exact fun behind => absurd behind (by decide)
  compared := by
    rcases compared with request | alike | unreached
    · exact .inl request
    · exact .inr (.inl alike)
    · cases isRequest with
      | true => exact .inl rfl
      | false => exact .inr (.inr ⟨unreached, rfl, StateVersion.inside_nil false version⟩)

/-- The first digit of the status code is answered with what the code happens to be. -/
theorem parserMessages_digit (version : HTTPVersion) (code : Int) {known : HTTPVersion}
    {text : Bytes} {digit : Byte} (isText : getVersionStr known = .ok text)
    (isDigit : isDigit digit = true) :
    ∃ parser, (HTTPMessageParser.new false version code).parserMessages
      [wholeCall (text ++ [SP] ++ [digit])] = .ok (decide (code ≠ -1), parser) := by
  have reads := reads_response_version [] (.new false version code) isText rfl
  obtain ⟨char, run⟩ := wholeCall_prefix rfl reads [digit]
  have holds := Memory.holds_ofBytes 0 (text ++ [SP] ++ [digit])
  have behind := ((Memory.holds_append_iff _ _ _ _).mp holds).2
  have found := ((Memory.holds_cons_iff _ _ _ _).mp behind).1
  rw [Int.zero_add] at found
  rw [run, List.length_singleton, HTTPMessageParser.parserLoop, found]
  simp only [HTTPMessageParser.matchChar, State.matchStep, StateCode.matchStep, isDigit]
  by_cases minus : code = -1
  · simp [minus, HTTPMessageParser.new]
  · simp [minus, HTTPMessageParser.new, HTTPMessageParser.parserLoop]

/--
The answers do not depend on the two members exactly for requests, for codes that are both `-1`
or both not, and for bytes that do not reach the status code.
-/
theorem sameFromAnyMemory_iff {isRequest : Bool} {version other : HTTPVersion}
    {code otherCode : Int} {bytes : Bytes} :
    SameFromAnyMemory isRequest version other code otherCode bytes ↔
      isRequest = true ∨ (code = -1 ↔ otherCode = -1) ∨ ¬ ReachesCode bytes := by
  constructor
  · intro same
    by_contra differs
    simp only [not_or, Bool.not_eq_true, not_not] at differs
    obtain ⟨rfl, codes, known, text, digit, rest, isText, isDigit, rfl⟩ := differs
    obtain ⟨parser, run⟩ := parserMessages_digit version code isText isDigit
    obtain ⟨twin, twinRun⟩ := parserMessages_digit other otherCode isText isDigit
    have answers := same _ _ rest (wholeCall_addresses (text ++ [SP] ++ [digit])) (by simp)
    rw [run, twinRun] at answers
    exact codes (by simpa using answers.1)
  · intro compared calls chunks rest addressed split
    have start : Apart bytes [] (.new isRequest version code) other otherCode := new_apart compared
    refine sameAnswer_of_sameUpTo (start.parserMessages addressed ⟨rest, split⟩) ?_
    intro verdict parser run
    have new : (HTTPMessageParser.new isRequest version code).Answered true := ⟨rfl, by simp⟩
    exact HTTPMessageParser.parserMessagesWith_answered new run

/-- The response `HTTP/1.0 2`, read where `-1` happens to lie and where `0` does. -/
theorem minusOne_tells_memory :
    ¬ ∀ (isRequest : Bool) (version other : HTTPVersion) (code otherCode : Int) (bytes : Bytes),
      SameFromAnyMemory isRequest version other code otherCode bytes := by
  intro all
  have same := all false .v1_0 .v1_0 (-1) 0 (ascii "HTTP/1.0 2") _ _ []
    (wholeCall_addresses (ascii "HTTP/1.0 2")) (by simp)
  exact absurd same.verdict_eq (by decide +kernel)

end SimpleWebServer.Http
