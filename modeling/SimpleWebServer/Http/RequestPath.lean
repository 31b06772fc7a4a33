import SimpleWebServer.Http.ParserRun

/-!
# Where the path of a request is

A request that is read to its end has its path at offset `0` or right behind the method,
and the path is not empty.  This holds whatever strings are copied while the request is
read, so it also holds of the parser that looks for them at a wrong address.
-/

namespace SimpleWebServer.Http

open SimpleWebServer.Base

/-! ## Reading without regard to the strings that are copied -/

/-- The parser reads the bytes in turn; the addresses and the copied strings may be any. -/
inductive CharRun : HTTPMessageParser → Bytes → HTTPMessageParser → Prop where
  | done (parser : HTTPMessageParser) : CharRun parser [] parser
  | next {parser after last : HTTPMessageParser} {string : StringCtor} {beginPtr : Int}
      {c : Byte} {rest : Bytes}
      (taken : (parser.rebase beginPtr).matchChar string c = .ok after)
      (matching : after.isMatch = true) (tail : CharRun after.enterNext rest last) :
      CharRun parser (c :: rest) last

theorem CharRun.append {first middle last : HTTPMessageParser} {bytes more : Bytes}
    (head : CharRun first bytes middle) (tail : CharRun middle more last) :
    CharRun first (bytes ++ more) last := by
  induction head with
  | done parser => exact tail
  | next taken matching _ ih => exact .next taken matching (ih tail)

theorem charRun_of_parserLoop {string : StringCtor} {memory : Memory} {str : Int}
    {bytes : Bytes} (holds : memory.Holds str bytes) {parser last : HTTPMessageParser}
    (run : HTTPMessageParser.parserLoop string memory str bytes.length parser =
      .ok (true, last)) : CharRun parser bytes last := by
  induction bytes generalizing str parser with
  | nil =>
      cases run
      exact .done _
  | cons c rest ih =>
      obtain ⟨here, later⟩ := (memory.holds_cons_iff str c rest).mp holds
      rw [List.length_cons, HTTPMessageParser.parserLoop, here] at run
      cases taken : parser.matchChar string c with
      | error fault => simp [taken] at run
      | ok after =>
          simp only [taken] at run
          split_ifs at run with stopped
          · cases run
          · have rebased : (parser.rebase parser.beginPtr).matchChar string c = .ok after := taken
            exact .next rebased (by simpa using stopped) (ih later run)

/-- A call that answers `true` reads the bytes it is passed. -/
theorem charRun_of_parserMessage {memory : Memory} {str : Int} {bytes : Bytes}
    (nonempty : bytes ≠ []) (holds : memory.Holds str bytes) {parser last : HTTPMessageParser}
    (run : parser.parserMessage memory str bytes.length = .ok (true, last)) :
    CharRun parser bytes last := by
  rw [HTTPMessageParser.parserMessage, HTTPMessageParser.parserMessageWith] at run
  split_ifs at run
  · cases run
  · cases charRun_of_parserLoop holds run with
    | done => exact absurd rfl nonempty
    | next taken matching tail => exact .next taken matching tail

/-! ## Where the path of a request is -/

/-- The path starts at offset `0` or right behind the method, and it is not empty. -/
def PathStart (offset : Int) (parser : HTTPMessageParser) : Prop :=
  (parser.pathPos.1 = 0 ∨ parser.pathPos.1 = offset) ∧
    match parser.state with
    | .method _ => False
    | .url state =>
        (state.nowIdx = 0 →
            parser.pathPos.1 = 0 ∧ parser.nowLen = offset ∧ state.hasQuery = false) ∧
          (state.nowIdx ≠ 0 → offset < parser.nowLen) ∧
          (state.hasQuery = true → 1 ≤ parser.pathPos.2)
    | _ => 1 ≤ parser.pathPos.2 ∧ offset < parser.nowLen

/-- A state behind the request target. -/
def State.PastURL : State → Prop
  | .method _ => False
  | .url _ => False
  | _ => True

theorem pathStart_of_pastURL {offset : Int} {parser : HTTPMessageParser}
    (start : parser.pathPos.1 = 0 ∨ parser.pathPos.1 = offset)
    (nonempty : 1 ≤ parser.pathPos.2 ∧ offset < parser.nowLen) (past : parser.state.PastURL) :
    PathStart offset parser := by
  refine ⟨start, ?_⟩
  cases state : parser.state <;> rw [state] at past <;> first | exact nonempty | exact past.elim

/-- The parser is in the target, or behind it with a path that is not empty. -/
theorem PathStart.inURL_or {offset : Int} {parser : HTTPMessageParser}
    (start : PathStart offset parser) :
    (∃ state, parser.state = .url state ∧
        (state.nowIdx = 0 →
          parser.pathPos.1 = 0 ∧ parser.nowLen = offset ∧ state.hasQuery = false) ∧
        (state.nowIdx ≠ 0 → offset < parser.nowLen) ∧
        (state.hasQuery = true → 1 ≤ parser.pathPos.2)) ∨
      parser.state.PastURL ∧ 1 ≤ parser.pathPos.2 ∧ offset < parser.nowLen := by
  obtain ⟨-, state⟩ := start
  cases known : parser.state with
  | method inner =>
      rw [known] at state
      exact state.elim
  | url inner =>
      rw [known] at state
      exact Or.inl ⟨inner, rfl, state⟩
  | _ =>
      rw [known] at state
      exact Or.inr ⟨trivial, state⟩

/-- A step behind the target keeps the path and stays behind it. -/
structure PathKept (context after : HTTPMessageParser) : Prop where
  path : after.pathPos = context.pathPos
  next : ∀ next, after.nextState = some next → next.PastURL

section

variable {context : HTTPMessageParser} (fresh : context.nextState = none)
include fresh

theorem StateVersion.matchStep_pathKept (state : StateVersion) :
    PathKept context (state.matchStep context).2 := by
  unfold matchStep
  cases fixedByte? state.nowIdx with
  | some byte =>
      simp only
      split_ifs <;> exact ⟨rfl, by simp [fresh]⟩
  | none =>
      simp only
      split_ifs <;> exact ⟨rfl, by simp [fresh, State.PastURL]⟩

theorem StateCode.matchStep_pathKept (state : StateCode) :
    PathKept context (state.matchStep context).2 := by
  unfold matchStep
  simp only
  split_ifs <;> exact ⟨rfl, by simp [fresh, State.PastURL]⟩

theorem StateDetail.matchStep_pathKept (state : StateDetail) :
    PathKept context (state.matchStep context).2 := by
  unfold matchStep
  simp only
  split_ifs <;> exact ⟨rfl, by simp [fresh, State.PastURL]⟩

theorem StateBody.matchStep_pathKept (state : StateBody) :
    PathKept context (state.matchStep context).2 := by
  unfold matchStep
  simp only
  split_ifs <;> exact ⟨rfl, by simp [fresh]⟩

theorem StateHeader.recordEntry_pathKept {string : StringCtor} {state : StateHeader}
    {after : HTTPMessageParser} (taken : state.recordEntry string context = .ok after) :
    PathKept context after := by
  unfold recordEntry at taken
  cases built : string context state.nowKeyOffset state.nowKeyLen with
  | error fault => simp [built] at taken
  | ok key =>
      simp only [built] at taken
      split_ifs at taken
      · unfold takeTotalLen at taken
        split at taken
        · cases taken
        · obtain ⟨totalLen, _, rfl⟩ := map_eq_ok taken
          exact ⟨rfl, by simp [fresh]⟩
      · cases taken
        exact ⟨rfl, by simp [fresh]⟩

theorem StateHeader.matchPart_pathKept {string : StringCtor} {state : StateHeader}
    {result : StateHeader × HTTPMessageParser}
    (taken : state.matchPart string context = .ok result) : PathKept context result.2 := by
  unfold matchPart at taken
  cases part : state.nowPart with
  | key =>
      simp only [part] at taken
      split_ifs at taken <;> cases taken <;> exact ⟨rfl, by simp [fresh]⟩
  | split =>
      simp only [part] at taken
      split_ifs at taken <;> cases taken <;> exact ⟨rfl, by simp [fresh]⟩
  | value =>
      simp only [part] at taken
      split_ifs at taken
      · obtain ⟨after, recorded, rfl⟩ := map_eq_ok taken
        exact recordEntry_pathKept fresh recorded
      · cases taken
        exact ⟨rfl, by simp [fresh]⟩
  | «end» =>
      simp only [part] at taken
      split_ifs at taken <;> cases taken <;> exact ⟨rfl, by simp [fresh, State.PastURL]⟩

/-- Behind the target the path does not change any more. -/
theorem State.matchStep_pathKept {string : StringCtor} {state : State}
    {after : HTTPMessageParser} (past : state.PastURL)
    (taken : state.matchStep string context = .ok after) :
    PathKept context after ∧ after.state.PastURL := by
  cases state with
  | method state => exact past.elim
  | url state => exact past.elim
  | version state =>
      cases taken
      have kept := StateVersion.matchStep_pathKept fresh state
      exact ⟨⟨kept.path, kept.next⟩, trivial⟩
  | code state =>
      cases taken
      have kept := StateCode.matchStep_pathKept fresh state
      exact ⟨⟨kept.path, kept.next⟩, trivial⟩
  | detail state =>
      cases taken
      have kept := StateDetail.matchStep_pathKept fresh state
      exact ⟨⟨kept.path, kept.next⟩, trivial⟩
  | body state =>
      cases taken
      have kept := StateBody.matchStep_pathKept fresh state
      exact ⟨⟨kept.path, kept.next⟩, trivial⟩
  | header state =>
      obtain ⟨result, stepped, rfl⟩ := map_eq_ok taken
      obtain ⟨inner, matched, rfl⟩ := map_eq_ok stepped
      have kept := StateHeader.matchPart_pathKept fresh matched
      exact ⟨⟨kept.path, kept.next⟩, trivial⟩

end

theorem HTTPMessageParser.enterNext_nextState (parser : HTTPMessageParser) :
    parser.enterNext.nextState = none := by
  cases entered : parser.nextState <;> simp [enterNext, entered]

theorem HTTPMessageParser.enterNext_pathPos (parser : HTTPMessageParser) :
    parser.enterNext.pathPos = parser.pathPos := by
  cases entered : parser.nextState <;> simp [enterNext, entered]

theorem pastURL_enterNext {parser : HTTPMessageParser} (past : parser.state.PastURL)
    (next : ∀ next, parser.nextState = some next → next.PastURL) :
    parser.enterNext.state.PastURL := by
  cases entered : parser.nextState with
  | none => simpa [HTTPMessageParser.enterNext, entered] using past
  | some state => simpa [HTTPMessageParser.enterNext, entered] using next state entered

theorem StateURL.recordPair_kept {string : StringCtor} {state : StateURL}
    {context after : HTTPMessageParser} (taken : state.recordPair string context = .ok after) :
    after.pathPos = context.pathPos ∧ after.nextState = context.nextState ∧
      after.nowLen = context.nowLen := by
  obtain ⟨key, _, rfl⟩ := map_eq_ok taken
  exact ⟨rfl, rfl, rfl⟩

/-- A byte of the target, read after `offset` bytes or more. -/
theorem StateURL.matchStep_pathStart {offset : Int} (positive : 1 ≤ offset)
    {string : StringCtor} {state : StateURL} {context : HTTPMessageParser}
    {result : StateURL × HTTPMessageParser} (fresh : context.nextState = none)
    (place : context.pathPos.1 = 0 ∨ context.pathPos.1 = offset)
    (first : state.nowIdx = 0 →
      context.pathPos.1 = 0 ∧ context.nowLen = offset + 1 ∧ state.hasQuery = false)
    (later : state.nowIdx ≠ 0 → offset + 1 < context.nowLen)
    (query : state.hasQuery = true → 1 ≤ context.pathPos.2)
    (taken : state.matchStep string context = .ok result) :
    PathStart offset { result.2 with state := .url result.1 }.enterNext := by
  have length : offset < context.nowLen := by
    by_cases zero : state.nowIdx = 0
    · have := first zero
      omega
    · have := later zero
      omega
  have nonempty : 1 ≤ context.nowLen - context.pathPos.1 - 1 := by
    by_cases zero : state.nowIdx = 0
    · have := first zero
      omega
    · have := later zero
      omega
  obtain ⟨⟨next, after⟩, matched, rfl⟩ := map_eq_ok taken
  unfold matchPart at matched
  simp only at matched
  split_ifs at matched with isQuestion isEqual isAmpersand isSpace noQuery complete start
  · cases matched
    simp only [HTTPMessageParser.enterNext, endPath, fresh]
    exact ⟨place, by simp, fun _ => length, fun _ => nonempty⟩
  · cases matched
    simp only [HTTPMessageParser.enterNext, fresh]
    exact ⟨place, by simp, fun _ => length, query⟩
  · obtain ⟨recorded, pair, equal⟩ := map_eq_ok matched
    cases equal
    obtain ⟨path, next, count⟩ := recordPair_kept pair
    simp only [HTTPMessageParser.enterNext, next, fresh]
    exact ⟨by rw [path]; exact place, by simp, fun _ => by rw [count]; exact length,
      by rw [path]; exact query⟩
  · cases matched
    simp only [HTTPMessageParser.enterNext, endPath, toVersion]
    exact ⟨place, nonempty, length⟩
  · obtain ⟨recorded, pair, equal⟩ := map_eq_ok matched
    cases equal
    obtain ⟨path, -, count⟩ := recordPair_kept pair
    simp only [HTTPMessageParser.enterNext, toVersion]
    exact ⟨by rw [path]; exact place, by rw [path]; exact query (by simpa using noQuery),
      by rw [count]; exact length⟩
  · cases matched
    simp only [HTTPMessageParser.enterNext, fresh]
    exact ⟨.inr (by simp [(first start).2.1]), by simp, fun _ => length, query⟩
  · cases matched
    simp only [HTTPMessageParser.enterNext, fresh]
    exact ⟨place, by simp, fun _ => length, query⟩

/-- One byte of the target, or behind it, keeps the place of the path. -/
theorem PathStart.matchChar {offset beginPtr : Int} (positive : 1 ≤ offset)
    {parser after : HTTPMessageParser} {string : StringCtor} {c : Byte}
    (start : PathStart offset parser) (fresh : parser.nextState = none)
    (taken : (parser.rebase beginPtr).matchChar string c = .ok after) :
    PathStart offset after.enterNext := by
  have place := start.1
  rcases start.inURL_or with ⟨inner, known, first, later, query⟩ | ⟨past, nonempty, behind⟩
  · rw [HTTPMessageParser.matchChar, show (parser.rebase beginPtr).state = .url inner from known]
      at taken
    obtain ⟨result, stepped, rfl⟩ := map_eq_ok taken
    refine StateURL.matchStep_pathStart positive (by exact fresh) (by exact place) ?_ ?_
      (by exact query) stepped
    · intro zero
      exact ⟨(first zero).1, congrArg (· + 1) (first zero).2.1, (first zero).2.2⟩
    · intro moved
      exact Int.add_lt_add_right (later moved) 1
  · let context : HTTPMessageParser :=
      { parser.rebase beginPtr with nowChar := c, nowLen := parser.nowLen + 1 }
    have contextFresh : context.nextState = none := fresh
    have stepped : parser.state.matchStep string context = .ok after := taken
    obtain ⟨kept, afterPast⟩ := State.matchStep_pathKept contextFresh past stepped
    have path : after.enterNext.pathPos = parser.pathPos := by
      rw [HTTPMessageParser.enterNext_pathPos, kept.path]
    have length : after.enterNext.nowLen = parser.nowLen + 1 := by
      rw [after.enterNext_sameInput.nowLen, HTTPMessageParser.matchChar_nowLen taken]
    exact pathStart_of_pastURL (by rw [path]; exact place) ⟨by rw [path]; exact nonempty, by omega⟩
      (pastURL_enterNext afterPast kept.next)

/-- What a new parser has read: part of a method, or a method, a space and then the rest. -/
def Started (consumed : Bytes) (parser : HTTPMessageParser) : Prop :=
  parser.nextState = none ∧
    match parser.state with
    | .method state =>
        parser.pathPos.1 = 0 ∧ parser.nowLen = consumed.length ∧ state.nowIdx = consumed.length ∧
          (consumed ≠ [] → consumed <+: getMethodStr parser.method)
    | _ => ∃ method target, consumed = getMethodStr method ++ SP :: target ∧
        PathStart ((getMethodStr method).length + 1) parser

/-- The parser is in the method, or it has read the method and the space behind it. -/
theorem Started.inMethod_or {consumed : Bytes} {parser : HTTPMessageParser}
    (started : Started consumed parser) :
    (∃ state, parser.state = .method state ∧ parser.pathPos.1 = 0 ∧
        parser.nowLen = consumed.length ∧ state.nowIdx = consumed.length ∧
        (consumed ≠ [] → consumed <+: getMethodStr parser.method)) ∨
      ∃ method target, consumed = getMethodStr method ++ SP :: target ∧
        PathStart ((getMethodStr method).length + 1) parser := by
  obtain ⟨-, state⟩ := started
  cases known : parser.state with
  | method inner =>
      rw [known] at state
      exact Or.inl ⟨inner, rfl, state⟩
  | _ =>
      rw [known] at state
      exact Or.inr state

theorem started_of_pathStart {consumed target : Bytes} {parser : HTTPMessageParser}
    {method : HTTPMethod} (fresh : parser.nextState = none)
    (read : consumed = getMethodStr method ++ SP :: target)
    (start : PathStart ((getMethodStr method).length + 1) parser) : Started consumed parser := by
  refine ⟨fresh, ?_⟩
  have state := start.2
  cases known : parser.state with
  | method inner =>
      rw [known] at state
      exact state.elim
  | _ => exact ⟨method, target, read, start⟩

theorem started_new (version : HTTPVersion) (code : Int) :
    Started [] (HTTPMessageParser.new true version code) :=
  ⟨rfl, rfl, rfl, rfl, fun some => absurd rfl some⟩

theorem prefix_concat {read whole : Bytes} {c : Byte} (start : read <+: whole)
    (here : whole[read.length]? = some c) : read ++ [c] <+: whole := by
  obtain ⟨rest, rfl⟩ := start
  rw [List.getElem?_append_right (Nat.le_refl _), Nat.sub_self] at here
  cases rest with
  | nil => cases here
  | cons first rest =>
      cases here
      exact ⟨rest, by simp⟩

/-- A byte of the method, or the space behind it. -/
theorem StateMethod.matchStep_started {consumed : Bytes} {state : StateMethod}
    {context : HTTPMessageParser} {c : Byte} (char : context.nowChar = c)
    (fresh : context.nextState = none) (path : context.pathPos.1 = 0)
    (count : context.nowLen = consumed.length + 1) (index : state.nowIdx = consumed.length)
    (start : consumed ≠ [] → consumed <+: getMethodStr context.method)
    (matching : (state.matchStep context).2.isMatch = true) :
    Started (consumed ++ [c]) { (state.matchStep context).2 with
      state := .method (state.matchStep context).1 }.enterNext := by
  -- a byte of the method, whichever method it has turned out to be
  have reading (method : HTTPMethod) (begun : consumed ++ [c] <+: getMethodStr method) :
      Started (consumed ++ [c])
        { context with
          isMatch := true
          method := method
          state := .method { state with nowIdx := state.nowIdx + 1 } }.enterNext := by
    simp only [HTTPMessageParser.enterNext, fresh]
    refine ⟨rfl, path, ?_, ?_, fun _ => begun⟩
    · rw [count, List.length_append, List.length_singleton, Nat.cast_add, Nat.cast_one]
    · rw [index, List.length_append, List.length_singleton]
  unfold matchStep at matching ⊢
  simp only at matching ⊢
  by_cases first : state.nowIdx = 0
  · have empty : consumed = [] := List.length_eq_zero_iff.mp (index.symm.trans first)
    subst empty
    simp only [if_pos first] at matching ⊢
    by_cases isGet : context.nowChar = 71
    · simp only [if_pos isGet] at matching ⊢
      apply reading .get
      rw [← char, isGet]
      decide
    · simp only [if_neg isGet] at matching ⊢
      by_cases isPost : context.nowChar = 80
      · simp only [if_pos isPost] at matching ⊢
        apply reading .post
        rw [← char, isPost]
        decide
      · simp only [if_neg isPost] at matching
        cases matching
  · have nonempty : consumed ≠ [] := by
      rintro rfl
      exact first index
    have begun := start nonempty
    simp only [if_neg first] at matching ⊢
    by_cases inside : state.nowIdx < (getMethodStr context.method).length
    · simp only [if_pos inside] at matching ⊢
      by_cases differs : (getMethodStr context.method)[state.nowIdx]? ≠ some context.nowChar
      · simp only [if_pos differs] at matching
        cases matching
      · simp only [if_neg differs] at matching ⊢
        rw [not_ne_iff, index, char] at differs
        exact reading context.method (prefix_concat begun differs)
    · simp only [if_neg inside] at matching ⊢
      by_cases isSpace : context.nowChar = SP
      · simp only [if_pos isSpace] at matching ⊢
        have whole : consumed = getMethodStr context.method :=
          begun.eq_of_length_le (by omega)
        simp only [HTTPMessageParser.enterNext]
        refine ⟨rfl, context.method, [], ?_, .inl path, ?_⟩
        · rw [← char, isSpace, ← whole]
        · refine ⟨fun _ => ⟨path, ?_, rfl⟩, by simp, by simp⟩
          rw [← whole]
          exact count
      · simp only [if_neg isSpace] at matching
        cases matching

/-- Every byte that matches leads from one such parser to the next. -/
theorem Started.matchChar {consumed : Bytes} {parser after : HTTPMessageParser}
    (started : Started consumed parser) {string : StringCtor} {beginPtr : Int} {c : Byte}
    (taken : (parser.rebase beginPtr).matchChar string c = .ok after)
    (matching : after.isMatch = true) : Started (consumed ++ [c]) after.enterNext := by
  rcases started.inMethod_or with
    ⟨inner, known, path, count, index, start⟩ | ⟨method, target, read, start⟩
  · rw [HTTPMessageParser.matchChar,
      show (parser.rebase beginPtr).state = .method inner from known] at taken
    cases taken
    exact StateMethod.matchStep_started rfl started.1 path (congrArg (· + 1) count) index start
      matching
  · have longer : consumed ++ [c] = getMethodStr method ++ SP :: (target ++ [c]) := by
      rw [read]
      simp
    exact started_of_pathStart after.enterNext_nextState longer
      (start.matchChar (by omega) started.1 taken)

theorem CharRun.started {first last : HTTPMessageParser} {consumed bytes : Bytes}
    (run : CharRun first bytes last) (started : Started consumed first) :
    Started (consumed ++ bytes) last := by
  induction run generalizing consumed with
  | done parser => simpa using started
  | next taken matching _ ih =>
      have next := ih (started.matchChar taken matching)
      rwa [List.append_assoc, List.singleton_append] at next

/-- A complete request has its path at offset `0` or right behind its method. -/
theorem CharRun.complete {version : HTTPVersion} {code : Int} {bytes : Bytes}
    {last : HTTPMessageParser} (run : CharRun (.new true version code) bytes last)
    (completed : last.isCompleted = true) :
    ∃ method target, bytes = getMethodStr method ++ SP :: target ∧
      (last.pathPos.1 = 0 ∨ last.pathPos.1 = (getMethodStr method).length + 1) ∧
      1 ≤ last.pathPos.2 := by
  obtain ⟨body, inBody, -⟩ := last.isCompleted_iff.mp completed
  rcases (run.started (started_new version code)).inMethod_or with
    ⟨inner, known, -⟩ | ⟨method, target, read, start⟩
  · rw [inBody] at known
    cases known
  · have place := start.2
    rw [inBody] at place
    exact ⟨method, target, read, start.1, place.1⟩

/-! ## The byte behind the path -/

theorem CharRun.nowLen {first last : HTTPMessageParser} {bytes : Bytes}
    (run : CharRun first bytes last) : last.nowLen = first.nowLen + bytes.length := by
  induction run with
  | done parser => simp
  | next taken _ _ ih =>
      rw [ih, HTTPMessageParser.enterNext_sameInput _ |>.nowLen,
        HTTPMessageParser.matchChar_nowLen taken, List.length_cons]
      push_cast
      omega

theorem CharRun.split {first last : HTTPMessageParser} {bytes more : Bytes}
    (run : CharRun first (bytes ++ more) last) :
    ∃ middle, CharRun first bytes middle ∧ CharRun middle more last := by
  induction bytes generalizing first with
  | nil => exact ⟨first, .done _, run⟩
  | cons c rest ih =>
      cases run with
      | next taken matching tail =>
          obtain ⟨middle, head, last⟩ := ih tail
          exact ⟨middle, .next taken matching head, last⟩

/-- The parser is in the target and has seen no query. -/
def InPath (parser : HTTPMessageParser) : Prop :=
  parser.nextState = none ∧ ∃ state, parser.state = .url state ∧ state.hasQuery = false

theorem InPath.incomplete {parser : HTTPMessageParser} (inPath : InPath parser) :
    parser.isCompleted = false := by
  obtain ⟨-, state, known, -⟩ := inPath
  simp [HTTPMessageParser.isCompleted, known]

/-- A byte that neither ends the path nor starts a query. -/
theorem InPath.matchChar {parser after : HTTPMessageParser} (inPath : InPath parser)
    {string : StringCtor} {beginPtr : Int} {c : Byte} (noSpace : c ≠ SP) (noQuery : c ≠ question)
    (taken : (parser.rebase beginPtr).matchChar string c = .ok after) :
    InPath after.enterNext := by
  obtain ⟨fresh, state, known, query⟩ := inPath
  rw [HTTPMessageParser.matchChar, show (parser.rebase beginPtr).state = .url state from known]
    at taken
  obtain ⟨result, stepped, rfl⟩ := map_eq_ok taken
  obtain ⟨⟨next, context⟩, matched, rfl⟩ := map_eq_ok stepped
  have stays (state : StateURL) (context : HTTPMessageParser) (query : state.hasQuery = false)
      (fresh : context.nextState = none) :
      InPath { context with
        state := .url { state with nowIdx := state.nowIdx + 1 } }.enterNext := by
    simp only [HTTPMessageParser.enterNext, fresh]
    exact ⟨rfl, _, rfl, query⟩
  unfold StateURL.matchPart at matched
  simp only at matched
  split_ifs at matched with isQuestion isEqual isAmpersand start
  · cases matched
    exact absurd isQuestion noQuery
  · cases matched
    exact stays _ _ query fresh
  · obtain ⟨recorded, pair, equal⟩ := map_eq_ok matched
    cases equal
    exact stays _ _ query ((StateURL.recordPair_kept pair).2.1.trans fresh)
  · cases matched
    exact stays _ _ query fresh
  · cases matched
    exact stays _ _ query fresh

theorem InPath.charRun {first last : HTTPMessageParser} {bytes : Bytes} (inPath : InPath first)
    (path : ∀ c ∈ bytes, c ≠ SP ∧ c ≠ question) (run : CharRun first bytes last) :
    InPath last := by
  induction run with
  | done parser => exact inPath
  | next taken _ _ ih =>
      have here := path _ List.mem_cons_self
      exact ih (inPath.matchChar here.1 here.2 taken)
        fun c member => path c (List.mem_cons_of_mem _ member)

/-- Behind the space that ends a path without a query a complete request goes on with `H`. -/
theorem InPath.version_follows {first last : HTTPMessageParser} {rest : Bytes}
    (inPath : InPath first) (run : CharRun first (SP :: rest) last)
    (completed : last.isCompleted = true) : ∃ more, rest = 72 :: more := by
  obtain ⟨fresh, state, known, query⟩ := inPath
  cases run with
  | @next _ after _ _ _ _ _ taken _ tail =>
      have version : after.enterNext.state = .version {} := by
        rw [HTTPMessageParser.matchChar, show (first.rebase _).state = .url state from known]
          at taken
        obtain ⟨result, stepped, rfl⟩ := map_eq_ok taken
        obtain ⟨⟨next, context⟩, matched, rfl⟩ := map_eq_ok stepped
        unfold StateURL.matchPart at matched
        simp only [query, if_true] at matched
        cases matched
        rfl
      cases tail with
      | done parser => simp [HTTPMessageParser.isCompleted, version] at completed
      | @next _ _ _ _ _ c more entered matching _ =>
          refine ⟨more, ?_⟩
          rw [HTTPMessageParser.matchChar,
            show (after.enterNext.rebase _).state = .version {} from version] at entered
          by_contra other
          have differs : c ≠ 72 := fun equal => other (by rw [equal])
          cases entered
          simp [differs] at matching

/-- A method consists of bytes that may stand in a path. -/
theorem pathByte_of_mem_method (method : HTTPMethod) :
    ∀ c ∈ getMethodStr method, c ≠ SP ∧ c ≠ question := by
  cases method <;> decide +kernel

theorem space_notMem_method (method : HTTPMethod) : SP ∉ getMethodStr method :=
  fun member => (pathByte_of_mem_method method SP member).1 rfl

/-- Two methods in front of their spaces begin the same bytes only when they are the same. -/
theorem method_eq_of_append {method other : HTTPMethod} {target more : Bytes}
    (same : getMethodStr method ++ SP :: target = getMethodStr other ++ SP :: more) :
    method = other := by
  have first := congrArg List.head? same
  cases method <;> cases other <;> first | rfl | exact absurd first (by simp [getMethodStr, ascii])

/-- A new parser that has read a method and the space behind it. -/
theorem inPath_of_method {version : HTTPVersion} {code : Int} {method : HTTPMethod}
    {last : HTTPMessageParser}
    (run : CharRun (.new true version code) (getMethodStr method ++ [SP]) last) : InPath last := by
  have started := run.started (started_new version code)
  have length : last.nowLen = (getMethodStr method).length + 1 := by
    rw [run.nowLen]
    simp [HTTPMessageParser.new]
  have past {other : HTTPMethod} {target : Bytes}
      (read : [] ++ (getMethodStr method ++ [SP]) = getMethodStr other ++ SP :: target)
      (longer : ((getMethodStr other).length + 1 : Int) < last.nowLen) : False := by
    rw [length, ← method_eq_of_append read] at longer
    omega
  rcases started.inMethod_or with ⟨-, -, -, -, -, start⟩ | ⟨other, target, read, start⟩
  · have inside : SP ∈ getMethodStr last.method := (start (by simp)).subset (by simp)
    exact absurd inside (space_notMem_method last.method)
  · rcases start.inURL_or with ⟨inner, known, first, later, -⟩ | ⟨-, -, behind⟩
    · refine ⟨started.1, inner, known, ?_⟩
      by_cases zero : inner.nowIdx = 0
      · exact (first zero).2.2
      · exact (past read (later zero)).elim
    · exact (past read behind).elim

/-- A complete request does not begin again behind its own method and space. -/
theorem CharRun.target_not_repeated {version : HTTPVersion} {code : Int} {method : HTTPMethod}
    {target : Bytes} {last : HTTPMessageParser}
    (run : CharRun (.new true version code) (getMethodStr method ++ SP :: target) last)
    (completed : last.isCompleted = true) :
    ¬ target <+: getMethodStr method ++ SP :: target := by
  intro repeated
  have pathBytes := pathByte_of_mem_method method
  rw [← List.singleton_append, ← List.append_assoc] at run
  obtain ⟨middle, head, tail⟩ := run.split
  have inPath := inPath_of_method head
  by_cases short : target.length ≤ (getMethodStr method).length
  · -- the target is part of the method and the parser never leaves the path
    have inside : target <+: getMethodStr method :=
      List.prefix_of_prefix_length_le repeated (List.prefix_append _ _) short
    have stays := inPath.charRun (fun c member => pathBytes c (inside.subset member)) tail
    rw [stays.incomplete] at completed
    cases completed
  · -- the target repeats the method and the space, where the version must follow
    have whole : getMethodStr method <+: target :=
      List.prefix_of_prefix_length_le (List.prefix_append _ _) repeated (by omega)
    obtain ⟨rest, split⟩ := whole
    rw [← split, List.prefix_append_right_inj, split] at repeated
    obtain ⟨more, again⟩ := repeated
    rw [← split] at tail short
    cases rest with
    | nil => simp at short
    | cons c rest =>
        obtain ⟨rfl, same⟩ := List.cons.inj again
        obtain ⟨ended, path, behind⟩ := tail.split
        obtain ⟨later, read⟩ := (inPath.charRun pathBytes path).version_follows behind completed
        have first := congrArg List.head? (split.trans same.symm)
        rw [read] at first
        cases method <;> exact absurd first (by simp [getMethodStr, ascii])

end SimpleWebServer.Http
