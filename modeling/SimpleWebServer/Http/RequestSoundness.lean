import SimpleWebServer.Http.HeaderGrammar
import SimpleWebServer.Http.RequestRecognition

/-!
# What an accepted request looks like

A request that is read to its end should be one of the grammar, with its path in the target.
The parser goes its own way in four places: a target that does not begin with a byte of a path, a
key that begins with a colon, a line that ends in its key, and a value that begins with the line
end.  This module follows the automaton of the grammar along a run, up to these places.
-/

namespace SimpleWebServer.Http

open SimpleWebServer.Base SimpleWebServer.Lib

/-! ## The path -/

/--
The path lies in the target that starts at `offset`, when the target begins with a plain byte, and
at offset `0` when it does not.
-/
def PathIn (offset : Int) (slice : Slice) : Bytes → Prop
  | [] => slice.1 = 0
  | c :: rest =>
      PlainByte c ∧ slice.1 = offset ∧ 0 ≤ slice.2 ∧ slice.2 ≤ rest.length + 1 ∨
        ¬ PlainByte c ∧ slice.1 = 0

section

variable {offset nowLen : Int} {slice : Slice} {target : Bytes} {c : Byte}

/-- A byte that does not start the path leaves it where it is. -/
theorem PathIn.grow (inTarget : PathIn offset slice target)
    (special : target = [] → ¬ PlainByte c) : PathIn offset slice (target ++ [c]) := by
  cases target with
  | nil => exact .inr ⟨special rfl, inTarget⟩
  | cons d rest =>
      apply inTarget.imp_left
      rintro ⟨plain, start, nonneg, short⟩
      refine ⟨plain, start, nonneg, ?_⟩
      change slice.2 ≤ ((rest ++ [c]).length : Int) + 1
      rw [List.length_append, List.length_singleton]
      omega

/-- The path ends with what has been read of the target. -/
theorem PathIn.ended (inTarget : PathIn offset slice target)
    (length : nowLen = offset + target.length) :
    PathIn offset (slice.1, nowLen - slice.1) target := by
  cases target with
  | nil => exact inTarget
  | cons d rest =>
      apply inTarget.imp_left
      rintro ⟨plain, start, -, -⟩
      rw [List.length_cons] at length
      refine ⟨plain, start, ?_, ?_⟩ <;> simp only <;> omega

end

/-- Where a target starts. -/
def targetOffset (method : HTTPMethod) : Int := (getMethodStr method).length + 1

/-- The path of a parser that has read `consumed`. -/
def HTTPMessageParser.PathRead (consumed : Bytes) (parser : HTTPMessageParser) : Prop :=
  match parser.state with
  | .method _ => parser.pathPos = (0, 0)
  | .url state =>
      ∃ target, SP ∉ target ∧ consumed = getMethodStr parser.method ++ SP :: target ∧
        state.nowIdx = target.length ∧ (target = [] → parser.pathPos = (0, 0)) ∧
        PathIn (targetOffset parser.method) parser.pathPos target
  | _ =>
      ∃ target rest, SP ∉ target ∧
        consumed = getMethodStr parser.method ++ SP :: (target ++ SP :: rest) ∧
        PathIn (targetOffset parser.method) parser.pathPos target

namespace HTTPMessageParser

theorem pathRead_past_iff {consumed : Bytes} {parser : HTTPMessageParser}
    (past : parser.state.PastURL) :
    parser.PathRead consumed ↔ ∃ target rest, SP ∉ target ∧
      consumed = getMethodStr parser.method ++ SP :: (target ++ SP :: rest) ∧
      PathIn (targetOffset parser.method) parser.pathPos target := by
  cases inState : parser.state with
  | method state =>
      rw [inState] at past
      exact past.elim
  | url state =>
      rw [inState] at past
      exact past.elim
  | _ => simp only [PathRead, inState]

section

variable {parser after : HTTPMessageParser} {c : Byte} {consumed : Bytes}
variable (taken : parser.Takes c after) (read : parser.RequestRead consumed)
variable (path : parser.PathRead consumed)
include taken read path

theorem Takes.pathRead_method {state : StateMethod} (inState : parser.state = .method state) :
    after.PathRead (consumed ++ [c]) := by
  have place := read.place
  simp only [InRequest, inState] at place
  obtain ⟨idx, begins⟩ := place
  simp only [PathRead, inState] at path
  obtain ⟨beginPtr, ⟨next, middle⟩, matched, matching, rfl⟩ := taken.method inState
  have move := state.matchStep_move (parser.reading beginPtr c)
  rw [matched] at move
  simp only at move matching ⊢
  cases move with
  | first =>
      rw [enterNext_of_fresh (by exact read.fresh)]
      exact path
  | letter =>
      rw [enterNext_of_fresh (by exact read.fresh)]
      exact path
  | space behind char =>
      obtain rfl : c = SP := char
      have whole := begins.eq_of_length_le (by rw [← idx]; exact behind)
      exact ⟨[], List.not_mem_nil, by rw [whole]; rfl, rfl, fun _ => path, congrArg Prod.fst path⟩
  | mismatchFirst => cases matching
  | mismatch => cases matching

theorem Takes.pathRead_url {state : StateURL} (inState : parser.state = .url state) :
    after.PathRead (consumed ++ [c]) := by
  simp only [PathRead, inState] at path
  obtain ⟨target, noSpace, rfl, idx, start, inTarget⟩ := path
  obtain ⟨beginPtr, next, middle, move, -, rfl⟩ := taken.url inState
  have method : middle.method = parser.method := move.method
  have length : parser.nowLen = targetOffset parser.method + target.length := by
    rw [read.nowLen, targetOffset]
    simp
    ring
  have ended : PathIn (targetOffset parser.method)
      (StateURL.endPath (parser.reading beginPtr c)).pathPos target := by
    rw [endPath_reading]
    exact inTarget.ended length
  have goesOn (parser : HTTPMessageParser) (inState : parser.state = .url next)
      (same : parser.method = middle.method) (noEnd : c ≠ SP)
      (grown : PathIn (targetOffset middle.method) parser.pathPos (target ++ [c])) :
      parser.PathRead (getMethodStr middle.method ++ SP :: target ++ [c]) := by
    simp only [PathRead, inState, same]
    refine ⟨target ++ [c], ?_, by simp, ?_, by simp, grown⟩
    · simp [noSpace, Ne.symm noEnd]
    · rw [move.nowIdx, idx]
      simp
  rw [← method] at ended inTarget length ⊢
  cases move with
  | question char =>
      obtain rfl : c = question := char
      rw [enterNext_of_fresh (by exact read.fresh)]
      exact goesOn _ rfl rfl (by decide) (ended.grow fun _ => by decide)
  | equalSign char =>
      obtain rfl : c = equalSign := char
      rw [enterNext_of_fresh (by exact read.fresh)]
      exact goesOn _ rfl rfl (by decide) (inTarget.grow fun _ => by decide)
  | ampersand char key =>
      obtain rfl : c = ampersand := char
      rw [enterNext_of_fresh (by exact read.fresh)]
      exact goesOn _ rfl rfl (by decide) (inTarget.grow fun _ => by decide)
  | pathEnd char noQuery =>
      obtain rfl : c = SP := char
      exact ⟨target, [], noSpace, by simp, ended⟩
  | queryEnd char query complete key =>
      obtain rfl : c = SP := char
      exact ⟨target, [], noSpace, by simp, inTarget⟩
  | pathStart plain first =>
      have plain : PlainByte c := plain
      rw [enterNext_of_fresh (by exact read.fresh)]
      obtain rfl := List.length_eq_zero_iff.mp (idx.symm.trans first)
      have none : parser.pathPos.2 = 0 := congrArg Prod.snd (start rfl)
      refine goesOn _ rfl rfl plain.1 (.inl ⟨plain, ?_, ?_, ?_⟩)
      · rw [List.length_nil] at length
        change parser.nowLen + 1 - 1 = _
        omega
      · exact none.ge
      · change parser.pathPos.2 ≤ _
        rw [none]
        decide
  | plain plain started =>
      have plain : PlainByte c := plain
      rw [enterNext_of_fresh (by exact read.fresh)]
      refine goesOn _ rfl rfl plain.1 (inTarget.grow fun empty => ?_)
      rw [empty] at idx
      exact absurd idx started

theorem Takes.pathRead_past (past : parser.state.PastURL) : after.PathRead (consumed ++ [c]) := by
  have stays := taken.pastURL read.fresh past
  have same := taken.pathPos read.fresh past
  have kept : after.method = parser.method := by
    have place := read.place
    cases inState : parser.state with
    | version state =>
        obtain ⟨beginPtr, ⟨next, middle⟩, matched, -, rfl⟩ := taken.version inState
        have move := state.matchStep_move (parser.reading beginPtr c)
        rw [matched] at move
        exact (enterNext_method _).trans move.method
    | header state => exact (taken.startKept read.fresh (by rw [inState]; trivial)).1.method
    | body state => exact (taken.startKept read.fresh (by rw [inState]; trivial)).1.method
    | method state =>
        rw [inState] at past
        exact past.elim
    | url state =>
        rw [inState] at past
        exact past.elim
    | code state =>
        rw [InRequest, inState] at place
        exact place.elim
    | detail state =>
        rw [InRequest, inState] at place
        exact place.elim
  obtain ⟨target, rest, noSpace, rfl, inTarget⟩ := (pathRead_past_iff past).mp path
  rw [pathRead_past_iff stays, kept, same]
  exact ⟨target, rest ++ [c], noSpace, by simp, inTarget⟩

theorem Takes.pathRead : after.PathRead (consumed ++ [c]) := by
  cases inState : parser.state with
  | method state => exact taken.pathRead_method read path inState
  | url state => exact taken.pathRead_url read path inState
  | _ => exact taken.pathRead_past read path (by rw [inState]; trivial)

end

end HTTPMessageParser

/-! ## The header along a run -/

/-- Where the grammar is when the header state is here. -/
def StateHeader.phase (state : StateHeader) : LinePhase :=
  match state.nowPart with
  | .key => if state.nowIdx = 0 then .lineStart else .key
  | .split => .value
  | .value => .value
  | .end => if state.isEmptyLine then .emptyEnd else .lineEnd

/-- The state stands where the grammar does. -/
def State.InPhase (phase : LinePhase) : State → Prop
  | .header state =>
      0 ≤ state.nowIdx ∧ (state.isEmptyLine = true → state.nowPart = .end) ∧ state.phase = phase
  | .body state => ∃ count : Nat, state.nowIdx = count ∧ phase = .body count
  | _ => False

/-- The bytes behind the line end of an empty value begin with a line that has a key. -/
def KeyLineAhead (bytes : Bytes) : Prop :=
  ∃ key more, key ≠ [] ∧ (∀ c ∈ key, KeyByte c) ∧ bytes = LF :: (key ++ colon :: more)

/-- A key neither begins with a colon nor ends its line, and a value begins behind its colon. -/
def StateHeader.Clean (state : StateHeader) (c : Byte) (rest : Bytes) : Prop :=
  match state.nowPart with
  | .key => if state.nowIdx = 0 then c ≠ colon else c ≠ CR
  | .split => c = CR → KeyLineAhead rest
  | _ => True

/-- The byte `c`, in front of `rest`, does not lead the parser astray. -/
def CleanByte (parser : HTTPMessageParser) (c : Byte) (rest : Bytes) : Prop :=
  match parser.state with
  | .url state => state.nowIdx = 0 → PlainByte c
  | .header state => state.Clean c rest
  | _ => True

/-- Every byte that is read from `str` on is clean in the state that reads it. -/
def CleanAlong (memory : Memory) (str : Int) (bytes : Bytes) (parser : HTTPMessageParser) : Prop :=
  ∀ before c rest, bytes = before ++ c :: rest → ∀ reached,
    HTTPMessageParser.parserLoop (stringOf memory) memory str before.length parser =
      .ok (true, reached) → CleanByte reached c rest

theorem cleanAlong_nil (memory : Memory) (str : Int) (parser : HTTPMessageParser) :
    CleanAlong memory str [] parser := by
  intro before c rest split
  simp at split

section

variable {memory : Memory} {str : Int} {first second : Bytes} {parser middle : HTTPMessageParser}

/-- The bytes behind the first ones are read where these have led. -/
theorem cleanAlong_append_iff
    (run : HTTPMessageParser.parserLoop (stringOf memory) memory str first.length parser =
      .ok (true, middle)) :
    CleanAlong memory str (first ++ second) parser ↔
      (∀ before c rest, first = before ++ c :: rest → ∀ reached,
        HTTPMessageParser.parserLoop (stringOf memory) memory str before.length parser =
          .ok (true, reached) → CleanByte reached c (rest ++ second)) ∧
        CleanAlong memory (str + first.length) second middle := by
  constructor
  · intro clean
    refine ⟨fun before c rest split reached read => ?_, fun before c rest split reached read => ?_⟩
    · exact clean before c (rest ++ second) (by rw [split]; simp) reached read
    · apply clean (first ++ before) c rest (by rw [split]; simp) reached
      rw [List.length_append, HTTPMessageParser.parserLoop_append before.length run, read]
  · rintro ⟨front, behind⟩ before c rest split reached read
    rcases List.append_eq_append_iff.mp split with ⟨more, rfl, here⟩ | ⟨more, rfl, here⟩
    · rw [List.length_append, HTTPMessageParser.parserLoop_append more.length run] at read
      exact behind more c rest here reached read
    · cases more with
      | nil =>
          rw [List.append_nil] at run behind
          rw [run] at read
          cases read
          exact behind [] c rest here.symm _ rfl
      | cons d more =>
          obtain ⟨rfl, rfl⟩ := List.cons.inj here
          exact front before c more rfl reached read

/-- The first byte is read where the parser stands. -/
theorem cleanAlong_cons_iff {c : Byte} {rest : Bytes} (found : memory str = some c)
    {after : HTTPMessageParser} (taken : parser.matchChar (stringOf memory) c = .ok after)
    (matching : after.isMatch = true) :
    CleanAlong memory str (c :: rest) parser ↔
      CleanByte parser c rest ∧ CleanAlong memory (str + 1) rest after.enterNext := by
  have run : HTTPMessageParser.parserLoop (stringOf memory) memory str [c].length parser =
      .ok (true, after.enterNext) := by
    rw [List.length_singleton, HTTPMessageParser.parserLoop, found]
    simp [taken, matching, HTTPMessageParser.parserLoop]
  have split : CleanAlong memory str ([c] ++ rest) parser ↔ _ := cleanAlong_append_iff run
  rw [List.singleton_append, List.length_singleton, Nat.cast_one] at split
  rw [split]
  refine and_congr_left fun _ => ⟨fun front => front [] c [] rfl parser rfl, ?_⟩
  intro clean before d more here reached read
  obtain ⟨rfl, same⟩ | ⟨-, none⟩ := List.singleton_eq_append_iff.mp here
  · obtain ⟨rfl, rfl⟩ := List.cons.inj same
    cases read
    exact clean
  · cases none

end

/-! ## Counting the body -/

/-- A parser that has read `consumed` since it stood in the header. -/
structure BodyCounted (consumed : Bytes) (parser : HTTPMessageParser) : Prop where
  fresh : parser.nextState = none
  inTail : parser.state.InTail
  range : ∀ state, parser.state = .body state →
    0 ≤ state.nowIdx ∧ state.nowIdx < consumed.length

theorem HTTPMessageParser.Takes.bodyCounted {parser after : HTTPMessageParser} {c : Byte}
    {consumed : Bytes} (taken : parser.Takes c after) (counted : BodyCounted consumed parser) :
    BodyCounted (consumed ++ [c]) after where
  fresh := taken.nextState
  inTail := (taken.startKept counted.fresh counted.inTail).2
  range := by
    intro body inBody
    rw [List.length_append, List.length_singleton]
    have inTail := counted.inTail
    cases inState : parser.state with
    | header state =>
        obtain ⟨beginPtr, next, middle, move, -, rfl⟩ := taken.header inState
        rcases move.nextState with stays | ⟨ends, -⟩
        · rw [enterNext_of_fresh (by exact stays.trans counted.fresh)] at inBody
          cases inBody
        · simp only [enterNext, ends] at inBody
          cases inBody
          exact ⟨le_rfl, by simp only; omega⟩
    | body state =>
        have range := counted.range state inState
        obtain ⟨beginPtr, middle, rfl, -, rfl⟩ := taken.body inState
        have stays : (state.matchStep (parser.reading beginPtr c)).2.nextState = none :=
          (state.matchStep_nextState _).trans counted.fresh
        rw [enterNext_of_fresh (by exact stays)] at inBody
        cases inBody
        change 0 ≤ state.nowIdx + 1 ∧ state.nowIdx + 1 < _
        omega
    | _ =>
        rw [inState] at inTail
        exact inTail.elim

/-- The body is shorter than what is read from a place in the header on. -/
theorem CharRun.body_range {first last : HTTPMessageParser} {bytes : Bytes}
    (run : CharRun first bytes last) (fresh : first.nextState = none) {header : StateHeader}
    (inHeader : first.state = .header header) {body : StateBody}
    (inBody : last.state = .body body) : 0 ≤ body.nowIdx ∧ body.nowIdx < bytes.length := by
  have start : BodyCounted [] first := by
    refine ⟨fresh, by rw [inHeader]; trivial, fun state inBody => ?_⟩
    rw [inHeader] at inBody
    cases inBody
  have counted := run.invariant BodyCounted
    (fun _ _ _ _ counted taken => taken.bodyCounted counted) [] start
  exact counted.range body inBody

/-! ## Following the grammar -/

/-- A key and its colon are still to come before the value that the parser is in. -/
def KeyAhead : LinePhase → Bytes → Prop
  | .lineEnd, bytes => KeyLineAhead bytes
  | .lineStart, bytes =>
      ∃ key more, key ≠ [] ∧ (∀ c ∈ key, KeyByte c) ∧ bytes = key ++ colon :: more
  | .key, bytes => ∃ key more, (∀ c ∈ key, KeyByte c) ∧ bytes = key ++ colon :: more
  | .value, _ => True
  | _, _ => False

theorem keyAhead_cons_iff {phase : LinePhase} {c : Byte} {rest : Bytes}
    (before : phase ≠ .value) :
    KeyAhead phase (c :: rest) ↔ ∃ next, phase.step c = some next ∧ KeyAhead next rest := by
  cases phase with
  | lineStart =>
      constructor
      · rintro ⟨key, more, filled, isKey, same⟩
        obtain ⟨d, key, rfl⟩ := List.exists_cons_of_ne_nil filled
        obtain ⟨rfl, rfl⟩ := List.cons.inj same
        have keyByte := isKey c List.mem_cons_self
        exact ⟨.key, by simp [LinePhase.step, keyByte.1, keyByte.2], key, more,
          fun d member => isKey d (List.mem_cons_of_mem c member), rfl⟩
      · rintro ⟨next, taken, ahead⟩
        simp only [LinePhase.step] at taken
        split_ifs at taken with isEnd isColon <;> cases taken
        · exact ahead.elim
        · obtain ⟨key, more, isKey, rfl⟩ := ahead
          exact ⟨c :: key, more, List.cons_ne_nil c key, by simpa using ⟨⟨isColon, isEnd⟩, isKey⟩,
            rfl⟩
  | key =>
      constructor
      · rintro ⟨key, more, isKey, same⟩
        cases key with
        | nil =>
            obtain ⟨rfl, rfl⟩ := List.cons.inj same
            exact ⟨.value, by simp [LinePhase.step], trivial⟩
        | cons d key =>
            obtain ⟨rfl, rfl⟩ := List.cons.inj same
            have keyByte := isKey c List.mem_cons_self
            exact ⟨.key, by simp [LinePhase.step, keyByte.1, keyByte.2], key, more,
              fun d member => isKey d (List.mem_cons_of_mem c member), rfl⟩
      · rintro ⟨next, taken, ahead⟩
        simp only [LinePhase.step] at taken
        split_ifs at taken with isColon isEnd <;> cases taken
        · exact ⟨[], rest, by simp, by rw [isColon]; rfl⟩
        · obtain ⟨key, more, isKey, rfl⟩ := ahead
          exact ⟨c :: key, more, by simpa using ⟨⟨isColon, isEnd⟩, isKey⟩, rfl⟩
  | value => exact absurd rfl before
  | lineEnd =>
      constructor
      · rintro ⟨key, more, filled, isKey, same⟩
        obtain ⟨rfl, rfl⟩ := List.cons.inj same
        exact ⟨.lineStart, by simp [LinePhase.step], key, more, filled, isKey, rfl⟩
      · rintro ⟨next, taken, ahead⟩
        simp only [LinePhase.step] at taken
        split_ifs at taken with isEnd
        cases taken
        obtain ⟨key, more, filled, isKey, rfl⟩ := ahead
        exact ⟨key, more, filled, isKey, by rw [isEnd]⟩
  | emptyEnd =>
      refine ⟨False.elim, ?_⟩
      rintro ⟨next, taken, ahead⟩
      simp only [LinePhase.step] at taken
      split_ifs at taken
      cases taken
      exact ahead
  | body count =>
      refine ⟨False.elim, ?_⟩
      rintro ⟨next, taken, ahead⟩
      cases taken
      exact ahead

namespace HTTPMessageParser

/-- A loop that answers `true` begins with a byte that matches. -/
theorem parserLoop_uncons {string : StringCtor} {memory : Memory} {str : Int} {c : Byte}
    {rest : Bytes} (found : memory str = some c) {parser last : HTTPMessageParser}
    (run : parserLoop string memory str (c :: rest).length parser = .ok (true, last)) :
    ∃ after, parser.matchChar string c = .ok after ∧ after.isMatch = true ∧
      parserLoop string memory (str + 1) rest.length after.enterNext = .ok (true, last) := by
  rw [List.length_cons, parserLoop, found] at run
  simp only at run
  cases taken : parser.matchChar string c with
  | error fault => simp [taken] at run
  | ok after =>
      simp only [taken] at run
      split_ifs at run with stopped
      · cases run
      · exact ⟨after, rfl, by simpa using stopped, run⟩

end HTTPMessageParser

/-- Off the start of a value, a byte is clean exactly when the grammar can read it. -/
theorem HeaderMove.inPhase {state next : StateHeader} {context after : HTTPMessageParser}
    (move : HeaderMove state context next after) (nonneg : 0 ≤ state.nowIdx)
    (empty : state.isEmptyLine = true → state.nowPart = .end) (matching : after.isMatch = true)
    (elsewhere : state.nowPart = .split → context.nowChar ≠ CR) (rest : Bytes) :
    (state.Clean context.nowChar rest ∧
        ((after.nextState = context.nextState ∧ 0 ≤ next.nowIdx ∧
            (next.isEmptyLine = true → next.nowPart = .end) ∧
            state.phase.step context.nowChar = some next.phase) ∨
          (after.nextState = some (.body {}) ∧
            state.phase.step context.nowChar = some (.body 0)))) ∨
      state.phase.step context.nowChar = none ∧ ¬ state.Clean context.nowChar rest := by
  cases move with
  | lineWithoutColon part char =>
      by_cases start : state.nowIdx = 0
      · refine .inl ⟨?_, .inl ⟨rfl, by simp [start], fun _ => rfl, ?_⟩⟩
        · rw [StateHeader.Clean, part, char]
          simp [start, CR, colon]
        · simp [StateHeader.phase, part, start, char, LinePhase.step]
      · refine .inr ⟨?_, ?_⟩
        · simp [StateHeader.phase, part, start, char, LinePhase.step, CR, colon]
        · simp [StateHeader.Clean, part, start, char]
  | keyStart part char start =>
      by_cases isColon : context.nowChar = colon
      · refine .inr ⟨?_, ?_⟩
        · simp [StateHeader.phase, part, start, isColon, LinePhase.step, CR, colon]
        · simp [StateHeader.Clean, part, start, isColon]
      · refine .inl ⟨?_, .inl ⟨rfl, by simp [start], fun line => ?_, ?_⟩⟩
        · simp [StateHeader.Clean, part, start, isColon]
        · cases part.symm.trans (empty line)
        · simp [StateHeader.phase, part, start, char, isColon, LinePhase.step]
  | keyEnd part started char =>
      refine .inl ⟨?_, .inl ⟨rfl, by simp only; omega, fun line => ?_, ?_⟩⟩
      · simp [StateHeader.Clean, part, started, char, CR, colon]
      · cases part.symm.trans (empty line)
      · simp [StateHeader.phase, part, started, char, LinePhase.step]
  | keyByte part started char =>
      refine .inl ⟨?_, .inl ⟨rfl, by simp only; omega, fun line => ?_, ?_⟩⟩
      · simp [StateHeader.Clean, part, started, char.1]
      · cases part.symm.trans (empty line)
      · have counted : state.nowIdx + 1 ≠ 0 := by omega
        simp [StateHeader.phase, part, started, counted, char.1, char.2, LinePhase.step]
  | space part char =>
      refine .inl ⟨?_, .inl ⟨rfl, by simp only; omega, fun line => ?_, ?_⟩⟩
      · simp [StateHeader.Clean, part, char, SP, CR]
      · cases part.symm.trans (empty line)
      · simp [StateHeader.phase, part, char, LinePhase.step, SP, CR]
  | valueStart part char =>
      have noEnd := elsewhere part
      refine .inl ⟨?_, .inl ⟨rfl, by simp only; omega, fun line => ?_, ?_⟩⟩
      · simp [StateHeader.Clean, part, noEnd]
      · cases part.symm.trans (empty line)
      · simp [StateHeader.phase, part, noEnd, LinePhase.step]
  | valueByte part char =>
      refine .inl ⟨?_, .inl ⟨rfl, by simp only; omega, fun line => ?_, ?_⟩⟩
      · simp [StateHeader.Clean, part]
      · cases part.symm.trans (empty line)
      · simp [StateHeader.phase, part, char, LinePhase.step]
  | record part char key totalLen =>
      have line : state.isEmptyLine = false := by
        by_contra line
        cases part.symm.trans (empty (by simpa using line))
      refine .inl ⟨?_, .inl ⟨rfl, by simp only; omega, fun _ => rfl, ?_⟩⟩
      · simp [StateHeader.Clean, part]
      · simp [StateHeader.phase, part, char, line, LinePhase.step]
  | headerEnd part char line =>
      refine .inl ⟨?_, .inr ⟨rfl, ?_⟩⟩
      · simp [StateHeader.Clean, part]
      · simp [StateHeader.phase, part, char, line, LinePhase.step]
  | lineEnd part char line =>
      refine .inl ⟨?_, .inl ⟨rfl, le_rfl, fun other => ?_, ?_⟩⟩
      · simp [StateHeader.Clean, part]
      · cases line.symm.trans other
      · simp [StateHeader.phase, part, char, line, LinePhase.step]
  | mismatch => cases matching

namespace HTTPMessageParser

/-- The same for a whole step. -/
theorem Takes.inPhase {parser after : HTTPMessageParser} {c : Byte} (taken : parser.Takes c after)
    (fresh : parser.nextState = none) {phase : LinePhase} (inPhase : parser.state.InPhase phase)
    (elsewhere : ∀ state, parser.state = .header state → state.nowPart = .split → c ≠ CR)
    (rest : Bytes) :
    (∃ next, phase.step c = some next ∧ after.state.InPhase next ∧ CleanByte parser c rest) ∨
      phase.step c = none ∧ ¬ CleanByte parser c rest := by
  cases inState : parser.state with
  | header state =>
      rw [inState] at inPhase
      obtain ⟨nonneg, empty, rfl⟩ := inPhase
      obtain ⟨beginPtr, next, middle, move, matching, rfl⟩ := taken.header inState
      have clean : CleanByte parser c rest ↔ state.Clean c rest := by rw [CleanByte, inState]
      rw [clean]
      apply (move.inPhase nonneg empty matching (elsewhere state inState) rest).imp_left
      rintro ⟨clean, ⟨stays, nonneg, empty, taken⟩ | ⟨ends, taken⟩⟩
      · rw [enterNext_of_fresh (by exact stays.trans fresh)]
        exact ⟨next.phase, taken, ⟨nonneg, empty, rfl⟩, clean⟩
      · simp only [enterNext, ends]
        exact ⟨.body 0, taken, ⟨0, rfl, rfl⟩, clean⟩
  | body state =>
      rw [inState] at inPhase
      obtain ⟨count, counted, rfl⟩ := inPhase
      obtain ⟨beginPtr, middle, rfl, -, rfl⟩ := taken.body inState
      have stays : (state.matchStep (parser.reading beginPtr c)).2.nextState = none :=
        (state.matchStep_nextState _).trans fresh
      rw [enterNext_of_fresh (by exact stays)]
      refine .inl ⟨.body (count + 1), rfl, ⟨count + 1, ?_, rfl⟩, ?_⟩
      · change state.nowIdx + 1 = _
        rw [counted]
        rfl
      · simp [CleanByte, inState]
  | _ =>
      rw [inState] at inPhase
      exact inPhase.elim

end HTTPMessageParser

/-- The state reads a value. -/
structure StateHeader.InValue (state : StateHeader) : Prop where
  part : state.nowPart = .value
  nonneg : 0 ≤ state.nowIdx
  line : state.isEmptyLine = false

theorem StateHeader.InValue.inPhase {state : StateHeader} (inValue : state.InValue) :
    (State.header state).InPhase .value := by
  refine ⟨inValue.nonneg, fun line => ?_, ?_⟩
  · cases inValue.line.symm.trans line
  · rw [StateHeader.phase, inValue.part]

section

variable {parser after : HTTPMessageParser} {c : Byte} (taken : parser.Takes c after)
variable (fresh : parser.nextState = none) {state : StateHeader}
variable (inState : parser.state = .header state)
include taken fresh inState

/-- A value goes on up to the next carriage return. -/
theorem HTTPMessageParser.Takes.inValue (inValue : state.InValue) :
    ∃ next, after.state = .header next ∧
      (c ≠ CR ∧ next.InValue ∨ c = CR ∧ next.nowPart = .end ∧ next.isEmptyLine = false) := by
  obtain ⟨beginPtr, next, middle, move, -, rfl⟩ := taken.header inState
  obtain ⟨part, nonneg, line⟩ := inValue
  cases move with
  | valueByte _ char =>
      rw [enterNext_of_fresh (by exact fresh)]
      exact ⟨_, rfl, .inl ⟨char, rfl, by simp only; omega, line⟩⟩
  | record _ char =>
      rw [enterNext_of_fresh (by exact fresh)]
      exact ⟨_, rfl, .inr ⟨char, rfl, line⟩⟩
  | lineWithoutColon other
  | keyStart other
  | keyEnd other
  | keyByte other
  | space other
  | valueStart other
  | headerEnd other
  | lineEnd other
  | mismatch other => cases part.symm.trans other

/-- A carriage return where the value should start becomes its first byte. -/
theorem HTTPMessageParser.Takes.valueStart (part : state.nowPart = .split)
    (nonneg : 0 ≤ state.nowIdx) (empty : state.isEmptyLine = true → state.nowPart = .end)
    (noSpace : c ≠ SP) : ∃ next, after.state = .header next ∧ next.InValue := by
  obtain ⟨beginPtr, next, middle, move, -, rfl⟩ := taken.header inState
  obtain ⟨rfl, rfl⟩ := move.of_split part noSpace
  rw [enterNext_of_fresh (by exact fresh)]
  refine ⟨_, rfl, rfl, by simp only; omega, ?_⟩
  by_contra line
  cases part.symm.trans (empty (by simpa using line))

/-- The line feed behind a field does not end the header. -/
theorem HTTPMessageParser.Takes.lineEnd (part : state.nowPart = .end)
    (line : state.isEmptyLine = false) : ∃ next, after.state = .header next := by
  obtain ⟨beginPtr, next, middle, move, matching, rfl⟩ := taken.header inState
  cases move with
  | headerEnd _ _ other => cases line.symm.trans other
  | lineEnd =>
      rw [enterNext_of_fresh (by exact fresh)]
      exact ⟨_, rfl⟩
  | mismatch => cases matching
  | lineWithoutColon other
  | keyStart other
  | keyEnd other
  | keyByte other
  | space other
  | valueStart other
  | valueByte other
  | record other => cases part.symm.trans other

end

/-- In front of its value a line goes on to its key. -/
theorem step_early {phase later : LinePhase}
    (early : phase ∈ [LinePhase.lineEnd, .lineStart, .key]) {c : Byte} (inside : c ≠ CR)
    (step : phase.step c = some later) (noValue : later ≠ .value) :
    later ∈ [LinePhase.lineEnd, .lineStart, .key] := by
  simp only [List.mem_cons, List.not_mem_nil, or_false] at early ⊢
  rcases early with rfl | rfl | rfl <;> simp only [LinePhase.step] at step <;>
    split_ifs at step <;> cases step <;> simp_all

/-- A carriage return in front of the value can only begin the empty line. -/
theorem step_early_end {phase : LinePhase}
    (early : phase ∈ [LinePhase.lineEnd, .lineStart, .key]) :
    phase.step CR = none ∨ phase.step CR = some .emptyEnd := by
  simp only [List.mem_cons, List.not_mem_nil, or_false] at early
  rcases early with rfl | rfl | rfl
  · exact .inl rfl
  · exact .inr rfl
  · exact .inl rfl

section

variable {memory : Memory} {last : HTTPMessageParser} {body : StateBody}
variable (inBody : last.state = .body body) {count : Nat} (counted : body.nowIdx = count)
include inBody counted

/-- Behind a value that the grammar has left, the grammar counts more of the body. -/
theorem not_runFrom_emptyEnd {parser : HTTPMessageParser} (fresh : parser.nextState = none)
    {state : StateHeader} (inState : parser.state = .header state) (part : state.nowPart = .end)
    (line : state.isEmptyLine = false) {bytes : Bytes} (run : CharRun parser bytes last) :
    Runs.runFrom LinePhase.step .emptyEnd bytes ≠ some (.body count) := by
  rw [ne_eq, LinePhase.runFrom_iff_follows]
  rintro ⟨rest, rfl, length⟩
  obtain ⟨after, taken, tail⟩ := run.uncons
  obtain ⟨next, inHeader⟩ := taken.lineEnd fresh inState part line
  have range := tail.body_range taken.nextState inHeader inBody
  omega

/--
From a place in the tail on, the grammar accepts the bytes exactly when all of them are clean.
In a value that began with the line end, a key and a colon must come first.
-/
theorem runFrom_iff_cleanAlong {bytes : Bytes} {str : Int} (holds : memory.Holds str bytes)
    {parser : HTTPMessageParser} (fresh : parser.nextState = none)
    (run : HTTPMessageParser.parserLoop (stringOf memory) memory str bytes.length parser =
      .ok (true, last)) :
    (∀ phase, parser.state.InPhase phase →
        (Runs.runFrom LinePhase.step phase bytes = some (.body count) ↔
          CleanAlong memory str bytes parser)) ∧
      ∀ state phase, parser.state = .header state → state.InValue →
        phase ∈ [LinePhase.lineEnd, .lineStart, .key] →
          (Runs.runFrom LinePhase.step phase bytes = some (.body count) ↔
            KeyAhead phase bytes ∧ CleanAlong memory str bytes parser) := by
  induction bytes generalizing str parser with
  | nil =>
      cases run
      refine ⟨fun phase inPhase => ?_, fun state phase inState => ?_⟩
      · rw [inBody] at inPhase
        obtain ⟨other, same, rfl⟩ := inPhase
        obtain rfl : other = count := by omega
        exact iff_of_true rfl (cleanAlong_nil memory str _)
      · cases inState.symm.trans inBody
  | cons c rest ih =>
      obtain ⟨found, behind⟩ := (Memory.holds_cons_iff _ _ _ _).mp holds
      obtain ⟨after, stepped, matching, tail⟩ := HTTPMessageParser.parserLoop_uncons found run
      have taken : parser.Takes c after.enterNext :=
        ⟨_, parser.beginPtr, after, stepped, matching, rfl⟩
      obtain ⟨normal, swallowing⟩ := ih behind taken.nextState tail
      rw [cleanAlong_cons_iff found stepped matching]
      refine ⟨fun phase inPhase => ?_, fun state phase inState inValue early => ?_⟩
      · by_cases swallow : ∃ state, parser.state = .header state ∧ state.nowPart = .split ∧ c = CR
        · obtain ⟨state, inState, part, rfl⟩ := swallow
          rw [inState] at inPhase
          obtain ⟨nonneg, empty, rfl⟩ := inPhase
          obtain ⟨next, inHeader, inValue⟩ :=
            taken.valueStart fresh inState part nonneg empty (by decide)
          have step : state.phase.step CR = some .lineEnd := by
            simp [StateHeader.phase, part, LinePhase.step]
          have clean : CleanByte parser CR rest ↔ KeyLineAhead rest := by
            simp [CleanByte, inState, StateHeader.Clean, part]
          rw [Runs.runFrom_next step, clean]
          exact swallowing next .lineEnd inHeader inValue (by simp)
        · have elsewhere (state : StateHeader) (inState : parser.state = .header state)
              (part : state.nowPart = .split) : c ≠ CR :=
            fun char => swallow ⟨state, inState, part, char⟩
          rcases taken.inPhase fresh inPhase elsewhere rest with ⟨next, step, inNext, clean⟩ |
            ⟨stuck, dirty⟩
          · rw [Runs.runFrom_next step, normal next inNext]
            exact (and_iff_right clean).symm
          · rw [Runs.runFrom_cons, stuck]
            exact iff_of_false (by simp) fun clean => dirty clean.1
      · have clean : CleanByte parser c rest := by
          simp [CleanByte, inState, StateHeader.Clean, inValue.part]
        have before : phase ≠ .value := by
          rintro rfl
          simp at early
        rw [and_iff_right clean, keyAhead_cons_iff before, Runs.runFrom_cons]
        obtain ⟨next, inNext, ⟨inside, stays⟩ | ⟨rfl, part, line⟩⟩ :=
          taken.inValue fresh inState inValue
        · cases step : phase.step c with
          | none => simp
          | some later =>
              simp only [Option.bind_some, Option.some.injEq, exists_eq_left']
              by_cases value : later = .value
              · subst value
                rw [normal .value (by rw [inNext]; exact stays.inPhase)]
                simp [KeyAhead]
              · exact swallowing next later inNext stays (step_early early inside step value)
        · have charRun := charRun_of_parserLoop behind tail
          have refused :=
            not_runFrom_emptyEnd inBody counted taken.nextState inNext part line charRun
          rcases step_early_end early with stuck | ends
          · simp [stuck]
          · simp [ends, refused, KeyAhead]

end

/-! ## Accepted requests -/

/--
The bytes are a request of the grammar with the body that the parser has counted, and the path is
a slice of the target.
-/
def WellFormed (bytes : Bytes) (parser : HTTPMessageParser) : Prop :=
  ∃ method target known text header body,
    target ≠ [] ∧ SP ∉ target ∧ getVersionStr known = .ok text ∧ IsHeader header ∧
      bytes = getMethodStr method ++ SP :: (target ++ SP :: (text ++ CRLF)) ++ (header ++ body) ∧
      (body.length : Int) = parser.totalLen ∧
      targetOffset method ≤ parser.pathPos.1 ∧ 0 ≤ parser.pathPos.2 ∧
      parser.pathPos.1 + parser.pathPos.2 ≤ targetOffset method + target.length

/-- The bytes begin with one request line only. -/
theorem IsRequestLine.eq_of_append_eq {method other : HTTPMethod}
    {version otherVersion : HTTPVersion} {line otherLine rest otherRest : Bytes}
    (isLine : IsRequestLine method version line)
    (isOther : IsRequestLine other otherVersion otherLine)
    (same : line ++ rest = otherLine ++ otherRest) : line = otherLine ∧ rest = otherRest := by
  rcases List.append_eq_append_iff.mp same with ⟨more, rfl, rfl⟩ | ⟨more, rfl, rfl⟩
  · obtain ⟨-, -, rfl⟩ := isLine.eq_of_append isOther
    simp
  · obtain ⟨-, -, rfl⟩ := isOther.eq_of_append isLine
    simp

/-- A loop that answers `true` over two pieces does so over the first. -/
theorem HTTPMessageParser.parserLoop_split {string : StringCtor} {memory : Memory} {str : Int}
    {first second : Bytes} (holds : memory.Holds str first) {parser last : HTTPMessageParser}
    (run : parserLoop string memory str (first ++ second).length parser = .ok (true, last)) :
    ∃ middle, parserLoop string memory str first.length parser = .ok (true, middle) ∧
      parserLoop string memory (str + first.length) second.length middle = .ok (true, last) := by
  induction first generalizing str parser with
  | nil => exact ⟨parser, rfl, by simpa using run⟩
  | cons c rest ih =>
      obtain ⟨found, behind⟩ := (Memory.holds_cons_iff _ _ _ _).mp holds
      obtain ⟨after, taken, matching, tail⟩ := parserLoop_uncons found run
      obtain ⟨middle, head, tail⟩ := ih behind tail
      refine ⟨middle, ?_, ?_⟩
      · rw [List.length_cons, parserLoop, found]
        simpa [taken, matching] using head
      · rw [List.length_cons, Nat.cast_succ]
        rwa [Int.add_assoc, Int.add_comm 1] at tail

/-- The target begins with a byte of a path. -/
def StartsPath (target : Bytes) : Prop := ∃ c more, target = c :: more ∧ PlainByte c

theorem pathIn_startsPath_iff {offset : Int} (positive : 0 < offset) {slice : Slice}
    {target : Bytes} (inTarget : PathIn offset slice target) :
    StartsPath target ↔
      target ≠ [] ∧ offset ≤ slice.1 ∧ 0 ≤ slice.2 ∧
        slice.1 + slice.2 ≤ offset + target.length := by
  constructor
  · rintro ⟨c, more, rfl, plain⟩
    obtain ⟨-, start, nonneg, short⟩ := inTarget.resolve_right fun other => other.1 plain
    rw [List.length_cons]
    exact ⟨List.cons_ne_nil c more, start.ge, nonneg, by omega⟩
  · rintro ⟨filled, start, -, -⟩
    obtain ⟨c, more, rfl⟩ := List.exists_cons_of_ne_nil filled
    rcases inTarget with ⟨plain, -⟩ | ⟨-, zero⟩
    · exact ⟨c, more, rfl, plain⟩
    · omega

theorem targetOffset_pos (method : HTTPMethod) : 0 < targetOffset method := by
  rw [targetOffset]
  omega

/-- What the bytes must be, when the request line and the length of the body are known. -/
theorem wellFormed_iff_tail {last : HTTPMessageParser} {target text rest : Bytes}
    {known : HTTPVersion} (noSpace : SP ∉ target) (isText : getVersionStr known = .ok text)
    (path : PathIn (targetOffset last.method) last.pathPos target) {count : Nat}
    (total : last.totalLen = count) :
    WellFormed
        (getMethodStr last.method ++ SP :: (target ++ SP :: (text ++ CRLF)) ++ rest) last ↔
      StartsPath target ∧ IsMessageTail count rest := by
  rw [pathIn_startsPath_iff (targetOffset_pos last.method) path]
  constructor
  · rintro ⟨method, other, otherKnown, otherText, header, body, filled, otherSpace, isOther,
      isHeader, same, length, slice⟩
    have isLine : IsRequestLine last.method known _ := ⟨target, text, noSpace, isText, rfl⟩
    obtain ⟨sameLine, rfl⟩ :=
      isLine.eq_of_append_eq ⟨other, otherText, otherSpace, isOther, rfl⟩ same
    obtain rfl := method_eq_of_append sameLine
    obtain ⟨-, sameTarget⟩ :=
      append_cons_inj (space_notMem_method _) (space_notMem_method _) sameLine
    obtain ⟨rfl, -⟩ := append_cons_inj noSpace otherSpace sameTarget
    exact ⟨⟨filled, slice⟩, header, body, isHeader, rfl, by omega⟩
  · rintro ⟨⟨filled, slice⟩, header, body, isHeader, rfl, length⟩
    exact ⟨last.method, target, known, text, header, body, filled, noSpace, isText, isHeader, rfl,
      by rw [length, total], slice⟩

/-- What holds between two bytes of a request. -/
structure LineRead (consumed : Bytes) (parser : HTTPMessageParser) : Prop where
  read : parser.RequestRead consumed
  path : parser.PathRead consumed

theorem lineRead_of_parserLoop {version : HTTPVersion} {code : Int} {memory : Memory} {str : Int}
    {bytes : Bytes} (holds : memory.Holds str bytes) {last : HTTPMessageParser}
    (run : HTTPMessageParser.parserLoop (stringOf memory) memory str bytes.length
      ((HTTPMessageParser.new true version code).rebase str) = .ok (true, last)) :
    LineRead bytes last :=
  (charRun_of_parserLoop holds run).invariant LineRead
    (fun _ _ _ _ before taken =>
      ⟨taken.requestRead before.read, taken.pathRead before.read before.path⟩)
    [] ⟨(HTTPMessageParser.new_requestRead version code).moved str, rfl⟩

section

variable {parser : HTTPMessageParser} {method : HTTPMethod} {target rest consumed : Bytes}

/-- Right behind the space of the method the parser expects the first byte of the target. -/
theorem LineRead.url_of_method (lineRead : LineRead (getMethodStr method ++ [SP]) parser) :
    ∃ state, parser.state = .url state ∧ state.nowIdx = 0 := by
  obtain ⟨read, path⟩ := lineRead
  by_cases past : parser.state.PastURL
  · obtain ⟨other, more, -, same, -⟩ := (HTTPMessageParser.pathRead_past_iff past).mp path
    obtain ⟨-, none⟩ := append_cons_inj (space_notMem_method _) (space_notMem_method _) same
    simp at none
  cases inState : parser.state with
  | method state =>
      have place := read.place
      simp only [HTTPMessageParser.InRequest, inState] at place
      have space : SP ∈ getMethodStr parser.method := place.2.subset (by simp)
      exact absurd space (space_notMem_method _)
  | url state =>
      simp only [HTTPMessageParser.PathRead, inState] at path
      obtain ⟨other, -, same, idx, -⟩ := path
      obtain ⟨-, rfl⟩ := append_cons_inj (space_notMem_method _) (space_notMem_method _) same
      exact ⟨state, rfl, idx⟩
  | _ =>
      rw [inState] at past
      exact absurd trivial past

/-- Before the header only the first byte of the target can be unclean. -/
theorem LineRead.cleanByte {known : HTTPVersion} {c : Byte} {more : Bytes}
    (lineRead : LineRead consumed parser)
    (isLine : IsRequestLine method known (consumed ++ c :: more))
    (first : ∀ state, parser.state = .url state → state.nowIdx = 0 → PlainByte c) :
    CleanByte parser c (more ++ rest) := by
  cases inState : parser.state with
  | url state => simpa only [CleanByte, inState] using first state inState
  | header state =>
      exact absurd isLine (lineRead.read.not_line_of_tail (by rw [inState]; trivial))
  | _ => simp [CleanByte, inState]

end

/-- The bytes of a request line are clean exactly when the first one of the target is. -/
theorem lineClean_iff {version known : HTTPVersion} {code : Int} {memory : Memory} {str : Int}
    {method : HTTPMethod} {target text : Bytes} (rest : Bytes) (noSpace : SP ∉ target)
    (isText : getVersionStr known = .ok text)
    (holds : memory.Holds str (getMethodStr method ++ SP :: (target ++ SP :: (text ++ CRLF))))
    {middle : HTTPMessageParser}
    (run : HTTPMessageParser.parserLoop (stringOf memory) memory str
      (getMethodStr method ++ SP :: (target ++ SP :: (text ++ CRLF))).length
      ((HTTPMessageParser.new true version code).rebase str) = .ok (true, middle)) :
    (∀ before c more,
        getMethodStr method ++ SP :: (target ++ SP :: (text ++ CRLF)) = before ++ c :: more →
        ∀ reached, HTTPMessageParser.parserLoop (stringOf memory) memory str before.length
          ((HTTPMessageParser.new true version code).rebase str) = .ok (true, reached) →
            CleanByte reached c (more ++ rest)) ↔ StartsPath target := by
  constructor
  · intro clean
    obtain ⟨c, more, split⟩ :=
      List.exists_cons_of_ne_nil (List.append_ne_nil_of_right_ne_nil target
        (List.cons_ne_nil SP (text ++ CRLF)))
    have whole : getMethodStr method ++ SP :: (target ++ SP :: (text ++ CRLF)) =
        (getMethodStr method ++ [SP]) ++ c :: more := by
      rw [split]
      simp
    rw [whole] at holds run
    have front := ((Memory.holds_append_iff _ _ _ _).mp holds).1
    obtain ⟨reached, head, -⟩ := HTTPMessageParser.parserLoop_split front run
    obtain ⟨state, inState, start⟩ := (lineRead_of_parserLoop front head).url_of_method
    have plain : PlainByte c := by
      have cleanByte := clean _ c more whole reached head
      rw [CleanByte, inState] at cleanByte
      exact cleanByte start
    cases target with
    | nil =>
        obtain ⟨rfl, -⟩ := List.cons.inj split
        exact absurd rfl plain.1
    | cons d target =>
        obtain ⟨rfl, -⟩ := List.cons.inj split
        exact ⟨d, target, rfl, plain⟩
  · rintro ⟨d, target, rfl, plain⟩ before c more split reached head
    have isLine : IsRequestLine method known (before ++ c :: more) :=
      ⟨d :: target, text, noSpace, isText, split.symm⟩
    rw [split, Memory.holds_append_iff] at holds
    have lineRead := lineRead_of_parserLoop holds.1 head
    apply lineRead.cleanByte isLine
    intro state inState start
    have path := lineRead.path
    simp only [HTTPMessageParser.PathRead, inState] at path
    obtain ⟨other, -, rfl, idx, -⟩ := path
    obtain rfl := List.length_eq_zero_iff.mp (by omega : other.length = 0)
    rw [List.append_assoc, List.singleton_append] at split
    obtain ⟨-, same⟩ := append_cons_inj (space_notMem_method _) (space_notMem_method _) split
    obtain ⟨rfl, -⟩ := List.cons.inj same
    exact plain

/-! ## The result -/

/--
A request that is read to its end is one of the grammar exactly when each of its bytes is clean in
the state that reads it.
-/
theorem wellFormed_iff {version : HTTPVersion} {code : Int} {memory : Memory} {str : Int}
    {bytes : Bytes} (holds : memory.Holds str bytes) {last : HTTPMessageParser}
    (run : (HTTPMessageParser.new true version code).parserMessage memory str bytes.length =
      .ok (true, last)) (completed : last.isCompleted = true) :
    WellFormed bytes last ↔
      CleanAlong memory str bytes ((HTTPMessageParser.new true version code).rebase str) := by
  rw [HTTPMessageParser.new_parserMessage] at run
  obtain ⟨body, inBody, whole⟩ := last.isCompleted_iff.mp completed
  obtain ⟨read, path⟩ := lineRead_of_parserLoop holds run
  have place := read.place
  simp only [HTTPMessageParser.InRequest, inBody] at place
  obtain ⟨line, rest, isLine, rfl, -⟩ := place
  simp only [HTTPMessageParser.PathRead, inBody] at path
  obtain ⟨other, more, otherSpace, sameTarget, inTarget⟩ := path
  obtain ⟨target, text, noSpace, isText, rfl⟩ := isLine
  rw [List.append_assoc, List.cons_append, List.append_assoc, List.cons_append] at sameTarget
  obtain ⟨-, sameTarget⟩ :=
    append_cons_inj (space_notMem_method _) (space_notMem_method _) sameTarget
  obtain ⟨rfl, -⟩ := append_cons_inj noSpace otherSpace sameTarget
  obtain ⟨front, behind⟩ := (Memory.holds_append_iff _ _ _ _).mp holds
  obtain ⟨middle, head, tail⟩ := HTTPMessageParser.parserLoop_split front run
  have middleRead := (lineRead_of_parserLoop front head).read
  have inHeader := (middleRead.header_of_line ⟨target, text, noSpace, isText, rfl⟩).1
  have range := (charRun_of_parserLoop behind tail).body_range middleRead.fresh inHeader inBody
  have counted := (Int.toNat_of_nonneg range.1).symm
  have follows := (runFrom_iff_cleanAlong inBody counted behind middleRead.fresh tail).1 .lineStart
    (by rw [inHeader]; exact ⟨le_rfl, by simp, rfl⟩)
  rw [LinePhase.runFrom_iff_follows] at follows
  rw [wellFormed_iff_tail noSpace isText inTarget (whole.symm.trans counted),
    cleanAlong_append_iff head, lineClean_iff rest noSpace isText front head]
  exact and_congr_right' follows

/-- A loop over concrete bytes that answers `true` and leaves a complete message. -/
theorem exists_completed (memory : Memory) (len : Nat)
    (answer : ((HTTPMessageParser.new true .v1_0 0).parserMessage memory 0 len).toOption.map
      (fun result => (result.1, result.2.isCompleted)) = some (true, true)) :
    ∃ last, (HTTPMessageParser.new true .v1_0 0).parserMessage memory 0 len = .ok (true, last) ∧
      last.isCompleted = true := by
  cases run : (HTTPMessageParser.new true .v1_0 0).parserMessage memory 0 len with
  | error fault => simp [run, Except.toOption] at answer
  | ok result =>
      obtain ⟨verdict, last⟩ := result
      simp only [run, Except.toOption, Option.map_some, Option.some.injEq, Prod.mk.injEq] at answer
      exact ⟨last, by rw [answer.1], answer.2⟩

/-- A request with one field. -/
def fieldRequest : Bytes := getLine ++ ascii "a: b\r\n\r\n"

/-- The request is one of the grammar exactly when it is clean. -/
theorem wellFormed_iff_fieldRequest :
    ∃ last, (HTTPMessageParser.new true .v1_0 0).parserMessage (.ofBytes 0 fieldRequest) 0
        fieldRequest.length = .ok (true, last) ∧
      (WellFormed fieldRequest last ↔
        CleanAlong (.ofBytes 0 fieldRequest) 0 fieldRequest
          ((HTTPMessageParser.new true .v1_0 0).rebase 0)) := by
  obtain ⟨last, run, completed⟩ :=
    exists_completed (.ofBytes 0 fieldRequest) fieldRequest.length
      (by decide +kernel)
  exact ⟨last, run, wellFormed_iff (Memory.holds_ofBytes 0 fieldRequest) run completed⟩

/-- A request in which a line without a colon ends the header. -/
def colonlessRequest : Bytes := getLine ++ ascii "abc\r\n"

/-- The line without a colon is taken for the empty one. -/
theorem colonlessRequest_accepted :
    ¬ ∀ (version : HTTPVersion) (code : Int) (memory : Memory) (str : Int) (bytes : Bytes)
      (last : HTTPMessageParser), memory.Holds str bytes →
      (HTTPMessageParser.new true version code).parserMessage memory str bytes.length =
        .ok (true, last) → last.isCompleted = true → WellFormed bytes last := by
  intro all
  obtain ⟨last, run, completed⟩ :=
    exists_completed (.ofBytes 0 colonlessRequest) colonlessRequest.length
      (by decide +kernel)
  have holds := Memory.holds_ofBytes 0 colonlessRequest
  obtain ⟨method, target, known, text, header, body, -, noSpace, isText, isHeader, same, -⟩ :=
    all .v1_0 0 _ 0 _ last holds run completed
  obtain ⟨-, rest⟩ :=
    isRequestLine_getLine.eq_of_append_eq ⟨target, text, noSpace, isText, rfl⟩ same
  have accepted : LinePhase.Follows body.length .lineStart (ascii "abc\r\n") :=
    ⟨header, body, isHeader, rest, rfl⟩
  rw [← LinePhase.runFrom_iff_follows] at accepted
  have stuck : Runs.runFrom LinePhase.step .lineStart (ascii "abc\r\n") = none := by
    decide +kernel
  cases stuck.symm.trans accepted

end SimpleWebServer.Http
