import SimpleWebServer.Http.ContentLength
import SimpleWebServer.Http.ParserMoves

/-!
# Splitting the query

The state of the target assigns its offsets at every delimiter it meets, wherever that stands.
So the path reaches up to the last `?`, a pair is split at its last `=`, and an `&` in the path
copies a key that was never started.
-/

namespace SimpleWebServer.Http

open SimpleWebServer.Base

/-! ## Targets with delimiters in their parts -/

/-- A pair whose value may contain `=` and `?`. -/
structure RawPair where
  key : Bytes
  value : Bytes
  keyPlain : ∀ c ∈ key, c ≠ equalSign ∧ c ≠ ampersand ∧ c ≠ SP
  valuePlain : ∀ c ∈ value, c ≠ ampersand ∧ c ≠ SP

def RawPair.text (pair : RawPair) : Bytes := pair.key ++ equalSign :: pair.value

structure RawTarget where
  path : Bytes
  pairs : List RawPair
  pathFilled : path ≠ []
  pathPlain : ∀ c ∈ path, c ≠ SP ∧ c ≠ question
  pairsFilled : pairs ≠ []

namespace RawTarget

def query (target : RawTarget) : Bytes := [ampersand].intercalate (target.pairs.map RawPair.text)

def entries (target : RawTarget) : List (Bytes × Bytes) :=
  target.pairs.map fun pair => (pair.key, pair.value)

/-- A request up to the space behind its target. -/
def line (target : RawTarget) (method : HTTPMethod) : Bytes :=
  getMethodStr method ++ [SP] ++ (target.path ++ [question] ++ (target.query ++ [SP]))

/--
In whatever chunks the line arrives, the recorded path is the one in front of the first `?`, and
the recorded values are those behind the first `=` of each pair.
-/
def Splits (target : RawTarget) (method : HTTPMethod) (version : HTTPVersion) (code : Int) :
    Prop :=
  Answers true version code (target.line method) true fun parser =>
    shown (target.line method) parser.pathPos = target.path ∧
      ∀ key, (parser.queryPos.lookup key).map (shown (target.line method)) =
        (assign ∅ target.entries).lookup key

/-- No delimiter stands where it moves an offset of another part. -/
structure Splittable (target : RawTarget) : Prop where
  pathStart : target.path.head? ≠ some equalSign
  noAmpersand : ampersand ∉ target.path
  noQuestion : ∀ pair ∈ target.pairs, question ∉ pair.key ∧ question ∉ pair.value
  noEqual : ∀ pair ∈ target.pairs, equalSign ∉ pair.value

end RawTarget

/-! ## Reading up to the next delimiter -/

/-- A byte that neither ends the target nor starts a key. -/
def InnerByte (c : Byte) : Prop := c ≠ SP ∧ c ≠ question ∧ c ≠ ampersand

section

variable (consumed : Bytes) (state : StateURL) (parser : HTTPMessageParser)

/-- An `=` among such bytes moves the end of the key and the start of the value. -/
theorem reads_inner {text : Bytes} (inner : ∀ c ∈ text, InnerByte c) (started : state.nowIdx ≠ 0) :
    ∃ keyLen valueOffset,
      (keyLen = state.nowKeyLen ∨ consumed.length - state.nowKeyOffset ≤ keyLen) ∧
      Reads consumed (.url state) parser text
        (.url { state with
          nowIdx := state.nowIdx + text.length, nowKeyLen := keyLen
          nowValueOffset := valueOffset }) parser := by
  induction text generalizing consumed state with
  | nil => exact ⟨state.nowKeyLen, state.nowValueOffset, .inl rfl, .refl _ _ _⟩
  | cons c rest ih =>
      have later := fun c member => inner c (List.mem_cons_of_mem _ member)
      have count : state.nowIdx + 1 + rest.length = state.nowIdx + (c :: rest).length := by
        rw [List.length_cons]
        omega
      by_cases isEqual : c = equalSign
      · subst isEqual
        have first := reads_equalSign consumed state parser
        obtain ⟨keyLen, valueOffset, known, tail⟩ := ih (consumed ++ [equalSign])
          { state with
            nowIdx := state.nowIdx + 1, nowKeyLen := consumed.length - state.nowKeyOffset
            nowValueOffset := consumed.length + 1 } later (Nat.succ_ne_zero _)
        have all := first.trans tail
        dsimp only at all
        rw [count] at all
        refine ⟨keyLen, valueOffset, .inr ?_, all⟩
        rcases known with known | known
        · exact known.ge
        · simp only [List.length_append] at known
          omega
      · obtain ⟨noSpace, noQuestion, noAmpersand⟩ := inner c List.mem_cons_self
        have first := reads_plain_byte consumed state parser
          ⟨noSpace, noQuestion, isEqual, noAmpersand⟩ started
        obtain ⟨keyLen, valueOffset, known, tail⟩ :=
          ih (consumed ++ [c]) { state with nowIdx := state.nowIdx + 1 } later (Nat.succ_ne_zero _)
        have all := first.trans tail
        dsimp only at all
        rw [count] at all
        refine ⟨keyLen, valueOffset, ?_, all⟩
        rcases known with known | known
        · exact .inl known
        · simp only [List.length_append] at known
          omega

/-- What a path without `?` leaves, up to its end or in front of an `&`. -/
theorem reads_inner_path {path : Bytes} (inner : ∀ c ∈ path, InnerByte c) :
    ∃ keyLen valueOffset, (keyLen = -1 ∨ 1 ≤ keyLen) ∧
      Reads consumed (.url {}) parser path
        (.url { nowIdx := path.length, nowKeyLen := keyLen, nowValueOffset := valueOffset })
        { parser with
          pathPos :=
            (if path = [] ∨ path.head? = some equalSign then parser.pathPos.1 else consumed.length,
              parser.pathPos.2) } := by
  cases path with
  | nil => exact ⟨-1, -1, .inl rfl, .refl _ _ _⟩
  | cons c rest =>
      have later := fun c member => inner c (List.mem_cons_of_mem _ member)
      by_cases isEqual : c = equalSign
      · subst isEqual
        have first := reads_equalSign consumed {} parser
        obtain ⟨keyLen, valueOffset, known, tail⟩ := reads_inner (consumed ++ [equalSign])
          { nowIdx := 0 + 1, nowKeyLen := consumed.length - -1
            nowValueOffset := consumed.length + 1 } parser later (Nat.succ_ne_zero _)
        have all := first.trans tail
        rw [if_pos (.inr rfl), List.length_cons, Nat.add_comm rest.length]
        refine ⟨keyLen, valueOffset, .inr ?_, by simpa using all⟩
        simp only [List.length_append] at known
        omega
      · obtain ⟨noSpace, noQuestion, noAmpersand⟩ := inner c List.mem_cons_self
        have first := reads_path_start consumed {} parser
          ⟨noSpace, noQuestion, isEqual, noAmpersand⟩ rfl
        obtain ⟨keyLen, valueOffset, known, tail⟩ := reads_inner (consumed ++ [c])
          { nowIdx := 0 + 1 } { parser with pathPos := (consumed.length, parser.pathPos.2) } later
          (Nat.succ_ne_zero _)
        have all := first.trans tail
        rw [if_neg (by simp [isEqual]), List.length_cons, Nat.add_comm rest.length]
        refine ⟨keyLen, valueOffset, ?_, by simpa using all⟩
        simp only [List.length_append] at known
        omega

/-- The `?` ends the path and starts a key. -/
theorem reads_query_start :
    Reads consumed (.url state) parser [question]
      (.url { state with
        nowIdx := state.nowIdx + 1, nowKeyOffset := consumed.length + 1, hasQuery := true })
      { parser with pathPos := (parser.pathPos.1, consumed.length - parser.pathPos.1) } := by
  refine ⟨question, ?_⟩
  simp [consume, HTTPMessageParser.matchChar, State.matchStep, StateURL.matchStep,
    StateURL.matchPart, StateURL.endPath, Except.map, HTTPMessageParser.enterNext]
  ring

end

/-! ## Pairs that are split at their last `=` -/

/-- A pair as the parser sees it: the value has no delimiter. -/
structure SplitPair where
  key : Bytes
  value : Bytes
  keyInner : ∀ c ∈ key, InnerByte c
  valuePlain : ∀ c ∈ value, PlainByte c

def SplitPair.text (pair : SplitPair) : Bytes := pair.key ++ equalSign :: pair.value

def splitText (pairs : List SplitPair) : Bytes :=
  [ampersand].intercalate (pairs.map SplitPair.text)

/-- The counters behind a pair. -/
structure StateURL.Holds (state : StateURL) (front : Bytes) (pair : SplitPair) : Prop where
  started : state.nowIdx ≠ 0
  keyOffset : state.nowKeyOffset = front.length
  keyLen : state.nowKeyLen = pair.key.length
  valueOffset : state.nowValueOffset = front.length + pair.key.length + 1
  hasQuery : state.hasQuery = true

section

variable (consumed : Bytes) {state : StateURL} (parser : HTTPMessageParser)

theorem reads_splitPair (pair : SplitPair) (started : state.nowIdx ≠ 0)
    (query : state.hasQuery = true) (start : state.nowKeyOffset = consumed.length) :
    ∃ next : StateURL, next.Holds consumed pair ∧
      Reads consumed (.url state) parser pair.text (.url next) parser := by
  obtain ⟨keyLen, valueOffset, -, key⟩ := reads_inner consumed state parser pair.keyInner started
  have equal := reads_equalSign (consumed ++ pair.key)
    { state with
      nowIdx := state.nowIdx + pair.key.length, nowKeyLen := keyLen
      nowValueOffset := valueOffset } parser
  have value := reads_plain (consumed ++ pair.key ++ [equalSign])
    { state with
      nowIdx := state.nowIdx + pair.key.length + 1
      nowKeyLen := (consumed ++ pair.key).length - state.nowKeyOffset
      nowValueOffset := (consumed ++ pair.key).length + 1 }
    parser pair.valuePlain (Nat.succ_ne_zero _)
  have all := (key.trans equal).trans (by rw [← List.append_assoc]; exact value)
  rw [List.append_assoc, List.singleton_append] at all
  refine ⟨{ state with
    nowIdx := state.nowIdx + pair.key.length + 1 + pair.value.length
    nowKeyLen := (consumed ++ pair.key).length - state.nowKeyOffset
    nowValueOffset := (consumed ++ pair.key).length + 1 }, ⟨?_, start, ?_, ?_, query⟩, all⟩
  · change state.nowIdx + pair.key.length + 1 + pair.value.length ≠ 0
    omega
  · simp [start]
  · simp

/-- What the `&` or the space behind a pair records. -/
theorem StateURL.Holds.recordPair {pair : SplitPair} (held : state.Holds consumed pair) (c : Byte)
    {context : HTTPMessageParser} {valueLen : Int}
    (length : context.nowLen = (consumed ++ pair.text).length + 1)
    (count : valueLen = pair.value.length) :
    StateURL.recordPair (sliceOf (consumed ++ pair.text ++ [c]))
        { state with nowValueLen := valueLen } context =
      .ok { context with
        queryPos := context.queryPos.insert pair.key
          ((consumed.length : Int) + pair.key.length + 1, (pair.value.length : Int)) } := by
  have split : consumed ++ pair.text ++ [c] =
      consumed ++ pair.key ++ (equalSign :: pair.value ++ [c]) := by
    simp [SplitPair.text]
  have copied : sliceOf (consumed ++ pair.text ++ [c]) context consumed.length pair.key.length =
      .ok pair.key := by
    rw [split]
    apply sliceOf_middle rfl rfl
    rw [length, SplitPair.text]
    simp only [List.length_append, List.length_cons]
    push_cast
    omega
  unfold StateURL.recordPair
  simp only [held.keyOffset, held.keyLen, held.valueOffset, copied, count, Except.map]

/-- The slice of the value of a pair that starts behind `front`. -/
def SplitPair.slice (pair : SplitPair) (front : Bytes) : Slice :=
  (front.length + pair.key.length + 1, pair.value.length)

/-- What the parser has recorded behind a pair. -/
def HTTPMessageParser.readPair (parser : HTTPMessageParser) (front : Bytes) (pair : SplitPair) :
    HTTPMessageParser :=
  { parser with queryPos := parser.queryPos.insert pair.key (pair.slice front) }

/-- The counters behind the `&`. -/
def StateURL.nextPair (state : StateURL) (offset : Int) : StateURL where
  nowIdx := state.nowIdx + 1
  nowKeyOffset := offset
  hasQuery := state.hasQuery

/-- The `&` behind a pair records it and starts the next one. -/
theorem reads_splitPair_ampersand {pair : SplitPair} (held : state.Holds consumed pair) :
    Reads (consumed ++ pair.text) (.url state) parser [ampersand]
      (.url (state.nextPair ((consumed ++ pair.text).length + 1)))
      (parser.readPair consumed pair) := by
  have step (context : HTTPMessageParser) (char : context.nowChar = ampersand)
      (length : context.nowLen = (consumed ++ pair.text).length + 1) :
      state.matchStep (sliceOf (consumed ++ pair.text ++ [ampersand])) context =
        .ok (state.nextPair context.nowLen, context.readPair consumed pair) := by
    have count : context.nowLen - 1 - state.nowValueOffset = pair.value.length := by
      rw [held.valueOffset, length]
      simp only [SplitPair.text, List.length_append, List.length_cons]
      push_cast
      ring
    unfold StateURL.matchStep StateURL.matchPart
    simp only [char]
    rw [if_neg (by decide), if_neg (by decide), if_pos trivial,
      held.recordPair consumed ampersand length count]
    rfl
  refine ⟨ampersand, ?_⟩
  simp only [consume, HTTPMessageParser.matchChar, State.matchStep]
  have one : ((consumed ++ pair.text ++ [ampersand]).length : Int) =
      (consumed ++ pair.text).length + 1 := by
    rw [List.length_append, List.length_singleton, Nat.cast_add, Nat.cast_one]
  rw [step _ rfl rfl, one]
  rfl

/-- The space behind the last pair records it and ends the target. -/
theorem reads_splitPair_space {pair : SplitPair} (held : state.Holds consumed pair) :
    Reads (consumed ++ pair.text) (.url state) parser [SP] (.version {})
      (parser.readPair consumed pair) := by
  have step (context : HTTPMessageParser) (char : context.nowChar = SP)
      (length : context.nowLen = (consumed ++ pair.text).length + 1) :
      ∃ next, state.matchStep (sliceOf (consumed ++ pair.text ++ [SP])) context =
        .ok (next, StateURL.toVersion (context.readPair consumed pair)) := by
    have count : context.nowLen - state.nowValueOffset - 1 = pair.value.length := by
      rw [held.valueOffset, length]
      simp only [SplitPair.text, List.length_append, List.length_cons]
      push_cast
      ring
    have known : state.nowKeyOffset ≠ -1 ∧ state.nowKeyLen ≠ -1 ∧ state.nowValueOffset ≠ -1 ∧
        context.nowLen - state.nowValueOffset - 1 ≠ -1 := by
      rw [held.keyOffset, held.keyLen, held.valueOffset] at *
      omega
    unfold StateURL.matchStep StateURL.matchPart
    simp only [char]
    rw [if_neg (by decide), if_neg (by decide), if_neg (by decide), if_pos trivial,
      if_neg (by simp [held.hasQuery]), if_pos known, held.recordPair consumed SP length count]
    exact ⟨_, rfl⟩
  refine ⟨SP, ?_⟩
  simp only [consume, HTTPMessageParser.matchChar, State.matchStep]
  obtain ⟨next, stepped⟩ := step { parser.behind (consumed ++ pair.text) (.url state) with
    nowChar := SP, nowLen := ((consumed ++ pair.text).length : Int) + 1 } rfl rfl
  have one : ((consumed ++ pair.text ++ [SP]).length : Int) =
      (consumed ++ pair.text).length + 1 := by
    rw [List.length_append, List.length_singleton, Nat.cast_add, Nat.cast_one]
  rw [stepped, one]
  rfl

theorem shown_splitPair (rest : Bytes) (pair : SplitPair) :
    shown (consumed ++ pair.text ++ rest) (pair.slice consumed) = pair.value := by
  have split : consumed ++ pair.text ++ rest =
      consumed ++ (pair.key ++ [equalSign]) ++ pair.value ++ rest := by
    simp [SplitPair.text]
  rw [split]
  apply shown_middle
  simp [SplitPair.slice, add_assoc]

/-- A query and the space behind it: each slice shows what is behind the last `=` of its pair. -/
theorem reads_splitText {pairs : List SplitPair} (filled : pairs ≠ []) (started : state.nowIdx ≠ 0)
    (query : state.hasQuery = true) (start : state.nowKeyOffset = consumed.length) :
    ∃ slices : List (Bytes × Slice),
      (∀ rest, slices.map (fun entry =>
          (entry.1, shown (consumed ++ splitText pairs ++ rest) entry.2)) =
        pairs.map fun pair => (pair.key, pair.value)) ∧
      Reads consumed (.url state) parser (splitText pairs ++ [SP]) (.version {})
        { parser with queryPos := assign parser.queryPos slices } := by
  induction pairs generalizing consumed state parser with
  | nil => exact absurd rfl filled
  | cons pair others ih =>
      obtain ⟨next, held, text⟩ := reads_splitPair consumed parser pair started query start
      cases others with
      | nil =>
          have single : splitText [pair] = pair.text := by
            rw [splitText, List.map_singleton, List.intercalate_singleton]
          rw [single]
          refine ⟨[(pair.key, pair.slice consumed)], fun rest => ?_,
            text.trans (reads_splitPair_space consumed parser held)⟩
          rw [List.map_singleton, List.map_singleton, shown_splitPair]
      | cons following others =>
          have separated := text.trans (reads_splitPair_ampersand consumed parser held)
          have here : ((consumed ++ pair.text).length : Int) + 1 =
              (consumed ++ (pair.text ++ [ampersand])).length := by
            simp [add_assoc]
          have begun : (next.nextPair ((consumed ++ pair.text).length + 1)).nowIdx ≠ 0 :=
            Nat.succ_ne_zero _
          obtain ⟨slices, shows, later⟩ := ih (consumed ++ (pair.text ++ [ampersand]))
            (parser.readPair consumed pair) (List.cons_ne_nil _ _) begun held.hasQuery here
          have split : splitText (pair :: following :: others) =
              pair.text ++ [ampersand] ++ splitText (following :: others) := by
            simp [splitText, List.intercalate_cons_cons]
          refine ⟨(pair.key, pair.slice consumed) :: slices, fun rest => ?_, ?_⟩
          · have first := shown_splitPair consumed
              ([ampersand] ++ splitText (following :: others) ++ rest) pair
            have tail := shows rest
            simp only [← List.append_assoc] at first tail
            rw [List.map_cons, List.map_cons, split]
            simp only [← List.append_assoc]
            rw [first, tail]
          · have all := separated.trans later
            rw [split, List.append_assoc (pair.text ++ [ampersand])]
            exact all

end

/-! ## A key that was never started -/

/-- No string can be copied from in front of the object. -/
theorem stringOf_in_front (bytes : Bytes) {length : Int} (filled : length = -1 ∨ 1 ≤ length) :
    ∃ fault, ∀ context : HTTPMessageParser, context.beginPtr = 0 →
      stringOf (Memory.ofBytes 0 bytes) context (-1) length = .error fault := by
  unfold stringOf
  by_cases negative : length < 0
  · exact ⟨_, fun context _ => if_pos negative⟩
  · refine ⟨.wildRead, fun context first => ?_⟩
    obtain ⟨count, rfl⟩ : ∃ count : Nat, length = count + 1 := ⟨(length - 1).toNat, by omega⟩
    have nothing : Memory.ofBytes 0 bytes (context.beginPtr + -1) = none := by
      rw [first]
      rfl
    rw [if_neg negative, show ((count : Int) + 1).toNat = count + 1 from rfl, Memory.read, nothing]

/-- An `&` whose key cannot be copied. -/
theorem matchChar_ampersand {string : StringCtor} {parser : HTTPMessageParser} {state : StateURL}
    (inState : parser.state = .url state) {fault : Fault}
    (thrown : ∀ context : HTTPMessageParser, context.beginPtr = parser.beginPtr →
      string context state.nowKeyOffset state.nowKeyLen = .error fault) :
    parser.matchChar string ampersand = .error fault := by
  have copied := thrown { parser with nowChar := ampersand, nowLen := parser.nowLen + 1 } rfl
  simp [HTTPMessageParser.matchChar, inState, State.matchStep, StateURL.matchStep,
    StateURL.matchPart, StateURL.recordPair, ampersand, question, equalSign, Except.map] at copied ⊢
  rw [copied]

/-! ## A path that has grown -/

/-- The recorded path starts at `first` and has `bound` bytes or more; this does not change back. -/
structure PathGrown (first bound : Int) (parser : HTTPMessageParser) : Prop where
  fresh : parser.nextState = none
  start : parser.pathPos.1 = first
  bound_le : bound ≤ parser.pathPos.2
  within : first + parser.pathPos.2 ≤ parser.nowLen
  place : (∃ state, parser.state = .url state ∧ state.nowIdx ≠ 0) ∨ parser.state.PastURL

section

variable {first bound : Int} {parser after : HTTPMessageParser} {c : Byte}

/-- A byte of the target. -/
theorem PathGrown.url (grown : PathGrown first bound parser) (taken : parser.Takes c after)
    {state : StateURL} (inState : parser.state = .url state) (started : state.nowIdx ≠ 0) :
    PathGrown first bound after := by
  have place : (∃ state, after.state = .url state ∧ state.nowIdx ≠ 0) ∨ after.state.PastURL := by
    rcases taken.url_state inState grown.fresh with ⟨-, inVersion⟩ | ⟨-, next, inURL, count⟩
    · rw [inVersion]
      exact .inr trivial
    · exact .inl ⟨next, inURL, by omega⟩
  obtain ⟨-, start, bound_le, within, -⟩ := grown
  have one := taken.nowLen
  rcases taken.url_pathPos inState started with kept | ended
  · exact ⟨taken.nextState, kept ▸ start, kept ▸ bound_le, by rw [kept]; omega, place⟩
  · rw [Prod.ext_iff] at ended
    exact ⟨taken.nextState, ended.1.trans start, by omega, by omega, place⟩

/-- One more `?` moves the end of the path. -/
theorem PathGrown.question (grown : PathGrown first bound parser)
    (taken : parser.Takes question after) {state : StateURL} (inState : parser.state = .url state)
    (started : state.nowIdx ≠ 0) (behind : first + bound < parser.nowLen) :
    PathGrown first (bound + 1) after := by
  have ended := congrArg Prod.snd (taken.question_pathPos inState rfl)
  have start := grown.start
  exact { grown.url taken inState started with bound_le := by omega }

theorem PathGrown.takes (grown : PathGrown first bound parser) (taken : parser.Takes c after) :
    PathGrown first bound after := by
  rcases grown.place with ⟨state, inState, started⟩ | past
  · exact grown.url taken inState started
  · have path := taken.pathPos grown.fresh past
    have one := taken.nowLen
    have within := grown.within
    exact ⟨taken.nextState, path ▸ grown.start, path ▸ grown.bound_le, by rw [path]; omega,
      .inr (taken.pastURL grown.fresh past)⟩

theorem PathGrown.charRun {last : HTTPMessageParser} {bytes : Bytes}
    (grown : PathGrown first bound parser) (run : CharRun parser bytes last) :
    PathGrown first bound last :=
  run.invariant (fun _ => PathGrown first bound) (fun _ _ _ _ grown taken => grown.takes taken)
    [] grown

/-- A path with more bytes than `path` does not show it. -/
theorem PathGrown.shown_ne {path bytes : Bytes} (grown : PathGrown first bound parser)
    (known : parser.nowLen = bytes.length) (start : 0 ≤ first) (longer : path.length < bound) :
    shown bytes parser.pathPos ≠ path := by
  intro same
  have count := congrArg List.length same
  obtain ⟨-, begins, bound_le, within, -⟩ := grown
  rw [shown, List.length_take, List.length_drop] at count
  omega

/-- Bytes that do not end the target keep the parser in it. -/
theorem inTarget_of_charRun {last : HTTPMessageParser} {bytes : Bytes} {state : StateURL}
    (inState : parser.state = .url state) (fresh : parser.nextState = none)
    (started : state.nowIdx ≠ 0) (noSpace : ∀ c ∈ bytes, c ≠ SP)
    (run : CharRun parser bytes last) :
    ∃ next, last.state = .url next ∧ next.nowIdx ≠ 0 := by
  induction bytes generalizing parser state with
  | nil =>
      cases run
      exact ⟨state, inState, started⟩
  | cons c rest ih =>
      obtain ⟨after, taken, tail⟩ := run.uncons
      rcases taken.url_state inState fresh with ⟨space, -⟩ | ⟨-, next, inURL, count⟩
      · exact absurd space (noSpace c List.mem_cons_self)
      · exact ih inURL taken.nextState (by omega)
          (fun c member => noSpace c (List.mem_cons_of_mem _ member)) tail

end

/-! ## Lines whose only stray delimiters are `=` -/

/-- A pair without `?`, split at its last `=`. -/
theorem RawPair.exists_split (pair : RawPair)
    (noQuestion : question ∉ pair.key ∧ question ∉ pair.value) :
    ∃ split : SplitPair, split.text = pair.text ∧
      (equalSign ∈ pair.value → equalSign ∈ split.key) ∧
      (equalSign ∉ pair.value → (split.key, split.value) = (pair.key, pair.value)) := by
  have keyInner : ∀ c ∈ pair.key, InnerByte c := fun c member =>
    ⟨(pair.keyPlain c member).2.2, fun isQuestion => noQuestion.1 (isQuestion ▸ member),
      (pair.keyPlain c member).2.1⟩
  have valueInner : ∀ c ∈ pair.value, InnerByte c := fun c member =>
    ⟨(pair.valuePlain c member).2, fun isQuestion => noQuestion.2 (isQuestion ▸ member),
      (pair.valuePlain c member).1⟩
  have plain (c : Byte) (inner : InnerByte c) (noEqual : c ≠ equalSign) : PlainByte c :=
    ⟨inner.1, inner.2.1, noEqual, inner.2.2⟩
  by_cases stray : equalSign ∈ pair.value
  · obtain ⟨back, front, reversed, notInBack⟩ :=
      List.eq_append_cons_of_mem (List.mem_reverse.mpr stray)
    have value : pair.value = front.reverse ++ equalSign :: back.reverse := by
      rw [← List.reverse_inj, reversed]
      simp
    rw [value] at valueInner
    refine ⟨⟨pair.key ++ equalSign :: front.reverse, back.reverse, ?_, ?_⟩, ?_, fun _ => ?_,
      fun none => absurd stray none⟩
    · intro c member
      rcases List.mem_append.mp member with inKey | behind
      · exact keyInner c inKey
      · rcases List.mem_cons.mp behind with rfl | inFront
        · exact ⟨by decide, by decide, by decide⟩
        · exact valueInner c (List.mem_append_left _ inFront)
    · intro c member
      apply plain c (valueInner c (List.mem_append_right _ (List.mem_cons_of_mem _ member)))
      rintro rfl
      exact notInBack (List.mem_reverse.mp member)
    · simp [SplitPair.text, RawPair.text, value]
    · simp
  · exact ⟨⟨pair.key, pair.value, keyInner, fun c member =>
        plain c (valueInner c member) fun isEqual => stray (isEqual ▸ member)⟩,
      rfl, fun inValue => absurd inValue stray, fun _ => rfl⟩

/-- The same for all pairs of a query. -/
theorem exists_splits {pairs : List RawPair}
    (noQuestion : ∀ pair ∈ pairs, question ∉ pair.key ∧ question ∉ pair.value) :
    ∃ splits : List SplitPair, splits.map SplitPair.text = pairs.map RawPair.text ∧
      ((∃ pair ∈ pairs, equalSign ∈ pair.value) → ∃ split ∈ splits, equalSign ∈ split.key) ∧
      ((∀ pair ∈ pairs, equalSign ∉ pair.value) →
        splits.map (fun split => (split.key, split.value)) =
          pairs.map fun pair => (pair.key, pair.value)) := by
  induction pairs with
  | nil => exact ⟨[], rfl, by simp, fun _ => rfl⟩
  | cons pair others ih =>
      obtain ⟨split, text, stray, same⟩ := pair.exists_split (noQuestion pair List.mem_cons_self)
      obtain ⟨splits, texts, strays, sames⟩ :=
        ih fun other member => noQuestion other (List.mem_cons_of_mem _ member)
      refine ⟨split :: splits, ?_, ?_, ?_⟩
      · rw [List.map_cons, List.map_cons, text, texts]
      · rintro ⟨other, member, inValue⟩
        rcases List.mem_cons.mp member with rfl | behind
        · exact ⟨split, List.mem_cons_self, stray inValue⟩
        · obtain ⟨found, inSplits, inKey⟩ := strays ⟨other, behind, inValue⟩
          exact ⟨found, List.mem_cons_of_mem _ inSplits, inKey⟩
      · intro none
        rw [List.map_cons, List.map_cons, same (none pair List.mem_cons_self),
          sames fun other member => none other (List.mem_cons_of_mem _ member)]

/-- The bytes of a query are those of its pairs, but for the `&`s between them. -/
theorem mem_query_iff (pairs : List RawPair) {c : Byte} (other : c ≠ ampersand) :
    c ∈ [ampersand].intercalate (pairs.map RawPair.text) ↔ ∃ pair ∈ pairs, c ∈ pair.text := by
  induction pairs with
  | nil => simp
  | cons pair others ih =>
      cases others with
      | nil => simp
      | cons next others =>
          rw [List.map_cons] at ih
          rw [List.map_cons, List.map_cons, List.intercalate_cons_cons, List.mem_append,
            List.mem_append, ih, List.mem_singleton]
          simp [other]

/-- A new parser in front of the target. -/
theorem reads_lineMethod (version : HTTPVersion) (code : Int) (method : HTTPMethod) :
    Reads [] (.method {}) (.new true version code) (getMethodStr method ++ [SP]) (.url {})
      { HTTPMessageParser.new true version code with method := method } :=
  reads_method [] _ method

namespace RawTarget

variable (target : RawTarget) (method : HTTPMethod) (version : HTTPVersion) (code : Int)

theorem path_inner (noAmpersand : ampersand ∉ target.path) : ∀ c ∈ target.path, InnerByte c :=
  fun c member => ⟨(target.pathPlain c member).1, (target.pathPlain c member).2,
    fun isAmpersand => noAmpersand (isAmpersand ▸ member)⟩

/-- What stands in front of the query. -/
def front : Bytes := getMethodStr method ++ [SP] ++ (target.path ++ [question])

theorem line_eq : target.line method = target.front method ++ (target.query ++ [SP]) := by
  simp [line, front]

/-- The path that is recorded at the `?` behind it. -/
def pathRead : Slice :=
  if target.path.head? = some equalSign then
    (0, (getMethodStr method ++ [SP] ++ target.path).length)
  else ((getMethodStr method ++ [SP]).length, target.path.length)

/-- Up to the first `?`. -/
theorem reads_front (noAmpersand : ampersand ∉ target.path) :
    ∃ state : StateURL, (state.nowIdx ≠ 0 ∧ state.hasQuery = true ∧
        state.nowKeyOffset = (target.front method).length) ∧
      Reads [] (.method {}) (.new true version code) (target.front method) (.url state)
        { HTTPMessageParser.new true version code with
          method := method, pathPos := target.pathRead method } := by
  obtain ⟨keyLen, valueOffset, -, path⟩ := reads_inner_path (getMethodStr method ++ [SP])
    { HTTPMessageParser.new true version code with method := method }
    (target.path_inner noAmpersand)
  have begun := (reads_lineMethod version code method).trans path
  have mark := reads_query_start (getMethodStr method ++ [SP] ++ target.path)
    { nowIdx := target.path.length, nowKeyLen := keyLen, nowValueOffset := valueOffset }
    { HTTPMessageParser.new true version code with
      method := method
      pathPos := (if target.path = [] ∨ target.path.head? = some equalSign then 0
        else (getMethodStr method ++ [SP]).length, 0) }
  have all := begun.trans mark
  have text : getMethodStr method ++ [SP] ++ target.path ++ [question] = target.front method :=
    List.append_assoc _ _ _
  have place : (if target.path = [] ∨ target.path.head? = some equalSign then (0 : Int)
        else (getMethodStr method ++ [SP]).length,
      (getMethodStr method ++ [SP] ++ target.path).length -
        if target.path = [] ∨ target.path.head? = some equalSign then (0 : Int)
        else (getMethodStr method ++ [SP]).length) = target.pathRead method := by
    unfold pathRead
    by_cases start : target.path.head? = some equalSign
    · rw [if_pos (.inr start), if_pos start, Int.sub_zero]
    · rw [if_neg (by simp [start, target.pathFilled]), if_neg start]
      simp
  rw [text, place] at all
  refine ⟨_, ⟨Nat.succ_ne_zero _, rfl, ?_⟩, all⟩
  rw [← text]
  simp [add_assoc]

/-- A call on the whole line goes on behind the `?` from what has been read up to there. -/
theorem charRun_of_called (noAmpersand : ampersand ∉ target.path) {parser : HTTPMessageParser}
    (called : (HTTPMessageParser.new true version code).parserMessages
      [wholeCall (target.line method)] = .ok (true, parser)) :
    ∃ middle : HTTPMessageParser, ∃ state, middle.state = .url state ∧ state.nowIdx ≠ 0 ∧
      PathGrown (target.pathRead method).1 (target.pathRead method).2 middle ∧
      middle.nowLen = (target.front method).length ∧
      CharRun middle (target.query ++ [SP]) parser := by
  obtain ⟨state, ⟨started, -, -⟩, reads⟩ := target.reads_front method version code noAmpersand
  obtain ⟨char, whole⟩ := wholeCall_prefix rfl reads (target.query ++ [SP])
  rw [← line_eq, called] at whole
  have holds := Memory.holds_ofBytes 0 (target.line method)
  rw [line_eq, Memory.holds_append_iff, Int.zero_add, ← line_eq] at holds
  refine ⟨_, state, rfl, started, ⟨rfl, rfl, le_refl _, ?_, .inl ⟨state, rfl, started⟩⟩, rfl,
    charRun_of_parserLoop holds.2 whole.symm⟩
  change (target.pathRead method).1 + (target.pathRead method).2 ≤ (target.front method).length
  unfold pathRead front
  split_ifs
  · simp
  · simp
    omega

theorem query_noSpace : ∀ c ∈ target.query, c ≠ SP := by
  intro c member
  by_cases separator : c = ampersand
  · rw [separator]
    decide
  · obtain ⟨pair, -, inText⟩ := (mem_query_iff target.pairs separator).mp member
    rcases List.mem_append.mp inText with inKey | behind
    · exact (pair.keyPlain c inKey).2.2
    · rcases List.mem_cons.mp behind with rfl | inValue
      · decide
      · exact (pair.valuePlain c inValue).2

/-- The path has grown over the delimiters in front of it or behind it. -/
theorem not_splits_of_grown {first bound : Int}
    (grown : ∀ parser, (HTTPMessageParser.new true version code).parserMessages
      [wholeCall (target.line method)] = .ok (true, parser) →
        PathGrown first bound parser ∧ parser.nowLen = (target.line method).length)
    (start : 0 ≤ first) (longer : target.path.length < bound) :
    ¬ target.Splits method version code := by
  intro splits
  obtain ⟨parser, called, path, -⟩ :=
    splits _ _ (wholeCall_addresses (target.line method)) List.flatten_singleton
  obtain ⟨pathGrown, known⟩ := grown parser called
  exact pathGrown.shown_ne known start longer path

/-- A path that starts with `=` is recorded with the method in front of it. -/
theorem not_splits_of_pathStart (noAmpersand : ampersand ∉ target.path)
    (equal : target.path.head? = some equalSign) : ¬ target.Splits method version code := by
  have longer : (target.path.length : Int) <
      (getMethodStr method ++ [SP] ++ target.path).length := by
    simp
    omega
  refine target.not_splits_of_grown method version code (fun parser called => ?_) (le_refl 0) longer
  · obtain ⟨middle, state, -, -, grown, known, run⟩ :=
      target.charRun_of_called method version code noAmpersand called
    rw [pathRead, if_pos equal] at grown
    refine ⟨grown.charRun run, ?_⟩
    rw [run.nowLen, known, line_eq]
    simp

/-- A `?` in the query ends the path again. -/
theorem not_splits_of_question (noAmpersand : ampersand ∉ target.path)
    (plainStart : target.path.head? ≠ some equalSign) (stray : question ∈ target.query) :
    ¬ target.Splits method version code := by
  obtain ⟨before, behind, split⟩ := List.append_of_mem stray
  have noSpace := target.query_noSpace
  have place : target.pathRead method =
      (((getMethodStr method ++ [SP]).length : Int), (target.path.length : Int)) :=
    if_neg plainStart
  refine target.not_splits_of_grown method version code (fun parser called => ?_)
    (Int.natCast_nonneg (getMethodStr method ++ [SP]).length) (Int.lt_succ _)
  obtain ⟨middle, state, inState, started, grown, known, run⟩ :=
    target.charRun_of_called method version code noAmpersand called
  have length : parser.nowLen = (target.line method).length := by
    rw [run.nowLen, known, line_eq]
    simp
  rw [place] at grown
  rw [split, List.append_assoc, List.cons_append] at run
  obtain ⟨marked, head, tail⟩ := run.split
  obtain ⟨after, taken, tail⟩ := tail.uncons
  obtain ⟨next, inURL, nextStarted⟩ := inTarget_of_charRun inState grown.fresh started
    (fun c member => noSpace c (split ▸ List.mem_append_left _ member)) head
  have count := head.nowLen
  have behindPath : ((getMethodStr method ++ [SP]).length : Int) + target.path.length <
      marked.nowLen := by
    rw [count, known, front]
    simp
    omega
  exact ⟨((grown.charRun head).question taken inURL nextStarted behindPath).charRun tail, length⟩

/-- An `&` in the path copies a key from in front of the message, or throws for its length. -/
theorem not_splits_of_ampersand (stray : ampersand ∈ target.path) :
    ¬ target.Splits method version code := by
  intro splits
  obtain ⟨before, behind, split, noAmpersand⟩ := List.eq_append_cons_of_mem stray
  have inner : ∀ c ∈ before, InnerByte c := fun c member =>
    have plain := target.pathPlain c (split ▸ List.mem_append_left _ member)
    ⟨plain.1, plain.2, fun isAmpersand => noAmpersand (isAmpersand ▸ member)⟩
  obtain ⟨keyLen, valueOffset, filled, path⟩ := reads_inner_path (getMethodStr method ++ [SP])
    { HTTPMessageParser.new true version code with method := method } inner
  have begun := (reads_lineMethod version code method).trans path
  obtain ⟨parser, called, -⟩ :=
    splits _ _ (wholeCall_addresses (target.line method)) List.flatten_singleton
  have line : target.line method = getMethodStr method ++ [SP] ++ before ++
      ampersand :: (behind ++ [question] ++ (target.query ++ [SP])) := by
    rw [RawTarget.line, split]
    simp
  obtain ⟨char, whole⟩ := wholeCall_prefix rfl begun
    (ampersand :: (behind ++ [question] ++ (target.query ++ [SP])))
  rw [← line, called] at whole
  have holds := Memory.holds_ofBytes 0 (target.line method)
  rw [line, Memory.holds_append_iff, Int.zero_add, ← line, Memory.holds_cons_iff] at holds
  obtain ⟨fault, thrown⟩ := stringOf_in_front (target.line method) filled
  have stopped (parser : HTTPMessageParser) (inState : parser.state = .url {
      nowIdx := before.length, nowKeyLen := keyLen, nowValueOffset := valueOffset })
      (first : parser.beginPtr = 0) :
      parser.matchChar (stringOf (Memory.ofBytes 0 (target.line method))) ampersand =
        .error fault :=
    matchChar_ampersand inState fun context same => thrown context (same.trans first)
  rw [List.length_cons,
    HTTPMessageParser.parserLoop_fault holds.2.1 (stopped _ rfl rfl)] at whole
  cases whole

/-! ### The recorded pairs -/

/-- Without `&` in the path and `?` in the query, each pair is split at its last `=`. -/
theorem answers_splits (noAmpersand : ampersand ∉ target.path)
    (plainStart : target.path.head? ≠ some equalSign) {splits : List SplitPair}
    (texts : splits.map SplitPair.text = target.pairs.map RawPair.text) :
    Answers true version code (target.line method) true fun parser =>
      shown (target.line method) parser.pathPos = target.path ∧
        ∀ key, (parser.queryPos.lookup key).map (shown (target.line method)) =
          (assign ∅ (splits.map fun split => (split.key, split.value))).lookup key := by
  have query : splitText splits = target.query := congrArg [ampersand].intercalate texts
  have filled : splits ≠ [] := by
    rintro rfl
    exact target.pairsFilled (List.map_eq_nil_iff.mp texts.symm)
  obtain ⟨state, ⟨started, hasQuery, start⟩, front⟩ :=
    target.reads_front method version code noAmpersand
  obtain ⟨slices, shows, pairs⟩ := reads_splitText (target.front method)
    { HTTPMessageParser.new true version code with
      method := method, pathPos := target.pathRead method } filled started hasQuery start
  obtain ⟨char, run⟩ := front.trans pairs
  rw [query, ← line_eq] at run
  intro calls chunks addressed flat
  obtain ⟨parser, called, moved⟩ := answers_of_consume run calls chunks addressed flat
  have path : parser.pathPos = target.pathRead method := congrArg HTTPMessageParser.pathPos moved
  have recorded : parser.queryPos = assign ∅ slices := congrArg HTTPMessageParser.queryPos moved
  refine ⟨parser, called, ?_, fun key => ?_⟩
  · have split : target.line method = getMethodStr method ++ [SP] ++ target.path ++
        ([question] ++ (target.query ++ [SP])) := by
      simp [line]
    rw [path, pathRead, if_neg plainStart, split]
    exact shown_middle rfl
  · rw [recorded]
    refine lookup_assign_shown ?_ key
    rw [← shows [SP], query, List.append_assoc, ← line_eq]

/-- An `=` in a value comes out as part of a key. -/
theorem not_splits_of_equal (noAmpersand : ampersand ∉ target.path)
    (plainStart : target.path.head? ≠ some equalSign)
    (noQuestion : ∀ pair ∈ target.pairs, question ∉ pair.key ∧ question ∉ pair.value)
    (stray : ∃ pair ∈ target.pairs, equalSign ∈ pair.value) :
    ¬ target.Splits method version code := by
  intro splits
  obtain ⟨pairs, texts, strays, -⟩ := exists_splits noQuestion
  obtain ⟨pair, inPairs, inKey⟩ := strays stray
  have addressed := wholeCall_addresses (target.line method)
  obtain ⟨parser, called, -, expected⟩ := splits _ _ addressed List.flatten_singleton
  obtain ⟨twin, twinCalled, -, recorded⟩ :=
    target.answers_splits method version code noAmpersand plainStart texts _ _ addressed
      List.flatten_singleton
  obtain rfl := (Prod.mk.inj (Except.ok.inj (called.symm.trans twinCalled))).2
  have found := (lookup_assign_isSome ∅
    (pairs.map fun split => (split.key, split.value)) pair.key).mpr
    (.inl ⟨_, List.mem_map_of_mem inPairs, rfl⟩)
  rw [← recorded, expected, lookup_assign_isSome] at found
  rcases found with ⟨entry, member, same⟩ | before
  · obtain ⟨raw, inRaw, rfl⟩ := List.mem_map.mp member
    rw [← show raw.key = pair.key from same] at inKey
    exact (raw.keyPlain equalSign inKey).1 rfl
  · simp at before

/--
The target is split as it should be exactly when no delimiter stands in another part, in a
request line of at most 2147483647 bytes.
-/
theorem splits_iff : target.Splits method version code ↔ target.Splittable := by
  constructor
  · intro splits
    have noAmpersand : ampersand ∉ target.path := fun stray =>
      target.not_splits_of_ampersand method version code stray splits
    have plainStart : target.path.head? ≠ some equalSign := fun equal =>
      target.not_splits_of_pathStart method version code noAmpersand equal splits
    have noQuestion : ∀ pair ∈ target.pairs, question ∉ pair.key ∧ question ∉ pair.value := by
      intro pair inPairs
      have notInText : question ∉ pair.text := fun inText =>
        target.not_splits_of_question method version code noAmpersand plainStart
          ((mem_query_iff target.pairs (by decide)).mpr ⟨pair, inPairs, inText⟩) splits
      simpa [RawPair.text, question, equalSign] using notInText
    refine ⟨plainStart, noAmpersand, noQuestion, fun pair inPairs inValue => ?_⟩
    exact target.not_splits_of_equal method version code noAmpersand plainStart noQuestion
      ⟨pair, inPairs, inValue⟩ splits
  · rintro ⟨plainStart, noAmpersand, noQuestion, noEqual⟩
    obtain ⟨pairs, texts, -, same⟩ := exists_splits noQuestion
    have answers := target.answers_splits method version code noAmpersand plainStart texts
    rw [same noEqual] at answers
    exact answers

end RawTarget

theorem key_k : ∀ c ∈ ascii "k", c ≠ equalSign ∧ c ≠ ampersand ∧ c ≠ SP := by decide +kernel

theorem value_padded : ∀ c ∈ ascii "a=b", c ≠ ampersand ∧ c ≠ SP := by decide +kernel

/-- `/?k=a=b` -/
def paddedTarget : RawTarget where
  path := ascii "/"
  pairs := [{
    key := ascii "k"
    value := ascii "a=b"
    keyPlain := key_k
    valuePlain := value_padded }]
  pathFilled := filled_slash
  pathPlain := fun c member => ⟨(plain_slash c member).1, (plain_slash c member).2.1⟩
  pairsFilled := List.cons_ne_nil _ _

/-- Its key comes out as `k=a`. -/
theorem paddedTarget_not_splits :
    ¬ ∀ (target : RawTarget) (method : HTTPMethod) (version : HTTPVersion) (code : Int),
      target.Splits method version code := by
  intro all
  exact paddedTarget.not_splits_of_equal .get .v1_0 0 (by decide +kernel) (by decide +kernel)
    (by decide +kernel) (by decide +kernel) (all paddedTarget .get .v1_0 0)

end SimpleWebServer.Http
