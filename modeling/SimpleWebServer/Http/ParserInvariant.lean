import SimpleWebServer.Http.ParserRun

/-!
# The invariant of the parser

Whatever bytes a parser has read, the slices it has recorded lie within them, and the
counters of its current state point into them.  The one exception is the reason phrase
of a response, whose recorded slice reaches one byte too far until the next byte has
been read.
-/

namespace SimpleWebServer.Http

open SimpleWebServer.Base

/-- A slice of the first `bound` bytes. -/
def SliceWithin (bound : Int) (slice : Slice) : Prop :=
  0 ≤ slice.1 ∧ 0 ≤ slice.2 ∧ slice.1 + slice.2 ≤ bound

theorem SliceWithin.mono {bound larger : Int} {slice : Slice} (within : SliceWithin bound slice)
    (le : bound ≤ larger) : SliceWithin larger slice :=
  ⟨within.1, within.2.1, Int.le_trans within.2.2 le⟩

/-- Every slice the parser has recorded lies within the first `bound` bytes. -/
structure SlicesWithin (bound : Int) (parser : HTTPMessageParser) : Prop where
  path : SliceWithin bound parser.pathPos
  query : ∀ entry ∈ parser.queryPos.entries, SliceWithin bound entry.2
  header : ∀ entry ∈ parser.headerPos.entries, SliceWithin bound entry.2
  body : SliceWithin bound parser.bodyPos
  detail : SliceWithin (bound + 1) parser.detailPos

theorem SlicesWithin.mono {bound larger : Int} {parser : HTTPMessageParser}
    (slices : SlicesWithin bound parser) (le : bound ≤ larger) : SlicesWithin larger parser where
  path := slices.path.mono le
  query := fun entry member => (slices.query entry member).mono le
  header := fun entry member => (slices.header entry member).mono le
  body := slices.body.mono le
  detail := slices.detail.mono (by omega)

/-- A new entry of a map of slices is the inserted one or an old one. -/
theorem mem_insert_entries {key : Bytes} {slice : Slice} {positions : SliceMap}
    {entry : Sigma fun _ : Bytes => Slice}
    (member : entry ∈ (positions.insert key slice).entries) :
    entry = ⟨key, slice⟩ ∨ entry ∈ positions.entries := by
  rw [AList.entries_insert, List.mem_cons] at member
  rcases member with inserted | old
  · exact .inl inserted
  · exact .inr ((List.kerase_sublist key positions.entries).subset old)

/-- The counters of `StateURL` after `read` bytes of the message. -/
structure StateURL.Sound (state : StateURL) (read : Int) : Prop where
  key_ge : -1 ≤ state.nowKeyOffset
  key_le : state.nowKeyOffset ≤ read
  value_le : state.nowValueOffset ≤ read
  /-- a key length is set together with the start of its value -/
  paired : 0 ≤ state.nowKeyLen → 0 ≤ state.nowValueOffset

/-- The counters of `StateHeader` after `read` bytes: key, colon and value in this order. -/
def StateHeader.Sound (state : StateHeader) (read : Int) : Prop :=
  match state.nowPart with
  | .key => state.nowIdx ≠ 0 → 0 ≤ state.nowKeyOffset ∧ state.nowKeyOffset < read
  | .split =>
      0 ≤ state.nowKeyOffset ∧ 1 ≤ state.nowKeyLen ∧ state.nowKeyOffset + state.nowKeyLen < read
  | .value =>
      0 ≤ state.nowKeyOffset ∧ 1 ≤ state.nowKeyLen ∧
        state.nowKeyOffset + state.nowKeyLen < state.nowValueOffset ∧ state.nowValueOffset < read
  | .end => True

/-- What the current state knows about the parser around it after `read` bytes. -/
def State.Sound (state : State) (read : Int) (parser : HTTPMessageParser) : Prop :=
  match state with
  | .method _ => parser.pathPos = (0, 0) ∧ parser.bodyPos = (0, 0)
  | .url state =>
      (state.nowIdx = 0 → parser.pathPos = (0, 0)) ∧ parser.bodyPos = (0, 0) ∧ state.Sound read
  | .version _ => parser.bodyPos = (0, 0)
  | .code _ => parser.bodyPos = (0, 0)
  | .detail state => parser.bodyPos = (0, 0) ∧ 0 ≤ state.nowIdx ∧ state.nowIdx ≤ read
  | .header state => parser.bodyPos = (0, 0) ∧ state.Sound read
  | .body state =>
      (state.nowIdx = 0 → parser.bodyPos = (0, 0)) ∧ 0 ≤ state.nowIdx ∧
        SliceWithin read parser.detailPos

/-- The invariant of a parser between two bytes. -/
structure HTTPMessageParser.Sound (parser : HTTPMessageParser) : Prop where
  nowLen_nonneg : 0 ≤ parser.nowLen
  nextState : parser.nextState = none
  slices : SlicesWithin parser.nowLen parser
  state : parser.state.Sound parser.nowLen parser

theorem sliceWithin_zero {bound : Int} (nonneg : 0 ≤ bound) : SliceWithin bound (0, 0) :=
  ⟨Int.le_refl 0, Int.le_refl 0, by simpa using nonneg⟩

theorem new_sound (isRequest : Bool) (version : HTTPVersion) (code : Int) :
    (HTTPMessageParser.new isRequest version code).Sound where
  nowLen_nonneg := Int.le_refl 0
  nextState := rfl
  slices := {
    path := sliceWithin_zero (Int.le_refl 0)
    query := by intro entry member; cases member
    header := by intro entry member; cases member
    body := sliceWithin_zero (Int.le_refl 0)
    detail := sliceWithin_zero (by simp [HTTPMessageParser.new]) }
  state := by cases isRequest <;> simp [HTTPMessageParser.new, State.Sound]

/-- A string that was built is the slice of the consumed bytes. -/
theorem sliceOf_eq_ok {consumed : Bytes} {context : HTTPMessageParser} {offset length : Int}
    {built : Bytes} (taken : sliceOf consumed context offset length = .ok built) :
    0 ≤ length ∧ 0 ≤ offset ∧ offset + length ≤ context.nowLen ∧
      built = (consumed.drop offset.toNat).take length.toNat := by
  unfold sliceOf at taken
  split_ifs at taken with negative inside
  cases taken
  exact ⟨by omega, inside.1, inside.2, rfl⟩

/-- No string is built from a negative length. -/
def RejectsNegative (string : StringCtor) : Prop :=
  ∀ context offset length built, string context offset length = .ok built → 0 ≤ length

theorem sliceOf_rejectsNegative (consumed : Bytes) : RejectsNegative (sliceOf consumed) :=
  fun _ _ _ _ taken => (sliceOf_eq_ok taken).1

theorem stringOf_rejectsNegative (memory : Memory) : RejectsNegative (stringOf memory) := by
  intro context offset length built taken
  unfold stringOf at taken
  split_ifs at taken with negative
  exact Int.not_lt.mp negative

/-! ## The steps of the states -/

/-- What a step leaves behind before `next_state` is entered. -/
structure StepSound (state : State) (context : HTTPMessageParser) : Prop where
  slices : SlicesWithin context.nowLen context
  stays : context.nextState = none → state.Sound context.nowLen context
  enters : ∀ next, context.nextState = some next → next.Sound context.nowLen context

theorem State.Sound.install {state other : State} {read : Int} {context : HTTPMessageParser}
    (sound : state.Sound read context) : state.Sound read { context with state := other } := by
  cases state <;> exact sound

theorem StepSound.install {state : State} {context : HTTPMessageParser}
    (sound : StepSound state context) :
    StepSound state { context with state := state } where
  slices := ⟨sound.slices.1, sound.slices.2, sound.slices.3, sound.slices.4, sound.slices.5⟩
  stays := fun none => (sound.stays none).install
  enters := fun next entered => (sound.enters next entered).install

section

variable {context : HTTPMessageParser}
variable (nonneg : 0 < context.nowLen) (fresh : context.nextState = none)
variable (slices : SlicesWithin (context.nowLen - 1) context)
include nonneg fresh slices

theorem StateMethod.matchStep_sound (state : StateMethod)
    (sound : (State.method state).Sound (context.nowLen - 1) context) :
    StepSound (.method (state.matchStep context).1) (state.matchStep context).2 := by
  have grown := slices.mono (show context.nowLen - 1 ≤ context.nowLen by omega)
  have urlSound : (State.url {}).Sound context.nowLen context :=
    ⟨fun _ => sound.1, sound.2, ⟨by decide, by simp; omega, by simp; omega, by simp⟩⟩
  unfold matchStep
  simp only
  split_ifs <;> refine ⟨⟨grown.1, grown.2, grown.3, grown.4, grown.5⟩, ?_, ?_⟩ <;>
    simp only [fresh, reduceCtorEq, false_implies, implies_true, forall_const, Option.some.injEq,
      forall_eq']
  all_goals first
    | exact sound
    | exact urlSound

omit nonneg in
theorem StateVersion.matchStep_sound (state : StateVersion)
    (sound : (State.version state).Sound (context.nowLen - 1) context) :
    StepSound (.version (state.matchStep context).1) (state.matchStep context).2 := by
  have grown := slices.mono (show context.nowLen - 1 ≤ context.nowLen by omega)
  have headerSound : (State.header {}).Sound context.nowLen context :=
    ⟨sound, fun entered => absurd rfl entered⟩
  unfold matchStep
  cases fixedByte? state.nowIdx with
  | some byte =>
      simp only
      split_ifs <;> refine ⟨⟨grown.1, grown.2, grown.3, grown.4, grown.5⟩, fun _ => sound, ?_⟩ <;>
        simp [fresh]
  | none =>
      simp only
      split_ifs <;> refine ⟨⟨grown.1, grown.2, grown.3, grown.4, grown.5⟩, fun _ => sound, ?_⟩ <;>
        simp only [fresh, reduceCtorEq, false_implies, implies_true, Option.some.injEq, forall_eq']
      all_goals first
        | exact sound
        | exact headerSound

theorem StateCode.matchStep_sound (state : StateCode)
    (sound : (State.code state).Sound (context.nowLen - 1) context) :
    StepSound (.code (state.matchStep context).1) (state.matchStep context).2 := by
  have grown := slices.mono (show context.nowLen - 1 ≤ context.nowLen by omega)
  have detailSound : (State.detail {}).Sound context.nowLen context :=
    ⟨sound, by simp, by simp; omega⟩
  unfold matchStep
  simp only
  split_ifs <;> refine ⟨⟨grown.1, grown.2, grown.3, grown.4, grown.5⟩, fun _ => sound, ?_⟩ <;>
    simp only [fresh, reduceCtorEq, false_implies, implies_true, Option.some.injEq, forall_eq']
  all_goals exact detailSound

omit nonneg in
theorem StateDetail.matchStep_sound (state : StateDetail)
    (sound : (State.detail state).Sound (context.nowLen - 1) context) :
    StepSound (.detail (state.matchStep context).1) (state.matchStep context).2 := by
  have grown := slices.mono (show context.nowLen - 1 ≤ context.nowLen by omega)
  obtain ⟨body, idx_nonneg, idx_le⟩ := sound
  have headerSound : (State.header {}).Sound context.nowLen context :=
    ⟨body, fun entered => absurd rfl entered⟩
  have detailWithin : SliceWithin (context.nowLen + 1)
      (context.nowLen - state.nowIdx, state.nowIdx + 1) :=
    ⟨by simp; omega, by simp; omega, by simp; omega⟩
  unfold matchStep
  simp only
  split_ifs
  · exact ⟨⟨grown.1, grown.2, grown.3, grown.4, grown.5⟩,
      fun _ => ⟨body, by simp; omega, by simp; omega⟩, by simp [fresh]⟩
  · refine ⟨⟨grown.1, grown.2, grown.3, grown.4, detailWithin⟩, by simp, ?_⟩
    simp only [Option.some.injEq, forall_eq']
    exact headerSound
  · exact ⟨⟨grown.1, grown.2, grown.3, grown.4, grown.5⟩,
      fun _ => ⟨body, by simp; omega, by simp; omega⟩, by simp [fresh]⟩

theorem StateBody.matchStep_sound (state : StateBody)
    (sound : (State.body state).Sound (context.nowLen - 1) context) :
    StepSound (.body (state.matchStep context).1) (state.matchStep context).2 := by
  have grown := slices.mono (show context.nowLen - 1 ≤ context.nowLen by omega)
  obtain ⟨untouched, idx_nonneg, detail⟩ := sound
  have bodyWithin := slices.body
  have detailGrown := detail.mono (show context.nowLen - 1 ≤ context.nowLen by omega)
  have stays (body : Slice) :
      (State.body { state with nowIdx := state.nowIdx + 1 }).Sound context.nowLen
        { context with bodyPos := body } :=
    ⟨fun zero => absurd zero (by simp; omega), by simp; omega, detailGrown⟩
  unfold matchStep
  simp only
  split_ifs with first last
  · have start : SliceWithin context.nowLen (context.nowLen - 1, context.bodyPos.2) := by
      rw [untouched first]
      exact ⟨by simp; omega, by simp, by simp⟩
    exact ⟨⟨grown.1, grown.2, grown.3, start, grown.5⟩, fun _ => stays _, by simp [fresh]⟩
  · obtain ⟨offset_nonneg, length_nonneg, inside⟩ := bodyWithin
    have whole : SliceWithin context.nowLen
        (context.bodyPos.1, context.nowLen - context.bodyPos.1) :=
      ⟨offset_nonneg, by simp; omega, by simp⟩
    exact ⟨⟨grown.1, grown.2, grown.3, whole, grown.5⟩, fun _ => stays _, by simp [fresh]⟩
  · exact ⟨grown, fun _ => stays _, by simp [fresh]⟩

variable {string : StringCtor}

omit nonneg in
theorem StateURL.recordPair_sound {state : StateURL} {after : HTTPMessageParser}
    (rejects : RejectsNegative string) (taken : state.recordPair string context = .ok after)
    (start : 0 ≤ state.nowKeyLen → 0 ≤ state.nowValueOffset)
    (length : 0 ≤ state.nowValueLen)
    (inside : state.nowValueOffset + state.nowValueLen ≤ context.nowLen) :
    SlicesWithin context.nowLen after ∧ after.nextState = none ∧
      after.bodyPos = context.bodyPos ∧ after.nowLen = context.nowLen := by
  have grown := slices.mono (show context.nowLen - 1 ≤ context.nowLen by omega)
  obtain ⟨key, built, rfl⟩ := map_eq_ok taken
  have keyLength := rejects _ _ _ _ built
  refine ⟨⟨grown.1, ?_, grown.3, grown.4, grown.5⟩, fresh, rfl, rfl⟩
  intro entry member
  rcases mem_insert_entries member with rfl | old
  · exact ⟨start keyLength, length, inside⟩
  · exact grown.query entry old

theorem StateURL.matchStep_sound (state : StateURL) {result : StateURL × HTTPMessageParser}
    (rejects : RejectsNegative string)
    (sound : (State.url state).Sound (context.nowLen - 1) context)
    (taken : state.matchStep string context = .ok result) :
    StepSound (.url result.1) result.2 := by
  have grown := slices.mono (show context.nowLen - 1 ≤ context.nowLen by omega)
  obtain ⟨untouched, body, keyGe, keyLe, valueLe, paired⟩ := sound
  have pathEnd : SlicesWithin context.nowLen (endPath context) := by
    obtain ⟨offset_nonneg, length_nonneg, inside⟩ := slices.path
    exact ⟨⟨offset_nonneg, by show 0 ≤ context.nowLen - context.pathPos.1 - 1; omega,
      by show context.pathPos.1 + (context.nowLen - context.pathPos.1 - 1) ≤ context.nowLen; omega⟩,
      grown.2, grown.3, grown.4, grown.5⟩
  have earlyKey : state.nowKeyOffset ≤ context.nowLen := by omega
  have earlyValue : state.nowValueOffset ≤ context.nowLen := by omega
  obtain ⟨⟨next, after⟩, matched, rfl⟩ := map_eq_ok taken
  unfold matchPart at matched
  simp only at matched
  split_ifs at matched with isQuestion isEqual isAmpersand isSpace noQuery complete first
  -- `?` ends the path and starts a key
  · cases matched
    have lateKey : -1 ≤ context.nowLen := by omega
    exact ⟨pathEnd, fun _ => ⟨by simp, body, ⟨lateKey, Int.le_refl _, earlyValue, paired⟩⟩,
      by simp [endPath, fresh]⟩
  -- `=` ends a key and starts a value
  · cases matched
    exact ⟨grown, fun _ => ⟨by simp, body, ⟨keyGe, by simp; omega, by simp, by simp; omega⟩⟩,
      by simp [fresh]⟩
  -- `&` records the pair
  · obtain ⟨recorded, pair, equal⟩ := map_eq_ok matched
    cases equal
    obtain ⟨slicesAfter, freshAfter, bodyAfter, lenAfter⟩ :=
      recordPair_sound fresh slices rejects pair paired (by dsimp only; omega)
        (by dsimp only; omega)
    rw [← lenAfter] at slicesAfter
    have lateKey : -1 ≤ context.nowLen := by omega
    have noValue : -1 ≤ _ := Int.le_trans lateKey lenAfter.ge
    exact ⟨slicesAfter, fun _ => ⟨by simp, bodyAfter.trans body,
      ⟨lateKey, lenAfter.ge, noValue, by simp⟩⟩, by simp [freshAfter]⟩
  -- a space ends the URL without a query
  · cases matched
    refine ⟨⟨pathEnd.1, pathEnd.2, pathEnd.3, pathEnd.4, pathEnd.5⟩, by simp [toVersion], ?_⟩
    intro next entered
    cases entered
    exact body
  -- a space records the last pair
  · obtain ⟨recorded, pair, equal⟩ := map_eq_ok matched
    cases equal
    obtain ⟨slicesAfter, freshAfter, bodyAfter, lenAfter⟩ :=
      recordPair_sound fresh slices rejects pair paired (by dsimp only; omega)
        (by dsimp only; omega)
    rw [← lenAfter] at slicesAfter
    refine ⟨⟨slicesAfter.1, slicesAfter.2, slicesAfter.3, slicesAfter.4, slicesAfter.5⟩,
      by simp [toVersion], ?_⟩
    intro next entered
    cases entered
    exact bodyAfter.trans body
  -- the first byte of the path
  · cases matched
    have path : SliceWithin context.nowLen (context.nowLen - 1, context.pathPos.2) := by
      rw [untouched first]
      exact ⟨by simp; omega, by simp, by simp⟩
    exact ⟨⟨path, grown.2, grown.3, grown.4, grown.5⟩,
      fun _ => ⟨by simp, body, ⟨keyGe, earlyKey, earlyValue, paired⟩⟩, by simp [fresh]⟩
  · cases matched
    exact ⟨grown, fun _ => ⟨by simp, body, ⟨keyGe, earlyKey, earlyValue, paired⟩⟩,
      by simp [fresh]⟩

omit nonneg in
theorem StateHeader.recordEntry_sound {state : StateHeader} {after : HTTPMessageParser}
    (taken : state.recordEntry string context = .ok after)
    (value : SliceWithin context.nowLen (state.nowValueOffset, state.nowValueLen)) :
    SlicesWithin context.nowLen after ∧ after.nextState = none ∧
      after.bodyPos = context.bodyPos ∧ after.nowLen = context.nowLen := by
  have grown := slices.mono (show context.nowLen - 1 ≤ context.nowLen by omega)
  unfold recordEntry at taken
  cases built : string context state.nowKeyOffset state.nowKeyLen with
  | error fault => simp [built] at taken
  | ok key =>
      have header : ∀ entry ∈ (context.headerPos.insert key
          (state.nowValueOffset, state.nowValueLen)).entries,
          SliceWithin context.nowLen entry.2 := by
        intro entry member
        rcases mem_insert_entries member with rfl | old
        · exact value
        · exact grown.header entry old
      simp only [built] at taken
      split_ifs at taken
      · unfold takeTotalLen at taken
        split at taken
        · cases taken
        · obtain ⟨totalLen, _, rfl⟩ := map_eq_ok taken
          exact ⟨⟨grown.1, grown.2, header, grown.4, grown.5⟩, fresh, rfl, rfl⟩
      · cases taken
        exact ⟨⟨grown.1, grown.2, header, grown.4, grown.5⟩, fresh, rfl, rfl⟩

theorem StateHeader.matchStep_sound (state : StateHeader)
    {result : StateHeader × HTTPMessageParser}
    (sound : (State.header state).Sound (context.nowLen - 1) context)
    (taken : state.matchStep string context = .ok result) :
    StepSound (.header result.1) result.2 := by
  have grown := slices.mono (show context.nowLen - 1 ≤ context.nowLen by omega)
  obtain ⟨body, counters⟩ := sound
  obtain ⟨⟨next, after⟩, matched, rfl⟩ := map_eq_ok taken
  unfold matchPart at matched
  unfold StateHeader.Sound at counters
  cases part : state.nowPart with
  | key =>
      simp only [part] at matched counters
      split_ifs at matched with isEnd first isColon
      · cases matched
        exact ⟨grown, fun _ => ⟨body, trivial⟩, by simp [fresh]⟩
      · cases matched
        refine ⟨grown, fun _ => ⟨body, ?_⟩, by simp [fresh]⟩
        simp only [StateHeader.Sound]
        omega
      · cases matched
        obtain ⟨offset_nonneg, offset_lt⟩ := counters first
        refine ⟨grown, fun _ => ⟨body, ?_⟩, by simp [fresh]⟩
        simp only [StateHeader.Sound]
        omega
      · cases matched
        obtain ⟨offset_nonneg, offset_lt⟩ := counters first
        refine ⟨grown, fun _ => ⟨body, ?_⟩, by simp [fresh]⟩
        simp only [StateHeader.Sound, part]
        omega
  | split =>
      simp only [part] at matched counters
      split_ifs at matched
      · cases matched
        refine ⟨grown, fun _ => ⟨body, ?_⟩, by simp [fresh]⟩
        simp only [StateHeader.Sound]
        omega
      · cases matched
        refine ⟨grown, fun _ => ⟨body, ?_⟩, by simp [fresh]⟩
        simp only [StateHeader.Sound, part]
        omega
  | value =>
      simp only [part] at matched counters
      split_ifs at matched
      · obtain ⟨recorded, entry, equal⟩ := map_eq_ok matched
        cases equal
        obtain ⟨slicesAfter, freshAfter, bodyAfter, lenAfter⟩ :=
          recordEntry_sound fresh slices entry
            ⟨by dsimp only; omega, by dsimp only; omega, by dsimp only; omega⟩
        rw [← lenAfter] at slicesAfter
        exact ⟨slicesAfter, fun _ => ⟨bodyAfter.trans body, trivial⟩, by simp [freshAfter]⟩
      · cases matched
        refine ⟨grown, fun _ => ⟨body, ?_⟩, by simp [fresh]⟩
        simp only [StateHeader.Sound, part]
        omega
  | «end» =>
      simp only [part] at matched
      split_ifs at matched
      · cases matched
        refine ⟨⟨grown.1, grown.2, grown.3, grown.4, grown.5⟩, by simp, ?_⟩
        intro next entered
        cases entered
        have detail := slices.detail
        rw [Int.sub_add_cancel] at detail
        exact ⟨fun _ => body, Int.le_refl 0, detail⟩
      · cases matched
        refine ⟨grown, fun _ => ⟨body, ?_⟩, by simp [fresh]⟩
        simp [StateHeader.Sound]
      · cases matched
        refine ⟨⟨grown.1, grown.2, grown.3, grown.4, grown.5⟩, fun _ => ⟨body, ?_⟩, by simp [fresh]⟩
        simp [StateHeader.Sound, part]

/-- The step of every state keeps the invariant. -/
theorem State.matchStep_sound (state : State) {after : HTTPMessageParser}
    (rejects : RejectsNegative string) (sound : state.Sound (context.nowLen - 1) context)
    (taken : state.matchStep string context = .ok after) :
    StepSound after.state after := by
  cases state with
  | method state =>
      cases taken
      exact (StateMethod.matchStep_sound nonneg fresh slices state sound).install
  | url state =>
      obtain ⟨result, stepped, rfl⟩ := map_eq_ok taken
      exact (StateURL.matchStep_sound nonneg fresh slices state rejects sound stepped).install
  | version state =>
      cases taken
      exact (StateVersion.matchStep_sound fresh slices state sound).install
  | code state =>
      cases taken
      exact (StateCode.matchStep_sound nonneg fresh slices state sound).install
  | detail state =>
      cases taken
      exact (StateDetail.matchStep_sound fresh slices state sound).install
  | header state =>
      obtain ⟨result, stepped, rfl⟩ := map_eq_ok taken
      exact (StateHeader.matchStep_sound nonneg fresh slices state sound stepped).install
  | body state =>
      cases taken
      exact (StateBody.matchStep_sound nonneg fresh slices state sound).install

end

/-! ## The parser -/

namespace HTTPMessageParser

/-- One byte read by a sound parser leaves a sound parser behind. -/
theorem Sound.matchCharWith {string : StringCtor} {parser after : HTTPMessageParser} {c : Byte}
    (rejects : RejectsNegative string) (sound : parser.Sound)
    (taken : parser.matchChar string c = .ok after) :
    after.enterNext.Sound := by
  have length := sound.nowLen_nonneg
  have before : parser.nowLen + 1 - 1 = parser.nowLen := by omega
  have stepped : StepSound after.state after := by
    let context : HTTPMessageParser := { parser with nowChar := c, nowLen := parser.nowLen + 1 }
    have positive : 0 < context.nowLen := by
      change 0 < parser.nowLen + 1
      omega
    have fresh : context.nextState = none := sound.nextState
    have step : parser.state.matchStep string context = .ok after := taken
    refine State.matchStep_sound positive fresh ?_ parser.state rejects ?_ step
    · dsimp only [context]
      rw [before]
      exact ⟨sound.slices.1, sound.slices.2, sound.slices.3, sound.slices.4, sound.slices.5⟩
    · dsimp only [context]
      rw [before]
      have state := sound.state
      cases known : parser.state <;> rw [known] at state <;> exact state
  have afterLength := matchChar_nowLen taken
  have slices := stepped.slices
  cases entered : after.nextState with
  | none =>
      simp only [enterNext, entered]
      exact ⟨by omega, entered, slices, stepped.stays entered⟩
  | some next =>
      simp only [enterNext, entered]
      refine ⟨by dsimp only; omega, rfl,
        ⟨slices.1, slices.2, slices.3, slices.4, slices.5⟩, ?_⟩
      have nextSound := stepped.enters next entered
      cases next <;> exact nextSound

theorem Sound.matchChar {consumed : Bytes} {parser after : HTTPMessageParser} {c : Byte}
    (sound : parser.Sound) (taken : parser.matchChar (sliceOf consumed) c = .ok after) :
    after.enterNext.Sound :=
  sound.matchCharWith (sliceOf_rejectsNegative consumed) taken

/-- A parser that has read any bytes without a mismatch is sound. -/
theorem Sound.consume {consumed bytes : Bytes} {parser after : HTTPMessageParser}
    (sound : parser.Sound) (run : consume consumed bytes parser = .ok (true, after)) :
    after.Sound := by
  induction bytes generalizing consumed parser with
  | nil =>
      cases run
      exact sound
  | cons c rest ih =>
      rw [Http.consume] at run
      cases taken : parser.matchChar (sliceOf (consumed ++ [c])) c with
      | error fault => simp [taken] at run
      | ok middle =>
          simp only [taken] at run
          by_cases stopped : middle.isMatch = false
          · rw [if_pos stopped] at run
            cases run
          · rw [if_neg stopped] at run
            exact ih (sound.matchChar taken) run

end HTTPMessageParser

end SimpleWebServer.Http
