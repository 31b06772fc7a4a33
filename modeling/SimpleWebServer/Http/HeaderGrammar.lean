import SimpleWebServer.Http.HTTPMessageWriter
import SimpleWebServer.Lib.Runs

/-!
# The grammar of a header

A header consists of lines with a key and a value, and ends with an empty line.  `LinePhase` is
the automaton that reads it byte by byte; it accepts a text with a body behind it exactly when
the grammar derives it.
-/

namespace SimpleWebServer.Http

open SimpleWebServer.Base SimpleWebServer.Lib

/-! ## Derivations -/

/-- A byte of a key. -/
def KeyByte (c : Byte) : Prop := c ≠ colon ∧ c ≠ CR

instance (c : Byte) : Decidable (KeyByte c) := inferInstanceAs (Decidable (_ ∧ _))

/-- Lines with a key and a value, and an empty line behind them. -/
inductive IsHeader : Bytes → Prop where
  | empty : IsHeader CRLF
  | line {key value rest : Bytes} (filled : key ≠ []) (isKey : ∀ c ∈ key, KeyByte c)
      (isValue : CR ∉ value) (others : IsHeader rest) :
      IsHeader (key ++ colon :: (value ++ CR :: LF :: rest))

/-- A header and `length` bytes behind it. -/
def IsMessageTail (length : Nat) (bytes : Bytes) : Prop :=
  ∃ header body, IsHeader header ∧ bytes = header ++ body ∧ body.length = length

/-! ## The automaton -/

/-- Where a reader of the header is. -/
inductive LinePhase where
  | lineStart
  | key
  | value
  | lineEnd
  | emptyEnd
  | body (count : Nat)
  deriving DecidableEq, Repr

namespace LinePhase

def step : LinePhase → Byte → Option LinePhase
  | .lineStart, c => if c = CR then some .emptyEnd else if c = colon then none else some .key
  | .key, c => if c = colon then some .value else if c = CR then none else some .key
  | .value, c => if c = CR then some .lineEnd else some .value
  | .lineEnd, c => if c = LF then some .lineStart else none
  | .emptyEnd, c => if c = LF then some (.body 0) else none
  | .body count, _ => some (.body (count + 1))

/-- What may follow in a phase, with `length` bytes of the body in the end. -/
def Follows (length : Nat) : LinePhase → Bytes → Prop
  | .lineStart, bytes => IsMessageTail length bytes
  | .key, bytes =>
      ∃ key value rest, (∀ c ∈ key, KeyByte c) ∧ CR ∉ value ∧ IsMessageTail length rest ∧
        bytes = key ++ colon :: (value ++ CR :: LF :: rest)
  | .value, bytes =>
      ∃ value rest, CR ∉ value ∧ IsMessageTail length rest ∧ bytes = value ++ CR :: LF :: rest
  | .lineEnd, bytes => ∃ rest, IsMessageTail length rest ∧ bytes = LF :: rest
  | .emptyEnd, bytes => ∃ body, bytes = LF :: body ∧ body.length = length
  | .body count, bytes => count + bytes.length = length

/-- A line start is followed by an empty line or by a key. -/
theorem isMessageTail_iff {length : Nat} {bytes : Bytes} :
    IsMessageTail length bytes ↔
      (∃ rest, bytes = CR :: rest ∧ Follows length .emptyEnd rest) ∨
        ∃ c rest, bytes = c :: rest ∧ KeyByte c ∧ Follows length .key rest := by
  constructor
  · rintro ⟨header, body, isHeader, rfl, count⟩
    cases isHeader with
    | empty => exact .inl ⟨LF :: body, rfl, body, rfl, count⟩
    | @line key value rest filled isKey isValue others =>
        obtain ⟨c, more, rfl⟩ := List.exists_cons_of_ne_nil filled
        refine .inr ⟨c, more ++ colon :: (value ++ CR :: LF :: (rest ++ body)), by simp,
          isKey c List.mem_cons_self, more, value, rest ++ body,
          fun d member => isKey d (List.mem_cons_of_mem c member), isValue,
          ⟨rest, body, others, rfl, count⟩, rfl⟩
  · rintro (⟨rest, rfl, body, rfl, count⟩ | ⟨c, more, rfl, keyByte, key, value, rest, isKey,
      isValue, ⟨header, body, isHeader, rfl, count⟩, rfl⟩)
    · exact ⟨CRLF, body, .empty, rfl, count⟩
    · refine ⟨(c :: key) ++ colon :: (value ++ CR :: LF :: header), body,
        .line (List.cons_ne_nil _ _) ?_ isValue isHeader, by simp, count⟩
      simpa using ⟨keyByte, isKey⟩

/-- What follows behind the next byte. -/
theorem follows_cons_iff {length : Nat} {phase : LinePhase} {c : Byte} {rest : Bytes} :
    Follows length phase (c :: rest) ↔
      ∃ next, phase.step c = some next ∧ Follows length next rest := by
  cases phase with
  | lineStart =>
      change IsMessageTail length (c :: rest) ↔ _
      rw [isMessageTail_iff]
      constructor
      · rintro (⟨more, same, follows⟩ | ⟨d, more, same, keyByte, follows⟩)
        · obtain ⟨rfl, rfl⟩ := List.cons.inj same
          exact ⟨.emptyEnd, by simp [step], follows⟩
        · obtain ⟨rfl, rfl⟩ := List.cons.inj same
          exact ⟨.key, by rw [step, if_neg keyByte.2, if_neg keyByte.1], follows⟩
      · rintro ⟨next, taken, follows⟩
        simp only [step] at taken
        split_ifs at taken with isEnd isColon <;> cases taken
        · exact .inl ⟨rest, by rw [isEnd], follows⟩
        · exact .inr ⟨c, rest, rfl, ⟨isColon, isEnd⟩, follows⟩
  | key =>
      constructor
      · rintro ⟨key, value, more, isKey, isValue, follows, same⟩
        cases key with
        | nil =>
            obtain ⟨rfl, rfl⟩ := List.cons.inj same
            exact ⟨.value, by simp [step], value, more, isValue, follows, rfl⟩
        | cons d key =>
            obtain ⟨rfl, rfl⟩ := List.cons.inj same
            have keyByte := isKey c List.mem_cons_self
            exact ⟨.key, by rw [step, if_neg keyByte.1, if_neg keyByte.2], key, value, more,
              fun d member => isKey d (List.mem_cons_of_mem c member), isValue, follows, rfl⟩
      · rintro ⟨next, taken, follows⟩
        simp only [step] at taken
        split_ifs at taken with isColon isEnd <;> cases taken
        · obtain ⟨value, more, isValue, follows, rfl⟩ := follows
          exact ⟨[], value, more, by simp, isValue, follows, by rw [isColon]; rfl⟩
        · obtain ⟨key, value, more, isKey, isValue, follows, rfl⟩ := follows
          exact ⟨c :: key, value, more, by simpa using ⟨⟨isColon, isEnd⟩, isKey⟩, isValue, follows,
            rfl⟩
  | value =>
      constructor
      · rintro ⟨value, more, isValue, follows, same⟩
        cases value with
        | nil =>
            obtain ⟨rfl, rfl⟩ := List.cons.inj same
            exact ⟨.lineEnd, by simp [step], more, follows, rfl⟩
        | cons d value =>
            obtain ⟨rfl, rfl⟩ := List.cons.inj same
            rw [List.mem_cons, not_or] at isValue
            exact ⟨.value, by rw [step, if_neg (Ne.symm isValue.1)], value, more, isValue.2,
              follows, rfl⟩
      · rintro ⟨next, taken, follows⟩
        simp only [step] at taken
        split_ifs at taken with isEnd <;> cases taken
        · obtain ⟨more, follows, rfl⟩ := follows
          exact ⟨[], more, List.not_mem_nil, follows, by rw [isEnd]; rfl⟩
        · obtain ⟨value, more, isValue, follows, rfl⟩ := follows
          exact ⟨c :: value, more, by simpa using ⟨Ne.symm isEnd, isValue⟩, follows, rfl⟩
  | lineEnd =>
      constructor
      · rintro ⟨more, follows, same⟩
        obtain ⟨rfl, rfl⟩ := List.cons.inj same
        exact ⟨.lineStart, by simp [step], follows⟩
      · rintro ⟨next, taken, follows⟩
        simp only [step] at taken
        split_ifs at taken with isEnd
        cases taken
        exact ⟨rest, follows, by rw [isEnd]⟩
  | emptyEnd =>
      constructor
      · rintro ⟨body, same, count⟩
        obtain ⟨rfl, rfl⟩ := List.cons.inj same
        exact ⟨.body 0, by simp [step], (Nat.zero_add _).trans count⟩
      · rintro ⟨next, taken, follows⟩
        simp only [step] at taken
        split_ifs at taken with isEnd
        cases taken
        exact ⟨rest, by rw [isEnd], (Nat.zero_add _).symm.trans follows⟩
  | body count =>
      simp only [Follows, step, Option.some.injEq, exists_eq_left', List.length_cons]
      omega

theorem follows_nil_iff {length : Nat} {phase : LinePhase} :
    Follows length phase [] ↔ phase = .body length := by
  cases phase with
  | lineStart =>
      change IsMessageTail length [] ↔ _
      rw [isMessageTail_iff]
      simp
  | key => simp [Follows]
  | value => simp [Follows]
  | lineEnd => simp [Follows]
  | emptyEnd => simp [Follows]
  | body count => simp [Follows]

/-- The automaton accepts what may follow. -/
theorem runFrom_iff_follows {length : Nat} {phase : LinePhase} {bytes : Bytes} :
    Runs.runFrom step phase bytes = some (.body length) ↔ Follows length phase bytes := by
  induction bytes generalizing phase with
  | nil => rw [Runs.runFrom_nil, follows_nil_iff, Option.some.injEq]
  | cons c rest ih =>
      rw [Runs.runFrom_cons, Option.bind_eq_some_iff, follows_cons_iff]
      simp only [ih]

end LinePhase

end SimpleWebServer.Http
