import SimpleWebServer.Http.ParserInvariant

/-!
# Sequences of calls of `parser_message`

A caller hands a message over in pieces.  Before each call the bytes may have moved, so
every call comes with its own memory; what connects the calls is that each piece lies
behind a copy of all bytes handed over before.
-/

namespace SimpleWebServer.Http

open SimpleWebServer.Base

/-- The arguments of one call of `parser_message` and the memory it is made in. -/
structure Call where
  memory : Memory
  str : Int
  len : Nat

/-- The call passes `chunk`, and the bytes `consumed` lie in front of it. -/
def Call.Addresses (call : Call) (consumed chunk : Bytes) : Prop :=
  ∃ start : Int, call.memory.Holds start (consumed ++ chunk) ∧
    call.str = start + consumed.length ∧ call.len = chunk.length

/-- Each call passes its chunk behind a copy of everything passed before. -/
def CallsAddress : Bytes → List Call → List Bytes → Prop
  | _, [], [] => True
  | consumed, call :: calls, chunk :: chunks =>
      call.Addresses consumed chunk ∧ CallsAddress (consumed ++ chunk) calls chunks
  | _, _, _ => False

namespace HTTPMessageParser

/-- Call after call, as long as the answer is `true`; the answer is the last one. -/
def parserMessagesWith (string : Memory → StringCtor) :
    List Call → HTTPMessageParser → Except Fault (Bool × HTTPMessageParser)
  | [], parser => .ok (parser.isMatch, parser)
  | call :: calls, parser =>
      match parser.parserMessageWith string call.memory call.str call.len with
      | .error fault => .error fault
      | .ok (false, parser) => .ok (false, parser)
      | .ok (true, parser) => parserMessagesWith string calls parser

/-- The calls of the program. -/
def parserMessages (calls : List Call) (parser : HTTPMessageParser) :
    Except Fault (Bool × HTTPMessageParser) :=
  parserMessagesWith stringOf calls parser

/-- The calls with every slice checked against the bytes consumed so far. -/
def parserMessagesChecked (calls : List Call) (parser : HTTPMessageParser) :
    Except Fault (Bool × HTTPMessageParser) :=
  parserMessagesWith checkedStringOf calls parser

end HTTPMessageParser

/-- An outcome without the address the bytes happened to have. -/
def forgetBegin (outcome : Except Fault (Bool × HTTPMessageParser)) :
    Except Fault (Bool × HTTPMessageParser) :=
  outcome.map fun result => (result.1, result.2.rebase 0)

@[simp]
theorem forgetBegin_error (fault : Fault) : forgetBegin (.error fault) = .error fault := rfl

@[simp]
theorem forgetBegin_ok (verdict : Bool) (parser : HTTPMessageParser) :
    forgetBegin (.ok (verdict, parser)) = .ok (verdict, parser.rebase 0) := rfl

/-- A run does not see the address its parser was left with. -/
theorem consume_rebase (consumed bytes : Bytes) (parser : HTTPMessageParser) (beginPtr : Int) :
    consume consumed bytes (parser.rebase beginPtr) =
      (consume consumed bytes parser).map fun result =>
        (result.1, result.2.rebase beginPtr) := by
  induction bytes generalizing consumed parser with
  | nil => rfl
  | cons c rest ih =>
      have agree : StringsAgree (sliceOf (consumed ++ [c])) (sliceOf (consumed ++ [c])) beginPtr
          (parser.nowLen + 1) := fun context offset length _ => rfl
      rw [consume, consume, HTTPMessageParser.matchChar_rebase agree parser c rfl]
      cases parser.matchChar (sliceOf (consumed ++ [c])) c with
      | error fault => rfl
      | ok after =>
          simp only [Except.map]
          by_cases stopped : after.isMatch = false
          · rw [if_pos stopped, if_pos stopped]
          · rw [if_neg stopped, if_neg stopped, HTTPMessageParser.rebase_enterNext]
            exact ih (consumed ++ [c]) after.enterNext

theorem forgetBegin_consume_rebase (consumed bytes : Bytes) (parser : HTTPMessageParser)
    (beginPtr : Int) :
    forgetBegin (consume consumed bytes (parser.rebase beginPtr)) =
      forgetBegin (consume consumed bytes parser) := by
  rw [consume_rebase]
  cases consume consumed bytes parser <;> rfl

/-- The outcome of a matching parser's calls is the outcome of the run over their bytes. -/
theorem parserMessagesChecked_eq {consumed : Bytes} {calls : List Call} {chunks : List Bytes}
    (addressed : CallsAddress consumed calls chunks) {parser : HTTPMessageParser}
    (length : parser.nowLen = consumed.length) (matching : parser.isMatch = true) :
    forgetBegin (parser.parserMessagesChecked calls) =
      forgetBegin (consume consumed chunks.flatten parser) := by
  induction calls generalizing consumed chunks parser with
  | nil =>
      cases chunks with
      | cons chunk chunks => cases addressed
      | nil =>
          rw [HTTPMessageParser.parserMessagesChecked, HTTPMessageParser.parserMessagesWith,
            matching]
          rfl
  | cons call calls ih =>
      cases chunks with
      | nil => cases addressed
      | cons chunk chunks =>
          obtain ⟨⟨start, holds, address, count⟩, rest⟩ := addressed
          have called := HTTPMessageParser.parserMessageChecked_eq holds length matching
          rw [← address, ← count, HTTPMessageParser.parserMessageChecked] at called
          rw [HTTPMessageParser.parserMessagesChecked, HTTPMessageParser.parserMessagesWith, called,
            List.flatten_cons, consume_append]
          cases run : consume consumed chunk parser with
          | error fault => rfl
          | ok result =>
              obtain ⟨verdict, middle⟩ := result
              cases verdict with
              | false => rfl
              | true =>
                  have middleLength :
                      (middle.rebase start).nowLen = (consumed ++ chunk).length := by
                    rw [HTTPMessageParser.rebase_nowLen, consume_nowLen run, length]
                    simp
                  have middleMatching := consume_verdict matching run
                  have tail := ih rest middleLength middleMatching
                  rw [forgetBegin_consume_rebase] at tail
                  exact tail

/-- Unless a checked call stops at a slice outside the consumed bytes, the calls are the same. -/
theorem parserMessages_refined (calls : List Call) (parser : HTTPMessageParser) :
    Refined (parser.parserMessagesChecked calls) (parser.parserMessages calls) := by
  unfold HTTPMessageParser.parserMessagesChecked HTTPMessageParser.parserMessages
  induction calls generalizing parser with
  | nil => exact .inr rfl
  | cons call calls ih =>
      have head := parser.parserMessage_refined call.memory call.str call.len
      unfold HTTPMessageParser.parserMessageChecked HTTPMessageParser.parserMessage at head
      rw [HTTPMessageParser.parserMessagesWith, HTTPMessageParser.parserMessagesWith]
      rcases head with outside | same
      · exact .inl (by rw [outside])
      · rw [same]
        cases parser.parserMessageWith checkedStringOf call.memory call.str call.len with
        | error fault => exact .inr rfl
        | ok result =>
            obtain ⟨verdict, after⟩ := result
            cases verdict with
            | false => exact .inr rfl
            | true => exact ih after

/-- The calls of the program, when every slice the run takes lies within its bytes. -/
theorem parserMessages_eq {consumed : Bytes} {calls : List Call} {chunks : List Bytes}
    (addressed : CallsAddress consumed calls chunks) {parser : HTTPMessageParser}
    (length : parser.nowLen = consumed.length) (matching : parser.isMatch = true)
    (inside : consume consumed chunks.flatten parser ≠ .error .sliceOutside) :
    forgetBegin (parser.parserMessages calls) =
      forgetBegin (consume consumed chunks.flatten parser) := by
  have checked := parserMessagesChecked_eq addressed length matching
  rcases parserMessages_refined calls parser with outside | same
  · rw [outside, forgetBegin_error] at checked
    cases run : consume consumed chunks.flatten parser with
    | error fault =>
        rw [run, forgetBegin_error] at checked
        rw [run] at inside
        exact absurd checked.symm inside
    | ok result =>
        rw [run] at checked
        cases checked
  · rw [same, checked]

/-! ## One contiguous buffer -/

/-- The calls that pass the chunks one behind the other from `str` on. -/
def placedCalls (memory : Memory) : Int → List Bytes → List Call
  | _, [] => []
  | str, chunk :: chunks =>
      ⟨memory, str, chunk.length⟩ :: placedCalls memory (str + chunk.length) chunks

theorem placedCalls_address {memory : Memory} {start : Int} {consumed : Bytes}
    {chunks : List Bytes} (holds : memory.Holds start (consumed ++ chunks.flatten)) :
    CallsAddress consumed (placedCalls memory (start + consumed.length) chunks) chunks := by
  induction chunks generalizing consumed with
  | nil => trivial
  | cons chunk chunks ih =>
      rw [List.flatten_cons, ← List.append_assoc] at holds
      have here := ((memory.holds_append_iff _ _ _).mp holds).1
      have next := ih holds
      rw [List.length_append, Nat.cast_add, ← Int.add_assoc] at next
      exact ⟨⟨start, here, rfl, rfl⟩, next⟩

end SimpleWebServer.Http
