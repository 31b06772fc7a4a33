import SimpleWebServer.Http.ParserMoves

/-!
# Which request lines are recognised

A request line is a method, a target and a version.  The parser compares the letters one at a
time: against a method that the first letter chooses, and against a version whose digits are
carried by a counter and a flag.  This module says which bytes lead a new parser up to the
header, and that no others do.
-/

namespace SimpleWebServer.Http

open SimpleWebServer.Base

/-! ## The version -/

/-- What stands behind a version. -/
def versionEnd (isRequest : Bool) : Bytes := if isRequest then CRLF else [SP]

theorem versionEnd_request : versionEnd true = [CR, LF] := rfl

theorem versionEnd_response : versionEnd false = [SP] := rfl

theorem versionEnd_pos (isRequest : Bool) : 0 < (versionEnd isRequest).length := by
  cases isRequest <;> decide

/-- The text of a version with its end. -/
def VersionWord (isRequest : Bool) (version : HTTPVersion) (word : Bytes) : Prop :=
  ∃ text, getVersionStr version = .ok text ∧ word = text ++ versionEnd isRequest

/-- The two digits by which the versions differ. -/
def VersionDigits : HTTPVersion → Byte → Byte → Prop
  | .v0_9, major, minor => major = 48 ∧ minor = 57
  | .v1_0, major, minor => major = 49 ∧ minor = 48
  | .v1_1, major, minor => major = 49 ∧ minor = 49
  | _, _, _ => False

theorem versionDigits_flag {known : HTTPVersion} {flag : Bool} {minor : Byte}
    (digits : VersionDigits known (if flag then 48 else 49) minor) :
    flag = true ↔ known = .v0_9 := by
  cases known <;> cases flag <;> simp_all [VersionDigits]

/-- A beginning of a word goes on with the byte that the word has there. -/
theorem concat_prefix_iff {begun word : Bytes} {c : Byte} :
    begun ++ [c] <+: word ↔ begun <+: word ∧ word[begun.length]? = some c := by
  constructor
  · rintro ⟨rest, rfl⟩
    exact ⟨⟨c :: rest, by simp⟩, by simp⟩
  · rintro ⟨⟨rest, rfl⟩, found⟩
    cases rest with
    | nil => simp at found
    | cons next rest =>
        obtain rfl : next = c := by simpa using found
        exact ⟨rest, by simp⟩

namespace VersionWord

variable {isRequest : Bool} {version other : HTTPVersion} {word otherWord : Bytes}

theorem eq_digits (isWord : VersionWord isRequest version word) :
    ∃ major minor, VersionDigits version major minor ∧
      word = [72, 84, 84, 80, 47, major, 46, minor] ++ versionEnd isRequest := by
  obtain ⟨text, known, rfl⟩ := isWord
  cases version with
  | v0_9 =>
      cases known
      exact ⟨48, 57, ⟨rfl, rfl⟩, congrArg (· ++ _) (by decide +kernel)⟩
  | v1_0 =>
      cases known
      exact ⟨49, 48, ⟨rfl, rfl⟩, congrArg (· ++ _) (by decide +kernel)⟩
  | v1_1 =>
      cases known
      exact ⟨49, 49, ⟨rfl, rfl⟩, congrArg (· ++ _) (by decide +kernel)⟩
  | v2 => cases known
  | v3 => cases known

theorem of_digits (isRequest : Bool) {major minor : Byte}
    (digits : VersionDigits version major minor) :
    VersionWord isRequest version
      ([72, 84, 84, 80, 47, major, 46, minor] ++ versionEnd isRequest) := by
  cases version with
  | v0_9 =>
      obtain ⟨rfl, rfl⟩ := digits
      exact ⟨_, rfl, congrArg (· ++ _) (by decide +kernel)⟩
  | v1_0 =>
      obtain ⟨rfl, rfl⟩ := digits
      exact ⟨_, rfl, congrArg (· ++ _) (by decide +kernel)⟩
  | v1_1 =>
      obtain ⟨rfl, rfl⟩ := digits
      exact ⟨_, rfl, congrArg (· ++ _) (by decide +kernel)⟩
  | v2 => exact digits.elim
  | v3 => exact digits.elim

theorem length (isWord : VersionWord isRequest version word) :
    word.length = 8 + (versionEnd isRequest).length := by
  obtain ⟨major, minor, -, rfl⟩ := isWord.eq_digits
  rw [List.length_append]
  rfl

/-- All words have the letters and the dot. -/
theorem getElem_fixed (isWord : VersionWord isRequest version word) {idx : Nat} {byte : Byte}
    (fixed : StateVersion.fixedByte? idx = some byte) : word[idx]? = some byte := by
  obtain ⟨major, minor, -, rfl⟩ := isWord.eq_digits
  unfold StateVersion.fixedByte? at fixed
  split at fixed <;> cases fixed <;> rfl

/-- The first digit tells the version `0.9` from the others. -/
theorem getElem_major (isWord : VersionWord isRequest version word) :
    (version = .v0_9 ∧ word[5]? = some 48) ∨ (version ≠ .v0_9 ∧ word[5]? = some 49) := by
  obtain ⟨major, minor, digits, rfl⟩ := isWord.eq_digits
  cases version with
  | v0_9 => exact .inl ⟨rfl, congrArg some digits.1⟩
  | v1_0 => exact .inr ⟨by decide, congrArg some digits.1⟩
  | v1_1 => exact .inr ⟨by decide, congrArg some digits.1⟩
  | v2 => exact digits.elim
  | v3 => exact digits.elim

/-- The second digit tells the other two apart. -/
theorem getElem_minor (isWord : VersionWord isRequest version word) :
    (version = .v0_9 ∧ word[7]? = some 57) ∨ (version = .v1_0 ∧ word[7]? = some 48) ∨
      (version = .v1_1 ∧ word[7]? = some 49) := by
  obtain ⟨major, minor, digits, rfl⟩ := isWord.eq_digits
  cases version with
  | v0_9 => exact .inl ⟨rfl, congrArg some digits.2⟩
  | v1_0 => exact .inr (.inl ⟨rfl, congrArg some digits.2⟩)
  | v1_1 => exact .inr (.inr ⟨rfl, congrArg some digits.2⟩)
  | v2 => exact digits.elim
  | v3 => exact digits.elim

theorem getElem_end (isWord : VersionWord isRequest version word) (idx : Nat) :
    word[8 + idx]? = (versionEnd isRequest)[idx]? := by
  obtain ⟨major, minor, -, rfl⟩ := isWord.eq_digits
  rw [List.getElem?_append_right (Nat.le_add_right 8 idx)]
  congr 1
  exact Nat.add_sub_cancel_left 8 idx

/-- In front of the first digit all words are the same. -/
theorem take_five (isWord : VersionWord isRequest version word) :
    word.take 5 = [72, 84, 84, 80, 47] := by
  obtain ⟨major, minor, -, rfl⟩ := isWord.eq_digits
  rfl

/-- In front of the second digit only the first one differs. -/
theorem take_seven (isWord : VersionWord isRequest version word) :
    word.take 7 = [72, 84, 84, 80, 47, if version = .v0_9 then 48 else 49, 46] := by
  obtain ⟨major, minor, digits, rfl⟩ := isWord.eq_digits
  cases version with
  | v0_9 =>
      obtain ⟨rfl, rfl⟩ := digits
      rfl
  | v1_0 =>
      obtain ⟨rfl, rfl⟩ := digits
      rfl
  | v1_1 =>
      obtain ⟨rfl, rfl⟩ := digits
      rfl
  | v2 => exact digits.elim
  | v3 => exact digits.elim

/-- No word goes on behind another one. -/
theorem eq_of_append {more : Bytes} (isWord : VersionWord isRequest version word)
    (longer : VersionWord isRequest other (word ++ more)) : version = other ∧ more = [] := by
  have lengths := longer.length
  rw [List.length_append, isWord.length] at lengths
  obtain rfl : more = [] := List.eq_nil_of_length_eq_zero (by omega)
  rw [List.append_nil] at longer
  refine ⟨?_, rfl⟩
  rcases isWord.getElem_minor with ⟨rfl, digit⟩ | ⟨rfl, digit⟩ | ⟨rfl, digit⟩ <;>
    rcases longer.getElem_minor with ⟨rfl, found⟩ | ⟨rfl, found⟩ | ⟨rfl, found⟩ <;>
      first | rfl | exact absurd (digit.symm.trans found) (by decide)

end VersionWord

/-- The counters and the version are those of a word that begins with `begun` and goes on. -/
structure StateVersion.Inside (state : StateVersion) (isRequest : Bool) (version : HTTPVersion)
    (begun : Bytes) : Prop where
  nowIdx : state.nowIdx = begun.length
  goesOn : ∃ known word, VersionWord isRequest known word ∧ begun <+: word ∧
    begun.length < word.length ∧
    (5 < begun.length → (state.isPrefixHttp0 = true ↔ known = .v0_9)) ∧
    (7 < begun.length → version = known)

/-- The positions at which all words have the same byte. -/
theorem StateVersion.fixedByte_isSome_iff {idx : Nat} :
    (fixedByte? idx).isSome ↔ idx < 5 ∨ idx = 6 := by
  constructor
  · intro fixed
    unfold fixedByte? at fixed
    split at fixed <;> first | omega | cases fixed
  · intro position
    have listed : idx ∈ [0, 1, 2, 3, 4, 6] := by
      simp only [List.mem_cons, List.not_mem_nil]
      omega
    exact (by decide : ∀ idx ∈ [0, 1, 2, 3, 4, 6], (fixedByte? idx).isSome) idx listed

theorem StateVersion.inside_nil (isRequest : Bool) (version : HTTPVersion) :
    StateVersion.Inside {} isRequest version [] where
  nowIdx := rfl
  goesOn := ⟨.v1_0, _, .of_digits isRequest ⟨rfl, rfl⟩, List.nil_prefix, by simp, by simp, by simp⟩

/-- One more byte of a word that still goes on. -/
theorem StateVersion.inside_concat {isRequest : Bool} {known version : HTTPVersion}
    {begun word : Bytes} {c : Byte} {flag : Bool} (isWord : VersionWord isRequest known word)
    (begins : begun <+: word) (found : word[begun.length]? = some c)
    (short : begun.length + 1 < word.length)
    (flagged : 4 < begun.length → (flag = true ↔ known = .v0_9))
    (versioned : 6 < begun.length → version = known) :
    StateVersion.Inside ⟨begun.length + 1, flag⟩ isRequest version (begun ++ [c]) where
  nowIdx := by rw [List.length_append, List.length_singleton]
  goesOn := by
    refine ⟨known, word, isWord, concat_prefix_iff.mpr ⟨begins, found⟩, ?_⟩
    rw [List.length_append, List.length_singleton]
    exact ⟨short, fun behind => flagged (by omega), fun behind => versioned (by omega)⟩

/-- The bytes that may stand at a position of a version. -/
def StateVersion.Allows (state : StateVersion) (isRequest : Bool) (c : Byte) : Prop :=
  fixedByte? state.nowIdx = some c ∨
    state.nowIdx = 5 ∧ (c = 48 ∨ c = 49) ∨
    state.nowIdx = 7 ∧
      (state.isPrefixHttp0 = true ∧ c = 57 ∨ state.isPrefixHttp0 = false ∧ (c = 48 ∨ c = 49)) ∨
    8 ≤ state.nowIdx ∧ (versionEnd isRequest)[state.nowIdx - 8]? = some c

/-- What one byte does in the version. -/
inductive VersionMove (state : StateVersion) (context : HTTPMessageParser) :
    StateVersion → HTTPMessageParser → Prop where
  | fixed (char : StateVersion.fixedByte? state.nowIdx = some context.nowChar) :
      VersionMove state context { state with nowIdx := state.nowIdx + 1 } context
  | major (place : state.nowIdx = 5) (flag : Bool)
      (char : context.nowChar = if flag then 48 else 49) :
      VersionMove state context { nowIdx := state.nowIdx + 1, isPrefixHttp0 := flag } context
  | minor (place : state.nowIdx = 7) (known : HTTPVersion)
      (char : VersionDigits known (if state.isPrefixHttp0 then 48 else 49) context.nowChar) :
      VersionMove state context { state with nowIdx := state.nowIdx + 1 }
        { context with version := known }
  | carriageReturn (place : state.nowIdx = 8) (request : context.isRequest = true)
      (char : context.nowChar = CR) :
      VersionMove state context { state with nowIdx := state.nowIdx + 1 } context
  | space (place : state.nowIdx = 8) (response : context.isRequest = false)
      (char : context.nowChar = SP) :
      VersionMove state context { state with nowIdx := state.nowIdx + 1 }
        { context with nextState := some (.code {}) }
  | lineFeed (place : state.nowIdx = 9) (request : context.isRequest = true)
      (char : context.nowChar = LF) :
      VersionMove state context { state with nowIdx := state.nowIdx + 1 }
        { context with nextState := some (.header {}) }
  | mismatch (char : ¬ state.Allows context.isRequest context.nowChar) :
      VersionMove state context { state with nowIdx := state.nowIdx + 1 }
        { context with isMatch := false }

theorem StateVersion.allows_end {state : StateVersion} {isRequest : Bool} {c : Byte}
    (behind : 8 ≤ state.nowIdx) (allowed : state.Allows isRequest c) :
    (versionEnd isRequest)[state.nowIdx - 8]? = some c := by
  rcases allowed with fixed | here | here | here
  · have position := fixedByte_isSome_iff.mp (Option.isSome_iff_exists.mpr ⟨c, fixed⟩)
    omega
  · omega
  · omega
  · exact here.2

/-- A step of the version is one of the moves. -/
theorem StateVersion.matchStep_move (state : StateVersion) (context : HTTPMessageParser) :
    VersionMove state context (state.matchStep context).1 (state.matchStep context).2 := by
  unfold matchStep
  simp only
  cases fixed : fixedByte? state.nowIdx with
  | some byte =>
      have position := fixedByte_isSome_iff.mp (Option.isSome_iff_exists.mpr ⟨byte, fixed⟩)
      simp only
      split_ifs with char
      · refine .mismatch fun allowed => ?_
        rcases allowed with here | here | here | here
        · exact char (Option.some.inj (here.symm.trans fixed))
        all_goals omega
      · exact .fixed (by rw [fixed, not_not.mp char])
  | none =>
      simp only
      split_ifs with five zero one seven nine zero one eight request response ten lineFeed
      · exact .major five true zero
      · exact .major five false one
      · refine .mismatch ?_
        simp [Allows, five, zero, one, fixedByte?]
      · exact .minor seven .v0_9 (by simp [VersionDigits, nine])
      · exact .minor seven .v1_0 (by simp [VersionDigits, zero])
      · exact .minor seven .v1_1 (by simp [VersionDigits, one])
      · refine .mismatch ?_
        cases flag : state.isPrefixHttp0 <;> simp_all [Allows, fixedByte?]
      · exact .carriageReturn eight request.1 request.2
      · exact .space eight response.1 response.2
      · refine .mismatch fun allowed => ?_
        have found := allows_end (by omega) allowed
        rw [eight] at found
        cases mode : context.isRequest with
        | true => exact request ⟨mode, by rw [mode] at found; exact (Option.some.inj found).symm⟩
        | false => exact response ⟨mode, by rw [mode] at found; exact (Option.some.inj found).symm⟩
      · exact .lineFeed ten lineFeed.1 lineFeed.2
      · refine .mismatch fun allowed => ?_
        have found := allows_end (by omega) allowed
        rw [ten] at found
        cases mode : context.isRequest with
        | true => exact lineFeed ⟨mode, by rw [mode] at found; exact (Option.some.inj found).symm⟩
        | false =>
            rw [mode] at found
            cases found
      · refine .mismatch fun allowed => ?_
        have behind : 10 ≤ state.nowIdx := by
          by_contra before
          have isFixed :=
            fixedByte_isSome_iff.mpr (show state.nowIdx < 5 ∨ state.nowIdx = 6 by omega)
          rw [fixed] at isFixed
          cases isFixed
        have found := allows_end (by omega) allowed
        have inside := (List.getElem?_eq_some_iff.mp found).1
        have short : (versionEnd context.isRequest).length ≤ 2 := by
          cases context.isRequest <;> decide
        omega

section

variable {state next : StateVersion} {context after : HTTPMessageParser} {begun : Bytes}

theorem VersionMove.nowIdx (move : VersionMove state context next after) :
    next.nowIdx = state.nowIdx + 1 := by
  cases move <;> rfl

theorem VersionMove.method (move : VersionMove state context next after) :
    after.method = context.method := by
  cases move <;> rfl

/-- A byte of the version that matches goes on with a word or ends one. -/
theorem VersionMove.inside (move : VersionMove state context next after)
    (inside : state.Inside context.isRequest context.version begun)
    (matching : after.isMatch = true) :
    next.Inside context.isRequest after.version (begun ++ [context.nowChar]) ∧
        after.nextState = context.nextState ∨
      VersionWord context.isRequest after.version (begun ++ [context.nowChar]) ∧
        after.nextState = some (if context.isRequest then .header {} else .code {}) := by
  obtain ⟨place, known, word, isWord, begins, short, flagged, versioned⟩ := inside
  have whole := isWord.length
  cases move with
  | fixed char =>
      have position := StateVersion.fixedByte_isSome_iff.mp (Option.isSome_iff_exists.mpr ⟨_, char⟩)
      have found := isWord.getElem_fixed char
      rw [place] at found position
      refine .inl ⟨?_, rfl⟩
      rw [place]
      exact StateVersion.inside_concat isWord begins found (by omega)
        (fun behind => flagged (by omega)) (fun behind => versioned (by omega))
  | major five flag char =>
      have five : begun.length = 5 := place.symm.trans five
      have start : begun = [72, 84, 84, 80, 47] := by
        rw [List.prefix_iff_eq_take.mp begins, five, isWord.take_five]
      subst start
      refine .inl ⟨?_, rfl⟩
      rw [place, char]
      cases flag with
      | true =>
          have other : VersionWord context.isRequest .v0_9 _ := .of_digits _ ⟨rfl, rfl⟩
          exact StateVersion.inside_concat other ⟨_, rfl⟩ rfl (by simp) (by simp) (by simp)
      | false =>
          have other : VersionWord context.isRequest .v1_0 _ := .of_digits _ ⟨rfl, rfl⟩
          exact StateVersion.inside_concat other ⟨_, rfl⟩ rfl (by simp) (by simp) (by simp)
  | minor seven known char =>
      have seven : begun.length = 7 := place.symm.trans seven
      have flag := flagged (by omega)
      have start : begun = [72, 84, 84, 80, 47, if state.isPrefixHttp0 then 48 else 49, 46] := by
        rw [List.prefix_iff_eq_take.mp begins, seven, isWord.take_seven]
        simp only [flag]
      have other : VersionWord context.isRequest known _ := .of_digits _ char
      subst start
      refine .inl ⟨?_, rfl⟩
      rw [place]
      exact StateVersion.inside_concat other ⟨_, rfl⟩ rfl
        (by simpa using versionEnd_pos context.isRequest) (fun _ => versionDigits_flag char)
        fun _ => rfl
  | carriageReturn eight request char =>
      have found := isWord.getElem_end 0
      rw [request, versionEnd_request] at whole found
      rw [place] at eight
      refine .inl ⟨?_, rfl⟩
      rw [place, char]
      refine StateVersion.inside_concat isWord begins (by rw [eight]; exact found) ?_
        (fun _ => flagged (by omega)) fun _ => versioned (by omega)
      simp only [List.length_cons, List.length_nil] at whole
      omega
  | space eight response char =>
      have found := isWord.getElem_end 0
      rw [response, versionEnd_response] at whole found
      rw [place] at eight
      have grown : begun ++ [SP] <+: word :=
        concat_prefix_iff.mpr ⟨begins, by rw [eight]; exact found⟩
      refine .inr ⟨?_, by rw [response]; rfl⟩
      rw [char, grown.eq_of_length (by simp [whole, eight]), show context.version = known from
        versioned (by omega)]
      exact isWord
  | lineFeed nine request char =>
      have found := isWord.getElem_end 1
      rw [request, versionEnd_request] at whole found
      rw [place] at nine
      have grown : begun ++ [LF] <+: word :=
        concat_prefix_iff.mpr ⟨begins, by rw [nine]; exact found⟩
      refine .inr ⟨?_, by rw [request]; rfl⟩
      rw [char, grown.eq_of_length (by simp [whole, nine]), show context.version = known from
        versioned (by omega)]
      exact isWord
  | mismatch => cases matching

/-- A byte that goes on with some word matches. -/
theorem StateVersion.Inside.allows {isRequest : Bool} {version known : HTTPVersion} {word : Bytes}
    {c : Byte} (inside : state.Inside isRequest version begun)
    (isWord : VersionWord isRequest known word) (begins : begun ++ [c] <+: word) :
    state.Allows isRequest c := by
  obtain ⟨place, first, firstWord, firstIsWord, firstBegins, short, flagged, -⟩ := inside
  obtain ⟨begins, found⟩ := concat_prefix_iff.mp begins
  rw [← place] at found flagged
  cases fixed : fixedByte? state.nowIdx with
  | some byte =>
      exact .inl (fixed.trans ((isWord.getElem_fixed fixed).symm.trans found))
  | none =>
      refine .inr ?_
      by_cases five : state.nowIdx = 5
      · left
        rw [five] at found
        rcases isWord.getElem_major with ⟨-, digit⟩ | ⟨-, digit⟩
        · exact ⟨five, .inl (Option.some.inj (found.symm.trans digit))⟩
        · exact ⟨five, .inr (Option.some.inj (found.symm.trans digit))⟩
      by_cases seven : state.nowIdx = 7
      · right
        left
        have same := (List.prefix_iff_eq_take.mp begins).symm.trans
          (List.prefix_iff_eq_take.mp firstBegins)
        rw [← place, seven, isWord.take_seven, firstIsWord.take_seven] at same
        have flag : state.isPrefixHttp0 = true ↔ known = .v0_9 := by
          rw [flagged (by omega)]
          by_cases zero : known = .v0_9 <;> by_cases firstZero : first = .v0_9 <;>
            simp [zero, firstZero] at same ⊢
        rw [seven] at found
        refine ⟨seven, ?_⟩
        rcases isWord.getElem_minor with ⟨rfl, digit⟩ | ⟨rfl, digit⟩ | ⟨rfl, digit⟩
        · exact .inl ⟨flag.mpr rfl, Option.some.inj (found.symm.trans digit)⟩
        · exact .inr ⟨by simpa using flag, .inl (Option.some.inj (found.symm.trans digit))⟩
        · exact .inr ⟨by simpa using flag, .inr (Option.some.inj (found.symm.trans digit))⟩
      have behind : 8 ≤ state.nowIdx := by
        by_contra before
        have isFixed := fixedByte_isSome_iff.mpr (show state.nowIdx < 5 ∨ state.nowIdx = 6 by omega)
        rw [fixed] at isFixed
        cases isFixed
      refine .inr (.inr ⟨behind, ?_⟩)
      have tail := isWord.getElem_end (state.nowIdx - 8)
      rwa [Nat.add_sub_cancel' behind, found, eq_comm] at tail

end

/-! ## The method -/

/-- What one byte does in the method. -/
inductive MethodMove (state : StateMethod) (context : HTTPMessageParser) :
    StateMethod → HTTPMessageParser → Prop where
  | first (start : state.nowIdx = 0) (method : HTTPMethod)
      (char : (getMethodStr method)[0]? = some context.nowChar) :
      MethodMove state context { nowIdx := state.nowIdx + 1 }
        { context with isMatch := true, method := method }
  | letter (started : state.nowIdx ≠ 0)
      (char : (getMethodStr context.method)[state.nowIdx]? = some context.nowChar) :
      MethodMove state context { nowIdx := state.nowIdx + 1 } { context with isMatch := true }
  | space (behind : (getMethodStr context.method).length ≤ state.nowIdx)
      (char : context.nowChar = SP) :
      MethodMove state context { nowIdx := state.nowIdx + 1 }
        { context with isMatch := true, nextState := some (.url {}) }
  | mismatchFirst (start : state.nowIdx = 0)
      (char : ∀ method, (getMethodStr method)[0]? ≠ some context.nowChar) :
      MethodMove state context { nowIdx := state.nowIdx + 1 } { context with isMatch := false }
  | mismatch (started : state.nowIdx ≠ 0)
      (char : (getMethodStr context.method ++ [SP])[state.nowIdx]? ≠ some context.nowChar) :
      MethodMove state context { nowIdx := state.nowIdx + 1 } { context with isMatch := false }

theorem getMethodStr_get : getMethodStr .get = [71, 69, 84] := by decide +kernel

theorem getMethodStr_post : getMethodStr .post = [80, 79, 83, 84] := by decide +kernel

theorem getMethodStr_pos (method : HTTPMethod) : 0 < (getMethodStr method).length := by
  cases method <;> decide +kernel

theorem method_eq_of_first {method other : HTTPMethod}
    (same : (getMethodStr method)[0]? = (getMethodStr other)[0]?) : method = other := by
  cases method <;> cases other <;> first | rfl | exact absurd same (by decide +kernel)

/-- A step of the method is one of the moves. -/
theorem StateMethod.matchStep_move (state : StateMethod) (context : HTTPMessageParser) :
    MethodMove state context (state.matchStep context).1 (state.matchStep context).2 := by
  unfold matchStep
  simp only
  split_ifs with start get post inside differs space
  · exact .first start .get (by rw [getMethodStr_get, get]; rfl)
  · exact .first start .post (by rw [getMethodStr_post, post]; rfl)
  · refine .mismatchFirst start fun method => ?_
    cases method with
    | get =>
        rw [getMethodStr_get]
        exact fun same => get (Option.some.inj same).symm
    | post =>
        rw [getMethodStr_post]
        exact fun same => post (Option.some.inj same).symm
  · refine .mismatch start ?_
    rw [List.getElem?_append_left inside]
    exact differs
  · exact .letter start (not_not.mp differs)
  · exact .space (by omega) space
  · refine .mismatch start ?_
    rw [List.getElem?_append_right (by omega)]
    intro same
    rw [List.getElem?_singleton] at same
    split_ifs at same
    exact space (Option.some.inj same).symm

theorem VersionMove.code {state next : StateVersion} {context after : HTTPMessageParser}
    (move : VersionMove state context next after) : after.code = context.code := by
  cases move <;> rfl

/-- The version is left behind its last byte. -/
theorem VersionMove.nextState {state next : StateVersion} {context after : HTTPMessageParser}
    (move : VersionMove state context next after) :
    after.nextState = context.nextState ∨ 7 < state.nowIdx ∧ after.version = context.version ∧
      after.nextState = some (if context.isRequest then .header {} else .code {}) := by
  cases move with
  | space eight response =>
      rw [response]
      exact .inr ⟨by omega, rfl, rfl⟩
  | lineFeed nine request =>
      rw [request]
      exact .inr ⟨by omega, rfl, rfl⟩
  | _ => exact .inl rfl

/-- Only a byte that may not stand there is a mismatch. -/
theorem VersionMove.isMatch {state next : StateVersion} {context after : HTTPMessageParser}
    (move : VersionMove state context next after) :
    after.isMatch = context.isMatch ∨ ¬ state.Allows context.isRequest context.nowChar := by
  cases move with
  | mismatch char => exact .inr char
  | _ => exact .inl rfl

/-! ## The line -/

/-- No byte of the target is a mismatch. -/
theorem URLMove.isMatch {state next : StateURL} {context after : HTTPMessageParser}
    (move : URLMove state context next after) : after.isMatch = context.isMatch := by
  cases move <;> rfl

theorem URLMove.method {state next : StateURL} {context after : HTTPMessageParser}
    (move : URLMove state context next after) : after.method = context.method := by
  cases move <;> rfl

/-- A method, a target without spaces and a version, up to the line end. -/
def IsRequestLine (method : HTTPMethod) (version : HTTPVersion) (line : Bytes) : Prop :=
  ∃ target text, SP ∉ target ∧ getVersionStr version = .ok text ∧
    line = getMethodStr method ++ SP :: (target ++ SP :: (text ++ CRLF))

section

variable {method other : HTTPMethod} {version otherVersion : HTTPVersion} {line more : Bytes}

theorem IsRequestLine.length_pos (isLine : IsRequestLine method version line) :
    0 < line.length := by
  obtain ⟨target, text, -, -, rfl⟩ := isLine
  simp only [List.length_append, List.length_cons]
  omega

/-- Both sides of the first delimiter are determined. -/
theorem append_cons_inj {delimiter : Byte} {first second behind rest : Bytes}
    (noFirst : delimiter ∉ first) (noSecond : delimiter ∉ second)
    (same : first ++ delimiter :: behind = second ++ delimiter :: rest) :
    first = second ∧ behind = rest := by
  induction first generalizing second with
  | nil =>
      cases second with
      | nil => exact ⟨rfl, (List.cons.inj same).2⟩
      | cons c second => exact absurd (List.cons.inj same).1 (by simp_all)
  | cons c first ih =>
      cases second with
      | nil => exact absurd (List.cons.inj same).1 (by simp_all [eq_comm])
      | cons d second =>
          obtain ⟨rfl, tail⟩ := List.cons.inj same
          obtain ⟨rfl, rfl⟩ := ih (fun member => noFirst (List.mem_cons_of_mem _ member))
            (fun member => noSecond (List.mem_cons_of_mem _ member)) tail
          exact ⟨rfl, rfl⟩

/-- A request line is read in one way, and no other one goes on behind it. -/
theorem IsRequestLine.eq_of_append (isLine : IsRequestLine method version line)
    (longer : IsRequestLine other otherVersion (line ++ more)) :
    method = other ∧ version = otherVersion ∧ more = [] := by
  obtain ⟨target, text, noSpace, known, rfl⟩ := isLine
  obtain ⟨otherTarget, otherText, otherNoSpace, otherKnown, same⟩ := longer
  simp only [List.append_assoc, List.cons_append] at same
  obtain rfl := method_eq_of_append same
  obtain ⟨-, words⟩ := append_cons_inj noSpace otherNoSpace
    (List.cons.inj (List.append_cancel_left same)).2
  have shorter : VersionWord true version (text ++ CRLF) := ⟨text, known, rfl⟩
  have longer : VersionWord true otherVersion (text ++ CRLF ++ more) :=
    ⟨otherText, otherKnown, by rw [List.append_assoc, words]; rfl⟩
  exact ⟨rfl, shorter.eq_of_append longer⟩

end

/-- A byte of the header has been read. -/
def StateHeader.Begun (state : StateHeader) : Prop :=
  state.isEmptyLine = true ∨ 0 < state.nowKeyOffset

theorem HeaderMove.begun {state next : StateHeader} {context after : HTTPMessageParser}
    (move : HeaderMove state context next after) (start : state = {} ∨ state.Begun)
    (read : 1 < context.nowLen) : next.Begun := by
  cases move with
  | lineWithoutColon => exact .inl rfl
  | keyStart => exact .inr (by simp only; omega)
  | _ =>
      rcases start with rfl | begun
      · simp_all
      · exact begun

theorem StateBody.matchStep_nextState (state : StateBody) (context : HTTPMessageParser) :
    (state.matchStep context).2.nextState = context.nextState := by
  unfold matchStep
  split_ifs <;> rfl

namespace HTTPMessageParser

/-- Where the parser stands when it has read `consumed`. -/
def InRequest (consumed : Bytes) (parser : HTTPMessageParser) : Prop :=
  match parser.state with
  | .method state => state.nowIdx = consumed.length ∧ consumed <+: getMethodStr parser.method
  | .url _ => ∃ target, SP ∉ target ∧ consumed = getMethodStr parser.method ++ SP :: target
  | .version state =>
      ∃ target begun, SP ∉ target ∧ state.Inside true parser.version begun ∧
        consumed = getMethodStr parser.method ++ SP :: (target ++ SP :: begun)
  | .header state =>
      ∃ line rest, IsRequestLine parser.method parser.version line ∧ consumed = line ++ rest ∧
        (rest = [] ∧ state = {} ∨ rest ≠ [] ∧ state.Begun)
  | .body _ =>
      ∃ line rest, IsRequestLine parser.method parser.version line ∧ consumed = line ++ rest ∧
        rest ≠ []
  | _ => False

/-- A parser of requests between two bytes. -/
structure RequestRead (consumed : Bytes) (parser : HTTPMessageParser) : Prop where
  request : parser.isRequest = true
  fresh : parser.nextState = none
  matching : parser.isMatch = true
  nowLen : parser.nowLen = consumed.length
  place : parser.InRequest consumed

theorem new_requestRead (version : HTTPVersion) (code : Int) :
    RequestRead [] (.new true version code) where
  request := rfl
  fresh := rfl
  matching := rfl
  nowLen := rfl
  place := ⟨rfl, List.nil_prefix⟩

theorem RequestRead.moved {consumed : Bytes} {parser : HTTPMessageParser}
    (read : RequestRead consumed parser) (beginPtr : Int) :
    RequestRead consumed (parser.rebase beginPtr) :=
  ⟨read.request, read.fresh, read.matching, read.nowLen, read.place⟩

@[simp]
theorem enterNext_method (parser : HTTPMessageParser) :
    parser.enterNext.method = parser.method := by
  cases entered : parser.nextState <;> simp [enterNext, entered]

theorem enterNext_of_fresh {parser : HTTPMessageParser} (fresh : parser.nextState = none) :
    parser.enterNext = parser := by
  simp [enterNext, fresh]

section

variable {parser after : HTTPMessageParser} {c : Byte} (taken : parser.Takes c after)
variable {consumed : Bytes} (read : RequestRead consumed parser)
include taken read

/-- A letter of the method, or the space behind it. -/
theorem Takes.inMethod {state : StateMethod} (inState : parser.state = .method state) :
    after.InRequest (consumed ++ [c]) := by
  have place := read.place
  simp only [InRequest, inState] at place
  obtain ⟨idx, begins⟩ := place
  obtain ⟨beginPtr, ⟨next, middle⟩, matched, matching, rfl⟩ := taken.method inState
  have move := state.matchStep_move (parser.reading beginPtr c)
  rw [matched] at move
  simp only at move matching ⊢
  cases move with
  | first start method char =>
      rw [enterNext_of_fresh (by exact read.fresh)]
      rw [start] at idx
      obtain rfl := List.length_eq_zero_iff.mp idx.symm
      exact ⟨by rw [start]; rfl, concat_prefix_iff.mpr ⟨List.nil_prefix, char⟩⟩
  | letter started char =>
      rw [enterNext_of_fresh (by exact read.fresh)]
      exact ⟨by rw [idx]; simp, concat_prefix_iff.mpr ⟨begins, by rw [← idx]; exact char⟩⟩
  | space behind char =>
      obtain rfl : c = SP := char
      have whole := begins.eq_of_length_le (by rw [← idx]; exact behind)
      exact ⟨[], List.not_mem_nil, by rw [whole]; rfl⟩
  | mismatchFirst => cases matching
  | mismatch => cases matching

/-- A byte of the target, or the space behind it. -/
theorem Takes.inURL {state : StateURL} (inState : parser.state = .url state) :
    after.InRequest (consumed ++ [c]) := by
  have place := read.place
  simp only [InRequest, inState] at place
  obtain ⟨target, noSpace, rfl⟩ := place
  have method : after.method = parser.method := by
    obtain ⟨beginPtr, next, middle, move, -, rfl⟩ := taken.url inState
    rw [enterNext_method]
    exact move.method
  rcases taken.url_state inState read.fresh with ⟨rfl, leaves⟩ | ⟨inside, next, stays, -⟩
  · simp only [InRequest, leaves, method]
    exact ⟨target, [], noSpace, StateVersion.inside_nil _ _, by simp⟩
  · simp only [InRequest, stays, method]
    refine ⟨target ++ [c], ?_, by simp⟩
    simp [noSpace, Ne.symm inside]

/-- A byte of the version, or the line feed behind it. -/
theorem Takes.inVersion {state : StateVersion} (inState : parser.state = .version state) :
    after.InRequest (consumed ++ [c]) := by
  have place := read.place
  simp only [InRequest, inState] at place
  obtain ⟨target, begun, noSpace, inside, rfl⟩ := place
  obtain ⟨beginPtr, ⟨next, middle⟩, matched, matching, rfl⟩ := taken.version inState
  have move := state.matchStep_move (parser.reading beginPtr c)
  rw [matched] at move
  simp only at move matching ⊢
  have method : middle.method = parser.method := move.method
  have request : (parser.reading beginPtr c).isRequest = true := read.request
  rw [← request] at inside
  rcases move.inside inside matching with ⟨goesOn, stays⟩ | ⟨ends, leaves⟩
  · rw [enterNext_of_fresh (by exact stays.trans read.fresh)]
    rw [request] at goesOn
    exact ⟨target, begun ++ [c], noSpace, goesOn, by simp [method]⟩
  · rw [request] at ends leaves
    simp only [InRequest, enterNext, leaves, if_true]
    obtain ⟨text, known, word⟩ := ends
    have word : begun ++ [c] = text ++ CRLF := word
    refine ⟨_, [], ⟨target, text, noSpace, known, rfl⟩, ?_, .inl (by simp)⟩
    simp only [method, ← word, List.append_assoc, List.cons_append, List.append_nil]

/-- A byte behind the line. -/
theorem Takes.inTail (inTail : parser.state.InTail) : after.InRequest (consumed ++ [c]) := by
  have place := read.place
  have kept := (taken.startKept read.fresh inTail).1
  cases inState : parser.state with
  | header state =>
      simp only [InRequest, inState, ← kept.method, ← kept.version] at place
      obtain ⟨line, rest, isLine, rfl, begun⟩ := place
      obtain ⟨beginPtr, next, middle, move, -, rfl⟩ := taken.header inState
      rcases move.nextState with stays | ⟨ends, -⟩
      · rw [enterNext_of_fresh (by exact stays.trans read.fresh)] at isLine ⊢
        refine ⟨line, rest ++ [c], isLine, by simp, .inr ⟨by simp, move.begun ?_ ?_⟩⟩
        · exact begun.imp And.right And.right
        · have filled := isLine.length_pos
          have length := read.nowLen
          rw [List.length_append] at length
          change 1 < parser.nowLen + 1
          omega
      · simp only [InRequest, enterNext, ends] at isLine ⊢
        exact ⟨line, rest ++ [c], isLine, by simp, by simp⟩
  | body state =>
      simp only [InRequest, inState, ← kept.method, ← kept.version] at place
      obtain ⟨line, rest, isLine, rfl, filled⟩ := place
      obtain ⟨beginPtr, middle, rfl, -, rfl⟩ := taken.body inState
      have stays : (state.matchStep (parser.reading beginPtr c)).2.nextState = none :=
        (state.matchStep_nextState _).trans read.fresh
      rw [enterNext_of_fresh (by exact stays)] at isLine ⊢
      exact ⟨line, rest ++ [c], isLine, by simp, by simp⟩
  | _ =>
      rw [inState] at inTail
      exact inTail.elim

/-- What a matching byte preserves. -/
theorem Takes.requestRead : RequestRead (consumed ++ [c]) after where
  request := taken.isRequest.trans read.request
  fresh := taken.nextState
  matching := taken.isMatch
  nowLen := by
    rw [taken.nowLen, read.nowLen]
    simp
  place := by
    have place := read.place
    cases inState : parser.state with
    | method state => exact taken.inMethod read inState
    | url state => exact taken.inURL read inState
    | version state => exact taken.inVersion read inState
    | header state => exact taken.inTail read (by rw [inState]; trivial)
    | body state => exact taken.inTail read (by rw [inState]; trivial)
    | code state =>
        rw [InRequest, inState] at place
        exact place.elim
    | detail state =>
        rw [InRequest, inState] at place
        exact place.elim

end

end HTTPMessageParser

/-! ## How calls end -/

namespace HTTPMessageParser

/-- The parser reads `c` and stops; the address and the copied strings may be any. -/
def Stops (parser : HTTPMessageParser) (c : Byte) (after : HTTPMessageParser) : Prop :=
  ∃ string beginPtr, parser.state.matchStep string (parser.reading beginPtr c) = .ok after ∧
    after.isMatch = false

section

variable {parser after : HTTPMessageParser} {c : Byte} (stops : parser.Stops c after)
include stops

theorem Stops.method {state : StateMethod} (inState : parser.state = .method state) :
    ∃ beginPtr next middle, MethodMove state (parser.reading beginPtr c) next middle ∧
      middle.isMatch = false := by
  obtain ⟨string, beginPtr, matched, stopped⟩ := stops
  rw [inState] at matched
  cases matched
  exact ⟨beginPtr, _, _, state.matchStep_move _, stopped⟩

theorem Stops.url {state : StateURL} (inState : parser.state = .url state) :
    ∃ beginPtr next middle, URLMove state (parser.reading beginPtr c) next middle ∧
      middle.isMatch = false := by
  obtain ⟨string, beginPtr, matched, stopped⟩ := stops
  rw [inState] at matched
  obtain ⟨⟨next, middle⟩, step, rfl⟩ := map_eq_ok matched
  exact ⟨beginPtr, next, middle, StateURL.matchStep_move step, stopped⟩

theorem Stops.version {state : StateVersion} (inState : parser.state = .version state) :
    ∃ beginPtr next middle, VersionMove state (parser.reading beginPtr c) next middle ∧
      middle.isMatch = false := by
  obtain ⟨string, beginPtr, matched, stopped⟩ := stops
  rw [inState] at matched
  cases matched
  exact ⟨beginPtr, _, _, state.matchStep_move _, stopped⟩

end

/-- The step on `c` throws. -/
def Throws (parser : HTTPMessageParser) (c : Byte) : Prop :=
  ∃ string beginPtr fault, parser.state.matchStep string (parser.reading beginPtr c) = .error fault

/-- A step that throws, and is not one of the target, stands behind the start line. -/
theorem Throws.inTail {parser : HTTPMessageParser} {c : Byte} (throws : parser.Throws c)
    (elsewhere : ∀ state, parser.state ≠ .url state) : parser.state.InTail := by
  obtain ⟨string, beginPtr, fault, thrown⟩ := throws
  cases inState : parser.state with
  | url state => exact absurd inState (elsewhere state)
  | header state => trivial
  | body state => trivial
  | _ =>
      rw [inState] at thrown
      cases thrown

/-- No step of the target throws or asserts in this loop. -/
def LoopSparesURL (memory : Memory) : (str : Int) → (len : Nat) → HTTPMessageParser → Prop
  | _, 0, _ => True
  | str, len + 1, parser =>
      match memory str with
      | none => True
      | some c =>
          match parser.matchChar (stringOf memory) c with
          | .error _ => ∀ state, parser.state ≠ .url state
          | .ok after => after.isMatch = true → LoopSparesURL memory (str + 1) len after.enterNext

/-- No step of the target throws or asserts in these calls. -/
def CallsSpareURL : List Call → HTTPMessageParser → Prop
  | [], _ => True
  | call :: calls, parser =>
      (parser.isMatch = true →
        LoopSparesURL call.memory call.str call.len (parser.rebase (call.str - parser.nowLen))) ∧
        ∀ after, parser.parserMessage call.memory call.str call.len = .ok (true, after) →
          CallsSpareURL calls after

theorem loopSparesURL_of_ok {memory : Memory} {str : Int} {len : Nat}
    {parser : HTTPMessageParser} {result : Bool × HTTPMessageParser}
    (run : parserLoop (stringOf memory) memory str len parser = .ok result) :
    parser.LoopSparesURL memory str len := by
  induction len generalizing str parser with
  | zero => trivial
  | succ len ih =>
      rw [parserLoop] at run
      rw [LoopSparesURL]
      cases found : memory str with
      | none => trivial
      | some c =>
          simp only [found] at run ⊢
          cases taken : parser.matchChar (stringOf memory) c with
          | error fault => simp [taken] at run
          | ok after =>
              intro matching
              simp only [taken, matching, Bool.true_eq_false, if_false] at run
              exact ih run

/-- Calls that answer have thrown nowhere. -/
theorem callsSpareURL_of_ok {calls : List Call} {parser : HTTPMessageParser}
    {result : Bool × HTTPMessageParser} (run : parser.parserMessages calls = .ok result) :
    parser.CallsSpareURL calls := by
  unfold parserMessages at run
  induction calls generalizing parser with
  | nil => trivial
  | cons call calls ih =>
      rw [parserMessagesWith] at run
      cases called : parser.parserMessageWith stringOf call.memory call.str call.len with
      | error fault => simp [called] at run
      | ok answer =>
          refine ⟨fun matching => ?_, fun after answered => ?_⟩
          · rw [parserMessageWith, if_neg (by simp [matching])] at called
            exact loopSparesURL_of_ok called
          · rw [parserMessage, called] at answered
            cases answered
            simp only [called] at run
            exact ih run

end HTTPMessageParser

/--
How the bytes behind `consumed` are read when every byte that matches preserves `good`: to the
end, up to a mismatch, or up to a step that throws.
-/
inductive Ends (good : Bytes → HTTPMessageParser → Prop) (consumed bytes : Bytes) (spares : Prop) :
    Except Fault (Bool × HTTPMessageParser) → Prop
  | read {last : HTTPMessageParser} (reached : good (consumed ++ bytes) last) :
      Ends good consumed bytes spares (.ok (true, last))
  | stopped {before rest : Bytes} {c : Byte} {parser last : HTTPMessageParser}
      (split : bytes = before ++ c :: rest) (reached : good (consumed ++ before) parser)
      (stops : parser.Stops c last) : Ends good consumed bytes spares (.ok (false, last))
  | thrown {before rest : Bytes} {c : Byte} {parser : HTTPMessageParser} {fault : Fault}
      (split : bytes = before ++ c :: rest) (reached : good (consumed ++ before) parser)
      (throws : parser.Throws c) (elsewhere : spares → ∀ state, parser.state ≠ .url state) :
      Ends good consumed bytes spares (.error fault)

section

variable {good : Bytes → HTTPMessageParser → Prop} {consumed chunk bytes : Bytes}
variable {spares less : Prop} {outcome : Except Fault (Bool × HTTPMessageParser)}

/-- What is read behind a chunk is read behind what stood in front of it. -/
theorem Ends.behind (ends : Ends good (consumed ++ chunk) bytes spares outcome)
    (enough : less → spares) : Ends good consumed (chunk ++ bytes) less outcome := by
  cases ends with
  | read reached => exact .read (by rwa [List.append_assoc] at reached)
  | stopped split reached stops =>
      rw [List.append_assoc] at reached
      exact .stopped (by rw [split, List.append_assoc]) reached stops
  | thrown split reached throws elsewhere =>
      rw [List.append_assoc] at reached
      exact .thrown (by rw [split, List.append_assoc]) reached throws (elsewhere ∘ enough)

/-- A mismatch in a chunk is one in what begins with it. -/
theorem Ends.stop_in_front {last : HTTPMessageParser}
    (ends : Ends good consumed chunk spares (.ok (false, last))) :
    Ends good consumed (chunk ++ bytes) less (.ok (false, last)) := by
  cases ends with
  | stopped split reached stops =>
      exact .stopped (by rw [split, List.append_assoc]; rfl) reached stops

/-- So is a step that throws. -/
theorem Ends.throw_in_front {fault : Fault}
    (ends : Ends good consumed chunk spares (.error fault)) (enough : less → spares) :
    Ends good consumed (chunk ++ bytes) less (.error fault) := by
  cases ends with
  | thrown split reached throws elsewhere =>
      exact .thrown (by rw [split, List.append_assoc]; rfl) reached throws (elsewhere ∘ enough)

end

section

variable {good : Bytes → HTTPMessageParser → Prop}
variable (step : ∀ consumed parser c after, good consumed parser → parser.Takes c after →
  good (consumed ++ [c]) after)
include step

theorem ends_of_parserLoop {memory : Memory} {str : Int} {bytes : Bytes}
    (holds : memory.Holds str bytes) {consumed : Bytes} {parser : HTTPMessageParser}
    (start : good consumed parser) :
    Ends good consumed bytes (parser.LoopSparesURL memory str bytes.length)
      (HTTPMessageParser.parserLoop (stringOf memory) memory str bytes.length parser) := by
  induction bytes generalizing str consumed parser with
  | nil => exact .read (by simpa using start)
  | cons c rest ih =>
      obtain ⟨found, behind⟩ := (Memory.holds_cons_iff _ _ _ _).mp holds
      rw [List.length_cons, HTTPMessageParser.parserLoop, HTTPMessageParser.LoopSparesURL, found]
      simp only
      have split : c :: rest = [] ++ c :: rest := rfl
      have here : good (consumed ++ []) parser := by rwa [List.append_nil]
      cases taken : parser.matchChar (stringOf memory) c with
      | error fault =>
          exact .thrown split here ⟨stringOf memory, parser.beginPtr, fault, taken⟩ id
      | ok after =>
          simp only
          by_cases stopped : after.isMatch = false
          · rw [if_pos stopped]
            exact .stopped split here ⟨stringOf memory, parser.beginPtr, taken, stopped⟩
          · rw [if_neg stopped]
            have matching : after.isMatch = true := by simpa using stopped
            have next := step _ _ _ _ start ⟨_, parser.beginPtr, _, taken, matching, rfl⟩
            exact (ih behind next).behind fun spares => spares matching

theorem ends_of_parserMessages
    (moved : ∀ consumed parser beginPtr, good consumed parser →
      good consumed (parser.rebase beginPtr))
    (goes : ∀ consumed parser, good consumed parser → parser.isMatch = true)
    {consumed : Bytes} {calls : List Call} {chunks : List Bytes}
    (addressed : CallsAddress consumed calls chunks) {parser : HTTPMessageParser}
    (start : good consumed parser) :
    Ends good consumed chunks.flatten (parser.CallsSpareURL calls)
      (parser.parserMessages calls) := by
  induction calls generalizing consumed chunks parser with
  | nil =>
      cases chunks with
      | cons chunk chunks => exact addressed.elim
      | nil =>
          rw [HTTPMessageParser.parserMessages, HTTPMessageParser.parserMessagesWith,
            goes _ _ start]
          exact .read (by simpa using start)
  | cons call calls ih =>
      cases chunks with
      | nil => exact addressed.elim
      | cons chunk chunks =>
          obtain ⟨⟨address, holds, place, count⟩, rest⟩ := addressed
          have here := ((Memory.holds_append_iff _ _ _ _).mp holds).2
          rw [← place] at here
          have ends := ends_of_parserLoop step here
            (moved _ _ (call.str - parser.nowLen) start)
          have called : parser.parserMessageWith stringOf call.memory call.str call.len =
              HTTPMessageParser.parserLoop (stringOf call.memory) call.memory call.str
                chunk.length (parser.rebase (call.str - parser.nowLen)) := by
            rw [HTTPMessageParser.parserMessageWith, if_neg (by simp [goes _ _ start]), count]
          rw [HTTPMessageParser.parserMessages, HTTPMessageParser.parserMessagesWith, called,
            HTTPMessageParser.CallsSpareURL, HTTPMessageParser.parserMessage, called, count,
            List.flatten_cons]
          cases outcome : HTTPMessageParser.parserLoop (stringOf call.memory) call.memory call.str
              chunk.length (parser.rebase (call.str - parser.nowLen)) with
          | error fault =>
              rw [outcome] at ends
              exact ends.throw_in_front fun spares => spares.1 (goes _ _ start)
          | ok result =>
              obtain ⟨verdict, after⟩ := result
              rw [outcome] at ends
              cases verdict with
              | false => exact ends.stop_in_front
              | true =>
                  cases ends with
                  | read reached =>
                      exact (ih rest reached).behind fun spares => spares.2 after rfl

end

/-! ## What is recognised -/

/-- Neither the bytes nor anything that goes on behind them begins with a request line. -/
def NoRequestLine (bytes : Bytes) : Prop :=
  ∀ more method version line, IsRequestLine method version line → ¬ line <+: bytes ++ more

theorem isRequestLine_iff_word {method : HTTPMethod} {version : HTTPVersion} {line : Bytes} :
    IsRequestLine method version line ↔ ∃ target word, SP ∉ target ∧
      VersionWord true version word ∧
        line = getMethodStr method ++ SP :: (target ++ SP :: word) := by
  constructor
  · rintro ⟨target, text, noSpace, known, rfl⟩
    exact ⟨target, _, noSpace, ⟨text, known, rfl⟩, rfl⟩
  · rintro ⟨target, word, noSpace, ⟨text, known, rfl⟩, rfl⟩
    exact ⟨target, text, noSpace, known, rfl⟩

namespace HTTPMessageParser

section

variable {consumed : Bytes} {parser : HTTPMessageParser} (read : RequestRead consumed parser)
include read

/-- Behind the line there is one. -/
theorem RequestRead.line_of_tail (inTail : parser.state.InTail) :
    ∃ method version line, IsRequestLine method version line ∧ line <+: consumed := by
  have place := read.place
  cases inState : parser.state with
  | header state =>
      simp only [InRequest, inState] at place
      obtain ⟨line, rest, isLine, rfl, -⟩ := place
      exact ⟨_, _, line, isLine, List.prefix_append _ _⟩
  | body state =>
      simp only [InRequest, inState] at place
      obtain ⟨line, rest, isLine, rfl, -⟩ := place
      exact ⟨_, _, line, isLine, List.prefix_append _ _⟩
  | _ =>
      rw [inState] at inTail
      exact inTail.elim

/-- In front of the header every beginning can be completed; behind it there is a line. -/
theorem RequestRead.begins :
    ∃ more method version line, IsRequestLine method version line ∧ line <+: consumed ++ more := by
  have place := read.place
  obtain ⟨word, isWord⟩ : ∃ word, VersionWord true .v1_0 word := ⟨_, .of_digits true ⟨rfl, rfl⟩⟩
  cases inState : parser.state with
  | method state =>
      simp only [InRequest, inState] at place
      obtain ⟨-, rest, begins⟩ := place
      refine ⟨rest ++ SP :: SP :: word, parser.method, .v1_0, _,
        isRequestLine_iff_word.mpr ⟨[], word, List.not_mem_nil, isWord, rfl⟩, ?_⟩
      refine ⟨[], ?_⟩
      rw [List.append_nil, ← List.append_assoc, begins, List.nil_append]
  | url state =>
      simp only [InRequest, inState] at place
      obtain ⟨target, noSpace, rfl⟩ := place
      refine ⟨SP :: word, parser.method, .v1_0, _,
        isRequestLine_iff_word.mpr ⟨target, word, noSpace, isWord, rfl⟩, ?_⟩
      refine ⟨[], ?_⟩
      rw [List.append_nil, List.append_assoc, List.cons_append]
  | version state =>
      simp only [InRequest, inState] at place
      obtain ⟨target, begun, noSpace, inside, rfl⟩ := place
      obtain ⟨known, word, isWord, ⟨rest, rfl⟩, -⟩ := inside.goesOn
      refine ⟨rest, parser.method, known, _,
        isRequestLine_iff_word.mpr ⟨target, _, noSpace, isWord, rfl⟩, ?_⟩
      simp
  | header state => exact ⟨[], by simpa using read.line_of_tail (by rw [inState]; trivial)⟩
  | body state => exact ⟨[], by simpa using read.line_of_tail (by rw [inState]; trivial)⟩
  | code state =>
      rw [InRequest, inState] at place
      exact place.elim
  | detail state =>
      rw [InRequest, inState] at place
      exact place.elim

/-- The initial state of the header stands right behind a line. -/
theorem RequestRead.line_of_header (inState : parser.state = .header {}) :
    IsRequestLine parser.method parser.version consumed := by
  have place := read.place
  simp only [InRequest, inState] at place
  obtain ⟨line, rest, isLine, rfl, ⟨rfl, -⟩ | ⟨-, begun⟩⟩ := place
  · rwa [List.append_nil]
  · exact absurd begun (by simp [StateHeader.Begun])

/-- Right behind a line the parser is in the initial state of the header. -/
theorem RequestRead.header_of_line {method : HTTPMethod} {version : HTTPVersion}
    (isLine : IsRequestLine method version consumed) :
    parser.state = .header {} ∧ parser.method = method ∧ parser.version = version := by
  have place := read.place
  obtain ⟨target, word, noSpace, isWord, whole⟩ := isRequestLine_iff_word.mp isLine
  cases inState : parser.state with
  | method state =>
      simp only [InRequest, inState] at place
      have space : SP ∈ consumed := by simp [whole]
      exact absurd (place.2.subset space) (space_notMem_method parser.method)
  | url state =>
      simp only [InRequest, inState] at place
      obtain ⟨short, shortSpace, rfl⟩ := place
      obtain rfl := method_eq_of_append whole
      have same := (List.cons.inj (List.append_cancel_left whole)).2
      exact absurd (by simp [same]) shortSpace
  | version state =>
      simp only [InRequest, inState] at place
      obtain ⟨other, begun, otherSpace, inside, rfl⟩ := place
      obtain rfl := method_eq_of_append whole
      obtain ⟨-, rfl⟩ := append_cons_inj otherSpace noSpace
        (List.cons.inj (List.append_cancel_left whole)).2
      obtain ⟨known, longer, isLonger, -, short, -⟩ := inside.goesOn
      rw [isLonger.length, isWord.length] at short
      omega
  | header state =>
      simp only [InRequest, inState] at place
      obtain ⟨line, rest, first, rfl, start⟩ := place
      obtain ⟨methods, versions, rfl⟩ := first.eq_of_append isLine
      rcases start with ⟨-, rfl⟩ | ⟨filled, -⟩
      · exact ⟨rfl, methods, versions⟩
      · exact absurd rfl filled
  | body state =>
      simp only [InRequest, inState] at place
      obtain ⟨line, rest, first, rfl, filled⟩ := place
      exact absurd (first.eq_of_append isLine).2.2 filled
  | code state =>
      rw [InRequest, inState] at place
      exact place.elim
  | detail state =>
      rw [InRequest, inState] at place
      exact place.elim

/-- Behind a line no other one ends. -/
theorem RequestRead.not_line_of_tail (inTail : parser.state.InTail) {method : HTTPMethod}
    {version : HTTPVersion} {c : Byte} {rest : Bytes} :
    ¬ IsRequestLine method version (consumed ++ c :: rest) := by
  intro isLine
  have place := read.place
  cases inState : parser.state with
  | header state =>
      simp only [InRequest, inState] at place
      obtain ⟨line, more, first, rfl, -⟩ := place
      rw [List.append_assoc] at isLine
      simpa using (first.eq_of_append isLine).2.2
  | body state =>
      simp only [InRequest, inState] at place
      obtain ⟨line, more, first, rfl, -⟩ := place
      rw [List.append_assoc] at isLine
      simpa using (first.eq_of_append isLine).2.2
  | _ =>
      rw [inState] at inTail
      exact inTail.elim

/-- The byte that stops the parser is not the next byte of a line. -/
theorem RequestRead.not_line_of_stops {c : Byte} {last : HTTPMessageParser}
    (stops : parser.Stops c last) {method : HTTPMethod} {version : HTTPVersion} {rest : Bytes} :
    ¬ IsRequestLine method version (consumed ++ c :: rest) := by
  intro isLine
  have place := read.place
  cases inState : parser.state with
  | method state =>
      simp only [InRequest, inState] at place
      obtain ⟨idx, begins⟩ := place
      obtain ⟨beginPtr, next, middle, move, stopped⟩ := stops.method inState
      obtain ⟨target, word, -, -, whole⟩ := isRequestLine_iff_word.mp isLine
      have found : (getMethodStr method ++ SP :: (target ++ SP :: word))[consumed.length]? =
          some c := by
        rw [← whole]
        simp
      cases move with
      | first => cases stopped
      | letter => cases stopped
      | space => cases stopped
      | mismatchFirst start char =>
          rw [← idx, start, List.getElem?_append_left (getMethodStr_pos method)] at found
          exact char method found
      | mismatch started char =>
          have short := begins.length_le
          obtain rfl : parser.method = method := by
            apply method_eq_of_first
            obtain ⟨letter, tail, rfl⟩ := List.exists_cons_of_length_pos
              (show 0 < consumed.length by omega)
            obtain ⟨rest, letters⟩ := begins
            have first := congrArg (·[0]?) whole
            rw [List.getElem?_append_left (getMethodStr_pos method)] at first
            rw [← letters, ← first]
            rfl
          apply char
          change (getMethodStr parser.method ++ [SP])[state.nowIdx]? = some c
          have inside : consumed.length < (getMethodStr parser.method ++ [SP]).length := by
            rw [List.length_append, List.length_singleton]
            omega
          rw [List.append_cons, List.getElem?_append_left inside] at found
          rw [idx, found]
  | url state =>
      obtain ⟨beginPtr, next, middle, move, stopped⟩ := stops.url inState
      have matching : (parser.reading beginPtr c).isMatch = true := read.matching
      rw [move.isMatch, matching] at stopped
      cases stopped
  | version state =>
      simp only [InRequest, inState] at place
      obtain ⟨target, begun, noSpace, inside, rfl⟩ := place
      obtain ⟨beginPtr, next, middle, move, stopped⟩ := stops.version inState
      have matching : (parser.reading beginPtr c).isMatch = true := read.matching
      have request : (parser.reading beginPtr c).isRequest = true := read.request
      obtain ⟨other, word, otherSpace, isWord, whole⟩ := isRequestLine_iff_word.mp isLine
      simp only [List.append_assoc, List.cons_append] at whole
      obtain rfl := method_eq_of_append whole
      obtain ⟨-, rfl⟩ := append_cons_inj noSpace otherSpace
        (List.cons.inj (List.append_cancel_left whole)).2
      rcases move.isMatch with kept | refused
      · rw [kept, matching] at stopped
        cases stopped
      · rw [request] at refused
        have grown : begun ++ [c] <+: begun ++ c :: rest := ⟨rest, by simp⟩
        exact refused (inside.allows isWord grown)
  | header state => exact read.not_line_of_tail (by rw [inState]; trivial) isLine
  | body state => exact read.not_line_of_tail (by rw [inState]; trivial) isLine
  | code state =>
      rw [InRequest, inState] at place
      exact place.elim
  | detail state =>
      rw [InRequest, inState] at place
      exact place.elim

end

end HTTPMessageParser

/--
A new parser that has read its bytes stands in front of the header exactly when the bytes are a
request line; bytes that no request line begins and that begin none are refused for good.
-/
theorem requestLine_recognised {version : HTTPVersion} {code : Int} {calls : List Call}
    {chunks : List Bytes} (addressed : CallsAddress [] calls chunks)
    (spares : (HTTPMessageParser.new true version code).CallsSpareURL calls) :
    ((∃ parser, (HTTPMessageParser.new true version code).parserMessages calls =
          .ok (true, parser) ∧ parser.state = .header {}) ↔
        ∃ method known, IsRequestLine method known chunks.flatten) ∧
      (∀ method known parser, IsRequestLine method known chunks.flatten →
        (HTTPMessageParser.new true version code).parserMessages calls = .ok (true, parser) →
          parser.method = method ∧ parser.version = known) ∧
      (NoRequestLine chunks.flatten →
        ∃ parser, (HTTPMessageParser.new true version code).parserMessages calls =
            .ok (false, parser) ∧
          ∀ memory str len, parser.parserMessage memory str len = .ok (false, parser)) := by
  have ends := ends_of_parserMessages (fun _ _ _ _ read taken => taken.requestRead read)
    (fun _ _ beginPtr read => read.moved beginPtr) (fun _ _ read => read.matching) addressed
    (HTTPMessageParser.new_requestRead version code)
  generalize (HTTPMessageParser.new true version code).parserMessages calls = outcome at ends ⊢
  refine ⟨⟨?_, ?_⟩, ?_, ?_⟩
  · rintro ⟨parser, rfl, inState⟩
    cases ends with
    | read reached => exact ⟨_, _, reached.line_of_header inState⟩
  · rintro ⟨method, known, isLine⟩
    cases ends with
    | @read last reached => exact ⟨last, rfl, (reached.header_of_line isLine).1⟩
    | stopped split reached stops =>
        rw [split] at isLine
        exact absurd isLine (reached.not_line_of_stops stops)
    | thrown split reached throws elsewhere =>
        rw [split] at isLine
        exact absurd isLine (reached.not_line_of_tail (throws.inTail (elsewhere spares)))
  · rintro method known parser isLine rfl
    cases ends with
    | read reached => exact (reached.header_of_line isLine).2
  · intro none
    cases ends with
    | read reached =>
        obtain ⟨more, method, known, line, isLine, begins⟩ := reached.begins
        exact absurd begins (none more method known line isLine)
    | @stopped _ _ _ _ last split reached stops =>
        obtain ⟨string, beginPtr, -, failed⟩ := stops
        exact ⟨last, rfl, fun memory str len =>
          HTTPMessageParser.parserMessageWith_failed stringOf memory str len failed⟩
    | thrown split reached throws elsewhere =>
        obtain ⟨method, known, line, isLine, begins⟩ :=
          reached.line_of_tail (throws.inTail (elsewhere spares))
        refine absurd ?_ (none [] method known line isLine)
        rw [List.append_nil, split]
        exact begins.trans (List.prefix_append _ _)

def getLine : Bytes := ascii "GET / HTTP/1.0\r\n"

theorem isRequestLine_getLine : IsRequestLine .get .v1_0 getLine :=
  ⟨ascii "/", ascii "HTTP/1.0", by decide +kernel, rfl, by decide +kernel⟩

/-- A line that is handed over at once. -/
theorem requestLine_recognised_getLine :
    ∃ parser, (HTTPMessageParser.new true .v1_0 0).parserMessages [wholeCall getLine] =
      .ok (true, parser) ∧ parser.state = .header {} := by
  have ok : ((HTTPMessageParser.new true .v1_0 0).parserMessages [wholeCall getLine]).isOk =
      true := by decide +kernel
  obtain ⟨result, run⟩ := exists_ok_of_isOk ok
  have recognised := requestLine_recognised (wholeCall_addresses getLine)
    (HTTPMessageParser.callsSpareURL_of_ok run)
  exact recognised.1.mpr ⟨.get, .v1_0, isRequestLine_getLine⟩

end SimpleWebServer.Http
