import SimpleWebServer.Http.ServerOutput

/-!
# Answers that are written in part

`co_write` may accept fewer bytes than it is offered.  The writer's callback calls it once
for each piece, so what is left over goes out with the next piece; what the call for the
last piece leaves over is closed away with the connection.
-/

namespace SimpleWebServer.Http

open SimpleWebServer.Base

/-! ## A backlog -/

section

variable (counts : Nat → Nat)

/-- What is left over of `left` and further pieces of the given sizes, from call `call` on. -/
def backlog : Nat → Nat → List Nat → Nat
  | _, left, [] => left
  | call, left, size :: sizes => backlog (call + 1) (left + size - counts call) sizes

/-- Each count is between one and the number of bytes that are offered. -/
def ShortCounts : Nat → Nat → List Nat → Prop
  | _, _, [] => True
  | call, left, size :: sizes =>
      counts call ≤ left + size ∧ (0 < left + size → 0 < counts call) ∧
        ShortCounts (call + 1) (left + size - counts call) sizes

/-- The call for the last piece accepts all that it is offered. -/
def LastWhole (left : Nat) (sizes : List Nat) : Prop :=
  ∃ front last, sizes = front ++ [last] ∧
    counts front.length = backlog counts 0 left front + last

theorem backlog_concat (call left : Nat) (front : List Nat) (last : Nat) :
    backlog counts call left (front ++ [last]) =
      backlog counts call left front + last - counts (call + front.length) := by
  induction front generalizing call left with
  | nil => rfl
  | cons size front ih =>
      rw [List.cons_append, backlog, ih, backlog, List.length_cons]
      rw [show call + 1 + front.length = call + (front.length + 1) by omega]

theorem ShortCounts.last_le {counts : Nat → Nat} {call left : Nat} {front : List Nat} {last : Nat}
    (short : ShortCounts counts call left (front ++ [last])) :
    counts (call + front.length) ≤ backlog counts call left front + last := by
  induction front generalizing call left with
  | nil => exact short.1
  | cons size front ih =>
      have rest := ih short.2.2
      rw [backlog, List.length_cons]
      rwa [show call + 1 + front.length = call + (front.length + 1) by omega] at rest

/-- Nothing is left over exactly when the last call accepts everything. -/
theorem backlog_eq_zero_iff {counts : Nat → Nat} {left : Nat} {sizes : List Nat}
    (short : ShortCounts counts 0 left sizes) (nonempty : sizes ≠ []) :
    backlog counts 0 left sizes = 0 ↔ LastWhole counts left sizes := by
  obtain ⟨front, last, rfl⟩ := (List.eq_nil_or_concat sizes).resolve_left nonempty
  rw [List.concat_eq_append] at short ⊢
  have within := short.last_le
  rw [Nat.zero_add] at within
  rw [backlog_concat, Nat.zero_add]
  constructor
  · intro none
    exact ⟨front, last, rfl, by omega⟩
  · rintro ⟨front', last', same, whole⟩
    obtain ⟨rfl, tail⟩ := List.append_inj' same rfl
    cases tail
    omega

end

/-! ## The handler -/

section

variable {counts : Nat → Nat}

/-- `co_write` with the given counts. -/
def shortWrites (counts : Nat → Nat) (call : Nat) (_ : Bytes) : WriteResult :=
  .wrote (counts call)

theorem sendPiece_getSize {sending : Sending} (wf : sending.buf.Wf) (str : Bytes)
    (within : counts sending.calls ≤ sending.buf.getSize + str.length) :
    (sendPiece (shortWrites counts) sending str).buf.Wf ∧
      (sendPiece (shortWrites counts) sending str).buf.getSize =
        sending.buf.getSize + str.length - counts sending.calls := by
  have size := wf.push_getSize str
  constructor
  · apply (wf.push str).popTo
    rw [size]
    exact within
  · change ((sending.buf.push str).popTo (.wrote (counts sending.calls))).2.getSize = _
    rw [Buffer.popTo_eq, ← size]
    exact Nat.sub_add_eq _ _ _

/-- The unread bytes follow the backlog. -/
theorem sendPieces_getSize {pieces : List Bytes} {sending : Sending} (wf : sending.buf.Wf)
    (short : ShortCounts counts sending.calls sending.buf.getSize (pieces.map List.length)) :
    (pieces.foldl (sendPiece (shortWrites counts)) sending).buf.getSize =
      backlog counts sending.calls sending.buf.getSize (pieces.map List.length) := by
  induction pieces generalizing sending with
  | nil => rfl
  | cons piece pieces ih =>
      obtain ⟨within, -, later⟩ := short
      obtain ⟨nextWf, size⟩ := sendPiece_getSize wf piece within
      rw [List.foldl_cons, List.map_cons, backlog, ← size]
      apply ih nextWf
      rw [size]
      exact later

/-- An answering connection leaves the backlog of the request and the pieces of the answer. -/
theorem handleConnection_backlog {paths : PathMap} {reads : List ReadResult}
    (fits : ReadsFit .new reads) {parser : HTTPMessageParser} {res : HTTPResponseMessage}
    {done : ReadResults} (ends : readLoop paths reads .new parser [] = .ok done)
    (answered : done.outcome.Answered) {pieces : List Bytes}
    (emitted : answer res done.outcome = .ok pieces)
    (short : ShortCounts counts 0 done.buf.getSize (pieces.map List.length)) :
    ∃ sending, handleConnection paths reads (shortWrites counts) parser res = .ok sending ∧
      sending.buf.getSize = backlog counts 0 done.buf.getSize (pieces.map List.length) := by
  obtain ⟨received, reading, -⟩ := readLoop_reading reading_new fits ends answered
  let start : Sending := { buf := done.buf, code := done.outcome.code }
  have startWf : start.buf.Wf := reading.wf
  refine ⟨pieces.foldl (sendPiece (shortWrites counts)) start, ?_,
    sendPieces_getSize startWf short⟩
  rw [handleConnection, ends]
  simp only
  rw [emitted]
  rfl

end

/-- An answer is accepted whole exactly when the last `co_write` accepts all it is offered. -/
theorem handleConnection_whole_iff {paths : PathMap} {reads : List ReadResult}
    (fits : ReadsFit .new reads) {parser : HTTPMessageParser} {res : HTTPResponseMessage}
    {done : ReadResults} (ends : readLoop paths reads .new parser [] = .ok done)
    (answered : done.outcome.Answered) {pieces : List Bytes}
    (emitted : answer res done.outcome = .ok pieces) {counts : Nat → Nat}
    (short : ShortCounts counts 0 done.buf.getSize (pieces.map List.length)) :
    ∃ sending, handleConnection paths reads (shortWrites counts) parser res = .ok sending ∧
      (sending.buf.getSize = 0 ↔
        LastWhole counts done.buf.getSize (pieces.map List.length)) := by
  obtain ⟨sending, handled, size⟩ := handleConnection_backlog fits ends answered emitted short
  refine ⟨sending, handled, ?_⟩
  obtain ⟨piece, rest, rfl⟩ := answer_cons answered emitted
  rw [size]
  exact backlog_eq_zero_iff short (by simp)

/-- Bytes that are accepted one by one, of pieces that are not empty. -/
theorem ShortCounts.ones {sizes : List Nat} (filled : ∀ size ∈ sizes, 0 < size)
    (call left : Nat) : ShortCounts (fun _ => 1) call left sizes := by
  induction sizes generalizing call left with
  | nil => trivial
  | cons size sizes ih =>
      have positive := filled size List.mem_cons_self
      exact ⟨show 1 ≤ left + size by omega, fun _ => Nat.one_pos,
        ih (fun other member => filled other (List.mem_cons_of_mem _ member)) _ _⟩

/-- The pieces of a 404 answer and their sizes -/
theorem notFound_pieces {done : ReadResults} {req : HTTPRequestMessage}
    (outcome : done.outcome = .notFound req) :
    ∃ pieces, answer emptyResponse done.outcome = .ok pieces ∧
      pieces.map List.length = [24, 27] := by
  rw [outcome]
  exact ⟨_, rfl, by decide +kernel⟩

/-- A plain request to a server without any path, answered byte by byte -/
theorem handleConnection_whole_iff_notFound :
    ∃ left sending, handleConnection ∅ [.data plainRequest] (shortWrites fun _ => 1)
        (.new true .v1_0 0) emptyResponse = .ok sending ∧
      (sending.buf.getSize = 0 ↔ LastWhole (fun _ => 1) left [24, 27]) := by
  obtain ⟨done, req, ends, outcome⟩ := plainRequest_notFound
  obtain ⟨pieces, emitted, sizes⟩ := notFound_pieces outcome
  have short : ShortCounts (fun _ => 1) 0 done.buf.getSize (pieces.map List.length) := by
    rw [sizes]
    exact .ones (by decide) _ _
  obtain ⟨sending, handled, whole⟩ := handleConnection_whole_iff plainRequest_fits ends
    (by rw [outcome]; trivial) emitted short
  rw [sizes] at whole
  exact ⟨done.buf.getSize, sending, handled, whole⟩

/-- When every `co_write` accepts one byte, the connection is closed on the rest of the answer. -/
theorem answer_cut_short :
    ¬ ∀ (paths : PathMap) (reads : List ReadResult) (parser : HTTPMessageParser)
        (res : HTTPResponseMessage) (done : ReadResults) (pieces : List Bytes)
        (counts : Nat → Nat) (sending : Sending),
      ReadsFit .new reads → readLoop paths reads .new parser [] = .ok done →
      done.outcome.Answered → answer res done.outcome = .ok pieces →
      ShortCounts counts 0 done.buf.getSize (pieces.map List.length) →
      handleConnection paths reads (shortWrites counts) parser res = .ok sending →
      sending.buf.getSize = 0 := by
  intro whole
  obtain ⟨done, req, ends, outcome⟩ := plainRequest_notFound
  obtain ⟨pieces, emitted, sizes⟩ := notFound_pieces outcome
  have answered : done.outcome.Answered := by rw [outcome]; trivial
  have short : ShortCounts (fun _ => 1) 0 done.buf.getSize (pieces.map List.length) := by
    rw [sizes]
    exact .ones (by decide) _ _
  obtain ⟨sending, handled, size⟩ :=
    handleConnection_backlog plainRequest_fits ends answered emitted short
  have none := whole ∅ _ _ _ _ _ _ _ plainRequest_fits ends answered emitted short handled
  rw [size, sizes] at none
  simp only [backlog] at none
  omega

end SimpleWebServer.Http
