import SimpleWebServer.Tcp.ServerConnections

/-!
# A server keeps its connections in order

What all runs of one connection keep, the connections of a server keep: `write_buf` is below its
limit, and `close_cb` and the removal come once, when the connection closes, whatever callbacks of
other connections lie between.
-/

namespace SimpleWebServer.Tcp

open SimpleWebServer.Base SimpleWebServer.Reactor SimpleWebServer.Lib.Runs

namespace BacklogRun

/-- `close_cb` is called when the connection closes, and `remove_conn_cb` behind it. -/
structure ClosesOnce (s : BacklogRun) : Prop where
  closeCbs : s.conn.closeCbs =
    if s.conn.state = .fullClose ∧ s.userCb.closeCb = true then 1 else 0
  removeCbs : s.conn.removeCbs + s.waiting.count .closeCb =
    if s.conn.state = .fullClose then 1 else 0

variable {s next : BacklogRun}

theorem start_closesOnce (userCb : UserCallback) : (start userCb).ClosesOnce := ⟨rfl, rfl⟩

/-- A step that neither closes the connection nor comes behind `close_cb`. -/
theorem ClosesOnce.of_eq (once : s.ClosesOnce)
    (state : next.conn.state = .fullClose ↔ s.conn.state = .fullClose)
    (userCb : next.userCb = s.userCb) (closeCbs : next.conn.closeCbs = s.conn.closeCbs)
    (removeCbs : next.conn.removeCbs = s.conn.removeCbs)
    (waits : next.waiting.count .closeCb = s.waiting.count .closeCb) : next.ClosesOnce where
  closeCbs := by
    simp only [closeCbs, state, userCb]
    exact once.closeCbs
  removeCbs := by
    simp only [removeCbs, waits, state]
    exact once.removeCbs

theorem ClosesOnce.fullClose (once : s.ClosesOnce) : s.fullClose.ClosesOnce := by
  have closeCbs := once.closeCbs
  have removeCbs := once.removeCbs
  rw [BacklogRun.fullClose]
  split
  · next opened =>
      rw [if_neg fun both => opened both.1] at closeCbs
      rw [if_neg opened] at removeCbs
      split
      · next called =>
          refine ⟨?_, ?_⟩
          · exact (congrArg (· + 1) closeCbs).trans (if_pos ⟨rfl, called⟩).symm
          · change s.conn.removeCbs + (Waiting.closeCb :: s.waiting).count .closeCb = 1
            rw [List.count_cons_self]
            omega
      · next silent =>
          refine ⟨?_, ?_⟩
          · exact closeCbs.trans (if_neg fun both => silent both.2).symm
          · change s.conn.removeCbs + 1 + s.waiting.count .closeCb = 1
            omega
  · exact once.of_eq Iff.rfl rfl rfl rfl rfl

/-- A call that neither closes the connection nor finds it closed. -/
theorem ClosesOnce.finish (once : s.ClosesOnce) {result : Except Assertion TCPConnection}
    (returns : ∀ conn, result = .ok conn →
      (conn.state = .fullClose ↔ s.conn.state = .fullClose) ∧
        conn.closeCbs = s.conn.closeCbs ∧ conn.removeCbs = s.conn.removeCbs) :
    (s.finish result).ClosesOnce := by
  cases result with
  | ok conn =>
      obtain ⟨state, closeCbs, removeCbs⟩ := returns conn rfl
      exact once.of_eq state rfl closeCbs removeCbs rfl
  | error assertion => exact once.of_eq Iff.rfl rfl rfl rfl rfl

theorem popDataLen_closing {conn next : TCPConnection} {len : Int}
    (popped : conn.popDataLen len = .ok next) :
    (next.state = .fullClose ↔ conn.state = .fullClose) ∧
      next.closeCbs = conn.closeCbs ∧ next.removeCbs = conn.removeCbs := by
  obtain ⟨-, readBuf, -, rfl⟩ := TCPConnection.of_popDataLen popped
  exact ⟨Iff.rfl, rfl, rfl⟩

theorem ClosesOnce.call (once : s.ClosesOnce) (call : UserCall) : (s.call call).ClosesOnce := by
  cases call with
  | sendData msg =>
      rw [BacklogRun.call]
      split
      · exact once.fullClose
      · next fits =>
          refine once.finish fun conn sent => ?_
          rw [TCPConnection.sendData] at sent
          split_ifs at sent with connecting full
          · exact absurd ⟨connecting, full⟩ fits
          · cases sent
            exact ⟨Iff.rfl, rfl, rfl⟩
  | popData => exact once.finish fun conn popped => popDataLen_closing popped
  | popDataLen len => exact once.finish fun conn popped => popDataLen_closing popped
  | halfClose =>
      refine once.finish fun conn closed => ?_
      rw [TCPConnection.halfClose] at closed
      split at closed
      · next connecting =>
          rw [connecting]
          dsimp only at closed
          split at closed
          · cases closed
            exact ⟨by simp [TCPConnection.shutdown], rfl, rfl⟩
          · cases closed
            exact ⟨by simp, rfl, rfl⟩
      · cases closed
  | fullClose => exact once.fullClose

theorem lowered_closing (conn : TCPConnection) : (lowered conn).state = conn.state ∧
    (lowered conn).closeCbs = conn.closeCbs ∧ (lowered conn).removeCbs = conn.removeCbs := by
  rw [lowered]
  split
  · exact ⟨rfl, rfl, rfl⟩
  · exact ⟨rfl, rfl, rfl⟩

theorem ClosesOnce.handleRead (once : s.ClosesOnce) (result : ReadResult) :
    (s.handleRead result).ClosesOnce := by
  have received : ClosesOnce
      { s with conn := { s.conn with readBuf := (s.conn.readBuf.pushFrom result).2 } } :=
    once.of_eq Iff.rfl rfl rfl rfl rfl
  unfold BacklogRun.handleRead
  cases result with
  | error errno =>
      cases errno with
      | again => exact received
      | intr => exact received
      | other => exact received.fullClose
  | data bytes =>
      cases bytes with
      | nil => exact received.fullClose
      | cons byte rest =>
          dsimp only
          split
          · exact received.of_eq Iff.rfl rfl rfl rfl (List.count_cons_of_ne (by decide))
          · split
            · exact received.of_eq Iff.rfl rfl rfl rfl rfl
            · exact received.of_eq Iff.rfl rfl rfl rfl rfl

theorem ClosesOnce.handleWrite (once : s.ClosesOnce) (result : WriteResult) :
    (s.handleWrite result).ClosesOnce := by
  have sent : ClosesOnce
      { s with conn := { s.conn with writeBuf := (s.conn.writeBuf.popTo result).2 } } :=
    once.of_eq Iff.rfl rfl rfl rfl rfl
  unfold BacklogRun.handleWrite
  split
  · cases result with
    | error errno =>
        cases errno with
        | again => exact sent
        | intr => exact sent
        | other => exact sent.fullClose
    | wrote count =>
        cases count with
        | zero => exact sent
        | succ count =>
            dsimp only
            split
            · split
              · exact sent.of_eq Iff.rfl rfl rfl rfl (List.count_cons_of_ne (by decide))
              · obtain ⟨state, closeCbs, removeCbs⟩ := lowered_closing (TCPConnection.disableWrite
                  { s.conn with writeBuf := (s.conn.writeBuf.popTo (.wrote (count + 1))).2 })
                exact sent.of_eq (by rw [state]; rfl) rfl closeCbs removeCbs rfl
            · split
              · exact sent.of_eq Iff.rfl rfl rfl rfl (List.count_cons_of_ne (by decide))
              · exact sent
  · exact once.of_eq Iff.rfl rfl rfl rfl rfl

theorem ClosesOnce.step (once : s.ClosesOnce) {event : BacklogEvent}
    (taken : s.step event = some next) : next.ClosesOnce := by
  cases event with
  | read result =>
      obtain ⟨-, rfl⟩ := of_guarded taken
      exact once.handleRead result
  | write result =>
      obtain ⟨-, rfl⟩ := of_guarded taken
      exact once.handleWrite result
  | call call =>
      obtain ⟨-, rfl⟩ := of_guarded taken
      exact once.call call
  | returned =>
      simp only [BacklogRun.step] at taken
      split at taken
      · cases taken
      · next innermost rest waits =>
          obtain ⟨-, rfl⟩ := of_guarded taken
          have removeCbs := once.removeCbs
          rw [waits] at removeCbs
          cases innermost with
          | messageCb => exact ⟨once.closeCbs, removeCbs⟩
          | writeHigh => exact ⟨once.closeCbs, removeCbs⟩
          | writeLower =>
              obtain ⟨state, closeCbs, removes⟩ := lowered_closing s.conn
              refine ⟨?_, ?_⟩
              · simp only [goOn, state, closeCbs]
                exact once.closeCbs
              · simp only [goOn, state, removes]
                exact removeCbs
          | closeCb =>
              refine ⟨once.closeCbs, ?_⟩
              rw [List.count_cons_self] at removeCbs
              change s.conn.removeCbs + 1 + rest.count .closeCb = _
              rw [Nat.add_right_comm]
              exact removeCbs

end BacklogRun

variable {pool : EventloopPool}

/-- What the frames of the stack still do changes neither buffer, and does not close again. -/
theorem unwind_keeps (id : Nat) (stack : List ServerFrame) (conn : TCPConnection) :
    (unwind id stack conn).writeBuf = conn.writeBuf ∧ (unwind id stack conn).state = conn.state ∧
      (unwind id stack conn).closeCbs = conn.closeCbs ∧
        conn.removeCbs ≤ (unwind id stack conn).removeCbs := by
  induction stack generalizing conn with
  | nil => exact ⟨rfl, rfl, rfl, Nat.le_refl _⟩
  | cons frame rest ih =>
      have settles : (frame.settle conn).writeBuf = conn.writeBuf ∧
          (frame.settle conn).state = conn.state ∧
            (frame.settle conn).closeCbs = conn.closeCbs ∧
              conn.removeCbs ≤ (frame.settle conn).removeCbs := by
        cases frame with
        | handleWrite other lower =>
            cases lower with
            | false => exact ⟨rfl, rfl, rfl, Nat.le_refl _⟩
            | true =>
                obtain ⟨state, closeCbs, removeCbs⟩ := BacklogRun.lowered_closing conn
                exact ⟨BacklogRun.lowered_writeBuf conn, state, closeCbs,
                  Nat.le_of_eq removeCbs.symm⟩
        | fullClose other => exact ⟨rfl, rfl, rfl, Nat.le_succ _⟩
        | _ => exact ⟨rfl, rfl, rfl, Nat.le_refl _⟩
      rw [unwind]
      split
      · exact ⟨rfl, rfl, rfl, Nat.le_refl _⟩
      · split
        · obtain ⟨writeBuf, state, closeCbs, removeCbs⟩ := ih (frame.settle conn)
          exact ⟨writeBuf.trans settles.1, state.trans settles.2.1,
            closeCbs.trans settles.2.2.1, Nat.le_trans settles.2.2.2 removeCbs⟩
        · exact ih conn

namespace TCPServer

variable {s : TCPServer pool}

/--
What a server may rely on in its connections: `write_buf` is below the limit and `write_high`
is not called; a connection that was closed, and no other one, has called `close_cb`, if there
is one, exactly once, and it adds `remove_conn` to its loop at most once.
-/
structure ConnsInOrder (s : TCPServer pool) : Prop where
  below : ∀ id, ∀ conn ∈ s.conns id, conn.conn.writeBuf.getSize < maxWriteBufSize
  noHigh : ∀ id, ∀ conn ∈ s.conns id, ∀ loop, .user .writeHigh id ∉ (s.loops loop).stack
  closeCbs : ∀ id, ∀ conn ∈ s.conns id, conn.conn.closeCbs =
    if conn.conn.state = .fullClose ∧ conn.userCb.closeCb = true then 1 else 0
  removeCbs : ∀ id, ∀ conn ∈ s.conns id, conn.conn.removeCbs ≤
    if conn.conn.state = .fullClose then 1 else 0

theorem Sound.connsInOrder {done : Nat → List BacklogEvent} (sound : s.Sound done)
    (alive : s.failed = none) : s.ConnsInOrder := by
  have isThere {id : Nat} {conn : ServerConn pool} (has : s.conns id = some conn) :
      s.backlogs id = some (conn.alone id s.main.stack) := by
    rw [backlogs, has]
    rfl
  have bounded {id : Nat} {conn : ServerConn pool} (has : s.conns id = some conn) :
      (conn.alone id s.main.stack).Bounded := by
    refine (sound.ran alive).holds (fun first isFresh events => ?_) (isThere has)
    obtain ⟨userCb, rfl⟩ := isFresh
    exact allStates_of_invariant BacklogRun.Bounded (fun _ _ _ bounded => bounded.step)
      (fun _ holds => holds) events (BacklogRun.start_bounded userCb)
  have once {id : Nat} {conn : ServerConn pool} (has : s.conns id = some conn) :
      (conn.alone id s.main.stack).ClosesOnce := by
    refine (sound.ran alive).holds (fun first isFresh events => ?_) (isThere has)
    obtain ⟨userCb, rfl⟩ := isFresh
    exact allStates_of_invariant BacklogRun.ClosesOnce (fun _ _ _ once => once.step)
      (fun _ holds => holds) events (BacklogRun.start_closesOnce userCb)
  refine ⟨fun id conn has => ?_, fun id conn has loop called => ?_, fun id conn has => ?_,
    fun id conn has => ?_⟩
  · rw [← (unwind_keeps id s.main.stack conn.conn).1]
    exact (bounded has).below
  · by_cases isMain : loop = s.mainLoop
    · subst isMain
      apply (bounded has).noHigh
      exact List.mem_filterMap.mpr ⟨_, called, if_pos rfl⟩
    · rw [(sound.inv.idle loop isMain).stack] at called
      cases called
  · obtain ⟨-, state, closeCbs, -⟩ := unwind_keeps id s.main.stack conn.conn
    rw [← state, ← closeCbs]
    exact (once has).closeCbs
  · obtain ⟨-, state, -, removeCbs⟩ := unwind_keeps id s.main.stack conn.conn
    rw [← state]
    refine Nat.le_trans removeCbs ?_
    exact Nat.le_trans (Nat.le_add_right _ _) (Nat.le_of_eq (once has).removeCbs)

/-- In every state of a server that goes on, its connections are in order. -/
theorem allConnsInOrder (pool : EventloopPool) (userCb : UserCallback)
    (events : List (Event pool)) :
    AllStates step (fun s => s.failed = none → s.ConnsInOrder) (new pool userCb) events := by
  refine allStates_of_invariant (fun s => ∃ done, s.Sound done) ?_ ?_ events
    ⟨_, new_sound pool userCb⟩
  · intro s event next ⟨done, sound⟩ taken
    exact ⟨_, sound.step taken⟩
  · intro s ⟨done, sound⟩
    exact sound.connsInOrder

end TCPServer

end SimpleWebServer.Tcp
