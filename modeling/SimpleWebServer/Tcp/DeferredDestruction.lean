import SimpleWebServer.Tcp.ConnMap

/-!
# The destruction of connections

A connection may close itself in any of its handlers and callbacks, while `poll` goes through
a batch that may report it again.  It is destroyed by a callback of its loop: `full_close`
adds `remove_conn` with `add_callback_after`, and the callback of `remove_conn` runs at once
only because the main loop, to which `remove_conn` passes it, is the loop of the connection.
-/

namespace SimpleWebServer.Tcp

open SimpleWebServer.Base SimpleWebServer.Reactor SimpleWebServer.Lib SimpleWebServer.Lib.Runs

namespace TCPServer

variable {pool : EventloopPool}

/-- A thread may destroy a connection: nothing uses it, and its loop runs callbacks. -/
structure MayDestroy (s : TCPServer pool) (thread : Fin pool.nThread) (id : Nat)
    (conn : ServerConn pool) : Prop where
  onLoop : thread = conn.loop
  /-- the loop is in its callback phase, not in `poll` -/
  inCallbacks : ∃ now, (s.loops conn.loop).phase = .callbacks now
  /-- no handler and no user callback of the connection is on a stack -/
  offStack : ∀ loop, ∀ frame ∈ (s.loops loop).stack, frame.conn ≠ id
  /-- no batch will come to the connection -/
  unreported : ∀ loop, ∀ report ∈ (s.loops loop).phase.reports, report.conn? ≠ some id

/-- A step destroys no connection that its thread may not destroy. -/
def DestroysSafely (s : TCPServer pool) (event : Event pool) : Prop :=
  ∀ next, s.step event = some next → ∀ id, ∀ conn ∈ s.conns id, next.conns id = none →
    s.MayDestroy event.thread id conn

/-- The connections of the first table exist in the second. -/
def Grows (before after : Nat → Option (ServerConn pool)) : Prop :=
  ∀ id, before id ≠ none → after id ≠ none

theorem Grows.refl (conns : Nat → Option (ServerConn pool)) : Grows conns conns :=
  fun _ exists_ => exists_

theorem Grows.trans {first second third : Nat → Option (ServerConn pool)}
    (grows : Grows first second) (more : Grows second third) : Grows first third :=
  fun id exists_ => more id (grows id exists_)

theorem grows_update (conns : Nat → Option (ServerConn pool)) (id : Nat)
    (conn : ServerConn pool) : Grows conns (Function.update conns id (some conn)) := by
  intro other exists_
  by_cases same : other = id
  · rw [same, Function.update_self]
    exact Option.some_ne_none conn
  · rw [Function.update_of_ne same]
    exact exists_

/-! ## The functions of the connections -/

theorem fullClose_grows (s : TCPServer pool) (thread : Fin pool.nThread) (id : Nat)
    (conn : ServerConn pool) : Grows s.conns (s.fullClose thread id conn).conns := by
  rw [fullClose]
  split
  · split
    · exact grows_update s.conns id _
    · exact grows_update s.conns id _
  · exact Grows.refl s.conns

theorem finish_grows (s : TCPServer pool) (id : Nat) (conn : ServerConn pool)
    (result : Except Assertion TCPConnection) :
    Grows s.conns (s.finish id conn result).conns := by
  cases result with
  | ok after => exact grows_update s.conns id _
  | error assertion => exact Grows.refl s.conns

theorem userCall_grows (s : TCPServer pool) (thread : Fin pool.nThread) (id : Nat)
    (conn : ServerConn pool) (call : UserCall) :
    Grows s.conns (s.userCall thread id conn call).conns := by
  cases call with
  | sendData msg =>
      rw [userCall]
      split
      · exact fullClose_grows s thread id conn
      · exact finish_grows s id conn _
  | popData => exact finish_grows s id conn _
  | popDataLen len => exact finish_grows s id conn _
  | halfClose => exact finish_grows s id conn _
  | fullClose => exact fullClose_grows s thread id conn

theorem handleRead_grows (s : TCPServer pool) (thread : Fin pool.nThread) (id : Nat)
    (conn : ServerConn pool) (read : ReadResult) :
    Grows s.conns (s.handleRead thread id conn read).conns := by
  simp only [handleRead]
  split
  · split
    · exact grows_update s.conns id _
    · refine Grows.trans ?_ (finish_grows _ id _ _)
      exact grows_update s.conns id _
  · exact grows_update s.conns id _
  · exact grows_update s.conns id _
  · refine Grows.trans ?_ (fullClose_grows _ thread id _)
    exact grows_update s.conns id _
  · refine Grows.trans ?_ (fullClose_grows _ thread id _)
    exact grows_update s.conns id _

theorem handleWrite_grows (s : TCPServer pool) (thread : Fin pool.nThread) (id : Nat)
    (conn : ServerConn pool) (write : WriteResult) :
    Grows s.conns (s.handleWrite thread id conn write).conns := by
  simp only [handleWrite]
  split
  · split
    · split
      · exact grows_update s.conns id _
      · split
        · exact grows_update s.conns id _
        · exact grows_update s.conns id _
    · exact grows_update s.conns id _
    · exact grows_update s.conns id _
    · refine Grows.trans ?_ (fullClose_grows _ thread id _)
      exact grows_update s.conns id _
    · exact grows_update s.conns id _
  · exact Grows.refl s.conns

/-- The constructor finds no entry to replace. -/
theorem Inv.store_grows {s : TCPServer pool} {hand : List ServerCallback} (inv : s.Inv hand)
    {id : Nat} {conn : ServerConn pool} (has : s.conns id = some conn) {rest : List ServerFrame}
    (stack : s.main.stack = .constructor id :: rest) :
    Grows s.conns ((s.setStack s.mainLoop rest).store conn.fd id).conns := by
  rw [inv.stored has stack]
  exact Grows.refl s.conns

/-- The connection that a thread uses is there. -/
theorem withConn_grows {s t next : TCPServer pool} {id : Nat}
    {use : ServerConn pool → Option (TCPServer pool)} (used : t.withConn id use = some next)
    (sameConns : t.conns = s.conns) (grows : ∀ conn, t.conns id = some conn → use conn = some next →
      Grows s.conns next.conns) : Grows s.conns next.conns := by
  rw [withConn] at used
  split at used
  · next conn has => exact grows conn has used
  · cases used
    rw [← sameConns]
    exact Grows.refl t.conns

/-- A function that returns destroys nothing. -/
theorem Inv.leave_grows {s next : TCPServer pool} (inv : s.Inv []) {thread : Fin pool.nThread}
    (left : s.leave thread = some next) : Grows s.conns next.conns := by
  rw [TCPServer.leave] at left
  split at left
  · next id rest stack =>
      obtain ⟨rfl, -⟩ := inv.frameConn stack
      apply withConn_grows left rfl
      intro conn has stored
      cases stored
      exact inv.store_grows has stack
  · apply withConn_grows left rfl
    intro conn has quiet
    obtain ⟨-, rfl⟩ := of_guarded quiet
    exact Grows.refl s.conns
  · apply withConn_grows left rfl
    intro conn has done
    cases done
    exact grows_update s.conns _ _
  · apply withConn_grows left rfl
    intro conn has done
    cases done
    exact grows_update s.conns _ _
  · apply withConn_grows left rfl
    intro conn has done
    cases done
    exact grows_update s.conns _ _
  · cases left
    exact Grows.refl s.conns
  · cases left

/-! ## The steps -/

theorem turn_grows {s next : TCPServer pool} {thread : Fin pool.nThread}
    {turn : Turn ServerReport ServerCallback} (taken : s.turn thread turn = some next) :
    Grows s.conns next.conns := by
  obtain ⟨-, turned, -, rfl⟩ := turn_eq_some taken
  exact Grows.refl s.conns

theorem createConn_grows (s : TCPServer pool) (thread : Fin pool.nThread) (fd : Nat) :
    Grows s.conns (s.createConn thread fd).conns := by
  rw [createConn, addCallback]
  split
  · rw [createConnCb]
    split
    · exact Grows.refl s.conns
    · split
      · exact Grows.refl s.conns
      · exact grows_update s.conns s.nextConn _
  · exact Grows.refl s.conns

theorem acceptorHandleRead_grows {s next : TCPServer pool} {thread : Fin pool.nThread}
    {accepted : Option Nat} (handled : s.acceptorHandleRead thread accepted = some next) :
    Grows s.conns next.conns := by
  cases accepted with
  | none =>
      cases handled
      exact Grows.refl s.conns
  | some fd =>
      obtain ⟨-, rfl⟩ := of_guarded handled
      exact createConn_grows { s with isOpen := Function.update s.isOpen fd true } thread fd

/-- Only a callback destroys a connection. -/
theorem Inv.act_grows {s next : TCPServer pool} (inv : s.Inv []) {thread : Fin pool.nThread}
    {action : Action} (acted : s.act thread action = some next) (notCallback : action ≠ .callback) :
    Grows s.conns next.conns := by
  cases action with
  | stop =>
      cases acted
      exact Grows.refl s.conns
  | run => exact turn_grows acted
  | test => exact turn_grows acted
  | wake reports =>
      simp only [TCPServer.act] at acted
      split at acted
      · exact turn_grows acted
      · cases acted
  | activated =>
      simp only [TCPServer.act] at acted
      split at acted
      · exact turn_grows acted
      · cases acted
  | accept accepted =>
      simp only [TCPServer.act] at acted
      split at acted
      · obtain ⟨taken, turned, handled⟩ := Option.bind_eq_some_iff.mp acted
        exact (turn_grows turned).trans (acceptorHandleRead_grows handled)
      · cases acted
  | handleEvent =>
      simp only [TCPServer.act] at acted
      split at acted
      · obtain ⟨taken, turned, handled⟩ := Option.bind_eq_some_iff.mp acted
        refine (turn_grows turned).trans (withConn_grows handled rfl fun conn has entered => ?_)
        cases entered
        exact grows_update taken.conns _ _
      · cases acted
  | read read =>
      simp only [TCPServer.act] at acted
      split at acted
      · apply withConn_grows acted rfl
        intro conn has handled
        obtain ⟨-, rfl⟩ := of_guarded handled
        exact handleRead_grows s thread _ conn read
      · cases acted
  | write write =>
      simp only [TCPServer.act] at acted
      split at acted
      · apply withConn_grows acted rfl
        intro conn has handled
        obtain ⟨-, rfl⟩ := of_guarded handled
        exact handleWrite_grows s thread _ conn write
      · cases acted
  | call id call =>
      simp only [TCPServer.act] at acted
      split at acted
      · obtain ⟨-, rfl⟩ := of_guarded acted
        exact userCall_grows s thread id _ call
      · cases acted
  | leave => exact inv.leave_grows acted
  | swap => exact turn_grows acted
  | callback => exact absurd rfl notCallback
  | callbacksEnd => exact turn_grows acted

/-- A thread that begins a callback has called nothing. -/
theorem callback_begins {s next : TCPServer pool} {thread : Fin pool.nThread}
    (acted : s.act thread .callback = some next) :
    (s.loops thread).stack = [] ∧ ∃ cb rest, (s.loops thread).phase.now = cb :: rest := by
  simp only [act] at acted
  split at acted
  · next now =>
      obtain ⟨taken, begun, -⟩ := Option.map_eq_some_iff.mp acted
      exact ⟨(turn_eq_some begun).1, _, _, now⟩
  · next now =>
      obtain ⟨taken, begun, -⟩ := Option.map_eq_some_iff.mp acted
      exact ⟨(turn_eq_some begun).1, _, _, now⟩
  · next now =>
      obtain ⟨taken, begun, -⟩ := Option.map_eq_some_iff.mp acted
      exact ⟨(turn_eq_some begun).1, _, _, now⟩
  · cases acted

/-- A loop that takes a callback may destroy every connection. -/
theorem Inv.mayDestroy {s next : TCPServer pool} (inv : s.Inv []) {thread : Fin pool.nThread}
    (acted : s.act thread .callback = some next) {id : Nat} {conn : ServerConn pool}
    (has : s.conns id = some conn) : s.MayDestroy thread id conn := by
  obtain ⟨stack, cb, rest, now⟩ := callback_begins acted
  have inCallbacks : (s.loops thread).phase = .callbacks (cb :: rest) :=
    LoopPhase.eq_callbacks now
  have isMain : thread = s.mainLoop := inv.isMain_of_now now
  have onMain : conn.loop = s.mainLoop := inv.onMain id conn has
  subst isMain
  refine ⟨onMain.symm, ?_, ?_, ?_⟩
  · rw [onMain]
    exact ⟨_, inCallbacks⟩
  · intro loop
    by_cases same : loop = s.mainLoop
    · rw [same, stack]
      exact fun _ isFrame => absurd isFrame List.not_mem_nil
    · rw [(inv.idle loop same).stack]
      exact fun _ isFrame => absurd isFrame List.not_mem_nil
  · intro loop report isReport
    by_cases same : loop = s.mainLoop
    · rw [same, inCallbacks] at isReport
      cases isReport
    · rw [(inv.idle loop same).reports report isReport]
      exact (Option.some_ne_none id).symm

theorem Inv.destroysSafely {s : TCPServer pool} (inv : s.Inv []) (event : Event pool) :
    s.DestroysSafely event := by
  intro next taken id conn has gone
  rw [TCPServer.step] at taken
  split at taken
  · by_cases isCallback : event.action = .callback
    · rw [isCallback] at taken
      exact inv.mayDestroy taken has
    · have stays : s.conns id ≠ none → next.conns id ≠ none := inv.act_grows taken isCallback id
      exact absurd gone (stays (by rw [has]; exact Option.some_ne_none _))
  · cases taken

/-- No step of any run destroys a connection that is in use. -/
theorem allDestroySafely (pool : EventloopPool) (userCb : UserCallback)
    (events : List (Event pool)) :
    StepsMeet step DestroysSafely (new pool userCb) events :=
  stepsMeet_of_invariant (Inv · []) (fun _ _ _ inv => inv.step)
    (fun _ event inv => inv.destroysSafely event) events (new_inv pool userCb)

end TCPServer

end SimpleWebServer.Tcp
