import SimpleWebServer.Tcp.ConnMap
import SimpleWebServer.Tcp.WriteBacklog

/-!
# The connections of a server

In a server the connections share a thread: their handlers, the functions that wait for the
user and the user's callbacks are frames of one stack, and a callback for one connection may call
another.  Seen alone, each of them is a `BacklogRun`: its user frames are the callbacks it waits
for, and what its functions still have to do before the next user frame is done.
-/

namespace SimpleWebServer.Tcp

open SimpleWebServer.Base SimpleWebServer.Reactor SimpleWebServer.Lib SimpleWebServer.Lib.Runs

namespace TCPConnection

/-- The connection without what `handle_event` keeps of a report. -/
def untriggered (conn : TCPConnection) : TCPConnection :=
  { conn with ch := conn.ch.handled, writeCb_isSome := conn.writeCb_isSome }

@[simp]
theorem untriggered_state (conn : TCPConnection) : conn.untriggered.state = conn.state := rfl

@[simp]
theorem untriggered_writeBuf (conn : TCPConnection) : conn.untriggered.writeBuf = conn.writeBuf :=
  rfl

@[simp]
theorem untriggered_readBuf (conn : TCPConnection) : conn.untriggered.readBuf = conn.readBuf := rfl

theorem untriggered_fullClose (conn : TCPConnection) :
    conn.untriggered.fullClose = conn.fullClose.map untriggered := by
  rw [fullClose, fullClose, untriggered_state]
  split
  · rfl
  · rfl

theorem untriggered_popDataLen (conn : TCPConnection) (len : Int) :
    conn.untriggered.popDataLen len = (conn.popDataLen len).map untriggered := by
  rw [popDataLen, popDataLen, untriggered_state, untriggered_readBuf]
  split
  · cases conn.readBuf.popLen len with
    | ok readBuf => rfl
    | error fault => rfl
  · rfl

theorem untriggered_sendData (conn : TCPConnection) (msg : Bytes) :
    conn.untriggered.sendData msg = (conn.sendData msg).map untriggered := by
  rw [sendData, sendData, untriggered_state, untriggered_writeBuf, untriggered_fullClose]
  split
  · split
    · rfl
    · rfl
  · rfl

theorem untriggered_halfClose (conn : TCPConnection) :
    conn.untriggered.halfClose = conn.halfClose.map untriggered := by
  rw [halfClose, halfClose, untriggered_state]
  split
  · dsimp only
    by_cases written : conn.writeBuf.getSize = 0 ∧ conn.ch.isEnable .write = false
    · rw [if_pos written]
      exact if_pos written
    · rw [if_neg written]
      exact if_neg written
  · rfl

/-- No call of the user looks at what was reported. -/
theorem untriggered_call (conn : TCPConnection) (call : UserCall) :
    conn.untriggered.call call = (conn.call call).map untriggered := by
  cases call with
  | sendData msg => exact conn.untriggered_sendData msg
  | popData => exact conn.untriggered_popDataLen _
  | popDataLen len => exact conn.untriggered_popDataLen len
  | halfClose => exact conn.untriggered_halfClose
  | fullClose => exact conn.untriggered_fullClose

theorem untriggered_lowered (conn : TCPConnection) :
    (BacklogRun.lowered conn).untriggered = BacklogRun.lowered conn.untriggered := by
  unfold BacklogRun.lowered
  change _ = if conn.state = .halfClose then _ else _
  split
  · rfl
  · rfl

end TCPConnection

/-! ## What the stack says of one connection -/

namespace UserCb

/-- The callback as `BacklogRun` has it, which does not call `open_cb`. -/
def waiting : UserCb → Option Waiting
  | .openCb => none
  | .closeCb => some .closeCb
  | .messageCb => some .messageCb
  | .writeHigh => some .writeHigh
  | .writeLower => some .writeLower

/-- What the function that waits for the callback does behind it. -/
def behind (conn : TCPConnection) : UserCb → TCPConnection
  | .closeCb => conn.addRemoveCb
  | .writeLower => BacklogRun.lowered conn
  | _ => conn

end UserCb

namespace ServerFrame

def isUser : ServerFrame → Bool
  | .user _ _ => true
  | _ => false

def waiting : ServerFrame → Option Waiting
  | .user cb _ => cb.waiting
  | _ => none

/-- What a function still does with its connection. -/
def settle (conn : TCPConnection) : ServerFrame → TCPConnection
  | .handleWrite _ true => BacklogRun.lowered conn
  | .fullClose _ => conn.addRemoveCb
  | _ => conn

theorem untriggered_settle (frame : ServerFrame) (conn : TCPConnection) :
    (frame.settle conn).untriggered = frame.settle conn.untriggered := by
  cases frame with
  | handleWrite id lower =>
      cases lower with
      | false => rfl
      | true => exact conn.untriggered_lowered
  | _ => rfl

end ServerFrame

/-- A connection when the functions above the first user frame have returned. -/
def unwind (id : Nat) : List ServerFrame → TCPConnection → TCPConnection
  | [], conn => conn
  | frame :: rest, conn =>
      if frame.isUser then conn
      else unwind id rest (if id = frame.conn then frame.settle conn else conn)

/-- The callbacks that a connection waits for, the innermost first. -/
def waitings (id : Nat) (stack : List ServerFrame) : List Waiting :=
  stack.filterMap fun frame => if id = frame.conn then frame.waiting else none

/-- What lies below a frame: a user frame has its function there, `handle_event` nothing. -/
def ServerFrame.FitsOn (rest : List ServerFrame) : ServerFrame → Prop
  | .user cb id => ∀ other conn, unwind other rest conn =
      if other = id then cb.behind conn else conn
  | .handleEvent _ => rest = []
  | _ => True

def Framed : List ServerFrame → Prop
  | [] => True
  | frame :: rest => frame.FitsOn rest ∧ Framed rest

/-- No function above the first user frame has anything left to do. -/
def Settled (stack : List ServerFrame) : Prop := ∀ id conn, unwind id stack conn = conn

theorem settled_nil : Settled [] := fun _ _ => rfl

theorem settled_user (cb : UserCb) (id : Nat) (rest : List ServerFrame) :
    Settled (.user cb id :: rest) := fun _ _ => rfl

theorem Settled.cons {rest : List ServerFrame} (settled : Settled rest) {frame : ServerFrame}
    (quiet : ∀ conn, frame.settle conn = conn) : Settled (frame :: rest) := by
  intro id conn
  rw [unwind, quiet, ite_self, settled]
  exact ite_self conn

theorem unwind_cons {frame : ServerFrame} (notUser : frame.isUser = false) (id : Nat)
    (rest : List ServerFrame) (conn : TCPConnection) :
    unwind id (frame :: rest) conn =
      unwind id rest (if id = frame.conn then frame.settle conn else conn) := by
  rw [unwind, notUser]
  rfl

/-- A user frame above the function that waits for it. -/
theorem fitsOn_user {stack : List ServerFrame} (settled : Settled stack) {cb : UserCb}
    {frame : ServerFrame} (notUser : frame.isUser = false)
    (effect : ∀ conn, frame.settle conn = cb.behind conn) :
    (ServerFrame.user cb frame.conn).FitsOn (frame :: stack) := by
  intro other conn
  rw [unwind_cons notUser, settled, effect]

/-- A user frame above functions that have nothing left to do. -/
theorem Settled.fitsOn {stack : List ServerFrame} (settled : Settled stack) {cb : UserCb}
    (quiet : ∀ conn, cb.behind conn = conn) (id : Nat) :
    (ServerFrame.user cb id).FitsOn stack := by
  intro other conn
  rw [settled, quiet]
  exact (ite_self conn).symm

theorem untriggered_unwind (id : Nat) (stack : List ServerFrame) (conn : TCPConnection) :
    (unwind id stack conn).untriggered = unwind id stack conn.untriggered := by
  induction stack generalizing conn with
  | nil => rfl
  | cons frame rest ih =>
      rw [unwind, unwind]
      split
      · rfl
      · rw [ih]
        split
        · rw [frame.untriggered_settle]
        · rfl

/-- The frames of another connection leave a connection alone. -/
theorem unwind_append_of_ne {frames stack : List ServerFrame} {id other : Nat}
    (mine : ∀ frame ∈ frames, frame.conn = id) (different : other ≠ id) (settled : Settled stack)
    (conn : TCPConnection) : unwind other (frames ++ stack) conn = conn := by
  induction frames with
  | nil => exact settled other conn
  | cons frame rest ih =>
      have notMine : ¬ other = frame.conn := by
        rw [mine frame List.mem_cons_self]
        exact different
      rw [List.cons_append, unwind, if_neg notMine,
        ih fun frame isFrame => mine frame (List.mem_cons_of_mem _ isFrame)]
      exact ite_self conn

theorem waitings_append_of_ne {frames : List ServerFrame} {id other : Nat}
    (mine : ∀ frame ∈ frames, frame.conn = id) (different : other ≠ id)
    (stack : List ServerFrame) : waitings other (frames ++ stack) = waitings other stack := by
  have none : waitings other frames = [] := by
    apply List.filterMap_eq_nil_iff.mpr
    intro frame isFrame
    rw [mine frame isFrame, if_neg different]
  rw [waitings, List.filterMap_append, ← waitings, none, List.nil_append]
  rfl

theorem waitings_user (cb : UserCb) (id : Nat) (rest : List ServerFrame) :
    waitings id (.user cb id :: rest) = cb.waiting.toList ++ waitings id rest := by
  rw [waitings, List.filterMap_cons, if_pos (show id = (ServerFrame.user cb id).conn from rfl)]
  cases cb with
  | openCb => rfl
  | _ => rfl

theorem waitings_cons {frame : ServerFrame} (notUser : frame.isUser = false) (id : Nat)
    (rest : List ServerFrame) : waitings id (frame :: rest) = waitings id rest := by
  have silent : (if id = frame.conn then frame.waiting else none) = none := by
    cases frame with
    | user cb other => cases notUser
    | _ => exact ite_self none
  exact List.filterMap_cons_none silent

variable {pool : EventloopPool}

namespace ServerConn

/-- A connection of a server, seen alone. -/
def alone (conn : ServerConn pool) (id : Nat) (stack : List ServerFrame) : BacklogRun where
  conn := (unwind id stack conn.conn).untriggered
  userCb := conn.userCb
  waiting := waitings id stack

theorem alone_user (conn : ServerConn pool) (cb : UserCb) (id : Nat) (rest : List ServerFrame) :
    conn.alone id (.user cb id :: rest) =
      { conn := conn.conn.untriggered
        userCb := conn.userCb
        waiting := cb.waiting.toList ++ waitings id rest } := by
  rw [alone, waitings_user]
  rfl

theorem alone_cons (conn : ServerConn pool) (frame : ServerFrame)
    (notUser : frame.isUser = false) (rest : List ServerFrame) :
    conn.alone frame.conn (frame :: rest) =
      { conn with conn := frame.settle conn.conn }.alone frame.conn rest := by
  rw [alone, unwind_cons notUser, waitings_cons notUser, if_pos rfl]
  rfl

/-- Nothing is left to do in the functions of the connection. -/
theorem alone_settled (conn : ServerConn pool) {stack : List ServerFrame}
    (settled : Settled stack) (id : Nat) :
    conn.alone id stack =
      { conn := conn.conn.untriggered
        userCb := conn.userCb
        waiting := waitings id stack } := by
  rw [alone, settled]

end ServerConn

namespace TCPServer

/-- A connection of the server, seen alone. -/
def backlog (s : TCPServer pool) (id : Nat) (conn : ServerConn pool) : BacklogRun :=
  conn.alone id s.main.stack

/-- The connections that exist, each seen alone. -/
def backlogs (s : TCPServer pool) (id : Nat) : Option BacklogRun :=
  (s.conns id).map (s.backlog id)

/-- A connection that has just been made. -/
def Fresh (run : BacklogRun) : Prop := ∃ userCb, run = .start userCb

/-- Nothing is done with any connection. -/
def nothing : Nat → Option BacklogEvent := fun _ => none

/-- Something is done with one connection. -/
def only (id : Nat) (event : BacklogEvent) : Nat → Option BacklogEvent :=
  Function.update nothing id (some event)

/--
What a step of the server does with each connection: a handler is called, with what `read` or
`write` returns, the user calls the connection, or a callback returns to the function that waits
for it.
-/
def connEvents (s : TCPServer pool) (event : Event pool) : Nat → Option BacklogEvent :=
  match event.action, (s.loops event.thread).stack with
  | .read read, .handleEvent id :: _ => only id (.read read)
  | .write write, .handleEvent id :: _ => only id (.write write)
  | .call id call, _ => only id (.call call)
  | .leave, .user cb id :: _ => if cb.waiting = none then nothing else only id .returned
  | _, _ => nothing

/-- An assertion fails in what is done with a connection. -/
def Throws (backlogs : Nat → Option BacklogRun) (did : Nat → Option BacklogEvent)
    (assertion : Assertion) : Prop :=
  ∃ id, ∃ run ∈ backlogs id, ∃ event last, did id = some event ∧
    run.step event = some last ∧ last.failed = some assertion

/-- A step of the server is what it does with each connection. -/
structure Follows (s next : TCPServer pool) (did : Nat → Option BacklogEvent) : Prop where
  framed : next.failed = none → Framed next.main.stack
  grows : next.failed = none → s.nextConn ≤ next.nextConn
  lives : ∀ id, did id ≠ none → s.conns id ≠ none
  goes : next.failed = none → ComponentsStep BacklogRun.step Fresh (s.nextConn ≤ ·) did
    s.backlogs next.backlogs
  throws : ∀ assertion, next.failed = some (.conn assertion) → Throws s.backlogs did assertion

theorem backlogs_congr {s t : TCPServer pool} (conns : t.conns = s.conns)
    (stack : t.main.stack = s.main.stack) : t.backlogs = s.backlogs := by
  funext id
  rw [backlogs, backlogs, conns]
  apply congrArg (fun view => (s.conns id).map view)
  funext conn
  rw [backlog, backlog, stack]

variable {did : Nat → Option BacklogEvent}

/-- A step before which nothing has happened to the connections. -/
theorem Follows.behind {s t next : TCPServer pool} (conns : t.conns = s.conns)
    (stack : t.main.stack = s.main.stack) (nextConn : t.nextConn = s.nextConn)
    (follows : t.Follows next did) : s.Follows next did := by
  have same := backlogs_congr conns stack
  refine ⟨follows.framed, ?_, ?_, ?_, ?_⟩
  · rw [← nextConn]
    exact follows.grows
  · rw [← conns]
    exact follows.lives
  · rw [← same, ← nextConn]
    exact follows.goes
  · rw [← same]
    exact follows.throws

/-- A step in which nothing happens to the connections, but that some may be destroyed. -/
theorem Follows.of_fewer {s next : TCPServer pool} (framed : Framed s.main.stack)
    (conns : ∀ id, ∀ conn ∈ next.conns id, conn ∈ s.conns id)
    (stack : next.main.stack = s.main.stack) (nextConn : next.nextConn = s.nextConn)
    (failed : ∀ assertion, next.failed ≠ some (.conn assertion)) : s.Follows next nothing where
  framed _ := by
    rw [stack]
    exact framed
  grows _ := Nat.le_of_eq nextConn.symm
  lives _ ran := absurd rfl ran
  goes _ id run isRun := by
    obtain ⟨conn, has, rfl⟩ := Option.map_eq_some_iff.mp isRun
    have had : s.conns id = some conn := conns id conn has
    refine .inr ⟨s.backlog id conn, by rw [backlogs, had]; rfl, ?_⟩
    rw [backlog, backlog, stack]
    rfl
  throws assertion threw := absurd threw (failed assertion)

/-- A server that goes on has not been ended by a connection. -/
theorem not_threw {next : TCPServer pool} (alive : next.failed = none) (assertion : Assertion) :
    next.failed ≠ some (.conn assertion) := by
  rw [alive]
  exact (Option.some_ne_none _).symm

/-- A step of a server that goes on, connection by connection. -/
theorem Follows.of_conns {s next : TCPServer pool} (alive : next.failed = none)
    (framed : Framed next.main.stack) (grows : s.nextConn ≤ next.nextConn)
    (lives : ∀ id, did id ≠ none → s.conns id ≠ none)
    (goes : ∀ id, ∀ conn ∈ next.conns id,
      (Fresh (next.backlog id conn) ∧ s.nextConn ≤ id ∧ did id = none) ∨
      ∃ had, s.conns id = some had ∧
        (did id = none ∧ next.backlog id conn = s.backlog id had ∨
        ∃ event, did id = some event ∧
          (s.backlog id had).step event = some (next.backlog id conn))) :
    s.Follows next did where
  framed _ := framed
  grows _ := grows
  lives := lives
  goes _ id run isRun := by
    obtain ⟨conn, has, rfl⟩ := Option.map_eq_some_iff.mp isRun
    rcases goes id conn has with isFirst | ⟨had, isHad, behind⟩
    · exact .inl isFirst
    · refine .inr ⟨s.backlog id had, by rw [backlogs, isHad]; rfl, ?_⟩
      rcases behind with ⟨none, same⟩ | ⟨event, did, stepped⟩
      · rw [none, same]
        rfl
      · rw [did]
        exact runFrom_next stepped []
  throws assertion threw := absurd threw (not_threw alive assertion)

theorem Follows.of_same {s next : TCPServer pool} (framed : Framed s.main.stack)
    (conns : next.conns = s.conns) (stack : next.main.stack = s.main.stack)
    (nextConn : next.nextConn = s.nextConn)
    (failed : ∀ assertion, next.failed ≠ some (.conn assertion)) : s.Follows next nothing :=
  .of_fewer framed (fun _ _ has => conns ▸ has) stack nextConn failed

theorem only_self (id : Nat) (event : BacklogEvent) : only id event id = some event :=
  Function.update_self ..

theorem only_of_ne {id other : Nat} (different : other ≠ id) (event : BacklogEvent) :
    only id event other = none :=
  Function.update_of_ne different ..

theorem lives_only {s : TCPServer pool} {id : Nat} {conn : ServerConn pool}
    (has : s.conns id = some conn) (event : BacklogEvent) :
    ∀ other, only id event other ≠ none → s.conns other ≠ none := by
  intro other did
  by_cases same : other = id
  · rw [same, has]
    exact Option.some_ne_none _
  · exact absurd (only_of_ne same event) did

/-! ## Steps in the functions of a connection -/

/-- The server in a function of a connection, which has changed nothing else. -/
structure Within (s t : TCPServer pool) (id : Nat) (received : ServerConn pool) : Prop where
  conns : t.conns = Function.update s.conns id (some received)
  stack : ∃ frames, t.main.stack = frames ++ s.main.stack ∧ ∀ frame ∈ frames, frame.conn = id
  settled : Settled s.main.stack ∧ Settled t.main.stack
  waits : waitings id t.main.stack = waitings id s.main.stack
  framed : Framed t.main.stack
  nextConn : t.nextConn = s.nextConn
  alive : t.failed = none

theorem within_self {s : TCPServer pool} {id : Nat} {conn : ServerConn pool}
    (has : s.conns id = some conn) (settled : Settled s.main.stack) (framed : Framed s.main.stack)
    (alive : s.failed = none) : s.Within s id conn where
  conns := by
    rw [← has, Function.update_eq_self]
  stack := ⟨[], rfl, fun _ isFrame => absurd isFrame List.not_mem_nil⟩
  settled := ⟨settled, settled⟩
  waits := rfl
  framed := framed
  nextConn := rfl
  alive := alive

theorem main_setStack (s : TCPServer pool) (stack : List ServerFrame) :
    (s.setStack s.mainLoop stack).main.stack = stack := by
  rw [setStack, main_setLoop]

theorem main_enter (s : TCPServer pool) (frames : List ServerFrame) :
    (s.enter s.mainLoop frames).main.stack = frames ++ s.main.stack := by
  rw [enter, main_setStack]
  rfl

/-- A function that has nothing to do behind what it calls is entered. -/
theorem Within.enter {s t : TCPServer pool} {id : Nat} {received : ServerConn pool}
    (within : s.Within t id received) {frame : ServerFrame} (mine : frame.conn = id)
    (quiet : ∀ conn, frame.settle conn = conn) (notUser : frame.isUser = false)
    (fits : frame.FitsOn t.main.stack) : s.Within (t.enter t.mainLoop [frame]) id received := by
  obtain ⟨frames, stack, allMine⟩ := within.stack
  have entered := t.main_enter [frame]
  refine ⟨within.conns, ⟨frame :: frames, ?_, ?_⟩, ⟨within.settled.1, ?_⟩, ?_, ?_,
    within.nextConn, within.alive⟩
  · rw [entered, stack]
    rfl
  · intro other isFrame
    rcases List.mem_cons.mp isFrame with rfl | before
    · exact mine
    · exact allMine other before
  · rw [entered]
    exact within.settled.2.cons quiet
  · rw [entered, ← within.waits]
    exact waitings_cons notUser id _
  · rw [entered]
    exact ⟨fits, within.framed⟩

/-- A step of a function of one connection. -/
theorem Within.follows {s t next : TCPServer pool} {id : Nat} {conn received last : ServerConn pool}
    (within : s.Within t id received) (event : BacklogEvent) (has : s.conns id = some conn)
    (conns : next.conns = Function.update s.conns id (some last)) {frames : List ServerFrame}
    (stack : next.main.stack = frames ++ t.main.stack) (mine : ∀ frame ∈ frames, frame.conn = id)
    (framed : Framed (frames ++ t.main.stack)) (nextConn : next.nextConn = t.nextConn)
    (alive : next.failed = none)
    (stepped : (s.backlog id conn).step event = some (next.backlog id last)) :
    s.Follows next (only id event) := by
  obtain ⟨before, isBefore, allMine⟩ := within.stack
  apply Follows.of_conns alive
  · rw [stack]
    exact framed
  · rw [nextConn, within.nextConn]
  · exact lives_only has event
  · intro other after isAfter
    rw [conns] at isAfter
    rcases Table.of_update_some isAfter with ⟨rfl, rfl⟩ | ⟨same, had⟩
    · exact .inr ⟨conn, has, .inr ⟨event, only_self other event, stepped⟩⟩
    · refine .inr ⟨after, had, .inl ⟨only_of_ne same event, ?_⟩⟩
      have frameless : next.main.stack = (frames ++ before) ++ s.main.stack := by
        rw [stack, isBefore, List.append_assoc]
      have all : ∀ frame ∈ frames ++ before, frame.conn = id := by
        intro frame isFrame
        rcases List.mem_append.mp isFrame with now | earlier
        · exact mine frame now
        · exact allMine frame earlier
      rw [backlog, backlog, ServerConn.alone, ServerConn.alone, frameless,
        unwind_append_of_ne all same within.settled.1, waitings_append_of_ne all same,
        within.settled.1 other]

/-- A function of a connection throws. -/
theorem Within.throws {s t : TCPServer pool} {id : Nat} {conn : ServerConn pool}
    (has : s.conns id = some conn) {assertion : Assertion} {event : BacklogEvent}
    {last : BacklogRun} (stepped : (s.backlog id conn).step event = some last)
    (threw : last.failed = some assertion) :
    s.Follows (t.fail (.conn assertion)) (only id event) where
  framed := nofun
  grows := nofun
  lives := lives_only has event
  goes := nofun
  throws := by
    rintro other ⟨⟩
    exact ⟨id, _, by rw [backlogs, has]; rfl, event, last, only_self id event, stepped, threw⟩

/-! ## The functions of the connections -/

variable {s t : TCPServer pool} {id : Nat} {conn received : ServerConn pool}
  {event : BacklogEvent}

theorem Within.setConn (within : s.Within t id received) (last : ServerConn pool) :
    s.Within (t.setConn id last) id last where
  conns := by
    change Function.update t.conns id (some last) = _
    rw [within.conns, Function.update_idem]
  stack := within.stack
  settled := within.settled
  waits := within.waits
  framed := within.framed
  nextConn := within.nextConn
  alive := within.alive

/-- Nothing is left to do in the connection: it is seen as it is. -/
theorem Within.view (within : s.Within t id received) :
    t.backlog id received =
      { conn := received.conn.untriggered
        userCb := received.userCb
        waiting := waitings id s.main.stack } := by
  rw [backlog, received.alone_settled within.settled.2, within.waits]

/-- Functions of the connection are entered that are not left in the same step. -/
theorem Within.enters (within : s.Within t id received) (event : BacklogEvent)
    (has : s.conns id = some conn) {frames : List ServerFrame}
    (mine : ∀ frame ∈ frames, frame.conn = id) (framed : Framed (frames ++ t.main.stack))
    (stepped : (s.backlog id conn).step event =
      some (received.alone id (frames ++ t.main.stack))) :
    s.Follows (t.enter t.mainLoop frames) (only id event) := by
  have stack := main_enter t frames
  refine within.follows event has within.conns stack mine framed rfl within.alive ?_
  rw [stepped, backlog, stack]

/-- The user is called, and nothing waits behind the callback. -/
theorem Within.calls (within : s.Within t id received) (event : BacklogEvent)
    (has : s.conns id = some conn) {cb : UserCb} (quiet : ∀ conn, cb.behind conn = conn)
    (stepped : (s.backlog id conn).step event = some
      { t.backlog id received with waiting := cb.waiting.toList ++ waitings id s.main.stack }) :
    s.Follows (t.enter t.mainLoop [.user cb id]) (only id event) := by
  refine within.enters event has ?_ ?_ ?_
  · simp [ServerFrame.conn]
  · exact ⟨within.settled.2.fitsOn quiet id, within.framed⟩
  · rw [stepped, within.view, List.singleton_append, received.alone_user, within.waits]

/-- The user is called by a function that goes on behind the callback. -/
theorem Within.callsIn (within : s.Within t id received) (event : BacklogEvent)
    (has : s.conns id = some conn) {cb : UserCb} {frame : ServerFrame} (mine : frame.conn = id)
    (notUser : frame.isUser = false) (effect : ∀ conn, frame.settle conn = cb.behind conn)
    (fits : frame.FitsOn t.main.stack)
    (stepped : (s.backlog id conn).step event = some
      { t.backlog id received with waiting := cb.waiting.toList ++ waitings id s.main.stack }) :
    s.Follows (t.enter t.mainLoop [.user cb id, frame]) (only id event) := by
  subst mine
  refine within.enters event has ?_ ?_ ?_
  · simp [ServerFrame.conn]
  · exact ⟨fitsOn_user within.settled.2 notUser effect, fits, within.framed⟩
  · rw [stepped, within.view, List.cons_append, received.alone_user, List.singleton_append,
      waitings_cons notUser, within.waits]

/-- A function goes on that has not called the user. -/
theorem Within.goesOn (within : s.Within t id received) (event : BacklogEvent)
    (has : s.conns id = some conn) {frame : ServerFrame} (mine : frame.conn = id)
    (notUser : frame.isUser = false) (fits : frame.FitsOn t.main.stack)
    (stepped : (s.backlog id conn).step event = some
      { t.backlog id received with conn := (frame.settle received.conn).untriggered }) :
    s.Follows (t.enter t.mainLoop [frame]) (only id event) := by
  subst mine
  refine within.enters event has ?_ ⟨fits, within.framed⟩ ?_
  · simp
  · rw [stepped, within.view, List.singleton_append, received.alone_cons frame notUser,
      ServerConn.alone_settled _ within.settled.2, within.waits]

/-- A function of the connection has returned, and changed nothing more. -/
theorem Within.returned (within : s.Within t id received) (has : s.conns id = some conn)
    (stepped : (s.backlog id conn).step event = some (t.backlog id received)) :
    s.Follows t (only id event) :=
  within.follows event has within.conns rfl (fun _ isFrame => absurd isFrame List.not_mem_nil)
    within.framed rfl within.alive stepped

theorem Within.finish (within : s.Within t id received) (has : s.conns id = some conn)
    {result : Except Assertion TCPConnection}
    (stepped : (s.backlog id conn).step event =
      some ((t.backlog id received).finish (result.map TCPConnection.untriggered))) :
    s.Follows (t.finish id received result) (only id event) := by
  cases result with
  | ok after =>
      have changed := within.setConn { received with conn := after }
      apply changed.returned has
      rw [stepped, backlog, backlog, ServerConn.alone_settled _ within.settled.2,
        ServerConn.alone_settled _ changed.settled.2]
      rfl
  | error assertion => exact Within.throws has stepped rfl

/-- `full_close`, in whatever function it is called -/
theorem Within.fullClose (within : s.Within t id received) (has : s.conns id = some conn)
    (stepped : (s.backlog id conn).step event = some (t.backlog id received).fullClose) :
    s.Follows (t.fullClose t.mainLoop id received) (only id event) := by
  rw [within.view, BacklogRun.fullClose] at stepped
  rw [TCPServer.fullClose]
  by_cases opened : received.conn.state ≠ .fullClose
  · rw [if_pos opened]
    rw [if_pos (show received.conn.untriggered.state ≠ .fullClose from opened)] at stepped
    by_cases called : received.userCb.closeCb = true
    · rw [if_pos called]
      rw [if_pos called] at stepped
      refine (within.setConn _).callsIn event has rfl rfl (fun _ => rfl) trivial ?_
      rw [stepped, (within.setConn _).view]
      rfl
    · rw [if_neg called]
      rw [if_neg called] at stepped
      refine (within.setConn _).goesOn event has rfl rfl trivial ?_
      rw [stepped, (within.setConn _).view]
      rfl
  · rw [if_neg opened]
    rw [if_neg (show ¬ received.conn.untriggered.state ≠ .fullClose from opened)] at stepped
    exact Within.throws has stepped rfl

/-- A connection that the loop has come to, and that has called nothing. -/
theorem atHandler {rest : List ServerFrame} (stack : s.main.stack = .handleEvent id :: rest)
    (framed : Framed s.main.stack) : Settled s.main.stack ∧ waitings id s.main.stack = [] := by
  rw [stack] at framed ⊢
  obtain ⟨rfl, -⟩ := framed
  exact ⟨settled_nil.cons fun _ => rfl, by simp [ServerFrame.waiting, waitings]⟩

theorem follows_handleRead {rest : List ServerFrame}
    (stack : s.main.stack = .handleEvent id :: rest) (framed : Framed s.main.stack)
    (alive : s.failed = none) (has : s.conns id = some conn) {read : ReadResult}
    (fits : read.bytes.length ≤ conn.conn.readBuf.offeredRoom) :
    s.Follows (s.handleRead s.mainLoop id conn read) (only id (.read read)) := by
  obtain ⟨settled, silent⟩ := atHandler stack framed
  obtain ⟨received, isReceived⟩ : ∃ received : ServerConn pool, received = { conn with
      conn := { conn.conn with readBuf := (conn.conn.readBuf.pushFrom read).2 } } := ⟨_, rfl⟩
  have reading : s.Within ((s.setConn id received).enter s.mainLoop [.handleRead id]) id received :=
    ((within_self has settled framed alive).setConn received).enter rfl (fun _ => rfl) rfl trivial
  have stepped : (s.backlog id conn).step (.read read) = some (BacklogRun.handleRead
      { conn := conn.conn.untriggered, userCb := conn.userCb } read) := by
    rw [backlog, conn.alone_settled settled, silent]
    exact if_pos ⟨rfl, rfl, fits⟩
  have view : ((s.setConn id received).enter s.mainLoop [.handleRead id]).backlog id received =
      { conn := { conn.conn.untriggered with readBuf := (conn.conn.readBuf.pushFrom read).2 }
        userCb := conn.userCb } := by
    rw [reading.view, silent, isReceived]
    rfl
  simp only [TCPServer.handleRead, ← isReceived]
  cases read with
  | error errno =>
      cases errno with
      | again => exact reading.returned has (by rw [view]; exact stepped)
      | intr => exact reading.returned has (by rw [view]; exact stepped)
      | other => exact reading.fullClose has (by rw [view]; exact stepped)
  | data bytes =>
      cases bytes with
      | nil => exact reading.fullClose has (by rw [view]; exact stepped)
      | cons byte bytes =>
          simp only [BacklogRun.handleRead] at stepped
          by_cases called : conn.userCb.messageCb = true
          · rw [if_pos called] at stepped
            simp only [called, if_true]
            apply reading.calls (.read (.data (byte :: bytes))) has (fun _ => rfl)
            rw [stepped, view, silent]
            rfl
          · rw [if_neg called] at stepped
            simp only [called]
            apply reading.finish has
            rw [stepped, view, TCPConnection.handleRead, TCPConnection.untriggered_readBuf]
            cases (conn.conn.readBuf.pushFrom (.data (byte :: bytes))).2.pop with
            | ok readBuf => rfl
            | error fault => rfl

/-- `handle_write` behind the write that left nothing -/
theorem Within.lowers (within : s.Within t id received) (event : BacklogEvent)
    (has : s.conns id = some conn)
    (stepped : (s.backlog id conn).step event = some
      (if received.userCb.writeLower = true then
        { t.backlog id received with waiting := .writeLower :: waitings id s.main.stack }
       else
        { t.backlog id received with conn := BacklogRun.lowered received.conn.untriggered })) :
    s.Follows (t.enter t.mainLoop
      (if received.userCb.writeLower then [.user .writeLower id, .handleWrite id true]
       else [.handleWrite id true])) (only id event) := by
  by_cases called : received.userCb.writeLower = true
  · rw [if_pos called]
    rw [if_pos called] at stepped
    exact within.callsIn event has rfl rfl (fun _ => rfl) trivial stepped
  · rw [if_neg called]
    rw [if_neg called] at stepped
    refine within.goesOn event has rfl rfl trivial ?_
    rw [stepped, ServerFrame.untriggered_settle]
    rfl

theorem follows_handleWrite {rest : List ServerFrame}
    (stack : s.main.stack = .handleEvent id :: rest) (framed : Framed s.main.stack)
    (alive : s.failed = none) (has : s.conns id = some conn) {write : WriteResult}
    (fits : write.accepted ≤ conn.conn.writeBuf.getSize) :
    s.Follows (s.handleWrite s.mainLoop id conn write) (only id (.write write)) := by
  obtain ⟨settled, silent⟩ := atHandler stack framed
  obtain ⟨sent, isSent⟩ : ∃ sent : ServerConn pool, sent = { conn with
      conn := { conn.conn with writeBuf := (conn.conn.writeBuf.popTo write).2 } } := ⟨_, rfl⟩
  have before := within_self has settled framed alive
  have writing : s.Within ((s.setConn id sent).enter s.mainLoop [.handleWrite id false]) id sent :=
    (before.setConn sent).enter rfl (fun _ => rfl) rfl trivial
  have stepped : (s.backlog id conn).step (.write write) = some (BacklogRun.handleWrite
      { conn := conn.conn.untriggered, userCb := conn.userCb } write) := by
    rw [backlog, conn.alone_settled settled, silent]
    exact if_pos ⟨rfl, rfl, fits⟩
  have sentConn : sent.conn.untriggered = { conn.conn.untriggered with
      writeBuf := (conn.conn.writeBuf.popTo write).2 } := by
    rw [isSent]
    rfl
  have sentCb : sent.userCb = conn.userCb := by
    rw [isSent]
  have view : ((s.setConn id sent).enter s.mainLoop [.handleWrite id false]).backlog id sent =
      { conn := sent.conn.untriggered, userCb := conn.userCb } := by
    rw [writing.view, silent, sentCb]
  rw [BacklogRun.handleWrite] at stepped
  simp only [TCPConnection.untriggered_writeBuf, ← sentConn] at stepped
  simp only [TCPServer.handleWrite, ← isSent]
  by_cases pending : 0 < conn.conn.writeBuf.getSize
  · rw [if_pos pending]
    rw [if_pos pending] at stepped
    cases write with
    | error errno =>
        cases errno with
        | again => exact writing.returned has (by rw [view]; exact stepped)
        | intr => exact writing.returned has (by rw [view]; exact stepped)
        | other => exact writing.fullClose has (by rw [view]; exact stepped)
    | wrote count =>
        cases count with
        | zero => exact writing.returned has (by rw [view]; exact stepped)
        | succ count =>
            simp only at stepped ⊢
            by_cases emptied : (conn.conn.writeBuf.popTo (.wrote (count + 1))).2.getSize = 0
            · obtain ⟨last, isLast⟩ : ∃ last : ServerConn pool, last = { conn with
                  conn := TCPConnection.disableWrite { conn.conn with
                    writeBuf := (conn.conn.writeBuf.popTo (.wrote (count + 1))).2 } } := ⟨_, rfl⟩
              have lowering := before.setConn last
              have lastConn : sent.conn.untriggered.disableWrite = last.conn.untriggered := by
                rw [sentConn, isLast]
                rfl
              have lastCb : conn.userCb = last.userCb := by
                rw [isLast]
              rw [if_pos emptied, ← isLast]
              rw [if_pos emptied, lastConn, lastCb] at stepped
              rw [lastCb]
              apply lowering.lowers (.write (.wrote (count + 1))) has
              rw [stepped, lowering.view, silent]
            · rw [if_neg emptied]
              rw [if_neg emptied] at stepped
              split
              · next high =>
                  rw [if_pos high] at stepped
                  apply writing.calls (.write (.wrote (count + 1))) has (fun _ => rfl)
                  rw [stepped, view, silent]
                  rfl
              · next low =>
                  rw [if_neg low] at stepped
                  exact writing.returned has (by rw [view]; exact stepped)
  · rw [if_neg pending]
    rw [if_neg pending] at stepped
    exact Within.throws has stepped rfl

theorem follows_userCall (settled : Settled s.main.stack) (framed : Framed s.main.stack)
    (alive : s.failed = none) (has : s.conns id = some conn) (call : UserCall) :
    s.Follows (s.userCall s.mainLoop id conn call) (only id (.call call)) := by
  have within := within_self has settled framed alive
  have view : s.backlog id conn = _ := conn.alone_settled settled id
  have stepped : (s.backlog id conn).step (.call call) = some ((s.backlog id conn).call call) := by
    simp only [BacklogRun.step, view, if_true]
  have returns (run : BacklogRun.call (s.backlog id conn) call =
      (s.backlog id conn).finish ((s.backlog id conn).conn.call call)) :
      s.Follows (s.finish id conn (conn.conn.call call)) (only id (.call call)) := by
    apply within.finish has
    rw [stepped, run, ← TCPConnection.untriggered_call, view]
  cases call with
  | sendData msg =>
      rw [TCPServer.userCall]
      by_cases full : conn.conn.state = .connecting ∧
          maxWriteBufSize ≤ conn.conn.writeBuf.getSize + msg.length
      · rw [if_pos full]
        apply within.fullClose has
        rw [stepped, BacklogRun.call, view]
        exact congrArg some (if_pos full)
      · rw [if_neg full]
        apply returns
        rw [BacklogRun.call, view]
        exact if_neg full
  | popData => exact returns rfl
  | popDataLen len => exact returns rfl
  | halfClose => exact returns rfl
  | fullClose => exact within.fullClose has stepped

/-! ## The steps -/

/-- A function of the server returns, and does what it had left to do. -/
theorem Follows.left {next : TCPServer pool} {frame : ServerFrame} {rest : List ServerFrame}
    (framed : Framed s.main.stack) (stack : s.main.stack = frame :: rest)
    (notUser : frame.isUser = false) (has : s.conns frame.conn = some conn)
    {after : ServerConn pool} (conns : next.conns = Function.update s.conns frame.conn (some after))
    (nextStack : next.main.stack = rest) (nextConn : next.nextConn = s.nextConn)
    (alive : next.failed = none)
    (settles : after.conn.untriggered = (frame.settle conn.conn).untriggered)
    (sameCb : after.userCb = conn.userCb) : s.Follows next nothing := by
  rw [stack] at framed
  apply Follows.of_conns alive
  · rw [nextStack]
    exact framed.2
  · rw [nextConn]
  · exact fun _ did => absurd rfl did
  · intro id now isNow
    rw [conns] at isNow
    rcases Table.of_update_some isNow with ⟨rfl, rfl⟩ | ⟨same, had⟩
    · refine .inr ⟨conn, has, .inl ⟨rfl, ?_⟩⟩
      rw [backlog, backlog, stack, nextStack, conn.alone_cons frame notUser, ServerConn.alone,
        ServerConn.alone, untriggered_unwind, untriggered_unwind, settles, sameCb]
    · refine .inr ⟨now, had, .inl ⟨rfl, ?_⟩⟩
      rw [backlog, backlog, stack, nextStack, ServerConn.alone, ServerConn.alone,
        unwind_cons notUser, waitings_cons notUser, if_neg same]

/-- A callback of the user returns to the function that waits for it. -/
theorem Follows.userLeft {cb : UserCb} {rest : List ServerFrame} {conn : ServerConn pool}
    (framed : Framed s.main.stack) (alive : s.failed = none)
    (stack : s.main.stack = .user cb id :: rest) (has : s.conns id = some conn) :
    s.Follows (s.setStack s.mainLoop rest)
      (if cb.waiting = none then nothing else only id .returned) := by
  rw [stack] at framed
  obtain ⟨fits, framed⟩ := framed
  have nextStack := s.main_setStack rest
  apply Follows.of_conns (show (s.setStack s.mainLoop rest).failed = none from alive)
  · rw [nextStack]
    exact framed
  · exact Nat.le_refl _
  · split
    · exact fun _ did => absurd rfl did
    · exact lives_only has _
  · intro other now isNow
    refine .inr ⟨now, isNow, ?_⟩
    have before : s.backlog other now = now.alone other (.user cb id :: rest) := by
      rw [backlog, stack]
    have behind : (s.setStack s.mainLoop rest).backlog other now =
        { conn := (if other = id then cb.behind now.conn else now.conn).untriggered
          userCb := now.userCb
          waiting := waitings other rest } := by
      rw [backlog, nextStack, ServerConn.alone, fits]
    by_cases same : other = id
    · subst same
      rw [before, behind, if_pos rfl, now.alone_user]
      cases cb with
      | openCb => exact .inl ⟨rfl, rfl⟩
      | messageCb => exact .inr ⟨.returned, only_self other _, rfl⟩
      | writeHigh => exact .inr ⟨.returned, only_self other _, rfl⟩
      | closeCb => exact .inr ⟨.returned, only_self other _, rfl⟩
      | writeLower =>
          refine .inr ⟨.returned, only_self other _, ?_⟩
          rw [UserCb.behind, TCPConnection.untriggered_lowered]
          rfl
    · refine .inl ⟨?_, ?_⟩
      · split
        · rfl
        · exact only_of_ne same _
      · rw [before, behind, if_neg same, ServerConn.alone]
        have mine : ∀ frame ∈ [ServerFrame.user cb id], frame.conn = id := by
          simp [ServerFrame.conn]
        rw [← waitings_append_of_ne mine same rest]
        rfl

theorem main_setTurn (s : TCPServer pool) (turned : CallbackLoop ServerReport ServerCallback) :
    (s.setTurn s.mainLoop turned).main.stack = s.main.stack := by
  rw [setTurn, main_setLoop]
  rfl

theorem Inv.follows_leave {next : TCPServer pool} (inv : s.Inv []) (framed : Framed s.main.stack)
    (alive : s.failed = none) {thread : Fin pool.nThread} (left : s.leave thread = some next) :
    s.Follows next (s.connEvents ⟨thread, .leave⟩) := by
  rw [TCPServer.leave] at left
  split at left
  · next id rest stack =>
      simp only [connEvents, stack]
      obtain ⟨rfl, conn, has⟩ := inv.frameConn stack
      rw [withConn_has (show (s.setStack s.mainLoop rest).conns id = some conn from has)] at left
      cases left
      rw [inv.stored (show s.conns id = some conn from has) stack]
      refine Follows.left framed stack rfl has ?_ (main_setStack s rest) rfl alive rfl rfl
      exact (Function.update_eq_self_iff.mpr has.symm).symm
  · next id rest stack =>
      simp only [connEvents, stack]
      obtain ⟨rfl, conn, has⟩ := inv.frameConn stack
      rw [withConn_has (show (s.setStack s.mainLoop rest).conns id = some conn from has)] at left
      obtain ⟨-, rfl⟩ := of_guarded left
      refine Follows.left framed stack rfl has ?_ (main_setStack s rest) rfl alive rfl rfl
      exact (Function.update_eq_self_iff.mpr has.symm).symm
  · next id rest stack =>
      simp only [connEvents, stack]
      obtain ⟨rfl, conn, has⟩ := inv.frameConn stack
      rw [withConn_has (show (s.setStack s.mainLoop rest).conns id = some conn from has)] at left
      cases left
      exact Follows.left framed stack rfl has rfl (main_setStack s rest) rfl alive rfl rfl
  · next id lower rest stack =>
      simp only [connEvents, stack]
      obtain ⟨rfl, conn, has⟩ := inv.frameConn stack
      rw [withConn_has (show (s.setStack s.mainLoop rest).conns id = some conn from has)] at left
      cases left
      refine Follows.left framed stack rfl has rfl (main_setStack s rest) rfl alive ?_ ?_
      · cases lower with
        | false => rfl
        | true =>
            simp only [true_and, ServerFrame.settle, BacklogRun.lowered]
            split
            · rfl
            · rfl
      · split
        · rfl
        · rfl
  · next id rest stack =>
      simp only [connEvents, stack]
      obtain ⟨rfl, conn, has⟩ := inv.frameConn stack
      rw [withConn_has (show (s.setStack s.mainLoop rest).conns id = some conn from has)] at left
      cases left
      have onMain : conn.loop = s.mainLoop := inv.onMain id conn has
      rw [onMain]
      refine Follows.left framed stack rfl has rfl ?_ rfl alive rfl rfl
      exact (main_setTurn _ _).trans (main_setStack s rest)
  · next cb id rest stack =>
      simp only [connEvents, stack]
      obtain ⟨rfl, conn, has⟩ := inv.frameConn stack
      cases left
      exact Follows.userLeft framed alive stack has
  · cases left

/-- A connection is made while the thread is in no function. -/
theorem Follows.made (stack : s.main.stack = []) (alive : s.failed = none)
    {frames : List ServerFrame} (framed : Framed frames)
    (mine : ∀ frame ∈ frames, frame.conn = s.nextConn)
    (begins : conn.alone s.nextConn frames = .start conn.userCb) :
    s.Follows ((s.withNew conn).enter s.mainLoop frames) nothing := by
  have nextStack : ((s.withNew conn).enter s.mainLoop frames).main.stack = frames := by
    refine (main_enter (s.withNew conn) frames).trans ?_
    rw [show (s.withNew conn).main.stack = [] from stack, List.append_nil]
  apply Follows.of_conns (show ((s.withNew conn).enter s.mainLoop frames).failed = none from alive)
  · rw [nextStack]
    exact framed
  · exact Nat.le_succ _
  · exact fun _ did => absurd rfl did
  · intro other now isNow
    rcases Table.of_update_some isNow with ⟨rfl, rfl⟩ | ⟨same, before⟩
    · refine .inl ⟨?_, Nat.le_refl _, rfl⟩
      rw [backlog, nextStack]
      exact ⟨_, begins⟩
    · refine .inr ⟨now, before, .inl ⟨rfl, ?_⟩⟩
      have alone := unwind_append_of_ne mine same settled_nil now.conn
      have silent := waitings_append_of_ne mine same []
      rw [List.append_nil] at alone silent
      rw [backlog, backlog, nextStack, stack, ServerConn.alone, ServerConn.alone, alone, silent]
      rfl

theorem follows_createConnCb (stack : s.main.stack = []) (alive : s.failed = none) (fd : Nat) :
    s.Follows (s.createConnCb s.mainLoop fd) nothing := by
  have framed : Framed s.main.stack := by
    rw [stack]
    trivial
  rw [createConnCb]
  split
  · refine Follows.of_same framed rfl rfl rfl fun assertion threw => ?_
    cases threw
  · split
    · exact Follows.of_same framed rfl rfl rfl (not_threw alive)
    · split
      · refine Follows.made stack alive ⟨?_, trivial, trivial⟩ (by simp [ServerFrame.conn]) ?_
        · exact settled_nil.cons (fun _ => rfl) |>.fitsOn (fun _ => rfl) _
        · rw [ServerConn.alone_user, waitings_cons rfl]
          rfl
      · refine Follows.made stack alive ⟨trivial, trivial⟩ (by simp [ServerFrame.conn]) ?_
        refine (ServerConn.alone_cons _ (.constructor s.nextConn) rfl _).trans ?_
        rfl

theorem stack_setTurn (s : TCPServer pool) (thread : Fin pool.nThread)
    (turned : CallbackLoop ServerReport ServerCallback) :
    (s.setTurn thread turned).main.stack = s.main.stack := by
  by_cases isMain : s.mainLoop = thread
  · subst isMain
    exact main_setTurn s turned
  · exact congrArg ServerLoop.stack (Function.update_of_ne isMain _ _)

/-- A step of `run` does nothing to the connections. -/
theorem turn_same {next : TCPServer pool} {thread : Fin pool.nThread}
    {turn : Turn ServerReport ServerCallback} (taken : s.turn thread turn = some next) :
    next.conns = s.conns ∧ next.main.stack = s.main.stack ∧ next.nextConn = s.nextConn ∧
      next.failed = s.failed ∧ next.mainLoop = s.mainLoop := by
  obtain ⟨-, turned, -, rfl⟩ := turn_eq_some taken
  exact ⟨rfl, s.stack_setTurn thread turned, rfl, rfl, rfl⟩

theorem Follows.turn {next : TCPServer pool} {thread : Fin pool.nThread}
    {turn : Turn ServerReport ServerCallback} (framed : Framed s.main.stack)
    (alive : s.failed = none) (taken : s.turn thread turn = some next) :
    s.Follows next nothing := by
  obtain ⟨conns, stack, nextConn, failed, -⟩ := turn_same taken
  exact Follows.of_same framed conns stack nextConn (not_threw (failed.trans alive))

theorem follows_createConn (stack : s.main.stack = []) (alive : s.failed = none) (fd : Nat) :
    s.Follows (s.createConn s.mainLoop fd) nothing := by
  rw [createConn, addCallback]
  split
  · exact follows_createConnCb stack alive fd
  · refine Follows.of_same ?_ rfl (main_setTurn s _) rfl (not_threw alive)
    rw [stack]
    trivial

theorem follows_acceptorHandleRead {next : TCPServer pool} (stack : s.main.stack = [])
    (alive : s.failed = none) {accepted : Option Nat}
    (handled : s.acceptorHandleRead s.mainLoop accepted = some next) :
    s.Follows next nothing := by
  cases accepted with
  | none =>
      cases handled
      refine Follows.of_same ?_ rfl rfl rfl fun assertion threw => ?_
      · rw [stack]
        trivial
      · cases threw
  | some fd =>
      obtain ⟨-, rfl⟩ := of_guarded handled
      have opened : main { s with isOpen := Function.update s.isOpen fd true } = s.main := rfl
      rw [← opened] at stack
      refine Follows.behind ?_ ?_ ?_ (follows_createConn stack alive fd)
      · rfl
      · rfl
      · rfl

/-- The loop comes to a connection that was reported. -/
theorem follows_handleEvent (stack : s.main.stack = []) (alive : s.failed = none)
    (has : s.conns id = some conn) (reported : EventType → Bool) :
    s.Follows ((s.setConn id { conn with conn := conn.conn.trigger reported }).enter s.mainLoop
      [.handleEvent id]) nothing := by
  have nextStack : ((s.setConn id { conn with conn := conn.conn.trigger reported }).enter
      s.mainLoop [.handleEvent id]).main.stack = [.handleEvent id] := by
    refine (main_enter (s.setConn id _) [.handleEvent id]).trans ?_
    rw [show (s.setConn id _).main.stack = [] from stack, List.append_nil]
  refine Follows.of_conns ?_ ?_ ?_ ?_ ?_
  · exact alive
  · rw [nextStack]
    exact ⟨rfl, trivial⟩
  · exact Nat.le_refl _
  · exact fun _ did => absurd rfl did
  · intro other now isNow
    rcases Table.of_update_some isNow with ⟨rfl, rfl⟩ | ⟨same, before⟩
    · refine .inr ⟨conn, has, .inl ⟨rfl, ?_⟩⟩
      rw [backlog, backlog, nextStack, stack]
      exact ServerConn.alone_cons _ (.handleEvent other) rfl []
    · refine .inr ⟨now, before, .inl ⟨rfl, ?_⟩⟩
      rw [backlog, backlog, nextStack, stack, ServerConn.alone, ServerConn.alone,
        unwind_cons rfl, waitings_cons rfl,
        if_neg (show ¬ other = (ServerFrame.handleEvent id).conn from same)]

/-- The callback of `remove_conn` destroys the connection whose removal it is. -/
theorem Inv.follows_removeConnCb {fd owner : Nat} (inv : s.Inv [.removeConnCb fd owner])
    (stack : s.main.stack = []) (alive : s.failed = none) :
    s.Follows (s.removeConnCb fd owner) nothing := by
  rw [inv.removeConnCb_eq stack]
  refine Follows.of_fewer ?_ (fun id conn has => (Table.of_update_none has).2) rfl rfl
    (not_threw alive)
  rw [stack]
  trivial

theorem Inv.follows_removeConn {fd owner : Nat} (inv : s.Inv [.removeConn fd owner])
    (stack : s.main.stack = []) (alive : s.failed = none) :
    s.Follows (s.removeConn s.mainLoop fd owner) nothing := by
  rw [TCPServer.removeConn, addCallback]
  split
  · exact inv.renamed.follows_removeConnCb stack alive
  · refine Follows.of_same ?_ rfl (main_setTurn s _) rfl (not_threw alive)
    rw [stack]
    trivial

theorem Inv.follows_callback {next : TCPServer pool} (inv : s.Inv []) (alive : s.failed = none)
    {thread : Fin pool.nThread} (acted : s.act thread .callback = some next) :
    s.Follows next nothing := by
  simp only [TCPServer.act] at acted
  split at acted
  · next fd rest now =>
      obtain rfl := inv.isMain_of_now now
      obtain ⟨taken, begun, rfl⟩ := Option.map_eq_some_iff.mp acted
      obtain ⟨-, sameMain, stack, -⟩ := inv.callback begun now
      obtain ⟨conns, sameStack, nextConn, failed, -⟩ := turn_same begun
      rw [← sameMain]
      exact (follows_createConnCb stack (failed.trans alive) fd).behind conns sameStack
        nextConn
  · next fd owner rest now =>
      obtain rfl := inv.isMain_of_now now
      obtain ⟨taken, begun, rfl⟩ := Option.map_eq_some_iff.mp acted
      obtain ⟨takenInv, sameMain, stack, -⟩ := inv.callback begun now
      obtain ⟨conns, sameStack, nextConn, failed, -⟩ := turn_same begun
      rw [← sameMain]
      exact (takenInv.follows_removeConn stack (failed.trans alive)).behind conns sameStack
        nextConn
  · next fd owner rest now =>
      obtain rfl := inv.isMain_of_now now
      obtain ⟨taken, begun, rfl⟩ := Option.map_eq_some_iff.mp acted
      obtain ⟨takenInv, -, stack, -⟩ := inv.callback begun now
      obtain ⟨conns, sameStack, nextConn, failed, -⟩ := turn_same begun
      exact (takenInv.follows_removeConnCb stack (failed.trans alive)).behind conns sameStack
        nextConn
  · cases acted

theorem Inv.follows_accept {next : TCPServer pool} (inv : s.Inv []) (alive : s.failed = none)
    {thread : Fin pool.nThread} {accepted : Option Nat}
    (acted : s.act thread (.accept accepted) = some next) : s.Follows next nothing := by
  simp only [TCPServer.act] at acted
  split at acted
  · next rest reports =>
      have isMain : thread = s.mainLoop := inv.isMain fun idle => by
        have none := idle.reports .acceptor (by rw [reports]; exact List.mem_cons_self)
        cases none
      subst isMain
      obtain ⟨taken, turned, handled⟩ := Option.bind_eq_some_iff.mp acted
      obtain ⟨-, sameMain, stack, -⟩ := inv.report turned
      obtain ⟨conns, sameStack, nextConn, failed, -⟩ := turn_same turned
      rw [← sameMain] at handled
      exact (follows_acceptorHandleRead stack (failed.trans alive) handled).behind conns
        sameStack nextConn
  · cases acted

theorem Inv.follows_report {next : TCPServer pool} (inv : s.Inv []) (alive : s.failed = none)
    {thread : Fin pool.nThread} (acted : s.act thread .handleEvent = some next) :
    s.Follows next nothing := by
  simp only [TCPServer.act] at acted
  split at acted
  · next id reported rest reports =>
      have first : .conn id reported ∈ (s.loops thread).phase.reports := by
        rw [reports]
        exact List.mem_cons_self
      have isMain : thread = s.mainLoop := inv.isMain fun idle => by
        cases idle.reports _ first
      subst isMain
      obtain ⟨taken, turned, handled⟩ := Option.bind_eq_some_iff.mp acted
      obtain ⟨-, sameMain, stack, -⟩ := inv.report turned
      obtain ⟨conns, sameStack, nextConn, failed, -⟩ := turn_same turned
      obtain ⟨conn, has⟩ := Option.ne_none_iff_exists'.mp (inv.reported _ first id rfl)
      rw [← conns] at has
      rw [withConn_has has] at handled
      cases handled
      rw [← sameMain]
      exact (follows_handleEvent stack (failed.trans alive) has reported).behind conns sameStack
        nextConn
  · cases acted

theorem Inv.follows_act {next : TCPServer pool} (inv : s.Inv []) (framed : Framed s.main.stack)
    (alive : s.failed = none) {thread : Fin pool.nThread} {action : Action}
    (acted : s.act thread action = some next) :
    s.Follows next (s.connEvents ⟨thread, action⟩) := by
  cases action with
  | stop =>
      cases acted
      exact Follows.of_same framed rfl (stack_setTurn s thread _) rfl (not_threw alive)
  | run => exact Follows.turn framed alive acted
  | test => exact Follows.turn framed alive acted
  | wake reports =>
      simp only [TCPServer.act] at acted
      split at acted
      · exact Follows.turn framed alive acted
      · cases acted
  | activated =>
      simp only [TCPServer.act] at acted
      split at acted
      · exact Follows.turn framed alive acted
      · cases acted
  | accept accepted => exact inv.follows_accept alive acted
  | handleEvent => exact inv.follows_report alive acted
  | read read =>
      simp only [TCPServer.act] at acted
      split at acted
      · next id rest stack =>
          obtain ⟨rfl, conn, has⟩ := inv.frameConn stack
          rw [withConn_has (show s.conns id = some conn from has)] at acted
          obtain ⟨⟨-, fits⟩, rfl⟩ := of_guarded acted
          simp only [connEvents, stack]
          exact follows_handleRead stack framed alive has fits
      · cases acted
  | write write =>
      simp only [TCPServer.act] at acted
      split at acted
      · next id rest stack =>
          obtain ⟨rfl, conn, has⟩ := inv.frameConn stack
          rw [withConn_has (show s.conns id = some conn from has)] at acted
          obtain ⟨⟨-, -, fits⟩, rfl⟩ := of_guarded acted
          simp only [connEvents, stack]
          exact follows_handleWrite stack framed alive has fits
      · cases acted
  | call id call =>
      simp only [TCPServer.act] at acted
      split at acted
      · next cb caller rest conn stack has =>
          obtain ⟨rfl, -⟩ := inv.frameConn stack
          obtain ⟨-, rfl⟩ := of_guarded acted
          have settled : Settled s.main.stack := by
            rw [main, stack]
            exact settled_user cb caller rest
          exact follows_userCall settled framed alive has call
      · cases acted
  | leave => exact inv.follows_leave framed alive acted
  | swap => exact Follows.turn framed alive acted
  | callback => exact inv.follows_callback alive acted
  | callbacksEnd => exact Follows.turn framed alive acted

/-! ## All runs -/

/-- The invariant of all runs; `done` is what the server has done with each connection. -/
structure Sound (s : TCPServer pool) (done : Nat → List BacklogEvent) : Prop where
  inv : s.Inv []
  framed : s.failed = none → Framed s.main.stack
  unborn : s.failed = none → ∀ id, s.nextConn ≤ id → done id = []
  ran : s.failed = none → Ran BacklogRun.step Fresh s.backlogs done
  threw : ∀ assertion, s.failed = some (.conn assertion) →
    ∃ id first last, Fresh first ∧ runFrom BacklogRun.step first (done id) = some last ∧
      last.failed = some assertion

theorem new_sound (pool : EventloopPool) (userCb : UserCallback) :
    (new pool userCb).Sound fun _ => [] where
  inv := new_inv pool userCb
  framed _ := trivial
  unborn _ _ _ := rfl
  ran _ id run isRun := by cases isRun
  threw assertion threw := by cases threw

theorem Sound.step {next : TCPServer pool} {done : Nat → List BacklogEvent} (sound : s.Sound done)
    {event : Event pool} (taken : s.step event = some next) :
    next.Sound fun id => done id ++ (s.connEvents event id).toList := by
  have nextInv := sound.inv.step taken
  rw [TCPServer.step] at taken
  split at taken
  · next alive =>
      have follows := sound.inv.follows_act (sound.framed alive) alive taken
      have ran := sound.ran alive
      have unborn := sound.unborn alive
      refine ⟨nextInv, follows.framed, ?_, fun alive => (follows.goes alive).ran ran unborn, ?_⟩
      · intro goesOn id isNew
        have wasNew : s.nextConn ≤ id := Nat.le_trans (follows.grows goesOn) isNew
        have quiet : s.connEvents event id = none := by
          by_contra did
          exact follows.lives id did (sound.inv.fresh id wasNew)
        simp only [quiet, unborn id wasNew]
        rfl
      · intro assertion threw
        obtain ⟨id, run, isRun, event, last, did, stepped, failed⟩ :=
          follows.throws assertion threw
        obtain ⟨first, isFirst, before⟩ := ran id run isRun
        refine ⟨id, first, last, isFirst, ?_, failed⟩
        simp only [did]
        exact runFrom_concat before stepped
  · cases taken

end TCPServer

/-- A server, with what it has done with each of its connections, destroyed ones too. -/
structure ConnsRun (pool : EventloopPool) where
  server : TCPServer pool
  done : Nat → List BacklogEvent := fun _ => []

namespace ConnsRun

open TCPServer

def new (pool : EventloopPool) (userCb : UserCallback) : ConnsRun pool where
  server := .new pool userCb

def step (s : ConnsRun pool) (event : TCPServer.Event pool) : Option (ConnsRun pool) :=
  (s.server.step event).map fun next => {
    server := next
    done := fun id => s.done id ++ (s.server.connEvents event id).toList }

/--
Each connection of the server is at the end of a run of one connection with what the server has
done with it, and an assertion that ended the program has failed in such a run.
-/
structure ConnRuns (s : ConnsRun pool) : Prop where
  ran : s.server.failed = none → ∀ id, ∀ conn ∈ s.server.conns id,
    ∃ userCb, runFrom BacklogRun.step (.start userCb) (s.done id) = some (s.server.backlog id conn)
  threw : ∀ assertion, s.server.failed = some (.conn assertion) →
    ∃ id userCb last, runFrom BacklogRun.step (.start userCb) (s.done id) = some last ∧
      last.failed = some assertion

theorem connRuns_of_sound {s : ConnsRun pool} (sound : s.server.Sound s.done) : s.ConnRuns where
  ran alive id conn has := by
    obtain ⟨first, ⟨userCb, rfl⟩, run⟩ :=
      sound.ran alive id (s.server.backlog id conn) (by rw [backlogs, has]; rfl)
    exact ⟨userCb, run⟩
  threw assertion threw := by
    obtain ⟨id, first, last, ⟨userCb, rfl⟩, run, failed⟩ := sound.threw assertion threw
    exact ⟨id, userCb, last, run, failed⟩

/-- The connections of a server are connections, whatever they do to each other. -/
theorem allConnRuns (pool : EventloopPool) (userCb : UserCallback)
    (events : List (TCPServer.Event pool)) :
    AllStates step ConnRuns (new pool userCb) events := by
  refine allStates_of_invariant (fun s => s.server.Sound s.done) ?_
    (fun _ sound => connRuns_of_sound sound) events (new_sound pool userCb)
  intro s event next sound taken
  obtain ⟨server, stepped, rfl⟩ := Option.map_eq_some_iff.mp taken
  exact sound.step stepped

end ConnsRun

end SimpleWebServer.Tcp
