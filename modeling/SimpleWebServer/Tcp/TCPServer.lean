import Mathlib.Data.List.AList
import SimpleWebServer.Reactor.CallbackLoop
import SimpleWebServer.Tcp.CloseProtocol

/-!
# The TCP server

`TCPServer` accepts connections on one loop of its pool and keeps them in `conn_map`.  A
connection that closes adds its removal to the callbacks of its loop; the removal runs
behind the batch in which the connection closed, and destroys it.  The handlers, the user's
callbacks and the functions that wait for them are frames on the stack of the loop's thread.
Connection objects are numbered in the order in which they are made, and never again.
-/

namespace SimpleWebServer.Tcp

open SimpleWebServer.Base SimpleWebServer.Reactor

/-- `EventloopPool`, whose constructor stands behind `assertm(n_thread >= 1)` -/
structure EventloopPool where
  nThread : Nat
  nextI : Nat := 0
  nThread_pos : 0 < nThread

namespace EventloopPool

/-- `getLoop`, which leaves `next_i` as it is -/
def getLoop (pool : EventloopPool) : Fin pool.nThread :=
  ⟨(pool.nextI + 1) % pool.nThread, Nat.mod_lt _ pool.nThread_pos⟩

end EventloopPool

/-- Which of the user's callbacks are set. -/
structure UserCallback where
  openCb : Bool
  closeCb : Bool
  messageCb : Bool
  writeHigh : Bool
  writeLower : Bool
  deriving DecidableEq, Repr

/-- The members of `UserCallback`. -/
inductive UserCb where
  | openCb
  | closeCb
  | messageCb
  | writeHigh
  | writeLower
  deriving DecidableEq, Repr

/-- A function of a connection that a thread has not left; they take the connection's number. -/
inductive ServerFrame where
  /-- the constructor, behind the call of `open_cb` -/
  | constructor (conn : Nat)
  /-- `handle_event` of the connection's channel -/
  | handleEvent (conn : Nat)
  | handleRead (conn : Nat)
  /-- `handle_write`; `lower` in the branch that has emptied `write_buf` -/
  | handleWrite (conn : Nat) (lower : Bool)
  /-- `full_close`, behind the call of `close_cb` -/
  | fullClose (conn : Nat)
  | user (cb : UserCb) (conn : Nat)
  deriving DecidableEq, Repr

/-- An entry of the list that `epoll_wait` returns. -/
inductive ServerReport where
  | activater
  | acceptor
  /-- the channel of a connection, with its events -/
  | conn (conn : Nat) (reported : EventType → Bool)

/-- The callbacks that the server adds to its loops; a removal knows whose it is. -/
inductive ServerCallback where
  /-- the callback of `create_conn(fd)` -/
  | createConnCb (fd : Nat)
  /-- `remove_conn(fd)` -/
  | removeConn (fd owner : Nat)
  /-- the callback of `remove_conn(fd)` -/
  | removeConnCb (fd owner : Nat)
  deriving DecidableEq, Repr

/-- What ends the program. -/
inductive ServerFailure where
  /-- the assertion of `TCPAcceptor::handle_read` -/
  | acceptor
  /-- the assertion of `create_conn` -/
  | createConn
  /-- `remove_conn` dereferences `end()` -/
  | removeConn
  /-- an assertion of a connection -/
  | conn (assertion : Assertion)
  /-- a connection is used that has been destroyed -/
  | destroyed
  deriving DecidableEq, Repr

/-- `max_conn_num` -/
def maxConnNum : Nat := 20000

/-- A connection with what its constructor was given. -/
structure ServerConn (pool : EventloopPool) where
  fd : Nat
  loop : Fin pool.nThread
  userCb : UserCallback
  conn : TCPConnection

/-- A loop of the pool with the stack of its thread above `run`, the innermost frame first. -/
structure ServerLoop extends CallbackLoop ServerReport ServerCallback where
  stack : List ServerFrame := []

/-- A look-up of `remove_conn`: the connection whose removal it is, and the one it found. -/
structure Removal where
  owner : Nat
  found : Option Nat
  deriving DecidableEq, Repr

structure TCPServer (pool : EventloopPool) where
  userCb : UserCallback
  mainLoop : Fin pool.nThread
  loops : Fin pool.nThread → ServerLoop := fun _ => {}
  /-- the connection objects that exist -/
  conns : Nat → Option (ServerConn pool) := fun _ => none
  nextConn : Nat := 0
  connMap : AList fun _ : Nat => Nat := ∅
  /-- the accepted descriptors that have not been closed -/
  isOpen : Nat → Bool := fun _ => false
  failed : Option ServerFailure := none
  removals : List Removal := []

namespace TCPConnection

/-- `full_close` before the call of `close_cb` -/
def beginClose (conn : TCPConnection) : TCPConnection :=
  { conn with state := .fullClose }.shutdown .rdwr

/-- `close_cb` is called. -/
def callCloseCb (conn : TCPConnection) : TCPConnection :=
  { conn with closeCbs := conn.closeCbs + 1 }

/-- `remove_conn_cb` is added to the loop. -/
def addRemoveCb (conn : TCPConnection) : TCPConnection :=
  { conn with removeCbs := conn.removeCbs + 1 }

end TCPConnection

namespace TCPServer

variable {pool : EventloopPool}

/-- The server behind the construction of its acceptor. -/
def new (pool : EventloopPool) (userCb : UserCallback) : TCPServer pool where
  userCb := userCb
  mainLoop := pool.getLoop

def fail (s : TCPServer pool) (failure : ServerFailure) : TCPServer pool :=
  { s with failed := some failure }

def setLoop (s : TCPServer pool) (loop : Fin pool.nThread) (now : ServerLoop) : TCPServer pool :=
  { s with loops := Function.update s.loops loop now }

/-- A loop goes on in its turn. -/
def setTurn (s : TCPServer pool) (loop : Fin pool.nThread)
    (turned : CallbackLoop ServerReport ServerCallback) : TCPServer pool :=
  s.setLoop loop { s.loops loop with toCallbackLoop := turned }

def setStack (s : TCPServer pool) (thread : Fin pool.nThread) (stack : List ServerFrame) :
    TCPServer pool :=
  s.setLoop thread { s.loops thread with stack := stack }

/-- A thread enters functions, the innermost first. -/
def enter (s : TCPServer pool) (thread : Fin pool.nThread) (frames : List ServerFrame) :
    TCPServer pool :=
  s.setStack thread (frames ++ (s.loops thread).stack)

def setConn (s : TCPServer pool) (id : Nat) (conn : ServerConn pool) : TCPServer pool :=
  { s with conns := Function.update s.conns id (some conn) }

/-- A connection is used, which must not have been destroyed. -/
def withConn (s : TCPServer pool) (id : Nat)
    (use : ServerConn pool → Option (TCPServer pool)) : Option (TCPServer pool) :=
  match s.conns id with
  | some conn => use conn
  | none => some (s.fail .destroyed)

/-! ## Callbacks of the loops -/

/-- `add_callback_after` -/
def addCallbackAfter (s : TCPServer pool) (loop : Fin pool.nThread) (cb : ServerCallback) :
    TCPServer pool :=
  s.setTurn loop { (s.loops loop).toCallbackLoop with cbList := (s.loops loop).cbList ++ [cb] }

/-- `add_callback` on a thread; `now` is what the callback does. -/
def addCallback (s : TCPServer pool) (thread loop : Fin pool.nThread) (cb : ServerCallback)
    (now : TCPServer pool → TCPServer pool) : TCPServer pool :=
  if (s.loops loop).isLoop = true ∧ thread = loop then now s else s.addCallbackAfter loop cb

/-- `~TCPConnection`, which destroys the channel, and the channel closes its descriptor -/
def destroy (s : TCPServer pool) (id : Nat) : TCPServer pool :=
  match s.conns id with
  | some conn =>
      { s with
        conns := Function.update s.conns id none
        isOpen := Function.update s.isOpen conn.fd false }
  | none => s.fail .destroyed

/-- The callback of `remove_conn`; `erase` destroys the connection. -/
def removeConnCb (s : TCPServer pool) (fd owner : Nat) : TCPServer pool :=
  match s.connMap.lookup fd with
  | some id =>
      { s with
        connMap := s.connMap.erase fd
        removals := s.removals ++ [(⟨owner, some id⟩ : Removal)] }.destroy id
  | none => { s with removals := s.removals ++ [(⟨owner, none⟩ : Removal)] }.fail .removeConn

/-- `remove_conn` -/
def removeConn (s : TCPServer pool) (thread : Fin pool.nThread) (fd owner : Nat) :
    TCPServer pool :=
  s.addCallback thread s.mainLoop (.removeConnCb fd owner) fun s => s.removeConnCb fd owner

/-- The callback of `create_conn`, up to the call of `open_cb` in the constructor. -/
def createConnCb (s : TCPServer pool) (thread : Fin pool.nThread) (fd : Nat) : TCPServer pool :=
  if fd ∈ s.connMap then s.fail .createConn
  else if maxConnNum ≤ s.connMap.keys.length then
    { s with isOpen := Function.update s.isOpen fd false }
  else
    { s with
      conns := Function.update s.conns s.nextConn
        (some { fd := fd, loop := pool.getLoop, userCb := s.userCb, conn := .new })
      nextConn := s.nextConn + 1 }.enter thread
        (if s.userCb.openCb then [.user .openCb s.nextConn, .constructor s.nextConn]
         else [.constructor s.nextConn])

/-- `conn_map[fd] = ...` behind the constructor; an entry that it replaces is destroyed -/
def store (s : TCPServer pool) (fd id : Nat) : TCPServer pool :=
  match s.connMap.lookup fd with
  | some old => { s with connMap := s.connMap.insert fd id }.destroy old
  | none => { s with connMap := s.connMap.insert fd id }

/-- `create_conn` -/
def createConn (s : TCPServer pool) (thread : Fin pool.nThread) (fd : Nat) : TCPServer pool :=
  s.addCallback thread s.mainLoop (.createConnCb fd) fun s => s.createConnCb thread fd

/-- `TCPAcceptor::handle_read`, with what `accept` returned; no open descriptor is returned. -/
def acceptorHandleRead (s : TCPServer pool) (thread : Fin pool.nThread) :
    Option Nat → Option (TCPServer pool)
  | some fd =>
      if s.isOpen fd = false then
        some ({ s with isOpen := Function.update s.isOpen fd true }.createConn thread fd)
      else none
  | none => some (s.fail .acceptor)

/-! ## Functions of the connections -/

/-- A function of a connection has returned, or thrown. -/
def finish (s : TCPServer pool) (id : Nat) (conn : ServerConn pool) :
    Except Assertion TCPConnection → TCPServer pool
  | .ok after => s.setConn id { conn with conn := after }
  | .error assertion => s.fail (.conn assertion)

/-- `full_close`, up to the call of `close_cb` -/
def fullClose (s : TCPServer pool) (thread : Fin pool.nThread) (id : Nat)
    (conn : ServerConn pool) : TCPServer pool :=
  if conn.conn.state ≠ .fullClose then
    if conn.userCb.closeCb then
      (s.setConn id { conn with conn := conn.conn.beginClose.callCloseCb }).enter thread
        [.user .closeCb id, .fullClose id]
    else (s.setConn id { conn with conn := conn.conn.beginClose }).enter thread [.fullClose id]
  else s.fail (.conn .fullClose)

/-- A call that the user makes; `send_data` closes a connection whose `write_buf` is full. -/
def userCall (s : TCPServer pool) (thread : Fin pool.nThread) (id : Nat)
    (conn : ServerConn pool) : UserCall → TCPServer pool
  | .sendData msg =>
      if conn.conn.state = .connecting ∧
          maxWriteBufSize ≤ conn.conn.writeBuf.getSize + msg.length then
        s.fullClose thread id conn
      else s.finish id conn (conn.conn.sendData msg)
  | .popData => s.finish id conn conn.conn.popData
  | .popDataLen len => s.finish id conn (conn.conn.popDataLen len)
  | .halfClose => s.finish id conn conn.conn.halfClose
  | .fullClose => s.fullClose thread id conn

/-- `handle_read`, up to the call of a callback -/
def handleRead (s : TCPServer pool) (thread : Fin pool.nThread) (id : Nat)
    (conn : ServerConn pool) (read : ReadResult) : TCPServer pool :=
  let received : ServerConn pool :=
    { conn with conn := { conn.conn with readBuf := (conn.conn.readBuf.pushFrom read).2 } }
  let reading := (s.setConn id received).enter thread [.handleRead id]
  match read with
  | .data (_ :: _) =>
      if conn.userCb.messageCb then reading.enter thread [.user .messageCb id]
      else reading.finish id received (conn.conn.handleRead read none)
  | .error .again => reading
  | .error .intr => reading
  | .error .other => reading.fullClose thread id received
  | .data [] => reading.fullClose thread id received

/-- `handle_write`, up to the call of a callback -/
def handleWrite (s : TCPServer pool) (thread : Fin pool.nThread) (id : Nat)
    (conn : ServerConn pool) (write : WriteResult) : TCPServer pool :=
  if 0 < conn.conn.writeBuf.getSize then
    let sent : ServerConn pool :=
      { conn with conn := { conn.conn with writeBuf := (conn.conn.writeBuf.popTo write).2 } }
    let writing := (s.setConn id sent).enter thread [.handleWrite id false]
    match write with
    | .wrote (_ + 1) =>
        if sent.conn.writeBuf.getSize = 0 then
          (s.setConn id { sent with conn := sent.conn.disableWrite }).enter thread
            (if conn.userCb.writeLower then [.user .writeLower id, .handleWrite id true]
             else [.handleWrite id true])
        else if maxWriteBufSize ≤ sent.conn.writeBuf.getSize ∧ conn.userCb.writeHigh = true then
          writing.enter thread [.user .writeHigh id]
        else writing
    | .error .again => writing
    | .error .intr => writing
    | .error .other => writing.fullClose thread id sent
    -- the assertion of this branch is `assertm(-1)`, which holds
    | .wrote 0 => writing
  else s.fail (.conn .handleWrite)

/-- The innermost function of a thread goes on behind what it called, and returns. -/
def leave (s : TCPServer pool) (thread : Fin pool.nThread) : Option (TCPServer pool) :=
  match (s.loops thread).stack with
  | .constructor id :: rest =>
      (s.setStack thread rest).withConn id fun conn =>
        some ((s.setStack thread rest).store conn.fd id)
  | .handleEvent id :: rest =>
      (s.setStack thread rest).withConn id fun conn =>
        if conn.conn.Quiet then some (s.setStack thread rest) else none
  | .handleRead id :: rest =>
      (s.setStack thread rest).withConn id fun conn =>
        some ((s.setStack thread rest).setConn id
          { conn with conn := conn.conn.clearTrigger .read })
  | .handleWrite id lower :: rest =>
      (s.setStack thread rest).withConn id fun conn =>
        some ((s.setStack thread rest).setConn id
          (if lower = true ∧ conn.conn.state = .halfClose then
            { conn with conn := (conn.conn.shutdown .wr).clearTrigger .write }
           else { conn with conn := conn.conn.clearTrigger .write }))
  | .fullClose id :: rest =>
      (s.setStack thread rest).withConn id fun conn =>
        some (((s.setStack thread rest).setConn id
          { conn with conn := conn.conn.addRemoveCb }).addCallbackAfter conn.loop
            (.removeConn conn.fd id))
  | .user _ _ :: rest => some (s.setStack thread rest)
  | [] => none

/-! ## Steps -/

/-- What the thread of a loop does next; `stop` may be called on any thread. -/
inductive Action where
  /-- `TCPServer::stop` comes to the loop of this thread -/
  | stop
  | run
  | test
  /-- `epoll_wait` returns -/
  | wake (reports : List ServerReport)
  /-- the next report is the activater's -/
  | activated
  /-- the next report is the acceptor's -/
  | accept (accepted : Option Nat)
  /-- the next report is a connection's -/
  | handleEvent
  | read (read : ReadResult)
  | write (write : WriteResult)
  /-- a callback of the user calls a connection -/
  | call (conn : Nat) (call : UserCall)
  | leave
  | swap
  | callback
  | callbacksEnd

/-- An action and the thread that takes it, which is named like its loop. -/
structure Event (pool : EventloopPool) where
  thread : Fin pool.nThread
  action : Action

/-- What `epoll_wait` may report on a loop. -/
def Reportable (s : TCPServer pool) (loop : Fin pool.nThread) : ServerReport → Prop
  | .activater => True
  | .acceptor => loop = s.mainLoop
  | .conn id reported => ∃ conn ∈ s.conns id,
      conn.loop = loop ∧ conn.conn.ch.interest.Allows reported

instance (s : TCPServer pool) (loop : Fin pool.nThread) : DecidablePred (s.Reportable loop)
  | .activater => .isTrue trivial
  | .acceptor => inferInstanceAs (Decidable (loop = s.mainLoop))
  | .conn id reported => inferInstanceAs (Decidable (∃ conn ∈ s.conns id,
      conn.loop = loop ∧ conn.conn.ch.interest.Allows reported))

/-- A step of `run` itself, which has called nothing. -/
def turn (s : TCPServer pool) (thread : Fin pool.nThread)
    (turn : Turn ServerReport ServerCallback) : Option (TCPServer pool) :=
  if (s.loops thread).stack = [] then
    ((s.loops thread).toCallbackLoop.step turn).map (s.setTurn thread)
  else none

def act (s : TCPServer pool) (thread : Fin pool.nThread) : Action → Option (TCPServer pool)
  | .stop => some (s.setTurn thread { (s.loops thread).toCallbackLoop with isLoop := false })
  | .run => s.turn thread .run
  | .test => s.turn thread .test
  | .wake reports =>
      if ∀ report ∈ reports, s.Reportable thread report then s.turn thread (.wake reports)
      else none
  | .activated =>
      match (s.loops thread).phase.reports with
      | .activater :: _ => s.turn thread .report
      | _ => none
  | .accept accepted =>
      match (s.loops thread).phase.reports with
      | .acceptor :: _ => (s.turn thread .report).bind (·.acceptorHandleRead thread accepted)
      | _ => none
  | .handleEvent =>
      match (s.loops thread).phase.reports with
      | .conn id reported :: _ =>
          (s.turn thread .report).bind fun taken => taken.withConn id fun conn =>
            some ((taken.setConn id { conn with conn := conn.conn.trigger reported }).enter
              thread [.handleEvent id])
      | _ => none
  | .read read =>
      match (s.loops thread).stack with
      | .handleEvent id :: _ => s.withConn id fun conn =>
          if conn.conn.ch.triggerArr .read = true ∧
              read.bytes.length ≤ conn.conn.readBuf.offeredRoom then
            some (s.handleRead thread id conn read)
          else none
      | _ => none
  | .write write =>
      match (s.loops thread).stack with
      | .handleEvent id :: _ => s.withConn id fun conn =>
          if conn.conn.ch.triggerArr .read = false ∧ conn.conn.ch.triggerArr .write = true ∧
              write.accepted ≤ conn.conn.writeBuf.getSize then
            some (s.handleWrite thread id conn write)
          else none
      | _ => none
  | .call id call =>
      match (s.loops thread).stack, s.conns id with
      | .user _ _ :: _, some conn =>
          if conn.conn.Allows call then some (s.userCall thread id conn call) else none
      | _, _ => none
  | .leave => s.leave thread
  | .swap => s.turn thread .swap
  | .callback =>
      match (s.loops thread).phase.now with
      | .createConnCb fd :: _ => (s.turn thread .callback).map (·.createConnCb thread fd)
      | .removeConn fd owner :: _ => (s.turn thread .callback).map (·.removeConn thread fd owner)
      | .removeConnCb fd owner :: _ => (s.turn thread .callback).map (·.removeConnCb fd owner)
      | [] => none
  | .callbacksEnd => s.turn thread .callbacksEnd

/-- One step of one thread; nothing follows a failure. -/
def step (s : TCPServer pool) (event : Event pool) : Option (TCPServer pool) :=
  if s.failed = none then s.act event.thread event.action else none

end TCPServer

end SimpleWebServer.Tcp
