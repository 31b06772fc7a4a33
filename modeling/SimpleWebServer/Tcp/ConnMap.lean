import SimpleWebServer.Tcp.TCPServer
import SimpleWebServer.Lib.Registry

/-!
# The connection table of a server

Creation, the check of the limit and removal are callbacks that may be queued, and a
descriptor is recycled as soon as the channel that owned it is gone.  The server is a
registry: descriptors are handles, `conn_map` is its table, a constructor on the stack is an
object in the making, and a connection has been told to leave from its `full_close` on until
its removal has run.  All of it happens on the main loop, which `getLoop` also gives to every
connection.
-/

namespace SimpleWebServer.Tcp

open SimpleWebServer.Base SimpleWebServer.Reactor SimpleWebServer.Lib SimpleWebServer.Lib.Runs

namespace ServerFrame

/-- The connection of a frame. -/
def conn : ServerFrame → Nat
  | .constructor conn => conn
  | .handleEvent conn => conn
  | .handleRead conn => conn
  | .handleWrite conn _ => conn
  | .fullClose conn => conn
  | .user _ conn => conn

def constructed : ServerFrame → Option Nat
  | .constructor conn => some conn
  | _ => none

def closed : ServerFrame → Option Nat
  | .fullClose conn => some conn
  | _ => none

theorem constructed_eq_some {frame : ServerFrame} {id : Nat} :
    frame.constructed = some id ↔ frame = .constructor id := by
  cases frame <;> simp [constructed]

end ServerFrame

namespace ServerReport

/-- The connection of a report, if it is one's. -/
def conn? : ServerReport → Option Nat
  | .conn id _ => some id
  | _ => none

end ServerReport

namespace ServerCallback

def created : ServerCallback → Option Nat
  | .createConnCb fd => some fd
  | _ => none

/-- The descriptor and the connection of a removal. -/
def removal : ServerCallback → Option (Nat × Nat)
  | .removeConn fd owner => some (fd, owner)
  | .removeConnCb fd owner => some (fd, owner)
  | _ => none

def removed (cb : ServerCallback) : Option Nat := cb.removal.map Prod.snd

end ServerCallback

/-- The failures that a sound registry rules out. -/
def ServerFailure.ofRegistry : ServerFailure → Bool
  | .createConn => true
  | .removeConn => true
  | .destroyed => true
  | _ => false

namespace TCPServer

variable {pool : EventloopPool}

/-- The constructor of a connection has returned. -/
def Created (s : TCPServer pool) (id : Nat) : Prop :=
  ∀ loop, .constructor id ∉ (s.loops loop).stack

/-- What the server relies on in its table. -/
structure Consistent (s : TCPServer pool) : Prop where
  /-- the keys are the descriptors of the connections created and not yet removed -/
  keys : ∀ fd, fd ∈ s.connMap ↔ ∃ id, ∃ conn ∈ s.conns id, s.Created id ∧ conn.fd = fd
  size : s.connMap.keys.length ≤ maxConnNum
  /-- a new descriptor is not in the table -/
  isNew : s.failed ≠ some .createConn
  /-- `remove_conn` does not dereference `end()` -/
  notEnd : s.failed ≠ some .removeConn
  /-- each removal found the entry of its own connection -/
  own : ∀ removal ∈ s.removals, removal.found = some removal.owner

def main (s : TCPServer pool) : ServerLoop := s.loops s.mainLoop

/-- The callbacks that have not been run: those in hand, and the queue of the main loop. -/
def pending (s : TCPServer pool) (hand : List ServerCallback) : List ServerCallback :=
  hand ++ s.main.queue

/-- The server as a registry of its connections. -/
def registry (s : TCPServer pool) (hand : List ServerCallback) : Registry Nat Nat where
  handle id := (s.conns id).map ServerConn.fd
  loose := (s.pending hand).filterMap ServerCallback.created
  table := s.connMap
  making := s.main.stack.filterMap ServerFrame.constructed
  leaving := s.main.stack.filterMap ServerFrame.closed ++
    (s.pending hand).filterMap ServerCallback.removed

/-- A loop that has nothing of the server. -/
structure Idle (loop : ServerLoop) : Prop where
  stack : loop.stack = []
  queue : loop.queue = []
  reports : ∀ report ∈ loop.phase.reports, report = .activater

/-- What the invariant says of everything but the main loop. -/
structure Steady (s : TCPServer pool) : Prop where
  mainLoop : s.mainLoop = pool.getLoop
  idle : ∀ loop, loop ≠ s.mainLoop → Idle (s.loops loop)
  onMain : ∀ id, ∀ conn ∈ s.conns id, conn.loop = s.mainLoop
  fresh : ∀ id, s.nextConn ≤ id → s.conns id = none
  ownedOpen : ∀ id, ∀ conn ∈ s.conns id, s.isOpen conn.fd = true
  isNew : s.failed ≠ some .createConn
  notEnd : s.failed ≠ some .removeConn
  notGone : s.failed ≠ some .destroyed
  own : ∀ removal ∈ s.removals, removal.found = some removal.owner

/-- The invariant of all runs; `hand` are the callbacks that a step is about to run or add. -/
structure Inv (s : TCPServer pool) (hand : List ServerCallback) : Prop extends Steady s where
  sound : (s.registry hand).Sound maxConnNum
  looseOpen : ∀ fd ∈ (s.registry hand).loose, s.isOpen fd = true
  closed : ∀ id ∈ (s.registry hand).leaving, ∀ conn ∈ s.conns id, conn.conn.state = .fullClose
  ownFd : ∀ cb ∈ s.pending hand, ∀ pair ∈ cb.removal, ∀ conn ∈ s.conns pair.2, conn.fd = pair.1
  used : ∀ frame ∈ s.main.stack, s.conns frame.conn ≠ none
  reported : ∀ report ∈ s.main.phase.reports, ∀ id ∈ report.conn?, s.conns id ≠ none

theorem new_inv (pool : EventloopPool) (userCb : UserCallback) :
    (new pool userCb).Inv [] := by
  have idle : Idle ({} : ServerLoop) := ⟨rfl, rfl, by simp [LoopPhase.reports]⟩
  have steady : (new pool userCb).Steady := by
    refine ⟨rfl, fun _ _ => idle, ?_, ?_, ?_, ?_, ?_, ?_, ?_⟩ <;> simp [new]
  refine ⟨steady, Registry.sound_empty maxConnNum, ?_, ?_, ?_, ?_, ?_⟩ <;>
    simp [new, registry, pending, main, CallbackLoop.queue, LoopPhase.now, LoopPhase.reports]

theorem mem_making {s : TCPServer pool} {hand : List ServerCallback} {id : Nat} :
    id ∈ (s.registry hand).making ↔ .constructor id ∈ s.main.stack := by
  simp [registry, List.mem_filterMap, ServerFrame.constructed_eq_some]

theorem Inv.created_iff {s : TCPServer pool} {hand : List ServerCallback} (inv : s.Inv hand)
    {id : Nat} : s.Created id ↔ id ∉ (s.registry hand).making := by
  rw [mem_making]
  constructor
  · exact fun created => created s.mainLoop
  · intro made loop
    by_cases isMain : loop = s.mainLoop
    · rw [isMain]
      exact made
    · rw [(inv.idle loop isMain).stack]
      exact List.not_mem_nil

theorem handle_eq_some {s : TCPServer pool} {hand : List ServerCallback} {id fd : Nat} :
    (s.registry hand).handle id = some fd ↔ ∃ conn ∈ s.conns id, conn.fd = fd :=
  Option.map_eq_some_iff

theorem handle_eq_none {s : TCPServer pool} {hand : List ServerCallback} {id : Nat} :
    (s.registry hand).handle id = none ↔ s.conns id = none :=
  Option.map_eq_none_iff

/-- The connections of the removals that are pending have been told to leave. -/
theorem mem_leaving_of_removal {s : TCPServer pool} {hand : List ServerCallback}
    {cb : ServerCallback} (isPending : cb ∈ s.pending hand) {pair : Nat × Nat}
    (isPair : pair ∈ cb.removal) : pair.2 ∈ (s.registry hand).leaving :=
  List.mem_append_right _
    (List.mem_filterMap.mpr ⟨cb, isPending, Option.map_eq_some_iff.mpr ⟨pair, isPair, rfl⟩⟩)

theorem Inv.leaving_exists {s : TCPServer pool} {hand : List ServerCallback} (inv : s.Inv hand)
    {id : Nat} (leaves : id ∈ (s.registry hand).leaving) : s.conns id ≠ none := by
  intro gone
  exact inv.sound.leaving_owns id leaves (handle_eq_none.mpr gone)

theorem Inv.consistent {s : TCPServer pool} (inv : s.Inv []) : s.Consistent where
  keys fd := by
    rw [show fd ∈ s.connMap ↔ _ from inv.sound.mem_table]
    apply exists_congr
    intro id
    rw [handle_eq_some, ← inv.created_iff]
    constructor
    · rintro ⟨⟨conn, has, fd⟩, created⟩
      exact ⟨conn, has, created, fd⟩
    · rintro ⟨conn, has, created, fd⟩
      exact ⟨⟨conn, has, fd⟩, created⟩
  size := Nat.le_trans (Nat.le_add_right _ _) inv.sound.room
  isNew := inv.isNew
  notEnd := inv.notEnd
  own := inv.own

/-! ## Steps that leave the registry as it is -/

/-- The connections of the first state are those of the second, and none opens again. -/
def Kept (before after : Option (ServerConn pool)) : Prop :=
  (after = none ↔ before = none) ∧
    ∀ next ∈ after, ∃ conn ∈ before, next.fd = conn.fd ∧ next.loop = conn.loop ∧
      (conn.conn.state = .fullClose → next.conn.state = .fullClose)

theorem Kept.refl (conn : Option (ServerConn pool)) : Kept conn conn :=
  ⟨Iff.rfl, fun next has => ⟨next, has, rfl, rfl, id⟩⟩

theorem Kept.fd {before after : Option (ServerConn pool)} (kept : Kept before after) :
    after.map ServerConn.fd = before.map ServerConn.fd := by
  cases after with
  | none => rw [kept.1.mp rfl]
  | some next =>
      obtain ⟨conn, has, fd, -⟩ := kept.2 next rfl
      rw [has, Option.map_some, Option.map_some, fd]

/-- A step that leaves the registry as it is. -/
structure Keeps (s next : TCPServer pool) (hand held : List ServerCallback) : Prop where
  mainLoop : next.mainLoop = s.mainLoop
  idle : ∀ loop, loop ≠ s.mainLoop → Idle (next.loops loop)
  conns : ∀ id, Kept (s.conns id) (next.conns id)
  nextConn : next.nextConn = s.nextConn
  connMap : next.connMap = s.connMap
  isOpen : next.isOpen = s.isOpen
  removals : next.removals = s.removals
  failed : next.failed = s.failed
  making : next.main.stack.filterMap ServerFrame.constructed =
    s.main.stack.filterMap ServerFrame.constructed
  leaving : (next.registry held).leaving.Perm (s.registry hand).leaving
  loose : (next.registry held).loose.Perm (s.registry hand).loose
  ownFd : ∀ cb ∈ next.pending held, ∀ pair ∈ cb.removal,
    ∀ conn ∈ next.conns pair.2, conn.fd = pair.1
  used : ∀ frame ∈ next.main.stack, s.conns frame.conn ≠ none
  reported : ∀ report ∈ next.main.phase.reports, ∀ id ∈ report.conn?, s.conns id ≠ none

theorem Inv.keeps {s next : TCPServer pool} {hand held : List ServerCallback} (inv : s.Inv hand)
    (keeps : s.Keeps next hand held) : next.Inv held where
  mainLoop := keeps.mainLoop.trans inv.mainLoop
  idle loop other := keeps.idle loop (keeps.mainLoop ▸ other)
  onMain id conn has := by
    obtain ⟨old, hadOld, -, loop, -⟩ := (keeps.conns id).2 conn has
    rw [loop, keeps.mainLoop]
    exact inv.onMain id old hadOld
  sound := by
    have same : next.registry held = { s.registry hand with
        loose := (next.registry held).loose
        leaving := (next.registry held).leaving } := by
      have handles : (fun id => (next.conns id).map ServerConn.fd) =
          fun id => (s.conns id).map ServerConn.fd := funext fun id => (keeps.conns id).fd
      simp only [registry, handles, keeps.connMap, keeps.making]
    rw [same]
    exact inv.sound.perm keeps.loose keeps.leaving
  fresh id new := by
    rw [keeps.nextConn] at new
    exact (keeps.conns id).1.mpr (inv.fresh id new)
  looseOpen fd isLoose := by
    rw [keeps.isOpen]
    exact inv.looseOpen fd (keeps.loose.mem_iff.mp isLoose)
  ownedOpen id conn has := by
    obtain ⟨old, hadOld, fd, -⟩ := (keeps.conns id).2 conn has
    rw [keeps.isOpen, fd]
    exact inv.ownedOpen id old hadOld
  closed id leaves conn has := by
    obtain ⟨old, hadOld, -, -, stays⟩ := (keeps.conns id).2 conn has
    exact stays (inv.closed id (keeps.leaving.mem_iff.mp leaves) old hadOld)
  ownFd := keeps.ownFd
  used frame isFrame gone := keeps.used frame isFrame ((keeps.conns frame.conn).1.mp gone)
  reported report isReport id isId gone :=
    keeps.reported report isReport id isId ((keeps.conns id).1.mp gone)
  isNew := by
    rw [keeps.failed]
    exact inv.isNew
  notEnd := by
    rw [keeps.failed]
    exact inv.notEnd
  notGone := by
    rw [keeps.failed]
    exact inv.notGone
  own := by
    rw [keeps.removals]
    exact inv.own

theorem main_setLoop (s : TCPServer pool) (now : ServerLoop) :
    (s.setLoop s.mainLoop now).main = now :=
  Function.update_self ..

/-- The main loop goes on, and what is in hand, closing or under construction changes. -/
theorem Steady.setMain {s : TCPServer pool} (steady : s.Steady) {held : List ServerCallback}
    {now : ServerLoop} (making leaving : List Nat)
    (isMaking : now.stack.filterMap ServerFrame.constructed = making)
    (isLeaving : now.stack.filterMap ServerFrame.closed ++
      (held ++ now.queue).filterMap ServerCallback.removed = leaving)
    (sound : Registry.Sound ⟨fun id => (s.conns id).map ServerConn.fd,
      (held ++ now.queue).filterMap ServerCallback.created, s.connMap, making, leaving⟩ maxConnNum)
    (looseOpen : ∀ fd ∈ (held ++ now.queue).filterMap ServerCallback.created, s.isOpen fd = true)
    (closed : ∀ id ∈ leaving, ∀ conn ∈ s.conns id, conn.conn.state = .fullClose)
    (ownFd : ∀ cb ∈ held ++ now.queue, ∀ pair ∈ cb.removal,
      ∀ conn ∈ s.conns pair.2, conn.fd = pair.1)
    (used : ∀ frame ∈ now.stack, s.conns frame.conn ≠ none)
    (reported : ∀ report ∈ now.phase.reports, ∀ id ∈ report.conn?, s.conns id ≠ none) :
    (s.setLoop s.mainLoop now).Inv held := by
  subst isMaking isLeaving
  have main := main_setLoop s now
  have idle : ∀ loop, loop ≠ s.mainLoop → Idle ((s.setLoop s.mainLoop now).loops loop) := by
    intro loop other
    change Idle (Function.update s.loops s.mainLoop now loop)
    rw [Function.update_of_ne other]
    exact steady.idle loop other
  refine ⟨{ steady with idle := idle }, ?_, ?_, ?_, ?_, ?_, ?_⟩
  · simp only [registry, pending, main]
    exact sound
  · simp only [registry, pending, main]
    exact looseOpen
  · simp only [registry, pending, main]
    exact closed
  · simp only [pending, main]
    exact ownFd
  · rw [main]
    exact used
  · rw [main]
    exact reported

/-- The main loop goes on with the same callbacks, constructors and closing connections. -/
theorem Inv.setMain {s : TCPServer pool} {hand held : List ServerCallback} (inv : s.Inv hand)
    {now : ServerLoop}
    (making : now.stack.filterMap ServerFrame.constructed =
      s.main.stack.filterMap ServerFrame.constructed)
    (closing : now.stack.filterMap ServerFrame.closed = s.main.stack.filterMap ServerFrame.closed)
    (pending : (held ++ now.queue).Perm (s.pending hand))
    (used : ∀ frame ∈ now.stack, s.conns frame.conn ≠ none)
    (reported : ∀ report ∈ now.phase.reports, ∀ id ∈ report.conn?, s.conns id ≠ none) :
    (s.setLoop s.mainLoop now).Inv held := by
  refine inv.toSteady.setMain (s.registry hand).making _ making rfl ?_ ?_ ?_ ?_ used reported
  · apply inv.sound.perm (pending.filterMap _)
    rw [closing]
    exact (pending.filterMap _).append_left _
  · exact fun fd isLoose => inv.looseOpen fd ((pending.filterMap _).mem_iff.mp isLoose)
  · intro id leaves
    apply inv.closed id
    rw [closing] at leaves
    exact ((pending.filterMap _).append_left _).mem_iff.mp leaves
  · exact fun cb isPending => inv.ownFd cb (pending.mem_iff.mp isPending)

/-- A step of a loop that leaves its callbacks as they are. -/
theorem Inv.setTurn {s : TCPServer pool} {hand : List ServerCallback} (inv : s.Inv hand)
    {thread : Fin pool.nThread} {turned : CallbackLoop ServerReport ServerCallback}
    (queue : turned.queue = (s.loops thread).queue)
    (reports : ∀ report ∈ turned.phase.reports,
      report ∈ (s.loops thread).phase.reports ∨ s.Reportable thread report) :
    (s.setTurn thread turned).Inv hand := by
  by_cases isMain : thread = s.mainLoop
  · subst isMain
    refine inv.setMain rfl rfl ?_ inv.used ?_
    · exact List.Perm.of_eq (by rw [TCPServer.pending, main, ← queue])
    · intro report isReport id isId
      rcases reports report isReport with before | reportable
      · exact inv.reported report before id isId
      · cases report with
        | activater => cases isId
        | acceptor => cases isId
        | conn other reported =>
            cases isId
            obtain ⟨conn, has, -⟩ := reportable
            rw [has]
            exact Option.some_ne_none conn
  · have other (loop : Fin pool.nThread) (different : loop ≠ thread) :
        (s.setTurn thread turned).loops loop = s.loops loop :=
      Function.update_of_ne different _ _
    have main : (s.setTurn thread turned).main = s.main :=
      other s.mainLoop fun same => isMain same.symm
    refine inv.keeps
      ⟨rfl, ?_, fun id => Kept.refl _, rfl, rfl, rfl, rfl, rfl, ?_, ?_, ?_, ?_, ?_, ?_⟩
    · intro loop notMain
      by_cases same : loop = thread
      · subst same
        have idle := inv.idle loop notMain
        have here : (s.setTurn loop turned).loops loop =
            { s.loops loop with toCallbackLoop := turned } := Function.update_self ..
        rw [here]
        refine ⟨idle.stack, queue.trans idle.queue, ?_⟩
        intro report isReport
        rcases reports report isReport with before | reportable
        · exact idle.reports report before
        · cases report with
          | activater => rfl
          | acceptor => exact absurd reportable notMain
          | conn id reported =>
              obtain ⟨conn, has, onLoop, -⟩ := reportable
              exact absurd (onLoop.symm.trans (inv.onMain id conn has)) notMain
      · rw [other loop same]
        exact inv.idle loop notMain
    · rw [main]
    · simp only [registry, TCPServer.pending, main]
      exact List.Perm.refl _
    · simp only [registry, TCPServer.pending, main]
      exact List.Perm.refl _
    · simp only [TCPServer.pending, main]
      exact inv.ownFd
    · rw [main]
      exact inv.used
    · rw [main]
      exact inv.reported

/-- The main loop takes a callback in hand. -/
theorem Inv.takeCallback {s : TCPServer pool} (inv : s.Inv [])
    {turned : CallbackLoop ServerReport ServerCallback} {cb : ServerCallback}
    (queue : s.main.queue = cb :: turned.queue) (reports : turned.phase.reports = []) :
    (s.setTurn s.mainLoop turned).Inv [cb] := by
  refine inv.setMain rfl rfl ?_ inv.used ?_
  · exact List.Perm.of_eq (by rw [TCPServer.pending, queue]; rfl)
  · intro report isReport
    rw [show (⟨turned, _⟩ : ServerLoop).phase.reports = [] from reports] at isReport
    cases isReport

/-- `add_callback_after` puts a callback that is in hand behind those in the list. -/
theorem Inv.addCallbackAfter {s : TCPServer pool} {hand : List ServerCallback}
    {cb : ServerCallback} (inv : s.Inv (cb :: hand)) {loop : Fin pool.nThread}
    (isMain : loop = s.mainLoop) : (s.addCallbackAfter loop cb).Inv hand := by
  subst isMain
  refine inv.setMain rfl rfl ?_ inv.used inv.reported
  have moved : (hand ++ s.main.queue ++ [cb]).Perm (cb :: (hand ++ s.main.queue)) :=
    List.perm_append_singleton _ _
  rw [List.append_assoc] at moved
  change (hand ++ (s.main.phase.now ++ (s.main.cbList ++ [cb]))).Perm _
  rw [← List.append_assoc s.main.phase.now]
  exact moved

/-- The main thread enters functions, or leaves them, that neither construct nor close. -/
theorem Inv.setStack {s : TCPServer pool} {hand : List ServerCallback} (inv : s.Inv hand)
    {stack : List ServerFrame}
    (making : stack.filterMap ServerFrame.constructed =
      s.main.stack.filterMap ServerFrame.constructed)
    (closing : stack.filterMap ServerFrame.closed = s.main.stack.filterMap ServerFrame.closed)
    (used : ∀ frame ∈ stack, s.conns frame.conn ≠ none) :
    (s.setStack s.mainLoop stack).Inv hand :=
  inv.setMain making closing (List.Perm.refl _) used inv.reported

/-- A connection changes, but neither moves nor opens again. -/
theorem Inv.setConn {s : TCPServer pool} {hand : List ServerCallback} (inv : s.Inv hand)
    {id : Nat} {conn next : ServerConn pool} (has : s.conns id = some conn)
    (fd : next.fd = conn.fd) (loop : next.loop = conn.loop)
    (state : conn.conn.state = .fullClose → next.conn.state = .fullClose) :
    (s.setConn id next).Inv hand := by
  have kept : ∀ other, Kept (s.conns other) ((s.setConn id next).conns other) := by
    intro other
    by_cases same : other = id
    · subst same
      have here : (s.setConn other next).conns other = some next := Function.update_self ..
      rw [here, has]
      refine ⟨by simp, ?_⟩
      rintro after ⟨⟩
      exact ⟨conn, rfl, fd, loop, state⟩
    · have there : (s.setConn id next).conns other = s.conns other :=
        Function.update_of_ne same _ _
      rw [there]
      exact Kept.refl _
  refine inv.keeps ⟨rfl, inv.idle, kept, rfl, rfl, rfl, rfl, rfl, rfl, List.Perm.refl _,
    List.Perm.refl _, ?_, inv.used, inv.reported⟩
  intro cb isPending pair isPair after hasAfter
  obtain ⟨before, hadBefore, sameFd, -⟩ := (kept pair.2).2 after hasAfter
  rw [sameFd]
  exact inv.ownFd cb isPending pair isPair before hadBefore

/-- A failure that the registry does not rule out. -/
theorem Inv.fail {s : TCPServer pool} {hand : List ServerCallback} (inv : s.Inv hand)
    {failure : ServerFailure} (other : failure.ofRegistry = false) : (s.fail failure).Inv hand :=
  { inv with
    isNew := by
      rintro ⟨⟩
      cases other
    notEnd := by
      rintro ⟨⟩
      cases other
    notGone := by
      rintro ⟨⟩
      cases other }

/-! ## Steps of the registry -/

/-- `full_close` tells a connection to leave that has not been told before. -/
theorem Inv.told {s : TCPServer pool} {hand : List ServerCallback} (inv : s.Inv hand)
    {id : Nat} {conn next : ServerConn pool} (has : s.conns id = some conn)
    (opened : conn.conn.state ≠ .fullClose) (fd : next.fd = conn.fd)
    (loop : next.loop = conn.loop) (state : next.conn.state = .fullClose)
    {stack : List ServerFrame}
    (making : stack.filterMap ServerFrame.constructed =
      s.main.stack.filterMap ServerFrame.constructed)
    (closing : stack.filterMap ServerFrame.closed =
      id :: s.main.stack.filterMap ServerFrame.closed)
    (used : ∀ frame ∈ stack, (s.setConn id next).conns frame.conn ≠ none) :
    ((s.setConn id next).setStack s.mainLoop stack).Inv hand := by
  have stays : id ∉ (s.registry hand).leaving := fun leaves =>
    opened (inv.closed id leaves conn has)
  have nextInv : (s.setConn id next).Inv hand := inv.setConn has fd loop fun _ => state
  have here : (s.setConn id next).conns id = some next := Function.update_self ..
  have owns : ((s.setConn id next).registry hand).handle id ≠ none := by
    simp [registry, here]
  refine nextInv.toSteady.setMain _ (id :: ((s.setConn id next).registry hand).leaving)
    making ?_ ?_ nextInv.looseOpen ?_ nextInv.ownFd used nextInv.reported
  · simp only [closing]
    rfl
  · exact nextInv.sound.told owns stays
  · intro other leaves after hasAfter
    rcases List.mem_cons.mp leaves with rfl | before
    · rw [here] at hasAfter
      cases hasAfter
      exact state
    · exact nextInv.closed other before after hasAfter

/-- `full_close` comes to the end, with the removal in hand. -/
theorem Inv.closes {s : TCPServer pool} (inv : s.Inv []) {id : Nat} {conn : ServerConn pool}
    (has : s.conns id = some conn) {rest : List ServerFrame}
    (stack : s.main.stack = .fullClose id :: rest) :
    (s.setStack s.mainLoop rest).Inv [.removeConn conn.fd id] := by
  have moved : (rest.filterMap ServerFrame.closed ++
      id :: (s.pending []).filterMap ServerCallback.removed).Perm (s.registry []).leaving := by
    simp only [registry, stack]
    exact List.perm_middle
  refine inv.toSteady.setMain (s.registry []).making _ ?_ rfl ?_ inv.looseOpen ?_ ?_ ?_ inv.reported
  · simp only [registry, stack]
    rfl
  · exact inv.sound.perm (List.Perm.refl _) moved
  · exact fun other leaves => inv.closed other (moved.mem_iff.mp leaves)
  · intro cb isPending
    rcases List.mem_cons.mp isPending with rfl | queued
    · rintro pair ⟨⟩ after hasAfter
      cases has.symm.trans hasAfter
      rfl
    · exact inv.ownFd cb queued
  · intro frame isFrame
    exact inv.used frame (by rw [stack]; exact List.mem_cons_of_mem _ isFrame)

/-- The constructor finds no entry under its descriptor. -/
theorem Inv.stored {s : TCPServer pool} {hand : List ServerCallback} (inv : s.Inv hand)
    {id : Nat} {conn : ServerConn pool} (has : s.conns id = some conn) {rest : List ServerFrame}
    (stack : s.main.stack = .constructor id :: rest) :
    (s.setStack s.mainLoop rest).store conn.fd id =
      { s.setStack s.mainLoop rest with connMap := s.connMap.insert conn.fd id } := by
  have isMade : id ∈ (s.registry hand).making := by
    rw [mem_making, stack]
    exact List.mem_cons_self
  have absent : (s.setStack s.mainLoop rest).connMap.lookup conn.fd = none :=
    inv.sound.lookup_making isMade (handle_eq_some.mpr ⟨conn, has, rfl⟩)
  simp only [TCPServer.store]
  rw [absent]
  rfl

/-- The constructor has returned, and its connection is put into the table. -/
theorem Inv.store {s : TCPServer pool} {hand : List ServerCallback} (inv : s.Inv hand)
    {id : Nat} {conn : ServerConn pool} (has : s.conns id = some conn) {rest : List ServerFrame}
    (stack : s.main.stack = .constructor id :: rest) :
    ((s.setStack s.mainLoop rest).store conn.fd id).Inv hand := by
  have making : (s.registry hand).making = id :: rest.filterMap ServerFrame.constructed := by
    simp only [registry, stack]
    rfl
  have closing : rest.filterMap ServerFrame.closed =
      s.main.stack.filterMap ServerFrame.closed := by
    simp only [stack]
    rfl
  have owns : (s.registry hand).handle id = some conn.fd := handle_eq_some.mpr ⟨conn, has, rfl⟩
  have sound : { s.registry hand with
      making := id :: rest.filterMap ServerFrame.constructed }.Sound maxConnNum := by
    rw [← making]
    exact inv.sound
  have steady : { s with connMap := s.connMap.insert conn.fd id }.Steady :=
    { inv.toSteady with }
  rw [inv.stored has stack]
  refine steady.setMain (rest.filterMap ServerFrame.constructed) (s.registry hand).leaving rfl ?_
    (sound.listed owns) inv.looseOpen inv.closed inv.ownFd ?_ inv.reported
  · simp only [closing]
    rfl
  · intro frame isFrame
    exact inv.used frame (by rw [stack]; exact List.mem_cons_of_mem _ isFrame)

/-- `accept` returns a descriptor that is not open, and `create_conn` is in hand. -/
theorem Inv.accepted {s : TCPServer pool} (inv : s.Inv []) {fd : Nat}
    (notOpen : s.isOpen fd = false) :
    { s with isOpen := Function.update s.isOpen fd true }.Inv [.createConnCb fd] := by
  have stays {other : Nat} (isOpen : s.isOpen other = true) :
      Function.update s.isOpen fd true other = true := by
    by_cases same : other = fd
    · rw [same, Function.update_self]
    · rw [Function.update_of_ne same]
      exact isOpen
  have notLoose : fd ∉ (s.registry []).loose := by
    intro isLoose
    rw [inv.looseOpen fd isLoose] at notOpen
    cases notOpen
  have notOwned : ∀ id, (s.registry []).handle id ≠ some fd := by
    intro id owns
    obtain ⟨conn, has, sameFd⟩ := handle_eq_some.mp owns
    rw [← sameFd, inv.ownedOpen id conn has] at notOpen
    cases notOpen
  exact
    { inv with
      sound := inv.sound.opened notLoose notOwned
      looseOpen := by
        intro other isLoose
        rcases List.mem_cons.mp isLoose with rfl | before
        · exact Function.update_self ..
        · exact stays (inv.looseOpen other before)
      ownedOpen := fun id conn has => stays (inv.ownedOpen id conn has)
      ownFd := by
        intro cb isPending pair isPair
        rcases List.mem_cons.mp isPending with rfl | queued
        · cases isPair
        · exact inv.ownFd cb queued pair isPair }

/-- The server with a new connection, of which nothing but its number is used before. -/
def withNew (s : TCPServer pool) (conn : ServerConn pool) : TCPServer pool :=
  { s with
    conns := Function.update s.conns s.nextConn (some conn)
    nextConn := s.nextConn + 1 }

theorem Steady.withNew {s : TCPServer pool} (steady : s.Steady) {conn : ServerConn pool}
    (loop : conn.loop = pool.getLoop) (isOpen : s.isOpen conn.fd = true) :
    (s.withNew conn).Steady :=
  { steady with
    onMain := by
      apply Table.forall_update_some steady.onMain
      rw [loop]
      exact steady.mainLoop.symm
    fresh := by
      intro id later
      have later : s.nextConn < id := later
      change Function.update s.conns s.nextConn (some conn) id = none
      rw [Function.update_of_ne (Nat.ne_of_gt later)]
      exact steady.fresh id (Nat.le_of_lt later)
    ownedOpen := Table.forall_update_some steady.ownedOpen isOpen }

/-- A connection is made for a descriptor in hand; its constructor is on the stack. -/
theorem Inv.made {s : TCPServer pool} {fd : Nat} (inv : s.Inv [.createConnCb fd])
    (stack : s.main.stack = []) (free : s.connMap.keys.length < maxConnNum)
    {conn : ServerConn pool} (isFd : conn.fd = fd) (loop : conn.loop = pool.getLoop)
    {frames : List ServerFrame}
    (making : frames.filterMap ServerFrame.constructed = [s.nextConn])
    (closing : frames.filterMap ServerFrame.closed = [])
    (frame_conn : ∀ frame ∈ frames, frame.conn = s.nextConn) :
    ((s.withNew conn).setStack s.mainLoop frames).Inv [] := by
  have isNew : s.conns s.nextConn = none := inv.fresh _ (Nat.le_refl _)
  have stays {id : Nat} (has : s.conns id ≠ none) : (s.withNew conn).conns id ≠ none := by
    change Function.update s.conns s.nextConn (some conn) id ≠ none
    rw [Function.update_of_ne]
    · exact has
    · rintro rfl
      exact has isNew
  have before {id : Nat} {found : ServerConn pool} (exists_ : s.conns id ≠ none)
      (has : (s.withNew conn).conns id = some found) : s.conns id = some found := by
    rcases Table.of_update_some has with ⟨rfl, -⟩ | ⟨-, had⟩
    · exact absurd isNew exists_
    · exact had
  have steady : (s.withNew conn).Steady := by
    apply inv.toSteady.withNew loop
    rw [isFd]
    exact inv.looseOpen fd List.mem_cons_self
  have empty : (s.registry [.createConnCb fd]).making = [] := by
    simp only [registry, stack]
    rfl
  have handles : (fun id => ((s.withNew conn).conns id).map ServerConn.fd) =
      Function.update (s.registry [.createConnCb fd]).handle s.nextConn (some fd) := by
    rw [← isFd]
    exact Function.comp_update (Option.map ServerConn.fd) s.conns s.nextConn (some conn)
  have sound : { s.registry [.createConnCb fd] with
      loose := fd :: (s.registry []).loose }.Sound maxConnNum := inv.sound
  have notClosing : s.main.stack.filterMap ServerFrame.closed = [] := by
    rw [stack]
    rfl
  have leavingSame : frames.filterMap ServerFrame.closed ++
      ([] ++ s.main.queue).filterMap ServerCallback.removed =
        (s.registry [.createConnCb fd]).leaving := by
    simp only [registry, closing, notClosing]
    rfl
  refine steady.setMain [s.nextConn] (s.registry [.createConnCb fd]).leaving making leavingSame
    ?_ ?_ ?_ ?_ ?_ ?_
  · rw [handles, ← empty]
    exact sound.made (handle_eq_none.mpr isNew) (by rw [empty]; exact free)
  · exact fun other isLoose => inv.looseOpen other (List.mem_cons_of_mem fd isLoose)
  · intro id leaves found has
    exact inv.closed id leaves found (before (inv.leaving_exists leaves) has)
  · intro cb queued pair isPair found has
    have isPending : cb ∈ s.pending [.createConnCb fd] := List.mem_cons_of_mem _ queued
    have leaves := mem_leaving_of_removal isPending isPair
    exact inv.ownFd cb isPending pair isPair found (before (inv.leaving_exists leaves) has)
  · intro frame isFrame
    rw [frame_conn frame isFrame]
    change Function.update s.conns s.nextConn (some conn) s.nextConn ≠ none
    rw [Function.update_self]
    exact Option.some_ne_none conn
  · exact fun report isReport id isId => stays (inv.reported report isReport id isId)

/-- The callback of `create_conn` runs with an empty stack. -/
theorem Inv.createConnCb {s : TCPServer pool} {fd : Nat} (inv : s.Inv [.createConnCb fd])
    (stack : s.main.stack = []) : (s.createConnCb s.mainLoop fd).Inv [] := by
  have head : fd ∈ (s.registry [.createConnCb fd]).loose := List.mem_cons_self
  have absent : fd ∉ s.connMap := inv.sound.notMem_of_loose head
  have sound : { s.registry [.createConnCb fd] with
      loose := fd :: (s.registry []).loose }.Sound maxConnNum := inv.sound
  have notOwned : ∀ id, ∀ conn ∈ s.conns id, conn.fd ≠ fd := fun id conn has sameFd =>
    inv.sound.loose_free fd head id (handle_eq_some.mpr ⟨conn, has, sameFd⟩)
  rw [TCPServer.createConnCb, if_neg absent]
  split
  · -- the connection is refused
    have stays {other : Nat} (different : other ≠ fd) :
        Function.update s.isOpen fd false other = s.isOpen other :=
      Function.update_of_ne different _ _
    exact
      { inv with
        sound := sound.closed
        looseOpen := by
          intro other isLoose
          change Function.update s.isOpen fd false other = true
          rw [stays]
          · exact inv.looseOpen other (List.mem_cons_of_mem fd isLoose)
          · rintro rfl
            exact (List.nodup_cons.mp sound.loose_nodup).1 isLoose
        ownedOpen := by
          intro id conn has
          change Function.update s.isOpen fd false conn.fd = true
          rw [stays (notOwned id conn has)]
          exact inv.ownedOpen id conn has
        ownFd := fun cb queued => inv.ownFd cb (List.mem_cons_of_mem _ queued) }
  · next room =>
      have emptyStack : (s.loops s.mainLoop).stack = [] := stack
      simp only [enter, emptyStack, List.append_nil]
      split
      · exact inv.made stack (Nat.lt_of_not_le room) rfl rfl rfl rfl (by simp [ServerFrame.conn])
      · exact inv.made stack (Nat.lt_of_not_le room) rfl rfl rfl rfl (by simp [ServerFrame.conn])

/-- `remove_conn` comes to its callback. -/
theorem Inv.renamed {s : TCPServer pool} {hand : List ServerCallback} {fd owner : Nat}
    (inv : s.Inv (.removeConn fd owner :: hand)) : s.Inv (.removeConnCb fd owner :: hand) :=
  { inv with
    ownFd := by
      intro cb isPending pair isPair
      rcases List.mem_cons.mp isPending with rfl | queued
      · exact inv.ownFd _ List.mem_cons_self pair isPair
      · exact inv.ownFd cb (List.mem_cons_of_mem _ queued) pair isPair }

/-- The server without a connection that was found under its descriptor. -/
def without (s : TCPServer pool) (fd owner : Nat) : TCPServer pool :=
  { s with
    connMap := s.connMap.erase fd
    conns := Function.update s.conns owner none
    isOpen := Function.update s.isOpen fd false
    removals := s.removals ++ [⟨owner, some owner⟩] }

/-- The connection of a removal in hand exists, and owns the descriptor of the removal. -/
theorem Inv.removal_owns {s : TCPServer pool} {fd owner : Nat}
    (inv : s.Inv [.removeConnCb fd owner]) : ∃ conn ∈ s.conns owner, conn.fd = fd := by
  have inHand : .removeConnCb fd owner ∈ s.pending [.removeConnCb fd owner] := List.mem_cons_self
  have leaves : owner ∈ (s.registry [.removeConnCb fd owner]).leaving :=
    mem_leaving_of_removal inHand rfl
  obtain ⟨conn, has⟩ := Option.ne_none_iff_exists'.mp (inv.leaving_exists leaves)
  exact ⟨conn, has, inv.ownFd _ inHand (fd, owner) rfl conn has⟩

/-- The callback of `remove_conn` runs with an empty stack, and finds its own connection. -/
theorem Inv.removeConnCb_eq {s : TCPServer pool} {fd owner : Nat}
    (inv : s.Inv [.removeConnCb fd owner]) (stack : s.main.stack = []) :
    s.removeConnCb fd owner = s.without fd owner := by
  obtain ⟨conn, has, isFd⟩ := inv.removal_owns
  have has : s.conns owner = some conn := has
  have made : owner ∉ (s.registry [.removeConnCb fd owner]).making := by
    rw [mem_making, stack]
    exact List.not_mem_nil
  have found : s.connMap.lookup fd = some owner :=
    inv.sound.lookup_made made (handle_eq_some.mpr ⟨conn, has, isFd⟩)
  simp only [TCPServer.removeConnCb, found, destroy, has, isFd]
  rfl

theorem Inv.removeConnCb {s : TCPServer pool} {fd owner : Nat}
    (inv : s.Inv [.removeConnCb fd owner]) (stack : s.main.stack = [])
    (reports : s.main.phase.reports = []) : (s.removeConnCb fd owner).Inv [] := by
  have owns : (s.registry [.removeConnCb fd owner]).handle owner = some fd :=
    handle_eq_some.mpr inv.removal_owns
  have made : owner ∉ (s.registry [.removeConnCb fd owner]).making := by
    rw [mem_making, stack]
    exact List.not_mem_nil
  have leavingInHand : (s.registry [.removeConnCb fd owner]).leaving =
      owner :: (s.registry []).leaving := by
    simp only [registry, stack]
    rfl
  have sound : { s.registry [.removeConnCb fd owner] with
      leaving := owner :: (s.registry []).leaving }.Sound maxConnNum := by
    rw [← leavingInHand]
    exact inv.sound
  have removed := sound.removed owns made
  have handles : (fun id => ((s.without fd owner).conns id).map ServerConn.fd) =
      Function.update (s.registry [.removeConnCb fd owner]).handle owner none :=
    Function.comp_update (Option.map ServerConn.fd) s.conns owner none
  have stays {other : Nat} (different : other ≠ fd) :
      (s.without fd owner).isOpen other = s.isOpen other :=
    Function.update_of_ne different _ _
  -- a connection of the next state is an old one, with another descriptor
  have before {id : Nat} {found : ServerConn pool}
      (has : (s.without fd owner).conns id = some found) :
      s.conns id = some found ∧ found.fd ≠ fd := by
    obtain ⟨different, had⟩ := Table.of_update_none has
    refine ⟨had, fun sameFd => different ?_⟩
    exact inv.sound.distinct (handle_eq_some.mpr ⟨found, had, sameFd⟩) owns
  have steady : (s.without fd owner).Steady :=
    { inv.toSteady with
      onMain := Table.forall_update_none inv.onMain
      fresh := by
        intro id later
        apply Option.eq_none_iff_forall_ne_some.mpr
        intro found has
        cases (inv.fresh id later).symm.trans (before has).1
      ownedOpen := by
        intro id found has
        rw [stays (before has).2]
        exact inv.ownedOpen id found (before has).1
      own := by
        intro removal logged
        rcases List.mem_append.mp logged with earlier | now
        · exact inv.own removal earlier
        · rw [List.mem_singleton.mp now] }
  rw [inv.removeConnCb_eq stack]
  refine ⟨steady, ?_, ?_, ?_, ?_, ?_, ?_⟩
  · change Registry.Sound ⟨fun id => ((s.without fd owner).conns id).map ServerConn.fd,
      _, _, _, _⟩ maxConnNum
    rw [handles]
    exact removed
  · intro other isLoose
    rw [stays]
    · exact inv.looseOpen other isLoose
    · rintro rfl
      exact inv.sound.loose_free other isLoose owner owns
  · intro id leavesStill found has
    refine inv.closed id ?_ found (before has).1
    rw [leavingInHand]
    exact List.mem_cons_of_mem owner leavesStill
  · intro cb queued pair isPair found has
    exact inv.ownFd cb (List.mem_cons_of_mem _ queued) pair isPair found (before has).1
  · change ∀ frame ∈ s.main.stack, _
    rw [stack]
    exact fun _ isFrame => absurd isFrame List.not_mem_nil
  · change ∀ report ∈ s.main.phase.reports, _
    rw [reports]
    exact fun _ isReport => absurd isReport List.not_mem_nil

/-! ## The functions of the connections -/

theorem setConn_has (s : TCPServer pool) (id : Nat) (conn : ServerConn pool) :
    (s.setConn id conn).conns id = some conn :=
  Function.update_self ..

/-- A thread enters functions of a connection that neither construct nor close it. -/
theorem Inv.enter {s : TCPServer pool} {hand : List ServerCallback} (inv : s.Inv hand)
    {id : Nat} {conn : ServerConn pool} (has : s.conns id = some conn)
    {frames : List ServerFrame} (making : frames.filterMap ServerFrame.constructed = [])
    (closing : frames.filterMap ServerFrame.closed = [])
    (frame_conn : ∀ frame ∈ frames, frame.conn = id) :
    (s.enter s.mainLoop frames).Inv hand := by
  refine inv.setStack ?_ ?_ ?_
  · rw [List.filterMap_append, making]
    rfl
  · rw [List.filterMap_append, closing]
    rfl
  · intro frame isFrame
    rcases List.mem_append.mp isFrame with entered | before
    · rw [frame_conn frame entered, has]
      exact Option.some_ne_none conn
    · exact inv.used frame before

/-- The same for a connection that changes first. -/
theorem Inv.setConnEnter {s : TCPServer pool} {hand : List ServerCallback} (inv : s.Inv hand)
    {id : Nat} {conn next : ServerConn pool} (has : s.conns id = some conn)
    (fd : next.fd = conn.fd) (loop : next.loop = conn.loop)
    (state : conn.conn.state = .fullClose → next.conn.state = .fullClose)
    {frames : List ServerFrame} (making : frames.filterMap ServerFrame.constructed = [])
    (closing : frames.filterMap ServerFrame.closed = [])
    (frame_conn : ∀ frame ∈ frames, frame.conn = id) :
    ((s.setConn id next).enter s.mainLoop frames).Inv hand :=
  (inv.setConn has fd loop state).enter (setConn_has s id next) making closing frame_conn

/-- `full_close` -/
theorem Inv.fullClose {s : TCPServer pool} {hand : List ServerCallback} (inv : s.Inv hand)
    {id : Nat} {conn : ServerConn pool} (has : s.conns id = some conn) :
    (s.fullClose s.mainLoop id conn).Inv hand := by
  have stays (next : ServerConn pool) (frame : ServerFrame) (isFrame : frame ∈ s.main.stack) :
      (s.setConn id next).conns frame.conn ≠ none := by
    by_cases same : frame.conn = id
    · rw [same, setConn_has]
      exact Option.some_ne_none next
    · change Function.update s.conns id (some next) frame.conn ≠ none
      rw [Function.update_of_ne same]
      exact inv.used frame isFrame
  have isId (next : ServerConn pool) : (s.setConn id next).conns id ≠ none := by
    rw [setConn_has]
    exact Option.some_ne_none next
  rw [TCPServer.fullClose]
  split
  · next opened =>
      split
      · refine inv.told has opened ?_ ?_ ?_ ?_ ?_ ?_
        · rfl
        · rfl
        · rfl
        · rfl
        · rfl
        · intro frame isFrame
          simp only [List.cons_append, List.nil_append, List.mem_cons] at isFrame
          rcases isFrame with rfl | rfl | before
          · exact isId _
          · exact isId _
          · exact stays _ frame before
      · refine inv.told has opened ?_ ?_ ?_ ?_ ?_ ?_
        · rfl
        · rfl
        · rfl
        · rfl
        · rfl
        · intro frame isFrame
          rcases List.mem_cons.mp isFrame with rfl | before
          · exact isId _
          · exact stays _ frame before
  · exact inv.fail rfl

theorem Inv.finish {s : TCPServer pool} {hand : List ServerCallback} (inv : s.Inv hand)
    {id : Nat} {conn : ServerConn pool} (has : s.conns id = some conn)
    {result : Except Assertion TCPConnection}
    (state : ∀ after, result = .ok after → conn.conn.state = .fullClose →
      after.state = .fullClose) :
    (s.finish id conn result).Inv hand := by
  cases result with
  | ok after => exact inv.setConn has rfl rfl (state after rfl)
  | error assertion => exact inv.fail rfl

/-- No call succeeds on a connection that is closed. -/
theorem Inv.finish_call {s : TCPServer pool} {hand : List ServerCallback} (inv : s.Inv hand)
    {id : Nat} {conn : ServerConn pool} (has : s.conns id = some conn) (call : UserCall) :
    (s.finish id conn (conn.conn.call call)).Inv hand := by
  apply inv.finish has
  intro after called closed
  cases call <;>
    simp [TCPConnection.call, TCPConnection.sendData, TCPConnection.popData,
      TCPConnection.popDataLen, TCPConnection.halfClose, TCPConnection.fullClose, closed] at called

theorem Inv.userCall {s : TCPServer pool} {hand : List ServerCallback} (inv : s.Inv hand)
    {id : Nat} {conn : ServerConn pool} (has : s.conns id = some conn) (call : UserCall) :
    (s.userCall s.mainLoop id conn call).Inv hand := by
  cases call with
  | sendData msg =>
      rw [TCPServer.userCall]
      split
      · exact inv.fullClose has
      · exact inv.finish_call has (.sendData msg)
  | popData => exact inv.finish_call has .popData
  | popDataLen len => exact inv.finish_call has (.popDataLen len)
  | halfClose => exact inv.finish_call has .halfClose
  | fullClose => exact inv.fullClose has

/-- What was read is dropped when there is no `message_cb`. -/
theorem handleRead_state {conn after : TCPConnection} {byte : UInt8} {bytes : Bytes}
    (dropped : conn.handleRead (.data (byte :: bytes)) none = .ok after) :
    after.state = conn.state := by
  simp only [TCPConnection.handleRead] at dropped
  split at dropped
  · cases dropped
    rfl
  · cases dropped

theorem Inv.handleRead {s : TCPServer pool} {hand : List ServerCallback} (inv : s.Inv hand)
    {id : Nat} {conn : ServerConn pool} (has : s.conns id = some conn) (read : ReadResult) :
    (s.handleRead s.mainLoop id conn read).Inv hand := by
  obtain ⟨received, isReceived⟩ : ∃ received : ServerConn pool, received = { conn with
      conn := { conn.conn with readBuf := (conn.conn.readBuf.pushFrom read).2 } } := ⟨_, rfl⟩
  have sameState : received.conn.state = conn.conn.state := by
    rw [isReceived]
  have receivedInv : (s.setConn id received).Inv hand := by
    refine inv.setConn has ?_ ?_ fun closed => sameState.trans closed
    · rw [isReceived]
    · rw [isReceived]
  have reading : ((s.setConn id received).enter s.mainLoop [.handleRead id]).Inv hand :=
    receivedInv.enter (setConn_has s id received) rfl rfl (by simp [ServerFrame.conn])
  have hasReading : ((s.setConn id received).enter s.mainLoop [.handleRead id]).conns id =
      some received := setConn_has s id received
  simp only [TCPServer.handleRead, ← isReceived]
  split
  · split
    · exact reading.enter hasReading rfl rfl (by simp [ServerFrame.conn])
    · apply reading.finish hasReading
      intro after dropped closed
      rw [handleRead_state dropped, ← sameState]
      exact closed
  · exact reading
  · exact reading
  · exact reading.fullClose hasReading
  · exact reading.fullClose hasReading

theorem Inv.handleWrite {s : TCPServer pool} {hand : List ServerCallback} (inv : s.Inv hand)
    {id : Nat} {conn : ServerConn pool} (has : s.conns id = some conn) (write : WriteResult) :
    (s.handleWrite s.mainLoop id conn write).Inv hand := by
  obtain ⟨sent, isSent⟩ : ∃ sent : ServerConn pool, sent = { conn with
      conn := { conn.conn with writeBuf := (conn.conn.writeBuf.popTo write).2 } } := ⟨_, rfl⟩
  have sameState : sent.conn.state = conn.conn.state := by
    rw [isSent]
  have sameFd : sent.fd = conn.fd := by
    rw [isSent]
  have sameLoop : sent.loop = conn.loop := by
    rw [isSent]
  have writing : ((s.setConn id sent).enter s.mainLoop [.handleWrite id false]).Inv hand :=
    (inv.setConn has sameFd sameLoop fun closed => sameState.trans closed).enter
      (setConn_has s id sent) rfl rfl (by simp [ServerFrame.conn])
  have hasWriting : ((s.setConn id sent).enter s.mainLoop [.handleWrite id false]).conns id =
      some sent := setConn_has s id sent
  simp only [TCPServer.handleWrite, ← isSent]
  split
  · split
    · split
      · split
        · refine inv.setConnEnter has ?_ ?_ ?_ ?_ ?_ ?_
          · rfl
          · rfl
          · exact fun closed => closed
          · rfl
          · rfl
          · simp [ServerFrame.conn]
        · refine inv.setConnEnter has ?_ ?_ ?_ ?_ ?_ ?_
          · rfl
          · rfl
          · exact fun closed => closed
          · rfl
          · rfl
          · simp [ServerFrame.conn]
      · split
        · exact writing.enter hasWriting rfl rfl (by simp [ServerFrame.conn])
        · exact writing
    · exact writing
    · exact writing
    · exact writing.fullClose hasWriting
    · exact writing
  · exact inv.fail rfl

theorem withConn_has {s : TCPServer pool} {id : Nat} {conn : ServerConn pool}
    (has : s.conns id = some conn) (use : ServerConn pool → Option (TCPServer pool)) :
    s.withConn id use = use conn := by
  rw [withConn, has]

/-! ## All runs -/

theorem Inv.createConn {s : TCPServer pool} {fd : Nat} (inv : s.Inv [.createConnCb fd])
    (stack : s.main.stack = []) : (s.createConn s.mainLoop fd).Inv [] := by
  rw [TCPServer.createConn, addCallback]
  split
  · exact inv.createConnCb stack
  · exact inv.addCallbackAfter rfl

theorem Inv.removeConn {s : TCPServer pool} {fd owner : Nat}
    (inv : s.Inv [.removeConn fd owner]) (stack : s.main.stack = [])
    (reports : s.main.phase.reports = []) : (s.removeConn s.mainLoop fd owner).Inv [] := by
  rw [TCPServer.removeConn, addCallback]
  split
  · exact inv.renamed.removeConnCb stack reports
  · exact inv.renamed.addCallbackAfter rfl

theorem Inv.acceptorHandleRead {s next : TCPServer pool} (inv : s.Inv [])
    (stack : s.main.stack = []) {accepted : Option Nat}
    (handled : s.acceptorHandleRead s.mainLoop accepted = some next) : next.Inv [] := by
  cases accepted with
  | none =>
      cases handled
      exact inv.fail rfl
  | some fd =>
      obtain ⟨notOpen, rfl⟩ := of_guarded handled
      exact (inv.accepted notOpen).createConn stack

/-- Only the main loop has frames, callbacks and reports of the server. -/
theorem Inv.isMain {s : TCPServer pool} {hand : List ServerCallback} (inv : s.Inv hand)
    {thread : Fin pool.nThread} (busy : ¬ Idle (s.loops thread)) : thread = s.mainLoop := by
  by_contra other
  exact busy (inv.idle thread other)

theorem Inv.isMain_of_now {s : TCPServer pool} {hand : List ServerCallback} (inv : s.Inv hand)
    {thread : Fin pool.nThread} {cb : ServerCallback} {rest : List ServerCallback}
    (now : (s.loops thread).phase.now = cb :: rest) : thread = s.mainLoop := by
  apply inv.isMain
  intro idle
  have queue := idle.queue
  rw [CallbackLoop.queue, now] at queue
  cases queue

/-- A thread in a function of a connection is the main one, and the connection exists. -/
theorem Inv.frameConn {s : TCPServer pool} {hand : List ServerCallback} (inv : s.Inv hand)
    {thread : Fin pool.nThread} {frame : ServerFrame} {rest : List ServerFrame}
    (stack : (s.loops thread).stack = frame :: rest) :
    thread = s.mainLoop ∧ ∃ conn, s.conns frame.conn = some conn := by
  have isMain : thread = s.mainLoop := inv.isMain fun idle => by
    rw [idle.stack] at stack
    cases stack
  subst isMain
  exact ⟨rfl, Option.ne_none_iff_exists'.mp
    (inv.used frame (by rw [main, stack]; exact List.mem_cons_self))⟩

/-- The innermost function of a thread returns. -/
theorem Inv.leave {s next : TCPServer pool} (inv : s.Inv []) {thread : Fin pool.nThread}
    (left : s.leave thread = some next) : next.Inv [] := by
  have leaves {frame : ServerFrame} {rest : List ServerFrame}
      (stack : s.main.stack = frame :: rest) (making : frame.constructed = none)
      (closing : frame.closed = none) : (s.setStack s.mainLoop rest).Inv [] := by
    refine inv.setStack ?_ ?_ ?_
    · rw [stack, List.filterMap_cons_none making]
    · rw [stack, List.filterMap_cons_none closing]
    · intro other isFrame
      exact inv.used other (by rw [stack]; exact List.mem_cons_of_mem _ isFrame)
  rw [TCPServer.leave] at left
  split at left
  · next id rest stack =>
      obtain ⟨rfl, conn, has⟩ := inv.frameConn stack
      rw [withConn_has (show (s.setStack s.mainLoop rest).conns id = some conn from has)] at left
      cases left
      exact inv.store has stack
  · next id rest stack =>
      obtain ⟨rfl, conn, has⟩ := inv.frameConn stack
      rw [withConn_has (show (s.setStack s.mainLoop rest).conns id = some conn from has)] at left
      obtain ⟨-, rfl⟩ := of_guarded left
      exact leaves stack rfl rfl
  · next id rest stack =>
      obtain ⟨rfl, conn, has⟩ := inv.frameConn stack
      rw [withConn_has (show (s.setStack s.mainLoop rest).conns id = some conn from has)] at left
      cases left
      exact (leaves stack rfl rfl).setConn has rfl rfl fun closed => closed
  · next id lower rest stack =>
      obtain ⟨rfl, conn, has⟩ := inv.frameConn stack
      rw [withConn_has (show (s.setStack s.mainLoop rest).conns id = some conn from has)] at left
      cases left
      split
      · exact (leaves stack rfl rfl).setConn has rfl rfl fun closed => closed
      · exact (leaves stack rfl rfl).setConn has rfl rfl fun closed => closed
  · next id rest stack =>
      obtain ⟨rfl, conn, has⟩ := inv.frameConn stack
      rw [withConn_has (show (s.setStack s.mainLoop rest).conns id = some conn from has)] at left
      cases left
      refine Inv.addCallbackAfter ?_ (inv.onMain id conn has)
      exact (inv.closes has stack).setConn has rfl rfl fun closed => closed
  · next cb id rest stack =>
      obtain ⟨rfl, -⟩ := inv.frameConn stack
      cases left
      exact leaves stack rfl rfl
  · cases left

theorem turn_eq_some {s next : TCPServer pool} {thread : Fin pool.nThread}
    {turn : Turn ServerReport ServerCallback} (taken : s.turn thread turn = some next) :
    (s.loops thread).stack = [] ∧
      ∃ turned, (s.loops thread).toCallbackLoop.step turn = some turned ∧
        s.setTurn thread turned = next :=
  of_guarded_map taken

/-- A step of `run` that is not about callbacks. -/
theorem Inv.turn {s next : TCPServer pool} (inv : s.Inv []) {thread : Fin pool.nThread}
    {turn : Turn ServerReport ServerCallback} (taken : s.turn thread turn = some next)
    (quiet : turn.quiet = true) (reports : ∀ report ∈ turn.reports, s.Reportable thread report) :
    next.Inv [] := by
  obtain ⟨-, turned, stepped, rfl⟩ := turn_eq_some taken
  apply inv.setTurn (CallbackLoop.queue_of_quiet stepped quiet)
  intro report isReport
  exact (CallbackLoop.mem_reports_of_step stepped isReport).imp_right (reports report)

/-- The main loop takes a callback, and has called nothing. -/
theorem Inv.callback {s taken : TCPServer pool} (inv : s.Inv [])
    (begun : s.turn s.mainLoop .callback = some taken) {cb : ServerCallback}
    {rest : List ServerCallback} (now : s.main.phase.now = cb :: rest) :
    taken.Inv [cb] ∧ taken.mainLoop = s.mainLoop ∧ taken.main.stack = [] ∧
      taken.main.phase.reports = [] := by
  obtain ⟨stack, turned, stepped, rfl⟩ := turn_eq_some begun
  obtain ⟨first, isNow, queue, reports⟩ := CallbackLoop.step_callback stepped
  cases (show first :: _ = cb :: rest from isNow.symm.trans now)
  have main : (s.setTurn s.mainLoop turned).main = { s.main with toCallbackLoop := turned } :=
    main_setLoop s _
  refine ⟨inv.takeCallback queue reports, rfl, ?_, ?_⟩
  · rw [main]
    exact stack
  · rw [main]
    exact reports

/-- The main loop comes to a report, and has called nothing. -/
theorem Inv.report {s taken : TCPServer pool} (inv : s.Inv [])
    (handled : s.turn s.mainLoop .report = some taken) :
    taken.Inv [] ∧ taken.mainLoop = s.mainLoop ∧ taken.main.stack = [] ∧
      taken.conns = s.conns := by
  have next := inv.turn handled rfl (by simp [Turn.reports])
  obtain ⟨stack, turned, -, rfl⟩ := turn_eq_some handled
  refine ⟨next, rfl, ?_, rfl⟩
  rw [show (s.setTurn s.mainLoop turned).main = { s.main with toCallbackLoop := turned } from
    main_setLoop s _]
  exact stack

theorem Inv.accept {s next : TCPServer pool} (inv : s.Inv []) {thread : Fin pool.nThread}
    {accepted : Option Nat} (acted : s.act thread (.accept accepted) = some next) :
    next.Inv [] := by
  simp only [TCPServer.act] at acted
  split at acted
  · next rest reports =>
      have isMain : thread = s.mainLoop := inv.isMain fun idle => by
        have none := idle.reports .acceptor (by rw [reports]; exact List.mem_cons_self)
        cases none
      subst isMain
      obtain ⟨taken, turned, handled⟩ := Option.bind_eq_some_iff.mp acted
      obtain ⟨takenInv, sameMain, stack, -⟩ := inv.report turned
      rw [← sameMain] at handled
      exact takenInv.acceptorHandleRead stack handled
  · cases acted

theorem Inv.handleEvent {s next : TCPServer pool} (inv : s.Inv []) {thread : Fin pool.nThread}
    (acted : s.act thread .handleEvent = some next) : next.Inv [] := by
  simp only [TCPServer.act] at acted
  split at acted
  · next id reported rest reports =>
      have first : .conn id reported ∈ (s.loops thread).phase.reports := by
        rw [reports]
        exact List.mem_cons_self
      have isMain : thread = s.mainLoop := inv.isMain fun idle => by
        cases idle.reports _ first
      subst isMain
      obtain ⟨taken, turned, handled⟩ := Option.bind_eq_some_iff.mp acted
      obtain ⟨takenInv, sameMain, -, sameConns⟩ := inv.report turned
      obtain ⟨conn, has⟩ := Option.ne_none_iff_exists'.mp (inv.reported _ first id rfl)
      rw [← sameConns] at has
      rw [withConn_has has] at handled
      cases handled
      rw [← sameMain]
      refine takenInv.setConnEnter has ?_ ?_ ?_ ?_ ?_ ?_
      · rfl
      · rfl
      · exact fun closed => closed
      · rfl
      · rfl
      · simp [ServerFrame.conn]
  · cases acted

theorem Inv.runCallback {s next : TCPServer pool} (inv : s.Inv []) {thread : Fin pool.nThread}
    (acted : s.act thread .callback = some next) : next.Inv [] := by
  simp only [TCPServer.act] at acted
  split at acted
  · next fd rest now =>
      obtain rfl := inv.isMain_of_now now
      obtain ⟨taken, begun, rfl⟩ := Option.map_eq_some_iff.mp acted
      obtain ⟨takenInv, sameMain, stack, -⟩ := inv.callback begun now
      rw [← sameMain]
      exact takenInv.createConnCb stack
  · next fd owner rest now =>
      obtain rfl := inv.isMain_of_now now
      obtain ⟨taken, begun, rfl⟩ := Option.map_eq_some_iff.mp acted
      obtain ⟨takenInv, sameMain, stack, reports⟩ := inv.callback begun now
      rw [← sameMain]
      exact takenInv.removeConn stack reports
  · next fd owner rest now =>
      obtain rfl := inv.isMain_of_now now
      obtain ⟨taken, begun, rfl⟩ := Option.map_eq_some_iff.mp acted
      obtain ⟨takenInv, -, stack, reports⟩ := inv.callback begun now
      exact takenInv.removeConnCb stack reports
  · cases acted

theorem Inv.act {s next : TCPServer pool} (inv : s.Inv []) {thread : Fin pool.nThread}
    {action : Action} (acted : s.act thread action = some next) : next.Inv [] := by
  cases action with
  | stop =>
      cases acted
      exact inv.setTurn rfl fun report before => Or.inl before
  | run => exact inv.turn acted rfl (by simp [Turn.reports])
  | test => exact inv.turn acted rfl (by simp [Turn.reports])
  | wake reports =>
      simp only [TCPServer.act] at acted
      split at acted
      · next reportable => exact inv.turn acted rfl reportable
      · cases acted
  | activated =>
      simp only [TCPServer.act] at acted
      split at acted
      · exact inv.turn acted rfl (by simp [Turn.reports])
      · cases acted
  | accept accepted => exact inv.accept acted
  | handleEvent => exact inv.handleEvent acted
  | read read =>
      simp only [TCPServer.act] at acted
      split at acted
      · next id rest stack =>
          obtain ⟨rfl, conn, has⟩ := inv.frameConn stack
          rw [withConn_has (show s.conns id = some conn from has)] at acted
          obtain ⟨-, rfl⟩ := of_guarded acted
          exact inv.handleRead has read
      · cases acted
  | write write =>
      simp only [TCPServer.act] at acted
      split at acted
      · next id rest stack =>
          obtain ⟨rfl, conn, has⟩ := inv.frameConn stack
          rw [withConn_has (show s.conns id = some conn from has)] at acted
          obtain ⟨-, rfl⟩ := of_guarded acted
          exact inv.handleWrite has write
      · cases acted
  | call id call =>
      simp only [TCPServer.act] at acted
      split at acted
      · next cb caller rest conn stack has =>
          obtain ⟨rfl, -⟩ := inv.frameConn stack
          obtain ⟨-, rfl⟩ := of_guarded acted
          exact inv.userCall has call
      · cases acted
  | leave => exact inv.leave acted
  | swap => exact inv.turn acted rfl (by simp [Turn.reports])
  | callback => exact inv.runCallback acted
  | callbacksEnd => exact inv.turn acted rfl (by simp [Turn.reports])

theorem Inv.step {s next : TCPServer pool} (inv : s.Inv []) {event : Event pool}
    (taken : s.step event = some next) : next.Inv [] := by
  rw [TCPServer.step] at taken
  split at taken
  · exact inv.act taken
  · cases taken

/-- The table is consistent in every state of every run. -/
theorem allConsistent (pool : EventloopPool) (userCb : UserCallback) (events : List (Event pool)) :
    AllStates step Consistent (new pool userCb) events :=
  allStates_of_invariant (Inv · []) (fun _ _ _ inv => inv.step) (fun _ inv => inv.consistent)
    events (new_inv pool userCb)

end TCPServer

end SimpleWebServer.Tcp
