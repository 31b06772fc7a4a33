import SimpleWebServer.Tcp.ConnMap

/-!
# The loops of the connections

`create_conn` asks the pool for the loop of each new connection, so that the connections are
spread over the threads.  `getLoop` computes the index behind `next_i` and does not write it
back: every call returns the same loop, that of the acceptor.
-/

namespace SimpleWebServer.Tcp

open SimpleWebServer.Reactor SimpleWebServer.Lib.Runs

/-- A server with the loops that `create_conn` has assigned, in order. -/
structure AssignRun (pool : EventloopPool) where
  server : TCPServer pool
  assigned : List (Fin pool.nThread) := []

namespace TCPServer

variable {pool : EventloopPool}

/-- The loop of the connection that a step to `next` constructs. -/
def assignedLoop (s next : TCPServer pool) : Option (Fin pool.nThread) :=
  if s.nextConn < next.nextConn then (next.conns s.nextConn).map ServerConn.loop else none

theorem assignedLoop_eq_getLoop {s next : TCPServer pool} (steady : next.Steady)
    {loop : Fin pool.nThread} (isAssigned : s.assignedLoop next = some loop) :
    loop = pool.getLoop := by
  rw [assignedLoop] at isAssigned
  split at isAssigned
  · obtain ⟨conn, has, rfl⟩ := Option.map_eq_some_iff.mp isAssigned
    exact (steady.onMain s.nextConn conn has).trans steady.mainLoop
  · cases isAssigned

end TCPServer

namespace AssignRun

variable {pool : EventloopPool}

def start (pool : EventloopPool) (userCb : UserCallback) : AssignRun pool where
  server := .new pool userCb

def step (s : AssignRun pool) (event : TCPServer.Event pool) : Option (AssignRun pool) :=
  (s.server.step event).map fun next =>
    { server := next, assigned := s.assigned ++ (s.server.assignedLoop next).toList }

/-- The numbers of connections on any two loops differ by at most one. -/
def Spread (s : AssignRun pool) : Prop :=
  ∀ loop other, s.assigned.count loop ≤ s.assigned.count other + 1

instance (s : AssignRun pool) : Decidable s.Spread :=
  inferInstanceAs (Decidable (∀ loop other, s.assigned.count loop ≤ s.assigned.count other + 1))

/-- All connections are on one loop. -/
structure OnOneLoop (s : AssignRun pool) : Prop where
  inv : s.server.Inv []
  one : ∀ loop ∈ s.assigned, loop = pool.getLoop

theorem OnOneLoop.step {s next : AssignRun pool} (onOne : s.OnOneLoop)
    {event : TCPServer.Event pool} (taken : s.step event = some next) : next.OnOneLoop := by
  obtain ⟨server, stepped, rfl⟩ := Option.map_eq_some_iff.mp taken
  have inv := onOne.inv.step stepped
  refine ⟨inv, fun loop member => ?_⟩
  rcases List.mem_append.mp member with before | new
  · exact onOne.one loop before
  · exact TCPServer.assignedLoop_eq_getLoop inv.toSteady (Option.mem_toList.mp new)

/-- With all connections on one loop, the others have none. -/
theorem OnOneLoop.spread_iff {s : AssignRun pool} (onOne : s.OnOneLoop) :
    s.Spread ↔ pool.nThread = 1 ∨ s.assigned.length ≤ 1 := by
  have all : s.assigned.count pool.getLoop = s.assigned.length :=
    List.count_eq_length.mpr fun loop member => (onOne.one loop member).symm
  constructor
  · intro spread
    by_contra uneven
    obtain ⟨several, many⟩ := not_or.mp uneven
    -- a second loop exists, and nothing has been assigned to it
    have second : 1 < pool.nThread := by
      have positive := pool.nThread_pos
      omega
    obtain ⟨other, differs⟩ : ∃ other, other ≠ pool.getLoop := by
      by_cases first : (⟨0, pool.nThread_pos⟩ : Fin pool.nThread) = pool.getLoop
      · exact ⟨⟨1, second⟩, fun same => by simpa using congrArg Fin.val (same.trans first.symm)⟩
      · exact ⟨_, first⟩
    have none : s.assigned.count other = 0 :=
      List.count_eq_zero.mpr fun member => differs (onOne.one other member)
    have bound := spread pool.getLoop other
    omega
  · rintro (single | few) loop other
    · have same : loop = other := Fin.ext (by omega)
      rw [same]
      exact Nat.le_succ _
    · have bound := List.count_le_length (a := loop) (l := s.assigned)
      omega

/--
In every state of every run the connections are spread over the loops exactly when there is
only one loop, or at most one connection was made.
-/
theorem allSpread_iff (pool : EventloopPool) (userCb : UserCallback)
    (events : List (TCPServer.Event pool)) :
    AllStates step (fun s => s.Spread ↔ pool.nThread = 1 ∨ s.assigned.length ≤ 1)
      (start pool userCb) events :=
  allStates_of_invariant OnOneLoop (fun _ _ _ onOne => onOne.step) (fun _ onOne => onOne.spread_iff)
    events ⟨TCPServer.new_inv pool userCb, fun _ member => absurd member List.not_mem_nil⟩

/-- Two loops. -/
def twoLoops : EventloopPool where
  nThread := 2
  nThread_pos := by decide

/-- The main loop accepts two connections, one in each turn. -/
def twoAccepted : List (TCPServer.Event twoLoops) :=
  [.run, .test, .wake [.acceptor], .accept (some 3), .leave, .swap, .callbacksEnd, .test,
    .wake [.acceptor], .accept (some 4), .leave].map fun action => ⟨twoLoops.getLoop, action⟩

/-- Both are on its loop. -/
theorem twoAccepted_not_spread :
    ¬ ∀ (pool : EventloopPool) (userCb : UserCallback) (events : List (TCPServer.Event pool)),
      AllStates step Spread (start pool userCb) events := by
  intro all
  have spread := all twoLoops ⟨false, false, false, false, false⟩ twoAccepted
  revert spread
  decide +kernel

end AssignRun

end SimpleWebServer.Tcp
