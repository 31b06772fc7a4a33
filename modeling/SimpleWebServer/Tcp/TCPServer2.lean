import SimpleWebServer.Co.CoroutinePool

/-!
# The coroutine server

`TCPServer2` accepts connections in a coroutine of its last thread and starts a coroutine for
each of them on one of the other threads.  Above `max_conn_num` coroutines it is to turn
connections away: `accept_cb` closes the descriptor, and then goes on as for any other one.
-/

namespace SimpleWebServer.Tcp

open SimpleWebServer.Co SimpleWebServer.Lib.Runs

/-- An accepted connection; descriptors are used again, numbers are not. -/
structure Peer where
  number : Nat
  fd : Nat
  deriving DecidableEq, Repr

/-- Where `accept_cb` is in its loop. -/
inductive Accepting where
  /-- in `co_accept` -/
  | waiting
  /-- behind the test of `co_count`, before `add_callback` -/
  | handing (peer : Peer)
  /-- in `add_callback` -/
  | adding (peer : Peer)
  deriving DecidableEq, Repr

/-- A server with `others + 1` threads, of which the last one accepts. -/
structure TCPServer2 (others : Nat) where
  maxConnNum : Int
  pool : CoroutinePool (Fin (others + 1))
  iThread : Fin (others + 1) := 0
  /-- the coroutine of `accept_cb` -/
  acceptor : Coroutine := 0
  accepting : Accepting := .waiting
  /-- the connection that the callback of a coroutine was bound to -/
  coCb : Coroutine → Option Peer := fun _ => none
  accepted : Nat := 0
  /-- the connections that were closed at the limit -/
  closed : List Peer := []
  /-- the connections whose descriptor `user_cb` was called with -/
  served : List Peer := []

namespace TCPServer2

variable {others : Nat}

/-- The thread of `add_callback_to_main` -/
def mainThread : Fin (others + 1) := Fin.last others

/-- `i_thread = (i_thread + 1) % (n_thread - 1)`, for more than one thread -/
def nextThread (i : Fin (others + 1)) : Fin (others + 1) :=
  if several : others ≠ 0 then
    ⟨(i + 1) % others, Nat.lt_succ_of_lt (Nat.mod_lt _ (Nat.pos_of_ne_zero several))⟩
  else i

/-- The pool behind `add_callback_to_main` in `run`. -/
def startPool : CoroutinePool (Fin (others + 1)) :=
  let taken := CoroutinePool.new.getChannel mainThread mainThread
  { (taken.setCallback mainThread mainThread 0).push mainThread 0 with
    adding := fun _ => .outside }

/-- `run`, when the threads of the pool have started -/
def start (others : Nat) (maxConnNum : Int) : TCPServer2 others where
  maxConnNum := maxConnNum
  pool := startPool

/-- `co_accept` returns `fd`, and the test of `co_count` -/
def accept (s : TCPServer2 others) (fd : Nat) : TCPServer2 others :=
  let peer : Peer := ⟨s.accepted, fd⟩
  { s with
    accepted := s.accepted + 1
    accepting := .handing peer
    closed := if s.maxConnNum ≤ s.pool.count then s.closed ++ [peer] else s.closed }

/-- The connection that `thread` serves when it resumes a coroutine for the first time. -/
def startedBy (s : TCPServer2 others) (thread : Fin (others + 1)) : Option Peer :=
  match s.pool.readyQueue thread with
  | [] => none
  | co :: _ => if s.pool.preCo co = none then s.coCb co else none

inductive Event (others : Nat) where
  /-- `co_accept` returns a descriptor to `accept_cb` -/
  | accept (fd : Nat)
  /-- `get_channel` in the `add_callback` of `accept_cb` -/
  | getChannel
  /-- `set_callback` there -/
  | setCallback
  /-- the rest of `add_callback` -/
  | pushBack
  /-- `schedule_co` for a coroutine of the thread -/
  | scheduleCo (thread : Fin (others + 1)) (co : Coroutine)
  /-- `handle_co` resumes a coroutine -/
  | resume (thread : Fin (others + 1))
  /-- the coroutine of the thread waits -/
  | yield (thread : Fin (others + 1))
  /-- `user_cb` returns and the coroutine is given back -/
  | erase (thread : Fin (others + 1))
  /-- the last yield of the coroutine -/
  | finalYield (thread : Fin (others + 1))
  deriving DecidableEq, Repr

/-- A step of the coroutine pool -/
def onPool (s : TCPServer2 others) (event : CoroutinePool.Event (Fin (others + 1))) :
    Option (TCPServer2 others) :=
  (s.pool.step event).map fun pool => { s with pool := pool }

/-- One step of one thread; `accept_cb` waits only in `co_accept`, and never returns. -/
def step (s : TCPServer2 others) : Event others → Option (TCPServer2 others)
  | .accept fd =>
      if s.accepting = .waiting ∧ s.pool.context mainThread = .body s.acceptor ∧ 0 < fd then
        some (s.accept fd)
      else none
  | .getChannel =>
      match s.accepting with
      | .handing peer =>
          { s with accepting := .adding peer }.onPool (.getChannel mainThread s.iThread)
      | _ => none
  | .setCallback =>
      match s.accepting, s.pool.adding mainThread with
      | .adding peer, .resetting _ co =>
          { s with coCb := Function.update s.coCb co (some peer) }.onPool
            (.setCallback mainThread)
      | _, _ => none
  | .pushBack =>
      match s.accepting with
      | .adding _ =>
          { s with accepting := .waiting, iThread := nextThread s.iThread }.onPool
            (.pushBack mainThread)
      | _ => none
  | .scheduleCo thread co => s.onPool (.scheduleCo thread co)
  | .resume thread =>
      { s with served := s.served ++ (s.startedBy thread).toList }.onPool (.resume thread)
  | .yield thread =>
      if s.pool.context thread = .body s.acceptor → s.accepting = .waiting then
        s.onPool (.yield thread)
      else none
  | .erase thread =>
      if s.pool.context thread ≠ .body s.acceptor then s.onPool (.erase thread) else none
  | .finalYield thread => s.onPool (.finalYield thread)

/-- Closed connections are not served, and the pool hands out no more than the limit. -/
def Admits (s : TCPServer2 others) : Prop :=
  (∀ peer ∈ s.closed, peer ∉ s.served) ∧ s.pool.count ≤ s.maxConnNum

instance : DecidablePred (@Admits others) := fun s =>
  inferInstanceAs (Decidable ((∀ peer ∈ s.closed, peer ∉ s.served) ∧
    s.pool.count ≤ s.maxConnNum))

/-- The condition on a step: a connection comes while there is room. -/
def BelowLimit (s : TCPServer2 others) : Event others → Prop
  | .accept _ => s.pool.count < s.maxConnNum
  | _ => True

instance (s : TCPServer2 others) : DecidablePred s.BelowLimit
  | .accept _ => inferInstanceAs (Decidable (s.pool.count < s.maxConnNum))
  | .getChannel => .isTrue trivial
  | .setCallback => .isTrue trivial
  | .pushBack => .isTrue trivial
  | .scheduleCo _ _ => .isTrue trivial
  | .resume _ => .isTrue trivial
  | .yield _ => .isTrue trivial
  | .erase _ => .isTrue trivial
  | .finalYield _ => .isTrue trivial

/-! ## What a step does -/

theorem of_onPool {s next : TCPServer2 others} {event : CoroutinePool.Event (Fin (others + 1))}
    (taken : s.onPool event = some next) :
    ∃ pool, s.pool.step event = some pool ∧ next = { s with pool := pool } := by
  obtain ⟨pool, stepped, rfl⟩ := Option.map_eq_some_iff.mp taken
  exact ⟨pool, stepped, rfl⟩

theorem of_getChannel {s next : TCPServer2 others} (taken : s.step .getChannel = some next) :
    ∃ peer, s.accepting = .handing peer ∧
      { s with accepting := .adding peer }.onPool (.getChannel mainThread s.iThread) =
        some next := by
  simp only [step] at taken
  split at taken
  · next peer handing => exact ⟨peer, handing, taken⟩
  · cases taken

theorem of_setCallback {s next : TCPServer2 others} (taken : s.step .setCallback = some next) :
    ∃ peer co, s.accepting = .adding peer ∧
      { s with coCb := Function.update s.coCb co (some peer) }.onPool (.setCallback mainThread) =
        some next := by
  simp only [step] at taken
  split at taken
  · next peer scheduler co adding resetting => exact ⟨peer, co, adding, taken⟩
  · cases taken

theorem of_pushBack {s next : TCPServer2 others} (taken : s.step .pushBack = some next) :
    { s with accepting := .waiting, iThread := nextThread s.iThread }.onPool
      (.pushBack mainThread) = some next := by
  simp only [step] at taken
  split at taken
  · exact taken
  · cases taken

theorem of_yield {s next : TCPServer2 others} {thread : Fin (others + 1)}
    (taken : s.step (.yield thread) = some next) : s.onPool (.yield thread) = some next := by
  simp only [step] at taken
  split at taken
  · exact taken
  · cases taken

theorem of_erase {s next : TCPServer2 others} {thread : Fin (others + 1)}
    (taken : s.step (.erase thread) = some next) : s.onPool (.erase thread) = some next := by
  simp only [step] at taken
  split at taken
  · exact taken
  · cases taken

/-! ## Below the limit -/

/-- While every connection finds room: nothing is closed, and the next coroutine has its place. -/
structure Inv (s : TCPServer2 others) : Prop where
  closed : s.closed = []
  count : s.pool.count ≤ s.maxConnNum
  room : ∀ peer, s.accepting = .handing peer → s.pool.count < s.maxConnNum

theorem Inv.admits {s : TCPServer2 others} (inv : s.Inv) : s.Admits := by
  refine ⟨fun peer listed => ?_, inv.count⟩
  rw [inv.closed] at listed
  exact absurd listed List.not_mem_nil

theorem start_inv {maxConnNum : Int} (positive : 1 ≤ maxConnNum) :
    (start others maxConnNum).Inv := by
  refine ⟨rfl, positive, fun peer handing => ?_⟩
  cases handing

/-- A step of the pool that hands out nothing. -/
theorem Inv.onPool {s next : TCPServer2 others} (inv : s.Inv)
    {event : CoroutinePool.Event (Fin (others + 1))}
    (other : ∀ thread scheduler, event ≠ .getChannel thread scheduler)
    (taken : s.onPool event = some next) : next.Inv := by
  obtain ⟨pool, stepped, rfl⟩ := of_onPool taken
  have fewer := CoroutinePool.step_count_le other stepped
  exact ⟨inv.closed, Int.le_trans fewer inv.count,
    fun peer handing => Int.lt_of_le_of_lt fewer (inv.room peer handing)⟩

theorem Inv.step {s next : TCPServer2 others} {event : Event others} (inv : s.Inv)
    (below : s.BelowLimit event) (taken : s.step event = some next) : next.Inv := by
  cases event with
  | accept fd =>
      obtain ⟨-, rfl⟩ := of_guarded taken
      have open_ : ¬ s.maxConnNum ≤ s.pool.count := Int.not_le.mpr below
      refine ⟨?_, inv.count, fun _ _ => below⟩
      rw [accept, if_neg open_]
      exact inv.closed
  | getChannel =>
      obtain ⟨peer, handing, added⟩ := of_getChannel taken
      obtain ⟨pool, stepped, rfl⟩ := of_onPool added
      obtain ⟨-, rfl⟩ := of_guarded stepped
      have room := inv.room peer handing
      refine ⟨inv.closed, ?_, fun other now => ?_⟩
      · exact room
      · cases now
  | setCallback =>
      obtain ⟨peer, co, -, reset⟩ := of_setCallback taken
      have bound : { s with coCb := Function.update s.coCb co (some peer) }.Inv :=
        ⟨inv.closed, inv.count, inv.room⟩
      exact bound.onPool (by simp) reset
  | pushBack =>
      have returned : { s with accepting := .waiting, iThread := nextThread s.iThread }.Inv :=
        ⟨inv.closed, inv.count, fun _ handing => Accepting.noConfusion handing⟩
      exact returned.onPool (by simp) (of_pushBack taken)
  | scheduleCo thread co => exact inv.onPool (by simp) taken
  | resume thread =>
      have served : { s with served := s.served ++ (s.startedBy thread).toList }.Inv :=
        ⟨inv.closed, inv.count, inv.room⟩
      exact served.onPool (by simp) taken
  | yield thread => exact inv.onPool (by simp) (of_yield taken)
  | erase thread => exact inv.onPool (by simp) (of_erase taken)
  | finalYield thread => exact inv.onPool (by simp) taken

/-- A server that has a coroutine for `accept_cb`, and then room whenever a connection comes. -/
theorem admits_of_belowLimit {maxConnNum : Int} (positive : 1 ≤ maxConnNum)
    (events : List (Event others))
    (below : StepsMeet step BelowLimit (start others maxConnNum) events) :
    AllStates step Admits (start others maxConnNum) events :=
  allStates_of_stepsMeet Inv (fun _ _ _ inv met taken => inv.step met taken)
    (fun _ inv => inv.admits) events (start_inv positive) below

/-- A connection on the other thread, which ends before the next one comes. -/
def reusingRun : List (Event 1) :=
  [.resume 1, .accept 5, .getChannel, .setCallback, .pushBack, .resume 0, .erase 0,
    .finalYield 0, .accept 6, .getChannel]

/-- With room for two coroutines the server admits one after the other. -/
theorem admits_of_belowLimit_reusingRun : (1 : Int) ≤ 2 ∧
    AllStates step Admits (start 1 2) reusingRun :=
  ⟨by decide, admits_of_belowLimit (by decide) reusingRun (by decide +kernel)⟩

/-- A connection that comes at the limit is closed, and served. -/
def fullRun : List (Event 0) :=
  [.resume mainThread, .accept 5, .getChannel, .setCallback, .pushBack, .yield mainThread,
    .resume mainThread]

theorem fullRun_serves_closed :
    ¬ ∀ (others : Nat) (maxConnNum : Int) (events : List (Event others)), 1 ≤ maxConnNum →
      AllStates step Admits (start others maxConnNum) events := by
  intro all
  have served : ∃ last, runFrom step (start 0 1) fullRun = some last ∧
      ¬ ∀ peer ∈ last.closed, peer ∉ last.served := ⟨_, rfl, by decide +kernel⟩
  obtain ⟨last, run, both⟩ := served
  exact both ((all 0 1 fullRun (by decide)).last run).1

/-! ## At the limit -/

/-- Outside `add_callback` the thread of `accept_cb` is in none. -/
def Outside (s : TCPServer2 others) : Prop :=
  (∀ peer, s.accepting ≠ .adding peer) → s.pool.adding mainThread = .outside

theorem start_outside (maxConnNum : Int) : (start others maxConnNum).Outside := fun _ => rfl

theorem Outside.onPool {s next : TCPServer2 others} (outside : s.Outside)
    {event : CoroutinePool.Event (Fin (others + 1))}
    (other : ∀ thread, (∀ scheduler, event ≠ .getChannel thread scheduler) ∧
      event ≠ .setCallback thread ∧ event ≠ .pushBack thread)
    (taken : s.onPool event = some next) : next.Outside := by
  obtain ⟨pool, stepped, rfl⟩ := of_onPool taken
  intro apart
  change pool.adding mainThread = .outside
  rw [CoroutinePool.step_adding other stepped]
  exact outside apart

theorem Outside.step {s next : TCPServer2 others} {event : Event others} (outside : s.Outside)
    (taken : s.step event = some next) : next.Outside := by
  cases event with
  | accept fd =>
      obtain ⟨⟨waiting, -⟩, rfl⟩ := of_guarded taken
      refine fun _ => outside fun peer adding => ?_
      rw [waiting] at adding
      cases adding
  | getChannel =>
      obtain ⟨peer, -, added⟩ := of_getChannel taken
      obtain ⟨pool, -, rfl⟩ := of_onPool added
      exact fun apart => absurd rfl (apart peer)
  | setCallback =>
      obtain ⟨peer, co, adding, reset⟩ := of_setCallback taken
      obtain ⟨pool, -, rfl⟩ := of_onPool reset
      exact fun apart => absurd adding (apart peer)
  | pushBack =>
      obtain ⟨pool, stepped, rfl⟩ := of_onPool (of_pushBack taken)
      obtain ⟨scheduler, co, -, rfl⟩ := CoroutinePool.of_pushBack stepped
      exact fun _ => Function.update_self ..
  | scheduleCo thread co => exact outside.onPool (by simp) taken
  | resume thread =>
      have served : { s with served := s.served ++ (s.startedBy thread).toList }.Outside := outside
      exact served.onPool (by simp) taken
  | yield thread => exact outside.onPool (by simp) (of_yield taken)
  | erase thread => exact outside.onPool (by simp) (of_erase taken)
  | finalYield thread => exact outside.onPool (by simp) taken

/-- Without room for the coroutine of `accept_cb` the limit is exceeded from the start. -/
theorem not_admits_start {maxConnNum : Int} (small : ¬ 1 ≤ maxConnNum) :
    ¬ (start others maxConnNum).Admits :=
  fun admits => small admits.2

/-- A connection that comes at the limit makes the pool hand out one coroutine too many. -/
theorem reaches_of_full {maxConnNum : Int} {events : List (Event others)}
    {s next : TCPServer2 others}
    (run : runFrom step (start others maxConnNum) events = some s) {fd : Nat}
    (taken : s.step (.accept fd) = some next) (full : ¬ s.BelowLimit (.accept fd)) :
    Reaches step (fun last => ¬ last.Admits) next := by
  have outside : next.Outside :=
    (runFrom_invariant Outside (fun _ _ _ outside taken => outside.step taken)
      (start_outside maxConnNum) run).step taken
  obtain ⟨-, rfl⟩ := of_guarded taken
  have here : (s.accept fd).pool.adding mainThread = .outside := outside (by simp [accept])
  have stepped : (s.accept fd).step .getChannel = some { s.accept fd with
      accepting := .adding ⟨s.accepted, fd⟩
      pool := s.pool.getChannel mainThread s.iThread } := by
    change TCPServer2.onPool _ _ = _
    rw [TCPServer2.onPool, CoroutinePool.step, if_pos here]
    rfl
  refine reaches_next stepped (reaches_now fun admits => ?_)
  have counted : s.pool.count + 1 ≤ s.maxConnNum := admits.2
  have atLimit : s.maxConnNum ≤ s.pool.count := Int.not_lt.mp full
  omega

/-! ## The pool below it -/

/-- A run of the server is a run of its coroutine pool. -/
theorem pool_run {events : List (Event others)} {s last : TCPServer2 others}
    (run : runFrom step s events = some last) :
    ∃ actions, runFrom CoroutinePool.step s.pool actions = some last.pool := by
  have ofPool {s before next : TCPServer2 others}
      {event : CoroutinePool.Event (Fin (others + 1))}
      (taken : before.onPool event = some next) (same : before.pool = s.pool) :
      ∃ action, s.pool.step action = some next.pool := by
    obtain ⟨pool, stepped, rfl⟩ := of_onPool taken
    exact ⟨event, same ▸ stepped⟩
  refine run_of_stutters (fun s : TCPServer2 others => s.pool) ?_ run
  intro s event next taken
  cases event with
  | accept fd =>
      obtain ⟨-, rfl⟩ := of_guarded taken
      exact Or.inl rfl
  | getChannel =>
      obtain ⟨peer, -, added⟩ := of_getChannel taken
      exact Or.inr (ofPool added rfl)
  | setCallback =>
      obtain ⟨peer, co, -, reset⟩ := of_setCallback taken
      exact Or.inr (ofPool reset rfl)
  | pushBack => exact Or.inr (ofPool (of_pushBack taken) rfl)
  | scheduleCo thread co => exact Or.inr (ofPool taken rfl)
  | resume thread => exact Or.inr (ofPool taken rfl)
  | yield thread => exact Or.inr (ofPool (of_yield taken) rfl)
  | erase thread => exact Or.inr (ofPool (of_erase taken) rfl)
  | finalYield thread => exact Or.inr (ofPool taken rfl)

end TCPServer2

end SimpleWebServer.Tcp
