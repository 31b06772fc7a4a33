import Mathlib.Data.Int.CardIntervalMod
import SimpleWebServer.Tcp.TCPServer2

/-!
# What becomes of the connections

`CoroutineSchedulerEventLoopPool::add_callback` moves `i_thread` on behind each connection, and
never to the last thread, which is the one of `accept_cb`: the connections go to the other
threads in turn.  Whatever the threads do with the coroutines that they share, `user_cb` is
called once for a connection at most.
-/

namespace SimpleWebServer.Tcp

open SimpleWebServer.Co SimpleWebServer.Lib.Runs

/-- A server with the threads whose `ready_queue` the connections were put into, in order. -/
structure PeerRun (others : Nat) where
  server : TCPServer2 others
  assigned : List (Fin (others + 1)) := []

namespace TCPServer2

variable {others : Nat}

/-- The thread whose `ready_queue` a `push_back` in `add_callback` is for. -/
def handedTo (s : TCPServer2 others) : Option (Fin (others + 1)) :=
  match s.pool.adding mainThread with
  | .pushing scheduler _ => some scheduler
  | _ => none

end TCPServer2

namespace PeerRun

open TCPServer2

variable {others : Nat}

def step (s : PeerRun others) (event : TCPServer2.Event others) : Option (PeerRun others) :=
  (s.server.step event).map fun next =>
    match event with
    | .pushBack => { server := next, assigned := s.assigned ++ s.server.handedTo.toList }
    | _ => { s with server := next }

def start (others : Nat) (maxConnNum : Int) : PeerRun others where
  server := .start others maxConnNum

/-- The thread of the connection with a number; with one thread, all are on it. -/
def threadOf (others number : Nat) : Fin (others + 1) :=
  if several : others ≠ 0 then
    ⟨number % others, Nat.lt_succ_of_lt (Nat.mod_lt _ (Nat.pos_of_ne_zero several))⟩
  else ⟨0, Nat.succ_pos others⟩

theorem nextThread_threadOf (number : Nat) :
    nextThread (threadOf others number) = threadOf others (number + 1) := by
  unfold nextThread threadOf
  split
  · simp
  · rfl

/-- The connections go to the threads in turn, and `i_thread` is the next one. -/
structure InTurn (s : PeerRun others) : Prop where
  assigned : s.assigned = (List.range s.assigned.length).map (threadOf others)
  next : s.server.iThread = threadOf others s.assigned.length
  target : ∀ scheduler co, (s.server.pool.adding mainThread).target = some (scheduler, co) →
    scheduler = s.server.iThread

theorem start_inTurn (others : Nat) (maxConnNum : Int) : (start others maxConnNum).InTurn := by
  refine ⟨rfl, ?_, fun scheduler co target => nomatch target⟩
  change (0 : Fin (others + 1)) = threadOf others 0
  unfold threadOf
  split
  · simp
  · rfl

theorem InTurn.of_same {s : PeerRun others} (inTurn : s.InTurn) {server : TCPServer2 others}
    (iThread : server.iThread = s.server.iThread)
    (adding : server.pool.adding = s.server.pool.adding) : { s with server := server }.InTurn := by
  refine ⟨inTurn.assigned, iThread.trans inTurn.next, ?_⟩
  intro scheduler co target
  rw [adding] at target
  rw [iThread]
  exact inTurn.target scheduler co target

/-- A step of the pool in which no thread is in `add_callback`. -/
theorem InTurn.onPool {s : PeerRun others} (inTurn : s.InTurn) {before server : TCPServer2 others}
    {event : CoroutinePool.Event (Fin (others + 1))} (taken : before.onPool event = some server)
    (iThread : before.iThread = s.server.iThread) (pool : before.pool = s.server.pool)
    (other : ∀ thread, (∀ scheduler, event ≠ .getChannel thread scheduler) ∧
      event ≠ .setCallback thread ∧ event ≠ .pushBack thread) :
    { s with server := server }.InTurn := by
  obtain ⟨after, stepped, rfl⟩ := of_onPool taken
  exact inTurn.of_same iThread ((CoroutinePool.step_adding other stepped).trans
    (congrArg CoroutinePool.adding pool))

theorem InTurn.step {s next : PeerRun others} {event : TCPServer2.Event others}
    (inTurn : s.InTurn) (taken : s.step event = some next) : next.InTurn := by
  obtain ⟨server, stepped, rfl⟩ := Option.map_eq_some_iff.mp taken
  cases event with
  | accept fd =>
      obtain ⟨-, rfl⟩ := of_guarded stepped
      exact inTurn.of_same rfl rfl
  | getChannel =>
      obtain ⟨peer, -, added⟩ := of_getChannel stepped
      obtain ⟨pool, given, rfl⟩ := of_onPool added
      obtain ⟨-, rfl⟩ := of_guarded given
      refine ⟨inTurn.assigned, inTurn.next, ?_⟩
      intro scheduler co target
      simp only [CoroutinePool.getChannel, Function.update_self, Adding.target,
        Option.some.injEq, Prod.mk.injEq] at target
      exact target.1.symm
  | setCallback =>
      obtain ⟨peer, co, -, reset⟩ := of_setCallback stepped
      obtain ⟨pool, given, rfl⟩ := of_onPool reset
      obtain ⟨scheduler, other, resetting, rfl⟩ := CoroutinePool.of_setCallback given
      refine ⟨inTurn.assigned, inTurn.next, ?_⟩
      intro target co isTarget
      apply inTurn.target target co
      simp only [CoroutinePool.setCallback, Function.update_self, Adding.target] at isTarget
      exact (congrArg Adding.target resetting).trans isTarget
  | pushBack =>
      obtain ⟨pool, given, rfl⟩ := of_onPool (of_pushBack stepped)
      obtain ⟨scheduler, co, pushing, rfl⟩ := CoroutinePool.of_pushBack given
      change s.server.pool.adding mainThread = .pushing scheduler co at pushing
      have isNext : scheduler = threadOf others s.assigned.length :=
        (inTurn.target scheduler co (congrArg Adding.target pushing)).trans inTurn.next
      have handed : s.server.handedTo = some scheduler := by rw [handedTo, pushing]
      have grown : (s.assigned ++ s.server.handedTo.toList).length = s.assigned.length + 1 := by
        rw [handed, List.length_append]
        rfl
      refine ⟨?_, ?_, ?_⟩
      · change s.assigned ++ s.server.handedTo.toList = _
        rw [grown, handed, List.range_succ, List.map_append, ← inTurn.assigned, isNext]
        rfl
      · change nextThread s.server.iThread = threadOf others _
        rw [grown, inTurn.next, nextThread_threadOf]
      · intro target other isTarget
        simp only [Function.update_self, Adding.target] at isTarget
        cases isTarget
  | scheduleCo thread co => exact inTurn.onPool stepped rfl rfl (by simp)
  | resume thread =>
      have resumed : { s.server with
          served := s.server.served ++ (s.server.startedBy thread).toList }.onPool
            (.resume thread) = some server := stepped
      exact inTurn.onPool resumed rfl rfl (by simp)
  | yield thread => exact inTurn.onPool (of_yield stepped) rfl rfl (by simp)
  | erase thread => exact inTurn.onPool (of_erase stepped) rfl rfl (by simp)
  | finalYield thread => exact inTurn.onPool stepped rfl rfl (by simp)

/-- No connection is on the thread of `accept_cb`, and the others have as many up to one. -/
def Spread (s : PeerRun others) : Prop :=
  (others ≠ 0 → mainThread ∉ s.assigned) ∧
    ∀ thread other, thread ≠ mainThread → other ≠ mainThread →
      s.assigned.count thread ≤ s.assigned.count other + 1

theorem threadOf_eq_iff {number : Nat} {thread : Fin (others + 1)} (several : others ≠ 0) :
    threadOf others number = thread ↔ number % others = thread := by
  rw [threadOf, dif_pos several, Fin.ext_iff]

theorem InTurn.count_eq {s : PeerRun others} (inTurn : s.InTurn) (several : others ≠ 0)
    {thread : Fin (others + 1)} (notMain : thread ≠ mainThread) :
    s.assigned.count thread = s.assigned.length / others +
      if thread.val < s.assigned.length % others then 1 else 0 := by
  have below : thread.val < others := by
    have differs : thread.val ≠ others := fun same => notMain (Fin.ext same)
    omega
  have counted := Nat.count_modEq_card s.assigned.length (Nat.pos_of_ne_zero several) thread.val
  rw [Nat.mod_eq_of_lt below] at counted
  rw [← counted]
  conv_lhs => rw [inTurn.assigned]
  rw [List.count, List.countP_map, Nat.count]
  apply List.countP_congr
  intro number _
  simp only [Function.comp_apply, beq_iff_eq, decide_eq_true_eq, threadOf_eq_iff several,
    Nat.ModEq, Nat.mod_eq_of_lt below]

theorem InTurn.spread {s : PeerRun others} (inTurn : s.InTurn) : s.Spread := by
  constructor
  · intro several onMain
    rw [inTurn.assigned] at onMain
    obtain ⟨number, -, same⟩ := List.mem_map.mp onMain
    have turn := (threadOf_eq_iff several).mp same
    have below := Nat.mod_lt number (Nat.pos_of_ne_zero several)
    rw [turn] at below
    exact Nat.lt_irrefl _ below
  · intro thread other notMain otherNotMain
    by_cases several : others = 0
    · subst several
      exact absurd (Fin.ext (Nat.lt_one_iff.mp thread.isLt)) notMain
    · rw [inTurn.count_eq several notMain, inTurn.count_eq several otherNotMain]
      split_ifs <;> omega

/--
However the threads interleave, the connections are spread over the threads behind the one of
`accept_cb`.
-/
theorem allSpread (others : Nat) (maxConnNum : Int) (events : List (TCPServer2.Event others)) :
    AllStates step Spread (start others maxConnNum) events :=
  allStates_of_invariant InTurn (fun _ _ _ inTurn => inTurn.step) (fun _ inTurn => inTurn.spread)
    events (start_inTurn others maxConnNum)

end PeerRun

namespace TCPServer2

variable {others : Nat}

/-! ## The calls of `user_cb` -/

/-- The numbers of the connections that `user_cb` was called for -/
def calledFor (s : TCPServer2 others) : List Nat := s.served.map Peer.number

/-- `accept_cb` has a connection that no coroutine has been given. -/
def Holds (s : TCPServer2 others) (peer : Peer) : Prop :=
  s.accepting = .handing peer ∨ s.accepting = .adding peer ∧
    ∃ scheduler co, s.pool.adding mainThread = .resetting scheduler co

/-- No coroutine was given the connection, and `user_cb` was not called for it. -/
def Untouched (s : TCPServer2 others) (number : Nat) : Prop :=
  (∀ co peer, s.coCb co = some peer → peer.number ≠ number) ∧ number ∉ s.calledFor

/-- A connection is in one place, and a coroutine that has not begun is not served. -/
structure Once (s : TCPServer2 others) : Prop where
  nodup : s.calledFor.Nodup
  called : ∀ number ∈ s.calledFor, number < s.accepted
  given : ∀ co peer, s.coCb co = some peer → peer.number < s.accepted
  waiting : ∀ co peer, s.coCb co = some peer → s.pool.preCo co = none →
    peer.number ∉ s.calledFor
  single : ∀ co other peer twin, s.coCb co = some peer → s.coCb other = some twin →
    peer.number = twin.number → co = other
  held : ∀ peer, s.Holds peer → peer.number < s.accepted ∧ s.Untouched peer.number

theorem start_once (others : Nat) (maxConnNum : Int) : (start others maxConnNum).Once where
  nodup := List.nodup_nil
  called _ member := nomatch member
  given _ _ isGiven := nomatch isGiven
  waiting _ _ isGiven := nomatch isGiven
  single _ _ _ _ isGiven := nomatch isGiven
  held peer holds := by
    rcases holds with handing | ⟨adding, -⟩
    · cases handing
    · cases adding

/-- The state of `accept_cb` and of the pool may change as long as no connection is found anew. -/
theorem Once.of_same {s next : TCPServer2 others} (once : s.Once) (coCb : next.coCb = s.coCb)
    (served : next.served = s.served) (accepted : next.accepted = s.accepted)
    (preCo : ∀ co, next.pool.preCo co = none → s.pool.preCo co = none)
    (held : ∀ peer, next.Holds peer → s.Holds peer) : next.Once := by
  have calledFor : next.calledFor = s.calledFor := congrArg (List.map Peer.number) served
  constructor
  · rw [calledFor]
    exact once.nodup
  · rw [calledFor, accepted]
    exact once.called
  · rw [coCb, accepted]
    exact once.given
  · rw [coCb, calledFor]
    exact fun co peer isGiven fresh => once.waiting co peer isGiven (preCo co fresh)
  · rw [coCb]
    exact once.single
  · intro peer holds
    rw [accepted, Untouched, coCb, calledFor]
    exact once.held peer (held peer holds)

theorem getChannel_preCo (pool : CoroutinePool (Fin (others + 1)))
    (thread scheduler : Fin (others + 1)) :
    (pool.getChannel thread scheduler).preCo = pool.preCo := by
  unfold CoroutinePool.getChannel CoroutinePool.get
  split <;> rfl

/-- `pre_co` is set by `set_callback` and by `resume`. -/
theorem step_preCo {pool next : CoroutinePool (Fin (others + 1))}
    {event : CoroutinePool.Event (Fin (others + 1))}
    (other : ∀ thread, event ≠ .setCallback thread ∧ event ≠ .resume thread)
    (taken : pool.step event = some next) : next.preCo = pool.preCo := by
  cases event with
  | getChannel thread scheduler =>
      obtain ⟨-, rfl⟩ := of_guarded taken
      exact getChannel_preCo pool thread scheduler
  | setCallback thread => exact absurd rfl (other thread).1
  | pushBack thread =>
      obtain ⟨scheduler, co, -, rfl⟩ := CoroutinePool.of_pushBack taken
      rfl
  | scheduleCo thread co =>
      obtain ⟨-, rfl⟩ := of_guarded taken
      rfl
  | resume thread => exact absurd rfl (other thread).2
  | yield thread =>
      rw [CoroutinePool.of_yield taken]
      rfl
  | erase thread =>
      obtain ⟨co, -, rfl⟩ := CoroutinePool.of_erase taken
      rw [CoroutinePool.eraseCo]
      dsimp only
      split <;> rfl
  | finalYield thread =>
      rw [CoroutinePool.of_finalYield taken]
      rfl

/-- A step of the pool that gives no coroutine a callback, and begins none. -/
theorem Once.onPool {s next : TCPServer2 others} (once : s.Once)
    {event : CoroutinePool.Event (Fin (others + 1))} (taken : s.onPool event = some next)
    (neither : ∀ thread, event ≠ .setCallback thread ∧ event ≠ .resume thread)
    (other : ∀ thread, (∀ scheduler, event ≠ .getChannel thread scheduler) ∧
      event ≠ .setCallback thread ∧ event ≠ .pushBack thread) : next.Once := by
  obtain ⟨pool, stepped, rfl⟩ := of_onPool taken
  have preCo : ∀ co, pool.preCo co = none → s.pool.preCo co = none := by
    rw [step_preCo neither stepped]
    exact fun co fresh => fresh
  refine once.of_same rfl rfl rfl preCo ?_
  rintro peer (handing | ⟨adding, scheduler, co, resetting⟩)
  · exact .inl handing
  · refine .inr ⟨adding, scheduler, co, ?_⟩
    rw [← CoroutinePool.step_adding other stepped]
    exact resetting

theorem Once.accept {s : TCPServer2 others} (once : s.Once) (fd : Nat) : (s.accept fd).Once where
  nodup := once.nodup
  called number member := Nat.lt_succ_of_lt (once.called number member)
  given co peer isGiven := Nat.lt_succ_of_lt (once.given co peer isGiven)
  waiting := once.waiting
  single := once.single
  held peer holds := by
    rcases holds with handing | ⟨adding, -⟩
    · cases handing
      refine ⟨Nat.lt_succ_self _, ?_, fun member => Nat.lt_irrefl _ (once.called _ member)⟩
      intro co peer isGiven
      exact Nat.ne_of_lt (once.given co peer isGiven)
    · cases adding

/-- The coroutine is given the connection that `accept_cb` holds. -/
theorem Once.setCallback {s : TCPServer2 others} (once : s.Once) {peer : Peer}
    {scheduler : Fin (others + 1)} {co : Coroutine} (adding : s.accepting = .adding peer)
    (resetting : s.pool.adding mainThread = .resetting scheduler co) :
    ({ s with
        coCb := Function.update s.coCb co (some peer)
        pool := s.pool.setCallback mainThread scheduler co } : TCPServer2 others).Once := by
  obtain ⟨below, unbound, uncalled⟩ :=
    once.held peer (.inr ⟨adding, scheduler, co, resetting⟩)
  constructor
  · exact once.nodup
  · exact once.called
  · intro other found isGiven
    simp only [Function.update_apply] at isGiven
    split_ifs at isGiven
    · cases isGiven
      exact below
    · exact once.given other found isGiven
  · intro other found isGiven preCo
    simp only [Function.update_apply, CoroutinePool.setCallback] at isGiven preCo
    split_ifs at isGiven preCo
    · cases isGiven
      exact uncalled
    · exact once.waiting other found isGiven preCo
  · intro first second found twin isGiven isTwin same
    simp only [Function.update_apply] at isGiven isTwin
    split_ifs at isGiven isTwin with isFirst isSecond isSecond
    · rw [isFirst, isSecond]
    · cases isGiven
      exact absurd same.symm (unbound second twin isTwin)
    · cases isTwin
      exact absurd same (unbound first found isGiven)
    · exact once.single first second found twin isGiven isTwin same
  · rintro other (handing | ⟨-, target, another, again⟩)
    · cases adding.symm.trans handing
    · simp [CoroutinePool.setCallback] at again

theorem preCo_of_resume {pool : CoroutinePool (Fin (others + 1))} {thread : Fin (others + 1)}
    {co other : Coroutine} {rest : List Coroutine}
    (fresh : (pool.resume thread co rest).preCo other = none) :
    other ≠ co ∧ pool.preCo other = none := by
  simp only [CoroutinePool.resume, Function.update_apply] at fresh
  split_ifs at fresh with same
  exact ⟨same, fresh⟩

/-- A coroutine that has not begun is resumed, and calls `user_cb`. -/
theorem Once.begins {s : TCPServer2 others} (once : s.Once) {thread : Fin (others + 1)}
    {co : Coroutine} {rest : List Coroutine} {peer : Peer} (fresh : s.pool.preCo co = none)
    (isGiven : s.coCb co = some peer) :
    ({ s with
        served := s.served ++ [peer]
        pool := s.pool.resume thread co rest } : TCPServer2 others).Once := by
  have notCalled := once.waiting co peer isGiven fresh
  have member {number : Nat} : number ∈ (s.served ++ [peer]).map Peer.number ↔
      number ∈ s.calledFor ∨ number = peer.number := by
    simp [calledFor]
  constructor
  · change ((s.served ++ [peer]).map Peer.number).Nodup
    rw [List.map_append, List.map_singleton, ← List.concat_eq_append]
    exact once.nodup.concat notCalled
  · intro number isCalled
    rcases member.mp isCalled with before | rfl
    · exact once.called number before
    · exact once.given co peer isGiven
  · exact once.given
  · intro other found otherGiven otherFresh isCalled
    obtain ⟨notSame, wasFresh⟩ := preCo_of_resume otherFresh
    rcases member.mp isCalled with before | same
    · exact once.waiting other found otherGiven wasFresh before
    · exact notSame (once.single other co found peer otherGiven isGiven same)
  · exact once.single
  · intro other holds
    obtain ⟨below, unbound, uncalled⟩ := once.held other holds
    refine ⟨below, unbound, fun isCalled => ?_⟩
    rcases member.mp isCalled with before | same
    · exact uncalled before
    · exact unbound co peer isGiven same.symm

/-- `handle_co` goes to a coroutine. -/
theorem Once.resume {s : TCPServer2 others} (once : s.Once) {thread : Fin (others + 1)}
    {co : Coroutine} {rest : List Coroutine} (ready : s.pool.readyQueue thread = co :: rest) :
    ({ s with
        served := s.served ++ (s.startedBy thread).toList
        pool := s.pool.resume thread co rest } : TCPServer2 others).Once := by
  have goesOn : ({ s with
      served := s.served ++ []
      pool := s.pool.resume thread co rest } : TCPServer2 others).Once :=
    once.of_same rfl (List.append_nil s.served) rfl
      (fun _ fresh => (preCo_of_resume fresh).2) (fun _ holds => holds)
  rw [startedBy, ready]
  dsimp only
  split_ifs with fresh
  · cases isGiven : s.coCb co with
    | none => exact goesOn
    | some peer => exact once.begins fresh isGiven
  · exact goesOn

theorem Once.step {s next : TCPServer2 others} {event : Event others} (once : s.Once)
    (taken : s.step event = some next) : next.Once := by
  cases event with
  | accept fd =>
      obtain ⟨-, rfl⟩ := of_guarded taken
      exact once.accept fd
  | getChannel =>
      obtain ⟨peer, handing, added⟩ := of_getChannel taken
      obtain ⟨pool, stepped, rfl⟩ := of_onPool added
      obtain ⟨-, rfl⟩ := of_guarded stepped
      refine once.of_same rfl rfl rfl ?_ ?_
      · intro co fresh
        rwa [getChannel_preCo] at fresh
      · rintro other (again | ⟨adding, -⟩)
        · cases again
        · cases adding
          exact .inl handing
  | setCallback =>
      simp only [TCPServer2.step] at taken
      split at taken
      · next peer scheduler co adding resetting =>
          obtain ⟨pool, stepped, rfl⟩ := of_onPool taken
          obtain ⟨target, another, isTarget, rfl⟩ := CoroutinePool.of_setCallback stepped
          cases resetting.symm.trans isTarget
          exact once.setCallback adding resetting
      · cases taken
  | pushBack =>
      obtain ⟨pool, stepped, rfl⟩ := of_onPool (of_pushBack taken)
      obtain ⟨scheduler, co, -, rfl⟩ := CoroutinePool.of_pushBack stepped
      refine once.of_same rfl rfl rfl (fun _ fresh => fresh) ?_
      rintro peer (handing | ⟨adding, -⟩)
      · cases handing
      · cases adding
  | resume thread =>
      obtain ⟨pool, stepped, rfl⟩ := of_onPool
        (show TCPServer2.onPool _ (.resume thread) = some next from taken)
      obtain ⟨co, rest, ready, rfl⟩ := CoroutinePool.of_resume stepped
      exact once.resume ready
  | scheduleCo thread co => exact once.onPool taken (by simp) (by simp)
  | yield thread => exact once.onPool (of_yield taken) (by simp) (by simp)
  | erase thread => exact once.onPool (of_erase taken) (by simp) (by simp)
  | finalYield thread => exact once.onPool taken (by simp) (by simp)

/-- The condition on a step: the threads keep apart at the coroutines that they share. -/
def KeepsApart (s : TCPServer2 others) : Event others → Prop
  | .setCallback => s.pool.KeepsApart (.setCallback mainThread)
  | .resume thread => s.pool.KeepsApart (.resume thread)
  | _ => True

instance (s : TCPServer2 others) : DecidablePred s.KeepsApart
  | .accept _ => .isTrue trivial
  | .getChannel => .isTrue trivial
  | .setCallback => inferInstanceAs (Decidable (∀ co ∈ (s.pool.adding mainThread).reset?,
      ∀ other, ¬ s.pool.Executes other co))
  | .pushBack => .isTrue trivial
  | .scheduleCo _ _ => .isTrue trivial
  | .resume thread => inferInstanceAs (Decidable (∀ co ∈ (s.pool.readyQueue thread).head?,
      co ∈ s.pool.coMap thread ∧
        ∀ other, ¬ s.pool.Executes other co ∧ (s.pool.adding other).reset? ≠ some co))
  | .yield _ => .isTrue trivial
  | .erase _ => .isTrue trivial
  | .finalYield _ => .isTrue trivial

theorem start_returns (others : Nat) (maxConnNum : Int) :
    (start others maxConnNum).pool.Returns := by
  intro thread co executing
  cases executing

/-- A thread goes back to its own `main_co`, behind a step that keeps apart. -/
theorem returns_step {s next : TCPServer2 others} {event : Event others}
    (returns : s.pool.Returns) (apart : s.KeepsApart event) (taken : s.step event = some next) :
    next.pool.Returns := by
  have onPool {before after : TCPServer2 others}
      {action : CoroutinePool.Event (Fin (others + 1))}
      (stepped : before.onPool action = some after) (same : before.pool = s.pool)
      (met : s.pool.KeepsApart action) : after.pool.Returns := by
    obtain ⟨pool, ran, rfl⟩ := of_onPool stepped
    rw [same] at ran
    exact returns.step met ran
  cases event with
  | accept fd =>
      obtain ⟨-, rfl⟩ := of_guarded taken
      exact returns
  | getChannel =>
      obtain ⟨peer, -, added⟩ := of_getChannel taken
      exact onPool added rfl trivial
  | setCallback =>
      obtain ⟨peer, co, -, reset⟩ := of_setCallback taken
      exact onPool reset rfl apart
  | pushBack => exact onPool (of_pushBack taken) rfl trivial
  | scheduleCo thread co => exact onPool taken rfl trivial
  | resume thread => exact onPool taken rfl apart
  | yield thread => exact onPool (of_yield taken) rfl trivial
  | erase thread => exact onPool (of_erase taken) rfl trivial
  | finalYield thread => exact onPool taken rfl trivial

/--
However the threads interleave and reuse the coroutines of the pool, as long as they keep
apart `user_cb` is called at most once for a connection, and only for one that was accepted,
and each yield goes back to the thread's own `main_co`.
-/
theorem called_once (others : Nat) (maxConnNum : Int) (events : List (Event others))
    (apart : StepsMeet TCPServer2.step KeepsApart (start others maxConnNum) events) :
    AllStates TCPServer2.step
      (fun s => (s.served.map Peer.number).Nodup ∧
        (∀ peer ∈ s.served, peer.number < s.accepted) ∧ s.pool.Returns)
      (start others maxConnNum) events := by
  refine allStates_of_stepsMeet (fun s => s.Once ∧ s.pool.Returns) ?_ ?_ events
    ⟨start_once others maxConnNum, start_returns others maxConnNum⟩ apart
  · intro s event next ⟨once, returns⟩ met taken
    exact ⟨once.step taken, returns_step returns met taken⟩
  · intro s ⟨once, returns⟩
    exact ⟨once.nodup, fun _ member => once.called _ (List.mem_map_of_mem member), returns⟩

/-- The second connection is served on the coroutine that the first one has given back. -/
def againRun : List (Event 1) :=
  reusingRun ++ [.setCallback, .pushBack, .resume ⟨0, Nat.succ_pos 1⟩]

theorem called_once_againRun : AllStates TCPServer2.step
    (fun s => (s.served.map Peer.number).Nodup ∧
      (∀ peer ∈ s.served, peer.number < s.accepted) ∧ s.pool.Returns) (start 1 2) againRun ∧
    ((runFrom TCPServer2.step (start 1 2) againRun).map fun s => s.served.map Peer.fd) =
      some [5, 6] :=
  ⟨called_once 1 2 againRun (by decide +kernel), by decide +kernel⟩

end TCPServer2

end SimpleWebServer.Tcp
