import Mathlib.Data.Finset.Basic
import SimpleWebServer.Co.CorouteScheduler
import SimpleWebServer.Lib.Runs

/-!
# The coroutine pool

`CoroutinePool` hands out coroutines to the schedulers of all threads and takes them back
when their channels are destroyed.  A channel is destroyed by the last act of the callback
that runs on the coroutine: from there to the yield at the end of `co_fun` the thread still
uses the stack and the registers of a coroutine that is already free.
-/

namespace SimpleWebServer.Co

open SimpleWebServer.Lib.Runs

/-- Where a thread is in `CorouteScheduler::add_callback`. -/
inductive Adding (Thread : Type) where
  | outside
  /-- behind `get_channel` and `co_map.insert`, in `set_callback` -/
  | resetting (scheduler : Thread) (co : Coroutine)
  /-- behind `set_callback`, before `ready_queue.push_back` -/
  | pushing (scheduler : Thread) (co : Coroutine)
  deriving DecidableEq, Repr

/-- The context that a thread executes. -/
inductive Context where
  /-- `main_co`: the event loop and `handle_co` -/
  | main
  /-- the callback of a coroutine -/
  | body (co : Coroutine)
  /-- behind `co_map.erase` in the callback, before the yield of `co_fun` -/
  | ended (co : Coroutine)
  deriving DecidableEq, Repr

/-- The coroutine whose stack the thread uses. -/
def Context.coroutine : Context → Option Coroutine
  | .main => none
  | .body co => some co
  | .ended co => some co

/-- The scheduler and the coroutine that the call works on. -/
def Adding.target {Thread : Type} : Adding Thread → Option (Thread × Coroutine)
  | .outside => none
  | .resetting scheduler co => some (scheduler, co)
  | .pushing scheduler co => some (scheduler, co)

/-- The coroutine that `set_callback` works on. -/
def Adding.reset? {Thread : Type} : Adding Thread → Option Coroutine
  | .resetting _ co => some co
  | _ => none

/-- The pool, with the schedulers that share it; each thread has one, named like the thread. -/
structure CoroutinePool (Thread : Type) where
  queue : List Coroutine := []
  count : Int := 0
  /-- how many coroutines `make_unique` has made; they are numbered -/
  made : Nat := 0
  coMap : Thread → Finset Coroutine := fun _ => ∅
  readyQueue : Thread → List Coroutine := fun _ => []
  /-- the thread whose `main_co` resumed the coroutine -/
  preCo : Coroutine → Option Thread := fun _ => none
  adding : Thread → Adding Thread := fun _ => .outside
  context : Thread → Context := fun _ => .main

namespace CoroutinePool

variable {Thread : Type}

inductive Event (Thread : Type) where
  /-- `get_channel` and `co_map.insert`, in an `add_callback` of some thread's scheduler -/
  | getChannel (thread scheduler : Thread)
  /-- `set_callback` -/
  | setCallback (thread : Thread)
  /-- `ready_queue.push_back` at the end of `add_callback` -/
  | pushBack (thread : Thread)
  /-- `schedule_co(co)` for a coroutine that runs here or waits for it -/
  | scheduleCo (thread : Thread) (co : Coroutine)
  /-- `handle_co` resumes the first coroutine of its queue -/
  | resume (thread : Thread)
  /-- the coroutine yields in `co_read`, `co_write`, `co_accept` or `co_sleep` -/
  | yield (thread : Thread)
  /-- the callback returns and `co_map.erase` destroys the channel -/
  | erase (thread : Thread)
  /-- `co->yield()` at the end of `co_fun` -/
  | finalYield (thread : Thread)
  deriving DecidableEq, Repr

section steps

variable [DecidableEq Thread]

/-- `queue.get(true)` -/
def get (pool : CoroutinePool Thread) : Coroutine × CoroutinePool Thread :=
  match pool.queue with
  | [] => (pool.made, { pool with made := pool.made + 1 })
  | co :: rest => (co, { pool with queue := rest })

/-- `get_channel` with the `co_map.insert` behind it -/
def getChannel (pool : CoroutinePool Thread) (thread scheduler : Thread) : CoroutinePool Thread :=
  let taken := pool.get
  { taken.2 with
    count := pool.count + 1
    coMap := Function.update pool.coMap scheduler (insert taken.1 (pool.coMap scheduler))
    adding := Function.update pool.adding thread (.resetting scheduler taken.1) }

/-- `set_callback`: the registers, the stack, `pre_co` and `co_cb` start anew. -/
def setCallback (pool : CoroutinePool Thread) (thread scheduler : Thread) (co : Coroutine) :
    CoroutinePool Thread :=
  { pool with
    preCo := Function.update pool.preCo co none
    adding := Function.update pool.adding thread (.pushing scheduler co) }

/-- `ready_queue.push_back(co)` -/
def push (pool : CoroutinePool Thread) (scheduler : Thread) (co : Coroutine) :
    CoroutinePool Thread :=
  { pool with
    readyQueue :=
      Function.update pool.readyQueue scheduler (pool.readyQueue scheduler ++ [co]) }

/-- `main_co->resume(co)` -/
def resume (pool : CoroutinePool Thread) (thread : Thread) (co : Coroutine)
    (rest : List Coroutine) : CoroutinePool Thread :=
  { pool with
    readyQueue := Function.update pool.readyQueue thread rest
    preCo := Function.update pool.preCo co (some thread)
    context := Function.update pool.context thread (.body co) }

/-- `co_swap` to `main_co` -/
def backToMain (pool : CoroutinePool Thread) (thread : Thread) : CoroutinePool Thread :=
  { pool with context := Function.update pool.context thread .main }

/-- `~Channel` -/
def giveBack (pool : CoroutinePool Thread) (co : Coroutine) : CoroutinePool Thread :=
  { pool with queue := pool.queue ++ [co], count := pool.count - 1 }

/-- `co_map.erase(co)` in the callback of the coroutine -/
def eraseCo (pool : CoroutinePool Thread) (thread : Thread) (co : Coroutine) :
    CoroutinePool Thread :=
  let freed := if co ∈ pool.coMap thread then pool.giveBack co else pool
  { freed with
    coMap := Function.update pool.coMap thread ((pool.coMap thread).erase co)
    context := Function.update pool.context thread (.ended co) }

/--
One atomic step of one thread.  A yield `co_swap`s to the `main_co` that `pre_co` names.  Here
it is the thread's own, and `Returns` says that it is; a thread that went on as another one
would use that one's stack, and is not followed.
-/
def step (pool : CoroutinePool Thread) : Event Thread → Option (CoroutinePool Thread)
  | .getChannel thread scheduler =>
      if pool.adding thread = .outside then some (pool.getChannel thread scheduler) else none
  | .setCallback thread =>
      match pool.adding thread with
      | .resetting scheduler co => some (pool.setCallback thread scheduler co)
      | _ => none
  | .pushBack thread =>
      match pool.adding thread with
      | .pushing scheduler co =>
          some { pool.push scheduler co with
            adding := Function.update pool.adding thread .outside }
      | _ => none
  | .scheduleCo thread co =>
      if pool.adding thread = .outside ∧ pool.preCo co = some thread then
        some (pool.push thread co)
      else none
  | .resume thread =>
      match pool.readyQueue thread with
      | co :: rest =>
          if pool.adding thread = .outside ∧ pool.context thread = .main then
            some (pool.resume thread co rest)
          else none
      | [] => none
  | .yield thread =>
      match pool.context thread with
      | .body co =>
          if pool.adding thread = .outside ∧ pool.preCo co = some thread then
            some (pool.backToMain thread)
          else none
      | _ => none
  | .erase thread =>
      match pool.context thread with
      | .body co =>
          if pool.adding thread = .outside then some (pool.eraseCo thread co) else none
      | _ => none
  | .finalYield thread =>
      match pool.context thread with
      | .ended co =>
          if pool.preCo co = some thread then some (pool.backToMain thread) else none
      | _ => none

/-! ## What a step does -/

theorem of_setCallback {pool next : CoroutinePool Thread} {thread : Thread}
    (taken : pool.step (.setCallback thread) = some next) :
    ∃ scheduler co, pool.adding thread = .resetting scheduler co ∧
      next = pool.setCallback thread scheduler co := by
  simp only [step] at taken
  split at taken
  · next scheduler co resetting =>
      exact ⟨scheduler, co, resetting, (Option.some.inj taken).symm⟩
  · cases taken

theorem of_pushBack {pool next : CoroutinePool Thread} {thread : Thread}
    (taken : pool.step (.pushBack thread) = some next) :
    ∃ scheduler co, pool.adding thread = .pushing scheduler co ∧
      next = { pool.push scheduler co with
        adding := Function.update pool.adding thread .outside } := by
  simp only [step] at taken
  split at taken
  · next scheduler co pushing => exact ⟨scheduler, co, pushing, (Option.some.inj taken).symm⟩
  · cases taken

theorem of_resume {pool next : CoroutinePool Thread} {thread : Thread}
    (taken : pool.step (.resume thread) = some next) :
    ∃ co rest, pool.readyQueue thread = co :: rest ∧ next = pool.resume thread co rest := by
  simp only [step] at taken
  split at taken
  · next co rest ready =>
      obtain ⟨-, resumed⟩ := of_guarded taken
      exact ⟨co, rest, ready, resumed.symm⟩
  · cases taken

theorem of_yield {pool next : CoroutinePool Thread} {thread : Thread}
    (taken : pool.step (.yield thread) = some next) : next = pool.backToMain thread := by
  simp only [step] at taken
  split at taken
  · exact (of_guarded taken).2.symm
  · cases taken

theorem of_erase {pool next : CoroutinePool Thread} {thread : Thread}
    (taken : pool.step (.erase thread) = some next) :
    ∃ co, pool.context thread = .body co ∧ next = pool.eraseCo thread co := by
  simp only [step] at taken
  split at taken
  · next co body => exact ⟨co, body, (of_guarded taken).2.symm⟩
  · cases taken

theorem of_finalYield {pool next : CoroutinePool Thread} {thread : Thread}
    (taken : pool.step (.finalYield thread) = some next) : next = pool.backToMain thread := by
  simp only [step] at taken
  split at taken
  · exact (of_guarded taken).2.symm
  · cases taken

end steps

/-- A pool that has made no coroutine yet. -/
def new : CoroutinePool Thread := {}

/-- The thread executes the coroutine. -/
def Executes (pool : CoroutinePool Thread) (thread : Thread) (co : Coroutine) : Prop :=
  (pool.context thread).coroutine = some co

instance (pool : CoroutinePool Thread) (thread : Thread) (co : Coroutine) :
    Decidable (pool.Executes thread co) :=
  inferInstanceAs (Decidable ((pool.context thread).coroutine = some co))

/-- A coroutine that is free, or that `set_callback` re-initialises, is executed by no thread. -/
def Owned (pool : CoroutinePool Thread) : Prop :=
  ∀ thread co, pool.Executes thread co →
    co ∉ pool.queue ∧ ∀ other scheduler, pool.adding other ≠ .resetting scheduler co

/-- A thread goes back from a coroutine to its own `main_co`. -/
def Returns (pool : CoroutinePool Thread) : Prop :=
  ∀ thread co, pool.Executes thread co → pool.preCo co = some thread

/--
The condition on a step: `set_callback` re-initialises no coroutine that a thread executes, and
`handle_co` resumes none that another thread executes, that has ended or that is without its
callback.
-/
def KeepsApart [DecidableEq Thread] (pool : CoroutinePool Thread) : Event Thread → Prop
  | .setCallback thread =>
      ∀ co ∈ (pool.adding thread).reset?, ∀ other, ¬ pool.Executes other co
  | .resume thread =>
      ∀ co ∈ (pool.readyQueue thread).head?, co ∈ pool.coMap thread ∧
        ∀ other, ¬ pool.Executes other co ∧ (pool.adding other).reset? ≠ some co
  | _ => True

/-- The condition on a step: no callback of a coroutine comes to its end. -/
def RunsOn (_ : CoroutinePool Thread) : Event Thread → Prop
  | .erase _ => False
  | _ => True

/-! ## While no callback ends -/

/--
What holds until the first callback ends.  Nothing has been given back, so `get_channel` makes
a new coroutine each time, and what `set_callback` works on has no trace anywhere else.
-/
structure Inv (pool : CoroutinePool Thread) : Prop where
  queue : pool.queue = []
  made : ∀ thread co, co ∈ pool.coMap thread → co < pool.made
  ready : ∀ thread co, co ∈ pool.readyQueue thread → co ∈ pool.coMap thread
  executes : ∀ thread co, pool.Executes thread co → co ∈ pool.coMap thread
  resumed : ∀ thread co, pool.preCo co = some thread → co ∈ pool.coMap thread
  adding : ∀ thread scheduler co, (pool.adding thread).target = some (scheduler, co) →
    co ∈ pool.coMap scheduler
  alone : ∀ thread scheduler co, pool.adding thread = .resetting scheduler co →
    (∀ other, co ∉ pool.readyQueue other) ∧ (∀ other, ¬ pool.Executes other co) ∧
      pool.preCo co = none ∧
      ∀ other, other ≠ thread → ∀ target, (pool.adding other).target ≠ some (target, co)

theorem new_inv : (new : CoroutinePool Thread).Inv where
  queue := rfl
  made := by simp [new]
  ready := by simp [new]
  executes := by simp [new, Executes, Context.coroutine]
  resumed := by simp [new]
  adding := by simp [new, Adding.target]
  alone := by simp [new]

theorem Inv.owned {pool : CoroutinePool Thread} (inv : pool.Inv) : pool.Owned := by
  intro thread co executing
  refine ⟨by simp [inv.queue], fun other scheduler resetting => ?_⟩
  exact (inv.alone other scheduler co resetting).2.1 thread executing

/-- A coroutine that is used anywhere has been made before. -/
theorem Inv.unused {pool : CoroutinePool Thread} (inv : pool.Inv) (thread : Thread) :
    pool.made ∉ pool.coMap thread :=
  fun known => Nat.lt_irrefl _ (inv.made thread pool.made known)

/-- Another thread's `set_callback` works on another coroutine. -/
theorem Inv.different {pool : CoroutinePool Thread} (inv : pool.Inv) {thread other : Thread}
    {scheduler target : Thread} {co another : Coroutine}
    (adding : (pool.adding thread).target = some (scheduler, co)) (apart : thread ≠ other)
    (resetting : pool.adding other = .resetting target another) : another ≠ co := by
  rintro rfl
  exact (inv.alone other target another resetting).2.2.2 thread apart scheduler adding

/-- What neither begins nor resumes a coroutine. -/
theorem Returns.of_same {pool next : CoroutinePool Thread} (returns : pool.Returns)
    (preCo : next.preCo = pool.preCo)
    (executes : ∀ thread co, next.Executes thread co → pool.Executes thread co) :
    next.Returns := by
  intro thread co executing
  rw [preCo]
  exact returns thread co (executes thread co executing)

variable [DecidableEq Thread]

theorem Inv.getChannel {pool : CoroutinePool Thread} (inv : pool.Inv) {thread : Thread}
    (outside : pool.adding thread = .outside) (scheduler : Thread) :
    (pool.getChannel thread scheduler).Inv := by
  have grown : ∀ other co, co ∈ pool.coMap other → co ∈ Function.update pool.coMap scheduler
      (insert pool.made (pool.coMap scheduler)) other := by
    intro other co known
    by_cases same : other = scheduler
    · subst same
      rw [Function.update_self]
      exact Finset.mem_insert_of_mem known
    · rw [Function.update_of_ne same]
      exact known
  have made : pool.getChannel thread scheduler = { pool with
      count := pool.count + 1
      made := pool.made + 1
      coMap := Function.update pool.coMap scheduler (insert pool.made (pool.coMap scheduler))
      adding := Function.update pool.adding thread (.resetting scheduler pool.made) } := by
    simp only [CoroutinePool.getChannel, get, inv.queue]
  rw [made]
  constructor
  · exact inv.queue
  · intro other co known
    dsimp only at known ⊢
    by_cases same : other = scheduler
    · subst same
      rw [Function.update_self, Finset.mem_insert] at known
      rcases known with rfl | before
      · exact Nat.lt_succ_self _
      · exact Nat.lt_succ_of_lt (inv.made other co before)
    · rw [Function.update_of_ne same] at known
      exact Nat.lt_succ_of_lt (inv.made other co known)
  · exact fun other co ready => grown other co (inv.ready other co ready)
  · exact fun other co executing => grown other co (inv.executes other co executing)
  · exact fun other co resumed => grown other co (inv.resumed other co resumed)
  · intro other target co adding
    dsimp only at adding ⊢
    by_cases same : other = thread
    · subst same
      rw [Function.update_self] at adding
      cases adding
      rw [Function.update_self]
      exact Finset.mem_insert_self ..
    · rw [Function.update_of_ne same] at adding
      exact grown target co (inv.adding other target co adding)
  · intro other target co resetting
    dsimp only at resetting ⊢
    by_cases same : other = thread
    · subst same
      rw [Function.update_self] at resetting
      cases resetting
      refine ⟨fun third ready => inv.unused third (inv.ready third _ ready),
        fun third executing => inv.unused third (inv.executes third _ executing), ?_, ?_⟩
      · cases resumed : pool.preCo pool.made with
        | none => rfl
        | some third => exact absurd (inv.resumed third _ resumed) (inv.unused third)
      · intro third different goal adding
        rw [Function.update_of_ne different] at adding
        exact inv.unused goal (inv.adding third goal _ adding)
    · rw [Function.update_of_ne same] at resetting
      obtain ⟨ready, executing, resumed, others⟩ := inv.alone other target co resetting
      refine ⟨ready, executing, resumed, fun third different goal adding => ?_⟩
      by_cases isThread : third = thread
      · subst isThread
        rw [Function.update_self] at adding
        cases adding
        exact inv.unused target (inv.adding other target _ (by rw [resetting]; rfl))
      · rw [Function.update_of_ne isThread] at adding
        exact others third different goal adding

theorem Inv.setCallback {pool : CoroutinePool Thread} (inv : pool.Inv) {thread scheduler : Thread}
    {co : Coroutine} (resetting : pool.adding thread = .resetting scheduler co) :
    (pool.setCallback thread scheduler co).Inv := by
  have target : (pool.adding thread).target = some (scheduler, co) := by
    rw [resetting]
    rfl
  have others : ∀ other goal another,
      (Function.update pool.adding thread (.pushing scheduler co) other).target =
        some (goal, another) → (pool.adding other).target = some (goal, another) := by
    intro other goal another adding
    by_cases same : other = thread
    · subst same
      rw [Function.update_self] at adding
      rw [target]
      exact adding
    · rw [Function.update_of_ne same] at adding
      exact adding
  constructor
  · exact inv.queue
  · exact inv.made
  · exact inv.ready
  · exact inv.executes
  · intro other another resumed
    by_cases same : another = co
    · subst same
      simp [CoroutinePool.setCallback] at resumed
    · simp only [CoroutinePool.setCallback, Function.update_of_ne same] at resumed
      exact inv.resumed other another resumed
  · exact fun other goal another adding =>
      inv.adding other goal another (others other goal another adding)
  · intro other goal another stillResetting
    have apart : other ≠ thread := by
      rintro rfl
      simp [CoroutinePool.setCallback] at stillResetting
    simp only [CoroutinePool.setCallback, Function.update_of_ne apart] at stillResetting
    obtain ⟨ready, executing, resumed, alone⟩ := inv.alone other goal another stillResetting
    refine ⟨ready, executing, ?_, fun third different aim adding => ?_⟩
    · simp only [CoroutinePool.setCallback]
      rw [Function.update_of_ne (inv.different target apart.symm stillResetting)]
      exact resumed
    · exact alone third different aim (others third aim another adding)

/-- `ready_queue` gets a coroutine that no `set_callback` works on. -/
theorem Inv.push {pool : CoroutinePool Thread} (inv : pool.Inv) {scheduler : Thread}
    {co : Coroutine} (known : co ∈ pool.coMap scheduler)
    (settled : ∀ other target, pool.adding other ≠ .resetting target co) :
    (pool.push scheduler co).Inv := by
  have entries : ∀ other another, another ∈ (pool.push scheduler co).readyQueue other →
      another ∈ pool.readyQueue other ∨ other = scheduler ∧ another = co := by
    intro other another ready
    by_cases same : other = scheduler
    · subst same
      simp only [CoroutinePool.push, Function.update_self, List.mem_append,
        List.mem_singleton] at ready
      rcases ready with before | now
      · exact Or.inl before
      · exact Or.inr ⟨rfl, now⟩
    · simp only [CoroutinePool.push, Function.update_of_ne same] at ready
      exact Or.inl ready
  constructor
  · exact inv.queue
  · exact inv.made
  · intro other another ready
    rcases entries other another ready with before | ⟨rfl, rfl⟩
    · exact inv.ready other another before
    · exact known
  · exact inv.executes
  · exact inv.resumed
  · exact inv.adding
  · intro other target another resetting
    obtain ⟨ready, executing, resumed, alone⟩ := inv.alone other target another resetting
    refine ⟨fun third isReady => ?_, executing, resumed, alone⟩
    rcases entries third another isReady with before | ⟨-, rfl⟩
    · exact ready third before
    · exact settled other target resetting

/-- A call of `add_callback` has returned. -/
theorem Inv.returned {pool : CoroutinePool Thread} (inv : pool.Inv) (thread : Thread) :
    { pool with adding := Function.update pool.adding thread .outside }.Inv := by
  have others : ∀ other goal co,
      (Function.update pool.adding thread .outside other).target = some (goal, co) →
        (pool.adding other).target = some (goal, co) := by
    intro other goal co adding
    by_cases same : other = thread
    · subst same
      simp [Adding.target] at adding
    · rw [Function.update_of_ne same] at adding
      exact adding
  constructor
  · exact inv.queue
  · exact inv.made
  · exact inv.ready
  · exact inv.executes
  · exact inv.resumed
  · exact fun other goal co adding => inv.adding other goal co (others other goal co adding)
  · intro other goal co resetting
    have apart : other ≠ thread := by
      rintro rfl
      simp at resetting
    simp only [Function.update_of_ne apart] at resetting
    obtain ⟨ready, executing, resumed, alone⟩ := inv.alone other goal co resetting
    exact ⟨ready, executing, resumed, fun third different aim adding =>
      alone third different aim (others third aim co adding)⟩

theorem Inv.resume {pool : CoroutinePool Thread} (inv : pool.Inv) {thread : Thread}
    {co : Coroutine} {rest : List Coroutine} (ready : pool.readyQueue thread = co :: rest) :
    (pool.resume thread co rest).Inv := by
  have first : co ∈ pool.readyQueue thread := by
    rw [ready]
    exact List.mem_cons_self
  have entries : ∀ other another, another ∈ (pool.resume thread co rest).readyQueue other →
      another ∈ pool.readyQueue other := by
    intro other another isReady
    by_cases same : other = thread
    · subst same
      simp only [CoroutinePool.resume, Function.update_self] at isReady
      rw [ready]
      exact List.mem_cons_of_mem _ isReady
    · simp only [CoroutinePool.resume, Function.update_of_ne same] at isReady
      exact isReady
  have executed : ∀ other another, (pool.resume thread co rest).Executes other another →
      pool.Executes other another ∨ other = thread ∧ another = co := by
    intro other another executing
    by_cases same : other = thread
    · subst same
      simp only [Executes, CoroutinePool.resume, Function.update_self, Context.coroutine,
        Option.some.injEq] at executing
      exact Or.inr ⟨rfl, executing.symm⟩
    · simp only [Executes, CoroutinePool.resume, Function.update_of_ne same] at executing
      exact Or.inl executing
  constructor
  · exact inv.queue
  · exact inv.made
  · exact fun other another isReady => inv.ready other another (entries other another isReady)
  · intro other another executing
    rcases executed other another executing with before | ⟨rfl, rfl⟩
    · exact inv.executes other another before
    · exact inv.ready other another first
  · intro other another resumed
    by_cases same : another = co
    · subst same
      simp only [CoroutinePool.resume, Function.update_self, Option.some.injEq] at resumed
      subst resumed
      exact inv.ready thread another first
    · simp only [CoroutinePool.resume, Function.update_of_ne same] at resumed
      exact inv.resumed other another resumed
  · exact inv.adding
  · intro other target another resetting
    obtain ⟨notReady, notExecuting, notResumed, alone⟩ :=
      inv.alone other target another resetting
    have apart : another ≠ co := by
      rintro rfl
      exact notReady thread first
    refine ⟨fun third isReady => notReady third (entries third another isReady),
      fun third executing => ?_, ?_, alone⟩
    · rcases executed third another executing with before | ⟨-, same⟩
      · exact notExecuting third before
      · exact apart same
    · simp only [CoroutinePool.resume, Function.update_of_ne apart]
      exact notResumed

theorem Inv.backToMain {pool : CoroutinePool Thread} (inv : pool.Inv) (thread : Thread) :
    (pool.backToMain thread).Inv := by
  have executed : ∀ other co, (pool.backToMain thread).Executes other co →
      pool.Executes other co := by
    intro other co executing
    by_cases same : other = thread
    · subst same
      simp [Executes, CoroutinePool.backToMain, Context.coroutine] at executing
    · simp only [Executes, CoroutinePool.backToMain, Function.update_of_ne same] at executing
      exact executing
  constructor
  · exact inv.queue
  · exact inv.made
  · exact inv.ready
  · exact fun other co executing => inv.executes other co (executed other co executing)
  · exact inv.resumed
  · exact inv.adding
  · intro other target co resetting
    obtain ⟨ready, executing, resumed, alone⟩ := inv.alone other target co resetting
    exact ⟨ready, fun third now => executing third (executed third co now), resumed, alone⟩

/-- Every step but the end of a callback. -/
theorem Inv.step {pool next : CoroutinePool Thread} {event : Event Thread} (inv : pool.Inv)
    (runsOn : pool.RunsOn event) (taken : pool.step event = some next) : next.Inv := by
  cases event with
  | getChannel thread scheduler =>
      obtain ⟨outside, rfl⟩ := of_guarded taken
      exact inv.getChannel outside scheduler
  | setCallback thread =>
      obtain ⟨scheduler, co, resetting, rfl⟩ := of_setCallback taken
      exact inv.setCallback resetting
  | pushBack thread =>
      obtain ⟨scheduler, co, pushing, rfl⟩ := of_pushBack taken
      have target : (pool.adding thread).target = some (scheduler, co) := by
        rw [pushing]
        rfl
      refine (inv.push (inv.adding thread scheduler co target) ?_).returned thread
      intro other goal resetting
      have apart : thread ≠ other := by
        rintro rfl
        rw [pushing] at resetting
        cases resetting
      exact inv.different target apart resetting rfl
  | scheduleCo thread co =>
      obtain ⟨⟨-, resumed⟩, rfl⟩ := of_guarded taken
      apply inv.push (inv.resumed thread co resumed)
      intro other target resetting
      have never := (inv.alone other target co resetting).2.2.1
      rw [resumed] at never
      cases never
  | resume thread =>
      obtain ⟨co, rest, ready, rfl⟩ := of_resume taken
      exact inv.resume ready
  | yield thread =>
      rw [of_yield taken]
      exact inv.backToMain thread
  | erase thread => exact runsOn.elim
  | finalYield thread =>
      rw [of_finalYield taken]
      exact inv.backToMain thread

/-! ## While the threads keep apart -/

theorem Returns.setCallback {pool : CoroutinePool Thread} (returns : pool.Returns)
    {thread scheduler : Thread} {co : Coroutine} (unused : ∀ other, ¬ pool.Executes other co) :
    (pool.setCallback thread scheduler co).Returns := by
  intro other another executing
  have apart : another ≠ co := by
    rintro rfl
    exact unused other executing
  simp only [CoroutinePool.setCallback, Function.update_of_ne apart]
  exact returns other another executing

theorem Returns.resume {pool : CoroutinePool Thread} (returns : pool.Returns) {thread : Thread}
    {co : Coroutine} {rest : List Coroutine} (unused : ∀ other, ¬ pool.Executes other co) :
    (pool.resume thread co rest).Returns := by
  intro other another executing
  by_cases same : other = thread
  · subst same
    simp only [Executes, CoroutinePool.resume, Function.update_self, Context.coroutine,
      Option.some.injEq] at executing
    subst executing
    exact Function.update_self ..
  · simp only [Executes, CoroutinePool.resume, Function.update_of_ne same] at executing
    have apart : another ≠ co := by
      rintro rfl
      exact unused other executing
    simp only [CoroutinePool.resume, Function.update_of_ne apart]
    exact returns other another executing

theorem Returns.backToMain {pool : CoroutinePool Thread} (returns : pool.Returns)
    (thread : Thread) : (pool.backToMain thread).Returns := by
  refine returns.of_same rfl fun other co executing => ?_
  by_cases same : other = thread
  · subst same
    simp [Executes, CoroutinePool.backToMain, Context.coroutine] at executing
  · simpa only [Executes, CoroutinePool.backToMain, Function.update_of_ne same] using executing

/-- The coroutine that a thread executes stays the same when its callback ends. -/
theorem Returns.eraseCo {pool : CoroutinePool Thread} (returns : pool.Returns) {thread : Thread}
    {co : Coroutine} (body : pool.context thread = .body co) :
    (pool.eraseCo thread co).Returns := by
  have preCo : (pool.eraseCo thread co).preCo = pool.preCo := by
    rw [CoroutinePool.eraseCo]
    dsimp only
    split <;> rfl
  have context : (pool.eraseCo thread co).context =
      Function.update pool.context thread (.ended co) := rfl
  refine returns.of_same preCo fun other another executing => ?_
  rw [Executes, context] at executing
  by_cases same : other = thread
  · subst same
    rw [Function.update_self] at executing
    rwa [Executes, body]
  · rw [Function.update_of_ne same] at executing
    exact executing

theorem Returns.getChannel {pool : CoroutinePool Thread} (returns : pool.Returns)
    (thread scheduler : Thread) : (pool.getChannel thread scheduler).Returns := by
  unfold CoroutinePool.getChannel get
  split <;> exact returns

theorem Returns.step {pool next : CoroutinePool Thread} {event : Event Thread}
    (returns : pool.Returns) (apart : pool.KeepsApart event)
    (taken : pool.step event = some next) : next.Returns := by
  cases event with
  | getChannel thread scheduler =>
      obtain ⟨-, rfl⟩ := of_guarded taken
      exact returns.getChannel thread scheduler
  | setCallback thread =>
      obtain ⟨scheduler, co, resetting, rfl⟩ := of_setCallback taken
      exact returns.setCallback (apart co (by rw [resetting]; rfl))
  | pushBack thread =>
      obtain ⟨scheduler, co, -, rfl⟩ := of_pushBack taken
      exact returns
  | scheduleCo thread co =>
      obtain ⟨-, rfl⟩ := of_guarded taken
      exact returns
  | resume thread =>
      obtain ⟨co, rest, ready, rfl⟩ := of_resume taken
      obtain ⟨-, alone⟩ := apart co (by rw [ready]; rfl)
      exact returns.resume fun other => (alone other).1
  | yield thread =>
      rw [of_yield taken]
      exact returns.backToMain thread
  | erase thread =>
      obtain ⟨co, body, rfl⟩ := of_erase taken
      exact returns.eraseCo body
  | finalYield thread =>
      rw [of_finalYield taken]
      exact returns.backToMain thread

/-! ## How many are handed out -/

/-- Only `get_channel` hands out a coroutine. -/
theorem step_count_le {pool next : CoroutinePool Thread} {event : Event Thread}
    (other : ∀ thread scheduler, event ≠ .getChannel thread scheduler)
    (taken : pool.step event = some next) : next.count ≤ pool.count := by
  cases event with
  | getChannel thread scheduler => exact absurd rfl (other thread scheduler)
  | setCallback thread =>
      obtain ⟨scheduler, co, -, rfl⟩ := of_setCallback taken
      exact Int.le_refl _
  | pushBack thread =>
      obtain ⟨scheduler, co, -, rfl⟩ := of_pushBack taken
      exact Int.le_refl _
  | scheduleCo thread co =>
      obtain ⟨-, rfl⟩ := of_guarded taken
      exact Int.le_refl _
  | resume thread =>
      obtain ⟨co, rest, -, rfl⟩ := of_resume taken
      exact Int.le_refl _
  | yield thread =>
      rw [of_yield taken]
      exact Int.le_refl _
  | erase thread =>
      obtain ⟨co, -, rfl⟩ := of_erase taken
      rw [eraseCo]
      dsimp only
      split
      · exact Int.sub_le_self _ (by decide)
      · exact Int.le_refl _
  | finalYield thread =>
      rw [of_finalYield taken]
      exact Int.le_refl _

/-- Outside `add_callback` no step changes where a thread is in it. -/
theorem step_adding {pool next : CoroutinePool Thread} {event : Event Thread}
    (other : ∀ thread, (∀ scheduler, event ≠ .getChannel thread scheduler) ∧
      event ≠ .setCallback thread ∧ event ≠ .pushBack thread)
    (taken : pool.step event = some next) : next.adding = pool.adding := by
  cases event with
  | getChannel thread scheduler => exact absurd rfl ((other thread).1 scheduler)
  | setCallback thread => exact absurd rfl (other thread).2.1
  | pushBack thread => exact absurd rfl (other thread).2.2
  | scheduleCo thread co =>
      obtain ⟨-, rfl⟩ := of_guarded taken
      rfl
  | resume thread =>
      obtain ⟨co, rest, -, rfl⟩ := of_resume taken
      rfl
  | yield thread =>
      rw [of_yield taken]
      rfl
  | erase thread =>
      obtain ⟨co, -, rfl⟩ := of_erase taken
      rw [eraseCo]
      dsimp only
      split <;> rfl
  | finalYield thread =>
      rw [of_finalYield taken]
      rfl

/-! ## When a callback ends -/

/-- The channel of a coroutine is destroyed on its own stack. -/
theorem Inv.erase {pool next : CoroutinePool Thread} {thread : Thread} (inv : pool.Inv)
    (taken : pool.step (.erase thread) = some next) :
    ∃ co, next.queue = [co] ∧ next.context thread = .ended co ∧ next.adding = pool.adding := by
  obtain ⟨co, body, rfl⟩ := of_erase taken
  have known : co ∈ pool.coMap thread := inv.executes thread co (by rw [Executes, body]; rfl)
  refine ⟨co, ?_, Function.update_self .., ?_⟩
  · simp [eraseCo, known, giveBack, inv.queue]
  · simp [eraseCo, known, giveBack]

theorem Inv.not_owned_of_erase {pool next : CoroutinePool Thread} {thread : Thread}
    (inv : pool.Inv) (taken : pool.step (.erase thread) = some next) : ¬ next.Owned := by
  obtain ⟨co, free, ended, -⟩ := inv.erase taken
  intro owned
  apply (owned thread co (by rw [Executes, ended]; rfl)).1
  rw [free]
  exact List.mem_singleton_self co

/-- And any other thread can take it and run `set_callback` on the stack that is in use. -/
theorem Inv.overwritten_of_erase {pool next : CoroutinePool Thread} {thread other : Thread}
    (inv : pool.Inv) (taken : pool.step (.erase thread) = some next)
    (outside : pool.adding other = .outside) (scheduler : Thread) :
    ∃ last co, next.step (.getChannel other scheduler) = some last ∧
      last.Executes thread co ∧ last.adding other = .resetting scheduler co := by
  obtain ⟨co, free, ended, adding⟩ := inv.erase taken
  refine ⟨next.getChannel other scheduler, co, ?_, ?_, ?_⟩
  · rw [CoroutinePool.step, if_pos (by rw [adding]; exact outside)]
  · simp [Executes, CoroutinePool.getChannel, get, free, ended, Context.coroutine]
  · simp [CoroutinePool.getChannel, get, free]

/-- The pool owns its free coroutines for as long as no callback ends, and not a step longer. -/
theorem allOwned_iff (events : List (Event Thread)) :
    AllStates step Owned new events ↔ StepsMeet step RunsOn new events := by
  have keeps {pool next : CoroutinePool Thread} {event : Event Thread} (inv : pool.Inv)
      (taken : pool.step event = some next) : next.Owned ↔ pool.RunsOn event := by
    constructor
    · intro owned
      cases event with
      | erase thread => exact absurd owned (inv.not_owned_of_erase taken)
      | _ => trivial
    · exact fun runsOn => (inv.step runsOn taken).owned
  refine allStates_iff_of_good Inv ?_ ?_ events new_inv new_inv.owned
  · intro pool event next inv _ owned taken
    exact inv.step ((keeps inv taken).mp owned) taken
  · intro pool event next inv _ taken
    exact keeps inv taken

/-- A coroutine ends on one thread, and the other one takes it before it has yielded. -/
def endingRun : List (Event Bool) :=
  [.getChannel true true, .setCallback true, .pushBack true, .resume true, .erase true,
    .getChannel false false]

/-- `set_callback` overwrites the registers and the stack that the first thread runs on. -/
theorem endingRun_overwrites : ¬ AllStates step Owned new endingRun := by
  intro all
  obtain ⟨last, run, executing, resetting⟩ : ∃ last, runFrom step new endingRun = some last ∧
      last.Executes true 0 ∧ last.adding false = .resetting false 0 := ⟨_, rfl, rfl, rfl⟩
  exact (all.last run true 0 executing).2 false false resetting

end CoroutinePool

end SimpleWebServer.Co
