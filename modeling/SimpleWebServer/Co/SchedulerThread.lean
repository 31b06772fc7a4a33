import SimpleWebServer.Co.ContextSwitch
import SimpleWebServer.Co.CorouteScheduler

/-!
# The scheduler on the processor of its thread

For `CorouteScheduler` a coroutine runs when `handle_co` resumes it, and no longer runs when it
waits.  On the processor both are calls of `co_swap`: `resume` goes to the coroutine in
`now_co`, and `yield` to the one that `pre_co` of the running coroutine names.  Here the two
are put together.
-/

namespace SimpleWebServer.Co

open SimpleWebServer.Lib
open SimpleWebServer.Lib.X64
open SimpleWebServer.Lib.Runs

/-- The coroutine that runs in a phase. -/
def Phase.co : Phase → Option Coroutine
  | .running nowCo => some nowCo
  | _ => none

/-- The scheduler of a thread and its processor; `n` coroutines have been created. -/
structure SchedulerThread (n : Nat) where
  sche : CorouteScheduler
  /-- `none` is `main_co` -/
  running : Running (Option (Fin n))
  /-- `now_co`, which the constructor does not set -/
  nowCo : Option (Fin n) := none
  /-- `pre_co` of each coroutine -/
  preCo : Fin n → Option (Option (Fin n)) := fun _ => none

namespace SchedulerThread

variable {n : Nat}

inductive Event where
  /-- the running code has come to `pc`, with these registers and this memory -/
  | code (machine : Machine) (pc : Word)
  /-- a step of the scheduler; `back` is behind the `co_swap` that it calls -/
  | sche (event : CorouteScheduler.Event) (back : Word)

/-- The pointer to a coroutine that has been created. -/
def pointer (n : Nat) (co : Coroutine) : Option (Fin n) :=
  if created : co < n then some ⟨co, created⟩ else none

section steps

variable (layout : Layout (Option (Fin n))) (coFun : Word)

/-- The arguments of `co_swap(co, next)` -/
def withArguments (running : Running (Option (Fin n))) (co next : Option (Fin n)) :
    Running (Option (Fin n)) :=
  { running with
    machine.reg := Function.update (Function.update running.machine.reg .rdi (layout.record co))
      .rsi (layout.record next) }

/-- `co->resume(next_co)` in `handle_co`, where `co` is `main_co` -/
def resume (s : SchedulerThread n) (next : Fin n) (back : Word) : SchedulerThread n :=
  { s with
    nowCo := some next
    preCo := Function.update s.preCo next (some none)
    running := (withArguments layout s.running none (some next)).swap (some next) back }

/-- `co->yield()`, whose assertion fails without a `pre_co` -/
def yield (s : SchedulerThread n) (back : Word) (co : Fin n) : Option (SchedulerThread n) :=
  (s.preCo co).map fun next =>
    { s with running := (withArguments layout s.running (some co) next).swap next back }

/-- `co->set_callback`, whose stack is there when it has been given a callback before -/
def setCallback (s : SchedulerThread n) (co : Fin n) : SchedulerThread n :=
  { s with
    preCo := Function.update s.preCo co none
    running := s.running.setCallback layout coFun (some co) !s.running.ready (some co) }

/-- What the processor does in a step of the scheduler. -/
def switch (s : SchedulerThread n) (back : Word) :
    CorouteScheduler.Event → Option (SchedulerThread n)
  | .addCallback co => (pointer n co).map (s.setCallback layout coFun)
  | .resume =>
      s.sche.readyQueue.head?.bind fun entry =>
        (pointer n entry.co).map fun co => s.resume layout co back
  | .io _ _ ready => if ready then some s else s.nowCo.bind (s.yield layout back)
  | .sleep _ => s.nowCo.bind (s.yield layout back)
  -- `co_fun` yields the coroutine that it was called with
  | .finish => s.running.now.bind (s.yield layout back)
  | _ => some s

def step (s : SchedulerThread n) : Event → Option (SchedulerThread n)
  | .code machine pc =>
      some { s with
        running.machine := machine
        running.pc := pc }
  | .sche event back =>
      (s.sche.step event).bind fun sche =>
        (s.switch layout coFun back event).map fun switched => { switched with sche := sche }

/-- `co_swap(co, next)` for the processor: its arguments, and the switch. -/
def swapMoves (running : Running (Option (Fin n))) (co next : Option (Fin n)) (back : Word) :
    List (Running.Event (Option (Fin n))) :=
  [.work (withArguments layout running co next).machine running.pc, .swap next back]

def yieldMoves (s : SchedulerThread n) (back : Word) (co : Fin n) :
    List (Running.Event (Option (Fin n))) :=
  (s.preCo co).elim [] fun next => swapMoves layout s.running (some co) next back

/-- What the processor does in a step, move by move. -/
def moves (s : SchedulerThread n) : Event → List (Running.Event (Option (Fin n)))
  | .code machine pc => [.work machine pc]
  | .sche (.addCallback co) _ =>
      (pointer n co).elim [] fun co => [.setCallback (some co) !s.running.ready (some co)]
  | .sche .resume back =>
      (s.sche.readyQueue.head?.bind fun entry => pointer n entry.co).elim [] fun co =>
        swapMoves layout s.running none (some co) back
  | .sche (.io _ _ ready) back => if ready then [] else s.nowCo.elim [] (s.yieldMoves layout back)
  | .sche (.sleep _) back => s.nowCo.elim [] (s.yieldMoves layout back)
  | .sche .finish back => s.running.now.elim [] (s.yieldMoves layout back)
  | .sche _ _ => []

end steps

/-- A new scheduler, in the code of `main_co`. -/
def start (n : Nat) (machine : Machine) (pc : Word) : SchedulerThread n where
  sche := .new
  running := ⟨machine, pc, none, (·.isNone)⟩

/-! ## What the code has to respect -/

/--
The code leaves the saved registers and the stacks of the other coroutines alone, and has room
on its stack when it calls the scheduler.
-/
def Respects (layout : Layout (Option (Fin n))) (s : SchedulerThread n) : Event → Prop
  | .code machine pc => s.running.Respects layout (.work machine pc)
  | .sche _ _ => Room (layout.stack s.running.now) (s.running.machine.reg .rsp)

/-- The stacks of the coroutines are vectors of `st_size` bytes. -/
def Fits (layout : Layout (Option (Fin n))) : Prop :=
  ∀ co : Fin n, (layout.stack (some co)).size = stSize ∧
    (layout.stack (some co)).base.toNat + stSize ≤ 2 ^ 64

/-! ## The phases and the processor -/

/-- The processor is where the phase says, and `yield` finds what it needs there. -/
structure Inv (s : SchedulerThread n) : Prop where
  now : s.running.now.map Fin.val = s.sche.phase.co
  switches : ∀ co, s.running.now = some co →
    s.nowCo = some co ∧ s.preCo co = some none ∧ s.sche.coMap co ≠ none
  main : s.running.ready none = true
  given : ∀ co, s.sche.coMap co ≠ none →
    ∃ created : co < n, s.running.ready (some ⟨co, created⟩) = true

theorem inv_start (n : Nat) (machine : Machine) (pc : Word) : (start n machine pc).Inv where
  now := rfl
  switches _ runs := nomatch runs
  main := rfl
  given _ known := absurd rfl known

theorem initial_start (n : Nat) (machine : Machine) (pc : Word) :
    (start n machine pc).running.Initial := by
  intro id
  cases id <;> simp [start]

theorem pointer_of_lt {co : Coroutine} (created : co < n) : pointer n co = some ⟨co, created⟩ :=
  dif_pos created

theorem pointer_eq_some {co : Coroutine} {found : Fin n} (isFound : pointer n co = some found) :
    co = found := by
  unfold pointer at isFound
  split at isFound
  · cases isFound
    rfl
  · cases isFound

section steps

variable {layout : Layout (Option (Fin n))} {coFun : Word} {s next : SchedulerThread n}

/-- What a step is, from a state that meets the invariant. -/
inductive Takes (layout : Layout (Option (Fin n))) (coFun : Word) (s : SchedulerThread n) :
    Event → SchedulerThread n → Prop where
  | code (machine : Machine) (pc : Word) :
      Takes layout coFun s (.code machine pc)
        { s with
          running.machine := machine
          running.pc := pc }
  | stays {event : CorouteScheduler.Event} {back : Word} (sche : CorouteScheduler)
      (moves : s.moves layout (.sche event back) = [])
      (coMap : sche.coMap = s.sche.coMap) (phase : sche.phase.co = s.sche.phase.co) :
      Takes layout coFun s (.sche event back) { s with sche := sche }
  | gives {event : CorouteScheduler.Event} {back : Word} (sche : CorouteScheduler) (co : Fin n)
      (moves : s.moves layout (.sche event back) =
        [.setCallback (some co) !s.running.ready (some co)])
      (free : s.sche.coMap co = none) (others : ∀ other, other ≠ co.val →
        sche.coMap other = s.sche.coMap other) (phase : sche.phase = s.sche.phase) :
      Takes layout coFun s (.sche event back)
        { s.setCallback layout coFun co with sche := sche }
  | resumes {event : CorouteScheduler.Event} {back : Word} (sche : CorouteScheduler) (co : Fin n)
      (moves : s.moves layout (.sche event back) =
        swapMoves layout s.running none (some co) back)
      (handling : s.running.now = none) (known : s.sche.coMap co ≠ none)
      (coMap : sche.coMap = Function.update s.sche.coMap co (some .running))
      (phase : sche.phase = .running co) :
      Takes layout coFun s (.sche event back) { s.resume layout co back with sche := sche }
  | yields {event : CorouteScheduler.Event} {back : Word} (sche : CorouteScheduler) (co : Fin n)
      (moves : s.moves layout (.sche event back) =
        swapMoves layout s.running (some co) none back)
      (runs : s.running.now = some co) (others : ∀ other, other ≠ co.val →
        sche.coMap other = s.sche.coMap other) (phase : sche.phase = .handling) :
      Takes layout coFun s (.sche event back)
        { s with
          running := (withArguments layout s.running (some co) none).swap none back
          sche := sche }

theorem Inv.runs (inv : s.Inv) {co : Coroutine} (phase : s.sche.phase = .running co) :
    ∃ found : Fin n, found.val = co ∧ s.running.now = some found := by
  have now := inv.now
  rw [phase] at now
  obtain ⟨found, runs, same⟩ := Option.map_eq_some_iff.mp now
  exact ⟨found, same, runs⟩

theorem Inv.handles (inv : s.Inv) (phase : s.sche.phase.co = none) : s.running.now = none :=
  Option.map_eq_none_iff.mp (inv.now.trans phase)

/-- `pre_co` of the coroutine that runs is `main_co`. -/
theorem Inv.yield_eq (inv : s.Inv) {co : Fin n} (runs : s.running.now = some co) (back : Word) :
    s.yield layout back co = some { s with
      running := (withArguments layout s.running (some co) none).swap none back } := by
  rw [yield, (inv.switches co runs).2.1, Option.map_some]

theorem Inv.yieldMoves_eq (inv : s.Inv) {co : Fin n} (runs : s.running.now = some co)
    (back : Word) :
    s.yieldMoves layout back co = swapMoves layout s.running (some co) none back := by
  rw [yieldMoves, (inv.switches co runs).2.1, Option.elim_some]

/-- The coroutine that runs waits, and `handle_co` goes on. -/
theorem Inv.takes_yields (inv : s.Inv) {event : CorouteScheduler.Event} {back : Word}
    {sche : CorouteScheduler} {switched : SchedulerThread n} {co : Coroutine}
    (phase : s.sche.phase = .running co) (others : ∀ other, other ≠ co →
      sche.coMap other = s.sche.coMap other) (behind : sche.phase = .handling)
    (moved : ∀ found : Fin n, s.running.now = some found → s.nowCo = some found →
      s.yield layout back found = some switched ∧
        s.moves layout (.sche event back) = s.yieldMoves layout back found) :
    Takes layout coFun s (.sche event back) { switched with sche := sche } := by
  obtain ⟨found, rfl, runs⟩ := inv.runs phase
  obtain ⟨yields, moves⟩ := moved found runs (inv.switches found runs).1
  rw [inv.yield_eq runs back] at yields
  rw [inv.yieldMoves_eq runs back] at moves
  cases yields
  exact .yields sche found moves runs others behind

theorem coSleep_coMap (sche : CorouteScheduler) {co other : Coroutine} (added : Timers.Added)
    (isOther : other ≠ co) : (sche.coSleep co added).coMap other = sche.coMap other := by
  cases added with
  | ran =>
      rw [CorouteScheduler.coSleep, CorouteScheduler.suspend,
        (sche.scheduleCo_same ⟨co, .sleep⟩).coMap]
      exact Function.update_of_ne isOther _ _
  | rejected => exact Function.update_of_ne isOther _ _
  | stored => exact Function.update_of_ne isOther _ _

theorem coSleep_phase (sche : CorouteScheduler) (co : Coroutine) (added : Timers.Added) :
    (sche.coSleep co added).phase = .handling := by
  cases added <;> rfl

theorem takes_of_step (inv : s.Inv) {event : Event}
    (taken : s.step layout coFun event = some next) : Takes layout coFun s event next := by
  cases event with
  | code machine pc =>
      cases taken
      exact .code machine pc
  | sche event back =>
      obtain ⟨sche, stepped, more⟩ := Option.bind_eq_some_iff.mp taken
      obtain ⟨switched, moved, rfl⟩ := Option.map_eq_some_iff.mp more
      cases event with
      | addCallback co =>
          obtain ⟨found, isFound, rfl⟩ := Option.map_eq_some_iff.mp moved
          obtain rfl := pointer_eq_some isFound
          obtain ⟨⟨-, free⟩, rfl⟩ := of_guarded stepped
          apply Takes.gives _ found _ free
          · intro other isOther
            simp [CorouteScheduler.addCallback, CorouteScheduler.push, isOther]
          · simp [CorouteScheduler.addCallback, CorouteScheduler.push]
          · rw [moves, isFound, Option.elim_some]
      | handleCo =>
          cases moved
          obtain ⟨⟨idle, -⟩, rfl⟩ := of_guarded stepped
          exact .stays _ rfl rfl (by rw [idle]; rfl)
      | resume =>
          obtain ⟨entry, rest, handling, queue, rfl⟩ := CorouteScheduler.of_resume stepped
          rw [switch, queue] at moved
          obtain ⟨found, isFound, rfl⟩ := Option.map_eq_some_iff.mp moved
          have known : s.sche.coMap entry.co ≠ none := by
            intro ended
            simp [CorouteScheduler.step, handling, queue, ended] at stepped
          have isNext : s.moves layout (.sche .resume back) =
              swapMoves layout s.running none (some found) back := by
            rw [moves, queue, List.head?_cons, Option.bind_some, isFound, Option.elim_some]
          rw [pointer_eq_some isFound] at known ⊢
          exact .resumes _ found isNext (inv.handles (by rw [handling]; rfl)) known rfl rfl
      | handleEnd =>
          cases moved
          obtain ⟨⟨handling, -⟩, rfl⟩ := of_guarded stepped
          exact .stays _ rfl rfl (by rw [handling]; rfl)
      | io fd et ready =>
          obtain ⟨co, phase, rfl⟩ := CorouteScheduler.of_io stepped
          cases ready with
          | true =>
              cases moved
              exact .stays _ rfl rfl rfl
          | false =>
              apply inv.takes_yields phase
                (fun other isOther => Function.update_of_ne isOther _ _) rfl
              rintro found - isNow
              rw [switch, if_neg Bool.false_ne_true, isNow] at moved
              exact ⟨moved, by rw [moves, if_neg Bool.false_ne_true, isNow, Option.elim_some]⟩
      | sleep added =>
          obtain ⟨co, phase, rfl⟩ := CorouteScheduler.of_sleep stepped
          apply inv.takes_yields phase (fun other => coSleep_coMap s.sche added)
            (coSleep_phase s.sche co added)
          rintro found - isNow
          rw [switch, isNow] at moved
          exact ⟨moved, by rw [moves, isNow, Option.elim_some]⟩
      | close fd =>
          cases moved
          obtain ⟨co, -, rfl⟩ := CorouteScheduler.of_close stepped
          exact .stays _ rfl rfl rfl
      | finish =>
          obtain ⟨co, phase, rfl⟩ := CorouteScheduler.of_finish stepped
          apply inv.takes_yields phase (fun other isOther => Function.update_of_ne isOther _ _) rfl
          rintro found runs -
          rw [switch, runs] at moved
          exact ⟨moved, by rw [moves, runs, Option.elim_some]⟩
      | report fd reported =>
          cases moved
          obtain ⟨ch, interest, -, -, -, rfl⟩ := CorouteScheduler.of_report stepped
          have same := CorouteScheduler.scheduleAll_same
            (CorouteScheduler.entriesOf fd (ch.triggerEvents reported))
            { s.sche with
              fdMap := Function.update s.sche.fdMap fd (some (ch.triggerEvents reported).handled)
              interest := Function.update s.sche.interest fd (some interest.reported) }
          exact .stays _ rfl same.coMap (congrArg Phase.co same.phase)
      | fire co =>
          cases moved
          obtain ⟨-, rfl⟩ := of_guarded stepped
          have same := CorouteScheduler.scheduleCo_same
            { s.sche with timers := s.sche.timers.erase co } ⟨co, .sleep⟩
          exact .stays _ rfl same.coMap (congrArg Phase.co same.phase)

theorem ready_setCallback (s : SchedulerThread n) (co : Fin n) :
    (s.setCallback layout coFun co).running.ready (some co) = true :=
  Function.update_self _ _ _

theorem ready_of_setCallback {id : Option (Fin n)} (co : Fin n)
    (ready : s.running.ready id = true) :
    (s.setCallback layout coFun co).running.ready id = true := by
  by_cases same : id = some co
  · rw [same, ready_setCallback]
  · rw [← ready]
    exact Function.update_of_ne same _ _

theorem Inv.of_takes (inv : s.Inv) {event : Event} (takes : Takes layout coFun s event next) :
    next.Inv := by
  cases takes with
  | code machine pc => exact ⟨inv.now, inv.switches, inv.main, inv.given⟩
  | stays sche _ coMap phase =>
      refine ⟨inv.now.trans phase.symm, ?_, inv.main, ?_⟩
      · intro co runs
        rw [coMap]
        exact inv.switches co runs
      · intro co known
        rw [coMap] at known
        exact inv.given co known
  | gives sche co _ free others phase =>
      refine ⟨inv.now.trans (congrArg Phase.co phase.symm), ?_, ?_, ?_⟩
      · intro other runs
        obtain ⟨nowCo, preCo, known⟩ := inv.switches other runs
        have isOther : other ≠ co := by
          rintro rfl
          exact known free
        refine ⟨nowCo, (Function.update_of_ne isOther _ _).trans preCo, ?_⟩
        rw [others other fun same => isOther (Fin.ext same)]
        exact known
      · exact ready_of_setCallback co inv.main
      · intro other known
        by_cases isOther : other = co
        · subst isOther
          exact ⟨co.isLt, ready_setCallback s co⟩
        · rw [others other isOther] at known
          obtain ⟨created, ready⟩ := inv.given other known
          exact ⟨created, ready_of_setCallback co ready⟩
  | resumes sche co _ handling known coMap phase =>
      refine ⟨by rw [phase]; rfl, ?_, inv.main, ?_⟩
      · rintro other ⟨⟩
        refine ⟨rfl, Function.update_self _ _ _, ?_⟩
        rw [coMap, Function.update_self]
        exact Option.some_ne_none _
      · intro other knownThen
        by_cases isOther : other = co
        · subst isOther
          exact inv.given co known
        · rw [coMap, Function.update_of_ne isOther] at knownThen
          exact inv.given other knownThen
  | yields sche co _ runs others phase =>
      refine ⟨by rw [phase]; rfl, ?_, inv.main, ?_⟩
      · rintro other ⟨⟩
      · intro other known
        by_cases isOther : other = co
        · subst isOther
          exact inv.given co (inv.switches co runs).2.2
        · rw [others other isOther] at known
          exact inv.given other known

/-! ## The steps as moves of the processor -/

/-- The move respects the layout, and the coroutines that wait in `s` wait. -/
def Leaves (layout : Layout (Option (Fin n))) (s : SchedulerThread n)
    (thread : Running (Option (Fin n))) (move : Running.Event (Option (Fin n))) : Prop :=
  thread.Respects layout move ∧
    ∀ co : Fin n, s.sche.coMap co ≠ none → s.running.now ≠ some co → thread.Waits (some co) move

theorem withArguments_reg (layout : Layout (Option (Fin n))) (running : Running (Option (Fin n)))
    (co next : Option (Fin n)) (reg : Reg) (rdi : reg ≠ .rdi) (rsi : reg ≠ .rsi) :
    (withArguments layout running co next).machine.reg reg = running.machine.reg reg := by
  simp [withArguments, rdi, rsi]

/-- The coroutine that runs calls `co_swap` as it has to be called. -/
theorem respects_swap {co other : Option (Fin n)} (back : Word) (runs : s.running.now = co)
    (room : Room (layout.stack s.running.now) (s.running.machine.reg .rsp))
    (ready : s.running.ready other) :
    (withArguments layout s.running co other).Respects layout (.swap other back) := by
  subst runs
  refine ⟨?_, ?_, ?_, .inr ready⟩
  · simp [withArguments]
  · simp [withArguments]
  · rw [withArguments_reg layout _ _ _ .rsp (by decide) (by decide)]
    exact room

theorem moves_of_swap {co other : Option (Fin n)} (back : Word) (runs : s.running.now = co)
    (room : Room (layout.stack s.running.now) (s.running.machine.reg .rsp))
    (ready : s.running.ready other) :
    StepsMeet (Running.step layout coFun) (Leaves layout s) s.running
        (swapMoves layout s.running co other back) ∧
      runFrom (Running.step layout coFun) s.running (swapMoves layout s.running co other back) =
        some ((withArguments layout s.running co other).swap other back) := by
  let called := withArguments layout s.running co other
  have work : Leaves layout s s.running (.work called.machine s.running.pc) :=
    ⟨fun _ _ => ⟨Agree.refl _ _, Agree.refl _ _⟩, fun _ _ waits => ⟨waits, fun _ => nofun⟩⟩
  have swap : Leaves layout s called (.swap other back) :=
    ⟨respects_swap back runs room ready, fun _ _ waits => ⟨waits, fun _ => nofun⟩⟩
  exact ⟨⟨work, swap, trivial⟩, rfl⟩

theorem moves_of_takes (fits : Fits layout) (inv : s.Inv) {event : Event}
    (met : s.Respects layout event) (takes : Takes layout coFun s event next) :
    StepsMeet (Running.step layout coFun) (Leaves layout s) s.running (s.moves layout event) ∧
      runFrom (Running.step layout coFun) s.running (s.moves layout event) =
        some next.running := by
  cases takes with
  | code machine pc =>
      exact ⟨⟨⟨met, fun _ _ waits => ⟨waits, fun _ => nofun⟩⟩, trivial⟩, rfl⟩
  | stays sche moves coMap phase =>
      rw [moves]
      exact ⟨trivial, rfl⟩
  | gives sche co moves free others phase =>
      rw [moves]
      refine ⟨⟨⟨⟨?_, fits co⟩, ?_⟩, trivial⟩, rfl⟩
      · intro runs
        exact (inv.switches co runs.symm).2.2 free
      · intro other known waits
        refine ⟨waits, ?_⟩
        rintro first ⟨⟩
        exact known free
  | resumes sche co moves handling known coMap phase =>
      obtain ⟨created, ready⟩ := inv.given co known
      rw [moves]
      exact moves_of_swap _ handling met ready
  | yields sche co moves runs others phase =>
      rw [moves]
      exact moves_of_swap _ runs met inv.main

/-! ## Runs -/

theorem inv_run {first last : SchedulerThread n} {events : List Event} (inv : first.Inv)
    (run : runFrom (step layout coFun) first events = some last) : last.Inv :=
  runFrom_invariant Inv (fun _ _ _ inv taken => inv.of_takes (takes_of_step inv taken)) inv run

/-- What the processor does in a run of the scheduler, move by move. -/
def movesOf (layout : Layout (Option (Fin n))) (coFun : Word) (first : SchedulerThread n)
    (events : List Event) : List (Running.Event (Option (Fin n))) :=
  (actionsOf (step layout coFun) (moves layout) first events).flatten

/-- A run of the scheduler is a run of its processor that respects the layout. -/
theorem moves_run {first last : SchedulerThread n} {events : List Event} (fits : Fits layout)
    (inv : first.Inv) (respects : StepsMeet (step layout coFun) (Respects layout) first events)
    (run : runFrom (step layout coFun) first events = some last) :
    StepsMeet (Running.step layout coFun) (Running.Respects layout) first.running
        (movesOf layout coFun first events) ∧
      runFrom (Running.step layout coFun) first.running (movesOf layout coFun first events) =
        some last.running := by
  refine (run_of_expands (·.running) Inv (moves layout) ?_ inv respects run).2
  intro s event next inv met taken
  have takes := takes_of_step inv taken
  obtain ⟨leaves, ran⟩ := moves_of_takes fits inv met takes
  exact ⟨inv.of_takes takes, leaves.imp fun _ _ => And.left, ran⟩

/-- While a coroutine waits, it stays in `co_map`. -/
theorem coMap_of_takes {event : Event} {co : Fin n} (takes : Takes layout coFun s event next)
    (known : s.sche.coMap co ≠ none) (waits : s.running.now ≠ some co) :
    next.sche.coMap co ≠ none := by
  cases takes with
  | code machine pc => exact known
  | stays sche _ coMap phase =>
      rw [coMap]
      exact known
  | gives sche other _ free others phase =>
      rw [others co]
      · exact known
      · intro same
        rw [same] at known
        exact known free
  | resumes sche other _ handling knownOther coMap phase =>
      rw [coMap, Function.update_apply]
      split_ifs
      · exact Option.some_ne_none _
      · exact known
  | yields sche other _ runs others phase =>
      rw [others co]
      · exact known
      · intro same
        rw [runs, Fin.ext same] at waits
        exact waits rfl

/-- A run in which a coroutine waits is one of the processor in which it waits. -/
theorem waits_run {first last : SchedulerThread n} {events : List Event} {co : Fin n}
    (fits : Fits layout) (inv : first.Inv) (known : first.sche.coMap co ≠ none)
    (waits : StepsMeet (step layout coFun) (fun s event =>
      s.Respects layout event ∧ s.running.now ≠ some co) first events)
    (run : runFrom (step layout coFun) first events = some last) :
    StepsMeet (Running.step layout coFun) (fun thread move =>
        thread.Respects layout move ∧ thread.Waits (some co) move) first.running
        (movesOf layout coFun first events) ∧
      runFrom (Running.step layout coFun) first.running (movesOf layout coFun first events) =
        some last.running := by
  refine (run_of_expands (·.running) (fun s => s.Inv ∧ s.sche.coMap co ≠ none) (moves layout) ?_
    ⟨inv, known⟩ waits run).2
  rintro s event next ⟨inv, known⟩ ⟨met, notNow⟩ taken
  have takes := takes_of_step inv taken
  obtain ⟨leaves, ran⟩ := moves_of_takes fits inv met takes
  exact ⟨⟨inv.of_takes takes, coMap_of_takes takes known notNow⟩,
    leaves.imp fun _ _ met => ⟨met.1, met.2 co known notNow⟩, ran⟩

/-- No pointer that a step of the scheduler goes through is null. -/
theorem switches_of_step (inv : s.Inv) {event : CorouteScheduler.Event} {sche : CorouteScheduler}
    (stepped : s.sche.step event = some sche)
    (created : ∀ co, event = .addCallback co → co < n) (back : Word) :
    ∃ switched, s.switch layout coFun back event = some switched := by
  have yields {co : Coroutine} (phase : s.sche.phase = .running co) :
      ∃ switched, s.nowCo.bind (s.yield layout back) = some switched ∧
        s.running.now.bind (s.yield layout back) = some switched := by
    obtain ⟨found, rfl, runs⟩ := inv.runs phase
    rw [runs, (inv.switches found runs).1]
    exact ⟨_, inv.yield_eq runs back, inv.yield_eq runs back⟩
  cases event with
  | addCallback co =>
      rw [switch, pointer_of_lt (created co rfl)]
      exact ⟨_, rfl⟩
  | resume =>
      obtain ⟨entry, rest, handling, queue, rfl⟩ := CorouteScheduler.of_resume stepped
      have known : s.sche.coMap entry.co ≠ none := by
        intro ended
        simp [CorouteScheduler.step, handling, queue, ended] at stepped
      obtain ⟨wasCreated, -⟩ := inv.given entry.co known
      rw [switch, queue, List.head?_cons, Option.bind_some, pointer_of_lt wasCreated]
      exact ⟨_, rfl⟩
  | io fd et ready =>
      obtain ⟨co, phase, -⟩ := CorouteScheduler.of_io stepped
      obtain ⟨switched, moved, -⟩ := yields phase
      cases ready with
      | true => exact ⟨s, rfl⟩
      | false => exact ⟨switched, moved⟩
  | sleep added =>
      obtain ⟨co, phase, -⟩ := CorouteScheduler.of_sleep stepped
      obtain ⟨switched, moved, -⟩ := yields phase
      exact ⟨switched, moved⟩
  | finish =>
      obtain ⟨co, phase, -⟩ := CorouteScheduler.of_finish stepped
      obtain ⟨switched, -, moved⟩ := yields phase
      exact ⟨switched, moved⟩
  | _ => exact ⟨s, rfl⟩

/-- The coroutine waits in `co_map`, and `handle_co` goes on. -/
def Suspends : CorouteScheduler.Event → Prop
  | .io _ _ ready => ready = false
  | .sleep _ => True
  | _ => False

theorem phase_of_suspends {sche next : CorouteScheduler} {event : CorouteScheduler.Event}
    (suspends : Suspends event) (stepped : sche.step event = some next) :
    ∃ co, sche.phase = .running co ∧ next.phase = .handling ∧ next.coMap co ≠ none := by
  cases event with
  | io fd et ready =>
      obtain ⟨co, phase, rfl⟩ := CorouteScheduler.of_io stepped
      obtain rfl : ready = false := suspends
      refine ⟨co, phase, rfl, ?_⟩
      simp [CorouteScheduler.ioBlocked, CorouteScheduler.suspend]
  | sleep added =>
      obtain ⟨co, phase, rfl⟩ := CorouteScheduler.of_sleep stepped
      refine ⟨co, phase, coSleep_phase _ _ _, ?_⟩
      cases added <;> simp [CorouteScheduler.coSleep, CorouteScheduler.suspend]
  | _ => exact suspends.elim

/-- What suspends a coroutine is a call of `co_swap` to `main_co`. -/
theorem running_of_suspends (inv : s.Inv) {event : CorouteScheduler.Event} {back : Word}
    {co : Fin n} (suspends : Suspends event) (runs : s.running.now = some co)
    (taken : s.step layout coFun (.sche event back) = some next) :
    next.running = (withArguments layout s.running (some co) none).swap none back ∧
      next.sche.coMap co ≠ none := by
  have takes := takes_of_step inv taken
  obtain ⟨sche, stepped, more⟩ := Option.bind_eq_some_iff.mp taken
  obtain ⟨switched, -, same⟩ := Option.map_eq_some_iff.mp more
  have isSche : next.sche = sche := by rw [← same]
  obtain ⟨caller, phase, behind, known⟩ := phase_of_suspends suspends stepped
  obtain ⟨found, rfl, isNow⟩ := inv.runs phase
  obtain rfl := Option.some.inj (isNow.symm.trans runs)
  rw [← isSche] at behind known
  refine ⟨?_, known⟩
  cases takes with
  | stays other _ coMap kept =>
      have handles : other.phase = .handling := behind
      rw [phase, handles] at kept
      cases kept
  | gives other co _ free others kept =>
      have handles : other.phase = .handling := behind
      rw [phase, handles] at kept
      cases kept
  | resumes other co _ handling known coMap same =>
      rw [handling] at runs
      cases runs
  | yields other co _ nowRuns others same =>
      rw [runs] at nowRuns
      cases nowRuns
      rfl

/-- What a run of the scheduler is for the fibers of its coroutines. -/
def fiberActions (layout : Layout (Option (Fin n))) (coFun : Word) (first : SchedulerThread n)
    (events : List Event) : List (Fibers.Action (Option (Fin n)) Fiber Word) :=
  actionsOf (Running.step layout coFun) (Running.action layout coFun) first.running
    (movesOf layout coFun first events)

/--
In a run of the scheduler on its thread the processor runs the coroutine that the scheduler
says it runs, and whatever the scheduler does next, `now_co` and `pre_co` are there for it; for
the coroutines the run is one of fibers, with a switch for each `resume` and each `yield`.
-/
theorem runs_scheduler {machine : Machine} {pc : Word} {last : SchedulerThread n}
    {events : List Event} (fits : Fits layout)
    (respects : StepsMeet (step layout coFun) (Respects layout) (start n machine pc) events)
    (run : runFrom (step layout coFun) (start n machine pc) events = some last) :
    last.running.now.map Fin.val = last.sche.phase.co ∧
    (∀ event sche back, last.sche.step event = some sche →
      (∀ co, event = .addCallback co → co < n) →
      ∃ after, last.step layout coFun (.sche event back) = some after ∧ after.sche = sche) ∧
    runFrom (Fibers.step Fiber.goOn) ((start n machine pc).running.fibers layout)
      (fiberActions layout coFun (start n machine pc) events) =
        some (last.running.fibers layout) := by
  have inv := inv_run (inv_start n machine pc) run
  refine ⟨inv.now, ?_, ?_⟩
  · intro event sche back stepped created
    obtain ⟨switched, moved⟩ : ∃ switched, last.switch layout coFun back event = some switched :=
      switches_of_step inv stepped created back
    exact ⟨{ switched with sche := sche }, by rw [step, stepped, Option.bind_some, moved]; rfl, rfl⟩
  · obtain ⟨met, ran⟩ := moves_run fits (inv_start n machine pc) respects run
    exact (Running.fibers_run_of_sound (initial_start n machine pc).sound met ran).1

/--
For a coroutine `co_read`, `co_write`, `co_accept` and `co_sleep` return from where they wait:
when the thread runs the coroutine again, it goes on behind its call of `co_swap`, with the
registers that a call keeps and with the bytes of its stack, whatever the scheduler and the
other coroutines have done.
-/
theorem wait_returns {machine : Machine} {pc back : Word} {caller left last : SchedulerThread n}
    {before events : List Event} {event : CorouteScheduler.Event} {co : Fin n}
    (fits : Fits layout)
    (respects : StepsMeet (step layout coFun) (Respects layout) (start n machine pc)
      (before ++ .sche event back :: events))
    (runBefore : runFrom (step layout coFun) (start n machine pc) before = some caller)
    (runs : caller.running.now = some co) (suspends : Suspends event)
    (leaves : caller.step layout coFun (.sche event back) = some left)
    (waits : StepsMeet (step layout coFun) (fun s _ => s.running.now ≠ some co) left events)
    (run : runFrom (step layout coFun) left events = some last)
    (again : last.running.now = some co) :
    last.running.pc = back ∧
    (∀ reg, reg ∉ [Reg.rax, Reg.r10, Reg.r11, Reg.rdi, Reg.rsi] →
      last.running.machine.reg reg = caller.running.machine.reg reg) ∧
    ∀ address, (layout.stack (some co)).Has address →
      (caller.running.machine.reg .rsp - (layout.stack (some co)).base).toNat ≤
        (address - (layout.stack (some co)).base).toNat →
      last.running.machine.mem address = caller.running.machine.mem address := by
  have inv := inv_run (inv_start n machine pc) runBefore
  -- the call
  obtain ⟨metBefore, ranBefore⟩ :=
    moves_run fits (inv_start n machine pc) respects.front runBefore
  have sound : (withArguments layout caller.running (some co) none).Sound layout :=
    (Running.fibers_run_of_sound (initial_start n machine pc).sound metBefore ranBefore).2
  have metBehind := respects.behind runBefore
  simp only [StepsMeet, leaves] at metBehind
  obtain ⟨room, metAfter⟩ := metBehind
  have called := respects_swap back runs room inv.main
  obtain ⟨isSwap, known⟩ := running_of_suspends inv suspends runs leaves
  -- the wait
  obtain ⟨metMoves, ran⟩ := waits_run fits (inv.of_takes (takes_of_step inv leaves)) known
    (metAfter.and waits) run
  have now : (withArguments layout caller.running (some co) none).now = some co := runs
  have kept {reg : Reg} := withArguments_reg layout caller.running (some co) none reg
  have sameMem : (withArguments layout caller.running (some co) none).machine.mem =
      caller.running.machine.mem := rfl
  rw [← kept (by decide) (by decide), ← sameMem]
  rw [isSwap] at metMoves ran
  generalize withArguments layout caller.running (some co) none = thread at *
  rw [← now] at metMoves again
  obtain ⟨goesOn, regs, bytes⟩ := Running.returns_of_swap sound called metMoves ran again
  rw [now] at bytes
  refine ⟨goesOn, ?_, bytes⟩
  intro reg isKept
  simp only [List.mem_cons, List.not_mem_nil, or_false, not_or] at isKept
  obtain ⟨rax, r10, r11, rdi, rsi⟩ := isKept
  rw [regs reg (by simp [rax, r10, r11]), kept rdi rsi]

end steps

/-! ## A coroutine that sleeps -/

section sleeper

theorem isSome_injective : Function.Injective (Option.isSome : Option (Fin 1) → Bool)
  | none, none, _ => rfl
  | some co, some other, _ => congrArg some (Subsingleton.elim co other)

def soloLayout : Layout (Option (Fin 1)) := Running.pairLayout.comap Option.isSome isSome_injective

theorem soloLayout_fits : Fits soloLayout := by
  intro co
  exact ⟨rfl, show (0x100000 : Word).toNat + stSize ≤ 2 ^ 64 by decide⟩

def sleeperStart : SchedulerThread 1 :=
  start 1 ⟨Running.callingReg 0x10800 false true, fun _ => 0⟩ 0x4000

/-- The code of the coroutine comes to a call. -/
def atCall (s : SchedulerThread 1) (sp : Word) : Event :=
  .code ⟨Running.callingReg sp false true, s.running.machine.mem⟩ 0x5020

theorem atCall_respects (s : SchedulerThread 1) (sp : Word) :
    s.Respects soloLayout (atCall s sp) :=
  fun _ _ => ⟨Agree.refl _ _, Agree.refl _ _⟩

/-- The state behind an event. -/
def behind (s : SchedulerThread 1) (event : Event) : SchedulerThread 1 :=
  (s.step soloLayout 0x5000 event).getD s

def sleeperResumed : SchedulerThread 1 :=
  ((sleeperStart.behind (.sche (.addCallback 0) 0)).behind (.sche .handleCo 0)).behind
    (.sche .resume 0x4005)

def sleeperCalls : SchedulerThread 1 := sleeperResumed.behind (atCall sleeperResumed 0x100100)

/-- It calls `co_sleep`, and the thread is back in `handle_co`. -/
def sleeperWaits : SchedulerThread 1 :=
  sleeperCalls.behind (.sche (.sleep (.stored ⟨1000, 0⟩)) 0x5025)

def sleeperBefore : List Event :=
  [.sche (.addCallback 0) 0, .sche .handleCo 0, .sche .resume 0x4005,
    atCall sleeperResumed 0x100100]

def sleeperBehind : List Event :=
  [atCall sleeperWaits 0x10800, .sche .handleEnd 0, .sche (.fire 0) 0, .sche .handleCo 0,
    .sche .resume 0x4005]

theorem sleeperBefore_respects : StepsMeet (step soloLayout 0x5000) (Respects soloLayout)
    sleeperStart sleeperBefore :=
  ⟨⟨by decide, by decide⟩, ⟨by decide, by decide⟩, ⟨by decide, by decide⟩,
    atCall_respects sleeperResumed 0x100100, trivial⟩

theorem sleeperBehind_respects : StepsMeet (step soloLayout 0x5000) (Respects soloLayout)
    sleeperWaits sleeperBehind :=
  ⟨atCall_respects sleeperWaits 0x10800, ⟨by decide, by decide⟩, ⟨by decide, by decide⟩,
    ⟨by decide, by decide⟩, ⟨by decide, by decide⟩, trivial⟩

/-- The coroutine begins, sleeps, and goes on. -/
def sleeperRun : List Event :=
  sleeperBefore ++ .sche (.sleep (.stored ⟨1000, 0⟩)) 0x5025 :: sleeperBehind

theorem sleeperRun_respects : StepsMeet (step soloLayout 0x5000) (Respects soloLayout)
    sleeperStart sleeperRun := by
  have runBefore : runFrom (step soloLayout 0x5000) sleeperStart sleeperBefore =
      some sleeperCalls := rfl
  have calls : sleeperCalls.Respects soloLayout (.sche (.sleep (.stored ⟨1000, 0⟩)) 0x5025) :=
    ⟨by decide, by decide⟩
  exact sleeperBefore_respects.append runBefore ⟨calls, sleeperBehind_respects⟩

theorem runs_scheduler_sleeper : ∃ last,
    runFrom (step soloLayout 0x5000) sleeperStart sleeperRun = some last ∧
      last.running.now.map Fin.val = some 0 ∧
      runFrom (Fibers.step Fiber.goOn) (sleeperStart.running.fibers soloLayout)
        (fiberActions soloLayout 0x5000 sleeperStart sleeperRun) =
          some (last.running.fibers soloLayout) := by
  obtain ⟨last, run⟩ : ∃ last,
      runFrom (step soloLayout 0x5000) sleeperStart sleeperRun = some last := ⟨_, rfl⟩
  obtain ⟨now, -, fibers⟩ := runs_scheduler soloLayout_fits sleeperRun_respects run
  refine ⟨last, run, now.trans ?_, fibers⟩
  cases run
  rfl

theorem wait_returns_sleeper : ∃ last : SchedulerThread 1,
    runFrom (step soloLayout 0x5000) sleeperWaits sleeperBehind = some last ∧
      last.running.pc = 0x5025 := by
  have waits : StepsMeet (step soloLayout 0x5000) (fun s _ => s.running.now ≠ some 0) sleeperWaits
      sleeperBehind := ⟨by decide, by decide, by decide, by decide, by decide, trivial⟩
  refine ⟨_, rfl, ?_⟩
  exact (wait_returns soloLayout_fits sleeperRun_respects rfl rfl trivial rfl waits rfl rfl).1

end sleeper

end SchedulerThread

end SimpleWebServer.Co
