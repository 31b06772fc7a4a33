import Mathlib.Data.List.Basic

/-!
# Runs of guarded step functions

A system is a partial step function: `step state event` is `some next` when the
event is enabled in `state`, and `none` otherwise.  `runFrom` replays a finite
list of events.  `AllStates` and `StepsMeet` speak about every state a run
passes through and about every step it takes, and `Reaches` about some
continuation of it.
-/

namespace SimpleWebServer.Lib.Runs

variable {State Event : Type*}

/-- Replay the events in order; `none` when one of them is not enabled. -/
def runFrom (step : State → Event → Option State) : State → List Event → Option State
  | state, [] => some state
  | state, event :: rest =>
      match step state event with
      | none => none
      | some next => runFrom step next rest

/-- Every state that replaying the events passes through satisfies `good`. -/
def AllStates (step : State → Event → Option State) (good : State → Prop) :
    State → List Event → Prop
  | state, [] => good state
  | state, event :: rest =>
      good state ∧
        match step state event with
        | none => True
        | some next => AllStates step good next rest

/-- Every enabled step of the replay is taken from a state that meets `guard`. -/
def StepsMeet (step : State → Event → Option State) (guard : State → Event → Prop) :
    State → List Event → Prop
  | _, [] => True
  | state, event :: rest =>
      match step state event with
      | none => True
      | some next => guard state event ∧ StepsMeet step guard next rest

/-- Some events lead from a state to a bad one. -/
def Reaches (step : State → Event → Option State) (bad : State → Prop) (state : State) : Prop :=
  ∃ events last, runFrom step state events = some last ∧ bad last

/-- A replay can be checked state by state. -/
instance AllStates.decidable (step : State → Event → Option State) (good : State → Prop)
    [DecidablePred good] :
    (state : State) → (events : List Event) → Decidable (AllStates step good state events)
  | state, [] => inferInstanceAs (Decidable (good state))
  | state, event :: rest =>
      have : Decidable (match step state event with
          | none => True
          | some next => AllStates step good next rest) :=
        match step state event with
        | none => .isTrue trivial
        | some next => AllStates.decidable step good next rest
      inferInstanceAs (Decidable (good state ∧ _))

/-- So can the condition on its steps. -/
instance StepsMeet.decidable (step : State → Event → Option State) (guard : State → Event → Prop)
    [∀ state event, Decidable (guard state event)] :
    (state : State) → (events : List Event) → Decidable (StepsMeet step guard state events)
  | _, [] => .isTrue trivial
  | state, event :: rest =>
      match taken : step state event with
      | none => .isTrue (by simp [StepsMeet, taken])
      | some next =>
          have := StepsMeet.decidable step guard next rest
          decidable_of_iff (guard state event ∧ StepsMeet step guard next rest)
            (by simp [StepsMeet, taken])

variable {step : State → Event → Option State}

@[simp]
theorem runFrom_nil (state : State) : runFrom step state [] = some state := rfl

theorem runFrom_cons (state : State) (event : Event) (rest : List Event) :
    runFrom step state (event :: rest) =
      (step state event).bind fun next => runFrom step next rest := by
  cases taken : step state event <;> simp [runFrom, taken]

/-- Replaying a concatenation is replaying the first list and then the second. -/
theorem runFrom_append (state : State) (first second : List Event) :
    runFrom step state (first ++ second) =
      (runFrom step state first).bind fun middle => runFrom step middle second := by
  induction first generalizing state with
  | nil => rfl
  | cons event rest ih =>
      rw [List.cons_append, runFrom_cons, runFrom_cons]
      cases step state event with
      | none => rfl
      | some next => exact ih next

theorem runFrom_next {state next : State} {event : Event} (taken : step state event = some next)
    (rest : List Event) : runFrom step state (event :: rest) = runFrom step next rest := by
  rw [runFrom_cons, taken, Option.bind_some]

theorem runFrom_concat {first middle last : State} {events : List Event} {event : Event}
    (run : runFrom step first events = some middle) (taken : step middle event = some last) :
    runFrom step first (events ++ [event]) = some last := by
  rw [runFrom_append, run, Option.bind_some, runFrom_next taken, runFrom_nil]

/-- The steps of the beginning of a run. -/
theorem StepsMeet.front {guard : State → Event → Prop} {first : State} {events more : List Event}
    (meets : StepsMeet step guard first (events ++ more)) :
    StepsMeet step guard first events := by
  induction events generalizing first with
  | nil => trivial
  | cons event rest ih =>
      cases taken : step first event with
      | none => simp [StepsMeet, taken]
      | some next =>
          simp only [List.cons_append, StepsMeet, taken] at meets ⊢
          exact ⟨meets.1, ih meets.2⟩

/-- The steps of what follows it. -/
theorem StepsMeet.behind {guard : State → Event → Prop} {first middle : State}
    {events more : List Event} (meets : StepsMeet step guard first (events ++ more))
    (run : runFrom step first events = some middle) : StepsMeet step guard middle more := by
  induction events generalizing first with
  | nil =>
      cases run
      exact meets
  | cons event rest ih =>
      cases taken : step first event with
      | none => simp [runFrom, taken] at run
      | some next =>
          simp only [List.cons_append, StepsMeet, taken] at meets
          simp only [runFrom, taken] at run
          exact ih meets.2 run

/-- What meets a guard meets a weaker one. -/
theorem StepsMeet.imp {guard weaker : State → Event → Prop} {first : State} {events : List Event}
    (meets : StepsMeet step guard first events)
    (weakens : ∀ state event, guard state event → weaker state event) :
    StepsMeet step weaker first events := by
  induction events generalizing first with
  | nil => trivial
  | cons event rest ih =>
      cases taken : step first event with
      | none => simp [StepsMeet, taken]
      | some next =>
          simp only [StepsMeet, taken] at meets ⊢
          exact ⟨weakens first event meets.1, ih meets.2⟩

/-- What meets two guards meets both. -/
theorem StepsMeet.and {guard other : State → Event → Prop} {first : State} {events : List Event}
    (meets : StepsMeet step guard first events) (meetsOther : StepsMeet step other first events) :
    StepsMeet step (fun state event => guard state event ∧ other state event) first events := by
  induction events generalizing first with
  | nil => trivial
  | cons event rest ih =>
      cases taken : step first event with
      | none => simp [StepsMeet, taken]
      | some next =>
          simp only [StepsMeet, taken] at meets meetsOther ⊢
          exact ⟨⟨meets.1, meetsOther.1⟩, ih meets.2 meetsOther.2⟩

/-- The steps of a run and of one that goes on from its end. -/
theorem StepsMeet.append {guard : State → Event → Prop} {first middle : State}
    {events more : List Event} (meets : StepsMeet step guard first events)
    (run : runFrom step first events = some middle) (behind : StepsMeet step guard middle more) :
    StepsMeet step guard first (events ++ more) := by
  induction events generalizing first with
  | nil =>
      cases run
      exact behind
  | cons event rest ih =>
      rw [runFrom_cons] at run
      obtain ⟨next, taken, ran⟩ := Option.bind_eq_some_iff.mp run
      simp only [List.cons_append, StepsMeet, taken] at meets ⊢
      exact ⟨meets.1, ih meets.2 ran⟩

/-- A step that is met is added to a run. -/
theorem StepsMeet.concat {guard : State → Event → Prop} {first middle : State}
    {events : List Event} {event : Event} (meets : StepsMeet step guard first events)
    (run : runFrom step first events = some middle) (met : guard middle event) :
    StepsMeet step guard first (events ++ [event]) := by
  apply meets.append run
  cases taken : step middle event with
  | none => simp [StepsMeet, taken]
  | some next => simpa [StepsMeet, taken] using met

/-- A run whose steps meet the guard is good throughout when the guarded invariant is good. -/
theorem allStates_of_stepsMeet (invariant : State → Prop) {good : State → Prop}
    {guard : State → Event → Prop}
    (preserved : ∀ state event next, invariant state → guard state event →
      step state event = some next → invariant next)
    (enough : ∀ state, invariant state → good state) {first : State} (events : List Event)
    (start : invariant first) (meets : StepsMeet step guard first events) :
    AllStates step good first events := by
  induction events generalizing first with
  | nil => exact enough first start
  | cons event rest ih =>
      refine ⟨enough first start, ?_⟩
      cases taken : step first event with
      | none => trivial
      | some next =>
          simp only [StepsMeet, taken] at meets
          exact ih (preserved first event next start meets.1 taken) meets.2

/-- When every step preserves the invariant, no step needs to meet anything. -/
theorem allStates_of_invariant (invariant : State → Prop) {good : State → Prop}
    (preserved : ∀ state event next, invariant state → step state event = some next →
      invariant next)
    (enough : ∀ state, invariant state → good state) {first : State} (events : List Event)
    (start : invariant first) : AllStates step good first events := by
  induction events generalizing first with
  | nil => exact enough first start
  | cons event rest ih =>
      refine ⟨enough first start, ?_⟩
      cases taken : step first event with
      | none => trivial
      | some next => exact ih (preserved first event next start taken)

/-- Every step of a run meets what the invariant says of the steps from its states. -/
theorem stepsMeet_of_invariant (invariant : State → Prop) {guard : State → Event → Prop}
    (preserved : ∀ state event next, invariant state → step state event = some next →
      invariant next)
    (enough : ∀ state event, invariant state → guard state event) {first : State}
    (events : List Event) (start : invariant first) : StepsMeet step guard first events := by
  induction events generalizing first with
  | nil => trivial
  | cons event rest ih =>
      cases taken : step first event with
      | none => simp [StepsMeet, taken]
      | some next =>
          simp only [StepsMeet, taken]
          exact ⟨enough first event start, ih (preserved first event next start taken)⟩

/-- Guards that agree on the steps from sound states are met by the same runs. -/
theorem stepsMeet_congr (sound : State → Prop) {guard other : State → Event → Prop}
    (preserved : ∀ state event next, sound state → step state event = some next → sound next)
    (agree : ∀ state event next, sound state → step state event = some next →
      (guard state event ↔ other state event))
    {first : State} (events : List Event) (start : sound first) :
    StepsMeet step guard first events ↔ StepsMeet step other first events := by
  induction events generalizing first with
  | nil => exact Iff.rfl
  | cons event rest ih =>
      cases taken : step first event with
      | none => simp [StepsMeet, taken]
      | some next =>
          simp only [StepsMeet, taken]
          exact and_congr (agree first event next start taken)
            (ih (preserved first event next start taken))

/-- The first state of a run is one of the states it passes through. -/
theorem AllStates.head {good : State → Prop} {first : State} {events : List Event}
    (all : AllStates step good first events) : good first := by
  cases events with
  | nil => exact all
  | cons event rest => exact all.1

/-- A run that stays good stays in whatever contains the good states. -/
theorem AllStates.imp {good weaker : State → Prop} {first : State} {events : List Event}
    (all : AllStates step good first events) (weakens : ∀ state, good state → weaker state) :
    AllStates step weaker first events := by
  induction events generalizing first with
  | nil => exact weakens first all
  | cons event rest ih =>
      refine ⟨weakens first all.1, ?_⟩
      cases taken : step first event with
      | none => trivial
      | some next =>
          simp only [AllStates, taken] at all
          exact ih all.2

/--
When `guard` decides at every step from a good state whether the next state is still good, a
run stays good exactly when all its steps meet the guard.  `sound` is what a step from a good
state to a good state preserves.
-/
theorem allStates_iff_of_good (sound : State → Prop) {good : State → Prop}
    {guard : State → Event → Prop}
    (preserved : ∀ state event next, sound state → good state → good next →
      step state event = some next → sound next)
    (decides : ∀ state event next, sound state → good state →
      step state event = some next → (good next ↔ guard state event))
    {first : State} (events : List Event) (startSound : sound first) (startGood : good first) :
    AllStates step good first events ↔ StepsMeet step guard first events := by
  induction events generalizing first with
  | nil => exact ⟨fun _ => trivial, fun _ => startGood⟩
  | cons event rest ih =>
      cases taken : step first event with
      | none => simp [AllStates, StepsMeet, taken, startGood]
      | some next =>
          have decided := decides first event next startSound startGood taken
          have nextSound (nextGood : good next) : sound next :=
            preserved first event next startSound startGood nextGood taken
          simp only [AllStates, StepsMeet, taken, startGood, true_and]
          constructor
          · intro all
            have nextGood : good next := all.head
            exact ⟨decided.mp nextGood, (ih (nextSound nextGood) nextGood).mp all⟩
          · rintro ⟨met, meets⟩
            have nextGood : good next := decided.mpr met
            exact (ih (nextSound nextGood) nextGood).mpr meets

/-- The same when every step preserves `sound`, whatever the guard says. -/
theorem allStates_iff_stepsMeet (sound : State → Prop) {good : State → Prop}
    {guard : State → Event → Prop}
    (preserved : ∀ state event next, sound state → step state event = some next → sound next)
    (decides : ∀ state event next, sound state → good state →
      step state event = some next → (good next ↔ guard state event))
    {first : State} (events : List Event) (startSound : sound first) (startGood : good first) :
    AllStates step good first events ↔ StepsMeet step guard first events :=
  allStates_iff_of_good sound
    (fun state event next isSound _ _ => preserved state event next isSound)
    decides events startSound startGood

/-- The last state of a run is one of the states it passes through. -/
theorem AllStates.last {good : State → Prop} {first last : State} {events : List Event}
    (all : AllStates step good first events) (run : runFrom step first events = some last) :
    good last := by
  induction events generalizing first with
  | nil =>
      cases run
      exact all
  | cons event rest ih =>
      cases taken : step first event with
      | none => simp [runFrom, taken] at run
      | some next =>
          simp only [runFrom, taken] at run
          simp only [AllStates, taken] at all
          exact ih all.2 run

/-- A predicate that the steps meeting `guard` preserve holds at the end of their run. -/
theorem runFrom_guarded_invariant (good : State → Prop) {guard : State → Event → Prop}
    (preserved : ∀ state event next, good state → guard state event →
      step state event = some next → good next)
    {first last : State} {events : List Event} (start : good first)
    (meets : StepsMeet step guard first events)
    (run : runFrom step first events = some last) : good last :=
  (allStates_of_stepsMeet good preserved (fun _ => id) events start meets).last run

/-- A predicate that every step preserves holds at the end of a run. -/
theorem runFrom_invariant (good : State → Prop)
    (preserved : ∀ state event next, good state → step state event = some next → good next)
    {first last : State} {events : List Event} (start : good first)
    (run : runFrom step first events = some last) : good last := by
  induction events generalizing first with
  | nil =>
      cases run
      exact start
  | cons event rest ih =>
      rw [runFrom_cons] at run
      obtain ⟨next, taken, rest⟩ := Option.bind_eq_some_iff.mp run
      exact ih (preserved first event next start taken) rest

/-! ## Two levels -/

/-- When each step is at most one step of an abstraction, a run is a run of the abstraction. -/
theorem run_of_stutters {Abstract Action : Type*} {above : Abstract → Action → Option Abstract}
    (view : State → Abstract)
    (simulates : ∀ state event next, step state event = some next →
      view next = view state ∨ ∃ action, above (view state) action = some (view next))
    {first last : State} {events : List Event} (run : runFrom step first events = some last) :
    ∃ actions, runFrom above (view first) actions = some (view last) := by
  induction events generalizing first with
  | nil =>
      cases run
      exact ⟨[], rfl⟩
  | cons event rest ih =>
      rw [runFrom_cons] at run
      obtain ⟨next, taken, more⟩ := Option.bind_eq_some_iff.mp run
      obtain ⟨actions, ran⟩ := ih more
      rcases simulates first event next taken with same | ⟨action, stepped⟩
      · exact ⟨actions, by rw [← same]; exact ran⟩
      · exact ⟨action :: actions, (runFrom_next stepped actions).trans ran⟩

/-- The actions that the steps of a run are for an abstraction. -/
def actionsOf {Action : Type*} (step : State → Event → Option State)
    (action : State → Event → Action) : State → List Event → List Action
  | _, [] => []
  | state, event :: rest =>
      match step state event with
      | none => []
      | some next => action state event :: actionsOf step action next rest

/-- When the steps that meet a guard are steps of an abstraction, so is a run of them. -/
theorem run_of_simulates {Abstract Action : Type*} {above : Abstract → Action → Option Abstract}
    (related : State → Abstract → Prop) {guard : State → Event → Prop}
    (action : State → Event → Action)
    (simulates : ∀ state view event next, related state view → guard state event →
      step state event = some next →
      ∃ after, above view (action state event) = some after ∧ related next after)
    {first last : State} {view : Abstract} {events : List Event} (start : related first view)
    (meets : StepsMeet step guard first events)
    (run : runFrom step first events = some last) :
    ∃ after, runFrom above view (actionsOf step action first events) = some after ∧
      related last after := by
  induction events generalizing first view with
  | nil =>
      cases run
      exact ⟨view, rfl, start⟩
  | cons event rest ih =>
      rw [runFrom_cons] at run
      obtain ⟨next, taken, more⟩ := Option.bind_eq_some_iff.mp run
      simp only [StepsMeet, taken] at meets
      obtain ⟨middle, stepped, behind⟩ := simulates first view event next start meets.1 taken
      obtain ⟨after, ran, ends⟩ := ih behind meets.2 more
      refine ⟨after, ?_, ends⟩
      simp only [actionsOf, taken]
      exact (runFrom_next stepped _).trans ran

/-- A guard of the steps that implies one of the abstract steps is met by both runs. -/
theorem stepsMeet_of_simulates {Abstract Action : Type*}
    {above : Abstract → Action → Option Abstract} (related : State → Abstract → Prop)
    {guard : State → Event → Prop} {aboveGuard : Abstract → Action → Prop}
    (action : State → Event → Action)
    (simulates : ∀ state view event next, related state view → guard state event →
      step state event = some next →
      aboveGuard view (action state event) ∧
        ∃ after, above view (action state event) = some after ∧ related next after)
    {first : State} {view : Abstract} {events : List Event} (start : related first view)
    (meets : StepsMeet step guard first events) :
    StepsMeet above aboveGuard view (actionsOf step action first events) := by
  induction events generalizing first view with
  | nil => trivial
  | cons event rest ih =>
      cases taken : step first event with
      | none => simp [actionsOf, taken, StepsMeet]
      | some next =>
          simp only [StepsMeet, taken] at meets
          obtain ⟨met, after, stepped, behind⟩ :=
            simulates first view event next start meets.1 taken
          simp only [actionsOf, taken, StepsMeet, stepped]
          exact ⟨met, ih behind meets.2⟩

/-- When each step is its moves of a lower system, a run is the moves of all its steps. -/
theorem run_of_expands {Low Move : Type*} {low : Low → Move → Option Low} (view : State → Low)
    (invariant : State → Prop) {guard : State → Event → Prop} {lowGuard : Low → Move → Prop}
    (moves : State → Event → List Move)
    (expands : ∀ state event next, invariant state → guard state event →
      step state event = some next → invariant next ∧
        StepsMeet low lowGuard (view state) (moves state event) ∧
        runFrom low (view state) (moves state event) = some (view next))
    {first last : State} {events : List Event} (start : invariant first)
    (meets : StepsMeet step guard first events)
    (run : runFrom step first events = some last) :
    invariant last ∧
      StepsMeet low lowGuard (view first) (actionsOf step moves first events).flatten ∧
      runFrom low (view first) (actionsOf step moves first events).flatten = some (view last) := by
  induction events generalizing first with
  | nil =>
      cases run
      exact ⟨start, trivial, rfl⟩
  | cons event rest ih =>
      rw [runFrom_cons] at run
      obtain ⟨next, taken, more⟩ := Option.bind_eq_some_iff.mp run
      simp only [StepsMeet, taken] at meets
      obtain ⟨kept, met, moved⟩ := expands first event next start meets.1 taken
      obtain ⟨ends, othersMet, ran⟩ := ih kept meets.2 more
      simp only [actionsOf, taken, List.flatten_cons]
      refine ⟨ends, met.append moved othersMet, ?_⟩
      rw [runFrom_append, moved]
      exact ran

/-- One step is one step behind no hidden ones. -/
theorem inserts_of_step {hides : Event → Prop} {good : State → Prop} {state after : State}
    {event : Event} (taken : step state event = some after) (behind : good after) :
    ∃ hidden after, (∀ other ∈ hidden, hides other) ∧
      runFrom step state (hidden ++ [event]) = some after ∧ good after :=
  ⟨[], after, fun _ member => absurd member List.not_mem_nil, runFrom_concat rfl taken, behind⟩

/-- When each step is one step behind hidden ones, a run is a run with hidden steps put in. -/
theorem run_of_inserts {Low : Type*} {low : Low → Event → Option Low} {visible : Event → Bool}
    (related : Low → State → Prop)
    (simulates : ∀ below above event next, related below above → low below event = some next →
      ∃ hidden after, (∀ other ∈ hidden, visible other = false) ∧
        runFrom step above (hidden ++ [event]) = some after ∧ related next after)
    {first last : Low} {above : State} {events : List Event} (start : related first above)
    (run : runFrom low first events = some last) :
    ∃ more after, events.Sublist more ∧ more.filter visible = events.filter visible ∧
      runFrom step above more = some after ∧ related last after := by
  induction events generalizing first above with
  | nil =>
      cases run
      exact ⟨[], above, List.Sublist.refl _, rfl, rfl, start⟩
  | cons event rest ih =>
      rw [runFrom_cons] at run
      obtain ⟨next, taken, ran⟩ := Option.bind_eq_some_iff.mp run
      obtain ⟨hidden, middle, unseen, matched, behind⟩ := simulates _ _ _ _ start taken
      obtain ⟨more, after, sublist, seen, ranMore, ends⟩ := ih behind ran
      refine ⟨hidden ++ [event] ++ more, after, ?_, ?_, ?_, ends⟩
      · rw [List.append_assoc]
        exact (List.Sublist.cons_cons event sublist).trans (List.sublist_append_right _ _)
      · have none : hidden.filter visible = [] :=
          List.filter_eq_nil_iff.mpr fun other member => by simp [unseen other member]
        rw [List.filter_append, List.filter_append, none, List.nil_append, seen,
          ← List.filter_append, List.singleton_append]
      · rw [runFrom_append, matched]
        exact ranMore

/-! ## Reaching a bad state -/

theorem reaches_now {bad : State → Prop} {state : State} (here : bad state) :
    Reaches step bad state :=
  ⟨[], state, rfl, here⟩

/-- What the end of a run reaches is reached from its start. -/
theorem reaches_behind {bad : State → Prop} {first middle : State} {events : List Event}
    (run : runFrom step first events = some middle) (reaches : Reaches step bad middle) :
    Reaches step bad first := by
  obtain ⟨more, last, rest, isBad⟩ := reaches
  exact ⟨events ++ more, last, by rw [runFrom_append, run]; exact rest, isBad⟩

theorem reaches_next {bad : State → Prop} {state next : State} {event : Event}
    (taken : step state event = some next) (reaches : Reaches step bad next) :
    Reaches step bad state :=
  reaches_behind (runFrom_next taken []) reaches

/-! ## Guarded steps -/

/-- A guarded step that is taken found its guard true, and leads where the step says. -/
theorem of_guarded {guard : Prop} [Decidable guard] {after next : State}
    (taken : (if guard then some after else none) = some next) : guard ∧ after = next := by
  split at taken
  · next met => exact ⟨met, Option.some.inj taken⟩
  · cases taken

/-- The same for a guarded step of a component. -/
theorem of_guarded_map {guard : Prop} [Decidable guard] {Component : Type*}
    {stepped : Option Component} {into : Component → State} {next : State}
    (taken : (if guard then stepped.map into else none) = some next) :
    guard ∧ ∃ component, stepped = some component ∧ into component = next := by
  split at taken
  · next met => exact ⟨met, Option.map_eq_some_iff.mp taken⟩
  · cases taken

/-! ## Components -/

section components

variable {Key : Type*} {begins : State → Prop} {done : Key → List Event}

/-- Each component is at the end of a run of what has been done with it. -/
def Ran (step : State → Event → Option State) (begins : State → Prop)
    (components : Key → Option State) (done : Key → List Event) : Prop :=
  ∀ key, ∀ state ∈ components key, ∃ first, begins first ∧
    runFrom step first (done key) = some state

/-- What holds in all runs holds of the components. -/
theorem Ran.holds {components : Key → Option State} {good : State → Prop}
    (ran : Ran step begins components done)
    (all : ∀ first, begins first → ∀ events, AllStates step good first events) {key : Key}
    {state : State} (has : components key = some state) : good state := by
  obtain ⟨first, isFirst, run⟩ := ran key state has
  exact (all first isFirst (done key)).last run

/-- Each component that is there has just begun, or has taken the step that was its own. -/
def ComponentsStep (step : State → Event → Option State) (begins : State → Prop)
    (unborn : Key → Prop) (event : Key → Option Event) (before after : Key → Option State) :
    Prop :=
  ∀ key, ∀ state ∈ after key, (begins state ∧ unborn key ∧ event key = none) ∨
    ∃ earlier ∈ before key, runFrom step earlier (event key).toList = some state

/-- Components that step together have runs of their own. -/
theorem ComponentsStep.ran {unborn : Key → Prop} {event : Key → Option Event}
    {before after : Key → Option State}
    (goes : ComponentsStep step begins unborn event before after)
    (ran : Ran step begins before done) (quiet : ∀ key, unborn key → done key = []) :
    Ran step begins after fun key => done key ++ (event key).toList := by
  intro key state has
  rcases goes key state has with ⟨isFirst, isNew, none⟩ | ⟨earlier, had, taken⟩
  · refine ⟨state, isFirst, ?_⟩
    simp only [quiet key isNew, none]
    rfl
  · obtain ⟨first, isFirst, run⟩ := ran key earlier had
    refine ⟨first, isFirst, ?_⟩
    simp only [runFrom_append, run]
    exact taken

end components

end SimpleWebServer.Lib.Runs
