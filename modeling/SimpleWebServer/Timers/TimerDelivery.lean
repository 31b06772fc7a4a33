import SimpleWebServer.Timers.TimerOrder
import Mathlib.Data.List.Nodup

/-!
# Every timer fires once

A stored timer is in one slot of the wheel.  The wheel comes to that slot after at most one
turn, and not after the time of the timer; it then invokes the callback and forgets the
timer.  This holds however late the wheel is, because a timer more than a turn ahead is
only reached early.
-/

namespace SimpleWebServer.Timers

open SimpleWebServer.Lib.Runs

/-- The number of callbacks behind which the loop over the current slot stands. -/
def Phase.position : Phase → Nat
  | .firing _ position => position
  | _ => 0

namespace TimerRun

/-- Callbacks do not add timers. -/
def CallbacksQuiet (run : TimerRun) : Event → Prop
  | .add _ _ => run.phase = .idle
  | _ => True

instance (run : TimerRun) : (event : Event) → Decidable (run.CallbacksQuiet event)
  | .add _ _ => inferInstanceAs (Decidable (run.phase = .idle))
  | .trigger _ _ => .isTrue trivial
  | .next => .isTrue trivial
  | .fire => .isTrue trivial
  | .clear => .isTrue trivial

/-- How often `trigger_timer` has invoked the callback of a node. -/
def timesFired (run : TimerRun) (it : Nat) : Nat :=
  (run.fired.map fun fired => fired.node.it).count it

/-! ## Each node fires at most once -/

/-- Nodes are distinct, and those that have fired are in front of the loop's position. -/
structure Distinct (run : TimerRun) : Prop where
  known : ∀ slot, ∀ node ∈ run.ti.wheel slot, node.it < run.nextIt
  firedKnown : ∀ fired ∈ run.fired, fired.node.it < run.nextIt
  places : ∀ {slot other index position : Nat} {node twin : TimerNode},
    (run.ti.wheel slot)[index]? = some node → (run.ti.wheel other)[position]? = some twin →
      node.it = twin.it → slot = other ∧ index = position
  once : (run.fired.map fun fired => fired.node.it).Nodup
  fired_iff : ∀ {slot index : Nat} {node : TimerNode}, (run.ti.wheel slot)[index]? = some node →
    (node.it ∈ run.fired.map (fun fired => fired.node.it) ↔
      slot = run.ti.slotPtr ∧ index < run.phase.position)

theorem start_distinct (now : Nat) : (start now).Distinct where
  known := by
    intro slot node member
    cases member
  firedKnown := by
    intro fired member
    cases member
  places := by
    intro slot other index position node twin found
    cases found
  once := List.nodup_nil
  fired_iff := by
    intro slot index node found
    cases found

/-- A step that leaves the nodes alone and stands in front of no callback. -/
theorem Distinct.turn {run next : TimerRun} (distinct : run.Distinct)
    (nodes : next.ti.wheel = run.ti.wheel) (log : next.fired = run.fired)
    (its : run.nextIt ≤ next.nextIt) (before : run.phase.position = 0)
    (after : next.phase.position = 0) : next.Distinct where
  known := by
    intro slot node member
    rw [nodes] at member
    exact Nat.lt_of_lt_of_le (distinct.known slot node member) its
  firedKnown := by
    intro fired logged
    rw [log] at logged
    exact Nat.lt_of_lt_of_le (distinct.firedKnown fired logged) its
  places := by
    rw [nodes]
    exact distinct.places
  once := by
    rw [log]
    exact distinct.once
  fired_iff := by
    intro slot index node found
    rw [nodes] at found
    rw [log, distinct.fired_iff found, before, after]
    simp

/-- A place of the wheel behind a `push_back`. -/
theorem getElem?_pushBack {ti : TimerWheel} {slot pushed index : Nat} {node new : TimerNode}
    (found : ((ti.pushBack pushed new).wheel slot)[index]? = some node) :
    (ti.wheel slot)[index]? = some node ∨
      slot = pushed ∧ index = (ti.wheel pushed).length ∧ node = new := by
  by_cases same : slot = pushed
  · subst same
    simp only [TimerWheel.pushBack, Function.update_self] at found
    rcases Nat.lt_trichotomy index (ti.wheel slot).length with inside | last | beyond
    · left
      rwa [List.getElem?_append_left inside] at found
    · right
      rw [last, List.getElem?_append_right (Nat.le_refl _), Nat.sub_self] at found
      exact ⟨rfl, last, (Option.some.inj found).symm⟩
    · rw [List.getElem?_eq_none (by simp; omega)] at found
      cases found
  · left
    simpa only [TimerWheel.pushBack, Function.update_of_ne same] using found

theorem Distinct.pushBack {run : TimerRun} (distinct : run.Distinct) (idle : run.phase = .idle)
    (slot : Nat) (timer : Timer) (atMs clock : Nat) :
    Distinct { run with
      ti := run.ti.pushBack slot ⟨run.nextIt, timer, atMs⟩
      clock := clock
      nextIt := run.nextIt + 1 } where
  known := by
    intro other node member
    rcases mem_pushBack member with old | rfl
    · exact Nat.lt_succ_of_lt (distinct.known other node old)
    · exact Nat.lt_succ_self _
  firedKnown := fun fired logged => Nat.lt_succ_of_lt (distinct.firedKnown fired logged)
  places := by
    intro first second index position node twin found foundTwin same
    have old {slot index : Nat} {node : TimerNode}
        (found : (run.ti.wheel slot)[index]? = some node) : node.it ≠ run.nextIt :=
      Nat.ne_of_lt (distinct.known slot node (List.mem_of_getElem? found))
    rcases getElem?_pushBack found with here | ⟨rfl, rfl, rfl⟩
    · rcases getElem?_pushBack foundTwin with there | ⟨-, -, rfl⟩
      · exact distinct.places here there same
      · exact absurd same (old here)
    · rcases getElem?_pushBack foundTwin with there | ⟨rfl, rfl, rfl⟩
      · exact absurd same.symm (old there)
      · exact ⟨rfl, rfl⟩
  once := distinct.once
  fired_iff := by
    intro other index node found
    rcases getElem?_pushBack found with old | ⟨rfl, rfl, rfl⟩
    · exact distinct.fired_iff old
    · rw [idle]
      refine iff_of_false ?_ (by simp [Phase.position])
      intro logged
      obtain ⟨fired, member, same⟩ := List.mem_map.mp logged
      exact absurd same (Nat.ne_of_lt (distinct.firedKnown fired member))

theorem Distinct.fire {run : TimerRun} (distinct : run.Distinct) {atMs position : Nat}
    {node : TimerNode} (phase : run.phase = .firing atMs position)
    (next : run.ti.current[position]? = some node) :
    Distinct { run with
      phase := .firing atMs (position + 1)
      fired := run.fired ++ [⟨node, run.ti.triggerBeforeMs⟩] } where
  known := distinct.known
  firedKnown := by
    intro fired logged
    rcases List.mem_append.mp logged with old | new
    · exact distinct.firedKnown fired old
    · rw [List.mem_singleton.mp new]
      exact distinct.known _ node (List.mem_of_getElem? next)
  places := distinct.places
  once := by
    rw [List.map_append, List.map_singleton]
    refine List.nodup_append.mpr ⟨distinct.once, List.nodup_singleton _, ?_⟩
    intro it logged twin new
    rw [List.mem_singleton.mp new]
    rintro rfl
    have early := ((distinct.fired_iff next).mp logged).2
    rw [phase] at early
    exact Nat.lt_irrefl _ early
  fired_iff := by
    intro slot index other found
    have before := distinct.fired_iff found
    rw [phase] at before
    rw [List.map_append, List.mem_append, before, List.map_singleton, List.mem_singleton]
    constructor
    · rintro (⟨here, early⟩ | same)
      · exact ⟨here, Nat.lt_succ_of_lt early⟩
      · obtain ⟨here, there⟩ := distinct.places found next same
        exact ⟨here, there ▸ Nat.lt_succ_self _⟩
    · rintro ⟨here, early⟩
      rcases Nat.lt_succ_iff_lt_or_eq.mp early with before | rfl
      · exact .inl ⟨here, before⟩
      · right
        subst here
        rw [TimerWheel.current] at next
        rw [Option.some.inj (found.symm.trans next)]

/-- A place of the wheel behind a `clear`. -/
theorem getElem?_clearCurrent {ti : TimerWheel} {slot index : Nat} {node : TimerNode}
    (found : (ti.clearCurrent.wheel slot)[index]? = some node) :
    (ti.wheel slot)[index]? = some node ∧ slot ≠ ti.slotPtr := by
  by_cases same : slot = ti.slotPtr
  · rw [same, TimerWheel.clearCurrent] at found
    simp at found
  · simp only [TimerWheel.clearCurrent, Function.update_of_ne same] at found
    exact ⟨found, same⟩

theorem mem_clearCurrent {ti : TimerWheel} {slot : Nat} {node : TimerNode}
    (member : node ∈ ti.clearCurrent.wheel slot) : node ∈ ti.wheel slot ∧ slot ≠ ti.slotPtr := by
  obtain ⟨index, found⟩ := List.mem_iff_getElem?.mp member
  obtain ⟨old, elsewhere⟩ := getElem?_clearCurrent found
  exact ⟨List.mem_of_getElem? old, elsewhere⟩

/-- The nodes that clearing the current slot leaves have not fired. -/
theorem Distinct.clear {run : TimerRun} (distinct : run.Distinct) {phase : Phase}
    (after : phase.position = 0) :
    Distinct { run with ti := run.ti.clearCurrent, phase := phase } := by
  constructor
  · intro slot node member
    exact distinct.known slot node (mem_clearCurrent member).1
  · exact distinct.firedKnown
  · intro slot other index position node twin found foundTwin
    exact distinct.places (getElem?_clearCurrent found).1 (getElem?_clearCurrent foundTwin).1
  · exact distinct.once
  · intro slot index node found
    obtain ⟨old, elsewhere⟩ := getElem?_clearCurrent found
    rw [distinct.fired_iff old, after]
    simp [elsewhere]

/-! ## Each node is reached in time -/

/-- The wheel comes to the node after `turns` more slots, and not after its time. -/
structure Ahead (ti : TimerWheel) (slot : Nat) (node : TimerNode) (turns : Nat) : Prop where
  inSlot : slot = (ti.slotPtr + turns) % wheelSize
  oneRound : turns ≤ wheelSize
  inTime : ti.triggerBeforeMs + turns * everyMs ≤ node.atMs

/-- How many slots may be left in a phase; between two slots the current one is done. -/
def Phase.TurnsLeft (phase : Phase) (turns : Nat) : Prop :=
  match phase with
  | .firing _ _ => turns < wheelSize
  | _ => 0 < turns

/-- Every stored timer will be reached in time. -/
structure Timely (run : TimerRun) : Prop where
  aligned : run.ti.triggerBeforeMs % everyMs = 0
  inWheel : run.ti.slotPtr < wheelSize
  ahead : ∀ slot, ∀ node ∈ run.ti.wheel slot,
    ∃ turns, Ahead run.ti slot node turns ∧ Phase.TurnsLeft run.phase turns

theorem start_timely (now : Nat) : (start now).Timely where
  aligned := getSlotTimestamp_aligned _ now
  inWheel := show 0 < wheelSize by decide
  ahead := by
    intro slot node member
    cases member

/-- A stored time is reached in its slot, within one round of the wheel. -/
theorem ahead_slotOf {ti : TimerWheel} {node : TimerNode}
    (aligned : ti.triggerBeforeMs % everyMs = 0) (nodeAligned : node.atMs % everyMs = 0)
    (future : ti.triggerBeforeMs < node.atMs) :
    ∃ turns, Ahead ti (ti.slotOf node.atMs) node turns ∧ 0 < turns := by
  refine ⟨((node.atMs - ti.triggerBeforeMs) / everyMs - 1) % wheelSize + 1, ⟨?_, ?_, ?_⟩, ?_⟩
  · simp only [TimerWheel.slotOf, wheelSize_eq, everyMs_eq] at *
    omega
  · exact Nat.mod_lt _ (by decide)
  · simp only [wheelSize_eq, everyMs_eq] at *
    omega
  · exact Nat.succ_pos _

theorem Timely.pushBack {run : TimerRun} (timely : run.Timely) (idle : run.phase = .idle)
    (node : TimerNode) (nodeAligned : node.atMs % everyMs = 0)
    (future : run.ti.triggerBeforeMs < node.atMs) (clock it : Nat) :
    Timely { run with
      ti := run.ti.pushBack (run.ti.slotOf node.atMs) node, clock := clock, nextIt := it } where
  aligned := timely.aligned
  inWheel := timely.inWheel
  ahead := by
    intro slot other member
    obtain ⟨index, found⟩ := List.mem_iff_getElem?.mp member
    rcases getElem?_pushBack found with old | ⟨rfl, -, rfl⟩
    · obtain ⟨turns, ahead, left⟩ := timely.ahead slot other (List.mem_of_getElem? old)
      exact ⟨turns, ⟨ahead.inSlot, ahead.oneRound, ahead.inTime⟩, left⟩
    · obtain ⟨turns, ahead, left⟩ := ahead_slotOf timely.aligned nodeAligned future
      rw [idle]
      exact ⟨turns, ⟨ahead.inSlot, ahead.oneRound, ahead.inTime⟩, left⟩

theorem Timely.advance {run : TimerRun} (timely : run.Timely) {atMs : Nat}
    (phase : run.phase = .looping atMs) :
    Timely { run with ti := run.ti.advance, phase := .firing atMs 0 } where
  aligned := by
    have aligned := timely.aligned
    simp only [TimerWheel.advance, everyMs_eq] at *
    omega
  inWheel := Nat.mod_lt _ (by decide)
  ahead := by
    intro slot node member
    obtain ⟨turns, ⟨inSlot, oneRound, inTime⟩, left⟩ := timely.ahead slot node member
    rw [phase] at left
    have positive : 0 < turns := left
    refine ⟨turns - 1, ⟨?_, ?_, ?_⟩, ?_⟩
    · simp only [TimerWheel.advance, wheelSize_eq] at *
      omega
    · omega
    · simp only [TimerWheel.advance, everyMs_eq] at *
      omega
    · simp only [Phase.TurnsLeft]
      omega

theorem Timely.clear {run : TimerRun} (timely : run.Timely) {atMs position : Nat}
    (phase : run.phase = .firing atMs position) :
    Timely { run with ti := run.ti.clearCurrent, phase := .looping atMs } where
  aligned := timely.aligned
  inWheel := timely.inWheel
  ahead := by
    intro slot node member
    obtain ⟨stored, elsewhere⟩ := mem_clearCurrent member
    obtain ⟨turns, ⟨inSlot, oneRound, inTime⟩, left⟩ := timely.ahead slot node stored
    rw [phase] at left
    have near : turns < wheelSize := left
    refine ⟨turns, ⟨inSlot, oneRound, inTime⟩, ?_⟩
    -- the nodes that are reached now lie in the slot that is cleared
    rcases Nat.eq_zero_or_pos turns with rfl | positive
    · have here := Nat.mod_eq_of_lt timely.inWheel
      exact absurd (inSlot.trans here) elsewhere
    · exact positive

/-- A step that moves neither the wheel nor the nodes, and stays out of the callbacks. -/
theorem Timely.stay {run : TimerRun} (timely : run.Timely) {phase : Phase}
    (left : ∀ turns, Phase.TurnsLeft run.phase turns → Phase.TurnsLeft phase turns)
    (clock : Nat) (fired : List Fired) :
    Timely { run with phase := phase, clock := clock, fired := fired } where
  aligned := timely.aligned
  inWheel := timely.inWheel
  ahead := by
    intro slot node member
    obtain ⟨turns, ahead, remaining⟩ := timely.ahead slot node member
    exact ⟨turns, ahead, left turns remaining⟩

/-! ## The invariant -/

structure Delivering (run : TimerRun) : Prop where
  distinct : run.Distinct
  timely : run.Timely
  inList : run.phase.position ≤ run.ti.current.length

theorem start_delivering (now : Nat) : (start now).Delivering where
  distinct := start_distinct now
  timely := start_timely now
  inList := Nat.zero_le _

theorem Delivering.add {run : TimerRun} (delivering : run.Delivering) (idle : run.phase = .idle)
    (timer : Timer) (reads : ClockReads) (clock : Nat) :
    Delivering { run with
      ti := (run.ti.addTimer timer run.nextIt reads).2
      clock := clock
      nextIt := run.nextIt + 1 } := by
  have quiet : run.phase.position = 0 := by rw [idle]; rfl
  have inList (ti : TimerWheel) : run.phase.position ≤ ti.current.length := by
    rw [quiet]
    exact Nat.zero_le _
  obtain ⟨distinct, timely, -⟩ := delivering
  rcases run.addTimer_cases timer run.nextIt reads with same | ⟨stores, stored⟩
  · rw [same]
    exact ⟨distinct.turn rfl rfl (Nat.le_succ _) quiet quiet,
      ⟨timely.aligned, timely.inWheel, timely.ahead⟩, inList _⟩
  · rw [stored]
    exact ⟨distinct.pushBack idle _ timer _ clock,
      timely.pushBack idle ⟨run.nextIt, timer, TimerWheel.atMs timer reads⟩
        (getSlotTimestamp_aligned _ _) stores.1 clock _,
      inList _⟩

theorem Delivering.next {run next : TimerRun} (delivering : run.Delivering)
    (taken : run.step .next = some next) : next.Delivering := by
  obtain ⟨distinct, timely, -⟩ := delivering
  obtain ⟨atMs, phase, turned⟩ := of_next taken
  have quiet : run.phase.position = 0 := by rw [phase]; rfl
  rcases turned with ⟨_, rfl⟩ | ⟨_, rfl⟩
  · exact ⟨distinct.turn rfl rfl (Nat.le_refl _) quiet rfl, timely.advance phase, Nat.zero_le _⟩
  · refine ⟨distinct.turn rfl rfl (Nat.le_refl _) quiet rfl,
      timely.stay (fun turns left => ?_) _ _, Nat.zero_le _⟩
    rw [phase] at left
    exact left

theorem Delivering.fire {run next : TimerRun} (delivering : run.Delivering)
    (taken : run.step .fire = some next) : next.Delivering := by
  obtain ⟨atMs, position, node, phase, head, rfl⟩ := of_fire taken
  refine ⟨delivering.distinct.fire phase head,
    delivering.timely.stay (fun turns left => ?_) _ _, ?_⟩
  · rw [phase] at left
    exact left
  · exact (List.getElem?_eq_some_iff.mp head).1

theorem Delivering.clear {run next : TimerRun} (delivering : run.Delivering)
    (taken : run.step .clear = some next) : next.Delivering := by
  obtain ⟨atMs, position, phase, _, rfl⟩ := of_clear taken
  exact ⟨delivering.distinct.clear rfl, delivering.timely.clear phase, Nat.zero_le _⟩

/-- Every step keeps the invariant as long as callbacks do not add timers. -/
theorem Delivering.step {run next : TimerRun} {event : Event} (delivering : run.Delivering)
    (quiet : run.CallbacksQuiet event) (taken : run.step event = some next) :
    next.Delivering := by
  cases event with
  | next => exact delivering.next taken
  | fire => exact delivering.fire taken
  | clear => exact delivering.clear taken
  | add timer reads =>
      obtain ⟨_, rfl⟩ := of_guarded taken
      exact delivering.add quiet timer reads _
  | trigger nowMs reading =>
      obtain ⟨enabled, rfl⟩ := of_guarded taken
      have position : run.phase.position = 0 := by rw [enabled.1]; rfl
      refine ⟨delivering.distinct.turn rfl rfl (Nat.le_refl _) position rfl,
        delivering.timely.stay (fun turns left => ?_) _ _, Nat.zero_le _⟩
      rw [enabled.1] at left
      exact left

/-! ## What becomes of one timer -/

/-- The node has fired, or is still in the wheel with its time. -/
def Kept (it atMs : Nat) (run : TimerRun) : Prop :=
  it ∈ run.fired.map (fun fired => fired.node.it) ∨
    ∃ slot, ∃ node ∈ run.ti.wheel slot, node.it = it ∧ node.atMs = atMs

theorem Kept.clear {run : TimerRun} {it due atMs position : Nat} (kept : run.Kept it due)
    (distinct : run.Distinct) (phase : run.phase = .firing atMs position)
    (done : position = run.ti.current.length) :
    Kept it due { run with ti := run.ti.clearCurrent, phase := .looping atMs } := by
  rcases kept with fired | ⟨slot, node, member, rfl, known⟩
  · exact .inl fired
  · by_cases here : slot = run.ti.slotPtr
    · obtain ⟨index, found⟩ := List.mem_iff_getElem?.mp member
      left
      apply (distinct.fired_iff found).mpr
      refine ⟨here, ?_⟩
      rw [phase]
      subst here
      exact Nat.lt_of_lt_of_eq (List.getElem?_eq_some_iff.mp found).1 done.symm
    · right
      refine ⟨slot, node, ?_, rfl, known⟩
      simpa only [TimerWheel.clearCurrent, Function.update_of_ne here] using member

theorem Kept.step {run next : TimerRun} {it atMs : Nat} {event : Event} (kept : run.Kept it atMs)
    (distinct : run.Distinct) (taken : run.step event = some next) : next.Kept it atMs := by
  cases event with
  | add timer reads =>
      obtain ⟨_, rfl⟩ := of_guarded taken
      rcases kept with fired | ⟨slot, node, member, known⟩
      · exact .inl fired
      · refine .inr ⟨slot, node, ?_, known⟩
        rcases run.addTimer_cases timer run.nextIt reads with same | ⟨-, stored⟩
        · rwa [same]
        · rw [stored]
          exact mem_pushBack_iff.mpr (.inl member)
  | trigger nowMs reading =>
      obtain ⟨_, rfl⟩ := of_guarded taken
      exact kept
  | next =>
      obtain ⟨_, _, ⟨_, rfl⟩ | ⟨_, rfl⟩⟩ := of_next taken <;> exact kept
  | fire =>
      obtain ⟨_, _, node, _, _, rfl⟩ := of_fire taken
      refine kept.imp (fun fired => ?_) id
      rw [List.map_append]
      exact List.mem_append_left _ fired
  | clear =>
      obtain ⟨_, _, phase, done, rfl⟩ := of_clear taken
      exact kept.clear distinct phase done

/-- The wheel has caught up with `target`, or the running call will. -/
def Catches (target : Nat) (run : TimerRun) : Prop :=
  target ≤ run.ti.triggerBeforeMs ∨ run.phase = .looping target ∨
    ∃ position, run.phase = .firing target position

/-- No step turns the wheel back. -/
theorem triggerBeforeMs_le {run next : TimerRun} {event : Event}
    (taken : run.step event = some next) :
    run.ti.triggerBeforeMs ≤ next.ti.triggerBeforeMs := by
  cases event with
  | add timer reads =>
      obtain ⟨_, rfl⟩ := of_guarded taken
      rcases run.addTimer_cases timer run.nextIt reads with same | ⟨-, stored⟩
      · exact Nat.le_of_eq (congrArg TimerWheel.triggerBeforeMs same).symm
      · exact Nat.le_of_eq (congrArg TimerWheel.triggerBeforeMs stored).symm
  | trigger nowMs reading =>
      obtain ⟨_, rfl⟩ := of_guarded taken
      exact Nat.le_refl _
  | next =>
      obtain ⟨_, _, ⟨_, rfl⟩ | ⟨_, rfl⟩⟩ := of_next taken
      · exact Nat.le_add_right _ _
      · exact Nat.le_refl _
  | fire =>
      obtain ⟨_, _, _, _, _, rfl⟩ := of_fire taken
      exact Nat.le_refl _
  | clear =>
      obtain ⟨_, _, _, _, rfl⟩ := of_clear taken
      exact Nat.le_refl _

theorem Catches.step {run next : TimerRun} {target : Nat} {event : Event}
    (catches : run.Catches target) (taken : run.step event = some next) :
    next.Catches target := by
  rcases catches with caught | calling
  · exact .inl (Nat.le_trans caught (triggerBeforeMs_le taken))
  · cases event with
    | add timer reads =>
        obtain ⟨_, rfl⟩ := of_guarded taken
        exact .inr calling
    | trigger nowMs reading =>
        obtain ⟨enabled, rfl⟩ := of_guarded taken
        rw [enabled.1] at calling
        simp at calling
    | next =>
        obtain ⟨atMs, phase, turned⟩ := of_next taken
        rw [phase] at calling
        obtain rfl : atMs = target := by simpa using calling
        rcases turned with ⟨_, rfl⟩ | ⟨past, rfl⟩
        · exact .inr (.inr ⟨0, rfl⟩)
        · exact .inl past
    | fire =>
        obtain ⟨atMs, position, _, phase, _, rfl⟩ := of_fire taken
        rw [phase] at calling
        obtain rfl : atMs = target := by simpa using calling
        exact .inr (.inr ⟨position + 1, rfl⟩)
    | clear =>
        obtain ⟨atMs, position, phase, _, rfl⟩ := of_clear taken
        rw [phase] at calling
        obtain rfl : atMs = target := by simpa using calling
        exact .inr (.inl rfl)

/-- What has fired stays fired. -/
theorem fired_of_step {run next : TimerRun} {event : Event} {it : Nat}
    (fired : it ∈ run.fired.map fun fired => fired.node.it)
    (taken : run.step event = some next) : it ∈ next.fired.map fun fired => fired.node.it := by
  cases event with
  | add timer reads =>
      obtain ⟨_, rfl⟩ := of_guarded taken
      exact fired
  | trigger nowMs reading =>
      obtain ⟨_, rfl⟩ := of_guarded taken
      exact fired
  | next =>
      obtain ⟨_, _, ⟨_, rfl⟩ | ⟨_, rfl⟩⟩ := of_next taken <;> exact fired
  | fire =>
      obtain ⟨_, _, _, _, _, rfl⟩ := of_fire taken
      rw [List.map_append]
      exact List.mem_append_left _ fired
  | clear =>
      obtain ⟨_, _, _, _, rfl⟩ := of_clear taken
      exact fired

/-- A node behind whose time the wheel stands has fired. -/
theorem Kept.fired {run : TimerRun} {it atMs : Nat} (kept : run.Kept it atMs)
    (delivering : run.Delivering) (idle : run.phase = .idle)
    (caught : atMs ≤ run.ti.triggerBeforeMs) :
    it ∈ run.fired.map fun fired => fired.node.it := by
  rcases kept with fired | ⟨slot, node, member, rfl, rfl⟩
  · exact fired
  · obtain ⟨turns, ⟨_, _, inTime⟩, left⟩ := delivering.timely.ahead slot node member
    rw [idle] at left
    have positive : 0 < turns := left
    simp only [everyMs_eq] at inTime
    omega

/-! ## Every call returns -/

/-- The running call of `trigger_timer` goes on to its end by itself. -/
def Returns (run : TimerRun) : Prop :=
  ∃ inside returned, runFrom TimerRun.step run inside = some returned ∧ returned.phase = .idle ∧
    ∀ event ∈ inside, event = .next ∨ event = .fire ∨ event = .clear

theorem Returns.behind {run next : TimerRun} {event : Event}
    (inner : event = .next ∨ event = .fire ∨ event = .clear)
    (taken : run.step event = some next) (returns : next.Returns) : run.Returns := by
  obtain ⟨inside, returned, rest, idle, inners⟩ := returns
  refine ⟨event :: inside, returned, ?_, idle, ?_⟩
  · rw [runFrom_next taken]
    exact rest
  · intro other member
    rcases List.mem_cons.mp member with rfl | later
    · exact inner
    · exact inners other later

/-- The loop over a slot comes to its end. -/
theorem returns_of_firing {run : TimerRun} {atMs position : Nat}
    (phase : run.phase = .firing atMs position) (inList : position ≤ run.ti.current.length)
    (behind : ∀ after : TimerRun, after.phase = .looping atMs →
      after.ti.triggerBeforeMs = run.ti.triggerBeforeMs → after.Returns) : run.Returns := by
  obtain ⟨left, length⟩ : ∃ left, position + left = run.ti.current.length :=
    ⟨run.ti.current.length - position, by omega⟩
  induction left generalizing run position with
  | zero =>
      have taken : run.step .clear =
          some { run with ti := run.ti.clearCurrent, phase := .looping atMs } := by
        rw [step, phase]
        exact if_pos length
      exact .behind (.inr (.inr rfl)) taken (behind _ rfl rfl)
  | succ left ih =>
      have inside : position < run.ti.current.length := by omega
      have head := List.getElem?_eq_getElem inside
      have taken : run.step .fire = some { run with
          phase := .firing atMs (position + 1)
          fired := run.fired ++ [⟨run.ti.current[position], run.ti.triggerBeforeMs⟩] } := by
        rw [step, phase]
        simp only [head]
      refine .behind (.inr (.inl rfl)) taken (ih rfl inside ?_ ?_)
      · intro after looping same
        exact behind after looping same
      · rw [← length]
        show position + 1 + left = position + (left + 1)
        omega

theorem returns_of_looping {run : TimerRun} {atMs : Nat} (phase : run.phase = .looping atMs) :
    run.Returns := by
  obtain ⟨lag, late⟩ : ∃ lag, atMs ≤ run.ti.triggerBeforeMs + lag :=
    ⟨atMs, Nat.le_add_left _ _⟩
  induction lag using Nat.strongRecOn generalizing run with
  | ind lag ih =>
      by_cases before : run.ti.triggerBeforeMs < atMs
      · have taken : run.step .next =
            some { run with ti := run.ti.advance, phase := .firing atMs 0 } := by
          rw [step, phase]
          exact if_pos before
        refine .behind (.inl rfl) taken (returns_of_firing rfl (Nat.zero_le _) ?_)
        intro after looping same
        have advanced : after.ti.triggerBeforeMs = run.ti.triggerBeforeMs + everyMs := same
        exact ih (lag - 1) (by omega) looping (by rw [advanced, everyMs_eq]; omega)
      · have taken : run.step .next = some { run with phase := .idle } := by
          rw [step, phase]
          exact if_neg before
        exact .behind (.inl rfl) taken ⟨[], _, rfl, rfl, by simp⟩

/-- Whatever the program is doing, the running call returns. -/
theorem Delivering.returns {run : TimerRun} (delivering : run.Delivering) : run.Returns := by
  cases phase : run.phase with
  | idle => exact ⟨[], run, rfl, phase, by simp⟩
  | looping atMs => exact returns_of_looping phase
  | firing atMs position =>
      have inList := delivering.inList
      rw [phase] at inList
      exact returns_of_firing phase inList fun after looping _ => returns_of_looping looping

/-! ## Runs -/

/-- What a run does to a timer that was stored in `run` as the node `it`. -/
structure Delivered (run : TimerRun) (rest : List Event) (it atMs : Nat) (last : TimerRun) :
    Prop where
  atMostOnce : last.timesFired it ≤ 1
  /-- a call that is late enough has returned -/
  once : ∀ earlier nowMs reading inside later returned,
    rest = earlier ++ .trigger nowMs reading :: (inside ++ later) →
    runFrom TimerRun.step run (earlier ++ .trigger nowMs reading :: inside) = some returned →
    returned.phase = .idle → atMs ≤ nowMs - nowMs % everyMs → last.timesFired it = 1
  returns : last.Returns

/-- A stored timer is a new node with the time that `add_timer` returned. -/
theorem kept_of_stored {run next : TimerRun} {timer : Timer} {reads : ClockReads} {it atMs : Nat}
    (stored : (run.ti.addTimer timer run.nextIt reads).1 = .stored ⟨atMs, it⟩)
    (taken : run.step (.add timer reads) = some next) : next.Kept it atMs := by
  obtain ⟨_, rfl⟩ := of_guarded taken
  unfold TimerWheel.addTimer at stored ⊢
  simp only at stored ⊢
  split_ifs at stored ⊢
  cases stored
  refine .inr ⟨run.ti.slotOf (TimerWheel.atMs timer reads),
    ⟨run.nextIt, timer, TimerWheel.atMs timer reads⟩, ?_, rfl, rfl⟩
  simp [TimerWheel.pushBack]

/-- A returned call has caught up with its time. -/
theorem caught_of_call {run called returned : TimerRun} {nowMs reading : Nat}
    {inside : List Event} (taken : run.step (.trigger nowMs reading) = some called)
    (calls : runFrom TimerRun.step called inside = some returned)
    (idle : returned.phase = .idle) :
    nowMs - nowMs % everyMs ≤ returned.ti.triggerBeforeMs := by
  obtain ⟨enabled, rfl⟩ := of_guarded taken
  obtain ⟨_, _, earlier, bounded⟩ := enabled.2
  have slot : getSlotTimestamp nowMs reading = nowMs - nowMs % everyMs := by
    have small : nowMs ≠ uint64Size - 1 := by
      have size : uint64Size = 18446744073709551616 := rfl
      omega
    rw [getSlotTimestamp, if_neg small]
  have catches := runFrom_invariant (Catches (getSlotTimestamp nowMs reading))
    (fun _ _ _ catches taken => catches.step taken) (.inr (.inl rfl)) calls
  rw [slot] at catches
  rcases catches with caught | looping | ⟨position, firing⟩
  · exact caught
  · rw [idle] at looping
    cases looping
  · rw [idle] at firing
    cases firing

/-- Every timer that is stored fires once, in time, and never again. -/
theorem delivered_of_callbacksQuiet (now : Nat) {before rest : List Event} {timer : Timer}
    {reads : ClockReads} {it atMs : Nat} {run next last : TimerRun}
    (quiet : StepsMeet TimerRun.step CallbacksQuiet (start now)
      (before ++ .add timer reads :: rest))
    (reached : runFrom TimerRun.step (start now) before = some run)
    (stored : (run.ti.addTimer timer run.nextIt reads).1 = .stored ⟨atMs, it⟩)
    (added : run.step (.add timer reads) = some next)
    (ran : runFrom TimerRun.step next rest = some last) : Delivered next rest it atMs last := by
  have here := runFrom_guarded_invariant Delivering (fun _ _ _ good met taken =>
    good.step met taken) (start_delivering now) quiet.front reached
  have meets : StepsMeet TimerRun.step CallbacksQuiet run (.add timer reads :: rest) :=
    quiet.behind reached
  simp only [StepsMeet, added] at meets
  obtain ⟨addQuiet, restQuiet⟩ := meets
  -- from the addition on, the wheel keeps the timer until it has fired
  have keeps {state : TimerRun} {events : List Event}
      (meets : StepsMeet TimerRun.step CallbacksQuiet next events)
      (run : runFrom TimerRun.step next events = some state) :
      state.Delivering ∧ state.Kept it atMs :=
    runFrom_guarded_invariant (fun state => state.Delivering ∧ state.Kept it atMs)
      (fun _ _ _ good met taken => ⟨good.1.step met taken, good.2.step good.1.distinct taken⟩)
      ⟨here.step addQuiet added, kept_of_stored stored added⟩ meets run
  obtain ⟨delivering, -⟩ := keeps restQuiet ran
  refine ⟨List.nodup_iff_count_le_one.mp delivering.distinct.once it, ?_, delivering.returns⟩
  rintro earlier nowMs reading inside later returned rfl returns idle late
  have split : earlier ++ .trigger nowMs reading :: (inside ++ later) =
      (earlier ++ .trigger nowMs reading :: inside) ++ later := by simp
  rw [split] at restQuiet ran
  obtain ⟨atReturn, kept⟩ := keeps restQuiet.front returns
  have caught : atMs ≤ returned.ti.triggerBeforeMs := by
    rw [runFrom_append] at returns
    obtain ⟨calling, _, returns⟩ := Option.bind_eq_some_iff.mp returns
    rw [runFrom_cons] at returns
    obtain ⟨called, taken, returns⟩ := Option.bind_eq_some_iff.mp returns
    exact Nat.le_trans late (caught_of_call taken returns idle)
  rw [runFrom_append, returns] at ran
  have fired := runFrom_invariant (fun state : TimerRun => it ∈ state.fired.map _)
    (fun _ _ _ fired taken => fired_of_step fired taken) (kept.fired atReturn idle caught) ran
  exact List.count_eq_one_of_mem delivering.distinct.once fired

/-- Two timers, one of which has fired when the next one is added. -/
def earlierTimers : List Event :=
  [.add ⟨10, 7⟩ ⟨1005, 1005, 1005⟩, .add ⟨35, 8⟩ ⟨1006, 1006, 1006⟩, .trigger 1022 1022,
    .next, .fire, .clear, .next, .clear, .next]

/-- A further timer, a gap of 45 ms, and two calls. -/
def callsBehindGap : List Event :=
  [.add ⟨60, 10⟩ ⟨1025, 1025, 1025⟩, .trigger 1067 1067, .next, .clear, .next, .fire, .fire,
    .clear, .next, .clear, .next, .clear, .next, .trigger 1090 1090, .next, .clear, .next,
    .fire, .clear, .next, .clear, .next]

/-- A timer that shares its slot with an earlier one fires once behind the gap. -/
theorem delivered_of_callbacksQuiet_behindGap : ∃ run next last,
    runFrom TimerRun.step (start 1000) earlierTimers = some run ∧
      run.step (.add ⟨18, 9⟩ ⟨1023, 1023, 1023⟩) = some next ∧
      runFrom TimerRun.step next callsBehindGap = some last ∧
      Delivered next callsBehindGap 2 1040 last := by
  have quiet : StepsMeet TimerRun.step CallbacksQuiet (start 1000)
      (earlierTimers ++ .add ⟨18, 9⟩ ⟨1023, 1023, 1023⟩ :: callsBehindGap) := by
    decide +kernel
  have runs : (runFrom TimerRun.step (start 1000)
      (earlierTimers ++ .add ⟨18, 9⟩ ⟨1023, 1023, 1023⟩ :: callsBehindGap)).isSome = true := by
    decide +kernel
  have stores : (runFrom TimerRun.step (start 1000) earlierTimers).map
      (fun run => (run.ti.addTimer ⟨18, 9⟩ run.nextIt ⟨1023, 1023, 1023⟩).1) =
        some (.stored ⟨1040, 2⟩) := by
    decide +kernel
  obtain ⟨last, ran⟩ := Option.isSome_iff_exists.mp runs
  rw [runFrom_append] at ran
  obtain ⟨run, reached, ran⟩ := Option.bind_eq_some_iff.mp ran
  rw [runFrom_cons] at ran
  obtain ⟨next, added, ran⟩ := Option.bind_eq_some_iff.mp ran
  rw [reached, Option.map_some] at stores
  exact ⟨run, next, last, reached, added, ran,
    delivered_of_callbacksQuiet 1000 quiet reached (Option.some.inj stores) added ran⟩

end TimerRun

end SimpleWebServer.Timers
