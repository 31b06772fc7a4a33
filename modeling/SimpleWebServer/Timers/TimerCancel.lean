import SimpleWebServer.Timers.TimerDelivery

/-!
# Cancelling a timer

`remove_timer` erases the list node of a timer, and does nothing for a timer whose slot time
the wheel has reached.  `trigger_timer` advances that time before it invokes the callbacks of
the slot, so in one of them the timers of the slot that are still to come count as gone.
-/

namespace SimpleWebServer.Timers

open SimpleWebServer.Lib.Runs

/-- `wheel[slot].erase(it)`; the node is known by its address. -/
def TimerWheel.erase (ti : TimerWheel) (slot it : Nat) : TimerWheel :=
  { ti with wheel := Function.update ti.wheel slot ((ti.wheel slot).filter (·.it ≠ it)) }

/-- `remove_timer` on the wheel alone -/
def TimerWheel.removeTimer (ti : TimerWheel) (id : TimerId) : TimerWheel :=
  if id.triggerAtMs ≤ ti.triggerBeforeMs then ti else ti.erase (ti.slotOf id.triggerAtMs) id.it

/-- The loop over the current slot, behind `position` nodes. -/
def Phase.moveTo (position : Nat) : Phase → Phase
  | .firing atMs _ => .firing atMs position
  | phase => phase

namespace TimerRun

/-- The nodes of the current slot whose callbacks were invoked; that of the last one runs. -/
def reached (run : TimerRun) : List TimerNode := run.ti.current.take run.phase.position

/-- The loop over the current slot stands on the node. -/
def StandsOn (run : TimerRun) (it : Nat) : Prop :=
  run.reached.getLast?.map TimerNode.it = some it

instance (run : TimerRun) (it : Nat) : Decidable (run.StandsOn it) :=
  inferInstanceAs (Decidable (_ = _))

/--
`remove_timer`.  It is undefined to erase a node that is not in the list, and to go on from
one that was erased.
-/
def removeTimer (run : TimerRun) (id : TimerId) : Option TimerRun :=
  if id.triggerAtMs ≤ run.ti.triggerBeforeMs then some run
  else
    let slot := run.ti.slotOf id.triggerAtMs
    if id.it ∈ (run.ti.wheel slot).map TimerNode.it ∧ ¬ run.StandsOn id.it then
      some { run with
        ti := run.ti.removeTimer id
        phase := run.phase.moveTo (run.reached.filter (·.it ≠ id.it)).length }
    else none

/-- The node of a timer was reached by the loop. -/
def HasFired (run : TimerRun) (it : Nat) : Prop := it ∈ run.fired.map fun fired => fired.node.it

instance (run : TimerRun) (it : Nat) : Decidable (run.HasFired it) :=
  inferInstanceAs (Decidable (_ ∈ _))

/-- The callbacks of the other timers, with the times they ran at. -/
def firedOthers (run : TimerRun) (it : Nat) : List Fired :=
  run.fired.filter (·.node.it ≠ it)

/-- The identifier that `add_timer` returns for a timer that it stores. -/
def returned (run : TimerRun) : Event → Option TimerId
  | .add timer reads =>
      match (run.ti.addTimer timer run.nextIt reads).1 with
      | .stored id => some id
      | _ => none
  | _ => none

end TimerRun

/-- A wheel whose users also cancel timers. -/
structure CancelRun where
  run : TimerRun
  /-- what `add_timer` has returned -/
  accepted : List TimerId := []
  /-- the timers for which `remove_timer` was called before their callbacks started -/
  cancelled : List TimerId := []

inductive CancelEvent where
  /-- a step of `add_timer` and `trigger_timer` -/
  | wheel (event : Event)
  /-- `remove_timer(id)`, called between two `trigger_timer` calls or by a callback -/
  | remove (id : TimerId)
  deriving DecidableEq, Repr

namespace CancelRun

/-- A run starts with a new wheel. -/
def start (now : Nat) : CancelRun where
  run := .start now

/-- The timer was accepted and not cancelled, and its callback has not started. -/
def Pending (s : CancelRun) (id : TimerId) : Prop :=
  id ∈ s.accepted ∧ id ∉ s.cancelled ∧ ¬ s.run.HasFired id.it

instance (s : CancelRun) (id : TimerId) : Decidable (s.Pending id) :=
  inferInstanceAs (Decidable (_ ∧ _))

/-- One step; users have the identifiers that `add_timer` returned, and the empty one. -/
def step (s : CancelRun) : CancelEvent → Option CancelRun
  | .wheel event =>
      (s.run.step event).map fun next =>
        { s with run := next, accepted := s.accepted ++ (s.run.returned event).toList }
  | .remove id =>
      if s.run.phase.userRuns = true ∧ (id.triggerAtMs = 0 ∨ id ∈ s.accepted) then
        (s.run.removeTimer id).map fun next =>
          { s with
            run := next
            cancelled := if s.Pending id then s.cancelled ++ [id] else s.cancelled }
      else none

/-- No timer fires once it is cancelled. -/
def Cancels (s : CancelRun) : Prop := ∀ id ∈ s.cancelled, ¬ s.run.HasFired id.it

instance : DecidablePred Cancels := fun s =>
  inferInstanceAs (Decidable (∀ id ∈ s.cancelled, ¬ s.run.HasFired id.it))

/-- The condition on a step: a timer is cancelled before the wheel comes to its slot time. -/
def RemovesAhead (s : CancelRun) : CancelEvent → Prop
  | .remove id => s.Pending id → s.run.ti.triggerBeforeMs < id.triggerAtMs
  | .wheel _ => True

instance (s : CancelRun) : DecidablePred s.RemovesAhead
  | .remove id =>
      inferInstanceAs (Decidable (s.Pending id → s.run.ti.triggerBeforeMs < id.triggerAtMs))
  | .wheel _ => .isTrue trivial

/-- Users and the clock decide on a step; which callbacks of a slot run follows from them. -/
def isCall (event : CancelEvent) : Bool := event ≠ .wheel .fire

/--
The run from `s` to `last` behind `remove_timer(id)` has a counterpart without that call: the
same steps and no others but callbacks of the wheel, and the other timers fire as before.
-/
def Undisturbed (s : CancelRun) (id : TimerId) (after : List CancelEvent) (last : CancelRun) :
    Prop :=
  ∃ without other, after.Sublist without ∧ without.filter isCall = after.filter isCall ∧
    runFrom step s without = some other ∧
    other.run.firedOthers id.it = last.run.firedOthers id.it

/-- In a run no cancelled timer fires, and cancelling one leaves the others as they are. -/
structure CancelsOnly (now : Nat) (events : List CancelEvent) : Prop where
  cancels : AllStates step Cancels (start now) events
  others : ∀ before id after s last, events = before ++ .remove id :: after →
    runFrom step (start now) before = some s → s.Pending id →
    runFrom step s (.remove id :: after) = some last → s.Undisturbed id after last

end CancelRun

/-! ## What is in the wheel -/

/-- A turn of the wheel leaves the slots of the times ahead of it. -/
theorem TimerWheel.slotOf_advance {ti : TimerWheel} {atMs : Nat}
    (aligned : ti.triggerBeforeMs % everyMs = 0) (atAligned : atMs % everyMs = 0)
    (future : ti.triggerBeforeMs < atMs) :
    ti.advance.slotOf atMs = ti.slotOf atMs := by
  simp only [slotOf, advance, wheelSize_eq, everyMs_eq] at *
  omega

theorem Phase.moveTo_eq_idle {phase : Phase} {position : Nat}
    (idle : phase.moveTo position = .idle) : phase = .idle := by
  cases phase with
  | idle => rfl
  | looping atMs => cases idle
  | firing atMs place => cases idle

theorem Phase.position_moveTo_le {phase : Phase} {position : Nat}
    (fewer : position ≤ phase.position) : (phase.moveTo position).position = position := by
  cases phase with
  | firing atMs place => rfl
  | idle => exact (Nat.le_zero.mp fewer).symm
  | looping atMs => exact (Nat.le_zero.mp fewer).symm

namespace TimerRun

/--
Every node lies in the slot of its time, which the wheel has not passed; the nodes in front
of the loop have fired.
-/
structure Filed (run : TimerRun) : Prop where
  aligned : run.ti.triggerBeforeMs % everyMs = 0
  inWheel : run.ti.slotPtr < wheelSize
  placed : ∀ slot, ∀ node ∈ run.ti.wheel slot, node.atMs % everyMs = 0 ∧
    run.ti.triggerBeforeMs ≤ node.atMs ∧ slot = run.ti.slotOf node.atMs
  /-- only the loop over its slot sees a time that is reached -/
  due : ∀ slot, ∀ node ∈ run.ti.wheel slot, node.atMs = run.ti.triggerBeforeMs →
    ∃ atMs position, run.phase = .firing atMs position
  known : ∀ slot, ∀ node ∈ run.ti.wheel slot, node.it < run.nextIt
  same : ∀ {slot other : Nat} {node twin : TimerNode}, node ∈ run.ti.wheel slot →
    twin ∈ run.ti.wheel other → node.it = twin.it → node = twin
  front : ∀ node ∈ run.reached, run.HasFired node.it
  inList : run.phase.position ≤ run.ti.current.length

/-- A time that is reached belongs to the current slot. -/
theorem Filed.current {run : TimerRun} (filed : run.Filed) {slot : Nat} {node : TimerNode}
    (member : node ∈ run.ti.wheel slot) (reached : node.atMs = run.ti.triggerBeforeMs) :
    slot = run.ti.slotPtr := by
  rw [(filed.placed slot node member).2.2, reached, TimerWheel.slotOf, Nat.sub_self,
    Nat.zero_div, Nat.add_zero, Nat.mod_eq_of_lt filed.inWheel]

theorem start_filed (now : Nat) : (start now).Filed where
  aligned := getSlotTimestamp_aligned _ now
  inWheel := show 0 < wheelSize by decide
  placed := by
    intro slot node member
    cases member
  due := by
    intro slot node member
    cases member
  known := by
    intro slot node member
    cases member
  same := by
    intro slot other node twin member
    cases member
  front := by
    intro node member
    cases member
  inList := Nat.zero_le _

theorem current_pushBack (ti : TimerWheel) (slot : Nat) (node : TimerNode) :
    ∃ pushed, (ti.pushBack slot node).current = ti.current ++ pushed := by
  by_cases here : ti.slotPtr = slot
  · refine ⟨[node], ?_⟩
    rw [TimerWheel.current, TimerWheel.current, TimerWheel.pushBack, ← here]
    exact Function.update_self ..
  · refine ⟨[], ?_⟩
    rw [List.append_nil]
    exact Function.update_of_ne here ..

/-- What `add_timer` appends to the current slot is ahead of the loop. -/
theorem current_addTimer (run : TimerRun) (timer : Timer) (it : Nat) (reads : ClockReads) :
    ∃ pushed, (run.ti.addTimer timer it reads).2.current = run.ti.current ++ pushed := by
  rcases run.addTimer_cases timer it reads with same | ⟨-, stored⟩
  · exact ⟨[], by rw [same, List.append_nil]⟩
  · rw [stored]
    exact current_pushBack ..

theorem Filed.take_addTimer {run : TimerRun} (filed : run.Filed) (timer : Timer) (it : Nat)
    (reads : ClockReads) :
    (run.ti.addTimer timer it reads).2.current.take run.phase.position = run.reached := by
  obtain ⟨pushed, current⟩ := run.current_addTimer timer it reads
  rw [current, List.take_append_of_le_length filed.inList, reached]

theorem Filed.add {run next : TimerRun} {timer : Timer} {reads : ClockReads} (filed : run.Filed)
    (taken : run.step (.add timer reads) = some next) : next.Filed := by
  obtain ⟨-, rfl⟩ := of_guarded taken
  rcases run.addTimer_cases timer run.nextIt reads with same | ⟨⟨future, -⟩, stored⟩
  · rw [same]
    exact ⟨filed.aligned, filed.inWheel, filed.placed, filed.due,
      fun slot node member => Nat.lt_succ_of_lt (filed.known slot node member), filed.same,
      filed.front, filed.inList⟩
  · rw [stored]
    have old {slot : Nat} {node : TimerNode} (member : node ∈ run.ti.wheel slot) :
        node.it ≠ run.nextIt :=
      Nat.ne_of_lt (filed.known slot node member)
    refine ⟨filed.aligned, filed.inWheel, ?_, ?_, ?_, ?_, ?_, ?_⟩
    · intro slot node member
      rcases mem_pushBack_iff.mp member with before | ⟨rfl, rfl⟩
      · exact filed.placed slot node before
      · exact ⟨getSlotTimestamp_aligned _ _, Nat.le_of_lt future, rfl⟩
    · intro slot node member now
      rcases mem_pushBack_iff.mp member with before | ⟨rfl, rfl⟩
      · exact filed.due slot node before now
      · exact absurd now (Nat.ne_of_gt future)
    · intro slot node member
      rcases mem_pushBack_iff.mp member with before | ⟨rfl, rfl⟩
      · exact Nat.lt_succ_of_lt (filed.known slot node before)
      · exact Nat.lt_succ_self _
    · intro slot other node twin member twinMember equal
      rcases mem_pushBack_iff.mp member with before | ⟨rfl, rfl⟩
      · rcases mem_pushBack_iff.mp twinMember with twinBefore | ⟨rfl, rfl⟩
        · exact filed.same before twinBefore equal
        · exact absurd equal (old before)
      · rcases mem_pushBack_iff.mp twinMember with twinBefore | ⟨rfl, rfl⟩
        · exact absurd equal.symm (old twinBefore)
        · rfl
    · intro node member
      apply filed.front node
      rw [← filed.take_addTimer timer run.nextIt reads, stored]
      exact member
    · obtain ⟨pushed, current⟩ := run.current_addTimer timer run.nextIt reads
      rw [stored] at current
      show _ ≤ (TimerWheel.current _).length
      rw [current, List.length_append]
      exact Nat.le_add_right_of_le filed.inList

theorem Filed.next {run next : TimerRun} (filed : run.Filed)
    (taken : run.step .next = some next) : next.Filed := by
  obtain ⟨atMs, phase, ⟨-, rfl⟩ | ⟨-, rfl⟩⟩ := of_next taken
  · have future : ∀ slot, ∀ node ∈ run.ti.wheel slot, run.ti.triggerBeforeMs < node.atMs := by
      intro slot node member
      apply Nat.lt_of_le_of_ne (filed.placed slot node member).2.1
      intro now
      obtain ⟨_, _, firing⟩ := filed.due slot node member now.symm
      rw [phase] at firing
      cases firing
    refine ⟨?_, Nat.mod_lt _ (by decide), ?_, fun _ _ _ _ => ⟨atMs, 0, rfl⟩, filed.known,
      filed.same, fun node member => ?_, Nat.zero_le _⟩
    · have aligned := filed.aligned
      simp only [TimerWheel.advance, everyMs_eq] at *
      omega
    · intro slot node member
      obtain ⟨aligned, -, inSlot⟩ := filed.placed slot node member
      have later := future slot node member
      refine ⟨aligned, ?_, ?_⟩
      · have wheelAligned := filed.aligned
        simp only [TimerWheel.advance, everyMs_eq] at *
        omega
      · rw [inSlot]
        exact (TimerWheel.slotOf_advance filed.aligned aligned later).symm
    · cases member
  · refine ⟨filed.aligned, filed.inWheel, filed.placed, ?_, filed.known, filed.same,
      fun node member => ?_, Nat.zero_le _⟩
    · intro slot node member now
      obtain ⟨_, _, firing⟩ := filed.due slot node member now
      rw [phase] at firing
      cases firing
    · cases member

theorem Filed.fire {run next : TimerRun} (filed : run.Filed)
    (taken : run.step .fire = some next) : next.Filed := by
  obtain ⟨atMs, position, node, phase, found, rfl⟩ := of_fire taken
  have place : run.phase.position = position := by rw [phase]; rfl
  refine ⟨filed.aligned, filed.inWheel, filed.placed, fun _ _ _ _ => ⟨atMs, position + 1, rfl⟩,
    filed.known, filed.same, ?_, (List.getElem?_eq_some_iff.mp found).1⟩
  intro other member
  change _ ∈ List.map _ (_ ++ [_])
  rw [List.map_append, List.map_singleton, List.mem_append, List.mem_singleton]
  change other ∈ run.ti.current.take (position + 1) at member
  rw [List.take_add_one, found, Option.toList_some, List.mem_append, List.mem_singleton] at member
  rcases member with before | rfl
  · left
    exact filed.front other (by rw [reached, place]; exact before)
  · exact .inr rfl

theorem Filed.clear {run next : TimerRun} (filed : run.Filed)
    (taken : run.step .clear = some next) : next.Filed := by
  obtain ⟨atMs, position, phase, -, rfl⟩ := of_clear taken
  refine ⟨filed.aligned, filed.inWheel, ?_, ?_, ?_, ?_, fun node member => ?_, Nat.zero_le _⟩
  · intro slot node member
    exact filed.placed slot node (mem_clearCurrent member).1
  · intro slot node member now
    obtain ⟨before, elsewhere⟩ := mem_clearCurrent member
    exact absurd (filed.current before now) elsewhere
  · intro slot node member
    exact filed.known slot node (mem_clearCurrent member).1
  · intro slot other node twin member twinMember equal
    exact filed.same (mem_clearCurrent member).1 (mem_clearCurrent twinMember).1 equal
  · cases member

theorem Filed.step {run next : TimerRun} {event : Event} (filed : run.Filed)
    (taken : run.step event = some next) : next.Filed := by
  cases event with
  | add timer reads => exact filed.add taken
  | next => exact filed.next taken
  | fire => exact filed.fire taken
  | clear => exact filed.clear taken
  | trigger nowMs reading =>
      obtain ⟨⟨idle, -⟩, rfl⟩ := of_guarded taken
      refine ⟨filed.aligned, filed.inWheel, filed.placed, ?_, filed.known, filed.same,
        fun node member => ?_, Nat.zero_le _⟩
      · intro slot node member now
        obtain ⟨_, _, firing⟩ := filed.due slot node member now
        rw [idle] at firing
        cases firing
      · cases member

/-! ## The run without one of its nodes -/

/-- The run with the node left out: of its list, of the callbacks and of the loop's way. -/
def without (run : TimerRun) (it : Nat) : TimerRun :=
  { run with
    ti := { run.ti with wheel := fun slot => (run.ti.wheel slot).filter (·.it ≠ it) }
    phase := run.phase.moveTo (run.reached.filter (·.it ≠ it)).length
    fired := run.firedOthers it }

/-- The loop has come to no more nodes than it counts. -/
theorem length_reached_le (run : TimerRun) (it : Nat) :
    (run.reached.filter (·.it ≠ it)).length ≤ run.phase.position :=
  Nat.le_trans (List.length_filter_le ..) (List.length_take_le ..)

theorem without_position (run : TimerRun) (it : Nat) :
    (run.without it).phase.position = (run.reached.filter (·.it ≠ it)).length :=
  Phase.position_moveTo_le (run.length_reached_le it)

/-- The nodes of the current slot that the loop has not come to. -/
def ahead (run : TimerRun) : List TimerNode := run.ti.current.drop run.phase.position

theorem without_current (run : TimerRun) (it : Nat) :
    (run.without it).ti.current =
      run.reached.filter (·.it ≠ it) ++ run.ahead.filter (·.it ≠ it) := by
  rw [← List.filter_append, reached, ahead, List.take_append_drop]
  rfl

theorem without_reached (run : TimerRun) (it : Nat) :
    (run.without it).reached = run.reached.filter (·.it ≠ it) := by
  rw [reached, without_position, without_current, List.take_left']
  rfl

theorem without_ahead (run : TimerRun) (it : Nat) :
    (run.without it).ahead = run.ahead.filter (·.it ≠ it) := by
  rw [ahead, without_position, without_current, List.drop_left']
  rfl

theorem without_ahead_cons {run : TimerRun} {it : Nat} {first : TimerNode}
    {rest : List TimerNode} (left : run.ahead = first :: rest) (apart : first.it ≠ it) :
    (run.without it).ahead = first :: rest.filter (·.it ≠ it) := by
  rw [without_ahead, left]
  exact List.filter_cons_of_pos (decide_eq_true apart)

/-- Leaving out the only node of a slot with its address is leaving it out everywhere. -/
theorem Filed.erase_eq {run : TimerRun} (filed : run.Filed) {slot it : Nat}
    (member : it ∈ (run.ti.wheel slot).map TimerNode.it) :
    (run.ti.erase slot it).wheel = fun slot => (run.ti.wheel slot).filter (·.it ≠ it) := by
  funext other
  by_cases here : other = slot
  · rw [here, TimerWheel.erase]
    exact Function.update_self ..
  · rw [TimerWheel.erase]
    refine (Function.update_of_ne here ..).trans (List.filter_eq_self.mpr fun node there => ?_).symm
    refine decide_eq_true fun equal => here ?_
    obtain ⟨twin, twinMember, rfl⟩ := List.mem_map.mp member
    have one := filed.same there twinMember equal
    rw [(filed.placed other node there).2.2, (filed.placed slot twin twinMember).2.2, one]

/-- `remove_timer` leaves out the node of a timer whose time is to come. -/
theorem Filed.removeTimer_eq {run : TimerRun} (filed : run.Filed) {id : TimerId}
    (future : run.ti.triggerBeforeMs < id.triggerAtMs)
    (member : id.it ∈ (run.ti.wheel (run.ti.slotOf id.triggerAtMs)).map TimerNode.it)
    (apart : ¬ run.StandsOn id.it) :
    run.removeTimer id = some { run.without id.it with fired := run.fired } := by
  have erased : run.ti.removeTimer id = run.ti.erase (run.ti.slotOf id.triggerAtMs) id.it :=
    if_neg (Nat.not_le_of_lt future)
  rw [removeTimer, if_neg (Nat.not_le_of_lt future), erased, without, ← filed.erase_eq member]
  exact if_pos ⟨member, apart⟩

/-- `remove_timer` does nothing, or leaves out the node of the timer. -/
theorem Filed.removeTimer_cases {run next : TimerRun} (filed : run.Filed) {id : TimerId}
    (removed : run.removeTimer id = some next) :
    id.triggerAtMs ≤ run.ti.triggerBeforeMs ∧ next = run ∨
      run.ti.triggerBeforeMs < id.triggerAtMs ∧ ¬ run.StandsOn id.it ∧
        id.it ∈ (run.ti.wheel (run.ti.slotOf id.triggerAtMs)).map TimerNode.it ∧
        next = { run.without id.it with fired := run.fired } := by
  have whole := removed
  rw [removeTimer] at removed
  by_cases past : id.triggerAtMs ≤ run.ti.triggerBeforeMs
  · rw [if_pos past] at removed
    exact .inl ⟨past, (Option.some.inj removed).symm⟩
  · have future := Nat.lt_of_not_le past
    rw [if_neg past] at removed
    obtain ⟨⟨member, apart⟩, -⟩ := of_guarded removed
    rw [filed.removeTimer_eq future member apart] at whole
    exact .inr ⟨future, apart, member, (Option.some.inj whole).symm⟩

/-- A timer that has not fired leaves nothing behind. -/
theorem without_eq_of_pending {run : TimerRun} {it : Nat} (pending : ¬ run.HasFired it) :
    { run.without it with fired := run.fired } = run.without it := by
  have others : run.firedOthers it = run.fired := by
    refine List.filter_eq_self.mpr fun fired member => decide_eq_true fun equal => pending ?_
    exact List.mem_map.mpr ⟨fired, member, equal⟩
  rw [without, others]

/-- Leaving out a node, where the callbacks of the others are still known. -/
theorem Filed.leaveOut {run : TimerRun} (filed : run.Filed) (it : Nat) {fired : List Fired}
    (others : ∀ node ∈ run.reached, node.it ≠ it → run.HasFired node.it →
      node.it ∈ fired.map fun fired => fired.node.it) :
    Filed { run.without it with fired := fired } where
  aligned := filed.aligned
  inWheel := filed.inWheel
  placed := fun slot node member => filed.placed slot node (List.mem_of_mem_filter member)
  due := by
    intro slot node member now
    obtain ⟨atMs, position, phase⟩ := filed.due slot node (List.mem_of_mem_filter member) now
    refine ⟨atMs, (run.reached.filter (·.it ≠ it)).length, ?_⟩
    change run.phase.moveTo _ = _
    rw [phase]
    rfl
  known := fun slot node member => filed.known slot node (List.mem_of_mem_filter member)
  same := fun member twinMember equal =>
    filed.same (List.mem_of_mem_filter member) (List.mem_of_mem_filter twinMember) equal
  front := by
    intro node member
    have left : node ∈ (run.without it).reached := member
    rw [without_reached] at left
    obtain ⟨before, other⟩ := List.mem_filter.mp left
    exact others node before (of_decide_eq_true other) (filed.front node before)
  inList := by
    change (run.without it).phase.position ≤ (run.without it).ti.current.length
    rw [without_position, without_current, List.length_append]
    exact Nat.le_add_right ..

theorem Filed.without {run : TimerRun} (filed : run.Filed) (it : Nat) :
    (run.without it).Filed := by
  apply filed.leaveOut it
  intro node _ other logged
  obtain ⟨fired, member, same⟩ := List.mem_map.mp logged
  exact List.mem_map.mpr
    ⟨fired, List.mem_filter.mpr ⟨member, decide_eq_true (by rw [same]; exact other)⟩, same⟩

theorem Filed.removeTimer {run next : TimerRun} (filed : run.Filed) {id : TimerId}
    (removed : run.removeTimer id = some next) : next.Filed := by
  rcases filed.removeTimer_cases removed with ⟨-, rfl⟩ | ⟨-, -, -, rfl⟩
  · exact filed
  · exact filed.leaveOut id.it fun _ _ _ logged => logged

/-- The loop comes to the next node. -/
theorem step_fire {run : TimerRun} {atMs position : Nat}
    (phase : run.phase = .firing atMs position) {node : TimerNode} {rest : List TimerNode}
    (ahead : run.ahead = node :: rest) :
    run.step .fire = some { run with
        phase := .firing atMs (position + 1)
        fired := run.fired ++ [⟨node, run.ti.triggerBeforeMs⟩] } ∧
      run.ti.current.drop (position + 1) = rest := by
  have place : run.phase.position = position := by rw [phase]; rfl
  rw [TimerRun.ahead, place] at ahead
  have found : run.ti.current[position]? = some node := by
    rw [← List.head?_drop, ahead, List.head?_cons]
  refine ⟨?_, ?_⟩
  · rw [step, phase]
    simp only [found]
  · rw [← List.tail_drop, ahead, List.tail_cons]

/-! ## A timer that was erased -/

/-- The timer is not in the wheel and has not fired. -/
structure Gone (run : TimerRun) (it : Nat) : Prop where
  absent : ∀ slot, ∀ node ∈ run.ti.wheel slot, node.it ≠ it
  known : it < run.nextIt
  silent : ¬ run.HasFired it

theorem Gone.step {run next : TimerRun} {it : Nat} {event : Event} (gone : run.Gone it)
    (taken : run.step event = some next) : next.Gone it := by
  cases event with
  | add timer reads =>
      obtain ⟨-, rfl⟩ := of_guarded taken
      refine ⟨fun slot node member => ?_, Nat.lt_succ_of_lt gone.known, gone.silent⟩
      rcases run.addTimer_cases timer run.nextIt reads with same | ⟨-, stored⟩
      · rw [same] at member
        exact gone.absent slot node member
      · rw [stored] at member
        rcases mem_pushBack member with before | rfl
        · exact gone.absent slot node before
        · exact Nat.ne_of_gt gone.known
  | trigger nowMs reading =>
      obtain ⟨-, rfl⟩ := of_guarded taken
      exact ⟨gone.absent, gone.known, gone.silent⟩
  | next =>
      obtain ⟨_, _, ⟨-, rfl⟩ | ⟨-, rfl⟩⟩ := of_next taken
      · exact ⟨gone.absent, gone.known, gone.silent⟩
      · exact ⟨gone.absent, gone.known, gone.silent⟩
  | fire =>
      obtain ⟨_, position, node, _, found, rfl⟩ := of_fire taken
      refine ⟨gone.absent, gone.known, fun logged => ?_⟩
      rw [HasFired, List.map_append, List.mem_append, List.map_singleton,
        List.mem_singleton] at logged
      rcases logged with before | now
      · exact gone.silent before
      · exact gone.absent _ node (List.mem_of_getElem? found) now.symm
  | clear =>
      obtain ⟨_, _, _, -, rfl⟩ := of_clear taken
      exact ⟨fun slot node member => gone.absent slot node (mem_clearCurrent member).1,
        gone.known, gone.silent⟩

theorem Gone.removeTimer {run next : TimerRun} {it : Nat} {id : TimerId} (gone : run.Gone it)
    (filed : run.Filed) (removed : run.removeTimer id = some next) : next.Gone it := by
  rcases filed.removeTimer_cases removed with ⟨-, rfl⟩ | ⟨-, -, -, rfl⟩
  · exact gone
  · exact ⟨fun slot node member => gone.absent slot node (List.mem_of_mem_filter member),
      gone.known, gone.silent⟩

end TimerRun

namespace CancelRun

/-- Every pending timer is a node of the wheel, and no two of them are the same. -/
structure Inv (s : CancelRun) : Prop where
  filed : s.run.Filed
  known : ∀ id ∈ s.accepted, id.it < s.run.nextIt
  ids : ∀ id ∈ s.accepted, ∀ other ∈ s.accepted, id.it = other.it → id = other
  kept : ∀ id, s.Pending id →
    ∃ slot, ∃ node ∈ s.run.ti.wheel slot, node.it = id.it ∧ node.atMs = id.triggerAtMs

theorem start_inv (now : Nat) : (start now).Inv where
  filed := TimerRun.start_filed now
  known := by
    intro id member
    cases member
  ids := by
    intro id member
    cases member
  kept := by
    rintro id ⟨member, -⟩
    cases member

/-- A node of the wheel stays there in each step in which it does not fire. -/
theorem kept_of_step {run next : TimerRun} {event : Event} (filed : run.Filed) {it atMs : Nat}
    (taken : run.step event = some next) (silent : ¬ next.HasFired it)
    (kept : ∃ slot, ∃ node ∈ run.ti.wheel slot, node.it = it ∧ node.atMs = atMs) :
    ∃ slot, ∃ node ∈ next.ti.wheel slot, node.it = it ∧ node.atMs = atMs := by
  obtain ⟨slot, node, member, named⟩ := kept
  refine ⟨slot, node, ?_, named⟩
  cases event with
  | add timer reads =>
      obtain ⟨-, rfl⟩ := of_guarded taken
      rcases run.addTimer_cases timer run.nextIt reads with same | ⟨-, stored⟩
      · rw [same]
        exact member
      · rw [stored]
        exact TimerRun.mem_pushBack_iff.mpr (.inl member)
  | trigger nowMs reading =>
      obtain ⟨-, rfl⟩ := of_guarded taken
      exact member
  | next =>
      obtain ⟨_, _, ⟨-, rfl⟩ | ⟨-, rfl⟩⟩ := TimerRun.of_next taken
      · exact member
      · exact member
  | fire =>
      obtain ⟨_, _, _, _, _, rfl⟩ := TimerRun.of_fire taken
      exact member
  | clear =>
      obtain ⟨_, position, phase, done, rfl⟩ := TimerRun.of_clear taken
      by_cases here : slot = run.ti.slotPtr
      · -- every node of the current slot is behind the loop
        refine absurd (filed.front node ?_) (named.1 ▸ silent)
        rw [here] at member
        have place : run.phase.position = run.ti.current.length := by
          rw [phase]
          exact done
        rw [TimerRun.reached, place, List.take_length]
        exact member
      · change node ∈ Function.update run.ti.wheel run.ti.slotPtr [] slot
        rw [Function.update_of_ne here]
        exact member

/-- `add_timer` returns the time and the address of the node that it makes. -/
theorem of_returned {run next : TimerRun} {event : Event} {id : TimerId}
    (taken : run.step event = some next) (returned : run.returned event = some id) :
    id.it = run.nextIt ∧ next.nextIt = run.nextIt + 1 ∧
      next.Kept id.it id.triggerAtMs ∧ next.fired = run.fired := by
  cases event with
  | add timer reads =>
      simp only [TimerRun.returned] at returned
      split at returned
      · next stored =>
          cases returned
          have kept := TimerRun.kept_of_stored stored taken
          obtain ⟨-, rfl⟩ := of_guarded taken
          refine ⟨?_, rfl, kept, rfl⟩
          simp only [TimerWheel.addTimer] at stored
          split_ifs at stored
          cases stored
          rfl
      · cases returned
  | trigger nowMs reading => cases returned
  | next => cases returned
  | fire => cases returned
  | clear => cases returned

theorem nextIt_le {run next : TimerRun} {event : Event} (taken : run.step event = some next) :
    run.nextIt ≤ next.nextIt := by
  cases event with
  | add timer reads =>
      obtain ⟨-, rfl⟩ := of_guarded taken
      exact Nat.le_succ _
  | trigger nowMs reading =>
      obtain ⟨-, rfl⟩ := of_guarded taken
      exact Nat.le_refl _
  | next => obtain ⟨_, _, ⟨-, rfl⟩ | ⟨-, rfl⟩⟩ := TimerRun.of_next taken <;> exact Nat.le_refl _
  | fire =>
      obtain ⟨_, _, _, _, _, rfl⟩ := TimerRun.of_fire taken
      exact Nat.le_refl _
  | clear =>
      obtain ⟨_, _, _, _, rfl⟩ := TimerRun.of_clear taken
      exact Nat.le_refl _

theorem Inv.wheel {s next : CancelRun} {event : Event} (inv : s.Inv)
    (taken : s.step (.wheel event) = some next) : next.Inv := by
  obtain ⟨run, stepped, rfl⟩ := Option.map_eq_some_iff.mp taken
  have grows := nextIt_le stepped
  have older {id : TimerId} (member : id ∈ s.accepted) : id.it < run.nextIt :=
    Nat.lt_of_lt_of_le (inv.known id member) grows
  have listed {id : TimerId} (member : id ∈ s.accepted ++ (s.run.returned event).toList) :
      id ∈ s.accepted ∨ s.run.returned event = some id := by
    rwa [List.mem_append, Option.mem_toList] at member
  refine ⟨inv.filed.step stepped, fun id member => ?_, fun id member other twin equal => ?_,
    fun id pending => ?_⟩
  · rcases listed member with old | new
    · exact older old
    · obtain ⟨address, next, -⟩ := of_returned stepped new
      rw [address, next]
      exact Nat.lt_succ_self _
  · rcases listed member with old | new
    · rcases listed twin with twinOld | twinNew
      · exact inv.ids id old other twinOld equal
      · have fresh := (of_returned stepped twinNew).1
        exact absurd (equal.trans fresh) (Nat.ne_of_lt (inv.known id old))
    · rcases listed twin with twinOld | twinNew
      · have fresh := (of_returned stepped new).1
        exact absurd (equal.symm.trans fresh) (Nat.ne_of_lt (inv.known other twinOld))
      · exact Option.some.inj (new.symm.trans twinNew)
  · obtain ⟨member, uncancelled, silent⟩ := pending
    rcases listed member with old | new
    · refine kept_of_step inv.filed stepped silent (inv.kept id ⟨old, uncancelled, fun fired => ?_⟩)
      exact silent (TimerRun.fired_of_step fired stepped)
    · rcases (of_returned stepped new).2.2.1 with fired | there
      · exact absurd fired silent
      · exact there

theorem Inv.remove {s next : CancelRun} {id : TimerId} (inv : s.Inv)
    (taken : s.step (.remove id) = some next) : next.Inv := by
  obtain ⟨⟨-, owned⟩, run, removed, rfl⟩ := of_guarded_map taken
  have uncancelled {other : TimerId}
      (apart : other ∉ if s.Pending id then s.cancelled ++ [id] else s.cancelled) :
      other ∉ s.cancelled ∧ (s.Pending id → other ≠ id) := by
    split_ifs at apart with pending
    · rw [List.mem_append, List.mem_singleton, not_or] at apart
      exact ⟨apart.1, fun _ => apart.2⟩
    · exact ⟨apart, fun now => absurd now pending⟩
  rcases inv.filed.removeTimer_cases removed with ⟨-, rfl⟩ | ⟨future, -, -, rfl⟩
  · refine ⟨inv.filed, inv.known, inv.ids, fun other ⟨member, apart, silent⟩ => ?_⟩
    exact inv.kept other ⟨member, (uncancelled apart).1, silent⟩
  · refine ⟨inv.filed.removeTimer removed, inv.known, inv.ids,
      fun other ⟨member, apart, silent⟩ => ?_⟩
    obtain ⟨before, still⟩ := uncancelled apart
    have pending : s.Pending other := ⟨member, before, silent⟩
    obtain ⟨slot, node, there, address, time⟩ := inv.kept other pending
    refine ⟨slot, node, List.mem_filter.mpr ⟨there, decide_eq_true fun equal => ?_⟩, address, time⟩
    have accepted : id ∈ s.accepted := by
      rcases owned with empty | accepted
      · rw [empty] at future
        exact absurd future (Nat.not_lt_zero _)
      · exact accepted
    have one := inv.ids other member id accepted (address.symm.trans equal)
    exact still (one ▸ pending) one

theorem Inv.step {s next : CancelRun} {event : CancelEvent} (inv : s.Inv)
    (taken : s.step event = some next) : next.Inv := by
  cases event with
  | wheel event => exact inv.wheel taken
  | remove id => exact inv.remove taken

/-- The loop never stands on a pending timer, so cancelling one is always defined. -/
theorem Inv.remove_defined {s : CancelRun} {id : TimerId} (inv : s.Inv)
    (users : s.run.phase.userRuns = true) (pending : s.Pending id) :
    ∃ next, s.step (.remove id) = some next := by
  obtain ⟨slot, node, member, address, time⟩ := inv.kept id pending
  obtain ⟨run, removed⟩ : ∃ run, s.run.removeTimer id = some run := by
    by_cases past : id.triggerAtMs ≤ s.run.ti.triggerBeforeMs
    · exact ⟨s.run, if_pos past⟩
    · have inSlot := (inv.filed.placed slot node member).2.2
      rw [time] at inSlot
      refine ⟨_, inv.filed.removeTimer_eq (Nat.lt_of_not_le past)
        (List.mem_map.mpr ⟨node, inSlot ▸ member, address⟩) fun stands => ?_⟩
      obtain ⟨last, isLast, same⟩ := Option.map_eq_some_iff.mp stands
      exact pending.2.2 (same ▸ inv.filed.front last (List.mem_of_getLast? isLast))
  exact ⟨_, (if_pos ⟨users, .inr pending.1⟩).trans (by rw [removed]; rfl)⟩

/-! ## Cancelled ahead of the wheel -/

/-- The invariant of the runs that cancel ahead of the wheel. -/
structure AllGone (s : CancelRun) : Prop where
  inv : s.Inv
  gone : ∀ id ∈ s.cancelled, s.run.Gone id.it

theorem AllGone.step {s next : CancelRun} {event : CancelEvent} (good : s.AllGone)
    (ahead : s.RemovesAhead event) (taken : s.step event = some next) : next.AllGone := by
  refine ⟨good.inv.step taken, ?_⟩
  cases event with
  | wheel event =>
      obtain ⟨run, stepped, rfl⟩ := Option.map_eq_some_iff.mp taken
      exact fun id member => (good.gone id member).step stepped
  | remove id =>
      obtain ⟨-, run, removed, rfl⟩ := of_guarded_map taken
      have filed := good.inv.filed
      intro other member
      by_cases pending : s.Pending id
      · simp only [if_pos pending, List.mem_append, List.mem_singleton] at member
        rcases member with before | rfl
        · exact (good.gone other before).removeTimer filed removed
        · rcases filed.removeTimer_cases removed with ⟨past, -⟩ | ⟨-, -, -, rfl⟩
          · exact absurd (ahead pending) (Nat.not_lt_of_le past)
          · refine ⟨fun slot node there => ?_, good.inv.known other pending.1, pending.2.2⟩
            exact of_decide_eq_true (List.mem_filter.mp there).2
      · simp only [if_neg pending] at member
        exact (good.gone other member).removeTimer filed removed

theorem start_allGone (now : Nat) : (start now).AllGone := by
  refine ⟨start_inv now, fun id member => ?_⟩
  cases member

/-! ## Cancelled in the slot that fires -/

theorem step_wheel {s : CancelRun} {event : Event} {run : TimerRun}
    (taken : s.run.step event = some run) :
    s.step (.wheel event) =
      some { s with run := run, accepted := s.accepted ++ (s.run.returned event).toList } := by
  rw [step, taken, Option.map_some]

/-- The nodes that the loop has not come to fire. -/
theorem reaches_fired {s : CancelRun} {atMs position : Nat}
    (phase : s.run.phase = .firing atMs position) {node : TimerNode}
    (member : node ∈ s.run.ahead) :
    Reaches step (fun last => last.run.HasFired node.it ∧ last.cancelled = s.cancelled) s := by
  generalize left : s.run.ahead = nodes at member
  induction nodes generalizing s position with
  | nil => cases member
  | cons first rest ih =>
      obtain ⟨taken, behind⟩ := TimerRun.step_fire phase left
      rcases List.mem_cons.mp member with rfl | later
      · refine reaches_next (step_wheel taken) (reaches_now ⟨?_, rfl⟩)
        exact List.mem_map.mpr ⟨_, List.mem_append_right _ (List.mem_singleton.mpr rfl), rfl⟩
      · exact reaches_next (step_wheel taken) (ih rfl behind later)

/-- A timer that is cancelled when the wheel has come to its time still fires. -/
theorem reaches_of_late {now : Nat} {events : List CancelEvent} {s next : CancelRun}
    {id : TimerId} (run : runFrom step (start now) events = some s)
    (taken : s.step (.remove id) = some next) (late : ¬ s.RemovesAhead (.remove id)) :
    Reaches step (fun last => ¬ last.Cancels) next := by
  have inv := runFrom_invariant Inv (fun _ _ _ inv taken => inv.step taken) (start_inv now) run
  obtain ⟨pending, past⟩ : s.Pending id ∧ id.triggerAtMs ≤ s.run.ti.triggerBeforeMs := by
    simpa [RemovesAhead] using late
  obtain ⟨slot, node, member, address, time⟩ := inv.kept id pending
  have reached : node.atMs = s.run.ti.triggerBeforeMs :=
    Nat.le_antisymm (time ▸ past) (inv.filed.placed slot node member).2.1
  obtain ⟨atMs, position, phase⟩ := inv.filed.due slot node member reached
  have ahead : node ∈ s.run.ahead := by
    rw [inv.filed.current member reached] at member
    have split : node ∈ s.run.reached ++ s.run.ahead := by
      rw [TimerRun.reached, TimerRun.ahead, List.take_append_drop]
      exact member
    rcases List.mem_append.mp split with fired | ahead
    · exact absurd (address ▸ inv.filed.front node fired) pending.2.2
    · exact ahead
  obtain ⟨-, removed, stays, rfl⟩ := of_guarded_map taken
  rw [TimerRun.removeTimer, if_pos past] at stays
  cases stays
  obtain ⟨more, last, runs, fired, same⟩ := reaches_fired (s := { s with
    cancelled := if s.Pending id then s.cancelled ++ [id] else s.cancelled }) phase ahead
  refine ⟨more, last, runs, fun cancels => cancels id ?_ (address ▸ fired)⟩
  rw [same, if_pos pending]
  exact List.mem_append_right _ (List.mem_singleton.mpr rfl)

/-! ## The other timers -/

end CancelRun

namespace TimerRun

variable {run : TimerRun} {it : Nat}

theorem without_userRuns (users : (run.without it).phase.userRuns = true) :
    run.phase.userRuns = true := by
  have fewer := run.length_reached_le it
  cases phase : run.phase with
  | idle => rfl
  | looping atMs =>
      simp only [without, phase, Phase.moveTo, Phase.userRuns] at users
      cases users
  | firing atMs position =>
      simp only [without, phase, Phase.moveTo, Phase.userRuns, decide_eq_true_iff] at users
      rw [phase] at fewer
      exact decide_eq_true (Nat.lt_of_lt_of_le users fewer)

/-- Leaving out a node and changing one slot of the wheel. -/
theorem filter_update (wheel : Nat → List TimerNode) (slot : Nat) (nodes : List TimerNode)
    (it : Nat) :
    (fun other => (Function.update wheel slot nodes other).filter (·.it ≠ it)) =
      Function.update (fun other => (wheel other).filter (·.it ≠ it)) slot
        (nodes.filter (·.it ≠ it)) := by
  funext other
  by_cases here : other = slot
  · rw [here, Function.update_self, Function.update_self]
  · rw [Function.update_of_ne here, Function.update_of_ne here]

theorem without_addTimer (timer : Timer) (reads : ClockReads) {new : Nat} (other : new ≠ it) :
    ((run.without it).ti.addTimer timer new reads).1 = (run.ti.addTimer timer new reads).1 ∧
      ((run.without it).ti.addTimer timer new reads).2 =
        { (run.ti.addTimer timer new reads).2 with
          wheel := fun slot =>
            ((run.ti.addTimer timer new reads).2.wheel slot).filter (·.it ≠ it) } := by
  by_cases past : TimerWheel.atMs timer reads ≤ run.ti.triggerBeforeMs
  · have high : run.ti.addTimer timer new reads = (.ran, run.ti) := if_pos past
    have low : (run.without it).ti.addTimer timer new reads = (.ran, (run.without it).ti) :=
      if_pos past
    rw [low, high]
    exact ⟨rfl, rfl⟩
  by_cases limit :
      spanSec * 1000 ≤ getSlotTimestamp timer.triggerAfterMs.toNat reads.forDelay
  · have high : run.ti.addTimer timer new reads = (.rejected, run.ti) :=
      (if_neg past).trans (if_pos limit)
    have low : (run.without it).ti.addTimer timer new reads = (.rejected, (run.without it).ti) :=
      (if_neg past).trans (if_pos limit)
    rw [low, high]
    exact ⟨rfl, rfl⟩
  · have stored (ti : TimerWheel) (same : ti.triggerBeforeMs = run.ti.triggerBeforeMs) :
        ti.addTimer timer new reads = (.stored ⟨TimerWheel.atMs timer reads, new⟩,
          ti.pushBack (ti.slotOf (TimerWheel.atMs timer reads))
            ⟨new, timer, TimerWheel.atMs timer reads⟩) :=
      (if_neg (same ▸ past)).trans (if_neg limit)
    rw [stored run.ti rfl, stored (run.without it).ti rfl]
    refine ⟨rfl, ?_⟩
    have kept : [TimerNode.mk new timer (TimerWheel.atMs timer reads)].filter (·.it ≠ it) =
        [⟨new, timer, TimerWheel.atMs timer reads⟩] :=
      List.filter_cons_of_pos (decide_eq_true other)
    simp only [TimerWheel.pushBack, filter_update, List.filter_append, kept]
    rfl

theorem without_add (filed : run.Filed) (known : it < run.nextIt) (timer : Timer)
    (reads : ClockReads) (clock nextIt : Nat) :
    ({ run with
      ti := (run.ti.addTimer timer run.nextIt reads).2
      clock := clock
      nextIt := nextIt } : TimerRun).without it =
      { run.without it with
        ti := ((run.without it).ti.addTimer timer run.nextIt reads).2
        clock := clock
        nextIt := nextIt } := by
  rw [(without_addTimer timer reads (Nat.ne_of_gt known)).2, without, reached,
    filed.take_addTimer]
  rfl

theorem without_clear (atMs : Nat) :
    ({ run with ti := run.ti.clearCurrent, phase := .looping atMs } : TimerRun).without it =
      { run.without it with
        ti := (run.without it).ti.clearCurrent, phase := .looping atMs } := by
  simp only [without, TimerWheel.clearCurrent, filter_update]
  rfl

/-- A callback of the node that is left out, or of another one. -/
theorem reached_fire {atMs position : Nat} {node : TimerNode} {rest : List TimerNode}
    {fired : List Fired} (phase : run.phase = .firing atMs position)
    (ahead : run.ahead = node :: rest) :
    ({ run with phase := .firing atMs (position + 1), fired := fired } : TimerRun).reached =
      run.reached ++ [node] := by
  have place : run.phase.position = position := by rw [phase]; rfl
  rw [TimerRun.ahead, place] at ahead
  have found : run.ti.current[position]? = some node := by
    rw [← List.head?_drop, ahead, List.head?_cons]
  rw [reached, reached, place]
  change run.ti.current.take (position + 1) = _
  rw [List.take_add_one, found, Option.toList_some]

theorem without_fire_same {atMs position : Nat} {node : TimerNode} {rest : List TimerNode}
    (phase : run.phase = .firing atMs position) (ahead : run.ahead = node :: rest)
    (same : node.it = it) (time : Nat) :
    ({ run with
      phase := .firing atMs (position + 1)
      fired := run.fired ++ [⟨node, time⟩] } : TimerRun).without it = run.without it := by
  have nodes : [node].filter (·.it ≠ it) = [] := List.filter_cons_of_neg (by simp [same])
  have log : [Fired.mk node time].filter (·.node.it ≠ it) = [] :=
    List.filter_cons_of_neg (by simp [same])
  rw [without, without, reached_fire phase ahead, List.filter_append, nodes, List.append_nil,
    firedOthers, firedOthers, List.filter_append, log, List.append_nil, phase]
  rfl

theorem without_fire_other {atMs position : Nat} {node : TimerNode} {rest : List TimerNode}
    (phase : run.phase = .firing atMs position) (ahead : run.ahead = node :: rest)
    (other : node.it ≠ it) (time : Nat) :
    ({ run with
      phase := .firing atMs (position + 1)
      fired := run.fired ++ [⟨node, time⟩] } : TimerRun).without it =
      { run.without it with
        phase := .firing atMs ((run.reached.filter (·.it ≠ it)).length + 1)
        fired := (run.without it).fired ++ [⟨node, time⟩] } := by
  have nodes : [node].filter (·.it ≠ it) = [node] :=
    List.filter_cons_of_pos (decide_eq_true other)
  have log : [Fired.mk node time].filter (·.node.it ≠ it) = [⟨node, time⟩] :=
    List.filter_cons_of_pos (decide_eq_true other)
  rw [without, reached_fire phase ahead, List.filter_append, nodes, List.length_append,
    firedOthers, List.filter_append, log]
  rfl

end TimerRun

namespace CancelRun

/-- A run that goes on without the node `it`, and one that still has it. -/
structure Beside (it : Nat) (low high : CancelRun) : Prop where
  run : low.run = high.run.without it
  accepted : low.accepted = high.accepted
  filed : high.run.Filed
  known : it < high.run.nextIt

/-- The loop passes the nodes at `it`, and stands in front of another one or of none. -/
theorem Beside.passes {it : Nat} {low high : CancelRun} (beside : Beside it low high)
    {atMs position : Nat} (phase : high.run.phase = .firing atMs position) :
    ∃ hidden after, (∀ other ∈ hidden, other = CancelEvent.wheel .fire) ∧
      runFrom step high hidden = some after ∧ Beside it low after ∧
      (∃ position, after.run.phase = .firing atMs position) ∧
      ∀ node ∈ after.run.ahead.head?, node.it ≠ it := by
  generalize left : high.run.ahead = nodes
  induction nodes generalizing high position with
  | nil =>
      refine ⟨[], high, fun _ member => absurd member List.not_mem_nil, rfl, beside,
        ⟨position, phase⟩, fun node head => ?_⟩
      rw [left] at head
      cases head
  | cons node rest ih =>
      by_cases same : node.it = it
      · obtain ⟨taken, behind⟩ := TimerRun.step_fire phase left
        have skipped : Beside it low { high with
            run := { high.run with
              phase := .firing atMs (position + 1)
              fired := high.run.fired ++ [⟨node, high.run.ti.triggerBeforeMs⟩] }
            accepted := high.accepted ++ (high.run.returned .fire).toList } :=
          ⟨beside.run.trans (TimerRun.without_fire_same phase left same _).symm,
            beside.accepted.trans (List.append_nil _).symm, beside.filed.step taken, beside.known⟩
        obtain ⟨hidden, after, fires, ran, besideAfter, firing, other⟩ := ih skipped rfl behind
        refine ⟨.wheel .fire :: hidden, after, ?_, ?_, besideAfter, firing, other⟩
        · intro event member
          rcases List.mem_cons.mp member with rfl | later
          · rfl
          · exact fires event later
        · rw [runFrom_next (step_wheel taken)]
          exact ran
      · refine ⟨[], high, fun _ member => absurd member List.not_mem_nil, rfl, beside,
          ⟨position, phase⟩, fun first head => ?_⟩
        rw [left] at head
        cases head
        exact same

/-- The same step of both wheels. -/
theorem Beside.matched {it : Nat} {low high : CancelRun} (beside : Beside it low high)
    {event : Event} {lowRun highRun : TimerRun} (taken : high.run.step event = some highRun)
    (run : lowRun = highRun.without it)
    (returned : low.run.returned event = high.run.returned event) :
    ∃ after, high.step (.wheel event) = some after ∧ Beside it
      { low with
        run := lowRun
        accepted := low.accepted ++ (low.run.returned event).toList } after := by
  refine ⟨_, step_wheel taken, run, ?_, beside.filed.step taken,
    Nat.lt_of_lt_of_le beside.known (nextIt_le taken)⟩
  rw [returned, beside.accepted]

/-- The callback of a node: the loop with the node `it` passes that one first. -/
theorem Beside.fire {it : Nat} {low high : CancelRun} {lowRun : TimerRun}
    (beside : Beside it low high) (stepped : low.run.step .fire = some lowRun)
    (position : Nat) {atMs : Nat} (phase : high.run.phase = .firing atMs position)
    (other : ∀ node ∈ high.run.ahead.head?, node.it ≠ it) :
    ∃ highRun, high.run.step .fire = some highRun ∧ lowRun = highRun.without it := by
  obtain ⟨_, lowPosition, node, lowPhase, found, -⟩ := TimerRun.of_fire stepped
  cases left : high.run.ahead with
  | nil =>
      have place : low.run.phase.position = lowPosition := by rw [lowPhase]; rfl
      have none : low.run.ahead = [] := by
        rw [beside.run, TimerRun.without_ahead, left, List.filter_nil]
      rw [TimerRun.ahead, place, List.drop_eq_nil_iff] at none
      rw [List.getElem?_eq_none none] at found
      cases found
  | cons first rest =>
      have apart : first.it ≠ it := other first (by rw [left]; rfl)
      obtain ⟨taken, -⟩ := TimerRun.step_fire phase left
      refine ⟨_, taken, ?_⟩
      have lowFiring : (high.run.without it).phase =
          .firing atMs (high.run.reached.filter (·.it ≠ it)).length := by
        change high.run.phase.moveTo _ = _
        rw [phase]
        rfl
      obtain ⟨lowTaken, -⟩ := TimerRun.step_fire lowFiring (TimerRun.without_ahead_cons left apart)
      rw [beside.run, lowTaken] at stepped
      rw [TimerRun.without_fire_other phase left apart]
      exact (Option.some.inj stepped).symm

/-- The end of the loop over a slot: the loop with the node `it` passes that one first. -/
theorem Beside.clear {it : Nat} {low high : CancelRun} {lowRun : TimerRun}
    (beside : Beside it low high) (stepped : low.run.step .clear = some lowRun)
    (position : Nat) {atMs : Nat} (phase : high.run.phase = .firing atMs position)
    (other : ∀ node ∈ high.run.ahead.head?, node.it ≠ it) :
    ∃ highRun, high.run.step .clear = some highRun ∧ lowRun = highRun.without it := by
  obtain ⟨lowAtMs, lowPosition, lowPhase, done, rfl⟩ := TimerRun.of_clear stepped
  have place : high.run.phase.position = position := by rw [phase]; rfl
  have lowNone : low.run.ahead = [] := by
    have lowPlace : low.run.phase.position = lowPosition := by rw [lowPhase]; rfl
    rw [TimerRun.ahead, lowPlace, done, List.drop_length]
  have none : high.run.ahead = [] := by
    cases left : high.run.ahead with
    | nil => rfl
    | cons first rest =>
        have apart : first.it ≠ it := other first (by rw [left]; rfl)
        rw [beside.run, TimerRun.without_ahead_cons left apart] at lowNone
        cases lowNone
  have finished : position = high.run.ti.current.length := by
    have inList := beside.filed.inList
    rw [TimerRun.ahead, place, List.drop_eq_nil_iff] at none
    rw [place] at inList
    exact Nat.le_antisymm inList none
  have same : lowAtMs = atMs := by
    have firing : (high.run.without it).phase = .firing lowAtMs lowPosition := by
      rw [← beside.run]
      exact lowPhase
    simp only [TimerRun.without, phase, Phase.moveTo, Phase.firing.injEq] at firing
    exact firing.1.symm
  have taken : high.run.step .clear =
      some { high.run with ti := high.run.ti.clearCurrent, phase := .looping atMs } := by
    rw [TimerRun.step, phase]
    exact if_pos finished
  refine ⟨_, taken, ?_⟩
  rw [TimerRun.without_clear, beside.run, same]

/-- `add_timer` stores and rejects the same timers. -/
theorem Beside.add {it : Nat} {low high : CancelRun} {lowRun : TimerRun} {timer : Timer}
    {reads : ClockReads} (beside : Beside it low high)
    (stepped : low.run.step (.add timer reads) = some lowRun) :
    low.run.returned (.add timer reads) = high.run.returned (.add timer reads) ∧
      ∃ highRun, high.run.step (.add timer reads) = some highRun ∧ lowRun = highRun.without it := by
  rw [beside.run] at stepped ⊢
  obtain ⟨⟨users, clock⟩, rfl⟩ := of_guarded stepped
  refine ⟨?_, _, if_pos ⟨TimerRun.without_userRuns users, clock⟩,
    (TimerRun.without_add beside.filed beside.known timer reads _ _).symm⟩
  simp only [TimerRun.returned]
  rw [show (high.run.without it).nextIt = high.run.nextIt from rfl,
    (TimerRun.without_addTimer timer reads (Nat.ne_of_gt beside.known)).1]

theorem Beside.trigger {it nowMs reading : Nat} {low high : CancelRun} {lowRun : TimerRun}
    (beside : Beside it low high) (stepped : low.run.step (.trigger nowMs reading) = some lowRun) :
    ∃ highRun, high.run.step (.trigger nowMs reading) = some highRun ∧
      lowRun = highRun.without it := by
  rw [beside.run] at stepped
  obtain ⟨⟨idle, clock⟩, rfl⟩ := of_guarded stepped
  have highIdle : high.run.phase = .idle := Phase.moveTo_eq_idle idle
  exact ⟨_, if_pos ⟨highIdle, clock⟩, rfl⟩

theorem Beside.looping {it atMs : Nat} {low high : CancelRun} (beside : Beside it low high)
    (phase : low.run.phase = .looping atMs) : high.run.phase = .looping atMs := by
  rw [beside.run] at phase
  cases place : high.run.phase with
  | idle => simp [TimerRun.without, place, Phase.moveTo] at phase
  | looping time => simpa [TimerRun.without, place, Phase.moveTo] using phase
  | firing time position => simp [TimerRun.without, place, Phase.moveTo] at phase

theorem Beside.firing {it atMs position : Nat} {low high : CancelRun} (beside : Beside it low high)
    (phase : low.run.phase = .firing atMs position) :
    ∃ place, high.run.phase = .firing atMs place := by
  rw [beside.run] at phase
  cases highPhase : high.run.phase with
  | idle => simp [TimerRun.without, highPhase, Phase.moveTo] at phase
  | looping time => simp [TimerRun.without, highPhase, Phase.moveTo] at phase
  | firing time place =>
      simp only [TimerRun.without, highPhase, Phase.moveTo, Phase.firing.injEq] at phase
      exact ⟨place, by rw [phase.1]⟩

theorem Beside.next {it : Nat} {low high : CancelRun} {lowRun : TimerRun}
    (beside : Beside it low high) (stepped : low.run.step .next = some lowRun) :
    ∃ highRun, high.run.step .next = some highRun ∧ lowRun = highRun.without it := by
  obtain ⟨atMs, phase, turned⟩ := TimerRun.of_next stepped
  have highPhase := beside.looping phase
  rw [beside.run] at turned
  rcases turned with ⟨late, rfl⟩ | ⟨early, rfl⟩
  · have highTaken : high.run.step .next =
        some { high.run with ti := high.run.ti.advance, phase := .firing atMs 0 } := by
      rw [TimerRun.step, highPhase]
      exact if_pos late
    exact ⟨_, highTaken, rfl⟩
  · have highTaken : high.run.step .next = some { high.run with phase := .idle } := by
      rw [TimerRun.step, highPhase]
      exact if_neg (Nat.not_lt_of_le early)
    exact ⟨_, highTaken, rfl⟩

theorem Beside.wheel {it : Nat} {low high next : CancelRun} {event : Event}
    (beside : Beside it low high) (taken : low.step (.wheel event) = some next) :
    ∃ hidden after, (∀ other ∈ hidden, other = CancelEvent.wheel .fire) ∧
      runFrom step high (hidden ++ [.wheel event]) = some after ∧ Beside it next after := by
  obtain ⟨lowRun, stepped, rfl⟩ := Option.map_eq_some_iff.mp taken
  cases event with
  | add timer reads =>
      obtain ⟨returned, _, highTaken, run⟩ := beside.add stepped
      obtain ⟨_, last, behind⟩ := beside.matched highTaken run returned
      exact inserts_of_step last behind
  | trigger nowMs reading =>
      obtain ⟨_, highTaken, run⟩ := beside.trigger stepped
      obtain ⟨_, last, behind⟩ := beside.matched highTaken run rfl
      exact inserts_of_step last behind
  | next =>
      obtain ⟨_, highTaken, run⟩ := beside.next stepped
      obtain ⟨_, last, behind⟩ := beside.matched highTaken run rfl
      exact inserts_of_step last behind
  | fire =>
      obtain ⟨_, _, _, phase, -⟩ := TimerRun.of_fire stepped
      obtain ⟨_, highPhase⟩ := beside.firing phase
      obtain ⟨hidden, middle, fires, ran, there, ⟨place, stands⟩, other⟩ :=
        beside.passes highPhase
      obtain ⟨_, highTaken, run⟩ := there.fire stepped place stands other
      obtain ⟨after, last, behind⟩ := there.matched highTaken run rfl
      exact ⟨hidden, after, fires, runFrom_concat ran last, behind⟩
  | clear =>
      obtain ⟨_, _, phase, -⟩ := TimerRun.of_clear stepped
      obtain ⟨_, highPhase⟩ := beside.firing phase
      obtain ⟨hidden, middle, fires, ran, there, ⟨place, stands⟩, other⟩ :=
        beside.passes highPhase
      obtain ⟨_, highTaken, run⟩ := there.clear stepped place stands other
      obtain ⟨after, last, behind⟩ := there.matched highTaken run rfl
      exact ⟨hidden, after, fires, runFrom_concat ran last, behind⟩

/-- The loop stands on what is left of the nodes when it stood on that one before. -/
theorem standsOn_without {run : TimerRun} {it other : Nat} (apart : other ≠ it)
    (stands : run.StandsOn other) : (run.without it).StandsOn other := by
  obtain ⟨last, isLast, same⟩ := Option.map_eq_some_iff.mp stands
  obtain ⟨before, split⟩ := List.getLast?_eq_some_iff.mp isLast
  have kept : [last].filter (·.it ≠ it) = [last] :=
    List.filter_cons_of_pos (decide_eq_true (by rw [same]; exact apart))
  rw [TimerRun.StandsOn, TimerRun.without_reached, split, List.filter_append, kept,
    List.getLast?_concat, Option.map_some, same]

/-- The order in which two nodes are left out does not matter. -/
theorem without_comm (run : TimerRun) (it other : Nat) (fired : List Fired) :
    ({ run.without other with fired := fired } : TimerRun).without it =
      { (run.without it).without other with
        fired := fired.filter (·.node.it ≠ it) } := by
  have twice (nodes : List TimerNode) : (nodes.filter (·.it ≠ other)).filter (·.it ≠ it) =
      (nodes.filter (·.it ≠ it)).filter (·.it ≠ other) := by
    rw [List.filter_filter, List.filter_filter]
    exact List.filter_congr fun node _ => Bool.and_comm _ _
  have moves (phase : Phase) (first second : Nat) :
      (phase.moveTo first).moveTo second = phase.moveTo second := by
    cases phase <;> rfl
  have left : ({ run.without other with fired := fired } : TimerRun).reached =
      run.reached.filter (·.it ≠ other) := run.without_reached other
  have places : ({ run.without other with fired := fired } : TimerRun).reached.filter
      (·.it ≠ it) = (run.without it).reached.filter (·.it ≠ other) := by
    rw [left, run.without_reached it, twice]
  have wheels : (fun slot => ((run.ti.wheel slot).filter (·.it ≠ other)).filter (·.it ≠ it)) =
      fun slot => ((run.ti.wheel slot).filter (·.it ≠ it)).filter (·.it ≠ other) :=
    funext fun slot => twice _
  refine (TimerRun.mk.injEq ..).mpr ⟨?_, rfl, rfl, ?_, rfl⟩
  · exact congrArg (fun wheel => TimerWheel.mk wheel _ _) wheels
  · rw [places]
    exact (moves ..).trans (moves ..).symm

/-- `remove_timer` for another timer. -/
theorem Beside.remove {it : Nat} {low high next : CancelRun} {id : TimerId}
    (beside : Beside it low high) (taken : low.step (.remove id) = some next) :
    ∃ after, high.step (.remove id) = some after ∧ Beside it next after := by
  obtain ⟨⟨users, owned⟩, lowRun, removed, rfl⟩ := of_guarded_map taken
  have highUsers : high.run.phase.userRuns = true := by
    rw [beside.run] at users
    exact TimerRun.without_userRuns users
  have enabled : high.run.phase.userRuns = true ∧ (id.triggerAtMs = 0 ∨ id ∈ high.accepted) :=
    ⟨highUsers, beside.accepted ▸ owned⟩
  obtain ⟨highRun, highRemoved, run, later⟩ : ∃ highRun, high.run.removeTimer id = some highRun ∧
      lowRun = highRun.without it ∧ highRun.nextIt = high.run.nextIt := by
    rw [beside.run] at removed
    rcases (beside.filed.without it).removeTimer_cases removed with
      ⟨past, rfl⟩ | ⟨future, apart, member, rfl⟩
    · exact ⟨high.run, if_pos past, rfl, rfl⟩
    · obtain ⟨node, there, address⟩ := List.mem_map.mp member
      obtain ⟨stored, kept⟩ := List.mem_filter.mp there
      have different : id.it ≠ it := address ▸ of_decide_eq_true kept
      have highMember : id.it ∈ (high.run.ti.wheel (high.run.ti.slotOf id.triggerAtMs)).map
          TimerNode.it := List.mem_map.mpr ⟨node, stored, address⟩
      have highTaken := beside.filed.removeTimer_eq future highMember
        fun stands => apart (standsOn_without different stands)
      exact ⟨_, highTaken, (without_comm high.run it id.it _).symm, rfl⟩
  have stepped : high.step (.remove id) = some { high with
      run := highRun
      cancelled := if high.Pending id then high.cancelled ++ [id] else high.cancelled } := by
    rw [step, if_pos enabled, highRemoved, Option.map_some]
  exact ⟨_, stepped, run, beside.accepted, beside.filed.removeTimer highRemoved,
    later ▸ beside.known⟩

theorem Beside.step {it : Nat} {low high next : CancelRun} {event : CancelEvent}
    (beside : Beside it low high) (taken : low.step event = some next) :
    ∃ hidden after, (∀ other ∈ hidden, other = CancelEvent.wheel .fire) ∧
      runFrom CancelRun.step high (hidden ++ [event]) = some after ∧ Beside it next after := by
  cases event with
  | wheel event => exact beside.wheel taken
  | remove id =>
      obtain ⟨after, stepped, behind⟩ := beside.remove taken
      exact inserts_of_step stepped behind

/-- Two states that differ in what was cancelled take the same steps. -/
theorem step_congr {first second next : CancelRun} {event : CancelEvent}
    (run : first.run = second.run) (accepted : first.accepted = second.accepted)
    (taken : first.step event = some next) :
    ∃ after, second.step event = some after ∧
      next.run = after.run ∧ next.accepted = after.accepted := by
  cases event with
  | wheel event =>
      obtain ⟨after, stepped, rfl⟩ := Option.map_eq_some_iff.mp taken
      rw [run] at stepped
      exact ⟨_, step_wheel stepped, rfl, by simp only [run, accepted]⟩
  | remove id =>
      obtain ⟨enabled, after, removed, rfl⟩ := of_guarded_map taken
      rw [run] at removed
      rw [run, accepted] at enabled
      have stepped : second.step (.remove id) = some { second with
          run := after
          cancelled := if second.Pending id then second.cancelled ++ [id]
            else second.cancelled } := by
        rw [CancelRun.step, if_pos enabled, removed, Option.map_some]
      exact ⟨_, stepped, rfl, accepted⟩

/-- Cancelling a pending timer changes nothing for the others. -/
theorem Inv.undisturbed {s next last : CancelRun} {id : TimerId} {after : List CancelEvent}
    (inv : s.Inv) (pending : s.Pending id) (taken : s.step (.remove id) = some next)
    (ran : runFrom CancelRun.step next after = some last) : s.Undisturbed id after last := by
  obtain ⟨-, run, removed, rfl⟩ := of_guarded_map taken
  rcases inv.filed.removeTimer_cases removed with ⟨-, rfl⟩ | ⟨-, -, -, rfl⟩
  · have simulates (low high : CancelRun) (event : CancelEvent) (next : CancelRun)
        (related : low.run = high.run ∧ low.accepted = high.accepted)
        (taken : low.step event = some next) :
        ∃ hidden after, (∀ other ∈ hidden, isCall other = false) ∧
          runFrom CancelRun.step high (hidden ++ [event]) = some after ∧
          next.run = after.run ∧ next.accepted = after.accepted := by
      obtain ⟨after, stepped, behind⟩ := step_congr related.1 related.2 taken
      exact inserts_of_step stepped behind
    have alike (cancelled : List TimerId) :
        CancelRun.run { s with cancelled := cancelled } = s.run ∧
          CancelRun.accepted { s with cancelled := cancelled } = s.accepted := ⟨rfl, rfl⟩
    obtain ⟨more, other, sublist, same, ranMore, run, -⟩ :=
      run_of_inserts (fun low (high : CancelRun) =>
        low.run = high.run ∧ low.accepted = high.accepted) simulates (alike _) ran
    exact ⟨more, other, sublist, same, ranMore, by rw [run]⟩
  · rw [TimerRun.without_eq_of_pending pending.2.2] at ran
    have simulates (low high : CancelRun) (event : CancelEvent) (next : CancelRun)
        (beside : Beside id.it low high) (taken : low.step event = some next) :
        ∃ hidden after, (∀ other ∈ hidden, isCall other = false) ∧
          runFrom CancelRun.step high (hidden ++ [event]) = some after ∧
          Beside id.it next after := by
      obtain ⟨hidden, after, fires, ran, behind⟩ := beside.step taken
      exact ⟨hidden, after, fun other member => by simp [isCall, fires other member], ran, behind⟩
    have beside (cancelled : List TimerId) : Beside id.it
        { s with run := s.run.without id.it, cancelled := cancelled } s :=
      ⟨rfl, rfl, inv.filed, inv.known id pending.1⟩
    obtain ⟨more, other, sublist, same, ranMore, behind⟩ :=
      run_of_inserts (Beside id.it) simulates (beside _) ran
    refine ⟨more, other, sublist, same, ranMore, ?_⟩
    rw [behind.run]
    exact (List.filter_filter.trans (List.filter_congr fun _ _ => Bool.and_self _)).symm

/-- Timers that are cancelled before the wheel comes to their time are cancelled, and no others. -/
theorem cancelsOnly_of_removesAhead (now : Nat) {events : List CancelEvent}
    (ahead : StepsMeet step RemovesAhead (start now) events) : CancelsOnly now events where
  cancels := allStates_of_stepsMeet AllGone
    (fun _ _ _ good met taken => good.step met taken)
    (fun _ good id member => (good.gone id member).silent) events (start_allGone now) ahead
  others := by
    intro before id after s last _ run pending ran
    have inv := runFrom_invariant Inv (fun _ _ _ inv taken => inv.step taken) (start_inv now) run
    rw [runFrom_cons] at ran
    obtain ⟨next, taken, rest⟩ := Option.bind_eq_some_iff.mp ran
    exact inv.undisturbed pending taken rest

/-- Of two timers in one slot the second one is cancelled in front of the slot. -/
def earlyRemoval : List CancelEvent :=
  [.wheel (.add ⟨10, 7⟩ ⟨1000, 1000, 1000⟩), .wheel (.add ⟨10, 8⟩ ⟨1000, 1000, 1000⟩),
    .remove ⟨1010, 1⟩, .wheel (.trigger 1010 1010), .wheel .next, .wheel .fire, .wheel .clear]

theorem cancelsOnly_of_removesAhead_earlyRemoval : CancelsOnly 1000 earlyRemoval :=
  cancelsOnly_of_removesAhead 1000 (by decide +kernel)

/-- The second one is cancelled by the callback of the first. -/
def siblingRemoval : List CancelEvent :=
  [.wheel (.add ⟨10, 7⟩ ⟨1000, 1000, 1000⟩), .wheel (.add ⟨10, 8⟩ ⟨1000, 1000, 1000⟩),
    .wheel (.trigger 1010 1010), .wheel .next, .wheel .fire, .remove ⟨1010, 1⟩, .wheel .fire]

theorem siblingRemoval_fires : ¬ ∀ now events, CancelsOnly now events := by
  intro all
  have fires : (runFrom step (start 1000) siblingRemoval).map (fun last => decide last.Cancels) =
      some false := by
    decide +kernel
  obtain ⟨last, run, late⟩ := Option.map_eq_some_iff.mp fires
  exact of_decide_eq_false late ((all 1000 siblingRemoval).cancels.last run)

end CancelRun

end SimpleWebServer.Timers
