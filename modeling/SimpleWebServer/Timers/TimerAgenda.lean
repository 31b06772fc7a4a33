import Mathlib.Data.Nat.Basic
import SimpleWebServer.Lib.Agenda
import SimpleWebServer.Timers.TimerCancel

/-!
# The wheel is an agenda

As long as timers are stored within the span and cancelled ahead of the wheel, the wheel does
what a plain list with a time does: what has fired are the accepted timers whose time has come,
in the order of their times and, for one time, in the order of the calls of `add_timer`; the
others wait in the slots of their times.
-/

namespace SimpleWebServer.Timers

open SimpleWebServer.Lib SimpleWebServer.Lib.Runs

/-- The identifier of the timer of a node. -/
def TimerNode.id (node : TimerNode) : TimerId := ⟨node.atMs, node.it⟩

/-- The loop over a slot runs. -/
def Phase.isFiring : Phase → Bool
  | .firing _ _ => true
  | _ => false

namespace TimerRun

/-- The nodes that the loop over the current slot is still to reach. -/
def rest (run : TimerRun) : List TimerNode := if run.phase.isFiring then run.ahead else []

/-- The nodes of a slot that are not being fired. -/
def waiting (run : TimerRun) (slot : Nat) : List TimerNode :=
  if run.phase.isFiring ∧ slot = run.ti.slotPtr then [] else run.ti.wheel slot

/-- The identifiers of the timers that have fired, in that order. -/
def firedIds (run : TimerRun) : List TimerId := run.fired.map fun fired => fired.node.id

/-- The wheel shows the agenda: its nodes are the items, in the order of the list. -/
structure Shows (run : TimerRun) (agenda : Agenda TimerId Nat) : Prop where
  now : agenda.now = run.ti.triggerBeforeMs
  done : agenda.done TimerId.triggerAtMs = run.firedIds ++ run.rest.map TimerNode.id
  waits : ∀ slot, (run.waiting slot).map TimerNode.id =
    (agenda.pending TimerId.triggerAtMs).filter fun id => run.ti.slotOf id.triggerAtMs = slot

theorem start_shows (now : Nat) : (start now).Shows ⟨(start now).ti.triggerBeforeMs, []⟩ where
  now := rfl
  done := by simp [Agenda.done, byTime, firedIds, start, rest, Phase.isFiring]
  waits := by
    intro slot
    simp [waiting, start, Phase.isFiring, TimerWheel.new, Agenda.pending]

section steps

variable {run next : TimerRun} {agenda : Agenda TimerId Nat}

/-- A pending item has a node in the slot of its time. -/
theorem Shows.node (shows : run.Shows agenda) {id : TimerId}
    (pending : id ∈ agenda.pending TimerId.triggerAtMs) :
    ∃ node ∈ run.waiting (run.ti.slotOf id.triggerAtMs), node.id = id := by
  have inSlot : id ∈ (run.waiting (run.ti.slotOf id.triggerAtMs)).map TimerNode.id := by
    rw [shows.waits]
    exact List.mem_filter.mpr ⟨pending, decide_eq_true rfl⟩
  exact List.mem_map.mp inSlot

theorem mem_wheel_of_waiting {slot : Nat} {node : TimerNode} (member : node ∈ run.waiting slot) :
    ¬(run.phase.isFiring ∧ slot = run.ti.slotPtr) ∧ node ∈ run.ti.wheel slot := by
  unfold waiting at member
  split at member
  · cases member
  · next other => exact ⟨other, member⟩

theorem Shows.congr (shows : run.Shows agenda) (ti : next.ti = run.ti)
    (phase : next.phase = run.phase) (fired : next.fired = run.fired) : next.Shows agenda where
  now := by rw [ti, shows.now]
  done := by
    rw [shows.done, firedIds, firedIds, fired, rest, rest, TimerRun.ahead, TimerRun.ahead, ti,
      phase]
  waits := by
    intro slot
    rw [ti, ← shows.waits slot, waiting, waiting, ti, phase]

/-- A step that leaves the wheel alone and neither begins nor ends the loop over a slot. -/
theorem Shows.keep (shows : run.Shows agenda) (ti : next.ti = run.ti)
    (fired : next.fired = run.fired) (before : run.phase.isFiring = false)
    (behind : next.phase.isFiring = false) : next.Shows agenda where
  now := by rw [ti, shows.now]
  done := by
    have same := shows.done
    simp only [rest, before] at same
    simp only [firedIds, rest, behind, fired]
    exact same
  waits := by
    intro slot
    have same := shows.waits slot
    simp only [waiting, before] at same
    simp only [waiting, behind, ti]
    exact same

/-- A node that is due within the span lies in the current slot only when its time has come. -/
theorem due_of_slotPtr {ti : TimerWheel} (sound : ti.Sound) {atMs : Nat}
    (aligned : atMs % everyMs = 0) (notPast : ti.triggerBeforeMs ≤ atMs)
    (near : atMs < ti.triggerBeforeMs + spanSec * 1000) (here : ti.slotOf atMs = ti.slotPtr) :
    atMs = ti.triggerBeforeMs := by
  have placed : ti.Placed (ti.slotOf atMs) ⟨0, ⟨0, 0⟩, atMs⟩ :=
    ⟨aligned, notPast, Nat.le_of_lt near, rfl⟩
  exact (placed.current_iff sound near).mp here

theorem wheel_pushBack_append (ti : TimerWheel) (slot pushed : Nat) (node : TimerNode) :
    (ti.pushBack pushed node).wheel slot =
      ti.wheel slot ++ if pushed = slot then [node] else [] := by
  by_cases here : pushed = slot
  · subst here
    simp [TimerWheel.pushBack]
  · have other : slot ≠ pushed := fun same => here same.symm
    simp [TimerWheel.pushBack, here, other]

/-- `add_timer` files the timer. -/
theorem Shows.add (shows : run.Shows agenda) (sound : run.Sound) {node : TimerNode}
    (ahead : run.ti.triggerBeforeMs < node.atMs) (aligned : node.atMs % everyMs = 0)
    (inside : run.phase ≠ .idle → node.atMs < run.ti.triggerBeforeMs + spanSec * 1000)
    (ti : next.ti = run.ti.pushBack (run.ti.slotOf node.atMs) node)
    (phase : next.phase = run.phase) (fired : next.fired = run.fired) :
    next.Shows (agenda.file node.id) := by
  have later : agenda.now < node.id.triggerAtMs := by
    rw [shows.now]
    exact ahead
  have slotPtr : next.ti.slotPtr = run.ti.slotPtr := by
    rw [ti]
    rfl
  have slotOf : next.ti.slotOf = run.ti.slotOf := by
    rw [ti]
    rfl
  -- while a slot fires, no timer is stored in it
  have elsewhere : run.phase.isFiring = true → run.ti.slotOf node.atMs ≠ run.ti.slotPtr := by
    intro firing here
    have busy : run.phase ≠ .idle := by
      intro idle
      rw [idle] at firing
      cases firing
    exact Nat.ne_of_gt ahead
      (due_of_slotPtr sound.wheel aligned (Nat.le_of_lt ahead) (inside busy) here)
  have rest : next.rest = run.rest := by
    unfold TimerRun.rest
    rw [phase]
    split
    · next firing =>
        rw [TimerRun.ahead, TimerWheel.current, slotPtr, phase, ti, wheel_pushBack_append,
          if_neg (elsewhere firing), List.append_nil]
        rfl
    · rfl
  refine ⟨?_, ?_, ?_⟩
  · rw [ti]
    exact shows.now
  · rw [Agenda.done_file later, shows.done, rest, firedIds, firedIds, fired]
  · intro slot
    have old := shows.waits slot
    have filed : [node.id].filter (fun id => run.ti.slotOf id.triggerAtMs = slot) =
        if run.ti.slotOf node.atMs = slot then [node.id] else [] := by
      by_cases here : run.ti.slotOf node.atMs = slot <;> simp [TimerNode.id, here]
    rw [Agenda.pending_file later, List.filter_append, slotOf, ← old, filed]
    unfold TimerRun.waiting
    rw [phase, slotPtr]
    split
    · next firing =>
        rw [firing.2, if_neg (elsewhere firing.1)]
        rfl
    · rw [ti, wheel_pushBack_append, List.map_append]
      congr 1
      split <;> rfl

/-- In front of a turn, an item lies in the next slot exactly when it is done next. -/
theorem Shows.next_iff (shows : run.Shows agenda) (sound : run.Sound) {atMs : Nat}
    (phase : run.phase = .looping atMs) {id : TimerId}
    (pending : id ∈ agenda.pending TimerId.triggerAtMs) :
    (run.ti.slotOf id.triggerAtMs = run.ti.advance.slotPtr ↔
        id.triggerAtMs = run.ti.advance.triggerBeforeMs) ∧
      run.ti.advance.slotOf id.triggerAtMs = run.ti.slotOf id.triggerAtMs ∧
      run.ti.advance.triggerBeforeMs ≤ id.triggerAtMs := by
  obtain ⟨node, member, rfl⟩ := shows.node pending
  have stored := (mem_wheel_of_waiting member).2
  have future := sound.ahead
  rw [phase] at future
  have placed := sound.wheel.placed _ node stored
  obtain ⟨soundBehind, near⟩ := sound.wheel.advance future
  have placedBehind := soundBehind.placed _ node stored
  refine ⟨?_, ?_, placedBehind.notPast⟩
  · exact placedBehind.current_iff soundBehind (near _ node stored)
  · exact TimerWheel.slotOf_advance sound.wheel.aligned placed.aligned (future _ node stored)

/-- The wheel turns to the next slot, which holds what is done next. -/
theorem Shows.turn (shows : run.Shows agenda) (sound : run.Sound) {atMs : Nat}
    (phase : run.phase = .looping atMs) (ti : next.ti = run.ti.advance)
    (behind : next.phase = .firing atMs 0) (fired : next.fired = run.fired) :
    next.Shows (agenda.turn (run.ti.triggerBeforeMs + everyMs)) := by
  have later : agenda.now ≤ run.ti.triggerBeforeMs + everyMs := by
    rw [shows.now]
    exact Nat.le_add_right _ _
  have waiting (slot : Nat) : (run.ti.wheel slot).map TimerNode.id =
      (agenda.pending TimerId.triggerAtMs).filter
        fun id => run.ti.slotOf id.triggerAtMs = slot := by
    have waits := shows.waits slot
    simpa only [TimerRun.waiting, phase, Phase.isFiring, Bool.false_eq_true, false_and,
      if_false] using waits
  refine ⟨?_, ?_, ?_⟩
  · rw [ti]
    rfl
  · have dueNext : (agenda.pending TimerId.triggerAtMs).filter
        (fun id => id.triggerAtMs ≤ run.ti.triggerBeforeMs + everyMs) =
          (run.ti.wheel run.ti.advance.slotPtr).map TimerNode.id := by
      rw [waiting]
      apply List.filter_congr
      intro id pending
      obtain ⟨here, -, notPast⟩ := shows.next_iff sound phase pending
      rw [decide_eq_decide, here]
      change _ ≤ run.ti.advance.triggerBeforeMs ↔ _
      omega
    have atOnce : ∀ id ∈ (run.ti.wheel run.ti.advance.slotPtr).map TimerNode.id,
        id.triggerAtMs = run.ti.advance.triggerBeforeMs := by
      intro id member
      rw [waiting] at member
      obtain ⟨pending, slot⟩ := List.mem_filter.mp member
      exact (shows.next_iff sound phase pending).1.mp (of_decide_eq_true slot)
    rw [Agenda.done_turn later, dueNext, byTime_of_same atOnce, shows.done]
    simp [TimerRun.rest, phase, behind, Phase.isFiring, firedIds, fired, TimerRun.ahead,
      Phase.position, ti, TimerWheel.current, TimerWheel.advance]
  · intro slot
    rw [Agenda.pending_turn later, List.filter_filter]
    simp only [TimerRun.waiting, behind, Phase.isFiring, ti, true_and]
    split
    · next here =>
        refine (List.filter_eq_nil_iff.mpr ?_).symm
        intro id pending passes
        obtain ⟨iff, same, -⟩ := shows.next_iff sound phase pending
        simp only [Bool.and_eq_true, decide_eq_true_eq, same, here, iff] at passes
        exact absurd passes.1 (Nat.ne_of_gt passes.2)
    · next other =>
        change (run.ti.wheel slot).map _ = _
        rw [waiting]
        apply List.filter_congr
        intro id pending
        obtain ⟨iff, same, notPast⟩ := shows.next_iff sound phase pending
        rw [same]
        by_cases here : run.ti.slotOf id.triggerAtMs = slot
        · have ahead : run.ti.triggerBeforeMs + everyMs < id.triggerAtMs := by
            refine Nat.lt_of_le_of_ne notPast ?_
            intro now
            exact other (here.symm.trans (iff.mpr now.symm))
          simp [here, ahead]
        · simp [here]

/-- The callback of the next node. -/
theorem Shows.fire (shows : run.Shows agenda) {atMs position : Nat} {node : TimerNode}
    (phase : run.phase = .firing atMs position) (head : run.ti.current[position]? = some node)
    (ti : next.ti = run.ti) (behind : next.phase = .firing atMs (position + 1))
    {time : Nat} (fired : next.fired = run.fired ++ [⟨node, time⟩]) : next.Shows agenda := by
  have rest : run.rest = node :: next.rest := by
    simp only [TimerRun.rest, phase, behind, Phase.isFiring, if_true, TimerRun.ahead, ti,
      Phase.position]
    obtain ⟨inside, rfl⟩ := List.getElem?_eq_some_iff.mp head
    exact List.drop_eq_getElem_cons inside
  refine ⟨by rw [ti, shows.now], ?_, ?_⟩
  · rw [shows.done, rest, firedIds, firedIds, fired]
    simp
  · intro slot
    have old := shows.waits slot
    simp only [TimerRun.waiting, phase, Phase.isFiring] at old
    simp only [TimerRun.waiting, behind, Phase.isFiring, ti]
    exact old

/-- The end of the loop over the slot. -/
theorem Shows.clear (shows : run.Shows agenda) {atMs : Nat}
    (phase : run.phase = .firing atMs run.ti.current.length)
    (ti : next.ti = run.ti.clearCurrent) (behind : next.phase = .looping atMs)
    (fired : next.fired = run.fired) : next.Shows agenda := by
  refine ⟨?_, ?_, ?_⟩
  · rw [ti]
    exact shows.now
  · rw [shows.done, firedIds, firedIds, fired]
    simp [TimerRun.rest, phase, behind, Phase.isFiring, TimerRun.ahead, Phase.position]
  · intro slot
    have old := shows.waits slot
    simp only [TimerRun.waiting, phase, Phase.isFiring, true_and] at old
    simp only [TimerRun.waiting, behind, Phase.isFiring, Bool.false_eq_true, false_and, if_false]
    rw [ti]
    refine Eq.trans ?_ old
    by_cases here : slot = run.ti.slotPtr
    · subst here
      simp [TimerWheel.clearCurrent]
    · simp [TimerWheel.clearCurrent, here]

/-- `add_timer` returns the identifier of the timer that it stores, and of no other. -/
theorem returned_cases (run : TimerRun) (timer : Timer) (reads : ClockReads) :
    ¬ run.Stores timer reads ∧ run.returned (.add timer reads) = none ∧
        (run.ti.addTimer timer run.nextIt reads).2 = run.ti ∨
      run.Stores timer reads ∧
        run.returned (.add timer reads) = some ⟨TimerWheel.atMs timer reads, run.nextIt⟩ ∧
        (run.ti.addTimer timer run.nextIt reads).2 =
          run.ti.pushBack (run.ti.slotOf (TimerWheel.atMs timer reads))
            ⟨run.nextIt, timer, TimerWheel.atMs timer reads⟩ := by
  unfold returned TimerWheel.addTimer Stores
  simp only
  split_ifs with past limit
  · exact .inl ⟨fun stores => Nat.not_le_of_lt stores.1 past, rfl, rfl⟩
  · exact .inl ⟨fun stores => Nat.not_le_of_lt stores.2 limit, rfl, rfl⟩
  · exact .inr ⟨⟨by omega, by omega⟩, rfl, rfl⟩

/-! ### Cancelling -/

theorem isFiring_moveTo (phase : Phase) (position : Nat) :
    (phase.moveTo position).isFiring = phase.isFiring := by
  cases phase <;> rfl

theorem Sound.leaveOut (sound : run.Sound) (it : Nat) :
    Sound { run.without it with fired := run.fired } where
  wheel := {
    aligned := sound.wheel.aligned
    inWheel := sound.wheel.inWheel
    placed := by
      intro slot node member
      obtain ⟨aligned, notPast, inSpan, inSlot⟩ :=
        sound.wheel.placed slot node (List.mem_of_mem_filter member)
      exact ⟨aligned, notPast, inSpan, inSlot⟩ }
  ahead := by
    intro slot node member
    have ahead := sound.ahead slot node (List.mem_of_mem_filter member)
    change Phase.Ahead (run.phase.moveTo _) _ node
    cases phase : run.phase <;> rw [phase] at ahead <;> exact ahead
  onTime := ⟨sound.onTime.exact, sound.onTime.ordered⟩
  past := sound.past

/-- `remove_timer` withdraws the timer. -/
theorem Shows.leaveOut (shows : run.Shows agenda) {id : TimerId}
    (ahead : run.ti.triggerBeforeMs < id.triggerAtMs)
    (only : ∀ other ∈ agenda.items, other.it = id.it → other = id) :
    Shows { run.without id.it with fired := run.fired } (agenda.withdraw id) := by
  have later : agenda.now < id.triggerAtMs := by
    rw [shows.now]
    exact ahead
  refine ⟨shows.now, ?_, ?_⟩
  · have stays : run.rest.filter (·.it ≠ id.it) = run.rest := by
      refine List.filter_eq_self.mpr fun node member => decide_eq_true fun equal => ?_
      -- what the loop is still to reach is done in the agenda
      have inDone : node.id ∈ agenda.done TimerId.triggerAtMs := by
        rw [shows.done]
        exact List.mem_append_right _ (List.mem_map_of_mem member)
      obtain ⟨listed, due⟩ := Agenda.mem_done.mp inDone
      rw [only node.id listed equal] at due
      exact absurd later (Nat.not_lt_of_le due)
    have same : TimerRun.rest { run.without id.it with fired := run.fired } = run.rest := by
      rw [← stays]
      change (if (run.phase.moveTo _).isFiring = true then (run.without id.it).ahead else []) = _
      rw [isFiring_moveTo, without_ahead]
      unfold TimerRun.rest
      split <;> rfl
    rw [Agenda.done_withdraw later, shows.done, same]
    rfl
  · intro slot
    have left : TimerRun.waiting { run.without id.it with fired := run.fired } slot =
        (run.waiting slot).filter (·.it ≠ id.it) := by
      unfold TimerRun.waiting
      change (if (run.phase.moveTo _).isFiring = true ∧ slot = run.ti.slotPtr then [] else
        (run.ti.wheel slot).filter _) = _
      rw [isFiring_moveTo]
      split <;> rfl
    rw [left, Agenda.pending_withdraw]
    change _ = ((agenda.pending TimerId.triggerAtMs).filter _).filter
      fun other => run.ti.slotOf other.triggerAtMs = slot
    rw [List.filter_comm, ← shows.waits slot, List.filter_map]
    congr 1
    apply List.filter_congr
    intro node member
    have pending : node.id ∈ agenda.pending TimerId.triggerAtMs := by
      have mapped := List.mem_map_of_mem (f := TimerNode.id) member
      rw [shows.waits] at mapped
      exact (List.mem_filter.mp mapped).1
    have listed := (Agenda.mem_pending.mp pending).1
    simp only [Function.comp_apply, decide_eq_decide]
    constructor
    · intro apart same
      exact apart (by rw [← same]; rfl)
    · intro apart same
      exact apart (only node.id listed same)

end steps

end TimerRun

namespace CancelRun

/-- The timers that were accepted and not cancelled, at the time that the wheel has reached. -/
def agenda (s : CancelRun) : Agenda TimerId Nat where
  now := s.run.ti.triggerBeforeMs
  items := s.accepted.filter (· ∉ s.cancelled)

/-- The conditions on a step: what is stored is within the span, what is cancelled is ahead. -/
def OnAgenda (s : CancelRun) : CancelEvent → Prop
  | .wheel event => s.run.WithinSpan event
  | .remove id => s.RemovesAhead (.remove id)

instance (s : CancelRun) : DecidablePred s.OnAgenda
  | .wheel event => inferInstanceAs (Decidable (s.run.WithinSpan event))
  | .remove id => inferInstanceAs (Decidable (s.RemovesAhead (.remove id)))

/-- The invariant: the wheel shows the agenda of the run. -/
structure Follows (s : CancelRun) : Prop where
  sound : s.run.Sound
  good : s.AllGone
  shows : s.run.Shows s.agenda

theorem start_follows (now : Nat) : (start now).Follows where
  sound := TimerRun.start_sound now
  good := start_allGone now
  shows := TimerRun.start_shows now

theorem OnAgenda.removesAhead {s : CancelRun} {event : CancelEvent} (met : s.OnAgenda event) :
    s.RemovesAhead event := by
  cases event with
  | wheel event => trivial
  | remove id => exact met

/-- A step that returns no identifier leaves the agenda's items. -/
theorem agenda_of_none {s : CancelRun} {run : TimerRun} {event : Event}
    (none : s.run.returned event = none) :
    CancelRun.agenda { s with
        run := run
        accepted := s.accepted ++ (s.run.returned event).toList } =
      ⟨run.ti.triggerBeforeMs, s.agenda.items⟩ := by
  simp [agenda, none]

theorem Follows.add {s : CancelRun} {run : TimerRun} {timer : Timer} {reads : ClockReads}
    (follows : s.Follows) (met : s.run.WithinSpan (.add timer reads))
    (stepped : s.run.step (.add timer reads) = some run) :
    run.Shows (CancelRun.agenda { s with
      run := run
      accepted := s.accepted ++ (s.run.returned (.add timer reads)).toList }) := by
  obtain ⟨-, rfl⟩ := of_guarded stepped
  rcases s.run.returned_cases timer reads with ⟨-, none, same⟩ | ⟨stores, returned, stored⟩
  · rw [agenda_of_none none, same]
    exact follows.shows.congr rfl rfl rfl
  · have fresh : (⟨TimerWheel.atMs timer reads, s.run.nextIt⟩ : TimerId) ∉ s.cancelled :=
      fun cancelled => Nat.lt_irrefl _ (follows.good.gone _ cancelled).known
    have filed : CancelRun.agenda { s with
        run := { s.run with
          ti := (s.run.ti.addTimer timer s.run.nextIt reads).2
          clock := reads.forDelay
          nextIt := s.run.nextIt + 1 }
        accepted := s.accepted ++ (s.run.returned (.add timer reads)).toList } =
          s.agenda.file (TimerNode.id ⟨s.run.nextIt, timer, TimerWheel.atMs timer reads⟩) := by
      simp only [agenda, Agenda.file, returned, stored, Option.toList_some, List.filter_append]
      rw [List.filter_singleton, decide_eq_true fresh]
      rfl
    rw [filed]
    obtain ⟨-, inside⟩ := met stores
    exact follows.shows.add follows.sound stores.1 (getSlotTimestamp_aligned _ _) inside stored
      rfl rfl

theorem Follows.wheel {s next : CancelRun} {event : Event} (follows : s.Follows)
    (met : s.OnAgenda (.wheel event)) (taken : s.step (.wheel event) = some next) :
    next.Follows := by
  have good := follows.good.step met.removesAhead taken
  obtain ⟨run, stepped, rfl⟩ := Option.map_eq_some_iff.mp taken
  have sound := follows.sound.step met stepped
  have shows := follows.shows
  refine ⟨sound, good, ?_⟩
  change run.Shows _
  cases event with
  | add timer reads => exact follows.add met stepped
  | trigger nowMs reading =>
      rw [agenda_of_none rfl]
      obtain ⟨⟨idle, -⟩, rfl⟩ := of_guarded stepped
      exact shows.keep rfl rfl (by rw [idle]; rfl) rfl
  | next =>
      rw [agenda_of_none rfl]
      obtain ⟨atMs, phase, ⟨-, rfl⟩ | ⟨-, rfl⟩⟩ := TimerRun.of_next stepped
      · exact shows.turn follows.sound phase rfl rfl rfl
      · exact shows.keep rfl rfl (by rw [phase]; rfl) rfl
  | fire =>
      rw [agenda_of_none rfl]
      obtain ⟨atMs, position, node, phase, head, rfl⟩ := TimerRun.of_fire stepped
      exact shows.fire phase head rfl rfl rfl
  | clear =>
      rw [agenda_of_none rfl]
      obtain ⟨atMs, position, phase, rfl, rfl⟩ := TimerRun.of_clear stepped
      exact shows.clear phase rfl rfl rfl

theorem Follows.remove {s next : CancelRun} {id : TimerId} (follows : s.Follows)
    (met : s.OnAgenda (.remove id)) (taken : s.step (.remove id) = some next) :
    next.Follows := by
  have good := follows.good.step met.removesAhead taken
  obtain ⟨⟨-, owned⟩, run, removed, rfl⟩ := of_guarded_map taken
  rcases follows.good.inv.filed.removeTimer_cases removed with ⟨past, rfl⟩ | ⟨ahead, -, listed, rfl⟩
  · have settled : ¬ s.Pending id := fun pending => absurd (met pending) (Nat.not_lt_of_le past)
    refine ⟨follows.sound, good, ?_⟩
    simpa only [if_neg settled] using follows.shows
  · have accepted : id ∈ s.accepted := by
      rcases owned with empty | accepted
      · rw [empty] at ahead
        exact absurd ahead (Nat.not_lt_zero _)
      · exact accepted
    have uncancelled : id ∉ s.cancelled := by
      intro cancelled
      obtain ⟨node, member, same⟩ := List.mem_map.mp listed
      exact (follows.good.gone id cancelled).absent _ node member same
    have only : ∀ other ∈ s.agenda.items, other.it = id.it → other = id :=
      fun other member same =>
        follows.good.inv.ids other (List.mem_of_mem_filter member) id accepted same
    have silent : ¬ s.run.HasFired id.it := by
      intro logged
      obtain ⟨fired, member, same⟩ := List.mem_map.mp logged
      have inDone : fired.node.id ∈ s.agenda.done TimerId.triggerAtMs := by
        rw [follows.shows.done]
        exact List.mem_append_left _ (List.mem_map_of_mem member)
      obtain ⟨item, due⟩ := Agenda.mem_done.mp inDone
      rw [only fired.node.id item same] at due
      exact absurd ahead (Nat.not_lt_of_le due)
    have pending : s.Pending id := ⟨accepted, uncancelled, silent⟩
    refine ⟨follows.sound.leaveOut id.it, good, ?_⟩
    have withdrawn : CancelRun.agenda { s with
        run := { s.run.without id.it with fired := s.run.fired }
        cancelled := if s.Pending id then s.cancelled ++ [id] else s.cancelled } =
          s.agenda.withdraw id := by
      rw [if_pos pending]
      simp only [agenda, Agenda.withdraw, List.filter_filter]
      congr 1
      apply List.filter_congr
      intro other _
      simp [Bool.and_comm]
    exact withdrawn ▸ follows.shows.leaveOut ahead only

theorem Follows.step {s next : CancelRun} {event : CancelEvent} (follows : s.Follows)
    (met : s.OnAgenda event) (taken : s.step event = some next) : next.Follows := by
  cases event with
  | wheel event => exact follows.wheel met taken
  | remove id => exact follows.remove met taken

/-- `add_timer` never returns an identifier a second time. -/
theorem Inv.nodup {s next : CancelRun} {event : CancelEvent} (inv : s.Inv)
    (nodup : s.accepted.Nodup) (taken : s.step event = some next) : next.accepted.Nodup := by
  cases event with
  | wheel event =>
      obtain ⟨run, stepped, rfl⟩ := Option.map_eq_some_iff.mp taken
      cases returned : s.run.returned event with
      | none => simpa [returned] using nodup
      | some id =>
          have fresh := (of_returned stepped returned).1
          rw [Option.toList_some, List.nodup_append]
          refine ⟨nodup, List.nodup_singleton id, ?_⟩
          intro old member new newIn same
          rw [List.mem_singleton] at newIn
          have known := inv.known old member
          rw [same, newIn, fresh] at known
          exact Nat.lt_irrefl _ known
  | remove id =>
      obtain ⟨-, run, -, rfl⟩ := of_guarded_map taken
      exact nodup

theorem firedIds_removeTimer {run next : TimerRun} {id : TimerId}
    (removed : run.removeTimer id = some next) : next.firedIds = run.firedIds := by
  unfold TimerRun.removeTimer at removed
  split at removed
  · cases removed
    rfl
  · obtain ⟨-, rfl⟩ := of_guarded removed
    rfl

/-- A callback is that of the next node; nothing else fires. -/
theorem firedIds_of_step {s next : CancelRun} {event : CancelEvent}
    (taken : s.step event = some next) :
    next.run.firedIds = s.run.firedIds ++
      if event = .wheel .fire then (s.run.rest.head?.map TimerNode.id).toList else [] := by
  cases event with
  | remove id =>
      obtain ⟨-, run, removed, rfl⟩ := of_guarded_map taken
      have other : (CancelEvent.remove id) ≠ .wheel .fire := CancelEvent.noConfusion
      rw [if_neg other, List.append_nil]
      exact firedIds_removeTimer removed
  | wheel event =>
      obtain ⟨run, stepped, rfl⟩ := Option.map_eq_some_iff.mp taken
      cases event with
      | fire =>
          obtain ⟨atMs, position, node, phase, head, rfl⟩ := TimerRun.of_fire stepped
          have first : s.run.rest.head? = some node := by
            simp only [TimerRun.rest, phase, Phase.isFiring, if_true, TimerRun.ahead,
              Phase.position, List.head?_drop, head]
          rw [first]
          simp [TimerRun.firedIds]
      | add timer reads =>
          obtain ⟨-, rfl⟩ := of_guarded stepped
          simp [TimerRun.firedIds]
      | trigger nowMs reading =>
          obtain ⟨-, rfl⟩ := of_guarded stepped
          simp [TimerRun.firedIds]
      | next =>
          obtain ⟨_, _, ⟨-, rfl⟩ | ⟨-, rfl⟩⟩ := TimerRun.of_next stepped <;>
            simp [TimerRun.firedIds]
      | clear =>
          obtain ⟨_, _, _, -, rfl⟩ := TimerRun.of_clear stepped
          simp [TimerRun.firedIds]

/-- Identifiers stay accepted, and only `remove_timer` cancels. -/
theorem accepted_of_step {s next : CancelRun} {event : CancelEvent}
    (taken : s.step event = some next) :
    (∀ id ∈ s.accepted, id ∈ next.accepted) ∧
      ∀ id ∈ next.cancelled, id ∈ s.cancelled ∨ event = .remove id := by
  cases event with
  | wheel event =>
      obtain ⟨run, -, rfl⟩ := Option.map_eq_some_iff.mp taken
      exact ⟨fun id member => List.mem_append_left _ member, fun id member => .inl member⟩
  | remove id =>
      obtain ⟨-, run, -, rfl⟩ := of_guarded_map taken
      refine ⟨fun id member => member, fun other member => ?_⟩
      dsimp only at member
      split at member
      · rcases List.mem_append.mp member with before | now
        · exact .inl before
        · exact .inr (by rw [List.mem_singleton.mp now])
      · exact .inl member

/--
In every run that stores timers within the span and cancels them ahead of the wheel, the timers
that have fired when no `trigger_timer` runs are the accepted and not cancelled ones whose time
the wheel has reached, sorted by time and, for one time, in the order of `add_timer`; the others
lie in the slots of their times, in that order.
-/
theorem fired_byTime (now : Nat) {events : List CancelEvent} {last : CancelRun}
    (met : StepsMeet step OnAgenda (start now) events)
    (run : runFrom step (start now) events = some last) (idle : last.run.phase = .idle) :
    last.run.firedIds = byTime TimerId.triggerAtMs
        ((last.accepted.filter (· ∉ last.cancelled)).filter
          (·.triggerAtMs ≤ last.run.ti.triggerBeforeMs)) ∧
      ∀ slot, (last.run.ti.wheel slot).map TimerNode.id =
        ((last.accepted.filter (· ∉ last.cancelled)).filter
          (last.run.ti.triggerBeforeMs < ·.triggerAtMs)).filter
            (last.run.ti.slotOf ·.triggerAtMs = slot) := by
  have follows : last.Follows :=
    runFrom_guarded_invariant Follows
      (fun _ _ _ follows met taken => follows.step met taken) (start_follows now) met run
  constructor
  · have done := follows.shows.done
    simp only [TimerRun.rest, idle, Phase.isFiring, Bool.false_eq_true, if_false, List.map_nil,
      List.append_nil] at done
    exact done.symm
  · intro slot
    have waits := follows.shows.waits slot
    simp only [TimerRun.waiting, idle, Phase.isFiring, Bool.false_eq_true, false_and,
      if_false] at waits
    exact waits

/-- Three timers are stored, one is cancelled, and the second one fires first. -/
def mixedTimers : List CancelEvent :=
  [.wheel (.add ⟨30, 7⟩ ⟨1000, 1000, 1000⟩), .wheel (.add ⟨10, 8⟩ ⟨1000, 1000, 1000⟩),
    .wheel (.add ⟨20, 9⟩ ⟨1000, 1000, 1000⟩), .remove ⟨1020, 2⟩,
    .wheel (.trigger 1010 1010), .wheel .next, .wheel .fire,
    .wheel (.add ⟨10, 5⟩ ⟨1011, 1011, 1011⟩), .wheel .clear, .wheel .next]

theorem fired_byTime_mixedTimers :
    ∃ last, runFrom step (start 1000) mixedTimers = some last ∧
      last.run.firedIds = byTime TimerId.triggerAtMs
          ((last.accepted.filter (· ∉ last.cancelled)).filter
            (·.triggerAtMs ≤ last.run.ti.triggerBeforeMs)) ∧
        ∀ slot, (last.run.ti.wheel slot).map TimerNode.id =
          ((last.accepted.filter (· ∉ last.cancelled)).filter
            (last.run.ti.triggerBeforeMs < ·.triggerAtMs)).filter
              (last.run.ti.slotOf ·.triggerAtMs = slot) := by
  have ends : (runFrom step (start 1000) mixedTimers).any
      (fun last => last.run.phase = .idle) = true := by
    decide +kernel
  obtain ⟨last, run, idle⟩ := (Option.any_eq_true _ _).mp ends
  exact ⟨last, run, fired_byTime 1000 (by decide +kernel) run (of_decide_eq_true idle)⟩

end CancelRun

end SimpleWebServer.Timers
