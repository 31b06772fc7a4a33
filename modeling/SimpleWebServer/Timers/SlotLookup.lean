import SimpleWebServer.Timers.TimerCancel

/-!
# The slot of a timer

`remove_timer` does not know where `add_timer` has put a timer.  It computes the slot again,
from a `slot_ptr` and a `trigger_before_ms` that have moved on.  Both move together, and a
timer is gone when its time is reached: the slot is the same, however far the time was ahead.
Here the callbacks leave the wheel alone, so each function is one step.
-/

namespace SimpleWebServer.Timers

open SimpleWebServer.Lib.Runs

namespace TimerWheel

/-- The `while` loop of `trigger_timer`; the callbacks of a slot run before it is cleared. -/
def triggerLoop (atMs : Nat) : Nat → TimerWheel → TimerWheel
  | 0, ti => ti
  | fuel + 1, ti =>
      if ti.triggerBeforeMs < atMs then triggerLoop atMs fuel ti.advance.clearCurrent else ti

/-- `trigger_timer(now_ms)`; every iteration advances the time. -/
def triggerTimer (ti : TimerWheel) (nowMs reading : Nat) : TimerWheel :=
  ti.triggerLoop (getSlotTimestamp nowMs reading) (getSlotTimestamp nowMs reading)

/-- No node of the wheel has this address. -/
def Unused (ti : TimerWheel) (it : Nat) : Prop :=
  ∀ slot < wheelSize, ∀ node ∈ ti.wheel slot, node.it ≠ it

instance (ti : TimerWheel) (it : Nat) : Decidable (ti.Unused it) :=
  inferInstanceAs (Decidable (∀ slot < wheelSize, _))

/-- `remove_timer` finds every timer of the wheel by the time and the address in its `TimerId`. -/
structure FindsTimers (ti : TimerWheel) : Prop where
  future : ∀ slot, ∀ node ∈ ti.wheel slot, ti.triggerBeforeMs < node.atMs
  /-- the slot that `remove_timer` computes is the one whose list has the node -/
  found : ∀ slot, ∀ node ∈ ti.wheel slot, slot = ti.slotOf node.atMs
  /-- the node leaves its list, and nothing else changes -/
  removed : ∀ slot, ∀ node ∈ ti.wheel slot, ∃ front back,
    ti.wheel slot = front ++ node :: back ∧ ti.removeTimer ⟨node.atMs, node.it⟩ =
      { ti with wheel := Function.update ti.wheel slot (front ++ back) }
  /-- the empty identifier removes nothing -/
  empty : ∀ it, ti.removeTimer ⟨0, it⟩ = ti

/-! ## What the functions preserve -/

theorem wheel_pushBack (ti : TimerWheel) (slot : Nat) (node : TimerNode) :
    (ti.pushBack slot node).wheel = Function.update ti.wheel slot (ti.wheel slot ++ [node]) := rfl

theorem wheel_clearCurrent (ti : TimerWheel) :
    ti.clearCurrent.wheel = Function.update ti.wheel ti.slotPtr [] := rfl

theorem wheel_erase (ti : TimerWheel) (slot it : Nat) : (ti.erase slot it).wheel =
    Function.update ti.wheel slot ((ti.wheel slot).filter (·.it ≠ it)) := rfl

/-- Every node lies ahead, in the slot of its time, and has an address of its own. -/
structure Filed (ti : TimerWheel) : Prop where
  aligned : ti.triggerBeforeMs % everyMs = 0
  inWheel : ti.slotPtr < wheelSize
  placed : ∀ slot, ∀ node ∈ ti.wheel slot, node.atMs % everyMs = 0 ∧
    ti.triggerBeforeMs < node.atMs ∧ slot = ti.slotOf node.atMs
  distinct : ∀ slot, ((ti.wheel slot).map TimerNode.it).Nodup

theorem new_filed (now : Nat) : (TimerWheel.new now).Filed where
  aligned := getSlotTimestamp_aligned _ _
  inWheel := show 0 < wheelSize by decide
  placed := by
    intro slot node member
    cases member
  distinct := fun _ => List.nodup_nil

theorem slotOf_lt (ti : TimerWheel) (atMs : Nat) : ti.slotOf atMs < wheelSize :=
  Nat.mod_lt _ (by decide)

/-- The current slot has the time of the wheel. -/
theorem slotOf_now {ti : TimerWheel} (inWheel : ti.slotPtr < wheelSize) :
    ti.slotOf ti.triggerBeforeMs = ti.slotPtr := by
  rw [slotOf, Nat.sub_self, Nat.zero_div, Nat.add_zero, Nat.mod_eq_of_lt inWheel]

/-- A node is pushed into the slot of its time. -/
theorem Filed.pushBack {ti : TimerWheel} (filed : ti.Filed) (node : TimerNode)
    (aligned : node.atMs % everyMs = 0) (future : ti.triggerBeforeMs < node.atMs)
    (unused : ∀ other ∈ ti.wheel (ti.slotOf node.atMs), other.it ≠ node.it) :
    (ti.pushBack (ti.slotOf node.atMs) node).Filed := by
  refine ⟨filed.aligned, filed.inWheel, fun slot other member => ?_, fun slot => ?_⟩
  · rcases TimerRun.mem_pushBack_iff.mp member with old | ⟨rfl, rfl⟩
    · exact filed.placed slot other old
    · exact ⟨aligned, future, rfl⟩
  · rw [wheel_pushBack]
    by_cases here : slot = ti.slotOf node.atMs
    · rw [here, Function.update_self, List.map_append, List.map_singleton]
      refine List.nodup_append.mpr ⟨filed.distinct _, List.nodup_singleton node.it, ?_⟩
      intro address member new isNew
      obtain ⟨other, inList, rfl⟩ := List.mem_map.mp member
      rw [List.mem_singleton.mp isNew]
      exact unused other inList
    · rw [Function.update_of_ne here]
      exact filed.distinct slot

/-- `add_timer` files a timer under the slot of its time. -/
theorem Filed.addTimer {ti : TimerWheel} (filed : ti.Filed) {it : Nat} (unused : ti.Unused it)
    (timer : Timer) (reads : ClockReads) : (ti.addTimer timer it reads).2.Filed := by
  rw [TimerWheel.addTimer]
  split_ifs with due limit
  · exact filed
  · exact filed
  · exact filed.pushBack ⟨it, timer, atMs timer reads⟩ (getSlotTimestamp_aligned _ _)
      (Nat.lt_of_not_le due) (unused _ (ti.slotOf_lt _))

/-- An iteration of `trigger_timer` clears the slot whose time the wheel has come to. -/
theorem Filed.turn {ti : TimerWheel} (filed : ti.Filed) : ti.advance.clearCurrent.Filed := by
  have inWheel : ti.advance.slotPtr < wheelSize := Nat.mod_lt _ (by decide)
  refine ⟨?_, inWheel, ?_, ?_⟩
  · have aligned := filed.aligned
    simp only [clearCurrent, advance, everyMs_eq] at *
    omega
  · intro slot node member
    obtain ⟨kept, elsewhere⟩ := TimerRun.mem_clearCurrent member
    obtain ⟨atAligned, future, inSlot⟩ := filed.placed slot node kept
    have sameSlot : slot = ti.advance.slotOf node.atMs :=
      inSlot.trans (slotOf_advance filed.aligned atAligned future).symm
    refine ⟨atAligned, ?_, sameSlot⟩
    change ti.triggerBeforeMs + everyMs < node.atMs
    by_contra reached
    -- both times are multiples of ten, so the node is due and its list was cleared
    have due : node.atMs = ti.advance.triggerBeforeMs := by
      have aligned := filed.aligned
      simp only [advance, everyMs_eq] at *
      omega
    rw [due, slotOf_now inWheel] at sameSlot
    exact elsewhere sameSlot
  · intro slot
    rw [wheel_clearCurrent]
    by_cases here : slot = ti.advance.slotPtr
    · rw [here, Function.update_self]
      exact List.nodup_nil
    · rw [Function.update_of_ne here]
      exact filed.distinct slot

theorem Filed.triggerLoop {atMs : Nat} (fuel : Nat) {ti : TimerWheel} (filed : ti.Filed) :
    (ti.triggerLoop atMs fuel).Filed := by
  induction fuel generalizing ti with
  | zero => exact filed
  | succ fuel ih =>
      rw [TimerWheel.triggerLoop]
      split_ifs
      · exact ih filed.turn
      · exact filed

/-- The loop ends because the wheel has come to the time, with the fuel that is provided. -/
theorem triggerLoop_reaches {atMs : Nat} (fuel : Nat) {ti : TimerWheel}
    (enough : atMs ≤ ti.triggerBeforeMs + fuel) :
    atMs ≤ (ti.triggerLoop atMs fuel).triggerBeforeMs := by
  induction fuel generalizing ti with
  | zero => exact enough
  | succ fuel ih =>
      rw [TimerWheel.triggerLoop]
      split_ifs with late
      · apply ih
        change atMs ≤ ti.triggerBeforeMs + everyMs + fuel
        rw [everyMs_eq]
        omega
      · exact Nat.le_of_not_lt late

theorem triggerTimer_reaches (ti : TimerWheel) (nowMs reading : Nat) :
    getSlotTimestamp nowMs reading ≤ (ti.triggerTimer nowMs reading).triggerBeforeMs :=
  triggerLoop_reaches _ (Nat.le_add_left _ _)

/-- The only node of a list with its address is left out where it stands. -/
theorem filter_it_eq {front back : List TimerNode} {node : TimerNode}
    (distinct : ((front ++ node :: back).map TimerNode.it).Nodup) :
    (front ++ node :: back).filter (·.it ≠ node.it) = front ++ back := by
  rw [List.map_append, List.map_cons, List.nodup_append, List.nodup_cons] at distinct
  obtain ⟨-, ⟨notBehind, -⟩, apart⟩ := distinct
  have inFront : front.filter (·.it ≠ node.it) = front := by
    apply List.filter_eq_self.mpr
    intro other member
    have differs := apart other.it (List.mem_map_of_mem member) node.it List.mem_cons_self
    simpa using differs
  have behind : back.filter (·.it ≠ node.it) = back := by
    apply List.filter_eq_self.mpr
    intro other member
    have differs : other.it ≠ node.it := fun same =>
      notBehind (same ▸ List.mem_map_of_mem member)
    simpa using differs
  rw [List.filter_append, inFront, List.filter_cons_of_neg (by simp), behind]

/-- `remove_timer` on the list of a stored timer. -/
theorem Filed.removeTimer_eq {ti : TimerWheel} (filed : ti.Filed) {slot : Nat} {node : TimerNode}
    {front back : List TimerNode} (split : ti.wheel slot = front ++ node :: back) :
    ti.removeTimer ⟨node.atMs, node.it⟩ =
      { ti with wheel := Function.update ti.wheel slot (front ++ back) } := by
  have member : node ∈ ti.wheel slot := by simp [split]
  obtain ⟨-, future, inSlot⟩ := filed.placed slot node member
  have distinct := filed.distinct slot
  rw [split] at distinct
  rw [removeTimer, if_neg (Nat.not_le_of_lt future), ← inSlot, erase, split, filter_it_eq distinct]

theorem Filed.findsTimers {ti : TimerWheel} (filed : ti.Filed) : ti.FindsTimers where
  future := fun slot node member => (filed.placed slot node member).2.1
  found := fun slot node member => (filed.placed slot node member).2.2
  removed := by
    intro slot node member
    obtain ⟨front, back, split⟩ := List.append_of_mem member
    exact ⟨front, back, split, filed.removeTimer_eq split⟩
  empty := fun it => if_pos (Nat.zero_le _)

/-- Whatever is erased, the other nodes stay where they are. -/
theorem Filed.removeTimer {ti : TimerWheel} (filed : ti.Filed) (id : TimerId) :
    (ti.removeTimer id).Filed := by
  rw [TimerWheel.removeTimer]
  split_ifs with past
  · exact filed
  · have kept (slot : Nat) :
        ((ti.erase (ti.slotOf id.triggerAtMs) id.it).wheel slot).Sublist (ti.wheel slot) := by
      rw [wheel_erase]
      by_cases here : slot = ti.slotOf id.triggerAtMs
      · rw [here, Function.update_self]
        exact List.filter_sublist
      · rw [Function.update_of_ne here]
    refine ⟨filed.aligned, filed.inWheel, fun slot node member => ?_, fun slot => ?_⟩
    · exact filed.placed slot node ((kept slot).subset member)
    · exact (filed.distinct slot).sublist ((kept slot).map TimerNode.it)

end TimerWheel

/-! ## Runs of whole calls -/

inductive WheelCall where
  /-- `add_timer`; a stored timer becomes a list node at an address that is not in use -/
  | add (timer : Timer) (it : Nat) (reads : ClockReads)
  | trigger (nowMs reading : Nat)
  | remove (id : TimerId)
  deriving DecidableEq, Repr

/-- A wheel with the last reading of the clock. -/
structure WheelRun where
  ti : TimerWheel
  clock : Nat

namespace WheelRun

def start (now : Nat) : WheelRun where
  ti := .new now
  clock := now

/--
One call.  The clock is nondecreasing, and its readings are `uint64_t`s; it is undefined to
erase a node that is not in the list.
-/
def step (s : WheelRun) : WheelCall → Option WheelRun
  | .add timer it reads =>
      if (s.clock ≤ reads.now ∧ reads.now ≤ reads.forSum ∧ reads.forSum ≤ reads.forDelay ∧
          reads.forDelay < uint64Size) ∧ s.ti.Unused it then
        some { ti := (s.ti.addTimer timer it reads).2, clock := reads.forDelay }
      else none
  | .trigger nowMs reading =>
      if s.clock ≤ nowMs ∧ nowMs ≤ reading ∧ reading < uint64Size then
        some { ti := s.ti.triggerTimer nowMs reading, clock := reading }
      else none
  | .remove id =>
      if id.triggerAtMs ≤ s.ti.triggerBeforeMs ∨
          id.it ∈ (s.ti.wheel (s.ti.slotOf id.triggerAtMs)).map TimerNode.it then
        some { s with ti := s.ti.removeTimer id }
      else none

theorem step_filed {s next : WheelRun} {call : WheelCall} (filed : s.ti.Filed)
    (taken : s.step call = some next) : next.ti.Filed := by
  cases call with
  | add timer it reads =>
      obtain ⟨⟨-, unused⟩, rfl⟩ := of_guarded taken
      exact filed.addTimer unused timer reads
  | trigger nowMs reading =>
      obtain ⟨-, rfl⟩ := of_guarded taken
      exact filed.triggerLoop _
  | remove id =>
      obtain ⟨-, rfl⟩ := of_guarded taken
      exact filed.removeTimer id

/-- Between any calls `remove_timer` finds the timers that are stored, and no others. -/
theorem allFindTimers (now : Nat) (calls : List WheelCall) :
    AllStates step (fun s => s.ti.FindsTimers) (start now) calls :=
  allStates_of_invariant (fun s => s.ti.Filed) (fun _ _ _ filed taken => step_filed filed taken)
    (fun _ filed => filed.findsTimers) calls (TimerWheel.new_filed now)

end WheelRun

end SimpleWebServer.Timers
