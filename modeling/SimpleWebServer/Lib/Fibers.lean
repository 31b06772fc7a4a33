import SimpleWebServer.Lib.Runs

/-!
# Fibers

Fibers are parties of which one runs at a time.  What a fiber is made of is a parameter: the
work of the running fiber changes it in any way, a switch changes nothing but where the
running fiber will go on, and a fiber that does not run can be started anew.
-/

namespace SimpleWebServer.Lib

open SimpleWebServer.Lib.Runs

structure Fibers (Id Fiber : Type*) where
  fiber : Id → Fiber
  now : Id

namespace Fibers

variable {Id Fiber Label : Type*}

inductive Action (Id Fiber Label : Type*) where
  /-- the running fiber becomes this -/
  | work (fiber : Fiber)
  /-- the running fiber will go on at `back`, and `next` runs -/
  | switch (next : Id) (back : Label)
  /-- a fiber is started anew -/
  | renew (id : Id) (fiber : Fiber)

variable [DecidableEq Id]

/-- `goOn back fiber` is a fiber that will go on at `back`. -/
def step (goOn : Label → Fiber → Fiber) (fibers : Fibers Id Fiber) :
    Action Id Fiber Label → Option (Fibers Id Fiber)
  | .work fiber => some { fibers with fiber := Function.update fibers.fiber fibers.now fiber }
  | .switch next back => some {
      fiber := Function.update fibers.fiber fibers.now (goOn back (fibers.fiber fibers.now))
      now := next }
  | .renew id fiber =>
      if id ≠ fibers.now then
        some { fibers with fiber := Function.update fibers.fiber id fiber }
      else none

/-- The step neither runs the fiber nor starts it anew. -/
def LeavesAlone (id : Id) (fibers : Fibers Id Fiber) : Action Id Fiber Label → Prop
  | .renew other _ => fibers.now ≠ id ∧ other ≠ id
  | _ => fibers.now ≠ id

variable {goOn : Label → Fiber → Fiber} {id : Id}

theorem fiber_step {fibers next : Fibers Id Fiber} {action : Action Id Fiber Label}
    (alone : LeavesAlone id fibers action) (taken : step goOn fibers action = some next) :
    next.fiber id = fibers.fiber id := by
  cases action with
  | work fiber =>
      cases taken
      exact Function.update_of_ne (Ne.symm alone) _ _
  | switch other back =>
      cases taken
      exact Function.update_of_ne (Ne.symm alone) _ _
  | renew other fiber =>
      obtain ⟨-, rfl⟩ := of_guarded taken
      exact Function.update_of_ne (Ne.symm alone.2) _ _

/-- A fiber that is left alone stays as it is. -/
theorem fiber_run {first last : Fibers Id Fiber} {actions : List (Action Id Fiber Label)}
    (alone : StepsMeet (step goOn) (LeavesAlone id) first actions)
    (run : runFrom (step goOn) first actions = some last) : last.fiber id = first.fiber id :=
  runFrom_guarded_invariant (fun fibers => fibers.fiber id = first.fiber id)
    (fun _ _ _ same met taken => (fiber_step met taken).trans same) rfl alone run

/-- A fiber that switches away and is left alone goes on as it was when it is switched to. -/
theorem fiber_of_switch_back {first last : Fibers Id Fiber} {other : Id} {back : Label}
    {middle : Fibers Id Fiber} {actions : List (Action Id Fiber Label)}
    (left : step goOn first (.switch other back) = some middle)
    (alone : StepsMeet (step goOn) (LeavesAlone first.now) middle actions)
    (run : runFrom (step goOn) middle actions = some last) :
    last.fiber first.now = goOn back (first.fiber first.now) := by
  rw [fiber_run alone run]
  cases left
  exact Function.update_self _ _ _

end Fibers

end SimpleWebServer.Lib
