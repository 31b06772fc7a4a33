import Mathlib.Logic.Function.Basic

/-!
# A mutex and the stacks of its threads

Every thread has a stack of frames, of which some are inside a scope that holds the one
mutex.  The discipline is that only the top frame is inside such a scope, and that its thread
is then the holder.  The rules say which changes of one stack keep the discipline.
-/

namespace SimpleWebServer.Lib.LockStack

variable {Thread Frame : Type*} {inside : Frame → Bool}

/-- The top frame is inside the scope of the mutex. -/
def TopInside (inside : Frame → Bool) (frames : List Frame) : Prop :=
  ∃ frame ∈ frames.head?, inside frame = true

/-- No frame is inside the scope of the mutex. -/
def Outside (inside : Frame → Bool) (frames : List Frame) : Prop :=
  ∀ frame ∈ frames, inside frame = false

theorem topInside_cons {frame : Frame} {rest : List Frame} :
    TopInside inside (frame :: rest) ↔ inside frame = true := by
  simp [TopInside]

theorem outside_nil : Outside inside [] := by
  intro frame member
  cases member

theorem outside_cons {frame : Frame} {rest : List Frame} :
    Outside inside (frame :: rest) ↔ inside frame = false ∧ Outside inside rest :=
  List.forall_mem_cons

theorem Outside.not_top {frames : List Frame} (outside : Outside inside frames) :
    ¬ TopInside inside frames := by
  rintro ⟨frame, head, top⟩
  have member : frame ∈ frames := List.mem_of_mem_head? head
  rw [outside frame member] at top
  cases top

/-- The holder of the mutex is the thread whose top frame is inside its scope. -/
structure Held (inside : Frame → Bool) (mu : Option Thread) (stack : Thread → List Frame) :
    Prop where
  top : ∀ thread, mu = some thread ↔ TopInside inside (stack thread)
  below : ∀ thread, Outside inside (stack thread).tail

/-- At first the mutex is free and no thread is in a frame. -/
theorem held_new : Held inside (none : Option Thread) fun _ => [] where
  top := by
    intro thread
    simp [TopInside]
  below := fun _ => outside_nil

section

variable {mu : Option Thread} {stack : Thread → List Frame} {thread : Thread}

/-- A thread outside the scope has no frame in it. -/
theorem Held.outside (held : Held inside mu stack) (apart : ¬ TopInside inside (stack thread)) :
    Outside inside (stack thread) := by
  have below := held.below thread
  cases frames : stack thread with
  | nil => exact outside_nil
  | cons frame rest =>
      rw [frames] at apart below
      rw [topInside_cons, Bool.not_eq_true] at apart
      exact outside_cons.mpr ⟨apart, below⟩

variable [DecidableEq Thread]

theorem below_update {frames : List Frame}
    (old : ∀ thread, Outside inside (stack thread).tail) (new : Outside inside frames.tail)
    (other : Thread) : Outside inside (Function.update stack thread frames other).tail := by
  by_cases same : other = thread
  · rw [same, Function.update_self]
    exact new
  · rw [Function.update_of_ne same]
    exact old other

theorem Outside.tail {frames : List Frame} (outside : Outside inside frames) :
    Outside inside frames.tail :=
  fun frame member => outside frame (List.mem_of_mem_tail member)

/-- A thread changes its frames without taking or giving back the mutex. -/
theorem Held.move (held : Held inside mu stack) {frames : List Frame}
    (top : TopInside inside frames ↔ TopInside inside (stack thread))
    (below : Outside inside frames.tail) :
    Held inside mu (Function.update stack thread frames) where
  top := by
    intro other
    by_cases same : other = thread
    · rw [same, Function.update_self, top]
      exact held.top thread
    · rw [Function.update_of_ne same]
      exact held.top other
  below := below_update held.below below

/-- A thread outside the scope changes its frames. -/
theorem Held.moveOutside (held : Held inside mu stack)
    (apart : ¬ TopInside inside (stack thread)) {frames : List Frame}
    (outside : Outside inside frames) :
    Held inside mu (Function.update stack thread frames) :=
  held.move (iff_of_false outside.not_top apart) outside.tail

/-- A thread takes the free mutex. -/
theorem Held.lock (held : Held inside none stack) {frames : List Frame}
    (top : TopInside inside frames) (below : Outside inside frames.tail) :
    Held inside (some thread) (Function.update stack thread frames) where
  top := by
    intro other
    by_cases same : other = thread
    · rw [same, Function.update_self]
      exact iff_of_true rfl top
    · rw [Function.update_of_ne same]
      apply iff_of_false (fun equal => same (Option.some.inj equal).symm)
      intro holds
      cases (held.top other).mpr holds
  below := below_update held.below below

/-- The holder leaves the scope. -/
theorem Held.unlock (held : Held inside (some thread) stack) {frames : List Frame}
    (outside : Outside inside frames) :
    Held inside none (Function.update stack thread frames) where
  top := by
    intro other
    by_cases same : other = thread
    · rw [same, Function.update_self]
      exact iff_of_false (Option.some_ne_none _).symm outside.not_top
    · rw [Function.update_of_ne same]
      refine iff_of_false (Option.some_ne_none _).symm fun holds => same ?_
      exact (Option.some.inj ((held.top other).mpr holds)).symm
  below := below_update held.below outside.tail

end

end SimpleWebServer.Lib.LockStack
