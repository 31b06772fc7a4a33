import SimpleWebServer.Co.CoSwap
import SimpleWebServer.Lib.Fibers

/-!
# Coroutines that switch by `co_swap`

A thread runs its coroutines on one processor: the code of the running one works on the
registers and on its stack, and `co_swap` goes on with another.  For the coroutines the
switches are calls that return: each is a fiber with registers and a stack of its own, of
which the code of the others sees nothing.
-/

namespace SimpleWebServer.Co

open SimpleWebServer.Lib
open SimpleWebServer.Lib.X64
open SimpleWebServer.Lib.Runs

/-- Where the coroutines of a thread and their stacks are. -/
structure Layout (Id : Type*) where
  /-- the address of the `Coroutine` -/
  record : Id → Word
  stack : Id → Region
  records_apart : ∀ {id other}, id ≠ other →
    (Regs.region (record id)).Apart (Regs.region (record other))
  stacks_apart : ∀ {id other}, id ≠ other → (stack id).Apart (stack other)
  record_apart_stack : ∀ id other, (Regs.region (record id)).Apart (stack other)

/-- The coroutines under other names. -/
def Layout.comap {Id Name : Type*} (layout : Layout Id) (called : Name → Id)
    (injective : Function.Injective called) : Layout Name where
  record := layout.record ∘ called
  stack := layout.stack ∘ called
  records_apart differ := layout.records_apart fun same => differ (injective same)
  stacks_apart differ := layout.stacks_apart fun same => differ (injective same)
  record_apart_stack id other := layout.record_apart_stack (called id) (called other)

/-- A thread with the coroutine that it runs. -/
structure Running (Id : Type*) where
  machine : Machine
  /-- the address of the next instruction -/
  pc : Word
  now : Id
  /-- the coroutines that have been given a callback, and `main_co` -/
  ready : Id → Bool

namespace Running

variable {Id : Type*}

inductive Event (Id : Type*) where
  /-- the running code has come to `pc`, with these registers and this memory -/
  | work (machine : Machine) (pc : Word)
  /-- it calls `co_swap(now, next)`, and `back` is behind the call -/
  | swap (next : Id) (back : Word)
  /-- it calls `set_callback` of a coroutine, which has no stack yet when `first` -/
  | setCallback (id : Id) (first : Bool)

section steps

variable [DecidableEq Id] (layout : Layout Id) (coFun : Word)

def swap (thread : Running Id) (next : Id) (back : Word) : Running Id :=
  let arrived := thread.machine.call coSwap back
  { thread with
    machine := arrived.2
    pc := arrived.1
    now := next }

def setCallback (thread : Running Id) (id : Id) (first : Bool) : Running Id :=
  { thread with
    machine.mem := Co.setCallback thread.machine.mem (layout.record id) (layout.stack id).base
      coFun first
    ready := Function.update thread.ready id true }

def step (thread : Running Id) : Event Id → Option (Running Id)
  | .work machine pc => some { thread with
      machine := machine
      pc := pc }
  | .swap next back => some (thread.swap next back)
  | .setCallback id first => some (thread.setCallback layout coFun id first)

end steps

end Running

/-- The stack pointer has room for a return address under it. -/
def Room (stack : Region) (sp : Word) : Prop :=
  8 ≤ (sp - stack.base).toNat ∧ (sp - stack.base).toNat ≤ stack.size

/-! ## What the code has to respect -/

namespace Running

variable {Id : Type*}

/--
The code leaves the saved registers and the stacks of the other coroutines alone; it calls
`co_swap` with its own `Coroutine` and that of one that has been given a callback, with room
on its stack; and it gives a callback only to another coroutine.
-/
def Respects (layout : Layout Id) (thread : Running Id) : Event Id → Prop
  | .work machine _ => ∀ other, other ≠ thread.now →
      Agree (Regs.region (layout.record other)) machine.mem thread.machine.mem ∧
      Agree (layout.stack other) machine.mem thread.machine.mem
  | .swap next _ =>
      thread.machine.reg .rdi = layout.record thread.now ∧
      thread.machine.reg .rsi = layout.record next ∧
      Room (layout.stack thread.now) (thread.machine.reg .rsp) ∧
      (next = thread.now ∨ thread.ready next)
  | .setCallback id _ =>
      id ≠ thread.now ∧ (layout.stack id).size = stSize ∧
      (layout.stack id).base.toNat + stSize ≤ 2 ^ 64

end Running

/-! ## The fibers -/

/-- What a coroutine has between its steps; `regs.ret` is where it goes on. -/
structure Fiber where
  regs : Regs
  /-- the bytes of its stack in use, and nothing else -/
  stack : Memory

namespace Fiber

/-- The bytes of a stack from the stack pointer on. -/
def used (stack : Region) (sp : Word) (mem : Memory) : Memory := fun address =>
  if stack.Has address ∧ (sp - stack.base).toNat ≤ (address - stack.base).toNat then mem address
  else 0

/-- A coroutine that runs. -/
def running (m : Machine) (pc : Word) (stack : Region) : Fiber where
  regs := { Regs.ofMachine m with ret := pc }
  stack := used stack (m.reg .rsp) m.mem

/-- One that was left by a `co_swap`, or has not run; the `ret` takes the return address. -/
def suspended (mem : Memory) (co : Word) (stack : Region) : Fiber where
  regs := { Regs.ofMemory mem co with rsp := (Regs.ofMemory mem co).rsp + 8 }
  stack := used stack ((Regs.ofMemory mem co).rsp + 8) mem

/-- It will go on at `back`. -/
def goOn (back : Word) (fiber : Fiber) : Fiber :=
  { fiber with regs := { fiber.regs with ret := back } }

end Fiber

namespace Running

variable {Id : Type*} (layout : Layout Id)

/-- Nobody has been left by a `co_swap` or been given a callback. -/
def Initial (thread : Running Id) : Prop := ∀ id, thread.ready id ↔ id = thread.now

/-- The return address of a coroutine that does not run is on its stack. -/
def Sound (thread : Running Id) : Prop :=
  ∀ id, thread.ready id → id ≠ thread.now →
    Room (layout.stack id) ((Regs.ofMemory thread.machine.mem (layout.record id)).rsp + 8)

theorem Initial.sound {layout : Layout Id} {thread : Running Id} (initial : thread.Initial) :
    thread.Sound layout :=
  fun id ready notNow => absurd ((initial id).mp ready) notNow

variable [DecidableEq Id]

/-- The coroutines of a thread as fibers. -/
def fibers (thread : Running Id) : Fibers Id Fiber where
  fiber id :=
    if id = thread.now then .running thread.machine thread.pc (layout.stack id)
    else .suspended thread.machine.mem (layout.record id) (layout.stack id)
  now := thread.now

/-- What a step is for the fibers. -/
def action (coFun : Word) (thread : Running Id) : Event Id → Fibers.Action Id Fiber Word
  | .work machine pc => .work (.running machine pc (layout.stack thread.now))
  | .swap next back => .switch next back
  | .setCallback id first => .renew id
      (.suspended (thread.setCallback layout coFun id first).machine.mem (layout.record id)
        (layout.stack id))

end Running

/-! ## The stacks -/

namespace Room

variable {stack : Region} {sp : Word}

theorem inside (room : Room stack sp) : (Region.word (sp - 8)).Inside stack := by
  intro address has
  simp only [Room, Region.Has, Region.word] at *
  bv_omega

theorem apart (room : Room stack sp) {other : Region} (isApart : other.Apart stack) :
    other.Apart (Region.word (sp - 8)) :=
  isApart.mono (Region.Inside.refl other) room.inside

end Room

namespace Fiber

variable {stack : Region} {sp : Word} {mem other : Memory}

theorem used_congr (sp : Word) (agree : Agree stack mem other) :
    used stack sp mem = used stack sp other := by
  funext address
  simp only [used]
  split_ifs with has
  · exact agree address has.1
  · rfl

/-- A return address under the stack pointer is not in use. -/
theorem used_store (mem : Memory) (room : Room stack sp) (value : Word) :
    used stack sp (mem.store (sp - 8) value) = used stack sp mem := by
  funext address
  simp only [used]
  split_ifs with has
  · apply if_neg
    simp only [Room, Region.Has, Region.word] at *
    bv_omega
  · rfl

/-- Running fibers that are the same show it. -/
theorem of_running_eq {m before : Machine} {pc pcBefore back : Word}
    (same : running m pc stack = goOn back (running before pcBefore stack)) :
    pc = back ∧
    (∀ reg, reg ∉ [Reg.rax, Reg.r10, Reg.r11] → m.reg reg = before.reg reg) ∧
    ∀ address, stack.Has address →
      (before.reg .rsp - stack.base).toNat ≤ (address - stack.base).toNat →
      m.mem address = before.mem address := by
  have regs := congrArg Fiber.regs same
  have bytes := congrArg Fiber.stack same
  simp only [running, goOn] at regs bytes
  have sp : m.reg .rsp = before.reg .rsp := congrArg Regs.rsp regs
  refine ⟨congrArg Regs.ret regs, ?_, ?_⟩
  · intro reg kept
    simp only [Regs.ofMachine, Regs.mk.injEq] at regs
    cases reg <;> simp_all
  · intro address has inUse
    have byte := congrFun bytes address
    simp only [used, sp] at byte
    rwa [if_pos ⟨has, inUse⟩, if_pos ⟨has, inUse⟩] at byte

end Fiber

/-! ## The steps -/

namespace Running

variable {Id : Type*} {layout : Layout Id} {coFun : Word} {thread : Running Id} {next : Id}
  {back : Word} {machine : Machine} {pc : Word}

theorem stack_eq {id : Id} (size : (layout.stack id).size = stSize) :
    layout.stack id = ⟨(layout.stack id).base, stSize⟩ := by
  rw [← size]

/-- What is in none of the running coroutine's places is not touched when it is saved. -/
theorem agree_savedMemory (back : Word) {other : Region}
    (rdi : thread.machine.reg .rdi = layout.record thread.now)
    (room : Room (layout.stack thread.now) (thread.machine.reg .rsp))
    (apartRecord : other.Apart (Regs.region (layout.record thread.now)))
    (apartStack : other.Apart (layout.stack thread.now)) :
    Agree other (savedMemory thread.machine back) thread.machine.mem := by
  have saved := Regs.agree_save (Regs.ofMachine (thread.machine.push back))
    (thread.machine.push back).mem apartRecord
  rw [savedMemory, rdi]
  exact saved.trans (Memory.agree_store (room.apart apartStack) back)

/-- The stack in use of the coroutine that is saved stays, too. -/
theorem used_savedMemory (back : Word) (rdi : thread.machine.reg .rdi = layout.record thread.now)
    (room : Room (layout.stack thread.now) (thread.machine.reg .rsp)) :
    Fiber.used (layout.stack thread.now) (thread.machine.reg .rsp)
      (savedMemory thread.machine back) =
    Fiber.used (layout.stack thread.now) (thread.machine.reg .rsp) thread.machine.mem := by
  have saved := Regs.agree_save (Regs.ofMachine (thread.machine.push back))
    (thread.machine.push back).mem (layout.record_apart_stack thread.now thread.now).symm
  rw [savedMemory, rdi, Fiber.used_congr _ saved]
  exact Fiber.used_store _ room back

theorem suspended_work (respects : thread.Respects layout (.work machine pc)) {id : Id}
    (notNow : id ≠ thread.now) :
    Fiber.suspended machine.mem (layout.record id) (layout.stack id) =
      Fiber.suspended thread.machine.mem (layout.record id) (layout.stack id) := by
  have kept := respects id notNow
  rw [Fiber.suspended, Regs.ofMemory_congr kept.1, Fiber.used_congr _ kept.2, Fiber.suspended]

theorem sound_work (sound : thread.Sound layout)
    (respects : thread.Respects layout (.work machine pc)) :
    ({ thread with machine := machine, pc := pc } : Running Id).Sound layout := by
  intro id ready notNow
  rw [Regs.ofMemory_congr (respects id notNow).1]
  exact sound id ready notNow

variable [DecidableEq Id]

/-- The registers that `co_swap` finds in the `Coroutine` it goes to. -/
def found (layout : Layout Id) (thread : Running Id) (next : Id) (back : Word) : Regs :=
  if next = thread.now then Regs.ofMachine (thread.machine.push back)
  else Regs.ofMemory thread.machine.mem (layout.record next)

theorem ofMemory_savedMemory (respects : thread.Respects layout (.swap next back)) :
    Regs.ofMemory (savedMemory thread.machine back) (layout.record next) =
      thread.found layout next back := by
  obtain ⟨rdi, -, room, -⟩ := respects
  rw [found]
  split_ifs with self
  · subst self
    rw [savedMemory, rdi, Regs.ofMemory_save]
  · apply Regs.ofMemory_congr
    exact agree_savedMemory back rdi room (layout.records_apart self)
      (layout.record_apart_stack next thread.now)

theorem room_found (sound : thread.Sound layout)
    (respects : thread.Respects layout (.swap next back)) :
    Room (layout.stack next) ((thread.found layout next back).rsp + 8) := by
  obtain ⟨-, -, room, ready⟩ := respects
  rw [found]
  split_ifs with self
  · subst self
    simpa [Regs.ofMachine, Machine.push] using room
  · exact sound next (ready.resolve_left self) self

/-- A switch, with the registers that are taken over. -/
theorem swap_eq (sound : thread.Sound layout)
    (respects : thread.Respects layout (.swap next back)) :
    thread.swap next back =
      { machine.reg := (thread.found layout next back).taken thread.machine.reg
        machine.mem := (savedMemory thread.machine back).store
          (thread.found layout next back).rsp (thread.found layout next back).ret
        pc := (thread.found layout next back).ret
        now := next
        ready := thread.ready } := by
  have isFound := ofMemory_savedMemory respects
  have inside := (room_found sound respects).inside
  obtain ⟨rdi, rsi, room, -⟩ := respects
  rw [BitVec.add_sub_cancel] at inside
  rw [← rsi] at isFound
  have called := call_coSwap
    (by rw [rdi]; exact (room.apart (layout.record_apart_stack _ _)).symm) isFound
    (by rw [rsi]; exact (layout.record_apart_stack next next).mono (Region.Inside.refl _) inside)
  rw [swap, called]

/-- The coroutine that is switched to runs on from where it was. -/
theorem running_swap (sound : thread.Sound layout)
    (respects : thread.Respects layout (.swap next back)) :
    Fiber.running (thread.swap next back).machine (thread.swap next back).pc
      (layout.stack next) =
    if next = thread.now then
      (Fiber.running thread.machine thread.pc (layout.stack next)).goOn back
    else
      Fiber.suspended thread.machine.mem (layout.record next) (layout.stack next) := by
  have room := room_found sound respects
  have stack := Fiber.used_store (savedMemory thread.machine back) room
    (thread.found layout next back).ret
  rw [BitVec.add_sub_cancel] at stack
  rw [swap_eq sound respects, Fiber.running]
  change Fiber.mk { thread.found layout next back with
    rsp := (thread.found layout next back).rsp + 8 }
    (Fiber.used _ ((thread.found layout next back).rsp + 8) _) = _
  rw [stack]
  obtain ⟨rdi, -, roomNow, -⟩ := respects
  rw [found]
  split_ifs with self
  · subst self
    have below : (Regs.ofMachine (thread.machine.push back)).rsp + 8 =
        thread.machine.reg .rsp := by simp [Regs.ofMachine, Machine.push]
    rw [below, used_savedMemory back rdi roomNow]
    simp [Regs.ofMachine, Machine.push, Fiber.goOn, Fiber.running, Memory.load_store]
  · have kept := agree_savedMemory back rdi roomNow
      (layout.record_apart_stack _ next).symm (layout.stacks_apart self)
    rw [Fiber.used_congr _ kept, Fiber.suspended]

/-- Behind a `co_swap`, a coroutine that does not run is where it was, or behind its call. -/
theorem suspended_swap (sound : thread.Sound layout)
    (respects : thread.Respects layout (.swap next back)) {id : Id} (notNext : id ≠ next) :
    Fiber.suspended (thread.swap next back).machine.mem (layout.record id) (layout.stack id) =
    if id = thread.now then
      (Fiber.running thread.machine thread.pc (layout.stack id)).goOn back
    else
      Fiber.suspended thread.machine.mem (layout.record id) (layout.stack id) := by
  have room := room_found sound respects
  rw [swap_eq sound respects]
  obtain ⟨rdi, -, roomNow, -⟩ := respects
  -- the return address of the other coroutine is written on its own stack
  have stored {other : Region} (apart : other.Apart (layout.stack next)) :
      Agree other ((savedMemory thread.machine back).store (thread.found layout next back).rsp
        (thread.found layout next back).ret) (savedMemory thread.machine back) := by
    have below := room.apart apart
    rw [BitVec.add_sub_cancel] at below
    exact Memory.agree_store below _
  have record := Regs.ofMemory_congr (stored (layout.record_apart_stack id next))
  have stack := stored (layout.stacks_apart notNext)
  rw [Fiber.suspended, record, Fiber.used_congr _ stack]
  split_ifs with self
  · subst self
    have own : Regs.ofMemory (savedMemory thread.machine back) (layout.record thread.now) =
        Regs.ofMachine (thread.machine.push back) := by
      rw [savedMemory, rdi, Regs.ofMemory_save]
    have below : (Regs.ofMachine (thread.machine.push back)).rsp + 8 =
        thread.machine.reg .rsp := by simp [Regs.ofMachine, Machine.push]
    rw [own, below, used_savedMemory back rdi roomNow]
    simp [Regs.ofMachine, Machine.push, Fiber.goOn, Fiber.running, Memory.load_store]
  · have recordKept := Regs.ofMemory_congr (agree_savedMemory back rdi roomNow
      (layout.records_apart self) (layout.record_apart_stack id thread.now))
    have stackKept := agree_savedMemory back rdi roomNow
      (layout.record_apart_stack thread.now id).symm (layout.stacks_apart self)
    rw [recordKept, Fiber.used_congr _ stackKept, Fiber.suspended]

theorem sound_swap (sound : thread.Sound layout)
    (respects : thread.Respects layout (.swap next back)) :
    (thread.swap next back).Sound layout := by
  intro id ready notNow
  have notNext : id ≠ next := by rwa [swap_eq sound respects] at notNow
  have same := congrArg (fun fiber => fiber.regs.rsp) (suspended_swap sound respects notNext)
  simp only [Fiber.suspended] at same
  rw [same]
  split_ifs with self
  · subst self
    exact respects.2.2.1
  · rw [swap_eq sound respects] at ready
    exact sound id ready self

theorem fiber_now (thread : Running Id) : (thread.fibers layout).fiber thread.now =
    .running thread.machine thread.pc (layout.stack thread.now) := if_pos rfl

theorem fiber_of_ne {id : Id} (notNow : id ≠ thread.now) : (thread.fibers layout).fiber id =
    .suspended thread.machine.mem (layout.record id) (layout.stack id) := if_neg notNow

theorem fibers_swap (sound : thread.Sound layout)
    (respects : thread.Respects layout (.swap next back)) :
    Fibers.step Fiber.goOn (thread.fibers layout) (.switch next back) =
      some ((thread.swap next back).fibers layout) := by
  have arrived : ((thread.swap next back).fibers layout).fiber next =
      .running (thread.swap next back).machine (thread.swap next back).pc (layout.stack next) :=
    fiber_now (thread.swap next back)
  have others {id : Id} (notNext : id ≠ next) : ((thread.swap next back).fibers layout).fiber id =
      .suspended (thread.swap next back).machine.mem (layout.record id) (layout.stack id) :=
    if_neg notNext
  have fiber : Function.update (thread.fibers layout).fiber thread.now
      (Fiber.goOn back ((thread.fibers layout).fiber thread.now)) =
      ((thread.swap next back).fibers layout).fiber := by
    funext id
    by_cases isNext : id = next
    · subst isNext
      rw [arrived, running_swap sound respects]
      split_ifs with self
      · rw [self, Function.update_self, fiber_now]
      · rw [Function.update_of_ne self, fiber_of_ne self]
    · rw [others isNext, suspended_swap sound respects isNext]
      split_ifs with self
      · rw [self, Function.update_self, fiber_now]
      · rw [Function.update_of_ne self, fiber_of_ne self]
  exact congrArg (fun values => some (Fibers.mk values next)) fiber

theorem fibers_work (respects : thread.Respects layout (.work machine pc)) :
    Fibers.step Fiber.goOn (thread.fibers layout)
      (.work (.running machine pc (layout.stack thread.now))) =
    some (({ thread with machine := machine, pc := pc } : Running Id).fibers layout) := by
  have fiber : Function.update (thread.fibers layout).fiber thread.now
      (.running machine pc (layout.stack thread.now)) =
      (({ thread with machine := machine, pc := pc } : Running Id).fibers layout).fiber := by
    funext id
    by_cases isNow : id = thread.now
    · subst isNow
      rw [Function.update_self]
      exact (if_pos rfl).symm
    · rw [Function.update_of_ne isNow, fiber_of_ne isNow, ← suspended_work respects isNow]
      exact (if_neg isNow).symm
  exact congrArg (fun values => some (Fibers.mk values thread.now)) fiber

section setCallback

variable {id : Id} {first : Bool}

/-- A coroutine that is given a callback starts anew. -/
theorem ofMemory_record (respects : thread.Respects layout (.setCallback id first)) :
    Regs.ofMemory (thread.setCallback layout coFun id first).machine.mem (layout.record id) =
      Regs.fresh (layout.record id) (layout.stack id).base coFun := by
  obtain ⟨-, size, noWrap⟩ := respects
  have apart := layout.record_apart_stack id id
  rw [stack_eq size] at apart
  exact ofMemory_setCallback apart noWrap

theorem agree_record (coFun : Word) {other : Region}
    (respects : thread.Respects layout (.setCallback id first))
    (apartRecord : other.Apart (Regs.region (layout.record id)))
    (apartStack : other.Apart (layout.stack id)) :
    Agree other (thread.setCallback layout coFun id first).machine.mem thread.machine.mem := by
  obtain ⟨-, size, noWrap⟩ := respects
  rw [stack_eq size] at apartStack
  exact agree_setCallback apartRecord apartStack noWrap

theorem sound_setCallback (sound : thread.Sound layout)
    (respects : thread.Respects layout (.setCallback id first)) :
    (thread.setCallback layout coFun id first).Sound layout := by
  intro other ready notNow
  by_cases same : other = id
  · subst same
    rw [ofMemory_record respects]
    obtain ⟨-, size, noWrap⟩ := respects
    have bounds := firstStackPointer_bounds noWrap
    simp only [Room, Regs.fresh, size, stSize] at *
    bv_omega
  · rw [Regs.ofMemory_congr (agree_record coFun respects (layout.records_apart same)
      (layout.record_apart_stack other id))]
    exact sound other (by simpa [setCallback, same] using ready) notNow

theorem fibers_setCallback (respects : thread.Respects layout (.setCallback id first)) :
    Fibers.step Fiber.goOn (thread.fibers layout)
      (.renew id (.suspended (thread.setCallback layout coFun id first).machine.mem
        (layout.record id) (layout.stack id))) =
    some ((thread.setCallback layout coFun id first).fibers layout) := by
  have notNow : id ≠ (thread.fibers layout).now := respects.1
  have fiber : Function.update (thread.fibers layout).fiber id
      (.suspended (thread.setCallback layout coFun id first).machine.mem (layout.record id)
        (layout.stack id)) =
      ((thread.setCallback layout coFun id first).fibers layout).fiber := by
    funext other
    by_cases same : other = id
    · subst same
      rw [Function.update_self]
      exact (if_neg notNow).symm
    · have kept := agree_record coFun respects
        (layout.record_apart_stack id other).symm (layout.stacks_apart same)
      have record := Regs.ofMemory_congr (agree_record coFun respects
        (layout.records_apart same) (layout.record_apart_stack other id))
      rw [Function.update_of_ne same, fibers, fibers]
      change ite _ _ _ = ite _ _ _
      rw [Fiber.suspended, Fiber.suspended, record, Fiber.used_congr _ kept, Fiber.running,
        Fiber.running, Fiber.used_congr _ kept]
      rfl
  rw [Fibers.step, if_pos notNow]
  exact congrArg (fun values => some (Fibers.mk values thread.now)) fiber

end setCallback

/-! ## The runs -/

/-- Every step is one of the fibers. -/
theorem fibers_step {after : Running Id} {event : Event Id} (sound : thread.Sound layout)
    (respects : thread.Respects layout event)
    (taken : thread.step layout coFun event = some after) :
    Fibers.step Fiber.goOn (thread.fibers layout) (thread.action layout coFun event) =
      some (after.fibers layout) ∧ after.Sound layout := by
  cases event with
  | work machine pc =>
      cases taken
      exact ⟨fibers_work respects, sound_work sound respects⟩
  | swap next back =>
      cases taken
      exact ⟨fibers_swap sound respects, sound_swap sound respects⟩
  | setCallback id first =>
      cases taken
      exact ⟨fibers_setCallback respects, sound_setCallback sound respects⟩

/-- The fibers behind a state from which the run goes on. -/
def Behind (layout : Layout Id) (thread : Running Id) (view : Fibers Id Fiber) : Prop :=
  thread.Sound layout ∧ view = thread.fibers layout

theorem behind_step {after : Running Id} {view : Fibers Id Fiber} {event : Event Id}
    (behind : thread.Behind layout view) (respects : thread.Respects layout event)
    (taken : thread.step layout coFun event = some after) :
    ∃ next, Fibers.step Fiber.goOn view (thread.action layout coFun event) = some next ∧
      after.Behind layout next := by
  obtain ⟨sound, rfl⟩ := behind
  obtain ⟨stepped, soundAfter⟩ := fibers_step sound respects taken
  exact ⟨after.fibers layout, stepped, soundAfter, rfl⟩

variable {first last : Running Id} {events : List (Event Id)}

theorem fibers_run_of_sound (sound : first.Sound layout)
    (respects : StepsMeet (step layout coFun) (Respects layout) first events)
    (run : runFrom (step layout coFun) first events = some last) :
    runFrom (Fibers.step Fiber.goOn) (first.fibers layout)
      (actionsOf (step layout coFun) (action layout coFun) first events) =
        some (last.fibers layout) ∧ last.Sound layout := by
  obtain ⟨view, ran, soundLast, rfl⟩ := run_of_simulates (Behind layout) (action layout coFun)
    (fun _ _ _ _ behind met taken => behind_step behind met taken) ⟨sound, rfl⟩ respects run
  exact ⟨ran, soundLast⟩

/-! ### A thread with one coroutine -/

section pair

def pairRecord : Bool → Word
  | false => 0x1000
  | true => 0x2000

def pairStack : Bool → Region
  | false => ⟨0x10000, 0x1000⟩
  | true => ⟨0x100000, stSize⟩

theorem pairRecords_apart : ∀ {id other}, id ≠ other →
    (Regs.region (pairRecord id)).Apart (Regs.region (pairRecord other))
  | false, false, differ => absurd rfl differ
  | false, true, _ => Region.apart_of_below (by decide) (by decide)
  | true, false, _ => (Region.apart_of_below (by decide) (by decide)).symm
  | true, true, differ => absurd rfl differ

theorem pairStacks_apart : ∀ {id other}, id ≠ other → (pairStack id).Apart (pairStack other)
  | false, false, differ => absurd rfl differ
  | false, true, _ => Region.apart_of_below (by decide) (by decide)
  | true, false, _ => (Region.apart_of_below (by decide) (by decide)).symm
  | true, true, differ => absurd rfl differ

theorem pairRecord_apart_stack :
    ∀ id other, (Regs.region (pairRecord id)).Apart (pairStack other)
  | false, false => Region.apart_of_below (by decide) (by decide)
  | false, true => Region.apart_of_below (by decide) (by decide)
  | true, false => Region.apart_of_below (by decide) (by decide)
  | true, true => Region.apart_of_below (by decide) (by decide)

/-- `main_co` is `false`. -/
def pairLayout : Layout Bool where
  record := pairRecord
  stack := pairStack
  records_apart := pairRecords_apart
  stacks_apart := pairStacks_apart
  record_apart_stack := pairRecord_apart_stack

/-- In front of `co_swap(from, to)`. -/
def callingReg (sp : Word) (id next : Bool) : Reg → Word
  | .rsp => sp
  | .rdi => pairRecord id
  | .rsi => pairRecord next
  | _ => 0

def pairStart : Running Bool where
  machine := ⟨callingReg 0x10800 false true, fun _ => 0⟩
  pc := 0x4000
  now := false
  ready := fun id => !id

theorem pairStart_initial : pairStart.Initial := by
  intro id
  cases id <;> decide

/-- The coroutine has been given its callback. -/
def pairGiven : Running Bool := pairStart.setCallback pairLayout 0x5000 true true

/-- It runs, and is about to call `co_swap`. -/
def atCall (thread : Running Bool) : Running Bool :=
  { thread with
    machine := ⟨callingReg 0x100100 true false, thread.machine.mem⟩
    pc := 0x5020 }

def pairBody : Running Bool := atCall (pairGiven.swap true 0x4005)

theorem pairGiven_respects : pairStart.Respects pairLayout (.setCallback true true) :=
  ⟨by decide, rfl, by decide⟩

theorem pairSwap_respects : pairGiven.Respects pairLayout (.swap true 0x4005) :=
  ⟨rfl, rfl, ⟨by decide, by decide⟩, .inr rfl⟩

theorem atCall_respects (thread : Running Bool) :
    thread.Respects pairLayout (.work (atCall thread).machine (atCall thread).pc) :=
  fun _ _ => ⟨Agree.refl _ _, Agree.refl _ _⟩

theorem pairBack_respects : pairBody.Respects pairLayout (.swap false 0x5025) :=
  ⟨rfl, rfl, ⟨by decide, by decide⟩, .inr rfl⟩

end pair

/-- A thread that switches by `co_swap` is a run of fibers. -/
theorem fibers_run (initial : first.Initial)
    (respects : StepsMeet (step layout coFun) (Respects layout) first events)
    (run : runFrom (step layout coFun) first events = some last) :
    runFrom (Fibers.step Fiber.goOn) (first.fibers layout)
      (actionsOf (step layout coFun) (action layout coFun) first events) =
        some (last.fibers layout) :=
  (fibers_run_of_sound initial.sound respects run).1

theorem fibers_run_pair :
    runFrom (Fibers.step Fiber.goOn) (pairStart.fibers pairLayout)
      (actionsOf (step pairLayout 0x5000) (action pairLayout 0x5000) pairStart
        [.setCallback true true, .swap true 0x4005, .work pairBody.machine pairBody.pc,
          .swap false 0x5025]) =
      some ((pairBody.swap false 0x5025).fibers pairLayout) :=
  fibers_run pairStart_initial
    ⟨pairGiven_respects, pairSwap_respects, atCall_respects _, pairBack_respects, trivial⟩ rfl

/-! ## What a coroutine sees -/

/-- The coroutine does not run, and is not given another callback. -/
def Waits (id : Id) (thread : Running Id) (event : Event Id) : Prop :=
  thread.now ≠ id ∧ ∀ first, event ≠ .setCallback id first

/-- While a coroutine waits, its fiber is left alone. -/
theorem fibers_run_of_waits {id : Id} (sound : first.Sound layout)
    (waits : StepsMeet (step layout coFun) (fun thread event =>
      thread.Respects layout event ∧ thread.Waits id event) first events)
    (run : runFrom (step layout coFun) first events = some last) :
    ∃ actions, StepsMeet (Fibers.step Fiber.goOn) (Fibers.LeavesAlone id) (first.fibers layout)
        actions ∧
      runFrom (Fibers.step Fiber.goOn) (first.fibers layout) actions =
        some (last.fibers layout) := by
  have steps : ∀ thread view event after, Behind layout thread view →
      thread.Respects layout event ∧ thread.Waits id event →
      thread.step layout coFun event = some after →
      Fibers.LeavesAlone id view (thread.action layout coFun event) ∧
        ∃ next, Fibers.step Fiber.goOn view (thread.action layout coFun event) = some next ∧
          after.Behind layout next := by
    rintro thread view event after behind ⟨met, notNow, notReset⟩ taken
    refine ⟨?_, behind_step behind met taken⟩
    obtain ⟨-, rfl⟩ := behind
    cases event with
    | work machine pc => exact notNow
    | swap next back => exact notNow
    | setCallback other isFirst =>
        exact ⟨notNow, fun same => notReset isFirst (by rw [same])⟩
  obtain ⟨view, ran, -, rfl⟩ := run_of_simulates (Behind layout) (action layout coFun)
    (fun _ _ _ _ behind met taken => (steps _ _ _ _ behind met taken).2) ⟨sound, rfl⟩ waits run
  exact ⟨_, stepsMeet_of_simulates (Behind layout) (action layout coFun) steps ⟨sound, rfl⟩ waits,
    ran⟩

/-- A switch away, a wait, and the thread runs the coroutine again. -/
theorem returns_of_swap {caller : Running Id} (sound : caller.Sound layout)
    (met : caller.Respects layout (.swap next back))
    (waits : StepsMeet (step layout coFun) (fun thread event =>
      thread.Respects layout event ∧ thread.Waits caller.now event) (caller.swap next back) events)
    (run : runFrom (step layout coFun) (caller.swap next back) events = some last)
    (again : last.now = caller.now) :
    last.pc = back ∧
    (∀ reg, reg ∉ [Reg.rax, Reg.r10, Reg.r11] →
      last.machine.reg reg = caller.machine.reg reg) ∧
    ∀ address, (layout.stack caller.now).Has address →
      (caller.machine.reg .rsp - (layout.stack caller.now).base).toNat ≤
        (address - (layout.stack caller.now).base).toNat →
      last.machine.mem address = caller.machine.mem address := by
  obtain ⟨actions, alone, ran⟩ := fibers_run_of_waits (sound_swap sound met) waits run
  have same : (last.fibers layout).fiber caller.now =
      Fiber.goOn back ((caller.fibers layout).fiber caller.now) :=
    Fibers.fiber_of_switch_back (fibers_swap sound met) alone ran
  have here : (last.fibers layout).fiber caller.now =
      .running last.machine last.pc (layout.stack caller.now) := by
    rw [← again]
    exact fiber_now last
  have there : (caller.fibers layout).fiber caller.now =
      .running caller.machine caller.pc (layout.stack caller.now) := fiber_now caller
  rw [here, there] at same
  exact Fiber.of_running_eq same

/--
For the code that calls it, `co_swap` is a call that returns: once the thread runs the caller
again, it goes on behind the call, with the registers of the call except `rax`, `r10` and
`r11`, and with the bytes that its stack had, whatever other coroutines have done.
-/
theorem co_swap_returns {start caller left : Running Id} {before : List (Event Id)}
    (initial : start.Initial)
    (respects : StepsMeet (step layout coFun) (Respects layout) start
      (before ++ [.swap next back]))
    (runBefore : runFrom (step layout coFun) start before = some caller)
    (leaves : caller.step layout coFun (.swap next back) = some left)
    (waits : StepsMeet (step layout coFun) (fun thread event =>
      thread.Respects layout event ∧ thread.Waits caller.now event) left events)
    (run : runFrom (step layout coFun) left events = some last)
    (again : last.now = caller.now) :
    last.pc = back ∧
    (∀ reg, reg ∉ [Reg.rax, Reg.r10, Reg.r11] →
      last.machine.reg reg = caller.machine.reg reg) ∧
    ∀ address, (layout.stack caller.now).Has address →
      (caller.machine.reg .rsp - (layout.stack caller.now).base).toNat ≤
        (address - (layout.stack caller.now).base).toNat →
      last.machine.mem address = caller.machine.mem address := by
  have sound : caller.Sound layout :=
    (fibers_run_of_sound initial.sound respects.front runBefore).2
  have met : caller.Respects layout (.swap next back) := by
    have behind := respects.behind runBefore
    simp only [StepsMeet, leaves] at behind
    exact behind.1
  cases leaves
  exact returns_of_swap sound met waits run again

theorem co_swap_returns_pair : (pairBody.swap false 0x5025).pc = 0x4005 := by
  have respects : StepsMeet (step pairLayout 0x5000) (Respects pairLayout) pairStart
      ([.setCallback true true] ++ [.swap true 0x4005]) :=
    ⟨pairGiven_respects, pairSwap_respects, trivial⟩
  have waits : StepsMeet (step pairLayout 0x5000) (fun thread event =>
      thread.Respects pairLayout event ∧ thread.Waits false event) (pairGiven.swap true 0x4005)
      [.work pairBody.machine pairBody.pc, .swap false 0x5025] :=
    ⟨⟨atCall_respects _, by decide, fun _ => nofun⟩,
      ⟨pairBack_respects, by decide, fun _ => nofun⟩, trivial⟩
  exact (co_swap_returns pairStart_initial respects rfl rfl waits rfl rfl).1

/--
A coroutine that has been given a callback begins in `co_fun` with its own address, and with a
stack pointer as calls leave it; whether the return address that `co_fun` sees is on the stack
depends on where `st` is.
-/
theorem co_fun_begins {start giver given : Running Id} {before : List (Event Id)} {id : Id}
    {isFirst : Bool} (initial : start.Initial)
    (respects : StepsMeet (step layout coFun) (Respects layout) start
      (before ++ [.setCallback id isFirst]))
    (runBefore : runFrom (step layout coFun) start before = some giver)
    (gives : giver.step layout coFun (.setCallback id isFirst) = some given)
    (waits : StepsMeet (step layout coFun) (fun thread event =>
      thread.Respects layout event ∧ thread.Waits id event) given events)
    (run : runFrom (step layout coFun) given events = some last) (begins : last.now = id) :
    last.pc = coFun ∧ last.machine.reg .rdi = layout.record id ∧
    (last.machine.reg .rsp).toNat % 16 = 8 ∧
    ((Region.word (last.machine.reg .rsp)).Inside (layout.stack id) ↔
      (layout.stack id).base.toNat % 16 < 8) := by
  have sound : giver.Sound layout :=
    (fibers_run_of_sound initial.sound respects.front runBefore).2
  have met : giver.Respects layout (.setCallback id isFirst) := by
    have behind := respects.behind runBefore
    simp only [StepsMeet, gives] at behind
    exact behind.1
  have soundGiven := (fibers_step sound met gives).2
  obtain ⟨actions, alone, ran⟩ := fibers_run_of_waits soundGiven waits run
  have same := congrArg Fiber.regs (Fibers.fiber_run alone ran)
  cases gives
  subst begins
  have notNow : last.now ≠ (giver.setCallback layout coFun last.now isFirst).now := met.1
  rw [fiber_now, fiber_of_ne notNow, Fiber.running, Fiber.suspended, ofMemory_record met] at same
  have sp : last.machine.reg .rsp = firstStackPointer (layout.stack last.now).base + 8 :=
    congrArg Regs.rsp same
  obtain ⟨-, size, noWrap⟩ := met
  have bounds := firstStackPointer_bounds noWrap
  have aligned := firstStackPointer_aligned (layout.stack last.now).base
  refine ⟨congrArg Regs.ret same, congrArg Regs.rdi same, ?_, ?_⟩
  · rw [sp]
    simp only [stSize] at *
    bv_omega
  · rw [sp, stack_eq size]
    exact word_behind_firstStackPointer_iff noWrap

theorem co_fun_begins_pair : (pairGiven.swap true 0x4005).pc = 0x5000 := by
  have respects : StepsMeet (step pairLayout 0x5000) (Respects pairLayout) pairStart
      ([] ++ [.setCallback true true]) := ⟨pairGiven_respects, trivial⟩
  have waits : StepsMeet (step pairLayout 0x5000) (fun thread event =>
      thread.Respects pairLayout event ∧ thread.Waits true event) pairGiven
      [.swap true 0x4005] := ⟨⟨pairSwap_respects, by decide, fun _ => nofun⟩, trivial⟩
  exact (co_fun_begins pairStart_initial respects rfl rfl waits rfl rfl).1

end Running

end SimpleWebServer.Co
