import Mathlib.Data.Option.Basic

/-!
# Calls as steps, undisturbed

A call works on a shared state in steps, each at a place in its code, and an input that is
different each time may decide what a step does.  While a mutex keeps all others away, what
the call has done so far is the beginning of what it does as a whole.
-/

namespace SimpleWebServer.Lib

variable {Input Shared Place : Type*}

/-- From a place in its code the call takes `shared` to `result`, where it returns. -/
inductive Completes (step : Input → Shared → Place → Option (Shared × Option Place)) :
    Place → Shared → Shared → Prop where
  | last {input : Input} {place : Place} {shared result : Shared}
      (taken : step input shared place = some (result, none)) :
      Completes step place shared result
  | more {input : Input} {place after : Place} {shared next result : Shared}
      (taken : step input shared place = some (next, some after))
      (rest : Completes step after next result) : Completes step place shared result

variable {step : Input → Shared → Place → Option (Shared × Option Place)}

/-- A call that began in `base` is undisturbed where it stands. -/
def Since (step : Input → Shared → Place → Option (Shared × Option Place)) (start : Place)
    (base : Shared) (place : Place) (shared : Shared) : Prop :=
  ∀ result, Completes step place shared result → Completes step start base result

variable {start place after : Place} {base shared next result : Shared} {input : Input}

theorem Since.begin (start : Place) (base : Shared) : Since step start base start base :=
  fun _ completes => completes

theorem Since.more (since : Since step start base place shared)
    (taken : step input shared place = some (next, some after)) :
    Since step start base after next :=
  fun result completes => since result (.more taken completes)

theorem Since.last (since : Since step start base place shared)
    (taken : step input shared place = some (result, none)) :
    Completes step start base result :=
  since result (.last taken)

end SimpleWebServer.Lib
