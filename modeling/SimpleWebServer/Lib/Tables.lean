import Mathlib.Logic.Function.Basic

/-!
# Tables

A table gives a value to some of its keys, and `Function.update` adds or removes an entry.
The rules say where an entry of the new table comes from.
-/

namespace SimpleWebServer.Lib.Table

variable {Key Value : Type*} [DecidableEq Key] {table : Key → Option Value} {key other : Key}
  {value found : Value}

/-- An entry behind an addition is the new one, or one that was there under another key. -/
theorem of_update_some (has : Function.update table key (some value) other = some found) :
    other = key ∧ found = value ∨ other ≠ key ∧ table other = some found := by
  by_cases same : other = key
  · rw [same, Function.update_self] at has
    exact Or.inl ⟨same, (Option.some.inj has).symm⟩
  · rw [Function.update_of_ne same] at has
    exact Or.inr ⟨same, has⟩

/-- An entry behind a removal was there under another key. -/
theorem of_update_none (has : Function.update table key none other = some found) :
    other ≠ key ∧ table other = some found := by
  by_cases same : other = key
  · rw [same, Function.update_self] at has
    cases has
  · rw [Function.update_of_ne same] at has
    exact ⟨same, has⟩

/-- What holds of every entry holds of them behind an addition. -/
theorem forall_update_some {P : Key → Value → Prop}
    (all : ∀ other found, table other = some found → P other found) (new : P key value)
    (other : Key) (found : Value)
    (has : Function.update table key (some value) other = some found) : P other found := by
  rcases of_update_some has with ⟨rfl, rfl⟩ | ⟨-, had⟩
  · exact new
  · exact all other found had

/-- What holds of every entry holds of those that a removal leaves. -/
theorem forall_update_none {P : Key → Value → Prop}
    (all : ∀ other found, table other = some found → P other found) (other : Key)
    (found : Value) (has : Function.update table key none other = some found) : P other found :=
  all other found (of_update_none has).2

end SimpleWebServer.Lib.Table
