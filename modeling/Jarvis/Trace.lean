import Mathlib.Data.List.Count
import Mathlib.Data.List.Infix

/-!
# What has happened, in order

A trace is a list of events, the last one first, so that what came before an event is the rest of
the list.
-/

namespace Jarvis.Trace

variable {E : Type*}

/-- Every event is as it should be, given what came before it. -/
def Each (P : List E → E → Prop) : List E → Prop
  | [] => True
  | e :: trace => P trace e ∧ Each P trace

theorem Each.at {P : List E → E → Prop} (h : Each P (later ++ e :: earlier)) : P earlier e := by
  induction later with
  | nil => exact h.1
  | cons _ later ih => exact ih h.2

end Jarvis.Trace
