import Mathlib.Tactic.SplitIfs

/-!
# Code that may fail

Code that goes on only if what came before succeeded. It succeeds when every part of it does.
-/

namespace Jarvis

universe u v

variable {ε : Type u} {α β : Type v}

/-- A value that may be missing; the error if it is. -/
def okOr (e : ε) : Option α → Except ε α
  | some a => .ok a
  | none => .error e

/-- A check, and the error if it fails. -/
def ensure (c : Prop) [Decidable c] (e : ε) : Except ε PUnit := if c then .ok ⟨⟩ else .error e

variable {e : ε} {c : Prop} {x : Except ε α}

@[simp] theorem okOr_eq_ok : okOr e o = .ok a ↔ o = some a := by
  cases o <;> simp [okOr]

@[simp] theorem ensure_eq_ok [Decidable c] : ensure c e = .ok u ↔ c := by
  unfold ensure
  split_ifs with h <;> simp [h]

theorem ensure_of [Decidable c] (h : c) : ensure c e = .ok ⟨⟩ := if_pos h

theorem ok_bind (a : α) (f : α → Except ε β) : (Except.ok a >>= f) = f a := rfl

theorem bind_eq_ok {f : α → Except ε β} :
    x >>= f = .ok b ↔ ∃ a, x = .ok a ∧ f a = .ok b := by
  cases x with
  | error | ok => simp [bind, Except.bind]

theorem ensure_bind_eq_ok [Decidable c] {f : PUnit → Except ε β} :
    ensure c e >>= f = .ok b ↔ c ∧ f ⟨⟩ = .ok b := by
  unfold ensure
  split_ifs with h
  · simp [h, bind, Except.bind]
  · simp [h, bind, Except.bind]

theorem mapError_eq_ok {ε' : Type u} {f : ε → ε'} :
    x.mapError f = .ok a ↔ x = .ok a := by
  cases x <;> simp [Except.mapError]

/-- The code succeeds. -/
def Succeeds (x : Except ε α) : Prop := ∃ a, x = .ok a

end Jarvis
