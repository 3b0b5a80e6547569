import Mathlib.Algebra.Order.Ring.Rat

/-!
# Floating-point numbers

The numbers that a float can be: a rational, an infinity, or no number at all. Comparisons with
`nan` are false, and `max` and `min` are those of Python, which go from left to right. Arithmetic
rounds, and is a parameter (`Rounding`).
-/

namespace Jarvis

/-- A float. -/
inductive Flt where
  | nan
  | negInf
  | fin (q : ℚ)
  | posInf
  deriving DecidableEq

namespace Flt

/-- `<=` -/
def le : Flt → Flt → Bool
  | nan, _ => false
  | _, nan => false
  | negInf, _ => true
  | _, posInf => true
  | fin p, fin q => p ≤ q
  | _, _ => false

/-- `<` -/
def lt (x y : Flt) : Bool := x.le y && !y.le x

/-- `max(x, y)` -/
def max (x y : Flt) : Flt := if x.lt y then y else x

/-- A weight between 0 and 1. -/
def inUnit (x : Flt) : Bool := (fin 0).le x && x.le (fin 1)

/-! ### Order -/

variable {x y z : Flt}

theorem le_trans' (h : x.le y = true) (h' : y.le z = true) : x.le z = true := by
  cases x <;> cases y <;> cases z <;> simp_all [Flt.le]
  exact h.trans h'

theorem le_total' (hx : x ≠ .nan) (hy : y ≠ .nan) : x.le y = true ∨ y.le x = true := by
  cases x <;> cases y <;> simp_all [Flt.le]
  exact le_total _ _

/-- In descending order, with what is no number at the end. -/
def descends (x y : Flt) : Bool := y = .nan || y.le x

theorem descends_trans (h : descends x y = true) (h' : descends y z = true) :
    descends x z = true := by
  unfold descends at *
  by_cases hz : z = .nan
  · simp [hz]
  · have hzy : z.le y = true := by simpa [hz] using h'
    have hy : y ≠ .nan := by
      rintro rfl
      cases z <;> simp [Flt.le] at hzy
    have hyx : y.le x = true := by simpa [hy] using h
    simp [le_trans' hzy hyx]

theorem descends_total (x y : Flt) : (descends x y || descends y x) = true := by
  unfold descends
  by_cases hx : x = .nan
  · simp [hx]
  · by_cases hy : y = .nan
    · simp [hy]
    · rcases le_total' hx hy with h | h <;> simp [h]

theorem not_lt (hx : x ≠ .nan) (hy : y ≠ .nan) : (!x.lt y) = descends x y := by
  unfold descends Flt.lt
  rcases le_total' hx hy with h | h <;> simp [h, hy]

end Flt

/-- Arithmetic on floats, with its rounding. -/
structure Rounding where
  add : Flt → Flt → Flt
  sub : Flt → Flt → Flt
  mul : Flt → Flt → Flt
  /-- Rounding to single precision. -/
  single : Flt → Flt

end Jarvis
