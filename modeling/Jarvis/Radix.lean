import Jarvis.Bytes
import Mathlib

/-!
# Arithmetic on bytes

The number that bytes are, the most significant one first, digit by digit.
-/

namespace Jarvis.Radix

open Encoding

theorem ofBigEndian_cons (b : UInt8) (l : Bytes) :
    ofBigEndian (b :: l) = b.toNat * 256 ^ l.length + ofBigEndian l := by
  induction l using List.reverseRecOn with
  | nil => simp [ofBigEndian]
  | append_singleton l c ih =>
    rw [← List.cons_append, ofBigEndian_concat, ofBigEndian_concat, ih, List.length_append,
      List.length_singleton, pow_succ]
    ring

theorem ofBigEndian_lt (l : Bytes) : ofBigEndian l < 256 ^ l.length := by
  induction l with
  | nil => simp [ofBigEndian]
  | cons b l ih =>
    have hb := b.toNat_lt
    rw [ofBigEndian_cons, List.length_cons, pow_succ]
    calc b.toNat * 256 ^ l.length + ofBigEndian l
        < b.toNat * 256 ^ l.length + 256 ^ l.length := by omega
      _ = (b.toNat + 1) * 256 ^ l.length := by ring
      _ ≤ 256 * 256 ^ l.length := Nat.mul_le_mul_right _ (by omega)
      _ = 256 ^ l.length * 256 := by ring

variable {a b : Bytes}

theorem ofBigEndian_inj (hlen : a.length = b.length) :
    ofBigEndian a = ofBigEndian b ↔ a = b := by
  refine ⟨fun h => ?_, fun h => h ▸ rfl⟩
  rw [← bigEndian_ofBigEndian (l := a) hlen, h, bigEndian_ofBigEndian rfl]

theorem ofBigEndian_take_succ (hx : a[k]? = some x) :
    ofBigEndian (a.take (k + 1)) = 256 * ofBigEndian (a.take k) + x.toNat := by
  rw [List.take_add_one, hx, Option.toList_some, ofBigEndian_concat]

/-! ### Order -/

/-- Whether a byte string comes before another one. -/
def precedes : Bytes → Bytes → Bool
  | _, [] => false
  | [], _ :: _ => true
  | a :: as, b :: bs => if a < b then true else if b < a then false else precedes as bs

theorem precedes_iff : ∀ {b : Bytes}, a.length = b.length →
    (precedes a b = true ↔ ofBigEndian a < ofBigEndian b) := by
  induction a with
  | nil =>
    intro b hlen
    obtain rfl := List.length_eq_zero_iff.mp hlen.symm
    simp [precedes, ofBigEndian]
  | cons x a ih =>
    intro b hlen
    cases b with
    | nil => simp at hlen
    | cons y b =>
      simp only [List.length_cons, Nat.add_right_cancel_iff] at hlen
      have ha := ofBigEndian_lt a
      have hb := ofBigEndian_lt b
      rw [hlen] at ha
      rw [ofBigEndian_cons, ofBigEndian_cons, precedes, hlen]
      split_ifs with hlt hgt
      · -- The first digit decides.
        have hxy : x.toNat + 1 ≤ y.toNat := UInt8.lt_iff_toNat_lt.mp hlt
        have hmul := Nat.mul_le_mul_right (256 ^ b.length) hxy
        rw [Nat.succ_mul] at hmul
        simp only [true_iff]
        omega
      · have hxy : y.toNat + 1 ≤ x.toNat := UInt8.lt_iff_toNat_lt.mp hgt
        have hmul := Nat.mul_le_mul_right (256 ^ b.length) hxy
        rw [Nat.succ_mul] at hmul
        simp only [false_iff]
        omega
      · have heq : x.toNat = y.toNat := by
          rw [UInt8.lt_iff_toNat_lt] at hlt hgt
          omega
        rw [ih hlen, heq]
        omega

/-! ### Subtraction -/

/-- One column of a subtraction: the digits `x` and `y`, and what was borrowed from the column
before, give the digit `d` and what is borrowed from the next. -/
structure Borrow (x y : UInt8) (borrow : ℤ) (d : UInt8) (borrow' : ℤ) : Prop where
  value : (d.toNat : ℤ) = x.toNat - y.toNat - borrow + 256 * borrow'
  bit : borrow' = 0 ∨ borrow' = 1

/-- **Columns add up.** With the digits `ds` behind it and `b` borrowed, a column goes in front of
them; the rest of the numbers, to its left, is still to be subtracted. -/
theorem Borrow.shift (hx : a[k]? = some x) (hy : b[k]? = some y) (h : Borrow x y borrow d borrow')
    (hrest : result = (ofBigEndian (a.take k) - ofBigEndian (b.take k) - borrow') * 256 ^
      (d :: ds).length + ofBigEndian (d :: ds) + last) :
    result = (ofBigEndian (a.take (k + 1)) - ofBigEndian (b.take (k + 1)) - borrow) *
      256 ^ ds.length + ofBigEndian ds + last := by
  rw [hrest, ofBigEndian_take_succ hx, ofBigEndian_take_succ hy, ofBigEndian_cons, List.length_cons]
  push_cast
  rw [h.value]
  ring

end Jarvis.Radix
