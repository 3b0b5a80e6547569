import Jarvis.Radix

/-!
# The iOS app: low-S signatures

An ECDSA signature `(r, s)` over P-256 is as good as `(r, n - s)`; the app sends the one with the
smaller second half. Source: `P256Signature` in
`apps/ios/JarvisKit/Sources/JarvisKit/Approvals/ApprovalRequest.swift`. An index out of range and a
digit that is no byte are traps, and end the app (`none`).
-/

namespace Jarvis.Ios

open Encoding Radix

/-- Source: `ApprovalError` -/
inductive ApprovalError where
  | malformedPayload
  | expired
  deriving DecidableEq, Repr

namespace P256Signature

/-! ### Source -/

/-- The group order of P-256. Source: `order` -/
def order : Bytes :=
  [0xFF, 0xFF, 0xFF, 0xFF, 0x00, 0x00, 0x00, 0x00, 0xFF, 0xFF, 0xFF, 0xFF, 0xFF, 0xFF, 0xFF, 0xFF,
    0xBC, 0xE6, 0xFA, 0xAD, 0xA7, 0x17, 0x9E, 0x84, 0xF3, 0xB9, 0xCA, 0xC2, 0xFC, 0x63, 0x25, 0x51]

/-- Source: `halfOrder` -/
def halfOrder : Bytes :=
  [0x7F, 0xFF, 0xFF, 0xFF, 0x80, 0x00, 0x00, 0x00, 0x7F, 0xFF, 0xFF, 0xFF, 0xFF, 0xFF, 0xFF, 0xFF,
    0xDE, 0x73, 0x7D, 0x56, 0xD3, 0x8B, 0xCF, 0x42, 0x79, 0xDC, 0xE5, 0x61, 0x7E, 0x31, 0x92, 0xA8]

/-- `UInt8(digit)` -/
def byte (digit : ℤ) : Option UInt8 :=
  if 0 ≤ digit ∧ digit ≤ 255 then some (UInt8.ofNat digit.toNat) else none

/-- Source: `subtract` (the body of the loop): `result` and `borrow` after the index `i` -/
def subtractAt (a b : Bytes) (state : Bytes × ℤ) (i : ℕ) : Option (Bytes × ℤ) := do
  let x ← a[i]?
  let y ← b[i]?
  let digit : ℤ := x.toNat - y.toNat - state.2
  let borrow : ℤ := if digit < 0 then 1 else 0
  let d ← byte (if digit < 0 then digit + 256 else digit)
  pure (state.1.set i d, borrow)

/-- Source: `subtract` -/
def subtract (a b : Bytes) : Option Bytes :=
  ((List.range 32).reverse.foldlM (subtractAt a b) (List.replicate 32 0, 0)).map Prod.fst

/-- Source: `lowS` -/
def lowS (raw : Bytes) : Option (Except ApprovalError Bytes) :=
  if raw.length = 64 then
    let r := raw.take 32
    let s := raw.drop (raw.length - 32)
    if precedes s halfOrder || s == halfOrder then some (.ok raw)
    else (subtract order s).map fun low => .ok (r ++ low)
  else some (.error .malformedPayload)

/-! ### Subtraction -/

variable {a b r s : Bytes}

/-- One turn of the loop writes one column. -/
theorem subtractAt_eq (hx : a[k]? = some x) (hy : b[k]? = some y) (ds : Bytes)
    (hbit : borrow = 0 ∨ borrow = 1) :
    ∃ d borrow', Borrow x y borrow d borrow' ∧
      subtractAt a b (List.replicate (k + 1) 0 ++ ds, borrow) k =
        some (List.replicate k 0 ++ d :: ds, borrow') := by
  have hxlt := x.toNat_lt
  have hylt := y.toNat_lt
  have hset (d : UInt8) :
      (List.replicate (k + 1) 0 ++ ds).set k d = List.replicate k 0 ++ d :: ds := by
    rw [List.replicate_succ', List.append_assoc, List.set_append_right _ _ (by simp)]
    simp
  -- The digit is a byte, whether or not something was borrowed for it.
  set digit : ℤ := x.toNat - y.toNat - borrow with hdigit
  set shown : ℤ := if digit < 0 then digit + 256 else digit with hshown
  have hrange : 0 ≤ shown ∧ shown ≤ 255 := by
    split_ifs at hshown <;> omega
  refine ⟨UInt8.ofNat shown.toNat, if digit < 0 then 1 else 0, ⟨?_, ?_⟩, ?_⟩
  · rw [UInt8.toNat_ofNat', Nat.mod_eq_of_lt (by omega), Int.toNat_of_nonneg hrange.1]
    split_ifs at hshown ⊢ <;> omega
  · split_ifs <;> simp
  · simp only [subtractAt, hx, hy, Option.bind_eq_bind, Option.bind_some, ← hdigit, ← hshown, byte,
      if_pos hrange, hset, Option.pure_def]

/-- The loop from the index `k - 1` down to 0. -/
theorem subtract_loop (ha : k ≤ a.length) (hb : k ≤ b.length) :
    ∀ (ds : Bytes) {borrow : ℤ}, borrow = 0 ∨ borrow = 1 →
      ∃ result borrow', (List.range k).reverse.foldlM (subtractAt a b)
          (List.replicate k 0 ++ ds, borrow) = some (result, borrow') ∧
        result.length = k + ds.length ∧ (borrow' = 0 ∨ borrow' = 1) ∧
        (ofBigEndian result : ℤ) =
          (ofBigEndian (a.take k) - ofBigEndian (b.take k) - borrow) * 256 ^ ds.length +
            ofBigEndian ds + borrow' * 256 ^ (k + ds.length) := by
  induction k with
  | zero =>
    intro ds borrow hbit
    refine ⟨ds, borrow, rfl, by simp, hbit, ?_⟩
    simp [ofBigEndian]
  | succ k ih =>
    intro ds borrow hbit
    obtain ⟨x, hx⟩ : ∃ x, a[k]? = some x := ⟨_, List.getElem?_eq_getElem ha⟩
    obtain ⟨y, hy⟩ : ∃ y, b[k]? = some y := ⟨_, List.getElem?_eq_getElem hb⟩
    obtain ⟨d, borrow₁, hcol, hturn⟩ := subtractAt_eq hx hy ds hbit
    obtain ⟨result, borrow', hloop, hlen, hbit', hval⟩ :=
      ih (by omega) (by omega) (d :: ds) hcol.bit
    refine ⟨result, borrow', ?_, ?_, hbit', ?_⟩
    · rw [List.range_succ, List.reverse_append, List.reverse_singleton, List.singleton_append,
        List.foldlM_cons, hturn]
      exact hloop
    · rw [hlen, List.length_cons]
      omega
    · rw [hcol.shift hx hy hval, List.length_cons]
      congr 3
      omega

/-- **`subtract` is subtraction** of numbers of 256 bits. -/
theorem subtract_eq (ha : a.length = 32) (hb : b.length = 32)
    (hle : ofBigEndian b ≤ ofBigEndian a) :
    subtract a b = some (bigEndian 32 (ofBigEndian a - ofBigEndian b)) := by
  obtain ⟨result, borrow, hloop, hlen, hbit, hval⟩ :=
    @subtract_loop a b 32 ha.ge hb.ge [] 0 (.inl rfl)
  rw [List.take_of_length_le ha.le, List.take_of_length_le hb.le] at hval
  have hlt := ofBigEndian_lt result
  rw [hlen] at hlt
  have hnil : ofBigEndian [] = 0 := rfl
  simp only [List.length_nil, pow_zero, mul_one, hnil, add_zero, sub_zero,
    Nat.cast_zero] at hval hlt hlen
  have hdiff : ofBigEndian result = ofBigEndian a - ofBigEndian b := by
    rcases hbit with rfl | rfl <;> omega
  rw [subtract, ← List.append_nil (List.replicate 32 0), hloop, Option.map_some, ← hdiff,
    bigEndian_ofBigEndian hlen]

/-! ### Normalization -/

/-- The order is odd, and `halfOrder` is half of it. -/
theorem order_eq : ofBigEndian order = 2 * ofBigEndian halfOrder + 1 := by decide +kernel

/-- The bytes of `order` are those of the number. -/
theorem ofBigEndian_order : ofBigEndian order =
    0xFFFFFFFF00000000FFFFFFFFFFFFFFFFBCE6FAADA7179E84F3B9CAC2FC632551 := by decide +kernel

theorem order_lt : ofBigEndian order < 256 ^ 32 := by
  rw [ofBigEndian_order]
  decide

/-- The number of the two that is at most half the order. -/
def low (s : ℕ) : ℕ := min s (ofBigEndian order - s)

theorem low_le (s : ℕ) : low s ≤ ofBigEndian order / 2 := by
  have horder := order_eq
  unfold low
  omega

theorem low_low (s : ℕ) (hs : s < ofBigEndian order) : low (low s) = low s := by
  unfold low
  omega

theorem low_sub (s : ℕ) (hs : s < ofBigEndian order) : low (ofBigEndian order - s) = low s := by
  unfold low
  omega

/-- What `lowS` makes of the second half. -/
theorem lowS_append (hr : r.length = 32) (hs : s.length = 32)
    (hlt : ofBigEndian s < ofBigEndian order) :
    lowS (r ++ s) = some (.ok (r ++ bigEndian 32 (low (ofBigEndian s)))) := by
  have hlen : (r ++ s).length = 64 := by rw [List.length_append, hr, hs]
  have htake : (r ++ s).take 32 = r := List.take_left' hr
  have hdrop : (r ++ s).drop ((r ++ s).length - 32) = s := by
    rw [hlen]
    exact List.drop_left' hr
  have horder := order_eq
  have hhalf : (precedes s halfOrder || s == halfOrder) = true ↔
      ofBigEndian s ≤ ofBigEndian halfOrder := by
    rw [Bool.or_eq_true, precedes_iff hs, beq_iff_eq, ← ofBigEndian_inj hs, le_iff_lt_or_eq]
  simp only [lowS, if_pos hlen, htake, hdrop]
  by_cases hle : ofBigEndian s ≤ ofBigEndian halfOrder
  · have hlow : low (ofBigEndian s) = ofBigEndian s := by
      unfold low
      omega
    rw [if_pos (hhalf.mpr hle), hlow, bigEndian_ofBigEndian hs]
  · have hlow : low (ofBigEndian s) = ofBigEndian order - ofBigEndian s := by
      unfold low
      omega
    rw [if_neg (mt hhalf.mp hle), subtract_eq rfl hs hlt.le, hlow, Option.map_some]

theorem lowS_bigEndian {s : ℕ} (hr : r.length = 32) (hlt : s < ofBigEndian order) :
    lowS (r ++ bigEndian 32 s) = some (.ok (r ++ bigEndian 32 (low s))) := by
  have hval : ofBigEndian (bigEndian 32 s) = s := ofBigEndian_bigEndian (hlt.trans order_lt)
  rw [lowS_append hr (length_bigEndian 32 s) (by rwa [hval]), hval]

/-- **Low-S normalization.** Of a signature with `0 < s < n`, `lowS` keeps the first half and
returns the smaller of `s` and `n - s` behind it: at most half of `n`, and one of the two. Doing it
again changes nothing, and `n - s` in place of `s` gives the same. And `subtract` is exact. -/
theorem lowS_normalizes (hr : r.length = 32) (hs : s.length = 32) (hpos : 0 < ofBigEndian s)
    (hlt : ofBigEndian s < ofBigEndian order) :
    (∃ v, v = min (ofBigEndian s) (ofBigEndian order - ofBigEndian s) ∧
      lowS (r ++ s) = some (.ok (r ++ bigEndian 32 v)) ∧
      ofBigEndian (bigEndian 32 v) = v ∧ v ≤ ofBigEndian order / 2 ∧
      (v = ofBigEndian s ∨ v = ofBigEndian order - ofBigEndian s) ∧
      lowS (r ++ bigEndian 32 v) = some (.ok (r ++ bigEndian 32 v)) ∧
      lowS (r ++ bigEndian 32 (ofBigEndian order - ofBigEndian s)) =
        some (.ok (r ++ bigEndian 32 v))) ∧
    ∀ a b : Bytes, a.length = 32 → b.length = 32 → ofBigEndian b ≤ ofBigEndian a →
      subtract a b = some (bigEndian 32 (ofBigEndian a - ofBigEndian b)) := by
  have hle := low_le (ofBigEndian s)
  have hlow : low (ofBigEndian s) < ofBigEndian order := lt_of_le_of_lt (min_le_left _ _) hlt
  refine ⟨⟨low (ofBigEndian s), rfl, lowS_append hr hs hlt,
    ofBigEndian_bigEndian (hlow.trans order_lt), hle, min_choice _ _, ?_, ?_⟩, ?_⟩
  · rw [lowS_bigEndian hr hlow, low_low _ hlt]
  · rw [lowS_bigEndian hr (Nat.sub_lt (hpos.trans hlt) hpos), low_sub _ hlt]
  · exact fun a b ha hb hle => subtract_eq ha hb hle

/-- `n - 1` becomes 1. -/
theorem lowS_normalizes_last :
    lowS (List.replicate 32 7 ++ bigEndian 32 (ofBigEndian order - 1)) =
      some (.ok (List.replicate 32 7 ++ bigEndian 32 1)) := by
  obtain ⟨⟨v, hv, h, -⟩, -⟩ := @lowS_normalizes (List.replicate 32 7)
    (bigEndian 32 (ofBigEndian order - 1)) rfl (length_bigEndian 32 _) (by decide +kernel)
    (by decide +kernel)
  have hone : v = 1 := by
    rw [hv]
    decide +kernel
  rwa [hone] at h

end P256Signature

end Jarvis.Ios
