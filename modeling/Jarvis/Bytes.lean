import Jarvis.Encoding
import Mathlib.Data.String.Basic

/-!
# Bytes and texts

Byte strings, arrays of a fixed length, and texts as the bytes of their UTF-8 form.
-/

namespace Jarvis

abbrev Bytes := List UInt8

/-- An array of `n` bytes. -/
abbrev Fixed (n : ℕ) := { l : Bytes // l.length = n }

/-- The bytes of a text. -/
def utf8 (s : String) : Bytes := s.toUTF8.data.toList

/-- The text that bytes are. -/
def fromUtf8 (l : Bytes) : Option String := String.fromUTF8? ⟨l.toArray⟩

/-- A hexadecimal digit. -/
def hexDigit (n : ℕ) : Char := "0123456789abcdef".toList.getD n '0'

/-- Bytes in hexadecimal. -/
def hex (l : Bytes) : String :=
  l.foldl (fun out b => (out.push (hexDigit (b.toNat / 16))).push (hexDigit (b.toNat % 16))) ""

theorem utf8_injective : Function.Injective utf8 := by
  intro s t h
  have hdata : s.toByteArray.data = t.toByteArray.data := Array.toList_inj.mp h
  exact String.toByteArray_inj.mp (ByteArray.ext hdata)

theorem fromUtf8_utf8 (s : String) : fromUtf8 (utf8 s) = some s := by
  unfold fromUtf8 utf8 String.fromUTF8?
  exact dif_pos s.isValidUTF8

variable {s : String}

theorem utf8_of_fromUtf8 (h : fromUtf8 l = some s) : utf8 s = l := by
  unfold fromUtf8 String.fromUTF8? at h
  split_ifs at h
  rw [← Option.some.inj h]
  exact List.toList_toArray

theorem utf8_eq_flatMap (s : String) : utf8 s = s.toList.flatMap String.utf8EncodeChar := by
  unfold utf8
  rw [String.toUTF8_eq_toByteArray, ← String.utf8Encode_toList, List.utf8Encode]
  exact List.toList_data_toByteArray

/-! ### The size of a text -/

theorem length_le_utf8Len (cs : List Char) : cs.length ≤ String.utf8Len cs := by
  induction cs with
  | nil => exact le_rfl
  | cons c cs ih =>
    rw [List.length_cons, String.utf8Len_cons]
    exact Nat.add_le_add ih c.utf8Size_pos

theorem length_le_utf8ByteSize (s : String) : s.length ≤ s.utf8ByteSize := by
  rw [← String.length_toList, ← String.utf8Len_toList]
  exact length_le_utf8Len _

theorem utf8Size_ascii (h : c ≤ '\x7f') : c.utf8Size = 1 :=
  Char.utf8Size_eq_one_iff.mpr h

theorem utf8Len_ascii (h : ∀ c ∈ cs, c ≤ '\x7f') : String.utf8Len cs = cs.length := by
  induction cs with
  | nil => rfl
  | cons c cs ih =>
    obtain ⟨hc, hcs⟩ := List.forall_mem_cons.mp h
    rw [String.utf8Len_cons, ih hcs, utf8Size_ascii hc, List.length_cons]

theorem utf8ByteSize_ascii (h : ∀ c ∈ s.toList, c ≤ '\x7f') : s.utf8ByteSize = s.length := by
  rw [← String.utf8Len_toList, utf8Len_ascii h, String.length_toList]

/-! ### Numbers as decimal texts -/

theorem natRepr_injective : Function.Injective Nat.repr := by
  intro a b h
  have hdigits : Nat.toDigits 10 a = Nat.toDigits 10 b := by
    rw [← Nat.toList_repr, ← Nat.toList_repr, h]
  have hval := congrArg (fun l => Nat.ofDigitChars 10 l 0) hdigits
  simpa only [Nat.ofDigitChars_toDigits (show 1 < 10 by decide) le_rfl] using hval

/-- A number without a sign has no `-`. -/
theorem natRepr_ne_neg (a b : ℕ) : a.repr ≠ "-" ++ b.repr := by
  intro h
  have hmem : '-' ∈ a.repr.toList := by
    rw [h, String.toList_append]
    exact List.mem_cons_self
  rw [Nat.toList_repr] at hmem
  exact absurd (Nat.isDigit_of_mem_toDigits (by decide) le_rfl hmem) (by decide)

theorem intRepr_injective : Function.Injective Int.repr := by
  intro a b h
  cases a with
  | ofNat a =>
    cases b with
    | ofNat b => exact congrArg Int.ofNat (natRepr_injective h)
    | negSucc b => exact (natRepr_ne_neg _ _ h).elim
  | negSucc a =>
    cases b with
    | ofNat b => exact (natRepr_ne_neg _ _ h.symm).elim
    | negSucc b =>
      have hs : (a + 1).repr = (b + 1).repr := String.append_right_inj _ |>.mp h
      exact congrArg Int.negSucc (Nat.succ.inj (natRepr_injective hs))

end Jarvis
