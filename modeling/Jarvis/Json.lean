import Mathlib.Tactic.Common

/-!
# JSON documents

The values that `json` and `jsonb` columns hold, as trees, with the two habits of the encoders used
here: a field with its zero value is left out (`Json.field`), and a reader takes a missing field,
or one that is `null`, for its zero value (`Json.strField`). Numbers keep their text.
-/

namespace Jarvis

/-- A JSON document. -/
inductive Json where
  /-- `null` -/
  | null
  /-- `true` and `false` -/
  | bool (b : Bool)
  /-- A number, by its text. -/
  | num (text : String)
  /-- A string. -/
  | str (s : String)
  /-- An array. -/
  | arr (xs : List Json)
  /-- An object: its members, in order. -/
  | obj (kvs : List (String × Json))

namespace Json

/-- The members an encoder writes for a string field: none when it is empty. -/
def field (key s : String) : List (String × Json) := if s = "" then [] else [(key, .str s)]

/-- A string field of an object, as a decoder reads it; `none` if it has another type. -/
def strField (kvs : List (String × Json)) (key : String) : Option String :=
  match kvs.lookup key with
  | none => some ""
  | some .null => some ""
  | some (.str s) => some s
  | some _ => none

/-- An array of strings, as a decoder reads it. -/
def strings : List Json → Option (List String)
  | [] => some []
  | .str s :: xs => (strings xs).map (s :: ·)
  | _ :: _ => none

/-- The members an encoder writes for a record of string fields. -/
def record : List (String × String) → List (String × Json)
  | [] => []
  | f :: fs => field f.1 f.2 ++ record fs

variable {key s : String} {fs : List (String × String)}

/-- Looking past a field with another key. -/
theorem lookup_field_of_ne (h : key ≠ k) (rest : List (String × Json)) :
    (field k s ++ rest).lookup key = rest.lookup key := by
  have hk : (key == k) = false := by simpa using h
  unfold field
  split_ifs with hs
  · rfl
  · simp [List.lookup_cons, hk]

/-- A key that is not among the fields is found after them, if anywhere. -/
theorem lookup_record (h : key ∉ fs.map Prod.fst) (rest : List (String × Json)) :
    (record fs ++ rest).lookup key = rest.lookup key := by
  induction fs with
  | nil => rfl
  | cons f fs ih =>
    simp only [List.map_cons, List.mem_cons, not_or] at h
    rw [record, List.append_assoc, lookup_field_of_ne h.1, ih h.2]

/-- **A field that was written is read back**, if nothing after the record has its key. -/
theorem strField_record (rest : List (String × Json)) (hn : (fs.map Prod.fst).Nodup)
    (hm : (key, s) ∈ fs) (hr : rest.lookup key = none) :
    strField (record fs ++ rest) key = some s := by
  induction fs with
  | nil => cases hm
  | cons f fs ih =>
    rw [List.map_cons, List.nodup_cons] at hn
    rw [record, List.append_assoc]
    rcases List.mem_cons.mp hm with rfl | hm
    · have hl := (lookup_record hn.1 rest).trans hr
      unfold strField field
      split_ifs with hs
      · simp only [List.nil_append, hl, show s = "" from hs]
      · simp
    · have hne : key ≠ f.1 := by
        rintro rfl
        exact hn.1 (List.mem_map.mpr ⟨_, hm, rfl⟩)
      unfold strField at ih ⊢
      rw [lookup_field_of_ne hne]
      exact ih hn.2 hm

/-- A field that was written is read back. -/
theorem strField_record' (hn : (fs.map Prod.fst).Nodup) (hm : (key, s) ∈ fs) :
    strField (record fs) key = some s := by
  simpa using strField_record [] hn hm rfl

end Json

/-- Decoding undoes encoding for a whole list if it does for each element. -/
theorem mapM_map_eq_some {α β : Type} {enc : α → β} {dec : β → Option α}
    (h : ∀ x, dec (enc x) = some x) (xs : List α) : (xs.map enc).mapM dec = some xs := by
  induction xs with
  | nil => rfl
  | cons x xs ih => simp [List.mapM_cons, h, ih]

end Jarvis
