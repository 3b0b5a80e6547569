import Jarvis.Table
import Mathlib.Data.Finset.Card

/-!
# Rows that are kept by their supporters

Each row of a table lists who supports it. A row is merged (`mergeRow`): a supporter is added, and
the row is made if it is missing.
-/

namespace Jarvis.Support

variable {α κ σ : Type} [DecidableEq κ] [DecidableEq σ]

variable {key : α → κ} {names : α → List σ} {supp supp' : κ → σ → Prop} {rows : List α}

/-! ### A supporter is added -/

/-- The row with a key is changed by `f`, or `x` is inserted. -/
def mergeRow (key : α → κ) (k : κ) (f : α → α) (x : α) (rows : List α) : List α :=
  if (Table.row key k rows).isSome then Table.set (fun y => key y = k) f rows else
    Table.insert x rows

variable {f : α → α}

theorem row_mergeRow (hf : ∀ y, key (f y) = key y) (hx : key x = k) :
    Table.row key k' (mergeRow key k f x rows) =
      if k = k' then some ((Table.row key k rows).elim x f) else Table.row key k' rows := by
  unfold mergeRow
  split_ifs with hrow hk hk
  · obtain ⟨y, hy⟩ := Option.isSome_iff_exists.mp hrow
    rw [Table.row_set hf, ← hk, hy, Option.map_some, if_pos (decide_eq_true (Table.row_key hy))]
    rfl
  · rw [Table.row_set hf]
    cases hy : Table.row key k' rows with
    | none => rfl
    | some y =>
      rw [Option.map_some, if_neg fun h => hk ((of_decide_eq_true h).symm.trans (Table.row_key hy))]
  · rw [Table.row_insert, hx, if_pos hk, ← hk,
      Option.not_isSome_iff_eq_none.mp hrow, Option.none_or]
    rfl
  · rw [Table.row_insert, hx, if_neg hk, Option.or_none]

theorem keyed_mergeRow (hf : ∀ y, key (f y) = key y) (hx : key x = k) (h : Table.Keyed key rows) :
    Table.Keyed key (mergeRow key k f x rows) := by
  unfold mergeRow
  split_ifs with hrow
  · exact h.set hf
  · exact h.insert (hx.symm ▸ Option.not_isSome_iff_eq_none.mp hrow)

end Jarvis.Support
