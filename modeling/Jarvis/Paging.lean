import Jarvis.Table

/-!
# Reading a table page by page

A query that gives the rows past a cursor, in the order of a unique value, and no more than so many;
the value of the last row is the next cursor. Each page begins where the one before it ended.
-/

namespace Jarvis.Table

variable {α : Type} {value : α → ℤ} {rows : List α}

theorem orderBy_perm (value : α → ℤ) (rows : List α) : (orderBy value rows).Perm rows :=
  List.perm_insertionSort _ _

/-- A unique value orders the rows strictly. -/
theorem Keyed.pairwise_orderBy (h : Keyed value rows) :
    (orderBy value rows).Pairwise fun x y => value x < value y := by
  have hle : (orderBy value rows).Pairwise fun x y => value x ≤ value y :=
    List.pairwise_insertionSort (fun x y => value x ≤ value y) rows
  have hne : (orderBy value rows).Pairwise fun x y => value x ≠ value y :=
    List.pairwise_map.mp (((orderBy_perm value rows).map value).nodup_iff.mpr h)
  exact (hle.and hne).imp fun h => lt_of_le_of_ne h.1 h.2

/-- Rows in the order of a unique value are determined by what they are. -/
theorem eq_of_perm_of_pairwise {xs ys : List α} (hp : xs.Perm ys)
    (hx : xs.Pairwise fun x y => value x < value y)
    (hy : ys.Pairwise fun x y => value x < value y) : xs = ys := by
  refine hp.eq_of_pairwise (fun a b _ _ hab hba => ?_) hx hy
  exact absurd (hab.trans hba) (lt_irrefl _)

theorem orderBy_of_pairwise (h : rows.Pairwise fun x y => value x < value y) :
    orderBy value rows = rows := by
  refine eq_of_perm_of_pairwise (orderBy_perm value rows) (Keyed.pairwise_orderBy ?_) h
  exact List.pairwise_map.mpr (h.imp ne_of_lt)

/-- To select and then to order is to order and then to select. -/
theorem Keyed.orderBy_filter (p : α → Bool) (h : Keyed value rows) :
    orderBy value (rows.filter p) = (orderBy value rows).filter p := by
  refine @eq_of_perm_of_pairwise _ value _ _ ?_ ?_ (h.pairwise_orderBy.sublist List.filter_sublist)
  · exact (orderBy_perm value _).trans ((orderBy_perm value rows).filter p).symm
  · exact Keyed.pairwise_orderBy (h.sublist (List.filter_sublist.map value))

/-- The rows up to a value, and those past it. -/
theorem filter_le_append_filter_lt {xs : List α} (h : xs.Pairwise fun x y => value x < value y)
    (a : ℤ) : (xs.filter fun x => value x ≤ a) ++ (xs.filter fun x => a < value x) = xs := by
  induction xs with
  | nil => rfl
  | cons x xs ih =>
    obtain ⟨hx, hxs⟩ := List.pairwise_cons.mp h
    by_cases hle : value x ≤ a
    · rw [List.filter_cons_of_pos (by simpa using hle),
        List.filter_cons_of_neg (by simpa using hle), List.cons_append, ih hxs]
    · have hnone : (xs.filter fun y => value y ≤ a) = [] :=
        List.filter_eq_nil_iff.mpr fun y hy => by simpa using lt_trans (not_le.mp hle) (hx y hy)
      rw [List.filter_cons_of_neg (by simpa using hle), hnone, List.nil_append,
        List.filter_eq_self.mpr]
      intro y hy
      rcases List.mem_cons.mp hy with rfl | hy
      · simpa using hle
      · simpa using lt_trans (not_le.mp hle) (hx y hy)

/-- What is past the last row of a page is the rest. -/
theorem filter_past_page {xs page rest : List α} (hxs : xs.Pairwise fun x y => value x < value y)
    (h : (xs.filter fun y => a < value y) = page ++ x :: rest) :
    (xs.filter fun y => value x < value y) = rest := by
  have hpair := hxs.sublist (List.filter_sublist (p := fun y => decide (a < value y)))
  rw [h, List.pairwise_append, List.pairwise_cons] at hpair
  obtain ⟨-, ⟨hrest, -⟩, hpage⟩ := hpair
  have hax : a < value x := by
    have hx : x ∈ xs.filter fun y => a < value y := by simp [h]
    simpa using (List.mem_filter.mp hx).2
  calc (xs.filter fun y => value x < value y)
      = (xs.filter fun y => a < value y).filter fun y => value x < value y := by
        rw [List.filter_filter]
        refine List.filter_congr fun y _ => ?_
        by_cases hy : value x < value y <;> simp [hy, hax.trans]
    _ = rest := by
        have hp : page.filter (fun y => value x < value y) = [] := by
          simpa using fun y hy => (hpage y hy x (by simp)).le
        have hr : rest.filter (fun y => value x < value y) = rest := by simpa using hrest
        rw [h, List.filter_append, List.filter_cons_of_neg (by simp), hp, hr, List.nil_append]

end Jarvis.Table
