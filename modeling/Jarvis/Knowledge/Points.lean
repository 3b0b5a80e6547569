import Jarvis.Knowledge.Vectors

/-!
# The knowledge service: the points of an owner

The id of a point is the hash of the name of what it stands for: the passage of a source, or an
entity. As long as the hashes of the names in use do not collide, different things have different
points, so that what is written for one leaves the others.
-/

namespace Jarvis.Knowledge

open Text (ofString)

variable {L : Library} {owner : Owner} {used : Set Text} {k : Text}

/-! ### Ids -/

theorem entityPointId_inj (huuid : Set.InjOn L.uuid5 used) (hk : entityName owner k ∈ used)
    (hk' : entityName owner k' ∈ used) (h : entityPointId L owner k = entityPointId L owner k') :
    k = k' := by
  have htext := huuid hk hk' h
  simpa only [entityName, List.intercalate, List.intersperse, List.flatten_cons, List.flatten_nil,
    List.append_nil, List.append_cancel_left_eq, List.singleton_append, List.cons.injEq,
      true_and] using htext

theorem passagePointId_ne (huuid : Set.InjOn L.uuid5 used) {id : Text}
    (hp : passageName owner source id ∈ used) (hk : entityName owner k ∈ used) :
    passagePointId L owner source id ≠ entityPointId L owner k := by
  intro h
  have hhead := congrArg List.head? (huuid hp hk h)
  simp [passageName, entityName, List.intercalate, List.intersperse, ofString] at hhead

/-! ### Writing -/

section Dictionaries

variable {α κ : Type} [DecidableEq κ] {key : α → κ} {k : κ} {x y : α} {rows new : List α}

/-- A replacement has the key of what it replaces. -/
theorem key_replace (y : α) : key (if key y = key x then x else y) = key y := by
  split_ifs with hy
  · exact hy.symm
  · rfl

theorem row_replace : Table.row key k (Table.set (fun y => key y = key x) (fun _ => x) rows) =
    (Table.row key k rows).map fun y => if key y = key x then x else y := by
  simp only [Table.row, Table.set, List.find?_map, Function.comp_def,
    decide_eq_true_eq, key_replace]

theorem row_assign :
    Table.row key k (assign key x rows) = if key x = k then some x else Table.row key k rows := by
  unfold assign
  split_ifs with hrow hk hk
  · obtain ⟨y, hy⟩ := Option.isSome_iff_exists.mp hrow
    rw [row_replace, ← hk, hy, Option.map_some, if_pos (Table.row_key hy)]
  · rw [row_replace]
    cases hy : Table.row key k rows with
    | none => rfl
    | some y => rw [Option.map_some, if_neg fun h => hk (h.symm.trans (Table.row_key hy))]
  · rw [Table.row_insert, if_pos hk, ← hk, Option.not_isSome_iff_eq_none.mp hrow, Option.none_or]
  · rw [Table.row_insert, if_neg hk, Option.or_none]

theorem mem_of_mem_assign (h : y ∈ assign key x rows) : y = x ∨ (y ∈ rows ∧ key y ≠ key x) := by
  unfold assign at h
  split_ifs at h with hrow
  · obtain ⟨z, hz, rfl⟩ := Table.mem_set.mp h
    by_cases hk : key z = key x
    · exact .inl (if_pos (decide_eq_true hk))
    · rw [if_neg fun h => hk (of_decide_eq_true h)]
      exact .inr ⟨hz, hk⟩
  · rcases Table.mem_insert.mp h with hy | rfl
    · exact .inr ⟨hy, Table.row_eq_none.mp (Option.not_isSome_iff_eq_none.mp hrow) y hy⟩
    · exact .inl rfl

theorem keyed_assign (h : Table.Keyed key rows) : Table.Keyed key (assign key x rows) := by
  unfold assign
  split_ifs with hrow
  · have hkeys : (Table.set (fun y => key y = key x) (fun _ => x) rows).map key = rows.map key := by
      rw [Table.set, List.map_map]
      refine List.map_congr_left fun y _ => ?_
      simp only [Function.comp_apply, decide_eq_true_eq, key_replace]
    unfold Table.Keyed
    rw [hkeys]
    exact h
  · exact h.insert (Option.not_isSome_iff_eq_none.mp hrow)

end Dictionaries

variable {new points : Points} {p : Point} {id : Text}

theorem keyed_upsertPoints (h : Table.Keyed Point.id points) :
    Table.Keyed Point.id (upsertPoints new points) := by
  unfold upsertPoints
  induction new generalizing points with
  | nil => exact h
  | cons q new ih => exact ih (keyed_assign h)

theorem mem_of_mem_upsertPoints (h : p ∈ upsertPoints new points) : p ∈ new ∨ p ∈ points := by
  unfold upsertPoints at h
  induction new generalizing points with
  | nil => exact .inr h
  | cons q new ih =>
    rcases ih h with hp | hp
    · exact .inl (List.mem_cons_of_mem _ hp)
    · rcases mem_of_mem_assign hp with rfl | ⟨hp, -⟩
      · exact .inl List.mem_cons_self
      · exact .inr hp

theorem row_upsertPoints : Table.row Point.id id (upsertPoints new points) =
    (new.reverse.find? fun p => p.id = id).or (Table.row Point.id id points) := by
  unfold upsertPoints
  induction new generalizing points with
  | nil => rfl
  | cons q new ih =>
    rw [List.foldl_cons, ih, row_assign, List.reverse_cons, List.find?_append, Option.or_assoc]
    by_cases hq : q.id = id
    · simp [hq]
    · simp [hq]

/-- What is written elsewhere. -/
theorem row_upsertPoints_of_ne (h : ∀ q ∈ new, q.id ≠ id) :
    Table.row Point.id id (upsertPoints new points) = Table.row Point.id id points := by
  have hnone : (new.reverse.find? fun p => p.id = id) = none :=
    List.find?_eq_none.mpr fun q hq => by simpa using h q (List.mem_reverse.mp hq)
  rw [row_upsertPoints, hnone, Option.none_or]

end Jarvis.Knowledge
