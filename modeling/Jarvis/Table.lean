import Mathlib.Data.List.Sort

/-!
# Tables

A table is the list of its rows. The statements of a relational store, as functions on it: select
the row with a key (`row`), update the rows that satisfy a condition (`set`), insert (`insert`) and
delete (`delete`). `Keyed key rows` says that `key` is a primary key.
-/

namespace Jarvis.Table

variable {α κ : Type} [DecidableEq κ]

/-- `SELECT … WHERE key = k` -/
def row (key : α → κ) (k : κ) (rows : List α) : Option α := rows.find? fun x => key x = k

/-- `UPDATE … SET f WHERE p` -/
def set (p : α → Bool) (f : α → α) (rows : List α) : List α :=
  rows.map fun x => if p x then f x else x

/-- The rows an update changed, as `RETURNING` gives them. -/
def returning (p : α → Bool) (f : α → α) (rows : List α) : List α := (rows.filter p).map f

/-- `INSERT` -/
def insert (x : α) (rows : List α) : List α := rows ++ [x]

/-- `DELETE … WHERE p` -/
def delete (p : α → Bool) (rows : List α) : List α := rows.filter fun x => !p x

/-- `ORDER BY … ASC`; rows with equal values stay in table order. -/
def orderBy (value : α → ℤ) (rows : List α) : List α :=
  rows.insertionSort fun x y => value x ≤ value y

/-- `key` is a primary key of the table. -/
def Keyed (key : α → κ) (rows : List α) : Prop := (rows.map key).Nodup

variable {p : α → Bool} {f : α → α} {rows : List α} {y x : α}

section

omit [DecidableEq κ]

theorem mem_set : y ∈ set p f rows ↔ ∃ x ∈ rows, (if p x then f x else x) = y := by
  simp only [set, List.mem_map]

/-- What is true of every row, and of every row that is changed, is true of every row after an
update. -/
theorem forall_mem_set {P : α → Prop} (h : ∀ x ∈ rows, P x)
    (hf : ∀ x ∈ rows, p x = true → P (f x)) : ∀ y ∈ set p f rows, P y := by
  intro y hy
  obtain ⟨x, hx, rfl⟩ := mem_set.mp hy
  split_ifs with hp
  · exact hf x hx hp
  · exact h x hx

theorem mem_returning : y ∈ returning p f rows ↔ ∃ x ∈ rows, p x ∧ f x = y := by
  simp only [returning, List.mem_map, List.mem_filter, and_assoc]

@[simp] theorem mem_insert : y ∈ insert x rows ↔ y ∈ rows ∨ y = x := by simp [insert]

@[simp] theorem mem_delete : y ∈ delete p rows ↔ y ∈ rows ∧ p y = false := by simp [delete]

@[simp] theorem mem_orderBy {value : α → ℤ} : y ∈ orderBy value rows ↔ y ∈ rows :=
  (List.perm_insertionSort _ rows).mem_iff

/-- An update that keeps the key keeps it a primary key. -/
theorem Keyed.set {key : α → κ} (hf : ∀ x, key (f x) = key x) (h : Keyed key rows) :
    Keyed key (set p f rows) := by
  have hk : (Table.set p f rows).map key = rows.map key := by
    simp only [Table.set, List.map_map]
    refine List.map_congr_left fun x _ => ?_
    by_cases hp : p x <;> simp [hp, hf]
  unfold Keyed
  rw [hk]
  exact h

/-- In a keyed table, rows with one key are one row. -/
theorem Keyed.eq {key : α → κ} (h : Keyed key rows) (hx : x ∈ rows) (hy : y ∈ rows)
    (hk : key x = key y) : x = y :=
  List.inj_on_of_nodup_map h hx hy hk

/-- In a keyed table, an update of a row leaves one row with its key. -/
theorem Keyed.eq_of_mem_set {key : α → κ} (h : Keyed key rows) (hy : y ∈ Table.set p f rows)
    (hf : ∀ x, key (f x) = key x) (hx : x ∈ rows) (hp : p x = true) (hk : key y = key x) :
    y = f x := by
  obtain ⟨z, hz, rfl⟩ := mem_set.mp hy
  have hzx : z = x := h.eq hz hx (by rw [← hk]; split_ifs <;> simp only [hf])
  rw [hzx, if_pos hp]

/-- At most one row of a keyed table has a given key. -/
theorem Keyed.countP_le_one {key : α → κ} (h : Keyed key rows)
    (hp : ∀ x ∈ rows, p x = true → key x = k) : rows.countP p ≤ 1 := by
  rw [List.countP_eq_length_filter]
  cases hf : rows.filter p with
  | nil => exact Nat.zero_le _
  | cons x xs =>
    cases xs with
    | nil => exact le_rfl
    | cons y ys =>
      have hmem : ∀ z ∈ rows.filter p, key z = k := fun z hz =>
        hp z (List.mem_filter.mp hz).1 (List.mem_filter.mp hz).2
      have hnd : Keyed key (rows.filter p) := h.sublist (List.filter_sublist.map key)
      rw [hf] at hmem hnd
      have hne : key x ≠ key y := by simp [Keyed] at hnd; exact hnd.1.1
      exact absurd ((hmem x (by simp)).trans (hmem y (by simp)).symm) hne

theorem Keyed.delete {key : α → κ} (h : Keyed key rows) : Keyed key (delete p rows) :=
  h.sublist (List.filter_sublist.map key)

end

variable {key : α → κ} {k : κ}

theorem row_mem (h : row key k rows = some x) : x ∈ rows := List.mem_of_find?_eq_some h

theorem row_key (h : row key k rows = some x) : key x = k := by
  simpa using List.find?_some h

theorem row_eq_none : row key k rows = none ↔ ∀ x ∈ rows, key x ≠ k := by
  simp [row, List.find?_eq_none]

/-- In a keyed table, a row is the row with its key. -/
theorem Keyed.row_eq (h : Keyed key rows) (hx : x ∈ rows) : row key (key x) rows = some x := by
  cases hr : row key (key x) rows with
  | none => exact absurd rfl (row_eq_none.mp hr x hx)
  | some y => rw [List.inj_on_of_nodup_map h (row_mem hr) hx (row_key hr)]

/-- An update that keeps the key changes the row with that key in place. -/
theorem row_set (hf : ∀ x, key (f x) = key x) :
    row key k (set p f rows) = (row key k rows).map fun x => if p x then f x else x := by
  induction rows with
  | nil => rfl
  | cons x rows ih =>
    have hx : key (if p x then f x else x) = key x := by by_cases hp : p x <;> simp [hp, hf]
    simp only [row, set, List.map_cons, List.find?_cons, hx] at ih ⊢
    by_cases hk : key x = k
    · simp [hk]
    · simpa [hk] using ih

/-- The row an update leaves, from the row before. -/
theorem row_set_some (hf : ∀ x, key (f x) = key x) (h : row key k rows = some x) :
    row key k (set p f rows) = some (if p x then f x else x) := by
  rw [row_set hf, h, Option.map_some]

/-- Where a row after an update comes from. -/
theorem of_row_set (h : row key k (set p f rows) = some y) (hf : ∀ x, key (f x) = key x) :
    ∃ x, row key k rows = some x ∧ (if p x then f x else x) = y := by
  rw [row_set hf] at h
  exact Option.map_eq_some_iff.mp h

theorem row_set_pos (hf : ∀ x, key (f x) = key x) (h : row key k rows = some x) (hp : p x = true) :
    row key k (set p f rows) = some (f x) := by
  rw [row_set_some hf h, if_pos hp]

theorem row_set_neg (hf : ∀ x, key (f x) = key x) (h : row key k rows = some x) (hp : p x = false) :
    row key k (set p f rows) = some x := by
  rw [row_set_some hf h, if_neg (by simp [hp])]

/-- An insert adds a row under its key, if there was none. -/
theorem row_insert :
    row key k (insert x rows) = (row key k rows).or (if key x = k then some x else none) := by
  by_cases hk : key x = k <;> simp [row, insert, List.find?_append, hk]

theorem row_isSome : (row key k rows).isSome = true ↔ ∃ x ∈ rows, key x = k := by
  simp [row, List.find?_isSome]

/-- In a keyed table, a delete takes the row with a key, or leaves it. -/
theorem Keyed.row_delete (h : Keyed key rows) :
    row key k (Table.delete p rows) = (row key k rows).filter fun x => !p x := by
  cases hr : row key k rows with
  | none =>
    refine row_eq_none.mpr fun x hx => ?_
    exact row_eq_none.mp hr x (mem_delete.mp hx).1
  | some y =>
    obtain rfl := row_key hr
    cases hp : p y with
    | true =>
      simp only [Option.filter, hp, Bool.not_true]
      refine row_eq_none.mpr fun x hx hk => ?_
      obtain ⟨hx, hpx⟩ := mem_delete.mp hx
      rw [h.eq hx (row_mem hr) hk, hp] at hpx
      cases hpx
    | false =>
      simp only [Option.filter, hp, Bool.not_false, if_true]
      exact h.delete.row_eq (mem_delete.mpr ⟨row_mem hr, hp⟩)

/-- An insert under a new key keeps it a primary key. -/
theorem Keyed.insert (h : Keyed key rows) (hx : row key (key x) rows = none) :
    Keyed key (Table.insert x rows) := by
  unfold Keyed at *
  simp only [Table.insert, List.map_append, List.map_cons, List.map_nil]
  refine List.nodup_append.mpr ⟨h, by simp, ?_⟩
  rintro _ ha _ hb rfl
  obtain ⟨y, hy, hye⟩ := List.mem_map.mp ha
  obtain rfl := List.mem_singleton.mp hb
  exact row_eq_none.mp hx y hy hye

/-! ### What a statement does to a table -/

/-- A table after a statement: as it was, with rows changed in a way that `step` allows and that
keeps their keys, or with one more that `new` allows. -/
inductive Change (key : α → κ) (step : α → α → Prop) (new : α → Prop) (rows : List α) :
    List α → Prop
  | same : Change key step new rows rows
  | set {p : α → Bool} {f : α → α} (hkey : ∀ x, key (f x) = key x)
      (hstep : ∀ x ∈ rows, p x = true → step x (f x)) : Change key step new rows (set p f rows)
  | insert {x : α} (hnew : new x) : Change key step new rows (insert x rows)

namespace Change

variable {step : α → α → Prop} {new : α → Prop} {rows' : List α}

theorem keyed (h : Change key step new rows rows') (hnew : ∀ x, new x → row key (key x) rows = none)
    (hk : Keyed key rows) : Keyed key rows' := by
  cases h with
  | same => exact hk
  | set hkey => exact hk.set hkey
  | @insert x hx => exact hk.insert (hnew x hx)

theorem row_none (h : Change key step new rows rows') (hk : row key k rows = none) :
    row key k rows' = none ∨ ∃ x, new x ∧ key x = k ∧ row key k rows' = some x := by
  cases h with
  | same => exact .inl hk
  | set hkey => exact .inl (by rw [row_set hkey, hk, Option.map_none])
  | @insert x hnew =>
    rw [row_insert, hk, Option.none_or]
    split_ifs with hx
    · exact .inr ⟨x, hnew, hx, rfl⟩
    · exact .inl rfl

variable (hrefl : ∀ x, step x x)

include hrefl

/-- A row that an update leaves alone, or changes. -/
theorem step_ite {p : α → Bool} {f : α → α} (hstep : ∀ x ∈ rows, p x = true → step x (f x))
    (hx : x ∈ rows) : step x (if p x then f x else x) := by
  split_ifs with hp
  · exact hstep x hx hp
  · exact hrefl x

theorem row_some (h : Change key step new rows rows') (hx : row key k rows = some x) :
    ∃ y, row key k rows' = some y ∧ step x y := by
  cases h with
  | same => exact ⟨x, hx, hrefl x⟩
  | set hkey hstep => exact ⟨_, row_set_some hkey hx, step_ite hrefl hstep (row_mem hx)⟩
  | insert => exact ⟨x, by rw [row_insert, hx, Option.some_or], hrefl x⟩

omit [DecidableEq κ] in
/-- A row after a statement comes from one before, or is new. -/
theorem of_mem (h : Change key step new rows rows') (hy : y ∈ rows') :
    (∃ x ∈ rows, step x y) ∨ new y := by
  cases h with
  | same => exact .inl ⟨y, hy, hrefl y⟩
  | set _ hstep =>
    obtain ⟨x, hx, rfl⟩ := mem_set.mp hy
    exact .inl ⟨x, hx, step_ite hrefl hstep hx⟩
  | insert hnew =>
    rcases mem_insert.mp hy with hy | rfl
    · exact .inl ⟨y, hy, hrefl y⟩
    · exact .inr hnew

omit [DecidableEq κ] in
/-- Every row is still there, changed or not. -/
theorem stays (h : Change key step new rows rows') (hx : x ∈ rows) : ∃ y ∈ rows', step x y := by
  cases h with
  | same => exact ⟨x, hx, hrefl x⟩
  | set _ hstep => exact ⟨_, mem_set.mpr ⟨x, hx, rfl⟩, step_ite hrefl hstep hx⟩
  | insert => exact ⟨x, mem_insert.mpr (.inl hx), hrefl x⟩

end Change

end Jarvis.Table
