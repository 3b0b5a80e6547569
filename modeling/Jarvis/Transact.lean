import Mathlib.Data.Int.Notation
import Mathlib.Data.List.Flatten
import Mathlib.Data.List.Nodup
import Mathlib.Data.List.Perm.Subperm

/-!
# Transactions that carry their start time

A store runs requests as transactions. Inside a transaction the time is the time at which it began,
however long it then waits for its row locks; because it keeps those locks until it commits, its
statements take effect together at one instant. Between its start and that instant other
transactions begin, take effect and abort, and the clock moves on. So transactions take effect in
any order, and not always in the order of their times.

A request may draw names of its own (ids, tokens). They are unguessable: no two requests draw the
same one.
-/

namespace Jarvis.Transact

/-- A transaction: the request, and the time at which it began. -/
structure Txn (O : Type) where
  op : O
  now : ℤ
  deriving DecidableEq, Repr

/-- A transaction that took effect: its reply, and the data before and after. -/
structure Commit (D O R : Type) extends Txn O where
  reply : R
  before : D
  after : D
  deriving DecidableEq, Repr

/-- The data, the clock, the transactions that have begun, those that took effect (the last one
first), and the names drawn so far. -/
structure Config (D O R N : Type) where
  db : D
  clock : ℤ
  opened : List (Txn O)
  commits : List (Commit D O R)
  used : List N
  deriving DecidableEq, Repr

/-- What can happen next. A transaction is named by its place among those that have begun. -/
inductive Act (O : Type) where
  | tick (t : ℤ)
  | start (op : O)
  | commit (i : ℕ)
  | abort (i : ℕ)
  deriving DecidableEq, Repr

variable {D O R N : Type} [DecidableEq N]

section

variable (exec : O → ℤ → D → R × D) (drawn : O → List N)

/-- A transaction takes effect on the data `db`. -/
def Txn.commit (t : Txn O) (db : D) : Commit D O R :=
  ⟨t, (exec t.op t.now db).1, db, (exec t.op t.now db).2⟩

/-- The `i`th transaction that has begun takes effect. -/
def Config.commit (c : Config D O R N) (i : ℕ) (t : Txn O) : Config D O R N :=
  { c with
    db := (t.commit exec c.db).after
    opened := c.opened.eraseIdx i
    commits := t.commit exec c.db :: c.commits }

/-- One action. -/
def step (c : Config D O R N) : Act O → Option (Config D O R N)
  | .tick t => if c.clock ≤ t then some { c with clock := t } else none
  | .start op =>
    if (drawn op ++ c.used).Nodup then
      some { c with opened := ⟨op, c.clock⟩ :: c.opened, used := drawn op ++ c.used }
    else none
  | .commit i => c.opened[i]?.map (c.commit exec i)
  | .abort i => c.opened[i]?.map fun _ => { c with opened := c.opened.eraseIdx i }

/-- A run of actions. -/
def run : Config D O R N → List (Act O) → Option (Config D O R N)
  | c, [] => some c
  | c, a :: as => (step exec drawn c a).bind fun c' => run c' as

/-- The empty store with data `db`, before any request. -/
def Config.init (db : D) (clock : ℤ) : Config D O R N := ⟨db, clock, [], [], []⟩

/-- The transactions `commits` ran one after the other, from `db₀` to `db`. -/
inductive History (db₀ : D) : D → List (Commit D O R) → Prop
  | nil : History db₀ db₀ []
  | cons {db : D} {commits : List (Commit D O R)} (t : Txn O) (h : History db₀ db commits) :
      History db₀ (t.commit exec db).after (t.commit exec db :: commits)

end

variable {exec : O → ℤ → D → R × D} {drawn : O → List N}

variable {c c' : Config D O R N} {a : Act O} {P : Config D O R N → Prop} {as : List (Act O)}
  {db₀ : D} {clock : ℤ} {e : Commit D O R}

/-- What one action does. -/
theorem step_cases (h : step exec drawn c a = some c') :
    (∃ t, c.clock ≤ t ∧ c' = { c with clock := t }) ∨
    (∃ op, (drawn op ++ c.used).Nodup ∧
      c' = { c with opened := ⟨op, c.clock⟩ :: c.opened, used := drawn op ++ c.used }) ∨
    (∃ i t, c.opened[i]? = some t ∧ c' = c.commit exec i t) ∨
    (∃ i, c' = { c with opened := c.opened.eraseIdx i }) := by
  cases a with
  | tick t =>
    simp only [step, Option.ite_none_right_eq_some, Option.some.injEq] at h
    exact .inl ⟨t, h.1, h.2.symm⟩
  | start op =>
    simp only [step, Option.ite_none_right_eq_some, Option.some.injEq] at h
    exact .inr (.inl ⟨op, h.1, h.2.symm⟩)
  | commit i =>
    simp only [step, Option.map_eq_some_iff] at h
    obtain ⟨t, ht, hc⟩ := h
    exact .inr (.inr (.inl ⟨i, t, ht, hc.symm⟩))
  | abort i =>
    simp only [step, Option.map_eq_some_iff] at h
    obtain ⟨t, ht, hc⟩ := h
    exact .inr (.inr (.inr ⟨i, hc.symm⟩))

/-- What every action keeps, a run keeps. -/
theorem run_inv (hstep : ∀ c a c', P c → step exec drawn c a = some c' → P c') :
    ∀ {c c' : Config D O R N}, run exec drawn c as = some c' → P c → P c' := by
  induction as with
  | nil =>
    intro c c' h hc
    obtain rfl : c = c' := Option.some.inj h
    exact hc
  | cons a as ih =>
    intro c c' h hc
    obtain ⟨c₁, h₁, h₂⟩ := Option.bind_eq_some_iff.mp h
    exact ih h₂ (hstep c a c₁ hc h₁)

/-- A concrete run, and what holds after it. -/
theorem exists_of_run [DecidablePred P]
    (h : (run exec drawn c as).any (fun c' => decide (P c')) = true) :
    ∃ c', run exec drawn c as = some c' ∧ P c' := by
  cases hr : run exec drawn c as with
  | none => simp [hr] at h
  | some c' => exact ⟨c', rfl, by simpa [hr] using h⟩

/-- The transactions that took effect ran one after the other. -/
theorem step_history (hc : History exec db₀ c.db c.commits) (h : step exec drawn c a = some c') :
    History exec db₀ c'.db c'.commits := by
  rcases step_cases h with ⟨t, -, rfl⟩ | ⟨op, -, rfl⟩ | ⟨i, t, -, rfl⟩ | ⟨i, rfl⟩
  · exact hc
  · exact hc
  · exact .cons t hc
  · exact hc

theorem run_history (h : run exec drawn (.init db₀ clock) as = some c) :
    History exec db₀ c.db c.commits :=
  run_inv (fun _ _ _ hc h => step_history hc h) h .nil

/-- What came before a transaction, and what it did. -/
theorem History.split :
    ∀ {newer : List (Commit D O R)} {db : D}, History exec db₀ db (newer ++ e :: older) →
      History exec db₀ e.before older ∧ exec e.op e.now e.before = (e.reply, e.after) := by
  intro newer
  induction newer with
  | nil =>
    intro db h
    cases h with
    | cons t h => exact ⟨h, rfl⟩
  | cons f newer ih =>
    intro db h
    cases h with
    | cons t h => exact ih h

/-! ### The names drawn -/

/-- The names drawn by a list of transactions. -/
def draws (drawn : O → List N) (ts : List (Txn O)) : List N := ts.flatMap fun t => drawn t.op

/-- The transactions that have begun, and those that took effect. -/
def Config.txns (c : Config D O R N) : List (Txn O) :=
  c.opened ++ c.commits.map (·.toTxn)

/-- Different transactions drew different names. -/
structure Config.Fresh (drawn : O → List N) (c : Config D O R N) : Prop where
  nodup : (draws drawn c.txns).Nodup
  used : ∀ n ∈ draws drawn c.txns, n ∈ c.used

omit [DecidableEq N] in
/-- Fewer transactions, in another order, drew fewer names. -/
theorem draws_subperm (h : ts'.Subperm ts) :
    (draws drawn ts').Subperm (draws drawn ts) := by
  obtain ⟨l, hp, hs⟩ := h
  exact ⟨draws drawn l, hp.flatMap_right _, hs.flatMap _⟩

omit [DecidableEq N] in
theorem Config.Fresh.of_subperm (hc : c.Fresh drawn) (h : c'.txns.Subperm c.txns)
    (hu : c'.used = c.used) : c'.Fresh drawn where
  nodup := by
    have hsub : (draws drawn c'.txns).Subperm (draws drawn c.txns) := draws_subperm h
    obtain ⟨l, hp, hs⟩ := hsub
    exact hp.nodup_iff.mp (hc.nodup.sublist hs)
  used n hn := by
    rw [hu]
    exact hc.used n (List.Subperm.subset (draws_subperm h) hn)

theorem step_fresh (hc : c.Fresh drawn) (h : step exec drawn c a = some c') : c'.Fresh drawn := by
  rcases step_cases h with ⟨t, -, rfl⟩ | ⟨op, hd, rfl⟩ | ⟨i, t, ht, rfl⟩ | ⟨i, rfl⟩
  · exact ⟨hc.nodup, hc.used⟩
  · have hdis := (List.nodup_append.mp hd).2.2
    refine ⟨?_, fun n hn => ?_⟩
    · refine List.nodup_append.mpr ⟨(List.nodup_append.mp hd).1, hc.nodup, ?_⟩
      intro x hx y hy
      exact hdis x hx y (hc.used y hy)
    · rcases List.mem_append.mp (show n ∈ drawn op ++ draws drawn c.txns from hn) with hn | hn
      · exact List.mem_append_left _ hn
      · exact List.mem_append_right _ (hc.used n hn)
  · -- the transaction moves from those that have begun to those that took effect
    refine hc.of_subperm ?_ rfl
    have hi : i < c.opened.length := (List.getElem?_eq_some_iff.mp ht).1
    have hp : (t :: c.opened.eraseIdx i).Perm c.opened := by
      have := List.getElem_cons_eraseIdx_perm hi
      rwa [(List.getElem?_eq_some_iff.mp ht).2] at this
    have : (c.opened.eraseIdx i ++ t :: c.commits.map (·.toTxn)).Perm c.txns :=
      List.perm_middle.trans (hp.append_right _)
    exact this.subperm
  · refine hc.of_subperm ?_ rfl
    exact ((List.eraseIdx_sublist c.opened i).append_right _).subperm

theorem run_fresh (h : run exec drawn (.init db₀ clock) as = some c) : c.Fresh drawn :=
  run_inv (fun _ _ _ hc h => step_fresh hc h) h ⟨by simp [draws, Config.txns, Config.init],
    by simp [draws, Config.txns, Config.init]⟩

omit [DecidableEq N] in
/-- A transaction that has begun drew nothing that one that took effect drew. -/
theorem Config.Fresh.disjoint (hc : c.Fresh drawn) (ht : t ∈ c.opened) (he : e ∈ c.commits)
    (hn : n ∈ drawn t.op) :
    n ∉ drawn e.op := by
  intro hn'
  have h := hc.nodup
  rw [draws, Config.txns, List.flatMap_append] at h
  exact (List.nodup_append.mp h).2.2 n (List.mem_flatMap.mpr ⟨t, ht, hn⟩) n
    (List.mem_flatMap.mpr ⟨e.toTxn, List.mem_map_of_mem he, hn'⟩) rfl

omit [DecidableEq N] in
/-- The transactions that took effect drew different names. -/
theorem Config.Fresh.commits (hc : c.Fresh drawn) :
    (draws drawn (c.commits.map (·.toTxn))).Nodup := by
  have h := hc.nodup
  rw [draws, Config.txns, List.flatMap_append] at h
  exact (List.nodup_append.mp h).2.1

end Jarvis.Transact
