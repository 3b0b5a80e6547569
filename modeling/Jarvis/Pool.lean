import Jarvis.Steps
import Mathlib.Data.Finset.Max

/-!
# Calls that run at the same time on shared data

Calls arrive at a system and run in any interleaving. A call is a thread: what was asked, and how
far it has come. Its next step depends on the data, on a choice of the environment, and on the other
threads, whose locks it may have to wait for; the step leaves new data and either a thread that goes
on or a reply. A thread may also be given up at any time, which changes no data: whatever it had not
yet made visible is gone with it, and so are its locks. The replies are kept.
-/

namespace Jarvis.Pool

open Steps

/-- What the step of a thread comes to. -/
inductive Outcome (D T R : Type) where
  | more (db : D) (t : T)
  | done (db : D) (r : R)

/-- A system: how a call begins, how a thread goes on, and how the data change by themselves. -/
structure System (D C T R V E : Type) where
  enter : C → T
  next : D → C → T → List (C × T) → V → Option (Outcome D T R)
  env : E → D → Option D

/-- The data, the threads, and the replies given so far (the last one first). -/
structure State (D C T R : Type) where
  db : D
  threads : List (C × T)
  log : List (C × R)

/-- What can happen next. A thread is named by its place. -/
inductive Label (C V E : Type) where
  | call (c : C)
  | go (i : ℕ) (v : V)
  | abort (i : ℕ)
  | env (e : E)
  deriving DecidableEq

variable {D C T R V E : Type}

/-- A thread has made its step. -/
def State.after (s : State D C T R) (i : ℕ) (c : C) : Outcome D T R → State D C T R
  | .more db t => { s with db := db, threads := s.threads.set i (c, t) }
  | .done db r => ⟨db, s.threads.eraseIdx i, (c, r) :: s.log⟩

/-- The state before any call. -/
def State.init (db : D) : State D C T R := ⟨db, [], []⟩

/-- One step. -/
def System.step (sys : System D C T R V E) (s : State D C T R) :
    Label C V E → Option (State D C T R)
  | .call c => some { s with threads := (c, sys.enter c) :: s.threads }
  | .go i v =>
    s.threads[i]?.bind fun x =>
      (sys.next s.db x.1 x.2 (s.threads.eraseIdx i) v).map (s.after i x.1)
  | .abort i => some { s with threads := s.threads.eraseIdx i }
  | .env e => (sys.env e s.db).map fun db => { s with db := db }

variable {sys : System D C T R V E}

/-- Everything a step can be. -/
theorem System.step_cases (h : sys.step s l = some s') :
    (∃ c, l = .call c ∧ s' = { s with threads := (c, sys.enter c) :: s.threads }) ∨
    (∃ i v c t o, l = .go i v ∧ s.threads[i]? = some (c, t) ∧
      sys.next s.db c t (s.threads.eraseIdx i) v = some o ∧ s' = s.after i c o) ∨
    (∃ i, l = .abort i ∧ s' = { s with threads := s.threads.eraseIdx i }) ∨
    (∃ e db, l = .env e ∧ sys.env e s.db = some db ∧ s' = { s with db := db }) := by
  cases l with
  | call c => exact .inl ⟨c, rfl, (Option.some.inj h).symm⟩
  | go i v =>
    obtain ⟨⟨c, t⟩, hx, h⟩ := Option.bind_eq_some_iff.mp h
    obtain ⟨o, ho, rfl⟩ := Option.map_eq_some_iff.mp h
    exact .inr (.inl ⟨i, v, c, t, o, rfl, hx, ho, rfl⟩)
  | abort i => exact .inr (.inr (.inl ⟨i, rfl, (Option.some.inj h).symm⟩))
  | env e =>
    obtain ⟨db, hdb, rfl⟩ := Option.map_eq_some_iff.mp h
    exact .inr (.inr (.inr ⟨e, db, rfl, hdb, rfl⟩))

/-! ### Invariants -/

section

variable (P : D → List (C × R) → Prop) (I : D → C → T → Prop) (X : C × T → C × T → Prop)

/-- The data and the replies are good, each thread is, and so are each two of them. -/
structure State.Good (s : State D C T R) : Prop where
  data : P s.db s.log
  thread : ∀ x ∈ s.threads, I s.db x.1 x.2
  apart : s.threads.Pairwise X

variable {P I X}

variable {α : Type*} {l : List α} {i : ℕ}

/-- A thread that is good beside others that are, from one of them. -/
theorem perm_of_getElem? (h : l[i]? = some x) :
    (x :: l.eraseIdx i).Perm l := by
  obtain ⟨hi, rfl⟩ := List.getElem?_eq_some_iff.mp h
  exact List.getElem_cons_eraseIdx_perm hi

theorem set_perm (y : α) (h : l[i]? = some x) :
    (l.set i y).Perm (y :: l.eraseIdx i) := by
  obtain ⟨hi, -⟩ := List.getElem?_eq_some_iff.mp h
  have hy : (l.set i y)[i]? = some y := by simp [hi]
  have := perm_of_getElem? hy
  rw [List.eraseIdx_set_eq] at this
  exact this.symm

variable [Std.Symm X]

/-- One thread and the others. -/
theorem State.Good.split {s : State D C T R} (h : s.Good P I X) {x : C × T}
    (hx : s.threads[i]? = some x) :
    I s.db x.1 x.2 ∧ (∀ y ∈ s.threads.eraseIdx i, I s.db y.1 y.2 ∧ X x y) ∧
      (s.threads.eraseIdx i).Pairwise X := by
  have hp := perm_of_getElem? hx
  have hpair := (hp.pairwise_iff fun h => Std.Symm.symm _ _ h).mpr h.apart
  refine ⟨h.thread x (List.mem_of_getElem? hx), fun y hy => ⟨?_, ?_⟩, hpair.of_cons⟩
  · exact h.thread y (List.mem_of_mem_eraseIdx hy)
  · exact List.rel_of_pairwise_cons hpair hy

/-- **The rule for invariants.** An invariant is about the data and the replies (`P`), about each
thread (`I`), and about each two threads (`X`, what their locks exclude). -/
theorem System.inv {ok : State D C T R → Label C V E → Prop}
    (hcall : ∀ (s : State D C T R) c, s.Good P I X → ok s (.call c) →
      I s.db c (sys.enter c) ∧ ∀ y ∈ s.threads, X (c, sys.enter c) y)
    (hmore : ∀ (s : State D C T R) i c t v db t', s.Good P I X → ok s (.go i v) →
      s.threads[i]? = some (c, t) →
      sys.next s.db c t (s.threads.eraseIdx i) v = some (.more db t') →
      P db s.log ∧ I db c t' ∧ ∀ y ∈ s.threads.eraseIdx i, I db y.1 y.2 ∧ X (c, t') y)
    (hdone : ∀ (s : State D C T R) i c t v db r, s.Good P I X → ok s (.go i v) →
      s.threads[i]? = some (c, t) →
      sys.next s.db c t (s.threads.eraseIdx i) v = some (.done db r) →
      P db ((c, r) :: s.log) ∧ ∀ y ∈ s.threads.eraseIdx i, I db y.1 y.2)
    (henv : ∀ (s : State D C T R) e db, s.Good P I X → ok s (.env e) → sys.env e s.db = some db →
      P db s.log ∧ ∀ y ∈ s.threads, I db y.1 y.2)
    {s s' : State D C T R} {ls : List (Label C V E)} (h : Runs sys.step ok s ls s')
    (hs : s.Good P I X) : s'.Good P I X := by
  refine Runs.inv (fun s l s' hs hok hstep => ?_) h hs
  rcases System.step_cases hstep with ⟨c, rfl, rfl⟩ | ⟨i, v, c, t, o, rfl, hx, ho, rfl⟩ |
    ⟨i, rfl, rfl⟩ | ⟨e, db, rfl, hdb, rfl⟩
  · obtain ⟨hI, hX⟩ := hcall s c hs hok
    refine ⟨hs.data, fun x hx => ?_, List.pairwise_cons.mpr ⟨hX, hs.apart⟩⟩
    rcases List.mem_cons.mp hx with rfl | hx
    · exact hI
    · exact hs.thread x hx
  · obtain ⟨-, -, hpair⟩ := hs.split hx
    cases o with
    | more db t' =>
      obtain ⟨hP, hI, hothers⟩ := hmore s i c t v db t' hs hok hx ho
      have hp := set_perm (c, t') hx
      refine ⟨hP, fun x hmem => ?_, ?_⟩
      · rcases List.mem_cons.mp (hp.mem_iff.mp hmem) with rfl | hmem
        · exact hI
        · exact (hothers x hmem).1
      · refine (hp.pairwise_iff fun h => Std.Symm.symm _ _ h).mpr ?_
        exact List.pairwise_cons.mpr ⟨fun y hy => (hothers y hy).2, hpair⟩
    | done db r =>
      obtain ⟨hP, hothers⟩ := hdone s i c t v db r hs hok hx ho
      exact ⟨hP, hothers, hpair⟩
  · exact ⟨hs.data, fun x hx => hs.thread x (List.mem_of_mem_eraseIdx hx),
      hs.apart.sublist (List.eraseIdx_sublist _ _)⟩
  · obtain ⟨hP, hI⟩ := henv s e db hs hok hdb
    exact ⟨hP, hI, hs.apart⟩

end

/-- In no set of threads does each wait for another of them, if whoever is waited for wants a later
lock. -/
theorem no_circular_wait {ι κ : Type*} [LinearOrder κ] {W : Finset ι} (hW : W.Nonempty)
    (wants : ι → κ) {waits : ι → ι → Prop} (h : ∀ i ∈ W, ∃ j ∈ W, waits i j)
    (hlt : ∀ i ∈ W, ∀ j ∈ W, waits i j → wants i < wants j) : False := by
  obtain ⟨i, hi, hmax⟩ := W.exists_max_image wants hW
  obtain ⟨j, hj, hij⟩ := h i hi
  exact absurd (hlt i hi j hj hij) (not_lt_of_ge (hmax j hj))

end Jarvis.Pool
