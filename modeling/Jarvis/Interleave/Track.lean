import Jarvis.Interleave.Machine

/-!
# What a thread remembers

What matters of a thread's exchanges is often a small state that each exchange updates: a `Tracker`.
A program is then specified by what it may request in a state (`Follows`), and proved piece by
piece: from the state it starts in, to what is true of the state it ends in.
-/

namespace Jarvis.Interleave

variable {I : Type} {R : I → Type} {S O J V T α β : Type}

/-- What is remembered when a job starts, and after an exchange. -/
structure Tracker (I : Type) (R : I → Type) (J T : Type) where
  start : J → T
  after : T → (Σ i, R i) → T

/-- What is remembered of some exchanges. -/
def Tracker.of (tk : Tracker I R J T) (j : J) : Past I R → T
  | [] => tk.start j
  | e :: past => tk.after (tk.of j past) e

/-- From the state `t` the program only makes requests that `Φ` allows in the state it is in then,
and ends in `Q`. -/
def Follows (after : T → (Σ i, R i) → T) (Φ : T → I → Prop) (Q : T → α → Prop) :
    T → Prog I R α → Prop
  | t, .ret a => Q t a
  | t, .act i k => Φ t i ∧ ∀ r, Follows after Φ Q (after t ⟨i, r⟩) (k r)

variable {Φ : T → I → Prop}

namespace Follows

variable {after : T → (Σ i, R i) → T} {Q : T → α → Prop} {t : T}

theorem pure (h : Q t a) : Follows after Φ Q t (pure a : Prog I R α) := h

theorem call {Q : T → R i → Prop} (hi : Φ t i) (h : ∀ r, Q (after t ⟨i, r⟩) r) :
    Follows after Φ Q t (Prog.call i) :=
  ⟨hi, h⟩

variable {p : Prog I R α}

theorem bind {Q' : T → α → Prop} {Q : T → β → Prop} {f : α → Prog I R β}
    (hp : Follows after Φ Q' t p) (hf : ∀ t a, Q' t a → Follows after Φ Q t (f a)) :
    Follows after Φ Q t (p >>= f) := by
  induction p generalizing t with
  | ret a => exact hf t a hp
  | act i k ih => exact ⟨hp.1, fun r => ih r (hp.2 r)⟩

/-- A program that follows the rules meets the specification that says so. -/
theorem spec {tk : Tracker I R J T} {j : J} {past : Past I R}
    (h : Follows tk.after Φ Q (tk.of j past) p) :
    p.Spec (fun past i => Φ (tk.of j past) i) (fun past a => Q (tk.of j past) a) past := by
  induction p generalizing past with
  | ret a => exact h
  | act i k ih => exact ⟨h.1, fun r => ih r (h.2 r)⟩

end Follows

/-- What a thread remembers after one thread has gone on or ended. -/
theorem of_update {f : ℕ → Option T} (h : Function.update f tid x tid' = some t) :
    (tid' = tid ∧ x = some t) ∨ (tid' ≠ tid ∧ f tid' = some t) := by
  rw [Function.update_apply] at h
  split_ifs at h with htid
  · exact .inl ⟨htid, h⟩
  · exact .inr ⟨htid, h⟩

/-- What each thread remembers. -/
def Config.tracks (tk : Tracker I R J T) (c : Config I R S J) (tid : ℕ) : Option T :=
  (c.threads tid).map fun th => tk.of th.job th.past

variable {c : Config I R S J} {tk : Tracker I R J T}

section Tracks

variable {tid : ℕ} {th : Thread I R J} {P : (ℕ → Option T) → Prop}

theorem Config.tracks_thread (h : c.threads tid = some th) :
    c.tracks tk tid = some (tk.of th.job th.past) := by
  rw [tracks, h, Option.map_some]

theorem Config.tracks_start (body : J → Prog I R (List J)) (p : ℕ) (j : J) :
    (c.start body p j).tracks tk = Function.update (c.tracks tk) c.nextTid (some (tk.start j)) := by
  funext tid
  by_cases htid : tid = c.nextTid
  · subst htid
    simp [tracks, start, Tracker.of]
  · simp [tracks, start, Function.update_of_ne htid]

/-- The threads that survive a stop remember what they did before. -/
theorem Config.tracks_of_stop (h : (c.stop p).tracks tk tid = some t) :
    c.tracks tk tid = some t := by
  obtain ⟨th, hth, rfl⟩ := Option.map_eq_some_iff.mp h
  exact tracks_thread (c.stop_threads hth).1

/-- Jobs start one after the other. -/
theorem Config.tracks_startAll (body : J → Prog I R (List J)) (p : ℕ) (h : P (c.tracks tk))
    (start : ∀ f tid j, P f → P (Function.update f tid (some (tk.start j)))) :
    P ((c.startAll body p js).tracks tk) := by
  refine c.startAll_induct body (P := fun d => P (d.tracks tk)) h fun d j _ hP => ?_
  rw [tracks_start]
  exact start _ _ j hP

/-- A request changes what its own thread remembers. If the thread ends with it, it goes, and the
jobs it ends with start. -/
theorem Machine.tracks_fire {M : Machine I R S O J V} {i : I} {k : R i → Prog I R (List J)}
    {r : R i} {s : S}
    (h : P (Function.update (c.tracks tk) tid (some (tk.after (tk.of th.job th.past) ⟨i, r⟩))))
    (start : ∀ f tid j, P f → P (Function.update f tid (some (tk.start j))))
    (fewer : ∀ f f', (∀ tid t, f' tid = some t → f tid = some t) → P f → P f') :
    P ((M.fire c tid th i k r s).tracks tk) := by
  unfold Machine.fire
  let c₁ := c.record ⟨tid, th.job, ⟨i, r⟩, c.shared, s⟩
  let t := tk.after (tk.of th.job th.past) ⟨i, r⟩
  cases k r with
  | act i' k' =>
    have heq : (c₁.resume M.body tid th.proc th.job (⟨i, r⟩ :: th.past) (.act i' k')).tracks tk =
        Function.update (c.tracks tk) tid (some t) := by
      funext tid'
      by_cases htid : tid' = tid
      · subst htid
        simp [t, Config.tracks, Config.resume, Tracker.of]
      · simp [c₁, Config.tracks, Config.resume, Config.record, Function.update_of_ne htid]
    rw [heq]
    exact h
  | ret js =>
    refine Config.tracks_startAll (c := c₁.drop tid) M.body _
      (fewer _ _ (fun tid' t ht => ?_) h) start
    obtain ⟨th', hth', rfl⟩ := Option.map_eq_some_iff.mp ht
    obtain ⟨hne, hth'⟩ := Config.drop_threads _ hth'
    rw [Function.update_of_ne hne]
    exact Config.tracks_thread hth'

end Tracks

variable {M : Machine I R S O J V} {ok : Config I R S J → Label O J V → Prop} {s₀ : S}
  {Q : T → List J → Prop}

/-- A request is one that its thread may make, going by what it remembers. -/
theorem Reach.follows (hbody : ∀ j, Follows tk.after Φ Q (tk.start j) (M.body j))
    (h : Reach M ok (.init s₀) c) {tid : ℕ} {th : Thread I R J} (hth : c.threads tid = some th) :
    th.prog.Spec (fun past i => Φ (tk.of th.job past) i) (fun past js => Q (tk.of th.job past) js)
      th.past :=
  (h.threaded (Φ := fun j past i => Φ (tk.of j past) i) (Q := fun j past js => Q (tk.of j past) js)
    fun j => (hbody j).spec).spec tid th hth

/-- **Invariants of what threads remember.** `G` of the shared state, the trace, and what each
thread remembers, if it is kept by every request, by every thread that starts, by threads that end,
and by the environment. -/
theorem Reach.tracks (hbody : ∀ j, Follows tk.after Φ Q (tk.start j) (M.body j))
    (h : Reach M ok (.init s₀) c) {G : S → List (Event I R S J) → (ℕ → Option T) → Prop}
    (init : G s₀ [] fun _ => none)
    (start : ∀ s tr f tid j, G s tr f → G s tr (Function.update f tid (some (tk.start j))))
    (fewer : ∀ s tr f f', (∀ tid t, f' tid = some t → f tid = some t) → G s tr f → G s tr f')
    (fire : ∀ c tid o th i k r s, Reach M ok (.init s₀) c → ok c (.exec tid o) →
      Fires M c tid o th i k r s → Φ (tk.of th.job th.past) i → G c.shared c.trace (c.tracks tk) →
      G s (⟨tid, th.job, ⟨i, r⟩, c.shared, s⟩ :: c.trace)
        (Function.update (c.tracks tk) tid (some (tk.after (tk.of th.job th.past) ⟨i, r⟩))))
    (env : ∀ c v s, Reach M ok (.init s₀) c → ok c (.env v) → M.env v c.shared = some s →
      G c.shared c.trace (c.tracks tk) → G s c.trace (c.tracks tk)) :
    G c.shared c.trace (c.tracks tk) := by
  refine h.induct (P := fun c => G c.shared c.trace (c.tracks tk)) init ?_ ?_ ?_ ?_ ?_
  · intro c _ hG
    rw [Config.boot_shared, Config.boot_trace]
    exact Config.tracks_startAll (P := G c.shared c.trace) M.body _ hG (start _ _)
  · intro c p j _ hG _ _
    rw [Config.tracks_start]
    exact start _ _ _ _ j hG
  · intro c tid o th i k r s hr hG hok hf
    have hspec := hr.follows hbody hf.thread
    rw [hf.prog] at hspec
    rw [Machine.fire_shared, Machine.fire_trace]
    exact Machine.tracks_fire (fire c tid o th i k r s hr hok hf hspec.1 hG) (start _ _) (fewer _ _)
  · exact fun c v s hr hG hok hv => env c v s hr hok hv hG
  · exact fun c p _ hG _ => fewer _ _ _ _ (fun _ _ => Config.tracks_of_stop) hG

end Jarvis.Interleave
