import Jarvis.Bytes
import Jarvis.Pool
import Mathlib

/-!
# The MCP router: pending authorizations

`SavePending` and `TakePending` at the same time. Source:
`services/mcp-router/internal/store/store.go` and `migrations/0001_init.sql`. The isolation is READ
COMMITTED: a `DELETE` finds its rows in what is committed when it begins, waits for those that
another transaction has deleted, and deletes the ones that are still there; what a transaction has
inserted is seen by no other before it commits. A row has an identity (`tid`) of its own. The
transactions are the threads of a `Pool`; `abort` rolls one back.
-/

namespace Jarvis.Mcp.Authorizations

open Steps Pool

/-! ### Source -/

/-- Source: `Pending` -/
structure Pending where
  integrationId : ℕ
  issuer : String
  tokenEndpoint : String
  resource : String
  redirectURI : String
  issRequired : Bool
  verifierSealed : Bytes
  expiresAt : ℤ
  deriving DecidableEq

/-- A row of `pending_authorizations`. -/
structure Row where
  tid : ℕ
  stateHash : Bytes
  pending : Pending
  deriving DecidableEq

/-- What is committed, the next row's identity, and the clock. -/
structure DB where
  rows : List Row
  fresh : ℕ
  now : ℤ

inductive Call where
  | savePending (state : String) (p : Pending)
  | takePending (state : String)
  deriving DecidableEq

inductive Reply where
  | saved
  | found (p : Pending)
  | notFound
  | failed
  deriving DecidableEq

/-- How far a transaction has come. `deleting`: the rows its `DELETE` has found; `deleted`,
`inserted`: the ones that it has deleted. -/
inductive Stage where
  | begun
  | started (time : ℤ)
  | deleting (targets : List ℕ)
  | deleted (locked : List ℕ)
  | inserted (locked : List ℕ)
  deriving DecidableEq

/-- The rows that a transaction keeps others from deleting. -/
def Stage.locks : Stage → List ℕ
  | .deleted locked => locked
  | .inserted locked => locked
  | _ => []

/-- Whether one of these rows is locked by another transaction. -/
def blocked (rows : List ℕ) (others : List (Call × Stage)) : Bool :=
  others.any fun x => x.2.locks.any fun tid => rows.contains tid

/-- What is committed without these rows. -/
def DB.without (db : DB) (tids : List ℕ) : DB :=
  { db with rows := db.rows.filter fun r => !tids.contains r.tid }

/-- The rows of these that are still there. -/
def DB.present (db : DB) (tids : List ℕ) : List Row := db.rows.filter fun r => tids.contains r.tid

def DB.insert (db : DB) (stateHash : Bytes) (p : Pending) : DB :=
  { db with rows := db.rows ++ [⟨db.fresh, stateHash, p⟩], fresh := db.fresh + 1 }

/-- Whether another transaction is about to commit a row with this hash. -/
def inserting (hash : String → Bytes) (stateHash : Bytes) (others : List (Call × Stage)) : Bool :=
  others.any fun x =>
    match x with
    | (.savePending state _, .inserted _) => hash state = stateHash
    | _ => false

/-- Source: `SavePending` -/
def save (hash : String → Bytes) (db : DB) (state : String) (p : Pending)
    (others : List (Call × Stage)) : Stage → Option (Outcome DB Stage Reply)
  | .begun => some (.more db (.started db.now))
  | .started time =>
    let found := db.rows.filter fun r => r.pending.integrationId = p.integrationId ||
      r.pending.expiresAt < time
    some (.more db (.deleting (found.map Row.tid)))
  | .deleting targets =>
    if blocked targets others then none
    else some (.more db (.deleted ((db.present targets).map Row.tid)))
  | .deleted locked =>
    -- The primary key: another row with this hash, or one that is not committed yet.
    let same := db.rows.filter fun r => r.stateHash = hash state && !locked.contains r.tid
    if inserting hash (hash state) others || blocked (same.map Row.tid) others then none
    else if same ≠ [] then some (.done db .failed)
    else some (.more db (.inserted locked))
  | .inserted locked => some (.done ((db.without locked).insert (hash state) p) .saved)

/-- Source: `TakePending` -/
def take (hash : String → Bytes) (db : DB) (state : String) (others : List (Call × Stage)) :
    Stage → Option (Outcome DB Stage Reply)
  | .deleting targets =>
    if blocked targets others then none
    else
      let reply := match db.present targets with
        | [] => .notFound
        | r :: _ => if r.pending.expiresAt < db.now then .notFound else .found r.pending
      some (.done (db.without targets) reply)
  | _ =>
    some (.more db (.deleting ((db.rows.filter fun r => r.stateHash = hash state).map Row.tid)))

def next (hash : String → Bytes) (db : DB) (c : Call) (stage : Stage) (others : List (Call × Stage))
    (_ : Unit) : Option (Outcome DB Stage Reply) :=
  match c with
  | .savePending state p => save hash db state p others stage
  | .takePending state => take hash db state others stage

/-- The system; the clock goes on by itself. -/
def store (hash : String → Bytes) : System DB Call Stage Reply Unit ℕ where
  enter _ := .begun
  next := next hash
  env tick db := some { db with now := db.now + tick }

/-! ### What a statement comes to -/

/-- The rows of an integration. -/
def DB.of (db : DB) (integrationId : ℕ) : List Row :=
  db.rows.filter fun r => r.pending.integrationId = integrationId

/-- The integration whose `SavePending` is between its `DELETE` and its commit. -/
def busy : Call × Stage → Option ℕ
  | (.savePending _ p, .deleting _) => some p.integrationId
  | (.savePending _ p, .deleted _) => some p.integrationId
  | (.savePending _ p, .inserted _) => some p.integrationId
  | _ => none

/-- A `SavePending` has found, or deleted, every row of its integration that is there. -/
def Covers (db : DB) : Call → Stage → Prop
  | .savePending _ p, .deleting targets => ∀ r ∈ db.of p.integrationId, r.tid ∈ targets
  | .savePending _ p, .deleted locked => ∀ r ∈ db.of p.integrationId, r.tid ∈ locked
  | .savePending _ p, .inserted locked => ∀ r ∈ db.of p.integrationId, r.tid ∈ locked
  | _, _ => True

/-- No two of one integration. -/
def Apart (x y : Call × Stage) : Prop := ∀ i, busy x = some i → busy y ≠ some i

instance apart_symm : Std.Symm Apart := ⟨fun _ _ h i hy hx => h i hx hy⟩

/-- At most one row for each integration. -/
def Single (db : DB) : Prop := ∀ i, (db.of i).length ≤ 1

variable {hash : String → Bytes}

section

variable {db db' : DB} {c : Call} {stage stage' : Stage} {others : List (Call × Stage)}
  {reply : Reply}

theorem Covers.shrink (h : Covers db c stage) (hsub : ∀ i, busy (c, stage) = some i →
    ∀ r ∈ db'.of i, r ∈ db.of i) : Covers db' c stage := by
  cases c with
  | takePending state => trivial
  | savePending state p =>
    cases stage with
    | begun | started => trivial
    | deleting | deleted | inserted => exact fun r hr => h r (hsub _ rfl r hr)

theorem of_without (tids : List ℕ) (i : ℕ) : ((db.without tids).of i).Sublist (db.of i) :=
  List.filter_sublist.filter _

/-- A statement that leaves its transaction going changes nothing that is committed. Only a `DELETE`
that begins makes its integration busy. -/
theorem next_more (h : next hash db c stage others () = some (.more db' stage'))
    (hcovers : Covers db c stage) : db' = db ∧ Covers db c stage' ∧
      ((∃ state p time, c = .savePending state p ∧ stage = .started time) ∨
        busy (c, stage') = none ∨ busy (c, stage') = busy (c, stage)) := by
  cases c with
  | takePending state =>
    cases stage with
    | deleting targets =>
      simp only [next, take] at h
      split_ifs at h
      cases h
    | begun | started | deleted | inserted =>
      cases h
      exact ⟨rfl, trivial, .inr (.inl rfl)⟩
  | savePending state p =>
    cases stage with
    | begun =>
      cases h
      exact ⟨rfl, trivial, .inr (.inl rfl)⟩
    | started time =>
      cases h
      refine ⟨rfl, fun r hr => ?_, .inl ⟨state, p, time, rfl, rfl⟩⟩
      obtain ⟨hmem, hid⟩ := List.mem_filter.mp hr
      exact List.mem_map_of_mem (List.mem_filter.mpr ⟨hmem, by simp_all⟩)
    | deleting targets =>
      simp only [next, save] at h
      split_ifs at h
      cases h
      refine ⟨rfl, fun r hr => ?_, .inr (.inr rfl)⟩
      have hmem := (List.mem_filter.mp hr).1
      exact List.mem_map_of_mem (List.mem_filter.mpr ⟨hmem, by simpa using hcovers r hr⟩)
    | deleted locked =>
      simp only [next, save] at h
      split_ifs at h
      · cases h
      · cases h
        exact ⟨rfl, hcovers, .inr (.inr rfl)⟩
    | inserted locked => cases h

/-- What a transaction leaves when it ends. -/
theorem next_done (h : next hash db c stage others () = some (.done db' reply)) :
    (∃ tids, db' = db.without tids) ∨ db' = db ∨ ∃ state p locked, c = .savePending state p ∧
      stage = .inserted locked ∧ db' = (db.without locked).insert (hash state) p := by
  cases c with
  | takePending state =>
    cases stage with
    | deleting targets =>
      simp only [next, take] at h
      split_ifs at h
      cases h
      exact .inl ⟨targets, rfl⟩
    | begun | started | deleted | inserted => cases h
  | savePending state p =>
    cases stage with
    | begun | started => cases h
    | deleting targets =>
      simp only [next, save] at h
      split_ifs at h
      cases h
    | deleted locked =>
      simp only [next, save] at h
      split_ifs at h
      · cases h
        exact .inr (.inl rfl)
      · cases h
    | inserted locked =>
      cases h
      exact .inr (.inr ⟨state, p, locked, rfl, rfl, rfl⟩)

variable {state : String} {p : Pending} {locked : List ℕ}

/-- The rows of an integration after a commit: the new one alone, or what is left of the others. -/
theorem of_commit (h : Covers db (.savePending state p) (.inserted locked)) (i : ℕ) :
    ((db.without locked).insert (hash state) p).of i =
      if i = p.integrationId then [⟨db.fresh, hash state, p⟩] else (db.without locked).of i := by
  unfold DB.of DB.insert
  dsimp only
  rw [List.filter_append]
  split_ifs with hi
  · subst hi
    have hnone : (db.without locked).rows.filter
      (fun r => r.pending.integrationId = p.integrationId) = [] := by
      refine List.filter_eq_nil_iff.mpr fun r hr hid => ?_
      obtain ⟨hmem, hkept⟩ := List.mem_filter.mp hr
      have hin := h r (List.mem_filter.mpr ⟨hmem, hid⟩)
      simp [hin] at hkept
    rw [hnone]
    simp [DB.without]
  · simp [Ne.symm hi]

/-- **A commit** keeps one row for each integration, and what the others have found. -/
theorem commit_keeps (hsingle : Single db)
    (h : Covers db (.savePending state p) (.inserted locked)) :
    Single ((db.without locked).insert (hash state) p) ∧
      ∀ y : Call × Stage, Covers db y.1 y.2 → busy y ≠ some p.integrationId →
        Covers ((db.without locked).insert (hash state) p) y.1 y.2 := by
  constructor
  · intro i
    rw [of_commit h]
    split_ifs
    · exact le_rfl
    · exact (of_without locked i).length_le.trans (hsingle i)
  · intro y hy hne
    refine hy.shrink fun i hi r hr => ?_
    have hother : i ≠ p.integrationId := by
      rintro rfl
      exact hne hi
    rw [of_commit h, if_neg hother] at hr
    exact (of_without locked i).subset hr

end

/-! ### Runs -/

/-- When the `DELETE` of a `SavePending` begins, no other one of its integration is between its
`DELETE` and its commit. -/
def alone (s : State DB Call Stage Reply) : Label Call Unit ℕ → Bool
  | .go i _ =>
    match s.threads[i]? with
    | some (.savePending _ p, .started _) =>
      (s.threads.eraseIdx i).all fun y => busy y ≠ some p.integrationId
    | _ => true
  | _ => true

variable {s : State DB Call Stage Reply} {ls : List (Label Call Unit ℕ)} {now : ℤ}

theorem alone_go (h : alone s (.go i ()) = true)
    (hx : s.threads[i]? = some (.savePending state p, .started time)) :
    ∀ y ∈ s.threads.eraseIdx i, busy y ≠ some p.integrationId := by
  simpa [alone, hx] using h

def Sound : State DB Call Stage Reply → Prop := State.Good (fun db _ => Single db) Covers Apart

theorem Sound.runs (h : Runs (store hash).step (fun s l => alone s l = true) s ls s')
    (hs : Sound s) :
    Sound s' := by
  refine System.inv ?_ ?_ ?_ ?_ h hs
  · intro s c _ _
    have hbegun : busy (c, .begun) = none := by cases c <;> rfl
    refine ⟨by cases c <;> trivial, fun y _ i hi => ?_⟩
    rw [show busy (c, (store hash).enter c) = none from hbegun] at hi
    cases hi
  · intro s i c stage v db stage' hs hok hx hnext
    obtain ⟨hcovers, hothers, -⟩ := hs.split hx
    obtain ⟨rfl, hnew, hbusy⟩ := next_more hnext hcovers
    refine ⟨hs.data, hnew, fun y hy => ⟨(hothers y hy).1, fun j hj => ?_⟩⟩
    rcases hbusy with ⟨state, p, time, rfl, rfl⟩ | hnone | hsame
    · have hfree := alone_go hok hx y hy
      have hp : j = p.integrationId := by
        cases stage' <;> simp_all [busy]
      rwa [hp]
    · rw [hnone] at hj
      cases hj
    · exact (hothers y hy).2 j (hsame ▸ hj)
  · intro s i c stage v db reply hs _ hx hnext
    obtain ⟨hcovers, hothers, -⟩ := hs.split hx
    rcases next_done hnext with ⟨tids, rfl⟩ | rfl | ⟨state, p, locked, rfl, rfl, rfl⟩
    · refine ⟨fun i => (of_without tids i).length_le.trans (hs.data i), fun y hy => ?_⟩
      exact (hothers y hy).1.shrink fun i _ r hr => (of_without tids i).subset hr
    · exact ⟨hs.data, fun y hy => (hothers y hy).1⟩
    · obtain ⟨hsingle, hkeep⟩ := commit_keeps hs.data hcovers
      exact ⟨hsingle, fun y hy => hkeep y (hothers y hy).1 ((hothers y hy).2 _ rfl)⟩
  · intro s tick db hs _ hdb
    cases hdb
    exact ⟨hs.data, fun y hy => (hs.thread y hy).shrink fun _ _ r hr => hr⟩

/-- **One pending authorization per integration**, as long as no two `SavePending` of it overlap: in
every state of a run there is at most one, and when a `SavePending` commits, its own is the only
one, so no earlier state of the integration can be taken any more. -/
theorem pending_single
    (h : Runs (store hash).step (fun s l => alone s l = true) (.init ⟨[], 0, now⟩) ls s) :
    Single s.db ∧ ∀ i state p locked s', s.threads[i]? =
    some (.savePending state p, .inserted locked) →
      (store hash).step s (.go i ()) = some s' →
        s'.db.of p.integrationId = [⟨s.db.fresh, hash state, p⟩] := by
  have hinit : Sound (.init ⟨[], 0, now⟩) := ⟨fun i => Nat.zero_le _, by rintro x ⟨⟩, .nil⟩
  have hs := hinit.runs h
  refine ⟨hs.data, fun i state p locked s' hx hstep => ?_⟩
  obtain ⟨hcovers, -, -⟩ := hs.split hx
  have hdb : s'.db = (s.db.without locked).insert (hash state) p := by
    simp only [System.step, hx, Option.bind_some] at hstep
    cases hstep
    rfl
  rw [hdb, of_commit hcovers, if_pos rfl]

/-- An authorization of the first integration. -/
def sample : Pending := ⟨1, "issuer", "token", "resource", "redirect", false, [], 600⟩

/-- `SavePending` by itself. -/
def saved (state : String) : List (Label Call Unit ℕ) :=
  [.call (.savePending state sample), .go 0 (), .go 0 (), .go 0 (), .go 0 (), .go 0 ()]

/-- One after the other. -/
theorem pending_single_replaced : ∃ s, Runs (store utf8).step (fun s l => alone s l = true)
    (.init ⟨[], 0, 0⟩) (saved "a" ++ saved "b") s ∧ s.db.rows = [⟨1, utf8 "b", sample⟩] ∧
    Single s.db := by
  obtain ⟨s, hs, hrows⟩ : ∃ s, Runs (store utf8).step (fun s l => alone s l = true)
    (.init ⟨[], 0, 0⟩)
      (saved "a" ++ saved "b") s ∧ s.db.rows = [⟨1, utf8 "b", sample⟩] :=
        exists_of_run (by decide +kernel)
  exact ⟨s, hs, hrows, (pending_single hs).1⟩

/-- Two at once: neither `DELETE` sees what the other inserts. -/
def overlapping : List (Label Call Unit ℕ) :=
  [.call (.savePending "a" sample), .call (.savePending "b" sample), .go 0 (), .go 1 (), .go 0 (),
    .go 1 (), .go 0 (), .go 1 (), .go 0 (), .go 1 (), .go 0 (), .go 0 (), .call (.takePending "b"),
    .go 0 (), .go 0 ()]

/-- Both are pending, and the state of the first one can still be taken. -/
theorem two_pending :
    (∃ s, Runs (store utf8).step (fun _ _ => true = true) (.init ⟨[], 0, 0⟩)
      (overlapping.take 12) s ∧
      s.db.rows = [⟨0, utf8 "b", sample⟩, ⟨1, utf8 "a", sample⟩] ∧ s.db.now ≤ sample.expiresAt) ∧
    ∃ s, Runs (store utf8).step (fun _ _ => true = true) (.init ⟨[], 0, 0⟩) overlapping s ∧
      s.log.head? = some (.takePending "b", .found sample) :=
  ⟨exists_of_run (by decide +kernel), exists_of_run (by decide +kernel)⟩

/-! ### Single use -/

/-- A `TakePending` has returned this authorization. -/
def taken (p : Pending) (x : Call × Reply) : Bool := x.2 = .found p

/-- A `SavePending` has saved this authorization. -/
def stored (p : Pending) : Call × Reply → Bool
  | (.savePending _ q, .saved) => q = p
  | _ => false

/-- How often an authorization is pending. -/
def DB.holds (db : DB) (p : Pending) : ℕ := db.rows.countP fun r => r.pending = p

theorem holds_without (db : DB) (p : Pending) (tids : List ℕ) :
    db.holds p = (db.present tids).countP (fun r => r.pending = p) + (db.without tids).holds p :=
  List.countP_eq_countP_filter_add ..

/-- What a statement does to an authorization: it is saved, or taken and then no longer pending, or
deleted. -/
theorem next_counts {others : List (Call × Stage)} (h : next hash db c stage others () = some o)
    (p : Pending) :
    match o with
    | .more db' _ => db' = db
    | .done db' reply =>
      [(c, reply)].countP (taken p) + db'.holds p ≤
        [(c, reply)].countP (stored p) + db.holds p := by
  cases c with
  | savePending state q =>
    cases stage <;> simp only [next, save] at h
    case inserted locked =>
      cases h
      have hrest := holds_without db p locked
      simp only [DB.holds, DB.insert, List.countP_append, List.countP_singleton, taken,
        stored] at hrest ⊢
      split_ifs
      all_goals simp_all
      omega
    all_goals (try split_ifs at h) <;> cases h <;> simp [taken, stored]
  | takePending state =>
    cases stage
    case deleting targets =>
      simp only [next, take] at h
      split_ifs at h
      cases h
      have hrest := holds_without db p targets
      dsimp only
      split <;> try split_ifs
      all_goals simp_all [taken, stored, List.countP_cons]
    all_goals cases h; rfl

/-- **An authorization is taken no more often than it was saved**, also by calls that run at the
same time, and what was taken is no longer pending. -/
theorem taken_once {ok : State DB Call Stage Reply → Label Call Unit ℕ → Prop}
    (h : Runs (store hash).step ok (.init ⟨[], 0, now⟩) ls s) (p : Pending) :
    s.log.countP (taken p) + s.db.holds p ≤ s.log.countP (stored p) := by
  refine h.inv (P := fun s => s.log.countP (taken p) + s.db.holds p ≤
    s.log.countP (stored p)) ?_ le_rfl
  intro s l s' hs _ hstep
  rcases System.step_cases hstep with ⟨c, -, rfl⟩ | ⟨i, v, c, t, o, -, hx, ho, rfl⟩ | ⟨i, -, rfl⟩ |
    ⟨e, db, -, hdb, rfl⟩
  · exact hs
  · have hcounts := next_counts ho p
    cases o with
    | more db t' => exact hcounts ▸ hs
    | done db reply =>
      simp only [State.after, List.countP_cons, List.countP_nil] at hcounts ⊢
      omega
  · exact hs
  · cases hdb
    exact hs

/-- Of two calls at once, one gets it. -/
theorem taken_once_two : ∃ s, Runs (store utf8).step (fun _ _ => true = true) (.init ⟨[], 0, 0⟩)
      (saved "a" ++ [.call (.takePending "a"), .call (.takePending "a"), .go 0 (), .go 1 (),
        .go 0 (), .go 0 ()]) s ∧
    s.log.map Prod.snd = [.notFound, .found sample, .saved] ∧
    s.log.countP (taken sample) + s.db.holds sample ≤ s.log.countP (stored sample) := by
  refine (exists_of_run (P := fun s => s.log.map Prod.snd =
    [.notFound, .found sample, .saved]) ?_).imp
    fun s h => ⟨h.1, h.2, taken_once h.1 sample⟩
  decide +kernel

end Jarvis.Mcp.Authorizations
