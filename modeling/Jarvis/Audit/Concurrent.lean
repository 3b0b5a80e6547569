import Jarvis.Audit.Trail
import Jarvis.Pool

/-!
# The audit service: calls of `Append` at the same time

A call of `Append` is a transaction that goes through the tenants of its batch, in order; for each
it inserts the chain if there is none, locks it, reads the ids that are stored, and sends its rows.
Nobody else sees what it has written until it commits (`Local.writes`, `Local.view`), and a row that
it has written or locked stays locked until then (`Local.locked`). Source:
`services/audit/internal/store/store.go`.

At the instant it commits, a transaction has done to the tables what `append` does (`Local.Good`):
the chains it has locked are still those it has read. Locks are taken in the order of the tenants,
so that no transactions wait for each other in a circle.
-/

namespace Jarvis.Audit

open Pool Steps

/-! ### The transaction -/

/-- A call of `Append`, and the time that it takes from the clock. -/
structure Call where
  source : String
  recordTime : Timestamp
  events : List Event

/-- The statement of `appendTenant` that is next. -/
inductive Pc where
  /-- `INSERT INTO chains … ON CONFLICT DO NOTHING` -/
  | ensure
  /-- `SELECT … FROM chains … FOR UPDATE` -/
  | lock
  /-- `SELECT event_id FROM events` -/
  | seen (head : Head)
  /-- `SendBatch` -/
  | send (q : Queue)
  deriving DecidableEq

/-- What a transaction has written: a tenant's row of `chains`, and rows of `events` -/
structure Write where
  tenant : UUID
  head : Head
  rows : List Row

def Write.apply (l : Ledger) (w : Write) : Ledger := ⟨some w.head, l.events ++ w.rows⟩

/-- How far a transaction has come: the tenants that are left, with the one it is at first. -/
structure Local where
  todo : List UUID
  pc : Pc := .ensure
  locked : List UUID := []
  writes : List Write := []
  counts : Counts := ⟨0, 0⟩

abbrev Thread := Call × Local

/-- The tables as the transaction sees them, and as it leaves them when it commits. -/
def Local.view (x : Local) (db : DB) : DB := fun t =>
  (x.writes.filter fun w => w.tenant = t).foldl Write.apply (db t)

def Local.wrote (x : Local) (t : UUID) : Bool := x.writes.any fun w => w.tenant = t

section

variable (sha256 : Bytes → Fixed 32) (db : DB) (others : List Thread)

/-- The batch has been sent; the next tenant is the turn. -/
def Local.sent (x : Local) (t : UUID) (todo : List UUID) (q : Queue) : Local :=
  { x with
    todo := todo
    pc := .ensure
    writes := if q.queued = [] then x.writes
      else x.writes ++
        [⟨t, ⟨q.sequence, q.prev⟩, q.queued.map fun x => x.1.row x.2 (hash sha256 x.2 x.1)⟩]
    counts := ⟨x.counts.recorded + q.queued.length, x.counts.duplicates + q.duplicates⟩ }

/-- The next statement of a transaction. Source: `appendTenant` -/
def next (c : Call) (x : Local) : Option (Pool.Outcome DB Local (Except StoreError Counts)) :=
  match x.todo with
  | [] => some (.done (x.view db) (.ok x.counts))
  | t :: todo =>
    match x.pc with
    | .ensure =>
      -- a row that another transaction is inserting or updating has to be waited for
      if others.any fun o => o.2.wrote t then none
      else if (x.view db t).head.isSome then some (.more db { x with pc := .lock })
      else some (.more db { x with
        pc := .lock, locked := t :: x.locked, writes := x.writes ++ [⟨t, ⟨0, []⟩, []⟩] })
    | .lock =>
      if others.any fun o => t ∈ o.2.locked then none
      else match (x.view db t).head with
        | none => some (.done db (.error .noRows))
        | some head => some (.more db { x with pc := .seen head, locked := t :: x.locked })
    | .seen head =>
      let ids := (eventsOf t c.events).map Event.eventId
      some (.more db { x with
        pc := .send ⟨((x.view db t).events.filter fun r => r.eventId ∈ ids).map Row.eventId,
          head.lastSequence, head.lastHash, [], 0⟩ })
    | .send q =>
      let q := (eventsOf t c.events).foldl (Queue.add sha256 c.source c.recordTime) q
      match (x.view db t).write sha256 q with
      | .error e => some (.done db (.error e))
      | .ok _ => some (.more db (x.sent sha256 t todo q))

end

/-- The audit store. -/
def auditStore (sha256 : Bytes → Fixed 32) :
    System DB Call Local (Except StoreError Counts) Unit Empty where
  enter c := { todo := tenantsOf c.events }
  next db c x others _ := next sha256 db others c x
  env e _ := nomatch e

/-! ### What a transaction sees -/

variable {t : UUID} {db' : DB} {x : Local}

section

variable {db : DB}

theorem Local.view_congr (h : db t = db' t) : x.view db t = x.view db' t := by
  rw [view, view, h]

theorem Local.view_of_not_wrote (h : ∀ w ∈ x.writes, w.tenant ≠ t) : x.view db t = db t := by
  rw [view, List.filter_eq_nil_iff.mpr fun w hw => by simpa using h w hw]
  rfl

/-- One more write. -/
theorem Local.view_write :
    Local.view { x with writes := x.writes ++ [w] } db =
      Function.update (x.view db) w.tenant (Write.apply (x.view db w.tenant) w) := by
  funext s
  by_cases hs : s = w.tenant
  · subst hs
    simp [view]
  · rw [Function.update_of_ne hs]
    simp [view, List.filter_append, Ne.symm hs]

/-- What is written is added, and the chain is there. -/
theorem foldl_apply {ws : List Write} : ∀ {l : Ledger}, ∃ rows,
    (ws.foldl Write.apply l).events = l.events ++ rows ∧
      (l.head.isSome → (ws.foldl Write.apply l).head.isSome) := by
  induction ws with
  | nil =>
    intro l
    exact ⟨[], (List.append_nil _).symm, id⟩
  | cons w ws ih =>
    intro l
    obtain ⟨rows, hrows, hhead⟩ := ih (l := w.apply l)
    exact ⟨w.rows ++ rows, by rw [List.foldl_cons, hrows, Write.apply, List.append_assoc],
      fun _ => hhead rfl⟩

theorem Local.view_grows (x : Local) (db : DB) (t : UUID) : ∃ rows,
    (x.view db t).events = (db t).events ++ rows ∧
      ((db t).head.isSome → (x.view db t).head.isSome) :=
  foldl_apply

theorem Ledger.Holds.view {events : List Event} (h : (db t).Holds events) :
    (x.view db t).Holds events := by
  obtain ⟨rows, hrows, hhead⟩ := x.view_grows db t
  refine ⟨hhead h.head, fun e he => ?_⟩
  rw [hrows, List.map_append]
  exact List.mem_append_left _ (h.ids e he)

end

/-! ### Tenants are independent -/

variable {events : List Event}

section

variable {sha256 : Bytes → Fixed 32} {source : String} {recordTime : Timestamp}

variable {tenants : List UUID}

theorem foldlM_appendOne_of_not_mem :
    ∀ {x y : Counts × DB}, tenants.foldlM (appendOne sha256 source recordTime events) x = .ok y →
      t ∉ tenants → y.2 t = x.2 t := by
  induction tenants with
  | nil =>
    intro x y h _
    cases h
    rfl
  | cons s tenants ih =>
    intro x y h ht
    rw [List.foldlM_cons] at h
    obtain ⟨z, hz, h⟩ := bind_eq_ok.mp h
    obtain ⟨c, l, -, rfl⟩ := appendOne_eq_ok.mp hz
    rw [ih h (List.not_mem_of_not_mem_cons ht)]
    exact Function.update_of_ne (List.ne_of_not_mem_cons ht) _ _

/-- What is done to some tenants depends on nothing but their rows, and changes nothing else. -/
theorem foldlM_appendOne_congr (hdb : ∀ t ∈ tenants, db t = db' t)
    (h : tenants.foldlM (appendOne sha256 source recordTime events) (c, db) = .ok y) :
    tenants.foldlM (appendOne sha256 source recordTime events) (c, db') =
      .ok (y.1, fun t => if t ∈ tenants then y.2 t else db' t) := by
  induction tenants generalizing c db db' with
  | nil =>
    cases h
    simp only [List.not_mem_nil, if_false]
    rfl
  | cons s tenants ih =>
    rw [List.foldlM_cons] at h ⊢
    obtain ⟨z, hz, h⟩ := bind_eq_ok.mp h
    obtain ⟨c', l, hl, rfl⟩ := appendOne_eq_ok.mp hz
    have hl' : (db' s).append sha256 source recordTime (eventsOf s events) = .ok (c', l) := by
      rw [← hdb s (by simp)]
      exact hl
    have hdb' : ∀ t ∈ tenants, Function.update db s l t = Function.update db' s l t := by
      intro t ht
      by_cases hts : t = s
      · rw [hts, Function.update_self, Function.update_self]
      · rw [Function.update_of_ne hts, Function.update_of_ne hts, hdb t (List.mem_cons_of_mem _ ht)]
    rw [appendOne_eq_ok.mpr ⟨c', l, hl', rfl⟩, ok_bind, ih hdb' h]
    refine congrArg (fun d => Except.ok (y.1, d)) (funext fun t => ?_)
    by_cases ht : t ∈ tenants
    · simp [ht]
    · by_cases hts : t = s
      · subst hts
        rw [if_neg ht, if_pos (by simp), foldlM_appendOne_of_not_mem h ht]
        simp
      · rw [if_neg ht, if_neg (by simp [hts, ht]), Function.update_of_ne hts]

end

/-! ### What a transaction knows -/

section

variable (sha256 : Bytes → Fixed 32) (db : DB) (c : Call)

/-- What it knows of the tenant that it is at. -/
def Pc.Good (x : Local) (t : UUID) : Pc → Prop
  | .ensure => True
  | .lock => x.view db t = (db t).ensureChain
  | .seen head => t ∈ x.locked ∧ x.view db t = (db t).ensureChain ∧
      head = (db t).head.getD ⟨0, []⟩
  | .send q => t ∈ x.locked ∧ x.view db t = (db t).ensureChain ∧
      q = (db t).ensureChain.queue (eventsOf t c.events)

/-- With the tenants `done` it is finished. -/
structure Local.Good (x : Local) (done : List UUID) : Prop where
  tenants : tenantsOf c.events = done ++ x.todo
  held : ∀ t ∈ done, t ∈ x.locked
  locked : ∀ t ∈ x.locked, t ∈ done ∨ (x.pc ≠ .ensure ∧ x.todo.head? = some t)
  wrote : ∀ w ∈ x.writes, w.tenant ∈ x.locked
  chains : ∀ t ∈ x.locked, (x.view db t).head.isSome
  result : done.foldlM (appendOne sha256 c.source c.recordTime c.events) (⟨0, 0⟩, db) =
    .ok (x.counts, fun t => if t ∈ done then x.view db t else db t)
  now : ∀ t todo, x.todo = t :: todo → x.pc.Good db c x t

end

variable {sha256 : Bytes → Fixed 32} {db : DB} {c : Call} {done : List UUID} {others : List Thread}

variable {l : Ledger} {log : List (Call × Except StoreError Counts)}
  {s : State DB Call Local (Except StoreError Counts)} {ls : List (Label Call Unit Empty)}
  {counts : Counts}

theorem Ledger.ensureChain_eq_self : l.ensureChain = l ↔ l.head.isSome := by
  obtain ⟨head, events⟩ := l
  cases head <;> simp [ensureChain]

/-- What others do to other tenants makes no difference. -/
theorem Local.Good.congr (h : x.Good sha256 db c done) (hdb : ∀ t ∈ x.locked, db t = db' t)
    (hhead : ∀ t, (db t).head.isSome → (db' t).head.isSome) : x.Good sha256 db' c done where
  tenants := h.tenants
  held := h.held
  locked := h.locked
  wrote := h.wrote
  chains t ht := Local.view_congr (hdb t ht) ▸ h.chains t ht
  result := by
    rw [foldlM_appendOne_congr (fun t ht => hdb t (h.held t ht)) h.result]
    refine congrArg (fun d => Except.ok (x.counts, d)) (funext fun t => ?_)
    by_cases ht : t ∈ done
    · simp only [if_pos ht, Local.view_congr (hdb t (h.held t ht))]
    · simp only [if_neg ht]
  now t todo htodo := by
    have hnow := h.now t todo htodo
    cases hpc : x.pc with
    | ensure => trivial
    | lock =>
      rw [hpc] at hnow
      by_cases ht : t ∈ x.locked
      · exact (Local.view_congr (hdb t ht)).symm.trans (hnow.trans (by rw [hdb t ht]))
      · -- the chain is there, and nobody takes it away
        have hview : ∀ db, x.view db t = db t := fun db =>
          Local.view_of_not_wrote fun w hw hwt => ht (hwt ▸ h.wrote w hw)
        have hsome := Ledger.ensureChain_eq_self.mp ((hnow.symm.trans (hview db)))
        exact (hview db').trans (Ledger.ensureChain_eq_self.mpr (hhead t hsome)).symm
    | seen head =>
      rw [hpc] at hnow
      obtain ⟨ht, hview, hq⟩ := hnow
      exact ⟨ht, (Local.view_congr (hdb t ht)).symm.trans (hview.trans (by rw [hdb t ht])),
        hq.trans (by rw [hdb t ht])⟩
    | send q =>
      rw [hpc] at hnow
      obtain ⟨ht, hview, hq⟩ := hnow
      exact ⟨ht, (Local.view_congr (hdb t ht)).symm.trans (hview.trans (by rw [hdb t ht])),
        hq.trans (by rw [hdb t ht])⟩

theorem Local.Good.enter : Local.Good sha256 db c { todo := tenantsOf c.events } [] where
  tenants := rfl
  held t ht := (List.not_mem_nil ht).elim
  locked t ht := (List.not_mem_nil ht).elim
  wrote w hw := (List.not_mem_nil hw).elim
  chains t ht := (List.not_mem_nil ht).elim
  result := by
    simp only [List.not_mem_nil, if_false]
    rfl
  now t todo _ := trivial

/-- The tenant that a transaction is at is none of those before. -/
theorem Local.Good.not_mem_done {todo : List UUID} (h : x.Good sha256 db c done)
    (htodo : x.todo = t :: todo) : t ∉ done := by
  have hnd : (tenantsOf c.events).Nodup := nodup_tenantsOf
  rw [h.tenants, htodo] at hnd
  exact fun hmem => (List.nodup_append.mp hnd).2.2 t hmem t (by simp) rfl

section

variable {todo : List UUID}

theorem Local.Good.not_locked (h : x.Good sha256 db c done) (htodo : x.todo = t :: todo)
    (hpc : x.pc = .ensure) : t ∉ x.locked := by
  intro ht
  rcases h.locked t ht with hdone | ⟨hne, -⟩
  · exact h.not_mem_done htodo hdone
  · exact hne hpc

theorem Local.Good.view_eq (h : x.Good sha256 db c done) (ht : t ∉ x.locked) : x.view db t = db t :=
  Local.view_of_not_wrote fun w hw hwt => ht (hwt ▸ h.wrote w hw)

/-- The chain is there. -/
theorem Local.Good.found (h : x.Good sha256 db c done) (htodo : x.todo = t :: todo)
    (hpc : x.pc = .ensure) (hhead : (x.view db t).head.isSome) :
    Local.Good sha256 db c { x with pc := .lock } done where
  tenants := h.tenants
  held := h.held
  locked s hs := .inl ((h.locked s hs).resolve_right fun hne => hne.1 hpc)
  wrote := h.wrote
  chains := h.chains
  result := h.result
  now s rest hs := by
    obtain ⟨rfl, -⟩ := List.cons.inj (htodo.symm.trans hs)
    have hview := h.view_eq (h.not_locked htodo hpc)
    exact hview.trans (Ledger.ensureChain_eq_self.mpr (hview ▸ hhead)).symm

/-- The chain is inserted. -/
theorem Local.Good.inserted (h : x.Good sha256 db c done) (htodo : x.todo = t :: todo)
    (hpc : x.pc = .ensure) (hhead : (x.view db t).head = none) :
    Local.Good sha256 db c
      { x with
        pc := .lock, locked := t :: x.locked, writes := x.writes ++ [⟨t, ⟨0, []⟩, []⟩] } done := by
  have hview :
      Local.view ⟨x.todo, .lock, t :: x.locked, x.writes ++ [⟨t, ⟨0, []⟩, []⟩], x.counts⟩ db =
      Function.update (x.view db) t (db t).ensureChain := by
    have hnone : (db t).head = none := h.view_eq (h.not_locked htodo hpc) ▸ hhead
    refine (Local.view_write (x := x)).trans ?_
    rw [h.view_eq (h.not_locked htodo hpc), Write.apply, List.append_nil, Ledger.ensureChain, hnone]
    rfl
  refine ⟨h.tenants, fun s hs => List.mem_cons_of_mem _ (h.held s hs), ?_, ?_, ?_, ?_, ?_⟩
  · intro s hs
    rcases List.mem_cons.mp hs with rfl | hs
    · exact .inr ⟨by rintro ⟨⟩, by rw [htodo]; rfl⟩
    · exact .inl ((h.locked s hs).resolve_right fun hne => hne.1 hpc)
  · intro w hw
    rcases List.mem_append.mp hw with hw | hw
    · exact List.mem_cons_of_mem _ (h.wrote w hw)
    · rw [List.mem_singleton.mp hw]
      exact List.mem_cons_self
  · intro s hs
    rw [hview]
    by_cases hst : s = t
    · subst hst
      rw [Function.update_self]
      rfl
    · rw [Function.update_of_ne hst]
      exact h.chains s ((List.mem_cons.mp hs).resolve_left hst)
  · rw [hview, h.result]
    refine congrArg (fun d => Except.ok (x.counts, d)) (funext fun s => ?_)
    by_cases hs : s ∈ done
    · have hst : s ≠ t := fun hst => h.not_mem_done htodo (hst ▸ hs)
      rw [if_pos hs, if_pos hs, Function.update_of_ne hst]
    · rw [if_neg hs, if_neg hs]
  · intro s rest hs
    obtain ⟨rfl, -⟩ := List.cons.inj (htodo.symm.trans hs)
    refine (congrFun hview t).trans (Function.update_self ..)

variable {head : Head} {q : Queue}

/-- The chain is locked and read. -/
theorem Local.Good.lockChain (h : x.Good sha256 db c done) (htodo : x.todo = t :: todo)
    (hpc : x.pc = .lock) (hhead : (x.view db t).head = some head) :
    Local.Good sha256 db c { x with pc := .seen head, locked := t :: x.locked } done where
  tenants := h.tenants
  held s hs := List.mem_cons_of_mem _ (h.held s hs)
  locked s hs := by
    rcases List.mem_cons.mp hs with rfl | hs
    · exact .inr ⟨by rintro ⟨⟩, by rw [htodo]; rfl⟩
    · exact (h.locked s hs).imp_right fun hne => ⟨by rintro ⟨⟩, hne.2⟩
  wrote w hw := List.mem_cons_of_mem _ (h.wrote w hw)
  chains s hs := by
    rcases List.mem_cons.mp hs with rfl | hs
    · exact Option.isSome_iff_exists.mpr ⟨head, hhead⟩
    · exact h.chains s hs
  result := h.result
  now s rest hs := by
    obtain ⟨rfl, -⟩ := List.cons.inj (htodo.symm.trans hs)
    have hview : x.view db t = (db t).ensureChain := by
      have := h.now t todo htodo
      rwa [hpc] at this
    rw [hview] at hhead
    exact ⟨List.mem_cons_self, hview, (Option.some.inj hhead).symm⟩

/-- The ids are read. -/
theorem Local.Good.readIds (h : x.Good sha256 db c done) (htodo : x.todo = t :: todo)
    (hpc : x.pc = .seen head) :
    Local.Good sha256 db c { x with
      pc := .send ⟨((x.view db t).events.filter fun r =>
        r.eventId ∈ (eventsOf t c.events).map Event.eventId).map Row.eventId,
        head.lastSequence, head.lastHash, [], 0⟩ } done where
  tenants := h.tenants
  held := h.held
  locked s hs := (h.locked s hs).imp_right fun hne => ⟨by rintro ⟨⟩, hne.2⟩
  wrote := h.wrote
  chains := h.chains
  result := h.result
  now s rest hs := by
    obtain ⟨rfl, -⟩ := List.cons.inj (htodo.symm.trans hs)
    have hnow := h.now t todo htodo
    rw [hpc] at hnow
    obtain ⟨hlocked, hview, rfl⟩ := hnow
    refine ⟨hlocked, hview, ?_⟩
    rw [hview]
    rfl

theorem Local.view_sent (h : (x.view db t).write sha256 q = .ok l) :
    (x.sent sha256 t todo q).view db = Function.update (x.view db) t l := by
  rcases Ledger.write_eq_ok h with ⟨hnil, rfl⟩ | ⟨hne, -, rfl⟩
  · rw [Function.update_eq_self]
    simp only [sent, if_pos hnil]
    rfl
  · refine Eq.trans ?_ (Local.view_write (x := x)
      (w := ⟨t, ⟨q.sequence, q.prev⟩, q.queued.map fun x => x.1.row x.2 (hash sha256 x.2 x.1)⟩))
    simp only [sent, if_neg hne]
    rfl

theorem Local.Good.wrote_sent (h : x.Good sha256 db c done) (ht : t ∈ x.locked) :
    ∀ w ∈ (x.sent sha256 t todo q).writes, w.tenant ∈ x.locked := by
  intro w hw
  rw [sent] at hw
  dsimp only at hw
  split_ifs at hw with hnil
  · exact h.wrote w hw
  · rcases List.mem_append.mp hw with hw | hw
    · exact h.wrote w hw
    · rwa [List.mem_singleton.mp hw]

/-- The batch is sent: the transaction is finished with one more tenant. -/
theorem Local.Good.sent (h : x.Good sha256 db c done) (htodo : x.todo = t :: todo)
    (hpc : x.pc = .send q₀)
    (hq : (eventsOf t c.events).foldl (Queue.add sha256 c.source c.recordTime) q₀ = q)
    (hwrite : (x.view db t).write sha256 q = .ok l) :
    (x.sent sha256 t todo q).Good sha256 db c (done ++ [t]) := by
  have hnow := h.now t todo htodo
  rw [hpc] at hnow
  obtain ⟨hlocked, hensure, rfl⟩ := hnow
  have hview : (x.sent sha256 t todo q).view db = _ := Local.view_sent hwrite
  have hone : (db t).append sha256 c.source c.recordTime (eventsOf t c.events) =
      .ok (⟨q.queued.length, q.duplicates⟩, l) := by
    rw [hensure] at hwrite
    rw [Ledger.append, hq, hwrite, ok_bind]
    rfl
  refine ⟨?_, ?_, ?_, h.wrote_sent hlocked, ?_, ?_, fun s rest hs => trivial⟩
  · rw [h.tenants, htodo, List.append_cons]
    rfl
  · intro s hs
    rcases List.mem_append.mp hs with hs | hs
    · exact h.held s hs
    · rw [List.mem_singleton.mp hs]
      exact hlocked
  · intro s hs
    rcases h.locked s hs with hs | ⟨-, hs⟩
    · exact .inl (List.mem_append_left _ hs)
    · rw [htodo, List.head?_cons] at hs
      exact .inl (List.mem_append_right _ (by rw [Option.some.inj hs]; simp))
  · intro s hs
    rw [hview]
    by_cases hst : s = t
    · subst hst
      rw [Function.update_self]
      rcases Ledger.write_eq_ok hwrite with ⟨-, rfl⟩ | ⟨-, -, rfl⟩
      · exact h.chains s hs
      · rfl
    · rw [Function.update_of_ne hst]
      exact h.chains s hs
  · rw [hview, List.foldlM_append, h.result, ok_bind, List.foldlM_cons]
    have hdb : (if t ∈ done then x.view db t else db t) = db t := if_neg (h.not_mem_done htodo)
    rw [appendOne_eq_ok.mpr ⟨_, l, by dsimp only; rw [hdb]; exact hone, rfl⟩,
      ok_bind, List.foldlM_nil]
    refine congrArg (fun d => Except.ok (_, d)) (funext fun s => ?_)
    by_cases hst : s = t
    · subst hst
      simp
    · simp [hst]

/-- A transaction that commits has done what `append` does. -/
theorem Local.Good.append_eq (h : x.Good sha256 db c done) (htodo : x.todo = []) :
    append sha256 c.source c.recordTime c.events db = .ok (x.counts, x.view db) := by
  rw [append, h.tenants, htodo, List.append_nil, h.result]
  refine congrArg (fun d => Except.ok (x.counts, d)) (funext fun s => ?_)
  by_cases hs : s ∈ done
  · rw [if_pos hs]
  · have hlocked : s ∉ x.locked := fun hmem => by
      rcases h.locked s hmem with hd | ⟨-, hnext⟩
      · exact hs hd
      · rw [htodo] at hnext
        cases hnext
    rw [if_neg hs, h.view_eq hlocked]

end

/-! ### Every interleaving -/

/-- No two transactions have locked one chain. -/
def Apart (x y : Thread) : Prop := ∀ t ∈ x.2.locked, t ∉ y.2.locked

instance : Std.Symm Apart where
  symm _ _ h t hy hx := h t hx hy

variable (sha256) in
/-- The tables, and the replies given. -/
structure Kept (db : DB) (log : List (Call × Except StoreError Counts)) : Prop where
  made : db.Made sha256
  replies : ∀ c counts, (c, Except.ok counts) ∈ log →
    counts.recorded + counts.duplicates = c.events.length ∧
      ∀ t ∈ tenantsOf c.events, (db t).Holds (eventsOf t c.events)

variable (sha256) in
/-- What holds in every state. -/
def Sound : State DB Call Local (Except StoreError Counts) → Prop :=
  State.Good (Kept sha256) (fun db c x => ∃ done, x.Good sha256 db c done) Apart

/-- Everything that the next statement of a transaction can be. -/
theorem next_cases (h : next sha256 db others c x = some o) :
    (x.todo = [] ∧ o = .done (x.view db) (.ok x.counts)) ∨
    (∃ e, o = .done db (.error e)) ∨
    ∃ t todo, x.todo = t :: todo ∧
      ((x.pc = .ensure ∧ (∀ y ∈ others, y.2.wrote t = false) ∧
        (((x.view db t).head.isSome ∧ o = .more db { x with pc := .lock }) ∨
          ((x.view db t).head = none ∧ o = .more db { x with
            pc := .lock, locked := t :: x.locked, writes := x.writes ++ [⟨t, ⟨0, []⟩, []⟩] }))) ∨
      (∃ head, x.pc = .lock ∧ (∀ y ∈ others, t ∉ y.2.locked) ∧ (x.view db t).head = some head ∧
        o = .more db { x with pc := .seen head, locked := t :: x.locked }) ∨
      (∃ head, x.pc = .seen head ∧
        o = .more db { x with
          pc := .send ⟨((x.view db t).events.filter fun r =>
            r.eventId ∈ (eventsOf t c.events).map Event.eventId).map Row.eventId,
            head.lastSequence, head.lastHash, [], 0⟩ }) ∨
      (∃ q₀ q l, x.pc = .send q₀ ∧
        (eventsOf t c.events).foldl (Queue.add sha256 c.source c.recordTime) q₀ = q ∧
        (x.view db t).write sha256 q = .ok l ∧ o = .more db (x.sent sha256 t todo q))) := by
  rw [next] at h
  split at h
  next htodo => exact .inl ⟨htodo, (Option.some.inj h).symm⟩
  next t todo htodo =>
    split at h
    next hpc =>
      split_ifs at h with hwait hhead
      · refine .inr (.inr ⟨t, todo, htodo, .inl ⟨hpc, ?_, .inl ⟨hhead, (Option.some.inj h).symm⟩⟩⟩)
        simpa using hwait
      · refine .inr (.inr ⟨t, todo, htodo, .inl ⟨hpc, ?_, .inr ⟨?_, (Option.some.inj h).symm⟩⟩⟩)
        · simpa using hwait
        · simpa using hhead
    next hpc =>
      split_ifs at h with hwait
      split at h
      next hhead => exact .inr (.inl ⟨_, (Option.some.inj h).symm⟩)
      next head hhead =>
        refine .inr
          (.inr ⟨t, todo, htodo, .inr (.inl ⟨head, hpc, ?_, hhead, (Option.some.inj h).symm⟩)⟩)
        simpa using hwait
    next head hpc =>
      exact .inr (.inr ⟨t, todo, htodo, .inr (.inr (.inl ⟨head, hpc, (Option.some.inj h).symm⟩))⟩)
    next q hpc =>
      dsimp only at h
      split at h
      next e he => exact .inr (.inl ⟨e, (Option.some.inj h).symm⟩)
      next l hl =>
        exact .inr (.inr ⟨t, todo, htodo,
          .inr (.inr (.inr ⟨q, _, l, hpc, rfl, hl, (Option.some.inj h).symm⟩))⟩)

/-- A transaction goes on beside the others. -/
theorem Local.Good.next_more (h : x.Good sha256 db c done)
    (hothers : ∀ y ∈ others, (∃ d, y.2.Good sha256 db y.1 d) ∧ Apart (c, x) y)
    (hnext : next sha256 db others c x = some (.more db' x')) :
    db' = db ∧ (∃ d, x'.Good sha256 db c d) ∧ ∀ y ∈ others, Apart (c, x') y := by
  have hkeep : ∀ {x' : Local}, x'.locked = x.locked → ∀ y ∈ others, Apart (c, x') y :=
    fun hl y hy t ht => (hothers y hy).2 t (hl ▸ ht)
  have hlock : ∀ {x' : Local} {t}, x'.locked = t :: x.locked → (∀ y ∈ others, t ∉ y.2.locked) →
      ∀ y ∈ others, Apart (c, x') y := by
    intro x' t hl hfree y hy s hs
    rcases List.mem_cons.mp (hl ▸ hs : s ∈ t :: x.locked) with rfl | hs
    · exact hfree y hy
    · exact (hothers y hy).2 s hs
  rcases next_cases hnext with ⟨-, ho⟩ | ⟨e, ho⟩ | ⟨t, todo, htodo, hcases⟩
  · cases ho
  · cases ho
  rcases hcases with ⟨hpc, hwait, ⟨hhead, ho⟩ | ⟨hhead, ho⟩⟩ | ⟨head, hpc, hwait, hhead, ho⟩ |
    ⟨head, hpc, ho⟩ | ⟨q₀, q, l, hpc, hq, hwrite, ho⟩ <;> obtain ⟨rfl, rfl⟩ :=
      Pool.Outcome.more.inj ho
  · exact ⟨rfl, ⟨done, h.found htodo hpc hhead⟩, hkeep rfl⟩
  · refine ⟨rfl, ⟨done, h.inserted htodo hpc hhead⟩, hlock rfl fun y hy hlocked => ?_⟩
    -- whoever has locked a chain that is not there has inserted it
    obtain ⟨⟨d, hd⟩, -⟩ := hothers y hy
    have hnone : y.2.view db' t = db' t := by
      refine Local.view_of_not_wrote fun w hw hwt => ?_
      have := hwait y hy
      rw [Local.wrote, List.any_eq_false] at this
      exact this w hw (by simpa using hwt)
    have hsome := hd.chains t hlocked
    rw [hnone, ← h.view_eq (h.not_locked htodo hpc), hhead] at hsome
    cases hsome
  · exact ⟨rfl, ⟨done, h.lockChain htodo hpc hhead⟩, hlock rfl hwait⟩
  · exact ⟨rfl, ⟨done, h.readIds htodo hpc⟩, hkeep rfl⟩
  · exact ⟨rfl, ⟨done ++ [t], h.sent htodo hpc hq hwrite⟩, hkeep rfl⟩

/-- A transaction ends: it has failed, or it commits. -/
theorem next_done (h : x.Good sha256 db c done)
    (hnext : next sha256 db others c x = some (.done db' r)) :
    (∃ e, r = .error e ∧ db' = db) ∨
      (r = .ok x.counts ∧ db' = x.view db ∧
        append sha256 c.source c.recordTime c.events db = .ok (x.counts, x.view db)) := by
  rcases next_cases hnext with ⟨htodo, ho⟩ | ⟨e, ho⟩ | ⟨t, todo, htodo, hcases⟩
  · obtain ⟨rfl, rfl⟩ := Pool.Outcome.done.inj ho
    exact .inr ⟨rfl, rfl, h.append_eq htodo⟩
  · obtain ⟨rfl, rfl⟩ := Pool.Outcome.done.inj ho
    exact .inl ⟨e, rfl, rfl⟩
  · rcases hcases with ⟨hpc, hwait, ⟨hhead, ho⟩ | ⟨hhead, ho⟩⟩ | ⟨head, hpc, hwait, hhead, ho⟩ |
      ⟨head, hpc, ho⟩ | ⟨q₀, q, l, hpc, hq, hwrite, ho⟩ <;> cases ho

theorem Kept.commit (h : Kept sha256 db log)
    (happ : append sha256 c.source c.recordTime c.events db = .ok (x.counts, x.view db)) :
    Kept sha256 (x.view db) ((c, .ok x.counts) :: log) := by
  have hall := h.made.append happ
  refine ⟨hall.made, fun c' counts hmem => ?_⟩
  rcases List.mem_cons.mp hmem with heq | hmem
  · obtain ⟨rfl, hc⟩ := Prod.mk.inj heq
    cases hc
    exact ⟨by simpa [sum_length_eventsOf] using hall.count, hall.holds⟩
  · obtain ⟨hcount', hholds'⟩ := h.replies c' counts hmem
    exact ⟨hcount', fun t ht => (hholds' t ht).view⟩

theorem Kept.failed (h : Kept sha256 db log) :
    Kept sha256 db ((c, .error e) :: log) := by
  refine ⟨h.made, fun c' counts hmem => h.replies c' counts ?_⟩
  rcases List.mem_cons.mp hmem with heq | hmem
  · cases (Prod.mk.inj heq).2
  · exact hmem

/-- What others commit makes no difference. -/
theorem Local.Good.of_commit (h : x.Good sha256 db c done) (hy : y.2.Good sha256 db y.1 d)
    (hapart : Apart (c, x) y) :
    y.2.Good sha256 (x.view db) y.1 d := by
  refine hy.congr (fun t ht => ?_) fun t ht => ?_
  · exact (h.view_eq fun hmem => hapart t hmem ht).symm
  · obtain ⟨rows, -, hhead⟩ := x.view_grows db t
    exact hhead ht

/-- Every interleaving keeps the chains. -/
theorem sound_of_runs
    (h : Runs (auditStore sha256).step (fun _ _ => True) (State.init fun _ => ⟨none, []⟩) ls s) :
    Sound sha256 s := by
  refine System.inv ?_ ?_ ?_ ?_ h ⟨⟨fun t => ⟨[], .nil t⟩, fun c counts hmem => ?_⟩,
    fun x hx => (List.not_mem_nil hx).elim, .nil⟩
  · intro s c hs _
    exact ⟨⟨[], .enter⟩, fun y _ t ht => (List.not_mem_nil ht).elim⟩
  · intro s i c x v db x' hs _ hi hnext
    obtain ⟨⟨done, hx⟩, hothers, -⟩ := hs.split hi
    obtain ⟨rfl, hx', hapart⟩ := hx.next_more hothers hnext
    exact ⟨hs.data, hx', fun y hy => ⟨(hothers y hy).1, hapart y hy⟩⟩
  · intro s i c x v db r hs _ hi hnext
    obtain ⟨⟨done, hx⟩, hothers, -⟩ := hs.split hi
    rcases next_done hx hnext with ⟨e, rfl, rfl⟩ | ⟨rfl, rfl, happ⟩
    · exact ⟨hs.data.failed, fun y hy => (hothers y hy).1⟩
    · refine ⟨hs.data.commit happ, fun y hy => ?_⟩
      obtain ⟨⟨d, hd⟩, hapart⟩ := hothers y hy
      exact ⟨d, hx.of_commit hd hapart⟩
  · intro s e
    exact nomatch e
  · exact (List.not_mem_nil hmem).elim

/-! ### Nobody waits in a circle -/

/-- The next statement of one transaction waits for the other. -/
def Waits (x y : Local) : Prop :=
  ∃ t, x.todo.head? = some t ∧
    ((x.pc = .ensure ∧ y.wrote t = true) ∨ (x.pc = .lock ∧ t ∈ y.locked))

/-- One thread waits for another. -/
def WaitsAt (s : State DB Call Local (Except StoreError Counts)) (i j : ℕ) : Prop :=
  i ≠ j ∧ ∃ x y, s.threads[i]? = some x ∧ s.threads[j]? = some y ∧ Waits x.2 y.2

/-- A statement that cannot go on waits for somebody. -/
theorem next_eq_none (h : next sha256 db others c x = none) : ∃ y ∈ others, Waits x y.2 := by
  rw [next] at h
  split at h
  next => cases h
  next t todo htodo =>
    have hhead : x.todo.head? = some t := by rw [htodo, List.head?_cons]
    split at h
    next hpc =>
      split_ifs at h with hwait
      obtain ⟨y, hy, hw⟩ := List.any_eq_true.mp hwait
      exact ⟨y, hy, t, hhead, .inl ⟨hpc, hw⟩⟩
    next hpc =>
      split_ifs at h with hwait
      · obtain ⟨y, hy, hw⟩ := List.any_eq_true.mp hwait
        exact ⟨y, hy, t, hhead, .inr ⟨hpc, of_decide_eq_true hw⟩⟩
      · split at h <;> cases h
    next => cases h
    next =>
      dsimp only at h
      split at h <;> cases h

/-- The tenants of a batch are in order. -/
theorem pairwise_tenantsOf :
    (tenantsOf events).Pairwise fun a b => a.1 < b.1 := by
  have hle : (tenantsOf events).Pairwise fun a b => a.1 ≤ b.1 :=
    List.pairwise_insertionSort (fun a b : UUID => a.1 ≤ b.1) _
  have hne : (tenantsOf events).Pairwise (· ≠ ·) := nodup_tenantsOf
  exact (hle.and hne).imp fun h => lt_of_le_of_ne h.1 (Subtype.coe_ne_coe.mpr h.2)

theorem Local.Good.lt_of_mem_done (h : x.Good sha256 db c done) (ht : t ∈ done)
    (hu : x.todo.head? = some u) : t.1 < u.1 := by
  obtain ⟨todo, htodo⟩ := List.head?_eq_some_iff.mp hu
  have hpair : (tenantsOf c.events).Pairwise fun a b => a.1 < b.1 := pairwise_tenantsOf
  rw [h.tenants, htodo] at hpair
  exact (List.pairwise_append.mp hpair).2.2 t ht u (by simp)

section

variable {i j k : ℕ}

theorem Sound.apart {x y : Thread} (h : Sound sha256 s) (hij : i ≠ j) (hx : s.threads[i]? = some x)
    (hy : s.threads[j]? = some y) : Apart x y :=
  ((h.split hx).2.1 y (List.mem_eraseIdx_iff_getElem?.mpr ⟨j, hij.symm, hy⟩)).2

/-- The tenant that a thread is at. -/
def tenantAt (s : State DB Call Local (Except StoreError Counts)) (i : ℕ) : String :=
  (s.threads[i]?.bind fun x => x.2.todo.head?).elim "" Subtype.val

/-- Whoever is waited for, and waits, waits for a later tenant. -/
theorem Sound.tenantAt_lt (h : Sound sha256 s) (hij : WaitsAt s i j) (hjk : WaitsAt s j k) :
    tenantAt s i < tenantAt s j := by
  obtain ⟨-, x, y, hx, hy, t, ht, hheld⟩ := hij
  obtain ⟨hne, y', z, hy', hz, u, hu, hwait⟩ := hjk
  obtain rfl := Option.some.inj (hy.symm.trans hy')
  obtain ⟨done, hd⟩ := h.thread y (List.mem_of_getElem? hy)
  have hlocked : t ∈ y.2.locked := by
    rcases hheld with ⟨-, hw⟩ | ⟨-, hl⟩
    · obtain ⟨w, hw, hwt⟩ := List.any_eq_true.mp hw
      exact of_decide_eq_true hwt ▸ hd.wrote w hw
    · exact hl
  simp only [tenantAt, hx, hy, Option.bind_some, ht, hu, Option.elim_some]
  rcases hd.locked t hlocked with hdone | ⟨hpc, hcur⟩
  · exact hd.lt_of_mem_done hdone hu
  · -- it has inserted the chain, and nobody else can have locked it
    obtain rfl := Option.some.inj (hcur.symm.trans hu)
    rcases hwait with ⟨hensure, -⟩ | ⟨-, hl⟩
    · exact absurd hensure hpc
    · exact absurd hl (h.apart hne hy hz t hlocked)

/-- In no set of transactions does each wait for another of them. -/
theorem Sound.no_deadlock (h : Sound sha256 s) {W : Finset ℕ} (hW : W.Nonempty) :
    ∃ i ∈ W, ∀ j ∈ W, ¬ WaitsAt s i j := by
  by_contra hall
  push Not at hall
  refine no_circular_wait hW (tenantAt s) hall fun i _ j hj hij => ?_
  obtain ⟨k, -, hjk⟩ := hall j hj
  exact h.tenantAt_lt hij hjk

/-- A thread that cannot go on waits for another. -/
theorem waitsAt_of_step {x : Thread} (hx : s.threads[i]? = some x)
    (hstep : (auditStore sha256).step s (.go i ()) = none) : ∃ j, WaitsAt s i j := by
  have hnext : next sha256 s.db (s.threads.eraseIdx i) x.1 x.2 = none := by
    simpa [System.step, hx, auditStore] using hstep
  obtain ⟨y, hy, hwaits⟩ := next_eq_none hnext
  obtain ⟨j, hji, hj⟩ := List.mem_eraseIdx_iff_getElem?.mp hy
  exact ⟨j, hji.symm, x, y, hx, hj, hwaits⟩

/-- Some transaction can go on, as long as there are any. -/
theorem Sound.progress (h : Sound sha256 s) (hs : s.threads ≠ []) :
    ∃ i, ((auditStore sha256).step s (.go i ())).isSome := by
  by_contra hall
  push Not at hall
  have hne : (Finset.range s.threads.length).Nonempty :=
    Finset.nonempty_range_iff.mpr (by simpa using hs)
  obtain ⟨i, hi, hfree⟩ := h.no_deadlock hne
  obtain ⟨j, hij⟩ := waitsAt_of_step (List.getElem?_eq_getElem (Finset.mem_range.mp hi))
    (Option.not_isSome_iff_eq_none.mp (hall i))
  obtain ⟨-, x, y, -, hj, -⟩ := id hij
  exact hfree j (Finset.mem_range.mpr (List.getElem?_eq_some_iff.mp hj).1) hij

/-- A step that changes the tables is the commit of a batch. -/
theorem Sound.step (h : Sound sha256 s) {l : Label Call Unit Empty}
    {s' : State DB Call Local (Except StoreError Counts)}
    (hstep : (auditStore sha256).step s l = some s') :
    (s'.db = s.db ∧ (s'.log = s.log ∨ ∃ c e, s'.log = (c, .error e) :: s.log)) ∨
      ∃ c counts, s'.log = (c, .ok counts) :: s.log ∧
        append sha256 c.source c.recordTime c.events s.db = .ok (counts, s'.db) := by
  rcases System.step_cases hstep with ⟨c, -, rfl⟩ | ⟨i, v, c, x, o, -, hx, ho, rfl⟩ | ⟨i, -, rfl⟩ |
    ⟨e, -⟩
  · exact .inl ⟨rfl, .inl rfl⟩
  · obtain ⟨⟨done, hd⟩, hothers, -⟩ := h.split hx
    cases o with
    | more db x' =>
      obtain ⟨rfl, -⟩ := hd.next_more hothers ho
      exact .inl ⟨rfl, .inl rfl⟩
    | done db r =>
      rcases next_done hd ho with ⟨e, rfl, rfl⟩ | ⟨rfl, rfl, happ⟩
      · exact .inl ⟨rfl, .inr ⟨c, e, rfl⟩⟩
      · exact .inr ⟨c, x.counts, rfl, happ⟩
  · exact .inl ⟨rfl, .inl rfl⟩
  · exact nomatch e

end

/-- The end of a chain is its last row. -/
theorem Ledger.Made.head_eq {tenant : UUID} {es : List Event} (h : l.Made sha256 tenant es) :
    l.head.getD ⟨0, []⟩ = (l.events.getLast?.map fun r => ⟨r.sequence, r.hash⟩).getD ⟨0, []⟩ := by
  rw [h.head, h.rows]
  rcases List.eq_nil_or_concat es with rfl | ⟨es, e, rfl⟩
  · rfl
  · have hseq : e.sequence = es.length + 1 := by
      have hnum := h.numbered
      rw [List.concat_eq_append, List.map_append, List.length_append, List.length_singleton,
        List.range_succ, List.map_append] at hnum
      have hlast := (List.append_inj' hnum rfl).2
      simpa using hlast
    rw [List.concat_eq_append, chainRows_append, List.foldl_append, List.length_append]
    simp [chainRows, links, Event.row, hseq]

/-- What the batch of a call leaves: every event of it is stored; behind the rows that a tenant had
come so many new ones, each of an event of the batch for this tenant that was not stored, with the
source and the time of the call; and the new rows are as many as the call says. -/
structure Applied (c : Call) (counts : Counts) (db db' : DB) : Prop where
  stored : ∀ e ∈ c.events, e.eventId ∈ (db' e.tenantId).events.map Row.eventId
  rows : ∃ recorded : UUID → ℕ, counts.recorded = ((tenantsOf c.events).map recorded).sum ∧
    ∀ t, (db t).Grows c.source c.recordTime (eventsOf t c.events)
      (if t ∈ tenantsOf c.events then recorded t else 0) (db' t)

theorem mem_tenantsOf (he : e ∈ events) :
    e.tenantId ∈ tenantsOf events :=
  (List.perm_insertionSort _ _).mem_iff.mpr (List.mem_dedup.mpr (List.mem_map_of_mem he))

/-- Every event of a batch that was committed is stored. -/
theorem Kept.stored (h : Kept sha256 db log) (hmem : (c, Except.ok counts) ∈ log) :
    ∀ e ∈ c.events, e.eventId ∈ (db e.tenantId).events.map Row.eventId := fun e he =>
  ((h.replies c counts hmem).2 _ (mem_tenantsOf he)).ids e (List.mem_filter.mpr ⟨he, by simp⟩)

theorem Kept.applied (h : Kept sha256 db log)
    (happ : append sha256 c.source c.recordTime c.events db = .ok (counts, db')) :
    Applied c counts db db' := by
  have hall := h.made.append happ
  obtain ⟨recorded, hsum, hgrows⟩ := hall.grows
  refine ⟨fun e he => ?_, recorded, by simpa using hsum, fun t => ?_⟩
  · exact (hall.holds _ (mem_tenantsOf he)).ids e (List.mem_filter.mpr ⟨he, by simp⟩)
  · split_ifs with ht
    · exact hgrows t ht
    · have hsame : db' t = db t := hall.other t ht
      exact ⟨[], by rw [hsame, List.append_nil], rfl, fun r hr => (List.not_mem_nil hr).elim⟩

/-- What holds of the audit store in a state. -/
structure AppendSafe (sha256 : Bytes → Fixed 32)
    (s : State DB Call Local (Except StoreError Counts)) : Prop where
  /-- A tenant's numbers are `1`, `2`, and so on. -/
  sequences : ∀ t, (s.db t).events.map Row.sequence =
    (List.range (s.db t).events.length).map fun i : ℕ => (i : ℤ) + 1
  /-- No event is stored twice. -/
  ids : ∀ t, Table.Keyed Row.eventId (s.db t).events
  /-- The head is the last event. -/
  head : ∀ t, (s.db t).head.getD ⟨0, []⟩ =
    ((s.db t).events.getLast?.map fun r => ⟨r.sequence, r.hash⟩).getD ⟨0, []⟩
  /-- A batch is applied as a whole, at the instant that it commits, or not at all. -/
  atomic : ∀ l s', (auditStore sha256).step s l = some s' →
    (s'.db = s.db ∧ (s'.log = s.log ∨ ∃ c e, s'.log = (c, .error e) :: s.log)) ∨
      ∃ c counts, s'.log = (c, .ok counts) :: s.log ∧ Applied c counts s.db s'.db
  /-- Every event of a batch that has been applied is stored. -/
  stored : ∀ c counts, (c, Except.ok counts) ∈ s.log → ∀ e ∈ c.events,
    e.eventId ∈ (s.db e.tenantId).events.map Row.eventId
  /-- Each event of a batch that has been applied was recorded or skipped. -/
  counted : ∀ c counts, (c, Except.ok counts) ∈ s.log →
    counts.recorded + counts.duplicates = c.events.length
  /-- A call with its events that commits later changes nothing, and says that all were there. -/
  again : ∀ c counts, (c, Except.ok counts) ∈ s.log → ∀ l s' c' counts',
    (auditStore sha256).step s l = some s' → s'.log = (c', .ok counts') :: s.log →
    c'.events = c.events → s'.db = s.db ∧ counts' = ⟨0, c.events.length⟩
  /-- In no set of transactions does each wait for another of them. -/
  noDeadlock : ∀ W : Finset ℕ, W.Nonempty → ∃ i ∈ W, ∀ j ∈ W, ¬ WaitsAt s i j
  /-- Some transaction can go on. -/
  progress : s.threads ≠ [] → ∃ i, ((auditStore sha256).step s (.go i ())).isSome

/-- **The audit store is safe** in every interleaving of calls of `Append`. -/
theorem append_safe
    (h : Runs (auditStore sha256).step (fun _ _ => True) (State.init fun _ => ⟨none, []⟩) ls s) :
    AppendSafe sha256 s := by
  have hs := sound_of_runs h
  refine ⟨fun t => ?_, fun t => ?_, fun t => ?_, fun l s' hstep => ?_,
    fun c counts => hs.data.stored,
    fun c counts hmem => (hs.data.replies c counts hmem).1, ?_,
      fun W => hs.no_deadlock, hs.progress⟩
  · obtain ⟨es, hes⟩ := hs.data.made t
    have hlen : (s.db t).events.length = es.length := by
      rw [← List.length_map Row.sequence, hes.sequences, List.length_map, List.length_range]
    rw [hes.sequences, hlen]
  · obtain ⟨es, hes⟩ := hs.data.made t
    rw [Table.Keyed, hes.eventIds]
    exact hes.ids
  · obtain ⟨es, hes⟩ := hs.data.made t
    exact hes.head_eq
  · rcases hs.step hstep with hsame | ⟨c, counts, hlog, happ⟩
    · exact .inl hsame
    · exact .inr ⟨c, counts, hlog, hs.data.applied happ⟩
  · intro c counts hmem l s' c' counts' hstep hlog hevents
    rcases hs.step hstep with ⟨-, hnone | ⟨c₁, e, herror⟩⟩ | ⟨c₁, counts₁, hlog₁, happ⟩
    · exact absurd (hnone.symm.trans hlog) (by simp)
    · cases (List.cons.inj (herror.symm.trans hlog)).1
    · cases (List.cons.inj (hlog₁.symm.trans hlog)).1
      have hagain : append sha256 c'.source c'.recordTime c'.events s.db =
          .ok (⟨0, c'.events.length⟩, s.db) :=
        append_again (hevents ▸ (hs.data.replies c counts hmem).2)
      obtain ⟨hcounts, hdb⟩ := Prod.mk.inj (Except.ok.inj (happ.symm.trans hagain))
      exact ⟨hdb, hevents ▸ hcounts⟩

/-- Two services send one event at the same time; the second waits for the first to commit. -/
def sentTwice : List (Label Call Unit Empty) :=
  [.call ⟨"app-api", epoch, [signIn .empty]⟩, .go 0 (),
    .call ⟨"vault", ⟨1, by decide, by decide⟩, [signIn .empty]⟩,
    .go 1 (), .go 1 (), .go 1 (), .go 1 (), .go 0 (), .go 0 (), .go 0 (), .go 0 (), .go 0 ()]

/-- The event is stored once, and the second call says that it was there. -/
theorem append_safe_sentTwice : ∃ s, Runs (auditStore zeros).step (fun _ _ => True)
      (State.init fun _ => ⟨none, []⟩) sentTwice s ∧ AppendSafe zeros s ∧
    (s.log.map fun x => x.2.toOption) = [some ⟨0, 1⟩, some ⟨1, 0⟩] ∧
    ((s.db (signIn .empty).tenantId).events.map fun r => (r.sequence, r.source)) =
    [(1, "app-api")] := by
  obtain ⟨s, hrun, hlog, hrows⟩ : ∃ s, Runs (auditStore zeros).step (fun _ _ => true = true)
      (.init fun _ => ⟨none, []⟩) sentTwice s ∧
        (s.log.map fun x => x.2.toOption) = [some ⟨0, 1⟩, some ⟨1, 0⟩] ∧
        ((s.db (signIn .empty).tenantId).events.map fun r => (r.sequence, r.source)) =
          [(1, "app-api")] := exists_of_run (by decide +kernel)
  have hruns : Runs (auditStore zeros).step (fun _ _ => True) (State.init fun _ => ⟨none, []⟩)
      sentTwice s := hrun.weaken fun _ _ _ => trivial
  exact ⟨s, hruns, append_safe hruns, hlog, hrows⟩

end Jarvis.Audit
