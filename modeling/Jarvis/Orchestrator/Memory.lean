import Jarvis.Orchestrator.Confirmations
import Jarvis.Orchestrator.Progress

/-!
# Conversations that become memory

`Close` and `closeAbandoned` close a conversation with one statement and queue its memory extraction
with another. Between the two nothing but the running thread knows that the conversation is to be
remembered (`OwesMemory`): a second `Close` finds it closed, and `closeAbandoned` looks for open
ones.
-/

namespace Jarvis.Orchestrator

open Interleave Engine Table

variable {P : Params} {k : UUID} {past : Log}

/-! ## Who closes, and who queues -/

/-- The statement closed the conversation, and its thread knows. -/
def closesFor (k : UUID) (x : Exchange) : Prop :=
  x = did (.closeConversation k) (.ok true) ∨ ∃ ids, x = did .closeAbandoned (.ok ids) ∧ k ∈ ids

/-- The thread was told that there is no such conversation. -/
def missing (k : UUID) (x : Exchange) : Prop := x = did (.conversation k) (.error .notFound)

/-- The thread has closed the conversation and not queued its memory since. -/
def OwesMemory (k : UUID) : Log → Prop
  | [] => False
  | x :: past => closesFor k x ∨ (OwesMemory k past ∧ x.1 ≠ .db (.queueMemoryJob k) ∧ ¬ missing k x)

/-- Requests that close conversations. -/
def Instr.closing : Instr → Bool
  | .db (.closeConversation _) | .db .closeAbandoned => true
  | _ => false

variable {x : Exchange} {q : Query} {ok : Cfg → Lbl → Prop} {c c' : Cfg}

theorem closesFor.closing (h : closesFor k x) : x.1.closing = true := by
  rcases h with rfl | ⟨ids, rfl, -⟩ <;> rfl

theorem closesFor_closeConversation {id : UUID} {r : Res Bool} :
    closesFor k (did (.closeConversation id) r) ↔ k = id ∧ r = .ok true := by
  constructor
  · rintro (h | ⟨ids, h, -⟩)
    · cases h
      exact ⟨rfl, rfl⟩
    · cases h
  · rintro ⟨rfl, rfl⟩
    exact .inl rfl

theorem closesFor_closeAbandoned :
    closesFor k (did .closeAbandoned r) ↔ ∃ ids, r = .ok ids ∧ k ∈ ids := by
  constructor
  · rintro (h | ⟨ids, h, hk⟩)
    · cases h
    · cases h
      exact ⟨ids, rfl, hk⟩
  · rintro ⟨ids, rfl, hk⟩
    exact .inr ⟨ids, rfl, hk⟩

/-- Only a thread that has closed a conversation queues its memory. -/
def QueuesOwn (past : Log) (i : Instr) : Prop :=
  ∀ k, i = .db (.queueMemoryJob k) → ∃ x ∈ past, closesFor k x

/-- A thread that closes nothing comes to owe nothing. -/
theorem OwesMemory.of_cons (h : OwesMemory k (x :: past)) (hx : x.1.closing = false) :
    OwesMemory k past := by
  rcases h with h | h
  · rw [h.closing] at hx
    cases hx
  · exact h.1

/-! ## The programs -/

/-- A program that closes nothing. -/
abbrev Unclosing {α : Type} (p : Op α) : Prop :=
  p.Only fun i => i.closing = false ∧ ∀ k, i ≠ .db (.queueMemoryJob k)

theorem Unclosing.ask (h : i.closing = false) (hq : ∀ k, i ≠ .db (.queueMemoryJob k)) :
    Unclosing (ask i) := .call ⟨h, hq⟩

theorem Unclosing.query (h : (Instr.db q).closing = false)
    (hq : ∀ k, Instr.db q ≠ .db (.queueMemoryJob k)) : Unclosing (query q) := .call ⟨h, hq⟩

theorem Unclosing.spec {α : Type} {p : Op α} (h : Unclosing p) (hp : ∀ k, ¬ OwesMemory k past) :
    p.Spec QueuesOwn (fun past _ => ∀ k, ¬ OwesMemory k past) past := by
  refine Prog.Only.spec h (fun past => ∀ k, ¬ OwesMemory k past) hp (fun past i hC hi => ?_)
    fun _ _ hC => hC
  exact ⟨fun k hk => absurd hk (hi.2 k), fun r k hk => hC k (hk.of_cons hi.1)⟩

theorem unclosing_dropAll (as : List DeviceApproval) : Unclosing (dropAll P as) := by
  induction as with
  | nil => exact .pure _
  | cons a as ih =>
    refine .bind ?_ fun _ => ih
    unfold dropApproval finished auditFinished emit notify audit onlyIf
    repeat' with_reducible first
      | exact .pure _ | refine Unclosing.query ?_ ?_ | refine Unclosing.ask ?_ ?_
      | refine .bind ?_ fun _ => ?_ | split
    all_goals first | rfl | nofun

theorem unclosing_resumeExpired (cs : List Confirmation) : Unclosing (resumeExpired P cs) := by
  induction cs with
  | nil => exact .pure _
  | cons c cs ih =>
    unfold resumeExpired
    split
    · exact ih
    · exact .bind (Unclosing.query rfl nofun) fun _ => ih

/-- `queueAll` pays what is owed. -/
theorem queueAll_spec (hown : ∀ k ∈ ids, ∃ x ∈ past, closesFor k x)
    (howes : ∀ k, OwesMemory k past → k ∈ ids) :
    (queueAll ids).Spec QueuesOwn (fun past _ => ∀ k, ¬ OwesMemory k past) past := by
  induction ids generalizing past with
  | nil => exact fun k hk => nomatch howes k hk
  | cons id ids ih =>
    refine (Prog.spec_bind _ _).mpr ⟨?_, fun r => ih ?_ ?_⟩
    · rintro k ⟨⟩
      exact hown id (List.mem_cons_self ..)
    · intro k hk
      obtain ⟨x, hx, hclose⟩ := hown k (List.mem_cons_of_mem _ hk)
      exact ⟨x, List.mem_cons_of_mem _ hx, hclose⟩
    · intro k hk
      rcases hk with hk | ⟨hk, hne, -⟩
      · cases hk.closing
      · rcases List.mem_cons.mp (howes k hk) with rfl | hmem
        · exact absurd rfl hne
        · exact hmem

theorem maintenance_spec (lastPurge : Option Time) :
    (maintenance P lastPurge).Spec QueuesOwn (fun past _ => ∀ k, ¬ OwesMemory k past) [] := by
  have hclose : ∀ past : Log, (∀ k, ¬ OwesMemory k past) →
      closeAbandoned.Spec QueuesOwn (fun past _ => ∀ k, ¬ OwesMemory k past) past := by
    intro past hp
    refine (Prog.spec_bind _ _).mpr ⟨nofun, fun r => ?_⟩
    match r with
    | .error e =>
      rintro k (hk | ⟨hk, -⟩)
      · obtain ⟨ids, h, -⟩ := closesFor_closeAbandoned.mp hk
        cases h
      · exact hp k hk
    | .ok ids =>
      refine queueAll_spec (fun k hk => ⟨_, List.mem_cons_self .., .inr ⟨ids, rfl, hk⟩⟩) ?_
      rintro k (hk | ⟨hk, -⟩)
      · obtain ⟨ids', h, hk⟩ := closesFor_closeAbandoned.mp hk
        cases h
        exact hk
      · exact absurd hk (hp k)
  have hexpire : Unclosing (expireApprovals P) := by
    refine .bind (Unclosing.query rfl nofun) fun r => ?_
    split
    · exact .pure _
    · exact unclosing_dropAll _
  have hresume : Unclosing (expireConfirmations P) := by
    refine .bind (Unclosing.query rfl nofun) fun r => ?_
    split
    · exact .pure _
    · exact unclosing_resumeExpired _
  have hnone : ∀ k : UUID, ¬ OwesMemory k [] := fun _ h => h
  refine (Prog.spec_bind _ _).mpr
    ((Unclosing.spec (Unclosing.ask (i := .ctxErr) rfl nofun) hnone).post fun past done hp => ?_)
  split
  · exact hp
  refine (Prog.spec_bind _ _).mpr ((hclose past hp).post fun past _ hp => ?_)
  refine (Prog.spec_bind _ _).mpr ((hexpire.spec hp).post fun past _ hp => ?_)
  refine (Prog.spec_bind _ _).mpr ((hresume.spec hp).post fun past _ hp => ?_)
  refine Unclosing.spec (.bind (Unclosing.ask rfl nofun) fun now => ?_) hp
  split
  · exact .bind (Unclosing.query rfl nofun) fun _ => .bind (Unclosing.query rfl nofun) fun _ =>
      .bind (Unclosing.ask rfl nofun) fun _ => .pure _
  · exact .pure _

/-- `Close` queues what it has closed, unless it is told that there is nothing to close. -/
theorem closeSession_spec (id : UUID) :
    (closeSession id).Spec QueuesOwn (fun past _ => ∀ k, ¬ OwesMemory k past) [] := by
  refine (Prog.spec_bind _ _).mpr ⟨nofun, fun r => ?_⟩
  match r with
  | .error e =>
    rintro k (hk | ⟨hk, -⟩)
    · cases (closesFor_closeConversation.mp hk).2
    · exact hk
  | .ok closed =>
    refine (Prog.spec_bind _ _).mpr ⟨nofun, fun r => ?_⟩
    -- Nothing else than `id` is owed, and that only if it was closed.
    have howes : ∀ {k x}, OwesMemory k [x, did (.closeConversation id) (.ok closed)] →
        x.1.closing = false → k = id ∧ closed = true ∧ ¬ missing k x := by
      rintro k x (hk | ⟨hk | hk, -, hm⟩) hx
      · rw [hk.closing] at hx
        cases hx
      · obtain ⟨rfl, h⟩ := closesFor_closeConversation.mp hk
        cases h
        exact ⟨rfl, rfl, hm⟩
      · exact hk.1.elim
    refine Prog.spec_ret.mpr ?_
    split
    · intro k hk
      obtain ⟨rfl, -, hm⟩ := howes hk rfl
      exact hm rfl
    · split
      · rename_i hclosed
        subst hclosed
        refine (Prog.spec_bind _ _).mpr ⟨?_, fun r => ?_⟩
        · rintro k ⟨⟩
          exact ⟨_, List.mem_cons_of_mem _ (List.mem_cons_self ..), .inl rfl⟩
        · have hpaid : ∀ r' k, ¬ OwesMemory k [did (.queueMemoryJob id) r,
              did (.conversation id) r', did (.closeConversation id) (.ok true)] := by
            rintro r' k (hk | ⟨hk, hne, -⟩)
            · cases hk.closing
            · obtain ⟨rfl, -⟩ := howes hk rfl
              exact hne rfl
          match r with
          | .error _ => exact hpaid _
          | .ok () => exact hpaid _
      · rename_i hclosed
        intro k hk
        exact hclosed (howes hk rfl).2.1

/-- **Every program queues the memory of what it has closed.** -/
theorem body_remembers (j : Job) :
    (body P j).Spec QueuesOwn (fun past _ => ∀ k, ¬ OwesMemory k past) [] := by
  by_cases hj : (∃ id, j = .closeConversation id) ∨ ∃ last, j = .maintenance last
  · rcases hj with ⟨id, rfl⟩ | ⟨last, rfl⟩
    · exact (Prog.spec_bind _ _).mpr ((closeSession_spec id).post fun _ _ h => h)
    · refine (Prog.spec_bind _ _).mpr ((maintenance_spec last).post fun _ b h => ?_)
      split <;> exact h
  · -- No other job may make such a request.
    have hdoes : ∀ {ks : Log} {i : Instr}, Does P j ks i →
        i.closing = false ∧ ∀ k, i ≠ .db (.queueMemoryJob k) := by
      intro ks i h
      cases h
      case free h =>
        cases i with
        | db q =>
          cases q with
          | closeConversation | closeAbandoned | queueMemoryJob => cases h
          | _ => exact ⟨rfl, nofun⟩
        | _ => exact ⟨rfl, nofun⟩
      case close | queueClosed => exact (hj (.inl ⟨_, rfl⟩)).elim
      case closeAbandoned | queueAbandoned => exact (hj (.inr ⟨_, rfl⟩)).elim
      all_goals exact ⟨rfl, nofun⟩
    have hspec := (body_spec (P := P) j).keeps (fun past => ∀ k, ¬ OwesMemory k past) (fun _ h => h)
      fun past i r hi hp k hk => hp k (hk.of_cons (hdoes hi).1)
    exact hspec.mono (fun past i hi k hk => absurd hk ((hdoes hi).2 k)) fun _ _ h => h.1

/-! ## The rows -/

/-- The conversation is closed. -/
def DB.closed (db : DB) (k : UUID) : Bool := (db.conversation k).any fun c => c.closedAt.isSome

/-- The conversation is closed, and there is no memory job for it. -/
def DB.forgotten (db : DB) (k : UUID) : Bool := db.closed k && (db.memoryJob k).isNone

theorem DB.forgotten_iff {db : DB} :
    db.forgotten k = true ↔ db.closed k = true ∧ db.memoryJob k = none := by
  simp [DB.forgotten]

section Rows

variable {locked : List ℕ} {now : Time} {db : DB}

/-- A memory job stays. -/
theorem Query.exec_memoryJob (h : (q.exec locked now db).2.memoryJob k = none) :
    db.memoryJob k = none := by
  by_cases hw : Tab.memoryJobs ∈ q.writes
  · have hset : ∀ {p : MemoryJob → Bool} {f : MemoryJob → MemoryJob},
        row MemoryJob.conversationID k (Table.set p f db.memoryJobs) = none →
        (∀ j, (f j).conversationID = j.conversationID) → db.memoryJob k = none := by
      intro p f h hf
      rw [row_set hf] at h
      exact Option.map_eq_none_iff.mp h
    cases q with
    | queueMemoryJob id =>
      simp only [exec, DB.queueMemoryJob] at h
      split_ifs at h
      · exact h
      · exact h
      · exact (Option.or_eq_none_iff.mp ((row_insert ..).symm.trans h)).1
    | leaseMemoryJob duration =>
      simp only [exec, DB.leaseMemoryJob] at h
      split at h
      · exact h
      · exact hset h fun _ => rfl
    | finishMemoryJob id state retryAfter => exact hset h fun _ => rfl
    | _ => simp [Query.writes] at hw
  · have hsame : db.Same (q.exec locked now db).2 .memoryJobs := Query.exec_same _ hw
    unfold DB.memoryJob at h ⊢
    rwa [hsame] at h

/-- The statement closes such a conversation. -/
def Query.closes (q : Query) (now : Time) (c : Conversation) : Bool :=
  match q with
  | .closeConversation id => c.id = id ∧ c.closedAt = none
  | .closeAbandoned => c.closedAt = none ∧ c.createdAt < now - DB.conversationLifetime
  | _ => false

/-- How a conversation is closed: by a statement that says so. -/
theorem Query.exec_isClosed (hkey : Keyed Conversation.id db.conversations)
    (h : (q.exec locked now db).2.closed k = true) : db.closed k = true ∨
      db.conversations.any (q.closes now) = true ∧
      closesFor k (did q (q.exec locked now db).1) := by
  obtain ⟨c', hc', hclosed⟩ := (Option.any_eq_true ..).mp h
  -- The row before the update, which was closed, or is one of those the statement closes.
  have hset : ∀ {p : Conversation → Bool} {f : Conversation → Conversation},
      row Conversation.id k (Table.set p f db.conversations) = some c' → (∀ c, (f c).id = c.id) →
      db.closed k = true ∨ ∃ c, db.conversation k = some c ∧ p c = true ∧ f c = c' := by
    intro p f h hf
    obtain ⟨c, hc, hcc'⟩ := of_row_set h hf
    split_ifs at hcc' with hp
    · exact .inr ⟨c, hc, hp, hcc'⟩
    · rw [hcc'] at hc
      exact .inl ((Option.any_eq_true ..).mpr ⟨c', hc, hclosed⟩)
  by_cases hw : Tab.conversations ∈ q.writes
  · cases q with
    | createConversation c =>
      simp only [exec, DB.createConversation] at hc'
      split_ifs at hc' with hnew
      · exact .inl ((Option.any_eq_true ..).mpr ⟨c', hc', hclosed⟩)
      · rcases Option.or_eq_some_iff.mp ((row_insert ..).symm.trans hc') with hc | ⟨-, hc⟩
        · exact .inl ((Option.any_eq_true ..).mpr ⟨c', hc, hclosed⟩)
        · split_ifs at hc
          cases hc
          cases hclosed
    | advanceTurn id turn =>
      rcases hset hc' (fun _ => rfl) with h | ⟨c, hc, -, rfl⟩
      · exact .inl h
      · exact .inl ((Option.any_eq_true ..).mpr ⟨c, hc, hclosed⟩)
    | closeConversation id =>
      rcases hset hc' (fun _ => rfl) with h | ⟨c, hc, hp, -⟩
      · exact .inl h
      · have hid : k = id := (row_key hc).symm.trans (of_decide_eq_true hp).1
        have hany : db.conversations.any ((Query.closeConversation id).closes now) = true :=
          List.any_eq_true.mpr ⟨c, row_mem hc, hp⟩
        refine .inr ⟨hany, closesFor_closeConversation.mpr ⟨hid, ?_⟩⟩
        have hle := hkey.countP_le_one (p := (Query.closeConversation id).closes now) (k := id)
          fun x _ hx => (of_decide_eq_true hx).1
        have hpos := List.countP_pos_iff.mpr (List.any_eq_true.mp hany)
        exact congrArg Except.ok (decide_eq_true (Nat.le_antisymm hle hpos))
    | closeAbandoned =>
      rcases hset hc' (fun _ => rfl) with h | ⟨c, hc, hp, -⟩
      · exact .inl h
      · have hany : db.conversations.any (Query.closeAbandoned.closes now) = true :=
          List.any_eq_true.mpr ⟨c, row_mem hc, hp⟩
        refine .inr ⟨hany, closesFor_closeAbandoned.mpr ⟨_, rfl, ?_⟩⟩
        exact List.mem_map.mpr ⟨c, List.mem_filter.mpr ⟨row_mem hc, hp⟩, row_key hc⟩
    | _ => simp [Query.writes] at hw
  · have hsame : db.Same (q.exec locked now db).2 .conversations := Query.exec_same _ hw
    unfold DB.conversation at hc'
    rw [hsame] at hc'
    exact .inl ((Option.any_eq_true ..).mpr ⟨c', hc', hclosed⟩)

/-- A closed conversation stays closed. -/
theorem Query.exec_stays (h : db.closed k = true) :
    (q.exec locked now db).2.closed k = true := by
  obtain ⟨c, hc, hclosed⟩ := (Option.any_eq_true ..).mp h
  have hset : ∀ {p : Conversation → Bool} {f : Conversation → Conversation} {db' : DB},
      db'.conversations = Table.set p f db.conversations → (∀ c, (f c).id = c.id) →
      (f c).closedAt.isSome = true → db'.closed k = true := by
    intro p f db' hdb hf hfc
    refine (Option.any_eq_true ..).mpr ⟨if p c then f c else c, ?_, ?_⟩
    · rw [DB.conversation, hdb]
      exact row_set_some hf hc
    · split_ifs
      · exact hfc
      · exact hclosed
  by_cases hw : Tab.conversations ∈ q.writes
  · cases q with
    | createConversation c' =>
      simp only [exec, DB.createConversation]
      split_ifs
      · exact h
      · refine (Option.any_eq_true ..).mpr ⟨c, ?_, hclosed⟩
        exact (row_insert ..).trans (Option.or_eq_some_iff.mpr (.inl hc))
    | advanceTurn id turn => exact hset rfl (fun _ => rfl) hclosed
    | closeConversation | closeAbandoned => exact hset rfl (fun _ => rfl) rfl
    | _ => simp [Query.writes] at hw
  · have hsame : db.Same (q.exec locked now db).2 .conversations := Query.exec_same _ hw
    unfold DB.closed DB.conversation
    rw [hsame]
    exact h

/-- A conversation is closed once. -/
theorem Query.exec_open (h : db.closed k = true) (hkey : Keyed Conversation.id db.conversations) :
    ¬ closesFor k (did q (q.exec locked now db).1) := by
  obtain ⟨c, hc, hclosed⟩ := (Option.any_eq_true ..).mp h
  have hopen : ∀ x ∈ db.conversations, x.id = k → x.closedAt ≠ none := by
    intro x hx hid hnone
    rw [← hid, DB.conversation, hkey.row_eq hx] at hc
    cases hc
    rw [hnone] at hclosed
    cases hclosed
  intro hcl
  cases q with
  | closeConversation id =>
    obtain ⟨rfl, hone⟩ := closesFor_closeConversation.mp hcl
    have hcount : db.conversations.countP ((Query.closeConversation k).closes now) = 1 :=
      of_decide_eq_true (Except.ok.inj hone)
    obtain ⟨x, hx, hp⟩ := List.countP_pos_iff.mp (hcount ▸ Nat.one_pos)
    exact hopen x hx (of_decide_eq_true hp).1 (of_decide_eq_true hp).2
  | closeAbandoned =>
    obtain ⟨ids, hids, hk⟩ := closesFor_closeAbandoned.mp hcl
    cases hids
    obtain ⟨x, hx, hid⟩ := List.mem_map.mp hk
    obtain ⟨hx, hp⟩ := List.mem_filter.mp hx
    exact hopen x hx hid (of_decide_eq_true hp).1
  | _ => cases hcl.closing

/-- A memory job comes from the statement that queues it. -/
theorem Query.exec_queues (h : db.memoryJob k = none) (hq : q ≠ .queueMemoryJob k) :
    (q.exec locked now db).2.memoryJob k = none := by
  have hset : ∀ {p : MemoryJob → Bool} {f : MemoryJob → MemoryJob} {db' : DB},
      db'.memoryJobs = Table.set p f db.memoryJobs →
      (∀ j, (f j).conversationID = j.conversationID) → db'.memoryJob k = none := by
    intro p f db' hdb hf
    rw [DB.memoryJob, hdb, row_set hf]
    exact Option.map_eq_none_iff.mpr h
  by_cases hw : Tab.memoryJobs ∈ q.writes
  · cases q with
    | queueMemoryJob id =>
      simp only [exec, DB.queueMemoryJob]
      split_ifs
      · exact h
      · exact h
      · refine (row_insert ..).trans (Option.or_eq_none_iff.mpr ⟨h, if_neg ?_⟩)
        rintro rfl
        exact hq rfl
    | leaseMemoryJob duration =>
      simp only [exec, DB.leaseMemoryJob]
      split
      · exact h
      · exact hset rfl fun _ => rfl
    | finishMemoryJob id state retryAfter => exact hset rfl fun _ => rfl
    | _ => simp [Query.writes] at hw
  · have hsame : db.Same (q.exec locked now db).2 .memoryJobs := Query.exec_same _ hw
    unfold DB.memoryJob
    rw [hsame]
    exact h

/-- A closed conversation whose memory is queued has a memory job. -/
theorem queueMemoryJob_runs (h : db.closed k = true) :
    ((Query.queueMemoryJob k).exec locked now db).2.memoryJob k ≠ none := by
  obtain ⟨c, hc, -⟩ := (Option.any_eq_true ..).mp h
  simp only [Query.exec, DB.queueMemoryJob, hc]
  split_ifs with hnone hsome
  · cases hnone
  · exact Option.isSome_iff_ne_none.mp hsome
  · intro h
    have hrow := (Option.or_eq_none_iff.mp ((row_insert ..).symm.trans h)).2
    simp at hrow

end Rows

/-! ## Runs -/

/-- No statement that closes a conversation is lost, and none that queues what would be forgotten
fails. -/
def remembersSafely (c : Cfg) (i : Instr) (o : Oracle) : Bool :=
  match i with
  | .db q =>
    (!o.isLost || !c.shared.db.conversations.any (q.closes c.shared.now)) &&
      match q with
      | .queueMemoryJob k => !o.fails || !c.shared.db.forgotten k
      | _ => true
  | _ => true

/-- The runs in which closing is not torn apart from queueing: not by a failure, and not by a
process that stops. -/
def Remembers : Cfg → Lbl → Prop :=
  guarded remembersSafely fun c p => ∀ tid th, c.threads tid = some th → th.proc = p →
    ∀ k, c.shared.db.forgotten k = true → ¬ OwesMemory k th.past

/-- Conversations have primary keys. -/
theorem Query.exec_keyed_conversations (h : Keyed Conversation.id db.conversations) :
    Keyed Conversation.id (q.exec locked now db).2.conversations := by
  cases q
  case createConversation c =>
    simp only [exec, DB.createConversation]
    split_ifs with hnot
    · exact h
    · simp only [Bool.or_eq_true, not_or, Option.not_isSome_iff_eq_none] at hnot
      exact h.insert hnot.1.1
  case advanceTurn => exact h.set fun _ => rfl
  case closeConversation => exact h.set fun _ => rfl
  case closeAbandoned => exact h.set fun _ => rfl
  all_goals
    simp only [exec, DB.recordTurn, DB.saveToolCall, DB.createTask, DB.leaseTask, DB.resumeTask,
      DB.cancelTask, DB.createConfirmation, DB.settle, DB.addEvent, DB.carryOverEvents,
        DB.upsertDevice, DB.saveApproval, DB.queueMemoryJob, DB.leaseMemoryJob]
    repeat' split
    all_goals exact h

theorem Reaches.keyed_conversations (h : Reaches P ok c) :
    Keyed Conversation.id c.shared.db.conversations := by
  refine Reach.inv (P := fun s _ => Keyed Conversation.id s.db.conversations) h ?_ ?_ ?_
  · exact List.nodup_nil
  · intro c tid o th i k r s _ hkey _ hf
    rcases answer_db_eq hf.answer with hsame | ⟨q, locked, -, hdb⟩
    · rwa [hsame]
    · rw [hdb]
      exact Query.exec_keyed_conversations hkey
  · intro c v s _ hkey _ hv
    rwa [World.step_db hv]

section Fire

variable {tid : ℕ} {o : Oracle} {th : Thread Instr Answer Job} {i : Instr}
  {next : Answer i → Op (List Job)} {r : Answer i} {s : Shared}

/-- **A conversation without memory** was so before the step, and its thread owes it as before; or
the thread that made the step owes it. -/
theorem Remembers.fire (hr : Reaches P Remembers c) (hok : Remembers c (.exec tid o))
    (hf : Fires (machine P) c tid o th i next r s) (h : s.db.forgotten k = true) :
    (c.shared.db.forgotten k = true ∧ (OwesMemory k th.past → OwesMemory k (⟨i, r⟩ :: th.past))) ∨
      OwesMemory k (⟨i, r⟩ :: th.past) := by
  have hkey := hr.keyed_conversations
  have hg := guarded.exec hok hf
  obtain ⟨hclosed, hjob⟩ := DB.forgotten_iff.mp h
  by_cases hbefore : c.shared.db.forgotten k = true
  · refine .inl ⟨hbefore, fun ho => .inr ⟨ho, ?_, ?_⟩⟩
    · rintro rfl
      have hruns : o.fails = false := by
        have hsafe := ((Bool.and_eq_true _ _).mp hg).2
        simpa [hbefore] using hsafe
      obtain ⟨locked, rfl⟩ := answer_runs hf.answer hruns
      exact queueMemoryJob_runs (DB.forgotten_iff.mp hbefore).1 hjob
    · -- The row of the conversation is there.
      intro hm
      cases hm
      obtain ⟨conv, hconv, -⟩ := (Option.any_eq_true ..).mp (DB.forgotten_iff.mp hbefore).1
      rcases answer_db hf.answer with ⟨hfail, -⟩ | ⟨locked, -, hread | hfail⟩
      · cases hfail
      · rw [Query.exec, hconv] at hread
        cases hread
      · cases hfail
  · refine .inr (.inl ?_)
    -- It has been closed now.
    rcases answer_db_eq hf.answer with hsame | ⟨q, locked, rfl, hdb⟩
    · rw [DB.forgotten, hsame] at h
      exact absurd h hbefore
    · have hcloses : ∀ locked, s.db = (q.exec locked c.shared.now c.shared.db).2 →
          c.shared.db.conversations.any (q.closes c.shared.now) = true ∧
            closesFor k (did q (q.exec locked c.shared.now c.shared.db).1) := by
        intro locked hdb
        rw [hdb] at hclosed hjob
        rcases Query.exec_isClosed hkey hclosed with hcl | hcl
        · exact absurd (DB.forgotten_iff.mpr ⟨hcl, Query.exec_memoryJob hjob⟩) hbefore
        · exact hcl
      have hlost : o.isLost = false := by
        have hsafe := ((Bool.and_eq_true _ _).mp hg).1
        simpa [(hcloses locked hdb).1] using hsafe
      rcases answer_told hf.answer hlost with rfl | ⟨locked, rfl, rfl⟩
      · exact absurd h hbefore
      · exact (hcloses locked rfl).2

end Fire

/-- A thread that owes a memory job is bound to queue it: it can be told that there is no such
conversation only if there is none. -/
theorem OwesMemory.inevitable {p : Op (List Job)} (h : OwesMemory k past)
    (hs : p.Spec QueuesOwn (fun past _ => ∀ k, ¬ OwesMemory k past) past) :
    p.InevitableUnless (missing k) (· = .db (.queueMemoryJob k)) :=
  hs.inevitableUnless (OwesMemory k) h (fun _ _ ho hq hm => .inr ⟨ho, hq, hm⟩) fun _ _ hQ => hQ k

/-- A closed conversation stays closed in whatever happens next. -/
theorem closed_stays (h : Reach (machine P) ok c c') (hc : c.shared.db.closed k = true) :
    c'.shared.db.closed k = true := by
  refine Reach.inv (P := fun s _ => s.db.closed k = true) h hc ?_ ?_
  · intro c tid o th i next r s _ hclosed _ hf
    rcases answer_db_eq hf.answer with hsame | ⟨q, locked, -, hdb⟩
    · rwa [hsame]
    · rw [hdb]
      exact Query.exec_stays hclosed
  · intro c v s _ hclosed _ hv
    rwa [World.step_db hv]

/-- **Every closed conversation is remembered.** In every run in which closing is not torn apart
from queueing: a conversation that is closed has a memory job; or a thread on a live process is
bound to queue one, unless it is told that there is no such conversation, and in all that can happen
next there is one. -/
theorem closed_remembered (h : Reaches P Remembers c) {conv : Conversation}
    (hc : c.shared.db.conversation k = some conv) (hclosed : conv.closedAt.isSome = true) :
    (∃ job ∈ c.shared.db.memoryJobs, job.conversationID = k) ∨
    (∃ tid th, c.threads tid = some th ∧ th.proc ∈ c.live ∧
      th.prog.InevitableUnless (missing k) (· = .db (.queueMemoryJob k))) ∧
    ∀ c', Reach (machine P) (fun _ _ => True) c c' →
      (c'.shared.db.conversation k).isSome = true := by
  have hany : c.shared.db.closed k = true := (Option.any_eq_true ..).mpr ⟨conv, hc, hclosed⟩
  cases hjob : c.shared.db.memoryJob k with
  | some job => exact .inl ⟨job, row_mem hjob, row_key hjob⟩
  | none =>
    have hserved := Reach.served body_remembers h
      (D := fun s (k : UUID) => s.db.forgotten k = true) (L := fun _ past k => OwesMemory k past)
      (fun k hk => by cases hk) (fun _ _ _ k hQ => hQ k)
      (fun c tid o th i k a s hr hok hf x hx => Remembers.fire hr hok hf hx)
      (fun c v s k _ hv hk => World.step_db hv ▸ hk)
      (fun c p tid th k hok hth hp hk => hok tid th hth hp k hk)
    obtain ⟨tid, th, hth, howes⟩ := hserved k (DB.forgotten_iff.mpr ⟨hany, hjob⟩)
    have hspec := (Reach.threaded body_remembers h).spec tid th hth
    refine .inr ⟨⟨tid, th, hth, h.proc_live hth, howes.inevitable hspec⟩, fun c' hc' => ?_⟩
    obtain ⟨conv', hconv', -⟩ := (Option.any_eq_true ..).mp (closed_stays hc' hany)
    exact Option.isSome_iff_exists.mpr ⟨conv', hconv'⟩

/-- A user opens conversation 5; thread 4 closes it, and has not queued its memory yet. -/
def closing : List Lbl :=
  opening ++ [.request 0 (.closeConversation 5)] ++ commits 4 1

/-- The job of the closed conversation is about to be queued. -/
theorem closed_remembered_closing : ∃ c conv, Reaches sample Remembers c ∧
    c.shared.db.conversation 5 = some conv ∧ conv.closedAt.isSome = true ∧
    ((∃ job ∈ c.shared.db.memoryJobs, job.conversationID = 5) ∨
    (∃ tid th, c.threads tid = some th ∧ th.proc ∈ c.live ∧
      th.prog.InevitableUnless (missing 5) (· = .db (.queueMemoryJob 5))) ∧
    ∀ c', Reach (machine sample) (fun _ _ => True) c c' →
      (c'.shared.db.conversation 5).isSome = true) := by
  have hrun : ((machine sample).run (checked remembersSafely) start closing).any
      (fun c => c.shared.db.closed 5) = true := by
    decide +kernel
  obtain ⟨c, hc, hclosed⟩ := reaches_of_run hrun
  obtain ⟨conv, hconv, hconv'⟩ := (Option.any_eq_true ..).mp hclosed
  exact ⟨c, conv, hc, hconv, hconv', closed_remembered hc hconv hconv'⟩

/-! ## What happens otherwise -/

/-- What no live thread has closed, and is closed, is forgotten for good. -/
theorem forgotten_stays (h : Reachable P c) (hf : c.shared.db.forgotten k = true)
    (hnone : ∀ tid th, c.threads tid = some th → ∀ x ∈ th.past, ¬ closesFor k x)
    (h' : Reach (machine P) (fun _ _ => True) c c') : c'.shared.db.forgotten k = true := by
  refine (h'.exchanges (G := fun s => s.db.forgotten k = true)
    (B := fun x => ¬ closesFor k x) hf hnone
    ?_ fun s v s' hv hs => World.step_db hv ▸ hs).1
  intro c tid o th i next r s hr hfire hG hB
  have hreach := h.trans hr
  obtain ⟨hclosed, hjob⟩ := DB.forgotten_iff.mp hG
  -- Nobody queues it who has not closed it.
  have hqueue : i ≠ .db (.queueMemoryJob k) := by
    intro hi
    have hown := Reach.allowed body_remembers hreach hfire k hi
    rw [← (Reach.threaded body_remembers hreach).past_eq _ _ hfire.thread] at hown
    obtain ⟨x, hx, hcl⟩ := hown
    exact hB x hx hcl
  constructor
  · rcases answer_db_eq hfire.answer with hsame | ⟨q, locked, rfl, hdb⟩
    · rwa [hsame]
    · rw [hdb]
      exact DB.forgotten_iff.mpr
        ⟨Query.exec_stays hclosed, Query.exec_queues hjob fun hq => hqueue (congrArg _ hq)⟩
  · intro hcl
    by_cases hi : ∃ q, i = .db q
    · obtain ⟨q, rfl⟩ := hi
      rcases answer_db hfire.answer with ⟨rfl, -⟩ | ⟨locked, -, rfl | rfl⟩
      · rcases hcl with h | ⟨ids, h, -⟩ <;> cases h
      · exact Query.exec_open hclosed (Reaches.keyed_conversations hreach) hcl
      · rcases hcl with h | ⟨ids, h, -⟩ <;> cases h
    · rcases hcl with h | ⟨ids, h, -⟩ <;> cases h <;> exact hi ⟨_, rfl⟩

/-- **A forgotten conversation**: the process stops between the two statements of `Close`. Whatever
happens from then on, there is no memory job. -/
theorem closed_forgotten : ∃ c, Reachable sample c ∧ c.shared.db.closed 5 = true ∧
    ∀ c', Reach (machine sample) (fun _ _ => True) c c' →
      c'.shared.db.closed 5 = true ∧ c'.shared.db.memoryJob 5 = none := by
  have hrun : ((machine sample).run anything start (closing ++ [.stop 0])).any
      (fun c => c.shared.db.forgotten 5 && c.live.isEmpty) = true := by
    decide +kernel
  obtain ⟨c, hc, hst⟩ := reachable_of_run hrun
  obtain ⟨hf, hlive⟩ := (Bool.and_eq_true _ _).mp hst
  have hnone : ∀ tid th, c.threads tid = some th → ∀ x ∈ th.past, ¬ closesFor 5 x := by
    intro tid th hth
    have hproc := Reach.proc_live hc hth
    rw [List.isEmpty_iff.mp hlive] at hproc
    cases hproc
  refine ⟨c, hc, (DB.forgotten_iff.mp hf).1, fun c' hc' => ?_⟩
  exact DB.forgotten_iff.mp (forgotten_stays hc hf hnone hc')

end Jarvis.Orchestrator
