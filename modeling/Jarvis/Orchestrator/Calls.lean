import Jarvis.Orchestrator.Audited
import Jarvis.Trace

/-!
# A call is run once

`CallTool` looks for a stored result of the call (`ToolCall`), runs the call, and stores its result
(`SaveToolCall`), in three separate steps.
-/

namespace Jarvis.Orchestrator

open Interleave Engine

variable {P : Params}

/-! ### The order of the steps -/

/-- The steps of `CallTool` among the exchanges of a thread. -/
def callSteps (past : Log) : Log := past.filter fun x => x.1.callStep

/-- The step of `CallTool` that comes next, for call `callID` of conversation `k`. -/
inductive CallStep (k : UUID) (callID : String) : Log → Instr → Prop
  | lookup : CallStep k callID [] (.db (.toolCall k callID))
  | run (turn : ℤ) :
      CallStep k callID [did (.toolCall k callID) (.error .notFound)] (.db (.advanceTurn k turn))
  | save (turn : ℤ) (name : String) (r : CallResult) :
      CallStep k callID
        [did (.advanceTurn k turn) (.ok ()), did (.toolCall k callID) (.error .notFound)]
        (.db (.saveToolCall k callID name r))

/-- What a thread that runs `CallTool` may do: the steps in their order; and between them it reads
the conversation, before it starts to run the call. -/
structure InOrder (k : UUID) (callID : String) (past : Log) (i : Instr) : Prop where
  step : i.callStep = true → CallStep k callID (callSteps past) i
  aside : i.callStep = false →
    i = .db (.conversation k) ∨ ∃ turn, did (.advanceTurn k turn) (.ok ()) ∈ past

/-- What a job may do to stored results. -/
def CallsInOrder (j : Job) (past : Log) (i : Instr) : Prop :=
  match j with
  | .callTool k callID _ _ _ => InOrder k callID past i
  | _ => ∀ k callID name r, i ≠ .db (.saveToolCall k callID name r)

variable {i : Instr} {locked : List ℕ} {now : Time} {db : DB} {q : Query} {k k' : UUID}
  {callID callID' name : String} {r r' : CallResult} {c : Cfg}

theorem callSteps_cons_aside (h : i.callStep = false) (r : Answer i) (past : Log) :
    callSteps (⟨i, r⟩ :: past) = callSteps past := by simp [callSteps, h]

theorem callSteps_cons_step (h : i.callStep = true) (r : Answer i) (past : Log) :
    callSteps (⟨i, r⟩ :: past) = ⟨i, r⟩ :: callSteps past := by simp [callSteps, h]

variable {past : Log}

section

variable {args : String} {turn : ℤ} {α : Type}

/-- The conversation is read. -/
theorem openConversation_inOrder {Q : Log → Except CallErr Conversation → Prop}
    (hQ : ∀ r conv, Q (did (.conversation k) r :: past) conv) :
    (openConversation k).Spec (InOrder k callID) Q past := by
  unfold openConversation
  refine (Prog.spec_bind _ _).mpr ⟨⟨nofun, fun _ => .inl rfl⟩, fun r => ?_⟩
  rw [Prog.spec_ret]
  split
  all_goals exact hQ _ _

/-- A program that leaves the steps alone, in the middle of `CallTool`. -/
theorem Aside.inOrder (h : Aside p) (hran : did (.advanceTurn k turn) (.ok ()) ∈ callSteps past)
    {Q : Log → α → Prop} (hQ : ∀ past' a, callSteps past' = callSteps past → Q past' a) :
    p.Spec (InOrder k callID) Q past := by
  refine h.spec (fun past' => callSteps past' = callSteps past) rfl ?_ hQ
  intro past' i hC hi
  refine ⟨⟨fun hstep => ?_, fun _ => .inr ⟨turn, (List.mem_filter.mp (hC ▸ hran)).1⟩⟩, fun r => ?_⟩
  · rw [hi] at hstep
    cases hstep
  · rw [callSteps_cons_aside hi]
    exact hC

/-- How a call of `CallTool` ended: the result it returns was stored, or it stored it. -/
def Returns (k : UUID) (callID name : String) (past : Log)
    (res : Except CallErr CallResult) : Prop :=
  ∀ r, res = .ok r → past.head? = some (did (.toolCall k callID) (.ok r)) ∨
    past.head? = some (did (.saveToolCall k callID name r) (.ok ()))

theorem callTool_spec (hpast : callSteps past = []) :
    (callTool P k callID name args turn).Spec (InOrder k callID) (Returns k callID name) past := by
  unfold callTool
  rw [Prog.spec_bind]
  refine openConversation_inOrder fun r conv => ?_
  have hc : callSteps (did (.conversation k) r :: past) = [] :=
    (callSteps_cons_aside rfl ..).trans hpast
  generalize did (.conversation k) r :: past = past at hc
  split
  · rintro r ⟨⟩
  · rename_i conv
    rw [Prog.spec_bind]
    refine ⟨⟨fun _ => by rw [hc]; exact .lookup, nofun⟩, fun r => ?_⟩
    have hl : callSteps (did (.toolCall k callID) r :: past) = [did (.toolCall k callID) r] := by
      rw [callSteps_cons_step rfl, hc]
    rw [Prog.spec_ret]
    split
    · rintro _ ⟨⟩
      exact .inl rfl
    · rintro _ ⟨⟩
    · rw [Prog.spec_bind]
      refine ⟨⟨fun _ => by rw [hl]; exact .run turn, nofun⟩, fun r => ?_⟩
      have hr : callSteps (did (.advanceTurn k turn) r ::
          did (.toolCall k callID) (.error .notFound) :: past) =
          [did (.advanceTurn k turn) r, did (.toolCall k callID) (.error .notFound)] := by
        rw [callSteps_cons_step rfl, hl]
      rw [Prog.spec_ret]
      split
      · rintro _ ⟨⟩
      · rw [Prog.spec_bind]
        refine (regular_voiceCall ..).aside.inOrder (hr ▸ List.mem_cons_self) fun past res hv => ?_
        rw [hr] at hv
        rw [Prog.spec_bind]
        refine ⟨⟨fun _ => by rw [hv]; exact .save turn name res, nofun⟩, fun r => ?_⟩
        rw [Prog.spec_ret]
        split
        · rintro _ ⟨⟩
        · rintro _ ⟨⟩
          exact .inr rfl

/-- Every job takes the steps in order. -/
theorem body_calls (j : Job) : (body P j).Spec (CallsInOrder j) (fun _ _ => True) [] := by
  by_cases hj : j.aside = true
  · refine (regular_body hj).aside.spec (fun _ => True) trivial
      (fun past i _ hi => ⟨?_, fun _ => trivial⟩)
      fun _ _ _ => trivial
    cases j
    case callTool => cases hj
    all_goals
      rintro k callID name r rfl
      cases hi
  · cases j
    case callTool k callID name args turn =>
      refine (Prog.spec_bind _ _).mpr ?_
      exact (callTool_spec rfl).post fun _ _ _ => trivial
    case recordTurn k role item turn text =>
      have h : (body P (.recordTurn k role item turn text)).Only
          fun i => ∀ k callID name r, i ≠ .db (.saveToolCall k callID name r) := by
        unfold body Engine.recordTurn openConversation query ask
        repeat' with_reducible first
          | exact .pure _ | refine .call ?_ | refine .bind ?_ fun _ => ?_ | split
        all_goals rintro _ _ _ _ ⟨⟩
      exact h.spec (fun _ => True) trivial (fun past i _ hi => ⟨hi, fun _ => trivial⟩)
        fun _ _ _ => trivial
    all_goals exact absurd rfl hj

end

/-! ### Stored results -/

/-- Only `SaveToolCall` touches the table of stored results. -/
theorem Query.exec_toolCalls (h : ∀ k callID name r, q ≠ .saveToolCall k callID name r) :
    (q.exec locked now db).2.toolCalls = db.toolCalls := by
  cases q
  case saveToolCall => exact (h _ _ _ _ rfl).elim
  all_goals simp only [exec, DB.createConversation, DB.recordTurn, DB.createTask,
    DB.leaseTask, DB.resumeTask, DB.cancelTask, DB.createConfirmation, DB.settle, DB.addEvent,
    DB.carryOverEvents, DB.upsertDevice, DB.saveApproval, DB.queueMemoryJob, DB.leaseMemoryJob]
  all_goals repeat' split
  all_goals rfl

/-- A stored result stays. -/
theorem DB.toolCall_saveToolCall (h : db.toolCall k callID = some r) :
    (db.saveToolCall k' callID' name r').2.toolCall k callID = some r := by
  unfold saveToolCall
  split
  · exact h
  · split
    · exact h
    · obtain ⟨x, hx, rfl⟩ := Option.map_eq_some_iff.mp h
      rw [toolCall, Table.insert, List.find?_append, hx]
      rfl

/-- Another call's result is not touched. -/
theorem DB.toolCall_saveToolCall_of_ne (h : ¬ (k' = k ∧ callID' = callID)) :
    (db.saveToolCall k' callID' name r').2.toolCall k callID = db.toolCall k callID := by
  unfold saveToolCall
  split
  · rfl
  · split
    · rfl
    · simp [toolCall, Table.insert, List.find?_append, h]

/-- The first result saved is the one stored. -/
theorem DB.toolCall_saved (hok : (db.saveToolCall k callID name r).1 = .ok ())
    (hnone : db.toolCall k callID = none) :
    (db.saveToolCall k callID name r).2.toolCall k callID = some r := by
  unfold saveToolCall at hok ⊢
  split at hok
  · cases hok
  · rename_i hc
    rw [if_neg hc, hnone, if_neg (by simp)]
    have hfind := Option.map_eq_none_iff.mp hnone
    rw [toolCall, Table.insert, List.find?_append, hfind]
    simp

theorem Query.exec_toolCall (q : Query) (h : db.toolCall k callID = some r) :
    (q.exec locked now db).2.toolCall k callID = some r := by
  by_cases hq : ∃ k' callID' name r', q = .saveToolCall k' callID' name r'
  · obtain ⟨k', callID', name, r', rfl⟩ := hq
    exact DB.toolCall_saveToolCall h
  · rw [DB.toolCall, exec_toolCalls fun k callID name r hq' => hq ⟨k, callID, name, r, hq'⟩]
    exact h

/-- A result that is new was saved. -/
theorem Query.exec_toolCall_new (h : ((q.exec locked now db).2.toolCall k callID).isSome = true)
    (hnone : db.toolCall k callID = none) : ∃ name r, q = .saveToolCall k callID name r := by
  by_cases hq : ∃ k' callID' name r', q = .saveToolCall k' callID' name r'
  · obtain ⟨k', callID', name, r', rfl⟩ := hq
    by_cases hkey : k' = k ∧ callID' = callID
    · obtain ⟨rfl, rfl⟩ := hkey
      exact ⟨name, r', rfl⟩
    · rw [show (Query.saveToolCall k' callID' name r').exec locked now db =
        db.saveToolCall k' callID' name r' from rfl,
        DB.toolCall_saveToolCall_of_ne hkey, hnone] at h
      cases h
  · rw [DB.toolCall, exec_toolCalls fun k callID name r hq' => hq ⟨k, callID, name, r, hq'⟩,
      ← DB.toolCall, hnone] at h
    cases h

/-! ### Every run -/

/-- A request with this call starts to run it: it does nothing for the call before
(`acts_after_runs`). -/
def runs (k : UUID) (callID : String) (e : Ev) : Bool :=
  match e.job, e.act with
  | .callTool k' callID' _ _ _, ⟨.db (.advanceTurn ..), .ok _⟩ => k' = k && callID' = callID
  | _, _ => false

/-- What a request with this call answers: the last thing it does is to find the stored result, or
to store its own (`callTool_spec`). -/
def reply (k : UUID) (callID : String) (e : Ev) : Option CallResult :=
  match e.job, e.act with
  | .callTool k' callID' _ _ _, ⟨.db (.toolCall ..), .ok r⟩ =>
    if k' = k ∧ callID' = callID then some r else none
  | .callTool k' callID' _ _ _, ⟨.db (.saveToolCall _ _ _ r), .ok _⟩ =>
    if k' = k ∧ callID' = callID then some r else none
  | _, _ => none

/-- The exchange of a request that found no stored result. -/
def missed (k : UUID) (callID : String) (x : Exchange) : Bool :=
  match x with
  | ⟨.db (.toolCall k' callID'), .error .notFound⟩ => k' = k && callID' = callID
  | _ => false

/-- A request finds no stored result only when no other request with this call runs it already, and
none that found no stored result either is still under way. -/
def soleCall (c : Cfg) : Instr → Oracle → Bool
  | .db (.toolCall k callID), .commit _ =>
    (c.shared.db.toolCall k callID).isSome ||
      (!c.trace.any (runs k callID) && !c.someThread fun past => past.any (missed k callID))
  | _, _ => true

/-- A thread that found no stored result of its call, and has yet to run it. -/
def Looked (k : UUID) (callID : String) (j : Job) (past : Log) : Prop :=
  (∃ name args turn, j = .callTool k callID name args turn) ∧
    callSteps past = [did (.toolCall k callID) (.error .notFound)]

/-- A request saves a result of this call. -/
def Saves (k : UUID) (callID : String) (e : Ev) : Prop :=
  ∃ name r, e.act.1 = .db (.saveToolCall k callID name r)

/-- What holds in every run whose lookups meet the condition. -/
structure Once (c : Cfg) : Prop where
  once : ∀ k callID, c.trace.countP (runs k callID) ≤ 1
  replies : ∀ k callID r, ∀ e ∈ c.trace, reply k callID e = some r →
    c.shared.db.toolCall k callID = some r
  /-- A stored result was saved by a request, -/
  saved : ∀ k callID, (c.shared.db.toolCall k callID).isSome = true →
    ∃ e ∈ c.trace, Saves k callID e
  /-- and that request had run the call. -/
  ran : ∀ k callID, ∀ e ∈ c.trace, Saves k callID e →
    ∃ e' ∈ c.trace, runs k callID e' = true ∧ e'.tid = e.tid
  /-- Of the requests that found no stored result, the first has yet to run the call. -/
  looked : ∀ k callID tid th, c.threads tid = some th → Looked k callID th.job th.past →
    (∀ e ∈ c.trace, runs k callID e = false) ∧
      ∀ tid' th', c.threads tid' = some th' → Looked k callID th'.job th'.past → tid' = tid

section

variable {j : Job}

theorem not_looked_nil : ¬ Looked k callID j [] := by
  rintro ⟨-, h⟩
  cases h

theorem Looked.missed (h : Looked k callID j past) :
    past.any (Orchestrator.missed k callID) = true := by
  have hmem : did (.toolCall k callID) (.error .notFound) ∈ callSteps past := by simp [h.2]
  refine List.any_eq_true.mpr ⟨_, (List.mem_filter.mp hmem).1, ?_⟩
  simp [Orchestrator.missed]

theorem runs_iff : runs k callID e = true ↔
    (∃ name args turn, e.job = .callTool k callID name args turn) ∧
      ∃ id turn, e.act = did (.advanceTurn id turn) (.ok ()) := by
  constructor
  · intro h
    unfold runs at h
    split at h
    · rename_i hj ha
      simp only [Bool.and_eq_true, decide_eq_true_eq] at h
      obtain ⟨rfl, rfl⟩ := h
      exact ⟨⟨_, _, _, hj⟩, _, _, ha⟩
    · cases h
  · rintro ⟨⟨name, args, turn, hj⟩, id, t, ha⟩
    simp [runs, hj, ha]

theorem reply_cases (h : reply k callID e = some r) :
    (∃ name args turn, e.job = .callTool k callID name args turn) ∧
      ((∃ k' callID', e.act = did (.toolCall k' callID') (.ok r)) ∨
        ∃ k' callID' name, e.act = did (.saveToolCall k' callID' name r) (.ok ())) := by
  unfold reply at h
  split at h
  · rename_i hj ha
    split_ifs at h with hk
    obtain ⟨rfl, rfl⟩ := hk
    cases h
    exact ⟨⟨_, _, _, hj⟩, .inl ⟨_, _, ha⟩⟩
  · rename_i hj ha
    split_ifs at h with hk
    obtain ⟨rfl, rfl⟩ := hk
    cases h
    exact ⟨⟨_, _, _, hj⟩, .inr ⟨_, _, _, ha⟩⟩
  · cases h

variable {tid : ℕ} {r : Answer i} {s : Shared} {o : Oracle} {th : Thread Instr Answer Job}

/-- A thread that is at the point of running its call is one that found no stored result. -/
theorem looked_of_runs (ho : CallsInOrder j past i)
    (h : runs k callID ⟨tid, j, ⟨i, r⟩, s, s'⟩ = true) :
    Looked k callID j past := by
  obtain ⟨⟨name, args, turn, hj⟩, id, t, ha⟩ := runs_iff.mp h
  dsimp only at hj ha
  cases ha
  subst hj
  refine ⟨⟨name, args, turn, rfl⟩, ?_⟩
  have hstep := ho.step rfl
  generalize callSteps past = l at hstep ⊢
  cases hstep
  rfl

/-- A thread that found no stored result found that with its last request, or had found it
before. -/
theorem Looked.of_cons (h : Looked k callID j (⟨i, r⟩ :: past)) :
    (Looked k callID j past ∧ i.callStep = false) ∨
      (⟨i, r⟩ : Exchange) = did (.toolCall k callID) (.error .notFound) := by
  obtain ⟨hj, hs⟩ := h
  cases hi : i.callStep with
  | false =>
    rw [callSteps_cons_aside hi] at hs
    exact .inl ⟨⟨hj, hs⟩, rfl⟩
  | true =>
    rw [callSteps_cons_step hi] at hs
    exact .inr (List.cons.inj hs).1

/-- A request that finds no stored result is the only one. -/
theorem soleCall.sole (hok : soleCall c (.db (.toolCall k callID)) o = true)
    (ha : answer c.shared (.db (.toolCall k callID)) o = some (.error .notFound, s)) :
    (∀ e ∈ c.trace, runs k callID e = false) ∧
      (c.someThread fun past => past.any (Orchestrator.missed k callID)) = false := by
  cases o <;> simp only [answer, Option.some.injEq, Prod.mk.injEq, reduceCtorEq] at ha
  case fail | lost => cases ha.1
  case commit locked =>
    have hnone : (c.shared.db.toolCall k callID).isSome = false := by
      have hfound : found (c.shared.db.toolCall k callID) = .error .notFound := ha.1
      cases hr : c.shared.db.toolCall k callID with
      | none => rfl
      | some r =>
        rw [hr] at hfound
        cases hfound
    simp only [soleCall, hnone, Bool.false_or, Bool.and_eq_true, Bool.not_eq_true',
      List.any_eq_false] at hok
    exact ⟨fun e he => by simpa using hok.1 e he, hok.2⟩

/-- At most one element counts. -/
theorem eq_of_countP_le_one {α : Type} {p : α → Bool} {l : List α} (h : l.countP p ≤ 1) {x y : α}
    (hx : x ∈ l) (hy : y ∈ l) (hpx : p x = true) (hpy : p y = true) : x = y := by
  rw [List.countP_eq_length_filter] at h
  have hx' : x ∈ l.filter p := List.mem_filter.mpr ⟨hx, hpx⟩
  have hy' : y ∈ l.filter p := List.mem_filter.mpr ⟨hy, hpy⟩
  match hl : l.filter p with
  | [] => simp [hl] at hx'
  | [a] => simp_all
  | a :: b :: l' => simp [hl] at h

/-- The thread that is about to store a result is the one that ran the call, and the first to store
one. -/
theorem Once.unsaved (h : Once c) {name : String} {r : CallResult}
    (ht : Threaded (fun j => CallsInOrder j) (fun _ _ _ => True) c) (hth : c.threads tid = some th)
    (hj : ∃ name args turn, th.job = .callTool k callID name args turn)
    (ho : CallStep k callID (callSteps th.past) (.db (.saveToolCall k callID name r))) :
    (∃ e ∈ c.trace, runs k callID e = true ∧ e.tid = tid) ∧
    c.shared.db.toolCall k callID = none := by
  generalize hl : callSteps th.past = l at ho
  cases ho with
  | save turn name r =>
    have hmem : did (.advanceTurn k turn) (.ok ()) ∈ th.past :=
      (List.mem_filter.mp (show _ ∈ callSteps th.past by simp [hl])).1
    rw [ht.past_eq _ _ hth] at hmem
    obtain ⟨e, he, htid, hact⟩ := mem_pastOf.mp hmem
    have hrun : runs k callID e = true := by
      refine runs_iff.mpr ⟨?_, _, _, hact⟩
      rw [ht.job_eq _ _ hth e he htid]
      exact hj
    refine ⟨⟨e, he, hrun, htid⟩, ?_⟩
    by_contra hsome
    obtain ⟨e₁, he₁, hsave⟩ := h.saved k callID (Option.isSome_iff_ne_none.mpr hsome)
    obtain ⟨e₂, he₂, hrun₂, htid₂⟩ := h.ran k callID e₁ he₁ hsave
    obtain rfl := eq_of_countP_le_one (h.once k callID) he he₂ hrun hrun₂
    -- so the thread itself has saved before
    obtain ⟨name₁, r₁, hq⟩ := hsave
    have hpast : e₁.act ∈ callSteps th.past := by
      refine List.mem_filter.mpr ⟨?_, by rw [hq]; rfl⟩
      rw [ht.past_eq _ _ hth]
      exact mem_pastOf.mpr ⟨e₁, he₁, htid₂.symm.trans htid, rfl⟩
    rw [hl] at hpast
    simp only [List.mem_cons, List.not_mem_nil, or_false] at hpast
    rcases hpast with hpast | hpast <;> · rw [hpast] at hq; cases hq

/-- The steps of a live thread are in order. -/
theorem Threaded.inOrder {cont : Answer i → Op (List Job)}
    (ht : Threaded (fun j => CallsInOrder j) (fun _ _ _ => True) c)
    (hf : Fires M c tid o th i cont r s) : CallsInOrder th.job th.past i := by
  have hs := ht.spec _ _ hf.thread
  rw [hf.prog] at hs
  exact hs.1

section

variable {cont : Answer i → Op (List Job)} {r : Answer i}

variable {s₀ : Shared} {res : CallResult}

/-- A stored result stays, whatever happens. -/
theorem answer_toolCall (ha : answer s₀ i o = some (r, s))
    (h : s₀.db.toolCall k callID = some res) : s.db.toolCall k callID = some res := by
  rcases answer_db_eq ha with hdb | ⟨q, locked, -, hdb⟩
  · rw [hdb]
    exact h
  · rw [hdb]
    exact q.exec_toolCall h

/-- A new stored result is saved by the request. -/
theorem answer_toolCall_new (ha : answer s₀ i o = some (r, s))
    (h : (s.db.toolCall k callID).isSome = true) (hnone : s₀.db.toolCall k callID = none) :
    ∃ name res, i = .db (.saveToolCall k callID name res) := by
  rcases answer_db_eq ha with hdb | ⟨q, locked, rfl, hdb⟩
  · rw [hdb, hnone] at h
    cases h
  · rw [hdb] at h
    obtain ⟨name, res, rfl⟩ := Query.exec_toolCall_new h hnone
    exact ⟨name, res, rfl⟩

/-- Who saves a result of a call runs it. -/
theorem CallsInOrder.save (ho : CallsInOrder j past (.db (.saveToolCall k callID name res))) :
    (∃ name args turn, j = .callTool k callID name args turn) ∧
      CallStep k callID (callSteps past) (.db (.saveToolCall k callID name res)) := by
  cases j
  case callTool k' callID' name' args turn =>
    have hstep := ho.step rfl
    generalize callSteps past = l at hstep ⊢
    cases hstep with
    | save turn => exact ⟨⟨_, _, _, rfl⟩, .save turn _ _⟩
  all_goals exact (ho _ _ _ _ rfl).elim

/-- What a request answers is what is stored then. -/
theorem Once.reply_stored (h : Once c)
    (ht : Threaded (fun j => CallsInOrder j) (fun _ _ _ => True) c)
    (hf : Fires (machine P) c tid o th i cont r s)
    (hr : reply k callID ⟨tid, th.job, ⟨i, r⟩, c.shared, s⟩ = some res) :
    s.db.toolCall k callID = some res := by
  have ho := Threaded.inOrder ht hf
  obtain ⟨hj, ⟨k', callID', hact⟩ | ⟨k', callID', name, hact⟩⟩ := reply_cases hr
  · cases hact
    obtain ⟨name, args, turn, hj⟩ := hj
    dsimp only at hj
    rw [hj] at ho
    have hstep := ho.step rfl
    generalize callSteps th.past = l at hstep
    cases hstep
    obtain ⟨locked, rfl, hres⟩ := answer_ok hf.answer
    cases hfind : c.shared.db.toolCall k callID with
    | none => simp [Query.exec, hfind, found] at hres
    | some x =>
      simp only [Query.exec, hfind, found, Except.ok.injEq] at hres ⊢
      rw [hres]
  · cases hact
    obtain ⟨⟨name', args', turn', hj'⟩, hstep⟩ := CallsInOrder.save ho
    obtain ⟨name, args, turn, hj⟩ := hj
    dsimp only at hj
    rw [hj] at hj'
    cases hj'
    obtain ⟨-, hnone⟩ := h.unsaved ht hf.thread ⟨_, _, _, hj⟩ hstep
    obtain ⟨locked, rfl, hres⟩ := answer_ok hf.answer
    exact DB.toolCall_saved hres hnone

/-- A request that finds no stored result finds no other one under way. -/
theorem not_looked_of_sole (ht : Threaded (fun j => CallsInOrder j) (fun _ _ _ => True) c)
    (hsole : (c.someThread fun past => past.any (Orchestrator.missed k callID)) = false)
    (hth' : c.threads tid' = some th') :
    ¬ Looked k callID th'.job th'.past := by
  intro hl
  have hsome := ht.someThread (p := fun past =>
    past.any (Orchestrator.missed k callID)) hth' hl.missed
  rw [hsole] at hsome
  cases hsome

/-- A thread that has yet to run its call had yet to before the request, or has just found no stored
result. -/
theorem looked_fire (hth₁ : ((machine P).fire c tid th i cont r s).threads tid₁ = some th₁)
    (hf : Fires (machine P) c tid o th i cont r s) (hl : Looked k callID th₁.job th₁.past) :
    (∃ th₀, c.threads tid₁ = some th₀ ∧ Looked k callID th₀.job th₀.past ∧
      (tid₁ = tid → i.callStep = false)) ∨
    (tid₁ = tid ∧ (⟨i, r⟩ : Exchange) = did (.toolCall k callID) (.error .notFound)) := by
  rcases Machine.fire_threads hth₁ with ⟨hne, hth₁⟩ | ⟨rfl, -, rfl⟩ | ⟨-, js, -, j, -, rfl⟩
  · exact .inl ⟨th₁, hth₁, hl, fun heq => absurd heq hne⟩
  · rcases hl.of_cons with ⟨hl, hi⟩ | hl
    · exact .inl ⟨th, hf.thread, hl, fun _ => hi⟩
    · exact .inr ⟨rfl, hl⟩
  · exact absurd hl not_looked_nil

/-- One request is answered. -/
theorem Once.fire (h : Once c) (ht : Threaded (fun j => CallsInOrder j) (fun _ _ _ => True) c)
    (hok : soleCall c i o = true) (hf : Fires (machine P) c tid o th i cont r s) :
    Once ((machine P).fire c tid th i cont r s) := by
  have ho := Threaded.inOrder ht hf
  have hold : ∀ {k callID}, runs k callID ⟨tid, th.job, ⟨i, r⟩, c.shared, s⟩ = true →
      ∀ e ∈ c.trace, runs k callID e = false := fun hrun =>
    (h.looked _ _ tid th hf.thread (looked_of_runs ho hrun)).1
  constructor
  · intro k callID
    rw [Machine.fire_trace, List.countP_cons]
    split
    · rename_i hrun
      rw [List.countP_eq_zero.mpr fun e he => by simp [hold hrun e he]]
    · exact h.once k callID
  · intro k callID res e he hr
    rw [Machine.fire_trace] at he
    rw [Machine.fire_shared]
    rcases List.mem_cons.mp he with rfl | he
    · exact h.reply_stored ht hf hr
    · exact answer_toolCall hf.answer (h.replies k callID res e he hr)
  · intro k callID hsome
    rw [Machine.fire_trace]
    rw [Machine.fire_shared] at hsome
    cases hrow : c.shared.db.toolCall k callID with
    | some res =>
      obtain ⟨e, he, hsave⟩ := h.saved k callID (by rw [hrow]; rfl)
      exact ⟨e, List.mem_cons_of_mem _ he, hsave⟩
    | none =>
      obtain ⟨name, res, rfl⟩ := answer_toolCall_new hf.answer hsome hrow
      exact ⟨_, List.mem_cons_self, name, res, rfl⟩
  · intro k callID e he hsave
    rw [Machine.fire_trace] at he ⊢
    rcases List.mem_cons.mp he with rfl | he
    · obtain ⟨name, res, rfl⟩ := hsave
      obtain ⟨hj, hstep⟩ := CallsInOrder.save ho
      obtain ⟨⟨e', he', hrun, htid⟩, -⟩ := h.unsaved ht hf.thread hj hstep
      exact ⟨e', List.mem_cons_of_mem _ he', hrun, htid⟩
    · obtain ⟨e', he', hrun, htid⟩ := h.ran k callID e he hsave
      exact ⟨e', List.mem_cons_of_mem _ he', hrun, htid⟩
  · intro k callID tid₁ th₁ hth₁ hl₁
    rw [Machine.fire_trace]
    -- when the request is the one that finds no stored result, no other thread has found none
    have hsole : (⟨i, r⟩ : Exchange) = did (.toolCall k callID) (.error .notFound) →
        (∀ e ∈ c.trace, runs k callID e = false) ∧
          ∀ tid' th', c.threads tid' = some th' → ¬ Looked k callID th'.job th'.past := by
      rintro ⟨⟩
      obtain ⟨hruns, hnone⟩ := soleCall.sole hok hf.answer
      exact ⟨hruns, fun tid' th' hth' => not_looked_of_sole ht hnone hth'⟩
    rcases looked_fire hth₁ hf hl₁ with ⟨th₀, hth₀, hl₀, hstep⟩ | ⟨rfl, hact⟩
    · obtain ⟨hruns, huniq⟩ := h.looked k callID tid₁ th₀ hth₀ hl₀
      refine ⟨fun e he => ?_, fun tid₂ th₂ hth₂ hl₂ => ?_⟩
      · rcases List.mem_cons.mp he with rfl | he
        · by_contra hrun
          rw [Bool.not_eq_false] at hrun
          have heq := huniq tid th hf.thread (looked_of_runs ho hrun)
          obtain ⟨-, id, t, hact⟩ := runs_iff.mp hrun
          cases hact
          cases hstep heq.symm
        · exact hruns e he
      · rcases looked_fire hth₂ hf hl₂ with ⟨th₃, hth₃, hl₃, -⟩ | ⟨rfl, hact⟩
        · exact huniq tid₂ th₃ hth₃ hl₃
        · exact absurd hl₀ ((hsole hact).2 tid₁ th₀ hth₀)
    · obtain ⟨hruns, hnone⟩ := hsole hact
      refine ⟨fun e he => ?_, fun tid₂ th₂ hth₂ hl₂ => ?_⟩
      · rcases List.mem_cons.mp he with rfl | he
        · cases hact
          simp [runs]
        · exact hruns e he
      · rcases looked_fire hth₂ hf hl₂ with ⟨th₃, hth₃, hl₃, -⟩ | ⟨rfl, -⟩
        · exact absurd hl₃ (hnone tid₂ th₃ hth₃)
        · rfl

end

end

/-- **What a request does for its call comes after it has started to run it.** Before, it reads the
conversation, looks for a stored result and advances the turn. -/
theorem acts_after_runs (h : Reachable P c) (htrace : c.trace = later ++ e :: earlier)
    (hjob : e.job = .callTool k callID name args turn) (haside : e.act.1.callStep = false)
    (hacts : e.act.1 ≠ .db (.conversation k)) :
    ∃ e' ∈ earlier, e'.tid = e.tid ∧ runs k callID e' = true := by
  have heach : Trace.Each (fun earlier e => CallsInOrder e.job (pastOf e.tid earlier) e.act.1 ∧
      ∀ e' ∈ earlier, e'.tid = e.tid → e'.job = e.job) c.trace := by
    refine Reach.inv h (P := fun _ tr => Trace.Each _ tr) trivial ?_ fun _ _ _ _ hG _ _ => hG
    intro c tid o th i k r s hr hG _ hf
    exact ⟨⟨hr.allowed body_calls hf, (hr.threaded body_calls).job_eq _ _ hf.thread⟩, hG⟩
  rw [htrace] at heach
  obtain ⟨ho, hjobs⟩ := heach.at
  rw [hjob] at ho
  obtain ⟨t, hmem⟩ := (ho.aside haside).resolve_left hacts
  obtain ⟨e', he', htid, hact⟩ := mem_pastOf.mp hmem
  exact ⟨e', he', htid, runs_iff.mpr ⟨⟨_, _, _, (hjobs e' he' htid).trans hjob⟩, _, _, hact⟩⟩

/-- No thread that has just started has yet to run a call. -/
theorem Once.started (h : Once c) (htrace : c'.trace = c.trace) (hdb : c'.shared.db = c.shared.db)
    (hthreads : ∀ tid th, c'.threads tid = some th → c.threads tid = some th ∨ th.past = []) :
    Once c' where
  once := by rw [htrace]; exact h.once
  replies := by rw [htrace, hdb]; exact h.replies
  saved := by rw [htrace, hdb]; exact h.saved
  ran := by rw [htrace]; exact h.ran
  looked k callID tid th hth hl := by
    have hold : ∀ tid th, c'.threads tid = some th → Looked k callID th.job th.past →
        c.threads tid = some th := by
      intro tid th hth hl
      rcases hthreads tid th hth with hth | hpast
      · exact hth
      · rw [hpast] at hl
        exact absurd hl not_looked_nil
    obtain ⟨hruns, huniq⟩ := h.looked k callID tid th (hold tid th hth hl) hl
    refine ⟨by rw [htrace]; exact hruns, fun tid' th' hth' hl' => ?_⟩
    exact huniq tid' th' (hold tid' th' hth' hl') hl'

theorem once_of_reaches (h : Reaches P (guarded soleCall fun _ _ => True) c) : Once c := by
  refine h.induct (P := Once) ?_ ?_ ?_ ?_ ?_ ?_
  · constructor <;> simp [start, Config.init, DB.toolCall]
  · intro c _ hc
    refine hc.started (by simp) (by simp) fun tid th hth => ?_
    rcases Config.startAll_threads _ _ hth with ⟨-, j, -, rfl⟩ | hth
    · exact .inr rfl
    · exact .inl hth
  · intro c p j _ hc _ _
    refine hc.started rfl rfl fun tid th hth => ?_
    rcases Config.start_threads _ _ hth with ⟨-, rfl⟩ | ⟨-, hth⟩
    · exact .inr rfl
    · exact .inl hth
  · intro c tid o th i cont r s hr hc hok hf
    exact hc.fire (hr.threaded body_calls) (guarded.exec hok hf) hf
  · intro c v s _ hc _ hv
    exact hc.started rfl (World.step_db hv) fun tid th hth => .inl hth
  · intro c p _ hc _
    exact hc.started rfl rfl fun tid th hth => .inl (c.stop_threads hth).1

/-- In every run in which a request finds no stored result only when no other request with its call
runs it or is about to, a call is run at most once, and every request that succeeds answers with the
stored result. -/
theorem tool_called_once (h : Reaches P (guarded soleCall fun _ _ => True) c) (k : UUID)
    (callID : String) :
    c.trace.countP (runs k callID) ≤ 1 ∧
      ∀ e ∈ c.trace, ∀ r, reply k callID e = some r → c.shared.db.toolCall k callID = some r :=
  ⟨(once_of_reaches h).once k callID, fun e he r hr =>
    (once_of_reaches h).replies k callID r e he hr⟩

/-- The gateway repeats the call that started task 9 (thread 5). -/
def repeating : List Lbl :=
  [.request 0 (.callTool 5 "c1" "start_task" "\x7b\"goal\":\"plan\"\x7d" 1)] ++ commits 5 2

/-- The repetition gets the stored result. -/
theorem tool_called_once_run : ∃ c, Reaches sample (guarded soleCall fun _ _ => True) c ∧
    c.trace.countP (runs 5 "c1") ≤ 1 ∧ (c.trace.filterMap (reply 5 "c1")).length = 2 ∧
    ∀ e ∈ c.trace, ∀ r, reply 5 "c1" e = some r → c.shared.db.toolCall 5 "c1" = some r := by
  have hrun : ((machine sample).run (checked soleCall) Orchestrator.start
      (opening ++ starting ++ repeating)).any
      (fun c => (c.trace.filterMap (reply 5 "c1")).length = 2) = true := by
    decide +kernel
  obtain ⟨c, hc, hp⟩ := reaches_of_run hrun
  obtain ⟨hruns, hreplies⟩ := tool_called_once hc 5 "c1"
  exact ⟨c, hc, hruns, of_decide_eq_true hp, hreplies⟩

/-- `sample`, with outputs that show the texts in them. -/
def showing : Params :=
  { sample with
    marshal := fun v => match v with
      | .obj ms => ms.foldl (fun s m => match m.2 with | .str t => s ++ t | _ => s) ""
      | _ => "" }

/-- Two requests with one call at once (threads 4 and 5): both find no stored result, and both start
a task. -/
def doubling : List Lbl :=
  [.request 0 (.callTool 5 "c1" "start_task" "\x7b\"goal\":\"plan\"\x7d" 1),
    .request 0 (.callTool 5 "c1" "start_task" "\x7b\"goal\":\"plan\"\x7d" 1)] ++
      commits 4 2 ++ commits 5 2 ++
  commits 4 2 ++ [.exec 4 (.tools (some [mailTool])), .exec 4 (.time 0), .exec 4 (.context none)] ++
  commits 4 1 ++ [.exec 4 (.uuid 9), .exec 4 (.time 0)] ++ commits 4 1 ++ [.exec 4 .through] ++
  commits 4 1 ++
  commits 5 2 ++ [.exec 5 (.tools (some [mailTool])), .exec 5 (.time 0), .exec 5 (.context none)] ++
  commits 5 1 ++ [.exec 5 (.uuid 10), .exec 5 (.time 0)] ++ commits 5 1 ++ [.exec 5 .through] ++
  commits 5 1

/-- The call is run twice and starts tasks 9 and 10, and the two requests answer differently. -/
theorem tool_called_twice : ∃ c, Reachable showing c ∧ c.trace.countP (runs 5 "c1") = 2 ∧
    c.shared.db.tasks.map (·.id) = [9, 10] ∧
    (c.trace.filterMap (reply 5 "c1")).length = 2 ∧ (c.trace.filterMap (reply 5 "c1")).Nodup := by
  have hrun : ((machine showing).run anything Orchestrator.start (opening ++ doubling)).any
      (fun c => decide (c.trace.countP (runs 5 "c1") = 2 ∧ c.shared.db.tasks.map (·.id) = [9, 10] ∧
        (c.trace.filterMap (reply 5 "c1")).length = 2 ∧
        (c.trace.filterMap (reply 5 "c1")).Nodup)) = true := by
    decide +kernel
  obtain ⟨c, hc, hp⟩ := reachable_of_run hrun
  exact ⟨c, hc, of_decide_eq_true hp⟩

end Jarvis.Orchestrator
