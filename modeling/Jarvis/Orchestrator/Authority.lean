import Jarvis.Orchestrator.Approvals

/-!
# Who may act for a task

A task that waits is resumed by several jobs, each of which has looked something up: the approval a
user submits, the confirmation a conversation settles, what has expired. `acted_by` says what they
found, and that it is still true.
-/

namespace Jarvis.Orchestrator

open Interleave

variable {P : Params} {later past : List Ev} {e : Ev} {tenant T : UUID} {user : String}

/-- The task is there, and belongs to this user. -/
def DB.Owns (db : DB) (tenant : UUID) (user : String) (T : UUID) : Prop :=
  ∃ r, db.taskRow T = some r ∧ r.tenantID = tenant ∧ r.userID = user

/-- A thread has looked the approval up for the user, and its task is still theirs. -/
structure LookedUp (tid : ℕ) (past : List Ev) (tenant : UUID) (user x : String)
    (a : DeviceApproval) : Prop where
  found : ∃ e ∈ past, e.tid = tid ∧ e.act = did (.approval tenant user x) (.ok a)
  named : a.approvalID = x
  owner : (dbOf past).Owns tenant user a.taskID

/-- What a thread that resumes a task rests on, after the events `past`. -/
def MayResume (tid : ℕ) (past : List Ev) (T : UUID) : Job → Prop
  | .submitApproval tenant user x _ _ => ∃ a, LookedUp tid past tenant user x a ∧ a.taskID = T
  | .callTool k _ _ _ _ => ∃ e ∈ past, e.tid = tid ∧ ∃ id turn confirm conf,
      e.act = did (.settle k id turn confirm) (.ok conf) ∧ conf.conversationID = k ∧
        conf.taskID = some T
  | .runTask _ t _ _ _ => t.id = T
  | .maintenance _ => ∃ e ∈ past, e.tid = tid ∧ ((∃ as, e.act = did .expireApprovals (.ok as) ∧
      ∃ a ∈ as, a.taskID = T) ∨ ∃ cs, e.act = did .expireConfirmations (.ok cs) ∧ ∃ c ∈ cs,
        c.taskID = some T)
  | _ => False

theorem found_eq_ok {α : Type} {o : Option α} {x : α} : found o = .ok x ↔ o = some x := by
  cases o <;> simp [found]

/-- A task keeps its user. -/
theorem Lawful.task_owner (h : Lawful P (later ++ past)) (howns : (dbOf past).Owns tenant user T) :
    (dbOf (later ++ past)).Owns tenant user T := by
  induction later with
  | nil => exact howns
  | cons e later ih =>
    cases h with
    | cons tail _ answered db _ =>
      obtain ⟨r, hr, hown⟩ := ih tail
      obtain ⟨r', hr', rfl | ⟨q, -, hstep⟩⟩ := answered.task (db ▸ Lawful.keys tail)
        (by rw [db]; exact hr)
      · exact ⟨_, hr', hown⟩
      · exact ⟨r', hr', by cases hstep <;> exact hown⟩

/-- An approval that was looked up for a user belongs to a task of that user, then and later. -/
theorem Lawful.approval_owner (h : Lawful P past) (he : e ∈ past) {x : String} {a : DeviceApproval}
    (hact : e.act = did (.approval tenant user x) (.ok a)) :
    (dbOf past).Owns tenant user a.taskID := by
  obtain ⟨locked, -, hok⟩ := (h.answered he).ok hact
  obtain ⟨b, hb, rfl⟩ := Option.map_eq_some_iff.mp (found_eq_ok.mp hok)
  obtain ⟨r, hr, hown⟩ := (Option.any_eq_true ..).mp
    (Bool.and_eq_true_iff.mp (List.find?_some (p := fun a : DeviceApproval => _ && _) hb)).2
  obtain ⟨later, earlier, rfl⟩ := List.append_of_mem he
  rw [h.tail_of_append.before_db] at hr
  rw [List.append_cons] at h ⊢
  exact h.task_owner ⟨r, hr, of_decide_eq_true hown⟩

/-- **Who acts for a task.** It is resumed by its own user with an approval, by the conversation
that settled its confirmation, by its worker, or after one of the two expired; and a command is sent
with an approval only by the thread that has looked it up for the user who submits it, for a task of
that user, to the device that it is for. -/
theorem acted_by {c : Cfg} (h : Reachable P c) (htr : c.trace = later ++ e :: past) :
    (∀ T u, e.act.1 = .db (.resumeTask T u) → MayResume e.tid past T e.job) ∧
    ∀ d command ap, e.act.1 = .deviceSend d command (some ap) → ∃ tenant user a,
      e.job = .submitApproval tenant user ap.approvalID ap.approverID ap.signature ∧
      LookedUp e.tid past tenant user ap.approvalID a ∧ a.deviceID = d.id := by
  obtain ⟨hl, -⟩ := h.lawful
  rw [htr] at hl
  cases hl.tail_of_append with
  | cons tail does _ _ _ =>
    -- Whatever the thread has looked up is an event of the past.
    have hmem : ∀ x ∈ keys (pastOf e.tid past), ∃ e' ∈ past, e'.tid = e.tid ∧ e'.act = x :=
      fun _ => Lawful.event_of_keys
    generalize keys (pastOf e.tid past) = ks at does hmem
    generalize e.job = j at does ⊢
    have hfound {tenant user x a} (hx : did (.approval tenant user x) (.ok a) ∈ ks) :
        LookedUp e.tid past tenant user x a := by
      obtain ⟨e', he', htid, hact⟩ := hmem _ hx
      exact ⟨⟨e', he', htid, hact⟩, tail.loaded ⟨e', he', hact⟩, tail.approval_owner he' hact⟩
    refine ⟨fun T u hq => ?_, fun d command ap hq => ?_⟩ <;> rw [hq] at does
    · cases does with
      | free h => cases h
      | resumeSettled _ ht =>
        obtain ⟨e', he', htid, hact⟩ := hmem _ (List.mem_append_right _ (.head _))
        obtain ⟨l₁, l₂, rfl⟩ := List.append_of_mem he'
        obtain ⟨c, -, hs, hc, -⟩ := tail.tail_of_append.settled hact
        exact ⟨e', he', htid, _, _, _, _, hact, by rw [hc]; exact (of_decide_eq_true hs).2.1, ht⟩
      | resumeUnasked => rfl
      | resumeSpent =>
        exact ⟨_, hfound (.tail _ (List.mem_append_right _ (.tail _ (.head _)))), rfl⟩
      | resumeUsed => exact ⟨_, hfound (.tail _ (List.mem_append_right _ (.tail _ (.head _)))), rfl⟩
      | dropExpired h =>
        obtain ⟨e', he', htid, hact⟩ := hmem _ h
        exact ⟨e', he', htid, .inl ⟨_, hact, _, by simp, rfl⟩⟩
      | resumeExpired h hc ht =>
        obtain ⟨e', he', htid, hact⟩ := hmem _ h
        exact ⟨e', he', htid, .inr ⟨_, hact, _, hc, ht⟩⟩
    · cases does with
      | free h => cases h
      | send =>
        obtain ⟨e', he', -, hact⟩ := hmem _ (.tail _ (.head _))
        obtain ⟨locked, -, hok⟩ := (tail.answered he').ok hact
        exact ⟨_, _, _, rfl, hfound (.tail _ (.tail _ (.head _))),
          (Table.row_key (found_eq_ok.mp hok)).symm⟩

/-- A run in which a user submits an approval and the command goes to the device. -/
theorem acted_by_run : ∃ c e past d command ap, Reachable sample c ∧ c.trace = e :: past ∧
    e.act.1 = .deviceSend d command (some ap) ∧ ∃ tenant user a,
      e.job = .submitApproval tenant user ap.approvalID ap.approverID ap.signature ∧
      LookedUp e.tid past tenant user ap.approvalID a ∧ a.deviceID = d.id := by
  have hrun :
    (((machine sample).run anything start (registering ++ commanding ++ storing ++ approving 6)).any
      (sendsApproval fun _ _ => true)) = true := by decide +kernel
  obtain ⟨c, hc, hsends⟩ := reachable_of_run hrun
  obtain ⟨e, past, -, htr, ⟨d, command, ap, -, -, hact, -⟩, -⟩ := sendsApproval_spec hsends
  have htr' : c.trace = [] ++ e :: past := htr
  exact ⟨c, e, past, d, command, ap, hc, htr, hact, (acted_by hc htr').2 d command ap hact⟩

end Jarvis.Orchestrator
