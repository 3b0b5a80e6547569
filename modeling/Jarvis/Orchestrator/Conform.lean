import Jarvis.Orchestrator.Protocol

/-!
# Every program follows the protocol

`Conforms P j Q ks p`: started with the key requests `ks`, the part `p` of job `j` makes only
requests that `Does` allows, and ends in `Q` of the key requests and its result. There is one rule
for each way programs are built and one lemma for each function of the engine; `body_spec` puts
them together.
-/

namespace Jarvis.Orchestrator

open Interleave Engine

variable {P : Params} {j : Job} {α β : Type}

/-! ## The rules -/

/-- Started with the key requests `ks`, a program makes only requests that `Does` allows, and ends
in `Q`. -/
def Conforms (P : Params) (j : Job) (Q : Log → α → Prop) (ks : Log) (p : Op α) : Prop :=
  ∀ past, keys past = ks →
    p.Spec (fun past i => Does P j (keys past) i) (fun past a => Q (keys past) a) past

/-- A program that makes only requests any job may make. -/
def Free : Op α → Prop
  | .ret _ => True
  | .act i k => i.free = true ∧ ∀ r, Free (k r)

variable {i : Instr} {callID : String} {turn : ℤ} {ks : Log} {last : Option Time}

theorem Instr.key_of_free (h : i.free = true) : i.key = false := by
  unfold Instr.free at h
  split at h
  all_goals first | cases h | rfl | simpa using h

namespace Free

theorem pure (a : α) : Free (pure a : Op α) := trivial

theorem ask (h : i.free = true) : Free (ask i) := ⟨h, fun _ => trivial⟩

theorem query (h : (Instr.db q).free = true) : Free (query q) := ask h

theorem bind {f : α → Op β} (hp : Free p) (hf : ∀ a, Free (f a)) : Free (p >>= f) := by
  induction p with
  | ret a => exact hf a
  | act i k ih => exact ⟨hp.1, fun r => ih r (hp.2 r)⟩

theorem onlyIf {b : Prop} [Decidable b] (hp : Free p) : Free (onlyIf b p) := by
  unfold Orchestrator.onlyIf
  split
  · exact hp
  · exact pure _

end Free

variable {Q : Log → α → Prop}

namespace Conforms

variable {Q' : Log → α → Prop}

theorem pure (h : Q ks a) : Conforms P j Q ks (pure a) := by
  rintro past rfl
  exact h

variable {p : Op α} {f : α → Op β} {R : Log → β → Prop}

theorem mono (h : Conforms P j Q ks p) (hQ : ∀ ks a, Q ks a → Q' ks a) :
    Conforms P j Q' ks p :=
  fun past hp => (h past hp).post fun past a => hQ (keys past) a

theorem bind (h : Conforms P j (fun ks a => Conforms P j R ks (f a)) ks p) :
    Conforms P j R ks (p >>= f) := by
  intro past hp
  rw [Prog.spec_bind]
  exact (h past hp).post fun past a ha => ha past rfl

/-- Composition with a specified first part. -/
theorem seq (h : Conforms P j Q ks p) (hf : ∀ ks a, Q ks a → Conforms P j R ks (f a)) :
    Conforms P j R ks (p >>= f) :=
  .bind (h.mono hf)

/-- A request any job may make leaves no mark. -/
theorem ask_free {Q : Log → Answer i → Prop} (hi : i.free = true) (h : ∀ r, Q ks r) :
    Conforms P j Q ks (ask i) := by
  rintro past rfl
  refine ⟨.free hi, fun r => ?_⟩
  rw [Prog.spec_ret, keys_cons_of_not (Instr.key_of_free hi)]
  exact h r

/-- Nor does any other request that is not a key request. -/
theorem ask_not_key {Q : Log → Answer i → Prop} (hi : i.key = false) (hd : Does P j ks i)
    (h : ∀ r, Q ks r) : Conforms P j Q ks (ask i) := by
  rintro past rfl
  refine ⟨hd, fun r => ?_⟩
  rw [Prog.spec_ret, keys_cons_of_not hi]
  exact h r

/-- A key request is recorded. -/
theorem ask_key {Q : Log → Answer i → Prop} (hi : i.key = true) (hd : Does P j ks i)
    (h : ∀ r, Q (⟨i, r⟩ :: ks) r) : Conforms P j Q ks (ask i) := by
  rintro past rfl
  refine ⟨hd, fun r => ?_⟩
  rw [Prog.spec_ret, keys_cons_key hi]
  exact h r

/-- A key statement is recorded. -/
theorem query_key {Q : Log → Res q.Result → Prop} (hq : q.key = true) (hd : Does P j ks (.db q))
    (h : ∀ r, Q (did q r :: ks) r) : Conforms P j Q ks (query q) :=
  ask_key (i := .db q) hq hd h

/-- A program that makes only free requests leaves no mark. -/
theorem of_free (hp : Free p) (h : ∀ a, Q ks a) : Conforms P j Q ks p := by
  induction p with
  | ret a => exact pure (h a)
  | act i k ih =>
    rintro past rfl
    refine ⟨.free hp.1, fun r => ih r (hp.2 r) _ ?_⟩
    rw [keys_cons_of_not (Instr.key_of_free hp.1)]

end Conforms

/-! ## Functions that make only free requests -/

theorem free_audit (tenant : UUID) (user : String) (actor : Actor)
    (action targetType targetID : String)
    (outcome : Outcome) (reason : String) (details : List (String × String)) :
    Free (audit tenant user actor action targetType targetID outcome reason details) :=
  .ask rfl

theorem free_notify (t : Task) (kind : NotifyKind) : Free (notify t kind) :=
  .bind (.query rfl) fun _ => .pure _

theorem free_emit (k : Option UUID) (payload : Payload) : Free (emit k payload none) := by
  unfold emit
  split
  · exact .pure _
  · refine .bind (.query rfl) fun r => ?_
    split <;> exact .pure _

theorem free_finished (t : Task) : Free (finished P t) := by
  refine .bind ?_ fun _ => .bind (free_emit _ _) fun _ => .onlyIf (free_notify ..)
  unfold auditFinished
  split
  · exact free_audit ..
  · exact .pure _

theorem free_buildCatalog (tenant : UUID) (user : String) (voice : Bool) :
    Free (buildCatalog P tenant user voice) := by
  refine .bind (.query rfl) fun r => ?_
  split
  · exact .pure _
  · refine .bind (.ask rfl) fun r => ?_
    split <;> exact .pure _

theorem free_recall (c : Caller) (q : String) : Free (recallMemory P c q) := by
  refine .bind (.ask rfl) fun r => ?_
  split
  · exact .pure _
  · split <;> exact .pure _

theorem free_remember (c : Caller) (note : String) : Free (remember P c note) := by
  refine .bind (.ask rfl) fun r => ?_
  split <;> exact .pure _

theorem free_runDevice (c : Caller) (args : String) : Free (runDevice P c args) := by
  unfold runDevice
  split
  · exact .pure _
  · split
    · exact .pure _
    · refine .bind (.query rfl) fun r => ?_
      split
      · exact .pure _
      · split
        · exact .pure _
        · refine .bind ?_ fun r => ?_
          · refine .bind (.ask rfl) fun r => ?_
            split
            · exact .pure _
            · exact .bind (.ask rfl) fun r => .ask rfl
          · split
            · exact .pure _
            · exact .pure _
            · exact .bind (free_audit ..) fun _ => .pure _

theorem free_openConversation (id : UUID) : Free (openConversation id) := by
  refine .bind (.query rfl) fun r => ?_
  split <;> exact .pure _

theorem free_refuse (c : Caller) (id : UUID) (confirm : Bool) : Free (refuse P c id confirm) := by
  refine .bind (.query rfl) fun r => ?_
  split
  · exact .pure _
  · exact .pure _
  · split
    · exact .pure _
    · refine .bind (.ask rfl) fun r => ?_
      split
      · exact .pure _
      · split
        · exact .bind (free_audit ..) fun _ => .pure _
        · exact .pure _

theorem free_taskIntro (c : Caller) (goal : String) : Free (taskIntro P c goal) := by
  refine .bind (.ask rfl) fun r => .bind (.ask rfl) fun r => ?_
  dsimp only
  split
  · exact .pure _
  · refine .bind (.query rfl) fun r => ?_
    split
    · exact .pure _
    · split <;> exact .pure _

theorem free_approvalExpiry (req : ApprovalRequired) : Free (approvalExpiry req) := by
  unfold approvalExpiry
  split
  · exact .bind (.ask rfl) fun _ => .pure _
  · refine .bind (.ask rfl) fun _ => ?_
    split
    · exact .pure _
    · exact .bind (.ask rfl) fun _ => .pure _

theorem free_cancel (tenant : UUID) (user : String) (id : UUID) :
    Free (cancel P tenant user id) := by
  refine .bind (.query rfl) fun r => ?_
  split
  · exact .pure _
  · refine .bind (.query rfl) fun r => ?_
    split
    · exact .pure _
    · exact .bind (.onlyIf (free_finished _)) fun _ => .pure _

theorem free_renewLease (id : UUID) (owner : Owner) : Free (renewLease id owner) := by
  refine .bind (.ask rfl) fun r => ?_
  split
  · exact .pure _
  · refine .bind (.query rfl) fun r => ?_
    split <;> exact .pure _

theorem free_extractMemory (id : UUID) : Free (extractMemory id) := by
  refine .bind (.query rfl) fun r => ?_
  split
  · exact .pure _
  · refine .bind (.query rfl) fun r => ?_
    split
    · exact .pure _
    · split
      · exact .pure _
      · refine .bind (.ask rfl) fun r => ?_
        split
        · exact .pure _
        · exact .pure _
        · refine .bind (.ask rfl) fun r => ?_
          split
          · exact .pure _
          · exact .pure _
          · exact .pure _
          · split
            · exact .pure _
            · refine .bind (.ask rfl) fun r => ?_
              split <;> exact .pure _

theorem free_memoryWorker : Free memoryWorker := by
  refine .bind (.ask rfl) fun r => ?_
  split
  · exact .pure _
  · refine .bind (.query rfl) fun r => ?_
    split
    · exact .pure _
    · refine .bind (free_extractMemory _) fun r => .bind ?_ fun _ => .pure _
      unfold finishMemory
      split
      · exact .query rfl
      · exact .query rfl
      · split <;> exact .query rfl

theorem free_claimNotifications (consumer : String) (limit : ℕ) (deadline : Time) :
    Free (claimNotifications consumer limit deadline) := by
  refine .bind (.query rfl) fun r => ?_
  split
  · refine .bind (.ask rfl) fun r => ?_
    split
    · exact .pure _
    · exact .bind (.ask rfl) fun _ => .pure _
  · exact .pure _

theorem free_openSession (tenant : UUID) (user sessionID : String) (provider : Provider)
    (locale : String) : Free (openSession P tenant user sessionID provider locale) := by
  refine .bind (free_buildCatalog ..) fun r => ?_
  split
  · exact .pure _
  · refine .bind (.ask rfl) fun r => .bind (.query rfl) fun r => ?_
    split
    · exact .pure _
    · exact .bind (.query rfl) fun _ => .pure _

theorem free_recordTurn (id : UUID) (role itemID : String) (turn : ℤ) (text : String) :
    Free (Engine.recordTurn id role itemID turn text) := by
  refine .bind (free_openConversation _) fun r => ?_
  split
  · exact .pure _
  · refine .bind (.query rfl) fun r => ?_
    split
    · exact .pure _
    · refine .bind (.query rfl) fun r => ?_
      split <;> exact .pure _

/-! ## Voice calls -/

variable {c : Caller}

section Voice

theorem conforms_callMCP {Q : Log → String × Bool → Prop}
    (h : Conforms P j (fun ks _ => ∀ a, Q ks a) ks
      (ask (.mcpCall cause c.tenant c.user integrationID tool (callArguments args)))) :
    Conforms P j Q ks (callMCP P cause c integrationID integration tool args) := by
  refine .bind (h.mono fun ks r hr => ?_)
  split <;> exact .pure (hr _)

theorem conforms_execute {Q : Log → (String × Bool) × Option Pause → Prop} (hQ : ∀ a, Q ks a) :
    Conforms P j Q ks (execute P c target args) := by
  unfold execute dispatch
  split
  · split
    · split
      · exact .pure (hQ _)
      · exact .bind (.of_free (free_recall ..) fun _ => .pure (hQ _))
    · exact .pure (hQ _)
  · split
    · split
      · exact .pure (hQ _)
      · exact .bind (.of_free (free_remember ..) fun _ => .pure (hQ _))
    · exact .pure (hQ _)
  · exact .of_free (free_runDevice ..) hQ
  · split
    · rename_i hr
      exact .bind (conforms_callMCP (.ask_not_key rfl (.readOnly hr) fun _ _ => .pure (hQ _)))
    · exact .pure (hQ _)
  · exact .pure (hQ _)

end Voice

theorem quiet_nil : Quiet P [] := .of_plain rfl rfl fun _ => rfl

section CallTool

variable {k : UUID} {name args : String}

/-- What a thread has done once a settled action was carried out or not. -/
def Acted (k id : UUID) (turn : ℤ) (confirm : Bool) (conf : Confirmation) (ks : Log) : Prop :=
  ∃ l, (l = [] ∨ ∃ tenant user a b c r, l = [⟨.mcpCall (.confirmed conf) tenant user a b c, r⟩]) ∧
    ks = l ++ [did (.settle k id turn confirm) (.ok conf)]

variable {id T : UUID} {confirm : Bool} {conf : Confirmation}

theorem conforms_settleAction (ha : decodeAction P conf.action = some a) :
    Conforms P (.callTool k callID name args turn) (fun ks _ => Acted k id turn confirm conf ks)
      [did (.settle k id turn confirm) (.ok conf)] (settleAction P conf c a confirm) := by
  unfold settleAction
  split
  · rename_i hc
    subst hc
    unfold runAction
    split
    · exact .pure ⟨[], .inl rfl, rfl⟩
    · exact conforms_callMCP (.ask_key rfl (.runAction ha) fun r _ =>
        ⟨[_], .inr ⟨_, _, _, _, _, r, rfl⟩, rfl⟩)
  · exact .pure ⟨[], .inl rfl, rfl⟩

theorem Acted.opens (h : Acted k id turn confirm conf ks) (hx : x ∈ ks) (ho : opens P T call x) :
    conf.taskID = some T ∧ conf.callID = call ∧ (decodeAction P conf.action).isSome = true := by
  obtain ⟨l, rfl | ⟨_, _, _, _, _, r, rfl⟩, rfl⟩ := h
  · cases List.mem_singleton.mp hx
    exact ho
  · obtain rfl | hx := List.mem_cons.mp hx
    · exact ho.elim
    · cases List.mem_singleton.mp hx
      exact ho

/-- An action that no task asked for leaves nothing unfinished, and neither does one whose task has
been told. -/
theorem Acted.quiet (h : Acted k id turn confirm conf ks)
    (hn : conf.taskID = none ∨ decodeAction P conf.action = none) : Quiet P ks := by
  refine .of_closed ?_ ?_ fun x hx T call ho => ?_
  · obtain ⟨l, rfl | ⟨_, _, _, _, _, r, rfl⟩, rfl⟩ := h <;> rfl
  · obtain ⟨l, rfl | ⟨_, _, _, _, _, r, rfl⟩, rfl⟩ := h <;> exact fun _ => rfl
  · obtain ⟨ht, -, ha⟩ := h.opens hx ho
    rcases hn with hn | hn
    · exact absurd (hn.symm.trans ht) nofun
    · rw [hn] at ha
      cases ha

theorem Acted.quiet_resumed (h : Acted k id turn confirm conf ks) (hT : conf.taskID = some T)
    (out : String) (r : Res Task) :
    Quiet P (did (.resumeTask T (.complete conf.callID out)) r :: ks) := by
  refine .of_closed ?_ ?_ fun x hx T' call ho => ⟨_, List.mem_cons_self, ?_⟩
  · obtain ⟨l, rfl | ⟨_, _, _, _, _, r, rfl⟩, rfl⟩ := h <;> rfl
  · obtain ⟨l, rfl | ⟨_, _, _, _, _, r, rfl⟩, rfl⟩ := h <;> exact nofun
  · obtain rfl | hx := List.mem_cons.mp hx
    · exact ho.elim
    · obtain ⟨ht, hc, -⟩ := h.opens hx ho
      exact ⟨Option.some.inj (hT.symm.trans ht), hc⟩

/-- After `settle` a thread owes nobody an answer. -/
theorem conforms_settle (hk : c.conversation = some k) (ht : c.turn = turn) (id : UUID)
    (confirm : Bool) :
    Conforms P (.callTool k callID name args turn) (fun ks _ => Quiet P ks) []
      (Engine.settle P c id confirm) := by
  subst ht
  unfold Engine.settle
  rw [hk, Option.getD_some]
  refine .bind (.query_key rfl .settle fun r => ?_)
  split
  · exact .of_free (free_refuse ..) fun _ => .of_plain rfl rfl fun _ => rfl
  · exact .pure (.of_plain rfl rfl fun _ => rfl)
  · rename_i conf
    refine .bind (.of_free (free_audit ..) fun _ => ?_)
    split
    · rename_i ha
      exact .pure (Acted.quiet ⟨[], .inl rfl, rfl⟩ (.inr ha))
    · rename_i a ha
      refine .seq (conforms_settleAction ha) fun ks result hacted => ?_
      split
      · rename_i hn
        exact .pure (hacted.quiet (.inl hn))
      · rename_i T hT
        have hdoes := hacted
        obtain ⟨l, hl, rfl⟩ := hdoes
        refine .bind (.query_key rfl (.resumeSettled hl hT) fun r => ?_)
        split <;> exact .pure (hacted.quiet_resumed hT _ _)

theorem conforms_askConfirmation (hk : c.conversation = some k) (hc : c.callID = callID)
    (a : Action) (summary : String) :
    Conforms P (.callTool k callID name args turn) (fun ks _ => Quiet P ks) []
      (askConfirmation P c a summary) := by
  refine .bind (.ask_free rfl fun id => .bind (.ask_free rfl fun now => .bind ?_))
  refine .query_key rfl (.askConfirmation (by rw [hk]; rfl) rfl hc rfl rfl) fun r => ?_
  have hq : Quiet P [did (.createConfirmation
      { id, conversationID := c.conversation.getD 0, taskID := none, callID := c.callID,
        action := encodeAction P a, summary, askedTurn := none, state := .pending,
        expiresAt := now + P.opts.confirmationTTL }) r] := by
    exact .of_plain rfl rfl fun _ => rfl
  split
  · exact .pure hq
  · exact .bind (.of_free (free_audit ..) fun _ => .pure hq)

theorem conforms_startTask (c : Caller) (goal : String) :
    Conforms P (.callTool k callID name args turn) (fun ks _ => Quiet P ks) []
      (startTask P c goal) := by
  refine .bind (.of_free (free_buildCatalog ..) fun r => ?_)
  split
  · exact .pure quiet_nil
  · refine .bind (.of_free (free_taskIntro ..) fun intro => .bind (.ask_free rfl fun id =>
      .bind (.ask_free rfl fun now => .bind ?_)))
    refine .query_key rfl (.startTask rfl rfl ⟨rfl, rfl⟩) fun r => ?_
    split
    · exact .pure (.of_plain rfl rfl fun _ => rfl)
    · exact .bind (.of_free (free_audit ..) fun _ => .pure (.of_plain rfl rfl fun _ => rfl))

/-- Once the statement is made, the approval counts as stored. -/
theorem conforms_saveApproval {Q : Log → Res Unit → Prop}
    (hd : ∀ expiresAt, Does P j ks
      (.db (.saveApproval ⟨req.approvalID, device.id, taskID, callID, encodeCommand command,
        req.payload, expiresAt⟩)))
    (h : ∀ a r, Q (did (.saveApproval a) r :: ks) r) :
    Conforms P j Q ks (saveApproval taskID callID device command req) :=
  .bind (.of_free (free_approvalExpiry ..) fun _ => .query_key rfl (hd _) fun r => h _ r)

theorem conforms_awaitApproval (c : Caller) (device : Device) (command : Command)
    (req : ApprovalRequired) (summary : String) :
    Conforms P (.callTool k callID name args turn) (fun ks _ => Quiet P ks) []
      (awaitApproval P c device command req summary) := by
  refine .bind (.ask_free rfl fun id => .bind (.of_free (free_approvalExpiry ..) fun deadline =>
    .bind (.query_key rfl (.awaitApproval rfl rfl rfl) fun r => ?_)))
  split
  · exact .pure (.of_plain rfl rfl fun _ => rfl)
  · refine .bind (conforms_saveApproval (fun _ => .saveVoiceApproval rfl rfl rfl) fun a r => ?_)
    split
    · refine .pure ?_
      exact .of_plain rfl rfl nofun
    · refine .bind (.of_free (free_notify ..) fun _ => .bind (.of_free (free_audit ..) fun _ =>
        .pure ?_))
      exact .of_plain rfl rfl nofun

theorem conforms_voiceTool (hk : c.conversation = some k) (ht : c.turn = turn) (conv : Conversation)
    (name' args' : String) :
    Conforms P (.callTool k callID name args turn)
      (fun ks r => Quiet P ks ∧ (r.2 ≠ none → ks = [])) [] (voiceTool P conv c name' args') := by
  unfold voiceTool
  split
  · exact .pure ⟨quiet_nil, fun _ => rfl⟩
  · split
    · exact .pure ⟨quiet_nil, fun _ => rfl⟩
    · split
      · split
        · split
          · exact .pure ⟨quiet_nil, fun _ => rfl⟩
          · exact .seq (conforms_startTask _ _) (fun ks r hq => .pure ⟨hq, by simp⟩)
        · exact .pure ⟨quiet_nil, fun _ => rfl⟩
      · split
        · exact .seq (conforms_settle hk ht _ _) (fun ks r hq => .pure ⟨hq, by simp⟩)
        · exact .pure ⟨quiet_nil, fun _ => rfl⟩
      · split
        · exact .seq (conforms_settle hk ht _ _) (fun ks r hq => .pure ⟨hq, by simp⟩)
        · exact .pure ⟨quiet_nil, fun _ => rfl⟩
      · exact conforms_execute fun _ => ⟨quiet_nil, fun _ => rfl⟩

theorem conforms_voiceCall (hk : c.conversation = some k) (ht : c.turn = turn)
    (hc : c.callID = callID) (conv : Conversation) (name' args' : String) :
    Conforms P (.callTool k callID name args turn) (fun ks _ => Quiet P ks) []
      (voiceCall P conv c name' args') := by
  refine .seq (conforms_voiceTool hk ht conv name' args') ?_
  rintro ks r ⟨hq, hr⟩
  split
  · exact .pure hq
  · rw [hr (by simp)]
    exact .seq (conforms_askConfirmation hk hc _ _) fun ks r hq => .pure hq
  · rw [hr (by simp)]
    exact .seq (conforms_awaitApproval _ _ _ _ _) fun ks r hq => .pure hq

theorem conforms_callTool (args' : String) :
    Conforms P (.callTool k callID name args turn) (fun ks _ => Quiet P ks) []
      (callTool P k callID name args' turn) := by
  refine .bind (.of_free (free_openConversation _) fun r => ?_)
  split
  · exact .pure quiet_nil
  · rename_i conv
    refine .bind (.of_free (.query rfl) fun r => ?_)
    split
    · exact .pure quiet_nil
    · exact .pure quiet_nil
    · refine .bind (.of_free (.query rfl) fun r => ?_)
      split
      · exact .pure quiet_nil
      · refine .seq (conforms_voiceCall (c := voiceCaller conv k callID turn) rfl rfl rfl _ _ _)
          fun ks r hq => ?_
        refine .bind (.of_free (.query rfl) fun r => ?_)
        split <;> exact .pure hq

end CallTool

theorem conforms_ackToolOutput :
    Conforms P (.ackToolOutput k callID turn) (fun ks _ => Quiet P ks) []
      (ackToolOutput k callID turn) := by
  refine .bind (.of_free (free_openConversation _) fun r => ?_)
  split
  · exact .pure quiet_nil
  · refine .bind (.ask_not_key rfl .ackCall fun r => ?_)
    split <;> exact .pure quiet_nil

theorem conforms_ack :
    Conforms P (.ackEvent k e turn) (fun ks _ => Quiet P ks) [] (Engine.ack k e turn) := by
  refine .bind (.query_key rfl .ackEvent fun r => ?_)
  split
  · exact .pure (.of_plain rfl rfl fun _ => rfl)
  · exact .pure (.of_plain rfl rfl fun _ => rfl)
  · exact .pure (.of_plain rfl rfl fun _ => rfl)
  · refine .bind (.query_key rfl .markAsked fun r => ?_)
    split <;>
    · exact .pure (.of_plain rfl rfl fun _ => rfl)

/-! ## Workers -/

section Worker

variable {owner : Owner} {t : Task} {items : List Item} {calls : List ToolCall} {n : ℕ}

theorem conforms_finish {Q : Log → Unit → Prop}
    (hd : ∀ result,
      Does P j ks (.db (.setTaskState (ended t items calls state result) owner state result)))
    (hQ : ∀ t result r, Q (did (.setTaskState t owner state result) r :: ks) ()) (result : String) :
    Conforms P j Q ks (finish P owner t items calls state result) := by
  refine .bind (.query_key rfl (hd _) fun r => ?_)
  split
  · exact .of_free (free_finished _) fun _ => hQ _ _ _
  · exact .pure (hQ _ _ _)

variable {call : ToolCall}

/-- Once it has answered the call or put the question, a thread that made its task wait for the user
has nothing left unfinished. -/
theorem quiet_asked (l : Log) (ho : l.any mayOpen = false) (hd : l.any mayDrop = false)
    (hl : l ≠ []) (hc : ∃ y ∈ l, closes t.id call.callID y.1) :
    Quiet P (l ++ [did (.setTaskState (withState t items (call :: calls)) owner
      .awaitingConfirmation result) (.ok true)]) := by
  refine .of_closed (by rw [List.any_append, hd]; rfl) (fun h => ?_) fun x hx T w hopens => ?_
  · exact absurd (List.length_eq_zero_iff.mp
      (Nat.succ_injective (List.length_append.symm.trans h))) hl
  · obtain hx | hx := List.mem_append.mp hx
    · exact absurd hopens.mayOpen (List.any_eq_false.mp ho x hx)
    · cases List.mem_singleton.mp hx
      obtain ⟨rfl, hw⟩ : t.id = T ∧ headCall (withState t items (call :: calls)) = some w := hopens
      rw [headCall_withState, Option.some.injEq] at hw
      subst hw
      obtain ⟨y, hy, hcl⟩ := hc
      exact ⟨y, List.mem_append_left _ hy, hcl⟩

theorem conforms_pauseTask (p : Pause) :
    Conforms P (.runTask owner t items (call :: calls) n) (fun ks _ => Quiet P ks) []
      (pauseTask P owner t items call calls p) := by
  cases p with
  | action a summary =>
    refine .bind (.query_key rfl (.pause (.inl rfl)) fun r => ?_)
    split
    · refine .bind (.ask_free rfl fun id => .bind (.ask_free rfl fun now => ?_))
      split
      · rename_i hc
        exact .bind (.query_key rfl (.resumeUnasked hc) fun r => .pure
          (quiet_asked [_] rfl rfl nofun ⟨_, List.mem_cons_self, rfl, rfl⟩))
      · rename_i k hk
        refine .bind (.query_key rfl (.createConfirmation hk rfl rfl rfl rfl) fun r => ?_)
        split
        · exact .pure (quiet_asked [_] rfl rfl nofun ⟨_, List.mem_cons_self, rfl, rfl⟩)
        · refine .bind (.of_free (free_audit ..) fun _ => .bind ?_)
          refine .bind (.query_key rfl (.tell rfl) fun r => ?_)
          split <;> exact .pure (.of_free (.onlyIf (free_notify ..)) fun _ =>
            quiet_asked [_, _] rfl rfl nofun ⟨_, List.mem_cons_of_mem _ List.mem_cons_self,
              rfl, rfl⟩)
    · rename_i hr
      refine .pure ?_
      rcases r with e | _ | _
      · exact .of_plain rfl rfl fun _ => rfl
      · exact .of_plain rfl rfl fun _ => rfl
      · exact absurd rfl hr
  | approval device command req summary =>
    refine .bind (.query_key rfl (.pause (.inr rfl)) fun r => ?_)
    split
    · refine .bind (conforms_saveApproval (fun _ => .saveTaskApproval rfl rfl) fun a r => ?_)
      split
      · refine .pure ?_
        exact .of_plain rfl rfl nofun
      · refine .bind (.of_free (free_emit ..) fun _ => .bind (.of_free (free_notify ..) fun _ =>
          .of_free (free_audit ..) fun _ => ?_))
        exact .of_plain rfl rfl nofun
    · rename_i hr
      refine .pure ?_
      rcases r with e | _ | _
      · exact .of_plain rfl rfl fun _ => rfl
      · exact .of_plain rfl rfl fun _ => rfl
      · exact absurd rfl hr

/-- What a thread has done once the model answered or did not. -/
def Decided (t : Task) (items : List Item) (ks : Log) : Except DecideErr DecideResponse → Prop
  | .ok resp => ks = [⟨decideCall t items, .ok resp⟩]
  | .error _ => ks = [] ∨ ∃ e, ks = [⟨decideCall t items, .error e⟩]

theorem conforms_decide (hs : t.steps < P.opts.taskMaxSteps) :
    Conforms P (.runTask owner t items [] n) (Decided t items) [] (Engine.decide t items) := by
  refine .bind (.ask_free rfl fun r => ?_)
  split
  · exact .pure (.inl rfl)
  · exact .pure (.inl rfl)
  · refine .bind (.ask_key rfl (.decide hs) fun r => ?_)
    split <;> first | exact .pure rfl | exact .pure (.inr ⟨_, rfl⟩)

/-- A round of `runTask` leaves nothing unfinished and hands on as `Hands` says. -/
def Round (P : Params) (j : Job) (owner : Owner) (ks : Log) : Next → Prop
  | .stop => Quiet P ks
  | .again t items calls n => Quiet P ks ∧ Hands P j ks (.runTask owner t items calls n)

theorem conforms_runCall :
    Conforms P (.runTask owner t items (call :: calls) n)
      (Round P (.runTask owner t items (call :: calls) n) owner) []
      (runCall P owner t items call calls n) := by
  have hrun : Conforms P (.runTask owner t items (call :: calls) n) (fun ks _ => ks = []) []
      (runTool P t call) := by
    unfold runTool
    split
    · exact conforms_execute fun _ => rfl
    · exact .pure rfl
  refine .seq hrun ?_
  rintro ks r rfl
  split
  · exact .seq (conforms_pauseTask _) fun ks _ hq => .pure hq
  · refine .bind (.bind (.query_key rfl .saveCall fun r => .pure (.pure ⟨?_, .called⟩)))
    exact .of_plain rfl rfl fun _ => rfl

theorem conforms_runDecide (hs : t.steps < P.opts.taskMaxSteps) :
    Conforms P (.runTask owner t items [] n) (Round P (.runTask owner t items [] n) owner) []
      (runDecide P owner t items n) := by
  refine .seq (conforms_decide hs) fun ks r hr => ?_
  split
  · have hq : Quiet P ks := by
      rcases hr with rfl | ⟨e, rfl⟩ <;> exact .of_plain rfl rfl fun _ => rfl
    have hfin : ∀ t' result r, Quiet P (did (.setTaskState t' owner .failed result) r :: ks) := by
      rcases hr with rfl | ⟨e, rfl⟩ <;> intros
      · exact .of_plain rfl rfl fun _ => rfl
      · exact .of_plain rfl rfl nofun
    refine .bind (.ask_free rfl fun b => ?_)
    split
    · exact .pure hq
    · split
      · exact .bind (conforms_finish (fun _ => .fail hr) (fun _ _ _ => .pure (hfin _ _ _)) _)
      · split
        · exact .bind (conforms_finish (fun _ => .fail hr) (fun _ _ _ => .pure (hfin _ _ _)) _)
        · refine .bind (.ask_free rfl fun b => ?_)
          split
          · exact .pure hq
          · exact .pure ⟨hq, .retry hr⟩
  · rename_i resp
    cases hr
    dsimp only
    split
    · rename_i hc
      refine .bind (conforms_finish (fun _ => .succeed hs hc) (fun _ _ _ => .pure ?_) _)
      exact .of_plain rfl rfl fun _ => rfl
    · rename_i hc
      refine .bind
        (.bind (.query_key rfl (.saveStep hs hc) fun r => .pure (.pure ⟨?_, .decided hs hc⟩)))
      exact .of_plain rfl rfl fun _ => rfl

theorem conforms_runTask :
    Conforms P (.runTask owner t items calls n) (Round P (.runTask owner t items calls n) owner) []
      (Engine.runTask P owner t items calls n) := by
  have hfin : ∀ t' result r, Quiet P [did (.setTaskState t' owner .failed result) r] := by
    intros
    exact .of_plain rfl rfl fun _ => rfl
  refine .bind (.ask_free rfl fun b => ?_)
  split
  · exact .pure quiet_nil
  · refine .bind (.ask_free rfl fun now => ?_)
    split
    · exact .bind (conforms_finish (fun _ => .fail (.inl rfl)) (fun _ _ _ => .pure (hfin _ _ _)) _)
    · split
      · exact conforms_runCall
      · split
        · exact .bind (conforms_finish (fun _ => .fail (.inl rfl))
            (fun _ _ _ => .pure (hfin _ _ _)) _)
        · rename_i hs
          exact conforms_runDecide (not_le.mp hs)

/-- A worker that found no task has nothing left unfinished; one that found a task has just leased
it. -/
def Worked (P : Params) (owner : Owner) (ks : Log) : Work → Prop
  | .stop | .idle => Quiet P ks
  | .run t items calls => Quiet P ks ∧ ks = [did (.leaseTask owner taskLease) (.ok t)] ∧
      decodeState t = some (items, calls)

theorem conforms_taskWorker :
    Conforms P (.taskWorker owner) (Worked P owner) [] (Engine.taskWorker P owner) := by
  refine .bind (.ask_free rfl fun b => ?_)
  split
  · exact .pure quiet_nil
  · refine .bind (.query_key rfl .lease fun r => ?_)
    split
    · exact .pure (.of_plain rfl rfl fun _ => rfl)
    · split
      · rename_i hd
        refine .bind (conforms_finish (fun _ => .unreadable hd) (fun _ _ _ => .pure ?_) _)
        exact .of_plain rfl rfl fun _ => rfl
      · rename_i hd
        refine .pure ⟨?_, rfl, hd⟩
        exact .of_plain rfl rfl fun _ => rfl

end Worker

/-! ## Approvals -/

theorem conforms_dropApproval {Q : Log → Unit → Prop}
    (hd : Does P j ks (.db (.deleteApproval a.approvalID)))
    (hr : ∀ r out, Does P j (did (.deleteApproval a.approvalID) r :: ks)
      (.db (.resumeTask a.taskID (.dropped a why out))))
    (hQ : ∀ r out r', Q (did (.resumeTask a.taskID (.dropped a why out)) r' ::
      did (.deleteApproval a.approvalID) r :: ks) ()) :
    Conforms P j Q ks (dropApproval P a why reason) := by
  refine .bind (.query_key rfl hd fun r => .bind (.query_key rfl (hr _ _) fun r' => ?_))
  split
  · exact .pure (hQ _ _ _)
  · exact .bind (.of_free (free_audit ..) fun _ => .of_free (.onlyIf (free_finished _)) fun _ =>
      hQ _ _ _)

section Submit

variable {tenant : UUID} {user x approver signature : String} {a : DeviceApproval} {d : Device}

theorem conforms_execDevice (command : Command) :
    Conforms P (.submitApproval tenant user x approver signature)
      (fun ks r => ∃ l, Tried ⟨x, approver, signature⟩ d l r ∧
        ks = l ++ [did (.deviceByID a.deviceID) (.ok d), did (.approval tenant user x) (.ok a)])
      [did (.deviceByID a.deviceID) (.ok d), did (.approval tenant user x) (.ok a)]
      (execDevice d command (some ⟨x, approver, signature⟩)) := by
  refine .bind (.ask_key rfl .turnToDevice fun r => ?_)
  split
  · exact .pure ⟨_, .noClient, rfl⟩
  · exact .bind (.ask_key rfl .send fun m => .ask_key rfl .receive fun r => ⟨_, .answered, rfl⟩)

variable {ap : Approval} {r : Except Status DeviceResponse}

/-- Once it has let the task go on, an attempt has nothing left unfinished. -/
theorem Tried.quiet (h : Tried ap d l r) (hu : resumes a (.db (.resumeTask a.taskID u))) :
    Quiet P (did (.resumeTask a.taskID u) r₁ :: did (.deleteApproval z) r₂ ::
      (l ++ [did (.deviceByID a.deviceID) (.ok d), did (.approval tenant user x) (.ok a)])) := by
  cases h <;> refine ⟨fun _ _ ho => ?_, by simp [Saving], by simp [Dropping, hu]⟩ <;>
    obtain ⟨⟨y, hy, hopens⟩, -⟩ := ho <;>
    exact List.any_eq_false.mp rfl y hy hopens.mayOpen

/-- So has one that left the approval where it is. -/
theorem Tried.quiet' (h : Tried ap d l r) :
    Quiet P (l ++ [did (.deviceByID a.deviceID) (.ok d), did (.approval tenant user x) (.ok a)]) :=
    by
  cases h <;> exact .of_plain rfl rfl fun _ => rfl

theorem conforms_submitApproval :
    Conforms P (.submitApproval tenant user x approver signature) (fun ks _ => Quiet P ks) []
      (submitApproval P tenant user x approver signature) := by
  refine .bind (.query_key rfl .loadApproval fun r => ?_)
  split
  · exact .pure (.of_plain rfl rfl fun _ => rfl)
  · exact .pure (.of_plain rfl rfl fun _ => rfl)
  · refine .bind (.query_key rfl .loadDevice fun r => ?_)
    split
    · exact .pure (.of_plain rfl rfl fun _ => rfl)
    · split
      · exact .pure (.of_plain rfl rfl fun _ => rfl)
      · refine .seq (conforms_execDevice _) ?_
        rintro ks r ⟨l, ht, rfl⟩
        split
        · split
          · rename_i st hst
            have hs : spent (.error st) = true := by simpa [spent] using hst
            exact .bind (conforms_dropApproval (.deleteSpent ht hs) (fun _ _ => .resumeSpent ht hs)
              fun _ _ _ => .pure (ht.quiet ⟨rfl, rfl⟩))
          · exact .pure ht.quiet'
        · exact .bind (conforms_dropApproval (.deleteSpent ht rfl) (fun _ _ => .resumeSpent ht rfl)
            fun _ _ _ => .pure (ht.quiet ⟨rfl, rfl⟩))
        · refine .bind (.query_key rfl (.deleteUsed ht) fun r => ?_)
          refine .bind (.of_free (free_audit ..) fun _ => ?_)
          refine .bind (.query_key rfl (.resumeUsed ht) fun r => ?_)
          split
          · exact .pure (ht.quiet ⟨rfl, rfl⟩)
          · exact .bind (.of_free (.onlyIf (free_finished _)) fun _ => .pure (ht.quiet ⟨rfl, rfl⟩))

end Submit

/-! ## Maintenance -/

/-- The requests of a maintenance round. -/
def Instr.upkeep : Instr → Bool
  | .db .expireApprovals | .db .expireConfirmations | .db (.deleteApproval _)
  | .db (.resumeTask ..) => true
  | _ => false

/-- What a maintenance round has done: whatever it expired, it has told the task. -/
structure Upkeep (ks : Log) : Prop where
  kinds : ∀ x ∈ ks, x.1.upkeep = true
  dropped : ∀ as, did .expireApprovals (.ok as) ∈ ks → ∀ a ∈ as, ∃ x ∈ ks, resumes a x.1
  answered : ∀ cs, did .expireConfirmations (.ok cs) ∈ ks → ∀ c ∈ cs, ∀ T, c.taskID = some T →
    ∃ x ∈ ks, closes T c.callID x.1

/-- Of the requests of a maintenance round only one makes a thread owe an answer. -/
theorem opens_of_upkeep (hx : x.1.upkeep = true) (h : opens P T callID x) :
    ∃ cs, x = did .expireConfirmations (.ok cs) ∧
      ∃ c ∈ cs, c.taskID = some T ∧ c.callID = callID := by
  unfold opens at h
  split at h
  · cases hx
  · cases hx
  · exact ⟨_, rfl, h⟩
  · exact h.elim

theorem Upkeep.quiet (h : Upkeep ks) : Quiet P ks where
  answered := by
    rintro T callID ⟨⟨x, hx, ho⟩, hc⟩
    obtain ⟨cs, rfl, c, hmem, ht, rfl⟩ := opens_of_upkeep (h.kinds x hx) ho
    obtain ⟨y, hy, hy'⟩ := h.answered cs hx c hmem T ht
    exact hc y hy hy'
  saved := by
    rintro T callID (⟨t, rfl, -⟩ | ⟨t, owner, result, rfl, -⟩)
    · exact absurd (h.kinds _ (List.mem_singleton_self _)) (by simp [Instr.upkeep])
    · exact absurd (h.kinds _ (List.mem_singleton_self _)) (by simp [Instr.upkeep])
  dropped := by
    rintro a ⟨⟨tenant, user, x, y, r, ha, -⟩ | ⟨as, has, ha⟩, hr⟩
    · exact absurd (h.kinds _ ha) (by simp [Instr.upkeep])
    · obtain ⟨y, hy, hy'⟩ := h.dropped as has a ha
      exact hr y hy hy'

/-- A loop over what expired: everything it adds to `ks` are requests of one kind. -/
structure Told (p : Instr → Bool) (ks ks' : Log) : Prop where
  suffix : ∃ l, ks' = l ++ ks ∧ ∀ x ∈ l, p x.1 = true

namespace Told

variable {p : Instr → Bool}

theorem refl (ks : Log) : Told p ks ks := ⟨[], rfl, by simp⟩

variable {ks' : Log} {x : Exchange}

theorem cons (h : Told p (x :: ks) ks') (hx : p x.1 = true) :
    Told p ks ks' := by
  obtain ⟨l, rfl, hl⟩ := h.suffix
  refine ⟨l ++ [x], by simp, fun y hy => ?_⟩
  rcases List.mem_append.mp hy with hy | hy
  · exact hl y hy
  · rw [List.mem_singleton.mp hy]
    exact hx

theorem mem (h : Told p ks ks') (hx : x ∈ ks) : x ∈ ks' := by
  obtain ⟨l, rfl, -⟩ := h.suffix
  exact List.mem_append_right l hx

end Told

/-- The requests of `dropApproval`. -/
def Instr.drops : Instr → Bool
  | .db (.deleteApproval _) | .db (.resumeTask _ (.dropped ..)) => true
  | _ => false

/-- The request that answers a call. -/
def Instr.completes : Instr → Bool
  | .db (.resumeTask _ (.complete ..)) => true
  | _ => false

theorem Instr.drops_spec (h : i.drops = true) : i.upkeep = true ∧
    i ≠ .db .expireApprovals ∧ i ≠ .db .expireConfirmations ∧ ∀ T callID, ¬ closes T callID i := by
  unfold Instr.drops at h
  split at h
  · exact ⟨rfl, by simp, by simp, by simp [closes]⟩
  · exact ⟨rfl, by simp, by simp, by simp [closes]⟩
  · cases h

theorem Instr.completes_spec (h : i.completes = true) : i.upkeep = true ∧
    i ≠ .db .expireApprovals ∧ i ≠ .db .expireConfirmations := by
  unfold Instr.completes at h
  split at h
  · exact ⟨rfl, by simp, by simp⟩
  · cases h

theorem conforms_dropAll (as : List DeviceApproval) :
    ∀ ks pre, did .expireApprovals (.ok (pre ++ as)) ∈ ks →
      (∀ x ∈ ks, ∀ b, resumes b x.1 → b ∈ pre) →
      Conforms P (.maintenance last)
        (fun ks' _ => Told Instr.drops ks ks' ∧ ∀ a ∈ as, ∃ x ∈ ks', resumes a x.1) ks
        (dropAll P as) := by
  induction as with
  | nil => exact fun ks _ _ _ => .pure ⟨.refl ks, by simp⟩
  | cons a as ih =>
    intro ks pre hks hpre
    have hdel : ∀ r, ∀ x ∈ did (.deleteApproval a.approvalID) r :: ks, ∀ b, resumes b x.1 →
        b ∈ pre := by
      intro r x hx b hb
      rcases List.mem_cons.mp hx with rfl | hx
      · exact hb.elim
      · exact hpre x hx b hb
    refine .bind (conforms_dropApproval (.deleteExpired hks (by simp))
      (fun r _ => .dropExpired (List.mem_cons_of_mem _ hks) (hdel r)) fun r out r' => ?_)
    refine (ih _ (pre ++ [a]) (by simp [hks]) fun x hx b hb => ?_).mono
      fun ks' _ h => ⟨?_, fun b hb => ?_⟩
    · rcases List.mem_cons.mp hx with rfl | hx
      · simp [hb.2]
      · exact List.mem_append_left _ (hdel _ x hx b hb)
    · exact (h.1.cons rfl).cons rfl
    · rcases List.mem_cons.mp hb with rfl | hb
      · exact ⟨_, h.1.mem (List.mem_cons_self ..), rfl, rfl⟩
      · exact h.2 b hb

theorem conforms_resumeExpired (cs : List Confirmation) :
    ∀ ks, did .expireConfirmations (.ok cs₀) ∈ ks → cs ⊆ cs₀ →
      Conforms P (.maintenance last)
        (fun ks' _ => Told Instr.completes ks ks' ∧ ∀ c ∈ cs, ∀ T, c.taskID = some T →
          ∃ x ∈ ks', closes T c.callID x.1) ks (resumeExpired P cs) := by
  induction cs with
  | nil => exact fun ks _ _ => .pure ⟨.refl ks, by simp⟩
  | cons c cs ih =>
    intro ks hks hcs
    have hsub : cs ⊆ cs₀ := fun b hb => hcs (List.mem_cons_of_mem _ hb)
    unfold resumeExpired
    split
    · rename_i hn
      refine (ih ks hks hsub).mono fun ks' _ h => ⟨h.1, fun b hb T hT => ?_⟩
      rcases List.mem_cons.mp hb with rfl | hb
      · rw [hn] at hT
        cases hT
      · exact h.2 b hb T hT
    · rename_i t ht
      refine .bind (.query_key rfl
        (.resumeExpired hks (hcs (List.mem_cons_self ..)) ht) fun r => ?_)
      refine (ih _ (List.mem_cons_of_mem _ hks) hsub).mono fun ks' _ h => ⟨?_, fun b hb T hT => ?_⟩
      · exact h.1.cons rfl
      · rcases List.mem_cons.mp hb with rfl | hb
        · rw [ht] at hT
          exact ⟨_, h.1.mem (List.mem_cons_self ..), Option.some.inj hT, rfl⟩
        · exact h.2 b hb T hT

/-- What a maintenance round has done before it comes to confirmations. -/
structure Dropped (ks : Log) : Prop extends Upkeep ks where
  open_ : ∀ x ∈ ks, ∀ T callID, ¬ closes T callID x.1
  none : ∀ cs, did .expireConfirmations (.ok cs) ∉ ks

theorem conforms_expireApprovals :
    Conforms P (.maintenance last) (fun ks _ => Dropped ks) [] (Engine.expireApprovals P) := by
  refine .bind (.query_key rfl .expireApprovals fun r => ?_)
  split
  · exact .pure ⟨⟨by simp [Instr.upkeep], by simp, by simp⟩, by simp [closes], by simp⟩
  · rename_i as
    refine (conforms_dropAll as _ [] (List.mem_singleton_self _) (by simp [resumes])).mono ?_
    rintro ks' - ⟨⟨l, rfl, hl⟩, has⟩
    have hno : ∀ cs, did .expireConfirmations (.ok cs) ∉
        l ++ [did .expireApprovals (.ok as)] := by
      intro cs hcs
      rcases List.mem_append.mp hcs with h | h
      · exact (Instr.drops_spec (hl _ h)).2.2.1 rfl
      · simp at h
    refine ⟨⟨fun x hx => ?_, fun as' has' a ha => ?_, fun cs hcs => absurd hcs (hno cs)⟩,
      fun x hx => ?_, hno⟩
    · rcases List.mem_append.mp hx with h | h
      · exact (Instr.drops_spec (hl _ h)).1
      · rw [List.mem_singleton.mp h]
        rfl
    · rcases List.mem_append.mp has' with h | h
      · exact absurd rfl (Instr.drops_spec (hl _ h)).2.1
      · simp at h
        exact has a (h ▸ ha)
    · rcases List.mem_append.mp hx with h | h
      · exact (Instr.drops_spec (hl _ h)).2.2.2
      · rw [List.mem_singleton.mp h]
        simp [closes]

theorem conforms_expireConfirmations (hu : Dropped ks) :
    Conforms P (.maintenance last) (fun ks _ => Upkeep ks) ks (Engine.expireConfirmations P) := by
  refine .bind (.query_key rfl (.expireConfirmations hu.open_) fun r => ?_)
  split
  · refine .pure ⟨?_, ?_, ?_⟩
    · simpa [Instr.upkeep] using hu.kinds
    · intro as has a ha
      obtain ⟨x, hx, hx'⟩ := hu.dropped as (by simpa using has) a ha
      exact ⟨x, List.mem_cons_of_mem _ hx, hx'⟩
    · intro cs hcs
      exact absurd hcs (by simp [hu.none])
  · rename_i cs
    refine (conforms_resumeExpired cs _ (List.mem_cons_self ..) (List.Subset.refl _)).mono ?_
    rintro ks' - ⟨⟨l, rfl, hl⟩, hcs⟩
    refine ⟨fun x hx => ?_, fun as has a ha => ?_, fun cs' hcs' c hc T hT => ?_⟩
    · simp only [List.mem_append, List.mem_cons] at hx
      rcases hx with h | rfl | h
      · exact (Instr.completes_spec (hl _ h)).1
      · rfl
      · exact hu.kinds x h
    · simp only [List.mem_append, List.mem_cons] at has
      rcases has with h | h | h
      · exact absurd rfl (Instr.completes_spec (hl _ h)).2.1
      · simp at h
      · obtain ⟨x, hx, hx'⟩ := hu.dropped as h a ha
        exact ⟨x, List.mem_append_right _ (List.mem_cons_of_mem _ hx), hx'⟩
    · simp only [List.mem_append, List.mem_cons] at hcs'
      rcases hcs' with h | h | h
      · exact absurd rfl (Instr.completes_spec (hl _ h)).2.2
      · simp at h
        exact hcs c (h ▸ hc) T hT
      · exact absurd h (hu.none cs')

theorem conforms_queueAll (ids : List UUID) :
    Conforms P (.maintenance last) (fun ks' _ => ks' = ks) ks (queueAll ids) := by
  induction ids with
  | nil => exact .pure rfl
  | cons id ids ih => exact .bind (.ask_not_key rfl .queueAbandoned fun _ => ih)

theorem conforms_closeAbandoned :
    Conforms P (.maintenance last) (fun ks' _ => ks' = ks) ks closeAbandoned := by
  refine .bind (.ask_not_key rfl .closeAbandoned fun r => ?_)
  split
  · exact .pure rfl
  · exact conforms_queueAll _

theorem conforms_maintenance :
    Conforms P (.maintenance last) (fun ks _ => Quiet P ks) [] (Engine.maintenance P last) := by
  refine .bind (.ask_free rfl fun b => ?_)
  split
  · exact .pure quiet_nil
  · refine .seq conforms_closeAbandoned fun ks _ hks => ?_
    subst hks
    refine .seq conforms_expireApprovals fun ks _ hk => ?_
    refine .seq (conforms_expireConfirmations hk) fun ks _ hu => ?_
    have hq : Quiet P ks := hu.quiet
    refine .bind (.ask_free rfl fun now => ?_)
    split
    · exact .bind (.of_free (.query rfl) fun _ => .bind (.of_free (.query rfl) fun _ =>
        .bind (.ask_free rfl fun _ => .pure hq)))
    · exact .pure hq

/-! ## Closing, and devices -/

theorem conforms_closeSession (id : UUID) :
    Conforms P (.closeConversation id) (fun ks _ => ks = []) [] (closeSession id) := by
  refine .bind (.ask_not_key rfl .close fun r => ?_)
  split
  · exact .pure rfl
  · refine .bind (.of_free (.query rfl) fun r => ?_)
    split
    · exact .pure rfl
    · split
      · refine .bind (.ask_not_key rfl .queueClosed fun r => ?_)
        split <;> exact .pure rfl
      · exact .pure rfl

theorem conforms_registerDevice (tenant : UUID) (user name address serverName : String)
    (creds : DeviceCredentials) :
    Conforms P (.registerDevice tenant user name address serverName creds) (fun ks _ => ks = []) []
      (registerDevice P tenant user name address serverName creds) := by
  unfold registerDevice
  split_ifs with hpair
  · refine .bind (.ask_free rfl fun new => .bind (.of_free (.query rfl) fun r => ?_))
    split
    · exact .pure rfl
    · refine .bind (.ask_free rfl fun r => ?_)
      split
      · exact .pure rfl
      · exact .ask_not_key rfl (.upsertDevice hpair) fun _ => rfl
  · exact .pure rfl

/-! ## All programs -/

/-- A job that hands on to nothing. -/
theorem ends_nil (h : Quiet P ks) : Ends P j ks [] :=
  ⟨h, by simp, .inl rfl⟩

/-- A job that makes only free requests and goes on with itself, if at all. -/
theorem conforms_goOn (hp : Free p) (hw : workerOf j = none) (hj : Hands P j [] j) :
    Conforms P j (Ends P j) [] (p >>= fun b => pure (goOn b j)) := by
  refine .bind (.of_free hp fun b => .pure ⟨quiet_nil, fun j' hj' => ?_, .inl ?_⟩)
  · unfold goOn at hj'
    split at hj'
    · rw [List.mem_singleton.mp hj']
      exact hj
    · simp at hj'
  · unfold goOn
    split <;> simp [hw]

/-- **Every program follows the protocol.** -/
theorem conforms_body (j : Job) : Conforms P j (Ends P j) [] (body P j) := by
  have free : ∀ {α : Type} {j : Job} {p : Op α}, Free p →
      Conforms P j (Ends P j) [] (p >>= fun _ => pure []) :=
    fun hp => .bind (.of_free hp fun _ => .pure (ends_nil quiet_nil))
  have quiet : ∀ {α : Type} {j : Job} {p : Op α}, Conforms P j (fun ks _ => Quiet P ks) [] p →
      Conforms P j (Ends P j) [] (p >>= fun _ => pure []) :=
    fun hp => .seq hp fun _ _ hq => .pure (ends_nil hq)
  cases j with
  | openConversation tenant user sessionID provider locale => exact free (free_openSession ..)
  | recordTurn id role itemID turn text => exact free (free_recordTurn ..)
  | callTool id callID name args turn => exact quiet (conforms_callTool _)
  | ackToolOutput id callID turn => exact quiet conforms_ackToolOutput
  | ackEvent id eventID turn => exact quiet conforms_ack
  | closeConversation id =>
    exact quiet ((conforms_closeSession id).mono fun ks _ hks => hks ▸ quiet_nil)
  | cancelTask tenant user id => exact free (free_cancel ..)
  | registerDevice tenant user name address serverName creds =>
    have h := conforms_registerDevice (P := P) tenant user name address serverName creds
    exact quiet (Conforms.mono h fun ks _ hks => hks ▸ quiet_nil)
  | removeDevice tenant user id => exact free (.query rfl)
  | submitApproval tenant user approvalID approverID signature =>
    exact quiet conforms_submitApproval
  | claimNotifications consumer limit deadline =>
    exact conforms_goOn (free_claimNotifications ..) rfl .claim
  | completeNotifications ids => exact free (.query rfl)
  | taskWorker owner =>
    refine .seq conforms_taskWorker fun ks w hw => ?_
    split
    · exact .pure (ends_nil hw)
    · exact .pure ⟨hw, by simp [Hands.worker], by simp [workerOf]⟩
    · obtain ⟨hq, rfl, hd⟩ := hw
      refine .pure ⟨hq, fun j' hj' => ?_, by simp [workerOf]⟩
      rcases List.mem_pair.mp hj' with rfl | rfl
      · exact .run hd
      · exact .renew
  | runTask owner t items calls transient =>
    refine .seq conforms_runTask fun ks w hw => ?_
    split
    · exact .pure ⟨hw, by simp [Hands.back], by simp [workerOf]⟩
    · exact .pure ⟨hw.1, by simpa using hw.2, by simp [workerOf]⟩
  | renewLease id owner => exact conforms_goOn (free_renewLease ..) rfl .renewAgain
  | maintenance lastPurge =>
    refine .seq conforms_maintenance fun ks r hq => ?_
    split
    · exact .pure (ends_nil hq)
    · exact .pure ⟨hq, by simp [Hands.maintenance], by simp [workerOf]⟩
  | memoryWorker => exact conforms_goOn free_memoryWorker rfl .memory

/-- `conforms_body` in the words of the machine. -/
theorem body_spec (j : Job) : (body P j).Spec (fun past i => Does P j (keys past) i)
    (fun past js => Ends P j (keys past) js) [] :=
  conforms_body j [] rfl

end Jarvis.Orchestrator
