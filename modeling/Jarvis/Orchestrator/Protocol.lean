import Jarvis.Orchestrator.System

/-!
# What each job does

The statements and calls invariants depend on (`Instr.key`), in the order each job makes them.
`Does P j ks i` says that a job `j` that has made the key requests `ks` so far (newest first, with
their answers) may make the request `i`; `Ends P j ks js` how it ends. `body_spec` proves both of
every program, once; from there on invariants look only at `Does` and `Ends`.
-/

namespace Jarvis.Orchestrator

open Interleave Engine

/-- The statements that matter to invariants together with what was done before. -/
def Query.key : Query → Bool
  | .createTask _ | .leaseTask .. | .saveProgress .. | .setTaskState .. | .resumeTask ..
  | .createConfirmation _ | .settle .. | .markAsked .. | .expireConfirmations
  | .addEvent _ _ (some _) | .ackEvent .. | .deviceByID _ | .approval .. | .expireApprovals
  | .deleteApproval _ | .saveApproval _ => true
  | _ => false

/-- The requests that matter to invariants together with what was done before. -/
def Instr.key : Instr → Bool
  | .db q => q.key
  | .mcpCall (.confirmed _) .. | .decide .. | .deviceClient _ (some _) | .deviceSend _ _ (some _)
  | .deviceRecv _ (some _) => true
  | _ => false

/-- The requests any job may make at any time. -/
def Instr.free : Instr → Bool
  | .mcpCall .. | .db (.markCallAsked ..) | .db (.closeConversation _) | .db .closeAbandoned
  | .db (.queueMemoryJob _) | .db (.upsertDevice _) => false
  | .db (.claimNotifications _ _ duration maxAttempts maxAge) =>
    duration = minute && maxAttempts = 5 && maxAge = hour
  | i => !i.key

/-- An exchange: a request with its answer. -/
abbrev Exchange := Σ i, Answer i

/-- A statement with its answer. -/
abbrev did (q : Query) (r : Res q.Result) : Exchange := ⟨.db q, r⟩

/-- The key requests of a thread. -/
def keys (past : Log) : Log := past.filter fun x => x.1.key

variable {i : Instr} {x y : Exchange} {past : Log}

theorem keys_cons_key (h : i.key = true) (r : Answer i) (past : Log) :
    keys (⟨i, r⟩ :: past) = ⟨i, r⟩ :: keys past := by simp [keys, h]

theorem keys_cons_of_not (h : i.key = false) (r : Answer i) (past : Log) :
    keys (⟨i, r⟩ :: past) = keys past := by simp [keys, h]

theorem mem_keys_cons (h : x ∈ keys (y :: past)) :
    x = y ∨ x ∈ keys past := by
  obtain ⟨hx, hkey⟩ := List.mem_filter.mp h
  rcases List.mem_cons.mp hx with rfl | hx
  · exact .inl rfl
  · exact .inr (List.mem_filter.mpr ⟨hx, hkey⟩)

theorem keys_subset_cons : keys past ⊆ keys (y :: past) :=
  fun _ hx => List.mem_filter.mpr ⟨List.mem_cons_of_mem _ (List.mem_filter.mp hx).1,
    (List.mem_filter.mp hx).2⟩

/-- The task a worker writes when a task ends. -/
def ended (t : Task) (items : List Item) (calls : List ToolCall) (state : TaskState)
    (result : String) : Task :=
  { withState t items calls with state, result }

/-- The task after one more model step. -/
def stepped (t : Task) : Task := { t with steps := t.steps + 1 }

/-- The call of a round that asks the model. -/
abbrev decideCall (t : Task) (items : List Item) : Instr := .decide t.id t.provider items t.tools

/-- What an attempt with an approval exchanges with the device, and how it ends.
Source: `execute.go` `execDevice` -/
inductive Tried (ap : Approval) (d : Device) : Log → Except Status DeviceResponse → Prop
  | noClient : Tried ap d [⟨.deviceClient d (some ap), .error st⟩] (.error st)
  | answered :
      Tried ap d [⟨.deviceRecv m (some ap), r⟩, ⟨.deviceSend d command (some ap), m⟩,
        ⟨.deviceClient d (some ap), .ok ()⟩] r

/-- The answers after which `SubmitApproval` takes an approval for spent. -/
def spent : Except Status DeviceResponse → Bool
  | .error st => st.code = .permissionDenied || st.code = .failedPrecondition
  | .ok (.approvalRequired _) => true
  | .ok (.result _) => false

/-- With this request a thread gives a task the answer to a call, or puts the question. -/
def closes (T : UUID) (callID : String) : Instr → Prop
  | .db (.resumeTask id (.complete callID' _)) => id = T ∧ callID' = callID
  | .db (.createConfirmation c) => c.taskID = some T ∧ c.callID = callID
  | _ => False

/-- With this request a thread ends the wait for an approval. -/
def resumes (a : DeviceApproval) : Instr → Prop
  | .db (.resumeTask id (.approved b _)) => id = a.taskID ∧ b = a
  | .db (.resumeTask id (.dropped b _ _)) => id = a.taskID ∧ b = a
  | _ => False

/-- **What each job may do**, given the key requests it has made. -/
inductive Does (P : Params) : Job → Log → Instr → Prop
  | free {j : Job} {ks : Log} {i : Instr} (h : i.free = true) : Does P j ks i
  /-- A tool runs at once only if it is read-only. -/
  | readOnly {j : Job} {ks : Log} {target : Target} (h : target.readOnly = true) :
      Does P j ks (.mcpCall (.tool target) tenant user target.integrationID target.tool args)
  -- Voice calls.
  | settle {k : UUID} {turn : ℤ} {id : UUID} :
      Does P (.callTool k callID name args turn) [] (.db (.settle k id turn confirm))
  | runAction {k : UUID} {turn : ℤ} {id : UUID} {conf : Confirmation} {a : Action}
      (ha : decodeAction P conf.action = some a) :
      Does P (.callTool k callID name args turn) [did (.settle k id turn true) (.ok conf)]
        (.mcpCall (.confirmed conf) tenant user a.integrationID a.tool (callArguments a.arguments))
  | resumeSettled {k : UUID} {turn : ℤ} {id : UUID} {conf : Confirmation}
      (hl : l = [] ∨ ∃ tenant user a b c r, l = [⟨.mcpCall (.confirmed conf) tenant user a b c, r⟩])
      (ht : conf.taskID = some T) :
      Does P (.callTool k callID name args turn)
        (l ++ [did (.settle k id turn confirm) (.ok conf)])
        (.db (.resumeTask T (.complete conf.callID out)))
  | startTask {k : UUID} {turn : ℤ} {t : Task} (hk : t.kind = .agent) (hs : t.state = .queued)
      (h : Stores t [.userText intro] []) :
      Does P (.callTool k callID name args turn) [] (.db (.createTask t))
  | askConfirmation {k : UUID} {turn : ℤ} {c : Confirmation} (hc : c.conversationID = k)
      (ht : c.taskID = none) (hi : c.callID = callID) (ha : c.action = encodeAction P a)
      (hn : c.askedTurn = none) :
      Does P (.callTool k callID name args turn) [] (.db (.createConfirmation c))
  | awaitApproval {k : UUID} {turn : ℤ} {t : Task} (hk : t.kind = .command)
      (hs : t.state = .awaitingApproval) (hp : decodeCalls t.pending = none) :
      Does P (.callTool k callID name args turn) [] (.db (.createTask t))
  | saveVoiceApproval {k : UUID} {turn : ℤ} {t : Task} {a : DeviceApproval}
      (hk : t.kind = .command) (ht : a.taskID = t.id) (hi : a.callID = "") :
      Does P (.callTool k callID name args turn) [did (.createTask t) (.ok ())]
        (.db (.saveApproval a))
  -- Closing, and devices.
  | close {k : UUID} {ks : Log} : Does P (.closeConversation k) ks (.db (.closeConversation k))
  | queueClosed {k : UUID} {ks : Log} : Does P (.closeConversation k) ks (.db (.queueMemoryJob k))
  | closeAbandoned {ks : Log} : Does P (.maintenance last) ks (.db .closeAbandoned)
  | queueAbandoned {ks : Log} {k : UUID} : Does P (.maintenance last) ks (.db (.queueMemoryJob k))
  | upsertDevice {creds : DeviceCredentials} {ks : Log} {id : UUID}
      (h : P.keyPair creds.clientCertPEM creds.clientKeyPEM = true) :
      Does P (.registerDevice tenant user name address serverName creds) ks
        (.db (.upsertDevice (newDevice id tenant user name address serverName creds)))
  -- Acknowledgements.
  | ackCall {k : UUID} {turn : ℤ} {ks : Log} :
      Does P (.ackToolOutput k callID turn) ks (.db (.markCallAsked k callID turn))
  | ackEvent {k : UUID} {turn : ℤ} : Does P (.ackEvent k e turn) [] (.db (.ackEvent k e turn))
  | markAsked {k : UUID} {turn : ℤ} :
      Does P (.ackEvent k e turn) [did (.ackEvent k e turn) (.ok (some c))]
        (.db (.markAsked c turn))
  -- Workers.
  | lease {owner : Owner} : Does P (.taskWorker owner) [] (.db (.leaseTask owner taskLease))
  | unreadable {owner : Owner} (h : decodeState t = none) :
      Does P (.taskWorker owner) [did (.leaseTask owner taskLease) (.ok t)]
        (.db (.setTaskState (ended t [] [] .failed result) owner .failed result))
  | decide {owner : Owner} {t : Task} (hs : t.steps < P.opts.taskMaxSteps) :
      Does P (.runTask owner t items [] n) [] (decideCall t items)
  | saveCall {owner : Owner} {call : ToolCall} :
      Does P (.runTask owner t items (call :: calls) n) []
        (.db (.saveProgress (withState t (items ++ [toolResult call.callID out]) calls) owner))
  | saveStep {owner : Owner} {t : Task} {resp : DecideResponse}
      (hs : t.steps < P.opts.taskMaxSteps) (hc : resp.toolCalls ≠ []) :
      Does P (.runTask owner t items [] n) [⟨decideCall t items, .ok resp⟩]
        (.db (.saveProgress (withState (stepped t) (items ++ [.modelStep resp.step]) resp.toolCalls)
        owner))
  | fail {owner : Owner} {ks : Log} (hk : ks = [] ∨ ∃ e, ks = [⟨decideCall t items, .error e⟩]) :
      Does P (.runTask owner t items calls n) ks
        (.db (.setTaskState (ended t items calls .failed result) owner .failed result))
  | succeed {owner : Owner} {t : Task} {resp : DecideResponse} (hs : t.steps < P.opts.taskMaxSteps)
      (hc : resp.toolCalls = []) :
      Does P (.runTask owner t items [] n) [⟨decideCall t items, .ok resp⟩]
        (.db
          (.setTaskState (ended (stepped t) (items ++ [.modelStep resp.step]) [] .succeeded result)
        owner .succeeded result))
  | pause {owner : Owner} (hs : s = .awaitingConfirmation ∨ s = .awaitingApproval) :
      Does P (.runTask owner t items (call :: calls) n) []
        (.db (.setTaskState (withState t items (call :: calls)) owner s ""))
  | createConfirmation {owner : Owner} {t : Task} {call : ToolCall} {c : Confirmation}
      (hc : t.conversationID = some c.conversationID) (ht : c.taskID = some t.id)
      (hi : c.callID = call.callID) (ha : c.action = encodeAction P a) (hn : c.askedTurn = none) :
      Does P (.runTask owner t items (call :: calls) n)
        [did (.setTaskState (withState t items (call :: calls)) owner .awaitingConfirmation "")
        (.ok true)]
        (.db (.createConfirmation c))
  | resumeUnasked {owner : Owner} {t : Task} {call : ToolCall} (hc : t.conversationID = none) :
      Does P (.runTask owner t items (call :: calls) n)
        [did (.setTaskState (withState t items (call :: calls)) owner .awaitingConfirmation "")
        (.ok true)]
        (.db (.resumeTask t.id (.complete call.callID out)))
  | tell {owner : Owner} {t : Task} {c : Confirmation} (ht : c.taskID = some t.id) :
      Does P (.runTask owner t items (call :: calls) n)
        [did (.createConfirmation c) (.ok ()), did (.setTaskState
        (withState t items (call :: calls)) owner .awaitingConfirmation "") (.ok true)]
        (.db (.addEvent c.conversationID payload (some c.id)))
  | saveTaskApproval {owner : Owner} {t : Task} {call : ToolCall} {a : DeviceApproval}
      (ht : a.taskID = t.id) (hi : a.callID = call.callID) :
      Does P (.runTask owner t items (call :: calls) n)
        [did (.setTaskState (withState t items (call :: calls)) owner .awaitingApproval "")
        (.ok true)]
        (.db (.saveApproval a))
  -- Approvals.
  | loadApproval {x : String} :
      Does P (.submitApproval tenant user x approver signature) [] (.db (.approval tenant user x))
  | loadDevice {x : String} {a : DeviceApproval} :
      Does P (.submitApproval tenant user x approver signature)
        [did (.approval tenant user x) (.ok a)] (.db (.deviceByID a.deviceID))
  | turnToDevice {x : String} {a : DeviceApproval} :
      Does P (.submitApproval tenant user x approver signature)
        [did (.deviceByID a.deviceID) (.ok d), did (.approval tenant user x) (.ok a)]
        (.deviceClient d (some ⟨x, approver, signature⟩))
  | send {x : String} {a : DeviceApproval} :
      Does P (.submitApproval tenant user x approver signature)
        [⟨.deviceClient d (some ⟨x, approver, signature⟩), .ok ()⟩,
        did (.deviceByID a.deviceID) (.ok d), did (.approval tenant user x) (.ok a)]
        (.deviceSend d command (some ⟨x, approver, signature⟩))
  | receive {x : String} {a : DeviceApproval} :
      Does P (.submitApproval tenant user x approver signature)
        [⟨.deviceSend d command (some ⟨x, approver, signature⟩), m⟩,
        ⟨.deviceClient d (some ⟨x, approver, signature⟩), .ok ()⟩,
        did (.deviceByID a.deviceID) (.ok d), did (.approval tenant user x) (.ok a)]
        (.deviceRecv m (some ⟨x, approver, signature⟩))
  | deleteSpent {x : String} {a : DeviceApproval} (ht : Tried ⟨x, approver, signature⟩ d l r)
      (hr : spent r = true) :
      Does P (.submitApproval tenant user x approver signature)
        (l ++ [did (.deviceByID a.deviceID) (.ok d), did (.approval tenant user x) (.ok a)])
        (.db (.deleteApproval a.approvalID))
  | resumeSpent {x : String} {a : DeviceApproval} {r' : Res Unit}
      (ht : Tried ⟨x, approver, signature⟩ d l r) (hr : spent r = true) :
      Does P (.submitApproval tenant user x approver signature)
        (did (.deleteApproval a.approvalID) r' ::
        (l ++ [did (.deviceByID a.deviceID) (.ok d), did (.approval tenant user x) (.ok a)]))
        (.db (.resumeTask a.taskID (.dropped a why out)))
  | deleteUsed {x : String} {a : DeviceApproval}
      (ht : Tried ⟨x, approver, signature⟩ d l (.ok (.result r))) :
      Does P (.submitApproval tenant user x approver signature)
        (l ++ [did (.deviceByID a.deviceID) (.ok d), did (.approval tenant user x) (.ok a)])
        (.db (.deleteApproval x))
  | resumeUsed {x : String} {a : DeviceApproval} {r' : Res Unit}
      (ht : Tried ⟨x, approver, signature⟩ d l (.ok (.result r))) :
      Does P (.submitApproval tenant user x approver signature)
        (did (.deleteApproval x) r' ::
        (l ++ [did (.deviceByID a.deviceID) (.ok d), did (.approval tenant user x) (.ok a)]))
        (.db (.resumeTask a.taskID (.approved a out)))
  -- Maintenance.
  | expireApprovals : Does P (.maintenance last) [] (.db .expireApprovals)
  | deleteExpired {ks : Log} {a : DeviceApproval} (h : did .expireApprovals (.ok as) ∈ ks)
      (ha : a ∈ as) : Does P (.maintenance last) ks (.db (.deleteApproval a.approvalID))
  | dropExpired {ks : Log} {a : DeviceApproval}
      (h : did .expireApprovals (.ok (pre ++ a :: post)) ∈ ks)
      (hn : ∀ x ∈ ks, ∀ b, resumes b x.1 → b ∈ pre) :
      Does P (.maintenance last) ks (.db (.resumeTask a.taskID (.dropped a why out)))
  | expireConfirmations {ks : Log} (h : ∀ x ∈ ks, ∀ T callID, ¬ closes T callID x.1) :
      Does P (.maintenance last) ks (.db .expireConfirmations)
  | resumeExpired {ks : Log} {c : Confirmation} (h : did .expireConfirmations (.ok cs) ∈ ks)
      (hc : c ∈ cs) (ht : c.taskID = some T) :
      Does P (.maintenance last) ks (.db (.resumeTask T (.complete c.callID out)))

/-! ## Unfinished business -/

/-- The call a stored task waits on. -/
def headCall (t : Task) : Option String :=
  (decodeCalls t.pending).bind fun calls => calls.head?.map ToolCall.callID

theorem headCall_withState :
    headCall (withState t items (call :: calls)) = some call.callID := by
  simp [headCall, withState]

/-- From this exchange on a thread owes a task the answer to a call, or the question. -/
def opens (P : Params) (T : UUID) (callID : String) : Exchange → Prop
  | ⟨.db (.setTaskState t _ .awaitingConfirmation _), .ok true⟩ =>
    t.id = T ∧ headCall t = some callID
  | ⟨.db (.settle ..), .ok conf⟩ =>
    conf.taskID = some T ∧ conf.callID = callID ∧ (decodeAction P conf.action).isSome
  | ⟨.db .expireConfirmations, .ok cs⟩ => ∃ c ∈ cs, c.taskID = some T ∧ c.callID = callID
  | _ => False

/-- The thread owes a task the answer to a call, or the question. -/
def Owes (P : Params) (T : UUID) (callID : String) (ks : Log) : Prop :=
  (∃ x ∈ ks, opens P T callID x) ∧ ∀ x ∈ ks, ¬ closes T callID x.1

/-- The thread has made a task wait for an approval it has not stored. -/
def Saving (T : UUID) (callID : String) (ks : Log) : Prop :=
  (∃ t, ks = [did (.createTask t) (.ok ())] ∧ t.id = T ∧ t.kind = .command ∧ callID = "") ∨
  ∃ t owner result, ks = [did (.setTaskState t owner .awaitingApproval result) (.ok true)] ∧
    t.id = T ∧ headCall t = some callID

/-- The thread has taken an approval away from its task, which still waits for it. -/
def Dropping (a : DeviceApproval) (ks : Log) : Prop :=
  ((∃ tenant user x y r, did (.approval tenant user x) (.ok a) ∈ ks ∧
      did (.deleteApproval y) r ∈ ks) ∨
    ∃ as, did .expireApprovals (.ok as) ∈ ks ∧ a ∈ as) ∧
  ∀ x ∈ ks, ¬ resumes a x.1

/-- The thread has nothing left unfinished. -/
structure Quiet (P : Params) (ks : Log) : Prop where
  answered : ∀ T callID, ¬ Owes P T callID ks
  saved : ∀ T callID, ¬ Saving T callID ks
  dropped : ∀ a, ¬ Dropping a ks

/-- With this exchange a thread may come to owe an answer. -/
def mayOpen : Exchange → Bool
  | ⟨.db (.setTaskState _ _ .awaitingConfirmation _), .ok true⟩ => true
  | ⟨.db (.settle ..), .ok _⟩ | ⟨.db .expireConfirmations, .ok _⟩ => true
  | _ => false

/-- With this exchange it may have made a task wait for an approval. -/
def mayWait : Exchange → Bool
  | ⟨.db (.setTaskState _ _ .awaitingApproval _), .ok true⟩ => true
  | ⟨.db (.createTask t), .ok _⟩ => t.kind == .command
  | _ => false

/-- With this exchange it may have taken an approval away. -/
def mayDrop : Exchange → Bool
  | ⟨.db (.deleteApproval _), _⟩ | ⟨.db .expireApprovals, .ok _⟩ => true
  | _ => false

theorem opens.mayOpen (h : opens P T callID x) :
    mayOpen x = true := by
  unfold opens at h
  split at h
  · rfl
  · rfl
  · rfl
  · exact h.elim

variable {ks : Log}

namespace Quiet

/-- A thread that has answered all it opened and took nothing away has nothing left unfinished,
unless making a task wait is all it did. -/
theorem of_closed (hd : ks.any mayDrop = false) (hw : ks.length = 1 → ks.any mayWait = false)
    (ho : ∀ x ∈ ks, ∀ T callID, opens P T callID x → ∃ y ∈ ks, closes T callID y.1) :
    Quiet P ks := by
  refine ⟨fun T callID h => ?_, fun T callID h => ?_, fun a h => ?_⟩
  · obtain ⟨⟨x, hx, hopens⟩, hnone⟩ := h
    obtain ⟨y, hy, hcloses⟩ := ho x hx T callID hopens
    exact hnone y hy hcloses
  · obtain ⟨t, rfl, -, hk, -⟩ | ⟨t, owner, result, rfl, -⟩ := h
    · have hkind : ((t.kind == .command) || false) = false := hw rfl
      rw [hk] at hkind
      cases hkind
    · exact Bool.noConfusion (hw rfl)
  · rw [List.any_eq_false] at hd
    obtain ⟨⟨_, _, _, y, r, -, hy⟩ | ⟨as, has, -⟩, -⟩ := h
    · exact hd _ hy rfl
    · exact hd _ has rfl

theorem of_plain (ho : ks.any mayOpen = false) (hd : ks.any mayDrop = false)
    (hw : ks.length = 1 → ks.any mayWait = false) : Quiet P ks :=
  of_closed hd hw fun x hx _ _ h => absurd h.mayOpen (List.any_eq_false.mp ho x hx)

end Quiet

/-! ## How jobs end -/

/-- The worker a job belongs to. -/
def workerOf : Job → Option Owner
  | .taskWorker owner | .runTask owner .. => some owner
  | _ => none

/-- The jobs a job may hand on to. -/
inductive Hands (P : Params) : Job → Log → Job → Prop
  | worker {owner : Owner} {ks : Log} : Hands P (.taskWorker owner) ks (.taskWorker owner)
  | run {owner : Owner} (h : decodeState t = some (items, calls)) :
      Hands P (.taskWorker owner) [did (.leaseTask owner taskLease) (.ok t)]
        (.runTask owner t items calls 0)
  | renew {owner : Owner} {t : Task} :
      Hands P (.taskWorker owner) [did (.leaseTask owner taskLease) (.ok t)]
        (.renewLease t.id owner)
  | renewAgain {id : UUID} {owner : Owner} {ks : Log} :
      Hands P (.renewLease id owner) ks (.renewLease id owner)
  | back {owner : Owner} {ks : Log} :
      Hands P (.runTask owner t items calls n) ks (.taskWorker owner)
  | called {owner : Owner} {t : Task} {items : List Item} {call : ToolCall} {calls : List ToolCall}
      {n : ℕ} {out : String} {r : Res Bool} :
      Hands P (.runTask owner t items (call :: calls) n)
        [did (.saveProgress (withState t (items ++ [toolResult call.callID out]) calls) owner) r]
        (.runTask owner (withState t (items ++ [toolResult call.callID out]) calls)
          (items ++ [toolResult call.callID out]) calls n)
  | decided {owner : Owner} {t : Task} {items : List Item} {n : ℕ} {resp : DecideResponse}
      {r : Res Bool} (hs : t.steps < P.opts.taskMaxSteps) (hc : resp.toolCalls ≠ []) :
      Hands P (.runTask owner t items [] n)
        [did (.saveProgress (withState (stepped t) (items ++ [.modelStep resp.step])
            resp.toolCalls) owner) r, ⟨decideCall t items, .ok resp⟩]
        (.runTask owner (withState (stepped t) (items ++ [.modelStep resp.step]) resp.toolCalls)
          (items ++ [.modelStep resp.step]) resp.toolCalls 0)
  | retry {owner : Owner} {ks : Log} (h : ks = [] ∨ ∃ e, ks = [⟨decideCall t items, .error e⟩]) :
      Hands P (.runTask owner t items [] n) ks (.runTask owner t items [] (n + 1))
  | maintenance {ks : Log} : Hands P (.maintenance last) ks (.maintenance last')
  | memory {ks : Log} : Hands P .memoryWorker ks .memoryWorker
  | claim {ks : Log} :
      Hands P (.claimNotifications consumer limit deadline) ks
        (.claimNotifications consumer limit deadline)

/-- **How each job ends**: nothing is left unfinished, and it hands on to these jobs. -/
structure Ends (P : Params) (j : Job) (ks : Log) (js : List Job) : Prop where
  quiet : Quiet P ks
  hands : ∀ j' ∈ js, Hands P j ks j'
  worker : js.filterMap workerOf = [] ∨ ∃ o, workerOf j = some o ∧ js.filterMap workerOf = [o]

/-! ## Who makes which request -/

section Does

variable {P : Params} {j : Job} {id : UUID}

theorem Does.createConfirmation_inv (h : Does P j ks (.db (.createConfirmation c))) :
    c.askedTurn = none ∧ ∃ a, c.action = encodeAction P a := by
  cases h with
  | free h => cases h
  | askConfirmation hc ht hi ha hn | createConfirmation hc ht hi ha hn => exact ⟨hn, _, ha⟩

variable {turn : ℤ} {k : UUID} {owner : Owner} {t' : Task}

theorem Does.markAsked_inv (h : Does P j ks (.db (.markAsked id turn))) :
    ∃ k v, j = .ackEvent k v turn ∧ ks = [did (.ackEvent k v turn) (.ok (some id))] := by
  cases h with
  | free h => cases h
  | markAsked => exact ⟨_, _, rfl, rfl⟩

theorem Does.markCallAsked_inv (h : Does P j ks (.db (.markCallAsked k callID turn))) :
    j = .ackToolOutput k callID turn := by
  cases h with
  | free h => cases h
  | ackCall => rfl

theorem Does.ackEvent_inv (h : Does P j ks (.db (.ackEvent k v turn))) :
    j = .ackEvent k v turn := by
  cases h with
  | free h => cases h
  | ackEvent => rfl

theorem Does.tell_inv (h : Does P j ks (.db (.addEvent k payload (some id)))) :
    ∃ c t owner, c.id = id ∧ c.conversationID = k ∧
      ks = [did (.createConfirmation c) (.ok ()),
        did (.setTaskState t owner .awaitingConfirmation "") (.ok true)] := by
  cases h with
  | free h => cases h
  | tell ht => exact ⟨_, _, _, rfl, rfl, rfl⟩

theorem Does.mcpCall_inv (h : Does P j ks (.mcpCall cause tenant user iid tool args)) :
    (∃ target, cause = .tool target ∧ target.readOnly = true ∧ target.integrationID = iid ∧
      target.tool = tool) ∨
    ∃ k callID name args' turn id conf a, cause = .confirmed conf ∧
      j = .callTool k callID name args' turn ∧ ks = [did (.settle k id turn true) (.ok conf)] ∧
      decodeAction P conf.action = some a ∧ a.integrationID = iid ∧ a.tool = tool ∧
      callArguments a.arguments = args := by
  cases h with
  | free h => cases h
  | readOnly h => exact .inl ⟨_, rfl, h, rfl, rfl⟩
  | runAction ha => exact .inr ⟨_, _, _, _, _, _, _, _, rfl, rfl, rfl, ha, rfl, rfl, rfl⟩

theorem Does.createTask_inv (h : Does P j ks (.db (.createTask t))) :
    (t.kind = .agent ∧ t.state = .queued ∧ ∃ intro, Stores t [.userText intro] []) ∨
      (t.kind = .command ∧ t.state = .awaitingApproval ∧ decodeCalls t.pending = none) := by
  cases h with
  | free h => cases h
  | startTask hk hs h => exact .inl ⟨hk, hs, _, h⟩
  | awaitApproval hk hs hp => exact .inr ⟨hk, hs, hp⟩

theorem Does.leaseTask_inv (h : Does P j ks (.db (.leaseTask owner duration))) :
    j = .taskWorker owner ∧ ks = [] ∧ duration = taskLease := by
  cases h with
  | free h => cases h
  | lease => exact ⟨rfl, rfl, rfl⟩

/-- A device is stored with a key that is sealed for it, and that belongs to its certificate. -/
theorem Does.upsertDevice_inv (h : Does P j ks (.db (.upsertDevice d))) :
    d.clientKeySealed.tenantID = d.tenantID ∧ d.clientKeySealed.subject = d.id ∧
      P.keyPair d.clientCertPEM d.clientKeySealed.keyPEM = true := by
  cases h with
  | free h => cases h
  | upsertDevice h => exact ⟨rfl, rfl, h⟩

theorem Does.claimNotifications_inv
    (h : Does P j ks (.db (.claimNotifications consumer limit duration maxAttempts maxAge))) :
    duration = minute ∧ maxAttempts = 5 ∧ maxAge = hour := by
  cases h with
  | free h => simpa [Instr.free, and_assoc] using h

/-- A worker saves its progress after a call, or after a step with further calls. -/
theorem Does.saveProgress_inv (h : Does P j ks (.db (.saveProgress t' owner))) :
    ∃ t items calls n, j = .runTask owner t items calls n ∧
      ((∃ call rest out, calls = call :: rest ∧ ks = [] ∧
          t' = withState t (items ++ [toolResult call.callID out]) rest) ∨
        ∃ resp, calls = [] ∧ ks = [⟨decideCall t items, .ok resp⟩] ∧
          t.steps < P.opts.taskMaxSteps ∧ resp.toolCalls ≠ [] ∧
          t' = withState (stepped t) (items ++ [.modelStep resp.step]) resp.toolCalls) := by
  cases h with
  | free h => cases h
  | saveCall => exact ⟨_, _, _, _, rfl, .inl ⟨_, _, _, rfl, rfl, rfl⟩⟩
  | saveStep hs hc => exact ⟨_, _, _, _, rfl, .inr ⟨_, rfl, rfl, hs, hc, rfl⟩⟩

/-- A worker ends a task it cannot read, gives up, succeeds, or pauses. -/
theorem Does.setTaskState_inv (h : Does P j ks (.db (.setTaskState t' owner state result))) :
    (∃ t, j = .taskWorker owner ∧ ks = [did (.leaseTask owner taskLease) (.ok t)] ∧
      decodeState t = none ∧ state = .failed ∧ t' = ended t [] [] .failed result) ∨
    ∃ t items calls n, j = .runTask owner t items calls n ∧
      ((state = .failed ∧ t' = ended t items calls .failed result ∧
          (ks = [] ∨ ∃ e, ks = [⟨decideCall t items, .error e⟩])) ∨
        (∃ resp, calls = [] ∧ ks = [⟨decideCall t items, .ok resp⟩] ∧
          t.steps < P.opts.taskMaxSteps ∧ resp.toolCalls = [] ∧ state = .succeeded ∧
          t' = ended (stepped t) (items ++ [.modelStep resp.step]) [] .succeeded result) ∨
        ∃ call rest, calls = call :: rest ∧ ks = [] ∧ result = "" ∧
          (state = .awaitingConfirmation ∨ state = .awaitingApproval) ∧
          t' = withState t items calls) := by
  cases h with
  | free h => cases h
  | unreadable h => exact .inl ⟨_, rfl, rfl, h, rfl, rfl⟩
  | fail hk => exact .inr ⟨_, _, _, _, rfl, .inl ⟨rfl, rfl, hk⟩⟩
  | succeed hs hc => exact .inr ⟨_, _, _, _, rfl, .inr (.inl ⟨_, rfl, rfl, hs, hc, rfl, rfl⟩)⟩
  | pause hs => exact .inr ⟨_, _, _, _, rfl, .inr (.inr ⟨_, _, rfl, rfl, rfl, hs, rfl⟩)⟩

end Does

end Jarvis.Orchestrator
