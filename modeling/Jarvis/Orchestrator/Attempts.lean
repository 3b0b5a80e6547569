import Jarvis.Orchestrator.Approvals

/-!
# Approvals that did not run

`dropApproval` records that a command did not run: because the device refused the approval, or
because it expired. The device starts a command at most once for each approval, and refuses whoever
comes second; the orchestrator does not know whether there was a first.
-/

namespace Jarvis.Orchestrator

open Interleave Engine Table

variable {P : Params} {tr : List Ev} {e : Ev} {x : UUID × String}

/-! ## Requests to devices -/

/-- The approval a request carries, by its device and id. -/
def Message.name (m : Message) : Option (UUID × String) :=
  m.approval.map fun a => (m.device, a.approvalID)

/-- A request with the approval is in transit. -/
def Net.underway (net : Net) (x : UUID × String) : Bool :=
  (List.range net.messages.length).any fun n => (net.inTransit n).any fun m => m.name = some x

variable {n tid : ℕ} {m : Message} {r : Except Status DeviceResponse} {s s' : Shared}
  {command : Command} {ap : Option Approval} {past ks : Log} {j : Job} {a : DeviceApproval}
  {d : Device} {i : Instr}

theorem Net.underway_of_inTransit {net : Net} (h : net.inTransit n = some m)
    (hm : m.name = some x) : net.underway x = true := by
  refine List.any_eq_true.mpr ⟨n, List.mem_range.mpr ?_, by simp [h, hm]⟩
  by_contra hn
  rw [Net.inTransit, List.getElem?_eq_none (Nat.le_of_not_lt hn)] at h
  cases h

theorem Net.inTransit_iff {net : Net} : net.inTransit n = some m ↔
    net.messages[n]? = some m ∧ m.delivery = .inTransit := by
  unfold Net.inTransit
  constructor
  · intro h
    split at h
    · rename_i m' hm
      split at h
      · rename_i hd
        cases h
        exact ⟨hm, hd⟩
      · cases h
    · cases h
  · rintro ⟨hm, hd⟩
    simp [hm, hd]

theorem Net.answer_iff {net : Net} :
    net.answer n = some r ↔ ∃ m, net.messages[n]? = some m ∧ m.delivery = .answered r := by
  unfold Net.answer
  constructor
  · intro h
    split at h
    · rename_i m hm
      split at h
      · rename_i hd
        cases h
        exact ⟨m, hm, hd⟩
      · cases h
    · cases h
  · rintro ⟨m, hm, hd⟩
    simp [hm, hd]

/-- An answered request is not in transit. -/
theorem Net.not_inTransit {net : Net} (h : net.answer n = some r) : net.inTransit n = none := by
  obtain ⟨m, hm, hd⟩ := Net.answer_iff.mp h
  cases ht : net.inTransit n with
  | none => rfl
  | some m' =>
    obtain ⟨hm', hd'⟩ := Net.inTransit_iff.mp ht
    cases Option.some.inj (hm.symm.trans hm')
    rw [hd] at hd'
    cases hd'

/-- **How devices and the way to them change by themselves**: requests leave transit, answers stay,
and a command starts only for a request that was in transit, and its answer says so. -/
structure Net.Evolves (net net' : Net) : Prop where
  transit : ∀ n m, net'.inTransit n = some m → net.inTransit n = some m
  answer : ∀ n r, net.answer n = some r → net'.answer n = some r
  started : ∀ x ∈ net'.started, x ∈ net.started ∨ ∃ n m r, net.inTransit n = some m ∧
    m.name = some x ∧ net'.answer n = some r ∧ spent r = false

theorem spent_ran (result : Option CommandResult) : spent (ran result) = false := by
  cases result <;> rfl

/-- What starts when a request is handled: its command, and the answer says so. -/
theorem Net.handle_started {net net' : Net} {h : Handling} (hh : net.handle m h = some (r, net')) :
    net'.messages = net.messages ∧
      ∀ x ∈ net'.started, x ∈ net.started ∨ (m.name = some x ∧ spent r = false) := by
  cases h with
  | refuse e =>
    simp only [Net.handle] at hh
    split at hh <;> cases hh
    exact ⟨rfl, fun x hx => .inl hx⟩
  | issue q =>
    simp only [Net.handle] at hh
    split_ifs at hh
    cases hh
    exact ⟨rfl, fun x hx => .inl hx⟩
  | allow result =>
    cases hh
    refine ⟨rfl, fun x hx => ?_⟩
    rcases List.mem_append.mp hx with hx | hx
    · exact .inr ⟨by simpa [Message.name] using hx, spent_ran _⟩
    · exact .inl hx
  | redeem check result =>
    simp only [Net.handle] at hh
    split at hh
    · cases hh
    · rename_i a ha
      split_ifs at hh
      · split at hh <;> cases hh
        · exact ⟨rfl, fun x hx => .inl hx⟩
        · exact ⟨rfl, fun x hx => .inl hx⟩
        · refine ⟨rfl, fun x hx => ?_⟩
          rcases List.mem_cons.mp hx with rfl | hx
          · exact .inr ⟨by simp [Message.name, ha], spent_ran _⟩
          · exact .inl hx
      · cases hh
        exact ⟨rfl, fun x hx => .inl hx⟩

/-- A request that leaves transit, with or without an answer. -/
theorem Net.evolves_set {net net' : Net} {d : Delivery} (hm : net.inTransit n = some m)
    (hmsg : net'.messages = net.messages.set n { m with delivery := d }) (hd : d ≠ .inTransit)
    (hs : ∀ x ∈ net'.started, x ∈ net.started ∨ (m.name = some x ∧
      ∃ r, d = .answered r ∧ spent r = false)) : Net.Evolves net net' := by
  obtain ⟨hget, htransit⟩ := Net.inTransit_iff.mp hm
  have hlt : n < net.messages.length := (List.getElem?_eq_some_iff.mp hget).1
  have self : net'.messages[n]? = some { m with delivery := d } := by
    rw [hmsg, List.getElem?_set_self hlt]
  have other : ∀ k, n ≠ k → net'.messages[k]? = net.messages[k]? := fun k hk => by
    rw [hmsg, List.getElem?_set_ne hk]
  refine ⟨fun k m' hk => ?_, fun k r hk => ?_, fun x hx => ?_⟩
  · obtain ⟨hm', ht⟩ := Net.inTransit_iff.mp hk
    by_cases hnk : n = k
    · subst hnk
      cases Option.some.inj (self.symm.trans hm')
      exact absurd ht hd
    · exact Net.inTransit_iff.mpr ⟨(other k hnk).symm.trans hm', ht⟩
  · obtain ⟨m', hm', ha⟩ := Net.answer_iff.mp hk
    by_cases hnk : n = k
    · subst hnk
      cases Option.some.inj (hget.symm.trans hm')
      rw [htransit] at ha
      cases ha
    · exact Net.answer_iff.mpr ⟨m', (other k hnk).trans hm', ha⟩
  · rcases hs x hx with hx | ⟨hname, r, rfl, hr⟩
    · exact .inl hx
    · exact .inr ⟨n, m, r, hm, hname, Net.answer_iff.mpr ⟨_, self, rfl⟩, hr⟩

/-- **The world's changes.** -/
theorem World.step_net {v : World} (h : v.step s = some s') :
    s.net.Evolves s'.net := by
  cases v with
  | clock t =>
    cases h
    exact ⟨fun _ _ h => h, fun _ _ h => h, fun _ h => .inl h⟩
  | restart d =>
    cases h
    exact ⟨fun _ _ h => h, fun _ _ h => h, fun _ h => .inl h⟩
  | lose n =>
    obtain ⟨net, hnet, rfl⟩ := Option.map_eq_some_iff.mp h
    obtain ⟨m, hm, rfl⟩ := Option.map_eq_some_iff.mp hnet
    exact Net.evolves_set hm rfl (by simp) fun x hx => .inl hx
  | deliver n hd =>
    obtain ⟨net, hnet, rfl⟩ := Option.map_eq_some_iff.mp h
    obtain ⟨m, hm, hmap⟩ := Option.bind_eq_some_iff.mp hnet
    obtain ⟨⟨r, net'⟩, hh, rfl⟩ := Option.map_eq_some_iff.mp hmap
    obtain ⟨hmsg, hs⟩ := Net.handle_started hh
    refine Net.evolves_set (d := .answered r) hm (by simp [Net.setDelivery, hmsg]) (by simp)
      fun x hx => ?_
    rcases hs x hx with hx | ⟨hname, hr⟩
    · exact .inl hx
    · exact .inr ⟨hname, r, rfl, hr⟩

/-- **What a request of the orchestrator changes**: it sends a message, or nothing. -/
theorem Answered.net (h : Answered e) : e.after.net = e.before.net ∨
    ∃ d command ap, e.act = ⟨.deviceSend d command ap, e.before.net.messages.length⟩ ∧
      e.after.net = (e.before.net.send d.id command ap).2 := by
  obtain ⟨tid, job, ⟨i, r⟩, before, after⟩ := e
  obtain ⟨o, ho⟩ := h
  by_cases hi : ∃ q, i = .db q
  · obtain ⟨q, rfl⟩ := hi
    rcases answer_db ho with ⟨-, hs⟩ | ⟨locked, hs, -⟩ <;> exact .inl (by rw [hs])
  · rcases answer_other (fun q hq => hi ⟨q, hq⟩) ho with hs | ⟨d, command, ap, rfl, hs⟩
    · exact .inl (by rw [hs])
    · refine .inr ⟨d, command, ap, ?_, by rw [hs]⟩
      cases o <;> simp only [answer, Option.some.injEq, Prod.mk.injEq, reduceCtorEq] at ho
      rw [← ho.1]
      rfl

theorem Net.send_inTransit {net : Net} {d : UUID}
    (h : (net.send d command ap).2.inTransit n = some m) :
    net.inTransit n = some m ∨
      (n = net.messages.length ∧ m = ⟨d, command, ap, .inTransit⟩) := by
  obtain ⟨hm, ht⟩ := Net.inTransit_iff.mp h
  simp only [Net.send] at hm
  by_cases hn : n < net.messages.length
  · rw [List.getElem?_append_left hn] at hm
    exact .inl (Net.inTransit_iff.mpr ⟨hm, ht⟩)
  · obtain ⟨k, rfl⟩ := Nat.exists_eq_add_of_le (Nat.le_of_not_lt hn)
    rw [List.getElem?_append_right (Nat.le_add_right ..), Nat.add_sub_cancel_left] at hm
    cases k with
    | zero => exact .inr ⟨rfl, (Option.some.inj hm).symm⟩
    | succ k => cases hm

theorem Net.send_answer {net : Net} {d : UUID} (h : net.answer n = some r) :
    (net.send d command ap).2.answer n = some r := by
  obtain ⟨m, hm, ha⟩ := Net.answer_iff.mp h
  have hn : n < net.messages.length := (List.getElem?_eq_some_iff.mp hm).1
  exact Net.answer_iff.mpr ⟨m, (List.getElem?_append_left hn).trans hm, ha⟩

/-- Answers stay. -/
theorem Answered.answer_stays (h : Answered e) (hr : e.before.net.answer n = some r) :
    e.after.net.answer n = some r := by
  rcases h.net with hs | ⟨d, command, ap, -, hs⟩
  · rw [hs]
    exact hr
  · rw [hs]
    exact Net.send_answer hr

/-- The orchestrator does not start commands. -/
theorem Answered.started_eq (h : Answered e) : e.after.net.started = e.before.net.started := by
  rcases h.net with hs | ⟨d, command, ap, -, hs⟩
  · rw [hs]
  · rw [hs]
    rfl

/-- An answer from a device that takes the approval for spent is the device's answer. -/
theorem Answered.received (h : Answered e) (he : e.act = ⟨.deviceRecv n ap, r⟩) :
    e.after.net.answer n = some r ∨ spent r = false := by
  obtain ⟨tid, job, act, before, after⟩ := e
  obtain ⟨o, ho⟩ := h
  cases he
  cases o <;> simp only [answer, reduceCtorEq] at ho
  · obtain ⟨r', hr', heq⟩ := Option.map_eq_some_iff.mp ho
    cases heq
    exact .inl hr'
  · rename_i st
    split_ifs at ho with hl
    cases ho
    -- The codes of broken connections are others.
    refine .inr ?_
    cases hc : st.code <;> simp_all [spent, Code.local_]

/-! ## Attempts -/

/-- The approval, by its device and id. -/
def DeviceApproval.name (a : DeviceApproval) : UUID × String := (a.deviceID, a.approvalID)

/-- The thread turns to the device with the approval. -/
def tries (x : UUID × String) : Exchange → Bool
  | ⟨.deviceClient d (some ap), _⟩ => (d.id, ap.approvalID) = x
  | _ => false

/-- The thread takes the approval away because it has expired. -/
def takes (x : UUID × String) : Exchange → Bool
  | ⟨.db .expireApprovals, .ok as⟩ => as.any (·.name = x)
  | _ => false

/-- The thread gives the approval's task an outcome. -/
def concludes (x : UUID × String) : Instr → Bool
  | .db (.resumeTask id (.approved a _)) => id = a.taskID && a.name = x
  | .db (.resumeTask id (.dropped a _ _)) => id = a.taskID && a.name = x
  | _ => false

/-- The thread is at the approval. -/
def isAt (x : UUID × String) (past : Log) : Bool :=
  past.any (fun y => tries x y || takes x y) && !past.any fun y => concludes x y.1

/-- The task is waiting for its user. -/
def DB.waits (db : DB) (T : UUID) : Bool := (db.taskRow T).any DB.waiting

/-- The approval whose command the event records as not run: its task, which waited, has that for a
result. -/
def recorded (e : Ev) : Option (UUID × String) :=
  match e.act.1 with
  | .db (.resumeTask T (.dropped a _ _)) =>
    if e.before.db.waits T && !e.after.db.waits T then some a.name else none
  | _ => none

/-- Nobody is at the approval, none of its requests is under way, and its command has not
started. -/
def untouched (c : Cfg) (x : UUID × String) : Bool :=
  x ∉ c.shared.net.started && !c.shared.net.underway x && !c.someThread (isAt x)

/-- Approvals are tried, and taken away, only when they are untouched; and not tried once they are
recorded as not run. -/
def triesAlone (c : Cfg) (i : Instr) (o : Oracle) : Bool :=
  match i with
  | .deviceClient d (some ap) =>
    untouched c (d.id, ap.approvalID) &&
      !c.trace.any fun e => recorded e = some (d.id, ap.approvalID)
  | .db .expireApprovals =>
    o.fails || o.isLost || c.shared.db.approvals.all fun a =>
      !decide (a.expiresAt < c.shared.now) || untouched c a.name
  | _ => true

/-- The runs in which this is so. -/
abbrev Alone : Cfg → Lbl → Prop := guarded triesAlone fun _ _ => True

theorem untouched_iff {ok : Cfg → Lbl → Prop} {c : Cfg} (h : Reaches P ok c)
    (hx : untouched c x = true) : x ∉ c.shared.net.started ∧
      (∀ n m, c.shared.net.inTransit n = some m → m.name ≠ some x) ∧
      ∀ tid th, c.threads tid = some th → isAt x th.past = false := by
  simp only [untouched, Bool.and_eq_true, decide_eq_true_eq, Bool.not_eq_true'] at hx
  obtain ⟨⟨hstarted, hway⟩, hnone⟩ := hx
  refine ⟨hstarted, fun n m hn hm => ?_, fun tid th hth => ?_⟩
  · rw [Net.underway_of_inTransit hn hm] at hway
    cases hway
  · by_contra hat
    rw [Bool.not_eq_false] at hat
    rw [h.threads.someThread hth hat] at hnone
    cases hnone

theorem isAt_cons (h : isAt x (y :: past) = true) :
    concludes x y.1 = false ∧ (isAt x past = true ∨ tries x y = true ∨ takes x y = true) := by
  simp only [isAt, List.any_cons, Bool.and_eq_true, Bool.or_eq_true, Bool.not_eq_true',
    Bool.or_eq_false_iff] at h ⊢
  tauto

/-- The thread sent this request. -/
def Sent (n : ℕ) (past : Log) : Prop :=
  ∃ d command ap, (⟨.deviceSend d command (some ap), n⟩ : Exchange) ∈ past

theorem Sent.cons (h : Sent n past) (y : Exchange) : Sent n (y :: past) := by
  obtain ⟨d, command, ap, hmem⟩ := h
  exact ⟨d, command, ap, List.mem_cons_of_mem _ hmem⟩

/-- The thread that was last to try the approval or to take it away. -/
def claimer (x : UUID × String) (tr : List Ev) : Option ℕ :=
  (tr.find? fun e => tries x e.act || takes x e.act).map (·.tid)

theorem claimer_cons_of (h : tries x e.act = true ∨ takes x e.act = true) :
    claimer x (e :: tr) = some e.tid := by
  have h' : (tries x e.act || takes x e.act) = true := by simpa using h
  simp [claimer, h']

theorem claimer_cons_not (h : ¬ (tries x e.act = true ∨ takes x e.act = true)) :
    claimer x (e :: tr) = claimer x tr := by
  have h' : (tries x e.act || takes x e.act) = false := by simpa using h
  simp [claimer, h']

/-- The thread alone is at the approval: it was the last to turn to it, and all that is under way or
has come of it is this thread's own request. -/
structure HasToItself (s : Shared) (tr : List Ev) (tid : ℕ) (past : Log) (x : UUID × String) :
    Prop where
  last : claimer x tr = some tid
  transit : ∀ n m, s.net.inTransit n = some m → m.name = some x → Sent n past
  started : x ∈ s.net.started → ∃ n r, Sent n past ∧ s.net.answer n = some r ∧ spent r = false
  fresh : past.any (tries x) = true → ∀ e ∈ tr, recorded e ≠ some x

/-- What is true of every thread. -/
structure Solo (s : Shared) (tr : List Ev) (tid : ℕ) (j : Job) (past : Log) : Prop where
  alone : ∀ x, isAt x past = true → HasToItself s tr tid past x
  told : ∀ n ap r, (⟨.deviceRecv n (some ap), r⟩ : Exchange) ∈ past →
    s.net.answer n = some r ∨ spent r = false
  sender : ∀ n, Sent n past → ∃ tenant user y approver signature,
    j = .submitApproval tenant user y approver signature

/-- What is recorded as not run has not started, and nothing is under way that could start it. -/
def Settled (s : Shared) (tr : List Ev) : Prop :=
  ∀ x, (∃ e ∈ tr, recorded e = some x) → x ∉ s.net.started ∧
    ∀ n m, s.net.inTransit n = some m → m.name ≠ some x

/-! ## Who does what -/

theorem Does.drop_inv (h : Does P j ks (.db (.resumeTask T (.dropped a why out)))) :
    T = a.taskID ∧
    ((∃ tenant user y approver signature d l r r', Tried ⟨y, approver, signature⟩ d l r ∧
      spent r = true ∧ ks = did (.deleteApproval a.approvalID) r' ::
        (l ++ [did (.deviceByID a.deviceID) (.ok d), did (.approval tenant user y) (.ok a)])) ∨
    ∃ last pre post, j = .maintenance last ∧ did .expireApprovals (.ok (pre ++ a :: post)) ∈ ks ∧
      ∀ y ∈ ks, ∀ b, resumes b y.1 → b ∈ pre) := by
  cases h with
  | free h => cases h
  | resumeSpent ht hr => exact ⟨rfl, .inl ⟨_, _, _, _, _, _, _, _, _, ht, hr, rfl⟩⟩
  | dropExpired h hn => exact ⟨rfl, .inr ⟨_, _, _, rfl, h, hn⟩⟩

theorem Does.send_job {ap : Approval} (h : Does P j ks (.deviceSend d command (some ap))) :
    ∃ tenant user y approver signature,
      j = .submitApproval tenant user y approver signature := by
  cases h with
  | free h => cases h
  | send => exact ⟨_, _, _, _, _, rfl⟩

theorem concludes_iff : concludes x i = true ↔ ∃ a, resumes a i ∧ a.name = x := by
  constructor
  · intro h
    unfold concludes at h
    split at h
    · simp only [Bool.and_eq_true, decide_eq_true_eq] at h
      exact ⟨_, ⟨h.1, rfl⟩, h.2⟩
    · simp only [Bool.and_eq_true, decide_eq_true_eq] at h
      exact ⟨_, ⟨h.1, rfl⟩, h.2⟩
    · cases h
  · rintro ⟨a, ha, rfl⟩
    unfold resumes at ha
    split at ha
    · obtain ⟨rfl, rfl⟩ := ha
      simp [concludes]
    · obtain ⟨rfl, rfl⟩ := ha
      simp [concludes]
    · exact ha.elim

theorem concludes_key (h : concludes x i = true) : i.key = true := by
  unfold concludes at h
  split at h
  · rfl
  · rfl
  · cases h

/-- A device that was read under an id has that id. -/
theorem Lawful.device (h : Lawful P tr) {id : UUID}
    (he : ∃ e ∈ tr, e.act = did (.deviceByID id) (.ok d)) : d.id = id := by
  obtain ⟨e, he, hact⟩ := he
  obtain ⟨locked, -, hok⟩ := (h.answered he).ok hact
  simp only [Query.exec] at hok
  cases hd : e.before.db.deviceByID id with
  | none =>
    rw [hd] at hok
    cases hok
  | some d' =>
    rw [hd] at hok
    cases hok
    exact row_key hd

/-- Approvals that expired together have different ids. -/
theorem Lawful.expired (h : Lawful P tr) (he : ∃ e ∈ tr, e.act = did .expireApprovals (.ok as)) :
    Keyed DeviceApproval.approvalID as := by
  obtain ⟨e, he, hact⟩ := he
  obtain ⟨locked, -, hok⟩ := (h.answered he).ok hact
  cases hok
  exact (h.before_keys he).approvals.sublist (List.filter_sublist.map _)

/-- A thread that has turned to an approval and given no outcome is at it. -/
theorem isAt_of (h : ∃ y ∈ keys past, tries x y = true ∨ takes x y = true)
    (hn : ∀ y ∈ keys past, concludes x y.1 = false) : isAt x past = true := by
  obtain ⟨y, hy, hx⟩ := h
  simp only [isAt, Bool.and_eq_true, Bool.not_eq_true', List.any_eq_false]
  refine ⟨List.any_eq_true.mpr ⟨y, List.mem_of_mem_filter hy, by simpa using hx⟩,
    fun z hz hcon => ?_⟩
  rw [hn z (List.mem_filter.mpr ⟨hz, concludes_key hcon⟩)] at hcon
  cases hcon

/-- A thread that sends a request with an approval is at it, and has tried it. -/
theorem isAt_of_send {ap : Approval}
    (hd : ∃ tenant user a, keys past = [⟨.deviceClient d (some ap), .ok ()⟩,
      did (.deviceByID a.deviceID) (.ok d), did (.approval tenant user ap.approvalID) (.ok a)]) :
    isAt (d.id, ap.approvalID) past = true ∧ past.any (tries (d.id, ap.approvalID)) = true := by
  obtain ⟨tenant, user, a, hks⟩ := hd
  have hmem : (⟨.deviceClient d (some ap), .ok ()⟩ : Exchange) ∈ keys past := by
    rw [hks]
    exact List.mem_cons_self ..
  have htries : tries (d.id, ap.approvalID) ⟨.deviceClient d (some ap), .ok ()⟩ = true := by
    simp [tries]
  refine ⟨isAt_of ⟨_, hmem, .inl htries⟩ ?_,
    List.any_eq_true.mpr ⟨_, List.mem_of_mem_filter hmem, htries⟩⟩
  rw [hks]
  simp [concludes]

/-- A `SubmitApproval` that drops an approval is at it, and has the device's answer to whatever it
sent. -/
theorem isAt_of_spent {l : Log} {ap : Approval} {tenant : UUID} {user : String} {r' : Res Unit}
    (ht : Tried ap d l r) (hr : spent r = true)
    (hks : keys past = did (.deleteApproval a.approvalID) r' ::
      (l ++ [did (.deviceByID a.deviceID) (.ok d),
        did (.approval tenant user ap.approvalID) (.ok a)]))
    (hd : d.id = a.deviceID) (ha : a.approvalID = ap.approvalID) :
    isAt a.name past = true ∧ ∀ n, Sent n past → ∃ r',
      (⟨.deviceRecv n (some ap), r'⟩ : Exchange) ∈ past ∧ spent r' = true := by
  have sent : ∀ {n : ℕ}, Sent n past → ∃ d' command ap',
      (⟨.deviceSend d' command (some ap'), n⟩ : Exchange) ∈ keys past := by
    rintro n ⟨d', command, ap', hmem⟩
    exact ⟨d', command, ap', List.mem_filter.mpr ⟨hmem, rfl⟩⟩
  cases ht with
  | @noClient st =>
    refine ⟨isAt_of ⟨⟨.deviceClient d (some ap), .error st⟩, by rw [hks]; simp, .inl ?_⟩ ?_,
      fun n hn => ?_⟩
    · simp [tries, DeviceApproval.name, hd, ha]
    · rw [hks]
      simp [concludes]
    · obtain ⟨d', command, ap', hmem⟩ := sent hn
      simp [hks] at hmem
  | @answered m _ command =>
    refine ⟨isAt_of ⟨⟨.deviceClient d (some ap), .ok ()⟩, by rw [hks]; simp, .inl ?_⟩ ?_,
      fun n hn => ?_⟩
    · simp [tries, DeviceApproval.name, hd, ha]
    · rw [hks]
      simp [concludes]
    · obtain ⟨d', command', ap', hmem⟩ := sent hn
      obtain ⟨-, rfl⟩ : (d' = d ∧ command' = command ∧ ap' = ap) ∧ n = m := by
        simpa [hks] using hmem
      refine ⟨r, List.mem_of_mem_filter (?_ : _ ∈ keys past), hr⟩
      rw [hks]
      simp

/-- A round of `maintenance` that drops an approval is at it. -/
theorem isAt_of_expired (hmem : did .expireApprovals (.ok (pre ++ a :: post)) ∈ keys past)
    (hn : ∀ y ∈ keys past, ∀ b, resumes b y.1 → b ∈ pre)
    (hk : Keyed DeviceApproval.approvalID (pre ++ a :: post)) : isAt a.name past = true := by
  refine isAt_of ⟨_, hmem, .inr (by simp [takes])⟩ fun y hy => ?_
  by_contra hcon
  rw [Bool.not_eq_false] at hcon
  obtain ⟨b, hb, hname⟩ := concludes_iff.mp hcon
  have hpre := hn y hy b hb
  -- It would have been dropped before.
  have hid : b.approvalID = a.approvalID := congrArg Prod.snd hname
  rw [Keyed, List.map_append, List.map_cons, List.nodup_append] at hk
  exact hk.2.2 _ (List.mem_map_of_mem hpre) _ (List.mem_cons_self ..) hid

variable {c : Cfg} {k : Answer i → Op (List Job)} {o : Oracle} {th : Thread Instr Answer Job}

section Fire

variable {r : Answer i}

variable {ok : Cfg → Lbl → Prop}

/-- A thread that drops an approval is at it, and nothing it sent has started the command or may
still do so. -/
theorem drop_isAt (hr : Reaches P ok c) (hf : Fires (machine P) c tid o th i k r s)
    (hL : Solo c.shared c.trace tid th.job th.past) {T : UUID} {a : DeviceApproval}
    {why out : String} (hi : i = .db (.resumeTask T (.dropped a why out))) :
    concludes a.name i = true ∧ isAt a.name th.past = true ∧ a.name ∉ c.shared.net.started ∧
      ∀ n m, c.shared.net.inTransit n = some m → m.name ≠ some a.name := by
  subst hi
  have hfire := hr.fired hf
  have hlaw := hr.lawful.1
  obtain ⟨rfl, h⟩ := hfire.does.drop_inv
  -- It is at it, and what it sent was answered, and not with a result.
  obtain ⟨hat, hsent⟩ : isAt a.name th.past = true ∧ ∀ n, Sent n th.past →
      ∃ r', c.shared.net.answer n = some r' ∧ spent r' = true := by
    rcases h with ⟨tenant, user, y, approver, signature, d, l, r₁, r', ht, hr₁, hks⟩ |
      ⟨last, pre, post, hj, hmem, hnone⟩
    · have hks : keys th.past = _ := hks
      have hdev : d.id = a.deviceID := hlaw.device (hfire.known _ (by rw [hks]; simp))
      have hload : a.approvalID = y := hlaw.loaded
        (hfire.known (did (.approval tenant user y) (.ok a)) (by rw [hks]; simp))
      obtain ⟨hat, hrecv⟩ := isAt_of_spent ht hr₁ hks hdev hload
      refine ⟨hat, fun n hn => ?_⟩
      obtain ⟨r', hmem, hr'⟩ := hrecv n hn
      rcases hL.told n _ r' hmem with hans | hno
      · exact ⟨r', hans, hr'⟩
      · rw [hr'] at hno
        cases hno
    · refine ⟨isAt_of_expired hmem hnone (hlaw.expired (hfire.known _ hmem)), fun n hn => ?_⟩
      obtain ⟨_, _, _, _, _, hj'⟩ := hL.sender n hn
      exact absurd (hj.symm.trans hj') (by simp)
  refine ⟨by simp [concludes], hat, fun hst => ?_, fun n m hn hm => ?_⟩
  · obtain ⟨n, r', hn, hans, hno⟩ := (hL.alone _ hat).started hst
    obtain ⟨r'', hans', hyes⟩ := hsent n hn
    cases Option.some.inj (hans.symm.trans hans')
    rw [hyes] at hno
    cases hno
  · obtain ⟨r', hans, -⟩ := hsent n ((hL.alone _ hat).transit n m hn hm)
    rw [Net.not_inTransit hans] at hn
    cases hn

/-- What an event records. -/
theorem recorded_inv (h : recorded e = some x) : ∃ T a why out,
    e.act.1 = .db (.resumeTask T (.dropped a why out)) ∧ a.name = x := by
  unfold recorded at h
  split at h
  · rename_i T a why out hact
    split_ifs at h
    exact ⟨T, a, why, out, hact, Option.some.inj h⟩
  · cases h

/-- A thread that turns to an approval finds it untouched. -/
theorem Alone.claims (hok : Alone c (.exec tid o))
    (hf : Fires (machine P) c tid o th i k r s)
    (h : tries x ⟨i, r⟩ = true ∨ takes x ⟨i, r⟩ = true) :
    untouched c x = true ∧ s.net = c.shared.net ∧
      (tries x ⟨i, r⟩ = true → ∀ e ∈ c.trace, recorded e ≠ some x) := by
  have hg := guarded.exec hok hf
  rcases h with h | h
  · unfold tries at h
    split at h
    · rename_i d ap r' heq
      cases heq
      obtain rfl := of_decide_eq_true h
      simp only [triesAlone, Bool.and_eq_true, Bool.not_eq_true', List.any_eq_false,
        decide_eq_true_eq] at hg
      have hnet : s.net = c.shared.net := by
        rcases answer_other (by simp) hf.answer with rfl | ⟨_, _, _, h, -⟩
        · rfl
        · cases h
      exact ⟨hg.1, hnet, fun _ => hg.2⟩
    · cases h
  · unfold takes at h
    split at h
    · rename_i as heq
      cases heq
      obtain ⟨a, ha, hname⟩ := List.any_eq_true.mp h
      obtain rfl := of_decide_eq_true hname
      obtain ⟨hfail, hlost⟩ := answer_ok_oracle hf.answer
      obtain ⟨locked, hs, hok'⟩ := answer_ok hf.answer
      cases hok'
      obtain ⟨hmem, hexp⟩ := List.mem_filter.mp ha
      simp only [triesAlone, hfail, hlost, Bool.false_or, List.all_eq_true] at hg
      have hun := hg a hmem
      rw [hexp] at hun
      exact ⟨by simpa using hun, by rw [hs], fun h => by cases h⟩
    · cases h

/-- Only a thread that is at an approval sends it. -/
theorem sends_isAt (hr : Reaches P ok c) (hf : Fires (machine P) c tid o th i k r s) {d : Device}
    {command : Command} {ap : Approval} (hi : i = .deviceSend d command (some ap)) :
    isAt (d.id, ap.approvalID) th.past = true ∧
      th.past.any (tries (d.id, ap.approvalID)) = true := by
  subst hi
  exact isAt_of_send (hr.fired hf).does.send_inv

end Fire

/-! ## The invariant -/

/-- A new request in transit is the one just sent. -/
theorem Answered.transit (h : Answered e) (hn : e.after.net.inTransit n = some m)
    (hm : m.name = some x) :
    e.before.net.inTransit n = some m ∨ ∃ d command ap,
      e.act = ⟨.deviceSend d command (some ap), n⟩ ∧ (d.id, ap.approvalID) = x := by
  rcases h.net with hs | ⟨d, command, ap, hact, hs⟩
  · exact .inl (hs ▸ hn)
  · rw [hs] at hn
    rcases Net.send_inTransit hn with hn | ⟨rfl, rfl⟩
    · exact .inl hn
    · obtain ⟨ap', rfl, hx⟩ := Option.map_eq_some_iff.mp hm
      exact .inr ⟨d, command, ap', hact, hx⟩

/-- A step in which nobody turns to the approval, and nobody else sends it or records it. -/
theorem HasToItself.step (h : HasToItself e.before tr tid past x) (ha : Answered e)
    (hclaim : ¬ (tries x e.act = true ∨ takes x e.act = true))
    (hsend : ∀ n d command ap, e.act = ⟨.deviceSend d command (some ap), n⟩ →
      (d.id, ap.approvalID) = x → Sent n past')
    (hsub : ∀ n, Sent n past → Sent n past') (hrec : recorded e ≠ some x)
    (htries : past'.any (tries x) = true → past.any (tries x) = true) :
    HasToItself e.after (e :: tr) tid past' x where
  last := (claimer_cons_not hclaim).trans h.last
  transit n m hn hm := by
    rcases ha.transit hn hm with hn | ⟨d, command, ap, hact, hx⟩
    · exact hsub n (h.transit n m hn hm)
    · exact hsend n d command ap hact hx
  started hx := by
    obtain ⟨n, r, hn, hans, hr⟩ := h.started (ha.started_eq ▸ hx)
    exact ⟨n, r, hsub n hn, ha.answer_stays hans, hr⟩
  fresh ht e' he' := by
    rcases List.mem_cons.mp he' with rfl | he'
    · exact hrec
    · exact h.fresh (htries ht) e' he'

section Steps

variable {r : Answer i}

/-- What is recorded stays so. -/
theorem Settled.step (hr : Reaches P Alone c) (hf : Fires (machine P) c tid o th i k r s)
    (hG : Settled c.shared c.trace) (hL : Solo c.shared c.trace tid th.job th.past) :
    Settled s (⟨tid, th.job, ⟨i, r⟩, c.shared, s⟩ :: c.trace) := by
  rintro x ⟨e', he', hrec⟩
  have hfire := hr.fired hf
  -- It is enough that nothing was there before, and that nobody sends it now.
  suffices h : (x ∉ c.shared.net.started ∧
      ∀ n m, c.shared.net.inTransit n = some m → m.name ≠ some x) ∧
      ∀ d command ap, i = .deviceSend d command (some ap) → (d.id, ap.approvalID) ≠ x by
    refine ⟨fun hx => h.1.1 (hfire.answered.started_eq ▸ hx), fun n m hn hm => ?_⟩
    rcases hfire.answered.transit hn hm with hn | ⟨d, command, ap, hact, hx⟩
    · exact h.1.2 n m hn hm
    · exact h.2 d command ap (congrArg Sigma.fst hact) hx
  rcases List.mem_cons.mp he' with rfl | hold
  · obtain ⟨T, a, why, out, rfl, rfl⟩ := recorded_inv hrec
    exact ⟨(drop_isAt hr hf hL rfl).2.2, fun d command ap h => by cases h⟩
  · refine ⟨hG x ⟨e', hold, hrec⟩, ?_⟩
    rintro d command ap rfl rfl
    obtain ⟨hat, htries⟩ := sends_isAt hr hf rfl
    exact (hL.alone _ hat).fresh htries e' hold hrec

/-- The thread that made the request. -/
theorem Solo.own (hr : Reaches P Alone c) (hok : Alone c (.exec tid o))
    (hf : Fires (machine P) c tid o th i k r s)
    (hL : Solo c.shared c.trace tid th.job th.past) :
    Solo s (⟨tid, th.job, ⟨i, r⟩, c.shared, s⟩ :: c.trace) tid th.job (⟨i, r⟩ :: th.past) where
  alone x hat := by
    have hfire := hr.fired hf
    obtain ⟨hcon, hold⟩ := isAt_cons hat
    have hrec : recorded ⟨tid, th.job, ⟨i, r⟩, c.shared, s⟩ ≠ some x := by
      intro hrec
      obtain ⟨T, a, why, out, rfl, rfl⟩ := recorded_inv hrec
      rw [(drop_isAt hr hf hL rfl).1] at hcon
      cases hcon
    by_cases hclaim : tries x ⟨i, r⟩ = true ∨ takes x ⟨i, r⟩ = true
    · -- It has just turned to the approval, which was untouched.
      obtain ⟨hun, hnet, hfresh⟩ := Alone.claims hok hf hclaim
      obtain ⟨hstarted, htransit, hnone⟩ := untouched_iff hr hun
      refine ⟨claimer_cons_of hclaim, fun n m hn hm => ?_, fun hx => ?_, fun ht e' he' => ?_⟩
      · exact absurd hm (htransit n m (hnet ▸ hn))
      · exact absurd (hnet ▸ hx) hstarted
      · rcases List.mem_cons.mp he' with rfl | he'
        · exact hrec
        · by_cases hnew : tries x ⟨i, r⟩ = true
          · exact hfresh hnew e' he'
          · -- It has tried it before: then it was at it.
            have hat' : isAt x th.past = true := by
              simp only [isAt, List.any_cons, Bool.and_eq_true, Bool.or_eq_true, Bool.not_eq_true',
                Bool.or_eq_false_iff] at hat ht ⊢
              obtain ⟨y, hy, hyt⟩ := List.any_eq_true.mp (ht.resolve_left hnew)
              exact ⟨List.any_eq_true.mpr ⟨y, hy, by simp [hyt]⟩, hat.2.2⟩
            rw [hnone _ _ hf.thread] at hat'
            cases hat'
    · have hat' : isAt x th.past = true := by
        rcases hold with h | h | h
        · exact h
        · exact absurd (.inl h) hclaim
        · exact absurd (.inr h) hclaim
      refine (hL.alone x hat').step hfire.answered hclaim ?_ (fun n hn => hn.cons _) hrec ?_
      · rintro n d command ap hact -
        exact ⟨d, command, ap, hact ▸ List.mem_cons_self ..⟩
      · intro ht
        rw [List.any_cons, Bool.or_eq_true] at ht
        exact ht.resolve_left fun h => hclaim (.inl h)
  told n ap r' hmem := by
    have hfire := hr.fired hf
    rcases List.mem_cons.mp hmem with heq | hmem
    · exact hfire.answered.received heq.symm
    · exact (hL.told n ap r' hmem).imp_left hfire.answered.answer_stays
  sender n hn := by
    obtain ⟨d, command, ap, hmem⟩ := hn
    rcases List.mem_cons.mp hmem with heq | hmem
    · cases heq
      exact (hr.fired hf).does.send_job
    · exact hL.sender n ⟨d, command, ap, hmem⟩

/-- The other threads. -/
theorem Solo.other (hr : Reaches P Alone c) (hok : Alone c (.exec tid o))
    (hf : Fires (machine P) c tid o th i k r s)
    (hL : Solo c.shared c.trace tid th.job th.past) {tid' : ℕ} {th' : Thread Instr Answer Job}
    (hne : tid' ≠ tid) (hth' : c.threads tid' = some th')
    (hL' : Solo c.shared c.trace tid' th'.job th'.past) :
    Solo s (⟨tid, th.job, ⟨i, r⟩, c.shared, s⟩ :: c.trace) tid' th'.job th'.past where
  alone x hat := by
    have hfire := hr.fired hf
    have hold := hL'.alone x hat
    -- The thread that made the request is not at it.
    have hnot : isAt x th.past ≠ true := fun h =>
      hne (Option.some.inj (hold.last.symm.trans (hL.alone x h).last))
    refine hold.step hfire.answered ?_ ?_ (fun n hn => hn) ?_ id
    · intro hclaim
      obtain ⟨-, -, hnone⟩ := untouched_iff hr (Alone.claims hok hf hclaim).1
      rw [hnone _ _ hth'] at hat
      cases hat
    · rintro n d command ap hact rfl
      exact absurd (sends_isAt hr hf (congrArg Sigma.fst hact)).1 hnot
    · intro hrec
      obtain ⟨T, a, why, out, rfl, rfl⟩ := recorded_inv hrec
      exact hnot (drop_isAt hr hf hL rfl).2.1
  told n ap r' hmem := (hL'.told n ap r' hmem).imp_left (hr.fired hf).answered.answer_stays
  sender := hL'.sender

end Steps

/-- The world. -/
theorem Solo.evolves (h : Solo s tr tid j past) (hs : s.net.Evolves s'.net) :
    Solo s' tr tid j past where
  alone x hat := by
    have hold := h.alone x hat
    refine ⟨hold.last, fun n m hn hm => hold.transit n m (hs.transit n m hn) hm, fun hx => ?_,
      hold.fresh⟩
    rcases hs.started x hx with hx | ⟨n, m, r, hn, hm, hans, hr⟩
    · obtain ⟨n, r, hn, hans, hr⟩ := hold.started hx
      exact ⟨n, r, hn, hs.answer n r hans, hr⟩
    · exact ⟨n, r, hold.transit n m hn hm, hans, hr⟩
  told n ap r hmem := (h.told n ap r hmem).imp_left (hs.answer n r)
  sender := h.sender

theorem Settled.evolves (h : Settled s tr) (hs : s.net.Evolves s'.net) :
    Settled s' tr := by
  intro x hx
  obtain ⟨hstarted, htransit⟩ := h x hx
  refine ⟨fun hx' => ?_, fun n m hn => htransit n m (hs.transit n m hn)⟩
  rcases hs.started x hx' with hx' | ⟨n, m, r, hn, hm, -⟩
  · exact hstarted hx'
  · exact htransit n m hn hm

theorem Solo.nil : Solo s tr tid j [] :=
  ⟨fun _ h => (by cases h), fun _ _ _ h => (by cases h), fun _ ⟨_, _, _, h⟩ => (by cases h)⟩

/-- **What is recorded as not run does not run.** In every run in which approvals are tried, and
taken away, only while nobody else is at them: when an approval's command is recorded as not run,
the device has not started it with that approval, and does not start it in any state reached
later. -/
theorem not_run_recorded {c : Cfg} (h : Reaches P Alone c) (he : e ∈ c.trace)
    (hx : recorded e = some x) : x ∉ c.shared.net.started := by
  refine ((Reach.joint_inv body_spec h (G := Settled) (L := Solo)
    ?_ ?_ ?_ ?_ ?_ ?_ ?_ ?_).1 x ⟨e, he, hx⟩).1
  · rintro x ⟨e, he, -⟩
    cases he
  · exact fun s tr tid j _ _ => .nil
  · exact fun s tr p tid j _ _ => .nil
  · exact fun c tid o th i k r s hr hok hf hG hL => hG.step hr hf hL
  · exact fun c tid o th i k a s js _ _ _ _ _ _ tid' j _ => .nil
  · exact fun c tid o th i k r s hr hok hf hG hL => hL.own hr hok hf
  · exact fun c tid o th i k r s tid' th' hr hok hf hG hL hne hth' hL' =>
      hL.other hr hok hf hne hth' hL'
  · exact fun c v s _ hv hG =>
      ⟨hG.evolves (World.step_net hv), fun tid j past hL => hL.evolves (World.step_net hv)⟩

/-- The device has forgotten the approval and refuses it, and the attempt records that the command
did not run. -/
def refusedRun : List Lbl :=
  registering ++ commanding ++ storing ++ approving 6 ++
  [.env (.deliver 1 (.redeem .expired none)), .exec 6 .through] ++ commits 6 2

/-- The refused command is recorded, and has not started. -/
theorem not_run_recorded_run : ∃ c e x, Reaches sample Alone c ∧ e ∈ c.trace ∧
    recorded e = some x ∧ x ∉ c.shared.net.started := by
  have hrun : (((machine sample).run (checked triesAlone) start refusedRun).any fun c =>
      c.trace.any fun e => (recorded e).isSome) = true := by
    decide +kernel
  obtain ⟨c, hc, hany⟩ := reaches_of_run hrun
  obtain ⟨e, he, hsome⟩ := List.any_eq_true.mp hany
  obtain ⟨x, hx⟩ := Option.isSome_iff_exists.mp hsome
  exact ⟨c, e, x, hc, he, hx, not_run_recorded hc he hx⟩

/-! ## What happens otherwise -/

/-- Two people approve at once (threads 6 and 7). The device starts the command for the first and
refuses the second, and that attempt comes to its end first. -/
def doubleRun : List Lbl :=
  registering ++ commanding ++ storing ++ approving 6 ++ approving 7 ++
  [.env (.deliver 1 (.redeem .valid (some ⟨0, "", "", false, false, false⟩))),
    .env (.deliver 2 (.redeem .valid none)), .exec 7 .through] ++ commits 7 2

/-- The command is recorded as not run after it has started. -/
theorem not_run_started : ∃ c e x, Reachable sample c ∧ e ∈ c.trace ∧ recorded e = some x ∧
    x ∈ c.shared.net.started := by
  have hrun : (((machine sample).run anything start doubleRun).any fun c =>
      c.trace.any fun e => (recorded e).any fun x => x ∈ c.shared.net.started) = true := by
    decide +kernel
  obtain ⟨c, hc, hany⟩ := reachable_of_run hrun
  obtain ⟨e, he, hsome⟩ := List.any_eq_true.mp hany
  obtain ⟨x, hx, hstarted⟩ := (Option.any_eq_true ..).mp hsome
  exact ⟨c, e, x, hc, he, hx, of_decide_eq_true hstarted⟩

end Jarvis.Orchestrator
