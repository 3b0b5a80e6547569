import Jarvis.Orchestrator.Acceptance
import Jarvis.Orchestrator.Rows

/-!
# The approvals the phone shows

The phone asks app-api for the approvals that wait for a signature. App-api asks the orchestrator
for the 100 newest tasks of the user and picks the approvals from them; the orchestrator attaches to
a waiting task one of its unexpired approvals. Two clocks decide what is unexpired: the database's,
when the approvals are selected, and app-api's, when the answer is put together.
-/

namespace Jarvis.Orchestrator

open Engine Table

variable {P : Params} {db : DB} {asked now : Time} {tenant : UUID} {user : String}

/-! ### The orchestrator's answer -/

/-- The message `PendingApproval`. Source: `orchestrator.proto` -/
structure PendingApproval where
  approvalID : String
  deviceName : String
  payload : String
  expireTime : Time
  deriving DecidableEq, Repr

/-- The message `Task`. Source: `orchestrator.proto`; its state is one of the seven a task can
have. -/
structure TaskMessage where
  taskID : String
  conversationID : String
  goal : String
  state : TaskState
  result : String
  steps : ℕ
  createTime : Time
  updateTime : Time
  pendingApproval : Option PendingApproval := none
  deriving DecidableEq, Repr

/-- Source: `voice.go` `TaskProto` -/
def taskProto (P : Params) (t : Task) : TaskMessage where
  taskID := P.uuidText t.id
  conversationID := (t.conversationID.map P.uuidText).getD ""
  goal := t.goal
  state := t.state
  result := t.result
  steps := t.steps
  createTime := t.createdAt
  updateTime := t.updatedAt

/-- The map `PendingApprovals` makes of the rows it selects: a row replaces an earlier one of its
task. -/
def byTask (rows : List (DeviceApproval × String)) : UUID → Option (DeviceApproval × String) :=
  rows.foldl (fun m p => Function.update m p.1.taskID (some p)) fun _ => none

/-- Source: `server.go` `taskProtos` -/
def taskProtos (P : Params) (db : DB) (asked : Time) (tasks : List Task) : List TaskMessage :=
  let waiting := (tasks.filter fun t => t.state = .awaitingApproval).map Task.id
  let approvals := if waiting = [] then fun _ => none else
    byTask (db.pendingApprovals waiting asked)
  tasks.map fun t =>
    match approvals t.id with
    | some (a, device) =>
      { taskProto P t with pendingApproval := some ⟨a.approvalID, device, a.payload, a.expiresAt⟩ }
    | none => taskProto P t

/-- Source: `server.go` `ListTasks` -/
def listTasks (P : Params) (db : DB) (asked : Time) (tenant user : String) (limit : ℤ) :
    Except String (List TaskMessage) := do
  let owner ← parseOwner P tenant user
  let limit := if limit = 0 then 20 else limit
  ensure (1 ≤ limit ∧ limit ≤ 100) "limit must be between 1 and 100"
  pure (taskProtos P db asked (db.listTasks owner.1 owner.2 limit.toNat))

/-! ### App-api's answer -/

/-- The message `Approval`. Source: `app.proto` -/
structure ShownApproval where
  approvalID : String
  taskID : String
  taskGoal : String
  deviceName : String
  payload : String
  expireTime : Time
  deriving DecidableEq, Repr

/-- Source: `service.go` `approvalProto` -/
def approvalProto (t : TaskMessage) (a : PendingApproval) : ShownApproval :=
  ⟨a.approvalID, t.taskID, t.goal, a.deviceName, a.payload, a.expireTime⟩

/-- What `ListApprovals` takes from a task. -/
def approvalOf (now : Time) (t : TaskMessage) : Option ShownApproval :=
  match t.pendingApproval with
  | none => none
  | some a =>
    if t.state ≠ .awaitingApproval ∨ ¬now < a.expireTime then none else some (approvalProto t a)

/-- Source: `service.go` `ListApprovals`. An error of the orchestrator is one of the call
(`fromOrchestrator` writes its text anew). The sort leaves the order of equal expiries open; nothing
here depends on it. -/
def listApprovals (P : Params) (db : DB) (asked now : Time) (tenant : UUID) (user : String) :
    Except String (List ShownApproval) := do
  let tasks ← listTasks P db asked (P.uuidText tenant) user 100
  pure (orderBy ShownApproval.expireTime (tasks.filterMap (approvalOf now)))

/-! ### What is to be shown -/

/-- The approvals the database has for unexpired, with the names of their devices. -/
def DB.unexpired (db : DB) (asked : Time) : List (DeviceApproval × String) :=
  db.approvals.filterMap fun a =>
    if asked < a.expiresAt then (db.deviceByID a.deviceID).map fun d => (a, d.name) else none

/-- The row of a task of the user that waits for an approval. -/
def DB.waitingOf (db : DB) (tenant : UUID) (user : String) (id : UUID) : Option TaskRow :=
  (db.taskRow id).filter fun r => r.tenantID = tenant ∧ r.userID = user ∧
    r.state = .awaitingApproval

/-- An approval as the phone shows it. -/
def shownAs (P : Params) (r : TaskRow) (p : DeviceApproval × String) : ShownApproval :=
  ⟨p.1.approvalID, P.uuidText r.id, r.goal, p.2, p.1.payload, p.1.expiresAt⟩

/-- The approvals that are stored and unexpired, on both clocks, for the user's tasks that wait for
one. -/
def DB.toShow (P : Params) (db : DB) (asked now : Time) (tenant : UUID) (user : String) :
    List ShownApproval :=
  (db.unexpired asked).filterMap fun p =>
    if now < p.1.expiresAt then (db.waitingOf tenant user p.1.taskID).map fun r => shownAs P r p
    else none

/-- The `n` newest tasks of the user. -/
def DB.newest (db : DB) (tenant : UUID) (user : String) (n : ℕ) : List TaskRow :=
  (orderBy (fun r : TaskRow => -r.createdAt)
    (db.tasks.filter fun r => r.tenantID = tenant ∧ r.userID = user)).take n

/-- The approval is one of those to show. -/
def DB.Shows (db : DB) (now : Time) (tenant : UUID) (user : String)
    (p : DeviceApproval × String) : Prop :=
  now < p.1.expiresAt ∧ (db.waitingOf tenant user p.1.taskID).isSome = true

/-- The task of an approval that is to be shown is among the newest 100. -/
def DB.Recent (db : DB) (asked now : Time) (tenant : UUID) (user : String) : Prop :=
  ∀ p ∈ db.unexpired asked, db.Shows now tenant user p → ∃ r ∈ db.newest tenant user 100,
    r.id = p.1.taskID

/-- No approval that is to be shown comes before another one of its task. -/
def DB.Lone (db : DB) (asked now : Time) (tenant : UUID) (user : String) : Prop :=
  (db.unexpired asked).Pairwise fun p q => p.1.taskID = q.1.taskID → ¬db.Shows now tenant user p

instance {p : DeviceApproval × String} : Decidable (db.Shows now tenant user p) :=
  inferInstanceAs (Decidable (_ ∧ _))

instance : Decidable (db.Recent asked now tenant user) :=
  inferInstanceAs (Decidable (∀ p ∈ db.unexpired asked, db.Shows now tenant user p →
    ∃ r ∈ db.newest tenant user 100, r.id = p.1.taskID))

instance : Decidable (db.Lone asked now tenant user) :=
  inferInstanceAs (Decidable (List.Pairwise _ _))

/-! ### The map -/

section

variable {rows : List (DeviceApproval × String)} {p x : DeviceApproval × String} {id : UUID}

@[simp] theorem byTask_nil : byTask [] id = none := rfl

theorem byTask_concat : byTask (rows ++ [x]) id = if id = x.1.taskID then some x else
    byTask rows id := by
  unfold byTask
  rw [List.foldl_append, List.foldl_cons, List.foldl_nil, Function.update_apply]

/-- What is in the map is one of the rows of the task. -/
theorem mem_of_byTask (h : byTask rows id = some p) : p ∈ rows ∧ p.1.taskID = id := by
  induction rows using List.reverseRecOn with
  | nil => cases h
  | append_singleton rows x ih =>
    rw [byTask_concat] at h
    split_ifs at h with hid
    · cases h
      exact ⟨by simp, hid.symm⟩
    · obtain ⟨hmem, htask⟩ := ih h
      exact ⟨List.mem_append_left _ hmem, htask⟩

/-- The rows of other tasks do not matter. -/
theorem byTask_filter {waiting : List UUID} (hid : id ∈ waiting) :
    byTask (rows.filter fun p => p.1.taskID ∈ waiting) id = byTask rows id := by
  induction rows using List.reverseRecOn with
  | nil => rfl
  | append_singleton rows x ih =>
    rw [List.filter_append, byTask_concat]
    by_cases hx : x.1.taskID ∈ waiting
    · rw [List.filter_cons_of_pos (by simpa using hx), List.filter_nil, byTask_concat, ih]
    · rw [List.filter_cons_of_neg (by simpa using hx), List.filter_nil, List.append_nil, ih, if_neg]
      rintro rfl
      exact hx hid

/-- The rows of a kind are all in the map exactly if none of them comes before another row of its
task. -/
theorem byTask_iff {S : DeviceApproval × String → Prop} (hnodup : rows.Nodup) :
    (∀ p ∈ rows, S p → byTask rows p.1.taskID = some p) ↔
      rows.Pairwise fun p q => p.1.taskID = q.1.taskID → ¬S p := by
  induction rows using List.reverseRecOn with
  | nil => simp
  | append_singleton rows x ih =>
    rw [List.pairwise_append]
    obtain ⟨hnodup', -, hne⟩ := List.nodup_append.mp hnodup
    constructor
    · intro h
      have hlast : ∀ p ∈ rows, S p → p.1.taskID ≠ x.1.taskID := by
        intro p hp hs heq
        have hin := h p (List.mem_append_left _ hp) hs
        rw [byTask_concat, if_pos heq] at hin
        exact hne p hp x (by simp) (Option.some.inj hin).symm
      refine ⟨(ih hnodup').mp fun p hp hs => ?_,
        List.pairwise_singleton _ _, fun p hp q hq heq hs => ?_⟩
      · have hin := h p (List.mem_append_left _ hp) hs
        rwa [byTask_concat, if_neg (hlast p hp hs)] at hin
      · cases List.mem_singleton.mp hq
        exact hlast p hp hs heq
    · rintro ⟨hrows, -, hlast⟩ p hp hs
      rw [byTask_concat]
      rcases List.mem_append.mp hp with hp | hp
      · rw [if_neg fun heq => hlast p hp x (by simp) heq hs]
        exact (ih hnodup').mpr hrows p hp hs
      · cases List.mem_singleton.mp hp
        exact if_pos rfl

end

/-! ### The two lists -/

theorem pendingApprovals_eq :
    db.pendingApprovals waiting asked = (db.unexpired asked).filter fun p =>
    p.1.taskID ∈ waiting := by
  unfold DB.pendingApprovals DB.unexpired
  rw [List.filter_filterMap]
  refine List.filterMap_congr fun a _ => ?_
  cases hd : db.deviceByID a.deviceID with
  | none => simp
  | some d =>
    by_cases hlive : asked < a.expiresAt <;> by_cases htask : a.taskID ∈ waiting <;>
      simp [htask, hlive, Option.filter]

/-- The approvals the database has for unexpired have different ids. -/
theorem unexpired_keyed (hkeys : db.Keys) :
    Keyed (fun p : DeviceApproval × String => p.1.approvalID) (db.unexpired asked) := by
  refine List.pairwise_map.mpr (List.pairwise_filterMap.mpr ?_)
  refine (List.pairwise_map.mp hkeys.approvals).imp fun hne p hp q hq => ?_
  split_ifs at hp hq
  obtain ⟨d, -, rfl⟩ := Option.map_eq_some_iff.mp hp
  obtain ⟨d', -, rfl⟩ := Option.map_eq_some_iff.mp hq
  exact hne

/-- What is picked from a row of the listing. -/
def picked (P : Params) (db : DB) (asked now : Time) (r : TaskRow) : Option ShownApproval :=
  if r.state = .awaitingApproval then
    ((byTask (db.unexpired asked) r.id).filter fun p => now < p.1.expiresAt).map (shownAs P r)
  else none

variable {r : TaskRow} {x : ShownApproval}

theorem picked_eq_some : picked P db asked now r = some x ↔
    r.state = .awaitingApproval ∧
      ∃ p, byTask (db.unexpired asked) r.id = some p ∧ now < p.1.expiresAt ∧ shownAs P r p = x := by
  unfold picked
  split_ifs with hstate
  · simp [hstate, Option.map_eq_some_iff, Option.filter_eq_some_iff, and_assoc]
  · simp [hstate]

/-- The orchestrator attaches the approvals, and app-api picks them. -/
theorem taskProtos_picked (rows : List TaskRow) :
    (taskProtos P db asked (rows.map TaskRow.toTask)).filterMap (approvalOf now) =
      rows.filterMap (picked P db asked now) := by
  unfold taskProtos
  rw [List.map_map, List.filterMap_map]
  refine List.filterMap_congr fun r hr => ?_
  have hskip : ∀ t : TaskMessage, t.state ≠ .awaitingApproval → approvalOf now t = none := by
    intro t ht
    unfold approvalOf
    split
    · rfl
    · exact if_pos (.inl ht)
  by_cases hstate : r.state = .awaitingApproval
  · have hwaiting : r.id ∈
      (((rows.map TaskRow.toTask).filter fun t => t.state = .awaitingApproval).map Task.id) :=
      List.mem_map.mpr
        ⟨r.toTask, List.mem_filter.mpr ⟨List.mem_map_of_mem hr, by simpa using hstate⟩, rfl⟩
    simp only [Function.comp_apply, if_neg (List.ne_nil_of_mem hwaiting), pendingApprovals_eq,
      byTask_filter hwaiting, picked, if_pos hstate]
    cases hp : byTask (db.unexpired asked) r.id with
    | none => rfl
    | some p =>
      by_cases hlive : now < p.1.expiresAt
      · simp [approvalOf, taskProto, hstate, hlive, shownAs, approvalProto, Option.filter]
      · simp [approvalOf, taskProto, hstate, hlive, Option.filter]
  · rw [picked, if_neg hstate, Function.comp_apply, Function.comp_apply]
    refine hskip _ ?_
    split <;> exact hstate

theorem listApprovals_ok (howner : parseOwner P (P.uuidText tenant) user = .ok (tenant, user)) :
    listApprovals P db asked now tenant user =
      .ok (orderBy ShownApproval.expireTime
        ((db.newest tenant user 100).filterMap (picked P db asked now))) := by
  rw [← taskProtos_picked]
  unfold listApprovals listTasks
  rw [howner]
  rfl

/-! ### What the answer has -/

theorem mem_newest (h : r ∈ db.newest tenant user n) :
    r ∈ db.tasks ∧ r.tenantID = tenant ∧ r.userID = user := by
  have hr := mem_orderBy.mp (List.mem_of_mem_take h)
  simpa using hr

theorem waitingOf_eq_some {id : UUID} : db.waitingOf tenant user id = some r ↔
    db.taskRow id = some r ∧ r.tenantID = tenant ∧ r.userID = user ∧
    r.state = .awaitingApproval := by
  simp [DB.waitingOf, Option.filter_eq_some_iff]

theorem mem_toShow : x ∈ db.toShow P asked now tenant user ↔
    ∃ p ∈ db.unexpired asked, now < p.1.expiresAt ∧
      ∃ r, db.waitingOf tenant user p.1.taskID = some r ∧ shownAs P r p = x := by
  unfold DB.toShow
  rw [List.mem_filterMap]
  refine exists_congr fun p => and_congr_right fun _ => ?_
  split_ifs with hlive
  · simp [hlive, Option.map_eq_some_iff]
  · simp [hlive]

/-- What is picked is to be shown. -/
theorem mem_toShow_of_picked (hkeys : db.Keys) (hr : r ∈ db.newest tenant user n)
    (hx : picked P db asked now r = some x) :
    x ∈ db.toShow P asked now tenant user := by
  obtain ⟨hrow, htenant, huser⟩ := mem_newest hr
  obtain ⟨hstate, p, hp, hlive, hshown⟩ := picked_eq_some.mp hx
  obtain ⟨hmem, htask⟩ := mem_of_byTask hp
  have hfound : db.taskRow p.1.taskID = some r := by
    rw [htask]
    exact hkeys.tasks.row_eq hrow
  exact mem_toShow.mpr ⟨p, hmem, hlive, r,
    waitingOf_eq_some.mpr ⟨hfound, htenant, huser, hstate⟩, hshown⟩

theorem toShow_keyed (hkeys : db.Keys) :
    Keyed ShownApproval.approvalID (db.toShow P asked now tenant user) := by
  refine List.pairwise_map.mpr (List.pairwise_filterMap.mpr ?_)
  refine (List.pairwise_map.mp (unexpired_keyed hkeys)).imp fun hne x hx y hy => ?_
  split_ifs at hx hy
  obtain ⟨r, -, rfl⟩ := Option.map_eq_some_iff.mp hx
  obtain ⟨r', -, rfl⟩ := Option.map_eq_some_iff.mp hy
  exact hne

theorem newest_pairwise (hkeys : db.Keys) (n : ℕ) :
    (db.newest tenant user n).Pairwise fun r r' => r.id ≠ r'.id := by
  have hsub : ((db.tasks.filter fun r => r.tenantID = tenant ∧
    r.userID = user).map fun r => r.id).Nodup :=
    hkeys.tasks.sublist (List.filter_sublist.map _)
  have hperm := (List.perm_insertionSort (fun r r' : TaskRow => -r.createdAt ≤ -r'.createdAt)
    (db.tasks.filter fun r => r.tenantID = tenant ∧ r.userID = user)).map fun r => r.id
  exact (List.pairwise_map.mp (hperm.nodup_iff.mpr hsub)).sublist (List.take_sublist _ _)

/-- No approval is picked twice. -/
theorem picked_keyed (hkeys : db.Keys) (n : ℕ) :
    Keyed ShownApproval.approvalID
      ((db.newest tenant user n).filterMap (picked P db asked now)) := by
  refine List.pairwise_map.mpr (List.pairwise_filterMap.mpr ?_)
  refine (newest_pairwise hkeys n).imp fun {r r'} hne x hx y hy heq => hne ?_
  obtain ⟨-, p, hp, -, rfl⟩ := picked_eq_some.mp hx
  obtain ⟨-, q, hq, -, rfl⟩ := picked_eq_some.mp hy
  obtain ⟨hpmem, hptask⟩ := mem_of_byTask hp
  obtain ⟨hqmem, hqtask⟩ := mem_of_byTask hq
  have hpq : p = q := (unexpired_keyed hkeys).eq hpmem hqmem heq
  rw [← hptask, ← hqtask, hpq]

/-- All that is to be shown is picked exactly if it is recent, and none of it is overwritten. -/
theorem toShow_subset_iff (hkeys : db.Keys) :
    (∀ x ∈ db.toShow P asked now tenant user,
      x ∈ (db.newest tenant user 100).filterMap (picked P db asked now)) ↔
      db.Recent asked now tenant user ∧ db.Lone asked now tenant user := by
  have hnodup : (db.unexpired asked).Nodup := (unexpired_keyed hkeys).of_map
  constructor
  · intro h
    -- An approval to show is the one in the map, and its task is in the listing.
    have hin : ∀ p ∈ db.unexpired asked, db.Shows now tenant user p →
        (∃ r ∈ db.newest tenant user 100, r.id = p.1.taskID) ∧
          byTask (db.unexpired asked) p.1.taskID = some p := by
      rintro p hp ⟨hlive, hwaiting⟩
      obtain ⟨r, hr⟩ := Option.isSome_iff_exists.mp hwaiting
      obtain ⟨r', hr', hpicked⟩ := List.mem_filterMap.mp
        (h _ (mem_toShow.mpr ⟨p, hp, hlive, r, hr, rfl⟩))
      obtain ⟨-, q, hq, -, hshown⟩ := picked_eq_some.mp hpicked
      obtain ⟨hqmem, hqtask⟩ := mem_of_byTask hq
      have hqp : q = p := (unexpired_keyed hkeys).eq hqmem hp
        (congrArg ShownApproval.approvalID hshown)
      subst hqp
      rw [hqtask]
      exact ⟨⟨r', hr', rfl⟩, hq⟩
    exact ⟨fun p hp hs => (hin p hp hs).1, (byTask_iff hnodup).mp fun p hp hs => (hin p hp hs).2⟩
  · rintro ⟨hrecent, hlone⟩ x hx
    obtain ⟨p, hp, hlive, r, hr, rfl⟩ := mem_toShow.mp hx
    have hshows : db.Shows now tenant user p := ⟨hlive, by rw [hr]; rfl⟩
    obtain ⟨r', hr', hid⟩ := hrecent p hp hshows
    obtain ⟨hrow, -, -, hstate⟩ := waitingOf_eq_some.mp hr
    have heq : r' = r := hkeys.tasks.eq (mem_newest hr').1 (row_mem hrow)
      (hid.trans (row_key hrow).symm)
    subst heq
    have hmap := (byTask_iff hnodup).mpr hlone p hp hshows
    exact List.mem_filterMap.mpr ⟨r', hr', picked_eq_some.mpr ⟨hstate, p, hid ▸ hmap, hlive, rfl⟩⟩

/-- A task of the user that waits for an approval, and `n` tasks started after it. -/
def oneWaits (n : ℕ) : DB where
  tasks := (List.range (n + 1)).map fun k =>
    { id := k + 1, tenantID := 1, userID := "ann", conversationID := none, kind := .command,
      provider := .openAI, goal := "tidy up", state := if k = 0 then .awaitingApproval else
        .succeeded, deadline := 0, createdAt := k }
  devices := [⟨7, 1, "ann", "mac", "", "", "", "", ⟨1, 7, ""⟩⟩]
  approvals := [⟨"a", 7, 1, "c", .null, "run", 50⟩]

theorem oneWaits_keys (n : ℕ) : (oneWaits n).Keys where
  tasks := by
    refine List.pairwise_map.mpr (List.pairwise_map.mpr ?_)
    exact List.nodup_range.imp fun hne heq => hne (Nat.succ.inj heq)
  confirmations := List.nodup_nil
  events := List.nodup_nil
  events_lt := by simp [oneWaits]
  approvals := List.nodup_singleton _

/-- **The approvals shown on the phone.** For every state of the orchestrator's database and every
user the orchestrator lets in, `ListApprovals` answers; the answer is ordered by expiry, has no
approval twice and only approvals to be shown. It has exactly those that are stored and unexpired
for the user's tasks that wait for one if and only if these tasks are among the user's 100 newest,
and none of the approvals comes before another unexpired one of its task. -/
theorem approvals_complete (P : Params) (asked now : Time) (tenant : UUID) (user : String)
    (hkeys : db.Keys) (howner : parseOwner P (P.uuidText tenant) user = .ok (tenant, user)) :
    ∃ shown, listApprovals P db asked now tenant user = .ok shown ∧
      shown.Pairwise (fun a b => a.expireTime ≤ b.expireTime) ∧
      (shown.map ShownApproval.approvalID).Nodup ∧
      (∀ a ∈ shown, a ∈ db.toShow P asked now tenant user) ∧
      (shown.Perm (db.toShow P asked now tenant user) ↔
        db.Recent asked now tenant user ∧ db.Lone asked now tenant user) := by
  refine ⟨_, listApprovals_ok howner, ?_, ?_, fun a ha => ?_, ?_⟩
  · exact List.pairwise_insertionSort (fun a b : ShownApproval => a.expireTime ≤ b.expireTime) _
  · exact ((List.perm_insertionSort _ _).map _).nodup_iff.mpr (picked_keyed hkeys 100)
  · obtain ⟨r, hr, hpicked⟩ := List.mem_filterMap.mp (mem_orderBy.mp ha)
    exact mem_toShow_of_picked hkeys hr hpicked
  · have hperm := List.perm_insertionSort
      (fun a b : ShownApproval => a.expireTime ≤ b.expireTime)
      ((db.newest tenant user 100).filterMap (picked P db asked now))
    rw [← toShow_subset_iff (P := P) hkeys]
    unfold orderBy
    rw [hperm.congr_left, List.perm_ext_iff_of_nodup (picked_keyed hkeys 100).of_map
      (toShow_keyed hkeys).of_map]
    refine ⟨fun h x hx => (h x).mpr hx, fun h x => ⟨fun hx => ?_, h x⟩⟩
    obtain ⟨r, hr, hpicked⟩ := List.mem_filterMap.mp hx
    exact mem_toShow_of_picked hkeys hr hpicked

/-- The phone shows the approval of a task behind one newer task. -/
theorem approvals_complete_oneNewer : ∃ shown,
    listApprovals sample (oneWaits 1) 0 0 1 "ann" = .ok shown ∧
      shown.Perm ((oneWaits 1).toShow sample 0 0 1 "ann") := by
  obtain ⟨shown, hshown, -, -, -, hiff⟩ := approvals_complete sample 0 0 1 "ann" (oneWaits_keys 1)
    (by decide +kernel)
  exact ⟨shown, hshown, hiff.mpr ⟨by decide +kernel, by decide +kernel⟩⟩

/-- A task waits for an approval that expires at 50, and the user has 100 newer tasks: at 0 the
phone shows nothing. -/
theorem approvals_behind_newer :
    listApprovals sample (oneWaits 100) 0 0 1 "ann" = .ok [] ∧
      ((oneWaits 100).toShow sample 0 0 1 "ann").map ShownApproval.approvalID = ["a"] :=
  ⟨by decide +kernel, by decide +kernel⟩

end Jarvis.Orchestrator
