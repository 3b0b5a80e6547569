import Jarvis.Orchestrator.Trace
import Jarvis.Paging

/-!
# The outbox of notifications

Consumers claim notifications, complete them (also late), and lose their claims after a minute; new
notifications are added and old ones purged, all at any time.

`Outbox s tr` ties the rows to what was handed out: a row has as many attempts as it was handed out,
and its claim ends no earlier than any of those claims. `notification_outbox` reads off what
consumers see.
-/

namespace Jarvis.Orchestrator

open Interleave Table

variable {P : Params} {tr : List Ev} {e : Ev} {id : ℕ}

/-- The event hands out a notification. -/
def handsOut (id : ℕ) (e : Ev) : Bool :=
  match e.act with
  | ⟨.db (.claimNotifications ..), .ok ns⟩ => ns.any fun n => n.id = id
  | _ => false

/-- The event is a `CompleteNotifications` that completed a notification, or found it completed. -/
def Finishes (id : ℕ) (e : Ev) : Prop :=
  ∃ ids, e.act.1 = .db (.completeNotifications ids) ∧ id ∈ ids ∧
    ∃ n ∈ e.after.db.notifications, n.id = id ∧ n.doneAt ≠ none

/-- The event queues a notification, which gets this id. -/
def Adds (id : ℕ) (e : Ev) : Prop :=
  ∃ n, e.act.1 = .db (.addNotification n) ∧ e.before.db.nextNotification = id

/-! ## What a statement does -/

variable {db : DB}

section Statement

variable {locked : List ℕ} {now : Time}

/-- The rows that a claim may take. -/
def DB.due (locked : List ℕ) (now : Time) (n : NotificationRow) : Bool :=
  n.doneAt = none && (n.claimedUntil.all fun t => t < now) && n.attempts < 5 &&
    now - hour < n.createdAt && n.id ∉ locked

/-- A row that is claimed. -/
def NotificationRow.claim (consumer : String) (now : Time) (n : NotificationRow) :
    NotificationRow :=
  { n with
    claimedBy := some consumer, claimedUntil := some (now + minute), attempts := n.attempts + 1 }

/-- The rows after some are claimed. -/
def DB.mark (consumer : String) (now : Time) (claimed : List NotificationRow) (db : DB) : DB :=
  { db with
    notifications :=
      Table.set (fun n => n.id ∈ claimed.map fun n => n.id) (NotificationRow.claim consumer now)
      db.notifications }

/-- **What a claim does.** Some rows that are due, in the order of their ids, are handed out and
marked. -/
theorem claimNotifications_eq (locked : List ℕ) (now : Time) (consumer : String) (limit : ℕ)
    (hkeyed : Keyed (fun n : NotificationRow => n.id) db.notifications) : ∃ claimed :
    List NotificationRow,
      (Query.claimNotifications consumer limit minute 5 hour).exec locked now db =
        (.ok (claimed.map NotificationRow.toNotification), db.mark consumer now claimed) ∧
      (claimed.map fun n => n.id).Pairwise (· < ·) ∧
      ∀ n ∈ claimed, n ∈ db.notifications ∧ DB.due locked now n = true := by
  refine ⟨_, rfl, ?_, fun n hn => ?_⟩
  · have hcast : Keyed (fun n : NotificationRow => (n.id : ℤ)) db.notifications := by
      have hmap := List.Nodup.map (f := fun n : ℕ => (n : ℤ))
        (fun _ _ h => Int.natCast_inj.mp h) hkeyed
      rwa [List.map_map] at hmap
    have hpair := Keyed.pairwise_orderBy (hcast.sublist (List.filter_sublist.map _) :
      Keyed (fun n : NotificationRow => (n.id : ℤ)) (db.notifications.filter (DB.due locked now)))
    exact List.pairwise_map.mpr ((hpair.sublist (List.take_sublist _ _)).imp fun h => by
      exact_mod_cast h)
  · have hmem := List.mem_of_mem_take hn
    rw [mem_orderBy] at hmem
    exact List.mem_filter.mp hmem

theorem DB.due_iff : DB.due locked now n = true ↔
    n.doneAt = none ∧ (∀ t, n.claimedUntil = some t → t < now) ∧ n.attempts < 5 ∧
    now - hour < n.createdAt ∧
      n.id ∉ locked := by
  cases h : n.claimedUntil <;> simp [DB.due, h, and_assoc]

end Statement

/-! ## The invariant -/

/-- The rows, and what was handed out of them. -/
structure Outbox (db : DB) (tr : List Ev) : Prop where
  keyed : Keyed (fun n : NotificationRow => n.id) db.notifications
  next : ∀ n ∈ db.notifications, n.id < db.nextNotification
  added : ∀ n ∈ db.notifications, ∃ e ∈ tr, Adds n.id e ∧ e.before.now = n.createdAt
  /-- A row counts at least as many attempts as it was handed out. -/
  count : ∀ n ∈ db.notifications, tr.countP (handsOut n.id) ≤ n.attempts
  /-- Its claim ends no earlier than those with which it was handed out. -/
  claimed : ∀ n ∈ db.notifications, ∀ e ∈ tr, handsOut n.id e = true →
    ∃ t, n.claimedUntil = some t ∧ e.before.now + minute ≤ t
  done : ∀ n ∈ db.notifications, ∀ e ∈ tr, Finishes n.id e → n.doneAt ≠ none
  /-- What happened to a notification happened after it got its id. -/
  known : ∀ e ∈ tr, ∀ id, handsOut id e = true ∨ Finishes id e → id < db.nextNotification
  five : ∀ id, tr.countP (handsOut id) ≤ 5

/-- An event that is no claim hands out nothing. -/
theorem handsOut_of_ne (h : ∀ consumer limit d a m,
    e.act.1 ≠ .db (.claimNotifications consumer limit d a m)) : handsOut id e = false := by
  unfold handsOut
  split
  · rename_i hact
    exact absurd (congrArg Sigma.fst hact) (h _ _ _ _ _)
  · rfl

theorem not_finishes_of_ne (h : ∀ ids, e.act.1 ≠ .db (.completeNotifications ids)) :
    ¬ Finishes id e := by
  rintro ⟨ids, hact, -⟩
  exact h ids hact

variable {consumer : String} {limit maxAttempts : ℕ} {duration maxAge : Time}
  {ns : List Notification}

/-- **Rows that change and events that are neither claims nor completions.** -/
theorem Outbox.quiet (h : Outbox db tr) (hout : ∀ id, handsOut id e = false)
    (hfin : ∀ id, ¬ Finishes id e) (hrows : db'.notifications.Sublist db.notifications)
    (hnext : db'.nextNotification = db.nextNotification) :
    Outbox db' (e :: tr) where
  keyed := h.keyed.sublist (hrows.map _)
  next n hn := hnext ▸ h.next n (hrows.subset hn)
  added n hn := by
    obtain ⟨e', he', hadd⟩ := h.added n (hrows.subset hn)
    exact ⟨e', List.mem_cons_of_mem _ he', hadd⟩
  count n hn := by
    rw [List.countP_cons_of_neg (by simp [hout])]
    exact h.count n (hrows.subset hn)
  claimed n hn e' he' hh := by
    rcases List.mem_cons.mp he' with rfl | he'
    · rw [hout] at hh
      cases hh
    · exact h.claimed n (hrows.subset hn) e' he' hh
  done n hn e' he' hf := by
    rcases List.mem_cons.mp he' with rfl | he'
    · exact absurd hf (hfin _)
    · exact h.done n (hrows.subset hn) e' he' hf
  known e' he' id hh := by
    rcases List.mem_cons.mp he' with rfl | he'
    · rcases hh with hh | hf
      · rw [hout] at hh
        cases hh
      · exact absurd hf (hfin _)
    · exact hnext ▸ h.known e' he' id hh
  five id := by
    rw [List.countP_cons_of_neg (by simp [hout])]
    exact h.five id

/-- A new notification has an id that nothing has happened to. -/
theorem Outbox.add (h : Outbox db tr) (hact : e.act.1 = .db (.addNotification n))
    (hdb : e.before.db = db) : Outbox (DB.addNotification n e.before.now db).2 (e :: tr) := by
  have hout : ∀ id, handsOut id e = false := fun id => handsOut_of_ne (by simp [hact])
  have hfin : ∀ id, ¬ Finishes id e := fun id => not_finishes_of_ne (by simp [hact])
  have hold := h.quiet hout hfin (List.Sublist.refl _) rfl
  have hfresh : ∀ e' ∈ e :: tr, ¬ (handsOut db.nextNotification e' = true ∨
    Finishes db.nextNotification e') :=
    fun e' he' hh => Nat.lt_irrefl _ (hold.known e' he' _ hh)
  refine ⟨?_, fun x hx => ?_, fun x hx => ?_, fun x hx => ?_, fun x hx e' he' hh =>
    ?_, fun x hx e' he' hf => ?_,
    fun e' he' id hh => Nat.lt_succ_of_lt (hold.known e' he' id hh), hold.five⟩
  · refine Keyed.insert hold.keyed (row_eq_none.mpr fun x hx => ?_)
    exact Nat.ne_of_lt (hold.next x hx)
  all_goals rcases mem_insert.mp hx with hx | rfl
  · exact Nat.lt_succ_of_lt (hold.next x hx)
  · exact Nat.lt_succ_self _
  · exact hold.added x hx
  · exact ⟨e, List.mem_cons_self .., ⟨n, hact, by rw [hdb]⟩, rfl⟩
  · exact hold.count x hx
  · have hzero : (e :: tr).countP (handsOut db.nextNotification) = 0 :=
      List.countP_eq_zero.mpr fun e' he' hh => hfresh e' he' (.inl hh)
    exact hzero.le
  · exact hold.claimed x hx e' he' hh
  · exact absurd (.inl hh) (hfresh e' he')
  · exact hold.done x hx e' he' hf
  · exact absurd (.inr hf) (hfresh e' he')

/-- **A claim counts once for each notification it hands out**, and whatever claim there was has run
out. -/
theorem Outbox.claim {claimed : List NotificationRow} {locked : List ℕ} (h : Outbox db tr)
    (hclaimed : ∀ n ∈ claimed, n ∈ db.notifications ∧ DB.due locked e.before.now n = true)
    (hout : ∀ id, handsOut id e = true → id ∈ claimed.map fun n => n.id)
    (hfin : ∀ id, ¬ Finishes id e) :
    Outbox (db.mark consumer e.before.now claimed) (e :: tr) := by
  -- a row that is marked is one of those that are due
  have hdue : ∀ n ∈ db.notifications, n.id ∈ claimed.map (fun n => n.id) →
    DB.due locked e.before.now n = true := by
    intro n hn hid
    obtain ⟨m, hm, hmid⟩ := List.mem_map.mp hid
    rw [← h.keyed.eq (hclaimed m hm).1 hn hmid]
    exact (hclaimed m hm).2
  have hcount : ∀ id, (e :: tr).countP (handsOut id) ≤ tr.countP (handsOut id) + 1 := by
    intro id
    rw [List.countP_cons]
    split_ifs <;> omega
  have hkeep : ∀ id, id ∉ claimed.map (fun n => n.id) → handsOut id e = false := by
    intro id hid
    cases hh : handsOut id e with
    | false => rfl
    | true => exact absurd (hout id hh) hid
  refine ⟨h.keyed.set fun _ => rfl, ?_, ?_, ?_, ?_, ?_, fun e' he' id hh => ?_, fun id => ?_⟩
  · exact forall_mem_set h.next fun n hn _ => h.next n hn
  · have hadded : ∀ n ∈ db.notifications, ∃ e' ∈ e :: tr, Adds n.id e' ∧
      e'.before.now = n.createdAt := by
      intro n hn
      obtain ⟨e', he', hadd⟩ := h.added n hn
      exact ⟨e', List.mem_cons_of_mem _ he', hadd⟩
    exact forall_mem_set hadded fun n hn _ => hadded n hn
  · intro x hx
    obtain ⟨n, hn, rfl⟩ := mem_set.mp hx
    split_ifs with hc
    · exact (hcount n.id).trans (Nat.succ_le_succ (h.count n hn))
    · rw [List.countP_cons_of_neg (by simp [hkeep n.id (by simpa using hc)])]
      exact h.count n hn
  · intro x hx e' he' hh
    obtain ⟨n, hn, rfl⟩ := mem_set.mp hx
    split_ifs at hh ⊢ with hc
    · refine ⟨_, rfl, ?_⟩
      rcases List.mem_cons.mp he' with rfl | he'
      · exact le_rfl
      · obtain ⟨t, ht, hle⟩ := h.claimed n hn e' he' hh
        have hlt := (DB.due_iff.mp (hdue n hn (by simpa using hc))).2.1 t ht
        have hpos : (0 : ℤ) ≤ minute := by decide
        exact hle.trans (hlt.le.trans (Int.le_add_of_nonneg_right hpos))
    · rcases List.mem_cons.mp he' with rfl | he'
      · rw [hkeep n.id (by simpa using hc)] at hh
        cases hh
      · exact h.claimed n hn e' he' hh
  · intro x hx e' he' hf
    obtain ⟨n, hn, rfl⟩ := mem_set.mp hx
    have hid : (if decide (n.id ∈ claimed.map fun n => n.id) = true then
      n.claim consumer e.before.now else n).id = n.id := by
      split_ifs <;> rfl
    rw [hid] at hf
    have hdone : n.doneAt ≠ none := by
      rcases List.mem_cons.mp he' with rfl | he'
      · exact absurd hf (hfin _)
      · exact h.done n hn e' he' hf
    split_ifs <;> exact hdone
  · rcases List.mem_cons.mp he' with rfl | he'
    · rcases hh with hh | hf
      · obtain ⟨n, hn, rfl⟩ := List.mem_map.mp (hout id hh)
        exact h.next n (hclaimed n hn).1
      · exact absurd hf (hfin id)
    · exact h.known e' he' id hh
  · by_cases hid : id ∈ claimed.map fun n => n.id
    · obtain ⟨n, hn, rfl⟩ := List.mem_map.mp hid
      have hlt := (DB.due_iff.mp (hclaimed n hn).2).2.2.1
      have hle := h.count n (hclaimed n hn).1
      have := hcount n.id
      omega
    · rw [List.countP_cons_of_neg (by simp [hkeep id hid])]
      exact h.five id

/-- What is completed stays completed. -/
theorem Outbox.complete (h : Outbox db tr) (hact : e.act.1 = .db (.completeNotifications ids))
    (hdb : e.after.db = db ∨ e.after.db = (DB.completeNotifications ids e.before.now db).2) :
    Outbox e.after.db (e :: tr) := by
  have hout : ∀ id, handsOut id e = false := fun id => handsOut_of_ne (by simp [hact])
  have hkeyed : Keyed (fun n : NotificationRow => n.id) e.after.db.notifications := by
    rcases hdb with hdb | hdb <;> rw [hdb]
    · exact h.keyed
    · exact h.keyed.set fun _ => rfl
  have hnext : e.after.db.nextNotification = db.nextNotification := by
    rcases hdb with hdb | hdb <;> rw [hdb]
    rfl
  -- where a row comes from, and that it is completed if it was
  have hrow : ∀ x ∈ e.after.db.notifications, ∃ n ∈ db.notifications,
    x.toNotification = n.toNotification ∧
      x.claimedUntil = n.claimedUntil ∧ x.attempts = n.attempts ∧
        (n.doneAt ≠ none → x.doneAt ≠ none) := by
    intro x hx
    rcases hdb with hdb | hdb <;> rw [hdb] at hx
    · exact ⟨x, hx, rfl, rfl, rfl, fun h => h⟩
    · obtain ⟨n, hn, rfl⟩ := mem_set.mp hx
      refine ⟨n, hn, ?_⟩
      split_ifs
      · exact ⟨rfl, rfl, rfl, fun _ => by simp⟩
      · exact ⟨rfl, rfl, rfl, fun h => h⟩
  refine ⟨hkeyed, fun x hx => ?_, fun x hx => ?_, fun x hx => ?_, fun x hx e' he' hh =>
    ?_, fun x hx e' he' hf => ?_, fun e' he' id hh => ?_, fun id => ?_⟩
  · obtain ⟨n, hn, heq, -⟩ := hrow x hx
    rw [heq, hnext]
    exact h.next n hn
  · obtain ⟨n, hn, heq, -⟩ := hrow x hx
    rw [heq]
    obtain ⟨e', he', hadd⟩ := h.added n hn
    exact ⟨e', List.mem_cons_of_mem _ he', hadd⟩
  · obtain ⟨n, hn, heq, -, hatt, -⟩ := hrow x hx
    rw [heq, hatt, List.countP_cons_of_neg (by simp [hout])]
    exact h.count n hn
  · obtain ⟨n, hn, heq, huntil, -⟩ := hrow x hx
    rw [heq] at hh
    rw [huntil]
    rcases List.mem_cons.mp he' with rfl | he'
    · rw [hout] at hh
      cases hh
    · exact h.claimed n hn e' he' hh
  · rcases List.mem_cons.mp he' with rfl | he'
    · obtain ⟨-, -, -, y, hy, hid, hdone⟩ := hf
      rwa [hkeyed.eq hx hy hid.symm]
    · obtain ⟨n, hn, heq, -, -, hdone⟩ := hrow x hx
      rw [heq] at hf
      exact hdone (h.done n hn e' he' hf)
  · rw [hnext]
    rcases List.mem_cons.mp he' with rfl | he'
    · rcases hh with hh | ⟨-, -, -, x, hx, rfl, -⟩
      · rw [hout] at hh
        cases hh
      · obtain ⟨n, hn, heq, -⟩ := hrow x hx
        rw [heq]
        exact h.next n hn
    · exact h.known e' he' id hh
  · rw [List.countP_cons_of_neg (by simp [hout])]
    exact h.five id

/-- What a claim answers is what it hands out. -/
theorem mem_of_handsOut
    (h : handsOut id ⟨tid, job, did (.claimNotifications consumer limit duration maxAttempts maxAge)
      (.ok ns), before, after⟩ = true) :
    id ∈ ns.map Notification.id := by
  obtain ⟨n, hn, hid⟩ := List.any_eq_true.mp h
  exact List.mem_map.mpr ⟨n, hn, of_decide_eq_true hid⟩

/-- **Every event keeps the outbox.** -/
theorem Outbox.step (h : Outbox e.before.db tr) (hanswered : Answered e)
    (hdoes : Does P e.job ks e.act.1) : Outbox e.after.db (e :: tr) := by
  obtain ⟨tid, job, ⟨i, r⟩, before, after⟩ := e
  obtain ⟨o, ho⟩ := hanswered
  dsimp only at h hdoes ho ⊢
  -- a statement that leaves the rows alone, and is no claim and no completion
  have other (hclaim : ∀ consumer limit d a m, i ≠ .db (.claimNotifications consumer limit d a m))
      (hcomplete : ∀ ids, i ≠ .db (.completeNotifications ids))
      (hrows : after.db.notifications.Sublist before.db.notifications)
      (hnext : after.db.nextNotification = before.db.nextNotification) :
      Outbox after.db (⟨tid, job, ⟨i, r⟩, before, after⟩ :: tr) :=
    h.quiet (fun _ => handsOut_of_ne hclaim) (fun _ => not_finishes_of_ne hcomplete) hrows hnext
  by_cases hdb : ∃ q, i = .db q
  · obtain ⟨q, rfl⟩ := hdb
    rcases answer_db ho with ⟨rfl, rfl⟩ | ⟨locked, rfl, hr⟩
    · by_cases hcomplete : ∃ ids, q = .completeNotifications ids
      · obtain ⟨ids, rfl⟩ := hcomplete
        exact h.complete (e := ⟨tid, job, ⟨_, _⟩, _, _⟩) rfl (.inl rfl)
      · refine h.quiet (fun id => ?_) (fun id => not_finishes_of_ne fun ids hq =>
          hcomplete ⟨ids, ?_⟩)
          (List.Sublist.refl _) rfl
        · cases q <;> rfl
        · exact Instr.db.inj hq
    · by_cases hw : Tab.notifications ∈ q.writes
      · cases q with
        | claimNotifications consumer limit duration maxAttempts maxAge =>
          obtain ⟨rfl, rfl, rfl⟩ := hdoes.claimNotifications_inv
          obtain ⟨claimed, heq, -, hclaimed⟩ :=
            claimNotifications_eq locked before.now consumer limit h.keyed
          rw [heq] at hr ⊢
          refine h.claim (e := ⟨tid, job, ⟨_, r⟩, before, _⟩) hclaimed (fun id hid => ?_) fun id =>
            not_finishes_of_ne (by simp)
          rcases hr with rfl | rfl
          · have hmem := mem_of_handsOut hid
            rwa [List.map_map] at hmem
          · cases hid
        | completeNotifications ids =>
          exact h.complete (e := ⟨tid, job, ⟨_, r⟩, before, _⟩) rfl (.inr rfl)
        | addNotification n => exact h.add (e := ⟨tid, job, ⟨_, r⟩, before, _⟩) rfl rfl
        | purgeNotifications keep => exact other (by simp) (by simp) List.filter_sublist rfl
        | _ => simp [Query.writes] at hw
      · have hsame : before.db.Same (q.exec locked before.now before.db).2 .notifications :=
          Query.exec_same _ hw
        refine other (fun _ _ _ _ _ hq => hw ?_) (fun _ hq => hw ?_)
          (hsame.1 ▸ List.Sublist.refl _) hsame.2
        · cases hq
          exact List.mem_singleton.mpr rfl
        · cases hq
          exact List.mem_singleton.mpr rfl
  · have hsame : after.db = before.db := by
      rcases answer_db_eq ho with hsame | ⟨q, -, rfl, -⟩
      · exact hsame
      · exact absurd ⟨q, rfl⟩ hdb
    exact other (fun _ _ _ _ _ hi => hdb ⟨_, hi⟩) (fun _ hi => hdb ⟨_, hi⟩)
      (hsame ▸ List.Sublist.refl _)
      (by rw [hsame])

/-! ## Runs -/

theorem Lawful.outbox (h : Lawful P tr) : Outbox (dbOf tr) tr := by
  induction h with
  | nil =>
    exact ⟨List.nodup_nil, by simp [dbOf], by simp [dbOf], by simp [dbOf], by simp, by simp, by
      simp, by simp⟩
  | cons tail does answered db job ih => exact Outbox.step (db ▸ ih) answered does

/-- **What a claim hands out**: notifications in the order of their ids, which were queued less than
an hour ago, which nobody has completed, and of which no earlier claim still lasts. -/
theorem Lawful.claim (h : Lawful P (e :: tr))
    (hact : e.act = did (.claimNotifications consumer limit duration maxAttempts maxAge) (.ok ns)) :
    (ns.map Notification.id).Pairwise (· < ·) ∧ ∀ n ∈ ns,
      (∃ e₀ ∈ tr, Adds n.id e₀ ∧ e₀.before.now = n.createdAt) ∧ e.before.now < n.createdAt + hour ∧
      (∀ e' ∈ tr, ¬ Finishes n.id e') ∧
      ∀ e' ∈ tr, handsOut n.id e' = true → e'.before.now + minute < e.before.now := by
  cases h with
  | cons tail does answered db job =>
    have hbox : Outbox e.before.db tr := db ▸ tail.outbox
    obtain ⟨locked, -, hexec⟩ := answered.ok hact
    rw [hact] at does
    obtain ⟨rfl, rfl, rfl⟩ := does.claimNotifications_inv
    obtain ⟨claimed, heq, hsorted, hclaimed⟩ :=
      claimNotifications_eq locked e.before.now consumer limit hbox.keyed
    rw [heq] at hexec
    obtain rfl : claimed.map NotificationRow.toNotification = ns := Except.ok.inj hexec
    refine ⟨by rwa [List.map_map], fun n hn => ?_⟩
    obtain ⟨x, hx, rfl⟩ := List.mem_map.mp hn
    obtain ⟨hmem, hdue⟩ := hclaimed x hx
    obtain ⟨hopen, hfree, -, hage, -⟩ := DB.due_iff.mp hdue
    refine ⟨hbox.added x hmem, Int.lt_add_of_sub_right_lt hage, fun e' he' hf =>
      hbox.done x hmem e' he' hf hopen, fun e' he' hh => ?_⟩
    obtain ⟨t, ht, hle⟩ := hbox.claimed x hmem e' he' hh
    exact lt_of_le_of_lt hle (hfree t ht)

end Jarvis.Orchestrator
