import Jarvis.Orchestrator.Trace

/-!
# Confirmations

Nothing that is not read-only runs unless the user agreed to exactly that, in the conversation they
were asked in, in a turn after the question reached them.

A confirmation moves between conversations with the event that carries its question. The argument is
that an event moves only until it is acknowledged (`Lawful.heard`), that a confirmation has at most
one event (`Lawful.one_event`), and that the two are always in one conversation (`Lawful.home`); so
a turn recorded by `MarkAsked` is a turn of the conversation the confirmation is in
(`Lawful.asked`).
-/

namespace Jarvis.Orchestrator

open Interleave Engine Table

variable {P : Params} {tr : List Ev} {e : Ev} {id : UUID}

/-! ## What a statement does -/

variable {db : DB} {now : Time} {locked : List ℕ}

section Rows

variable {c c' : Confirmation} {q : Query}

section

variable (h : ConfirmationStep now db c q c')
include h

theorem ConfirmationStep.taskID_eq : c'.taskID = c.taskID := by
  cases h <;> rfl

theorem ConfirmationStep.callID_eq : c'.callID = c.callID := by
  cases h <;> rfl

theorem ConfirmationStep.action_eq : c'.action = c.action := by
  cases h <;> rfl

/-- No confirmation becomes pending again. -/
theorem ConfirmationStep.pending (hp : c'.state = .pending) : c.state = .pending := by
  cases h with
  | same => exact hp
  | @settle k turn confirm h => cases confirm <;> cases hp
  | markAsked | markCallAsked => exact hp
  | expire h => cases hp
  | reroute hs ht | carry he hu hc hs | cancel hr hc ht hs => exact hs

/-- A confirmation moves only while it is pending, with the event that carries it, which nobody has
heard. -/
theorem ConfirmationStep.moves :
    c'.conversationID = c.conversationID ∨ (∃ k payload, q = .addEvent k payload (some c.id)) ∨
      ∃ v ∈ db.events, v.confirmationID = some c.id ∧ v.ackedTurn = none := by
  cases h with
  | reroute hs ht => exact .inr (.inl ⟨_, _, rfl⟩)
  | carry he hu hc hs =>
    simp only [DB.unheard, Bool.and_eq_true, decide_eq_true_eq] at hu
    exact .inr (.inr ⟨_, he, hc, hu.1.2⟩)
  | _ => exact .inl rfl

end

variable {v v' : EventRow} {turn : ℤ}

theorem EventStep.confirmation_eq (h : EventStep now db v q v') :
    v'.confirmationID = v.confirmationID := by
  cases h <;> rfl

theorem EventStep.id_eq (h : EventStep now db v q v') : v'.id = v.id := by
  cases h <;> rfl

/-- A confirmation that was created is pending. -/
theorem createConfirmation_ok (h : ((Query.createConfirmation c).exec locked now db).1 = .ok ()) :
    db.confirmationRow c.id = none ∧
    ((Query.createConfirmation c).exec locked now db).2.confirmationRow
      c.id = some { c with state := .pending } := by
  simp only [Query.exec, DB.createConfirmation] at h ⊢
  split_ifs at h ⊢ with hc
  simp only [Bool.or_eq_true, not_or, Bool.not_eq_true, Option.isSome_eq_false_iff,
    Option.isNone_iff_eq_none] at hc
  have hn := hc.1.1.1
  refine ⟨hn, ?_⟩
  rw [DB.confirmationRow, row_insert, show row _ c.id db.confirmations = _ from hn, Option.none_or]
  exact if_pos rfl

/-- What `Settle` returns is the row it settled. -/
theorem settle_ok (hk : Keyed Confirmation.id db.confirmations)
    (h : ((Query.settle k id turn confirm).exec locked now db).1 = .ok c') :
    ∃ c, db.confirmationRow id = some c ∧ DB.settleable k id turn confirm now c = true ∧
      c' = { c with state := DB.settledState confirm } ∧
      ((Query.settle k id turn confirm).exec locked now db).2.confirmationRow id = some c' := by
  simp only [Query.exec, DB.settle] at h ⊢
  split at h
  · cases h
  · rename_i c hc
    cases h
    have hs := List.find?_some hc
    obtain rfl : c.id = id := (of_decide_eq_true hs).1
    have hrow : db.confirmationRow c.id = some c := hk.row_eq (List.mem_of_find?_eq_some hc)
    exact ⟨c, hrow, hs, rfl, row_set_pos (fun _ => rfl) hrow hs⟩

/-- What `AckEvent` returns is the confirmation of the event it acknowledged. -/
theorem ackEvent_ok (h : ((Query.ackEvent k n turn).exec locked now db).1 = .ok (some id)) :
    ∃ v ∈ db.events, v.id = n ∧ v.conversationID = k ∧ v.confirmationID = some id ∧
      { v with ackedTurn := some (v.ackedTurn.getD turn) } ∈
        ((Query.ackEvent k n turn).exec locked now db).2.events := by
  simp only [Query.exec, DB.ackEvent] at h ⊢
  cases hv : db.events.find? (DB.acks k n) with
  | none => rw [hv] at h; cases h
  | some v =>
    rw [hv] at h
    have ha := List.find?_some hv
    have hm := List.mem_of_find?_eq_some hv
    refine ⟨v, hm, (of_decide_eq_true ha).1, (of_decide_eq_true ha).2, Except.ok.inj h, ?_⟩
    exact mem_set.mpr ⟨v, hm, if_pos ha⟩

end Rows

/-! ## Each confirmation is created once and settled once -/

/-- The event created the confirmation. -/
def Creates (id : UUID) (e : Ev) : Prop :=
  ∃ c, e.act = did (.createConfirmation c) (.ok ()) ∧ c.id = id

/-- The event took the confirmation out of `pending`. -/
def Leaves (id : UUID) (e : Ev) : Prop :=
  ∃ c c', e.before.db.confirmationRow id = some c ∧ c.state = .pending ∧
    e.after.db.confirmationRow id = some c' ∧ c'.state ≠ .pending

namespace Lawful

/-- A confirmation stays, and does not become pending again. -/
theorem confirmation_later (h : Lawful P tr) (he : e ∈ tr)
    (hc : e.after.db.confirmationRow id = some c) : ∃ c', (dbOf tr).confirmationRow id = some c' ∧
      (c'.state = .pending → c.state = .pending) := by
  induction h with
  | nil => cases he
  | @cons x tr tail does answered db job ih =>
    rcases List.mem_cons.mp he with rfl | he
    · exact ⟨c, hc, fun hp => hp⟩
    · obtain ⟨c₁, hc₁, hp₁⟩ := ih he
      obtain ⟨c₂, hc₂, hs⟩ := answered.confirmation (db ▸ hc₁)
      refine ⟨c₂, hc₂, fun hp => hp₁ ?_⟩
      rcases hs with rfl | ⟨q, -, hs⟩
      · exact hp
      · exact hs.pending hp

theorem created_once (h : Lawful P tr) : tr.Pairwise fun e e' =>
    ¬ (Creates id e ∧ Creates id e') := by
  induction h with
  | nil => exact .nil
  | @cons x tr tail does answered db job ih =>
    refine .cons (fun e' he' => ?_) ih
    rintro ⟨⟨c, hc, rfl⟩, c', hc', hid⟩
    obtain ⟨locked, -, hok⟩ := answered.ok hc
    obtain ⟨l₁, l₂, rfl⟩ := List.append_of_mem he'
    cases tail.tail_of_append with
    | cons _ _ answered' _ _ =>
      obtain ⟨locked', hs', hok'⟩ := answered'.ok hc'
      have hrow := (createConfirmation_ok hok').2
      rw [← hs', hid] at hrow
      obtain ⟨c₁, hc₁, -⟩ := tail.confirmation_later he' hrow
      have hnone := (createConfirmation_ok hok).1
      rw [db, hc₁] at hnone
      cases hnone

/-- **Each confirmation leaves `pending` at most once.** -/
theorem leaves_once (h : Lawful P tr) : tr.Pairwise fun e e' => ¬ (Leaves id e ∧ Leaves id e') := by
  induction h with
  | nil => exact .nil
  | @cons x tr tail does answered db job ih =>
    refine .cons (fun e' he' => ?_) ih
    rintro ⟨⟨c, -, hc, hp, -, -⟩, -, c', -, -, hc', hp'⟩
    obtain ⟨c₁, hc₁, hp₁⟩ := tail.confirmation_later he' hc'
    rw [db, hc₁] at hc
    cases hc
    exact hp' (hp₁ hp)

/-- A confirmation is created by one event. -/
theorem creates_unique (h : Lawful P tr) (he : e ∈ tr) (he' : e' ∈ tr) (hc : Creates id e)
    (hc' : Creates id e') : e = e' := by
  have : Std.Symm fun e e' => ¬ (Creates id e ∧ Creates id e') := ⟨fun _ _ h h' => h h'.symm⟩
  by_contra hne
  exact h.created_once.forall he he' hne ⟨hc, hc'⟩

/-! ## Each confirmation has one event, in its conversation -/

variable {payload : Payload}

/-- The thread that tells of a confirmation created it. -/
theorem teller (h : Lawful P tr) (he : e ∈ tr)
    (ht : e.act.1 = .db (.addEvent k payload (some id))) :
    ∃ e' ∈ tr, e'.tid = e.tid ∧ Creates id e' := by
  induction h with
  | nil => cases he
  | @cons x tr tail does answered db job ih =>
    rcases List.mem_cons.mp he with rfl | he
    · rw [ht] at does
      obtain ⟨c, t, owner, hid, -, hks⟩ := does.tell_inv
      obtain ⟨e', he', htid, hact⟩ := event_of_keys (hks ▸ List.mem_cons_self ..)
      exact ⟨e', List.mem_cons_of_mem _ he', htid, c, hact, hid⟩
    · obtain ⟨e', he', h'⟩ := ih he
      exact ⟨e', List.mem_cons_of_mem _ he', h'⟩

/-- Nobody tells of a confirmation twice. -/
theorem tell_once (h : Lawful P (e :: tr)) (ht : e.act.1 = .db (.addEvent k payload (some id))) :
    ∀ x ∈ tr, ∀ k' payload', x.act.1 ≠ .db (.addEvent k' payload' (some id)) := by
  intro x hx k' payload' hx'
  cases h with
  | cons tail does answered db job =>
    rw [ht] at does
    obtain ⟨c, t, owner, hid, -, hks⟩ := does.tell_inv
    obtain ⟨e₁, he₁, ht₁, hact₁⟩ := event_of_keys (hks ▸ List.mem_cons_self ..)
    obtain ⟨e₂, he₂, ht₂, hc₂⟩ := tail.teller hx hx'
    obtain rfl := tail.creates_unique he₁ he₂ ⟨c, hact₁, hid⟩ hc₂
    have hmem := mem_keys hx (by rw [hx']; rfl)
    rw [← ht₂, ht₁, hks] at hmem
    rcases List.mem_pair.mp hmem with h | h <;> simp [h] at hx'

/-- Whatever event carries a confirmation, somebody told of it. -/
theorem told (h : Lawful P tr) (hv : v ∈ (dbOf tr).events) (hid : v.confirmationID = some id) :
    ∃ e ∈ tr, ∃ k payload, e.act.1 = .db (.addEvent k payload (some id)) := by
  induction h generalizing v with
  | nil => cases hv
  | @cons x tr tail does answered db job ih =>
    have lift : (∃ e ∈ tr, ∃ k payload, e.act.1 = .db (.addEvent k payload (some id))) →
        ∃ e ∈ x :: tr, ∃ k payload, e.act.1 = .db (.addEvent k payload (some id)) :=
      fun ⟨e, he, hk⟩ => ⟨e, List.mem_cons_of_mem _ he, hk⟩
    rcases answered.event hv with hv | ⟨v₀, hv₀, q, -, hs⟩ | ⟨k, payload, conf, hq, rfl⟩
    · exact lift (ih (db ▸ hv) hid)
    · exact lift (ih (db ▸ hv₀) (hs.confirmation_eq ▸ hid))
    · obtain rfl : conf = some id := hid
      exact ⟨x, List.mem_cons_self .., k, payload, hq⟩

/-- **A confirmation has at most one event.** -/
theorem one_event (h : Lawful P tr) (hv : v ∈ (dbOf tr).events) (hv' : v' ∈ (dbOf tr).events)
    (hid : v.confirmationID = some id) (hid' : v'.confirmationID = some id) : v = v' := by
  induction h generalizing v v' with
  | nil => cases hv
  | @cons x tr tail does answered db job ih =>
    have hx : Lawful P (x :: tr) := .cons tail does answered db job
    -- Either the event was there before, or it is new and then the only one.
    have old : ∀ w ∈ x.after.db.events, w.confirmationID = some id →
        (∃ w₀ ∈ (dbOf tr).events, w₀.confirmationID = some id ∧ w₀.id = w.id) ∨
        (∃ k payload, x.act.1 = .db (.addEvent k payload (some id)) ∧
          w = newEvent x.before.now x.before.db k payload (some id)) := by
      intro w hw hwid
      rcases answered.event hw with hw | ⟨w₀, hw₀, q, -, hs⟩ | ⟨k, payload, conf, hq, rfl⟩
      · exact .inl ⟨w, db ▸ hw, hwid, rfl⟩
      · exact .inl ⟨w₀, db ▸ hw₀, hs.confirmation_eq ▸ hwid, hs.id_eq.symm⟩
      · obtain rfl : conf = some id := hwid
        exact .inr ⟨k, payload, hq, rfl⟩
    have clash : ∀ w₀ ∈ (dbOf tr).events, w₀.confirmationID = some id → ∀ k payload,
        x.act.1 ≠ .db (.addEvent k payload (some id)) := by
      intro w₀ hw₀ hwid k payload hq
      obtain ⟨y, hy, k', payload', hy'⟩ := tail.told hw₀ hwid
      exact hx.tell_once hq y hy k' payload' hy'
    rcases old v hv hid with ⟨w, hw, hwid, hwi⟩ | ⟨k, payload, hq, rfl⟩
    · rcases old v' hv' hid' with ⟨w', hw', hwid', hwi'⟩ | ⟨k, payload, hq, rfl⟩
      · obtain rfl := ih hw hw' hwid hwid'
        exact hx.keys.events.eq hv hv' (hwi.symm.trans hwi')
      · exact absurd hq (clash w hw hwid k payload)
    · rcases old v' hv' hid' with ⟨w', hw', hwid', hwi'⟩ | ⟨k', payload', hq', rfl⟩
      · exact absurd hq (clash w' hw' hwid' k payload)
      · rw [hq] at hq'
        cases hq'
        rfl

end Lawful

/-- The events of confirmations are in their conversations. -/
def DB.Home (db : DB) : Prop :=
  ∀ v ∈ db.events, ∀ id, v.confirmationID = some id → ∃ c, db.confirmationRow id = some c ∧
    (c.state = .pending → v.conversationID = c.conversationID)

section Rows

/-- `AddEvent` takes a pending confirmation along to where it puts the event. -/
theorem addEvent_home (h : db.Home)
    (hconf : ∀ id, conf = some id → (∀ v ∈ db.events, v.confirmationID ≠ some id) ∧ ∃ c,
      db.confirmationRow id = some c ∧ c.conversationID = k) :
    ((Query.addEvent k payload conf).exec locked now db).2.Home := by
  simp only [Query.exec, DB.addEvent]
  split
  · exact h
  · intro v hv id hid
    rcases mem_insert.mp hv with hv | rfl
    · obtain ⟨c, hc, hcv⟩ := h v hv id hid
      refine ⟨c, ?_, hcv⟩
      dsimp only [DB.confirmationRow]
      split_ifs
      · exact hc
      · refine row_set_neg (fun _ => rfl) hc ?_
        have hne : some c.id ≠ conf := fun he =>
          (hconf id (he ▸ DB.confirmationRow_id hc ▸ rfl)).1 v hv hid
        simp [hne]
    · obtain ⟨c, hc, hk⟩ := (hconf id hid).2
      have hcid := DB.confirmationRow_id hc
      dsimp only [DB.confirmationRow]
      split_ifs with ht
      · exact ⟨c, hc, fun _ => ht.trans hk.symm⟩
      · by_cases hp : c.state = .pending
        · exact ⟨_, row_set_pos (fun _ => rfl) hc (decide_eq_true ⟨hcid ▸ hid.symm, hp⟩), fun _ =>
            rfl⟩
        · exact ⟨c, row_set_neg (fun _ => rfl) hc (by simp [hp]), fun hp' => absurd hp' hp⟩

/-- `CarryOverEvents` takes pending confirmations along with their events. -/
theorem carryOverEvents_home (h : db.Home)
    (hone : ∀ v ∈ db.events, ∀ v' ∈ db.events, ∀ id, v.confirmationID = some id →
      v'.confirmationID = some id → v = v') :
    ((Query.carryOverEvents k tenant user window).exec locked now db).2.Home := by
  simp only [Query.exec, DB.carryOverEvents]
  split
  · exact h
  · intro v' hv' id hid
    obtain ⟨v, hv, rfl⟩ := mem_set.mp hv'
    have hid : v.confirmationID = some id := by
      split_ifs at hid <;> exact hid
    obtain ⟨c, hc, hcv⟩ := h v hv id hid
    have hcid := DB.confirmationRow_id hc
    by_cases hp : c.state = .pending
    · by_cases hu : db.unheard k tenant user window now v = true
      · have hmem : some c.id ∈ (db.events.filter (db.unheard k tenant user window now)).map
            EventRow.confirmationID :=
          List.mem_map.mpr ⟨v, List.mem_filter.mpr ⟨hv, hu⟩, by rw [hid, hcid]⟩
        rw [if_pos hu]
        exact ⟨_, row_set_pos (fun _ => rfl) hc (decide_eq_true ⟨hmem, hp⟩), fun _ => rfl⟩
      · have hmem : some c.id ∉ (db.events.filter (db.unheard k tenant user window now)).map
            EventRow.confirmationID := by
          intro hm
          obtain ⟨w, hw, hwid⟩ := List.mem_map.mp hm
          obtain ⟨hw, hwu⟩ := List.mem_filter.mp hw
          rw [hone v hv w hw id hid (by rw [hwid, hcid])] at hu
          exact hu hwu
        rw [if_neg hu]
        exact ⟨c, row_set_neg (fun _ => rfl) hc (decide_eq_false fun h => hmem h.1), hcv⟩
    · exact ⟨c, row_set_neg (fun _ => rfl) hc (by simp [hp]), fun hp' => absurd hp' hp⟩

/-- No other statement moves an event or a confirmation. -/
theorem exec_home {q : Query} (h : db.Home) (ha : ∀ k payload conf, q ≠ .addEvent k payload conf)
    (hc : ∀ k tenant user window, q ≠ .carryOverEvents k tenant user window) :
    (q.exec locked now db).2.Home := by
  intro v' hv' id hid
  rcases Query.exec_event hv' with ⟨v, hv, hs⟩ | ⟨k, payload, conf, rfl, -⟩
  · obtain ⟨c, hrow, hcv⟩ := h v hv id (hs.confirmation_eq ▸ hid)
    obtain ⟨c', hrow', hs'⟩ := q.exec_confirmation locked now hrow
    refine ⟨c', hrow', fun hp => ?_⟩
    have hvc : v'.conversationID = v.conversationID := by
      cases hs with
      | carry => exact absurd rfl (hc _ _ _ _)
      | _ => rfl
    have hcc : c'.conversationID = c.conversationID := by
      cases hs' with
      | reroute => exact absurd rfl (ha _ _ _)
      | carry => exact absurd rfl (hc _ _ _ _)
      | _ => rfl
    rw [hvc, hcc]
    exact hcv (hs'.pending hp)
  · exact absurd rfl (ha _ _ _)

end Rows

namespace Lawful

/-- Until somebody tells of it, a confirmation stays where it was created. -/
theorem unmoved (h : Lawful P tr) (he : e ∈ tr) (hc : e.act = did (.createConfirmation c) (.ok ()))
    (hn : ∀ x ∈ tr, ∀ k payload, x.act.1 ≠ .db (.addEvent k payload (some c.id))) :
    ∃ c', (dbOf tr).confirmationRow c.id = some c' ∧ c'.conversationID = c.conversationID := by
  induction h with
  | nil => cases he
  | @cons x tr tail does answered db job ih =>
    rcases List.mem_cons.mp he with rfl | he
    · obtain ⟨locked, hs, hok⟩ := answered.ok hc
      refine ⟨{ c with state := .pending }, ?_, rfl⟩
      rw [dbOf, hs]
      exact (createConfirmation_ok hok).2
    · obtain ⟨c₁, hc₁, hk₁⟩ := ih he fun y hy => hn y (List.mem_cons_of_mem _ hy)
      obtain ⟨c₂, hc₂, hs⟩ := answered.confirmation (db ▸ hc₁)
      refine ⟨c₂, hc₂, ?_⟩
      rw [← hk₁]
      rcases hs with rfl | ⟨q, hq, hs⟩
      · rfl
      · have hid := DB.confirmationRow_id hc₁
        rcases hs.moves with hm | ⟨k, payload, rfl⟩ | ⟨v, hv, hvid, -⟩
        · exact hm
        · exact absurd (hid ▸ hq) (hn x (List.mem_cons_self ..) k payload)
        · obtain ⟨y, hy, k, payload, hy'⟩ := tail.told (db ▸ hv) (hid ▸ hvid)
          exact absurd hy' (hn y (List.mem_cons_of_mem _ hy) k payload)

/-- **A pending confirmation is where its event is.** -/
theorem home (h : Lawful P tr) : (dbOf tr).Home := by
  induction h with
  | nil => intro v hv; cases hv
  | @cons x tr tail does answered db job ih =>
    have hx : Lawful P (x :: tr) := .cons tail does answered db job
    rcases answered.effect with hs | ⟨q, locked, hq, hs⟩
    · rw [dbOf, hs, db]
      exact ih
    · rw [dbOf, hs, db]
      by_cases ha : ∃ k payload conf, q = .addEvent k payload conf
      · obtain ⟨k, payload, conf, rfl⟩ := ha
        refine addEvent_home ih fun id hconf => ?_
        subst hconf
        have hn := hx.tell_once hq
        rw [hq] at does
        obtain ⟨c, t, owner, rfl, rfl, hks⟩ := does.tell_inv
        obtain ⟨e', he', -, hact⟩ := event_of_keys (hks ▸ List.mem_cons_self ..)
        refine ⟨fun v hv hid => ?_, tail.unmoved he' hact hn⟩
        obtain ⟨y, hy, k, payload, hy'⟩ := tail.told hv hid
        exact hn y hy k payload hy'
      · by_cases hc : ∃ k tenant user window, q = .carryOverEvents k tenant user window
        · obtain ⟨k, tenant, user, window, rfl⟩ := hc
          exact carryOverEvents_home ih fun v hv v' hv' id => tail.one_event hv hv'
        · exact exec_home ih (fun k payload conf hq => ha ⟨k, payload, conf, hq⟩)
            fun k tenant user window hq => hc ⟨k, tenant, user, window, hq⟩

end Lawful

/-! ## Acknowledgements -/

/-- The event put the confirmation into the conversation it is in: it created it or moved it. -/
def Puts (id : UUID) (e : Ev) : Prop :=
  (e.after.db.confirmationRow id).map Confirmation.conversationID ≠
    (e.before.db.confirmationRow id).map Confirmation.conversationID

/-- The event acknowledged, in turn `a` of conversation `k`, the question of a confirmation. -/
inductive Acknowledges (id k : UUID) (a : ℤ) (e : Ev) : Prop
  /-- The output of the call that asked it was heard, and the turn was recorded. -/
  | call {callID : String} {c : Confirmation} (job : e.job = .ackToolOutput k callID a)
      (act : e.act.1 = .db (.markCallAsked k callID a))
      (row : e.before.db.confirmationRow id = some c) (conversation : c.conversationID = k)
      (task : c.taskID = none) (callID_eq : c.callID = callID) (unasked : c.askedTurn = none)
      (asked : e.after.db.confirmationRow id = some { c with askedTurn := some a })
  /-- The event that carries it was heard. -/
  | event {v : EventRow} (job : e.job = .ackEvent k v.id a)
      (act : e.act = did (.ackEvent k v.id a) (.ok (some id))) (row : v ∈ e.before.db.events)
      (conversation : v.conversationID = k) (confirmation : v.confirmationID = some id)

/-- The question of the confirmation was acknowledged in turn `a` of conversation `k`, and the
confirmation has not been moved since. -/
def Asked (tr : List Ev) (id k : UUID) (a : ℤ) : Prop :=
  ∃ l e l', tr = l ++ e :: l' ∧ Acknowledges id k a e ∧ ∀ x ∈ l, ¬ Puts id x

theorem Asked.cons (h : Asked tr id k a) (hx : ¬ Puts id x) :
    Asked (x :: tr) id k a := by
  obtain ⟨l, e, l', rfl, he, hl⟩ := h
  exact ⟨x :: l, e, l', rfl, he, by simpa using ⟨hx, hl⟩⟩

theorem not_puts (hc : x.before.db.confirmationRow id = some c)
    (hc' : x.after.db.confirmationRow id = some c') (hk : c'.conversationID = c.conversationID) :
    ¬ Puts id x := by
  simp [Puts, hc, hc', hk]

namespace Lawful

variable {k : UUID} {a : ℤ}

/-- An event that was acknowledged carried its confirmation. -/
theorem acknowledges (h : Lawful P (e :: tr))
    (hact : e.act = did (.ackEvent k n a) (.ok (some id))) : Acknowledges id k a e := by
  cases h with
  | cons _ does answered _ _ =>
    obtain ⟨locked, -, hok⟩ := answered.ok hact
    obtain ⟨v, hv, rfl, hk, hid, -⟩ := ackEvent_ok hok
    rw [hact] at does
    exact .event does.ackEvent_inv hact hv hk hid

/-- **Once its event is acknowledged, a confirmation does not move.** -/
theorem heard (h : Lawful P (l ++ e :: l')) (hact : e.act = did (.ackEvent k n a) (.ok (some id))) :
    (∃ v ∈ (dbOf (l ++ e :: l')).events, v.confirmationID = some id ∧ v.conversationID = k ∧
      v.ackedTurn ≠ none) ∧ ∀ x ∈ l, ¬ Puts id x := by
  induction l with
  | nil =>
    refine ⟨?_, by simp⟩
    cases h with
    | cons _ _ answered _ _ =>
      obtain ⟨locked, hs, hok⟩ := answered.ok hact
      obtain ⟨v, -, -, hk, hid, hv⟩ := ackEvent_ok hok
      rw [← hs] at hv
      exact ⟨_, hv, hid, hk, by simp⟩
  | cons x l ih =>
    have hx : Lawful P (x :: (l ++ e :: l')) := h
    cases h with
    | cons tail _ answered db _ =>
      obtain ⟨⟨v, hv, hid, hk, hacked⟩, hl⟩ := ih tail
      -- The acknowledged event stays as it is.
      have hstays : ∃ v' ∈ x.after.db.events, v'.confirmationID = some id ∧
          v'.conversationID = k ∧ v'.ackedTurn ≠ none := by
        obtain ⟨v', hv', rfl | ⟨q, -, hs⟩⟩ := answered.event_stays (db ▸ hv)
        · exact ⟨v', hv', hid, hk, hacked⟩
        · refine ⟨v', hv', hs.confirmation_eq ▸ hid, ?_⟩
          cases hs with
          | same => exact ⟨hk, hacked⟩
          | carry hu =>
            simp only [DB.unheard, Bool.and_eq_true, decide_eq_true_eq] at hu
            exact absurd hu.1.2 hacked
          | ack ha => exact ⟨hk, by simp⟩
      refine ⟨hstays, ?_⟩
      intro y hy
      rcases List.mem_cons.mp hy with rfl | hy
      · obtain ⟨c, hc, -⟩ := tail.home v hv id hid
        obtain ⟨c', hc', hs⟩ := answered.confirmation (db ▸ hc)
        refine not_puts (db ▸ hc) hc' ?_
        rcases hs with rfl | ⟨q, hq, hs⟩
        · rfl
        · have hcid := DB.confirmationRow_id hc
          rcases hs.moves with hm | ⟨k', payload, rfl⟩ | ⟨w, hw, hwid, hwacked⟩
          · exact hm
          · obtain ⟨z, hz, k₂, payload₂, hz'⟩ := tail.told hv hid
            exact absurd hz' (hx.tell_once (hcid ▸ hq) z hz k₂ payload₂)
          · have hwv : w = v := tail.one_event (db ▸ hw) hv (hcid ▸ hwid) hid
            exact absurd (hwv ▸ hwacked) hacked
      · exact hl y hy

/-- **A recorded turn is the turn of an acknowledgement** in the conversation a pending confirmation
is in, since it came there. -/
theorem asked (h : Lawful P tr) (hc : (dbOf tr).confirmationRow id = some c)
    (hp : c.state = .pending) (ha : c.askedTurn = some a) : Asked tr id c.conversationID a := by
  induction h generalizing c with
  | nil => cases hc
  | @cons x tr tail does answered db job ih =>
    cases hrow : (dbOf tr).confirmationRow id with
    | none =>
      rcases answered.no_confirmation (db ▸ hrow) with hn | ⟨c₀, hq, -, -, hc₀⟩
      · rw [dbOf, hn] at hc
        cases hc
      · -- A new confirmation has not been asked.
        rw [dbOf, hc₀] at hc
        cases hc
        rw [hq] at does
        rw [does.createConfirmation_inv.1] at ha
        cases ha
    | some c₀ =>
      obtain ⟨c', hc', hs⟩ := answered.confirmation (db ▸ hrow)
      obtain rfl : c' = c := Option.some.inj (hc'.symm.trans hc)
      have hcid := DB.confirmationRow_id hrow
      rcases hs with rfl | ⟨q, hq, hs⟩
      · exact (ih hrow hp ha).cons (not_puts (db ▸ hrow) hc' rfl)
      · cases hs with
        | same => exact (ih hrow hp ha).cons (not_puts (db ▸ hrow) hc' rfl)
        | @settle _ _ confirm _ => cases confirm <;> cases hp
        | @markAsked turn =>
          have hnp : ¬ Puts id x := not_puts (c := c₀) (db ▸ hrow) hc' rfl
          cases hold : c₀.askedTurn with
          | some a₀ =>
            simp only [DB.asked, hold, Option.getD_some, Option.some.injEq] at ha
            exact (ih hrow hp (ha ▸ hold)).cons hnp
          | none =>
            simp only [DB.asked, hold, Option.getD_none, Option.some.injEq] at ha
            subst ha
            -- The thread had the event acknowledged, and the confirmation has not moved.
            rw [hq] at does
            obtain ⟨k, n, hj, hks⟩ := does.markAsked_inv
            obtain ⟨e, he, htid, hact⟩ := event_of_keys (hks ▸ List.mem_cons_self ..)
            rw [hcid] at hact
            obtain ⟨l, l', rfl⟩ := List.append_of_mem he
            obtain ⟨⟨v, hv, hvid, hvk, -⟩, hl⟩ := tail.heard hact
            obtain ⟨c₁, hc₁, hhome⟩ := tail.home v hv id hvid
            obtain rfl : c₁ = c₀ := Option.some.inj (hc₁.symm.trans hrow)
            have hk : (DB.asked turn c₁).conversationID = k := (hhome hp).symm.trans hvk
            rw [hk]
            exact Asked.cons ⟨l, e, l', rfl, tail.tail_of_append.acknowledges hact, hl⟩ hnp
        | @markCallAsked k callID turn hb =>
          have hb := of_decide_eq_true hb
          cases hold : c₀.askedTurn with
          | some a₀ =>
            simp only [DB.asked, hold, Option.getD_some, Option.some.injEq] at ha
            exact (ih hrow hp (ha ▸ hold)).cons (not_puts (c := c₀) (db ▸ hrow) hc' rfl)
          | none =>
            simp only [DB.asked, hold, Option.getD_none, Option.some.injEq] at ha
            subst ha
            rw [hq] at does
            refine ⟨[], x, tr, rfl, ?_, by simp⟩
            rw [show (DB.asked turn c₀).conversationID = k from hb.1]
            have hasked : DB.asked turn c₀ = { c₀ with askedTurn := some turn } := by
              rw [DB.asked, hold, Option.getD_none]
            exact .call does.markCallAsked_inv hq (db ▸ hrow) hb.1 hb.2.2 hb.2.1 hold (hasked ▸ hc')
        | expire hb => cases hp
        | reroute | carry => cases ha
        | cancel hr hb ht hs => cases hp

/-- A confirmation leaves `pending` by one event. -/
theorem leaves_unique (h : Lawful P tr) (he : e ∈ tr) (he' : e' ∈ tr) (hl : Leaves id e)
    (hl' : Leaves id e') : e = e' := by
  have : Std.Symm fun e e' => ¬ (Leaves id e ∧ Leaves id e') := ⟨fun _ _ h h' => h h'.symm⟩
  by_contra hne
  exact h.leaves_once.forall he he' hne ⟨hl, hl'⟩

/-- What a thread settled. -/
theorem settled (h : Lawful P (e :: tr)) (hact : e.act = did (.settle k id a confirm) (.ok c')) :
    ∃ c, e.before.db.confirmationRow id = some c ∧
      DB.settleable k id a confirm e.before.now c = true ∧
      c' = { c with state := DB.settledState confirm } ∧
      e.after.db.confirmationRow id = some c' := by
  cases h with
  | cons tail _ answered db _ =>
    obtain ⟨locked, hs, hok⟩ := answered.ok hact
    rw [hs]
    exact settle_ok (db ▸ tail.keys.confirmations) hok

end Lawful

/-- The event called a tool with what a confirmation holds. -/
def Runs (id : UUID) (e : Ev) : Prop :=
  ∃ conf tenant user iid tool args, e.act.1 = .mcpCall (.confirmed conf) tenant user iid tool args ∧
    conf.id = id

/-- The user agreed to a call: a `CallTool` in conversation `k` and turn `t`, which makes the call
`e` after the events `past`, has settled a confirmation `conf` that held exactly this call, was in
`k`, pending and unexpired, and whose question had been acknowledged in `k` in an earlier turn. -/
def Agreed (P : Params) (e : Ev) (past : List Ev) (conf : Confirmation) (iid tool args : String) :
    Prop :=
  ∃ k callID name args' t, e.job = .callTool k callID name args' t ∧
    ∃ l s l', past = l ++ s :: l' ∧ s.tid = e.tid ∧
      s.act = did (.settle k conf.id t true) (.ok conf) ∧
    (∃ c, s.before.db.confirmationRow conf.id = some c ∧ c.state = .pending ∧ c.conversationID = k ∧
      s.before.now < c.expiresAt ∧ conf = { c with state := .confirmed }) ∧
    s.after.db.confirmationRow conf.id = some conf ∧
    (∃ a, decodeAction P conf.action = some a ∧ a.integrationID = iid ∧ a.tool = tool ∧
      callArguments a.arguments = args) ∧
    ∃ a < t, Asked l' conf.id k a

namespace Lawful

/-- A tool that is not read-only is called only when the user agreed. -/
theorem agreed (h : Lawful P (e :: tr))
    (hact : e.act.1 = .mcpCall cause tenant user iid tool args) :
    (∃ target, cause = .tool target ∧ target.readOnly = true ∧ target.integrationID = iid ∧
      target.tool = tool) ∨ ∃ conf, cause = .confirmed conf ∧ Agreed P e tr conf iid tool args := by
  cases h with
  | cons tail does answered db job =>
    rw [hact] at does
    rcases does.mcpCall_inv with hr | ⟨k, callID, name, args', t, id, conf, a, hc, hj, hks, ha⟩
    · exact .inl hr
    · obtain ⟨s, hs, htid, hsact⟩ := event_of_keys (hks ▸ List.mem_cons_self ..)
      obtain ⟨l, l', rfl⟩ := List.append_of_mem hs
      have hsl : Lawful P (s :: l') := tail.tail_of_append
      obtain ⟨c, hrow, hset, hconf, hafter⟩ := hsl.settled hsact
      obtain rfl : conf.id = id := DB.confirmationRow_id hafter
      obtain ⟨-, hk, hp, hexp, hasked⟩ := of_decide_eq_true hset
      obtain ⟨turn, hturn, hlt⟩ := (Option.any_eq_true ..).mp (hasked.resolve_left (by simp))
      refine .inr ⟨conf, hc, k, callID, name, args', t, hj, l, s, l', rfl, htid, hsact,
        ⟨c, hrow, hp, hk, hexp, hconf⟩, hafter, ⟨a, ha⟩, turn, of_decide_eq_true hlt, ?_⟩
      cases hsl with
      | cons tail' _ _ db' _ =>
        rw [← hk]
        exact tail'.asked (db' ▸ hrow) hp hturn

/-- The thread that carries out a confirmation has done nothing but settle it. -/
theorem runs_settled (h : Lawful P (e :: tr)) (hr : Runs id e) : ∃ s ∈ tr, s.tid = e.tid ∧
    Leaves id s ∧ ∃ k turn, s.act.1 = .db (.settle k id turn true) ∧
      Orchestrator.keys (pastOf e.tid tr) = [s.act] := by
  obtain ⟨conf, tenant, user, iid, tool, args, hact, rfl⟩ := hr
  cases h with
  | cons tail does answered db job =>
    rw [hact] at does
    rcases does.mcpCall_inv with ⟨target, hc, -⟩ | ⟨k, -, -, -, t, id, conf', a, hc, -, hks, -⟩
    · cases hc
    · cases hc
      obtain ⟨s, hs, htid, hsact⟩ := event_of_keys (hks ▸ List.mem_cons_self ..)
      obtain ⟨l, l', rfl⟩ := List.append_of_mem hs
      obtain ⟨c, hrow, hset, hconf, hafter⟩ := Lawful.settled tail.tail_of_append hsact
      obtain rfl : conf.id = id := DB.confirmationRow_id hafter
      refine ⟨s, hs, htid, ⟨c, conf, hrow, (of_decide_eq_true hset).2.2.1, hafter, ?_⟩, k, t,
        ?_, ?_⟩
      · rw [hconf]
        simp [DB.settledState]
      · rw [hsact]
      · rw [hks, hsact]

/-- **Each confirmation is carried out at most once.** -/
theorem runs_once (h : Lawful P tr) : tr.Pairwise fun e e' => ¬ (Runs id e ∧ Runs id e') := by
  induction h with
  | nil => exact .nil
  | @cons x tr tail does answered db job ih =>
    refine .cons (fun e' he' => ?_) ih
    rintro ⟨hr, hr'⟩
    obtain ⟨s, hs, htid, hleaves, k, turn, hact, hks⟩ :=
      runs_settled (.cons tail does answered db job) hr
    -- An earlier execution would have been in the same thread, which has only settled.
    have hsame : e'.tid = x.tid := by
      obtain ⟨l, l', rfl⟩ := List.append_of_mem he'
      obtain ⟨s', hs', htid', hleaves', -⟩ := tail.tail_of_append.runs_settled hr'
      have hs' : s' ∈ l ++ e' :: l' := List.mem_append_right _ (List.mem_cons_of_mem _ hs')
      rw [← htid, ← htid', tail.leaves_unique hs hs' hleaves hleaves']
    obtain ⟨conf, tenant, user, iid, tool, args, hact', -⟩ := hr'
    have hmem := mem_keys he' (by rw [hact']; rfl)
    rw [hsame, hks, List.mem_singleton] at hmem
    rw [hmem, hact] at hact'
    cases hact'

end Lawful

/-- **Confirmation safety.** In every run, whenever a tool is called, it is a read-only one, or the
user agreed to exactly this call; and each confirmation leaves `pending` at most once and is carried
out at most once. -/
theorem action_confirmed {c : Cfg} (h : Reachable P c) :
    (∀ later e past, c.trace = later ++ e :: past →
      ∀ cause tenant user iid tool args, e.act.1 = .mcpCall cause tenant user iid tool args →
        (∃ target, cause = .tool target ∧ target.readOnly = true ∧ target.integrationID = iid ∧
          target.tool = tool) ∨
        ∃ conf, cause = .confirmed conf ∧ Agreed P e past conf iid tool args) ∧
    (∀ id, c.trace.Pairwise fun e e' => ¬ (Leaves id e ∧ Leaves id e')) ∧
    ∀ id, c.trace.Pairwise fun e e' => ¬ (Runs id e ∧ Runs id e') := by
  have hl : Lawful P c.trace := h.lawful.1
  refine ⟨fun later e past htr cause tenant user iid tool args hact => ?_,
    fun id => hl.leaves_once, fun id => hl.runs_once⟩
  rw [htr] at hl
  exact hl.tail_of_append.agreed hact

/-- The assistant asks for an action in turn 1 (thread 4), the question is heard (thread 5), and the
user agrees in turn 2 (thread 6). -/
def confirmedRun : List Lbl :=
  opening ++ [.request 0 (.callTool 5 "c1" "mail__send" "\x7b\"to\":\"bob\"\x7d" 1)] ++
    commits 4 3 ++
  [.exec 4 (.uuid 7), .exec 4 (.time 0)] ++ commits 4 1 ++ [.exec 4 .through] ++ commits 4 1 ++
  [.request 0 (.ackToolOutput 5 "c1" 1)] ++ commits 5 2 ++
  [.request 0 (.callTool 5 "c2" "confirm_action"
    "\x7b\"confirmation_id\":\"00000000-0000-0000-0000-000000000007\"\x7d" 2)] ++ commits 6 4 ++
  [.exec 6 .through, .exec 6 (.mcp (.ok ⟨[], "", false, false⟩))]

/-- The event carries out a confirmation. -/
def runsAction (e : Ev) : Bool :=
  match e.act.1 with
  | .mcpCall (.confirmed _) .. => true
  | _ => false

/-- The mail is sent once the user has agreed. -/
theorem action_confirmed_run : ∃ c e past conf iid tool args, Reachable sample c ∧
    e ∈ c.trace ∧ runsAction e = true ∧ Agreed sample e past conf iid tool args := by
  have hrun : (((machine sample).run anything start confirmedRun).any fun c =>
    c.trace.any runsAction) = true := by
    decide +kernel
  obtain ⟨c, hc, hany⟩ := reachable_of_run hrun
  obtain ⟨e, he, hruns⟩ := List.any_eq_true.mp hany
  obtain ⟨later, past, htr⟩ := List.append_of_mem he
  have hruns' := hruns
  unfold runsAction at hruns'
  split at hruns'
  · rename_i conf tenant user iid tool args hact
    rcases (action_confirmed hc).1 later e past htr _ _ _ _ _ _ hact with ⟨target, ht, -⟩ |
      ⟨conf', hconf, ha⟩
    · cases ht
    · exact ⟨c, e, past, conf', iid, tool, args, hc, he, hruns, ha⟩
  · cases hruns'

end Jarvis.Orchestrator
