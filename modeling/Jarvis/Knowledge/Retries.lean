import Jarvis.Knowledge.Entities

/-!
# The knowledge service: calls that fail and are retried

Calls of one owner are made one at a time. A call may fail between any two of its queries, and is
then made again until it succeeds. Whenever nothing is left to be retried, the points are those of
the entities in the graph (`retries_converge`), unless the deletion of a source has failed between
its transaction, which deleted an entity, and the deletion of the entity's point: what is to be
deleted is known only to the call that deleted the node, and the one that is made again finds
nothing to delete (`point_left_behind`).

A key for which the stores do not agree is one that a call still deals with (`Local.Ahead`), or that
a failed call will deal with when it is made again (`Covers`).
-/

namespace Jarvis.Knowledge

open Steps
open Text (ofString)

/-- At most so many queries of a call. -/
def attempt (c : Config) (now : Time) : ℕ → Stores → Local → Pool.Outcome Stores Local Reply
  | 0, s, t => .more s t
  | n + 1, s, t =>
    match next c s now t with
    | .more s t => attempt c now n s t
    | .done s r => .done s r

/-- What every query keeps, and what the last one makes of it. -/
theorem attempt_inv {P : Stores → Local → Prop} {Q : Stores → Prop}
    (hmore : ∀ s t s' t', P s t → next c s now t = .more s' t' → P s' t')
    (hdone : ∀ s t s' r, P s t → next c s now t = .done s' r → Q s') (h : P s t) :
    (∀ s' t', attempt c now n s t = .more s' t' → P s' t') ∧
      ∀ s' r, attempt c now n s t = .done s' r → Q s' := by
  induction n generalizing s t with
  | zero =>
    refine ⟨fun s' t' heq => ?_, fun s' r heq => ?_⟩
    · cases heq
      exact h
    · cases heq
  | succ n ih =>
    cases hnext : next c s now t with
    | more s₁ t₁ =>
      rw [attempt, hnext]
      exact ih (hmore s t s₁ t₁ h hnext)
    | done s₁ r₁ =>
      rw [attempt, hnext]
      refine ⟨fun s' t' heq => ?_, fun s' r heq => ?_⟩
      · cases heq
      · cases heq
        exact hdone s t s₁ r₁ h hnext

/-- An attempt of a call, and after how many queries it fails, if it has not replied by then. -/
structure Attempt where
  call : Call
  queries : ℕ
  deriving DecidableEq

structure Retrying where
  stores : Stores := {}
  /-- What has failed and has not succeeded since. -/
  pending : List Request := []
  deriving DecidableEq

/-- A request that is made again if it fails. -/
def Request.changes : Request → Bool
  | .upsertKnowledge _ | .deleteSource .. | .deleteEntity .. | .deleteUserKnowledge .. => true
  | .retrieve _ | .getEntity .. => false

/-- One attempt; the calls that change something are those of the owner. -/
def retry (c : Config) (owner : Owner) (s : Retrying) (a : Attempt) : Option Retrying :=
  match plan c.library a.call.request with
  | .error _ => some s
  | .ok t =>
    if t.owner?.all (· = owner) then
      match attempt c a.call.now a.queries s.stores t with
      | .done stores _ => some { stores, pending := s.pending.filter (· ≠ a.call.request) }
      | .more stores _ => some {
          stores
          pending := if a.call.request.changes then a.call.request :: s.pending else s.pending }
    else none

/-- The deletion of a source does not fail between deleting an entity and deleting its point. -/
def orderly (c : Config) (s : Retrying) (a : Attempt) : Bool :=
  match plan c.library a.call.request with
  | .error _ => true
  | .ok t =>
    match attempt c a.call.now a.queries s.stores t with
    | .more stores (.deletePoints owner keys (.sourceDeleted ..)) =>
      keys.all fun k => (pointAt c.library owner k stores.points).isNone
    | _ => true

/-- The keys of the entities that have a point. -/
def pointKeys (owner : Owner) (points : Points) : List Text :=
  points.filterMap fun p =>
    match p.payload with
    | .entity e => if p.owner = owner then some e.key else none
    | .passage _ => none

/-- The keys of the entities in the graph. -/
def nodeKeys (owner : Owner) (g : Graph) : List Text :=
  g.nodes.filterMap fun n => if n.owner = owner then some n.key else none

variable {c : Config} {L : Library} {owner : Owner} {s s' : Stores} {t t' : Local}
  {now : Time} {k : Text}
  {used : Set Text}

/-! ### What a call deals with -/

/-- The call will deal with the entity. -/
def Local.Ahead (k : Text) : Local → Prop
  | .upsertGraph u => HasKey k u.entities
  | .upsertEntities _ stored _ => ∃ e ∈ stored, e.key = k
  | .deletePoints _ keys _ => k ∈ keys
  | .deleteEntity _ key => key = k
  | t => t.sweeps = true

/-- Whether the call deletes a source. -/
def Local.forgets : Local → Bool
  | .countSource _ _ | .deleteSource _ _ _ | .forgetSource _ _ _ => true
  | .deletePoints _ _ (.sourceDeleted ..) => true
  | _ => false

/-- What a call is about to write is what the graph says; and while everything of an owner is
deleted, no node is forgotten. -/
def Fresh (L : Library) (owner : Owner) (s : Stores) : Local → Prop
  | .deleteNodes _ _ found => ∀ k, (nodeAt owner k s.graph).isSome = true → ⟨owner, k⟩ ∈ found
  | .countPoints _ _ => ∀ k, nodeAt owner k s.graph = none
  | t => ∀ k v, t.copy L k = some v → v = imageAt L owner k s.graph

theorem not_ahead_of_reads (h : t.reads = true) : ¬ t.Ahead k := by
  cases t with
  | raising | search | expand | loadEntities | getEntity | getRelations => exact Bool.false_ne_true
  | _ => cases h

theorem ahead_of_sweeps (h : t.sweeps = true) : t.Ahead k := by
  cases t with
  | countOwner | findNodes | deleteNodes | countPoints | deleteOwner => rfl
  | _ => cases h

theorem forgets_of_reads (h : t.reads = true) : t.forgets = false := by
  cases t <;> first | rfl | cases h

theorem fresh_of_reads (h : t.reads = true) : Fresh L owner s t := by
  have hcopy : ∀ k v, t.copy L k = some v → v = imageAt L owner k s.graph := by
    intro k v hv
    rw [copy_of_reads h] at hv
    cases hv
  cases t with
  | deleteNodes | countPoints => cases h
  | _ => exact hcopy

theorem copy_stored :
    ((Local.upsertEntities u stored relations).copy L k).isSome = true ↔
      ∃ e ∈ stored, e.key = k := by
  simp [Local.copy, List.find?_isSome]

theorem More.forgets_eq (h : More c now s t s' t') : t'.forgets = t.forgets := by
  cases h with
  | read hr hr' => rw [forgets_of_reads hr, forgets_of_reads hr']
  | _ => rfl

/-- A call deals only with what it was to deal with from the start, unless it deletes a source. -/
theorem More.ahead_of (h : More c now s t s' t') (hforgets : t.forgets = false) (hk : t'.Ahead k) :
    t.Ahead k := by
  cases h with
  | upsertGraph u =>
    obtain ⟨e, he, rfl⟩ := hk
    exact (mem_stored he).1
  | deleteEntity o key n => exact (List.mem_singleton.mp hk).symm
  | countOwner | findNodes | deleteNodes | noNodes | countPoints => exact rfl
  | upsertEntities u stored relations => cases hk
  | noPassages | countSource | deleteSource | forgetSource => cases hforgets
  | read hr hr' => exact absurd hk (not_ahead_of_reads hr')

/-- A call goes on dealing with an entity, or writes what it has for it. -/
theorem More.ahead (h : More c now s t s' t') (hk : t.Ahead k) :
    t'.Ahead k ∨ (t.copy L k).isSome = true := by
  cases h with
  | upsertGraph u => exact .inl (exists_stored (c := c) hk)
  | upsertEntities u stored relations => exact .inr (copy_stored.mpr hk)
  | deleteEntity o key n => exact .inl (List.mem_singleton.mpr (Eq.symm hk))
  | countOwner | findNodes | deleteNodes | noNodes | countPoints => exact .inl rfl
  | noPassages | countSource | deleteSource | forgetSource => cases hk
  | read hr hr' => exact absurd hk (not_ahead_of_reads hr)

theorem Done.copy_of_ahead (h : Done c s t s') (hk : t.Ahead k) : (t.copy L k).isSome = true := by
  cases h with
  | upsertPassages u stored relations => cases hk
  | deletePoints o keys reply =>
    unfold Local.copy
    dsimp only
    rw [if_pos (show k ∈ keys from hk)]
    rfl
  | deleteOwner o count n => rfl
  | read hr => exact absurd hk (not_ahead_of_reads hr)

theorem ahead_of_copy (h : (t.copy L k).isSome = true) : t.Ahead k := by
  cases t with
  | upsertEntities u stored relations => exact copy_stored.mp h
  | deletePoints o keys reply =>
    unfold Local.copy at h
    dsimp only at h
    split_ifs at h with hk
    · exact hk
    · cases h
  | deleteOwner o count n => rfl
  | _ => cases h

/-- What a call writes is what the graph says. -/
theorem Fresh.copy (h : Fresh L owner s t) (hv : t.copy L k = some v) :
    v = imageAt L owner k s.graph := by
  cases t with
  | deleteNodes | countPoints => cases hv
  | _ => exact h k v hv

theorem Fresh.more (hs : Sound c.library owner used s) (ht : t.Of owner used)
    (h : Fresh c.library owner s t) (hq : More c now s t s' t') : Fresh c.library owner s' t' := by
  have hcopy : t.sweeps = false → ∀ k v, t'.copy c.library k = some v →
      v = imageAt c.library owner k s'.graph := by
    intro hsweeps k v hv
    rw [imageAt_more hs ht hsweeps hq, hv]
    rfl
  cases hq with
  | findNodes o count =>
    obtain rfl : o = owner := ht.owned _ rfl
    intro k hk
    obtain ⟨n, hn⟩ := Option.isSome_iff_exists.mp hk
    have hid : n.id = ⟨o, k⟩ := Table.row_key hn
    refine List.mem_map.mpr ⟨n, List.mem_filter.mpr ⟨Table.row_mem hn, ?_⟩, hid⟩
    exact decide_eq_true (congrArg NodeId.owner hid)
  | deleteNodes o count found =>
    intro k hk
    rw [nodeAt_detachDelete hs.nodes] at hk
    obtain ⟨n, hn⟩ := Option.isSome_iff_exists.mp hk
    obtain ⟨hn, hkept⟩ := Option.filter_eq_some_iff.mp hn
    have hid : n.id = ⟨owner, k⟩ := Table.row_key hn
    have hfound := h k (by rw [hn]; rfl)
    rw [← List.take_append_drop deleteRows found, List.mem_append] at hfound
    refine hfound.resolve_left fun htake => ?_
    simp [hid, htake] at hkept
  | noNodes o count =>
    intro k
    by_contra hne
    exact List.not_mem_nil (h k (Option.isSome_iff_ne_none.mpr hne))
  | countPoints o count n =>
    intro k v hv
    cases hv
    rw [imageAt, h k]
    rfl
  | countOwner o count => rintro k v ⟨⟩
  | upsertGraph | upsertEntities | noPassages | countSource | deleteSource | forgetSource
  | deleteEntity => exact hcopy rfl
  | read hr hr' => exact fresh_of_reads hr'

/-! ### While a call is made -/

/-- The entity is in both stores, or in neither. -/
def Agree (L : Library) (owner : Owner) (k : Text) (s : Stores) : Prop :=
  (pointAt L owner k s.points).isSome = (imageAt L owner k s.graph).isSome

/-- The request deals with the entity when it is made. -/
def Covers (L : Library) (k : Text) (req : Request) : Prop := ∃ t, plan L req = .ok t ∧ t.Ahead k

/-- A call that began as `t₀` has come to `t`; `others` have to be made again. -/
structure Working (c : Config) (owner : Owner) (used : Set Text) (others : List Request)
    (t₀ : Local) (s : Stores) (t : Local) : Prop where
  sound : Sound c.library owner used s
  of : t.Of owner used
  fresh : Fresh c.library owner s t
  begun : t.forgets = true ∨ ∀ k, t.Ahead k → t₀.Ahead k
  agree : ∀ k, entityName owner k ∈ used →
    Agree c.library owner k s ∨ (∃ req ∈ others, Covers c.library k req) ∨ t.Ahead k

variable {others : List Request} {t₀ : Local}

theorem Working.more (h : Working c owner used others t₀ s t) (hq : More c now s t s' t') :
    Working c owner used others t₀ s' t' := by
  refine ⟨h.sound.more h.of hq, h.of.more h.sound hq, h.fresh.more h.sound h.of hq, ?_,
    fun k hname => ?_⟩
  · rw [hq.forgets_eq]
    by_cases hforgets : t.forgets = true
    · exact .inl hforgets
    · refine .inr fun k hk => h.begun.resolve_left hforgets k ?_
      exact hq.ahead_of (Bool.eq_false_iff.mpr hforgets) hk
  · by_cases hahead : t'.Ahead k
    · exact .inr (.inr hahead)
    -- The call has nothing more to write for the entity, so the node is as before.
    have hcopy' : t'.copy c.library k = none := by
      by_contra hne
      exact hahead (ahead_of_copy (Option.isSome_iff_ne_none.mpr hne))
    have hsweeps : t.sweeps = false := by
      rw [← hq.sweeps_eq, Bool.eq_false_iff]
      exact fun hs => hahead (ahead_of_sweeps hs)
    have himage := imageAt_more (k := k) h.sound h.of hsweeps hq
    rw [hcopy', Option.getD_none] at himage
    have hpoint := pointAt_more h.sound h.of hname hq
    cases hcopy : t.copy c.library k with
    | some v =>
      refine .inl ?_
      rw [Agree, hpoint, himage, hcopy, Option.getD_some, h.fresh.copy hcopy]
    | none =>
      rw [hcopy, Option.getD_none] at hpoint
      rcases h.agree k hname with hagree | hother | hk
      · refine .inl ?_
        rw [Agree, hpoint, himage]
        exact hagree
      · exact .inr (.inl hother)
      · rcases hq.ahead (L := c.library) hk with hk | hk
        · exact absurd hk hahead
        · rw [hcopy] at hk
          cases hk

theorem Working.done (h : Working c owner used others t₀ s t) (hq : Done c s t s') :
    Sound c.library owner used s' ∧ ∀ k, entityName owner k ∈ used →
      Agree c.library owner k s' ∨ ∃ req ∈ others, Covers c.library k req := by
  refine ⟨h.sound.done h.of hq, fun k hname => ?_⟩
  have hpoint := pointAt_done h.sound h.of hname hq
  unfold Agree
  rw [hpoint, hq.graph_eq]
  cases hcopy : t.copy c.library k with
  | some v => exact .inl (by rw [Option.getD_some, h.fresh.copy hcopy])
  | none =>
    rcases h.agree k hname with hagree | hother | hk
    · exact .inl hagree
    · exact .inr hother
    · have hsome := hq.copy_of_ahead (L := c.library) hk
      rw [hcopy] at hsome
      cases hsome

/-! ### Attempts -/

/-- How a call begins. -/
def Local.begins : Local → Bool
  | .upsertGraph _ | .countSource _ _ | .deleteEntity _ _ | .countOwner _ | .search _ |
    .getEntity .. => true
  | _ => false

variable {req : Request}

theorem begins_of_plan (h : plan L req = .ok t) :
    t.begins = true ∧ (req.changes = true ∨ t.reads = true) := by
  cases req with
  | upsertKnowledge req =>
    obtain ⟨u, -, h⟩ := bind_eq_ok.mp h
    cases h
    exact ⟨rfl, .inl rfl⟩
  | retrieve req =>
    obtain ⟨q, -, h⟩ := bind_eq_ok.mp h
    cases h
    exact ⟨rfl, .inr rfl⟩
  | getEntity tenantId userId scope key limit =>
    obtain ⟨_, -, h⟩ := bind_eq_ok.mp h
    obtain ⟨_, -, h⟩ := bind_eq_ok.mp h
    obtain ⟨-, h⟩ := ensure_bind_eq_ok.mp h
    cases h
    exact ⟨rfl, .inr rfl⟩
  | deleteSource tenantId userId scope sourceId =>
    obtain ⟨_, -, h⟩ := bind_eq_ok.mp h
    obtain ⟨_, -, h⟩ := bind_eq_ok.mp h
    cases h
    exact ⟨rfl, .inl rfl⟩
  | deleteEntity tenantId userId scope key =>
    obtain ⟨_, -, h⟩ := bind_eq_ok.mp h
    obtain ⟨_, -, h⟩ := bind_eq_ok.mp h
    cases h
    exact ⟨rfl, .inl rfl⟩
  | deleteUserKnowledge tenantId userId =>
    obtain ⟨_, -, h⟩ := bind_eq_ok.mp h
    obtain ⟨_, -, h⟩ := bind_eq_ok.mp h
    cases h
    exact ⟨rfl, .inl rfl⟩

theorem fresh_of_begins (h : t.begins = true) : Fresh L owner s t := by
  cases t with
  | upsertGraph | countSource | deleteEntity | countOwner | search | getEntity => rintro k v ⟨⟩
  | _ => cases h

/-- Between two attempts. -/
structure Settled (c : Config) (owner : Owner) (used : Set Text) (s : Retrying) : Prop where
  sound : Sound c.library owner used s.stores
  agree : ∀ k, entityName owner k ∈ used →
    Agree c.library owner k s.stores ∨ ∃ req ∈ s.pending, Covers c.library k req

/-- A call begins. -/
theorem Settled.working {s : Retrying} (h : Settled c owner used s)
    (hplan : plan c.library req = .ok t) (hof : t.Of owner used) :
    Working c owner used (s.pending.filter (· ≠ req)) t s.stores t := by
  refine ⟨h.sound, hof, fresh_of_begins (begins_of_plan hplan).1, .inr fun _ hk => hk,
    fun k hname => ?_⟩
  rcases h.agree k hname with hagree | ⟨req', hreq', hcovers⟩
  · exact .inl hagree
  · by_cases heq : req' = req
    · obtain ⟨t', ht', hk⟩ := heq ▸ hcovers
      obtain rfl := Except.ok.inj (hplan.symm.trans ht')
      exact .inr (.inr hk)
    · exact .inr (.inl ⟨req', List.mem_filter.mpr ⟨hreq', decide_eq_true heq⟩, hcovers⟩)

/-- What the deletion of a source has left to do is nothing, or the attempt was not orderly. -/
theorem Working.agree_of_forgets (h : Working c owner used others t₀ s t)
    (hforgets : t.forgets = true) (hnone : ∀ o keys n relations entities,
      t = .deletePoints o keys (.sourceDeleted n relations entities) →
      ∀ k ∈ keys, pointAt c.library o k s.points = none) (hk : t.Ahead k) :
    Agree c.library owner k s := by
  cases t with
  | deletePoints o keys reply =>
    obtain rfl : o = owner := h.of.owned _ rfl
    cases reply with
    | sourceDeleted n relations entities =>
      have hcopy : (Local.deletePoints o keys
        (.sourceDeleted n relations entities)).copy c.library k =
        some none := if_pos hk
      rw [Agree, hnone o keys n relations entities rfl k hk, ← h.fresh.copy hcopy]
    | _ => cases hforgets
  | countSource | deleteSource | forgetSource => cases hk
  | _ => cases hforgets

/-- The call fails, and is to be made again. -/
theorem Working.failed (h : Working c owner used (pending.filter (· ≠ req)) t₀ s t)
    (hplan : plan c.library req = .ok t₀)
    (hnone : ∀ o keys n relations entities,
      t = .deletePoints o keys (.sourceDeleted n relations entities) →
      ∀ k ∈ keys, pointAt c.library o k s.points = none) :
    Settled c owner used ⟨s, if req.changes then req :: pending else pending⟩ := by
  refine ⟨h.sound, fun k hname => ?_⟩
  rcases h.agree k hname with hagree | ⟨req', hreq', hcovers⟩ | hk
  · exact .inl hagree
  · refine .inr ⟨req', ?_, hcovers⟩
    have hmem := (List.mem_filter.mp hreq').1
    dsimp only
    split_ifs
    · exact List.mem_cons_of_mem _ hmem
    · exact hmem
  · rcases h.begun with hforgets | hbegun
    · exact .inl (h.agree_of_forgets hforgets hnone hk)
    · have hchanges : req.changes = true :=
        (begins_of_plan hplan).2.resolve_right fun hr => not_ahead_of_reads hr (hbegun k hk)
      refine .inr ⟨req, ?_, t₀, hplan, hbegun k hk⟩
      dsimp only
      rw [if_pos hchanges]
      exact List.mem_cons_self

/-- **An attempt.** -/
theorem Settled.retry {s s' : Retrying} {a : Attempt} (h : Settled c owner used s)
    (hnames : ∀ n ∈ (enter c.library a.call).names, n ∈ used) (hok : orderly c s a = true)
    (hstep : retry c owner s a = some s') : Settled c owner used s' := by
  unfold Knowledge.retry at hstep
  unfold orderly at hok
  cases hplan : plan c.library a.call.request with
  | error e =>
    rw [hplan] at hstep
    cases hstep
    exact h
  | ok t =>
    rw [hplan] at hstep hok
    dsimp only at hstep hok
    by_cases hall : t.owner?.all (fun o => decide (o = owner)) = true
    · rw [if_pos hall] at hstep
      rw [enter, hplan] at hnames
      have hof : t.Of owner used :=
        ⟨fun o ho => of_decide_eq_true ((Option.all_eq_true ..).mp hall o ho), hnames⟩
      obtain ⟨hmore, hdone⟩ := attempt_inv (n := a.queries)
        (P := Working c owner used (s.pending.filter (· ≠ a.call.request)) t)
        (fun _ _ _ _ hw hnext => hw.more (more_of_next hnext))
        (fun _ _ _ _ hw hnext => hw.done (done_of_next hnext)) (h.working hplan hof)
      cases hattempt : attempt c a.call.now a.queries s.stores t with
      | done stores r =>
        rw [hattempt] at hstep
        cases hstep
        obtain ⟨hsound, hagree⟩ := hdone stores r hattempt
        exact ⟨hsound, hagree⟩
      | more stores t' =>
        rw [hattempt] at hstep hok
        cases hstep
        refine (hmore stores t' hattempt).failed hplan ?_
        rintro o keys n relations entities rfl k hk
        exact Option.isNone_iff_eq_none.mp (List.all_eq_true.mp hok k hk)
    · rw [if_neg hall] at hstep
      cases hstep

/-! ### Whole runs -/

theorem mem_nodeKeys : k ∈ nodeKeys owner g ↔ (nodeAt owner k g).isSome = true := by
  unfold nodeKeys nodeAt
  rw [Table.row_isSome, List.mem_filterMap]
  refine exists_congr fun n => and_congr_right fun _ => ?_
  constructor
  · intro h
    split_ifs at h with howner
    cases h
    rw [← howner]
    rfl
  · intro hid
    have howner : n.owner = owner := congrArg NodeId.owner hid
    rw [if_pos howner]
    exact congrArg some (congrArg NodeId.key hid)

theorem Sound.mem_pointKeys (h : Sound L owner used s) (hname : entityName owner k ∈ used) :
    k ∈ pointKeys owner s.points ↔ (pointAt L owner k s.points).isSome = true := by
  unfold pointKeys pointAt
  rw [Table.row_isSome, List.mem_filterMap]
  refine exists_congr fun p => and_congr_right fun hp => ?_
  obtain ⟨howner, hplace⟩ := h.placed p hp
  cases hpayload : p.payload with
  | entity e =>
    rw [hpayload] at hplace
    dsimp only at hplace ⊢
    rw [if_pos howner, hplace.2, Option.some_inj]
    exact ⟨fun hk => hk ▸ rfl, entityPointId_inj h.distinct hplace.1 hname⟩
  | passage q =>
    rw [hpayload] at hplace
    refine ⟨fun hnone => ?_, fun hid => absurd hid (hplace k hname)⟩
    cases hnone

/-- The names of the points are in use. -/
theorem Sound.named_point (h : Sound L owner used s) (hk : k ∈ pointKeys owner s.points) :
    entityName owner k ∈ used := by
  obtain ⟨p, hp, hkey⟩ := List.mem_filterMap.mp hk
  obtain ⟨howner, hplace⟩ := h.placed p hp
  cases hpayload : p.payload with
  | entity e =>
    rw [hpayload] at hplace hkey
    dsimp only at hplace hkey
    rw [if_pos howner] at hkey
    cases hkey
    exact hplace.1
  | passage q =>
    rw [hpayload] at hkey
    cases hkey

/-- **Retried deletions converge.** When nothing is left to be made again, the entities that have a
point are those in the graph. No two names of points of these calls have one hash. -/
theorem retries_converge {attempts : List Attempt}
    (huuid : Set.InjOn c.library.uuid5
      (pointNames c.library {call | ∃ a ∈ attempts, a.call = call}))
    {s : Retrying} (h : Runs (retry c owner) (fun s a => orderly c s a = true) {} attempts s)
    (hpending : s.pending = []) (k : Text) :
    k ∈ pointKeys owner s.stores.points ↔ k ∈ nodeKeys owner s.stores.graph := by
  have hsettled : Settled c owner (pointNames c.library
    {call | ∃ a ∈ attempts, a.call = call}) s := by
    refine h.labels.inv (fun s a s' hs hok hstep => hs.retry (fun n hn => ?_) hok.2 hstep)
      ⟨sound_empty huuid, fun _ _ => .inl rfl⟩
    exact ⟨a.call, ⟨a, hok.1, rfl⟩, hn⟩
  have hiff : entityName owner k ∈ pointNames c.library {call | ∃ a ∈ attempts, a.call = call} →
      (k ∈ pointKeys owner s.stores.points ↔ k ∈ nodeKeys owner s.stores.graph) := by
    intro hname
    rw [hsettled.sound.mem_pointKeys hname, mem_nodeKeys]
    rcases hsettled.agree k hname with hagree | ⟨req, hreq, -⟩
    · rw [hagree, imageAt, Option.isSome_map]
    · rw [hpending] at hreq
      cases hreq
  exact ⟨fun hk => (hiff (hsettled.sound.named_point hk)).mp hk,
    fun hk => (hiff (hsettled.sound.named k (mem_nodeKeys.mp hk))).mpr hk⟩

/-- The upsert fails after the graph is written, and is made again; then the source is deleted, at
the second attempt. -/
theorem retries_converge_ann : ∃ s, Runs (retry plain annOwner)
    (fun s a => orderly plain s a = true) {}
    [⟨annUpserts "a" [] [], 1⟩, ⟨annUpserts "a" [] [], 3⟩, ⟨annDeletes "a", 1⟩, ⟨annDeletes "a", 9⟩]
    s ∧ s.pending = [] ∧ (ofString "Person:maria" ∈ pointKeys annOwner s.stores.points ↔
      ofString "Person:maria" ∈ nodeKeys annOwner s.stores.graph) := by
  obtain ⟨s, hs, hpending⟩ : ∃ s, Runs (retry plain annOwner)
    (fun s a => orderly plain s a = true) {}
      [⟨annUpserts "a" [] [], 1⟩, ⟨annUpserts "a" [] [], 3⟩, ⟨annDeletes "a", 1⟩,
        ⟨annDeletes "a", 9⟩] s ∧
      s.pending = [] := exists_of_run (by decide +kernel)
  exact ⟨s, hs, hpending, retries_converge (fun _ _ _ _ h => h) hs hpending _⟩

/-- The deletion of the source fails after its transaction and is made again: the point stays, with
the entity's name. -/
theorem point_left_behind : ∃ s, Runs (retry plain annOwner) (fun _ _ => true = true) {}
    [⟨annUpserts "a" [] [], 3⟩, ⟨annDeletes "a", 2⟩, ⟨annDeletes "a", 9⟩] s ∧
    s.pending = [] ∧ ofString "Person:maria" ∈ pointKeys annOwner s.stores.points ∧
      ofString "Person:maria" ∉ nodeKeys annOwner s.stores.graph :=
  exists_of_run (by decide +kernel)

end Jarvis.Knowledge
