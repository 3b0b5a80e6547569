import Jarvis.Knowledge.Entities

/-!
# The knowledge service: copies of entities

Calls of one owner run at the same time. A call changes entities in one transaction of the graph,
and then copies what it got to the vectors. Once all have returned, the points are the images of the
nodes (`stores_agree`), provided that no call writes an outdated copy of an entity after the last
one that is up to date. Nothing in the service sees to that: the copies of two calls may be written
in the other order than their transactions, and a copy may be written after the entity is deleted
(`copies_out_of_order`).
-/

namespace Jarvis.Knowledge

open Pool Steps
open Text (ofString)

variable {c : Config} {owner : Owner}

/-- An upsert, or the deletion of a source or an entity, of the owner; or a call that is refused. -/
def admitted (L : Library) (owner : Owner) (call : Call) : Bool :=
  match plan L call.request with
  | .ok t => t.owner? = some owner && !t.sweeps
  | .error _ => true

/-- Calls of the owner, none of which fails. -/
def undisturbed (c : Config) (owner : Owner) : Label Call Unit Empty → Bool
  | .call call => admitted c.library owner call
  | .go _ _ => true
  | .abort _ => false
  | .env e => nomatch e

/-- The entities that a call has copies of. -/
def Local.copied : Local → List Text
  | .upsertEntities _ stored _ => stored.map StoredEntity.key
  | .deletePoints _ keys _ => keys
  | _ => []

/-- The call is about to make of the point what the graph says. -/
def current (L : Library) (owner : Owner) (k : Text) (g : Graph) (t : Local) : Bool :=
  t.copy L k = some (imageAt L owner k g)

/-- An outdated copy is written only while a call with an up-to-date one is still to write it. -/
def timely (c : Config) (owner : Owner) (s : State Stores Call Local Reply) :
    Label Call Unit Empty → Bool
  | .go i _ =>
    (s.threads[i]?).all fun x => x.2.copied.all fun k =>
      current c.library owner k s.db.graph x.2 ||
        (s.threads.eraseIdx i).any fun y => current c.library owner k s.db.graph y.2
  | _ => true

variable {t : Local} {k : Text} {i : ℕ} {db : Stores} {used : Set Text}

theorem mem_copied (hsweeps : t.sweeps = false) (h : (t.copy L k).isSome = true) :
    k ∈ t.copied := by
  cases t with
  | upsertEntities u stored relations =>
    unfold Local.copy at h
    dsimp only at h
    rw [Option.isSome_map, List.find?_isSome] at h
    obtain ⟨e, he, hk⟩ := h
    exact List.mem_map.mpr ⟨e, List.mem_reverse.mp he, of_decide_eq_true hk⟩
  | deletePoints o keys reply =>
    unfold Local.copy at h
    dsimp only at h
    split_ifs at h with hk
    · exact hk
    · cases h
  | deleteOwner o count n => cases hsweeps
  | _ => cases h

/-! ### The invariant -/

/-- Each point is the image of its node, or a call is about to make it that. -/
structure Copied (c : Config) (owner : Owner) (used : Set Text)
    (s : State Stores Call Local Reply) : Prop where
  sound : Sound c.library owner used s.db
  threads : ∀ x ∈ s.threads, x.2.Of owner used ∧ x.2.sweeps = false
  agree : ∀ k, entityName owner k ∈ used →
    pointAt c.library owner k s.db.points = imageAt c.library owner k s.db.graph ∨
    ∃ x ∈ s.threads, x.2.copy c.library k = some (imageAt c.library owner k s.db.graph)

theorem copied_init (h : Set.InjOn c.library.uuid5 used) : Copied c owner used (State.init {}) :=
  ⟨sound_empty h, nofun, fun _ _ => .inl rfl⟩

variable {s : State Stores Call Local Reply}

/-- A call comes in. -/
theorem Copied.call {call : Call} (h : Copied c owner used s)
    (hnames : ∀ n ∈ (enter c.library call).names, n ∈ used)
    (hok : admitted c.library owner call = true) :
    Copied c owner used { s with threads := (call, enter c.library call) :: s.threads } := by
  refine ⟨h.sound, fun x hx => ?_, fun k hname => ?_⟩
  · rcases List.mem_cons.mp hx with rfl | hx
    · cases hplan : plan c.library call.request with
      | ok t =>
        simp only [admitted, hplan, Bool.and_eq_true, decide_eq_true_eq, Bool.not_eq_true'] at hok
        simp only [enter, hplan] at hnames ⊢
        refine ⟨⟨fun o ho => ?_, hnames⟩, hok.2⟩
        exact Option.some.inj (ho.symm.trans hok.1)
      | error e =>
        simp only [enter, hplan]
        exact ⟨⟨nofun, nofun⟩, rfl⟩
    · exact h.threads x hx
  · refine (h.agree k hname).imp_right ?_
    rintro ⟨x, hx, hcopy⟩
    exact ⟨x, List.mem_cons_of_mem _ hx, hcopy⟩

/-- A copy that is written is up to date, or another call has one that is. -/
theorem timely_go (hsweeps : t.sweeps = false) (hok : timely c owner s (.go i ()) = true)
    (hx : s.threads[i]? = some (call, t)) (hv : t.copy c.library k = some v) :
    v = imageAt c.library owner k s.db.graph ∨
      ∃ y ∈ s.threads.eraseIdx i, y.2.copy c.library k =
      some (imageAt c.library owner k s.db.graph) := by
  unfold timely at hok
  dsimp only at hok
  rw [hx, Option.all_some, List.all_eq_true] at hok
  have hk := hok k (mem_copied hsweeps (by rw [hv]; rfl))
  rw [Bool.or_eq_true, List.any_eq_true] at hk
  rcases hk with hcurrent | ⟨y, hy, hcurrent⟩
  · exact .inl (Option.some.inj (hv.symm.trans (of_decide_eq_true hcurrent)))
  · exact .inr ⟨y, hy, of_decide_eq_true hcurrent⟩

section

variable (h : Copied c owner used s)
include h

/-- What the other calls have to write, if the call that goes on has nothing for the entity. -/
theorem Copied.others (hname : entityName owner k ∈ used) {call : Call}
    (hx : s.threads[i]? = some (call, t)) (hnone : t.copy c.library k = none) :
    pointAt c.library owner k s.db.points = imageAt c.library owner k s.db.graph ∨
      ∃ y ∈ s.threads.eraseIdx i, y.2.copy c.library k =
      some (imageAt c.library owner k s.db.graph) := by
  refine (h.agree k hname).imp_right ?_
  rintro ⟨x, hmem, hcopy⟩
  rcases List.mem_cons.mp ((perm_of_getElem? hx).mem_iff.mpr hmem) with rfl | hmem
  · rw [hnone] at hcopy
    cases hcopy
  · exact ⟨x, hmem, hcopy⟩

/-- After the query, the point is what the graph said before, or another call will make it that. -/
theorem Copied.written (hname : entityName owner k ∈ used) {call : Call} {points : Points}
    (hok : timely c owner s (.go i ()) = true) (hx : s.threads[i]? = some (call, t))
    (hpoint : pointAt c.library owner k points = (t.copy c.library k).getD
      (pointAt c.library owner k s.db.points)) :
    pointAt c.library owner k points = imageAt c.library owner k s.db.graph ∨
      ∃ y ∈ s.threads.eraseIdx i, y.2.copy c.library k =
      some (imageAt c.library owner k s.db.graph) := by
  rw [hpoint]
  cases hcopy : t.copy c.library k with
  | some v => exact timely_go (h.threads _ (List.mem_of_getElem? hx)).2 hok hx hcopy
  | none => exact h.others hname hx hcopy

theorem Copied.more {call : Call} {t' : Local} (hok : timely c owner s (.go i ()) = true)
    (hx : s.threads[i]? = some (call, t)) (hq : More c call.now s.db t db t') :
    Copied c owner used (s.after i call (.more db t')) := by
  obtain ⟨hof, hsweeps⟩ := h.threads _ (List.mem_of_getElem? hx)
  have hthreads := set_perm (call, t') hx
  refine ⟨h.sound.more hof hq, fun x hmem => ?_, fun k hname => ?_⟩
  · rcases List.mem_cons.mp (hthreads.mem_iff.mp hmem) with rfl | hmem
    · exact ⟨hof.more h.sound hq, hq.sweeps_eq ▸ hsweeps⟩
    · exact h.threads x (List.mem_of_mem_eraseIdx hmem)
  · have himage := imageAt_more (k := k) h.sound hof hsweeps hq
    change pointAt c.library owner k db.points = imageAt c.library owner k db.graph ∨
      ∃ x ∈ s.threads.set i (call, t'), x.2.copy c.library k =
        some (imageAt c.library owner k db.graph)
    cases hcopy : t'.copy c.library k with
    | some v =>
      -- The transaction has changed the node, and the call has the image.
      rw [hcopy, Option.getD_some] at himage
      refine .inr ⟨(call, t'), hthreads.mem_iff.mpr List.mem_cons_self, ?_⟩
      rw [himage]
      exact hcopy
    | none =>
      rw [hcopy, Option.getD_none] at himage
      rw [himage]
      refine (h.written hname hok hx (pointAt_more h.sound hof hname hq)).imp_right ?_
      rintro ⟨y, hy, hcurrent⟩
      exact ⟨y, hthreads.mem_iff.mpr (List.mem_cons_of_mem _ hy), hcurrent⟩

theorem Copied.done {call : Call} {r : Reply} (hok : timely c owner s (.go i ()) = true)
    (hx : s.threads[i]? = some (call, t)) (hq : Done c s.db t db) :
    Copied c owner used (s.after i call (.done db r)) := by
  obtain ⟨hof, -⟩ := h.threads _ (List.mem_of_getElem? hx)
  refine ⟨h.sound.done hof hq, fun x hmem => h.threads x (List.mem_of_mem_eraseIdx hmem),
    fun k hname => ?_⟩
  change pointAt c.library owner k db.points = imageAt c.library owner k db.graph ∨
    ∃ x ∈ s.threads.eraseIdx i, x.2.copy c.library k = some (imageAt c.library owner k db.graph)
  rw [hq.graph_eq]
  exact h.written hname hok hx (pointAt_done h.sound hof hname hq)

/-- **A step.** -/
theorem Copied.step {s' : State Stores Call Local Reply} {l : Label Call Unit Empty}
    (hnames : ∀ call, l = .call call → ∀ n ∈ (enter c.library call).names, n ∈ used)
    (hok : (undisturbed c owner l && timely c owner s l) = true)
    (hstep : (service c).step s l = some s') : Copied c owner used s' := by
  rw [Bool.and_eq_true] at hok
  rcases System.step_cases hstep with ⟨call, rfl, rfl⟩ | ⟨i, v, call, t, o, rfl, hx, ho, rfl⟩ |
    ⟨i, rfl, rfl⟩ | ⟨e, -⟩
  · exact h.call (hnames call rfl) hok.1
  · have ho := Option.some.inj ho
    cases o with
    | more db t' => exact h.more hok.2 hx (more_of_next ho)
    | done db r => exact h.done hok.2 hx (done_of_next ho)
  · cases hok.1
  · exact nomatch e

end

/-! ### Whole runs -/

/-- **The two stores agree.** Once all calls have returned, the entity points are those of the
entities in the graph, each with the names and the text of its node. No two names of points of these
calls have one hash. -/
theorem stores_agree {ls : List (Label Call Unit Empty)}
    (huuid : Set.InjOn c.library.uuid5 (pointNames c.library {call | .call call ∈ ls}))
    (h : Runs (service c).step (fun s l => (undisturbed c owner l && timely c owner s l) = true)
      (State.init {}) ls s) (hreturned : s.threads = []) (p : Point) :
    (p ∈ s.db.points ∧ p.isPassage = false) ↔
      ∃ n ∈ s.db.graph.nodes, n.owner = owner ∧ p = entityPoint c.library owner n.stored := by
  have hcopied : Copied c owner (pointNames c.library {call | .call call ∈ ls}) s := by
    refine h.labels.inv (fun s l s' hs hok hstep => hs.step (fun call hl n hn => ?_) hok.2 hstep)
      (copied_init huuid)
    subst hl
    exact ⟨call, hok.1, hn⟩
  have hagree : ∀ k, entityName owner k ∈ pointNames c.library {call | .call call ∈ ls} →
      pointAt c.library owner k s.db.points = imageAt c.library owner k s.db.graph := by
    intro k hname
    refine (hcopied.agree k hname).resolve_right ?_
    rintro ⟨x, hx, -⟩
    rw [hreturned] at hx
    cases hx
  constructor
  · rintro ⟨hp, hentity⟩
    obtain ⟨-, hplace⟩ := hcopied.sound.placed p hp
    cases hpayload : p.payload with
    | passage q =>
      rw [Point.isPassage, hpayload] at hentity
      cases hentity
    | entity e =>
      rw [hpayload] at hplace
      have hpoint : pointAt c.library owner e.key s.db.points = some p := by
        rw [pointAt, ← hplace.2]
        exact hcopied.sound.points.row_eq hp
      rw [hagree _ hplace.1] at hpoint
      obtain ⟨n, hn, rfl⟩ := Option.map_eq_some_iff.mp hpoint
      exact ⟨n, Table.row_mem hn, congrArg NodeId.owner (Table.row_key hn), rfl⟩
  · rintro ⟨n, hn, rfl, rfl⟩
    have hnode : nodeAt n.owner n.key s.db.graph = some n := hcopied.sound.nodes.row_eq hn
    have hpoint := hagree n.key (hcopied.sound.named _ (by rw [hnode]; rfl))
    rw [imageAt, hnode] at hpoint
    exact ⟨Table.row_mem hpoint, rfl⟩

/-- What the user `ann` says of Maria. -/
def annDescribes (source description : String) : Call where
  now := 0
  request := .upsertKnowledge {
    tenantId := northTenant
    userId := ofString "ann"
    scope := .user
    source := some { id := ofString source, kind := ofString "note" }
    entities := [{ type := maria.type, name := maria.name, description := ofString description }] }

def annForgetsMaria : Call where
  now := 0
  request := .deleteEntity northTenant (ofString "ann") .user (ofString "Person:maria")

/-- Two upserts, whose copies are written in the order of their transactions. -/
def inOrder : List (Label Call Unit Empty) :=
  [.call (annDescribes "a" "sings"), .call (annDescribes "b" "dances"), .go 1 (), .go 0 (),
    .go 1 (), .go 1 (), .go 0 (), .go 0 ()]

/-- The one copy is that of the person both describe. -/
theorem stores_agree_inOrder : ∃ s, Runs (service plain).step
    (fun s l => (undisturbed plain annOwner l && timely plain annOwner s l) = true)
    (State.init {}) inOrder s ∧
    s.threads.length = 0 ∧ s.db.points.length = 1 ∧ ∀ p, (p ∈ s.db.points ∧ p.isPassage = false) ↔
      ∃ n ∈ s.db.graph.nodes, n.owner = annOwner ∧
      p = entityPoint plain.library annOwner n.stored := by
  obtain ⟨s, hs, hthreads, hpoints⟩ : ∃ s, Runs (service plain).step
      (fun s l => (undisturbed plain annOwner l && timely plain annOwner s l) = true)
      (State.init {}) inOrder s ∧ s.threads.length = 0 ∧ s.db.points.length = 1 :=
    exists_of_run (by decide +kernel)
  exact ⟨s, hs, hthreads, hpoints, stores_agree (fun _ _ _ _ h => h) hs
    (List.length_eq_zero_iff.mp hthreads)⟩

/-- The copies of two upserts in the other order: what is embedded is what `a` said, and the node
says what `b` did. And the copy of an upsert, after the entity is deleted: the point stays. -/
theorem copies_out_of_order :
    (∃ s, Runs (service plain).step (fun _ l => undisturbed plain annOwner l = true) (State.init {})
      [.call (annDescribes "a" "sings"), .call (annDescribes "b" "dances"), .go 1 (), .go 0 (),
        .go 0 (), .go 0 (), .go 0 (), .go 0 ()] s ∧ s.threads.length = 0 ∧
      s.db.points.map Point.embedded = [ofString "Maria (Person): sings"] ∧
      s.db.graph.nodes.map Node.description = [ofString "dances"]) ∧
    ∃ s, Runs (service plain).step (fun _ l => undisturbed plain annOwner l = true) (State.init {})
      [.call (annDescribes "a" "sings"), .go 0 (), .call annForgetsMaria, .go 0 (), .go 0 (),
        .go 0 (), .go 0 ()] s ∧ s.threads.length = 0 ∧
      s.db.points.map Point.embedded = [ofString "Maria (Person): sings"] ∧ s.db.graph.nodes = [] :=
  ⟨exists_of_run (by decide +kernel), exists_of_run (by decide +kernel)⟩

end Jarvis.Knowledge
