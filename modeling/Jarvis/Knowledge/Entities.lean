import Jarvis.Knowledge.Points
import Jarvis.Knowledge.Queries
import Jarvis.Support

/-!
# The knowledge service: one entity in both stores

An entity is a node in the graph and a point among the vectors. The point ought to be the image of
the node. A call changes the node in one query and holds on to what the point should become
(`Local.copy`), which it writes in another. What each query does to the node and to the point of one
key is worked out here.
-/

namespace Jarvis.Knowledge

open Pool

variable {c : Config} {L : Library} {owner : Owner} {s s' : Stores} {t t' : Local}
  {now : Time} {k : Text}
  {g : Graph} {points : Points} {used : Set Text}

/-! ### The node and the point of a key -/

/-- An entity with this key is among those of a request. -/
def HasKey (k : Text) (entities : List EntityWrite) : Prop := ∃ e ∈ entities, e.key = k

def nodeAt (owner : Owner) (k : Text) (g : Graph) : Option Node :=
  Table.row Node.id ⟨owner, k⟩ g.nodes

def pointAt (L : Library) (owner : Owner) (k : Text) (points : Points) : Option Point :=
  Table.row Point.id (entityPointId L owner k) points

/-- The point that a node ought to have. -/
def imageAt (L : Library) (owner : Owner) (k : Text) (g : Graph) : Option Point :=
  (nodeAt owner k g).map fun n => entityPoint L owner n.stored

/-- A point is where the id of its entity says; those of passages are elsewhere. -/
def InPlace (L : Library) (owner : Owner) (used : Set Text) (p : Point) : Prop :=
  p.owner = owner ∧
    match p.payload with
    | .passage _ => ∀ k, entityName owner k ∈ used → p.id ≠ entityPointId L owner k
    | .entity e => entityName owner e.key ∈ used ∧ p.id = entityPointId L owner e.key

/-- The stores of one owner, whose points have these names. -/
structure Sound (L : Library) (owner : Owner) (used : Set Text) (s : Stores) : Prop where
  distinct : Set.InjOn L.uuid5 used
  nodes : Table.Keyed Node.id s.graph.nodes
  named : ∀ k, (nodeAt owner k s.graph).isSome = true → entityName owner k ∈ used
  points : Table.Keyed Point.id s.points
  placed : ∀ p ∈ s.points, InPlace L owner used p

theorem sound_empty (h : Set.InjOn L.uuid5 used) : Sound L owner used {} :=
  ⟨h, List.nodup_nil, nofun, List.nodup_nil, nofun⟩

def Upsert.passageNames (u : Upsert) : List Text :=
  u.passages.map fun p => passageName u.owner u.source.id p.id

/-- The names of the points that a call has still to write or to delete, as far as they are
known. -/
def Local.names : Local → List Text
  | .upsertGraph u => u.entities.map (fun e => entityName u.owner e.key) ++ u.passageNames
  | .upsertEntities u stored _ => stored.map (fun e => entityName u.owner e.key) ++ u.passageNames
  | .upsertPassages u _ _ => u.passageNames
  | .deletePoints owner keys _ => keys.map (entityName owner)
  | .deleteEntity owner key => [entityName owner key]
  | _ => []

/-- A call of the owner, with names that are in use. -/
structure Local.Of (owner : Owner) (used : Set Text) (t : Local) : Prop where
  owned : ∀ o ∈ t.owner?, o = owner
  named : ∀ n ∈ t.names, n ∈ used

/-- The names of the points that calls write or delete. -/
def pointNames (L : Library) (calls : Set Call) : Set Text :=
  {n | ∃ call ∈ calls, n ∈ (enter L call).names}

/-! ### The graph -/

section

variable {source : Text} {entities : List EntityWrite} {relations : List RelationWrite}

variable {nodes : List Node}

theorem row_mergeEntity :
    Table.row Node.id ⟨owner, k⟩ (mergeEntity owner source now nodes e) =
      if e.key = k then some ((Table.row Node.id ⟨owner, e.key⟩ nodes).elim
        ((Node.create owner now e).merge source now e) (Node.merge source now e))
      else Table.row Node.id ⟨owner, k⟩ nodes := by
  have hid : (⟨owner, e.key⟩ : NodeId) = ⟨owner, k⟩ ↔ e.key = k := by simp
  have hmerge : ∀ n : Node, Node.id (n.merge source now e) = n.id := fun _ => rfl
  refine (Support.row_mergeRow (k := ⟨owner, e.key⟩)
    (x := (Node.create owner now e).merge source now e) hmerge rfl).trans ?_
  simp only [hid]

theorem keyed_upsert (h : Table.Keyed Node.id g.nodes) :
    Table.Keyed Node.id (g.upsert c.rounding owner source now entities relations).1.nodes := by
  change Table.Keyed Node.id (entities.foldl (mergeEntity owner source now) g.nodes)
  generalize g.nodes = nodes at h
  induction entities generalizing nodes with
  | nil => exact h
  | cons e entities ih => exact ih _ (Support.keyed_mergeRow (fun _ => rfl) rfl h)

/-- An upsert leaves the nodes it does not name. -/
theorem nodeAt_upsert_of_not (h : ¬ HasKey k entities) :
    nodeAt owner k (g.upsert c.rounding owner source now entities relations).1 =
      nodeAt owner k g := by
  change Table.row Node.id ⟨owner, k⟩ (entities.foldl (mergeEntity owner source now) g.nodes) =
    Table.row Node.id ⟨owner, k⟩ g.nodes
  generalize g.nodes = nodes
  induction entities generalizing nodes with
  | nil => rfl
  | cons e entities ih =>
    have hne : e.key ≠ k := fun hk => h ⟨e, List.mem_cons_self, hk⟩
    have hrest : ¬ HasKey k entities := fun ⟨e', he', hk⟩ => h ⟨e', List.mem_cons_of_mem _ he', hk⟩
    rw [List.foldl_cons, ih hrest, row_mergeEntity, if_neg hne]

/-- An upsert leaves a node for each entity it names. -/
theorem isSome_nodeAt_upsert (h : HasKey k entities) :
    (nodeAt owner k (g.upsert c.rounding owner source now entities relations).1).isSome = true := by
  change (Table.row Node.id ⟨owner, k⟩
    (entities.foldl (mergeEntity owner source now) g.nodes)).isSome = true
  -- A node that is there stays, and the one that is named is there after its turn.
  have hmerge : ∀ e nodes, e.key = k ∨ (Table.row Node.id ⟨owner, k⟩ nodes).isSome = true →
      (Table.row Node.id ⟨owner, k⟩ (mergeEntity owner source now nodes e)).isSome = true := by
    intro e nodes h
    rw [row_mergeEntity]
    split_ifs with hk
    · rfl
    · exact h.resolve_left hk
  have hstays : ∀ (entities : List EntityWrite) nodes,
    (Table.row Node.id ⟨owner, k⟩ nodes).isSome = true →
      (Table.row Node.id ⟨owner, k⟩
        (entities.foldl (mergeEntity owner source now) nodes)).isSome = true := by
    intro entities
    induction entities with
    | nil => exact fun _ h => h
    | cons e entities ih => exact fun nodes h => ih _ (hmerge e nodes (.inr h))
  obtain ⟨e, he, hk⟩ := h
  obtain ⟨before, after, rfl⟩ := List.append_of_mem he
  rw [List.foldl_append, List.foldl_cons]
  exact hstays _ _ (hmerge e _ (.inl hk))

/-- What an upsert gives back is what the graph holds. -/
theorem mem_stored (h : e ∈ (g.upsert c.rounding owner source now entities relations).2.1) :
    HasKey e.key entities ∧ ∃ n,
      nodeAt owner e.key (g.upsert c.rounding owner source now entities relations).1 = some n ∧
      e = n.stored := by
  obtain ⟨w, hw, hrow⟩ := List.mem_filterMap.mp h
  obtain ⟨n, hn, rfl⟩ := Option.map_eq_some_iff.mp hrow
  have hkey : n.stored.key = w.key := congrArg NodeId.key (Table.row_key hn)
  refine ⟨⟨w, hw, hkey.symm⟩, n, ?_, rfl⟩
  rw [hkey]
  exact hn

theorem exists_stored (h : HasKey k entities) :
    ∃ e ∈ (g.upsert c.rounding owner source now entities relations).2.1, e.key = k := by
  obtain ⟨n, hn⟩ : ∃ n, nodeAt owner k (g.upsert c.rounding owner source now entities relations).1 =
      some n := Option.isSome_iff_exists.mp (isSome_nodeAt_upsert h)
  obtain ⟨w, hw, rfl⟩ := h
  refine ⟨n.stored, List.mem_filterMap.mpr ⟨w, hw, ?_⟩, congrArg NodeId.key (Table.row_key hn)⟩
  exact Option.map_eq_some_iff.mpr ⟨n, hn, rfl⟩

/-- Some nodes of the owner go, and others lose a source. -/
theorem image_row_forget {matched gone : Node → Bool} (h : Table.Keyed Node.id nodes)
    (howner : ∀ n, gone n = true → n.owner = owner) :
    ((Table.row Node.id ⟨owner, k⟩ (Table.set matched (Node.forget source)
      (Table.delete gone nodes))).map fun n => entityPoint L owner n.stored) =
      if k ∈ (nodes.filter gone).map Node.key then none
      else (Table.row Node.id ⟨owner, k⟩ nodes).map fun n => entityPoint L owner n.stored := by
  have hforget : ∀ n : Node, Node.id (n.forget source) = n.id := fun _ => rfl
  rw [Table.row_set hforget, h.row_delete]
  cases hn : Table.row Node.id ⟨owner, k⟩ nodes with
  | none => simp
  | some n =>
    have hid : n.id = ⟨owner, k⟩ := Table.row_key hn
    have hmem : k ∈ (nodes.filter gone).map Node.key ↔ gone n = true := by
      rw [List.mem_map]
      constructor
      · rintro ⟨n', hn', rfl⟩
        obtain ⟨hn', hg⟩ := List.mem_filter.mp hn'
        have hid' : n'.id = n.id := by
          rw [hid, ← howner n' hg]
          rfl
        exact h.eq hn' (Table.row_mem hn) hid' ▸ hg
      · exact fun hg => ⟨n, List.mem_filter.mpr ⟨Table.row_mem hn, hg⟩, congrArg NodeId.key hid⟩
    by_cases hg : gone n = true
    · rw [if_pos (hmem.mpr hg)]
      simp [Option.filter, hg]
    · rw [if_neg fun hk => hg (hmem.mp hk)]
      simp only [Option.filter, Bool.eq_false_iff.mpr hg, Bool.not_false, if_true, Option.map_some]
      split_ifs
      · rfl
      · rfl

/-- What is forgotten was there. -/
theorem isSome_of_mem_forgetSource (h : k ∈ (g.forgetSource owner source).2.2) :
    (nodeAt owner k g).isSome = true := by
  obtain ⟨n, hn, rfl⟩ := List.mem_map.mp h
  obtain ⟨hn, hgone⟩ := List.mem_filter.mp hn
  simp only [Bool.and_eq_true, decide_eq_true_eq] at hgone
  exact Table.row_isSome.mpr ⟨n, hn, by rw [← hgone.1.1.1]; rfl⟩

/-- Forgetting a source takes the nodes whose keys it gives back; of the others only the sources
change. -/
theorem imageAt_forgetSource (h : Table.Keyed Node.id g.nodes) :
    imageAt L owner k (g.forgetSource owner source).1 =
      if k ∈ (g.forgetSource owner source).2.2 then none else imageAt L owner k g := by
  refine image_row_forget h fun n hg => ?_
  simp only [Bool.and_eq_true, decide_eq_true_eq] at hg
  exact hg.1.1.1

theorem nodeAt_detachDelete {p : Node → Bool} (h : Table.Keyed Node.id g.nodes) :
    nodeAt owner k (g.detachDelete p) = (nodeAt owner k g).filter fun n => !p n :=
  h.row_delete

theorem nodeAt_deleteEntity (h : Table.Keyed Node.id g.nodes) :
    nodeAt owner k (g.deleteEntity owner key).1 = if k = key then none else nodeAt owner k g := by
  refine (nodeAt_detachDelete h).trans ?_
  cases hn : nodeAt owner k g with
  | none => simp
  | some n =>
    have hid : n.id = ⟨owner, k⟩ := Table.row_key hn
    by_cases hk : k = key
    · simp [Option.filter, hid, hk]
    · simp [Option.filter, hid, hk]

end

/-! ### The points -/

theorem pointAt_upsertEntities (huuid : Set.InjOn L.uuid5 used) (hk : entityName owner k ∈ used)
    {stored : List StoredEntity} (hstored : ∀ e ∈ stored, entityName owner e.key ∈ used) :
    pointAt L owner k (upsertPoints (stored.map (entityPoint L owner)) points) =
      ((stored.reverse.find? fun e => e.key = k).map (entityPoint L owner)).or
        (pointAt L owner k points) := by
  have hid : ∀ e ∈ stored.reverse, decide ((entityPoint L owner e).id = entityPointId L owner k) =
      decide (e.key = k) := by
    intro e he
    refine decide_eq_decide.mpr ⟨entityPointId_inj huuid
      (hstored e (List.mem_reverse.mp he)) hk, ?_⟩
    rintro rfl
    rfl
  unfold pointAt
  rw [row_upsertPoints, ← List.map_reverse, List.find?_map]
  exact congrArg (fun o => (Option.map _ o).or _) (List.find?_congr hid)

variable {source : SourceInfo} {new : Points}

theorem pointAt_upsertPassages (huuid : Set.InjOn L.uuid5 used) (hk : entityName owner k ∈ used)
    {passages : List PassageWrite} (hpassages : ∀ p ∈ passages,
      passageName owner source.id p.id ∈ used) :
    pointAt L owner k (upsertPoints (passages.map (passagePoint L owner source)) points) =
      pointAt L owner k points := by
  refine row_upsertPoints_of_ne fun q hq => ?_
  obtain ⟨p, hp, rfl⟩ := List.mem_map.mp hq
  exact passagePointId_ne huuid (hpassages p hp) hk

theorem pointAt_deleteEntityPoints (huuid : Set.InjOn L.uuid5 used) (hk : entityName owner k ∈ used)
    (hkeys : ∀ k' ∈ keys, entityName owner k' ∈ used) (h : Table.Keyed Point.id points) :
    pointAt L owner k (deleteEntityPoints L owner keys points) =
      if k ∈ keys then none else pointAt L owner k points := by
  have hmem : entityPointId L owner k ∈ keys.map (entityPointId L owner) ↔ k ∈ keys := by
    rw [List.mem_map]
    refine ⟨fun ⟨k', hk', hid⟩ => ?_, fun hk => ⟨k, hk, rfl⟩⟩
    exact entityPointId_inj huuid (hkeys k' hk') hk hid ▸ hk'
  unfold pointAt deleteEntityPoints
  rw [h.row_delete]
  cases hp : Table.row Point.id (entityPointId L owner k) points with
  | none => simp
  | some p =>
    have hid : p.id = entityPointId L owner k := Table.row_key hp
    by_cases hk : k ∈ keys
    · rw [if_pos hk]
      simp only [Option.filter, hid, hmem.mpr hk, decide_true, Bool.not_true]
      rfl
    · have hnot : entityPointId L owner k ∉ keys.map (entityPointId L owner) := fun h =>
        hk (hmem.mp h)
      rw [if_neg hk]
      simp only [Option.filter, hid, hnot, decide_false, Bool.not_false, if_true]

/-- Passages are not where entities are. -/
theorem pointAt_deletePassages (hk : entityName owner k ∈ used)
    (hkeyed : Table.Keyed Point.id points) (hplaced : ∀ p ∈ points, InPlace L owner used p) :
    pointAt L owner k (Table.delete (Point.isPassageOf owner sourceId) points) =
      pointAt L owner k points := by
  unfold pointAt
  rw [hkeyed.row_delete]
  cases hp : Table.row Point.id (entityPointId L owner k) points with
  | none => rfl
  | some p =>
    have hkept : p.isPassageOf owner sourceId = false := by
      obtain ⟨-, hplace⟩ := hplaced p (Table.row_mem hp)
      unfold Point.isPassageOf
      cases hpayload : p.payload with
      | entity e => simp
      | passage q =>
        rw [hpayload] at hplace
        exact absurd (Table.row_key hp) (hplace k hk)
    simp only [Option.filter, hkept, Bool.not_false, if_true]

theorem pointAt_deleteOwner (hplaced : ∀ p ∈ points, InPlace L owner used p) :
    pointAt L owner k (Table.delete (fun p => p.owner = owner) points) = none := by
  refine Table.row_eq_none.mpr fun p hp => ?_
  obtain ⟨hp, hkept⟩ := Table.mem_delete.mp hp
  exact absurd (hplaced p hp).1 (of_decide_eq_false hkept)

/-! ### Queries -/

/-- What a call is about to make of the point of an entity. -/
def Local.copy (L : Library) (k : Text) : Local → Option (Option Point)
  | .upsertEntities u stored _ =>
    (stored.reverse.find? fun e => e.key = k).map fun e => some (entityPoint L u.owner e)
  | .deletePoints _ keys _ => if k ∈ keys then some none else none
  | .deleteOwner _ _ _ => some none
  | _ => none

theorem copy_of_reads (h : t.reads = true) : t.copy L k = none := by
  cases t <;> first | rfl | cases h

theorem names_of_reads (h : t.reads = true) : t.names = [] := by
  cases t <;> first | rfl | cases h

theorem getD_ite_none {p : Prop} [Decidable p] :
    (if p then some none else none : Option (Option Point)).getD x = if p then none else x := by
  split_ifs
  · rfl
  · rfl

theorem forall_mem_upsertPoints {P : Point → Prop} (hnew : ∀ p ∈ new, P p) (h : ∀ p ∈ points, P p) :
    ∀ p ∈ upsertPoints new points, P p := by
  intro p hp
  rcases mem_of_mem_upsertPoints hp with hp | hp
  · exact hnew p hp
  · exact h p hp

/-- What is kept of the points, if some are deleted. -/
theorem Sound.delete {p : Point → Bool} (h : Sound L owner used s) :
    Sound L owner used { s with points := Table.delete p s.points } :=
  ⟨h.distinct, h.nodes, h.named, h.points.delete, fun q hq => h.placed q (Table.mem_delete.mp hq).1⟩

theorem Sound.upsertPoints (h : Sound L owner used s) (hnew : ∀ p ∈ new, InPlace L owner used p) :
    Sound L owner used { s with points := upsertPoints new s.points } :=
  ⟨h.distinct, h.nodes, h.named, keyed_upsertPoints h.points, forall_mem_upsertPoints hnew h.placed⟩

/-- What is kept of the nodes, if some are deleted. -/
theorem Sound.detachDelete {p : Node → Bool} (h : Sound L owner used s) :
    Sound L owner used { s with graph := s.graph.detachDelete p } := by
  refine ⟨h.distinct, h.nodes.delete, fun k hk => h.named k ?_, h.points, h.placed⟩
  rw [nodeAt_detachDelete h.nodes] at hk
  exact Option.isSome_of_isSome_filter _ _ hk

section

variable (h : Sound c.library owner used s) (ht : t.Of owner used)
include h ht

/-- What a call deals with later is what it was to deal with, or is in the graph. -/
theorem Local.Of.more (hq : More c now s t s' t') : t'.Of owner used := by
  refine ⟨hq.owner?_eq ▸ ht.owned, fun n hn => ?_⟩
  cases hq with
  | upsertGraph u =>
    rcases List.mem_append.mp hn with hn | hn
    · obtain ⟨e, he, rfl⟩ := List.mem_map.mp hn
      obtain ⟨⟨w, hw, hkey⟩, -⟩ := mem_stored he
      exact ht.named _ (List.mem_append_left _ (List.mem_map.mpr ⟨w, hw, by rw [hkey]⟩))
    · exact ht.named n (List.mem_append_right _ hn)
  | upsertEntities u stored relations => exact ht.named n (List.mem_append_right _ hn)
  | forgetSource o sourceId m =>
    obtain rfl : o = owner := ht.owned _ rfl
    obtain ⟨k, hk, rfl⟩ := List.mem_map.mp hn
    exact h.named k (isSome_of_mem_forgetSource hk)
  | deleteEntity o key m => exact ht.named n hn
  | read hr hr' =>
    rw [names_of_reads hr'] at hn
    cases hn
  | _ => cases hn

/-- **A query keeps the stores sound.** -/
theorem Sound.more (hq : More c now s t s' t') : Sound c.library owner used s' := by
  cases hq with
  | upsertGraph u =>
    obtain rfl : u.owner = owner := ht.owned _ rfl
    refine ⟨h.distinct, keyed_upsert h.nodes, fun k hk => ?_, h.points, h.placed⟩
    by_cases hkey : HasKey k u.entities
    · obtain ⟨e, he, rfl⟩ := hkey
      exact ht.named _ (List.mem_append_left _ (List.mem_map.mpr ⟨e, he, rfl⟩))
    · rw [nodeAt_upsert_of_not hkey] at hk
      exact h.named k hk
  | upsertEntities u stored relations =>
    obtain rfl : u.owner = owner := ht.owned _ rfl
    refine h.upsertPoints fun p hp => ?_
    obtain ⟨e, he, rfl⟩ := List.mem_map.mp hp
    exact ⟨rfl, ht.named _ (List.mem_append_left _ (List.mem_map.mpr ⟨e, he, rfl⟩)), rfl⟩
  | deleteSource o sourceId n => exact h.delete
  | forgetSource o sourceId n =>
    obtain rfl : o = owner := ht.owned _ rfl
    refine ⟨h.distinct, h.nodes.delete.set fun _ => rfl, fun k hk => h.named k ?_,
      h.points, h.placed⟩
    have himage : (imageAt c.library o k (s.graph.forgetSource o sourceId).1).isSome = true := by
      rwa [imageAt, Option.isSome_map]
    rw [imageAt_forgetSource h.nodes] at himage
    split_ifs at himage
    · cases himage
    · rwa [imageAt, Option.isSome_map] at himage
  | deleteEntity | deleteNodes => exact h.detachDelete
  | noPassages | countSource | countOwner | findNodes | noNodes | countPoints | read => exact h

theorem Sound.done (hq : Done c s t s') : Sound c.library owner used s' := by
  cases hq with
  | upsertPassages u stored relations =>
    obtain rfl : u.owner = owner := ht.owned _ rfl
    refine h.upsertPoints fun p hp => ?_
    obtain ⟨q, hq, rfl⟩ := List.mem_map.mp hp
    exact ⟨rfl, fun _ => passagePointId_ne h.distinct (ht.named _ (List.mem_map.mpr ⟨q, hq, rfl⟩))⟩
  | deletePoints | deleteOwner => exact h.delete
  | read ht => exact h

/-- **What a query does to the point of an entity**: it writes the copy it has, if it has one. -/
theorem pointAt_more (hk : entityName owner k ∈ used) (hq : More c now s t s' t') :
    pointAt c.library owner k s'.points =
      (t.copy c.library k).getD (pointAt c.library owner k s.points) := by
  cases hq with
  | upsertEntities u stored relations =>
    obtain rfl : u.owner = owner := ht.owned _ rfl
    refine (pointAt_upsertEntities h.distinct hk fun e he => ?_).trans ?_
    · exact ht.named _ (List.mem_append_left _ (List.mem_map.mpr ⟨e, he, rfl⟩))
    unfold Local.copy
    dsimp only
    cases stored.reverse.find? fun e => e.key = k with
    | none | some => rfl
  | deleteSource o sourceId n =>
    obtain rfl : o = owner := ht.owned _ rfl
    exact pointAt_deletePassages hk h.points h.placed
  | read hr hr' =>
    rw [copy_of_reads hr]
    rfl
  | _ => rfl

theorem pointAt_done (hk : entityName owner k ∈ used) (hq : Done c s t s') :
    pointAt c.library owner k s'.points =
      (t.copy c.library k).getD (pointAt c.library owner k s.points) := by
  cases hq with
  | upsertPassages u stored relations =>
    obtain rfl : u.owner = owner := ht.owned _ rfl
    exact pointAt_upsertPassages h.distinct hk fun p hp =>
      ht.named _ (List.mem_map.mpr ⟨p, hp, rfl⟩)
  | deletePoints o keys reply =>
    obtain rfl : o = owner := ht.owned _ rfl
    have hkeys : ∀ k' ∈ keys, entityName o k' ∈ used := fun k' hk' =>
      ht.named _ (List.mem_map.mpr ⟨k', hk', rfl⟩)
    exact (pointAt_deleteEntityPoints h.distinct hk hkeys h.points).trans getD_ite_none.symm
  | deleteOwner o count n =>
    obtain rfl : o = owner := ht.owned _ rfl
    exact pointAt_deleteOwner h.placed
  | read hr =>
    rw [copy_of_reads hr]
    rfl

end

/-- What an upsert gives back is the image of what it changes. -/
theorem imageAt_upsert {source : Text} {entities : List EntityWrite}
    {relations : List RelationWrite} :
    imageAt L owner k (g.upsert c.rounding owner source now entities relations).1 =
      (((g.upsert c.rounding owner source now entities relations).2.1.reverse.find? fun e =>
        e.key = k).map fun e => some (entityPoint L owner e)).getD (imageAt L owner k g) := by
  cases hfind : (g.upsert c.rounding owner source now entities relations).2.1.reverse.find?
      (fun e => decide (e.key = k)) with
  | none =>
    have hnot : ¬ HasKey k entities := by
      intro hk
      obtain ⟨e, he, hek⟩ := exists_stored (c := c) hk
      exact List.find?_eq_none.mp hfind e (List.mem_reverse.mpr he) (decide_eq_true hek)
    rw [imageAt, nodeAt_upsert_of_not hnot]
    rfl
  | some e =>
    have hek : e.key = k := by simpa using List.find?_some hfind
    obtain ⟨-, n, hn, rfl⟩ := mem_stored (List.mem_reverse.mp (List.mem_of_find?_eq_some hfind))
    rw [imageAt, ← hek, hn]
    rfl

/-- **What a query does to the node of an entity**: the call that changes it goes on with the
image. -/
theorem imageAt_more (h : Sound c.library owner used s) (ht : t.Of owner used)
    (hsweeps : t.sweeps = false) (hq : More c now s t s' t') :
    imageAt c.library owner k s'.graph =
      (t'.copy c.library k).getD (imageAt c.library owner k s.graph) := by
  cases hq with
  | upsertGraph u =>
    obtain rfl : u.owner = owner := ht.owned _ rfl
    exact imageAt_upsert
  | forgetSource o sourceId n =>
    obtain rfl : o = owner := ht.owned _ rfl
    exact (imageAt_forgetSource h.nodes).trans getD_ite_none.symm
  | deleteEntity o key n =>
    obtain rfl : o = owner := ht.owned _ rfl
    refine Eq.trans ?_ getD_ite_none.symm
    refine (congrArg (Option.map _) (nodeAt_deleteEntity h.nodes)).trans ?_
    simp only [List.mem_singleton]
    split_ifs
    · rfl
    · rfl
  | upsertEntities | noPassages | countSource | deleteSource => rfl
  | read hr hr' =>
    rw [copy_of_reads hr']
    rfl
  | countOwner | findNodes | deleteNodes | noNodes | countPoints => cases hsweeps

end Jarvis.Knowledge
