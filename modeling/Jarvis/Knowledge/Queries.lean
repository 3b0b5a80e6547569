import Jarvis.Knowledge.Service

/-!
# The knowledge service: what a query does

`next` by cases: a query either leaves something to do (`More`) or is the last one (`Done`). Calls
that only read are one case.
-/

namespace Jarvis.Knowledge

open Pool

variable {c : Config} {s s' : Stores} {t t' : Local} {now : Time} {r : Reply}

/-- Whether the call only reads. -/
def Local.reads : Local → Bool
  | .raising _ | .search _ | .expand .. | .loadEntities .. | .getEntity .. | .getRelations .. =>
    true
  | _ => false

/-- Whether the call deletes everything of an owner. -/
def Local.sweeps : Local → Bool
  | .countOwner _ | .findNodes _ _ | .deleteNodes _ _ _ | .countPoints _ _ | .deleteOwner _ _ _ =>
    true
  | _ => false

/-- Whose knowledge a call changes, if it changes any. -/
def Local.owner? : Local → Option Owner
  | .upsertGraph u | .upsertEntities u _ _ | .upsertPassages u _ _ => some u.owner
  | .countSource owner _ | .deleteSource owner _ _ | .forgetSource owner _ _ |
    .deletePoints owner _ _ | .deleteEntity owner _ | .countOwner owner | .findNodes owner _ |
    .deleteNodes owner _ _ | .countPoints owner _ | .deleteOwner owner _ _ => some owner
  | .raising _ | .search _ | .expand .. | .loadEntities .. | .getEntity .. | .getRelations .. =>
    none

/-- A query that is not the last one. -/
inductive More (c : Config) (now : Time) (s : Stores) : Local → Stores → Local → Prop
  | upsertGraph (u : Upsert) : More c now s (.upsertGraph u)
      { s with
        graph := (s.graph.upsert c.rounding u.owner u.source.id now u.entities u.relations).1 }
      (.upsertEntities u
        (s.graph.upsert c.rounding u.owner u.source.id now u.entities u.relations).2.1
        (s.graph.upsert c.rounding u.owner u.source.id now u.entities u.relations).2.2)
  | upsertEntities (u : Upsert) (stored : List StoredEntity) (relations : ℕ) :
      More c now s (.upsertEntities u stored relations)
        { s with points := upsertPoints (stored.map (entityPoint c.library u.owner)) s.points }
        (.upsertPassages u stored relations)
  | noPassages (owner : Owner) (sourceId : Text)
      (h : s.points.countP (Point.isPassageOf owner sourceId) = 0) :
      More c now s (.countSource owner sourceId) s (.forgetSource owner sourceId 0)
  | countSource (owner : Owner) (sourceId : Text) (n : ℕ) :
      More c now s (.countSource owner sourceId) s (.deleteSource owner sourceId n)
  | deleteSource (owner : Owner) (sourceId : Text) (n : ℕ) :
      More c now s (.deleteSource owner sourceId n)
        { s with points := Table.delete (Point.isPassageOf owner sourceId) s.points }
        (.forgetSource owner sourceId n)
  | forgetSource (owner : Owner) (sourceId : Text) (n : ℕ) :
      More c now s (.forgetSource owner sourceId n)
        { s with graph := (s.graph.forgetSource owner sourceId).1 }
        (.deletePoints owner (s.graph.forgetSource owner sourceId).2.2
          (.sourceDeleted n (s.graph.forgetSource owner sourceId).2.1
            (s.graph.forgetSource owner sourceId).2.2.length))
  | deleteEntity (owner : Owner) (key : Text) (n : ℕ) :
      More c now s (.deleteEntity owner key) { s with graph := (s.graph.deleteEntity owner key).1 }
        (.deletePoints owner [key] (.entityDeleted n))
  | countOwner (owner : Owner) (count : ℕ × ℕ) :
      More c now s (.countOwner owner) s (.findNodes owner count)
  | findNodes (owner : Owner) (count : ℕ × ℕ) : More c now s (.findNodes owner count) s
      (.deleteNodes owner count ((s.graph.nodes.filter fun n => n.owner = owner).map Node.id))
  | deleteNodes (owner : Owner) (count : ℕ × ℕ) (found : List NodeId) :
      More c now s (.deleteNodes owner count found)
        { s with graph := s.graph.detachDelete fun n => n.id ∈ found.take deleteRows }
        (.deleteNodes owner count (found.drop deleteRows))
  | noNodes (owner : Owner) (count : ℕ × ℕ) :
      More c now s (.deleteNodes owner count []) s (.countPoints owner count)
  | countPoints (owner : Owner) (count : ℕ × ℕ) (n : ℕ) :
      More c now s (.countPoints owner count) s (.deleteOwner owner count n)
  | read {t t' : Local} (h : t.reads = true) (h' : t'.reads = true) : More c now s t s t'

/-- The last query. -/
inductive Done (c : Config) (s : Stores) : Local → Stores → Prop
  | upsertPassages (u : Upsert) (stored : List StoredEntity) (relations : ℕ) :
      Done c s (.upsertPassages u stored relations)
        { s with
          points :=
            upsertPoints (u.passages.map (passagePoint c.library u.owner u.source)) s.points }
  | deletePoints (owner : Owner) (keys : List Text) (reply : Reply) :
      Done c s (.deletePoints owner keys reply)
        { s with points := deleteEntityPoints c.library owner keys s.points }
  | deleteOwner (owner : Owner) (count : ℕ × ℕ) (n : ℕ) :
      Done c s (.deleteOwner owner count n)
        { s with points := Table.delete (fun p => p.owner = owner) s.points }
  | read {t : Local} (h : t.reads = true) : Done c s t s

theorem reads_nextHop {q : Query} {kept : List PassageHit} {top frontier : Scores} {hop : ℕ}
    {relations : List Found} : (nextHop q kept top hop relations frontier).reads = true := by
  unfold nextHop
  split_ifs
  · rfl
  · rfl

theorem more_of_next (h : next c s now t = .more s' t') : More c now s t s' t' := by
  cases t with
  | upsertGraph u =>
    cases h
    exact .upsertGraph u
  | upsertEntities u stored relations =>
    cases h
    exact .upsertEntities u stored relations
  | countSource owner sourceId =>
    unfold next at h
    dsimp only at h
    split_ifs at h with hcount
    · cases h
      exact .noPassages owner sourceId hcount
    · cases h
      exact .countSource owner sourceId _
  | deleteSource owner sourceId n =>
    cases h
    exact .deleteSource owner sourceId n
  | forgetSource owner sourceId n =>
    cases h
    exact .forgetSource owner sourceId n
  | deleteEntity owner key =>
    cases h
    exact .deleteEntity owner key _
  | countOwner owner =>
    cases h
    exact .countOwner owner _
  | findNodes owner count =>
    cases h
    exact .findNodes owner count
  | deleteNodes owner count found =>
    unfold next at h
    dsimp only at h
    split_ifs at h with hfound
    · cases h
      exact hfound ▸ .noNodes owner count
    · cases h
      exact .deleteNodes owner count found
  | countPoints owner count =>
    cases h
    exact .countPoints owner count _
  | search q =>
    cases h
    exact .read rfl reads_nextHop
  | expand q kept top hop relations frontier =>
    cases h
    exact .read rfl reads_nextHop
  | getEntity owner key limit =>
    unfold next at h
    dsimp only at h
    split at h
    · cases h
    · cases h
      exact .read rfl rfl
  | upsertPassages | deletePoints | deleteOwner | raising | loadEntities | getRelations => cases h

theorem done_of_next (h : next c s now t = .done s' r) : Done c s t s' := by
  cases t with
  | upsertPassages u stored relations =>
    cases h
    exact .upsertPassages u stored relations
  | deletePoints owner keys reply =>
    cases h
    exact .deletePoints owner keys _
  | deleteOwner owner count n =>
    cases h
    exact .deleteOwner owner count n
  | countSource owner sourceId =>
    unfold next at h
    dsimp only at h
    split_ifs at h
  | deleteNodes owner count found =>
    unfold next at h
    dsimp only at h
    split_ifs at h
  | getEntity owner key limit =>
    unfold next at h
    dsimp only at h
    split at h
    · cases h
      exact .read rfl
    · cases h
  | raising e =>
    cases h
    exact .read rfl
  | loadEntities q kept top relations =>
    cases h
    exact .read rfl
  | getRelations owner key limit e =>
    cases h
    exact .read rfl
  | upsertGraph | upsertEntities | deleteSource | forgetSource | deleteEntity | countOwner
  | findNodes | countPoints | search | expand => cases h

theorem owner?_of_reads (h : t.reads = true) : t.owner? = none := by
  cases t <;> first | rfl | cases h

theorem sweeps_of_reads (h : t.reads = true) : t.sweeps = false := by
  cases t <;> first | rfl | cases h

/-- A call stays with one owner. -/
theorem More.owner?_eq (h : More c now s t s' t') : t'.owner? = t.owner? := by
  cases h with
  | read h h' => rw [owner?_of_reads h, owner?_of_reads h']
  | _ => rfl

theorem More.sweeps_eq (h : More c now s t s' t') : t'.sweeps = t.sweeps := by
  cases h with
  | read h h' => rw [sweeps_of_reads h, sweeps_of_reads h']
  | _ => rfl

/-- The last query of a call leaves the graph. -/
theorem Done.graph_eq (h : Done c s t s') : s'.graph = s.graph := by
  cases h <;> rfl

end Jarvis.Knowledge
